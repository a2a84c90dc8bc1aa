import BloqCircuit.Proofs.Importing
/-! Whole imports: from the inputs of a signature, through the operations, to its outputs. -/
namespace BloqCircuit

/-! ## Inputs -/

namespace Builder

section
variable {β : Type}

/-- A builder with more registers, whose inputs are at hand. -/
def withRegisters (registers : List Register) (b : Builder β) : Builder β :=
  produce (soquetsOn .leftDangle (registers.filter (·.side.isLeft)))
    { b with registers := b.registers ++ registers }

theorem withRegisters_cons (r : Register) (rest : List Register) (b : Builder β) :
    b.withRegisters (r :: rest) = (b.withRegisters [r]).withRegisters rest := by
  have hfilter : (r :: rest).filter (·.side.isLeft) =
      [r].filter (·.side.isLeft) ++ rest.filter (·.side.isLeft) := List.filter_append [r] rest
  have hsoquets : soquetsOn (.leftDangle : Node β) ((r :: rest).filter (·.side.isLeft)) =
      soquetsOn .leftDangle ([r].filter (·.side.isLeft)) ++
        soquetsOn .leftDangle (rest.filter (·.side.isLeft)) := by
    rw [hfilter, soquetsOn, List.flatMap_append]
    rfl
  have hregisters : b.registers ++ r :: rest = b.registers ++ [r] ++ rest := by simp
  rw [withRegisters, hsoquets, produce_append, hregisters]
  rfl

theorem addRegister_withRegisters {r : Register} {b : Builder β} (ho : b.isOpen = true)
    (hv : (⟨b.registers ++ [r]⟩ : Signature).Valid) :
    Gives (addRegister r) b (if r.side.isLeft then some (cellsOn .leftDangle r) else none)
      (b.withRegisters [r]) := by
  refine addRegister_gives.mpr ⟨ho, hv, ?_⟩
  rw [withRegisters, List.filter_cons]
  by_cases hl : r.side.isLeft = true
  · rw [if_pos hl, if_pos hl, if_pos hl]
    exact ⟨rfl, rfl⟩
  · rw [if_neg hl, if_neg hl, if_neg hl]
    exact ⟨rfl, rfl⟩

theorem addRegisters_gives {registers : List Register} {b : Builder β} (ho : b.isOpen = true)
    (hv : (⟨b.registers ++ registers⟩ : Signature).Valid) {out : Soquets β}
    (hn : (out.names ++ (registers.filter (·.side.isLeft)).map (·.name)).Nodup) :
    Gives (addRegisters registers out) b
      ⟨out.entries ++ (registers.filter (·.side.isLeft)).map fun r => (r.name, cellsOn .leftDangle r)⟩
      (b.withRegisters registers) := by
  induction registers generalizing b out with
  | nil =>
    refine gives_pure.mpr ⟨?_, ?_⟩
    · rw [List.filter_nil, List.map_nil, List.append_nil]
    · rw [withRegisters, List.append_nil]
      rfl
  | cons r rest ih =>
    have hassoc : b.registers ++ r :: rest = b.registers ++ [r] ++ rest := by simp
    rw [hassoc] at hv
    have hprefix : (⟨b.registers ++ [r]⟩ : Signature).Valid :=
      Signature.valid_iff.mpr ((Signature.valid_iff.mp hv).sublist (List.sublist_append_left _ _))
    have hadd := addRegister_withRegisters ho hprefix
    rw [withRegisters_cons]
    refine gives_bind.mpr ⟨_, _, hadd, ?_⟩
    by_cases hl : r.side.isLeft = true
    · rw [List.filter_cons, if_pos hl] at hn ⊢
      have hname : r.name ∉ out.names := fun hm =>
        (List.nodup_append.mp hn).2.2 _ hm _ (List.mem_map_of_mem List.mem_cons_self) rfl
      have hinsert := Arrays.insert_of_not_mem hname (cellsOn (.leftDangle : Node β) r)
      rw [if_pos hl]
      have hrest := @ih (b.withRegisters [r]) ho hv (out.insert r.name (cellsOn .leftDangle r)) (by
        rw [hinsert, Arrays.names, List.map_append, List.append_assoc]
        exact hn)
      simp only [hinsert, List.append_assoc] at hrest ⊢
      exact hrest
    · rw [List.filter_cons, if_neg hl] at hn ⊢
      rw [if_neg hl]
      exact ih (b := b.withRegisters [r]) ho hv hn

/-- A builder that starts with the inputs of a signature. -/
def opened (s : Signature) : Builder β := { withRegisters s.registers {} with isOpen := false }

theorem start_gives {s : Signature} (hv : s.Valid) :
    Gives (start s false) {} (Arrays.byRegister s.lefts (cellsOn .leftDangle)) (opened s : Builder β) := by
  refine gives_bind.mpr
    ⟨_, _, @addRegisters_gives _ s.registers {} rfl hv Arrays.empty hv.nodup_lefts, ?_⟩
  exact gives_bind.mpr ⟨(), _, gives_modify.mpr rfl, gives_pure.mpr ⟨rfl, rfl⟩⟩

theorem opened_available {s : Signature} (hv : s.Valid) (p : Port) :
    (opened s : Builder β).available[p]? =
      if p ∈ portsOn 0 s.lefts then some ⟨.leftDangle, p.reg, p.index⟩ else none := by
  have hports := port_soquetsOn_leftDangle (β := β) s.lefts
  by_cases hp : p ∈ portsOn 0 s.lefts
  · obtain ⟨t, ht, rfl⟩ := List.mem_map.mp (hports ▸ hp)
    have havailable : (opened s : Builder β).available[t.port]? = some t :=
      produce_available_of_mem (hports ▸ nodup_portsOn hv.nodup_lefts.of_map) ht
    rw [if_pos hp, havailable]
    obtain ⟨-, -, -, -, rfl⟩ := mem_soquetsOn.mp ht
    rfl
  · rw [if_neg hp]
    have havailable : (opened s : Builder β).available[p]? = _ :=
      produce_available_of_not_mem (hports ▸ hp)
    exact havailable.trans Std.ExtTreeMap.getElem?_empty

end

section
variable {α κ : Type} [Angle α] {s : Signature} {l : Labels}

/-- The inputs of a signature with the qubits that they carry. -/
def inputStock (α κ : Type) (s : Signature) (l : Labels) : Stock α κ :=
  (soquetsOn .leftDangle s.lefts).map fun t => (l t.port, t)

omit [Angle α] in
theorem fst_inputStock : (inputStock α κ s l).map Prod.fst = (portsOn 0 s.lefts).map l := by
  rw [inputStock, List.map_map, ← port_soquetsOn_leftDangle (β := Bloq α κ), List.map_map]
  rfl

omit [Angle α] in
theorem qubits_inputStock : (inputStock α κ s l).qubits = l.on 0 s.lefts := by
  rw [Stock.qubits, List.flatMap_def, fst_inputStock, Labels.on, List.flatMap_def]

theorem Sound.opened (hv : s.Valid) : (Builder.opened s : Builder (Bloq α κ)).Sound :=
  Sound.empty.start (start_gives hv)

/-- To begin with, the inputs are in stock. -/
theorem holds_opened (hv : s.Valid) (hq : ∀ r ∈ s.lefts, r.Quantum) (hl : l.Fits 0 s.lefts)
    (hn : (l.on 0 s.lefts).Nodup) :
    (Builder.opened s : Builder (Bloq α κ)).Holds s l (inputStock α κ s l) [] [] := by
  have hmem : ∀ e ∈ inputStock α κ s l, ∃ p ∈ portsOn 0 s.lefts,
      e = (l p, ⟨.leftDangle, p.reg, p.index⟩) := by
    intro e he
    obtain ⟨t, ht, rfl⟩ := List.mem_map.mp he
    obtain ⟨r, hr, i, hi, rfl⟩ := mem_soquetsOn.mp ht
    exact ⟨⟨0, i, r⟩, mem_portsOn.mpr ⟨rfl, hr, hi⟩, rfl⟩
  have hport : ∀ p ∈ portsOn 0 s.lefts,
      (⟨.leftDangle, p.reg, p.index⟩ : Soquet (Bloq α κ)).port = p := by
    intro p hp
    obtain ⟨v, i, r⟩ := p
    obtain rfl : v = 0 := (mem_portsOn.mp hp).1
    rfl
  refine ⟨l, ⟨Sound.opened hv, rfl, rfl, fun x hx => ?_, fun w hw => ?_, hl, fun x hx => ?_,
    fun e he => ?_, fun p t ht => ?_, fun e he => ?_, ?_, ?_⟩, rfl, fun _ _ => rfl⟩
  · simp [Builder.opened, withRegisters, produce] at hx
  · simp [Builder.opened, withRegisters, produce] at hw
  · simp [Builder.opened, withRegisters, produce] at hx
  · obtain ⟨p, hp, rfl⟩ := hmem e he
    rw [hport p hp, opened_available hv, if_pos hp]
    exact ⟨rfl, rfl⟩
  · rw [opened_available hv] at ht
    split at ht
    · next hp =>
      cases ht
      have hmem : (⟨.leftDangle, p.reg, p.index⟩ : Soquet (Bloq α κ)) ∈
          soquetsOn .leftDangle s.lefts := mem_soquetsOn.mpr
        ⟨p.reg, (mem_portsOn.mp hp).2.1, p.index, (mem_portsOn.mp hp).2.2, rfl⟩
      exact ⟨_, List.mem_map_of_mem hmem, rfl⟩
    · cases ht
  · obtain ⟨p, hp, rfl⟩ := hmem e he
    exact ⟨hq p.reg (mem_portsOn.mp hp).2.1, hl p hp⟩
  · rw [qubits_inputStock]
    exact List.Perm.refl _
  · rwa [qubits_inputStock, List.append_nil]

end

end Builder

namespace Import
variable {α κ : Type} {s : Signature} {l : Labels} {held : Stock α κ}
  {bundles : Bundles (Bloq α κ)}

theorem foldl_insert_lists {es : Stock α κ} (h : bundles.Lists held)
    (hn : ((es ++ held).map Prod.fst).Nodup) :
    (es.foldl (fun b e => b.insert e.1 e.2) bundles).Lists (es ++ held) := by
  induction es generalizing bundles held with
  | nil => exact h
  | cons e es ih =>
    have hperm : (e :: es ++ held).Perm (es ++ e :: held) := List.perm_middle.symm
    have hn := (hperm.map Prod.fst).nodup_iff.mp hn
    have hnew : e.1 ∉ held.map Prod.fst := by
      rw [List.map_append, List.nodup_append] at hn
      exact (List.nodup_cons.mp hn.2.1).1
    exact (ih (h.insert hnew e.2) hn).perm hperm.symm

/-- The inputs are bound to the soquets of the input boundary. -/
theorem bindInputs_lists {registers : List Register} {initial : Soquets (Bloq α κ)}
    {inputs : Quregs} (hin : ∀ r ∈ registers, r.arrayIn inputs = .ok (l.array 0 r))
    (hl : l.Fits 0 registers)
    (hinitial : ∀ r ∈ registers, initial.get? r.name = some (Builder.cellsOn .leftDangle r))
    (h : bundles.Lists held) (hn : ((portsOn 0 registers).map l ++ held.map Prod.fst).Nodup) :
    ∃ bundles', bindInputs initial inputs registers bundles = .ok bundles' ∧
      bundles'.Lists ((soquetsOn .leftDangle registers).map (fun t => (l t.port, t)) ++ held) := by
  induction registers generalizing bundles held with
  | nil => exact ⟨bundles, rfl, h⟩
  | cons r rest ih =>
    have hr : r ∈ r :: rest := List.mem_cons_self
    -- what the first register adds to the stock
    obtain ⟨es, hes⟩ : ∃ es : Stock α κ,
        es = r.indices.map fun i => (l ⟨0, i, r⟩, ⟨.leftDangle, r, i⟩) := ⟨_, rfl⟩
    have hkeys : es.map Prod.fst = r.indices.map fun i => l ⟨0, i, r⟩ := by
      rw [hes, List.map_map]
      rfl
    have hports : (portsOn 0 (r :: rest)).map l = es.map Prod.fst ++ (portsOn 0 rest).map l := by
      rw [hkeys, portsOn, List.flatMap_cons, List.map_append, List.map_map]
      rfl
    have hsoquets : (soquetsOn (.leftDangle : Node (Bloq α κ)) (r :: rest)).map (fun t => (l t.port, t)) =
        es ++ (soquetsOn .leftDangle rest).map fun t => (l t.port, t) := by
      rw [hes, soquetsOn, List.flatMap_cons, List.map_append, List.map_map]
      rfl
    rw [hports, List.append_assoc] at hn
    have hn' : ((es ++ held).map Prod.fst).Nodup := by
      rw [List.map_append]
      exact hn.sublist (List.Sublist.append_left (List.sublist_append_right _ _) _)
    have hfold : (r.indices.zip (Builder.cellsOn .leftDangle r : Grid (Soquet (Bloq α κ))).toList).foldl
        (fun b e => b.insert (r.lane (l.array 0 r) e.1) e.2) bundles =
          es.foldl (fun b e => b.insert e.1 e.2) bundles := by
      have hzip : r.indices.zip (r.indices.map fun i => (⟨.leftDangle, r, i⟩ : Soquet (Bloq α κ))) =
          r.indices.map fun i => (i, ⟨.leftDangle, r, i⟩) := List.map_prod_left_eq_zip.symm
      have hlanes : es = r.indices.map fun i => (r.lane (l.array 0 r) i, ⟨.leftDangle, r, i⟩) := by
        rw [hes]
        exact List.map_congr_left fun i hi =>
          congrArg (·, _) (Register.lane_array (hl.register hr) hi).symm
      rw [Builder.cellsOn, Grid.toList_ofFn, ← Register.indices, hzip, hlanes, List.foldl_map,
        List.foldl_map]
    obtain ⟨bundles', hbind, hlists⟩ := ih (fun s hs => hin s (List.mem_cons_of_mem _ hs))
      (hl.mono fun s => List.mem_cons_of_mem _) (fun s hs => hinitial s (List.mem_cons_of_mem _ hs))
      (foldl_insert_lists h hn') (by
        rw [List.map_append, ← List.append_assoc]
        rw [← List.append_assoc] at hn
        exact (List.perm_append_comm.append_right _).nodup_iff.mp hn)
    refine ⟨bundles', ?_, hlists.perm ?_⟩
    · rw [bindInputs, hinitial r hr]
      rw [← hfold] at hbind
      exact bind_eq_ok.mpr ⟨_, hin r hr, hbind⟩
    · rw [hsoquets, ← List.append_assoc]
      exact List.perm_append_comm.append_right held

/-! ## Outputs -/

variable [Angle α] {sig : Signature} {stock : Stock α κ} {gone : List Qubit}
  {ops : List (Operation (Gate α κ))} {b b' : Builder (Bloq α κ)}

/-- Outputs are collected as soquets for registers are, and their bundles count as used. -/
theorem collectOutputs_gives {outputs : Quregs} {registers : List Register} {f : Labels} {v : Nat}
    (hout : ∀ r ∈ registers, r.arrayIn outputs = .ok (f.array v r)) (hf : f.Fits v registers)
    {out final : Soquets (Bloq α κ)} {bundles' : Bundles (Bloq α κ)}
    (h : Gives (ensureRegisters (registers.map fun r => (r, f.array v r)) bundles out) b
      (final, bundles') b') (used : Std.ExtTreeSet (List Qubit)) :
    ∃ used', Gives (collectOutputs outputs registers bundles out used) b (final, used', bundles') b' ∧
      ∀ k, k ∈ used' ↔ k ∈ used ∨ k ∈ (portsOn v registers).map f := by
  induction registers generalizing b bundles out used with
  | nil =>
    obtain ⟨heq, rfl⟩ := gives_pure.mp h
    cases heq
    refine ⟨used, gives_pure.mpr ⟨rfl, rfl⟩, fun k => ?_⟩
    simp [portsOn]
  | cons r rest ih =>
    rw [List.map_cons, ensureRegisters] at h
    obtain ⟨⟨soquets, bundles₁⟩, b₁, heach, h⟩ := gives_bind.mp h
    cases hg : Grid.ofCells? r.shape soquets with
    | none =>
      simp only [hg] at h
      exact (gives_throw.mp h).elim
    | some cells =>
      simp only [hg] at h
      have hone : Gives (ensureRegisters [(r, f.array v r)] bundles out) b
          (out.insert r.name cells, bundles₁) b₁ := by
        refine gives_bind.mpr ⟨_, _, heach, ?_⟩
        simp only [hg]
        exact gives_pure.mpr ⟨rfl, rfl⟩
      obtain ⟨used', hcollect, hused⟩ := ih (fun s hs => hout s (List.mem_cons_of_mem _ hs))
        (hf.mono fun s => List.mem_cons_of_mem _) h
        (used.insertMany (r.indices.map (r.lane (f.array v r))))
      refine ⟨used', ?_, fun k => ?_⟩
      · refine gives_bind.mpr ⟨_, _, gives_lift.mpr ⟨hout r List.mem_cons_self, rfl⟩, ?_⟩
        exact gives_bind.mpr ⟨_, _, hone, hcollect⟩
      · have hlanes : r.indices.map (r.lane (f.array v r)) = r.indices.map fun i => f ⟨v, i, r⟩ :=
          List.map_congr_left fun i hi =>
            Register.lane_array (hf.register List.mem_cons_self) hi
        have hports : (portsOn v (r :: rest)).map f =
            (r.indices.map fun i => f ⟨v, i, r⟩) ++ (portsOn v rest).map f := by
          rw [portsOn, List.flatMap_cons, List.map_append, List.map_map]
          rfl
        rw [hused, hports, hlanes, List.mem_append, Std.ExtTreeSet.mem_insertMany_list,
          List.contains_iff_mem, or_assoc]

/-- Whatever freeing a bundle keeps is kept when all that is not used is freed. -/
theorem freeUnused_keeps {P : Builder (Bloq α κ) → Stock α κ → Prop}
    (hperm : ∀ {b stock stock'}, P b stock → stock.Perm stock' → P b stock')
    (hfree : ∀ {b qs so rest}, P b ((qs, so) :: rest) →
      ∃ b', Gives (Builder.free so) b () b' ∧ P b' rest)
    (used : Std.ExtTreeSet (List Qubit)) {entries : Stock α κ} (h : P b (held ++ entries)) :
    ∃ b', Gives (freeUnused used entries) b () b' ∧
      P b' (held ++ entries.filter fun e => used.contains e.1) := by
  induction entries generalizing b held with
  | nil => exact ⟨b, gives_pure.mpr ⟨rfl, rfl⟩, h⟩
  | cons e entries ih =>
    obtain ⟨qs, so⟩ := e
    have hmove : (held ++ (qs, so) :: entries).Perm ((qs, so) :: (held ++ entries)) := List.perm_middle
    by_cases hu : used.contains qs = true
    · obtain ⟨b', hgives, hP⟩ := @ih ((qs, so) :: held) b (hperm h hmove)
      rw [List.filter_cons, if_pos hu]
      refine ⟨b', ?_, hperm hP List.perm_middle.symm⟩
      rw [freeUnused, hu]
      exact hgives
    · obtain ⟨b₁, hone, hrest⟩ := hfree (hperm h hmove)
      obtain ⟨b', hgives, hP⟩ := ih hrest
      rw [List.filter_cons, if_neg hu]
      refine ⟨b', ?_, hP⟩
      rw [freeUnused, Bool.eq_false_of_not_eq_true hu]
      exact gives_bind.mpr ⟨(), b₁, hone, hgives⟩

/-- What is not used is freed, and no qubit is lost. -/
theorem freeUnused_gives (used : Std.ExtTreeSet (List Qubit)) {entries : Stock α κ}
    (h : b.Holds sig l (held ++ entries) gone ops) :
    ∃ b' gone', Gives (freeUnused used entries) b () b' ∧
      b'.Holds sig l (held ++ entries.filter fun e => used.contains e.1) gone' ops ∧
      (Stock.qubits (held ++ entries.filter fun e => used.contains e.1) ++ gone').Perm
        (Stock.qubits (held ++ entries) ++ gone) := by
  have hkept : ∃ b', Gives (freeUnused used entries) b () b' ∧ ∃ gone',
      b'.Holds sig l (held ++ entries.filter fun e => used.contains e.1) gone' ops ∧
      (Stock.qubits (held ++ entries.filter fun e => used.contains e.1) ++ gone').Perm
        (Stock.qubits (held ++ entries) ++ gone) := by
    refine freeUnused_keeps (P := fun b stock => ∃ gone', b.Holds sig l stock gone' ops ∧
      (stock.qubits ++ gone').Perm (Stock.qubits (held ++ entries) ++ gone)) ?_ ?_ used
      ⟨gone, h, List.Perm.refl _⟩
    · rintro b stock stock' ⟨gone', hholds, hperm⟩ hs
      exact ⟨gone', hholds.perm hs, ((Stock.qubits_perm hs).symm.append_right gone').trans hperm⟩
    · rintro b qs so rest ⟨gone', hholds, hperm⟩
      obtain ⟨b', hone, hholds'⟩ := hholds.free
      refine ⟨b', hone, gone' ++ qs, hholds', List.Perm.trans ?_ hperm⟩
      rw [Stock.qubits_cons, ← List.append_assoc, List.append_assoc qs]
      exact List.perm_append_comm
  obtain ⟨b', hgives, gone', hholds, hperm⟩ := hkept
  exact ⟨b', gone', hgives, hholds, hperm⟩

omit [Angle α] in
/-- What is used is what was collected. -/
theorem used_perm {entries final : Stock α κ} {used : Std.ExtTreeSet (List Qubit)}
    (hkeys : (entries.map Prod.fst).Nodup) (hfinal : (final.map Prod.fst).Nodup)
    (hmem : ∀ e ∈ final, e ∈ entries) (hused : ∀ k, k ∈ used ↔ k ∈ final.map Prod.fst) :
    (entries.filter fun e : List Qubit × Soquet (Bloq α κ) => used.contains e.1).Perm final := by
  refine (List.perm_ext_iff_of_nodup (hkeys.of_map.filter _) hfinal.of_map).mpr fun e => ?_
  rw [List.mem_filter, Std.ExtTreeSet.contains_iff_mem, hused]
  constructor
  · rintro ⟨he, hk⟩
    obtain ⟨e', he', heq⟩ := List.mem_map.mp hk
    rwa [← List.inj_on_of_nodup_map hkeys (hmem e' he') he heq]
  · exact fun he => ⟨hmem e he, List.mem_map_of_mem he⟩

end Import
/-! ## Closing -/

namespace Composite
variable {α κ : Type} {c : Composite (Bloq α κ)} {L : Labels}

variable [Angle α]

/-- A composite on which operations run in order of insertion, on different qubits. -/
structure Realizes (c : Composite (Bloq α κ)) (s : Signature) (L : Labels)
    (ops : List (Operation (Gate α κ))) : Prop where
  linear : c.Linear
  signature : c.signature = s
  regular : ∀ x ∈ c.instances, x.bloq.Regular
  flow : c.Flow L
  operations : (List.range c.size).filterMap (c.operationAt? L) = ops
  distinct : c.Distinct L (List.range c.size)

end Composite

namespace Builder
variable {α κ : Type} [Angle α] {s : Signature} {b : Builder (Bloq α κ)} {L f : Labels} {v : Nat}
  {gone : List Qubit} {final : Stock α κ} {cells : Register → Grid (Soquet (Bloq α κ))}

/-- A builder closes on wires from all that is available. -/
theorem Sound.closes (h : b.Sound) (hregisters : b.registers = s.registers)
    (hcomplete : ∀ (p : Port) t, b.available[p]? = some t → ∃ e ∈ final, e.2 = t)
    (hdraw : b.Drawable (wiring .rightDangle s.rights cells))
    (hshape : ∀ r ∈ s.rights, (cells r).shape = r.shape)
    (hsnd : final.map Prod.snd = s.rights.flatMap fun r => (cells r).toList) :
    b.Closes (wiring .rightDangle s.rights cells) := by
  have hleft : (wiring .rightDangle s.rights cells).map (·.left) = final.map Prod.snd :=
    (left_wiring hshape).trans hsnd.symm
  refine ⟨hdraw, ?_, fun p => ?_⟩
  · rw [right_wiring hshape, hregisters]
  · rw [drawAll_available]
    by_cases hp : p ∈ (wiring .rightDangle s.rights cells).map (·.left.port)
    · exact if_pos hp
    · rw [if_neg hp]
      by_contra hsome
      obtain ⟨t, ht⟩ := Option.ne_none_iff_exists'.mp hsome
      obtain ⟨e, he, rfl⟩ := hcomplete p t ht
      refine hp ?_
      have hmem : e.2 ∈ (wiring .rightDangle s.rights cells).map (·.left) :=
        hleft ▸ List.mem_map_of_mem he
      obtain ⟨w, hw, heq⟩ := List.mem_map.mp hmem
      rw [← (h.port p e.2 ht).1, ← heq]
      exact List.mem_map_of_mem (f := fun w => w.left.port) hw

/-- A builder closes on what it has in stock. -/
theorem Held.closes (h : b.Held s L final gone) (hq : ∀ r ∈ s.rights, r.Quantum)
    (hshape : ∀ r ∈ s.rights, (cells r).shape = r.shape) (hf : f.Fits v s.rights)
    (hfst : final.map Prod.fst = (portsOn v s.rights).map f)
    (hsnd : final.map Prod.snd = s.rights.flatMap fun r => (cells r).toList) :
    b.Closes (wiring .rightDangle s.rights cells) := by
  have hfront : b.Held s L (final ++ []) gone := by rwa [List.append_nil]
  exact h.sound.closes h.registers h.complete (hfront.drawable ((left_wiring hshape).trans hsnd.symm)
    (right_wiring hshape) hfst.symm hq hf) hshape hsnd

omit [Angle α] in
private theorem size_lt_length (b : Builder (Bloq α κ)) :
    b.instances.size < b.instances.toList.length + 1 := by
  rw [Array.length_toList]
  exact Nat.lt_succ_self _

/-- The labels of a builder that closes, with those of its outputs, are a flow. -/
theorem Held.flow (h : b.Held s L final gone) (hc : b.Closes (wiring .rightDangle s.rights cells))
    (hshape : ∀ r ∈ s.rights, (cells r).shape = r.shape)
    (hfst : final.map Prod.fst = (portsOn v s.rights).map f)
    (hsnd : final.map Prod.snd = s.rights.flatMap fun r => (cells r).toList) :
    (b.closed (wiring .rightDangle s.rights cells)).Flow
      (L.onNode (f.moveTo v) (b.instances.toList.length + 1)) := by
  have hl : ∀ e ∈ final, L e.2.port = e.1 := fun e he => (h.stocked e he).2
  have hleft : (wiring .rightDangle s.rights cells).map (·.left) = final.map Prod.snd :=
    (left_wiring hshape).trans hsnd.symm
  have hlabel := labels_of_wires hleft (right_wiring hshape) hfst.symm hl
  have hsize := b.size_lt_length
  refine ⟨fun e he => ?_, ?_, fun u bloq hb => ?_⟩
  · obtain ⟨w, hw, rfl⟩ := List.mem_map.mp he
    rw [(hc.meets h.sound hw).start_edgeOf]
    -- a wire of the builder, or one that the outputs draw on closing
    rcases List.mem_append.mp hw with hw | hw
    · have hport := h.sound.used _ (List.mem_map_of_mem hw)
      have hw := Array.mem_toList_iff.mp hw
      obtain ⟨x, hx, r, -, i, -, hwr⟩ := h.sound.right_mem hw
      have hstop : (Composite.edgeOf b.instances.toList.length w).stop = w.right.port := by
        rw [Composite.edgeOf, Edge.stop, hwr]
        rfl
      rw [h.sound.onNode_outPort hsize hport, h.wire w hw, hstop]
      exact (h.sound.onNode_placed hsize hx (by rw [hwr]; rfl)).symm
    · obtain ⟨r, hr, i, hi, hwr, hlabel⟩ := hlabel w hw
      have hstop : (Composite.edgeOf b.instances.toList.length w).stop =
          ⟨b.instances.toList.length + 1, i, r⟩ := by
        rw [Composite.edgeOf, Edge.stop, hwr]
        rfl
      rw [h.sound.onNode_outPort hsize (hc.drawable.fresh h.sound hw).1, hlabel, hstop]
      exact (if_pos rfl).symm
  · have hlefts : (b.closed (wiring .rightDangle s.rights cells)).signature.lefts = s.lefts := by
      show (⟨b.registers⟩ : Signature).lefts = s.lefts
      rw [h.registers]
    rw [hlefts]
    refine Labels.fits_congr h.inputs fun p hp => (Labels.onNode_of_ne ?_).symm
    rw [(mem_portsOn.mp hp).1]
    exact (Nat.succ_ne_zero _).symm
  · obtain ⟨k, rfl⟩ := Nat.exists_eq_succ_of_ne_zero (Composite.bloqAt_lt hb).1
    obtain ⟨x, hx, rfl⟩ := Option.map_eq_some_iff.mp hb
    have hmem : x ∈ b.instances := Array.mem_toList_iff.mp (List.mem_of_getElem? hx)
    have hnumber := Instance.number_eq h.sound.numbers hx
    rw [Nat.succ_eq_add_one, ← hnumber]
    exact (h.node x hmem).congr fun p hp => (h.sound.onNode_placed hsize hmem hp).symm

/-- The inputs and what appears on the nodes is what is in stock in the end and what is gone. -/
theorem Held.balance_closed (h : b.Held s L final gone)
    (hc : b.Closes (wiring .rightDangle s.rights cells)) (g : Labels) :
    ((L.onNode g (b.instances.toList.length + 1)).on 0 s.lefts ++
      (List.range (b.closed (wiring .rightDangle s.rights cells)).size).flatMap
        (Composite.bornAt (b.closed (wiring .rightDangle s.rights cells))
          (L.onNode g (b.instances.toList.length + 1)))).Perm (final.qubits ++ gone) := by
  rw [Composite.born_range (hc.linear h.sound).numbers,
    Labels.on_onNode_of_ne (Nat.succ_ne_zero _).symm]
  refine (List.Perm.append_left _ (List.Perm.of_eq ?_)).trans h.balance.symm
  refine List.flatMap_congr fun x hx => Labels.on_congr fun p hp => ?_
  exact h.sound.onNode_placed b.size_lt_length (Array.mem_toList_iff.mp hx) (mem_portsOn.mp hp).1

/-- A builder that closes gives a composite on which its operations run in order of insertion. -/
theorem Held.realizes (h : b.Held s L final gone) (hc : b.Closes (wiring .rightDangle s.rights cells))
    (hshape : ∀ r ∈ s.rights, (cells r).shape = r.shape)
    (hfst : final.map Prod.fst = (portsOn v s.rights).map f)
    (hsnd : final.map Prod.snd = s.rights.flatMap fun r => (cells r).toList) :
    (b.closed (wiring .rightDangle s.rights cells)).Realizes s
      (L.onNode (f.moveTo v) (b.instances.toList.length + 1)) (b.operations L) := by
  have hlinear := hc.linear h.sound
  have hsignature : (b.closed (wiring .rightDangle s.rights cells)).signature = s := by
    show (⟨b.registers⟩ : Signature) = s
    rw [h.registers]
  refine ⟨hlinear, hsignature, fun x hx => h.regular x (Array.mem_toList_iff.mp hx),
    h.flow hc hshape hfst hsnd, ?_, ?_⟩
  · rw [Composite.operations_range hlinear.numbers]
    refine List.filterMap_congr fun x hx => Labels.operation?_congr fun p hp => ?_
    exact h.sound.onNode_placed b.size_lt_length (Array.mem_toList_iff.mp hx) hp
  · rw [Composite.Distinct, hsignature]
    exact (h.balance_closed hc _).nodup_iff.mpr h.nodup

/-- A builder that is not open closes if its outputs are what it has in stock. -/
theorem Holds.finalize {l : Labels} {ops : List (Operation (Gate α κ))}
    (h : b.Holds s l final gone ops) (hq : ∀ r ∈ s.rights, r.Quantum)
    (hshape : ∀ r ∈ s.rights, (cells r).shape = r.shape) (hf : f.Fits v s.rights)
    (hfst : final.map Prod.fst = (portsOn v s.rights).map f)
    (hsnd : final.map Prod.snd = s.rights.flatMap fun r => (cells r).toList) :
    ∃ c L b', Gives (Builder.finalize (Arrays.byRegister s.rights cells)) b c b' ∧
      c.Realizes s L ops ∧ (∀ p, p.node = 0 → L p = l p) ∧
      (∀ r i, L ⟨c.instances.length + 1, i, r⟩ = f ⟨v, i, r⟩) ∧
      (L.on 0 s.lefts ++ (List.range c.size).flatMap (c.bornAt L)).Perm (final.qubits ++ gone) := by
  obtain ⟨L, hheld, rfl, hl⟩ := h
  have hcloses := hheld.closes hq hshape hf hfst hsnd
  refine ⟨_, _, b.drawAll (wiring .rightDangle s.rights cells), ?_,
    hheld.realizes hcloses hshape hfst hsnd, fun p hp => ?_, fun r i => if_pos rfl,
    hheld.balance_closed hcloses _⟩
  · obtain ⟨registers⟩ := s
    obtain rfl : b.registers = registers := hheld.registers
    exact finalize_of_closes hheld.sound hheld.closed hshape hcloses
  · rw [Labels.onNode_of_ne (hp ▸ (Nat.succ_ne_zero _).symm), hl p hp]

theorem run_of_gives {β τ : Type} {m : BuildM β τ} {x : τ} {b : Builder β} (h : Gives m {} x b) :
    Builder.run m = .ok x :=
  congrArg Prod.fst h

theorem exists_gives_of_run {β τ : Type} {m : BuildM β τ} {x : τ} (h : Builder.run m = .ok x) :
    ∃ b, Gives m {} x b :=
  ⟨(m.run {}).2, Prod.ext h rfl⟩

end Builder

namespace Import
variable {α κ : Type} [Angle α] {s : Signature} {l f : Labels} {v : Nat} {inputs outputs : Quregs}
  {ops : List (Operation (Gate α κ))}

/-- To begin with, the inputs are bound. -/
theorem exists_start (hv : s.Valid) (hq : ∀ r ∈ s.lefts, r.Quantum) (hl : l.Fits 0 s.lefts)
    (hin : ∀ r ∈ s.lefts, r.arrayIn inputs = .ok (l.array 0 r)) (hn : (l.on 0 s.lefts).Nodup) :
    ∃ bundles, bindInputs (Arrays.byRegister s.lefts (Builder.cellsOn .leftDangle)) inputs s.lefts {} =
        .ok bundles ∧
      Tracks (Builder.opened s) bundles s l (Builder.inputStock α κ s l) [] [] := by
  have hholds := Builder.holds_opened (α := α) (κ := κ) hv hq hl hn
  have hkeys := nodup_keys hholds
  rw [Builder.fst_inputStock] at hkeys
  obtain ⟨bundles, hbind, hlists⟩ := bindInputs_lists hin hl
    (fun r hr => Arrays.get?_byRegister hv.nodup_lefts hr) (Bundles.lists_empty (β := Bloq α κ))
    (by rwa [List.map_nil, List.append_nil])
  rw [List.append_nil] at hlists
  exact ⟨bundles, hbind, hholds, hlists⟩

/-- When the outputs are collected and the rest is freed, the outputs are in stock. -/
theorem Tracks.outputs_gives {b : Builder (Bloq α κ)} {bundles : Bundles (Bloq α κ)}
    {stock : Stock α κ} {gone : List Qubit} (h : Tracks b bundles s l stock gone ops)
    (hv : s.Valid) (hq : ∀ r ∈ s.rights, r.Quantum) (hf : f.Fits v s.rights)
    (hout : ∀ r ∈ s.rights, r.arrayIn outputs = .ok (f.array v r)) (hn : (f.on v s.rights).Nodup)
    (hgone : ∀ q ∈ f.on v s.rights, q ∉ gone) :
    ∃ (cells : Register → Grid (Soquet (Bloq α κ))) (final : Stock α κ) (b' b'' : Builder (Bloq α κ))
      (bundles' : Bundles (Bloq α κ)) (used : Std.ExtTreeSet (List Qubit)) (gone' : List Qubit),
      Gives (collectOutputs outputs s.rights bundles Arrays.empty ∅) b
        (Arrays.byRegister s.rights cells, used, bundles') b' ∧
      Gives (freeUnused used bundles'.entries) b' () b'' ∧ b''.Holds s l final gone' ops ∧
      (∀ r ∈ s.rights, (cells r).shape = r.shape) ∧
      final.map Prod.fst = (portsOn v s.rights).map f ∧
      final.map Prod.snd = s.rights.flatMap (fun r => (cells r).toList) ∧
      ∀ q ∈ final.qubits ++ gone', q ∈ stock.qubits ++ gone ∨ q ∈ f.on v s.rights := by
  obtain ⟨cells, final, b', bundles', stock', hensure, htracks, hchanges, hshape, hfst, hsnd, hmem⟩ :=
    h.ensureRegisters_gives hf hq hn hgone Arrays.empty hv.nodup_rights
  obtain ⟨used, hcollect, hused⟩ := collectOutputs_gives hout hf hensure ∅
  have hentries : b'.Holds s l ([] ++ bundles'.entries) gone ops :=
    htracks.holds.perm htracks.lists.entries_perm.symm
  obtain ⟨b'', gone', hfree, hholds, hperm⟩ := freeUnused_gives used hentries
  have hqubits : final.qubits = f.on v s.rights := by
    rw [Stock.qubits, List.flatMap_def, hfst, Labels.on, List.flatMap_def]
  have hkept := used_perm ((htracks.lists.entries_perm.map Prod.fst).nodup_iff.mpr htracks.lists.nodup)
    (Stock.nodup_keys (hqubits ▸ hn) fun e he => htracks.holds.ne_nil (hmem e he))
    (fun e he => htracks.lists.entries_perm.mem_iff.mpr (hmem e he)) fun k => by
      rw [hused, hfst, or_iff_right Std.ExtTreeSet.not_mem_empty]
  refine ⟨cells, final, b', b'', bundles', used, gone', hcollect, hfree, hholds.perm hkept, hshape,
    hfst, hsnd, fun q hq => ?_⟩
  have hq := hperm.subset (((Stock.qubits_perm hkept).append_right gone').mem_iff.mpr hq)
  rcases List.mem_append.mp hq with hq | hq
  · have hq := (Stock.qubits_perm htracks.lists.entries_perm).mem_iff.mp hq
    exact (hchanges.within q hq).imp_left (List.mem_append_left _)
  · exact .inl (List.mem_append_right _ hq)

end Import

/-- A circuit whose operations can follow one another is imported as a composite that runs them in
their order. -/
theorem Circuit.importBetween_realizes {α κ : Type} [Angle α] {s : Signature} {l f : Labels} {v : Nat}
    {inputs outputs : Quregs} {ops : List (Operation (Gate α κ))} (hv : s.Valid)
    (hq : ∀ r ∈ s.registers, r.Quantum) (hl : l.Fits 0 s.lefts)
    (hin : ∀ r ∈ s.lefts, r.arrayIn inputs = .ok (l.array 0 r)) (hnl : (l.on 0 s.lefts).Nodup)
    (hf : f.Fits v s.rights) (hout : ∀ r ∈ s.rights, r.arrayIn outputs = .ok (f.array v r))
    (hnf : (f.on v s.rights).Nodup)
    (hlively : Import.Lively (f.on v s.rights) (l.on 0 s.lefts) [] ops) :
    ∃ (c : Composite (Bloq α κ)) (L : Labels),
      (⟨ops⟩ : Circuit (Gate α κ)).importBetween s inputs outputs = .ok c ∧ c.Realizes s L ops ∧
      (∀ p, p.node = 0 → L p = l p) ∧
      (∀ r i, L ⟨c.instances.length + 1, i, r⟩ = f ⟨v, i, r⟩) ∧
      ∀ q ∈ L.on 0 s.lefts ++ (List.range c.size).flatMap (c.bornAt L),
        q ∈ l.on 0 s.lefts ∨ q ∈ ops.flatMap (·.qubits) ∨ q ∈ f.on v s.rights := by
  have hlefts : ∀ r ∈ s.lefts, r.Quantum := fun r hr => hq r (Signature.mem_lefts.mp hr).1
  have hrights : ∀ r ∈ s.rights, r.Quantum := fun r hr => hq r (Signature.mem_rights.mp hr).1
  obtain ⟨bundles, hbind, htracks⟩ := Import.exists_start (α := α) (κ := κ) hv hlefts hl hin hnl
  obtain ⟨b₁, bundles₁, stock₁, gone₁, hadd, htracks₁, hgone, hknown⟩ :=
    htracks.addOperations_gives hlively (by
      rw [Builder.qubits_inputStock, List.append_nil]
      exact fun q hq => hq)
  rw [List.nil_append] at htracks₁
  obtain ⟨cells, final, b₂, b₃, bundles₂, used, gone₃, hcollect, hfree, hholds, hshape, hfst, hsnd, hwithin⟩ :=
    htracks₁.outputs_gives hv hrights hf hout hnf hgone
  obtain ⟨c, L, b₄, hfinal, hrealizes, hinput, houtput, hbalance⟩ :=
    hholds.finalize hrights hshape hf hfst hsnd
  refine ⟨c, L, ?_, hrealizes, hinput, houtput, fun q hq => ?_⟩
  · refine Builder.run_of_gives (b := b₄) ?_
    refine gives_bind.mpr ⟨_, _, Builder.start_gives hv, ?_⟩
    refine gives_bind.mpr ⟨_, _, gives_lift.mpr ⟨hbind, rfl⟩, ?_⟩
    refine gives_bind.mpr ⟨_, _, hadd, ?_⟩
    refine gives_bind.mpr ⟨_, _, hcollect, ?_⟩
    exact gives_bind.mpr ⟨_, _, hfree, hfinal⟩
  · rcases hwithin q (hbalance.subset hq) with hq | hq
    · rcases List.mem_append.mp (hknown q hq) with hq | hq
      · exact .inl hq
      · exact .inr (.inl hq)
    · exact .inr (.inr hq)

end BloqCircuit
