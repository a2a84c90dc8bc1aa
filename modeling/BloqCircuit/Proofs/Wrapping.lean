import Mathlib.Tactic.IntervalCases
import BloqCircuit.Bloq.Decomposition
import BloqCircuit.Proofs.Closing
import BloqCircuit.Proofs.Pools
/-! A composite as the only bloq of another one, and the operations that it stands for as a gate. -/
namespace BloqCircuit

/-! ## Renaming by pairs -/

namespace Renaming

private theorem pairwise_zip {xs ys : List Qubit} (hn : xs.Nodup) :
    (xs.zip ys).Pairwise fun a b => ¬compare a.1 b.1 = .eq := by
  induction xs generalizing ys with
  | nil => exact .nil
  | cons x xs ih =>
    cases ys with
    | nil => exact .nil
    | cons y ys =>
      rw [List.nodup_cons] at hn
      refine .cons ?_ (ih hn.2)
      intro e he heq
      have heq : x = e.1 := Std.LawfulEqOrd.eq_of_compare heq
      exact hn.1 (heq ▸ (List.of_mem_zip he).1)

/-- Different qubits are renamed to those that they are paired with. -/
theorem map_ofPairs {xs ys : List Qubit} (hn : xs.Nodup) (h : xs.length = ys.length) :
    xs.map (ofPairs (xs.zip ys)).rename = ys := by
  apply List.ext_getElem
  · rw [List.length_map, h]
  intro k hk hk'
  rw [List.length_map] at hk
  have hmem : (xs[k], ys[k]) ∈ xs.zip ys := by
    rw [← List.getElem_zip (h := by rw [List.length_zip]; omega)]
    exact List.getElem_mem _
  rw [List.getElem_map]
  exact Std.ExtTreeMap.getD_ofList_of_mem Std.ReflCmp.compare_self (pairwise_zip hn) hmem

theorem rename_ofPairs_of_not_mem {xs ys : List Qubit} {q : Qubit} (hq : q ∉ xs) :
    (ofPairs (xs.zip ys)).rename q = q := by
  apply Std.ExtTreeMap.getD_ofList_of_contains_eq_false
  apply Bool.eq_false_of_not_eq_true
  intro hcontains
  obtain ⟨e, he, rfl⟩ := List.mem_map.mp (List.contains_iff_mem.mp hcontains)
  exact hq (List.of_mem_zip he).1

/-- Different qubits can change places. -/
theorem injective_ofPairs {xs ys : List Qubit} (hn : xs.Nodup) (h : xs.Perm ys) :
    Function.Injective (ofPairs (xs.zip ys)).rename := by
  have hmap := map_ofPairs hn h.length_eq
  have hnodup := h.nodup_iff.mp hn
  have hmem : ∀ q ∈ xs, (ofPairs (xs.zip ys)).rename q ∈ xs := by
    intro q hq
    have hq : (ofPairs (xs.zip ys)).rename q ∈ xs.map (ofPairs (xs.zip ys)).rename :=
      List.mem_map_of_mem hq
    rw [hmap] at hq
    exact h.mem_iff.mpr hq
  rw [← hmap] at hnodup
  intro x y hxy
  by_cases hx : x ∈ xs
  · by_cases hy : y ∈ xs
    · exact List.inj_on_of_nodup_map hnodup hx hy hxy
    · rw [rename_ofPairs_of_not_mem hy] at hxy
      exact absurd (hxy ▸ hmem x hx) hy
  · rw [rename_ofPairs_of_not_mem hx] at hxy
    by_cases hy : y ∈ xs
    · exact absurd (hxy ▸ hmem y hy) hx
    · rwa [rename_ofPairs_of_not_mem hy] at hxy

end Renaming

/-! ## Decompositions of wrapped composites -/

theorem Scope.within_gives {τ : Type} {m : AllocM (Scope CleanPool) τ} {p : CleanPool} {x : τ}
    {t : Scope CleanPool} (h : Gives m { base := p } x t) : Gives (Scope.within m) p x t.base := by
  have hrun : m { base := p } = (.ok x, t) := h
  show Scope.within m p = _
  rw [Scope.within, hrun]

namespace Wrapped
variable {L f : Labels} {v w : Nat}

theorem pick_arrays {registers : List Register} {quregs : Quregs} {out : Quregs}
    (h : ∀ r ∈ registers, quregs.get? r.name = some (f.array v r))
    (hn : (out.names ++ registers.map (·.name)).Nodup) :
    pick quregs registers out =
      .ok ⟨out.entries ++ registers.map fun r => (r.name, f.array v r)⟩ := by
  induction registers generalizing out with
  | nil => rw [pick, List.map_nil, List.append_nil]
  | cons r rest ih =>
    have hname : r.name ∉ out.names := by
      intro hm
      exact (List.nodup_append.mp hn).2.2 _ hm _ List.mem_cons_self rfl
    have hinsert := Arrays.insert_of_not_mem hname (f.array v r)
    rw [pick, h r List.mem_cons_self]
    simp only
    rw [ih (fun s hs => h s (List.mem_cons_of_mem _ hs))]
    · rw [hinsert, List.append_assoc]
      rfl
    · rw [hinsert, Arrays.names, List.map_append, List.append_assoc]
      exact hn

/-- Outputs that are no inputs are freed, and each of their qubits is paired with the assigned one. -/
theorem returnOutputs_gives {registers : List Register} {produced assigned : Quregs}
    (hp : ∀ r ∈ registers, produced.get? r.name = some (L.array w r)) (hL : L.Fits w registers)
    (ha : ∀ r ∈ registers, assigned.get? r.name = some (f.array v r)) (hf : f.Fits v registers)
    {s : Scope CleanPool} (hlive : s.Live (L.on w registers)) (hn : (L.on w registers).Nodup) :
    ∃ t, Gives (returnOutputs produced assigned registers) s
      ((L.on w registers).zip (f.on v registers)) t := by
  induction registers generalizing s with
  | nil => exact ⟨s, gives_pure.mpr ⟨rfl, rfl⟩⟩
  | cons r rest ih =>
    have hr : r ∈ r :: rest := List.mem_cons_self
    have hsplit : ∀ (l : Labels) u, l.on u (r :: rest) = l.on u [r] ++ l.on u rest :=
      fun l u => Labels.on_append [r] rest
    rw [hsplit] at hlive hn
    obtain ⟨s₁, hfree, -, hlive₁⟩ := hlive.free_gives hn
    obtain ⟨t, hrest⟩ := ih (fun x hx => hp x (List.mem_cons_of_mem _ hx))
      (hL.mono fun x => List.mem_cons_of_mem _) (fun x hx => ha x (List.mem_cons_of_mem _ hx))
      (hf.mono fun x => List.mem_cons_of_mem _) hlive₁ hn.of_append_right
    have hproduced := Labels.toList_array hL hr
    have hassigned := Labels.toList_array hf hr
    have hlength : (L.on w [r]).length = (f.on v [r]).length := by
      rw [Labels.length_on (hL.mono fun x hx => List.mem_singleton.mp hx ▸ hr),
        Labels.length_on (hf.mono fun x hx => List.mem_singleton.mp hx ▸ hr)]
    have hshape : ¬(L.array w r).shape ≠ (f.array v r).shape := fun h => h rfl
    refine ⟨t, ?_⟩
    rw [returnOutputs, hp r hr, ha r hr]
    simp only [if_neg hshape]
    rw [hproduced, hassigned, hsplit, hsplit, List.zip_append hlength]
    exact gives_bind.mpr ⟨_, _, hfree, gives_bind.mpr ⟨_, _, hrest, gives_pure.mpr ⟨rfl, rfl⟩⟩⟩

/-- How a decomposition ends. A failure which says that there is no decomposition is none. -/
theorem run_decompose {β γ : Type} [BloqKind β] [GateKind γ] [CircuitForm β γ] (s : Signature)
    (decomposition : Except Error (Composite β)) (qubits : List Qubit) (p : CleanPool) :
    (decompose s decomposition qubits : AllocM CleanPool (Option (List (Operation γ)))).run p =
      match Quregs.split s qubits with
      | .error e => (.error e, p)
      | .ok quregs =>
        match decomposition with
        | .error e => (if e.isDecomposeUnavailable then .ok none else .error e, p)
        | .ok c =>
          match (emitOn c quregs : AllocM CleanPool (Circuit γ)).run p with
          | (.ok circuit, p') => (.ok (some circuit.operations), p')
          | (.error e, p') => (if e.isDecomposeUnavailable then .ok none else .error e, p') := by
  unfold decompose
  rw [run_bind, run_lift]
  cases Quregs.split s qubits with
  | error e => rfl
  | ok quregs =>
    dsimp only
    rw [run_bind, run_tryCatch, run_bind, run_lift]
    cases decomposition with
    | error e =>
      by_cases he : e.isDecomposeUnavailable = true
      · simp only [if_pos he]
        rfl
      · simp only [if_neg he]
        rfl
    | ok c =>
      dsimp only
      rw [run_bind]
      rcases (emitOn c quregs : AllocM CleanPool (Circuit γ)).run p with ⟨result, p'⟩
      cases result with
      | ok circuit => rfl
      | error e =>
        by_cases he : e.isDecomposeUnavailable = true
        · simp only [if_pos he]
          rfl
        · simp only [if_neg he]
          rfl

/-- A decomposition ends in the state in which it started, or it emitted a composite or failed to. -/
theorem cases_of_decompose {β γ : Type} [BloqKind β] [GateKind γ] [CircuitForm β γ] {s : Signature}
    {decomposition : Except Error (Composite β)} {qubits : List Qubit} {p p' : CleanPool}
    {r : Except Error (Option (List (Operation γ)))}
    (h : (decompose s decomposition qubits).run p = (r, p')) :
    (p' = p ∧ ∀ ops, r ≠ .ok (some ops)) ∨ ∃ (quregs : Quregs) (c : Composite β),
      Quregs.split s qubits = .ok quregs ∧ decomposition = .ok c ∧
        ((∃ circuit : Circuit γ, r = .ok (some circuit.operations) ∧
            Gives (emitOn c quregs) p circuit p') ∨
          ∃ e, r = (if e.isDecomposeUnavailable then .ok none else .error e) ∧
            Leaves (emitOn c quregs : AllocM CleanPool (Circuit γ)) p e p') := by
  rw [run_decompose] at h
  cases hsplit : Quregs.split s qubits with
  | error e =>
    rw [hsplit] at h
    cases h
    exact .inl ⟨rfl, nofun⟩
  | ok quregs =>
    rw [hsplit] at h
    cases decomposition with
    | error e =>
      cases h
      refine .inl ⟨rfl, fun ops hops => ?_⟩
      split at hops <;> cases hops
    | ok c =>
      dsimp only at h
      refine .inr ⟨quregs, c, rfl, rfl, ?_⟩
      rcases hemit : (emitOn c quregs : AllocM CleanPool (Circuit γ)).run p with ⟨result, u⟩
      rw [hemit] at h
      cases result with
      | ok circuit =>
        cases h
        exact .inl ⟨circuit, rfl, hemit⟩
      | error e =>
        cases h
        exact .inr ⟨e, rfl, hemit⟩

/-- A composite is decomposed as it is emitted on the arrays that the qubits make. -/
theorem decompose_gives {β γ : Type} [BloqKind β] [GateKind γ] [CircuitForm β γ] {c : Composite β}
    {s : Signature} {qubits : List Qubit} {quregs : Quregs} {p t : CleanPool} {circuit : Circuit γ}
    (hsplit : Quregs.split s qubits = .ok quregs) (hemit : Gives (emitOn c quregs) p circuit t) :
    Gives (decompose s (.ok c) qubits) p (some circuit.operations) t := by
  unfold Gives at hemit ⊢
  rw [run_decompose, hsplit]
  dsimp only
  rw [hemit]

end Wrapped

namespace Composite
variable {α κ : Type} [Angle α] {c : Composite (Bloq α κ)} {L f : Labels} {v : Nat}

/-- The outputs of a composite that are no inputs. -/
def news (c : Composite (Bloq α κ)) : List Register := c.signature.rights.filter (·.side == .right)

/-- The renaming of the qubits on the new outputs to those that are assigned to them. -/
def returning (c : Composite (Bloq α κ)) (L f : Labels) (v : Nat) : Qubit → Qubit :=
  (Renaming.ofPairs ((L.on (c.instances.length + 1) c.news).zip (f.on v c.news))).rename

omit [Angle α] in
theorem mem_news {r : Register} : r ∈ c.news ↔ r ∈ c.signature.rights ∧ r.side = .right := by
  rw [news, List.mem_filter, beq_iff_eq]

omit [Angle α] in
theorem on_news_sublist (L : Labels) (v : Nat) :
    (L.on v c.news).Sublist (L.on v c.signature.rights) := by
  rw [Labels.on_eq_flatMap, Labels.on_eq_flatMap c.signature.rights, List.flatMap_def,
    List.flatMap_def]
  exact (List.filter_sublist.map _).flatten

omit [Angle α] in
/-- Labels that agree with the inputs of a composite have the same arrays there. -/
theorem array_of_moveTo (hf : f.Fits v c.signature.registers)
    (hagree : ∀ p ∈ portsOn v c.signature.lefts, f p = L.moveTo 0 p) {r : Register}
    (hr : r ∈ c.signature.lefts) : f.array v r = L.array 0 r := by
  apply Register.array_congr (hf.register (Signature.mem_lefts.mp hr).1)
  intro i hi
  exact hagree ⟨v, i, r⟩ (mem_portsOn.mpr ⟨rfl, hr, hi⟩)

/-- A composite as a gate stands for its own circuit, with the qubits of the outputs that are no inputs
renamed to those that the gate was given for them. Inputs stay where they are. -/
theorem Flow.decompose_gives (h : c.Flow L) (hc : c.Threaded) (hp : ∀ x ∈ c.instances, x.bloq.Plain)
    (hclassical : ∀ x ∈ c.instances, Export.classicalOutput? x.bloq.signature = none)
    {order : List Nat} (ho : c.sortedNodes .greedy = .ok order) (hs : c.graph.Sorts order)
    (hd : c.Distinct L order) {p : CleanPool} {n : Nat}
    (hborn : order.flatMap (c.bornAt L) = CleanPool.fresh p.next n)
    (hnames : c.signature.repeatedName? = none) (hf : f.Fits v c.signature.registers)
    (hagree : ∀ p ∈ portsOn v c.signature.lefts, f p = L.moveTo 0 p) :
    ∃ t, Gives ((Gate.ofBloq (.composite c)).decompose (f.on v c.signature.registers)) p
      (some ((order.filterMap (c.operationAt? L)).map (Operation.map (c.returning L f v)))) t := by
  have hnodup := Signature.repeatedName?_eq_none.mp hnames
  have hlefts : ∀ r ∈ c.signature.lefts, r ∈ c.signature.registers := by
    intro r hr
    exact (Signature.mem_lefts.mp hr).1
  have hnew : ∀ r ∈ c.news, r ∈ c.signature.rights := by
    intro r hr
    exact (mem_news.mp hr).1
  -- the arrays that come in are those of the composite's inputs
  have hsplit := Quregs.split_on hnames hf
  have hget : ∀ r ∈ c.signature.registers,
      (f.arrays v c.signature.registers).get? r.name = some (f.array v r) := by
    intro r hr
    exact Arrays.get?_byRegister hnodup hr
  have hpick : Wrapped.pick (f.arrays v c.signature.registers) c.signature.lefts Arrays.empty =
      .ok (f.arrays v c.signature.lefts) :=
    Wrapped.pick_arrays (fun r hr => hget r (hlefts r hr)) hc.valid.nodup_lefts
  have hmerge := Labels.merge_arrays hc.valid.nodup_lefts hf.lefts
  have hinputs : f.on v c.signature.lefts = L.on 0 c.signature.lefts := by
    rw [Labels.on_congr hagree, Labels.on_moveTo]
  have hin : ∀ r ∈ c.signature.lefts,
      r.arrayIn (f.arrays v c.signature.lefts) = .ok (L.array 0 r) := by
    intro r hr
    rw [Labels.arrayIn_arrays hc.valid.nodup_lefts hr, array_of_moveTo hf hagree hr]
  obtain ⟨t, hexport, hlive⟩ := h.exists_export hc hp hclassical hin ho hs hd hborn
  -- what goes back is live, and different
  have hsub := on_news_sublist (c := c) L (c.instances.length + 1)
  have hfits := (h.fits_rights hc).mono hnew
  obtain ⟨t', hreturn⟩ := Wrapped.returnOutputs_gives
    (fun r hr => Arrays.get?_byRegister hc.valid.nodup_rights (hnew r hr)) hfits
    (fun r hr => hget r (Signature.mem_rights.mp (hnew r hr)).1)
    (hf.rights.mono hnew)
    (hlive.mono hsub.subset) ((h.nodup_through hc hs hd).of_append_right.sublist hsub)
  refine ⟨t'.base, ?_⟩
  rw [Gate.decompose, Bloq.decomposition]
  refine Wrapped.decompose_gives hsplit (c := c) (Scope.within_gives (t := t') ?_)
  refine gives_bind.mpr ⟨_, _, gives_lift.mpr ⟨hpick, rfl⟩, ?_⟩
  refine gives_bind.mpr ⟨_, _, gives_lift.mpr ⟨hmerge, rfl⟩, ?_⟩
  refine gives_bind.mpr ⟨(), _, gives_modify.mpr rfl, ?_⟩
  rw [hinputs]
  refine gives_bind.mpr ⟨_, _, hexport, ?_⟩
  exact gives_bind.mpr ⟨_, _, hreturn, gives_pure.mpr ⟨rfl, rfl⟩⟩

/-- On qubits whose inputs are different and not about to be handed out, a composite that can be emitted
decomposes. -/
theorem Threaded.exists_decompose (hc : c.Threaded) (hp : ∀ x ∈ c.instances, x.bloq.Plain)
    (hclassical : ∀ x ∈ c.instances, Export.classicalOutput? x.bloq.signature = none)
    (hnames : c.signature.repeatedName? = none) (hf : f.Fits 0 c.signature.registers)
    (hn : (f.on 0 c.signature.lefts).Nodup) {p : CleanPool}
    (hpool : p.Spares (f.on 0 c.signature.lefts) c.demand) :
    ∃ ops p', Gives ((Gate.ofBloq (.composite c)).decompose (f.on 0 c.signature.registers)) p
      (some ops) p' := by
  obtain ⟨order, ho, hs⟩ := hc.exists_order .greedy
  obtain ⟨L, hflow, hinput, hborn⟩ :=
    hc.exists_flow_on hf.lefts hs (CleanPool.length_fresh p.next c.demand)
  have hon : L.on 0 c.signature.lefts = f.on 0 c.signature.lefts :=
    Labels.on_congr fun q hq => hinput q (mem_portsOn.mp hq).1
  have hdistinct : c.Distinct L order := by
    rw [Distinct, hborn, hon]
    exact hpool.nodup hn
  have hagree : ∀ q ∈ portsOn 0 c.signature.lefts, f q = L.moveTo 0 q := by
    intro q hq
    rw [Labels.moveTo, ← (mem_portsOn.mp hq).1]
    exact (hinput q (mem_portsOn.mp hq).1).symm
  obtain ⟨p', h⟩ := hflow.decompose_gives hc hp hclassical ho hs hdistinct hborn hnames hf hagree
  exact ⟨_, p', h⟩

end Composite

/-! ## Composites of one bloq -/

section
variable {α κ : Type} [Angle α] {b : Bloq α κ} {f : Labels}

/-- The first bloq of a builder is placed on the inputs. -/
private theorem exists_placed (hb : b.Regular) (hv : b.signature.Valid) (hf : f.Passes 1 b)
    (hn : (f.on 1 b.signature.lefts ++ f.on 1 b.born).Nodup) :
    ∃ (b₁ : Builder (Bloq α κ)) (l : Labels),
      Gives (Builder.add b (Arrays.byRegister b.signature.lefts (Builder.cellsOn .leftDangle)))
        (Builder.opened b.signature)
        (Arrays.byRegister b.signature.rights (Builder.cellsOn (.placed ⟨0, b⟩))) b₁ ∧
      b₁.instances = #[⟨0, b⟩] ∧
      b₁.Held b.signature (l.onNode f 1) (stockOn f ⟨0, b⟩ b.signature.rights) (f.on 1 b.dead) ∧
      b₁.operations (l.onNode f 1) = (b.operation? f 1).toList ∧
      ∀ p, p.node = 0 → l p = f.moveTo 1 p := by
  have hlefts : ∀ r ∈ b.signature.lefts, r ∈ b.signature.registers := by
    intro r hr
    exact (Signature.mem_lefts.mp hr).1
  have hinputs : (f.moveTo 1).on 0 b.signature.lefts = f.on 1 b.signature.lefts :=
    Labels.on_moveTo 0 _
  have hfits : (f.moveTo 1).Fits 0 b.signature.lefts := by
    intro p hp
    obtain ⟨-, hr, hi⟩ := mem_portsOn.mp hp
    exact hf.fits ⟨1, p.index, p.reg⟩ (mem_portsOn.mpr ⟨rfl, hlefts _ hr, hi⟩)
  -- to begin with, the inputs are in stock
  obtain ⟨l, hopened, hnone, hl⟩ := Builder.holds_opened (α := α) (κ := κ) hv
    (fun r hr => hb.quantum r (hlefts r hr)) hfits (hinputs ▸ hn.of_append_left)
  obtain ⟨ins, hins⟩ : ∃ ins, Builder.inputStock α κ b.signature (f.moveTo 1) = ins := ⟨_, rfl⟩
  have hfst : (portsOn 1 b.signature.lefts).map f = ins.map Prod.fst := by
    rw [← hins, Builder.fst_inputStock, Labels.map_moveTo]
  have hsnd : ins.map Prod.snd = b.signature.lefts.flatMap fun r =>
      (Builder.cellsOn (.leftDangle : Node (Bloq α κ)) r).toList := by
    rw [← hins, Builder.inputStock, List.map_map]
    exact (List.map_id _).trans (List.flatMap_congr fun r _ => (Grid.toList_ofFn _ _).symm)
  have hfresh : ((ins ++ []).qubits ++ [] ++ f.on 1 b.born).Nodup := by
    rw [List.append_nil, List.append_nil, ← hins, Builder.qubits_inputStock, hinputs]
    exact hn
  rw [hins, ← List.append_nil ins] at hopened
  have hshape : ∀ r ∈ b.signature.lefts,
      (Builder.cellsOn (.leftDangle : Node (Bloq α κ)) r).shape = r.shape := fun _ _ => rfl
  let x : Instance (Bloq α κ) := ⟨0, b⟩
  have hleft : (Builder.wiring (.placed x) b.signature.lefts (Builder.cellsOn .leftDangle)).map
      (·.left) = ins.map Prod.snd := (Builder.left_wiring hshape).trans hsnd.symm
  obtain ⟨hdraw, hheld, hops⟩ :=
    hopened.place hb hv hf hfst hleft (Builder.right_wiring hshape) hfresh
  rw [List.append_nil] at hheld
  refine ⟨_, l, Builder.add_of_drawable hv _ hshape hdraw, ?_, hheld, ?_, hl⟩
  · exact congrArg (Array.push · x) (Builder.instances_drawAll (Builder.opened b.signature) _)
  · exact hops.trans (hnone ▸ List.nil_append _)

/-- The composite of one bloq runs it on what comes in, and what it leaves comes out. -/
theorem Composite.exists_ofBloq (hb : b.Regular) (hv : b.signature.Valid) (hf : f.Passes 1 b)
    (hn : (f.on 1 b.signature.lefts ++ f.on 1 b.born).Nodup) :
    ∃ (s : Composite (Bloq α κ)) (L : Labels), Composite.ofBloq b = .ok s ∧ s.instances = [⟨0, b⟩] ∧
      s.Realizes b.signature L (b.operation? f 1).toList ∧
      ∀ p : Port, p.node ≤ 2 → L p = f.moveTo 1 p := by
  obtain ⟨b₁, l, hadd, hinstances, hheld, hops, hl⟩ := exists_placed hb hv hf hn
  let x : Instance (Bloq α κ) := ⟨0, b⟩
  have hrights : ∀ r ∈ b.signature.rights, r ∈ b.signature.registers := by
    intro r hr
    exact (Signature.mem_rights.mp hr).1
  have hshape : ∀ r ∈ b.signature.rights, (Builder.cellsOn (.placed x) r).shape = r.shape :=
    fun _ _ => rfl
  -- the outputs are what is in stock in the end
  have hfst : (stockOn f x b.signature.rights).map Prod.fst = (portsOn 1 b.signature.rights).map f := by
    have hports : portsOn 1 b.signature.rights =
        (soquetsOn (.placed x) b.signature.rights).map Soquet.port :=
      (port_soquetsOn_placed x b.signature.rights).symm
    rw [stockOn, List.map_map, hports, List.map_map]
    rfl
  have hsnd : (stockOn f x b.signature.rights).map Prod.snd =
      b.signature.rights.flatMap fun r => (Builder.cellsOn (.placed x) r).toList := by
    rw [snd_stockOn]
    exact List.flatMap_congr fun r _ => (Grid.toList_ofFn _ _).symm
  have hcloses := hheld.closes (fun r hr => hb.quantum r (hrights r hr)) hshape
    hf.fits.rights hfst hsnd
  have hrealizes := hheld.realizes hcloses hshape hfst hsnd
  have hsignature : (⟨b₁.registers⟩ : Signature) = b.signature := congrArg Signature.mk hheld.registers
  have hfinal := Builder.finalize_of_closes hheld.sound hheld.closed
    (hsignature ▸ hshape) (hsignature ▸ hcloses)
  simp only [hsignature] at hfinal
  rw [hops, hinstances] at hrealizes
  refine ⟨_, _, congrArg Prod.fst (gives_bind.mpr ⟨_, _, Builder.start_gives hv,
    gives_bind.mpr ⟨_, _, hadd, hfinal⟩⟩), congrArg Array.toList hinstances, hrealizes, ?_⟩
  intro p hp
  obtain ⟨u, i, r⟩ := p
  have hu : u ≤ 2 := hp
  interval_cases u
  · exact hl ⟨0, i, r⟩ rfl
  · rfl
  · rfl

end
end BloqCircuit
