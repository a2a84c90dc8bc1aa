import BloqCircuit.Proofs.RoundTrip.Circuits
import BloqCircuit.Proofs.Supplies
/-! Which circuits can be imported. What an element is bound under is the list of its qubits, so that all
elements without qubits share one place: an operation that has two of them asks for one soquet twice. -/
namespace BloqCircuit
variable {α κ : Type}

/-! ## Elements without qubits -/

/-- How many elements of all registers have no bits. -/
def Signature.emptyElements (s : Signature) : Nat :=
  ((s.registers.filter (·.bitsize == 0)).map (·.numElements)).sum

private theorem count_nil_lanes {f : Labels} {v : Nat} {r : Register} (hf : f.Fits v [r]) :
    ((portsOn v [r]).map f).count [] = if r.bitsize == 0 then r.numElements else 0 := by
  have hlen : ∀ p ∈ portsOn v [r], (f p).length = r.bitsize := by
    intro p hp
    rw [hf p hp, List.mem_singleton.mp (mem_portsOn.mp hp).2.1]
  by_cases hzero : r.bitsize = 0
  · have hall : (portsOn v [r]).map f = List.replicate r.numElements [] := by
      refine List.eq_replicate_iff.mpr ⟨?_, fun k hk => ?_⟩
      · rw [List.length_map, portsOn_singleton, List.length_map]
        exact length_shapeIndices r.shape
      · obtain ⟨p, hp, rfl⟩ := List.mem_map.mp hk
        exact List.length_eq_zero_iff.mp ((hlen p hp).trans hzero)
    rw [hall, List.count_replicate_self, if_pos (beq_iff_eq.mpr hzero)]
  · rw [if_neg (mt beq_iff_eq.mp hzero), List.count_eq_zero]
    intro hk
    obtain ⟨p, hp, hnil⟩ := List.mem_map.mp hk
    exact hzero ((hlen p hp).symm.trans (congrArg List.length hnil))

/-- Labels that fit are empty on exactly the elements without bits. -/
theorem Labels.count_nil {f : Labels} {v : Nat} {registers : List Register} (hf : f.Fits v registers) :
    ((portsOn v registers).map f).count [] = Signature.emptyElements ⟨registers⟩ := by
  induction registers with
  | nil => rfl
  | cons r rest ih =>
    have hports : portsOn v (r :: rest) = portsOn v [r] ++ portsOn v rest := portsOn_append v [r] rest
    have hhead := count_nil_lanes (hf.mono fun s hs => List.mem_singleton.mp hs ▸ List.mem_cons_self)
    have hrest := ih (hf.mono fun s => List.mem_cons_of_mem _)
    rw [hports, List.map_append, List.count_append, hhead, hrest, Signature.emptyElements,
      Signature.emptyElements, List.filter_cons]
    split
    · rw [List.map_cons, List.sum_cons]
    · exact Nat.zero_add _

/-- A gate that is no bloq, or one that wraps a bloq whose registers are for qubits, of any width, and all
go through. -/
def Gate.Streaming : Gate α κ → Prop
  | .ofBloq b => b.signature.Valid ∧
      ∀ r ∈ b.signature.registers, r.side = .thru ∧ r.dtype.isQuantum = true
  | _ => True

/-- What a streaming gate stands for in a composite. -/
structure Gate.Streams (g : Gate α κ) : Prop where
  valid : g.bloq.signature.Valid
  thru : ∀ r ∈ g.bloq.signature.registers, r.side = .thru ∧ r.dtype.isQuantum = true
  arity : (g.bloq.signature.registers.map (·.totalBits)).sum = g.arity

private theorem Gate.Passing.streams {g : Gate α κ} (h : g.Passing) : g.Streams where
  valid := Signature.valid_of_nodup (h.regular.plain.of_emits h.emits).2
  thru r hr := ⟨h.thru r hr, (h.regular.quantum r hr).1⟩
  arity := h.arity

theorem Gate.Streaming.streams {g : Gate α κ} (h : g.Streaming) : g.Streams := by
  cases g with
  | ofBloq b => exact ⟨h.1, h.2, Signature.totalBits_eq.symm⟩
  | standard g => exact (Gate.Steady.passing (g := .standard g) trivial).streams
  | declared d => exact (Gate.Steady.passing (g := .declared d) trivial).streams
  | nest n => exact (Gate.Steady.passing (g := .nest n) trivial).streams

theorem Gate.Streams.nodup_names {g : Gate α κ} (h : g.Streams) :
    (g.bloq.signature.registers.map (·.name)).Nodup := by
  rw [← Signature.lefts_of_thru fun r hr => (h.thru r hr).1]
  exact h.valid.nodup_lefts

namespace Import
variable [Angle α] {s : Signature} {b : Builder (Bloq α κ)} {bundles : Bundles (Bloq α κ)}
  {stock : Stock α κ} {l f : Labels} {v : Nat} {op : Operation (Gate α κ)}
  {ops : List (Operation (Gate α κ))}

/-! ## Requests -/

/-- The bundles bind exactly what is available in the builder. -/
structure Supplied (b : Builder (Bloq α κ)) (s : Signature) (bundles : Bundles (Bloq α κ))
    (stock : Stock α κ) : Prop where
  supplies : b.Supplies s stock
  lists : bundles.Lists stock

/-- If nothing is wanted, no bundle is split. -/
theorem splitShared_unwanted {wanted : QubitSet} (hno : ∀ q, q ∉ wanted) (entries : Stock α κ) :
    Gives (splitShared wanted entries bundles) b
      (entries.foldl (fun bundles e => bundles.insert e.1 e.2) bundles) b := by
  induction entries generalizing bundles with
  | nil => exact gives_pure.mpr ⟨rfl, rfl⟩
  | cons e entries ih =>
    have hnone : ¬ (1 < e.1.length && e.1.any wanted.contains) = true := by
      rw [Bool.and_eq_true, List.any_eq_true, not_and]
      rintro - ⟨q, -, hq⟩
      exact hno q (Std.ExtTreeSet.contains_iff_mem.mp hq)
    rw [splitShared, if_neg hnone]
    exact ih

/-- A bundle without qubits is taken if there is one, and is otherwise made by joining no bits. -/
theorem Supplied.ensure_empty (h : Supplied b s bundles stock) {t : DataType} (hq : t.isQuantum = true)
    (ht : t.bitsize = 0) :
    ∃ so b' bundles' stock', Gives (ensure ⟨[], t⟩ bundles) b (so, bundles') b' ∧
      Supplied b' s bundles' stock' ∧ Changes [] stock stock' ∧ ([], so) ∈ stock' := by
  rw [ensure]
  cases hget : bundles.get? [] with
  | some so =>
    exact ⟨so, b, bundles, stock, gives_pure.mpr ⟨rfl, rfl⟩, h, .refl _ _, (h.lists.mem _ _).mp hget⟩
  | none =>
    have hnew : [] ∉ stock.map Prod.fst := by
      intro hm
      obtain ⟨e, he, hk⟩ := List.mem_map.mp hm
      have hbound := (h.lists.mem e.1 e.2).mpr he
      rw [hk, hget] at hbound
      cases hbound
    have hunwanted : ∀ q, q ∉ Std.ExtTreeSet.ofList ([] : List Qubit) := fun q hq =>
      absurd (mem_ofList_set.mp hq) List.not_mem_nil
    have hkeys := (h.lists.entries_perm.map Prod.fst).nodup_iff.mpr h.lists.nodup
    have hlists := foldl_insert_lists Bundles.lists_empty ((List.append_nil bundles.entries).symm ▸ hkeys)
    rw [List.append_nil] at hlists
    have hin : b.Supplies s ([] ++ stock) := h.supplies
    obtain ⟨b', so, hjoin, hsupplies⟩ := hin.join List.map_nil.symm hq ht fun _ => hnew
    refine ⟨so, b', _, ([], so) :: stock, gives_bind.mpr ⟨bundles, b, gives_pure.mpr ⟨rfl, rfl⟩, ?_⟩,
      ⟨hsupplies, (hlists.perm h.lists.entries_perm).insert hnew so⟩,
      ⟨fun e he _ => List.mem_cons_of_mem _ he, fun q hq => .inl hq⟩, List.mem_cons_self⟩
    simp only [hget]
    refine gives_bind.mpr ⟨_, b, splitShared_unwanted hunwanted _, ?_⟩
    exact gives_bind.mpr ⟨_, b, gives_lift.mpr ⟨rfl, rfl⟩,
      gives_bind.mpr ⟨so, b', hjoin, gives_pure.mpr ⟨rfl, rfl⟩⟩⟩

/-- Every request for distinct qubits is served if its type has the right width. -/
theorem ensures_supplied (s : Signature) (request : QubitBundle) (hn : request.qubits.Nodup)
    (hq : request.dtype.isQuantum = true) (hlen : request.dtype.bitsize = request.qubits.length) :
    Ensures (fun (b : Builder (Bloq α κ)) bundles stock => Supplied b s bundles stock) request := by
  intro b bundles stock h
  by_cases hnil : request.qubits = []
  · obtain ⟨qs, t⟩ := request
    obtain rfl : qs = [] := hnil
    exact h.ensure_empty hq hlen
  · obtain ⟨so, b', bundles', stock', hensure, hsupplies, hlists, hchanges, hso⟩ :=
      (Builder.reshapes_supplies s).ensure_gives h.supplies h.lists hn (List.length_pos_iff.mpr hnil) hq
        hlen fun q _ hgone => absurd hgone List.not_mem_nil
    exact ⟨so, b', bundles', stock', hensure, ⟨hsupplies, hlists⟩, hchanges, hso⟩

theorem Supplied.ensureRegisters_gives (h : Supplied b s bundles stock) {registers : List Register}
    (hf : f.Fits v registers) (hq : ∀ r ∈ registers, r.dtype.isQuantum = true)
    (hn : (f.on v registers).Nodup) (hnames : (registers.map (·.name)).Nodup) :
    ∃ (cells : Register → Grid (Soquet (Bloq α κ))) (ins : Stock α κ) (b' : Builder (Bloq α κ))
      (bundles' : Bundles (Bloq α κ)) (stock' : Stock α κ),
      Gives (ensureRegisters (registers.map fun r => (r, f.array v r)) bundles Arrays.empty) b
        (Arrays.byRegister registers cells, bundles') b' ∧
      Supplied b' s bundles' stock' ∧ (∀ r ∈ registers, (cells r).shape = r.shape) ∧
      ins.map Prod.fst = (portsOn v registers).map f ∧
      ins.map Prod.snd = registers.flatMap (fun r => (cells r).toList) ∧ ∀ e ∈ ins, e ∈ stock' := by
  obtain ⟨cells, ins, b', bundles', stock', hensure, h', -, hshape, hfst, hsnd, hmem⟩ :=
    Import.ensureRegisters_gives (P := fun b bundles stock => Supplied b s bundles stock) h hf hn
      (fun p hp => ensures_supplied s ⟨f p, p.reg.dtype⟩ ((List.nodup_flatMap.mp hn).1 p hp)
        (hq p.reg (mem_portsOn.mp hp).2.1) (hf p hp).symm) Arrays.empty hnames
  exact ⟨cells, ins, b', bundles', stock', hensure, h', hshape, hfst, hsnd, hmem⟩

/-! ## Operations -/

/-- What an operation of a streaming gate finds when its inputs are at hand. -/
theorem Supplied.inputs_gives (h : Supplied b s bundles stock) (hg : op.gate.Streams)
    (hop : Operation.make op.gate op.qubits = .ok op) :
    ∃ (f : Labels) (cells : Register → Grid (Soquet (Bloq α κ))) (ins : Stock α κ)
      (b' : Builder (Bloq α κ)) (bundles' : Bundles (Bloq α κ)) (stock' : Stock α κ),
      f.Fits 0 op.gate.bloq.signature.registers ∧
      f.on 0 op.gate.bloq.signature.registers = op.qubits ∧
      Gives (ensureRegisters (op.gate.bloq.signature.lefts.map fun r => (r, f.array 0 r)) bundles
        Arrays.empty) b (Arrays.byRegister op.gate.bloq.signature.lefts cells, bundles') b' ∧
      Supplied b' s bundles' stock' ∧
      (∀ r ∈ op.gate.bloq.signature.lefts, (cells r).shape = r.shape) ∧
      ins.map Prod.fst = (portsOn 0 op.gate.bloq.signature.registers).map f ∧
      ins.map Prod.snd = op.gate.bloq.signature.lefts.flatMap (fun r => (cells r).toList) ∧
      (∀ e ∈ ins, e ∈ stock') ∧
      ((ins.map Prod.fst).Nodup ↔ op.gate.bloq.signature.emptyElements ≤ 1) := by
  obtain ⟨hlen, hn, -⟩ := Operation.make_eq_ok.mp hop
  obtain ⟨f, hf, hon⟩ := Labels.exists_on hg.nodup_names (hlen.trans hg.arity.symm) 0
  have hlefts := Signature.lefts_of_thru fun r hr => (hg.thru r hr).1
  obtain ⟨cells, ins, b', bundles', stock', hensure, h', hshape, hfst, hsnd, hmem⟩ :=
    h.ensureRegisters_gives hf (fun r hr => (hg.thru r hr).2) (hon ▸ hn) hg.nodup_names
  rw [← hlefts] at hensure hshape hsnd
  refine ⟨f, cells, ins, b', bundles', stock', hf, hon, hensure, h', hshape, hfst, hsnd, hmem, ?_⟩
  have hqubits : ins.qubits = op.qubits := by
    rw [Stock.qubits, List.flatMap_def, hfst, ← hon, Labels.on, List.flatMap_def]
  rw [Stock.nodup_keys_iff (hqubits ▸ hn), hfst, Labels.count_nil hf]

/-- An operation with at most one element without qubits is placed. -/
theorem Supplied.addOperation_gives (h : Supplied b s bundles stock) (hg : op.gate.Streams)
    (hop : Operation.make op.gate op.qubits = .ok op)
    (hfew : op.gate.bloq.signature.emptyElements ≤ 1) :
    ∃ b' bundles' stock', Gives (addOperation op bundles) b bundles' b' ∧
      Supplied b' s bundles' stock' := by
  obtain ⟨f, cells, ins, b₁, bundles₁, stock₁, hf, hon, hensure, h₁, hshape, hfst, hsnd, hmem, hiff⟩ :=
    h.inputs_gives hg hop
  obtain ⟨rest, hrest⟩ := Stock.exists_rest (hiff.mpr hfew) hmem
  have hsupplies := h₁.supplies.perm hrest
  have hkeys : ins.map Prod.fst =
      (portsOn (b₁.next + 1) op.gate.bloq.signature.registers).map (f.moveTo 0) := by
    rw [hfst, Labels.map_moveTo]
  obtain ⟨b', hadd, hsupplies'⟩ :=
    hsupplies.add hg.valid hg.thru (hf.moveTo (b₁.next + 1)) hkeys hshape hsnd
  have hlefts : op.gate.bloq.signature.registers.filter (·.side.isLeft) =
      op.gate.bloq.signature.registers := Signature.lefts_of_thru fun r hr => (hg.thru r hr).1
  have hnodup := hsupplies.nodup_keys
  rw [List.map_append, hkeys] at hnodup
  obtain ⟨bundles', hrebind, hlists⟩ := rebindAll_gives (x := ⟨b₁.next, op.gate.bloq⟩)
    (hf.moveTo (b₁.next + 1)) (get?_outputs ⟨b₁.next, op.gate.bloq⟩ hg.valid.nodup_rights)
    (by rw [hlefts]; exact hkeys) hnodup (h₁.lists.perm hrest)
  refine ⟨b', bundles', _, ?_, ⟨hsupplies', hlists⟩⟩
  rw [addOperation_eq rfl hg.nodup_names hf hon]
  refine gives_bind.mpr ⟨_, _, hensure, ?_⟩
  exact gives_bind.mpr ⟨_, _, hadd, gives_lift.mpr ⟨hrebind, rfl⟩⟩

/-- An operation with two elements without qubits is not placed: both are to take the same soquet. -/
theorem Supplied.addOperation_fails (h : Supplied b s bundles stock) (hg : op.gate.Streams)
    (hop : Operation.make op.gate op.qubits = .ok op)
    (hmany : ¬ op.gate.bloq.signature.emptyElements ≤ 1) :
    ∃ so : Soquet (Bloq α κ), Fails (addOperation op bundles) b (.soquetNotAvailable so.text) := by
  obtain ⟨f, cells, ins, b₁, bundles₁, stock₁, hf, hon, hensure, h₁, hshape, hfst, hsnd, hmem, hiff⟩ :=
    h.inputs_gives hg hop
  have hlefts := Signature.lefts_of_thru fun r hr => (hg.thru r hr).1
  have hleft : (Builder.wiring (.placed ⟨b₁.next, op.gate.bloq⟩) op.gate.bloq.signature.lefts cells).map
      (·.left) = ins.map Prod.snd := (Builder.left_wiring hshape).trans hsnd.symm
  have hagree := h₁.supplies.agree hmem hleft (Builder.right_wiring hshape) (v := 0) (f := f)
    (by rw [hlefts, hfst]) (fun r hr => (hg.thru r (hlefts ▸ hr)).2) (hlefts.symm ▸ hf)
  have htwice : ¬ ins.Nodup := fun hn => by
    refine hmany (hiff.mp (hn.map_on fun e he e' he' heq => ?_))
    exact List.inj_on_of_nodup_map h₁.supplies.nodup_keys (hmem e he) (hmem e' he') heq
  obtain ⟨so, -, hfails⟩ := Builder.add_refused hg.valid hshape hagree
    (mt (h₁.supplies.drawable_iff hmem hleft hagree).mp htwice)
  refine ⟨so, ?_⟩
  rw [addOperation_eq rfl hg.nodup_names hf hon]
  exact fails_bind.mpr (.inr ⟨_, _, hensure, fails_bind.mpr (.inl hfails)⟩)

theorem Supplied.addOperations_gives (h : Supplied b s bundles stock)
    (hops : ∀ op ∈ ops, op.gate.Streams ∧ Operation.make op.gate op.qubits = .ok op)
    (hfew : ∀ op ∈ ops, op.gate.bloq.signature.emptyElements ≤ 1) :
    ∃ b' bundles' stock', Gives (addOperations ops bundles) b bundles' b' ∧
      Supplied b' s bundles' stock' := by
  induction ops generalizing b bundles stock with
  | nil => exact ⟨b, bundles, stock, gives_pure.mpr ⟨rfl, rfl⟩, h⟩
  | cons op ops ih =>
    obtain ⟨hg, hop⟩ := hops op List.mem_cons_self
    obtain ⟨b₁, bundles₁, stock₁, hadd, h₁⟩ := h.addOperation_gives hg hop (hfew op List.mem_cons_self)
    obtain ⟨b', bundles', stock', hadds, h'⟩ := ih h₁ (fun op hm => hops op (List.mem_cons_of_mem _ hm))
      fun op hm => hfew op (List.mem_cons_of_mem _ hm)
    exact ⟨b', bundles', stock', gives_bind.mpr ⟨_, _, hadd, hadds⟩, h'⟩

/-- The first operation with two elements without qubits ends the run. -/
theorem Supplied.addOperations_fails (h : Supplied b s bundles stock)
    (hops : ∀ op ∈ ops, op.gate.Streams ∧ Operation.make op.gate op.qubits = .ok op)
    (hmany : ¬ ∀ op ∈ ops, op.gate.bloq.signature.emptyElements ≤ 1) :
    ∃ so : Soquet (Bloq α κ), Fails (addOperations ops bundles) b (.soquetNotAvailable so.text) := by
  induction ops generalizing b bundles stock with
  | nil => exact absurd (fun op hm => absurd hm List.not_mem_nil) hmany
  | cons op ops ih =>
    obtain ⟨hg, hop⟩ := hops op List.mem_cons_self
    by_cases hfew : op.gate.bloq.signature.emptyElements ≤ 1
    · obtain ⟨b₁, bundles₁, stock₁, hadd, h₁⟩ := h.addOperation_gives hg hop hfew
      obtain ⟨so, hfails⟩ := ih h₁ (fun op hm => hops op (List.mem_cons_of_mem _ hm)) fun hall =>
        hmany (List.forall_mem_cons.mpr ⟨hfew, hall⟩)
      exact ⟨so, fails_bind.mpr (.inr ⟨_, _, hadd, hfails⟩)⟩
    · obtain ⟨so, hfails⟩ := h.addOperation_fails hg hop hfew
      exact ⟨so, fails_bind.mpr (.inl hfails)⟩

/-! ## Outputs -/

/-- When the outputs are collected and the rest is freed, the composite can be closed. -/
theorem Supplied.close_gives {outputs : Quregs} (h : Supplied b s bundles stock) (hv : s.Valid)
    (hq : ∀ r ∈ s.rights, r.dtype.isQuantum = true) (hf : f.Fits v s.rights)
    (hout : ∀ r ∈ s.rights, r.arrayIn outputs = .ok (f.array v r)) (hn : (f.on v s.rights).Nodup)
    (hkeys : ((portsOn v s.rights).map f).Nodup) :
    ∃ c b', Gives (do
      let (final, used, bundles) ← collectOutputs outputs s.rights bundles Arrays.empty ∅
      freeUnused used bundles.entries
      Builder.finalize final) b c b' := by
  obtain ⟨cells, final, b₁, bundles₁, stock₁, hensure, h₁, hshape, hfst, hsnd, hmem⟩ :=
    h.ensureRegisters_gives hf hq hn hv.nodup_rights
  obtain ⟨used, hcollect, hused⟩ := collectOutputs_gives hout hf hensure ∅
  have hentries : b₁.Supplies s ([] ++ bundles₁.entries) :=
    h₁.supplies.perm h₁.lists.entries_perm.symm
  obtain ⟨b₂, hfree, hsupplies⟩ := freeUnused_keeps
    (P := fun b stock => b.Supplies s stock) (fun h hs => h.perm hs) (fun h => h.free) used hentries
  have hkept := used_perm ((h₁.lists.entries_perm.map Prod.fst).nodup_iff.mpr h₁.lists.nodup)
    (hfst ▸ hkeys) (fun e he => h₁.lists.entries_perm.mem_iff.mpr (hmem e he)) fun k => by
      rw [hused, hfst, or_iff_right Std.ExtTreeSet.not_mem_empty]
  obtain ⟨c, b', hfinal⟩ := (hsupplies.perm hkept).finalize hq hf hshape hfst hsnd
  refine ⟨c, b', gives_bind.mpr ⟨_, _, hcollect, ?_⟩⟩
  exact gives_bind.mpr ⟨(), b₂, hfree, hfinal⟩

end Import

/-! ## Whole circuits -/

variable [Angle α]

/-- Between boundaries on which no bundle is bound twice, import succeeds unless an operation has two
elements without qubits; then a soquet is found to be used up. -/
theorem Circuit.importBetween_streams {s : Signature} {l f : Labels} {v : Nat} {inputs outputs : Quregs}
    {ops : List (Operation (Gate α κ))} (hv : s.Valid) (hq : ∀ r ∈ s.registers, r.Quantum)
    (hl : l.Fits 0 s.lefts) (hin : ∀ r ∈ s.lefts, r.arrayIn inputs = .ok (l.array 0 r))
    (hnl : (l.on 0 s.lefts).Nodup) (hf : f.Fits v s.rights)
    (hout : ∀ r ∈ s.rights, r.arrayIn outputs = .ok (f.array v r)) (hnf : (f.on v s.rights).Nodup)
    (hops : ∀ op ∈ ops, op.gate.Streams ∧ Operation.make op.gate op.qubits = .ok op) :
    ((∀ op ∈ ops, op.gate.bloq.signature.emptyElements ≤ 1) ∧ ∃ g : Composite (Bloq α κ),
      (⟨ops⟩ : Circuit (Gate α κ)).importBetween s inputs outputs = .ok g) ∨
    ((¬ ∀ op ∈ ops, op.gate.bloq.signature.emptyElements ≤ 1) ∧ ∃ so : Soquet (Bloq α κ),
      ((⟨ops⟩ : Circuit (Gate α κ)).importBetween s inputs outputs :
        Except Error (Composite (Bloq α κ))) = .error (.soquetNotAvailable so.text)) := by
  have hlefts : ∀ r ∈ s.lefts, r.Quantum := fun r hr => hq r (Signature.mem_lefts.mp hr).1
  have hrights : ∀ r ∈ s.rights, r.Quantum := fun r hr => hq r (Signature.mem_rights.mp hr).1
  obtain ⟨bundles, hbind, htracks⟩ := Import.exists_start (α := α) (κ := κ) hv hlefts hl hin hnl
  obtain ⟨L, hheld, -⟩ := htracks.holds
  have h : Import.Supplied (Builder.opened s) s bundles (Builder.inputStock α κ s l) :=
    ⟨hheld.supplies, htracks.lists⟩
  by_cases hfew : ∀ op ∈ ops, op.gate.bloq.signature.emptyElements ≤ 1
  · have hkeys : ((portsOn v s.rights).map f).Nodup := by
      rw [Labels.on, List.flatMap_def] at hnf
      refine nodup_of_nodup_flatten hnf fun k hk => ?_
      obtain ⟨p, hp, rfl⟩ := List.mem_map.mp hk
      have hpos := (hrights p.reg (mem_portsOn.mp hp).2.1).2
      exact List.ne_nil_of_length_pos (hf p hp ▸ hpos)
    obtain ⟨b₁, bundles₁, stock₁, hadd, h₁⟩ := h.addOperations_gives hops hfew
    obtain ⟨g, b₂, hclose⟩ :=
      h₁.close_gives hv (fun r hr => (hrights r hr).1) hf hout hnf hkeys
    refine .inl ⟨hfew, g, Builder.run_of_gives (b := b₂) ?_⟩
    refine gives_bind.mpr ⟨_, _, Builder.start_gives hv, ?_⟩
    refine gives_bind.mpr ⟨_, _, gives_lift.mpr ⟨hbind, rfl⟩, ?_⟩
    exact gives_bind.mpr ⟨_, _, hadd, hclose⟩
  · obtain ⟨so, hfails⟩ := h.addOperations_fails hops hfew
    refine .inr ⟨hfew, so, ?_⟩
    refine fails_bind.mpr (.inr ⟨_, _, Builder.start_gives hv, ?_⟩)
    refine fails_bind.mpr (.inr ⟨_, _, gives_lift.mpr ⟨hbind, rfl⟩, ?_⟩)
    exact fails_bind.mpr (.inl hfails)

/-- A circuit of streaming gates is imported with the default signature exactly if none of its operations
has two elements without qubits, whatever widths and shapes the registers have besides. Nothing else makes
the import fail. -/
theorem Circuit.import_streaming (c : Circuit (Gate α κ))
    (hops : ∀ op ∈ c.operations, op.gate.Streaming ∧ Operation.make op.gate op.qubits = .ok op)
    (inputs outputs : Option Quregs) (name : String) :
    ((∃ g : Composite (Bloq α κ), c.importAs none inputs outputs name = .ok g) ↔
      ∀ op ∈ c.operations, op.gate.bloq.signature.emptyElements ≤ 1) ∧
    ∀ e, (c.importAs none inputs outputs name : Except Error (Composite (Bloq α κ))) = .error e →
      ∃ so : Soquet (Bloq α κ), e = .soquetNotAvailable so.text := by
  obtain ⟨l, hfits, harray, hon, -⟩ := exists_labels_defaultQuregs c name 0
  have hnodup : (l.on 0 [c.defaultRegister name]).Nodup := hon ▸ nodup_firstUses _
  have hstreams : ∀ op ∈ c.operations,
      op.gate.Streams ∧ Operation.make op.gate op.qubits = .ok op :=
    fun op hop => (hops op hop).imp_left Gate.Streaming.streams
  rcases importBetween_streams (c.valid_default name) (c.quantum_default name) hfits harray hnodup hfits
    harray hnodup hstreams with ⟨hfew, g, hg⟩ | ⟨hmany, so, hso⟩
  · have himport : c.importAs none inputs outputs name = .ok g := hg
    refine ⟨⟨fun _ => hfew, fun _ => ⟨g, himport⟩⟩, fun e he => ?_⟩
    rw [himport] at he
    cases he
  · have himport : (c.importAs none inputs outputs name : Except Error (Composite (Bloq α κ))) =
        .error (.soquetNotAvailable so.text) := hso
    refine ⟨⟨fun hg => ?_, fun hfew => absurd hfew hmany⟩, fun e he => ⟨so, ?_⟩⟩
    · obtain ⟨g, hg⟩ := hg
      rw [himport] at hg
      cases hg
    · rw [himport] at he
      exact (Except.error.inj he).symm

/-- Two operations in a row whose registers have an element without qubits: both take the same one in turn.
With two such elements the first of them is refused. -/
theorem Circuit.import_streaming_empty :
    let z (shape : List Nat) : Bloq Float Complex := .declared ⟨"z", "z",
      ⟨[⟨"q", .qany 2, [2], .thru⟩, ⟨"e", .qany 0, shape, .thru⟩]⟩,
      .error (.decomposeNotImplemented "z"), none, [], none⟩
    let qs : List Qubit := [.line 0, .line 1, .line 2, .line 3]
    let c (shape : List Nat) : Circuit (Gate Float Complex) := ⟨[⟨.standard .cx, [.line 3, .line 0]⟩,
      ⟨.ofBloq (z shape), qs⟩, ⟨.ofBloq (z shape), qs⟩]⟩
    (∀ op ∈ (c [1]).operations, op.gate.Streaming ∧ Operation.make op.gate op.qubits = .ok op) ∧
    (∀ op ∈ (c [2]).operations, op.gate.Streaming ∧ Operation.make op.gate op.qubits = .ok op) ∧
    (∃ g : Composite (Bloq Float Complex), (c [1]).importAs none none none "qubits" = .ok g) ∧
    ∃ so : Soquet (Bloq Float Complex),
      ((c [2]).importAs none none none "qubits" : Except Error (Composite (Bloq Float Complex))) =
        .error (.soquetNotAvailable so.text) := by
  intro z qs c
  have hsignature : ∀ shape, (z shape).signature =
      ⟨[⟨"q", .qany 2, [2], .thru⟩, ⟨"e", .qany 0, shape, .thru⟩]⟩ := by
    intro shape
    simp only [z, Bloq.signature]
  have hops : ∀ shape, ∀ op ∈ (c shape).operations,
      op.gate.Streaming ∧ Operation.make op.gate op.qubits = .ok op := by
    intro shape op hop
    have hwrapped : (Gate.ofBloq (z shape)).Streaming ∧
        Operation.make (Gate.ofBloq (z shape)) qs = .ok ⟨.ofBloq (z shape), qs⟩ := by
      refine ⟨⟨?_, fun r hr => ?_⟩, Operation.make_eq_ok.mpr ⟨?_, by decide, rfl⟩⟩
      · rw [hsignature]
        rfl
      · rw [hsignature] at hr
        simp only [List.mem_cons, List.not_mem_nil, or_false] at hr
        rcases hr with rfl | rfl <;> exact ⟨rfl, rfl⟩
      · show 4 = (z shape).signature.totalBits
        rw [hsignature, Signature.totalBits_eq]
        simp [Register.totalBits, Register.bitsize, Register.numElements, DataType.bitsize, shapeSize]
    simp only [c, List.mem_cons, List.not_mem_nil, or_false] at hop
    rcases hop with rfl | rfl | rfl
    · exact ⟨trivial, Operation.make_eq_ok.mpr ⟨rfl, by decide, rfl⟩⟩
    · exact hwrapped
    · exact hwrapped
  have hempty : ∀ shape, (z shape).signature.emptyElements = shapeSize shape := by
    intro shape
    rw [hsignature]
    simp [Signature.emptyElements, Register.bitsize, DataType.bitsize, Register.numElements]
  have hplain : ((Gate.standard .cx : Gate Float Complex).bloq).signature.emptyElements = 0 := by
    have hbloq : (Gate.standard .cx : Gate Float Complex).bloq = .ofGate (.standard .cx) := rfl
    rw [hbloq, Bloq.signature_ofGate]
    rfl
  obtain ⟨hone, -⟩ := (c [1]).import_streaming (hops [1]) none none "qubits"
  obtain ⟨htwo, herror⟩ := (c [2]).import_streaming (hops [2]) none none "qubits"
  refine ⟨hops [1], hops [2], hone.mpr fun op hop => ?_, ?_⟩
  · simp only [c, List.mem_cons, List.not_mem_nil, or_false] at hop
    rcases hop with rfl | rfl | rfl
    · exact hplain.trans_le (Nat.zero_le 1)
    · exact Nat.le_of_eq (hempty [1])
    · exact Nat.le_of_eq (hempty [1])
  · cases hresult : ((c [2]).importAs none none none "qubits" :
        Except Error (Composite (Bloq Float Complex))) with
    | ok g =>
      have hmany : (z [2]).signature.emptyElements ≤ 1 := htwo.mp ⟨g, hresult⟩ ⟨.ofBloq (z [2]), qs⟩
        (List.mem_cons_of_mem _ List.mem_cons_self)
      rw [hempty] at hmany
      exact absurd hmany (by decide)
    | error e =>
      obtain ⟨so, rfl⟩ := herror e hresult
      exact ⟨so, rfl⟩

end BloqCircuit
