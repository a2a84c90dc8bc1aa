import BloqCircuit.Proofs.Json.Circuits
import BloqCircuit.Proofs.Operands
import BloqCircuit.Proofs.Rewrapping
/-! Where operations come from, and whether their qubits are different. All but one of the ways check it.
Renaming does not, so that it has to be seen from the renaming: the one at the end of a decomposition
merges no qubits if the pool hands out none of those that the gate is on. -/
namespace BloqCircuit

/-! ## Renaming by pairs -/

namespace Renaming

private theorem mem_of_getElem?_insertMany {m : Renaming} {pairs : List (Qubit × Qubit)} {q x : Qubit}
    (h : (m.insertMany pairs)[q]? = some x) : (q, x) ∈ pairs ∨ m[q]? = some x := by
  induction pairs generalizing m with
  | nil =>
    rw [Std.ExtTreeMap.insertMany_nil] at h
    exact .inr h
  | cons pair pairs ih =>
    obtain ⟨y, z⟩ := pair
    rw [Std.ExtTreeMap.insertMany_cons] at h
    rcases ih h with hmem | hget
    · exact .inl (List.mem_cons_of_mem _ hmem)
    · rw [getElem?_insert_key] at hget
      split at hget
      · next heq =>
        cases hget
        exact .inl (heq ▸ List.mem_cons_self)
      · exact .inr hget

/-- A qubit is renamed to one that it is paired with, or keeps its name. -/
theorem mem_or_rename_eq (pairs : List (Qubit × Qubit)) (q : Qubit) :
    (q, (ofPairs pairs).rename q) ∈ pairs ∨ (ofPairs pairs).rename q = q := by
  rw [rename, Std.ExtTreeMap.getD_eq_getD_getElem?]
  cases h : (ofPairs pairs)[q]? with
  | none => exact .inr rfl
  | some x =>
    rw [ofPairs, Std.ExtTreeMap.ofList_eq_insertMany_empty] at h
    apply Or.inl
    rcases mem_of_getElem?_insertMany h with hmem | hempty
    · exact hmem
    · rw [Std.ExtTreeMap.getElem?_empty] at hempty
      cases hempty

/-- New names that are different and unused keep qubits apart, whatever they are given to. -/
theorem injOn_rename {pairs : List (Qubit × Qubit)} {S : Set Qubit}
    (hn : (pairs.map Prod.snd).Nodup) (hS : ∀ q ∈ pairs.map Prod.snd, q ∉ S) :
    Set.InjOn (ofPairs pairs).rename S := by
  have hunused : ∀ x, ∀ y ∈ S, (x, y) ∉ pairs := by
    intro x y hy hm
    exact hS y (List.mem_map_of_mem (f := Prod.snd) hm) hy
  intro x hx y hy hxy
  rcases mem_or_rename_eq pairs x with hx' | hx' <;> rcases mem_or_rename_eq pairs y with hy' | hy'
  · have hpair := List.inj_on_of_nodup_map hn hx' hy' hxy
    exact congrArg Prod.fst hpair
  · rw [hxy, hy'] at hx'
    exact absurd hx' (hunused x y hy)
  · rw [← hxy, hx'] at hy'
    exact absurd hy' (hunused y x hx)
  · rw [← hx', hxy, hy']

end Renaming

theorem Circuit.forall_mem_map {γ : Type} {c : Circuit γ} {f : Qubit → Qubit}
    {P : Operation γ → Prop} :
    (∀ op ∈ (c.map f).operations, P op) ↔ ∀ op ∈ c.operations, P (op.map f) :=
  List.forall_mem_map

/-! ## Decompositions of wrapped bloqs -/

namespace Signature

/-- The inputs and the outputs that are no inputs are all registers. -/
theorem lefts_append_news_perm (s : Signature) :
    (s.lefts ++ s.rights.filter (·.side == .right)).Perm s.registers := by
  have hnews : s.rights.filter (·.side == .right) = s.registers.filter fun r => !r.side.isLeft := by
    rw [rights, List.filter_filter]
    apply List.filter_congr
    intro r _
    cases r.side <;> rfl
  rw [hnews]
  exact List.filter_append_perm _ _

end Signature

/-- What a gate is given for the inputs and for the new outputs of its decomposition are different qubits
of it. -/
theorem Quregs.nodup_boundary {s s' : Signature} {qubits : List Qubit} {quregs : Quregs}
    (h : Quregs.split s qubits = .ok quregs) (hn : qubits.Nodup) (hnames : s'.repeatedName? = none) :
    (quregs.qubitsUnder (s'.lefts.map (·.name)) ++
      quregs.qubitsUnder ((s'.rights.filter (·.side == .right)).map (·.name))).Nodup ∧
    ∀ q ∈ quregs.qubitsUnder (s'.lefts.map (·.name)) ++
      quregs.qubitsUnder ((s'.rights.filter (·.side == .right)).map (·.name)), q ∈ qubits := by
  have hdifferent := ((s'.lefts_append_news_perm.map (·.name)).nodup_iff).mpr
    (Signature.repeatedName?_eq_none.mp hnames)
  have hunder := nodup_qubitsUnder h hn hdifferent
  rw [List.map_append, qubitsUnder, List.flatMap_append] at hunder
  exact hunder

namespace Wrapped
variable {S : Qubit → Prop}

theorem over_pick {registers : List Register} {quregs given arrays : Quregs}
    (h : pick quregs registers given = .ok arrays)
    (hS : ∀ q ∈ quregs.qubitsUnder (registers.map (·.name)), S q) (hg : given.Over S) :
    arrays.Over S := by
  induction registers generalizing given with
  | nil =>
    cases h
    exact hg
  | cons r rest ih =>
    rw [List.map_cons, Quregs.qubitsUnder, List.flatMap_cons] at hS
    obtain ⟨hfirst, hrest⟩ := List.forall_mem_append.mp hS
    rw [pick] at h
    split at h
    · next g hget =>
      rw [hget] at hfirst
      exact ih h hrest (hg.insert hfirst)
    · cases h

/-- The new names are those of the qubits assigned to the outputs, in their order. They take nothing
from the allocator. -/
theorem yields_returnOutputs {σ : Type} [Allocator σ] {u : Supply σ S} {registers : List Register}
    {produced assigned : Quregs} :
    u.Yields 0 (fun pairs => pairs.map Prod.snd = assigned.qubitsUnder (registers.map (·.name)))
      (returnOutputs produced assigned registers) := by
  induction registers with
  | nil => exact .pure rfl
  | cons r rest ih =>
    rw [returnOutputs, List.map_cons, Quregs.qubitsUnder, List.flatMap_cons]
    split
    · next p a hp ha =>
      split
      · exact Supply.Yields.bind (k := 0) (P := fun _ => False) .throw fun _ h => h.elim
      · next hshape =>
        apply Supply.Yields.free_bind
        refine ih.bind (k := 0) fun more hmore => .pure ?_
        have hlength : a.toList.length ≤ p.toList.length := by
          rw [Grid.length_toList, Grid.length_toList, not_not.mp hshape]
        rw [List.map_append, List.map_snd_zip hlength, hmore, ha]
        rfl
    · exact .throw

variable {β γ : Type} [BloqKind β] [GateKind γ] [CircuitForm β γ] {c : Composite β} {s : Signature}
  {qubits : List Qubit} {quregs : Quregs} {emitted : Circuit γ} {p p' : CleanPool}

/-- Whatever the pool hands out, the numbers of qubits are right. -/
theorem length_of_emitOn (h : Gives (emitOn c quregs) p emitted p') :
    ∀ op ∈ emitted.operations, op.qubits.length = GateKind.arity op.gate := by
  obtain ⟨_, _, circuit, _, pairs, _, _, -, -, hexport, -, -, rfl⟩ := of_emitOn h
  refine Circuit.forall_mem_map.mpr fun op hop => ?_
  exact (List.length_map _).trans (Composite.proper_of_export hexport op hop).length

omit [BloqKind β] [CircuitForm β γ] in
/-- An operation on inputs and ancillas stays proper, and on qubits of the gate and ancillas, where
outputs are renamed to further qubits of the gate. -/
theorem properOn_rename {inputs handed : List Qubit} {pairs : List (Qubit × Qubit)} {op : Operation γ}
    (h : op.ProperOn (· ∈ inputs ++ handed)) (hn : (inputs ++ pairs.map Prod.snd).Nodup)
    (hmem : ∀ q ∈ inputs ++ pairs.map Prod.snd, q ∈ qubits) (hapart : ∀ q ∈ qubits, q ∉ handed) :
    (op.map (Renaming.ofPairs pairs).rename).ProperOn (· ∈ qubits ++ handed) := by
  obtain ⟨hproper, hops⟩ := h
  obtain ⟨-, hassigned, hdisjoint⟩ := List.nodup_append.mp hn
  obtain ⟨hins, houts⟩ := List.forall_mem_append.mp hmem
  -- the operation uses none of the new names
  have hunused : ∀ q ∈ pairs.map Prod.snd, q ∉ {q | q ∈ inputs ++ handed} := by
    intro q hq hm
    rcases List.mem_append.mp hm with hm | hm
    · exact hdisjoint q hm q hq rfl
    · exact hapart q (houts q hq) hm
  constructor
  · exact Operation.proper_map_iff.mpr
      ⟨hproper, (Renaming.injOn_rename hassigned hunused).mono hops⟩
  · intro q hq
    obtain ⟨x, hx, rfl⟩ := List.mem_map.mp hq
    rcases Renaming.mem_or_rename_eq pairs x with hpair | hsame
    · exact List.mem_append_left _ (houts _ (List.mem_map_of_mem (f := Prod.snd) hpair))
    · rw [hsame]
      exact List.mem_append.mpr ((List.mem_append.mp (hops x hx)).imp_left (hins x))

/-- A pool that hands out none of the qubits that the gate is on keeps the operations proper, on these
qubits and what it hands out, also after the outputs were renamed. -/
theorem properOn_of_emitOn (hsplit : Quregs.split s qubits = .ok quregs) (hn : qubits.Nodup)
    (hnames : c.signature.repeatedName? = none)
    (hapart : ∀ q ∈ qubits, q ∉ CleanPool.fresh p.next (c.ancillas .greedy))
    (h : Gives (emitOn c quregs) p emitted p') :
    p.Since p' (CleanPool.fresh p.next (c.ancillas .greedy)) ∧
      ∀ op ∈ emitted.operations,
        op.ProperOn (· ∈ qubits ++ CleanPool.fresh p.next (c.ancillas .greedy)) := by
  obtain ⟨arrays, inputs, circuit, out, pairs, t, t', hpick, -, hexport, hreturn, rfl, rfl⟩ :=
    of_emitOn h
  obtain ⟨hnodup, hmem⟩ := Quregs.nodup_boundary hsplit hn hnames
  -- the circuit is on the inputs and on what the pool hands out
  have hgiven : arrays.Over (· ∈ quregs.qubitsUnder (c.signature.lefts.map (·.name)) ++
      CleanPool.fresh p.next (c.ancillas .greedy)) :=
    over_pick hpick (fun _ => List.mem_append_left _) Quregs.over_empty
  obtain ⟨⟨hon, -⟩, hleft⟩ := c.yields_export
    (u := .ancillas p (c.ancillas .greedy) fun _ => List.mem_append_right _) hgiven (k := 0)
    ⟨[], Nat.zero_add _, .refl⟩ hexport
  obtain ⟨hassigned, handed, hlength, hsince⟩ := yields_returnOutputs (k := 0) hleft hreturn
  rw [← hassigned] at hnodup hmem
  have hhanded : handed = CleanPool.fresh p.next (c.ancillas .greedy) :=
    hsince.spec.2.trans (congrArg _ hlength)
  refine ⟨hhanded ▸ hsince, Circuit.forall_mem_map.mpr ?_⟩
  intro op hop
  exact properOn_rename (hon op hop) hnodup hmem hapart

end Wrapped

variable {α κ : Type} [Angle α]

/-- A bloq as a gate on these qubits: they are different, the pool hands out none of them, and the
decomposition has no two registers of one name. -/
structure Bloq.Spared (b : Bloq α κ) (qubits : List Qubit) (p : CleanPool) : Prop where
  nodup : qubits.Nodup
  apart : ∀ q ∈ qubits, q ∉ CleanPool.fresh p.next (Wrapped.ancillas b.decomposition)
  named : ∀ c, b.decomposition = .ok c → c.signature.repeatedName? = none

namespace Gate
variable {g : Gate α κ} {qubits : List Qubit} {p p' : CleanPool} {ops : List (Operation (Gate α κ))}

theorem length_of_decompose (h : Gives (g.decompose qubits) p (some ops) p') :
    ∀ op ∈ ops, op.qubits.length = op.gate.arity := by
  intro op hop
  by_cases hg : ∃ b, g = .ofBloq b
  · obtain ⟨b, rfl⟩ := hg
    rw [decompose] at h
    obtain ⟨quregs, c, circuit, -, -, hemit, rfl⟩ := Wrapped.of_decompose h
    exact Wrapped.length_of_emitOn hemit op hop
  · exact (Operation.proper_iff.mpr (mem_decompose (not_exists.mp hg) h hop).1).length

theorem proper_of_decompose (hb : ∀ b, g = .ofBloq b → b.Spared qubits p)
    (h : Gives (g.decompose qubits) p (some ops) p') : ∀ op ∈ ops, op.Proper := by
  intro op hop
  by_cases hg : ∃ b, g = .ofBloq b
  · obtain ⟨b, rfl⟩ := hg
    obtain ⟨hn, hapart, hnamed⟩ := hb b rfl
    rw [decompose] at h
    obtain ⟨quregs, c, circuit, hsplit, hc, hemit, rfl⟩ := Wrapped.of_decompose h
    rw [hc] at hapart
    exact ((Wrapped.properOn_of_emitOn hsplit hn (hnamed c hc) hapart hemit).2 op hop).proper
  · exact Operation.proper_iff.mpr (mem_decompose (not_exists.mp hg) h hop).1

private def isCrossing : Bloq Float Complex → Bool
  | .allocate t | .free t => t == .qbit
  | .ofGate (.standard .cx) => true
  | _ => false

end Gate

/-! ## All ways to an operation -/

section
variable [AngleJson α]

/-- The operations, by where they come from. If `apart` holds, then none of the renamings on the way
merges two qubits of an operation. -/
inductive Operation.Obtained (apart : Prop) : Operation (Gate α κ) → Prop
  | made {g : Gate α κ} {qubits : List Qubit} {op : Operation (Gate α κ)}
      (h : Operation.make g qubits = .ok op) : Obtained apart op
  | read {text : String} {c : Circuit (Gate α κ)} (h : Circuit.ofJsonText text = .ok c)
      {op : Operation (Gate α κ)} (hop : op ∈ c.operations) : Obtained apart op
  | exported {σ : Type} [Allocator σ] {c : Composite (Bloq α κ)} {signature : Signature}
      {quregs out : Quregs} {order : TraversalOrder} {s t : σ} {circuit : Circuit (Gate α κ)}
      (h : Gives (c.export signature quregs order) s (circuit, out) t)
      {op : Operation (Gate α κ)} (hop : op ∈ circuit.operations) : Obtained apart op
  | decomposed {g : Gate α κ} {qubits : List Qubit} {p p' : CleanPool}
      {ops : List (Operation (Gate α κ))} (h : Gives (g.decompose qubits) p (some ops) p')
      (hb : apart → ∀ b, g = .ofBloq b → b.Spared qubits p)
      {op : Operation (Gate α κ)} (hop : op ∈ ops) : Obtained apart op
  | renamed {op : Operation (Gate α κ)} (h : Obtained apart op) (f : Qubit → Qubit)
      (hf : apart → Set.InjOn f {q | q ∈ op.qubits}) : Obtained apart (op.map f)

/-- The circuits that operations are put together to, and these with their qubits renamed. -/
inductive Circuit.Obtained (apart : Prop) : Circuit (Gate α κ) → Prop
  | ofOperations {ops : List (Operation (Gate α κ))} (h : ∀ op ∈ ops, op.Obtained apart) :
      Obtained apart ⟨ops⟩
  | push {c : Circuit (Gate α κ)} {op : Operation (Gate α κ)} (h : Obtained apart c)
      (hop : op.Obtained apart) : Obtained apart (c.push op)
  | extend {c : Circuit (Gate α κ)} {ops : List (Operation (Gate α κ))} (h : Obtained apart c)
      (hops : ∀ op ∈ ops, op.Obtained apart) : Obtained apart (c.extend ops)
  | map {c : Circuit (Gate α κ)} (h : Obtained apart c) (f : Qubit → Qubit)
      (hf : apart → ∀ op ∈ c.operations, Set.InjOn f {q | q ∈ op.qubits}) :
      Obtained apart (c.map f)

variable {apart : Prop}

theorem Circuit.proper_of_ofJsonText {text : String} {c : Circuit (Gate α κ)}
    (h : ofJsonText text = .ok c) : ∀ op ∈ c.operations, op.Proper := by
  obtain ⟨parts, rfl, -, hfits⟩ := exists_parts_of_ofJsonText h
  refine List.forall_mem_map.mpr fun part hpart => ?_
  obtain ⟨hlength, hnodup⟩ := hfits part hpart
  exact ⟨hlength, hnodup⟩

namespace Operation
variable {op : Operation (Gate α κ)}

theorem Obtained.length_eq (h : op.Obtained apart) : op.qubits.length = op.gate.arity := by
  induction h with
  | made h => exact (proper_of_make h).length
  | read h hop => exact (Circuit.proper_of_ofJsonText h _ hop).length
  | exported h hop => exact (Composite.proper_of_export h _ hop).length
  | decomposed h _ hop => exact Gate.length_of_decompose h _ hop
  | renamed _ f _ ih => exact (List.length_map f).trans ih

theorem Obtained.proper (h : op.Obtained apart) (ha : apart) : op.Proper := by
  induction h with
  | made h => exact proper_of_make h
  | read h hop => exact Circuit.proper_of_ofJsonText h _ hop
  | exported h hop => exact Composite.proper_of_export h _ hop
  | decomposed h hb hop => exact Gate.proper_of_decompose (hb ha) h _ hop
  | renamed _ f hf ih => exact proper_map_iff.mpr ⟨ih, hf ha⟩

end Operation

namespace Circuit
variable {c : Circuit (Gate α κ)}

theorem Obtained.obtained (h : c.Obtained apart) : ∀ op ∈ c.operations, op.Obtained apart := by
  induction h with
  | ofOperations h => exact h
  | push _ hop ih => exact List.forall_mem_append.mpr ⟨ih, List.forall_mem_singleton.mpr hop⟩
  | extend _ hops ih => exact List.forall_mem_append.mpr ⟨ih, hops⟩
  | map _ f hf ih =>
    exact forall_mem_map.mpr fun op hop => (ih op hop).renamed f fun ha => hf ha op hop

/-- All operations of a circuit are on as many qubits as their gates take. The qubits of an operation
are different if no renaming on the way merged any; one more renaming leaves them different exactly if
it merges none. -/
theorem Obtained.operands (h : c.Obtained apart) :
    (∀ op ∈ c.operations, op.qubits.length = op.gate.arity) ∧
    (apart → ∀ op ∈ c.operations, op.Proper) ∧
    ∀ f : Qubit → Qubit, (∀ op ∈ (c.map f).operations, op.Proper) ↔
      ∀ op ∈ c.operations, op.Proper ∧ Set.InjOn f {q | q ∈ op.qubits} := by
  refine ⟨fun op hop => (h.obtained op hop).length_eq,
    fun ha op hop => (h.obtained op hop).proper ha, fun f => ?_⟩
  rw [forall_mem_map]
  exact forall₂_congr fun op _ => Operation.proper_map_iff

end Circuit
end

/-- A controlled not whose qubits changed places. -/
def crossed : Circuit (Gate Float Complex) :=
  Circuit.map (Equiv.swap (.line 0) (.line 1)) ⟨[⟨.standard .cx, [.line 0, .line 1]⟩]⟩

/-- Its qubits are different, until they are renamed to one. -/
theorem Circuit.Obtained.operands_crossed : crossed.Obtained True ∧
    (∀ op ∈ crossed.operations, op.Proper) ∧
    ∃ op ∈ (crossed.map fun _ => .line 0).operations, ¬op.Proper := by
  have hmade : Operation.make (.standard .cx : Gate Float Complex) [.line 0, .line 1] =
      .ok ⟨.standard .cx, [.line 0, .line 1]⟩ :=
    Operation.make_eq_ok.mpr ⟨rfl, by decide, rfl⟩
  have hcrossed : crossed.Obtained True :=
    .map (.ofOperations (List.forall_mem_singleton.mpr (.made hmade))) _
      fun _ _ _ => (Equiv.injective _).injOn
  obtain ⟨-, hproper, hrenamed⟩ := hcrossed.operands
  refine ⟨hcrossed, hproper trivial, ?_⟩
  by_contra hall
  push Not at hall
  have hinj : Set.InjOn (fun _ => Qubit.line 0) {q | q ∈ [Qubit.line 1, .line 0]} :=
    ((hrenamed _).mp hall _ (List.mem_singleton_self _)).2
  have hfirst : Qubit.line 1 ∈ [Qubit.line 1, .line 0] := by decide
  have hsecond : Qubit.line 0 ∈ [Qubit.line 1, .line 0] := by decide
  cases hinj hfirst hsecond rfl

end BloqCircuit
