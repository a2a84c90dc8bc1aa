import BloqCircuit.Proofs.StandardGates
import BloqCircuit.Proofs.Tensors
import BloqCircuit.Proofs.BackwardFlows
/-! The adjoint of a composite has the conjugate transpose of its matrix. -/
namespace BloqCircuit

namespace Dense
variable {γ κ : Type} [GateKind γ] [ExactAmplitude κ] {meaning : GateMeaning γ κ}
  {own : γ → DenseMatrix κ} {ops ops' : List (Operation γ)} {inputs outputs : List Qubit}

/-- Conjugate transposes on the same qubits, from the last operation to the first, have the conjugate
transpose of the matrix. -/
theorem between_adjoint (h : ∀ op ∈ ops, Direct meaning own op)
    (h' : ∀ op ∈ ops', Direct meaning own op)
    (hleaves : ops'.map (leafBy own) = (ops.map (leafBy own)).reverse.map Leaf.adjoint)
    (hi : inputs.Nodup) (ho : outputs.Nodup) :
    between meaning ops' outputs inputs = (between meaning ops inputs outputs).map .adjoint := by
  have hqubits : ops'.flatMap (·.qubits) = ops.reverse.flatMap (·.qubits) := by
    have h := congrArg (List.flatMap Leaf.qubits) hleaves
    rw [← List.map_reverse, List.map_map, List.flatMap_map, List.flatMap_map] at h
    exact h
  have hwidth : (outputs ++ inputs ++ ops'.flatMap (·.qubits)).toFinset =
      (inputs ++ outputs ++ ops.flatMap (·.qubits)).toFinset := by
    rw [hqubits]
    exact List.toFinset_eq_of_perm _ _
      (List.perm_append_comm.append (ops.reverse_perm.flatMap_right (·.qubits)))
  rw [between_direct h hi ho, between_direct h' ho hi, hwidth]
  simp only
  split
  · rfl
  · refine congrArg Except.ok (DenseMatrix.ofFn_congr fun r hr c hc => ?_)
    have hfits : ∀ l ∈ ops.map (leafBy own), l.Fits := by
      intro l hl
      obtain ⟨op, hop, rfl⟩ := List.mem_map.mp hl
      exact (h op hop).fits
    rw [hleaves, amplitude_adjoint hfits]
    exact congrArg Amplitude.conj (DenseMatrix.get_ofFn _ hc hr).symm

end Dense

/-! ## Gates -/

variable {α κ : Type} [Angle α] [ExactAmplitude κ] [Rotation α κ]

namespace Gate

/-- A gate with a matrix that has an inverse with the conjugate transpose, or else neither an inverse
nor a decomposition. -/
def Reversible (g : Gate α κ) : Prop :=
  ∃ m : DenseMatrix κ, g.unitary = .ok (some m) ∧ m.rows = basisSize g.arity ∧
    m.cols = basisSize g.arity ∧
    ((∃ h : Gate α κ, g.inverse = .ok (some h) ∧ h.arity = g.arity ∧
        h.unitary = .ok (some m.adjoint)) ∨
      (∀ h, g.inverse ≠ .ok (some h)) ∧
        ∀ qubits, qubits.length = g.arity → ((g.decompose qubits).run {}).1 = .ok none)

theorem Reversible.hasMatrix {g : Gate α κ} (h : g.Reversible) : g.HasMatrix := by
  obtain ⟨m, hm, hrows, hcols, -⟩ := h
  exact ⟨m, hm, hrows, hcols⟩

omit [ExactAmplitude κ] [Rotation α κ] in
/-- A gate without a decomposition does not decompose as a bloq. -/
private theorem decomposition_ofGate {g : Gate α κ}
    (h : ∀ qubits, qubits.length = g.arity → ((g.decompose qubits).run {}).1 = .ok none) :
    (Bloq.ofGate g).decomposition = .error (.decomposeNotImplemented g.text) := by
  have hnames : ([gateRegister g.arity].map (·.name)).Nodup := List.nodup_singleton _
  have hlength : ([gateRegister g.arity].flatMap fun r => r.namedArray.toList).length = g.arity := by
    have hshape : (gateRegister g.arity).namedArray.shape = (gateRegister g.arity).qubitShape := rfl
    rw [List.flatMap_singleton, ← Register.flat_lane hshape,
      Register.length_flat (Register.fits_lane hshape), totalBits_gateRegister]
  rw [Bloq.decomposition]
  simp only [Quregs.merge_named hnames, bind, Except.bind, h _ hlength]
  rfl

/-- The gate in the place of a reversible one has the conjugate transpose. -/
theorem Reversible.turned {g : Gate α κ} (h : g.Reversible) : g.turned.arity = g.arity ∧
    g.unitary = .ok (some g.ownMatrix) ∧ g.ownMatrix.rows = basisSize g.arity ∧
    g.ownMatrix.cols = basisSize g.arity ∧ g.turned.unitary = .ok (some g.ownMatrix.adjoint) := by
  obtain ⟨m, hm, hrows, hcols, h⟩ := h
  rw [ownMatrix_eq hm]
  rcases h with ⟨h, hi, harity, hunitary⟩ | ⟨hi, hdecompose⟩
  · have hturned : g.turned = h := by rw [Gate.turned, hi]
    rw [hturned]
    exact ⟨harity, hm, hrows, hcols, hunitary⟩
  · have hturned : g.turned = .ofBloq (.adjoint (.ofGate g)) := by
      rw [Gate.turned]
      split
      · next h hh => exact absurd hh (hi h)
      · rfl
    have hsignature : (Bloq.adjoint (.ofGate g)).signature = ⟨[gateRegister g.arity]⟩ := by
      rw [Bloq.signature, Bloq.signature_ofGate]
      rfl
    have htotal : (Bloq.adjoint (.ofGate g)).signature.totalBits = g.arity := by
      rw [hsignature, Signature.totalBits_eq]
      exact totalBits_gateRegister g.arity
    have hthru : (Bloq.adjoint (.ofGate g)).signature.allThru = true := by
      rw [hsignature]
      rfl
    have hnone : (Bloq.adjoint (.ofGate g)).decomposition =
        .error (.decomposeNotImplemented g.text) := by
      rw [Bloq.decomposition, decomposition_ofGate hdecompose]
      rfl
    have htensor : (Bloq.adjoint (.ofGate g)).tensorWith Composite.tensor = .ok (some m.adjoint) := by
      rw [Bloq.tensorWith, Bloq.tensorWith, show g.unitaryWith Composite.tensor = _ from hm]
      rfl
    rw [hturned]
    refine ⟨by rw [Gate.arity, htotal], hm, hrows, hcols, ?_⟩
    rw [Gate.unitary, Gate.unitaryWith, hthru, hnone]
    have hunavailable : (Error.decomposeNotImplemented g.text).isDecomposeUnavailable = true := rfl
    simp only [hunavailable, Bool.not_true, Bool.false_eq_true, if_false]
    rw [htensor]
    refine congrArg (Except.map some) (?_ : checkTensor _ m.adjoint = .ok m.adjoint)
    rw [checkTensor, htotal]
    exact if_pos ⟨hcols, hrows⟩

/-- So has the operation in the place of one on a reversible gate. -/
theorem Reversible.direct_turned {op : Operation (Gate α κ)} (h : op.gate.Reversible)
    (hlength : op.qubits.length = op.gate.arity) (hn : op.qubits.Nodup) :
    Dense.Direct Gate.meaning Gate.ownMatrix op.turned ∧
      op.turned.gate.ownMatrix = op.gate.ownMatrix.adjoint := by
  obtain ⟨-, -, hrows, hcols, hturned⟩ := h.turned
  have hmatrix : op.turned.gate.ownMatrix = op.gate.ownMatrix.adjoint := ownMatrix_eq hturned
  rw [← hlength] at hrows hcols
  refine ⟨⟨?_, ?_, ?_, hn⟩, hmatrix⟩
  · exact hturned.trans (congrArg (fun m => Except.ok (some m)) hmatrix.symm)
  · exact (congrArg DenseMatrix.rows hmatrix).trans hcols
  · exact (congrArg DenseMatrix.cols hmatrix).trans hrows

/-- A standard gate with a matrix is reversible. -/
theorem Reversible.standard {g : StandardGate ℝ} {m : DenseMatrix ℂ} (h : g.matrix? = some m) :
    (Gate.standard g : Gate ℝ ℂ).Reversible := by
  obtain ⟨k, hinverse, harity, hmatrix⟩ := StandardGate.matrix_inverse h
  obtain ⟨hrows, hcols⟩ := StandardGate.matrix_size h
  refine ⟨m, congrArg Except.ok h, hrows, hcols,
    .inl ⟨.standard k, ?_, harity, congrArg Except.ok hmatrix⟩⟩
  rw [Gate.inverse, hinverse]
  rfl

end Gate

/-! ## Composites -/

namespace Composite
variable {c : Composite (Bloq α κ)} {L : Labels}

omit [ExactAmplitude κ] [Rotation α κ] in
/-- The operations of a composite of basic bloqs are on gates of these bloqs, each on as many qubits as
it takes, no two the same. -/
theorem Flow.operation_of_basic {P : Gate α κ → Prop} (h : c.Flow L) (hc : c.Threaded)
    (hb : ∀ x ∈ c.instances, x.bloq.Basic P) {order : List Nat} (hs : c.graph.Sorts order)
    (hd : c.Distinct L order) {op : Operation (Gate α κ)}
    (hop : op ∈ order.filterMap (c.operationAt? L)) :
    P op.gate ∧ op.qubits.length = op.gate.arity ∧ op.qubits.Nodup := by
  obtain ⟨v, hv, hop⟩ := List.mem_filterMap.mp hop
  obtain ⟨b, hbv, hop⟩ := Option.bind_eq_some_iff.mp hop
  obtain ⟨g, hg, rfl⟩ := Option.map_eq_some_iff.mp hop
  obtain ⟨x, hx, rfl⟩ := exists_instance hbv
  obtain ⟨hgate, hproperty⟩ := (hb x hx).of_emits hg
  have hmoves := ((hb x hx).plain.of_emits hg).1
  obtain ⟨front, rest, rfl⟩ := List.append_of_mem hv
  have hfront : c.Front (front ++ v :: rest) := hs.next
  rw [← List.singleton_append, ← List.append_assoc] at hfront
  refine ⟨hproperty, ?_, h.nodup_registers hc hfront.of_append hd hbv hmoves⟩
  rw [Labels.length_on (h.node v _ hbv).fits, hgate, Bloq.signature_ofGate, List.map_singleton,
    List.sum_singleton, totalBits_gateRegister]

/-- The operations of gates with matrices on different qubits have matrices. -/
theorem Flow.direct (h : c.Flow L) (hc : c.Threaded)
    (hb : ∀ x ∈ c.instances, x.bloq.Basic Gate.HasMatrix) {order : List Nat}
    (hs : c.graph.Sorts order) (hd : c.Distinct L order) {op : Operation (Gate α κ)}
    (hop : op ∈ order.filterMap (c.operationAt? L)) : Dense.Direct Gate.meaning Gate.ownMatrix op := by
  obtain ⟨hmatrix, hlength, hnodup⟩ := h.operation_of_basic hc hb hs hd hop
  obtain ⟨hunitary, hrows, hcols⟩ := hmatrix.ownMatrix
  rw [← hlength] at hrows hcols
  exact ⟨hunitary, hrows, hcols, hnodup⟩

section
variable (hb : ∀ x ∈ c.instances, x.bloq.Basic Gate.Reversible)
include hb

/-- So have those in the places of operations of reversible gates. -/
theorem Flow.direct_turned (h : c.Flow L) (hc : c.Threaded) (hd : c.Distinct L (List.range c.size))
    {op : Operation (Gate α κ)} (hop : op ∈ (List.range c.size).filterMap (c.operationAt? L)) :
    Dense.Direct Gate.meaning Gate.ownMatrix op.turned ∧
      op.turned.gate.ownMatrix = op.gate.ownMatrix.adjoint := by
  obtain ⟨hreversible, hlength, hnodup⟩ := h.operation_of_basic hc hb hc.sorts_range hd hop
  exact hreversible.direct_turned hlength hnodup

omit [ExactAmplitude κ] [Rotation α κ] hb in
/-- What is freed came in or was allocated. -/
theorem Flow.demand_backwards_le (h : c.Flow L) (hc : c.Threaded)
    (hm : ∀ x ∈ c.instances, x.bloq.Mirrors x.bloq.adjointOf) :
    (c.backwards Bloq.adjointOf).demand ≤ c.signature.leftBits + c.demand := by
  have hback := hc.backwards fun x hx => (hm x hx).toExchanges
  have hgone := (h.through_perm hc).length_eq
  rw [List.length_append, List.length_append, Labels.length_on h.inputs,
    h.length_born hc hc.sorts_range] at hgone
  rw [← (h.backwards hm hc).length_born hback hback.sorts_range, born_backwards hm L,
    ((List.reverse_perm _).flatMap_right (c.goneAt L)).length_eq, Signature.leftBits,
    Signature.sumBits_eq]
  omega

omit [ExactAmplitude κ] [Rotation α κ] hb in
/-- Qubits that are different on the way there are different on the way back. -/
theorem Flow.distinct_backwards (h : c.Flow L) (hc : c.Threaded)
    (hm : ∀ x ∈ c.instances, x.bloq.Mirrors x.bloq.adjointOf)
    (hd : c.Distinct L (List.range c.size)) :
    (c.backwards Bloq.adjointOf).Distinct (L.turned (c.instances.length + 1))
      (List.range (c.backwards Bloq.adjointOf).size) := by
  have hinputs := Labels.on_turned (Nat.le_refl (c.instances.length + 1)) L c.signature.rights
  rw [Nat.sub_self, ← Signature.lefts_adjoint] at hinputs
  rw [Distinct, born_backwards hm L]
  refine (List.Perm.nodup_iff ?_).mpr (h.nodup_through hc hc.sorts_range hd)
  show ((L.turned _).on 0 c.signature.adjoint.lefts ++ _).Perm _
  rw [hinputs]
  exact List.perm_append_comm.trans
    (((List.reverse_perm _).flatMap_right (c.goneAt L)).append_right _)

/-- Read backwards, the operations of reversible gates have matrices. -/
theorem Flow.direct_backwards (h : c.Flow L) (hc : c.Threaded)
    (hm : ∀ x ∈ c.instances, x.bloq.Mirrors x.bloq.adjointOf) (hd : c.Distinct L (List.range c.size)) :
    ∀ op ∈ (List.range (c.backwards Bloq.adjointOf).size).filterMap
      ((c.backwards Bloq.adjointOf).operationAt? (L.turned (c.instances.length + 1))),
      Dense.Direct Gate.meaning Gate.ownMatrix op := by
  intro _ hmem
  rw [operations_backwards hm L, List.mem_reverse] at hmem
  obtain ⟨op, hop, rfl⟩ := List.mem_map.mp hmem
  exact (h.direct_turned hb hc hd hop).1

/-- These are the conjugate transposes, from the last operation to the first. -/
theorem Flow.leaves_backwards (h : c.Flow L) (hc : c.Threaded)
    (hm : ∀ x ∈ c.instances, x.bloq.Mirrors x.bloq.adjointOf) (hd : c.Distinct L (List.range c.size)) :
    ((List.range (c.backwards Bloq.adjointOf).size).filterMap
        ((c.backwards Bloq.adjointOf).operationAt? (L.turned (c.instances.length + 1)))).map
          (Dense.leafBy Gate.ownMatrix) =
      (((List.range c.size).filterMap (c.operationAt? L)).map
        (Dense.leafBy Gate.ownMatrix)).reverse.map Dense.Leaf.adjoint := by
  rw [operations_backwards hm L, List.map_reverse, List.map_reverse, List.map_map, List.map_map]
  apply congrArg List.reverse
  apply List.map_congr_left
  intro op hop
  exact congrArg (fun m => (⟨m, op.qubits⟩ : Dense.Leaf κ)) (h.direct_turned hb hc hd hop).2

/-- The adjoint of a linear composite of bookkeeping bloqs and reversible gates has the conjugate
transpose of its matrix, and is refused when the composite is. -/
theorem Linear.tensor_adjoint (hc : c.Linear)
    (hx : ∀ x ∈ c.instances, ∀ r ∈ x.bloq.signature.registers, r.dtype.isQuantum = true)
    (hq : ∀ r ∈ c.signature.registers, r.dtype.isQuantum = true)
    (hn : ∀ r ∈ c.signature.registers, '[' ∉ r.name.toList)
    (hsize : c.signature.leftBits + c.demand ≤ UInt32.size) :
    ∃ c', c.adjoint = .ok c' ∧ c'.tensor = c.tensor.map DenseMatrix.adjoint := by
  have hm : ∀ x ∈ c.instances, x.bloq.Mirrors x.bloq.adjointOf := fun x hx =>
    (hb x hx).mirrors fun g hg => hg.turned.1
  have hexchange : ∀ x ∈ c.instances, Exchanges x.bloq x.bloq.adjointOf := fun x hx =>
    (hm x hx).toExchanges
  have hback := hc.threaded.backwards hexchange
  have hlefts : ∀ r ∈ c.signature.lefts, '[' ∉ r.name.toList := by
    intro r hr
    exact hn r (Signature.mem_lefts.mp hr).1
  have hdemand := Nat.le_trans (Nat.le_add_left _ _) hsize
  obtain ⟨L, hflow, hd⟩ := hc.threaded.exists_distinct_flow hlefts hdemand
  have hdirect : ∀ op ∈ (List.range c.size).filterMap (c.operationAt? L),
      Dense.Direct Gate.meaning Gate.ownMatrix op := by
    intro op hop
    have hmatrix := fun x hx => (hb x hx).mono fun _ hg => Gate.Reversible.hasMatrix hg
    exact hflow.direct hc.threaded hmatrix hc.sorts_range hd hop
  have hdirect' := hflow.direct_backwards hb hc hm hd
  -- the same qubits flow through the composite and back through the adjoint
  have htensor := hflow.tensor_eq hc (fun x h => (hb x h).plain)
    (fun x h => Export.classicalOutput?_eq_none (hx x h)) hq hlefts hdemand hc.sorts_range hd hdirect
  have htensor' := (hflow.backwards hm hc).tensor_eq hback (fun x h => ?_) (fun x h => ?_)
    (fun r hr => ?_) (fun r hr => ?_) (Nat.le_trans (hflow.demand_backwards_le hc hm) hsize)
    hback.sorts_range (hflow.distinct_backwards hc hm hd) hdirect'
  · have hinputs := Labels.on_turned (Nat.le_refl (c.instances.length + 1)) L c.signature.rights
    have houtputs := Labels.on_turned (Nat.zero_le (c.instances.length + 1)) L c.signature.lefts
    rw [Nat.sub_self, ← Signature.lefts_adjoint] at hinputs
    rw [Nat.sub_zero, ← Signature.rights_adjoint] at houtputs
    refine ⟨_, hc.adjoint_eq hexchange, ?_⟩
    rw [htensor', htensor, length_backwards]
    show Dense.between _ _ ((L.turned _).on 0 c.signature.adjoint.lefts)
      ((L.turned _).on _ c.signature.adjoint.rights) = _
    rw [hinputs, houtputs]
    exact Dense.between_adjoint hdirect hdirect' (hflow.leaves_backwards hb hc hm hd)
      (List.Nodup.of_append_left hd) (hflow.nodup_through hc hc.sorts_range hd).of_append_right
  · obtain ⟨y, hy, rfl⟩ := List.mem_map.mp h
    exact (hm y (List.mem_reverse.mp hy)).plain
  · -- outputs in the adjoint are inputs of the bloq
    obtain ⟨y, hy, rfl⟩ := List.mem_map.mp h
    have hy := List.mem_reverse.mp hy
    have hrights : y.bloq.adjointOf.signature.rights = _ := (hm y hy).rights
    refine List.find?_eq_none.mpr ?_
    intro r hr hclassical
    have hr : r ∈ y.bloq.adjointOf.signature.rights := hr
    rw [hrights] at hr
    obtain ⟨s, hs, rfl⟩ := List.mem_map.mp hr
    have hquantum : s.adjoint.dtype.isQuantum = true := hx y hy s (Signature.mem_lefts.mp hs).1
    rw [hquantum, Bool.not_true, Bool.and_false] at hclassical
    cases hclassical
  · obtain ⟨s, hs, rfl⟩ := List.mem_map.mp (show r ∈ c.signature.adjoint.registers from hr)
    exact hq s hs
  · have hr := (Signature.mem_lefts.mp hr).1
    obtain ⟨s, hs, rfl⟩ := List.mem_map.mp (show r ∈ c.signature.adjoint.registers from hr)
    exact hn s hs

end

end Composite

/-- The adjoint of a composite that a builder gives has the conjugate transpose of its matrix if the
composite is on qubits throughout and consists of bookkeeping bloqs and reversible gates. Either of
the matrices is refused when the other one is. Ancillas have numbers of 32 bits, which suffice if no
more qubits than that come in or are allocated. -/
theorem Builder.Reached.adjoint_tensor {b b' : Builder (Bloq α κ)} {final : Soquets (Bloq α κ)}
    {c : Composite (Bloq α κ)} (hb : b.Reached) (hc : Gives (Builder.finalize final) b c b')
    (hx : ∀ x ∈ c.instances, x.bloq.Basic Gate.Reversible ∧
      ∀ r ∈ x.bloq.signature.registers, r.dtype.isQuantum = true)
    (hr : ∀ r ∈ c.signature.registers, r.dtype.isQuantum = true ∧ '[' ∉ r.name.toList)
    (hsize : c.signature.leftBits + c.demand ≤ UInt32.size) :
    ∃ c', c.adjoint = .ok c' ∧ c'.tensor = c.tensor.map DenseMatrix.adjoint :=
  (hb.linear hc).tensor_adjoint (fun x h => (hx x h).1) (fun x h => (hx x h).2)
    (fun r h => (hr r h).1) (fun r h => (hr r h).2) hsize

private def turnOrAncilla : Bloq ℝ ℂ → Bool
  | .ofGate (.standard .s) => true
  | .allocate t => t == .qbit
  | _ => false

/-- A quarter turn about an axis, beside an ancilla that comes out. -/
theorem Builder.Reached.adjoint_tensor_turn :
    ∃ (b b' : Builder (Bloq ℝ ℂ)) (final : Soquets (Bloq ℝ ℂ)) (c : Composite (Bloq ℝ ℂ)),
      b.Reached ∧ Gives (Builder.finalize final) b c b' ∧
      c.signature = ⟨[⟨"q", .qbit, [], .thru⟩, ⟨"out", .qbit, [], .right⟩]⟩ ∧
      (∀ x ∈ c.instances, x.bloq = .ofGate (.standard .s) ∨ x.bloq = .allocate .qbit) ∧
      c.instances.length = 2 ∧
      ∃ c', c.adjoint = .ok c' ∧ c'.tensor = c.tensor.map DenseMatrix.adjoint := by
  let q : Register := ⟨"q", .qbit, [], .thru⟩
  let turn : Bloq ℝ ℂ := .ofGate (.standard .s)
  let m : BuildM (Bloq ℝ ℂ) (Soquets (Bloq ℝ ℂ)) := do
    let inputs ← Builder.start ⟨[q]⟩ true
    let outputs ← Builder.add turn inputs
    let a ← Builder.allocate .qbit
    return outputs.insert "out" (.scalar a)
  -- all but the last call is run
  have hrun : Builder.closesWith m (fun b => decide (
      b.registers = [q, ⟨"out", .qbit, [], .right⟩] ∧ b.instances.toList.length = 2 ∧
      (b.instances.toList.map fun x => (x.bloq.born.map (·.totalBits)).sum).sum = 1 ∧
      b.instances.toList.all (fun x => turnOrAncilla x.bloq) = true)) = true := by decide +kernel
  obtain ⟨final, b, b', hm, hclose, hempty, hp⟩ := Builder.exists_of_closesWith hrun
  obtain ⟨hregisters, hlength, hdemand, hbloqs⟩ := of_decide_eq_true hp
  obtain ⟨inputs, b₁, hstart, hm⟩ := gives_bind.mp hm
  obtain ⟨outputs, b₂, hadd, hm⟩ := gives_bind.mp hm
  obtain ⟨a, b₃, ha, hm⟩ := gives_bind.mp hm
  obtain ⟨rfl, rfl⟩ := gives_pure.mp hm
  have hreached : b₃.Reached := .call (.call (.start hstart) (.add (Bloq.valid_ofGate _) hadd)) (.allocate ha)
  obtain ⟨c, hfinal, hsignature, hinstances⟩ := hreached.sound.finalize_gives_of_consume
    (by rw [hregisters]; rfl) hclose hempty
  rw [hregisters] at hsignature
  rw [← hinstances] at hlength hdemand hbloqs
  have hkind : ∀ x ∈ c.instances, x.bloq = .ofGate (.standard .s) ∨ x.bloq = .allocate .qbit := by
    intro x hx
    have hx := List.all_eq_true.mp hbloqs x hx
    rw [turnOrAncilla.eq_def] at hx
    split at hx
    · next h => exact .inl h
    · next t h => exact .inr (h.trans (congrArg _ (eq_of_beq hx)))
    · cases hx
  have hreversible : (Gate.standard .s : Gate ℝ ℂ).Reversible := .standard rfl
  have hsize : c.signature.leftBits + c.demand ≤ UInt32.size := by
    rw [hsignature, Composite.demand, hdemand]
    decide
  refine ⟨b₃, b', _, c, hreached, hfinal, hsignature, hkind, hlength,
    hreached.adjoint_tensor hfinal (fun x hx => ?_) (fun r hr => ?_) hsize⟩
  · rcases hkind x hx with h | h <;> rw [h]
    · refine ⟨.gate hreversible, fun r hr => ?_⟩
      rw [Bloq.signature_ofGate, List.mem_singleton] at hr
      rw [hr]
      rfl
    · refine ⟨.allocate _, fun r hr => ?_⟩
      rw [Bloq.signature_allocate, List.mem_singleton] at hr
      rw [hr]
      rfl
  · rw [hsignature] at hr
    simp only [List.mem_cons, List.not_mem_nil, or_false] at hr
    rcases hr with rfl | rfl
    · exact ⟨rfl, by decide⟩
    · exact ⟨rfl, by decide⟩

end BloqCircuit
