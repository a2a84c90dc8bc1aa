import BloqCircuit.Proofs.Reference
import BloqCircuit.Proofs.Walks
import BloqCircuit.Proofs.Naming
import BloqCircuit.Proofs.Nesting
import BloqCircuit.Proofs.Pools
/-! The tensor of a composite is what dense evaluation makes of the operations on any flow of
different qubits through it. -/
namespace BloqCircuit

/-! ## Matrices of gates -/

namespace Gate
variable {α κ : Type} [Angle α] [Amplitude κ] [Rotation α κ]

/-- The matrix that a gate has of its own, for gates that have one. -/
def ownMatrix (g : Gate α κ) : DenseMatrix κ := match g.unitary with
  | .ok (some m) => m
  | _ => .identity 0

theorem ownMatrix_eq {g : Gate α κ} {m : DenseMatrix κ} (h : g.unitary = .ok (some m)) :
    g.ownMatrix = m := by
  rw [ownMatrix, h]

/-- A gate with a matrix of its own, on all of its qubits. -/
def HasMatrix (g : Gate α κ) : Prop :=
  ∃ m : DenseMatrix κ, g.unitary = .ok (some m) ∧ m.rows = basisSize g.arity ∧
    m.cols = basisSize g.arity

theorem HasMatrix.ownMatrix {g : Gate α κ} (h : g.HasMatrix) :
    g.unitary = .ok (some g.ownMatrix) ∧ g.ownMatrix.rows = basisSize g.arity ∧
      g.ownMatrix.cols = basisSize g.arity := by
  obtain ⟨m, hm, hsize⟩ := h
  rw [ownMatrix_eq hm]
  exact ⟨hm, hsize⟩

end Gate

/-! ## Boundaries -/

/-- Ancillas are none of the qubits that are named after registers. -/
theorem Quregs.spares_named (registers : List Register) {n : Nat} (hn : n ≤ UInt32.size) :
    CleanPool.Spares {} (registers.flatMap fun r => r.namedArray.toList) n := by
  refine ⟨hn, fun q hq => ?_⟩
  obtain ⟨name, rfl⟩ := named_of_mem hq
  exact CleanPool.not_mem_fresh (by simp) _ _

theorem Bloq.nesting_composite {α κ : Type} (c : Composite (Bloq α κ)) :
    (Bloq.composite c).nesting = instancesNesting c.instances + 1 := by
  obtain ⟨s, is, ws⟩ := c
  rw [Bloq.nesting]

namespace Composite
variable {α κ : Type} [Angle α] [ExactAmplitude κ] [Rotation α κ] {c : Composite (Bloq α κ)}
  {L : Labels} {order : List Nat} {own : Gate α κ → DenseMatrix κ}

omit [Angle α] [ExactAmplitude κ] [Rotation α κ] in
/-- The operations of a composite are on gates that its instances emit. -/
theorem exists_emits {v : Nat} {op : Operation (Gate α κ)} (h : c.operationAt? L v = some op) :
    ∃ x ∈ c.instances, x.bloq.emits = some op.gate := by
  obtain ⟨b, hb, hop⟩ := Option.bind_eq_some_iff.mp h
  obtain ⟨g, hg, rfl⟩ := Option.map_eq_some_iff.mp hop
  obtain ⟨x, hx, rfl⟩ := exists_instance hb
  exact ⟨x, hx, hg⟩

omit [ExactAmplitude κ] [Rotation α κ] in
/-- Different qubits flow through a composite. -/
theorem Threaded.exists_distinct_flow (hc : c.Threaded)
    (hb : ∀ r ∈ c.signature.lefts, '[' ∉ r.name.toList) (hdemand : c.demand ≤ UInt32.size) :
    ∃ L, c.Flow L ∧ c.Distinct L (List.range c.size) := by
  obtain ⟨L, order, -, hflow, -, hs, hd, -⟩ := hc.exists_walk
    (Quregs.merge_named hc.valid.nodup_lefts) (Quregs.nodup_named hc.valid.nodup_lefts hb) .greedy
    (Quregs.spares_named _ hdemand)
  exact ⟨L, hflow, Distinct.perm hd hs.perm⟩

omit [ExactAmplitude κ] [Rotation α κ] in
/-- The qubits of a flow may be those of the named inputs and of the first ancillas. -/
theorem Flow.exists_named (h : c.Flow L) (hc : c.Threaded)
    (hb : ∀ r ∈ c.signature.lefts, '[' ∉ r.name.toList) (hdemand : c.demand ≤ UInt32.size)
    (hs : c.graph.Sorts order) (hd : c.Distinct L order) :
    ∃ r : Qubit → Qubit, Function.Injective r ∧ c.Distinct (L.map r) order ∧
      (Quregs.named c.signature.lefts).merge c.signature.lefts =
        .ok ((L.map r).on 0 c.signature.lefts) ∧
      (∀ s ∈ c.signature.lefts,
        s.arrayIn (Quregs.named c.signature.lefts) = .ok ((L.map r).array 0 s)) ∧
      order.flatMap (c.bornAt (L.map r)) = CleanPool.fresh 0 c.demand := by
  have hmerge := Quregs.merge_named hc.valid.nodup_lefts
  obtain ⟨l, hfits, harrays, hon⟩ := Labels.exists_of_merge 0 hmerge
  rw [← hon] at hmerge
  have hnamed : (l.on 0 c.signature.lefts).Nodup := by
    rw [hon]
    exact Quregs.nodup_named hc.valid.nodup_lefts hb
  have hspares : CleanPool.Spares {} (l.on 0 c.signature.lefts) c.demand :=
    hon ▸ Quregs.spares_named _ hdemand
  have hinputs : (L.on 0 c.signature.lefts).length = (l.on 0 c.signature.lefts).length := by
    rw [Labels.length_on h.inputs, Labels.length_on hfits]
  have hlen : (L.on 0 c.signature.lefts ++ order.flatMap (c.bornAt L)).length =
      (l.on 0 c.signature.lefts ++ CleanPool.fresh 0 c.demand).length := by
    rw [List.length_append, List.length_append, hinputs, h.length_born hc hs, CleanPool.length_fresh]
  have hfresh := hspares.nodup hnamed
  have hold : ([] ++ (L.on 0 c.signature.lefts ++ order.flatMap (c.bornAt L))).Nodup := hd
  obtain ⟨r, hr, -, hmap⟩ := exists_renaming hold hfresh hlen
  have hmap : (L.on 0 c.signature.lefts).map r ++ (order.flatMap (c.bornAt L)).map r =
      l.on 0 c.signature.lefts ++ CleanPool.fresh 0 c.demand := by
    rw [← List.map_append]
    exact hmap
  obtain ⟨hlefts, hborn⟩ := List.append_inj hmap (by rw [List.length_map, hinputs])
  rw [← Labels.on_map] at hlefts
  have hborn' : order.flatMap (c.bornAt (L.map r)) = CleanPool.fresh 0 c.demand := by
    rw [← hborn, List.map_flatMap]
    exact List.flatMap_congr fun v _ => bornAt_map r v
  refine ⟨r, hr, ?_, by rw [hmerge, hlefts], fun s hs => ?_, hborn'⟩
  · rw [Distinct, hlefts, hborn']
    exact hfresh
  · rw [harrays s hs, Labels.array_eq_of_on hfits (h.map r).inputs hlefts.symm hs]

omit [ExactAmplitude κ] [Rotation α κ] in
/-- A flow from the named inputs on which the first ancillas appear is what a composite is emitted on
by itself. -/
theorem Flow.exportNamed_eq (h : c.Flow L) (hc : c.Threaded) (hp : ∀ x ∈ c.instances, x.bloq.Plain)
    (hclassical : ∀ x ∈ c.instances, Export.classicalOutput? x.bloq.signature = none)
    (hmerge : (Quregs.named c.signature.lefts).merge c.signature.lefts =
      .ok (L.on 0 c.signature.lefts))
    (harrays : ∀ r ∈ c.signature.lefts,
      r.arrayIn (Quregs.named c.signature.lefts) = .ok (L.array 0 r))
    (ho : c.sortedNodes .greedy = .ok order) (hs : c.graph.Sorts order) (hd : c.Distinct L order)
    {n : Nat} (hborn : order.flatMap (c.bornAt L) = CleanPool.fresh 0 n) :
    c.exportNamed = .ok (L.on 0 c.signature.lefts, ⟨order.filterMap (c.operationAt? L)⟩,
      L.arrays (c.instances.length + 1) c.signature.rights) := by
  obtain ⟨t, hexport, -⟩ := h.exists_export hc hp hclassical harrays ho hs hd (p := {}) hborn
  rw [exportNamed, hmerge]
  exact bind_eq_ok.mpr ⟨_, rfl, bind_eq_ok.mpr ⟨_, congrArg Prod.fst hexport, rfl⟩⟩

/-- The tensor of a composite on qubits is evaluated from what it is emitted as by itself. -/
theorem tensor_of_exportNamed (hq : ∀ r ∈ c.signature.registers, r.dtype.isQuantum = true)
    {inputs outputs : List Qubit} {circuit : Circuit (Gate α κ)} {out : Quregs}
    (hexport : c.exportNamed = .ok (inputs, circuit, out))
    (hout : out.merge c.signature.rights = .ok outputs) :
    c.tensor = Dense.between
      ⟨Gate.unitaryWith (tensorWithin (instancesNesting c.instances)), Gate.decompose⟩
      circuit.operations inputs outputs := by
  have hquantum : c.signature.registers.find? (fun r => !r.dtype.isQuantum) = none :=
    List.find?_eq_none.mpr fun r hr => by simp [hq r hr]
  rw [tensor, Bloq.nesting_composite, tensorWithin, hquantum, hexport]
  simp only [bind, Except.bind, hout]

/-- The tensor of a composite can be read off any flow of different qubits, on any walk. -/
theorem Flow.tensor_eq (h : c.Flow L) (hc : c.Threaded) (hp : ∀ x ∈ c.instances, x.bloq.Plain)
    (hclassical : ∀ x ∈ c.instances, Export.classicalOutput? x.bloq.signature = none)
    (hq : ∀ r ∈ c.signature.registers, r.dtype.isQuantum = true)
    (hb : ∀ r ∈ c.signature.lefts, '[' ∉ r.name.toList) (hdemand : c.demand ≤ UInt32.size)
    (hs : c.graph.Sorts order) (hd : c.Distinct L order)
    (hdirect : ∀ op ∈ order.filterMap (c.operationAt? L), Dense.Direct Gate.meaning own op) :
    c.tensor = Dense.between Gate.meaning (order.filterMap (c.operationAt? L))
      (L.on 0 c.signature.lefts) (L.on (c.instances.length + 1) c.signature.rights) := by
  obtain ⟨order', ho, hs'⟩ := hc.exists_order .greedy
  have hperm := hs.perm.trans hs'.perm.symm
  have hd' : c.Distinct L order' := hd.perm hperm
  obtain ⟨r, hr, hrenamed, hmerge, harrays, hborn⟩ := h.exists_named hc hb hdemand hs' hd'
  have hexport := (h.map r).exportNamed_eq hc hp hclassical hmerge harrays ho hs' hrenamed hborn
  have hmerged := Labels.merge_arrays hc.valid.nodup_rights ((h.map r).fits_rights hc)
  have hoperations : order'.filterMap (c.operationAt? (L.map r)) =
      (order'.filterMap (c.operationAt? L)).map (Operation.map r) := by
    rw [List.map_filterMap]
    exact List.filterMap_congr fun v _ => operationAt?_map r v
  -- each gate has its own matrix also on the levels below the composite
  have hdirect' : ∀ op ∈ order'.filterMap (c.operationAt? L), Dense.Direct Gate.meaning own op :=
    fun op hop => hdirect op ((hperm.filterMap _).symm.subset hop)
  have hwithin : ∀ op ∈ (order'.filterMap (c.operationAt? L)).map (Operation.map r),
      op.gate.unitaryWith (tensorWithin (instancesNesting c.instances)) = .ok (some (own op.gate)) := by
    intro _ hmem
    obtain ⟨op, hop, rfl⟩ := List.mem_map.mp hmem
    obtain ⟨v, -, hv⟩ := List.mem_filterMap.mp hop
    obtain ⟨x, hx, hemits⟩ := exists_emits hv
    have hnesting : op.gate.nesting ≤ instancesNesting c.instances := by
      rw [Bloq.nesting_of_emits hemits]
      exact nesting_le_of_mem hx
    exact Gate.unitaryWith_of_unitary (hdirect' op hop).matrix hnesting
  have hmatrix : ∀ op ∈ (order'.filterMap (c.operationAt? L)).map (Operation.map r),
      Gate.meaning.unitary op.gate = .ok (some (own op.gate)) := by
    intro _ hmem
    obtain ⟨op, hop, rfl⟩ := List.mem_map.mp hmem
    exact (hdirect' op hop).matrix
  have hinputs : (L.on 0 c.signature.lefts).Nodup := List.Nodup.of_append_left hd
  have houtputs : (L.on (c.instances.length + 1) c.signature.rights).Nodup :=
    (h.nodup_through hc hs hd).of_append_right
  calc c.tensor
    _ = Dense.between ⟨Gate.unitaryWith (tensorWithin (instancesNesting c.instances)), Gate.decompose⟩
          (order'.filterMap (c.operationAt? (L.map r))) ((L.map r).on 0 c.signature.lefts)
          ((L.map r).on (c.instances.length + 1) c.signature.rights) :=
      tensor_of_exportNamed hq hexport hmerged
    _ = Dense.between Gate.meaning ((order'.filterMap (c.operationAt? L)).map (Operation.map r))
          ((L.on 0 c.signature.lefts).map r)
          ((L.on (c.instances.length + 1) c.signature.rights).map r) := by
      rw [hoperations, Labels.on_map, Labels.on_map, Dense.between_of_own hwithin,
        Dense.between_of_own hmatrix]
    _ = Dense.between Gate.meaning (order'.filterMap (c.operationAt? L)) (L.on 0 c.signature.lefts)
          (L.on (c.instances.length + 1) c.signature.rights) :=
      Dense.between_map (fun op hop => (hdirect' op hop).matrix) fun _ _ _ _ heq => hr heq
    _ = _ := ((h.commuted hc hp hs hs' hd).between hdirect hinputs houtputs).symm

end Composite
end BloqCircuit
