import BloqCircuit.Proofs.ExactScalars
import BloqCircuit.Proofs.RoundTrip.Circuits
import BloqCircuit.Proofs.Tensors
/-! A composite that is imported from a circuit has the matrix of the circuit. -/
namespace BloqCircuit

section
variable {α κ : Type}

/-- A gate that is no bloq, or whose bloq has no circuit form of its own and carries only qubits. -/
def Gate.Importable : Gate α κ → Prop
  | .ofBloq b => b.native? = none ∧ b.signature.Valid ∧ ∀ r ∈ b.signature.registers, r.Quantum
  | _ => True

/-- A bloq that has a matrix as a gate passes all of its qubits through. -/
theorem Gate.Importable.steady [Angle α] [Amplitude κ] [Rotation α κ] {g : Gate α κ}
    (h : g.Importable) {m : DenseMatrix κ} (hm : g.unitary = .ok (some m)) : g.Steady := by
  cases g with
  | ofBloq b =>
    obtain ⟨hnative, hvalid, hquantum⟩ := h
    have hthru : b.signature.allThru = true := by
      by_contra hnot
      rw [Gate.unitary, Gate.unitaryWith, if_pos (by simpa using hnot)] at hm
      cases hm
    have hside : ∀ r ∈ b.signature.registers, r.side = .thru := fun r hr =>
      eq_of_beq (List.all_eq_true.mp hthru r hr)
    exact ⟨hnative, hvalid, fun r hr => ⟨hside r hr, hquantum r hr⟩⟩
  | standard | declared | nest => trivial

end

variable {α κ : Type} [Angle α] [ExactAmplitude κ] [Rotation α κ]

/-- The tensor of a composite on which operations run is the matrix of these operations between its
boundaries. -/
theorem Composite.Realizes.tensor_eq {c : Composite (Bloq α κ)} {s : Signature} {L : Labels}
    {ops : List (Operation (Gate α κ))} {own : Gate α κ → DenseMatrix κ} (h : c.Realizes s L ops)
    (hq : ∀ r ∈ s.registers, r.Quantum) (hb : ∀ r ∈ s.lefts, '[' ∉ r.name.toList)
    (hdemand : c.demand ≤ UInt32.size) (hops : ∀ op ∈ ops, Dense.Direct Gate.meaning own op) :
    c.tensor = Dense.between Gate.meaning ops (L.on 0 s.lefts)
      (L.on (c.instances.length + 1) s.rights) := by
  obtain ⟨hlinear, rfl, hregular, hflow, rfl, hdistinct⟩ := h
  exact hflow.tensor_eq hlinear (fun x hx => (hregular x hx).plain)
    (fun x hx => (hregular x hx).classicalOutput?)
    (fun r hr => (hq r hr).1) hb hdemand hlinear.sorts_range hdistinct hops

namespace Circuit
variable {c : Circuit (Gate α κ)} {own : Gate α κ → DenseMatrix κ}

/-- Import between any two boundaries keeps the matrix. -/
theorem importBetween_tensor
    (hops : ∀ op ∈ c.operations, op.gate.Importable ∧ Operation.make op.gate op.qubits = .ok op ∧
      Dense.Direct Gate.meaning own op)
    {s : Signature} (hv : s.Valid) (hq : ∀ r ∈ s.registers, r.Quantum)
    (hb : ∀ r ∈ s.registers, '[' ∉ r.name.toList) {inputs outputs : Quregs}
    {ins outs : List Qubit} (hin : inputs.merge s.lefts = .ok ins) (hi : ins.Nodup)
    (hout : outputs.merge s.rights = .ok outs) (ho : outs.Nodup)
    (hfresh : ((outs ++ c.operations.flatMap (·.qubits)).toFinset \ ins.toFinset).card ≤
      UInt32.size) :
    ∃ g : Composite (Bloq α κ), c.importBetween s inputs outputs = .ok g ∧
      g.tensor = c.unitaryBetween ins outs := by
  obtain ⟨l, hl, harrays, rfl⟩ := Labels.exists_of_merge 0 hin
  obtain ⟨f, hf, harrays', rfl⟩ := Labels.exists_of_merge 0 hout
  have hpassing : ∀ op ∈ c.operations, op.gate.Passing ∧ Operation.make op.gate op.qubits = .ok op :=
    fun op hop => ⟨((hops op hop).1.steady (hops op hop).2.2.matrix).passing, (hops op hop).2.1⟩
  obtain ⟨g, L, himport, hrealizes, hinput, houtput, hwithin⟩ := importBetween_realizes hv hq hl
    harrays hi hf harrays' ho (lively_of_passing hpassing _ _)
  have hlefts : L.on 0 s.lefts = l.on 0 s.lefts :=
    Labels.on_congr fun p hp => hinput p (mem_portsOn.mp hp).1
  have hrights : L.on (g.instances.length + 1) s.rights = f.on 0 s.rights := by
    rw [Labels.on_eq_flatMap, Labels.on_eq_flatMap (L := f)]
    refine List.flatMap_congr fun r _ => ?_
    rw [Labels.on_singleton, Labels.on_singleton]
    exact congrArg r.flat (funext fun i => houtput r i)
  -- what is allocated is on the operations or on the outputs, but not on the inputs
  have hdemand : g.demand ≤ UInt32.size := by
    have hdistinct := hrealizes.distinct
    rw [Composite.Distinct, hrealizes.signature, hlefts] at hdistinct
    obtain ⟨-, hborn, hapart⟩ := List.nodup_append.mp hdistinct
    rw [← hrealizes.flow.length_born hrealizes.linear hrealizes.linear.sorts_range,
      ← List.toFinset_card_of_nodup hborn]
    refine Nat.le_trans (Finset.card_le_card fun q hq => ?_) hfresh
    rw [List.mem_toFinset] at hq
    have hnot : q ∉ l.on 0 s.lefts := fun hm => hapart q hm q hq rfl
    rw [Finset.mem_sdiff, List.mem_toFinset, List.mem_toFinset]
    refine ⟨List.mem_append.mpr ?_, hnot⟩
    rcases hwithin q (List.mem_append_right _ hq) with hq | hq | hq
    · exact absurd hq hnot
    · exact .inr hq
    · exact .inl hq
  refine ⟨g, himport, ?_⟩
  rw [hrealizes.tensor_eq hq (fun r hr => hb r (Signature.mem_lefts.mp hr).1) hdemand
    (fun op hop => (hops op hop).2.2), hlefts, hrights]
  rfl

/-- Import keeps the matrix of a circuit whose gates have matrices, whatever the boundaries have in
common with each other and with the circuit; what one side refuses as too many qubits, the other
does. Without a signature the matrix is that on all qubits of the circuit. Ancillas have numbers of
32 bits, which suffice if no more qubits than that are met without coming in. -/
theorem importAs_tensor
    (hops : ∀ op ∈ c.operations, op.gate.Importable ∧ Operation.make op.gate op.qubits = .ok op ∧
      Dense.Direct Gate.meaning own op) (name : String) :
    (∀ (s : Signature) (inputs outputs : Quregs) (ins outs : List Qubit), s.Valid →
      (∀ r ∈ s.registers, r.Quantum ∧ '[' ∉ r.name.toList) →
      inputs.merge s.lefts = .ok ins → ins.Nodup → outputs.merge s.rights = .ok outs → outs.Nodup →
      ((outs ++ c.operations.flatMap (·.qubits)).toFinset \ ins.toFinset).card ≤ UInt32.size →
      ∃ g : Composite (Bloq α κ), c.importAs (some s) (some inputs) (some outputs) name = .ok g ∧
        g.tensor = c.unitaryBetween ins outs) ∧
    ('[' ∉ name.toList → ∀ inputs outputs : Option Quregs, ∃ g : Composite (Bloq α κ),
      c.importAs none inputs outputs name = .ok g ∧ g.tensor = c.unitaryBetween c.qubits c.qubits) := by
  constructor
  · intro s inputs outputs ins outs hv hr hin hi hout ho hfresh
    exact importBetween_tensor hops hv (fun r h => (hr r h).1) (fun r h => (hr r h).2) hin hi hout ho
      hfresh
  · intro hb inputs outputs
    have hmerge := c.merge_defaultQuregs name
    have hplain : ∀ r ∈ [c.defaultRegister name], '[' ∉ r.name.toList := by
      intro r hr
      rw [List.mem_singleton.mp hr]
      exact hb
    -- all qubits come in, so that none is allocated
    have hnone : (c.qubits ++ c.operations.flatMap (·.qubits)).toFinset \ c.qubits.toFinset = ∅ := by
      refine Finset.sdiff_eq_empty_iff_subset.mpr fun q hq => ?_
      rw [List.mem_toFinset] at hq ⊢
      exact (List.mem_append.mp hq).elim id fun h => mem_firstUses.mpr h
    exact importBetween_tensor hops (c.valid_default name) (c.quantum_default name) hplain hmerge
      (nodup_firstUses _) hmerge (nodup_firstUses _) (by rw [hnone]; exact Nat.zero_le _)

/-- Two qubits are entangled, one of which comes in and the other goes out. -/
theorem importAs_tensor_entangled :
    let c : Circuit (Gate ℝ ℂ) :=
      ⟨[⟨.standard .h, [.named "x"]⟩, ⟨.standard .cx, [.named "x", .named "y"]⟩]⟩
    let s : Signature := ⟨[⟨"x", .qbit, [], .left⟩, ⟨"y", .qbit, [], .right⟩]⟩
    (∃ g : Composite (Bloq ℝ ℂ),
      c.importAs (some s) (some (.named s.lefts)) (some (.named s.rights)) "q" = .ok g ∧
        g.tensor = c.unitaryBetween [.named "x"] [.named "y"]) ∧
    ∃ g : Composite (Bloq ℝ ℂ), c.importAs none none none "q" = .ok g ∧
      g.tensor = c.unitaryBetween c.qubits c.qubits := by
  intro c s
  have hops : ∀ op ∈ c.operations, op.gate.Importable ∧ Operation.make op.gate op.qubits = .ok op ∧
      Dense.Direct Gate.meaning Gate.ownMatrix op := by
    intro op hop
    simp only [c, List.mem_cons, List.not_mem_nil, or_false] at hop
    rcases hop with rfl | rfl
    · exact ⟨trivial, Operation.make_eq_ok.mpr ⟨rfl, by decide, rfl⟩, rfl, rfl, rfl, by decide⟩
    · exact ⟨trivial, Operation.make_eq_ok.mpr ⟨rfl, by decide, rfl⟩, rfl, rfl, rfl, by decide⟩
  obtain ⟨hbetween, hwhole⟩ := importAs_tensor hops "q"
  refine ⟨hbetween s _ _ _ _ rfl (fun r hr => ?_) (by decide +kernel) (by decide)
    (by decide +kernel) (by decide) (by decide), hwhole (by decide) none none⟩
  simp only [s, List.mem_cons, List.not_mem_nil, or_false] at hr
  rcases hr with rfl | rfl
  · exact ⟨⟨rfl, Nat.le_refl 1⟩, by decide⟩
  · exact ⟨⟨rfl, Nat.le_refl 1⟩, by decide⟩

end Circuit
end BloqCircuit
