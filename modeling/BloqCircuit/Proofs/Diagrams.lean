import BloqCircuit.Bloq.Diagram
import BloqCircuit.Bloq.Adjoint
import BloqCircuit.Scalar.Double
import BloqCircuit.Proofs.Emission
/-! Diagrams. A shim has one label for each of its qubits, and a gate that is wrapped any number of times
keeps its labels. -/
namespace BloqCircuit
variable {α κ : Type} [Angle α]

/-! ## Symbols and labels -/

/-- The symbol of a label is drawn with that label. -/
@[simp] theorem WireSymbol.label_ofLabel (t : String) : (ofLabel t).label = .ok t := by
  unfold ofLabel
  split <;> rfl

/-- The labels of all qubits in signature order, if the elements of the registers have these. Each
element has its label once for each of its bits. -/
def Signature.labelled (s : Signature) (text : Register → List Nat → String) : List String :=
  s.registers.flatMap fun r => r.indices.flatMap fun i => List.replicate r.bitsize (text r i)

theorem Signature.length_labelled (s : Signature) (text : Register → List Nat → String) :
    (s.labelled text).length = s.totalBits := by
  have hregister (r : Register) :
      (r.indices.flatMap fun i => List.replicate r.bitsize (text r i)).length = r.totalBits := by
    simp [List.length_flatMap, Register.indices, length_shapeIndices, Register.totalBits,
      Register.numElements, Nat.mul_comm]
  rw [labelled, List.length_flatMap, totalBits_eq]
  apply congrArg
  exact List.map_congr_left fun r _ => hregister r

namespace Gate

/-- A shim whose elements all have a label has their labels. -/
theorem labels_ofBloq {b : Bloq α κ} {text : Register → List Nat → String}
    (h : ∀ r ∈ b.signature.registers, ∀ i ∈ r.indices, (b.symbol r i).label = .ok (text r i)) :
    (ofBloq b).labels = .ok (b.signature.labelled text) := by
  rw [labels]
  refine bind_eq_ok.mpr ⟨_, mapM_eq_ok (g := fun r => r.indices.map fun i =>
    List.replicate r.bitsize (text r i)) ?_, ?_⟩
  · intro r hr
    apply mapM_eq_ok
    intro i hi
    rw [h r hr i hi]
    rfl
  · show Except.ok _ = Except.ok _
    simp [Signature.labelled, List.flatMap_def, List.flatten_flatten, Function.comp_def]

/-- A shim with labels has them from its elements. -/
theorem exists_of_labels_ofBloq {b : Bloq α κ} {ls : List String} (h : (ofBloq b).labels = .ok ls) :
    ∃ text, (∀ r ∈ b.signature.registers, ∀ i ∈ r.indices, (b.symbol r i).label = .ok (text r i)) ∧
      ls = b.signature.labelled text := by
  let text (r : Register) (i : List Nat) : String := match (b.symbol r i).label with
    | .ok t => t
    | .error _ => ""
  have htext : ∀ r ∈ b.signature.registers, ∀ i ∈ r.indices,
      (b.symbol r i).label = .ok (text r i) := by
    intro r hr i hi
    rw [labels] at h
    obtain ⟨rows, hrows, -⟩ := bind_eq_ok.mp h
    obtain ⟨row, hrow⟩ := exists_eq_ok_of_mapM hrows hr
    obtain ⟨cell, hcell⟩ := exists_eq_ok_of_mapM hrow hi
    obtain ⟨t, ht, -⟩ := bind_eq_ok.mp hcell
    simp only [text, ht]
  exact ⟨text, htext, Except.ok.inj (h.symm.trans (labels_ofBloq htext))⟩

/-! ## Wrapped gates -/

/-- The label of one of a gate's wires. Where it has none, the register of the wrapped gate is named. -/
def labelAt (g : Gate α κ) (k : Nat) : String :=
  match g.labels with
  | .ok ls => ls.getD k (gateRegister g.arity).name
  | .error _ => (gateRegister g.arity).name

theorem label_symbol_ofGate (g : Gate α κ) (i : List Nat) :
    ((Bloq.ofGate g).symbol (gateRegister g.arity) i).label = .ok (g.labelAt (i.headD 0)) := by
  rw [Bloq.symbol, labelAt]
  cases hls : g.labels with
  | error e => rfl
  | ok ls =>
    dsimp only
    rw [List.getD_eq_getElem?_getD]
    cases hk : ls[i.headD 0]? with
    | none => rfl
    | some t => exact WireSymbol.label_ofLabel t

theorem indices_gateRegister (n : Nat) :
    (gateRegister n).indices.map (fun i => i.headD 0) = List.range n := by
  by_cases hn : n = 1
  · subst hn
    rfl
  · simp only [gateRegister, hn, Register.indices, shapeIndices, if_false]
    rw [List.map_flatMap]
    simp

/-- A wrapped gate has the label of each of the gate's qubits. -/
theorem labels_wrapped (g : Gate α κ) :
    (ofBloq (.ofGate g)).labels = .ok ((List.range g.arity).map g.labelAt) := by
  have helements : ∀ r ∈ (Bloq.ofGate g).signature.registers, ∀ i ∈ r.indices,
      ((Bloq.ofGate g).symbol r i).label = .ok (g.labelAt (i.headD 0)) := by
    intro r hr i _
    rw [Bloq.signature_ofGate] at hr
    obtain rfl := List.mem_singleton.mp hr
    exact g.label_symbol_ofGate i
  have hbit : (gateRegister g.arity).bitsize = 1 := rfl
  rw [labels_ofBloq helements, Bloq.signature_ofGate, ← indices_gateRegister, List.map_map]
  simp [Signature.labelled, hbit, List.map_eq_flatMap]

/-- A gate whose labels match its qubits keeps them when it is wrapped. -/
theorem labels_wrapped_eq {g : Gate α κ} {ls : List String} (h : g.labels = .ok ls)
    (hlen : ls.length = g.arity) : (ofBloq (.ofGate g)).labels = .ok ls := by
  rw [labels_wrapped, ← hlen]
  apply congrArg
  apply List.ext_getElem
  · simp
  · intro k hk _
    have hk : k < ls.length := by simpa using hk
    simp [labelAt, h, hk]

omit [Angle α] in
theorem arity_wrapped (g : Gate α κ) : (ofBloq (.ofGate g)).arity = g.arity := by
  rw [arity, Bloq.signature_ofGate, Signature.totalBits_eq]
  simp [totalBits_gateRegister]

theorem asGate_ofGate (g : Gate α κ) : (Bloq.ofGate g).asGate = .ok (.ofBloq (.ofGate g)) := by
  refine Bloq.gate_eq_ok.mpr ⟨?_, rfl⟩
  rw [Bloq.signature_ofGate]
  apply Signature.repeatedName?_eq_none.mpr
  simp

/-- A gate that acts as a bloq that acts as a gate, and so on, so many times. -/
def rewrapped (g : Gate α κ) : Nat → Except Error (Gate α κ)
  | 0 => .ok g
  | n + 1 => do (Bloq.ofGate (← g.rewrapped n)).asGate

/-- Wrapping once more changes neither the number of qubits nor the labels. -/
theorem rewrapped_keeps {g : Gate α κ} {ls : List String} (h : g.labels = .ok ls)
    (hlen : ls.length = g.arity) (n : Nat) :
    ∃ shim, g.rewrapped n = .ok shim ∧ shim.arity = g.arity ∧ shim.labels = .ok ls := by
  induction n with
  | zero => exact ⟨g, rfl, rfl, h⟩
  | succ n ih =>
    obtain ⟨shim, hshim, harity, hls⟩ := ih
    refine ⟨.ofBloq (.ofGate shim), ?_, ?_, ?_⟩
    · exact bind_eq_ok.mpr ⟨shim, hshim, asGate_ofGate shim⟩
    · rw [arity_wrapped, harity]
    · exact labels_wrapped_eq hls (hlen.trans harity.symm)

/-- Labels survive wrapping. A shim that has labels has one for each of its qubits, in signature order and
the one of its element; a gate that has one for each of its qubits keeps them through any number of
wrappings. -/
theorem labels_survive :
    (∀ (b : Bloq α κ) (shim : Gate α κ) (ls : List String), b.asGate = .ok shim → shim.labels = .ok ls →
      ls.length = shim.arity ∧
      ∃ text : Register → List Nat → String,
        (∀ r ∈ b.signature.registers, ∀ i ∈ r.indices, (b.symbol r i).label = .ok (text r i)) ∧
        ls = b.signature.labelled text) ∧
    ∀ (g : Gate α κ) (ls : List String), g.labels = .ok ls → ls.length = g.arity →
      ∀ n, ∃ shim, g.rewrapped n = .ok shim ∧ shim.arity = g.arity ∧ shim.labels = .ok ls := by
  constructor
  · intro b shim ls hshim hls
    obtain ⟨-, rfl⟩ := Bloq.gate_eq_ok.mp hshim
    obtain ⟨text, htext, rfl⟩ := exists_of_labels_ofBloq hls
    refine ⟨?_, text, htext, rfl⟩
    rw [arity]
    exact Signature.length_labelled _ text
  · intro g ls hls hlen n
    exact rewrapped_keeps hls hlen n

/-- A control and an array of two bundles with two bits each, wrapped as a gate and then three times more. -/
theorem labels_survive_controlled :
    let b : Bloq Float Unit := .declared {
      name := "u", definition := "u", native := none, tensor := none
      signature := ⟨[.single "c" .qbit, { Register.single "x" (.qany 2) with shape := [2] }]⟩
      decomposition := .error (.decomposeNotImplemented "u")
      symbols := [("c", [.circle true])] }
    let ls := ["@", "x", "x", "x", "x"]
    b.asGate = .ok (.ofBloq b) ∧ (ofBloq b).labels = .ok ls ∧ ls.length = (ofBloq b).arity ∧
      ∃ shim, (ofBloq b).rewrapped 3 = .ok shim ∧ shim.arity = 5 ∧ shim.labels = .ok ls := by
  intro b ls
  have hshim : b.asGate = .ok (.ofBloq b) := rfl
  have hls : (ofBloq b).labels = .ok ls := by rfl
  obtain ⟨hlen, -⟩ := labels_survive.1 b _ ls hshim hls
  exact ⟨hshim, hls, hlen, labels_survive.2 _ ls hls hlen 3⟩

end Gate
end BloqCircuit
