import BloqCircuit.Proofs.BackwardFlows
import BloqCircuit.Proofs.MatrixPowers
import BloqCircuit.Proofs.RoundTrip.Circuits
import BloqCircuit.Proofs.StandardGates
/-! Standard gates as bloqs, under any adjoints and powers: their registers, their tensors, and what takes
their place when a graph is read backwards. -/
namespace BloqCircuit

theorem StandardGate.arity_le {α : Type} (g : StandardGate α) : g.arity ≤ 3 := by
  cases g <;> simp [arity]

namespace Bloq
variable {α κ : Type}

/-- Standard gates that have matrices, as bloqs, under any adjoints and powers. -/
inductive Raised : Bloq α κ → Prop
  | gate {g : StandardGate α} (h : g ≠ .reset) : Raised (.ofGate (.standard g))
  | adjoint {b : Bloq α κ} (h : Raised b) : Raised (.adjoint b)
  | power {b : Bloq α κ} (h : Raised b) (n : Nat) : Raised (.power b n)

/-- How many powers are nested in a bloq, and the gate. -/
def height : Bloq α κ → Nat
  | .ofGate _ => 1
  | .adjoint b => b.height
  | .power b _ => b.height + 1
  | _ => 0

end Bloq

/-- How deep a gate unfolds. -/
def Gate.height {α κ : Type} : Gate α κ → Nat
  | .ofBloq b => b.height
  | _ => 0

namespace Bloq
variable {α κ : Type} {b : Bloq α κ}

/-! ## Registers -/

theorem totalBits_single (n : Nat) : (⟨[gateRegister n]⟩ : Signature).totalBits = n := by
  rw [Signature.totalBits_eq]
  exact totalBits_gateRegister n

private theorem exists_signature (h : b.Raised) : ∃ n ≤ 3, b.signature = ⟨[gateRegister n]⟩ := by
  induction h with
  | @gate g _ =>
    exact ⟨g.arity, g.arity_le, by rw [signature_ofGate, Gate.arity]⟩
  | adjoint _ ih =>
    obtain ⟨n, hn, hs⟩ := ih
    refine ⟨n, hn, ?_⟩
    rw [signature, hs]
    rfl
  | power _ _ ih => rwa [signature]

theorem Raised.signature_eq (h : b.Raised) : b.signature = ⟨[gateRegister b.signature.totalBits]⟩ := by
  obtain ⟨n, -, hs⟩ := exists_signature h
  rw [hs, totalBits_single]

theorem Raised.totalBits_le (h : b.Raised) : b.signature.totalBits ≤ 3 := by
  obtain ⟨n, hn, hs⟩ := exists_signature h
  rwa [hs, totalBits_single]

theorem Raised.valid (h : b.Raised) : b.signature.Valid := by
  rw [h.signature_eq]
  exact Signature.valid_of_nodup (List.nodup_singleton _)

theorem Raised.signature_adjoint (h : b.Raised) : (Bloq.adjoint b).signature = b.signature := by
  rw [signature, h.signature_eq]
  rfl

theorem Raised.allThru (h : b.Raised) : b.signature.allThru = true := by
  rw [h.signature_eq]
  rfl

private theorem steady_ofBloq (h : b.Raised) (hnative : b.native? = none) :
    (Gate.ofBloq b).Steady := by
  refine ⟨hnative, h.valid, fun r hr => ?_⟩
  rw [h.signature_eq] at hr
  rw [List.mem_singleton.mp hr]
  exact ⟨rfl, quantum_gateRegister _⟩

/-- A raised bloq is what some gate stands for, and emits this gate. -/
theorem Raised.exists_gate (h : b.Raised) : ∃ g, b.emits = some g ∧ g.bloq = b ∧ g.Steady := by
  cases h with
  | gate _ => exact ⟨_, rfl, rfl, trivial⟩
  | adjoint h => exact ⟨_, rfl, rfl, steady_ofBloq (.adjoint h) rfl⟩
  | power h n => exact ⟨_, rfl, rfl, steady_ofBloq (.power h n) rfl⟩

theorem Raised.bloq_of_emits (h : b.Raised) {g : Gate α κ} (he : b.emits = some g) : g.bloq = b := by
  obtain ⟨g', he', hbloq, -⟩ := h.exists_gate
  cases he.symm.trans he'
  exact hbloq

theorem Raised.passing (h : b.Raised) {g : Gate α κ} (he : b.emits = some g) : g.Passing := by
  obtain ⟨g', he', -, hsteady⟩ := h.exists_gate
  cases he.symm.trans he'
  exact hsteady.passing

theorem Raised.plain (h : b.Raised) : b.Plain := by
  obtain ⟨g, -, rfl, hsteady⟩ := h.exists_gate
  exact hsteady.passing.regular.plain

theorem Raised.still (h : b.Raised) : Composite.Still b := by
  obtain ⟨g, -, rfl, hsteady⟩ := h.exists_gate
  refine ⟨hsteady.passing.born_eq, hsteady.passing.dead_eq, ?_⟩
  cases h' : g.bloq with
  | free t => rw [h'] at h; cases h
  | _ => rfl

/-- The emitted gate unfolds no deeper than the bloq is high. -/
theorem Raised.height_emits_le (h : b.Raised) {g : Gate α κ} (he : b.emits = some g) :
    g.height ≤ b.height := by
  cases h with
  | gate _ =>
    cases he
    exact Nat.zero_le _
  | adjoint _ =>
    cases he
    exact Nat.le_refl _
  | power _ _ =>
    cases he
    exact Nat.le_refl _

/-! ## Tensors -/

section
variable [Angle α] [Amplitude κ] [Rotation α κ]

/-- The tensor of a bloq that has one. -/
def matrix (b : Bloq α κ) : DenseMatrix κ := match b.tensor with
  | .ok (some m) => m
  | _ => .identity 0

theorem matrix_eq {m : DenseMatrix κ} (h : b.tensor = .ok (some m)) : b.matrix = m := by
  rw [matrix, h]

theorem tensor_adjoint {m : DenseMatrix κ} (h : b.tensor = .ok (some m)) :
    (adjoint b).tensor = .ok (some m.adjoint) := by
  have h : b.tensorWith Composite.tensor = .ok (some m) := h
  rw [tensor, tensorWith, h]
  rfl

theorem tensor_power {m : DenseMatrix κ} (h : b.tensor = .ok (some m)) (n : Nat) :
    (power b n).tensor = .ok (some (m.pow n)) := by
  have h : b.tensorWith Composite.tensor = .ok (some m) := h
  rw [tensor, tensorWith, h]
  rfl

theorem tensor_standard (g : StandardGate α) :
    (ofGate (.standard g) : Bloq α κ).tensor = .ok g.matrix? := by
  rw [tensor, tensorWith, Gate.unitaryWith]

end

/-! ## Adjoints -/

section
variable [Angle α]

theorem adjointOf_adjoint (b : Bloq α κ) : (adjoint b).adjointOf = b := by
  rw [adjointOf, ownAdjoint?]
  rfl

theorem adjointOf_power (b : Bloq α κ) (n : Nat) : (power b n).adjointOf = power b.adjointOf n := by
  rw [adjointOf, ownAdjoint?]
  rfl

theorem adjointOf_standard {g k : StandardGate α} (h : g.inverse? = some k) :
    (ofGate (.standard g) : Bloq α κ).adjointOf = ofGate (.standard k) := by
  rw [adjointOf, ownAdjoint?, Gate.inverse, h]
  rfl

end
end Bloq

namespace StandardGate

theorem ne_reset {g : StandardGate ℝ} {m : DenseMatrix ℂ} (h : g.matrix? = some m) : g ≠ .reset := by
  rintro rfl
  cases h

end StandardGate

namespace Bloq.Raised
variable {b : Bloq ℝ ℂ}

/-- A raised bloq has a tensor, on all of its qubits. -/
theorem exists_tensor (h : b.Raised) :
    ∃ m, b.tensor = .ok (some m) ∧ m.Sized (basisSize b.signature.totalBits) := by
  induction h with
  | @gate g hg =>
    obtain ⟨m, hm⟩ := StandardGate.exists_matrix hg
    obtain ⟨hrows, hcols⟩ := StandardGate.matrix_size hm
    refine ⟨m, by rw [tensor_standard, hm], ?_⟩
    rw [signature_ofGate, totalBits_single]
    exact ⟨hrows, hcols⟩
  | @adjoint b h ih =>
    obtain ⟨m, hm, hsized⟩ := ih
    refine ⟨m.adjoint, tensor_adjoint hm, ?_⟩
    rw [h.signature_adjoint]
    exact hsized.adjoint
  | power h n ih =>
    obtain ⟨m, hm, hsized⟩ := ih
    refine ⟨m.pow n, tensor_power hm n, ?_⟩
    rw [signature]
    exact hsized.pow n

theorem tensor_eq (h : b.Raised) : b.tensor = .ok (some b.matrix) := by
  obtain ⟨m, hm, -⟩ := h.exists_tensor
  rw [hm, matrix_eq hm]

theorem sized (h : b.Raised) : b.matrix.Sized (basisSize b.signature.totalBits) := by
  obtain ⟨m, hm, hsized⟩ := h.exists_tensor
  rwa [matrix_eq hm]

theorem matrix_adjoint (h : b.Raised) : (Bloq.adjoint b).matrix = b.matrix.adjoint :=
  matrix_eq (tensor_adjoint h.tensor_eq)

theorem matrix_power (h : b.Raised) (n : Nat) : (Bloq.power b n).matrix = b.matrix.pow n :=
  matrix_eq (tensor_power h.tensor_eq n)

/-- The adjoint of a raised bloq, with all that becomes of it. -/
structure Turned (b b' : Bloq ℝ ℂ) : Prop where
  raised : b'.Raised
  signature : b'.signature = b.signature
  matrix : b'.matrix = b.matrix.adjoint
  height : ∀ g g', b.emits = some g → b'.emits = some g' → g'.height ≤ g.height
  height_le : b'.height ≤ b.height

theorem turned (h : b.Raised) : Turned b b.adjointOf := by
  induction h with
  | @gate g hg =>
    obtain ⟨m, hm⟩ := StandardGate.exists_matrix hg
    obtain ⟨k, hinverse, harity, hk⟩ := StandardGate.matrix_inverse hm
    rw [adjointOf_standard hinverse]
    refine ⟨.gate (StandardGate.ne_reset hk), ?_, ?_, fun g₁ g₂ h₁ h₂ => ?_, Nat.le_refl _⟩
    · rw [signature_ofGate, signature_ofGate, Gate.arity, Gate.arity, harity]
    · rw [matrix_eq ((tensor_standard k).trans (congrArg _ hk)),
        matrix_eq ((tensor_standard g).trans (congrArg _ hm))]
    · cases h₁
      cases h₂
      exact Nat.le_refl _
  | @adjoint b h _ =>
    rw [adjointOf_adjoint]
    refine ⟨h, h.signature_adjoint.symm, ?_, fun g₁ g₂ h₁ h₂ => ?_, Nat.le_refl _⟩
    · rw [h.matrix_adjoint, DenseMatrix.adjoint_adjoint h.sized]
    · cases h₁
      exact h.height_emits_le h₂
  | @power b h n ih =>
    rw [adjointOf_power]
    refine ⟨.power ih.raised n, ?_, ?_, fun g₁ g₂ h₁ h₂ => ?_, Nat.succ_le_succ ih.height_le⟩
    · rw [Bloq.signature, Bloq.signature, ih.signature]
    · rw [ih.raised.matrix_power, ih.matrix, h.matrix_power, h.sized.adjoint_pow]
    · cases h₁
      cases h₂
      exact Nat.succ_le_succ ih.height_le

end Bloq.Raised

/-! ## Gates -/

section
variable {α κ : Type} [Angle α]

/-- The gate that the adjoint of a gate's bloq puts into a circuit. -/
def Gate.mirrored (g : Gate α κ) : Gate α κ := g.bloq.adjointOf.emits.getD g

def Operation.mirrored (op : Operation (Gate α κ)) : Operation (Gate α κ) :=
  ⟨op.gate.mirrored, op.qubits⟩

/-- The matrix of the bloq that a gate stands for. -/
def Gate.bloqMatrix [Amplitude κ] [Rotation α κ] (g : Gate α κ) : DenseMatrix κ := g.bloq.matrix

end

namespace Gate
variable {g : Gate ℝ ℂ}

/-- What the mirror image of a gate with a raised bloq stands for. -/
theorem bloq_mirrored (h : g.bloq.Raised) : g.mirrored.bloq = g.bloq.adjointOf := by
  obtain ⟨g', he, hbloq, -⟩ := h.turned.raised.exists_gate
  rw [mirrored, he]
  exact hbloq

/-- The matrix of the mirror image is the conjugate transpose. -/
theorem bloqMatrix_mirrored (h : g.bloq.Raised) : g.mirrored.bloqMatrix = g.bloqMatrix.adjoint := by
  rw [bloqMatrix, bloq_mirrored h, h.turned.matrix]
  rfl

end Gate

namespace Bloq

theorem Raised.exchanges {b : Bloq ℝ ℂ} (h : b.Raised) : Composite.Exchanges b b.adjointOf := by
  have hsignature := h.signature_eq
  constructor
  case valid => exact h.turned.raised.valid
  case lefts =>
    show b.adjointOf.signature.lefts = b.signature.rights.map Register.adjoint
    rw [h.turned.signature, hsignature]
    rfl
  case rights =>
    show b.adjointOf.signature.rights = b.signature.lefts.map Register.adjoint
    rw [h.turned.signature, hsignature]
    rfl

/-- The adjoint of a raised bloq takes its place when a graph is read backwards. -/
theorem Raised.mirrors {b : Bloq ℝ ℂ} (h : b.Raised) : b.Mirrors b.adjointOf Operation.mirrored := by
  obtain ⟨g, he, hbloq, -⟩ := h.exists_gate
  obtain ⟨g', he', -⟩ := h.turned.raised.exists_gate
  have hplain := h.plain
  have hplain' := h.turned.raised.plain
  refine ⟨h.exchanges, ?_, hplain', fun L v last hv => ?_⟩
  · rw [(hplain.of_emits he).1, (hplain'.of_emits he').1]
  · have hsignature := h.signature_eq
    have hon := Labels.on_turned hv L [gateRegister b.signature.totalBits]
    rw [List.map_singleton, gateRegister_adjoint] at hon
    have hmirrored : g.mirrored = g' := by
      rw [Gate.mirrored, hbloq, he']
      rfl
    rw [operation?, operation?, he, he', h.turned.signature, hsignature, hon, ← hmirrored]
    rfl

end Bloq
end BloqCircuit
