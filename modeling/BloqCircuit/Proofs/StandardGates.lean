import Mathlib.Tactic.IntervalCases
import BloqCircuit.Proofs.Amplitudes
import BloqCircuit.Gate.Standard
/-! Over the complex numbers, the inverse of a standard gate has the conjugate transpose of the gate's
matrix. -/
namespace BloqCircuit

namespace DenseMatrix
variable {κ : Type} [ExactAmplitude κ]

theorem adjoint_ofFn {rows cols : Nat} {f g : Nat → Nat → κ}
    (h : ∀ r < cols, ∀ c < rows, Amplitude.conj (f c r) = g r c) :
    (ofFn rows cols f).adjoint = ofFn cols rows g := by
  refine ofFn_congr fun r hr c hc => ?_
  exact (congrArg Amplitude.conj (get_ofFn f hc hr)).trans (h r hr c hc)

theorem adjoint_square_one (a : κ) : (square 1 [a]).adjoint = square 1 [Amplitude.conj a] := by
  refine adjoint_ofFn fun r hr c hc => ?_
  obtain rfl : r = 0 := by omega
  obtain rfl : c = 0 := by omega
  rfl

theorem adjoint_square_two (a b c d : κ) : (square 2 [a, b, c, d]).adjoint =
    square 2 [Amplitude.conj a, Amplitude.conj c, Amplitude.conj b, Amplitude.conj d] := by
  refine adjoint_ofFn fun r hr s hs => ?_
  interval_cases r <;> interval_cases s <;> rfl

theorem adjoint_exchange (n a b : Nat) : (exchange n a b : DenseMatrix κ).adjoint = exchange n a b := by
  refine adjoint_ofFn fun r _ c _ => ?_
  have hone : Amplitude.conj (1 : κ) = 1 := Amplitude.conj_one
  have hzero : Amplitude.conj (0 : κ) = 0 := Amplitude.conj_zero
  split_ifs <;> first | exact hone | exact hzero | omega

end DenseMatrix

namespace Amplitude
variable {κ : Type} [ExactAmplitude κ]

theorem conj_neg (x : κ) : conj (-x) = -conj x := map_neg (conjHom κ) x

end Amplitude

/-! ## Phases -/

namespace Rotation

theorem conj_imaginary : Amplitude.conj (imaginary ℝ : ℂ) = -imaginary ℝ := Complex.conj_I

theorem conj_ofReal (x : ℝ) : Amplitude.conj (x : ℂ) = x := Complex.conj_ofReal x

/-- The phase of a real angle is conjugated by turning the angle round. -/
theorem conj_exp {z : ℂ} (hz : Amplitude.conj z = z) :
    Amplitude.conj (Complex.exp (z * Complex.I)) = Complex.exp (-z * Complex.I) := by
  have hconj : (starRingEnd ℂ) z = z := hz
  have h := (Complex.exp_conj (z * Complex.I)).symm
  rwa [map_mul, Complex.conj_I, hconj, mul_neg, ← neg_mul] at h

theorem conj_div (x : ℝ) (n : Nat) [n.AtLeastTwo] :
    Amplitude.conj (x / (OfNat.ofNat n : ℂ)) = x / OfNat.ofNat n := by
  have h := conj_ofReal (x / OfNat.ofNat n)
  rwa [Complex.ofReal_div, Complex.ofReal_ofNat] at h

theorem conj_eighth : Amplitude.conj (eighth ℝ : ℂ) = eighthBack ℝ := conj_exp (conj_div Real.pi 4)

theorem conj_phase (t : ℝ) : Amplitude.conj (phase t : ℂ) = phase (-t) := by
  refine (conj_exp (conj_ofReal t)).trans ?_
  rw [← Complex.ofReal_neg]
  rfl

theorem halfPhaseBack_eq (t : ℝ) : (halfPhaseBack t : ℂ) = halfPhase (-t) := by
  show Complex.exp (-(t / 2) * Complex.I) = Complex.exp (((-t : ℝ) : ℂ) / 2 * Complex.I)
  rw [Complex.ofReal_neg, neg_div]

theorem conj_halfPhase (t : ℝ) : Amplitude.conj (halfPhase t : ℂ) = halfPhaseBack t :=
  conj_exp (conj_div t 2)

theorem conj_halfPhaseBack (t : ℝ) : Amplitude.conj (halfPhaseBack t : ℂ) = halfPhase t := by
  rw [← conj_halfPhase, Amplitude.conj_conj]

theorem halfCos_neg (t : ℝ) : (halfCos (-t) : ℂ) = halfCos t := by
  refine congrArg Complex.ofReal ?_
  rw [neg_div, Real.cos_neg]

theorem halfSin_neg (t : ℝ) : (halfSin (-t) : ℂ) = -halfSin t := by
  refine Eq.trans (congrArg Complex.ofReal ?_) (Complex.ofReal_neg _)
  rw [neg_div, Real.sin_neg]

theorem halfSinTurned_eq (t : ℝ) : (halfSinTurned t : ℂ) = -imaginary ℝ * halfSin t := rfl

end Rotation

namespace StandardGate

/-- Every standard gate that has a matrix has an inverse, on as many qubits, with the conjugate
transpose. -/
theorem matrix_inverse {g : StandardGate ℝ} {m : DenseMatrix ℂ} (hm : g.matrix? = some m) :
    ∃ k : StandardGate ℝ, g.inverse? = some k ∧ k.arity = g.arity ∧ k.matrix? = some m.adjoint := by
  have hone : Amplitude.conj (1 : ℂ) = 1 := Amplitude.conj_one
  have hzero : Amplitude.conj (0 : ℂ) = 0 := Amplitude.conj_zero
  have hneg : ∀ z : ℂ, Amplitude.conj (-z) = -Amplitude.conj z := Amplitude.conj_neg
  have hcos : ∀ t : ℝ, Amplitude.conj (Rotation.halfCos t : ℂ) = Rotation.halfCos t :=
    fun _ => Rotation.conj_ofReal _
  have hsin : ∀ t : ℝ, Amplitude.conj (Rotation.halfSin t : ℂ) = Rotation.halfSin t :=
    fun _ => Rotation.conj_ofReal _
  cases g with
  | reset => cases hm
  | i | x =>
    cases hm
    refine ⟨_, rfl, rfl, ?_⟩
    rw [DenseMatrix.adjoint_square_two, hone, hzero]
    rfl
  | y =>
    cases hm
    refine ⟨_, rfl, rfl, ?_⟩
    rw [DenseMatrix.adjoint_square_two, hneg, hzero, Rotation.conj_imaginary, neg_neg]
    rfl
  | z =>
    cases hm
    refine ⟨_, rfl, rfl, ?_⟩
    rw [DenseMatrix.adjoint_square_two, hneg, hone, hzero]
    rfl
  | h =>
    cases hm
    refine ⟨_, rfl, rfl, ?_⟩
    have hroot : Amplitude.conj (Rotation.halfRoot ℝ : ℂ) = Rotation.halfRoot ℝ :=
      Rotation.conj_ofReal _
    rw [DenseMatrix.adjoint_square_two, hneg, hroot]
    rfl
  | s =>
    cases hm
    refine ⟨_, rfl, rfl, ?_⟩
    rw [DenseMatrix.adjoint_square_two, Rotation.conj_imaginary, hone, hzero]
    rfl
  | sdg =>
    cases hm
    refine ⟨_, rfl, rfl, ?_⟩
    rw [DenseMatrix.adjoint_square_two, hneg, Rotation.conj_imaginary, hone, hzero, neg_neg]
    rfl
  | t =>
    cases hm
    refine ⟨_, rfl, rfl, ?_⟩
    rw [DenseMatrix.adjoint_square_two, Rotation.conj_eighth, hone, hzero]
    rfl
  | tdg =>
    cases hm
    refine ⟨_, rfl, rfl, ?_⟩
    rw [DenseMatrix.adjoint_square_two, ← Rotation.conj_eighth, Amplitude.conj_conj, hone, hzero]
    rfl
  | rx a =>
    cases hm
    refine ⟨.rx (-a), rfl, rfl, congrArg some ?_⟩
    have hturned : Amplitude.conj (Rotation.halfSinTurned a : ℂ) = Rotation.halfSinTurned (-a) := by
      rw [Rotation.halfSinTurned_eq, Rotation.halfSinTurned_eq, Rotation.halfSin_neg,
        Amplitude.conj_mul, hneg, Rotation.conj_imaginary, hsin, neg_neg, neg_mul_neg]
    rw [DenseMatrix.adjoint_square_two, hturned, hcos, Rotation.halfCos_neg]
  | ry a =>
    cases hm
    refine ⟨.ry (-a), rfl, rfl, congrArg some ?_⟩
    rw [DenseMatrix.adjoint_square_two, hneg, hsin, hcos, Rotation.halfCos_neg,
      Rotation.halfSin_neg, neg_neg]
  | rz a =>
    cases hm
    refine ⟨.rz (-a), rfl, rfl, congrArg some ?_⟩
    rw [DenseMatrix.adjoint_square_two, Rotation.conj_halfPhaseBack, Rotation.conj_halfPhase, hzero,
      Rotation.halfPhaseBack_eq, Rotation.halfPhaseBack_eq, neg_neg]
  | cx | swap | ccx | cswap =>
    cases hm
    exact ⟨_, rfl, rfl, congrArg some (DenseMatrix.adjoint_exchange _ _ _).symm⟩
  | cz =>
    cases hm
    refine ⟨_, rfl, rfl, congrArg some (DenseMatrix.adjoint_ofFn fun r _ c _ => ?_).symm⟩
    by_cases heq : r = c
    · subst heq
      rw [if_pos rfl]
      split_ifs
      · rw [hneg, hone]
      · exact hone
    · rw [if_neg heq, if_neg (Ne.symm heq)]
      exact hzero
  | globalPhase a =>
    cases hm
    refine ⟨.globalPhase (-a), rfl, rfl, congrArg some ?_⟩
    rw [DenseMatrix.adjoint_square_one, Rotation.conj_phase]

/-- The matrix of a standard gate has the size of its qubits. -/
theorem matrix_size {g : StandardGate ℝ} {m : DenseMatrix ℂ} (hm : g.matrix? = some m) :
    m.rows = basisSize g.arity ∧ m.cols = basisSize g.arity := by
  cases g <;> cases hm <;> exact ⟨rfl, rfl⟩

theorem exists_matrix {g : StandardGate ℝ} (h : g ≠ .reset) : ∃ m : DenseMatrix ℂ, g.matrix? = some m := by
  cases g with
  | reset => exact absurd rfl h
  | _ => exact ⟨_, rfl⟩

end StandardGate
end BloqCircuit
