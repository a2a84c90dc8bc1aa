import Mathlib.Analysis.SpecialFunctions.Complex.Circle
import BloqCircuit.Scalar
/-! Exact amplitudes: a commutative ring, with a conjugation that keeps its operations. The complex
numbers are such, with real angles. -/
namespace BloqCircuit

class ExactAmplitude (κ : Type) extends CommRing κ, Amplitude κ where
  addMul_eq : ∀ sum x y : κ, Amplitude.addMul sum x y = sum + x * y
  conj_add : ∀ x y : κ, Amplitude.conj (x + y) = Amplitude.conj x + Amplitude.conj y
  conj_mul : ∀ x y : κ, Amplitude.conj (x * y) = Amplitude.conj x * Amplitude.conj y
  conj_conj : ∀ x : κ, Amplitude.conj (Amplitude.conj x) = x

namespace Amplitude
variable {κ : Type} [ExactAmplitude κ]

theorem addMul_eq (sum x y : κ) : addMul sum x y = sum + x * y := ExactAmplitude.addMul_eq sum x y

theorem conj_add (x y : κ) : conj (x + y) = conj x + conj y := ExactAmplitude.conj_add x y

theorem conj_mul (x y : κ) : conj (x * y) = conj x * conj y := ExactAmplitude.conj_mul x y

theorem conj_conj (x : κ) : conj (conj x) = x := ExactAmplitude.conj_conj x

theorem conj_zero : conj (0 : κ) = 0 := by
  have h := conj_add (0 : κ) 0
  rw [add_zero] at h
  exact left_eq_add.mp h

theorem conj_one : conj (1 : κ) = 1 := by
  have h := conj_mul (conj (1 : κ)) 1
  rwa [mul_one, conj_conj, one_mul, eq_comm] at h

/-- The conjugation as a homomorphism of rings. -/
def conjHom (κ : Type) [ExactAmplitude κ] : κ →+* κ where
  toFun := conj
  map_zero' := conj_zero
  map_one' := conj_one
  map_add' := conj_add
  map_mul' := conj_mul

end Amplitude

noncomputable section

instance : ExactAmplitude ℂ where
  toCommRing := inferInstance
  conj z := ⟨z.re, -z.im⟩
  addMul_eq _ _ _ := rfl
  conj_add := map_add (starRingEnd ℂ)
  conj_mul := map_mul (starRingEnd ℂ)
  conj_conj := Complex.conj_conj

open Classical in
instance : Angle ℝ where
  beq a b := decide (a = b)
  rfl := by simp
  times a n := n * a
  text a := toString ⌊a⌋

instance : Rotation ℝ ℂ where
  imaginary := Complex.I
  halfRoot := ((√2)⁻¹ : ℝ)
  eighth := Complex.exp (Real.pi / 4 * Complex.I)
  eighthBack := Complex.exp (-(Real.pi / 4) * Complex.I)
  phase t := Complex.exp (t * Complex.I)
  halfPhase t := Complex.exp (t / 2 * Complex.I)
  halfPhaseBack t := Complex.exp (-(t / 2) * Complex.I)
  halfCos t := (Real.cos (t / 2) : ℝ)
  halfSin t := (Real.sin (t / 2) : ℝ)
  halfSinTurned t := -Complex.I * (Real.sin (t / 2) : ℝ)

end
end BloqCircuit
