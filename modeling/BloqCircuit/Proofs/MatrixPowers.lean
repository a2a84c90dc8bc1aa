import Mathlib.Data.Matrix.Mul
import BloqCircuit.Proofs.Amplitudes
/-! Dense square matrices over a ring are matrices: the product is the product, repeated squaring gives
the powers, and the conjugate transpose passes through them. -/
namespace BloqCircuit

theorem productsBelow_eq {κ : Type} [ExactAmplitude κ] (n : Nat) (f g : Nat → κ) :
    productsBelow n f g = ∑ k ∈ Finset.range n, f k * g k := by
  induction n with
  | zero => rfl
  | succ n ih => rw [productsBelow, Amplitude.addMul_eq, ih, Finset.sum_range_succ]

namespace DenseMatrix
variable {κ : Type}

/-- A matrix of so many rows and columns. -/
structure Sized (m : DenseMatrix κ) (n : Nat) : Prop where
  rows : m.rows = n
  cols : m.cols = n

section
variable [Zero κ] {m k : DenseMatrix κ} {n : Nat}

/-- The entries of a square matrix. -/
def toMatrix (n : Nat) (m : DenseMatrix κ) : Matrix (Fin n) (Fin n) κ :=
  Matrix.of fun r c => m.get r c

theorem toMatrix_ofFn (f : Nat → Nat → κ) :
    (ofFn n n f).toMatrix n = Matrix.of fun r c : Fin n => f r c := by
  ext r c
  exact get_ofFn f r.isLt c.isLt

/-- A matrix is made of its entries. -/
theorem ofFn_get (m : DenseMatrix κ) : ofFn m.rows m.cols m.get = m := by
  obtain ⟨rows, cols, entries, hsize⟩ := m
  have hentries : Array.ofFn (fun k : Fin (rows * cols) =>
      get ⟨rows, cols, entries, hsize⟩ (k / cols) (k % cols)) = entries := by
    refine Array.ext (Array.size_ofFn.trans hsize.symm) fun k hk hk' => ?_
    have hlt : k < rows * cols := hsize ▸ hk'
    have hpos : 0 < cols := Nat.pos_of_ne_zero fun h0 => by simp [h0] at hlt
    have hindex : k / cols * cols + k % cols = k := Nat.div_add_mod' k cols
    rw [Array.getElem_ofFn]
    show (if k % cols < cols then entries.getD (k / cols * cols + k % cols) 0 else 0) = _
    rw [if_pos (Nat.mod_lt _ hpos), hindex, Array.getD_eq_getD_getElem?,
      Array.getElem?_eq_getElem hk', Option.getD_some]
  rw [ofFn]
  simp only [hentries]

theorem Sized.ext (hm : m.Sized n) (hk : k.Sized n) (h : m.toMatrix n = k.toMatrix n) : m = k := by
  rw [← ofFn_get m, ← ofFn_get k, hm.rows, hm.cols, hk.rows, hk.cols]
  exact ofFn_congr fun r hr c hc => congrFun (congrFun h ⟨r, hr⟩) ⟨c, hc⟩

end

variable [ExactAmplitude κ] {m k : DenseMatrix κ} {n : Nat}

theorem sized_identity (n : Nat) : (identity n : DenseMatrix κ).Sized n := ⟨rfl, rfl⟩

theorem toMatrix_identity (n : Nat) : (identity n : DenseMatrix κ).toMatrix n = 1 := by
  rw [identity, toMatrix_ofFn]
  ext r c
  rw [Matrix.of_apply, Matrix.one_apply]
  simp only [Fin.ext_iff]

theorem Sized.mul (hm : m.Sized n) (hk : k.Sized n) : (m.mul k).Sized n := ⟨hm.rows, hk.cols⟩

theorem Sized.toMatrix_mul (hm : m.Sized n) (hk : k.Sized n) :
    (m.mul k).toMatrix n = m.toMatrix n * k.toMatrix n := by
  rw [DenseMatrix.mul, hm.rows, hm.cols, hk.cols, toMatrix_ofFn]
  ext r c
  rw [Matrix.of_apply, one_mul, productsBelow_eq, Finset.sum_range, Matrix.mul_apply]
  rfl

/-- Squares and halves keep the product of the result with the power that is left. -/
theorem Sized.powInto (hm : m.Sized n) (hk : k.Sized n) (exponent : Nat) :
    (DenseMatrix.powInto m k exponent).Sized n ∧
      (DenseMatrix.powInto m k exponent).toMatrix n = m.toMatrix n * k.toMatrix n ^ exponent := by
  induction exponent using Nat.strong_induction_on generalizing m k with
  | _ exponent ih =>
    rw [DenseMatrix.powInto]
    by_cases h0 : exponent = 0
    · rw [dif_pos h0, h0, pow_zero, mul_one]
      exact ⟨hm, rfl⟩
    · rw [dif_neg h0]
      have hlt : exponent / 2 < exponent := Nat.div_lt_self (Nat.pos_of_ne_zero h0) (by decide)
      have hhalves : 2 * (exponent / 2) + exponent % 2 = exponent := Nat.div_add_mod exponent 2
      -- the square is left out where no exponent is left for it
      have hsquare : (if exponent / 2 = 0 then k else k.mul k).Sized n ∧
          (if exponent / 2 = 0 then k else k.mul k).toMatrix n ^ (exponent / 2) =
            k.toMatrix n ^ (2 * (exponent / 2)) := by
        by_cases hlast : exponent / 2 = 0
        · rw [if_pos hlast, hlast]
          exact ⟨hk, rfl⟩
        · rw [if_neg hlast, hk.toMatrix_mul hk, ← pow_two, ← pow_mul]
          exact ⟨hk.mul hk, rfl⟩
      by_cases hodd : exponent % 2 = 1
      · rw [if_pos hodd]
        obtain ⟨hsized, hpow⟩ := ih _ hlt (hm.mul hk) hsquare.1
        refine ⟨hsized, ?_⟩
        rw [hpow, hsquare.2, hm.toMatrix_mul hk, mul_assoc, ← pow_succ', ← hodd, hhalves]
      · rw [if_neg hodd]
        obtain ⟨hsized, hpow⟩ := ih _ hlt hm hsquare.1
        have heven : exponent % 2 = 0 := by omega
        rw [heven, add_zero] at hhalves
        exact ⟨hsized, by rw [hpow, hsquare.2, hhalves]⟩

theorem Sized.pow (hm : m.Sized n) (exponent : Nat) : (m.pow exponent).Sized n :=
  (Sized.powInto (hm.rows ▸ sized_identity m.rows) hm exponent).1

theorem Sized.toMatrix_pow (hm : m.Sized n) (exponent : Nat) :
    (m.pow exponent).toMatrix n = m.toMatrix n ^ exponent := by
  have hone : (identity m.rows : DenseMatrix κ).Sized n := hm.rows ▸ sized_identity m.rows
  rw [DenseMatrix.pow, (hone.powInto hm exponent).2, hm.rows, toMatrix_identity, one_mul]

theorem Sized.pow_add_one (hm : m.Sized n) (exponent : Nat) :
    m.pow (exponent + 1) = (m.pow exponent).mul m := by
  refine (hm.pow _).ext ((hm.pow exponent).mul hm) ?_
  rw [hm.toMatrix_pow, (hm.pow exponent).toMatrix_mul hm, hm.toMatrix_pow, pow_succ]

theorem Sized.adjoint (hm : m.Sized n) : m.adjoint.Sized n := ⟨hm.cols, hm.rows⟩

theorem Sized.toMatrix_adjoint (hm : m.Sized n) :
    m.adjoint.toMatrix n = (m.toMatrix n).transpose.map Amplitude.conj := by
  ext r c
  exact get_adjoint (hm.cols.symm ▸ r.isLt) (hm.rows.symm ▸ c.isLt)

theorem adjoint_adjoint (hm : m.Sized n) : m.adjoint.adjoint = m := by
  refine hm.adjoint.adjoint.ext hm ?_
  rw [hm.adjoint.toMatrix_adjoint, hm.toMatrix_adjoint]
  ext r c
  exact Amplitude.conj_conj _

/-- The adjoint of a power is the power of the adjoint. -/
theorem Sized.adjoint_pow (hm : m.Sized n) (exponent : Nat) :
    (m.pow exponent).adjoint = m.adjoint.pow exponent := by
  refine (hm.pow exponent).adjoint.ext (hm.adjoint.pow exponent) ?_
  rw [(hm.pow exponent).toMatrix_adjoint, hm.adjoint.toMatrix_pow, hm.toMatrix_adjoint,
    hm.toMatrix_pow, Matrix.transpose_pow]
  exact map_pow (Amplitude.conjHom κ).mapMatrix _ exponent

end DenseMatrix
end BloqCircuit
