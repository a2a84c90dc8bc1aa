import BloqCircuit.Proofs.Actions
import BloqCircuit.Proofs.AdjointTensors
/-! Standard gates have unitary matrices, and a circuit of them is undone by the inverses of its gates
in reverse order. -/
namespace BloqCircuit

/-! ## Unitary matrices -/

namespace DenseMatrix
variable {κ : Type} [ExactAmplitude κ] {m : DenseMatrix κ} {n : Nat}

/-- A square matrix that its conjugate transpose undoes. -/
structure Unitary (m : DenseMatrix κ) (n : Nat) : Prop where
  sized : m.Sized n
  undone : m.adjoint.mul m = .identity n

theorem mul_square_one (a b : κ) : (square 1 [a]).mul (square 1 [b]) = square 1 [a * b] := by
  refine ofFn_congr fun r hr c hc => ?_
  obtain rfl : r = 0 := Nat.lt_one_iff.mp hr
  obtain rfl : c = 0 := Nat.lt_one_iff.mp hc
  rw [one_mul, productsBelow_eq]
  exact Finset.sum_range_one _

theorem mul_square_two (a b c d e f g h : κ) : (square 2 [a, b, c, d]).mul (square 2 [e, f, g, h]) =
    square 2 [a * e + b * g, a * f + b * h, c * e + d * g, c * f + d * h] := by
  refine ofFn_congr fun r hr s hs => ?_
  rw [one_mul, productsBelow_eq]
  change ∑ k ∈ Finset.range 2, _ = _
  rw [Finset.sum_range_succ, Finset.sum_range_one]
  change r < 2 at hr
  change s < 2 at hs
  interval_cases r <;> interval_cases s <;> rfl

theorem identity_one : (identity 1 : DenseMatrix κ) = square 1 [1] := by
  refine ofFn_congr fun r hr c hc => ?_
  obtain rfl : r = 0 := Nat.lt_one_iff.mp hr
  obtain rfl : c = 0 := Nat.lt_one_iff.mp hc
  rfl

theorem identity_two : (identity 2 : DenseMatrix κ) = square 2 [1, 0, 0, 1] := by
  refine ofFn_congr fun r hr c hc => ?_
  interval_cases r <;> interval_cases c <;> rfl

/-- Entry by entry, a product of matrices on one qubit is the identity. -/
theorem mul_square_two_eq_identity {a b c d e f g h : κ} (h00 : a * e + b * g = 1)
    (h01 : a * f + b * h = 0) (h10 : c * e + d * g = 0) (h11 : c * f + d * h = 1) :
    (square 2 [a, b, c, d]).mul (square 2 [e, f, g, h]) = identity 2 := by
  rw [mul_square_two, h00, h01, h10, h11, identity_two]

theorem sized_exchange (n a b : Nat) : (exchange n a b : DenseMatrix κ).Sized n := ⟨rfl, rfl⟩

/-- Two basis states that are exchanged twice are where they were. -/
theorem exchange_mul_self {a b : Nat} (ha : a < n) (hb : b < n) :
    (exchange n a b : DenseMatrix κ).mul (exchange n a b) = identity n := by
  refine ((sized_exchange n a b).mul (sized_exchange n a b)).ext (sized_identity n) ?_
  rw [(sized_exchange n a b).toMatrix_mul (sized_exchange n a b), toMatrix_identity]
  ext r c
  have hlt : Equiv.swap a b r < n := by
    rw [Equiv.swap_apply_def]
    split_ifs
    · exact hb
    · exact ha
    · exact r.isLt
  simp only [Matrix.mul_apply, Dense.exchange_apply, ite_mul, one_mul, zero_mul]
  rw [Finset.sum_eq_single ⟨Equiv.swap a b r, hlt⟩, if_pos rfl, Equiv.swap_apply_self,
    Matrix.one_apply]
  · exact if_congr ⟨fun h => (Fin.ext h).symm, fun h => congrArg Fin.val h.symm⟩ rfl rfl
  · intro k _ hk
    exact if_neg fun h => hk (Fin.ext h)
  · exact fun h => absurd (Finset.mem_univ _) h

theorem diagonal_mul_self {d : Nat → κ} (hd : ∀ r < n, d r * d r = 1) :
    (ofFn n n fun r c => if r = c then d r else 0).mul (ofFn n n fun r c => if r = c then d r else 0) =
      identity n := by
  have hsized : (ofFn n n fun r c => if r = c then d r else 0).Sized n := ⟨rfl, rfl⟩
  have hdiagonal : (ofFn n n fun r c => if r = c then d r else 0).toMatrix n =
      Matrix.diagonal fun r : Fin n => d r := by
    rw [toMatrix_ofFn]
    ext r c
    simp only [Matrix.of_apply, Matrix.diagonal_apply, Fin.ext_iff]
  apply (hsized.mul hsized).ext (sized_identity n)
  rw [hsized.toMatrix_mul hsized, hdiagonal, Matrix.diagonal_mul_diagonal, toMatrix_identity,
    ← Matrix.diagonal_one]
  exact congrArg Matrix.diagonal (funext fun r => hd r r.isLt)

end DenseMatrix

/-! ## Entries of standard gates -/

namespace Rotation

theorem imaginary_mul_self : (imaginary ℝ : ℂ) * imaginary ℝ = -1 := Complex.I_mul_I

theorem halfRoot_squares : (halfRoot ℝ : ℂ) * halfRoot ℝ + halfRoot ℝ * halfRoot ℝ = 1 := by
  have hroot : (√2)⁻¹ * (√2)⁻¹ + (√2)⁻¹ * (√2)⁻¹ = (1 : ℝ) := by
    rw [← mul_inv, Real.mul_self_sqrt zero_le_two]
    norm_num
  change (((√2)⁻¹ : ℝ) : ℂ) * ((√2)⁻¹ : ℝ) + ((√2)⁻¹ : ℝ) * ((√2)⁻¹ : ℝ) = 1
  exact_mod_cast hroot

/-- A phase and the phase of the angle turned round cancel. -/
theorem exp_mul_exp_neg (z : ℂ) : Complex.exp (-z * Complex.I) * Complex.exp (z * Complex.I) = 1 := by
  rw [← Complex.exp_add, neg_mul, neg_add_cancel, Complex.exp_zero]

theorem eighthBack_mul_eighth : (eighthBack ℝ : ℂ) * eighth ℝ = 1 := exp_mul_exp_neg _

theorem phase_neg_mul_phase (t : ℝ) : (phase (-t) : ℂ) * phase t = 1 := by
  have hneg : (phase (-t) : ℂ) = Complex.exp (-(t : ℂ) * Complex.I) := by
    rw [← Complex.ofReal_neg]
    rfl
  rw [hneg]
  exact exp_mul_exp_neg _

theorem halfPhaseBack_mul_halfPhase (t : ℝ) : (halfPhaseBack t : ℂ) * halfPhase t = 1 :=
  exp_mul_exp_neg _

theorem halfCos_halfSin_squares (t : ℝ) :
    (halfCos t : ℂ) * halfCos t + halfSin t * halfSin t = 1 := by
  have hsum := Real.cos_sq_add_sin_sq (t / 2)
  rw [pow_two, pow_two] at hsum
  change ((Real.cos (t / 2) : ℝ) : ℂ) * (Real.cos (t / 2) : ℝ) +
    (Real.sin (t / 2) : ℝ) * (Real.sin (t / 2) : ℝ) = 1
  exact_mod_cast hsum

end Rotation

namespace StandardGate

/-! A turn about an axis and the turn back about it cancel. -/

section
variable {a : ℝ} {m n : DenseMatrix ℂ}

theorem rx_neg_mul_rx (hm : (rx a).matrix? = some m) (hn : (rx (-a)).matrix? = some n) :
    n.mul m = .identity 2 := by
  have hsquares := Rotation.halfCos_halfSin_squares a
  have hsquare := Rotation.imaginary_mul_self
  cases hm
  cases hn
  simp only [Rotation.halfSinTurned_eq, Rotation.halfCos_neg, Rotation.halfSin_neg]
  apply DenseMatrix.mul_square_two_eq_identity
  · linear_combination hsquares - Rotation.halfSin a * Rotation.halfSin a * hsquare
  · ring
  · ring
  · linear_combination hsquares - Rotation.halfSin a * Rotation.halfSin a * hsquare

theorem ry_neg_mul_ry (hm : (ry a).matrix? = some m) (hn : (ry (-a)).matrix? = some n) :
    n.mul m = .identity 2 := by
  have hsquares := Rotation.halfCos_halfSin_squares a
  cases hm
  cases hn
  simp only [Rotation.halfCos_neg, Rotation.halfSin_neg]
  apply DenseMatrix.mul_square_two_eq_identity
  · linear_combination hsquares
  · ring
  · ring
  · linear_combination hsquares

theorem rz_neg_mul_rz (hm : (rz a).matrix? = some m) (hn : (rz (-a)).matrix? = some n) :
    n.mul m = .identity 2 := by
  have hcancel := Rotation.halfPhaseBack_mul_halfPhase a
  have hforth : (Rotation.halfPhaseBack (-a) : ℂ) = Rotation.halfPhase a := by
    rw [Rotation.halfPhaseBack_eq, neg_neg]
  have hback : (Rotation.halfPhase (-a) : ℂ) = Rotation.halfPhaseBack a :=
    (Rotation.halfPhaseBack_eq a).symm
  cases hm
  cases hn
  rw [hforth, hback]
  apply DenseMatrix.mul_square_two_eq_identity
  · linear_combination hcancel
  · ring
  · ring
  · linear_combination hcancel

end

theorem inverse_mul_matrix {g k : StandardGate ℝ} {m n : DenseMatrix ℂ} (hm : g.matrix? = some m)
    (hk : g.inverse? = some k) (hn : k.matrix? = some n) : n.mul m = .identity (basisSize g.arity) := by
  cases g with
  | reset => cases hm
  | i | x | z =>
    cases hm
    cases hk
    cases hn
    apply DenseMatrix.mul_square_two_eq_identity <;> simp
  | y | s | sdg =>
    have hsquare : (Rotation.imaginary ℝ : ℂ) * Rotation.imaginary ℝ = -1 :=
      Rotation.imaginary_mul_self
    cases hm
    cases hk
    cases hn
    apply DenseMatrix.mul_square_two_eq_identity <;> simp [hsquare]
  | h =>
    have hsquares := Rotation.halfRoot_squares
    cases hm
    cases hk
    cases hn
    apply DenseMatrix.mul_square_two_eq_identity <;> simp [hsquares]
  | t | tdg =>
    have hback := Rotation.eighthBack_mul_eighth
    have hforth : (Rotation.eighth ℝ : ℂ) * Rotation.eighthBack ℝ = 1 := (mul_comm _ _).trans hback
    cases hm
    cases hk
    cases hn
    apply DenseMatrix.mul_square_two_eq_identity <;> simp [hback, hforth]
  | rx a =>
    cases hk
    exact rx_neg_mul_rx hm hn
  | ry a =>
    cases hk
    exact ry_neg_mul_ry hm hn
  | rz a =>
    cases hk
    exact rz_neg_mul_rz hm hn
  | cx | swap | ccx | cswap =>
    cases hm
    cases hk
    cases hn
    exact DenseMatrix.exchange_mul_self (by decide) (by decide)
  | cz =>
    cases hm
    cases hk
    cases hn
    apply DenseMatrix.diagonal_mul_self
    intro r _
    split_ifs <;> simp
  | globalPhase a =>
    cases hm
    cases hk
    cases hn
    rw [DenseMatrix.mul_square_one, Rotation.phase_neg_mul_phase]
    exact DenseMatrix.identity_one.symm

/-- Every standard gate that has a matrix has a unitary one: the matrix of the inverse is its conjugate
transpose, and their product is the identity. -/
theorem unitary_matrix {g : StandardGate ℝ} {m : DenseMatrix ℂ} (hm : g.matrix? = some m) :
    m.Unitary (basisSize g.arity) := by
  obtain ⟨hrows, hcols⟩ := matrix_size hm
  obtain ⟨k, hk, -, hadjoint⟩ := matrix_inverse hm
  exact ⟨⟨hrows, hcols⟩, inverse_mul_matrix hm hk hadjoint⟩

end StandardGate

/-! ## Runs that are undone -/

namespace Dense
variable {κ : Type} [ExactAmplitude κ] {ls : List (Leaf κ)} {qs : List Qubit}

/-- A unitary matrix on as many qubits as it is for, no two the same. -/
structure Leaf.Unitary (l : Leaf κ) : Prop where
  matrix : l.matrix.Unitary (basisSize l.qubits.length)
  nodup : l.qubits.Nodup

theorem Leaf.Unitary.fits {l : Leaf κ} (h : l.Unitary) : l.Fits :=
  ⟨h.matrix.sized.rows, h.matrix.sized.cols, h.nodup⟩

theorem Leaf.Unitary.undone {l : Leaf κ} (h : l.Unitary) (ψ : Finset Qubit → κ) :
    l.adjoint.act (l.act ψ) = ψ := by
  have hproduct := Leaf.act_mul h.nodup h.matrix.sized.adjoint h.matrix.sized ψ
  rw [h.matrix.undone, Leaf.act_identity h.nodup] at hproduct
  exact hproduct.symm

/-- A run of unitary matrices is undone by their conjugate transposes in reverse order: the last one is
undone first. -/
theorem actAll_undone (h : ∀ l ∈ ls, l.Unitary) (ψ : Finset Qubit → κ) :
    actAll (ls.reverse.map Leaf.adjoint) (actAll ls ψ) = ψ := by
  induction ls generalizing ψ with
  | nil => rfl
  | cons l ls ih =>
    have hrest := ih (fun k hk => h k (List.mem_cons_of_mem _ hk)) (l.act ψ)
    rw [List.reverse_cons, List.map_append, actAll_append, actAll_cons, hrest]
    exact (h l List.mem_cons_self).undone ψ

omit [ExactAmplitude κ] in
theorem numberOn_setOn_of_lt (hn : qs.Nodup) {k : Nat} (hk : k < basisSize qs.length) (x : Finset Qubit) :
    numberOn qs (setOn qs k x) = k := by
  rw [numberOn_setOn hn, Nat.mod_eq_of_lt hk]

omit [ExactAmplitude κ] in
theorem setOn_numberOn_empty (hn : qs.Nodup) {x : Finset Qubit} (hx : x ⊆ qs.toFinset) :
    setOn qs (numberOn qs x) ∅ = x := by
  ext q
  by_cases hq : q ∈ qs
  · rw [mem_setOn hn hq, testBit_numberOn hq, decide_eq_true_iff]
  · have hnot : q ∉ x := fun h => hq (List.mem_toFinset.mp (hx h))
    simp [mem_setOn_of_not_mem hq, hnot]

/-- The basis states of some qubits are counted by their numbers. -/
theorem sum_powerset (hn : qs.Nodup) (f : Finset Qubit → κ) :
    ∑ x ∈ qs.toFinset.powerset, f x = ∑ k ∈ Finset.range (basisSize qs.length), f (setOn qs k ∅) := by
  apply Finset.sum_bij' (fun x _ => numberOn qs x) fun k _ => setOn qs k ∅
  · intro x _
    exact Finset.mem_range.mpr (numberOn_lt qs x)
  · intro k _
    exact Finset.mem_powerset.mpr
      (setOn_subset (fun q hq => List.mem_toFinset.mpr hq) (Finset.empty_subset _))
  · intro x hx
    exact setOn_numberOn_empty hn (Finset.mem_powerset.mp hx)
  · intro k hk
    exact numberOn_setOn_of_lt hn (Finset.mem_range.mp hk) ∅
  · intro x hx
    rw [setOn_numberOn_empty hn (Finset.mem_powerset.mp hx)]

/-- What a run of unitary matrices makes of two basis states has the product of these states. -/
theorem sum_conj_actAll (h : ∀ l ∈ ls, l.Unitary) {U : Finset Qubit}
    (hU : ∀ l ∈ ls, ∀ q ∈ l.qubits, q ∈ U) {x y : Finset Qubit} (hy : y ⊆ U) :
    ∑ z ∈ U.powerset, Amplitude.conj (actAll ls (ket x) z) * actAll ls (ket y) z =
      if x = y then 1 else 0 := by
  have hfits : ∀ l ∈ ls, l.Fits := fun l hl => (h l hl).fits
  rw [← sum_actAll_adjoint hfits hU, actAll_undone h]
  simp only [ket, mul_ite, mul_one, mul_zero]
  rw [Finset.sum_ite_eq', if_pos (Finset.mem_powerset.mpr hy)]
  by_cases hxy : x = y
  · rw [if_pos hxy, if_pos hxy.symm, Amplitude.conj_one]
  · rw [if_neg hxy, if_neg (Ne.symm hxy), Amplitude.conj_zero]

/-- The matrix of a run of unitary matrices is unitary, on any qubits that contain those of the run. -/
theorem unitary_amplitude (h : ∀ l ∈ ls, l.Unitary) (hn : qs.Nodup)
    (hqs : ∀ l ∈ ls, ∀ q ∈ l.qubits, q ∈ qs) :
    (DenseMatrix.ofFn (basisSize qs.length) (basisSize qs.length) (amplitude ls qs qs)).Unitary
      (basisSize qs.length) := by
  have hsized : (DenseMatrix.ofFn (basisSize qs.length) (basisSize qs.length)
      (amplitude ls qs qs)).Sized (basisSize qs.length) := ⟨rfl, rfl⟩
  refine ⟨hsized, (hsized.adjoint.mul hsized).ext (DenseMatrix.sized_identity _) ?_⟩
  rw [hsized.adjoint.toMatrix_mul hsized, hsized.toMatrix_adjoint, DenseMatrix.toMatrix_identity,
    DenseMatrix.toMatrix_ofFn]
  ext r c
  have hsum := sum_conj_actAll h (fun l hl q hq => List.mem_toFinset.mpr (hqs l hl q hq))
    (x := setOn qs r ∅) (y := setOn qs c ∅)
    (setOn_subset (fun q hq => List.mem_toFinset.mpr hq) (Finset.empty_subset _))
  rw [sum_powerset hn, Finset.sum_range] at hsum
  rw [Matrix.mul_apply, Matrix.one_apply]
  refine hsum.trans (if_congr ⟨fun heq => ?_, fun heq => ?_⟩ rfl rfl)
  · exact Fin.ext (setOn_injective hn r.isLt c.isLt heq)
  · rw [heq]

/-- A run of unitary matrices and then its reverse has the identity as its matrix. -/
theorem amplitude_undone (h : ∀ l ∈ ls, l.Unitary) (hn : qs.Nodup) :
    DenseMatrix.ofFn (basisSize qs.length) (basisSize qs.length)
      (amplitude (ls ++ ls.reverse.map Leaf.adjoint) qs qs) = .identity (basisSize qs.length) := by
  apply ofFn_amplitude hn (DenseMatrix.sized_identity _)
  intro ψ
  rw [actAll_append, actAll_undone h, Leaf.act_identity hn]

end Dense

/-! ## Circuits of standard gates -/

section
variable {op : Operation (Gate ℝ ℂ)}

/-- A standard gate other than a reset, on as many qubits as it takes, no two the same. -/
structure Operation.Standard (op : Operation (Gate ℝ ℂ)) : Prop where
  gate : ∃ g : StandardGate ℝ, op.gate = .standard g ∧ g ≠ .reset
  made : Operation.make op.gate op.qubits = .ok op

/-- An operation that undoes another one: its gate to the power of minus one, on the same qubits. -/
structure Operation.Undoes (op inv : Operation (Gate ℝ ℂ)) : Prop where
  gate : op.gate.pow (-1) = .ok (some inv.gate)
  made : Operation.make inv.gate op.qubits = .ok inv

theorem StandardGate.power?_neg_one (g : StandardGate ℝ) : g.power? (-1) = g.inverse? := rfl

theorem Operation.Standard.exists_matrix (h : op.Standard) :
    ∃ (g : StandardGate ℝ) (m : DenseMatrix ℂ), op.gate = .standard g ∧ g.matrix? = some m ∧
      op.qubits.length = g.arity ∧ op.qubits.Nodup := by
  obtain ⟨⟨g, hg, hreset⟩, hmade⟩ := h
  obtain ⟨hlength, hn, -⟩ := Operation.make_eq_ok.mp hmade
  obtain ⟨m, hm⟩ := StandardGate.exists_matrix hreset
  rw [hg] at hlength
  exact ⟨g, m, hg, hm, hlength, hn⟩

/-- The operation in the place of a standard one undoes it. -/
theorem Operation.Standard.undoes (h : op.Standard) : op.Undoes op.turned := by
  obtain ⟨g, m, hg, hm, hlength, hn⟩ := h.exists_matrix
  obtain ⟨k, hk, harity, -⟩ := StandardGate.matrix_inverse hm
  have hturned : op.turned.gate = .standard k := by
    rw [Operation.turned, Gate.turned, hg, Gate.inverse, hk]
    rfl
  constructor
  · rw [hturned, hg, Gate.pow, StandardGate.power?_neg_one, hk]
    rfl
  · rw [Operation.make_eq_ok]
    refine ⟨?_, hn, rfl⟩
    rw [hturned, hlength]
    exact harity.symm

/-- Dense evaluation applies a unitary matrix for it. -/
theorem Operation.Standard.direct (h : op.Standard) :
    Dense.Direct Gate.meaning Gate.ownMatrix op ∧ (Dense.leafBy Gate.ownMatrix op).Unitary := by
  obtain ⟨g, m, hg, hm, hlength, hn⟩ := h.exists_matrix
  have hunitary : op.gate.unitary = .ok (some m) := by
    rw [hg]
    exact congrArg Except.ok hm
  have hmatrix : op.gate.ownMatrix = m := Gate.ownMatrix_eq hunitary
  have hleaf : (Dense.leafBy Gate.ownMatrix op).Unitary := by
    refine ⟨?_, hn⟩
    change op.gate.ownMatrix.Unitary (basisSize op.qubits.length)
    rw [hmatrix, hlength]
    exact StandardGate.unitary_matrix hm
  refine ⟨⟨?_, hleaf.fits⟩, hleaf⟩
  rw [hmatrix]
  exact hunitary

/-- It applies the conjugate transpose for the operation that undoes it. -/
theorem Operation.Standard.direct_turned (h : op.Standard) :
    Dense.Direct Gate.meaning Gate.ownMatrix op.turned ∧
      Dense.leafBy Gate.ownMatrix op.turned = (Dense.leafBy Gate.ownMatrix op).adjoint := by
  obtain ⟨g, m, hg, hm, hlength, hn⟩ := h.exists_matrix
  have hreversible : op.gate.Reversible := by
    rw [hg]
    exact Gate.Reversible.standard hm
  obtain ⟨hdirect, hmatrix⟩ := hreversible.direct_turned (by rw [hlength, hg]; rfl) hn
  exact ⟨hdirect, congrArg (fun m => (⟨m, op.qubits⟩ : Dense.Leaf ℂ)) hmatrix⟩

end

namespace Circuit
variable {c : Circuit (Gate ℝ ℂ)} {qs : List Qubit}

/-- On qubits that contain those of operations, there are no others to evaluate. -/
theorem width_le {ops : List (Operation (Gate ℝ ℂ))} (hqs : ∀ op ∈ ops, ∀ q ∈ op.qubits, q ∈ qs) :
    (qs ++ qs ++ ops.flatMap (·.qubits)).toFinset.card ≤ qs.length := by
  have hsubset : (qs ++ qs ++ ops.flatMap (·.qubits)).toFinset ⊆ qs.toFinset := by
    intro q hq
    simp only [List.mem_toFinset, List.mem_append, List.mem_flatMap, or_self] at hq ⊢
    obtain hq | ⟨op, hop, hq⟩ := hq
    · exact hq
    · exact hqs op hop q hq
  exact (Finset.card_le_card hsubset).trans (List.toFinset_card_le qs)

/-- The matrices of a circuit and of what undoes it. -/
theorem leaves_undone (hc : ∀ op ∈ c.operations, op.Standard) :
    (c.extend (c.operations.reverse.map Operation.turned)).operations.map
        (Dense.leafBy Gate.ownMatrix) =
      c.operations.map (Dense.leafBy Gate.ownMatrix) ++
        (c.operations.map (Dense.leafBy Gate.ownMatrix)).reverse.map Dense.Leaf.adjoint := by
  have hturned : ∀ op ∈ c.operations.reverse, Dense.leafBy Gate.ownMatrix op.turned =
      (Dense.leafBy Gate.ownMatrix op).adjoint := by
    intro op hop
    exact (hc op (List.mem_reverse.mp hop)).direct_turned.2
  rw [extend, List.map_append, ← List.map_reverse, List.map_map, List.map_map]
  exact congrArg _ (List.map_congr_left hturned)

/-- On any qubits that contain its own, a circuit of standard gates other than resets has a unitary
matrix. Followed by the powers of minus one of its gates in reverse order it has the identity. -/
theorem unitary_undone (hc : ∀ op ∈ c.operations, op.Standard) (hn : qs.Nodup)
    (hlength : qs.length ≤ maxDenseQubits) (hqs : ∀ op ∈ c.operations, ∀ q ∈ op.qubits, q ∈ qs) :
    (∃ U, c.unitaryBetween qs qs = .ok U ∧ U.adjoint.mul U = .identity (basisSize qs.length)) ∧
    ∃ inverses, List.Forall₂ Operation.Undoes c.operations.reverse inverses ∧
      (c.extend inverses).unitaryBetween qs qs = .ok (.identity (basisSize qs.length)) := by
  have hdirect : ∀ op ∈ c.operations, Dense.Direct Gate.meaning Gate.ownMatrix op :=
    fun op hop => (hc op hop).direct.1
  have hleaf : ∀ l ∈ c.operations.map (Dense.leafBy Gate.ownMatrix), l.Unitary := by
    intro l hl
    obtain ⟨op, hop, rfl⟩ := List.mem_map.mp hl
    exact (hc op hop).direct.2
  constructor
  · have hinside : ∀ l ∈ c.operations.map (Dense.leafBy Gate.ownMatrix), ∀ q ∈ l.qubits, q ∈ qs := by
      intro l hl q hq
      obtain ⟨op, hop, rfl⟩ := List.mem_map.mp hl
      exact hqs op hop q hq
    have hmatrix := Dense.between_eq_amplitudes hdirect hn hn ((width_le hqs).trans hlength)
    exact ⟨_, hmatrix, (Dense.unitary_amplitude hleaf hn hinside).undone⟩
  · refine ⟨c.operations.reverse.map Operation.turned, ?_, ?_⟩
    · rw [List.forall₂_map_right_iff, List.forall₂_same]
      intro op hop
      exact (hc op (List.mem_reverse.mp hop)).undoes
    · have hall : ∀ op ∈ (c.extend (c.operations.reverse.map Operation.turned)).operations,
          Dense.Direct Gate.meaning Gate.ownMatrix op ∧ ∀ q ∈ op.qubits, q ∈ qs := by
        intro op hop
        rcases List.mem_append.mp hop with hop | hop
        · exact ⟨hdirect op hop, hqs op hop⟩
        · obtain ⟨op, hmem, rfl⟩ := List.mem_map.mp hop
          have hmem := List.mem_reverse.mp hmem
          exact ⟨(hc op hmem).direct_turned.1, hqs op hmem⟩
      have hmatrix := Dense.between_eq_amplitudes (fun op hop => (hall op hop).1) hn hn
        ((width_le fun op hop => (hall op hop).2).trans hlength)
      rw [leaves_undone hc, Dense.amplitude_undone hleaf hn] at hmatrix
      exact hmatrix

/-- Two qubits are entangled and one of them is rotated, beside a qubit that nothing acts on. -/
theorem unitary_undone_entangled :
    let c : Circuit (Gate ℝ ℂ) := ⟨[⟨.standard .h, [.named "a"]⟩, ⟨.standard .cx, [.named "a", .named "b"]⟩,
      ⟨.standard (.rx (1 / 2)), [.named "b"]⟩]⟩
    let qs := [Qubit.named "c", .named "b", .named "a"]
    (∃ U, c.unitaryBetween qs qs = .ok U ∧ U.adjoint.mul U = .identity 8) ∧
    ∃ inverses, List.Forall₂ Operation.Undoes c.operations.reverse inverses ∧
      (c.extend inverses).unitaryBetween qs qs = .ok (.identity 8) := by
  intro c qs
  have hstandard : ∀ op ∈ c.operations, op.Standard := by
    intro op hop
    obtain rfl | rfl | rfl : op = ⟨.standard .h, [.named "a"]⟩ ∨
        op = ⟨.standard .cx, [.named "a", .named "b"]⟩ ∨
        op = ⟨.standard (.rx (1 / 2)), [.named "b"]⟩ := by simpa [c] using hop
    · exact ⟨⟨.h, rfl, by simp⟩, Operation.make_eq_ok.mpr ⟨rfl, by decide, rfl⟩⟩
    · exact ⟨⟨.cx, rfl, by simp⟩, Operation.make_eq_ok.mpr ⟨rfl, by decide, rfl⟩⟩
    · exact ⟨⟨.rx (1 / 2), rfl, by simp⟩, Operation.make_eq_ok.mpr ⟨rfl, by decide, rfl⟩⟩
  exact unitary_undone hstandard (by decide) (by decide) (by simp [c, qs])

end Circuit
end BloqCircuit
