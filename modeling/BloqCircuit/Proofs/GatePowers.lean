import Mathlib.LinearAlgebra.Matrix.ZPow
import BloqCircuit.Proofs.Inverses
import BloqCircuit.Proofs.Involution
/-! Powers of gates have the powers of their matrices. For standard gates, rotations have them because
their matrices turn sums of angles into products, self-inverse gates because their matrices are their
own odd powers. Wrapped bloqs are repeated, and turned round first for negative exponents. -/
namespace BloqCircuit

/-! ## Integral powers of matrices -/

namespace DenseMatrix
variable {κ : Type} [ExactAmplitude κ] {m : DenseMatrix κ} {d : Nat}

theorem Unitary.toMatrix_adjoint_mul (h : m.Unitary d) : m.adjoint.toMatrix d * m.toMatrix d = 1 := by
  rw [← h.sized.adjoint.toMatrix_mul h.sized, h.undone, toMatrix_identity]

/-- A unitary matrix has an inverse, and its conjugate transpose is the inverse. -/
theorem Unitary.toMatrix_inv (h : m.Unitary d) : (m.toMatrix d)⁻¹ = m.adjoint.toMatrix d :=
  Matrix.inv_eq_left_inv h.toMatrix_adjoint_mul

theorem Unitary.isUnit (h : m.Unitary d) : IsUnit (m.toMatrix d) :=
  IsUnit.of_mul_eq_one_right _ h.toMatrix_adjoint_mul

/-- A matrix that is its own inverse is its own odd powers. -/
theorem zpow_of_odd {M : Matrix (Fin d) (Fin d) κ} (hself : M * M = 1) {n : Int} (hn : n % 2 ≠ 0) :
    M ^ n = M := by
  have hdet : IsUnit M.det := Matrix.isUnit_det_of_left_inverse hself
  have hsquare : M ^ (2 : Int) = 1 := (zpow_ofNat M 2).trans ((pow_two M).trans hself)
  have hhalves : 2 * (n / 2) + 1 = n := by omega
  calc M ^ n = M ^ (2 * (n / 2) + 1) := by rw [hhalves]
    _ = (M ^ (2 : Int)) ^ (n / 2) * M := by rw [Matrix.zpow_add_one hdet, Matrix.zpow_mul M hdet]
    _ = M := by rw [hsquare, Matrix.one_zpow, one_mul]

/-- Entry by entry, a matrix on one qubit is a product. -/
theorem eq_mul_square_two {a b c d e f g h p q r s : κ} (h00 : p = a * e + b * g)
    (h01 : q = a * f + b * h) (h10 : r = c * e + d * g) (h11 : s = c * f + d * h) :
    square 2 [p, q, r, s] = (square 2 [a, b, c, d]).mul (square 2 [e, f, g, h]) := by
  rw [mul_square_two, h00, h01, h10, h11]

/-- Matrices of one angle each, which turn sums of angles into products. -/
structure OneParameter (f : ℝ → DenseMatrix κ) (d : Nat) : Prop where
  sized : ∀ a, (f a).Sized d
  zero : f 0 = .identity d
  add : ∀ a b, f (a + b) = (f a).mul (f b)

/-- The angle taken an integral number of times has the power of the angle's matrix: by induction from
zero in both directions. -/
theorem OneParameter.toMatrix_times {f : ℝ → DenseMatrix κ} (h : OneParameter f d) (a : ℝ) (n : Int) :
    (f (Angle.times a n)).toMatrix d = (f a).toMatrix d ^ n := by
  have hadd : ∀ b c, (f (b + c)).toMatrix d = (f b).toMatrix d * (f c).toMatrix d := by
    intro b c
    rw [h.add, (h.sized b).toMatrix_mul (h.sized c)]
  have hzero : (f 0).toMatrix d = 1 := by rw [h.zero, toMatrix_identity]
  have hback : (f (-a)).toMatrix d * (f a).toMatrix d = 1 := by
    rw [← hadd, neg_add_cancel, hzero]
  have hdet : IsUnit ((f a).toMatrix d).det := Matrix.isUnit_det_of_left_inverse hback
  change (f (n * a)).toMatrix d = _
  induction n using Int.induction_on with
  | zero => rw [Int.cast_zero, zero_mul, hzero, zpow_zero]
  | succ n ih => rw [Int.cast_add, Int.cast_one, add_mul, one_mul, hadd, ih, Matrix.zpow_add_one hdet]
  | pred n ih =>
    rw [Int.cast_sub, Int.cast_one, sub_mul, one_mul, sub_eq_add_neg, hadd, ih,
      Matrix.zpow_sub_one hdet, Matrix.inv_eq_left_inv hback]

end DenseMatrix

/-! ## Rotations -/

namespace Rotation

theorem phase_zero : (phase (0 : ℝ) : ℂ) = 1 := by
  change Complex.exp (((0 : ℝ) : ℂ) * Complex.I) = 1
  simp

theorem phase_add (a b : ℝ) : (phase (a + b) : ℂ) = phase a * phase b := by
  change Complex.exp (((a + b : ℝ) : ℂ) * Complex.I) =
    Complex.exp (a * Complex.I) * Complex.exp (b * Complex.I)
  rw [← Complex.exp_add, Complex.ofReal_add, add_mul]

theorem halfPhase_eq (a : ℝ) : (halfPhase a : ℂ) = phase (a / 2) := by
  change Complex.exp ((a : ℂ) / 2 * Complex.I) = Complex.exp (((a / 2 : ℝ) : ℂ) * Complex.I)
  rw [Complex.ofReal_div, Complex.ofReal_ofNat]

theorem halfPhase_zero : (halfPhase (0 : ℝ) : ℂ) = 1 := by
  rw [halfPhase_eq, zero_div, phase_zero]

theorem halfPhase_add (a b : ℝ) : (halfPhase (a + b) : ℂ) = halfPhase a * halfPhase b := by
  rw [halfPhase_eq, halfPhase_eq, halfPhase_eq, add_div, phase_add]

theorem halfPhaseBack_zero : (halfPhaseBack (0 : ℝ) : ℂ) = 1 := by
  rw [halfPhaseBack_eq, neg_zero, halfPhase_zero]

theorem halfPhaseBack_add (a b : ℝ) :
    (halfPhaseBack (a + b) : ℂ) = halfPhaseBack a * halfPhaseBack b := by
  rw [halfPhaseBack_eq, halfPhaseBack_eq, halfPhaseBack_eq, neg_add, halfPhase_add]

theorem halfCos_zero : (halfCos (0 : ℝ) : ℂ) = 1 := by
  change ((Real.cos (0 / 2) : ℝ) : ℂ) = 1
  simp

theorem halfSin_zero : (halfSin (0 : ℝ) : ℂ) = 0 := by
  change ((Real.sin (0 / 2) : ℝ) : ℂ) = 0
  simp

theorem halfCos_add (a b : ℝ) :
    (halfCos (a + b) : ℂ) = halfCos a * halfCos b - halfSin a * halfSin b := by
  change ((Real.cos ((a + b) / 2) : ℝ) : ℂ) = (Real.cos (a / 2) : ℝ) * (Real.cos (b / 2) : ℝ) -
    (Real.sin (a / 2) : ℝ) * (Real.sin (b / 2) : ℝ)
  rw [add_div, Real.cos_add]
  push_cast
  rfl

theorem halfSin_add (a b : ℝ) :
    (halfSin (a + b) : ℂ) = halfSin a * halfCos b + halfCos a * halfSin b := by
  change ((Real.sin ((a + b) / 2) : ℝ) : ℂ) = (Real.sin (a / 2) : ℝ) * (Real.cos (b / 2) : ℝ) +
    (Real.cos (a / 2) : ℝ) * (Real.sin (b / 2) : ℝ)
  rw [add_div, Real.sin_add]
  push_cast
  rfl

end Rotation

namespace StandardGate

/-- The gates that take an angle. -/
inductive Turning : (ℝ → StandardGate ℝ) → Prop
  | rx : Turning .rx
  | ry : Turning .ry
  | rz : Turning .rz
  | globalPhase : Turning .globalPhase

/-- Their matrices turn sums of angles into products. -/
theorem Turning.oneParameter {f : ℝ → StandardGate ℝ} (h : Turning f) (a : ℝ) :
    ∃ m : ℝ → DenseMatrix ℂ, (∀ b, (f b).matrix? = some (m b)) ∧ (∀ b, (f b).arity = (f a).arity) ∧
      DenseMatrix.OneParameter m (basisSize (f a).arity) := by
  cases h with
  | rx =>
    refine ⟨_, fun _ => rfl, fun _ => rfl, fun _ => ⟨rfl, rfl⟩, ?_, ?_⟩
    · simp only [Rotation.halfSinTurned_eq, Rotation.halfCos_zero, Rotation.halfSin_zero, mul_zero]
      exact DenseMatrix.identity_two.symm
    · intro b c
      have hsquare := Rotation.imaginary_mul_self
      simp only [Rotation.halfSinTurned_eq, Rotation.halfCos_add, Rotation.halfSin_add]
      apply DenseMatrix.eq_mul_square_two
      · linear_combination -Rotation.halfSin b * Rotation.halfSin c * hsquare
      · ring
      · ring
      · linear_combination -Rotation.halfSin b * Rotation.halfSin c * hsquare
  | ry =>
    refine ⟨_, fun _ => rfl, fun _ => rfl, fun _ => ⟨rfl, rfl⟩, ?_, ?_⟩
    · simp only [Rotation.halfCos_zero, Rotation.halfSin_zero, neg_zero]
      exact DenseMatrix.identity_two.symm
    · intro b c
      simp only [Rotation.halfCos_add, Rotation.halfSin_add]
      apply DenseMatrix.eq_mul_square_two <;> ring
  | rz =>
    refine ⟨_, fun _ => rfl, fun _ => rfl, fun _ => ⟨rfl, rfl⟩, ?_, ?_⟩
    · simp only [Rotation.halfPhase_zero, Rotation.halfPhaseBack_zero]
      exact DenseMatrix.identity_two.symm
    · intro b c
      simp only [Rotation.halfPhase_add, Rotation.halfPhaseBack_add]
      apply DenseMatrix.eq_mul_square_two <;> ring
  | globalPhase =>
    refine ⟨_, fun _ => rfl, fun _ => rfl, fun _ => ⟨rfl, rfl⟩, ?_, ?_⟩
    · simp only [Rotation.phase_zero]
      exact DenseMatrix.identity_one.symm
    · intro b c
      simp only [Rotation.phase_add, DenseMatrix.mul_square_one]

/-! ## Powers of gates -/

variable {g k : StandardGate ℝ} {m : DenseMatrix ℂ} {n : Int}

theorem inverse?_of_isSelfInverse (hg : g.isSelfInverse = true) : g.inverse? = some g := by
  cases g <;> first | rfl | cases hg

/-- The matrix of a gate that is listed as its own inverse is its own inverse. -/
theorem toMatrix_mul_self (hg : g.isSelfInverse = true) (hm : g.matrix? = some m) :
    m.toMatrix (basisSize g.arity) * m.toMatrix (basisSize g.arity) = 1 := by
  obtain ⟨k, hk, -, hadjoint⟩ := matrix_inverse hm
  have hsame : g = k := Option.some.inj ((inverse?_of_isSelfInverse hg).symm.trans hk)
  rw [← hsame, hm] at hadjoint
  have hself : m = m.adjoint := Option.some.inj hadjoint
  have hundone := (unitary_matrix hm).toMatrix_adjoint_mul
  rw [← hself] at hundone
  exact hundone

/-- The rules by which a gate has a power: it is the gate itself, its inverse, a multiple of its angle,
or the gate again where an odd power of a self-inverse gate is asked for. -/
inductive PowerRule (g : StandardGate ℝ) (n : Int) : StandardGate ℝ → Prop
  | once (hn : n = 1) : PowerRule g n g
  | inverse (hn : n = -1) {k : StandardGate ℝ} (hk : g.inverse? = some k) : PowerRule g n k
  | turning {f : ℝ → StandardGate ℝ} (hf : Turning f) {a : ℝ} (hg : g = f a) :
    PowerRule g n (f (Angle.times a n))
  | odd (hg : g.isSelfInverse = true) (hn : n % 2 ≠ 0) : PowerRule g n g

theorem powerRule_of_power? (hp : g.power? n = some k) : PowerRule g n k := by
  unfold power? at hp
  by_cases hone : n = 1
  · rw [if_pos hone] at hp
    cases hp
    exact .once hone
  rw [if_neg hone] at hp
  by_cases hback : n = -1
  · rw [if_pos hback] at hp
    exact .inverse hback hp
  rw [if_neg hback] at hp
  cases g with
  | rx a => cases hp; exact .turning .rx rfl
  | ry a => cases hp; exact .turning .ry rfl
  | rz a => cases hp; exact .turning .rz rfl
  | globalPhase a => cases hp; exact .turning .globalPhase rfl
  | _ =>
    obtain ⟨hrule, hsame⟩ := Option.ite_none_right_eq_some.mp hp
    cases hsame
    simp only [Bool.and_eq_true, decide_eq_true_eq] at hrule
    exact .odd hrule.1 hrule.2

/-- Each rule gives the power of the matrix. -/
theorem PowerRule.exists_matrix (h : PowerRule g n k) (hm : g.matrix? = some m) :
    k.arity = g.arity ∧ ∃ l : DenseMatrix ℂ, k.matrix? = some l ∧
      l.toMatrix (basisSize g.arity) = m.toMatrix (basisSize g.arity) ^ n := by
  cases h with
  | once hn => exact ⟨rfl, m, hm, by rw [hn, zpow_one]⟩
  | inverse hn hk =>
    obtain ⟨l, hl, harity, hadjoint⟩ := matrix_inverse hm
    cases hk.symm.trans hl
    refine ⟨harity, m.adjoint, hadjoint, ?_⟩
    rw [hn, Matrix.zpow_neg_one, (unitary_matrix hm).toMatrix_inv]
  | @turning f hf a hg =>
    obtain ⟨family, hfamily, harity, hturns⟩ := hf.oneParameter a
    rw [hg, hfamily a] at hm
    cases hm
    rw [hg]
    exact ⟨harity _, _, hfamily _, hturns.toMatrix_times a n⟩
  | odd hg hn => exact ⟨rfl, m, hm, (DenseMatrix.zpow_of_odd (toMatrix_mul_self hg hm) hn).symm⟩

/-- A reset has no powers but itself. -/
theorem PowerRule.eq_reset (h : PowerRule .reset n k) : k = .reset := by
  cases h with
  | once => rfl
  | inverse _ hk => cases hk
  | turning hf hg => cases hf <;> cases hg
  | odd => rfl

/-- Where a gate has a power, the power acts on as many qubits and has a matrix exactly if the gate has
one. The gate's matrix then has an inverse, and the power's is its power, for negative exponents that
of the inverse. -/
theorem power_matrix (hp : g.power? n = some k) :
    k.arity = g.arity ∧
    ((k.matrix? : Option (DenseMatrix ℂ)).isSome ↔ (g.matrix? : Option (DenseMatrix ℂ)).isSome) ∧
    ∀ m l : DenseMatrix ℂ, g.matrix? = some m → k.matrix? = some l →
      m.Sized (basisSize g.arity) ∧ l.Sized (basisSize g.arity) ∧ IsUnit (m.toMatrix (basisSize g.arity)) ∧
      l.toMatrix (basisSize g.arity) = m.toMatrix (basisSize g.arity) ^ n := by
  have hrule := powerRule_of_power? hp
  by_cases hreset : g = .reset
  · subst hreset
    obtain rfl := hrule.eq_reset
    refine ⟨rfl, Iff.rfl, ?_⟩
    intro m l hm
    cases hm
  · obtain ⟨m, hm⟩ := exists_matrix hreset
    obtain ⟨harity, l, hl, hpower⟩ := hrule.exists_matrix hm
    refine ⟨harity, by rw [hm, hl]; exact Iff.rfl, ?_⟩
    intro m' l' hm' hl'
    cases hm.symm.trans hm'
    cases hl.symm.trans hl'
    have hunitary := unitary_matrix hm
    exact ⟨hunitary.sized, harity ▸ (unitary_matrix hl).sized, hunitary.isUnit, hpower⟩

/-- A rotation is turned back three times. -/
theorem power_matrix_rotation :
    (rx 1 : StandardGate ℝ).power? (-3) = some (rx (-3)) ∧
    ∀ m l : DenseMatrix ℂ, (rx 1 : StandardGate ℝ).matrix? = some m →
      (rx (-3) : StandardGate ℝ).matrix? = some l → m.Sized 2 ∧ l.Sized 2 ∧ IsUnit (m.toMatrix 2) ∧
        l.toMatrix 2 = m.toMatrix 2 ^ (-3 : Int) := by
  have htimes : Angle.times (1 : ℝ) (-3) = -3 := by
    change ((-3 : Int) : ℝ) * 1 = -3
    norm_num
  have hp : (rx 1 : StandardGate ℝ).power? (-3) = some (rx (-3)) := by
    rw [← htimes]
    rfl
  exact ⟨hp, (power_matrix hp).2.2⟩

end StandardGate

/-! ## Powers of wrapped bloqs -/

namespace Composite
variable {β : Type} [BloqKind β] {s : Signature} {c d : Composite β}

theorem signature_of_assemble {instances : List (Instance β)} {connections : List (Connection β)}
    (h : assemble s instances connections = .ok c) : c.signature = s := by
  rw [assemble] at h
  obtain ⟨edges, -, h⟩ := bind_eq_ok.mp h
  dsimp only at h
  split_ifs at h
  cases h
  rfl

theorem signature_of_adjointFrom {turned : List (Instance β)} (h : c.adjointFrom turned = .ok d) :
    d.signature = c.signature.adjoint := by
  rw [adjointFrom] at h
  obtain ⟨connections, -, h⟩ := bind_eq_ok.mp h
  exact signature_of_assemble h

end Composite

namespace Signature

theorem map_name_adjoint (s : Signature) :
    s.adjoint.registers.map (·.name) = s.registers.map (·.name) := by
  rw [adjoint, List.map_map]
  rfl

theorem repeatedName?_congr {s t : Signature}
    (h : s.registers.map (·.name) = t.registers.map (·.name)) :
    s.repeatedName? = none ↔ t.repeatedName? = none := by
  rw [repeatedName?_eq_none, repeatedName?_eq_none, h]

end Signature

namespace Bloq
variable {α κ : Type} [Angle α]

/-- The adjoint of a bloq has registers of the same names in the same order. -/
theorem map_name_adjointOf : (b : Bloq α κ) →
    b.adjointOf.signature.registers.map (·.name) = b.signature.registers.map (·.name)
  | .split t => by rw [adjointOf_split, signature_split, signature_join]; rfl
  | .join t => by rw [adjointOf_join, signature_split, signature_join]; rfl
  | .allocate t => by rw [adjointOf_allocate, signature_allocate, signature_free]; rfl
  | .free t => by rw [adjointOf_free, signature_allocate, signature_free]; rfl
  | .adjoint b => by
    rw [adjointOf_adjoint, signature]
    exact b.signature.map_name_adjoint.symm
  | .power b n => by
    rw [adjointOf_power, signature, signature]
    exact map_name_adjointOf b
  | .ofGate g => by
    -- whatever the inverse is, it has one register like the gate itself
    rw [adjointOf, ownAdjoint?]
    cases g.inverse with
    | error e => exact (ofGate g).signature.map_name_adjoint
    | ok inverse =>
      cases inverse with
      | none => exact (ofGate g).signature.map_name_adjoint
      | some h => rfl
  | .composite c => by
    rw [adjointOf, ownAdjoint?]
    cases hc : Composite.adjointFrom (turnInstances c.instances) c with
    | error e => exact c.signature.map_name_adjoint
    | ok d =>
      have hd : d.signature = c.signature.adjoint := Composite.signature_of_adjointFrom hc
      change d.signature.registers.map (·.name) = c.signature.registers.map (·.name)
      rw [hd, Signature.map_name_adjoint]
  | .declared d => by
    rw [adjointOf, ownAdjoint?]
    exact (declared d).signature.map_name_adjoint

/-- A bloq that acts as a gate has an adjoint that does. -/
theorem asGate_adjointOf {b : Bloq α κ} {g : Gate α κ} (h : b.asGate = .ok g) :
    b.adjointOf.asGate = .ok (.ofBloq b.adjointOf) := by
  have hnames : b.signature.repeatedName? = none := (gate_eq_ok.mp h).1
  exact gate_eq_ok.mpr ⟨(Signature.repeatedName?_congr b.map_name_adjointOf).mpr hnames, rfl⟩

theorem repeated_eq_ok {b : Bloq α κ} (h : b.signature.allThru = true) (n : Nat) :
    b.repeated n = .ok (.power b n) :=
  if_pos h

/-- What the power of a wrapped bloq repeats: the bloq, or for a negative exponent its adjoint. -/
def powerBase (b : Bloq α κ) (n : Int) : Bloq α κ := if 0 < n then b else b.adjointOf

/-- The power of a wrapped bloq wraps what it repeats, as it is or under a power. -/
theorem pow_gives {b : Bloq α κ} {g : Gate α κ} {n : Int} (hg : b.asGate = .ok g) (hn : n ≠ 0)
    (hb : (b.powerBase n).signature.allThru = true) :
    ∃ c : Bloq α κ, g.pow n = .ok (some (.ofBloq c)) ∧
      (n.natAbs = 1 ∧ c = b.powerBase n ∨ c = power (b.powerBase n) n.natAbs) := by
  obtain ⟨hnames, rfl⟩ := gate_eq_ok.mp hg
  rw [Gate.pow, if_neg hn]
  by_cases hone : n = 1
  · subst hone
    exact ⟨b, rfl, .inl ⟨rfl, rfl⟩⟩
  rw [if_neg hone]
  by_cases hback : n = -1
  · subst hback
    refine ⟨b.adjointOf, ?_, .inl ⟨rfl, rfl⟩⟩
    rw [if_pos rfl, Gate.inverse]
    exact congrArg (Except.map some) (asGate_adjointOf hg)
  rw [if_neg hback]
  have hbase : (b.powerBase n).asGate = .ok (.ofBloq (b.powerBase n)) := by
    rw [powerBase]
    split_ifs
    · exact hg
    · exact asGate_adjointOf hg
  have hpower : (power (b.powerBase n) n.natAbs).asGate = .ok (.ofBloq (power (b.powerBase n) n.natAbs)) := by
    refine gate_eq_ok.mpr ⟨?_, rfl⟩
    rw [signature]
    exact (gate_eq_ok.mp hbase).1
  refine ⟨_, bind_eq_ok.mpr ⟨_, repeated_eq_ok hb n.natAbs, ?_⟩, .inr rfl⟩
  exact bind_eq_ok.mpr ⟨_, hpower, rfl⟩

section
variable [ExactAmplitude κ] [Rotation α κ] {b : Bloq α κ} {m : DenseMatrix κ} {d : Nat}

/-- A repeated bloq has the power of the tensor. -/
theorem exists_tensor_power (hm : b.tensor = .ok (some m)) (hd : m.Sized d) (n : Nat) :
    ∃ l : DenseMatrix κ, (power b n).tensor = .ok (some l) ∧ l.Sized d ∧
      l.toMatrix d = m.toMatrix d ^ n :=
  ⟨m.pow n, tensor_power hm n, hd.pow n, hd.toMatrix_pow n⟩

/-- A bloq whose registers all go through can be repeated any number of times, and then has the power
of its tensor. Wrapped as a gate it has all integral powers but the zeroth: they wrap bloqs with the
powers of the tensor, for negative exponents of its conjugate transpose, if the adjoint of the bloq has
that tensor and registers that all go through. -/
theorem tensor_powers (hb : b.signature.allThru = true) (hm : b.tensor = .ok (some m)) (hd : m.Sized d) :
    (∀ n : Nat, b.repeated n = .ok (.power b n) ∧ ∃ l : DenseMatrix κ,
      (power b n).tensor = .ok (some l) ∧ l.Sized d ∧ l.toMatrix d = m.toMatrix d ^ n) ∧
    ∀ (g : Gate α κ) (n : Int), b.asGate = .ok g → n ≠ 0 →
      (n < 0 → b.adjointOf.signature.allThru = true ∧ b.adjointOf.tensor = .ok (some m.adjoint)) →
      ∃ (c : Bloq α κ) (l : DenseMatrix κ), g.pow n = .ok (some (.ofBloq c)) ∧
        c.tensor = .ok (some l) ∧ l.Sized d ∧
        (0 < n → l.toMatrix d = m.toMatrix d ^ n.natAbs) ∧
        (n < 0 → l.toMatrix d = ((m.toMatrix d).transpose.map Amplitude.conj) ^ n.natAbs) := by
  refine ⟨fun n => ⟨repeated_eq_ok hb n, exists_tensor_power hm hd n⟩, ?_⟩
  intro g n hg hn ha
  -- what is repeated has its registers go through, and the matrix that is to be raised
  obtain ⟨k, hthru, hk, hsized, hforth, hback⟩ : ∃ k : DenseMatrix κ,
      (b.powerBase n).signature.allThru = true ∧ (b.powerBase n).tensor = .ok (some k) ∧ k.Sized d ∧
      (0 < n → k.toMatrix d = m.toMatrix d) ∧
      (n < 0 → k.toMatrix d = (m.toMatrix d).transpose.map Amplitude.conj) := by
    by_cases hpos : 0 < n
    · rw [powerBase, if_pos hpos]
      exact ⟨m, hb, hm, hd, fun _ => rfl, fun h => absurd hpos (by omega)⟩
    · rw [powerBase, if_neg hpos]
      obtain ⟨hthru, hadjoint⟩ := ha (by omega)
      exact ⟨m.adjoint, hthru, hadjoint, hd.adjoint, fun h => absurd h hpos, fun _ => hd.toMatrix_adjoint⟩
  obtain ⟨c, hpow, hc⟩ := pow_gives hg hn hthru
  obtain ⟨l, hl, hlsized, hpower⟩ : ∃ l : DenseMatrix κ, c.tensor = .ok (some l) ∧ l.Sized d ∧
      l.toMatrix d = k.toMatrix d ^ n.natAbs := by
    obtain ⟨hone, rfl⟩ | rfl := hc
    · exact ⟨k, hk, hsized, by rw [hone, pow_one]⟩
    · exact exists_tensor_power hk hsized n.natAbs
  refine ⟨c, l, hpow, hl, hlsized, ?_, ?_⟩
  · intro hpos
    rw [hpower, hforth hpos]
  · intro hneg
    rw [hpower, hback hneg]

/-- A phase is repeated three times and turned back five times. -/
theorem tensor_powers_nested :
    ∃ m : DenseMatrix ℂ, (power (ofGate (.standard .t)) 3 : Bloq ℝ ℂ).tensor = .ok (some m) ∧ m.Sized 2 ∧
      ∃ (c : Bloq ℝ ℂ) (l : DenseMatrix ℂ),
        (Gate.ofBloq (power (ofGate (.standard .t)) 3)).pow (-5) = .ok (some (.ofBloq c)) ∧
        c.tensor = .ok (some l) ∧ l.toMatrix 2 = ((m.toMatrix 2).transpose.map Amplitude.conj) ^ 5 := by
  have hb : (power (ofGate (.standard .t)) 3 : Bloq ℝ ℂ).Raised := .power (.gate (by simp)) 3
  have hadjoint := hb.turned
  obtain ⟨m, hm, hsized⟩ := hb.exists_tensor
  have hd : basisSize (power (ofGate (.standard .t)) 3 : Bloq ℝ ℂ).signature.totalBits = 2 := by
    rw [signature, signature_ofGate, totalBits_single]
    rfl
  rw [hd] at hsized
  have hg : (power (ofGate (.standard .t)) 3 : Bloq ℝ ℂ).asGate =
      .ok (.ofBloq (power (ofGate (.standard .t)) 3)) := by
    refine gate_eq_ok.mpr ⟨?_, rfl⟩
    rw [hb.signature_eq]
    rfl
  obtain ⟨c, l, hpow, hl, -, -, hback⟩ := (tensor_powers hb.allThru hm hsized).2 _ (-5) hg (by decide) (by
    intro _
    refine ⟨hadjoint.raised.allThru, ?_⟩
    rw [hadjoint.raised.tensor_eq, hadjoint.matrix, matrix_eq hm])
  exact ⟨m, hm, hsized, c, l, hpow, hl, hback (by decide)⟩

end
end Bloq
end BloqCircuit
