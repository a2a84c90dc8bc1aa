import Mathlib.Data.Nat.Log
import Mathlib.Tactic.Positivity
import BloqCircuit.Scalar.Double
/-! Numerals are read as finite doubles. Products are checked for infinity; quotients are not, but
what is divided is below `2 ^ 64` and gets no larger. Sizes are followed in the exponent that stands
in the bits of a double. -/
namespace BloqCircuit.Double
open Float.Model Float.Model.UnpackedFloat

/-! ## Binary digits -/

theorem log2_mono {m n : Nat} (h : m ≤ n) : m.log2 ≤ n.log2 := by
  rw [Nat.log2_eq_log_two, Nat.log2_eq_log_two]
  exact Nat.log_mono_right h

theorem log2_div_two_pow (n k : Nat) : (n / 2 ^ k).log2 = n.log2 - k := by
  rw [Nat.log2_eq_log_two, Nat.log2_eq_log_two, Nat.log_div_base_pow]

theorem log2_shiftLeft {n : Nat} (h : 0 < n) (k : Nat) : (n <<< k).log2 = n.log2 + k := by
  induction k with
  | zero => rfl
  | succ k ih =>
    have : n <<< k ≠ 0 := (Nat.shiftLeft_pos_iff.mpr h).ne'
    rw [Nat.shiftLeft_succ, Nat.log2_two_mul this, ih, Nat.add_assoc]

theorem log2_fraction (b : BitVec 52) : b.toNat.log2 < 52 := by
  by_cases h : b.toNat = 0
  · rw [h]
    decide
  · exact (Nat.log2_lt h).mpr b.isLt

theorem toNat_hidden (b : BitVec 52) : (1#1 ++ b).toNat = 2 ^ 52 + b.toNat := by
  have hone : (1#1).toNat * 2 ^ 52 = 2 ^ 52 * 1 := rfl
  rw [BitVec.toNat_append, Nat.shiftLeft_eq, hone, ← Nat.two_pow_add_eq_or_of_lt b.isLt,
    Nat.mul_one]

theorem log2_hidden (b : BitVec 52) : (1#1 ++ b).toNat.log2 = 52 := by
  have hb := b.isLt
  rw [toNat_hidden]
  exact (Nat.log2_eq_iff (by omega)).mpr ⟨by omega, by omega⟩

/-! ## Results of arithmetic -/

/-- The double of a rounded result. -/
def ofUnpacked (u : UnpackedFloat) : Float := ⟨Float.Model.pack u⟩

theorem mul_eq (x y : Float) :
    x * y = ofUnpacked (UnpackedFloat.mul .binary64 x.toModel.unpack y.toModel.unpack) := rfl

theorem mul_finite {x y : Float} {s₁ s₂ : Sign} {m₁ m₂ : Nat} {e₁ e₂ : Int} {h₁ : 0 < m₁}
    {h₂ : 0 < m₂} (hx : x.toModel.unpack = .finite s₁ m₁ e₁ h₁)
    (hy : y.toModel.unpack = .finite s₂ m₂ e₂ h₂) :
    x * y = ofUnpacked (roundWithAccuracy .binary64 (s₁ * s₂) (m₁ * m₂) (e₁ + e₂) .exact) := by
  rw [mul_eq, hx, hy]
  rfl

theorem div_eq (x y : Float) :
    x / y = ofUnpacked (UnpackedFloat.div .binary64 x.toModel.unpack y.toModel.unpack) := rfl

theorem div_finite {x y : Float} {s₁ s₂ : Sign} {m₁ m₂ : Nat} {e₁ e₂ : Int} {h₁ : 0 < m₁}
    {h₂ : 0 < m₂} (hx : x.toModel.unpack = .finite s₁ m₁ e₁ h₁)
    (hy : y.toModel.unpack = .finite s₂ m₂ e₂ h₂) :
    x / y = ofUnpacked (roundWithAccuracy .binary64 (s₁ / s₂) (divCore .binary64 m₁ e₁ m₂ e₂).1
      (divCore .binary64 m₁ e₁ m₂ e₂).2.1 (divCore .binary64 m₁ e₁ m₂ e₂).2.2) := by
  rw [div_eq, hx, hy]
  rfl

theorem neg_eq (x : Float) : -x = ofUnpacked x.toModel.unpack.neg := rfl

theorem toFloat_eq (n : UInt64) : n.toFloat = ofUnpacked (.ofNat .binary64 n.toNat) := rfl

/-! ## The exponent in the bits -/

/-- The exponent as it stands in the bits: zero for the smallest numbers, and 2047 for infinities and
for what is no number. -/
def exponentField (x : Float) : Nat := (@unpackExponent .binary64 x.toModel.toBits.toBitVec).toNat

theorem exponentField_lt (x : Float) : exponentField x < 2048 := BitVec.isLt _

theorem unpackExponent_eq_iff {x : Float} :
    @unpackExponent .binary64 x.toModel.toBits.toBitVec = -1#11 ↔ exponentField x = 2047 := by
  rw [← BitVec.toNat_inj]
  rfl

/-- What the bits of a finite double say. -/
theorem unpack_cases {x : Float} (h : exponentField x < 2047) :
    (∃ s, x.toModel.unpack = .zero s ∧ exponentField x = 0) ∨
    ∃ s m e hm, x.toModel.unpack = .finite s m e hm ∧ e < 972 ∧
      totalExponent m e ≤ max (exponentField x) 1 - 1022 ∧
      (0 < exponentField x → m.log2 = 52 ∧ totalExponent m e = exponentField x - 1022) := by
  have hne : ¬@unpackExponent .binary64 x.toModel.toBits.toBitVec = -1#11 := by
    rw [unpackExponent_eq_iff]
    omega
  have hfield : (@unpackExponent .binary64 x.toModel.toBits.toBitVec).toNat = exponentField x := rfl
  have hbias : Format.binary64.exponentBias = 1023 := rfl
  have hbits : Format.binary64.mantissaBitsWithoutImplicit = 52 := rfl
  delta Float.Model.unpack UnpackedFloat.unpack
  dsimp only
  rw [if_neg hne, hfield, hbias]
  by_cases hexp : @unpackExponent .binary64 x.toModel.toBits.toBitVec = 0#11
  · have hzero : exponentField x = 0 := by
      rw [← hfield, hexp]
      rfl
    rw [if_pos hexp]
    by_cases hmant : @unpackMantissa .binary64 x.toModel.toBits.toBitVec = 0#52
    · rw [dif_pos hmant]
      exact .inl ⟨_, rfl, hzero⟩
    · have hm := Nat.pos_of_ne_zero fun h0 => hmant (BitVec.eq_of_toNat_eq h0)
      have hlog : (@unpackMantissa .binary64 x.toModel.toBits.toBitVec).toNat.log2 < 52 :=
        log2_fraction _
      rw [dif_neg hmant]
      refine .inr ⟨_, _, _, hm, rfl, by omega, ?_, by omega⟩
      rw [totalExponent, hzero]
      omega
  · have hpos : exponentField x ≠ 0 := fun h0 => hexp (BitVec.eq_of_toNat_eq (hfield.trans h0))
    have hlog := log2_hidden (@unpackMantissa .binary64 x.toModel.toBits.toBitVec)
    rw [if_neg hexp]
    refine .inr ⟨_, _, _, _, rfl, by omega, ?_, fun _ => ⟨hlog, ?_⟩⟩ <;>
    · rw [totalExponent, hlog]
      omega

theorem isFinite_iff {x : Float} : x.isFinite = true ↔ exponentField x < 2047 := by
  change x.toModel.unpack.isFinite = true ↔ _
  by_cases h : exponentField x < 2047
  · obtain ⟨s, hunpack, -⟩ | ⟨s, m, e, hm, hunpack, -⟩ := unpack_cases h <;> rw [hunpack] <;>
    exact iff_of_true rfl h
  · have hexp : @unpackExponent .binary64 x.toModel.toBits.toBitVec = -1#11 := by
      have := exponentField_lt x
      rw [unpackExponent_eq_iff]
      omega
    refine iff_of_false ?_ h
    delta Float.Model.unpack UnpackedFloat.unpack
    dsimp only
    rw [if_pos hexp]
    split <;> exact Bool.false_ne_true

theorem exponentField_zero (s : Sign) : exponentField (ofUnpacked (.zero s)) = 0 := by
  cases s <;> rfl

theorem exponentField_finite {s : Sign} {m : Nat} {e : Int} {hm : 0 < m} (he : e < 972) :
    exponentField (ofUnpacked (.finite s m e hm)) =
      if m.log2 = 52 then (e + 1075).toNat else 0 := by
  have hbias : Format.binary64.exponentBias = 1023 := rfl
  have hbits : Format.binary64.mantissaBits = 53 := rfl
  change (@unpackExponent .binary64 (UnpackedFloat.pack .binary64 (.finite s m e hm))).toNat = _
  delta UnpackedFloat.pack
  dsimp only
  rw [hbias, hbits, if_neg (by omega)]
  by_cases hlog : m.log2 = 52
  · rw [if_pos (congrArg (· + 1) hlog), if_pos hlog, unpackExponent_packComponents,
      BitVec.toNat_ofNat]
    exact (Nat.mod_eq_of_lt (by omega)).trans (by omega)
  · rw [if_neg (fun h => hlog (Nat.succ.inj h)), if_neg hlog, unpackExponent_packComponents]
    rfl

theorem isFinite_zero (s : Sign) : (ofUnpacked (.zero s)).isFinite = true := by
  cases s <;> rfl

theorem isFinite_finite {s : Sign} {m : Nat} {e : Int} {hm : 0 < m} (he : e < 972) :
    (ofUnpacked (.finite s m e hm)).isFinite = true := by
  rw [isFinite_iff, exponentField_finite he]
  split <;> omega

/-- A number that is too large is infinite. -/
theorem isInf_finite {s : Sign} {m : Nat} {e : Int} {hm : 0 < m} (he : 972 ≤ e) :
    (ofUnpacked (.finite s m e hm)).isInf = true := by
  have hbias : Format.binary64.exponentBias = 1023 := rfl
  change (UnpackedFloat.unpack .binary64 (UnpackedFloat.pack .binary64 (.finite s m e hm))).isInf = _
  delta UnpackedFloat.pack
  dsimp only
  rw [hbias, if_pos (by omega)]
  cases s <;> rfl

/-! ## Rounding -/

theorem mantissa_shiftRight (em : ExtendedMantissa) (k : Nat) :
    (em >>> k).mantissa = em.mantissa / 2 ^ k := by
  induction k with
  | zero => exact (Nat.div_one _).symm
  | succ k ih =>
    change (em >>> k).mantissa / 2 = _
    rw [ih, Nat.div_div_eq_div_mul, Nat.pow_succ]

theorem roundedMantissa_bounds (em : ExtendedMantissa) :
    em.mantissa ≤ em.roundedMantissa ∧ em.roundedMantissa ≤ em.mantissa + 1 := by
  obtain ⟨m, round, sticky⟩ := em
  cases round <;> cases sticky <;>
    simp [ExtendedMantissa.roundedMantissa, ExtendedMantissa.accuracy, Accuracy.roundToNearestEven]
  omega

theorem log2_roundedMantissa (em : ExtendedMantissa) :
    em.mantissa.log2 ≤ em.roundedMantissa.log2 ∧
    em.roundedMantissa.log2 ≤ em.mantissa.log2 + 1 := by
  obtain ⟨hlow, hhigh⟩ := roundedMantissa_bounds em
  refine ⟨log2_mono hlow, (log2_mono hhigh).trans ?_⟩
  rw [← Nat.lt_succ_iff, Nat.log2_lt (by omega)]
  calc em.mantissa + 1 ≤ 2 ^ (em.mantissa.log2 + 1) := Nat.lt_log2_self
    _ < 2 ^ (em.mantissa.log2 + 1 + 1) := Nat.pow_lt_pow_succ (by decide)

/-- Digits are dropped until 53 are left, or until the last is worth `2 ^ -1074`. -/
theorem shiftToTargetExponent_spec (m : Nat) (e : Int) (a : Accuracy) :
    (shiftToTargetExponent .binary64 m e a).2 = max e (max (totalExponent m e - 53) (-1074)) ∧
    (shiftToTargetExponent .binary64 m e a).1.mantissa.log2 =
      m.log2 - (max (totalExponent m e - 53) (-1074) - e).toNat := by
  have htarget : Format.binary64.targetExponent (totalExponent m e) =
    max (totalExponent m e - 53) (-1074) := rfl
  have hm : (ExtendedMantissa.ofMantissaAndAccuracy m a).mantissa = m := by
    cases a with
    | exact => rfl
    | inexact order => cases order <;> rfl
  rw [shiftToTargetExponent, shiftToExponent, htarget]
  dsimp only
  rw [mantissa_shiftRight, hm, log2_div_two_pow]
  omega

/-- A rounded number is zero, or its exponent is that of its size. If it has digits to spare, 53 of
them are left. -/
theorem round_cases (s : Sign) (m : Nat) (e : Int) (a : Accuracy) :
    (roundWithAccuracy .binary64 s m e a = .zero s ∧
      (m.log2 < 52 ∨ totalExponent m e ≤ -1022)) ∨
    ∃ m' e' hm, roundWithAccuracy .binary64 s m e a = .finite s m' e' hm ∧
      e' ≤ max (max e (-1074)) (totalExponent m e - 52) ∧
      (52 ≤ m.log2 → -1022 < totalExponent m e → m'.log2 = 52 ∧ totalExponent m e - 53 ≤ e') := by
  obtain ⟨hexp, hlog⟩ := shiftToTargetExponent_spec m e a
  rw [roundWithAccuracy]
  generalize shiftToTargetExponent .binary64 m e a = first at hexp hlog
  obtain ⟨em, e₁⟩ := first
  dsimp only at hexp hlog ⊢
  -- rounding may carry into a new digit, which the second shift drops
  obtain ⟨hexp', hlog'⟩ := shiftToTargetExponent_spec em.roundedMantissa e₁ .exact
  obtain ⟨hlow, hhigh⟩ := log2_roundedMantissa em
  by_cases hzero : (shiftToTargetExponent .binary64 em.roundedMantissa e₁ .exact).1.mantissa = 0
  · refine .inl ⟨dif_pos hzero, ?_⟩
    rw [hzero, Nat.log2_zero] at hlog'
    simp only [totalExponent] at *
    omega
  · refine .inr ⟨_, _, Nat.pos_of_ne_zero hzero, dif_neg hzero, ?_, fun _ _ => ⟨?_, ?_⟩⟩
    · rw [hexp']
      simp only [totalExponent] at *
      omega
    · rw [hlog']
      simp only [totalExponent] at *
      omega
    · rw [hexp']
      simp only [totalExponent] at *
      omega

theorem exponentField_round_le {s : Sign} {m : Nat} {e : Int} {a : Accuracy} {n : Nat}
    (hn : n < 2047) (hpos : 0 < n) (he : e + 1075 ≤ n) (ht : totalExponent m e + 1023 ≤ n) :
    exponentField (ofUnpacked (roundWithAccuracy .binary64 s m e a)) ≤ n := by
  obtain ⟨hzero, -⟩ | ⟨m', e', hm', hfinite, he', -⟩ := round_cases s m e a
  · rw [hzero, exponentField_zero]
    exact Nat.zero_le _
  · rw [hfinite, exponentField_finite (by omega)]
    split <;> omega

theorem le_exponentField_round {s : Sign} {m : Nat} {e : Int} {a : Accuracy} (hm : 52 ≤ m.log2)
    (hlow : -1022 < totalExponent m e) (hhigh : totalExponent m e < 1024) (he : e < 972) :
    totalExponent m e + 1022 ≤ exponentField (ofUnpacked (roundWithAccuracy .binary64 s m e a)) := by
  obtain ⟨-, hsmall⟩ | ⟨m', e', hm', hfinite, hle, hdigits⟩ := round_cases s m e a
  · omega
  · obtain ⟨hlog, hge⟩ := hdigits hm hlow
    rw [hfinite, exponentField_finite (by omega), if_pos hlog]
    omega

/-! ## Products and quotients -/

theorem isFinite_neg {x : Float} (h : x.isFinite = true) : (-x).isFinite = true := by
  rw [neg_eq]
  obtain ⟨s, hunpack, -⟩ | ⟨s, m, e, hm, hunpack, he, -⟩ := unpack_cases (isFinite_iff.mp h)
  · rw [hunpack]
    exact isFinite_zero (-s)
  · rw [hunpack]
    exact isFinite_finite he

/-- A product of finite numbers is a number. -/
theorem isFinite_mul {x y : Float} (hx : x.isFinite = true) (hy : y.isFinite = true)
    (h : (x * y).isInf = false) : (x * y).isFinite = true := by
  obtain ⟨s₁, hx', -⟩ | ⟨s₁, m₁, e₁, h₁, hx', -⟩ := unpack_cases (isFinite_iff.mp hx) <;>
  obtain ⟨s₂, hy', -⟩ | ⟨s₂, m₂, e₂, h₂, hy', -⟩ := unpack_cases (isFinite_iff.mp hy)
  · rw [mul_eq, hx', hy']
    exact isFinite_zero (s₁ * s₂)
  · rw [mul_eq, hx', hy']
    exact isFinite_zero (s₁ * s₂)
  · rw [mul_eq, hx', hy']
    exact isFinite_zero (s₁ * s₂)
  · rw [mul_finite hx' hy'] at h ⊢
    obtain ⟨hround, -⟩ | ⟨m, e, hm, hround, -⟩ :=
      round_cases (s₁ * s₂) (m₁ * m₂) (e₁ + e₂) .exact <;> rw [hround] at h ⊢
    · exact isFinite_zero _
    · by_cases he : e < 972
      · exact isFinite_finite he
      · rw [isInf_finite (by omega)] at h
        cases h

/-- The quotient of two mantissas has one digit more than its size asks for, at most. -/
theorem divCore_cases {m₁ m₂ : Nat} (h₁ : 0 < m₁) (h₂ : 0 < m₂) (e₁ e₂ : Int) :
    ∃ q t a, divCore .binary64 m₁ e₁ m₂ e₂ = (q, t, a) ∧
      t ≤ max (totalExponent m₁ e₁ - totalExponent m₂ e₂ - 53) (-1074) ∧
      totalExponent q t ≤ max (totalExponent m₁ e₁ - totalExponent m₂ e₂ + 1) (t + 1) := by
  have htarget : Format.binary64.targetExponent (totalExponent m₁ e₁ - totalExponent m₂ e₂) =
    max (totalExponent m₁ e₁ - totalExponent m₂ e₂ - 53) (-1074) := rfl
  refine ⟨_, _, _, rfl, htarget ▸ min_le_right _ _, ?_⟩
  have ht := min_le_left (e₁ - e₂)
    (Format.binary64.targetExponent (totalExponent m₁ e₁ - totalExponent m₂ e₂))
  generalize min (e₁ - e₂) _ = t at ht ⊢
  have hden : 2 ^ m₂.log2 ≤ m₂ := Nat.log2_self_le h₂.ne'
  have hlog : ((m₁ <<< (e₁ - e₂ - t).toNat) / m₂).log2 ≤
      m₁.log2 + (e₁ - e₂ - t).toNat - m₂.log2 :=
    calc ((m₁ <<< (e₁ - e₂ - t).toNat) / m₂).log2
        ≤ ((m₁ <<< (e₁ - e₂ - t).toNat) / 2 ^ m₂.log2).log2 :=
          log2_mono (Nat.div_le_div_left hden (by positivity))
      _ = m₁.log2 + (e₁ - e₂ - t).toNat - m₂.log2 := by
          rw [log2_div_two_pow, log2_shiftLeft h₁]
  simp only [totalExponent] at *
  omega

/-- Dividing by two or more makes nothing larger. -/
theorem exponentField_div {x y : Float} {n : Nat} (hn : n < 2047) (hpos : 0 < n)
    (hx : exponentField x ≤ n) (hy : 1024 ≤ exponentField y) (hy' : exponentField y < 2047) :
    exponentField (x / y) ≤ n := by
  obtain ⟨s₂, -, hzero⟩ | ⟨s₂, m₂, e₂, h₂, hunpack₂, -, -, ht₂⟩ := unpack_cases hy'
  · omega
  have ht₂ := (ht₂ (by omega)).2
  obtain ⟨s₁, hunpack₁, -⟩ | ⟨s₁, m₁, e₁, h₁, hunpack₁, -, ht₁, -⟩ := unpack_cases (hx.trans_lt hn)
  · rw [div_eq, hunpack₁, hunpack₂]
    exact (exponentField_zero (s₁ / s₂)).trans_le (Nat.zero_le _)
  · obtain ⟨q, t, a, hdiv, he, ht⟩ := divCore_cases h₁ h₂ e₁ e₂
    rw [div_finite hunpack₁ hunpack₂, hdiv]
    change exponentField (ofUnpacked (roundWithAccuracy _ _ q t a)) ≤ n
    exact exponentField_round_le hn hpos (by omega) (by omega)

/-! ## Reading numerals -/

/-- A word is rounded if it has more than 53 digits. -/
theorem toFloat_eq_round {n : UInt64} (h : 0 < n.toNat) : n.toFloat =
    ofUnpacked (roundWithAccuracy .binary64 .positive (n.toNat <<< (52 - n.toNat.log2))
      (-(52 - n.toNat.log2 : Nat)) .exact) := by
  have hlog : n.toNat.log2 < 64 := (Nat.log2_lt h.ne').mpr n.toNat_lt
  have htarget : (0 - Format.binary64.targetExponent (totalExponent n.toNat 0)).toNat =
      52 - n.toNat.log2 := by
    change (0 - max (totalExponent n.toNat 0 - 53) (-1074)).toNat = _
    rw [totalExponent]
    omega
  rw [toFloat_eq, UnpackedFloat.ofNat, UnpackedFloat.ofInt, UnpackedFloat.normalize,
    Int.compare_eq_gt.mpr (by omega)]
  dsimp only
  rw [Int.toNat_natCast, UnpackedFloat.round, decreaseExponent]
  dsimp only
  rw [htarget, zero_sub]

theorem exponentField_toFloat (n : UInt64) : exponentField n.toFloat ≤ 1087 := by
  obtain hzero | hpos := Nat.eq_zero_or_pos n.toNat
  · rw [toFloat_eq, hzero]
    exact Nat.zero_le _
  · have hlog : n.toNat.log2 < 64 := (Nat.log2_lt hpos.ne').mpr n.toNat_lt
    rw [toFloat_eq_round hpos]
    apply exponentField_round_le (by decide) (by decide)
    · omega
    · rw [totalExponent, log2_shiftLeft hpos]
      omega

/-- A power of ten that is not in the table of small ones is rounded. -/
theorem tenPower_eq {k : Nat} (h : 22 < k) (h' : k ≤ 308) : tenPower k =
    ofUnpacked (roundWithAccuracy .binary64 .positive (1 <<< 53 * 10 ^ k) (-53) .exact) := by
  have hnonneg : 0 ≤ Int.ofNat k := Int.natCast_nonneg k
  have hlarge : ¬Int.ofNat k > 2 ^ 11 := fun hk => by
    rw [Int.ofNat_eq_natCast] at hk
    omega
  have hsmall : ¬Int.ofNat k < -(2 ^ 11 + (1 : Nat).log2) := not_lt.mpr
    (le_trans (by decide) hnonneg)
  rw [tenPower, Float.ofScientific, dif_neg (by omega)]
  dsimp only
  rw [if_neg (by decide), Float.Model.ofScientific, UnpackedFloat.ofScientific,
    dif_neg (by decide), if_neg hlarge, if_neg hsmall, if_pos hnonneg]
  rfl

theorem log2_tenPower (k : Nat) : (1 <<< 53 * 10 ^ k).log2 = (10 ^ k).log2 + 53 := by
  rw [← log2_shiftLeft (by positivity), Nat.shiftLeft_eq (10 ^ k), Nat.mul_comm]
  rfl

theorem totalExponent_tenPower (k : Nat) :
    totalExponent (1 <<< 53 * 10 ^ k) (-53) = (10 ^ k).log2 + 1 := by
  rw [totalExponent, log2_tenPower]
  omega

theorem exponentField_tenPower_le {k : Nat} (h : 22 < k) (hk : k < 308) :
    exponentField (tenPower k) ≤ (10 ^ k).log2 + 1024 := by
  have hlog : (10 ^ k).log2 < 1022 := (Nat.log2_lt (by positivity)).mpr <|
    calc 10 ^ k ≤ 10 ^ 307 := Nat.pow_le_pow_right (by decide) (by omega)
      _ < 2 ^ 1022 := by decide +kernel
  have hsize := totalExponent_tenPower k
  rw [tenPower_eq h hk.le]
  apply exponentField_round_le <;> omega

theorem exponentField_tenPower {k : Nat} (hk : 0 < k) (hk' : k ≤ 308) :
    1024 ≤ exponentField (tenPower k) ∧ exponentField (tenPower k) < 2047 := by
  have htable : ∀ i : Fin 23, 0 < i.val →
    1024 ≤ exponentField (tenPower i) ∧ exponentField (tenPower i) < 2047 := by decide +kernel
  -- the greatest one has the greatest exponent there is, so that a carry has to be ruled out
  have hgreatest : 1024 ≤ exponentField (tenPower 308) ∧ exponentField (tenPower 308) < 2047 := by
    decide +kernel
  obtain h | h := Nat.lt_or_ge k 23
  · exact htable ⟨k, h⟩ hk
  obtain rfl | hlt := Nat.eq_or_lt_of_le hk'
  · exact hgreatest
  have hlow : 3 ≤ (10 ^ k).log2 := (Nat.le_log2 (by positivity)).mpr <|
    calc 2 ^ 3 ≤ 10 := by decide
      _ ≤ 10 ^ k := Nat.le_self_pow hk.ne' 10
  have hhigh : (10 ^ k).log2 < 1022 := (Nat.log2_lt (by positivity)).mpr <|
    calc 10 ^ k ≤ 10 ^ 307 := Nat.pow_le_pow_right (by decide) (by omega)
      _ < 2 ^ 1022 := by decide +kernel
  have hsize := totalExponent_tenPower k
  constructor
  · have := @le_exponentField_round .positive _ (-53) .exact
      ((log2_tenPower k).symm ▸ Nat.le_add_left 52 _) (by omega) (by omega) (by decide)
    rw [tenPower_eq h hk']
    omega
  · exact (exponentField_tenPower_le h hlt).trans_lt (by omega)

theorem exponentField_divideOut (fuel : Nat) {x : Float} {k n : Nat} (hn : n < 2047) (hpos : 0 < n)
    (hk : 0 < k) (hx : exponentField x ≤ n) : exponentField (divideOut fuel x k) ≤ n := by
  induction fuel generalizing x k with
  | zero => exact hx
  | succ fuel ih =>
    rw [divideOut]
    split
    · obtain ⟨hy, hy'⟩ := exponentField_tenPower hk ‹_›
      exact exponentField_div hn hpos hx hy hy'
    · split
      · exact hx
      · obtain ⟨hy, hy'⟩ := exponentField_tenPower (k := 308) (by decide) (by decide)
        exact ih (by omega) (exponentField_div hn hpos hx hy hy')

theorem isFinite_of_scaled? {n : Nat} {exponent : Int} {x : Float}
    (h : scaled? n exponent = some x) : x.isFinite = true := by
  have hn := exponentField_toFloat (.ofNat n)
  have hfinite : (UInt64.ofNat n).toFloat.isFinite = true := isFinite_iff.mpr (by omega)
  cases exponent with
  | ofNat k =>
    simp only [scaled?] at h
    split at h
    · split at h <;> cases h
      exact hfinite
    · split at h <;> cases h
      have hpower : (tenPower k).isFinite = true := by
        obtain rfl | hk := Nat.eq_zero_or_pos k
        · decide +kernel
        · exact isFinite_iff.mpr (exponentField_tenPower hk (by omega)).2
      exact isFinite_mul hfinite hpower (eq_false_of_ne_true ‹_›)
  | negSucc k =>
    cases h
    exact isFinite_iff.mpr <|
      (exponentField_divideOut 8 (by decide) (by decide) k.succ_pos hn).trans_lt (by decide)

/-- What a numeral is read as is a finite number. -/
theorem isFinite_of_ofNumeral? {n : Decimal.Numeral} {x : Float} (h : ofNumeral? n = some x) :
    x.isFinite = true := by
  obtain ⟨y, hy, rfl⟩ := Option.map_eq_some_iff.mp h
  have hfinite : y.isFinite = true := by
    rw [magnitude?] at hy
    dsimp only at hy
    split at hy
    · exact isFinite_of_scaled? hy
    · split at hy <;> cases hy
      decide +kernel
  split
  · exact isFinite_neg hfinite
  · exact hfinite

end BloqCircuit.Double
