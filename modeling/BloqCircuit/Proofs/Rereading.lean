import BloqCircuit.Proofs.Decimals
import BloqCircuit.Proofs.Doubles
/-! Every finite double is read back from its JSON numeral: what is read may be rounded in several
steps, but even next to the greatest double these do not lead to infinity. Rounding never passes a
double, so that sizes can be compared with doubles all along. -/
namespace BloqCircuit.Double
open Float.Model Float.Model.UnpackedFloat

/-! ## Sizes -/

/-- The magnitude of a finite number. -/
def size : UnpackedFloat → ℚ
  | .finite _ m e _ => m * 2 ^ e
  | _ => 0

theorem size_finite (s : Sign) (m : Nat) (e : Int) (hm : 0 < m) :
    size (.finite s m e hm) = m * 2 ^ e := rfl

theorem size_nonneg (u : UnpackedFloat) : 0 ≤ size u := by
  cases u with
  | finite s m e hm => exact (by positivity : (0 : ℚ) ≤ m * 2 ^ e)
  | _ => exact le_rfl

theorem zpow_split {a b : Int} (h : a ≤ b) : (2 : ℚ) ^ b = 2 ^ (b - a).toNat * 2 ^ a := by
  rw [← zpow_natCast, ← zpow_add₀ (by norm_num)]
  congr 1
  omega

/-- Digits that are dropped without a remainder round nothing. -/
theorem shiftRight_exact {m k : Nat} (h : 2 ^ k ∣ m) :
    ExtendedMantissa.mk m false false >>> k = ⟨m / 2 ^ k, false, false⟩ := by
  obtain ⟨c, rfl⟩ := h
  induction k generalizing c with
  | zero =>
    rw [Nat.pow_zero, Nat.div_one]
    rfl
  | succ k ih =>
    change (ExtendedMantissa.mk _ false false >>> k).shiftRightOne = _
    rw [Nat.pow_succ, Nat.mul_assoc, ih (2 * c), Nat.mul_div_cancel_left _ (Nat.two_pow_pos k),
      ← Nat.mul_assoc, ← Nat.pow_succ, Nat.mul_div_cancel_left _ (Nat.two_pow_pos (k + 1))]
    simp [ExtendedMantissa.shiftRightOne]

theorem rounded_le {m k n : Nat} (h : m ≤ n * 2 ^ k) :
    (ExtendedMantissa.mk m false false >>> k).roundedMantissa ≤ n := by
  have hbound := (roundedMantissa_bounds (ExtendedMantissa.mk m false false >>> k)).2
  have hmantissa : (ExtendedMantissa.mk m false false >>> k).mantissa = m / 2 ^ k :=
    mantissa_shiftRight _ k
  have hle : m / 2 ^ k ≤ n := Nat.div_le_of_le_mul (by rwa [Nat.mul_comm])
  obtain hlt | heq := Nat.lt_or_eq_of_le hle
  · omega
  · have hdvd : 2 ^ k ∣ m := by
      have := Nat.div_mul_le_self m (2 ^ k)
      rw [heq] at this
      exact ⟨n, by rw [Nat.mul_comm]; omega⟩
    rw [shiftRight_exact hdvd]
    exact heq.le

theorem shiftToTargetExponent_eq (m : Nat) (e : Int) : shiftToTargetExponent .binary64 m e .exact =
    (ExtendedMantissa.mk m false false >>> (max (totalExponent m e - 53) (-1074) - e).toNat,
      e + (max (totalExponent m e - 53) (-1074) - e).toNat) := rfl

/-- The digits that are left after the first rounding never pass a double. -/
theorem first_round_le {m n : Nat} {e f : Int} (hm : 0 < m) (hn : n < 2 ^ 53) (hf : -1074 ≤ f)
    (h : (m : ℚ) * 2 ^ e ≤ n * 2 ^ f) {k : Nat}
    (hk : k = (max (totalExponent m e - 53) (-1074) - e).toNat) :
    ((ExtendedMantissa.mk m false false >>> k).roundedMantissa : ℚ) * 2 ^ (e + k) ≤ n * 2 ^ f := by
  by_cases hexp : e + k ≤ f
  · -- the double is a multiple of the last digit that is left
    have hle : m ≤ n * 2 ^ (f - (e + k)).toNat * 2 ^ k := by
      have htwo : (0 : ℚ) < 2 ^ e := by positivity
      have hsplit : (2 : ℚ) ^ f = 2 ^ (f - (e + k)).toNat * 2 ^ k * 2 ^ e := by
        rw [zpow_split (a := e) (by omega), ← pow_add]
        congr 2
        omega
      have hle : (m : ℚ) ≤ n * 2 ^ (f - (e + k)).toNat * 2 ^ k := by
        refine le_of_mul_le_mul_right (h.trans_eq ?_) htwo
        rw [hsplit]
        ring
      exact_mod_cast hle
    calc ((ExtendedMantissa.mk m false false >>> k).roundedMantissa : ℚ) * 2 ^ (e + k)
        ≤ (n * 2 ^ (f - (e + k)).toNat : Nat) * 2 ^ (e + k) := by
          gcongr
          exact rounded_le hle
      _ = n * 2 ^ f := by
          rw [zpow_split hexp]
          push_cast
          ring
  · -- if digits are dropped, the number is too large for the double
    obtain rfl | hpos := Nat.eq_zero_or_pos k
    · rw [Nat.cast_zero, add_zero]
      exact h
    · exfalso
      have hlog : 2 ^ m.log2 ≤ m := Nat.log2_self_le hm.ne'
      rw [totalExponent] at hk
      have hsize : f + 53 ≤ m.log2 + e := by omega
      have : (n : ℚ) * 2 ^ f < m * 2 ^ e :=
        calc (n : ℚ) * 2 ^ f < 2 ^ 53 * 2 ^ f := by
              gcongr
              exact_mod_cast hn
          _ = 2 ^ (f + 53) := by
              rw [add_comm, zpow_add₀ (by norm_num)]
              norm_cast
          _ ≤ 2 ^ (m.log2 + e) := zpow_le_zpow_right₀ (by norm_num) hsize
          _ = 2 ^ m.log2 * 2 ^ e := by rw [zpow_add₀ (by norm_num), zpow_natCast]
          _ ≤ m * 2 ^ e := by
              gcongr
              exact_mod_cast hlog
      exact absurd h (not_le.mpr this)

/-- Rounding never passes a double. -/
theorem size_round_le {s : Sign} {m n : Nat} {e f : Int} (hm : 0 < m) (hn : n < 2 ^ 53)
    (hf : -1074 ≤ f) (h : (m : ℚ) * 2 ^ e ≤ n * 2 ^ f) :
    size (roundWithAccuracy .binary64 s m e .exact) ≤ n * 2 ^ f := by
  have hpos : (0 : ℚ) ≤ n * 2 ^ f := by positivity
  rw [roundWithAccuracy, shiftToTargetExponent_eq]
  dsimp only
  have hfirst := first_round_le hm hn hf h rfl
  generalize (max (totalExponent m e - 53) (-1074) - e).toNat = k at hfirst ⊢
  generalize (ExtendedMantissa.mk m false false >>> k).roundedMantissa = r at hfirst ⊢
  rw [shiftToTargetExponent_eq]
  dsimp only
  generalize (max (totalExponent r (e + k) - 53) (-1074) - (e + k)).toNat = k'
  by_cases hzero : (ExtendedMantissa.mk r false false >>> k').mantissa = 0
  · rw [dif_pos hzero]
    exact hpos
  · rw [dif_neg hzero, size_finite, mantissa_shiftRight]
    refine le_trans ?_ hfirst
    have hdiv : r / 2 ^ k' * 2 ^ k' ≤ r := Nat.div_mul_le_self _ _
    calc ((r / 2 ^ k' : Nat) : ℚ) * 2 ^ (e + k + k')
        = (r / 2 ^ k' * 2 ^ k' : Nat) * 2 ^ (e + k) := by
          rw [zpow_add₀ (by norm_num) (e + k), zpow_natCast]
          push_cast
          ring
      _ ≤ r * 2 ^ (e + k) := by gcongr

/-! ## Sizes of doubles -/

/-- The greatest double. -/
def greatest : ℚ := (2 ^ 53 - 1 : Nat) * 2 ^ (971 : Int)

theorem pack_normal {s : Sign} {m : Nat} {e : Int} {hm : 0 < m} (hlog : m.log2 = 52)
    (he : e < 972) : UnpackedFloat.pack .binary64 (.finite s m e hm) =
      packComponents .binary64 s (BitVec.ofNat 11 (e + 1075).toNat) (BitVec.ofNat 52 m) := by
  have hbias : (e + Format.binary64.exponentBias + Format.binary64.mantissaBitsWithoutImplicit) =
    e + 1075 := add_assoc e 1023 52
  have hbits : Format.binary64.mantissaBits = 53 := rfl
  have hexp : ¬2 ^ Format.binary64.exponentBits ≤ (e + 1075).toNat + 1 := by
    change ¬2048 ≤ _
    omega
  delta UnpackedFloat.pack
  dsimp only
  rw [hbias, if_neg hexp, hbits, if_pos (congrArg (· + 1) hlog)]

theorem size_normal {s : Sign} {m : Nat} {e : Int} {hm : 0 < m} (hlog : m.log2 = 52)
    (hlow : -1074 ≤ e) (he : e < 972) :
    size (ofUnpacked (.finite s m e hm)).toModel.unpack = m * 2 ^ e := by
  change size (UnpackedFloat.unpack .binary64 (UnpackedFloat.pack .binary64 _)) = _
  rw [pack_normal hlog he]
  have hexp := @unpackExponent_packComponents .binary64 s (BitVec.ofNat 11 (e + 1075).toNat)
    (BitVec.ofNat 52 m)
  have hmant := @unpackMantissa_packComponents .binary64 s (BitVec.ofNat 11 (e + 1075).toNat)
    (BitVec.ofNat 52 m)
  generalize packComponents .binary64 s _ _ = v at hexp hmant
  have hfield : (BitVec.ofNat 11 (e + 1075).toNat).toNat = (e + 1075).toNat := by
    rw [BitVec.toNat_ofNat]
    omega
  have hinfinite : unpackExponent v ≠ -1#11 := by
    rw [hexp]
    intro h
    have := congrArg BitVec.toNat h
    rw [hfield] at this
    change _ = 2047 at this
    omega
  have hsubnormal : unpackExponent v ≠ 0#11 := by
    rw [hexp]
    intro h
    have := congrArg BitVec.toNat h
    rw [hfield] at this
    change _ = 0 at this
    omega
  delta UnpackedFloat.unpack
  dsimp only
  rw [if_neg hinfinite, if_neg hsubnormal]
  change ((1#1 ++ unpackMantissa v).toNat : ℚ) * 2 ^ (((unpackExponent v).toNat : Int) - 1075) = _
  have hm' := (Nat.log2_eq_iff hm.ne').mp hlog
  have hmantissa : (1#1 ++ unpackMantissa v).toNat = m := by
    rw [hmant, toNat_hidden, BitVec.toNat_ofNat]
    omega
  have hexponent : ((unpackExponent v).toNat : Int) - 1075 = e := by
    rw [hexp, hfield]
    omega
  rw [hmantissa, hexponent]

theorem lt_of_size_le {m : Nat} {e : Int} (hlog : 52 ≤ m.log2) (h : (m : ℚ) * 2 ^ e ≤ greatest) :
    e < 972 := by
  by_contra hge
  have hm : 2 ^ 52 ≤ m := (Nat.le_log2 (by
    rintro rfl
    cases hlog)).mp hlog
  have : greatest < m * 2 ^ e :=
    calc greatest < 2 ^ 52 * (2 ^ (971 : Int) * 2) := by
          rw [greatest, mul_left_comm, mul_comm]
          gcongr
          norm_num
      _ = 2 ^ 52 * 2 ^ (972 : Int) := by rw [← zpow_add_one₀ (by norm_num)]; rfl
      _ ≤ m * 2 ^ e := by
          gcongr
          · exact_mod_cast hm
          · norm_num
          · omega
  exact absurd h (not_le.mpr this)

/-- What is rounded stays a finite double if a double bounds it. -/
theorem size_rounded_le {s : Sign} {m n : Nat} {e f : Int} (hlog : 52 ≤ m.log2)
    (hlow : -1022 < totalExponent m e) (hn : n < 2 ^ 53) (hf : -1074 ≤ f)
    (h : (m : ℚ) * 2 ^ e ≤ n * 2 ^ f) (hmax : (n : ℚ) * 2 ^ f ≤ greatest) :
    (ofUnpacked (roundWithAccuracy .binary64 s m e .exact)).isFinite = true ∧
    size (ofUnpacked (roundWithAccuracy .binary64 s m e .exact)).toModel.unpack ≤ n * 2 ^ f := by
  have hm : 0 < m := Nat.pos_of_ne_zero (by
    rintro rfl
    cases hlog)
  have hsize := @size_round_le s m n e f hm hn hf h
  obtain ⟨hzero, -⟩ | ⟨m', e', hm', hround, -, hdigits⟩ := round_cases s m e .exact
  · rw [hzero]
    refine ⟨isFinite_zero s, ?_⟩
    cases s <;> exact (by positivity : (0 : ℚ) ≤ n * 2 ^ f)
  · obtain ⟨hlog', hlow'⟩ := hdigits hlog hlow
    rw [hround] at hsize ⊢
    have he : e' < 972 := lt_of_size_le hlog'.ge (hsize.trans hmax)
    exact ⟨isFinite_finite he, (size_normal hlog' (by omega) he).trans_le hsize⟩

theorem isFinite_mul_of_le {x y : Float} (hx : 1023 ≤ exponentField x)
    (hx' : exponentField x < 2047) (hy : 1023 ≤ exponentField y) (hy' : exponentField y < 2047)
    (h : size x.toModel.unpack * size y.toModel.unpack ≤ greatest) :
    (x * y).isFinite = true := by
  obtain ⟨s₁, -, hzero⟩ | ⟨s₁, m₁, e₁, h₁, hunpack₁, -, -, hfull₁⟩ := unpack_cases hx'
  · omega
  obtain ⟨s₂, -, hzero⟩ | ⟨s₂, m₂, e₂, h₂, hunpack₂, -, -, hfull₂⟩ := unpack_cases hy'
  · omega
  obtain ⟨hlog₁, ht₁⟩ := hfull₁ (by omega)
  obtain ⟨hlog₂, ht₂⟩ := hfull₂ (by omega)
  rw [hunpack₁, hunpack₂, size_finite, size_finite] at h
  rw [mul_finite hunpack₁ hunpack₂]
  have hlog : 104 ≤ (m₁ * m₂).log2 := by
    refine (Nat.le_log2 (Nat.mul_pos h₁ h₂).ne').mpr ?_
    calc 2 ^ 104 = 2 ^ 52 * 2 ^ 52 := by decide
      _ ≤ m₁ * m₂ := Nat.mul_le_mul (hlog₁ ▸ Nat.log2_self_le h₁.ne')
          (hlog₂ ▸ Nat.log2_self_le h₂.ne')
  refine (@size_rounded_le _ _ (2 ^ 53 - 1) _ 971 (by omega) ?_ (by decide) (by decide) ?_ ?_).1
  · rw [totalExponent] at ht₁ ht₂ ⊢
    omega
  · refine le_trans (le_of_eq ?_) h
    rw [zpow_add₀ (by norm_num)]
    push_cast
    ring
  · exact le_rfl

theorem two_zpow_le_greatest {k : Int} (h : k ≤ 1023) : (2 : ℚ) ^ k ≤ greatest := by
  have hpow : (2 : ℚ) ^ k ≤ 2 ^ (52 : Int) * 2 ^ (971 : Int) := by
    rw [← zpow_add₀ (by norm_num)]
    exact zpow_le_zpow_right₀ (by norm_num) h
  have hpos : (0 : ℚ) < 2 ^ (971 : Int) := zpow_pos (by norm_num) _
  rw [greatest]
  generalize (2 : ℚ) ^ (971 : Int) = t at hpow hpos ⊢
  refine hpow.trans (mul_le_mul_of_nonneg_right ?_ hpos.le)
  norm_num

/-- A word that a double bounds is rounded to no more than that. -/
theorem size_toFloat_le {w : UInt64} {n f : Nat} (hw : 0 < w.toNat) (hn : n < 2 ^ 53)
    (hcap : n * 2 ^ f < 2 ^ 64) (h : w.toNat ≤ n * 2 ^ f) :
    1023 ≤ exponentField w.toFloat ∧ size w.toFloat.toModel.unpack ≤ (n * 2 ^ f : Nat) := by
  have hlog : w.toNat.log2 < 64 := (Nat.log2_lt hw.ne').mpr w.toNat_lt
  have hshift := log2_shiftLeft hw (52 - w.toNat.log2)
  have hvalue : ((w.toNat <<< (52 - w.toNat.log2) : Nat) : ℚ) *
      2 ^ (-(52 - w.toNat.log2 : Nat) : Int) = w.toNat := by
    rw [Nat.shiftLeft_eq, zpow_neg, zpow_natCast]
    push_cast
    rw [mul_assoc, mul_inv_cancel₀ (by positivity), mul_one]
  have hcast : (n : ℚ) * 2 ^ (f : Int) = (n * 2 ^ f : Nat) := by
    push_cast
    rw [zpow_natCast]
  rw [toFloat_eq_round hw]
  constructor
  · have := @le_exponentField_round .positive (w.toNat <<< (52 - w.toNat.log2))
      (-(52 - w.toNat.log2 : Nat)) .exact (by omega)
    rw [totalExponent] at this
    omega
  · rw [← hcast]
    refine (size_rounded_le (by omega) ?_ hn (by omega) ?_ ?_).2
    · rw [totalExponent]
      omega
    · rw [hvalue, hcast]
      exact_mod_cast h
    · rw [hcast]
      calc ((n * 2 ^ f : Nat) : ℚ) ≤ 2 ^ (64 : Int) := by exact_mod_cast hcap.le
        _ ≤ greatest := two_zpow_le_greatest (by decide)

/-- A word times a power of ten stays finite if its bound times the power does. -/
theorem isFinite_word_mul {w : UInt64} {n f k : Nat} (hw : 0 < w.toNat) (hk : k ≤ 308)
    (hn : n < 2 ^ 53) (hcap : n * 2 ^ f < 2 ^ 64) (hle : w.toNat ≤ n * 2 ^ f)
    (h : (n * 2 ^ f : Nat) * size (tenPower k).toModel.unpack ≤ greatest) :
    (w.toFloat * tenPower k).isFinite = true := by
  have hten : 1023 ≤ exponentField (tenPower k) ∧ exponentField (tenPower k) < 2047 := by
    obtain rfl | hpos := Nat.eq_zero_or_pos k
    · decide +kernel
    · have := exponentField_tenPower hpos hk
      omega
  obtain ⟨hfield, hsize⟩ := size_toFloat_le hw hn hcap hle
  have hfield' := exponentField_toFloat w
  exact isFinite_mul_of_le hfield (by omega) hten.1 hten.2
    ((mul_le_mul_of_nonneg_right hsize (size_nonneg _)).trans h)

/-! ## Powers of ten -/

theorem size_lt {x : Float} (h : 0 < exponentField x) (h' : exponentField x < 2047) :
    size x.toModel.unpack < 2 ^ ((exponentField x : Int) - 1022) := by
  obtain ⟨s, -, hzero⟩ | ⟨s, m, e, hm, hunpack, -, -, hfull⟩ := unpack_cases h'
  · omega
  obtain ⟨hlog, ht⟩ := hfull h
  have hexp : (exponentField x : Int) - 1022 = (53 : Nat) + e := by
    rw [← ht, totalExponent, hlog]
    rfl
  have hlt : m < 2 ^ 53 := (Nat.log2_lt hm.ne').mp (by omega)
  rw [hunpack, size_finite, hexp, zpow_add₀ (by norm_num), zpow_natCast]
  have htwo : (0 : ℚ) < 2 ^ e := by positivity
  exact mul_lt_mul_of_pos_right (by exact_mod_cast hlt) htwo

/-- Up to here every significand of seventeen digits has room below the greatest double. -/
theorem tenPower_room {k : Nat} (hk : k ≤ 290) :
    (5 ^ 17 * 2 ^ 17 : Nat) * size (tenPower k).toModel.unpack ≤ greatest := by
  have htable : ∀ i : Fin 23, 0 < exponentField (tenPower i) ∧
    exponentField (tenPower i) ≤ 1987 := by decide +kernel
  have hfield : 0 < exponentField (tenPower k) ∧ exponentField (tenPower k) ≤ 1987 := by
    obtain h | h := Nat.lt_or_ge k 23
    · exact htable ⟨k, h⟩
    · have hlog : (10 ^ k).log2 ≤ 963 :=
        (log2_mono (Nat.pow_le_pow_right (by decide) hk)).trans (by decide +kernel)
      have hlow := (exponentField_tenPower (by omega : 0 < k) (by omega)).1
      have hhigh := exponentField_tenPower_le h (by omega)
      omega
  have hsize : size (tenPower k).toModel.unpack ≤ 2 ^ (965 : Int) :=
    (size_lt hfield.1 (by omega)).le.trans (zpow_le_zpow_right₀ (by norm_num) (by omega))
  have hword : ((5 ^ 17 * 2 ^ 17 : Nat) : ℚ) ≤ 2 ^ (57 : Int) := by norm_num
  calc ((5 ^ 17 * 2 ^ 17 : Nat) : ℚ) * size (tenPower k).toModel.unpack
      ≤ 2 ^ (57 : Int) * 2 ^ (965 : Int) :=
        mul_le_mul hword hsize (size_nonneg _) (zpow_nonneg (by norm_num) _)
    _ = 2 ^ (57 + 965 : Int) := (zpow_add₀ (by norm_num) _ _).symm
    _ ≤ greatest := two_zpow_le_greatest (by decide)

/-- Whether a word times a double is at most the greatest double, both being whole. -/
def fits (n : Nat) (x : Float) : Bool :=
  match x.toModel.unpack with
  | .finite _ m e _ => 0 ≤ e && n * (m * 2 ^ e.toNat) ≤ (2 ^ 53 - 1) * 2 ^ 971
  | _ => false

theorem size_le_of_fits {n : Nat} {x : Float} (h : fits n x = true) :
    n * size x.toModel.unpack ≤ greatest := by
  rw [fits] at h
  cases hunpack : x.toModel.unpack with
  | finite s m e hm =>
    rw [hunpack] at h
    obtain ⟨he, hle⟩ := (Bool.and_eq_true _ _).mp h
    obtain ⟨k, rfl⟩ := Int.eq_ofNat_of_zero_le (of_decide_eq_true he)
    have hle := of_decide_eq_true hle
    rw [Int.toNat_natCast] at hle
    rw [size_finite, greatest, zpow_natCast]
    generalize hmax : (2 ^ 53 - 1 : Nat) = c at hle ⊢
    have hpow : (2 : ℚ) ^ (971 : Int) = (2 ^ 971 : Nat) := by
      rw [Nat.cast_pow]
      rfl
    rw [hpow]
    exact_mod_cast hle
  | _ =>
    rw [hunpack] at h
    cases h

/-- Up to here reals are rounded to finite doubles: half a place above the greatest one. -/
def reachable : Nat := (2 ^ 54 - 3) * 2 ^ 970

/-- The greatest significand of seventeen digits that may stand with a power of ten near the greatest
double, as a double. -/
def greatestWord (k : Nat) : Nat × Nat :=
  if k ≤ 291 then (5 ^ 17, 17)
  else if k = 292 then (reachable / 10 ^ 292 / 4, 2)
  else (reachable / 10 ^ k, 0)

/-- Next to the greatest double the room is checked for each power. -/
theorem greatestWord_spec {k : Nat} (h : 290 < k) (hk : k ≤ 308) :
    (greatestWord k).1 < 2 ^ 53 ∧ (greatestWord k).1 * 2 ^ (greatestWord k).2 < 2 ^ 64 ∧
    fits ((greatestWord k).1 * 2 ^ (greatestWord k).2) (tenPower k) = true ∧
    min (10 ^ 17) (reachable / 10 ^ k) ≤ (greatestWord k).1 * 2 ^ (greatestWord k).2 := by
  have htable : ∀ i : Fin 18, (greatestWord (i + 291)).1 < 2 ^ 53 ∧
    (greatestWord (i + 291)).1 * 2 ^ (greatestWord (i + 291)).2 < 2 ^ 64 ∧
    fits ((greatestWord (i + 291)).1 * 2 ^ (greatestWord (i + 291)).2) (tenPower (i + 291)) = true ∧
    min (10 ^ 17) (reachable / 10 ^ (i.val + 291)) ≤
      (greatestWord (i + 291)).1 * 2 ^ (greatestWord (i + 291)).2 := by decide +kernel
  have := htable ⟨k - 291, by omega⟩
  rwa [Fin.val_mk, Nat.sub_add_cancel h] at this

/-! ## Reading what is written -/

theorem isInf_of_isFinite {x : Float} (h : x.isFinite = true) : x.isInf = false := by
  change x.toModel.unpack.isInf = false
  have h : x.toModel.unpack.isFinite = true := h
  cases hunpack : x.toModel.unpack with
  | infinity s =>
    rw [hunpack] at h
    cases h
  | _ => rfl

theorem exponent_le {n : Nat} {exponent : Int} (hpos : 0 < n)
    (h : (n : ℚ) * 10 ^ exponent ≤ reachable) : exponent ≤ 308 := by
  have hmax : (reachable : ℚ) < 10 ^ (309 : Int) := by
    have : reachable < 10 ^ 309 := by decide +kernel
    exact_mod_cast this
  have hone : (1 : ℚ) ≤ n := by exact_mod_cast hpos
  have hlt : (10 : ℚ) ^ exponent < 10 ^ (309 : Int) :=
    calc (10 : ℚ) ^ exponent ≤ n * 10 ^ exponent :=
          le_mul_of_one_le_left (zpow_nonneg (by norm_num) _) hone
      _ ≤ reachable := h
      _ < 10 ^ (309 : Int) := hmax
  have := (zpow_lt_zpow_iff_right₀ (by norm_num)).mp hlt
  omega

/-- A decimal of seventeen digits that is not too large is read. -/
theorem exists_scaled? {n : Nat} {exponent : Int} (hpos : 0 < n) (hn : n ≤ 10 ^ 17)
    (h : (n : ℚ) * 10 ^ exponent ≤ reachable) : ∃ y, scaled? n exponent = some y := by
  cases exponent with
  | negSucc k => exact ⟨_, rfl⟩
  | ofNat k =>
    have hle : n * 10 ^ k ≤ reachable := by
      rw [Int.ofNat_eq_natCast, zpow_natCast] at h
      exact_mod_cast h
    have hk : k ≤ 308 := by
      have := exponent_le hpos h
      rw [Int.ofNat_eq_natCast] at this
      omega
    have hword : (UInt64.ofNat n).toNat = n := UInt64.toNat_ofNat_of_lt' (by
      change n < 2 ^ 64
      omega)
    have hfinite : ((UInt64.ofNat n).toFloat * tenPower k).isFinite = true := by
      obtain hroom | hlarge := Nat.lt_or_ge 290 k
      · obtain ⟨hsmall, hcap, hfits, hmin⟩ := greatestWord_spec hroom hk
        refine isFinite_word_mul (hword.symm ▸ hpos) hk hsmall hcap ?_ (size_le_of_fits hfits)
        rw [hword]
        exact (le_min hn ((Nat.le_div_iff_mul_le (by positivity)).mpr hle)).trans hmin
      · exact isFinite_word_mul (hword.symm ▸ hpos) hk (by decide) (by decide)
          (hword.trans_le hn) (tenPower_room hlarge)
    refine ⟨(UInt64.ofNat n).toFloat * tenPower k, ?_⟩
    rw [scaled?]
    dsimp only
    rw [if_neg hk.not_gt, isInf_of_isFinite hfinite]
    rfl

theorem shorten_of_le {n : Nat} (h : n ≤ maxSignificand) : shorten n 0 = (n, 0) := by
  rw [shorten, if_pos h]

/-- The last digits of a number are taken as they stand, if the whole is small enough. -/
theorem takeFraction_lastDigits {count n taken m : Nat} {rest : List Decimal.Digit}
    (h : n * 10 ^ count + m % 10 ^ count ≤ maxSignificand) :
    takeFraction n taken (Decimal.lastDigits count m ++ rest) =
      takeFraction (n * 10 ^ count + m % 10 ^ count) (taken + count) rest := by
  induction count generalizing m rest with
  | zero =>
    rw [Nat.pow_zero, Nat.mod_one, Nat.mul_one]
    rfl
  | succ count ih =>
    have hstep : 10 * (n * 10 ^ count + m / 10 % 10 ^ count) + m % 10 =
        n * 10 ^ (count + 1) + m % 10 ^ (count + 1) := by
      have hmod : m % 10 ^ (count + 1) = m % 10 + 10 * (m / 10 % 10 ^ count) := by
        rw [Nat.pow_succ', Nat.mod_mul]
      rw [hmod, Nat.pow_succ]
      ring
    have hdigit : (Decimal.Digit.last m).val = m % 10 := rfl
    rw [Decimal.lastDigits, List.append_assoc, ih (by omega), List.singleton_append, takeFraction,
      hdigit, hstep, if_pos h, Nat.add_assoc]

/-- Cutting a number into a whole part and a fraction loses nothing. -/
theorem takeFraction_cut {m places : Nat} (h : m ≤ maxSignificand) :
    takeFraction (m / 10 ^ places) 0 (Decimal.lastDigits places m) = (m, places) := by
  have hcut : m / 10 ^ places * 10 ^ places + m % 10 ^ places = m := Nat.div_add_mod' ..
  have := @takeFraction_lastDigits places (m / 10 ^ places) 0 m [] (hcut.trans_le h)
  rwa [List.append_nil, hcut, Nat.zero_add] at this

theorem exists_magnitude?_whole {negative : Bool} {whole : Nat}
    (h : 10 * whole ≤ maxSignificand) :
    ∃ y, magnitude? { negative, whole, fraction := [.last 0] } = some y := by
  have hshort : whole ≤ maxSignificand := by omega
  have hten : takeFraction whole 0 [.last 0] = (10 * whole, 1) := if_pos h
  refine ⟨divideOut 8 (UInt64.ofNat (10 * whole)).toFloat 1, ?_⟩
  rw [magnitude?, shorten_of_le hshort]
  dsimp only
  rw [hten]
  rfl

/-- A decimal that is cut by a point is read as a whole one. -/
theorem magnitude?_cut {negative : Bool} {m places : Nat} {exponent : Option Int}
    (h : m ≤ maxSignificand) :
    magnitude? ⟨negative, m / 10 ^ places, Decimal.lastDigits places m, exponent⟩ =
      if (exponent.getD 0).natAbs ≤ maxExponent then scaled? m (exponent.getD 0 - places)
      else if 0 < exponent.getD 0 && m ≠ 0 then none
      else some 0 := by
  rw [magnitude?, shorten_of_le ((Nat.div_le_self _ _).trans h)]
  dsimp only
  rw [takeFraction_cut h, Nat.cast_zero, add_zero]

/-- The layout of a decimal is read if the decimal is. -/
theorem exists_magnitude? {negative : Bool} {s : Decimal.Scaled} (hdigits : s.digits ≤ 10 ^ 17)
    (hread : 0 < s.digits →
      s.exponent ≤ 308 ∧ ∃ y, scaled? s.digits s.exponent = some y) :
    ∃ y, magnitude? (jsonLayout.magnitude negative s) = some y := by
  have hsmall : s.digits ≤ maxSignificand := hdigits.trans (by decide)
  rw [Decimal.Layout.magnitude]
  split
  · exact exists_magnitude?_whole (by decide)
  have hpos : 0 < s.digits := Nat.pos_of_ne_zero ‹_›
  obtain ⟨hexp, y, hy⟩ := hread hpos
  obtain ⟨k, hk, hlow, hhigh⟩ := Decimal.exists_digitCount hpos
  obtain ⟨digits, exponent⟩ := s
  dsimp only at *
  split
  · obtain ⟨-, hplace⟩ := (Bool.and_eq_true _ _).mp ‹jsonLayout.isPositional _ = true›
    have hplace := of_decide_eq_true hplace
    rw [Decimal.Layout.positional]
    cases exponent with
    | ofNat e =>
      refine exists_magnitude?_whole ?_
      have hle : digits * 10 ^ e ≤ 10 ^ 16 :=
        calc digits * 10 ^ e ≤ 10 ^ (k + 1) * 10 ^ e := Nat.mul_le_mul_right _ hhigh.le
          _ = 10 ^ (k + 1 + e) := (Nat.pow_add ..).symm
          _ ≤ 10 ^ 16 := Nat.pow_le_pow_right (by decide) (by
              rw [Int.ofNat_eq_natCast] at hplace
              omega)
      exact (Nat.mul_le_mul_left 10 hle).trans (by decide)
    | negSucc e =>
      refine ⟨divideOut 8 (UInt64.ofNat digits).toFloat (e + 1), (magnitude?_cut hsmall).trans ?_⟩
      rw [if_pos (by decide), Option.getD_none, zero_sub]
      rfl
  · -- an exponent that is too large to be read is negative
    have hcount : k ≤ 17 := (Nat.pow_le_pow_iff_right (by decide)).mp (hlow.trans hdigits)
    have hmax : maxExponent = 2147483647 := rfl
    have hsign : (exponent + k).natAbs ≤ maxExponent ∨ ¬0 < exponent + k := by omega
    rw [Decimal.Layout.scientific, hk, Nat.add_sub_cancel]
    change ∃ y, magnitude? ⟨negative, digits / 10 ^ k, _, _⟩ = some y
    rw [magnitude?_cut hsmall, Option.getD_some, add_sub_cancel_right, hy]
    split
    · exact ⟨y, rfl⟩
    · have hneg : ¬0 < exponent + k := hsign.resolve_left ‹_›
      refine ⟨0, if_neg ?_⟩
      rw [decide_eq_false hneg]
      exact Bool.false_ne_true

/-! ## The bits of a double -/

/-- The field and the fraction, as they are masked out of the bits, are those that are unpacked. -/
theorem toNat_field (x : Float) :
    ((x.toBits >>> 52) &&& 0x7ff).toNat = exponentField x := by
  have hmask : (0x7ff : Nat) = 2 ^ 11 - 1 := rfl
  rw [UInt64.toNat_and, UInt64.toNat_shiftRight]
  change (x.toBits.toNat >>> 52) &&& 0x7ff = _
  rw [hmask, Nat.and_two_pow_sub_one_eq_mod]
  rfl

theorem ofBits_spec {x : Float} (h : exponentField x < 2047) :
    (Decimal.Binary.ofBits x.toBits).mantissa < 2 ^ 53 ∧
    ((Decimal.Binary.ofBits x.toBits).narrow = true →
      (Decimal.Binary.ofBits x.toBits).mantissa ≤ 2 ^ 52) ∧
    (Decimal.Binary.ofBits x.toBits).exponent ≤ 971 := by
  have hfraction : (x.toBits &&& 0xfffffffffffff).toNat < 2 ^ 52 := by
    rw [UInt64.toNat_and]
    exact Nat.lt_succ_of_le Nat.and_le_right
  rw [Decimal.Binary.ofBits, toNat_field]
  generalize (x.toBits &&& 0xfffffffffffff).toNat = fraction at hfraction ⊢
  split
  · refine ⟨hfraction.trans (by decide), ?_, (by decide : (-1074 : Int) ≤ 971)⟩
    intro hnarrow
    cases hnarrow
  · dsimp only
    refine ⟨by omega, fun hnarrow => ?_, by omega⟩
    have := of_decide_eq_true ((Bool.and_eq_true _ _).mp hnarrow).1
    omega

/-- The shortest decimal of a double is not too large, save that of the greatest one. -/
theorem shortest_le_reachable {b : Decimal.Binary} (hm : 0 < b.mantissa)
    (hmax : b.mantissa < 2 ^ 53) (hnarrow : b.narrow = true → b.mantissa ≤ 2 ^ 52)
    (hexp : b.exponent ≤ 971) (hne : ¬(b.mantissa = 2 ^ 53 - 1 ∧ b.exponent = 971))
    (tie : Decimal.Tie) : (b.shortest tie).value ≤ reachable := by
  refine (Decimal.Binary.shortest_spec hm hmax hnarrow tie).1.trans ?_
  have hcast : (reachable : ℚ) = (2 ^ 54 - 3 : Nat) * 2 ^ (970 : Int) := by
    rw [reachable, Nat.cast_mul, Nat.cast_pow]
    rfl
  have hwhole : ((2 ^ 54 - 3 : Nat) : ℚ) = 2 ^ 54 - 3 := by norm_num
  have hpos : (0 : ℚ) < 2 ^ (970 : Int) := zpow_pos (by norm_num) _
  rw [hcast]
  obtain hlt | heq := Int.lt_or_eq_of_le hexp
  · have hpow : (2 : ℚ) ^ b.exponent ≤ 2 ^ (970 : Int) :=
      zpow_le_zpow_right₀ (by norm_num) (by omega)
    have hmantissa : (b.mantissa : ℚ) + 1 / 2 ≤ (2 ^ 54 - 3 : Nat) := by
      have : (b.mantissa : ℚ) ≤ 2 ^ 53 := by exact_mod_cast hmax.le
      rw [hwhole]
      linarith
    exact mul_le_mul hmantissa hpow (zpow_nonneg (by norm_num) _) (by norm_num)
  · have htwo : (2 : ℚ) ^ b.exponent = 2 * 2 ^ (970 : Int) := by
      have hexp : b.exponent = 1 + 970 := heq
      rw [hexp, zpow_add₀ (by norm_num), zpow_one]
    have hmantissa : ((b.mantissa : ℚ) + 1 / 2) * 2 ≤ (2 ^ 54 - 3 : Nat) := by
      have hle : b.mantissa + 2 ≤ 2 ^ 53 := by omega
      have : (b.mantissa : ℚ) + 2 ≤ 2 ^ 53 := by exact_mod_cast hle
      rw [hwhole]
      linarith
    rw [htwo, ← mul_assoc]
    exact mul_le_mul_of_nonneg_right hmantissa hpos.le

/-- A finite double is read from its numeral. -/
theorem exists_ofNumeral?_numeral {x : Float} (h : x.isFinite = true) :
    ∃ y, ofNumeral? (jsonLayout.numeral x) = some y := by
  obtain ⟨hmax, hnarrow, hexp⟩ := ofBits_spec (isFinite_iff.mp h)
  rw [ofNumeral?, Decimal.Layout.numeral]
  generalize Decimal.Binary.ofBits x.toBits = b at hmax hnarrow hexp
  suffices hread : ∃ y, magnitude? (jsonLayout.magnitude (Decimal.isNegative x)
      (b.shortest jsonLayout.tie)) = some y by
    obtain ⟨y, hy⟩ := hread
    exact ⟨_, congrArg (Option.map _) hy⟩
  obtain hzero | hm := Nat.eq_zero_or_pos b.mantissa
  · have hshortest : b.shortest jsonLayout.tie = ⟨0, 0⟩ := if_pos hzero
    rw [hshortest]
    exact exists_magnitude? (by decide) fun hpos => absurd hpos (lt_irrefl 0)
  by_cases hgreatest : b.mantissa = 2 ^ 53 - 1 ∧ b.exponent = 971
  · obtain ⟨mantissa, exponent, narrow⟩ := b
    obtain ⟨rfl, rfl⟩ := hgreatest
    have hwide : narrow = false := by
      cases narrow with
      | false => rfl
      | true => exact absurd (hnarrow rfl) (by decide)
    subst hwide
    have hshortest : Decimal.Binary.shortest ⟨2 ^ 53 - 1, 971, false⟩ .even =
        ⟨17976931348623157, 292⟩ := by decide +kernel
    have hread : (scaled? 17976931348623157 292).isSome = true := by decide +kernel
    change ∃ y, magnitude? (jsonLayout.magnitude _ (Decimal.Binary.shortest _ .even)) = some y
    rw [hshortest]
    exact exists_magnitude? (by decide) fun _ => ⟨by decide, Option.isSome_iff_exists.mp hread⟩
  · have hle := shortest_le_reachable hm hmax hnarrow hexp hgreatest jsonLayout.tie
    obtain ⟨-, hdigits⟩ := Decimal.Binary.shortest_spec hm hmax hnarrow jsonLayout.tie
    exact exists_magnitude? hdigits fun hpos =>
      ⟨exponent_le hpos hle, exists_scaled? hpos hdigits hle⟩

end BloqCircuit.Double
