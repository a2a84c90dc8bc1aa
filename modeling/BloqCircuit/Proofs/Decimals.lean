import Mathlib.Algebra.Order.Field.Power
import Mathlib.Tactic.LinearCombination
import Mathlib.Tactic.Linarith
import Mathlib.Tactic.Positivity
import Mathlib.Tactic.Ring
import BloqCircuit.Decimal.Layout
/-! Shortest decimals. The decimal that stands for a double is among the reals that read back as the
double, and it has no more than seventeen digits: on the grid of that many digits one of the two
neighbours of a double is always a hit. -/
namespace BloqCircuit.Decimal

def Binary.value (b : Binary) : ℚ := b.mantissa * 2 ^ b.exponent

def Scaled.value (s : Scaled) : ℚ := s.digits * 10 ^ s.exponent

/-! ## Ratios and places -/

theorem ratio_spec (n base : Nat) (hb : 0 < base) (e : Int) : 0 < (ratio n base e).2 ∧
    ((ratio n base e).1 : ℚ) = n * (base : ℚ) ^ e * (ratio n base e).2 := by
  cases e with
  | ofNat e =>
    refine ⟨Nat.one_pos, ?_⟩
    change ((n * base ^ e : Nat) : ℚ) = n * (base : ℚ) ^ (e : Int) * ((1 : Nat) : ℚ)
    push_cast
    rw [zpow_natCast, mul_one]
  | negSucc e =>
    have hpos : 0 < base ^ (e + 1) := Nat.pow_pos hb
    refine ⟨hpos, ?_⟩
    change (n : ℚ) = n * (base : ℚ) ^ (Int.negSucc e) * ((base ^ (e + 1) : Nat) : ℚ)
    have hne : (base : ℚ) ^ (e + 1) ≠ 0 := by positivity
    rw [zpow_negSucc, Nat.cast_pow, mul_assoc, inv_mul_cancel₀ hne, mul_one]

/-- A number has one digit more than the place of its first. -/
theorem exists_digitCount {n : Nat} (h : 0 < n) :
    ∃ k, digitCount n = k + 1 ∧ 10 ^ k ≤ n ∧ n < 10 ^ (k + 1) := by
  obtain ⟨k, hk⟩ : ∃ k, digitCount n = k + 1 := Nat.exists_eq_succ_of_ne_zero
    (@Nat.length_toDigits_pos 10 n).ne'
  refine ⟨k, hk, ?_, (Nat.length_toDigits_le_iff (by decide) k.succ_pos).mp hk.le⟩
  obtain rfl | hpos := Nat.eq_zero_or_pos k
  · exact h
  · by_contra hlt
    have : digitCount n ≤ k :=
      (Nat.length_toDigits_le_iff (by decide) hpos).mpr (Nat.lt_of_not_le hlt)
    omega

/-- The place of the first digit of a quotient. -/
theorem leadingPlace_spec {num den : Nat} (hnum : 0 < num) (hden : 0 < den) :
    (10 : ℚ) ^ leadingPlace num den * den ≤ num ∧
    (num : ℚ) < 10 ^ (leadingPlace num den + 1) * den := by
  rw [leadingPlace]
  split
  · obtain ⟨k, hk, hlow, hhigh⟩ := exists_digitCount (Nat.div_pos ‹den ≤ num› hden)
    have hplace : ((digitCount (num / den) : Nat) : Int) - 1 = (k : Int) := by omega
    have hfirst : 10 ^ k * den ≤ num :=
      (Nat.mul_le_mul_right den hlow).trans (Nat.div_mul_le_self num den)
    have hlast : num < 10 ^ (k + 1) * den :=
      (Nat.lt_mul_div_succ num hden).trans_le (by
        rw [Nat.mul_comm]
        exact Nat.mul_le_mul_right den hhigh)
    rw [hplace, zpow_natCast, ← Nat.cast_succ, zpow_natCast]
    exact ⟨by exact_mod_cast hfirst, by exact_mod_cast hlast⟩
  · -- the quotient is below one, so the place is that of its inverse, rounded up
    have hlt : num < den := Nat.lt_of_not_le ‹_›
    have hup : 1 < (den + num - 1) / num :=
      (Nat.le_div_iff_mul_le hnum).mpr (by omega)
    obtain ⟨k, hk, hlow, hhigh⟩ := exists_digitCount (Nat.sub_pos_of_lt hup)
    have hceil : den ≤ num * ((den + num - 1) / num) := by
      have := Nat.lt_mul_div_succ (den + num - 1) hnum
      rw [Nat.mul_succ] at this
      omega
    have hfloor : num * ((den + num - 1) / num - 1) < den := by
      have := Nat.mul_div_le (den + num - 1) num
      rw [Nat.mul_sub_one]
      omega
    have hfirst : den ≤ num * 10 ^ (k + 1) :=
      hceil.trans (Nat.mul_le_mul_left num (by omega))
    have hlast : num * 10 ^ k < den := (Nat.mul_le_mul_left num hlow).trans_lt hfloor
    rw [hk]
    constructor
    · rw [zpow_neg, zpow_natCast, inv_mul_le_iff₀ (by positivity)]
      exact_mod_cast (Nat.mul_comm _ _).symm ▸ hfirst
    · have hplace : -((k + 1 : Nat) : Int) + 1 = -(k : Int) := by omega
      rw [hplace, zpow_neg, zpow_natCast, lt_inv_mul_iff₀ (by positivity)]
      exact_mod_cast (Nat.mul_comm _ _).symm ▸ hlast

/-! ## Grids -/

namespace Binary
variable {b : Binary} {tie : Tie} {exponent : Int} {c : Nat}

theorem quarter_spec (b : Binary) (exponent : Int) : 0 < (b.quarter exponent).2 ∧
    4 * (b.quarter exponent).1 * (10 : ℚ) ^ exponent =
      2 ^ b.exponent * (b.quarter exponent).2 := by
  obtain ⟨hden, htwo⟩ := ratio_spec 1 2 (by decide) (b.exponent - 2)
  obtain ⟨hten, hone⟩ := ratio_spec 1 10 (by decide) (-exponent)
  refine ⟨Nat.mul_pos hden hten, ?_⟩
  have h10 : (10 : ℚ) ^ (-exponent) * 10 ^ exponent = 1 := by
    rw [← zpow_add₀ (by norm_num), neg_add_cancel, zpow_zero]
  have h2 : (2 : ℚ) ^ b.exponent = 4 * 2 ^ (b.exponent - 2) := by
    rw [← sub_add_cancel b.exponent 2, zpow_add₀ (by norm_num), add_sub_cancel_right]
    norm_num [mul_comm]
  have hquarter : b.quarter exponent =
    ((ratio 1 2 (b.exponent - 2)).1 * (ratio 1 10 (-exponent)).1,
      (ratio 1 2 (b.exponent - 2)).2 * (ratio 1 10 (-exponent)).2) := rfl
  rw [hquarter]
  push_cast at htwo hone ⊢
  rw [htwo, hone, h2]
  linear_combination (4 * 2 ^ (b.exponent - 2) * ((ratio 1 2 (b.exponent - 2)).2 : ℚ) *
    ((ratio 1 10 (-exponent)).2 : ℚ)) * h10

theorem le_of_hits (h : b.hits exponent c = true) :
    c * (b.quarter exponent).2 ≤ (4 * b.mantissa + 2) * (b.quarter exponent).1 := by
  rw [hits] at h
  dsimp only at h
  split at h <;> obtain ⟨-, h⟩ := (Bool.and_eq_true _ _).mp h
  · exact of_decide_eq_true h
  · exact (of_decide_eq_true h).le

theorem hits_of_lt
    (hlow : (if b.narrow then 4 * b.mantissa - 1 else 4 * b.mantissa - 2) *
      (b.quarter exponent).1 < c * (b.quarter exponent).2)
    (hhigh : c * (b.quarter exponent).2 < (4 * b.mantissa + 2) * (b.quarter exponent).1) :
    b.hits exponent c = true := by
  rw [hits]
  dsimp only
  split <;> refine (Bool.and_eq_true _ _).mpr ⟨decide_eq_true ?_, decide_eq_true ?_⟩
  · exact hlow.le
  · exact hhigh.le
  · exact hlow
  · exact hhigh

theorem nearer_eq (b : Binary) (tie : Tie) (exponent : Int) :
    b.nearer tie exponent = b.floor exponent ∨ b.nearer tie exponent = b.floor exponent + 1 := by
  rw [nearer]
  dsimp only
  split
  · exact .inl rfl
  · split
    · exact .inr rfl
    · cases tie with
      | up => exact .inr rfl
      | even =>
        dsimp only
        split
        · exact .inl rfl
        · exact .inr rfl

/-- What is found on a grid is a hit and a neighbour. -/
theorem hits_of_onGrid? (h : b.onGrid? tie exponent = some c) :
    b.hits exponent c = true ∧ c ≤ b.floor exponent + 1 := by
  rw [onGrid?] at h
  cases hlow : b.hits exponent (b.floor exponent) <;>
  cases hhigh : b.hits exponent (b.floor exponent + 1) <;> rw [hlow, hhigh] at h <;> cases h
  case false.true => exact ⟨hhigh, le_rfl⟩
  case true.false => exact ⟨hlow, Nat.le_succ _⟩
  case true.true =>
    rcases b.nearer_eq tie exponent with hnearer | hnearer <;> rw [hnearer]
    · exact ⟨hlow, Nat.le_succ _⟩
    · exact ⟨hhigh, le_rfl⟩

theorem exists_onGrid? (h : b.hits exponent (b.floor exponent) = true ∨
    b.hits exponent (b.floor exponent + 1) = true) : ∃ c, b.onGrid? tie exponent = some c := by
  rw [onGrid?]
  cases hlow : b.hits exponent (b.floor exponent) <;>
  cases hhigh : b.hits exponent (b.floor exponent + 1)
  case false.false =>
    rw [hlow, hhigh] at h
    rcases h with h | h <;> cases h
  all_goals exact ⟨_, rfl⟩

theorem unit_lt {k : Nat} (h : 4 * (10 : ℚ) ^ exponent < k * 2 ^ b.exponent) :
    (b.quarter exponent).2 < k * (b.quarter exponent).1 := by
  obtain ⟨hpos, hquarter⟩ := b.quarter_spec exponent
  have hten : (0 : ℚ) < 10 ^ exponent := by positivity
  have hunit : (0 : ℚ) < (b.quarter exponent).2 := by exact_mod_cast hpos
  have hlt : ((b.quarter exponent).2 : ℚ) < k * (b.quarter exponent).1 := by
    refine lt_of_mul_lt_mul_right ?_ (mul_pos (by norm_num : (0 : ℚ) < 4) hten).le
    calc ((b.quarter exponent).2 : ℚ) * (4 * 10 ^ exponent)
        < (b.quarter exponent).2 * (k * 2 ^ b.exponent) := mul_lt_mul_of_pos_left h hunit
      _ = k * (4 * (b.quarter exponent).1 * 10 ^ exponent) := by rw [hquarter]; ring
      _ = k * (b.quarter exponent).1 * (4 * 10 ^ exponent) := by ring
  exact_mod_cast hlt

/-- On a grid that is fine enough one of the neighbours is a hit: the lower one, unless it is further
away than what reads back reaches down. -/
theorem hits_of_fine (hm : 0 < b.mantissa)
    (hfine : (b.quarter exponent).2 < 4 * (b.quarter exponent).1)
    (hnarrow : b.narrow = true → (b.quarter exponent).2 < 2 * (b.quarter exponent).1) :
    b.hits exponent (b.floor exponent) = true ∨
    b.hits exponent (b.floor exponent + 1) = true := by
  have hpos : 0 < (b.quarter exponent).2 := (b.quarter_spec exponent).1
  have hfloor : b.floor exponent * (b.quarter exponent).2 ≤
      4 * b.mantissa * (b.quarter exponent).1 := Nat.div_mul_le_self _ _
  have hnext : 4 * b.mantissa * (b.quarter exponent).1 <
      (b.floor exponent + 1) * (b.quarter exponent).2 := by
    rw [Nat.mul_comm (b.floor exponent + 1)]
    exact Nat.lt_mul_div_succ _ hpos
  have hup : (4 * b.mantissa + 2) * (b.quarter exponent).1 =
    4 * b.mantissa * (b.quarter exponent).1 + 2 * (b.quarter exponent).1 := Nat.add_mul ..
  have hstep : (b.floor exponent + 1) * (b.quarter exponent).2 =
    b.floor exponent * (b.quarter exponent).2 + (b.quarter exponent).2 := Nat.succ_mul ..
  obtain ⟨reach, hreach, hwide⟩ : ∃ reach,
      (if b.narrow then 4 * b.mantissa - 1 else 4 * b.mantissa - 2) * (b.quarter exponent).1 +
        reach = 4 * b.mantissa * (b.quarter exponent).1 ∧
      (b.quarter exponent).2 < reach + 2 * (b.quarter exponent).1 := by
    cases hn : b.narrow with
    | true =>
      refine ⟨1 * (b.quarter exponent).1, ?_, by have := hnarrow hn; omega⟩
      rw [if_pos rfl, ← Nat.add_mul, Nat.sub_add_cancel (by omega)]
    | false =>
      refine ⟨2 * (b.quarter exponent).1, ?_, by omega⟩
      rw [if_neg Bool.false_ne_true, ← Nat.add_mul, Nat.sub_add_cancel (by omega)]
  by_cases hnear : 4 * b.mantissa * (b.quarter exponent).1 <
      b.floor exponent * (b.quarter exponent).2 + reach
  · exact .inl (hits_of_lt (by omega) (by omega))
  · exact .inr (hits_of_lt (by omega) (by omega))

/-- A decimal that is found is at most half a place above the double. -/
theorem le_of_onGrid? (h : b.onGrid? tie exponent = some c) :
    (c : ℚ) * 10 ^ exponent ≤ (b.mantissa + 1 / 2) * 2 ^ b.exponent := by
  obtain ⟨hpos, hquarter⟩ := b.quarter_spec exponent
  have hle : (c : ℚ) * (b.quarter exponent).2 ≤
      (4 * b.mantissa + 2) * (b.quarter exponent).1 := by
    exact_mod_cast le_of_hits (hits_of_onGrid? h).1
  have hten : (0 : ℚ) < 10 ^ exponent := by positivity
  have hunit : (0 : ℚ) < (b.quarter exponent).2 := by exact_mod_cast hpos
  refine le_of_mul_le_mul_right ?_ hunit
  calc (c : ℚ) * 10 ^ exponent * (b.quarter exponent).2
      = c * (b.quarter exponent).2 * 10 ^ exponent := by ring
    _ ≤ (4 * b.mantissa + 2) * (b.quarter exponent).1 * 10 ^ exponent :=
        mul_le_mul_of_nonneg_right hle hten.le
    _ = (b.mantissa + 1 / 2) * (4 * (b.quarter exponent).1 * 10 ^ exponent) := by ring
    _ = (b.mantissa + 1 / 2) * 2 ^ b.exponent * (b.quarter exponent).2 := by
        rw [hquarter, mul_assoc]

theorem floor_lt {k : Nat} (h : b.value < 10 ^ (exponent + k)) : b.floor exponent < 10 ^ k := by
  obtain ⟨hpos, hquarter⟩ := b.quarter_spec exponent
  have hten : (0 : ℚ) < 10 ^ exponent := by positivity
  have hunit : (0 : ℚ) < (b.quarter exponent).2 := by exact_mod_cast hpos
  refine (Nat.div_lt_iff_lt_mul hpos).mpr ?_
  have hlt : (4 * b.mantissa * (b.quarter exponent).1 : ℚ) < 10 ^ k * (b.quarter exponent).2 := by
    refine lt_of_mul_lt_mul_right ?_ hten.le
    calc (4 * b.mantissa * (b.quarter exponent).1 : ℚ) * 10 ^ exponent
        = b.mantissa * (4 * (b.quarter exponent).1 * 10 ^ exponent) := by ring
      _ = b.value * (b.quarter exponent).2 := by rw [hquarter, value, mul_assoc]
      _ < 10 ^ (exponent + k) * (b.quarter exponent).2 := mul_lt_mul_of_pos_right h hunit
      _ = 10 ^ k * (b.quarter exponent).2 * 10 ^ exponent := by
          rw [zpow_add₀ (by norm_num), zpow_natCast]
          ring
  exact_mod_cast hlt

end Binary

/-! ## Shortest decimals -/

namespace Scaled

/-- Dropping zeros changes the digits and not the value. -/
theorem trim_spec (fuel : Nat) (s : Scaled) :
    (s.trim fuel).value = s.value ∧ (s.trim fuel).digits ≤ s.digits := by
  induction fuel generalizing s with
  | zero => exact ⟨rfl, le_rfl⟩
  | succ fuel ih =>
    rw [trim]
    split
    · rename_i hzero
      have hzero := (Bool.and_eq_true _ _).mp hzero
      obtain ⟨hvalue, hdigits⟩ := ih ⟨s.digits / 10, s.exponent + 1⟩
      refine ⟨hvalue.trans ?_, hdigits.trans (Nat.div_le_self _ _)⟩
      have hten : s.digits / 10 * 10 = s.digits :=
        Nat.div_mul_cancel (Nat.dvd_of_mod_eq_zero (of_decide_eq_true hzero.1))
      have hten : ((s.digits / 10 : Nat) : ℚ) * 10 = s.digits := by exact_mod_cast hten
      rw [value, value, zpow_add₀ (by norm_num), zpow_one, ← hten]
      ring
    · exact ⟨rfl, le_rfl⟩

end Scaled

namespace Binary
variable {b : Binary} {tie : Tie} {place : Int}

/-- The search ends on a grid of at most seventeen digits, if there is a hit on that one. -/
theorem search_spec (hfound : ∃ c, b.onGrid? tie (place - 16) = some c) {fuel count : Nat}
    (hfuel : 0 < fuel) (hcount : fuel + count = 18) : ∃ c, ∃ k : Nat, k ≤ 17 ∧
      b.onGrid? tie (place - k + 1) = some c ∧
      b.search tie place fuel count = Scaled.trim 20 ⟨c, place - k + 1⟩ := by
  induction fuel generalizing count with
  | zero => cases hfuel
  | succ fuel ih =>
    rw [search]
    cases hgrid : b.onGrid? tie (place - count + 1) with
    | some c => exact ⟨c, count, by omega, hgrid, rfl⟩
    | none =>
      obtain rfl | hfuel := Nat.eq_zero_or_pos fuel
      · obtain ⟨c, hc⟩ := hfound
        have hlast : place - count + 1 = place - 16 := by omega
        rw [hlast, hc] at hgrid
        cases hgrid
      · exact ih hfuel (by omega)

/-- The decimal that stands for a double is at most half a place above it, and has seventeen digits at
most. -/
theorem shortest_spec (hm : 0 < b.mantissa) (hmax : b.mantissa < 2 ^ 53)
    (hnarrow : b.narrow = true → b.mantissa ≤ 2 ^ 52) (tie : Tie) :
    (b.shortest tie).value ≤ (b.mantissa + 1 / 2) * 2 ^ b.exponent ∧
    (b.shortest tie).digits ≤ 10 ^ 17 := by
  obtain ⟨hden, hratio⟩ := ratio_spec b.mantissa 2 (by decide) b.exponent
  have hdenQ : (0 : ℚ) < (ratio b.mantissa 2 b.exponent).2 := by exact_mod_cast hden
  have hvalue : ((ratio b.mantissa 2 b.exponent).1 : ℚ) =
    b.value * (ratio b.mantissa 2 b.exponent).2 := hratio
  have hnum : 0 < (ratio b.mantissa 2 b.exponent).1 := by
    have : (0 : ℚ) < (ratio b.mantissa 2 b.exponent).1 := by
      rw [hratio]
      positivity
    exact_mod_cast this
  obtain ⟨hlow, hhigh⟩ := leadingPlace_spec hnum hden
  rw [hvalue] at hlow hhigh
  have hlow := le_of_mul_le_mul_right hlow hdenQ
  have hhigh := lt_of_mul_lt_mul_right hhigh hdenQ.le
  have hshortest : b.shortest tie = b.search tie
      (leadingPlace (ratio b.mantissa 2 b.exponent).1 (ratio b.mantissa 2 b.exponent).2) 17 1 :=
    if_neg hm.ne'
  generalize leadingPlace _ _ = place at hlow hhigh hshortest
  -- seventeen digits are fine enough: ten of their units reach further than the last binary place
  have hplace : (10 : ℚ) ^ place = 10 ^ 16 * 10 ^ (place - 16) := by
    rw [← zpow_natCast, ← zpow_add₀ (by norm_num)]
    congr 1
    push_cast
    ring
  have htwo : (0 : ℚ) < 2 ^ b.exponent := by positivity
  have hsize : ∀ n : Nat, b.mantissa ≤ n → 10 ^ 16 * (10 : ℚ) ^ (place - 16) ≤ n * 2 ^ b.exponent := by
    intro n hn
    rw [← hplace]
    exact hlow.trans (mul_le_mul_of_nonneg_right (by exact_mod_cast hn) htwo.le)
  have hfound : ∃ c, b.onGrid? tie (place - 16) = some c := by
    refine exists_onGrid? (hits_of_fine hm (unit_lt ?_) fun hn => unit_lt ?_)
    · have := hsize (2 ^ 53) hmax.le
      push_cast at this ⊢
      linarith
    · have := hsize (2 ^ 52) (hnarrow hn)
      push_cast at this ⊢
      linarith
  obtain ⟨c, k, hk, hgrid, hsearch⟩ := @search_spec b tie place hfound 17 1 (by decide) rfl
  obtain ⟨htrim, hdigits⟩ := Scaled.trim_spec 20 ⟨c, place - k + 1⟩
  rw [hshortest, hsearch, htrim]
  refine ⟨le_of_onGrid? hgrid, hdigits.trans ?_⟩
  have hfloor : b.floor (place - k + 1) < 10 ^ k := by
    refine floor_lt ?_
    rwa [sub_add_eq_add_sub, sub_add_cancel]
  calc c ≤ b.floor (place - k + 1) + 1 := (hits_of_onGrid? hgrid).2
    _ ≤ 10 ^ k := hfloor
    _ ≤ 10 ^ 17 := Nat.pow_le_pow_right (by decide) hk

end Binary
end BloqCircuit.Decimal
