import BloqCircuit.Json.Reader
import BloqCircuit.Json.Writer
/-! Numerals and strings of JSON: what is written is read back, whatever follows it. A numeral must
end where its text ends. -/
namespace BloqCircuit.Json.Reader
open BloqCircuit.Decimal (Digit Numeral)

/-! ## Digits -/

/-- Not a digit at the front. -/
def Digitless (s : List Char) : Prop := ∀ c ∈ s.head?, c.isDigit = false

/-- Nothing at the front that a numeral could go on with. -/
def Ended (s : List Char) : Prop := ∀ c ∈ s.head?, ¬(c.isDigit ∨ c = '.' ∨ c = 'e' ∨ c = 'E')

theorem Ended.digitless {s : List Char} (h : Ended s) : Digitless s := fun c hc =>
  eq_false_of_ne_true fun hd => h c hc (.inl hd)

theorem digit?_char (d : Digit) : digit? d.char = some d := by
  revert d
  decide

theorem isDigit_char (d : Digit) : d.char.isDigit = true := by
  revert d
  decide

theorem digits_of_digitless {s : List Char} (h : Digitless s) : digits s = ([], s) := by
  cases s with
  | nil => rfl
  | cons c r =>
    have hc : digit? c = none := if_neg (ne_true_of_eq_false (h c rfl))
    rw [digits, hc]

theorem digits_append (ds : List Digit) {s : List Char} (h : Digitless s) :
    digits (ds.map Digit.char ++ s) = (ds, s) := by
  induction ds with
  | nil => exact digits_of_digitless h
  | cons d ds ih =>
    rw [List.map_cons, List.cons_append, digits, digit?_char]
    dsimp only
    rw [ih]

theorem exists_digits (n : Nat) : ∃ d ds, Nat.toDigits 10 n = (d :: ds).map Digit.char ∧
    valueOf (d :: ds) = n ∧ (d.val = 0 → ds = []) := by
  induction n using Nat.strongRecOn with
  | ind n ih =>
    obtain hn | hn := Nat.lt_or_ge n 10
    · refine ⟨⟨n, hn⟩, [], Nat.toDigits_of_lt_base hn, ?_, fun _ => rfl⟩
      exact Nat.zero_add n
    · obtain ⟨d, ds, htext, hvalue, hzero⟩ := ih (n / 10) (by omega)
      refine ⟨d, ds ++ [.last n], ?_, ?_, fun hd => ?_⟩
      · rw [Nat.toDigits_of_base_le (by decide) hn, htext, ← List.cons_append, List.map_append]
        rfl
      · rw [← List.cons_append, valueOf, List.foldl_append]
        change 10 * valueOf (d :: ds) + n % 10 = n
        omega
      · rw [hzero hd] at hvalue
        change 10 * 0 + d.val = n / 10 at hvalue
        omega

theorem whole?_text (n : Nat) {s : List Char} (h : Digitless s) :
    whole? ((toString n).toList ++ s) = some (n, s) := by
  obtain ⟨d, ds, htext, hvalue, hzero⟩ := exists_digits n
  rw [Nat.toString_eq_ofList_toDigits, String.toList_ofList, htext, whole?, digits_append _ h]
  cases ds with
  | nil =>
    have : d.val = n := (Nat.zero_add _).symm.trans hvalue
    exact this ▸ rfl
  | cons d' ds =>
    have hd : d.val ≠ 0 := fun hd => List.cons_ne_nil _ _ (hzero hd)
    dsimp only
    rw [if_neg hd, hvalue]

theorem exists_toString (n : Nat) : ∃ d ds, (toString n).toList = Digit.char d :: ds := by
  obtain ⟨d, ds, htext, -⟩ := exists_digits n
  rw [Nat.toString_eq_ofList_toDigits, String.toList_ofList, htext]
  exact ⟨d, _, rfl⟩

/-! ## Numerals -/

/-- The digits of a fraction with the point. -/
def fractionPart (ds : List Digit) : List Char :=
  if ds.isEmpty then [] else '.' :: ds.map Digit.char

theorem digitless_fractionPart (ds : List Digit) {s : List Char} (h : Digitless s) :
    Digitless (fractionPart ds ++ s) := by
  cases ds with
  | nil => exact h
  | cons d ds =>
    intro c hc
    cases hc
    rfl

theorem fraction?_fractionPart (ds : List Digit) {s : List Char} (h : Digitless s)
    (hpoint : s.head? ≠ some '.') : fraction? (fractionPart ds ++ s) = some (ds, s) := by
  cases ds with
  | nil =>
    cases s with
    | nil => rfl
    | cons c r => exact fraction?.eq_2 _ fun r' hr => hpoint (congrArg List.head? hr)
  | cons d ds =>
    change fraction? ('.' :: ((d :: ds).map Digit.char ++ s)) = _
    rw [fraction?, digits_append _ h]

/-- The exponent, if one is written. -/
def exponentPart (e : Option Int) : List Char := (e.map Decimal.exponentText).elim [] String.toList

theorem head?_exponentPart (e : Int) (s : List Char) :
    (exponentPart (some e) ++ s).head? = some 'e' := by
  change ((Decimal.exponentText e).toList ++ s).head? = _
  rw [Decimal.exponentText, String.toList_append, String.toList_append]
  rfl

theorem digitless_exponentPart (e : Option Int) {s : List Char} (h : Ended s) :
    Digitless (exponentPart e ++ s) := by
  cases e with
  | none => exact h.digitless
  | some e =>
    intro c hc
    rw [head?_exponentPart] at hc
    cases hc
    rfl

theorem head?_exponentPart_ne (e : Option Int) {s : List Char} (h : Ended s) :
    (exponentPart e ++ s).head? ≠ some '.' := by
  intro hc
  cases e with
  | none => exact h '.' hc (.inr (.inl rfl))
  | some e =>
    rw [head?_exponentPart] at hc
    cases hc

theorem exponent?_of_ended {s : List Char} (h : Ended s) : exponent? s = some (none, s) := by
  cases s with
  | nil => rfl
  | cons c r =>
    have hc := h c rfl
    rw [exponent?.eq_def]
    split <;> simp_all

theorem power?_text (negative : Bool) (n : Nat) {s : List Char} (h : Digitless s) :
    power? negative ((toString n).toList ++ s) =
      some (some (if negative then -(n : Int) else n), s) := by
  obtain ⟨d, ds, htext, hvalue, -⟩ := exists_digits n
  rw [Nat.toString_eq_ofList_toDigits, String.toList_ofList, htext, power?, digits_append _ h]
  dsimp only
  rw [hvalue]

theorem exponent?_exponentPart (e : Option Int) {s : List Char} (h : Ended s) :
    exponent? (exponentPart e ++ s) = some (e, s) := by
  cases e with
  | none => exact exponent?_of_ended h
  | some e =>
    change exponent? ((Decimal.exponentText e).toList ++ s) = _
    rw [Decimal.exponentText, String.toList_append, String.toList_append]
    by_cases he : e < 0
    · have hvalue : -(e.natAbs : Int) = e := by omega
      rw [if_pos he]
      refine (power?_text true e.natAbs h.digitless).trans ?_
      rw [if_pos rfl, hvalue]
    · have hvalue : (e.natAbs : Int) = e := by omega
      rw [if_neg he]
      refine (power?_text false e.natAbs h.digitless).trans ?_
      rw [if_neg Bool.false_ne_true, hvalue]

/-- The parts of a numeral's text. -/
theorem toList_text (n : Numeral) : n.text.toList =
    (if n.negative then ['-'] else []) ++
      ((toString n.whole).toList ++ (fractionPart n.fraction ++ exponentPart n.exponent)) := by
  obtain ⟨negative, whole, fraction, exponent⟩ := n
  rw [Numeral.text]
  cases negative <;> cases fraction <;> cases exponent <;> simp [fractionPart, exponentPart]

theorem unsigned?_parts (n : Numeral) {s : List Char} (h : Ended s) :
    unsigned? n.negative
      ((toString n.whole).toList ++ (fractionPart n.fraction ++ (exponentPart n.exponent ++ s))) =
      some (n, s) := by
  have hexponent := digitless_exponentPart n.exponent h
  have hfraction := digitless_fractionPart n.fraction hexponent
  simp only [unsigned?, whole?_text n.whole hfraction,
    fraction?_fractionPart n.fraction hexponent (head?_exponentPart_ne n.exponent h),
    exponent?_exponentPart n.exponent h, Option.bind_eq_bind, Option.bind_some, Option.pure_def]

theorem numeral?_text (n : Numeral) {s : List Char} (h : Ended s) :
    numeral? (n.text.toList ++ s) = some (n, s) := by
  have hparts := unsigned?_parts n h
  rw [toList_text]
  simp only [List.append_assoc]
  cases hsign : n.negative with
  | true =>
    rw [hsign] at hparts
    exact hparts
  | false =>
    obtain ⟨d, ds, hdigits⟩ := exists_toString n.whole
    rw [hsign] at hparts
    refine (numeral?.eq_2 _ fun r hr => ?_).trans hparts
    rw [hdigits] at hr
    have hd := isDigit_char d
    rw [(List.cons.inj hr).1] at hd
    exact absurd hd (by decide)

/-! ## Strings -/

theorem toList_controlText {n : Nat} (h : n < 32) : (controlText n).toList =
    ['\\', 'u', '0', '0', Nat.digitChar (n / 16), Nat.digitChar (n % 16)] := by
  have hall : ∀ i : Fin 32, (controlText i).toList =
    ['\\', 'u', '0', '0', Nat.digitChar (i / 16), Nat.digitChar (i % 16)] := by decide +kernel
  exact hall ⟨n, h⟩

theorem unit?_control {n : Nat} (h : n < 32) :
    unit? '0' '0' (Nat.digitChar (n / 16)) (Nat.digitChar (n % 16)) = some n := by
  have hall : ∀ i : Fin 32, unit? '0' '0' (Nat.digitChar (i / 16)) (Nat.digitChar (i % 16)) =
    some i.val := by decide
  exact hall ⟨n, h⟩

/-- A character is read back, whether it is escaped or not. -/
theorem units?_charText (c : Char) (s : List Char) :
    units? ((charText c).toList ++ s) = (units? s).map fun p => (c.toNat :: p.1, p.2) := by
  have hescaped : ∀ e, escape? e = some c → e ≠ 'u' →
      units? ('\\' :: e :: s) = (units? s).map fun p => (c.toNat :: p.1, p.2) := by
    intro e he hne
    rw [units?.eq_4 e s (fun _ _ _ _ _ hu _ => hne hu), he]
    cases units? s <;> rfl
  by_cases hquote : c = '"'
  · subst hquote
    exact hescaped _ rfl (by decide)
  by_cases hslash : c = '\\'
  · subst hslash
    exact hescaped _ rfl (by decide)
  rw [charText, if_neg hquote, if_neg hslash]
  split
  · subst c
    exact hescaped 'n' rfl (by decide)
  split
  · subst c
    exact hescaped 'r' rfl (by decide)
  split
  · subst c
    exact hescaped 't' rfl (by decide)
  split
  · obtain rfl : c = '\x08' := Char.toNat_inj.mp ‹_›
    exact hescaped 'b' rfl (by decide)
  split
  · obtain rfl : c = '\x0c' := Char.toNat_inj.mp ‹_›
    exact hescaped 'f' rfl (by decide)
  split
  · have hcontrol : c.toNat < 32 := ‹_›
    rw [toList_controlText hcontrol]
    refine (units?.eq_3 _ _ _ _ s).trans ?_
    rw [unit?_control hcontrol]
    cases units? s <;> rfl
  · have hplain : ¬c.toNat < 32 := ‹_›
    rw [Char.toString, String.toList_singleton]
    refine (units?.eq_5 c s hquote (fun _ _ _ _ _ hc _ => hslash hc)
      (fun _ _ hc _ => hslash hc)).trans ?_
    rw [if_neg hplain]
    cases units? s <;> rfl

theorem units?_stringText (cs : List Char) (s : List Char) :
    units? (cs.flatMap (fun c => (charText c).toList) ++ '"' :: s) =
      some (cs.map Char.toNat, s) := by
  induction cs with
  | nil => rfl
  | cons c cs ih =>
    rw [List.flatMap_cons, List.append_assoc, units?_charText, ih]
    rfl

/-- No character is half of a surrogate pair. -/
theorem not_surrogate (c : Char) : isLeading c.toNat = false ∧ isTrailing c.toNat = false := by
  have hc : c.toNat < 0xd800 ∨ 0xdfff < c.toNat ∧ c.toNat < 0x110000 := c.valid
  simp only [isLeading, isTrailing, Bool.and_eq_false_iff, decide_eq_false_iff_not]
  omega

theorem ofUnits?_toNat (cs : List Char) : ofUnits? (cs.map Char.toNat) = some cs := by
  induction cs with
  | nil => rfl
  | cons c cs ih =>
    obtain ⟨hlead, htrail⟩ := not_surrogate c
    cases cs with
    | nil => 
      change (if isLeading c.toNat || isTrailing c.toNat then none else some [Char.ofNat c.toNat]) = _
      rw [hlead, htrail, Char.ofNat_toNat]
      rfl
    | cons d cs =>
      rw [List.map_cons] at ih
      rw [List.map_cons, List.map_cons, ofUnits?.eq_3, ih, hlead, htrail, Char.ofNat_toNat]
      rfl

/-- A string is read back from its text. -/
theorem inside?_stringText (t : String) (s : List Char) :
    ∃ r, (stringText t).toList ++ s = '"' :: r ∧ inside? r = some (some t, s) := by
  refine ⟨t.toList.flatMap (fun c => (charText c).toList) ++ '"' :: s, ?_, ?_⟩
  · rw [stringText]
    simp only [String.toList_append, String.toList_join, List.flatMap_map, List.append_assoc]
    rfl
  · rw [inside?, units?_stringText]
    change some ((ofUnits? (t.toList.map Char.toNat)).map String.ofList, s) = _
    rw [ofUnits?_toNat, Option.map_some, String.ofList_toList]

end BloqCircuit.Json.Reader
