import BloqCircuit.Proofs.Json.Tokens
/-! Reading inverts writing: an indented text is read as the value that was written. Blanks before a
value, and between values, do not matter. -/
namespace BloqCircuit
open BloqCircuit.Decimal (Numeral)

namespace Json.Reader

/-! ## Blanks -/

theorem skipSpace_cons {c : Char} (h : isSpace c = false) (s : List Char) :
    skipSpace (c :: s) = c :: s := by
  rw [skipSpace, List.dropWhile_cons_of_neg (ne_true_of_eq_false h)]

theorem toList_newLine (depth : Nat) :
    (newLine depth).toList = '\n' :: List.replicate (2 * depth) ' ' := by
  simp only [newLine, String.toList_append, String.toList_ofList]
  rfl

theorem skipSpace_newLine (depth : Nat) (s : List Char) :
    skipSpace ((newLine depth).toList ++ s) = skipSpace s := by
  rw [toList_newLine, List.cons_append]
  induction 2 * depth with
  | zero => rfl
  | succ n ih => exact ih

theorem skipSpace_skipSpace (s : List Char) : skipSpace (skipSpace s) = skipSpace s := by
  induction s with
  | nil => rfl
  | cons c s ih =>
    by_cases hc : isSpace c = true
    · have : skipSpace (c :: s) = skipSpace s := List.dropWhile_cons_of_pos hc
      rw [this, ih]
    · rw [skipSpace_cons (eq_false_of_ne_true hc), skipSpace_cons (eq_false_of_ne_true hc)]

theorem value?_skipSpace (fuel : Nat) (s : List Char) :
    value? fuel (skipSpace s) = value? fuel s := by
  cases fuel with
  | zero => rfl
  | succ fuel =>
    exact congrArg (form? (elements? fuel) (members? fuel)) (skipSpace_skipSpace s)

theorem value?_newLine (fuel depth : Nat) (s : List Char) :
    value? fuel ((newLine depth).toList ++ s) = value? fuel s := by
  rw [← value?_skipSpace, skipSpace_newLine, value?_skipSpace]

theorem ended_newLine (depth : Nat) (s : List Char) : Ended ((newLine depth).toList ++ s) := by
  intro c hc
  rw [toList_newLine] at hc
  cases hc
  decide

theorem ended_comma (s : List Char) : Ended (',' :: s) := by
  intro c hc
  cases hc
  decide

theorem elements?_skipSpace (fuel : Nat) (s : List Char) :
    elements? fuel (skipSpace s) = elements? fuel s := by
  cases fuel with
  | zero => rfl
  | succ fuel =>
    change (value? fuel (skipSpace s)).bind _ = (value? fuel s).bind _
    rw [value?_skipSpace]

theorem members?_skipSpace (fuel : Nat) (s : List Char) :
    members? fuel (skipSpace s) = members? fuel s := by
  cases fuel with
  | zero => rfl
  | succ fuel =>
    exact congrArg (membersAt? (value? fuel) (members? fuel)) (skipSpace_skipSpace s)

/-! ## Steps of the reader -/

section
variable {fuel : Nat} {r s t u v w x : List Char} {j : Json} {js : List Json} {name : Option String}
  {ms : List (Option String × Json)}

theorem elements?_succ (hj : value? fuel s = some (j, t)) :
    elements? (fuel + 1) s = elementsFrom? (elements? fuel) j t := by
  change (value? fuel s).bind _ = _
  rw [hj, Option.bind_some]

theorem elements?_last (hj : value? fuel s = some (j, t)) (ht : skipSpace t = ']' :: r) :
    elements? (fuel + 1) s = some ([j], r) := by
  rw [elements?_succ hj, elementsFrom?, ht]
  rfl

theorem elements?_more (hj : value? fuel s = some (j, t)) (ht : skipSpace t = ',' :: r)
    (hjs : elements? fuel r = some (js, u)) : elements? (fuel + 1) s = some (j :: js, u) := by
  rw [elements?_succ hj, elementsFrom?, ht]
  change (elements? fuel r).map _ = _
  rw [hjs, Option.map_some]

theorem members?_succ (hs : skipSpace s = '"' :: u) (hname : inside? u = some (name, v))
    (hcolon : skipSpace v = ':' :: w) (hj : value? fuel w = some (j, t)) :
    members? (fuel + 1) s = membersFrom? (members? fuel) (name, j) t := by
  change membersAt? (value? fuel) (members? fuel) (skipSpace s) = _
  rw [hs]
  change (inside? u).bind _ = _
  rw [hname, Option.bind_some, membersAfter?, hcolon]
  change (value? fuel w).bind _ = _
  rw [hj, Option.bind_some]

theorem members?_last (hs : skipSpace s = '"' :: u) (hname : inside? u = some (name, v))
    (hcolon : skipSpace v = ':' :: w) (hj : value? fuel w = some (j, t))
    (ht : skipSpace t = '\x7d' :: r) : members? (fuel + 1) s = some ([(name, j)], r) := by
  rw [members?_succ hs hname hcolon hj, membersFrom?, ht]
  rfl

theorem members?_more (hs : skipSpace s = '"' :: u) (hname : inside? u = some (name, v))
    (hcolon : skipSpace v = ':' :: w) (hj : value? fuel w = some (j, t))
    (ht : skipSpace t = ',' :: r) (hms : members? fuel r = some (ms, x)) :
    members? (fuel + 1) s = some ((name, j) :: ms, x) := by
  rw [members?_succ hs hname hcolon hj, membersFrom?, ht]
  change (members? fuel r).map _ = _
  rw [hms, Option.map_some]

theorem value?_succ (hs : skipSpace s = t) :
    value? (fuel + 1) s = form? (elements? fuel) (members? fuel) t := by
  rw [← hs]
  rfl

theorem value?_bracket (hs : skipSpace s = ']' :: t) : value? fuel s = none := by
  cases fuel with
  | zero => rfl
  | succ fuel =>
    rw [value?_succ hs]
    rfl

theorem value?_array (hs : skipSpace s = '[' :: t) (hjs : elements? fuel t = some (js, r)) :
    value? (fuel + 1) s = some (.array js, r) := by
  rw [value?_succ hs]
  change array? (elements? fuel) t = _
  rw [array?]
  split
  · cases fuel with
    | zero => cases hjs
    | succ fuel =>
      change (value? fuel t).bind _ = _ at hjs
      rw [value?_bracket ‹_›] at hjs
      cases hjs
  · rw [elements?_skipSpace, hjs, Option.map_some]

theorem value?_object (hs : skipSpace s = '\x7b' :: t) (hms : members? fuel t = some (ms, r)) :
    value? (fuel + 1) s = some (.object ms, r) := by
  rw [value?_succ hs]
  change object? (members? fuel) t = _
  rw [object?]
  split
  · cases fuel with
    | zero => cases hms
    | succ fuel =>
      change membersAt? (value? fuel) (members? fuel) (skipSpace t) = _ at hms
      rw [‹skipSpace t = _›] at hms
      cases hms
  · rw [members?_skipSpace, hms, Option.map_some]

theorem value?_string (hs : skipSpace s = '"' :: t) (ht : inside? t = some (name, r)) :
    value? (fuel + 1) s = some (.string name, r) := by
  rw [value?_succ hs]
  change (inside? t).map _ = _
  rw [ht, Option.map_some]

theorem value?_number {c : Char} (hc : c = '-' ∨ c.isDigit = true) {n : Numeral}
    (hn : numeral? (c :: s) = some (n, r)) : value? (fuel + 1) (c :: s) = some (.number n, r) := by
  have hne : ∀ d, ¬(d = '-' ∨ d.isDigit = true) → c ≠ d := fun d hd h => hd (h ▸ hc)
  have hspace : isSpace c = false := by
    simp only [isSpace, Bool.or_eq_false_iff, decide_eq_false_iff_not]
    exact ⟨⟨⟨hne _ (by decide), hne _ (by decide)⟩, hne _ (by decide)⟩, hne _ (by decide)⟩
  rw [value?_succ (skipSpace_cons hspace s), form?, hn, Option.map_some]
  all_goals exact fun _ h => absurd (List.cons.inj h).1 (hne _ (by decide))

end

end Json.Reader

namespace Json
open Reader

/-! ## Text -/

/-- Parts on lines of their own, with commas between them. -/
def lines (depth : Nat) (parts : List String) : List Char :=
  (",".intercalate (parts.map (newLine depth ++ ·))).toList

theorem lines_singleton (depth : Nat) (part : String) :
    lines depth [part] = (newLine depth).toList ++ part.toList := by
  rw [lines, List.map_singleton, String.intercalate_singleton, String.toList_append]

theorem lines_cons (depth : Nat) (part : String) {parts : List String} (h : parts ≠ []) :
    lines depth (part :: parts) =
      (newLine depth).toList ++ (part.toList ++ ',' :: lines depth parts) := by
  have hne : parts.map (newLine depth ++ ·) ≠ [] := mt List.map_eq_nil_iff.mp h
  rw [lines, List.map_cons, String.intercalate_cons_of_ne_nil hne]
  simp only [String.toList_append, List.append_assoc]
  rfl

theorem length_lines (depth : Nat) (part : String) (parts : List String) :
    part.toList.length + (lines depth parts).length < (lines depth (part :: parts)).length := by
  by_cases h : parts = []
  · rw [h, lines_singleton, toList_newLine]
    simp only [lines, List.map_nil, String.intercalate_nil, List.length_append, List.length_cons]
    simp
  · rw [lines_cons _ _ h, toList_newLine]
    simp only [List.length_append, List.length_cons]
    omega

theorem toList_block (depth : Nat) (opening closing : String) {parts : List String}
    (h : parts ≠ []) : (block depth opening closing parts).toList =
      opening.toList ++ (lines (depth + 1) parts ++ ((newLine depth).toList ++ closing.toList)) := by
  rw [block, if_neg (mt List.isEmpty_iff.mp h)]
  simp only [String.toList_append, List.append_assoc]
  rfl

theorem indentedElements_eq (depth : Nat) (js : List Json) :
    indentedElements depth js = js.map (indented depth) := by
  induction js with
  | nil => rw [indentedElements, List.map_nil]
  | cons j js ih => rw [indentedElements, ih, List.map_cons]

/-- A member as it is written. -/
def memberText (depth : Nat) (m : Option String × Json) : String :=
  nameText m.1 ++ ": " ++ m.2.indented depth

theorem indentedMembers_eq (depth : Nat) (ms : List (Option String × Json)) :
    indentedMembers depth ms = ms.map (memberText depth) := by
  induction ms with
  | nil => rw [indentedMembers, List.map_nil]
  | cons m ms ih => rw [indentedMembers, ih, List.map_cons, memberText]

/-! ## Values -/

/-- A value is read back wherever it is written. -/
def Reads (j : Json) : Prop := ∀ depth fuel s, (j.indented depth).toList.length < fuel → Ended s →
  value? fuel ((j.indented depth).toList ++ s) = some (j, s)

theorem elements?_lines {depth outer : Nat} {js : List Json} (hne : js ≠ [])
    (h : ∀ j ∈ js, j.Reads) {fuel : Nat} (s : List Char)
    (hfuel : (lines depth (js.map (indented depth))).length < fuel) :
    elements? fuel (lines depth (js.map (indented depth)) ++
      ((newLine outer).toList ++ ']' :: s)) = some (js, s) := by
  induction js generalizing fuel with
  | nil => exact absurd rfl hne
  | cons j js ih =>
    obtain ⟨hj, hjs⟩ := List.forall_mem_cons.mp h
    have hlength := length_lines depth (j.indented depth) (js.map (indented depth))
    rw [List.map_cons] at hfuel ⊢
    obtain ⟨fuel, rfl⟩ : ∃ n, fuel = n + 1 := ⟨fuel - 1, by omega⟩
    by_cases hlast : js = []
    · have hclose : skipSpace ((newLine outer).toList ++ ']' :: s) = ']' :: s :=
        (skipSpace_newLine _ _).trans (skipSpace_cons rfl _)
      rw [hlast, List.map_nil, lines_singleton, List.append_assoc]
      refine elements?_last ?_ hclose
      rw [value?_newLine]
      exact hj depth fuel _ (by omega) (ended_newLine _ _)
    · rw [lines_cons _ _ (mt List.map_eq_nil_iff.mp hlast)]
      simp only [List.append_assoc, List.cons_append]
      refine elements?_more ?_ (skipSpace_cons rfl _) (ih hlast hjs (by omega))
      rw [value?_newLine]
      exact hj depth fuel _ (by omega) (ended_comma _)

theorem length_memberText (depth : Nat) (m : Option String × Json) :
    (m.2.indented depth).toList.length ≤ (memberText depth m).toList.length := by
  simp only [memberText, String.toList_append, List.length_append]
  omega

/-- The name of a member is read, and then its value. -/
theorem memberText_spec (depth : Nat) (t : String) (j : Json) (s : List Char) :
    ∃ u, (memberText depth (some t, j)).toList ++ s = '"' :: u ∧
      inside? u = some (some t, ':' :: ' ' :: ((j.indented depth).toList ++ s)) := by
  obtain ⟨u, htext, hu⟩ := inside?_stringText t (':' :: ' ' :: ((j.indented depth).toList ++ s))
  refine ⟨u, ?_, hu⟩
  rw [← htext, memberText]
  simp only [String.toList_append, List.append_assoc]
  rfl

theorem members?_lines {depth outer : Nat} {ms : List (Option String × Json)} (hne : ms ≠ [])
    (hnames : ∀ m ∈ ms, m.1.isSome = true) (h : ∀ m ∈ ms, m.2.Reads) {fuel : Nat} (s : List Char)
    (hfuel : (lines depth (ms.map (memberText depth))).length < fuel) :
    members? fuel (lines depth (ms.map (memberText depth)) ++
      ((newLine outer).toList ++ '\x7d' :: s)) = some (ms, s) := by
  induction ms generalizing fuel with
  | nil => exact absurd rfl hne
  | cons m ms ih =>
    obtain ⟨hm, hms⟩ := List.forall_mem_cons.mp h
    obtain ⟨hname, hrest⟩ := List.forall_mem_cons.mp hnames
    have hlength := length_lines depth (memberText depth m) (ms.map (memberText depth))
    have hvalue := length_memberText depth m
    rw [List.map_cons] at hfuel ⊢
    obtain ⟨fuel, rfl⟩ : ∃ n, fuel = n + 1 := ⟨fuel - 1, by omega⟩
    obtain ⟨name, j⟩ := m
    obtain ⟨t, rfl⟩ := Option.isSome_iff_exists.mp hname
    have hread : ∀ r, Ended r → value? fuel (' ' :: ((j.indented depth).toList ++ r)) = some (j, r) := by
      intro r hr
      rw [← value?_skipSpace]
      exact (value?_skipSpace fuel ((j.indented depth).toList ++ r)).trans
        (hm depth fuel r (by omega) hr)
    by_cases hlast : ms = []
    · have hclose : skipSpace ((newLine outer).toList ++ '\x7d' :: s) = '\x7d' :: s :=
        (skipSpace_newLine _ _).trans (skipSpace_cons rfl _)
      obtain ⟨u, htext, hu⟩ := memberText_spec depth t j ((newLine outer).toList ++ '\x7d' :: s)
      rw [hlast, List.map_nil, lines_singleton, List.append_assoc, htext]
      exact members?_last ((skipSpace_newLine _ _).trans (skipSpace_cons rfl _)) hu
        (skipSpace_cons rfl _) (hread _ (ended_newLine _ _)) hclose
    · obtain ⟨u, htext, hu⟩ := memberText_spec depth t j
        (',' :: (lines depth (ms.map (memberText depth)) ++ ((newLine outer).toList ++ '\x7d' :: s)))
      rw [lines_cons _ _ (mt List.map_eq_nil_iff.mp hlast)]
      simp only [List.append_assoc, List.cons_append]
      rw [htext]
      exact members?_more ((skipSpace_newLine _ _).trans (skipSpace_cons rfl _)) hu
        (skipSpace_cons rfl _) (hread _ (ended_comma _)) (skipSpace_cons rfl _)
        (ih hlast hrest hms (by omega))

/-- No string has half of a surrogate pair alone in it. -/
inductive Proper : Json → Prop
  | null : Proper .null
  | bool (b : Bool) : Proper (.bool b)
  | number (n : Numeral) : Proper (.number n)
  | text (t : String) : Proper (.text t)
  | array {js : List Json} (h : ∀ j ∈ js, Proper j) : Proper (.array js)
  | object {ms : List (Option String × Json)} (names : ∀ m ∈ ms, m.1.isSome = true)
      (h : ∀ m ∈ ms, Proper m.2) : Proper (.object ms)

theorem reads_number (n : Numeral) : (number n).Reads := by
  intro depth fuel s hfuel hs
  obtain ⟨fuel, rfl⟩ : ∃ n, fuel = n + 1 := ⟨fuel - 1, by omega⟩
  have hn := numeral?_text n hs
  rw [indented]
  obtain ⟨c, r, htext, hc⟩ : ∃ c r, n.text.toList = c :: r ∧ (c = '-' ∨ c.isDigit = true) := by
    obtain ⟨d, ds, hdigits⟩ := exists_toString n.whole
    rw [toList_text, hdigits]
    cases n.negative with
    | true => exact ⟨_, _, rfl, .inl rfl⟩
    | false => exact ⟨_, _, rfl, .inr (isDigit_char d)⟩
  rw [htext] at hn ⊢
  exact value?_number hc hn

theorem reads_text (t : String) : (text t).Reads := by
  intro depth fuel s hfuel hs
  obtain ⟨fuel, rfl⟩ : ∃ n, fuel = n + 1 := ⟨fuel - 1, by omega⟩
  obtain ⟨r, htext, hr⟩ := inside?_stringText t s
  rw [text, indented, nameText, Option.getD_some, htext]
  exact value?_string (skipSpace_cons rfl r) hr

theorem toList_block_nil (depth : Nat) (opening closing : String) :
    (block depth opening closing []).toList = opening.toList ++ closing.toList := by
  rw [block, if_pos List.isEmpty_nil, String.toList_append]

theorem reads_array {js : List Json} (h : ∀ j ∈ js, j.Reads) : (array js).Reads := by
  intro depth fuel s hfuel hs
  obtain ⟨fuel, rfl⟩ : ∃ n, fuel = n + 1 := ⟨fuel - 1, by omega⟩
  rw [indented, indentedElements_eq] at hfuel ⊢
  by_cases hne : js = []
  · rw [hne, List.map_nil, toList_block_nil]
    rfl
  · rw [toList_block _ _ _ (mt List.map_eq_nil_iff.mp hne)] at hfuel ⊢
    simp only [List.append_assoc, List.length_append] at hfuel ⊢
    refine value?_array (skipSpace_cons rfl _) (elements?_lines hne h s ?_)
    have : 0 < "[".toList.length := by decide
    omega

theorem reads_object {ms : List (Option String × Json)} (names : ∀ m ∈ ms, m.1.isSome = true)
    (h : ∀ m ∈ ms, m.2.Reads) : (object ms).Reads := by
  intro depth fuel s hfuel hs
  obtain ⟨fuel, rfl⟩ : ∃ n, fuel = n + 1 := ⟨fuel - 1, by omega⟩
  rw [indented, indentedMembers_eq] at hfuel ⊢
  by_cases hne : ms = []
  · rw [hne, List.map_nil, toList_block_nil]
    rfl
  · rw [toList_block _ _ _ (mt List.map_eq_nil_iff.mp hne)] at hfuel ⊢
    simp only [List.append_assoc, List.length_append] at hfuel ⊢
    refine value?_object (skipSpace_cons rfl _) (members?_lines hne names h s ?_)
    have : 0 < "\x7b".toList.length := by decide
    omega

theorem Proper.reads {j : Json} (h : j.Proper) : j.Reads := by
  induction h with
  | null =>
    intro depth fuel s hfuel hs
    rw [indented] at hfuel ⊢
    cases fuel with
    | zero => cases hfuel
    | succ fuel => rfl
  | bool b =>
    intro depth fuel s hfuel hs
    cases b <;> rw [indented] at hfuel ⊢ <;>
    cases fuel with
    | zero => cases hfuel
    | succ fuel => rfl
  | number n => exact reads_number n
  | text t => exact reads_text t
  | array h ih => exact reads_array ih
  | object names h ih => exact reads_object names ih

/-- Reading inverts writing. -/
theorem Proper.read?_pretty {j : Json} (h : j.Proper) : read? j.pretty = some j := by
  have hend : Ended [] := by
    intro c hc
    cases hc
  have hread := h.reads 0 (j.pretty.length + 1) [] 
    (Nat.lt_succ_of_le (Nat.le_of_eq String.length_toList)) hend
  rw [List.append_nil] at hread
  change value? _ j.pretty.toList = _ at hread
  rw [read?, hread]
  rfl

end Json
end BloqCircuit
