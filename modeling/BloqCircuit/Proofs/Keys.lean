import Mathlib.Logic.Equiv.Basic
import Mathlib.Data.List.Nodup
import BloqCircuit.Allocator
import BloqCircuit.Operation
/-! Maps and sets by key, and lists without repetition. -/
namespace BloqCircuit

/-! ## Maps -/

section
variable {τ υ : Type} [DecidableEq τ] [Ord τ] [Std.TransOrd τ] [Std.LawfulEqOrd τ]
  {m : Std.ExtTreeMap τ υ}

theorem getElem?_insert_key {k a : τ} {v : υ} :
    (m.insert k v)[a]? = if k = a then some v else m[a]? := by
  rw [Std.ExtTreeMap.getElem?_insert]
  simp only [Std.LawfulEqOrd.compare_eq_iff_eq]

theorem getElem?_erase_key {k a : τ} : (m.erase k)[a]? = if k = a then none else m[a]? := by
  rw [Std.ExtTreeMap.getElem?_erase]
  simp only [Std.LawfulEqOrd.compare_eq_iff_eq]

end

/-! ## Repetitions -/

theorem flatMap_filter {α β : Type} {f : α → List β} {p : α → Bool} {xs : List α}
    (h : ∀ x, p x = false → f x = []) : (xs.filter p).flatMap f = xs.flatMap f := by
  induction xs with
  | nil => rfl
  | cons x xs ih =>
    cases hx : p x with
    | true => rw [List.filter_cons_of_pos hx, List.flatMap_cons, List.flatMap_cons, ih]
    | false =>
      rw [List.filter_cons_of_neg (by rw [hx]; exact Bool.false_ne_true), List.flatMap_cons, ih,
        h x hx, List.nil_append]

/-- Nonempty lists with no element in common are different lists. -/
theorem nodup_of_nodup_flatten {τ : Type} {xss : List (List τ)} (h : xss.flatten.Nodup)
    (hne : ∀ xs ∈ xss, xs ≠ []) : xss.Nodup := by
  obtain ⟨-, hdisjoint⟩ := List.nodup_flatten.mp h
  refine hdisjoint.imp_of_mem fun {xs ys} hxs _ hd heq => ?_
  obtain ⟨x, hx⟩ := List.exists_mem_of_ne_nil xs (hne xs hxs)
  exact hd hx (heq ▸ hx)

/-- Lists with no element in common are different lists, unless two of them are empty. -/
theorem nodup_iff_of_nodup_flatten {τ : Type} [DecidableEq τ] {xss : List (List τ)}
    (h : xss.flatten.Nodup) : xss.Nodup ↔ xss.count [] ≤ 1 := by
  induction xss with
  | nil => simp
  | cons xs xss ih =>
    rw [List.flatten_cons, List.nodup_append] at h
    rw [List.nodup_cons, ih h.2.1, List.count_cons]
    cases xs with
    | nil =>
      rw [← List.count_eq_zero, if_pos BEq.rfl]
      omega
    | cons x xs =>
      have hnot : x :: xs ∉ xss := fun hm =>
        h.2.2 x List.mem_cons_self x (List.mem_flatten.mpr ⟨_, hm, List.mem_cons_self⟩) rfl
      rw [and_iff_right hnot, if_neg (by simp), Nat.add_zero]

section
variable {τ : Type} [Ord τ] [Std.TransOrd τ] [Std.LawfulEqOrd τ]

theorem mem_insert_set {s : Std.ExtTreeSet τ} {x y : τ} : y ∈ s.insert x ↔ y = x ∨ y ∈ s := by
  rw [Std.ExtTreeSet.mem_insert, Std.LawfulEqOrd.compare_eq_iff_eq, eq_comm]

theorem firstRepeat_eq_none {seen : Std.ExtTreeSet τ} {xs : List τ} :
    firstRepeat seen xs = none ↔ xs.Nodup ∧ ∀ x ∈ xs, x ∉ seen := by
  induction xs generalizing seen with
  | nil => simp [firstRepeat]
  | cons x xs ih =>
    rw [firstRepeat, List.nodup_cons, List.forall_mem_cons]
    by_cases hx : x ∈ seen
    · simp [hx]
    · simp only [Std.ExtTreeSet.contains_iff_mem, hx, if_false, ih, mem_insert_set, not_or]
      constructor
      · rintro ⟨hn, h⟩
        exact ⟨⟨fun hm => (h x hm).1 rfl, hn⟩, not_false, fun y hy => (h y hy).2⟩
      · rintro ⟨⟨hm, hn⟩, -, h⟩
        exact ⟨hn, fun y hy => ⟨fun e => hm (e ▸ hy), h y hy⟩⟩

/-- The elements in order of first use, given those seen before. -/
private def usesAfter (seen : Std.ExtTreeSet τ) : List τ → List τ
  | [] => []
  | x :: xs => if seen.contains x then usesAfter seen xs else x :: usesAfter (seen.insert x) xs

omit [Std.LawfulEqOrd τ] in
private theorem firstUsesFrom_eq (seen : Std.ExtTreeSet τ) (taken xs : List τ) :
    firstUsesFrom seen taken xs = taken.reverse ++ usesAfter seen xs := by
  induction xs generalizing seen taken with
  | nil => simp [firstUsesFrom, usesAfter]
  | cons x xs ih =>
    rw [firstUsesFrom, usesAfter]
    split
    · rw [ih]
    · rw [ih]
      simp

private theorem mem_usesAfter {seen : Std.ExtTreeSet τ} {xs : List τ} {y : τ} :
    y ∈ usesAfter seen xs ↔ y ∈ xs ∧ y ∉ seen := by
  induction xs generalizing seen with
  | nil => simp [usesAfter]
  | cons x xs ih =>
    rw [usesAfter, List.mem_cons]
    split
    · next hx =>
      rw [ih]
      have hx : x ∈ seen := by simpa using hx
      constructor
      · rintro ⟨hy, hs⟩
        exact ⟨.inr hy, hs⟩
      · rintro ⟨rfl | hy, hs⟩
        · exact absurd hx hs
        · exact ⟨hy, hs⟩
    · next hx =>
      have hx : x ∉ seen := by simpa using hx
      rw [List.mem_cons, ih, mem_insert_set]
      by_cases hyx : y = x
      · subst hyx
        simp [hx]
      · simp [hyx]

private theorem nodup_usesAfter (seen : Std.ExtTreeSet τ) (xs : List τ) :
    (usesAfter seen xs).Nodup := by
  induction xs generalizing seen with
  | nil => exact List.nodup_nil
  | cons x xs ih =>
    rw [usesAfter]
    split
    · exact ih seen
    · refine List.nodup_cons.mpr ⟨?_, ih _⟩
      rw [mem_usesAfter, mem_insert_set]
      simp

private theorem usesAfter_append {seen : Std.ExtTreeSet τ} {xs : List τ} (hn : xs.Nodup)
    (hs : ∀ x ∈ xs, x ∉ seen) (ys : List τ) : ∃ rest, usesAfter seen (xs ++ ys) = xs ++ rest := by
  induction xs generalizing seen with
  | nil => exact ⟨_, rfl⟩
  | cons x xs ih =>
    obtain ⟨hx, hn⟩ := List.nodup_cons.mp hn
    have hnew : ∀ y ∈ xs, y ∉ seen.insert x := fun y hy h =>
      (mem_insert_set.mp h).elim (fun he => hx (he ▸ hy)) (hs y (List.mem_cons_of_mem _ hy))
    obtain ⟨rest, hrest⟩ := ih hn hnew
    refine ⟨rest, ?_⟩
    rw [List.cons_append, usesAfter, if_neg (by simpa using hs x List.mem_cons_self), hrest]
    rfl

private theorem usesAfter_map {seen : Std.ExtTreeSet τ} {taken : List τ} {r : τ → τ} {xs : List τ}
    (hr : ∀ x ∈ taken ++ xs, ∀ y ∈ taken ++ xs, r x = r y → x = y) {seen' : Std.ExtTreeSet τ}
    (hs : ∀ x, x ∈ seen ↔ x ∈ taken) (hs' : ∀ x, x ∈ seen' ↔ x ∈ taken.map r) :
    usesAfter seen' (xs.map r) = (usesAfter seen xs).map r := by
  induction xs generalizing seen seen' taken with
  | nil => rfl
  | cons x xs ih =>
    have hx : x ∈ seen ↔ r x ∈ seen' := by
      rw [hs, hs', List.mem_map]
      constructor
      · exact fun hm => ⟨x, hm, rfl⟩
      · rintro ⟨y, hy, heq⟩
        have hmem : x ∈ taken ++ x :: xs := List.mem_append_right _ List.mem_cons_self
        rwa [← hr y (List.mem_append_left _ hy) x hmem heq]
    have hcons : (taken ++ [x]) ++ xs = taken ++ x :: xs := by simp
    rw [List.map_cons, usesAfter, usesAfter]
    by_cases hseen : x ∈ seen
    · rw [if_pos (by simpa using hx.mp hseen), if_pos (by simpa using hseen)]
      have hsub := ((List.sublist_cons_self x xs).append_left taken).subset
      exact ih (fun y hy z hz => hr y (hsub hy) z (hsub hz)) hs hs'
    · rw [if_neg (by simpa using fun h => hseen (hx.mpr h)), if_neg (by simpa using hseen),
        List.map_cons]
      refine congrArg _ (ih (by rwa [hcons]) (fun y => ?_) fun y => ?_)
      · rw [mem_insert_set, hs, List.mem_append, List.mem_singleton, or_comm]
      · rw [mem_insert_set, hs', List.map_append, List.mem_append, List.map_singleton,
          List.mem_singleton, or_comm]

theorem firstUses_map {r : τ → τ} {xs : List τ}
    (hr : ∀ x ∈ xs, ∀ y ∈ xs, r x = r y → x = y) : firstUses (xs.map r) = (firstUses xs).map r := by
  rw [firstUses, firstUses, firstUsesFrom_eq, firstUsesFrom_eq, List.reverse_nil, List.nil_append,
    List.nil_append]
  have hnone : ∀ x : τ, x ∈ (∅ : Std.ExtTreeSet τ) ↔ x ∈ ([] : List τ) := by simp
  exact usesAfter_map hr hnone hnone

theorem mem_firstUses {xs : List τ} {x : τ} : x ∈ firstUses xs ↔ x ∈ xs := by
  rw [firstUses, firstUsesFrom_eq, List.reverse_nil, List.nil_append, mem_usesAfter]
  simp

/-- Elements that are all different come first, as they are. -/
theorem exists_firstUses_append {xs : List τ} (hn : xs.Nodup) (ys : List τ) :
    ∃ rest, firstUses (xs ++ ys) = xs ++ rest := by
  obtain ⟨rest, h⟩ := usesAfter_append hn (fun _ _ => Std.ExtTreeSet.not_mem_empty) ys
  exact ⟨rest, by rw [firstUses, firstUsesFrom_eq, h]; rfl⟩

theorem nodup_firstUses (xs : List τ) : (firstUses xs).Nodup := by
  rw [firstUses, firstUsesFrom_eq, List.reverse_nil, List.nil_append]
  exact nodup_usesAfter ∅ xs

end

/-! ## Renaming -/

/-- Different qubits can be renamed to any other different qubits while some keep their names. -/
theorem exists_renaming {kept olds news : List Qubit} (ho : (kept ++ olds).Nodup)
    (hn : (kept ++ news).Nodup) (hlen : olds.length = news.length) :
    ∃ r : Qubit → Qubit, Function.Injective r ∧ (∀ q ∈ kept, r q = q) ∧ olds.map r = news := by
  induction olds generalizing news with
  | nil =>
    rw [List.length_eq_zero_iff.mp hlen.symm]
    exact ⟨id, Function.injective_id, fun q _ => rfl, rfl⟩
  | cons x olds ih =>
    cases news with
    | nil => cases hlen
    | cons y news =>
      have ho := List.nodup_cons.mp (List.perm_middle.nodup_iff.mp ho)
      have hn := List.nodup_cons.mp (List.perm_middle.nodup_iff.mp hn)
      obtain ⟨r, hr, hkept, hmap⟩ := ih ho.2 hn.2 (Nat.succ.inj hlen)
      -- where the first one has come to changes places with where it should come to
      have hfixed : ∀ q ∈ kept ++ olds, Equiv.swap (r x) y (r q) = r q := by
        intro q hq
        refine Equiv.swap_apply_of_ne_of_ne (fun heq => ho.1 (hr heq ▸ hq)) fun heq => hn.1 ?_
        rw [← heq]
        rcases List.mem_append.mp hq with hq | hq
        · rw [hkept q hq]
          exact List.mem_append_left _ hq
        · exact List.mem_append_right _ (hmap ▸ List.mem_map_of_mem hq)
      refine ⟨fun q => Equiv.swap (r x) y (r q), (Equiv.injective _).comp hr, fun q hq => ?_, ?_⟩
      · exact (hfixed q (List.mem_append_left _ hq)).trans (hkept q hq)
      · rw [List.map_cons, Equiv.swap_apply_left, ← hmap]
        exact congrArg _ (List.map_congr_left fun q hq => hfixed q (List.mem_append_right _ hq))

/-- Different qubits in two orders are renamed to each other by a permutation that moves no other
qubit. -/
theorem exists_permuting {olds news : List Qubit} (h : olds.Perm news) (hn : olds.Nodup) :
    ∃ r : Equiv.Perm Qubit, (∀ q ∉ olds, r q = q) ∧ olds.map r = news := by
  have hold : ([] ++ olds).Nodup := hn
  obtain ⟨f, hinj, -, hmap⟩ := exists_renaming hold (h.nodup_iff.mp hn) h.length_eq
  have hf : ∀ q ∈ olds, f q ∈ olds := fun q hq => by
    rw [h.mem_iff, ← hmap]
    exact List.mem_map_of_mem hq
  let g : Qubit → Qubit := fun q => if q ∈ olds then f q else q
  have hg : ∀ q ∈ olds, g q = f q := fun q hq => if_pos hq
  have hother : ∀ q ∉ olds, g q = q := fun q hq => if_neg hq
  have hbijective : Function.Bijective g := by
    constructor
    · intro q q' heq
      by_cases hq : q ∈ olds <;> by_cases hq' : q' ∈ olds
      · rw [hg q hq, hg q' hq'] at heq
        exact hinj heq
      · rw [hg q hq, hother q' hq'] at heq
        exact absurd (heq ▸ hf q hq) hq'
      · rw [hother q hq, hg q' hq'] at heq
        exact absurd (heq ▸ hf q' hq') hq
      · rwa [hother q hq, hother q' hq'] at heq
    · intro q
      by_cases hq : q ∈ olds
      · rw [h.mem_iff, ← hmap] at hq
        obtain ⟨q', hq', rfl⟩ := List.mem_map.mp hq
        exact ⟨q', hg q' hq'⟩
      · exact ⟨q, hother q hq⟩
  refine ⟨Equiv.ofBijective g hbijective, hother, ?_⟩
  rw [← hmap]
  exact List.map_congr_left hg

/-- A renaming of some qubits that merges none of them, and moves none off or onto the qubits that are
kept, is part of a renaming of all qubits. -/
theorem exists_extension {r : Qubit → Qubit} {used kept : List Qubit}
    (hr : ∀ x ∈ used, ∀ y ∈ used, r x = r y → x = y)
    (hk : ∀ q ∈ used, q ∈ kept ∨ r q ∈ kept → r q = q) :
    ∃ f : Qubit → Qubit, Function.Injective f ∧ (∀ q ∈ kept, f q = q) ∧ ∀ q ∈ used, f q = r q := by
  let moved := (firstUses used).filter fun q => decide (q ∉ kept)
  have hmoved : ∀ q, q ∈ moved ↔ q ∈ used ∧ q ∉ kept := fun q => by
    simp only [moved, List.mem_filter, mem_firstUses, decide_eq_true_eq]
  have hold : (firstUses kept ++ moved).Nodup := by
    refine (nodup_firstUses kept).append ((nodup_firstUses used).filter _) fun q hq hm => ?_
    exact ((hmoved q).mp hm).2 (mem_firstUses.mp hq)
  have hnew : (firstUses kept ++ moved.map r).Nodup := by
    refine (nodup_firstUses kept).append ?_ fun q hq hm => ?_
    · refine List.Nodup.map_on (fun x hx y hy => ?_) ((nodup_firstUses used).filter _)
      exact hr x ((hmoved x).mp hx).1 y ((hmoved y).mp hy).1
    · obtain ⟨x, hx, rfl⟩ := List.mem_map.mp hm
      obtain ⟨hxused, hxkept⟩ := (hmoved x).mp hx
      have hrx : r x ∈ kept := mem_firstUses.mp hq
      exact hxkept (hk x hxused (.inr hrx) ▸ hrx)
  obtain ⟨f, hf, hkept, hmap⟩ := exists_renaming hold hnew (List.length_map r).symm
  refine ⟨f, hf, fun q hq => hkept q (mem_firstUses.mpr hq), fun q hq => ?_⟩
  by_cases hq' : q ∈ kept
  · rw [hkept q (mem_firstUses.mpr hq'), hk q hq (.inl hq')]
  · exact List.map_inj_left.mp hmap q ((hmoved q).mpr ⟨hq, hq'⟩)

theorem map_kept {r : Qubit → Qubit} {qs : List Qubit} (h : ∀ q ∈ qs, r q = q) :
    qs.map r = qs := by
  rw [List.map_congr_left h, List.map_id']

/-! ## Sets of qubits -/

private theorem val_foldl {τ υ : Type} {P : τ → Prop} (f : τ → υ → τ)
    (h : ∀ (x : {x // P x}) y, P (f x.1 y)) (x : {x // P x}) (ys : List υ) :
    (ys.foldl (fun x y => (⟨f x.1 y, h x y⟩ : {x // P x})) x).1 = ys.foldl f x.1 := by
  induction ys generalizing x with
  | nil => rfl
  | cons y ys ih => exact ih _

theorem eraseMany_eq_foldl (s : QubitSet) (qs : List Qubit) :
    s.eraseMany qs = qs.foldl Std.ExtTreeSet.erase s := by
  unfold Std.ExtTreeSet.eraseMany Std.ExtTreeMap.eraseMany Std.ExtDTreeMap.eraseMany
  simp only [bind_pure_comp, List.forIn_pure_yield_eq_foldl, Id.run_map, Id.run_pure]
  rw [val_foldl]
  induction qs generalizing s with
  | nil => rfl
  | cons q qs ih => exact ih (s.erase q)

theorem mem_eraseMany {s : QubitSet} {qs : List Qubit} {q : Qubit} :
    q ∈ s.eraseMany qs ↔ q ∈ s ∧ q ∉ qs := by
  rw [eraseMany_eq_foldl]
  induction qs generalizing s with
  | nil => simp
  | cons p qs ih =>
    rw [List.foldl_cons, ih, Std.ExtTreeSet.mem_erase, ne_eq, Std.LawfulEqOrd.compare_eq_iff_eq,
      List.mem_cons, not_or]
    constructor
    · rintro ⟨⟨hp, hs⟩, hq⟩
      exact ⟨hs, fun h => hp h.symm, hq⟩
    · rintro ⟨hs, hp, hq⟩
      exact ⟨⟨fun h => hp h.symm, hs⟩, hq⟩

theorem mem_insertMany {s : QubitSet} {qs : List Qubit} {q : Qubit} :
    q ∈ s.insertMany qs ↔ q ∈ s ∨ q ∈ qs := by
  simp

theorem mem_ofList_set {qs : List Qubit} {q : Qubit} :
    q ∈ (Std.ExtTreeSet.ofList qs : QubitSet) ↔ q ∈ qs := by
  simp

/-! ## Operations -/

theorem Operation.make_eq_ok {γ : Type} [GateKind γ] {g : γ} {qubits : List Qubit}
    {op : Operation γ} :
    make g qubits = .ok op ↔
      qubits.length = GateKind.arity g ∧ qubits.Nodup ∧ op = ⟨g, qubits⟩ := by
  unfold make
  by_cases hl : qubits.length = GateKind.arity g
  · simp only [hl, ne_eq, not_true_eq_false, if_false, true_and]
    cases hr : firstRepeat ∅ qubits with
    | none =>
      have hn := (firstRepeat_eq_none.mp hr).1
      simp [hn, eq_comm]
    | some q =>
      have hn : ¬ qubits.Nodup := by
        intro hn
        rw [firstRepeat_eq_none.mpr ⟨hn, fun _ _ => Std.ExtTreeSet.not_mem_empty⟩] at hr
        cases hr
      simp [hn]
  · simp [hl]

end BloqCircuit
