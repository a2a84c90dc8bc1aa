import BloqCircuit.Bundles
import BloqCircuit.Proofs.Keys
/-! Bundles as lists of what they bind. -/
namespace BloqCircuit

theorem values_eq {τ υ : Type} [Ord τ] [Std.TransOrd τ] (m : Std.ExtTreeMap τ υ) :
    m.values = m.toList.map Prod.snd := by
  have hfold : m.values = m.foldr (fun _ v l => v :: l) [] := by
    obtain ⟨⟨⟨m⟩⟩⟩ := m
    rfl
  rw [hfold, Std.ExtTreeMap.foldr_eq_foldr_toList]
  induction m.toList with
  | nil => rfl
  | cons e es ih => rw [List.foldr_cons, ih, List.map_cons]

theorem nodup_keys_toList {τ υ : Type} [Ord τ] [Std.TransOrd τ] (m : Std.ExtTreeMap τ υ) :
    (m.toList.map Prod.fst).Nodup := by
  refine List.Pairwise.map _ (fun a b h => ?_) m.distinct_keys_toList
  rintro heq
  rw [heq] at h
  exact h Std.ReflOrd.compare_self

namespace Bundles
variable {β : Type}

/-- Serials are given out in turn and never twice. -/
structure Numbered (b : Bundles β) : Prop where
  serial : ∀ (k : List Qubit) e, b.bound[k]? = some e → e.serial < b.next
  distinct : ∀ (k k' : List Qubit) e e', b.bound[k]? = some e → b.bound[k']? = some e' →
    e.serial = e'.serial → k = k'

/-- The bundles bind exactly what the list says. -/
structure Lists (b : Bundles β) (held : List (List Qubit × Soquet β)) : Prop extends b.Numbered where
  nodup : (held.map Prod.fst).Nodup
  mem : ∀ k s, b.get? k = some s ↔ (k, s) ∈ held

variable {b : Bundles β} {held held' : List (List Qubit × Soquet β)} {k : List Qubit} {s t : Soquet β}

/-- The serial under which a bundle is bound: its own, or the next one. -/
def serialFor (b : Bundles β) (k : List Qubit) : Nat := b.bound[k]?.elim b.next Bound.serial

theorem bound_insert (k' : List Qubit) : (b.insert k s).bound[k']? =
    if k = k' then some ⟨b.serialFor k, s⟩ else b.bound[k']? := by
  rw [insert, serialFor]
  cases b.bound[k]? <;> exact getElem?_insert_key

theorem next_insert : (b.insert k s).next = b.next + if b.bound[k]?.isSome then 0 else 1 := by
  rw [insert]
  cases b.bound[k]? <;> rfl

theorem bound_erase (k' : List Qubit) :
    (b.erase k).bound[k']? = if k = k' then none else b.bound[k']? := getElem?_erase_key

theorem numbered_empty : ({} : Bundles β).Numbered where
  serial k e h := by simp at h
  distinct k k' e e' h := by simp at h

/-- No other bundle has the serial under which a bundle is bound. -/
theorem Numbered.serialFor_ne (h : b.Numbered) {k' : List Qubit} {e : Bound β} (hk : k ≠ k')
    (he : b.bound[k']? = some e) : b.serialFor k ≠ e.serial := by
  rw [serialFor]
  cases hold : b.bound[k]? with
  | none => exact Nat.ne_of_gt (h.serial k' e he)
  | some old => exact fun hs => hk (h.distinct k k' old e hold he hs)

theorem Numbered.insert (h : b.Numbered) (k : List Qubit) (s : Soquet β) : (b.insert k s).Numbered where
  serial k' e he := by
    rw [next_insert]
    rw [bound_insert] at he
    split at he
    · cases he
      rw [serialFor]
      cases hold : b.bound[k]? with
      | none => exact Nat.lt_succ_self _
      | some old => exact h.serial k old hold
    · exact Nat.lt_of_lt_of_le (h.serial k' e he) (Nat.le_add_right _ _)
  distinct k₁ k₂ e₁ e₂ h₁ h₂ hs := by
    rw [bound_insert] at h₁ h₂
    split at h₁ <;> split at h₂
    · next hk₁ hk₂ => exact hk₁.symm.trans hk₂
    · next hk₁ hk₂ =>
      cases h₁
      exact absurd hs (h.serialFor_ne hk₂ h₂)
    · next hk₁ hk₂ =>
      cases h₂
      exact absurd hs.symm (h.serialFor_ne hk₁ h₁)
    · exact h.distinct k₁ k₂ e₁ e₂ h₁ h₂ hs

theorem Numbered.erase (h : b.Numbered) (k : List Qubit) : (b.erase k).Numbered := by
  have hold : ∀ (k' : List Qubit) e, (b.erase k).bound[k']? = some e → b.bound[k']? = some e := by
    intro k' e he
    rw [bound_erase] at he
    split at he
    · cases he
    · exact he
  exact ⟨fun k' e he => h.serial k' e (hold k' e he), fun k₁ k₂ e₁ e₂ h₁ h₂ hs =>
    h.distinct k₁ k₂ e₁ e₂ (hold k₁ e₁ h₁) (hold k₂ e₂ h₂) hs⟩

theorem get?_insert (k' : List Qubit) :
    (b.insert k s).get? k' = if k = k' then some s else b.get? k' := by
  rw [get?, get?, bound_insert]
  split <;> rfl

theorem get?_erase (k' : List Qubit) :
    (b.erase k).get? k' = if k = k' then none else b.get? k' := by
  rw [get?, get?, bound_erase]
  split <;> rfl

private theorem mem_cons_bound (hk : k ∉ held.map Prod.fst) {k' : List Qubit} :
    (k', t) ∈ (k, s) :: held ↔ if k = k' then s = t else (k', t) ∈ held := by
  rw [List.mem_cons, Prod.mk.injEq]
  by_cases hkk : k = k'
  · subst hkk
    have hnot : (k, t) ∉ held := fun hm => hk (List.mem_map_of_mem (f := Prod.fst) hm)
    rw [if_pos rfl, or_iff_left hnot]
    exact ⟨fun h => h.2.symm, fun h => ⟨rfl, h.symm⟩⟩
  · rw [if_neg hkk, or_iff_right fun h => hkk h.1.symm]

theorem lists_empty : ({} : Bundles β).Lists [] where
  toNumbered := numbered_empty
  nodup := List.nodup_nil
  mem k s := by simp [get?]

theorem Lists.perm (h : b.Lists held) (hp : held.Perm held') : b.Lists held' where
  toNumbered := h.toNumbered
  nodup := (hp.map Prod.fst).nodup_iff.mp h.nodup
  mem k s := (h.mem k s).trans hp.mem_iff

/-- A bundle that is not bound joins the list. -/
theorem Lists.insert (h : b.Lists held) (hk : k ∉ held.map Prod.fst) (s : Soquet β) :
    (b.insert k s).Lists ((k, s) :: held) := by
  refine ⟨h.toNumbered.insert k s, ?_, fun k' t => ?_⟩
  · rw [List.map_cons, List.nodup_cons]
    exact ⟨hk, h.nodup⟩
  · rw [get?_insert, mem_cons_bound hk]
    split
    · exact Option.some_inj
    · exact h.mem k' t

/-- A bundle that is bound is bound anew. -/
theorem Lists.replace (h : b.Lists ((k, t) :: held)) (s : Soquet β) :
    (b.insert k s).Lists ((k, s) :: held) := by
  have hnodup := h.nodup
  rw [List.map_cons, List.nodup_cons] at hnodup
  refine ⟨h.toNumbered.insert k s, ?_, fun k' u => ?_⟩
  · rw [List.map_cons, List.nodup_cons]
    exact hnodup
  · rw [get?_insert, mem_cons_bound hnodup.1]
    split
    · exact Option.some_inj
    · next hkk => rw [h.mem k' u, mem_cons_bound hnodup.1, if_neg hkk]

/-- A bundle that is unbound leaves the list. -/
theorem Lists.erase (h : b.Lists ((k, s) :: held)) : (b.erase k).Lists held := by
  have hnodup := h.nodup
  rw [List.map_cons, List.nodup_cons] at hnodup
  refine ⟨h.toNumbered.erase k, hnodup.2, fun k' u => ?_⟩
  rw [get?_erase]
  split
  · next hkk =>
    have hnot : (k', u) ∉ held := fun hm =>
      hnodup.1 (hkk ▸ List.mem_map.mpr ⟨_, hm, rfl⟩)
    exact iff_of_false (Option.some_ne_none u).symm hnot
  · next hkk => rw [h.mem k' u, mem_cons_bound hnodup.1, if_neg hkk]

/-! ## Bundles in the order of binding -/

/-- The bundles by their serials. -/
def bySerial (b : Bundles β) : Std.ExtTreeMap Nat (List Qubit × Soquet β) :=
  b.bound.foldl (fun t qubits e => t.insert e.serial (qubits, e.soquet)) ∅

theorem entries_eq (b : Bundles β) : b.entries = b.bySerial.toList.map Prod.snd :=
  values_eq _

private theorem getElem?_foldl_serial (es : List (List Qubit × Bound β))
    (hn : (es.map (·.2.serial)).Nodup) (m : Std.ExtTreeMap Nat (List Qubit × Soquet β)) (n : Nat)
    (v : List Qubit × Soquet β) :
    (es.foldl (fun t e => t.insert e.2.serial (e.1, e.2.soquet)) m)[n]? = some v ↔
      (∃ e ∈ es, e.2.serial = n ∧ (e.1, e.2.soquet) = v) ∨
        n ∉ es.map (·.2.serial) ∧ m[n]? = some v := by
  induction es generalizing m with
  | nil => simp
  | cons e es ih =>
    rw [List.map_cons, List.nodup_cons] at hn
    rw [List.foldl_cons, ih hn.2, getElem?_insert_key, List.map_cons]
    simp only [List.mem_cons, exists_eq_or_imp, not_or]
    by_cases he : e.2.serial = n
    · subst he
      simp [hn.1, or_comm]
    · simp [he, Ne.symm he]

/-- The bundle with a serial is the one that was bound with it: no two have the same. -/
theorem Numbered.getElem?_bySerial (h : b.Numbered) {n : Nat} {v : List Qubit × Soquet β} :
    b.bySerial[n]? = some v ↔ ∃ e, b.bound[v.1]? = some e ∧ e.serial = n ∧ e.soquet = v.2 := by
  have hmem : ∀ {k e}, (k, e) ∈ b.bound.toList ↔ b.bound[k]? = some e :=
    Std.ExtTreeMap.mem_toList_iff_getElem?_eq_some
  have hserials : (b.bound.toList.map (·.2.serial)).Nodup := by
    have hkeys := nodup_keys_toList b.bound
    rw [List.Nodup, List.pairwise_map] at hkeys ⊢
    refine hkeys.imp_of_mem fun {x y} hx hy hne hs => hne ?_
    exact h.distinct _ _ _ _ (hmem.mp hx) (hmem.mp hy) hs
  have hempty : (∅ : Std.ExtTreeMap Nat (List Qubit × Soquet β))[n]? ≠ some v := by simp
  rw [bySerial, Std.ExtTreeMap.foldl_eq_foldl_toList, getElem?_foldl_serial _ hserials,
    or_iff_left fun hn => hempty hn.2]
  constructor
  · rintro ⟨⟨k, e⟩, he, hn, rfl⟩
    exact ⟨e, hmem.mp he, hn, rfl⟩
  · rintro ⟨e, he, hn, hs⟩
    exact ⟨(v.1, e), hmem.mpr he, hn, Prod.ext rfl hs⟩

private theorem Lists.mem_entries (h : b.Lists held) {v : List Qubit × Soquet β} :
    v ∈ b.entries ↔ v ∈ held := by
  rw [entries_eq, List.mem_map, ← h.mem v.1 v.2, get?, Option.map_eq_some_iff]
  constructor
  · rintro ⟨⟨n, v⟩, hv, rfl⟩
    obtain ⟨e, he, -, hs⟩ :=
      h.getElem?_bySerial.mp (Std.ExtTreeMap.mem_toList_iff_getElem?_eq_some.mp hv)
    exact ⟨e, he, hs⟩
  · rintro ⟨e, he, hs⟩
    have hfound := h.getElem?_bySerial.mpr ⟨e, he, rfl, hs⟩
    exact ⟨(e.serial, v), Std.ExtTreeMap.mem_toList_iff_getElem?_eq_some.mpr hfound, rfl⟩

private theorem Lists.nodup_entries (h : b.Lists held) : b.entries.Nodup := by
  have hserial := nodup_keys_toList b.bySerial
  rw [entries_eq]
  rw [List.Nodup, List.pairwise_map] at hserial ⊢
  -- a bundle has one serial only, so equal entries stand at the same one
  refine hserial.imp_of_mem fun {x y} hx hy hne heq => hne ?_
  obtain ⟨e, he, hn, -⟩ :=
    h.getElem?_bySerial.mp (Std.ExtTreeMap.mem_toList_iff_getElem?_eq_some.mp hx)
  obtain ⟨e', he', hn', -⟩ :=
    h.getElem?_bySerial.mp (Std.ExtTreeMap.mem_toList_iff_getElem?_eq_some.mp hy)
  rw [heq, he'] at he
  rw [← hn, ← hn', Option.some.inj he]

/-- The bundles in the order of binding are those of the list. -/
theorem Lists.entries_perm (h : b.Lists held) : b.entries.Perm held :=
  (List.perm_ext_iff_of_nodup h.nodup_entries h.nodup.of_map).mpr fun _ => h.mem_entries

/-! ## Missing qubits -/

private theorem mem_foldl_eraseMany (es : List (List Qubit × Bound β)) (set : QubitSet) (q : Qubit) :
    q ∈ es.foldl (fun set e => set.eraseMany e.1) set ↔ q ∈ set ∧ ∀ e ∈ es, q ∉ e.1 := by
  induction es generalizing set with
  | nil => simp
  | cons e es ih =>
    rw [List.foldl_cons, ih, mem_eraseMany, List.forall_mem_cons, and_assoc]

/-- A qubit is missing if no bundle has it. -/
theorem mem_missing {qubits : List Qubit} {q : Qubit} : q ∈ b.missing qubits ↔
    q ∈ qubits ∧ ∀ (k : List Qubit) e, b.bound[k]? = some e → q ∉ k := by
  rw [missing, List.mem_filter, Std.ExtTreeSet.contains_iff_mem,
    Std.ExtTreeMap.foldl_eq_foldl_toList, mem_foldl_eraseMany, mem_ofList_set]
  constructor
  · rintro ⟨hq, -, hno⟩
    exact ⟨hq, fun k e he => hno (k, e) (Std.ExtTreeMap.mem_toList_iff_getElem?_eq_some.mpr he)⟩
  · rintro ⟨hq, hno⟩
    exact ⟨hq, hq, fun e he => hno e.1 e.2 (Std.ExtTreeMap.mem_toList_iff_getElem?_eq_some.mp he)⟩

theorem Lists.mem_missing (h : b.Lists held) {qubits : List Qubit} {q : Qubit} :
    q ∈ b.missing qubits ↔ q ∈ qubits ∧ ∀ e ∈ held, q ∉ e.1 := by
  rw [Bundles.mem_missing]
  refine and_congr_right fun _ => ⟨fun hno e he => ?_, fun hno k e he => ?_⟩
  · obtain ⟨bound, hbound, -⟩ := Option.map_eq_some_iff.mp ((h.mem e.1 e.2).mpr he)
    exact hno e.1 bound hbound
  · exact hno (k, e.soquet) ((h.mem _ _).mp (by rw [get?, he]; rfl))

theorem missing_sublist (qubits : List Qubit) : (b.missing qubits).Sublist qubits :=
  List.filter_sublist

end Bundles
end BloqCircuit
