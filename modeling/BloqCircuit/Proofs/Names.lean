import BloqCircuit.Proofs.Keys
import BloqCircuit.Proofs.Lanes
import BloqCircuit.Soquet
/-! Arrays under distinct names, and signatures whose registers do not overlap. -/
namespace BloqCircuit

/-! ## Arrays -/

namespace Arrays
variable {τ : Type}

theorem insert_of_not_mem {a : Arrays τ} {name : String} (h : name ∉ a.names) (g : Grid τ) :
    a.insert name g = ⟨a.entries ++ [(name, g)]⟩ := by
  have ha : a.entries.any (·.1 == name) = false := by
    rw [List.any_eq_false]
    intro e he hn
    exact h (List.mem_map.mpr ⟨e, he, by simpa using hn⟩)
  rw [insert, ha]
  rfl

private theorem foldl_insert (a : Arrays τ) (entries : List (String × Grid τ))
    (h : (a.names ++ entries.map (·.1)).Nodup) :
    entries.foldl (fun a e => a.insert e.1 e.2) a = ⟨a.entries ++ entries⟩ := by
  induction entries generalizing a with
  | nil => simp
  | cons e entries ih =>
    have he : e.1 ∉ a.names := by
      intro he
      exact (List.nodup_append.mp h).2.2 e.1 he e.1 (by simp) rfl
    rw [List.foldl_cons, insert_of_not_mem he, ih]
    · simp
    · simpa [names] using h

/-- Arrays under distinct names are kept as they are listed. -/
theorem ofList_eq {entries : List (String × Grid τ)} (h : (entries.map (·.1)).Nodup) :
    ofList entries = ⟨entries⟩ := by
  rw [ofList, foldl_insert empty entries (by simpa [empty, names] using h)]
  rfl

private theorem lookup_map_insert {entries : List (String × Grid τ)} {name : String}
    (h : entries.any (·.1 == name) = true) (g : Grid τ) (other : String) :
    (entries.map fun e => if e.1 == name then (name, g) else e).lookup other =
      if other = name then some g else entries.lookup other := by
  have hrest : ∀ entries : List (String × Grid τ), other ≠ name →
      (entries.map fun e => if e.1 == name then (name, g) else e).lookup other =
        entries.lookup other := by
    intro entries hne
    induction entries with
    | nil => rfl
    | cons e entries ih =>
      obtain ⟨key, x⟩ := e
      by_cases hkey : key = name
      · subst hkey
        simpa [List.lookup_cons, beq_false_of_ne hne] using ih
      · simp only [List.map_cons, beq_false_of_ne hkey, Bool.false_eq_true, if_false, List.lookup_cons, ih]
  by_cases hother : other = name
  · subst hother
    rw [if_pos rfl]
    induction entries with
    | nil => cases h
    | cons e entries ih =>
      obtain ⟨key, x⟩ := e
      by_cases hkey : key = other
      · simp [hkey]
      · rw [List.any_cons, beq_false_of_ne hkey, Bool.false_or] at h
        simp only [List.map_cons, beq_false_of_ne hkey, Bool.false_eq_true, if_false,
          List.lookup_cons, beq_false_of_ne (Ne.symm hkey), ih h]
  · rw [if_neg hother]
    exact hrest entries hother

theorem get?_insert (a : Arrays τ) (name : String) (g : Grid τ) (other : String) :
    (a.insert name g).get? other = if other = name then some g else a.get? other := by
  rw [insert, get?, get?]
  by_cases h : a.entries.any (·.1 == name) = true
  · rw [if_pos h]
    exact lookup_map_insert h g other
  · rw [if_neg h, List.lookup_append]
    have hnone : a.entries.lookup name = none := by
      refine List.lookup_eq_none_iff.mpr fun e he => ?_
      simp only [List.any_eq_true, beq_iff_eq, not_exists, not_and] at h
      simpa using Ne.symm (h e he)
    by_cases hother : other = name
    · subst hother
      rw [hnone]
      simp
    · simp [List.lookup_cons, beq_false_of_ne hother, hother]

/-- Of distinct names each finds its own array. -/
theorem get?_of_mem {a : Arrays τ} (h : a.names.Nodup) {e : String × Grid τ} (he : e ∈ a.entries) :
    a.get? e.1 = some e.2 := by
  obtain ⟨front, rest, hsplit⟩ := List.append_of_mem he
  rw [names, hsplit, List.map_append, List.map_cons] at h
  refine List.lookup_eq_some_iff.mpr ⟨front, rest, hsplit, fun p hp => ?_⟩
  have hne : p.1 ≠ e.1 :=
    (List.nodup_append.mp h).2.2 p.1 (List.mem_map_of_mem hp) e.1 List.mem_cons_self
  simpa using Ne.symm hne

/-- One array for each register, in the order of the registers. -/
def byRegister (registers : List Register) (cells : Register → Grid τ) : Arrays τ :=
  ⟨registers.map fun r => (r.name, cells r)⟩

variable {registers : List Register} {cells : Register → Grid τ}

theorem names_byRegister : (byRegister registers cells).names = registers.map (·.name) := by
  rw [byRegister, names, List.map_map]
  rfl

theorem get?_byRegister (hn : (registers.map (·.name)).Nodup) {r : Register}
    (hr : r ∈ registers) : (byRegister registers cells).get? r.name = some (cells r) := by
  rw [← names_byRegister] at hn
  exact get?_of_mem hn (List.mem_map_of_mem hr)

theorem mem_of_get? {a : Arrays τ} {name : String} {g : Grid τ} (h : a.get? name = some g) :
    (name, g) ∈ a.entries := by
  obtain ⟨front, rest, hsplit, -⟩ := List.lookup_eq_some_iff.mp h
  rw [hsplit]
  exact List.mem_append_right _ List.mem_cons_self

/-- Arrays under distinct names are the ones that are found under their names. -/
theorem entries_eq {a : Arrays τ} (h : a.names.Nodup) (g : Grid τ) :
    a.entries = a.names.map fun name => (name, (a.get? name).getD g) := by
  obtain ⟨entries⟩ := a
  induction entries with
  | nil => rfl
  | cons e entries ih =>
    obtain ⟨key, x⟩ := e
    obtain ⟨hnot, hn⟩ := List.nodup_cons.mp h
    have hrest : ∀ name ∈ entries.map (·.1),
        ((⟨(key, x) :: entries⟩ : Arrays τ).get? name).getD g =
          ((⟨entries⟩ : Arrays τ).get? name).getD g := by
      intro name hmem
      have hne : name ≠ key := by
        rintro rfl
        exact hnot hmem
      rw [get?, get?, List.lookup_cons, beq_false_of_ne hne]
    rw [names, List.map_cons, List.map_cons, List.map_congr_left fun name hmem => by rw [hrest name hmem]]
    exact congrArg₂ List.cons (by simp [get?]) (ih hn)

theorem insert_byRegister {r : Register} (h : r.name ∉ registers.map (·.name)) :
    (byRegister registers cells).insert r.name (cells r) =
      byRegister (registers ++ [r]) cells := by
  rw [insert_of_not_mem]
  · simp [byRegister]
  · simpa [byRegister, names] using h

theorem byRegister_congr {cells' : Register → Grid τ} (h : ∀ r ∈ registers, cells r = cells' r) :
    byRegister registers cells = byRegister registers cells' := by
  unfold byRegister
  rw [List.map_congr_left fun r hr => by rw [h r hr]]

/-- Taking the array of the first register leaves those of the others. -/
theorem take_byRegister {r : Register} (h : r.name ∉ registers.map (·.name)) :
    (byRegister (r :: registers) cells).take r.name =
      some (cells r, byRegister registers cells) := by
  have hf : (registers.map fun s => (s.name, cells s)).filter (·.1 != r.name) =
      registers.map fun s => (s.name, cells s) := by
    rw [List.filter_eq_self]
    intro e he
    obtain ⟨s, hs, rfl⟩ := List.mem_map.mp he
    have hne : s.name ≠ r.name := fun e => h (List.mem_map.mpr ⟨s, hs, e⟩)
    simpa using hne
  simp [take, byRegister, get?, hf]

/-- The same names with a function applied to each cell. -/
def map {υ : Type} (f : τ → υ) (a : Arrays τ) : Arrays υ := ⟨a.entries.map fun e => (e.1, e.2.map f)⟩

theorem get?_map {υ : Type} (f : τ → υ) (a : Arrays τ) (name : String) :
    (a.map f).get? name = (a.get? name).map (Grid.map f) := by
  rw [get?, get?, map]
  induction a.entries with
  | nil => rfl
  | cons e es ih =>
    rw [List.map_cons, List.lookup_cons, List.lookup_cons, ih]
    cases name == e.1 <;> rfl

theorem insert_map {υ : Type} (f : τ → υ) (a : Arrays τ) (name : String) (g : Grid τ) :
    (a.insert name g).map f = (a.map f).insert name (g.map f) := by
  unfold insert
  have hany : (a.map f).entries.any (·.1 == name) = a.entries.any (·.1 == name) := by
    rw [map, List.any_map]
    rfl
  rw [hany]
  split
  · refine congrArg Arrays.mk ?_
    rw [map, List.map_map, List.map_map]
    refine List.map_congr_left fun e _ => ?_
    rw [Function.comp_apply, Function.comp_apply]
    split <;> rfl
  · simp [map]

theorem map_byRegister {υ : Type} (f : τ → υ) :
    (byRegister registers cells).map f = byRegister registers fun r => (cells r).map f := by
  simp [map, byRegister]

end Arrays

/-! ## Signatures -/

namespace Side

theorem isLeft_of_ne {s : Side} (h : s ≠ .right) : s.isLeft = true := by
  cases s with
  | right => exact absurd rfl h
  | _ => rfl

theorem isRight_of_ne {s : Side} (h : s ≠ .left) : s.isRight = true := by
  cases s with
  | left => exact absurd rfl h
  | _ => rfl

end Side

namespace Signature

/-- No two inputs and no two outputs have the same name. -/
def Valid (s : Signature) : Prop := ofRegisters s.registers = .ok s

private theorem firstOverlap_eq_none (seen registers : List Register) :
    firstOverlap seen registers = none ↔
      (∀ r ∈ registers, ∀ s ∈ seen, s.name = r.name → s.side.overlaps r.side = false) ∧
      registers.Pairwise fun s r => s.name = r.name → s.side.overlaps r.side = false := by
  induction registers generalizing seen with
  | nil => simp [firstOverlap]
  | cons r rest ih =>
    rw [firstOverlap]
    by_cases h : seen.any fun s => s.name == r.name && s.side.overlaps r.side
    · rw [if_pos h]
      obtain ⟨s, hs, ho⟩ := List.any_eq_true.mp h
      simp only [Bool.and_eq_true, beq_iff_eq] at ho
      constructor
      · intro hn
        cases hn
      · rintro ⟨hseen, -⟩
        rw [hseen r List.mem_cons_self s hs ho.1] at ho
        cases ho.2
    · rw [if_neg h, ih, List.pairwise_cons, List.forall_mem_cons]
      have h : ∀ s ∈ seen, s.name = r.name → s.side.overlaps r.side = false := by
        intro s hs hn
        by_contra ho
        exact h (List.any_eq_true.mpr ⟨s, hs, by simp [hn, ho]⟩)
      simp only [List.mem_append, List.mem_singleton, or_imp, forall_and, forall_eq]
      constructor
      · rintro ⟨⟨h1, h2⟩, h3⟩
        exact ⟨⟨h, h1⟩, h2, h3⟩
      · rintro ⟨⟨-, h1⟩, h2, h3⟩
        exact ⟨⟨h1, h2⟩, h3⟩

theorem valid_iff {s : Signature} :
    s.Valid ↔ s.registers.Pairwise fun a b => a.name = b.name → a.side.overlaps b.side = false := by
  have h := firstOverlap_eq_none [] s.registers
  simp only [List.not_mem_nil, false_imp_iff, implies_true, true_and] at h
  rw [← h, Valid, ofRegisters]
  cases firstOverlap [] s.registers <;> simp

theorem ofRegisters_eq_ok {registers : List Register} {s : Signature} :
    ofRegisters registers = .ok s ↔ s = ⟨registers⟩ ∧ s.Valid := by
  constructor
  · intro h
    have hs : s = ⟨registers⟩ := by
      unfold ofRegisters at h
      split at h <;> cases h
      rfl
    subst hs
    exact ⟨rfl, h⟩
  · rintro ⟨rfl, h⟩
    exact h

variable {s : Signature}

theorem Valid.nodup_lefts (h : s.Valid) : (s.lefts.map (·.name)).Nodup := by
  rw [List.Nodup, List.pairwise_map, lefts, List.pairwise_filter]
  refine (valid_iff.mp h).imp fun {a b} ho ha hb hn => ?_
  have := ho hn
  simp [Side.overlaps, ha, hb] at this

theorem Valid.nodup_rights (h : s.Valid) : (s.rights.map (·.name)).Nodup := by
  rw [List.Nodup, List.pairwise_map, rights, List.pairwise_filter]
  refine (valid_iff.mp h).imp fun {a b} ho ha hb hn => ?_
  have := ho hn
  simp [Side.overlaps, ha, hb] at this

theorem mem_lefts {r : Register} : r ∈ s.lefts ↔ r ∈ s.registers ∧ r.side.isLeft = true :=
  List.mem_filter

theorem mem_rights {r : Register} : r ∈ s.rights ↔ r ∈ s.registers ∧ r.side.isRight = true :=
  List.mem_filter

theorem lefts_of_thru (h : ∀ r ∈ s.registers, r.side = .thru) : s.lefts = s.registers :=
  List.filter_eq_self.mpr fun r hr => by rw [h r hr]; rfl

theorem rights_of_thru (h : ∀ r ∈ s.registers, r.side = .thru) : s.rights = s.registers :=
  List.filter_eq_self.mpr fun r hr => by rw [h r hr]; rfl

theorem valid_of_nodup (h : (s.registers.map (·.name)).Nodup) : s.Valid := by
  rw [List.Nodup, List.pairwise_map] at h
  exact valid_iff.mpr (h.imp fun hne hn => absurd hn hne)

theorem repeatedName?_eq_none : s.repeatedName? = none ↔ (s.registers.map (·.name)).Nodup := by
  have hlen (n : String) :
      (s.registers.filter (·.name == n)).length = (s.registers.map (·.name)).count n := by
    rw [List.count_eq_countP, List.countP_map, List.countP_eq_length_filter]
    rfl
  rw [repeatedName?, groups, List.nodup_iff_count_le_one]
  simp only [Option.map_eq_none_iff, List.find?_eq_none, List.mem_map, mem_firstUses,
    forall_exists_index, and_imp]
  constructor
  · intro h n
    by_cases hn : n ∈ s.registers.map (·.name)
    · obtain ⟨r, hr, rfl⟩ := List.mem_map.mp hn
      have := h _ r.name r hr rfl rfl
      rw [decide_eq_true_eq, hlen] at this
      omega
    · rw [List.count_eq_zero.mpr hn]
      exact Nat.zero_le 1
  · rintro h - n r hr rfl rfl
    rw [decide_eq_true_eq, hlen]
    have := h r.name
    omega

theorem sumBits_eq (registers : List Register) :
    sumBits registers = (registers.map (·.totalBits)).sum := by
  induction registers with
  | nil => rfl
  | cons r rest ih =>
    rw [List.map_cons, List.sum_cons, ← ih]
    rfl

theorem totalBits_eq : s.totalBits = (s.registers.map (·.totalBits)).sum := sumBits_eq s.registers

end Signature
end BloqCircuit
