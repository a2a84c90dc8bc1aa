import Mathlib.Data.List.Perm.Basic
import BloqCircuit.Proofs.Names
import BloqCircuit.Proofs.Steps
/-! Flat lists of qubits against arrays for the registers of a signature. Cutting a list into arrays and
merging arrays into a list undo each other. -/
namespace BloqCircuit

/-! ## Arrays for registers -/

namespace Register
variable {r : Register} {m : Quregs} {e : Error}

/-- What is wrong with the array that a map has for a register. -/
inductive Fault (r : Register) (m : Quregs) : Error → Prop
  | missing : m.get? r.name = none → Fault r m (.missingQuregs r.name)
  | misshaped {g : Grid Qubit} : m.get? r.name = some g → g.shape ≠ r.qubitShape →
      Fault r m (.shapeMismatch r.name r.qubitShape g.shape)

theorem arrayIn_eq_error : r.arrayIn m = .error e ↔ r.Fault m e := by
  rw [arrayIn]
  cases hg : m.get? r.name with
  | none =>
    constructor
    · rintro ⟨⟩
      exact .missing hg
    · rintro (h | ⟨h, -⟩)
      · rfl
      · rw [hg] at h
        cases h
  | some g =>
    show (r.checkArray g >>= fun _ => pure g) = .error e ↔ _
    rw [checkArray]
    by_cases hs : g.shape = r.qubitShape
    · rw [if_pos hs]
      constructor
      · rintro ⟨⟩
      · rintro (h | ⟨h, hne⟩)
        · rw [hg] at h
          cases h
        · rw [hg] at h
          cases h
          exact absurd hs hne
    · rw [if_neg hs]
      constructor
      · rintro ⟨⟩
        exact .misshaped hg hs
      · rintro (h | ⟨h, -⟩)
        · rw [hg] at h
          cases h
        · rw [hg] at h
          cases h
          rfl

/-- The array of a register has no fault exactly if it is there in the right shape. -/
theorem exists_array_iff : (∃ g, m.get? r.name = some g ∧ g.shape = r.qubitShape) ↔
    ∀ e, ¬r.Fault m e := by
  constructor
  · rintro ⟨g, hg, hs⟩ e he
    have harray := arrayIn_eq_ok.mpr ⟨hg, hs⟩
    rw [arrayIn_eq_error.mpr he] at harray
    cases harray
  · intro h
    cases harray : r.arrayIn m with
    | error e => exact absurd (arrayIn_eq_error.mp harray) (h e)
    | ok g => exact ⟨g, arrayIn_eq_ok.mp harray⟩

end Register

namespace Quregs
variable {registers before after : List Register} {cells : Register → Grid Qubit} {m : Quregs}
  {qs : List Qubit} {e : Error}

/-- Arrays of the right shapes. -/
def Shaped (registers : List Register) (cells : Register → Grid Qubit) : Prop :=
  ∀ r ∈ registers, (cells r).shape = r.qubitShape

/-- The cells of the arrays, register by register. -/
def flattened (registers : List Register) (cells : Register → Grid Qubit) : List Qubit :=
  registers.flatMap fun r => (cells r).toList

/-- The map has an array of the right shape for each of the registers, and nothing else. -/
structure Covers (m : Quregs) (registers : List Register) : Prop where
  names : m.names.Perm (registers.map (·.name))
  arrays : ∀ r ∈ registers, ∃ g, m.get? r.name = some g ∧ g.shape = r.qubitShape

theorem merge_nil : m.merge [] = .ok [] := rfl

theorem merge_cons (r : Register) (rest : List Register) :
    m.merge (r :: rest) = r.arrayIn m >>= fun g => (m.merge rest).map (g.toList ++ ·) := by
  rw [merge, merge, List.mapM_cons]
  cases r.arrayIn m with
  | error e => rfl
  | ok g => cases rest.mapM fun r => do
      let g ← r.arrayIn m
      return g.toList <;> rfl

/-- Arrays are merged up to the first one that is missing or has another shape. -/
theorem merge_eq_error : m.merge registers = .error e ↔
    ∃ before r after, registers = before ++ r :: after ∧
      (∀ x ∈ before, ∃ g, m.get? x.name = some g ∧ g.shape = x.qubitShape) ∧ r.Fault m e := by
  induction registers with
  | nil =>
    refine ⟨fun h => ?_, ?_⟩
    · rw [merge_nil] at h
      cases h
    · rintro ⟨before, r, after, h, -⟩
      cases before <;> cases h
  | cons r rest ih =>
    rw [merge_cons, bind_eq_error]
    constructor
    · rintro (h | ⟨g, hg, h⟩)
      · exact ⟨[], r, rest, rfl, fun x hx => absurd hx List.not_mem_nil, Register.arrayIn_eq_error.mp h⟩
      · cases hrest : m.merge rest with
        | ok qs =>
          rw [hrest] at h
          cases h
        | error e' =>
          rw [hrest] at h
          obtain rfl : e' = e := Except.error.inj h
          obtain ⟨before, x, after, rfl, hbefore, hx⟩ := ih.mp hrest
          refine ⟨r :: before, x, after, rfl, fun y hy => ?_, hx⟩
          rcases List.mem_cons.mp hy with rfl | hy
          · exact ⟨g, Register.arrayIn_eq_ok.mp hg⟩
          · exact hbefore y hy
    · rintro ⟨before, x, after, hsplit, hbefore, hx⟩
      cases before with
      | nil =>
        obtain ⟨rfl, rfl⟩ := List.cons.inj hsplit
        exact .inl (Register.arrayIn_eq_error.mpr hx)
      | cons y before =>
        obtain ⟨rfl, rfl⟩ := List.cons.inj hsplit
        obtain ⟨g, hg⟩ := hbefore r List.mem_cons_self
        refine .inr ⟨g, Register.arrayIn_eq_ok.mpr hg, ?_⟩
        rw [ih.mpr ⟨before, x, after, rfl, fun z hz => hbefore z (List.mem_cons_of_mem _ hz), hx⟩]
        rfl

theorem merge_flattened (hs : Shaped registers cells)
    (hg : ∀ r ∈ registers, m.get? r.name = some (cells r)) :
    m.merge registers = .ok (flattened registers cells) := by
  induction registers with
  | nil => rfl
  | cons r rest ih =>
    rw [merge_cons, Register.arrayIn_eq_ok.mpr ⟨hg r List.mem_cons_self, hs r List.mem_cons_self⟩,
      ih (fun x hx => hs x (List.mem_cons_of_mem _ hx)) fun x hx => hg x (List.mem_cons_of_mem _ hx)]
    rfl

/-! ## Lists that are cut -/

theorem length_of_split {s : Signature} (h : split s qs = .ok m) : qs.length = s.totalBits := by
  rw [split] at h
  split at h
  · cases h
  · split at h
    · cases h
    · next hlen => exact not_not.mp hlen

theorem length_flattened (h : Shaped registers cells) :
    (flattened registers cells).length = (registers.map (·.totalBits)).sum := by
  rw [flattened, List.length_flatMap]
  refine congrArg List.sum (List.map_congr_left fun r hr => ?_)
  rw [Grid.length_toList, h r hr, Register.shapeSize_qubitShape]

theorem cut_flattened (h : Shaped registers cells) :
    cut registers (flattened registers cells) = .ok (registers.map fun r => (r.name, cells r)) := by
  induction registers with
  | nil => rfl
  | cons r rest ih =>
    have hr := h r List.mem_cons_self
    have hlen : (cells r).toList.length = r.totalBits := by
      rw [Grid.length_toList, hr, Register.shapeSize_qubitShape]
    have harray : r.arrayOf (cells r).toList = .ok (cells r) := Register.arrayOf_eq_ok.mpr ⟨hr, rfl⟩
    rw [cut, flattened, List.flatMap_cons, ← hlen, List.take_left, List.drop_left, harray,
      ← flattened, ih fun x hx => h x (List.mem_cons_of_mem _ hx)]
    rfl

theorem split_flattened {s : Signature} (hn : (s.registers.map (·.name)).Nodup)
    (h : Shaped s.registers cells) :
    split s (flattened s.registers cells) = .ok (Arrays.byRegister s.registers cells) := by
  have hlen : (flattened s.registers cells).length = s.totalBits := by
    rw [length_flattened h, Signature.totalBits_eq]
  rw [split, Signature.repeatedName?_eq_none.mpr hn]
  simp only [hlen, ne_eq, not_true_eq_false, if_false]
  rw [cut_flattened h]
  refine congrArg Except.ok (Arrays.ofList_eq ?_)
  rwa [List.map_map]

/-- A list of the right length is the cells of arrays, one after another. -/
theorem exists_flattened (hn : registers.Nodup) (h : qs.length = (registers.map (·.totalBits)).sum) :
    ∃ cells, Shaped registers cells ∧ flattened registers cells = qs := by
  obtain ⟨pieces, hlen, hflat⟩ := exists_pieces hn _ h
  have hcells : ∀ r ∈ registers, ∃ g, Grid.ofCells? r.qubitShape (pieces r) = some g := by
    intro r hr
    have hsize : (pieces r).toArray.size = shapeSize r.qubitShape := by
      rw [List.size_toArray, hlen r hr, Register.shapeSize_qubitShape]
    exact ⟨_, dif_pos hsize⟩
  refine ⟨fun r => (Grid.ofCells? r.qubitShape (pieces r)).getD (Grid.scalar default), ?_, ?_⟩
  · intro r hr
    obtain ⟨g, hg⟩ := hcells r hr
    simp only [hg, Option.getD_some]
    exact (Grid.ofCells?_eq_some.mp hg).1
  · rw [flattened, ← hflat]
    refine List.flatMap_congr fun r hr => ?_
    obtain ⟨g, hg⟩ := hcells r hr
    simp only [hg, Option.getD_some]
    exact (Grid.ofCells?_eq_some.mp hg).2

/-- A cell of an array stands in the list after the registers before it, in row-major order. -/
theorem get?_flattened {r : Register} (h : Shaped (before ++ r :: after) cells) {i : List Nat}
    (hi : i ∈ shapeIndices r.qubitShape) : (cells r).get? i =
      (flattened (before ++ r :: after) cells)[(before.map (·.totalBits)).sum +
        rowMajor r.qubitShape i]? := by
  have hr : (cells r).shape = r.qubitShape := h r (List.mem_append_right _ List.mem_cons_self)
  have hpos : rowMajor r.qubitShape i < (cells r).toList.length := by
    have hmem : rowMajor r.qubitShape i ∈ (shapeIndices r.qubitShape).map (rowMajor r.qubitShape) :=
      List.mem_map_of_mem hi
    rw [map_rowMajor, List.mem_range] at hmem
    rwa [Grid.length_toList, hr]
  have hbefore : (flattened before cells).length = (before.map (·.totalBits)).sum :=
    length_flattened fun x hx => h x (List.mem_append_left _ hx)
  rw [Grid.get?_eq_getElem? _ (hr ▸ hi), hr, flattened, List.flatMap_append, List.flatMap_cons,
    ← hbefore, flattened, List.getElem?_append_right (Nat.le_add_right _ _),
    Nat.add_sub_cancel_left, List.getElem?_append_left hpos]

/-! ## Maps that cover the registers -/

theorem covers_byRegister (hn : (registers.map (·.name)).Nodup) (h : Shaped registers cells) :
    Covers (Arrays.byRegister registers cells) registers where
  names := .of_eq Arrays.names_byRegister
  arrays r hr := ⟨cells r, Arrays.get?_byRegister hn hr, h r hr⟩

/-- A map that covers the registers has one array for each of them, in some order. -/
theorem Covers.exists_cells (h : m.Covers registers) (hn : (registers.map (·.name)).Nodup) :
    ∃ cells, Shaped registers cells ∧ (∀ r ∈ registers, m.get? r.name = some (cells r)) ∧
      m.entries.Perm (Arrays.byRegister registers cells).entries := by
  refine ⟨fun r => (m.get? r.name).getD (Grid.scalar default), fun r hr => ?_, fun r hr => ?_, ?_⟩
  · obtain ⟨g, hg, hs⟩ := h.arrays r hr
    simpa only [hg, Option.getD_some] using hs
  · obtain ⟨g, hg, -⟩ := h.arrays r hr
    simp only [hg, Option.getD_some]
  · have hentries := Arrays.entries_eq (h.names.nodup_iff.mpr hn) (Grid.scalar default)
    have hperm := h.names.map fun name => (name, (m.get? name).getD (Grid.scalar default))
    rw [← hentries, List.map_map] at hperm
    exact hperm

/-- Lists and arrays for registers of different names are in bijection. A list is cut exactly if it has as
many qubits as all registers together; the arrays cover the registers, hold the list in row-major order
one register after another, and are merged into it again. A map that covers the registers is merged into
a list that is cut into the same arrays. Merging fails exactly at the first register whose array is
missing or has another shape. -/
theorem split_merge {s : Signature} (hn : (s.registers.map (·.name)).Nodup) :
    (∀ qs, (∃ m, split s qs = .ok m) ↔ qs.length = s.totalBits) ∧
    (∀ qs m, split s qs = .ok m →
      m.Covers s.registers ∧ m.merge s.registers = .ok qs ∧
      ∀ before r after, s.registers = before ++ r :: after → ∃ g, m.get? r.name = some g ∧
        ∀ i ∈ shapeIndices r.qubitShape,
          g.get? i = qs[(before.map (·.totalBits)).sum + rowMajor r.qubitShape i]?) ∧
    (∀ m : Quregs, m.Covers s.registers → ∃ qs, m.merge s.registers = .ok qs ∧
      ∃ m', split s qs = .ok m' ∧ m'.entries.Perm m.entries) ∧
    ∀ (m : Quregs) (e : Error), m.merge s.registers = .error e ↔
      ∃ before r after, s.registers = before ++ r :: after ∧
        (∀ x ∈ before, ∃ g, m.get? x.name = some g ∧ g.shape = x.qubitShape) ∧ r.Fault m e := by
  have hcells : ∀ {qs : List Qubit}, qs.length = s.totalBits →
      ∃ cells, Shaped s.registers cells ∧ flattened s.registers cells = qs := fun h =>
    exists_flattened hn.of_map (by rw [h, Signature.totalBits_eq])
  refine ⟨fun qs => ⟨?_, fun h => ?_⟩, fun qs m h => ?_, fun m h => ?_, fun m e => merge_eq_error⟩
  · rintro ⟨m, h⟩
    exact length_of_split h
  · obtain ⟨cells, hs, rfl⟩ := hcells h
    exact ⟨_, split_flattened hn hs⟩
  · obtain ⟨cells, hs, rfl⟩ := hcells (length_of_split h)
    rw [split_flattened hn hs] at h
    obtain rfl : _ = m := Except.ok.inj h
    refine ⟨covers_byRegister hn hs, merge_flattened hs fun r hr => Arrays.get?_byRegister hn hr,
      fun before r after hsplit => ?_⟩
    have hr : r ∈ s.registers := hsplit ▸ List.mem_append_right _ List.mem_cons_self
    refine ⟨cells r, Arrays.get?_byRegister hn hr, fun i hi => ?_⟩
    rw [hsplit] at hs ⊢
    exact get?_flattened hs hi
  · obtain ⟨cells, hs, hget, hperm⟩ := h.exists_cells hn
    exact ⟨_, merge_flattened hs hget, _, split_flattened hn hs, hperm.symm⟩

/-- Two elements of two bits, a register without elements and a single bit on five qubits: the second bit
of the second element is the fourth qubit, and the bit after the two registers the fifth. Without arrays
the first register is the one that is missing. -/
theorem split_merge_mixed :
    let s : Signature := ⟨[⟨"a", .qany 2, [2], .thru⟩, ⟨"e", .qbit, [0, 3], .left⟩, ⟨"b", .qbit, [], .right⟩]⟩
    let qs : List Qubit := [.line 4, .line 3, .line 2, .line 1, .line 0]
    (s.registers.map (·.name)).Nodup ∧
    (∃ m a b, split s qs = .ok m ∧ m.merge s.registers = .ok qs ∧
      m.get? "a" = some a ∧ a.get? [1, 1] = some (.line 1) ∧
      m.get? "b" = some b ∧ b.get? [0] = some (.line 0)) ∧
    Quregs.merge Arrays.empty s.registers = .error (.missingQuregs "a") := by
  intro s qs
  have hn : (s.registers.map (·.name)).Nodup := by decide
  obtain ⟨hok, hsplit, -, herror⟩ := split_merge hn
  obtain ⟨m, hm⟩ := (hok qs).mpr rfl
  obtain ⟨-, hmerge, hcells⟩ := hsplit qs m hm
  obtain ⟨a, ha, hacells⟩ := hcells [] _ _ rfl
  obtain ⟨b, hb, hbcells⟩ := hcells [_, _] _ _ rfl
  refine ⟨hn, ⟨m, a, b, hm, hmerge, ha, hacells _ (by decide), hb, hbcells _ (by decide)⟩, ?_⟩
  exact (herror _ _).mpr ⟨[], _, _, rfl, fun x hx => absurd hx List.not_mem_nil, .missing rfl⟩

end Quregs
end BloqCircuit
