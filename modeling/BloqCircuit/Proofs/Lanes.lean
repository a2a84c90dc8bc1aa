import Mathlib.Data.List.Nodup
import Mathlib.Tactic.ByContra
import Mathlib.Tactic.Ring
import BloqCircuit.Quregs
/-! Arrays cell by cell, and the lanes of the arrays that carry registers. -/
namespace BloqCircuit

/-! ## Indices -/

theorem validIndex_iff (shape i : List Nat) : validIndex shape i = true ↔ i ∈ shapeIndices shape := by
  induction shape generalizing i with
  | nil => cases i <;> simp [validIndex, shapeIndices]
  | cons d s ih =>
    cases i with
    | nil => simp [validIndex, shapeIndices]
    | cons k t => simp [validIndex, shapeIndices, ih]

theorem nodup_shapeIndices (shape : List Nat) : (shapeIndices shape).Nodup := by
  induction shape with
  | nil => simp [shapeIndices]
  | cons d s ih =>
    rw [shapeIndices, List.nodup_flatMap]
    constructor
    · intro k _
      exact ih.map fun a b h => (List.cons.inj h).2
    · refine List.nodup_range.imp ?_
      intro k l hkl
      rw [Function.onFun_apply, List.disjoint_left]
      intro i hk hl
      obtain ⟨t, -, rfl⟩ := List.mem_map.mp hk
      obtain ⟨u, -, h⟩ := List.mem_map.mp hl
      exact hkl (List.cons.inj h).1.symm

theorem length_of_mem_shapeIndices {shape i : List Nat} (h : i ∈ shapeIndices shape) :
    i.length = shape.length := by
  induction shape generalizing i with
  | nil => simp_all [shapeIndices]
  | cons d s ih =>
    simp only [shapeIndices, List.mem_flatMap, List.mem_map] at h
    obtain ⟨k, -, t, ht, rfl⟩ := h
    simp [ih ht]

theorem shapeIndices_append (s t : List Nat) :
    shapeIndices (s ++ t) = (shapeIndices s).flatMap fun i => (shapeIndices t).map (i ++ ·) := by
  induction s with
  | nil => simp [shapeIndices]
  | cons d s ih =>
    simp only [List.cons_append, shapeIndices, ih, List.flatMap_assoc, List.map_flatMap,
      List.flatMap_map, List.map_map]
    rfl

/-- One more dimension at the end: each index goes on with every entry of it. -/
theorem shapeIndices_concat (s : List Nat) (d : Nat) :
    shapeIndices (s ++ [d]) = (shapeIndices s).flatMap fun i => (List.range d).map (i ++ [·]) := by
  have hlast : shapeIndices [d] = (List.range d).map ([·]) := by
    simp [shapeIndices, List.map_eq_flatMap]
  rw [shapeIndices_append, hlast]
  simp only [List.map_map]
  rfl

private theorem rowMajor_foldl (s i : List Nat) (h : i.length = s.length) (acc : Nat) :
    (s.zip i).foldl (fun acc p => acc * p.1 + p.2) acc = acc * shapeSize s + rowMajor s i := by
  induction s generalizing i acc with
  | nil => simp [rowMajor, shapeSize]
  | cons d s ih =>
    cases i with
    | nil => simp at h
    | cons k t =>
      have ht : t.length = s.length := by simpa using h
      have h0 : rowMajor (d :: s) (k :: t) = (0 * d + k) * shapeSize s + rowMajor s t :=
        ih t ht (0 * d + k)
      rw [h0, List.zip_cons_cons, List.foldl_cons, ih t ht, shapeSize]
      ring

theorem rowMajor_cons (d k : Nat) (s t : List Nat) (h : t.length = s.length) :
    rowMajor (d :: s) (k :: t) = k * shapeSize s + rowMajor s t := by
  have h0 : rowMajor (d :: s) (k :: t) = (0 * d + k) * shapeSize s + rowMajor s t :=
    rowMajor_foldl s t h (0 * d + k)
  rwa [Nat.zero_mul, Nat.zero_add] at h0

/-- The indices of a shape, in their order, have the positions from zero on. -/
theorem map_rowMajor (shape : List Nat) :
    (shapeIndices shape).map (rowMajor shape) = List.range (shapeSize shape) := by
  induction shape with
  | nil => rfl
  | cons d s ih =>
    have row (k : Nat) : ((shapeIndices s).map (k :: ·)).map (rowMajor (d :: s)) =
        (List.range (shapeSize s)).map (k * shapeSize s + ·) := by
      rw [← ih, List.map_map, List.map_map]
      refine List.map_congr_left fun t ht => ?_
      exact rowMajor_cons d k s t (length_of_mem_shapeIndices ht)
    have rows (n : Nat) : ((List.range n).flatMap fun k =>
        (List.range (shapeSize s)).map (k * shapeSize s + ·)) = List.range (n * shapeSize s) := by
      induction n with
      | zero => simp
      | succ n ihn =>
        rw [List.range_succ, List.flatMap_append, ihn, Nat.succ_mul, List.range_add]
        simp
    rw [shapeIndices, List.map_flatMap]
    simp only [row, rows, shapeSize]

/-! ## Cells -/

namespace Grid
variable {τ υ : Type}

theorem ext_toList {g h : Grid τ} (hs : g.shape = h.shape) (hl : g.toList = h.toList) : g = h := by
  obtain ⟨s, c, _⟩ := g
  obtain ⟨s', c', _⟩ := h
  obtain rfl : s = s' := hs
  obtain rfl : c = c' := Array.ext' hl
  rfl

theorem ofCells?_eq_some {shape : List Nat} {cells : List τ} {g : Grid τ} :
    ofCells? shape cells = some g ↔ g.shape = shape ∧ g.toList = cells := by
  unfold ofCells?
  constructor
  · intro h
    split at h
    · cases h
      exact ⟨rfl, rfl⟩
    · cases h
  · rintro ⟨rfl, rfl⟩
    have hs : g.toList.toArray.size = shapeSize g.shape := g.length_toList
    rw [dif_pos hs]
    exact congrArg some (ext_toList rfl rfl)

theorem exists_ofCells? {shape : List Nat} {cells : List τ} (h : cells.length = shapeSize shape) :
    ∃ g, ofCells? shape cells = some g ∧ g.shape = shape ∧ g.toList = cells :=
  ⟨_, dif_pos (by rwa [List.size_toArray]), rfl, rfl⟩

/-- The cell at a valid index is the one at the index's position. -/
theorem get?_eq_getElem? (g : Grid τ) {i : List Nat} (h : i ∈ shapeIndices g.shape) :
    g.get? i = g.toList[rowMajor g.shape i]? := by
  rw [get?, if_pos ((validIndex_iff _ _).mpr h), toList, Array.getElem?_toList]

/-- The cells, read index by index. -/
theorem map_get? (g : Grid τ) : (shapeIndices g.shape).map g.get? = g.toList.map some := by
  have h : (shapeIndices g.shape).map g.get? =
      (shapeIndices g.shape).map ((fun k => g.toList[k]?) ∘ rowMajor g.shape) :=
    List.map_congr_left fun i hi => g.get?_eq_getElem? hi
  rw [h, ← List.map_map, map_rowMajor, ← g.length_toList]
  refine List.ext_getElem (by simp) fun k hk _ => ?_
  have hk : k < g.toList.length := by simpa using hk
  simp [List.getElem?_eq_getElem hk]

theorem get?_ofFn (shape : List Nat) (f : List Nat → τ) {i : List Nat}
    (h : i ∈ shapeIndices shape) : (ofFn shape f).get? i = some (f i) := by
  have hm : (shapeIndices shape).map (ofFn shape f).get? = ((shapeIndices shape).map f).map some :=
    (ofFn shape f).map_get?
  rw [List.map_map] at hm
  exact List.map_inj_left.mp hm i h

theorem exists_get? {g : Grid τ} {i : List Nat} (h : i ∈ shapeIndices g.shape) :
    ∃ x, g.get? i = some x := by
  have hm : g.get? i ∈ (shapeIndices g.shape).map g.get? := List.mem_map_of_mem h
  rw [map_get?, List.mem_map] at hm
  obtain ⟨x, -, hx⟩ := hm
  exact ⟨x, hx.symm⟩

/-- The same shape with a function applied to each cell. -/
def map (f : τ → υ) (g : Grid τ) : Grid υ where
  shape := g.shape
  cells := g.cells.map f
  size_cells := by rw [Array.size_map, g.size_cells]

@[simp] theorem shape_map (f : τ → υ) (g : Grid τ) : (g.map f).shape = g.shape := rfl

@[simp] theorem toList_map (f : τ → υ) (g : Grid τ) : (g.map f).toList = g.toList.map f := by
  simp [map, toList]

theorem get?_map (f : τ → υ) (g : Grid τ) (i : List Nat) : (g.map f).get? i = (g.get? i).map f := by
  rw [get?, get?]
  split
  · rename_i hi
    rw [shape_map] at hi
    rw [if_pos hi, map, Array.getElem?_map]
  · rename_i hi
    rw [shape_map] at hi
    rw [if_neg hi]
    rfl

theorem ofCells?_map (f : τ → υ) (shape : List Nat) (cells : List τ) :
    ofCells? shape (cells.map f) = (ofCells? shape cells).map (map f) := by
  unfold ofCells?
  by_cases h : cells.toArray.size = shapeSize shape
  · rw [dif_pos h, dif_pos (by simpa using h), Option.map_some]
    exact congrArg some (ext_toList rfl (toList_map f ⟨shape, cells.toArray, h⟩).symm)
  · rw [dif_neg h, dif_neg (by simpa using h), Option.map_none]

end Grid

/-! ## Lanes -/

theorem eq_of_flatMap_eq {ι τ : Type} {xs : List ι} {f g : ι → List τ}
    (h : xs.flatMap f = xs.flatMap g) (hl : ∀ x ∈ xs, (f x).length = (g x).length) :
    ∀ x ∈ xs, f x = g x := by
  induction xs with
  | nil => simp
  | cons x xs ih =>
    rw [List.flatMap_cons, List.flatMap_cons] at h
    obtain ⟨hx, hxs⟩ := List.append_inj h (hl x List.mem_cons_self)
    intro y hy
    cases hy with
    | head => exact hx
    | tail _ hy => exact ih hxs (fun z hz => hl z (List.mem_cons_of_mem _ hz)) y hy

/-- A list falls into pieces of given lengths. -/
theorem exists_pieces {ι τ : Type} [DecidableEq ι] {keys : List ι} (hn : keys.Nodup)
    (width : ι → Nat) {xs : List τ} (h : xs.length = (keys.map width).sum) :
    ∃ f : ι → List τ, (∀ k ∈ keys, (f k).length = width k) ∧ keys.flatMap f = xs := by
  induction keys generalizing xs with
  | nil =>
    refine ⟨fun _ => [], ?_, (List.length_eq_zero_iff.mp h).symm⟩
    intro k hk
    cases hk
  | cons k keys ih =>
    obtain ⟨hk, hn⟩ := List.nodup_cons.mp hn
    rw [List.map_cons, List.sum_cons] at h
    have hrest : (xs.drop (width k)).length = (keys.map width).sum := by
      rw [List.length_drop]
      omega
    obtain ⟨f, hf, hflat⟩ := ih hn hrest
    have hother : ∀ j ∈ keys, Function.update f k (xs.take (width k)) j = f j := by
      intro j hj
      refine Function.update_of_ne ?_ _ _
      rintro rfl
      exact hk hj
    refine ⟨Function.update f k (xs.take (width k)), ?_, ?_⟩
    · intro j hj
      cases hj with
      | head =>
        rw [Function.update_self, List.length_take]
        omega
      | tail _ hj => rw [hother j hj, hf j hj]
    · rw [List.flatMap_cons, Function.update_self, List.flatMap_congr hother, hflat,
        List.take_append_drop]

namespace Register
variable (r : Register)

/-- The qubits of a register whose elements sit on the given lanes, in row-major order. -/
def flat (lanes : List Nat → List Qubit) : List Qubit := r.indices.flatMap lanes

/-- The array that carries the register with the given lanes. -/
def array (lanes : List Nat → List Qubit) : Grid Qubit :=
  Grid.ofFn r.qubitShape fun i => (lanes i.dropLast)[i.getLastD 0]?.getD default

/-- Every element has as many qubits as its type asks for. -/
def Fits (lanes : List Nat → List Qubit) : Prop := ∀ i ∈ r.indices, (lanes i).length = r.bitsize

variable {r}

theorem nodup_indices : r.indices.Nodup := nodup_shapeIndices r.shape

theorem indices_qubitShape :
    shapeIndices r.qubitShape = r.indices.flatMap fun i => (List.range r.bitsize).map (i ++ [·]) :=
  shapeIndices_concat r.shape r.bitsize

theorem map_lane {g : Grid Qubit} (h : g.shape = r.qubitShape) {i : List Nat} (hi : i ∈ r.indices) :
    (r.lane g i).map some = (List.range r.bitsize).map fun k => g.get? (i ++ [k]) := by
  have hb : ∀ k ∈ List.range r.bitsize, ∃ q, g.get? (i ++ [k]) = some q := by
    intro k hk
    refine Grid.exists_get? ?_
    rw [h, indices_qubitShape]
    exact List.mem_flatMap.mpr ⟨i, hi, List.mem_map_of_mem hk⟩
  unfold lane
  generalize List.range r.bitsize = ks at hb ⊢
  induction ks with
  | nil => rfl
  | cons k ks ih =>
    obtain ⟨q, hq⟩ := hb k List.mem_cons_self
    simp only [List.filterMap_cons, hq, List.map_cons]
    rw [ih fun k hk => hb k (List.mem_cons_of_mem _ hk)]

theorem fits_lane {g : Grid Qubit} (h : g.shape = r.qubitShape) : r.Fits (r.lane g) := by
  intro i hi
  have hl := congrArg List.length (map_lane h hi)
  simpa using hl

theorem flat_lane {g : Grid Qubit} (h : g.shape = r.qubitShape) : r.flat (r.lane g) = g.toList := by
  have hm := g.map_get?
  rw [h, indices_qubitShape, List.map_flatMap] at hm
  refine List.map_injective_iff.mpr (Option.some_injective Qubit) ?_
  rw [← hm, flat, List.map_flatMap]
  refine List.flatMap_congr fun i hi => ?_
  rw [map_lane h hi, List.map_map]
  rfl

theorem shape_array (lanes : List Nat → List Qubit) : (r.array lanes).shape = r.qubitShape := rfl

theorem toList_array {lanes : List Nat → List Qubit} (h : r.Fits lanes) :
    (r.array lanes).toList = r.flat lanes := by
  rw [array, Grid.toList_ofFn, indices_qubitShape, List.map_flatMap, flat]
  refine List.flatMap_congr fun i hi => ?_
  refine List.ext_getElem (by simp [h i hi]) fun k hk _ => ?_
  have hk : k < (lanes i).length := by simpa [h i hi] using hk
  simp [List.getElem?_eq_getElem hk]

theorem lane_array {lanes : List Nat → List Qubit} (h : r.Fits lanes) {i : List Nat}
    (hi : i ∈ r.indices) : r.lane (r.array lanes) i = lanes i := by
  refine eq_of_flatMap_eq (?_ : r.indices.flatMap _ = _) ?_ i hi
  · exact (flat_lane (shape_array lanes)).trans (toList_array h)
  · intro i hi
    rw [fits_lane (shape_array lanes) i hi, h i hi]

theorem array_lane {g : Grid Qubit} (h : g.shape = r.qubitShape) : r.array (r.lane g) = g := by
  refine Grid.ext_toList (by rw [shape_array, h]) ?_
  rw [toList_array (fits_lane h), flat_lane h]

theorem array_congr {f g : List Nat → List Qubit} (hf : r.Fits f) (h : ∀ i ∈ r.indices, f i = g i) :
    r.array f = r.array g := by
  have hg : r.Fits g := fun i hi => h i hi ▸ hf i hi
  refine Grid.ext_toList rfl ?_
  rw [toList_array hf, toList_array hg]
  exact List.flatMap_congr h

theorem shapeSize_qubitShape (r : Register) : shapeSize r.qubitShape = r.totalBits := by
  rw [← length_shapeIndices, indices_qubitShape, List.length_flatMap]
  simp [indices, length_shapeIndices, totalBits, numElements, Nat.mul_comm]

theorem length_flat {lanes : List Nat → List Qubit} (h : r.Fits lanes) :
    (r.flat lanes).length = r.totalBits := by
  have hs : (r.array lanes).toList.length = shapeSize r.qubitShape := Grid.length_toList _
  rw [← shapeSize_qubitShape, ← hs, toList_array h]

theorem arrayOf_eq_ok {qubits : List Qubit} {g : Grid Qubit} :
    r.arrayOf qubits = .ok g ↔ g.shape = r.qubitShape ∧ g.toList = qubits := by
  rw [← Grid.ofCells?_eq_some, arrayOf]
  split
  · next h => simp [h]
  · next h => simp [h]

theorem arrayOf_flat {lanes : List Nat → List Qubit} (h : r.Fits lanes) :
    r.arrayOf (r.flat lanes) = .ok (r.array lanes) :=
  arrayOf_eq_ok.mpr ⟨rfl, toList_array h⟩

theorem arrayIn_eq_ok {q : Quregs} {g : Grid Qubit} :
    r.arrayIn q = .ok g ↔ q.get? r.name = some g ∧ g.shape = r.qubitShape := by
  unfold arrayIn checkArray
  cases q.get? r.name with
  | none => simp
  | some g' =>
    by_cases h : g'.shape = r.qubitShape
    · simp only [h, if_true]
      constructor
      · intro hg
        cases hg
        exact ⟨rfl, h⟩
      · rintro ⟨hg, -⟩
        cases hg
        rfl
    · simp only [h, if_false]
      constructor
      · intro hg
        cases hg
      · rintro ⟨hg, hs⟩
        cases hg
        exact absurd hs h

theorem Fits.map {lanes : List Nat → List Qubit} (h : r.Fits lanes) (f : Qubit → Qubit) :
    r.Fits fun i => (lanes i).map f := by
  intro i hi
  rw [List.length_map, h i hi]

theorem array_map {lanes : List Nat → List Qubit} (h : r.Fits lanes) (f : Qubit → Qubit) :
    r.array (fun i => (lanes i).map f) = (r.array lanes).map f := by
  refine Grid.ext_toList rfl ?_
  rw [toList_array (h.map f), Grid.toList_map, toList_array h, flat, flat, List.map_flatMap]

theorem arrayOf_map (r : Register) (f : Qubit → Qubit) (qubits : List Qubit) :
    r.arrayOf (qubits.map f) = (r.arrayOf qubits).map (Grid.map f) := by
  rw [arrayOf, arrayOf, Grid.ofCells?_map, List.length_map]
  cases Grid.ofCells? r.qubitShape qubits <;> rfl

theorem lane_map (r : Register) (f : Qubit → Qubit) (g : Grid Qubit) (i : List Nat) :
    r.lane (g.map f) i = (r.lane g i).map f := by
  rw [lane, lane, List.map_filterMap]
  simp only [Grid.get?_map]

end Register
end BloqCircuit
