import Mathlib.Data.List.Induction
import BloqCircuit.Proofs.Lanes
/-! Row-major order. The indices of a shape in lexicographic order, their positions, arrays that are made
of flat lists and the lanes of registers all follow one order. -/
namespace BloqCircuit

/-! ## Indices in order -/

/-- Each index goes on with every entry of one more dimension. -/
def extendIndices (found : List (List Nat)) (d : Nat) : List (List Nat) :=
  found.flatMap fun i => (List.range d).map (i ++ [·])

/-- The indices of a shape are the ones that have an entry below each dimension. -/
theorem mem_shapeIndices {shape i : List Nat} : i ∈ shapeIndices shape ↔ List.Forall₂ (· < ·) i shape := by
  induction shape generalizing i with
  | nil => rw [shapeIndices, List.mem_singleton, List.forall₂_nil_right_iff]
  | cons d s ih =>
    cases i with
    | nil => simp [shapeIndices]
    | cons k t => simp [shapeIndices, ih]

theorem pairwise_shapeIndices (shape : List Nat) : (shapeIndices shape).Pairwise (· < ·) := by
  induction shape with
  | nil => exact List.pairwise_singleton _ _
  | cons d s ih =>
    rw [shapeIndices, List.pairwise_flatMap]
    constructor
    · intro k _
      rw [List.pairwise_map]
      exact ih.imp fun h => List.cons_lt_cons_self.mpr h
    · -- rows of a smaller first entry come before all rows of a larger one
      refine List.pairwise_lt_range.imp fun {k l} hkl i hi j hj => ?_
      obtain ⟨t, -, rfl⟩ := List.mem_map.mp hi
      obtain ⟨u, -, rfl⟩ := List.mem_map.mp hj
      exact List.Lex.rel hkl

/-- The indices grow at their end as well as at their front. -/
theorem foldl_extendIndices (shape : List Nat) :
    shape.foldl extendIndices [[]] = shapeIndices shape := by
  induction shape using List.reverseRecOn with
  | nil => rfl
  | append_singleton s d ih =>
    rw [List.foldl_append, ih, shapeIndices_concat]
    rfl

/-! ## Registers -/

namespace Register

/-- One order for all. The indices of a register are the valid ones, strictly increasing in lexicographic
order, as they also come out when they grow dimension by dimension; their positions are the numbers from
zero on. An array that is made of a flat list has the list's elements at its indices one after another.
The lanes of an array that carries the register, put one after another, are the array's cells in this
order, and they are assembled into the same array. Lanes that are assembled are the array's lanes. -/
theorem row_major (r : Register) {τ : Type} :
    ((∀ i, i ∈ r.indices ↔ List.Forall₂ (· < ·) i r.shape) ∧ r.indices.Pairwise (· < ·) ∧
      r.shape.foldl extendIndices [[]] = r.indices ∧
      r.indices.map (rowMajor r.shape) = List.range r.numElements) ∧
    (∀ shape (flat : List τ), flat.length = shapeSize shape →
      ∃ g, Grid.ofCells? shape flat = some g ∧ g.shape = shape ∧
        (∀ i ∈ shapeIndices shape, g.get? i = flat[rowMajor shape i]?) ∧
        (shapeIndices shape).map g.get? = flat.map some) ∧
    (∀ g : Grid Qubit, g.shape = r.qubitShape →
      r.arrayOf (r.indices.map (r.lane g)).flatten = .ok g ∧
      (r.indices.map (r.lane g)).flatten.map some = (shapeIndices r.qubitShape).map g.get?) ∧
    ∀ lanes, r.Fits lanes → ∃ g, r.arrayOf (r.indices.map lanes).flatten = .ok g ∧
      ∀ i ∈ r.indices, r.lane g i = lanes i := by
  have hflat : ∀ lanes : List Nat → List Qubit, (r.indices.map lanes).flatten = r.flat lanes :=
    fun lanes => List.flatMap_def.symm
  refine ⟨⟨fun i => mem_shapeIndices, pairwise_shapeIndices r.shape, foldl_extendIndices r.shape,
    map_rowMajor r.shape⟩, fun shape flat h => ?_, fun g hg => ?_, fun lanes h => ?_⟩
  · obtain ⟨g, hg, rfl, rfl⟩ := Grid.exists_ofCells? h
    exact ⟨g, hg, rfl, fun i hi => g.get?_eq_getElem? hi, g.map_get?⟩
  · have hcells := flat_lane hg
    rw [hflat, hcells, ← hg, g.map_get?]
    exact ⟨arrayOf_eq_ok.mpr ⟨hg, rfl⟩, rfl⟩
  · rw [hflat]
    exact ⟨r.array lanes, arrayOf_flat h, fun i hi => lane_array h hi⟩

/-- Two rows of two elements of two bits: the third element stands at position two, and its second bit on
the sixth of eight qubits. Without bits every element has an empty lane, and there are no elements at all
if a dimension is zero. -/
theorem row_major_block :
    let r : Register := ⟨"r", .qany 2, [2, 2], .thru⟩
    let e : Register := ⟨"e", .qany 0, [2], .left⟩
    let z : Register := ⟨"z", .qany 3, [2, 0], .right⟩
    let qs : List Qubit := [.line 0, .line 1, .line 2, .line 3, .line 4, .line 5, .line 6, .line 7]
    r.indices.map (rowMajor r.shape) = [0, 1, 2, 3] ∧ r.shape.foldl extendIndices [[]] = r.indices ∧
    (∃ g, Grid.ofCells? r.qubitShape qs = some g ∧ g.get? [1, 0, 1] = some (.line 5) ∧
      r.arrayOf (r.indices.map (r.lane g)).flatten = .ok g) ∧
    (∃ g, e.arrayOf [] = .ok g ∧ ∀ i ∈ e.indices, e.lane g i = []) ∧
    z.indices = [] ∧ ∃ g, z.arrayOf [] = .ok g := by
  intro r e z qs
  obtain ⟨⟨-, -, hgrow, hposition⟩, hcells, harray, -⟩ := row_major r (τ := Qubit)
  obtain ⟨g, hg, hshape, hget, -⟩ := hcells r.qubitShape qs rfl
  obtain ⟨-, -, -, hlanes⟩ := row_major e (τ := Qubit)
  obtain ⟨⟨-, -, hnone, -⟩, -, -, hempty⟩ := row_major z (τ := Qubit)
  obtain ⟨g₀, hg₀, -⟩ := hempty (fun _ => []) fun i hi => absurd hi List.not_mem_nil
  refine ⟨hposition, hgrow, ⟨g, hg, hget _ (by decide), (harray g hshape).1⟩,
    hlanes (fun _ => []) fun _ _ => rfl, hnone.symm, g₀, hg₀⟩

end Register
end BloqCircuit
