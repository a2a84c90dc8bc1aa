/-! Arrays of any rank, in row-major order. -/
namespace BloqCircuit

/-- How many cells an array of this shape has. -/
def shapeSize : List Nat → Nat
  | [] => 1
  | d :: s => d * shapeSize s

/-- Every index into a shape, in row-major order. The empty shape has one index, the empty one. -/
def shapeIndices : List Nat → List (List Nat)
  | [] => [[]]
  | d :: s => (List.range d).flatMap fun i => (shapeIndices s).map (i :: ·)

/-- The row-major position of an index. -/
def rowMajor (shape index : List Nat) : Nat :=
  (shape.zip index).foldl (fun acc p => acc * p.1 + p.2) 0

/-- An index is valid if it has one entry for each dimension, below it. -/
def validIndex : List Nat → List Nat → Bool
  | [], [] => true
  | d :: s, i :: t => i < d && validIndex s t
  | _, _ => false

theorem length_shapeIndices (shape : List Nat) :
    (shapeIndices shape).length = shapeSize shape := by
  induction shape with
  | nil => rfl
  | cons d s ih =>
    simp only [shapeIndices, List.length_flatMap, List.length_map, ih, shapeSize]
    rw [List.map_const', List.sum_replicate_nat, List.length_range]

/-- An array of some shape, with its cells in row-major order. -/
structure Grid (τ : Type) where
  shape : List Nat
  cells : Array τ
  size_cells : cells.size = shapeSize shape

namespace Grid
variable {τ υ : Type}

instance [BEq τ] : BEq (Grid τ) where
  beq a b := a.shape == b.shape && a.cells == b.cells

/-- The array of this shape with these cells, if their number fits. -/
def ofCells? (shape : List Nat) (cells : List τ) : Option (Grid τ) :=
  if h : cells.toArray.size = shapeSize shape then some ⟨shape, cells.toArray, h⟩ else none

/-- The array whose cell at each index is `f` of the index. -/
def ofFn (shape : List Nat) (f : List Nat → τ) : Grid τ where
  shape := shape
  cells := ((shapeIndices shape).map f).toArray
  size_cells := by simp [length_shapeIndices]

/-- The array without dimensions that holds one cell. -/
def scalar (x : τ) : Grid τ := ⟨[], #[x], rfl⟩

/-- The array of one dimension with these cells. -/
def vector (xs : List τ) : Grid τ := ⟨[xs.length], xs.toArray, by simp [shapeSize]⟩

def toList (g : Grid τ) : List τ := g.cells.toList

def get? (g : Grid τ) (index : List Nat) : Option τ :=
  if validIndex g.shape index then g.cells[rowMajor g.shape index]? else none

/-- The same cells in another shape, if their number fits. -/
def reshape? (g : Grid τ) (shape : List Nat) : Option (Grid τ) :=
  if h : g.cells.size = shapeSize shape then some ⟨shape, g.cells, h⟩ else none

def rank (g : Grid τ) : Nat := g.shape.length

theorem length_toList (g : Grid τ) : g.toList.length = shapeSize g.shape := by
  simp [toList, g.size_cells]

theorem toList_scalar (x : τ) : (scalar x).toList = [x] := rfl

theorem toList_vector (xs : List τ) : (vector xs).toList = xs := rfl

theorem toList_ofFn (shape : List Nat) (f : List Nat → τ) :
    (ofFn shape f).toList = (shapeIndices shape).map f := rfl

end Grid
end BloqCircuit
