import BloqCircuit.Builder
/-! Construction scripts: builder calls as data, over named wires. A part of a step that could not be
made is kept as the reason, and counts when the step is run. -/
namespace BloqCircuit

/-- An array of soquets, in terms of named wires. -/
inductive WireExpr (β : Type) where
  | wire (name : String)
  /-- One element of a named array, as an array without dimensions. -/
  | element (name : String) (index : List Nat)
  /-- Single soquets in a row. -/
  | stack (items : List (WireExpr β))
  /-- The same soquets in another shape. -/
  | reshape (shape : List Nat) (source : WireExpr β)
  /-- A soquet that no step has produced. -/
  | madeUp (s : Except Error (Soquet β))

/-- One builder call, with the names for its results. -/
inductive Step (β : Type) where
  | register (r : Register)
  /-- Each output is named by `stem`, a point and its register. -/
  | add (bloq : Except Error β) (given : List (String × WireExpr β)) (stem : String)
  | split (source : WireExpr β) (name : String)
  | join (source : WireExpr β) (dtype : Option DataType) (name : String)
  | joinVec (items : List (WireExpr β)) (dtype : Option DataType) (name : String)
  | allocate (dtype : DataType) (name : String)
  | free (source : WireExpr β)

/-- Named wires; the first entry of a name counts. -/
abbrev Wires (β : Type) := List (String × Grid (Soquet β))

namespace Wires
variable {β : Type}

def get (w : Wires β) (name : String) : Except Error (Grid (Soquet β)) :=
  match w.lookup name with
  | some g => .ok g
  | none => .error (.unboundName name)

/-- Only arrays without dimensions are single soquets. -/
def scalar (g : Grid (Soquet β)) : Except Error (Soquet β) := Soquets.single ⟨[("soq", g)]⟩ "soq"

mutual
def eval (w : Wires β) : WireExpr β → Except Error (Grid (Soquet β))
  | .wire name => w.get name
  | .element name index => do
    match (← w.get name).get? index with
    | some s => return .scalar s
    | none => throw (.unboundName (name ++ bracketed index))
  | .stack items => do return .vector (← evalScalars w items)
  | .reshape shape source => do
    match (← eval w source).reshape? shape with
    | some g => return g
    | none => throw (.unboundName (bracketed shape))
  | .madeUp s => do return .scalar (← s)

/-- Expressions for single soquets. -/
def evalScalars (w : Wires β) : List (WireExpr β) → Except Error (List (Soquet β))
  | [] => .ok []
  | e :: es => do
    let s ← scalar (← eval w e)
    return s :: (← evalScalars w es)
end

def evalScalar (w : Wires β) (e : WireExpr β) : Except Error (Soquet β) := do scalar (← w.eval e)

/-- Arrays by register name. -/
def evalAll (w : Wires β) : List (String × WireExpr β) → Soquets β → Except Error (Soquets β)
  | [], out => .ok out
  | (name, e) :: rest, out => do
    let g ← w.eval e
    w.evalAll rest (out.insert name g)

end Wires

namespace Step
variable {β : Type} [BloqKind β]

/-- What a step yields: arrays by register name, or nothing at all. -/
abbrev Yield (β : Type) := Option (List (String × Grid (Soquet β)))

/-- A yield of one array. -/
def one (g : Grid (Soquet β)) : Yield β := some [(Builder.bundleName, g)]

/-- Runs a step. Names are bound only if it succeeds. -/
def run (w : Wires β) : Step β → BuildM β (Yield β × Wires β)
  | register r => do
    match ← Builder.addRegister r with
    | some g => return (some [(r.name, g)], (r.name, g) :: w)
    | none => return (none, w)
  | add bloq given stem => do
    let bloq ← bloq
    let given ← w.evalAll given Arrays.empty
    let out ← Builder.add bloq given
    return (some out.entries, out.entries.map (fun e => (stem ++ "." ++ e.1, e.2)) ++ w)
  | split source name => do
    let s ← w.evalScalar source
    let g ← Builder.split s
    return (one g, (name, g) :: w)
  | join source dtype name => do
    let bits ← w.eval source
    let g := Grid.scalar (← Builder.join bits dtype)
    return (one g, (name, g) :: w)
  | joinVec items dtype name => do
    let bits ← w.evalScalars items
    let g := Grid.scalar (← Builder.join (.vector bits) dtype)
    return (one g, (name, g) :: w)
  | allocate dtype name => do
    let g := Grid.scalar (← Builder.allocate dtype)
    return (one g, (name, g) :: w)
  | free source => do
    let s ← w.evalScalar source
    Builder.free s
    return (none, w)

/-- Runs steps up to the first failure. -/
def runAll : List (Step β) → Wires β → BuildM β (Wires β)
  | [], w => return w
  | step :: rest, w => do
    let (_, w) ← step.run w
    runAll rest w

/-- Runs all steps, whether or not earlier ones failed, and lists what each of them gave. -/
def tryAll : List (Step β) → Wires β → StateM (Builder β) (List (Except Error (Yield β)) × Wires β)
  | [], w => return ([], w)
  | step :: rest, w => do
    match ← (step.run w).run with
    | .ok (y, w) => do
      let (results, w) ← tryAll rest w
      return (.ok y :: results, w)
    | .error e => do
      let (results, w) ← tryAll rest w
      return (.error e :: results, w)

end Step

/-- A script for a whole composite. -/
structure Script (β : Type) where
  /-- The signature to start from; without one, construction starts from nothing. -/
  signature : Option Signature
  /-- Whether registers may be added to the signature. -/
  isOpen : Bool
  steps : List (Step β)
  /-- The arrays for the outputs. -/
  out : List (String × WireExpr β)

namespace Script
variable {β : Type} [BloqKind β]

/-- Starts construction and names the inputs after their registers. -/
def start (s : Script β) : BuildM β (Wires β) :=
  match s.signature with
  | none => return []
  | some signature => do
    let soquets ← Builder.start signature s.isOpen
    return soquets.entries

def finish (s : Script β) (w : Wires β) : BuildM β (Composite β) := do
  let final ← w.evalAll s.out Arrays.empty
  Builder.finalize final

/-- The composite of a script; the first failure ends it. -/
def compose (s : Script β) : Except Error (Composite β) :=
  Builder.run do
    let w ← s.start
    let w ← Step.runAll s.steps w
    s.finish w

/-- The results of all steps and of closing the composite; only a failure to start ends it. -/
def trace (s : Script β) : Except Error (List (Except Error (Step.Yield β)) ×
    Except Error (Composite β)) :=
  match (s.start.run {}) with
  | (.error e, _) => .error e
  | (.ok w, b) =>
    let ((results, w), b) := (Step.tryAll s.steps w).run b
    .ok (results, ((s.finish w).run b).1)

/-- The inside of a bloq with a signature, wired by steps. -/
def decomposition (signature : Signature) (steps : List (Step β))
    (out : List (String × WireExpr β)) : Except Error (Composite β) :=
  Builder.compose signature fun soquets => do
    let w ← Step.runAll steps soquets.entries
    w.evalAll out Arrays.empty

end Script
end BloqCircuit
