import BloqCircuit.Bloq.Adjoint
import BloqCircuit.Import
import BloqCircuit.Wrapped
/-! Decompositions: of bloqs into composites, of gates into operations. -/
namespace BloqCircuit
variable {α κ : Type} [Angle α]

/-- The greatest exponent whose power is laid out as a sequence. -/
def maxUnrolledExponent : Nat := 4096

/-- Places a bloq a number of times in sequence. -/
def Builder.addTimes (b : Bloq α κ) :
    Nat → Soquets (Bloq α κ) → BuildM (Bloq α κ) (Soquets (Bloq α κ))
  | 0, soquets => return soquets
  | n + 1, soquets => do
    let soquets ← Builder.add b soquets
    addTimes b n soquets

/-- The sequence of a power. -/
def Bloq.unroll (b : Bloq α κ) (n : Nat) : Except Error (Composite (Bloq α κ)) :=
  Builder.compose b.signature fun soquets =>
    if maxUnrolledExponent < n then
      throw (.decomposeType (Bloq.power b n).text
        ("exponent exceeds " ++ toString maxUnrolledExponent))
    else Builder.addTimes b n soquets

/-- Swaps decompose into controlled nots; other standard gates do not decompose. -/
def StandardGate.decompose (g : StandardGate α) (qubits : List Qubit) :
    Except Error (Option (List (Operation (Gate α κ)))) :=
  let on (g : StandardGate α) := Operation.make (Gate.standard (κ := κ) g)
  match g, qubits with
  | .swap, [a, b] => do
    return some [← on .cx [a, b], ← on .cx [b, a], ← on .cx [a, b]]
  | .cswap, [c, a, b] => do
    return some [← on .cx [b, a], ← on .ccx [c, a, b], ← on .cx [b, a]]
  | _, _ => .ok none

/-- The qubits at these positions. -/
def qubitsAt (qubits : Array Qubit) (positions : List Nat) : Except Error (List Qubit) :=
  positions.mapM fun k => match qubits[k]? with
    | some q => .ok q
    | none => .error (.unboundName (toString k))

/-- Runs the body of a declared gate. -/
def GateBody.run (body : GateBody (Gate α κ)) (qubits : List Qubit) :
    AllocM CleanPool (List (Operation (Gate α κ))) := do
  let ancillas ← (Allocator.alloc body.ancillas : StateM CleanPool (List Qubit))
  let available := (qubits ++ ancillas).toArray
  let ops ← body.steps.mapM fun (g, positions) => do
    Operation.make g (← qubitsAt available positions)
  match body.fault with
  | some e => throw e
  | none => do
    if body.frees then Allocator.free ancillas
    return ops

mutual
/-- The operations that a gate stands for on given qubits, if it decomposes. -/
def Gate.decompose :
    Gate α κ → List Qubit → AllocM CleanPool (Option (List (Operation (Gate α κ))))
  | .standard g, qubits => g.decompose qubits
  | .ofBloq b, qubits => Wrapped.decompose b.signature b.decomposition qubits
  | .declared d, qubits => match d.body with
    | none => return none
    | some body => some <$> body.run qubits
  | .nest levels, qubits => do
    let inner : Gate α κ := if levels = 0 then .standard .x else .nest (levels - 1)
    return some [← Operation.make inner qubits]

/-- The composite that a bloq stands for. -/
def Bloq.decomposition : Bloq α κ → Except Error (Composite (Bloq α κ))
  | .split _ => .error (.decomposeType "Split" "bookkeeping bloqs are atomic")
  | .join _ => .error (.decomposeType "Join" "bookkeeping bloqs are atomic")
  | .allocate _ => .error (.decomposeType "Allocate" "bookkeeping bloqs are atomic")
  | .free _ => .error (.decomposeType "Free" "bookkeeping bloqs are atomic")
  | .adjoint b => do (← b.decomposition).adjoint
  | .power b n => b.unroll n
  | .ofGate g => do
    let register := gateRegister g.arity
    let quregs := Quregs.named [register]
    let qubits ← quregs.merge [register]
    match ← ((g.decompose qubits).run {}).1 with
    | none => throw (.decomposeNotImplemented g.text)
    | some ops => Circuit.importBetween ⟨ops⟩ ⟨[register]⟩ quregs quregs
  | .composite c => .ok c
  | .declared d => d.decomposition
end

end BloqCircuit
