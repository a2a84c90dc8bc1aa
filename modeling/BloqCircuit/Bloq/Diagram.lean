import BloqCircuit.Bloq
import BloqCircuit.Text.Escaped
/-! How bloqs and gates are drawn: symbols for register elements, labels for wires. -/
namespace BloqCircuit
variable {α κ : Type} [Angle α]

/-- The symbol that a wire label stands for. -/
def WireSymbol.ofLabel : String → WireSymbol
  | "@" => .circle true
  | "(0)" => .circle false
  | "X" => .modPlus
  | label => .textBox label

/-- The wire label of a symbol. Text without a box has none. -/
def WireSymbol.label : WireSymbol → Except Error String
  | circle true => .ok "@"
  | circle false => .ok "(0)"
  | textBox t | rarrowTextBox t | larrowTextBox t => .ok t
  | modPlus => .ok "X"
  | text t => .error (.unknownWireSymbol ("Text(" ++ Text.escaped t ++ ")"))

/-- The symbol that a declared bloq gives an element. -/
def declaredSymbol (symbols : List (String × List WireSymbol)) (r : Register) (index : List Nat) :
    WireSymbol :=
  (((symbols.lookup r.name).getD [])[rowMajor r.shape index]?).getD (.textBox r.name)

mutual
/-- One label for each qubit of a gate. -/
def Gate.labels : Gate α κ → Except Error (List String)
  | .standard g => .ok g.symbols
  | .ofBloq b => do
    let labels ← b.signature.registers.mapM fun r =>
      r.indices.mapM fun i => do
        let label ← (b.symbol r i).label
        return List.replicate r.bitsize label
    return labels.flatten.flatten
  | .declared d => d.labels.getD (.ok (List.replicate d.arity d.name))
  | .nest n => .ok [(Gate.nest (α := α) (κ := κ) n).name]

/-- The symbol of one element of a register. -/
def Bloq.symbol (r : Register) (index : List Nat) : Bloq α κ → WireSymbol
  | .split t => match r.side, index with
    | .right, i :: _ => .rarrowTextBox (toString i)
    | _, _ => .larrowTextBox t.text
  | .join t => match r.side, index with
    | .left, i :: _ => .larrowTextBox (toString i)
    | _, _ => .rarrowTextBox t.text
  | .allocate _ => .text "alloc"
  | .free _ => .text "free"
  | .adjoint b => b.symbol r.adjoint index
  | .power b _ => b.symbol r index
  | .ofGate g => match g.labels with
    | .ok labels => match labels[index.headD 0]? with
      | some label => .ofLabel label
      | none => .textBox r.name
    | .error _ => .textBox r.name
  | .composite _ => .textBox r.name
  | .declared d => declaredSymbol d.symbols r index
end

end BloqCircuit
