import BloqCircuit.Bloq
/-! Adjoints of bloqs and powers of gates. -/
namespace BloqCircuit
variable {α κ : Type} [Angle α]

/-- A bloq that acts as a gate; its registers must have different names. -/
def Bloq.asGate (b : Bloq α κ) : Except Error (Gate α κ) := Wrapped.gate b

mutual
/-- The gate to the power of minus one, if it has one. -/
def Gate.inverse : Gate α κ → Except Error (Option (Gate α κ))
  | .standard g => .ok (g.inverse?.map .standard)
  | .ofBloq b => ((b.ownAdjoint?.getD (.adjoint b)).asGate).map some
  | .declared ⟨_, _, _, _, _, _, inverse⟩ => match inverse with
    | none => .ok none
    | some (.ok g) => .ok (some g)
    | some (.error e) => .error e
  | .nest _ => .ok none

/-- The adjoint that a bloq has of its own. -/
def Bloq.ownAdjoint? : Bloq α κ → Option (Bloq α κ)
  | .split t => some (.join t)
  | .join t => some (.split t)
  | .allocate t => some (.free t)
  | .free t => some (.allocate t)
  | .adjoint b => some b
  | .power b n => some (.power (b.ownAdjoint?.getD (.adjoint b)) n)
  | .ofGate g => match g.inverse with
    | .ok (some h) => some (.ofGate h)
    | _ => none
  | .composite ⟨s, is, es⟩ => match Composite.adjointFrom (turnInstances is) ⟨s, is, es⟩ with
    | .ok c => some (.composite c)
    | .error _ => none
  | .declared _ => none

/-- Instances under their numbers with the adjoints of their bloqs. -/
def turnInstances : List (Instance (Bloq α κ)) → List (Instance (Bloq α κ))
  | [] => []
  | ⟨n, b⟩ :: rest => ⟨n, b.ownAdjoint?.getD (.adjoint b)⟩ :: turnInstances rest
end

/-- The adjoint of a bloq: its own, or the bloq under the general adjoint. -/
def Bloq.adjointOf (b : Bloq α κ) : Bloq α κ := b.ownAdjoint?.getD (.adjoint b)

theorem turnInstances_eq_map (is : List (Instance (Bloq α κ))) :
    turnInstances is = is.map fun x => ⟨x.number, x.bloq.adjointOf⟩ := by
  induction is with
  | nil => simp [turnInstances]
  | cons x rest ih =>
    cases x with
    | mk n b => simp [turnInstances, ih, Bloq.adjointOf]

/-- The composite with every instance replaced by its adjoint and every wire reversed. -/
def Composite.adjoint (c : Composite (Bloq α κ)) : Except Error (Composite (Bloq α κ)) :=
  c.adjointFrom (turnInstances c.instances)

/-- The gate to an integral power, if it can be expressed. -/
def Gate.pow (n : Int) : Gate α κ → Except Error (Option (Gate α κ))
  | .standard g => .ok ((g.power? n).map .standard)
  | .ofBloq b =>
    if n = 0 then .ok none
    else if n = 1 then .ok (some (.ofBloq b))
    else if n = -1 then (Gate.ofBloq b).inverse
    else do
      let base := if 0 < n then b else b.adjointOf
      return some (← (← base.repeated n.natAbs).asGate)
  | .declared d => if n = -1 then (Gate.declared d).inverse else .ok none
  | .nest _ => .ok none

end BloqCircuit
