import BloqCircuit.Bloq.Decomposition
import BloqCircuit.Proofs.Renamed.Emission
/-! Decompositions of gates on renamed qubits. -/
namespace BloqCircuit
variable {f : Qubit ↪ Qubit}

/-! ## Renaming by pairs -/

private theorem getElem?_insertMany_map {m m' : Renaming} (h : ∀ q, m'[f q]? = m[q]?.map f)
    (pairs : List (Qubit × Qubit)) (q : Qubit) :
    (m'.insertMany (pairs.map (Prod.map f f)))[f q]? = (m.insertMany pairs)[q]?.map f := by
  induction pairs generalizing m m' with
  | nil => exact h q
  | cons pair pairs ih =>
    obtain ⟨x, y⟩ := pair
    rw [List.map_cons, Prod.map_apply, Std.ExtTreeMap.insertMany_cons, Std.ExtTreeMap.insertMany_cons]
    refine ih fun z => ?_
    rw [getElem?_insert_key, getElem?_insert_key, h z]
    simp only [f.injective.eq_iff]
    split <;> rfl

/-- Pairs can be renamed before or after they are used. -/
theorem Renaming.rename_map (pairs : List (Qubit × Qubit)) (q : Qubit) :
    (ofPairs (pairs.map (Prod.map f f))).rename (f q) = f ((ofPairs pairs).rename q) := by
  have hempty : ∀ z, (∅ : Renaming)[f z]? = (∅ : Renaming)[z]?.map f := fun z => by simp
  have hget := getElem?_insertMany_map hempty pairs q
  rw [rename, rename, Std.ExtTreeMap.getD_eq_getD_getElem?, Std.ExtTreeMap.getD_eq_getD_getElem?,
    ofPairs, ofPairs, Std.ExtTreeMap.ofList_eq_insertMany_empty,
    Std.ExtTreeMap.ofList_eq_insertMany_empty, hget]
  cases (Std.ExtTreeMap.insertMany (∅ : Renaming) pairs)[q]? <;> rfl

theorem Circuit.map_rename {γ : Type} (c : Circuit γ) (pairs : List (Qubit × Qubit)) :
    (c.map f).map (Renaming.ofPairs (pairs.map (Prod.map f f))).rename =
      (c.map (Renaming.ofPairs pairs).rename).map f := by
  simp only [Circuit.map, List.map_map, Circuit.mk.injEq]
  refine List.map_congr_left fun op _ => ?_
  simp only [Function.comp_apply, Operation.map, List.map_map, Operation.mk.injEq, true_and]
  exact List.map_congr_left fun q _ => Renaming.rename_map pairs q

/-! ## Wrapped bloqs -/

namespace Wrapped

theorem agree_pick (quregs : Quregs) (registers : List Register) (out : Quregs) :
    Agree (Arrays.map f) (pick quregs registers out) (pick (quregs.map f) registers (out.map f)) := by
  induction registers generalizing out with
  | nil => exact .ok out
  | cons r rest ih =>
    rw [pick, pick, Arrays.get?_map]
    cases quregs.get? r.name with
    | none => exact .error rfl
    | some g =>
      have hrest := ih (out.insert r.name g)
      rw [Arrays.insert_map] at hrest
      exact hrest

theorem twin_returnOutputs {σ : Type} [Allocator σ] [Nominal σ] (produced assigned : Quregs)
    (registers : List Register) :
    Twin (σ := σ) f 0 (List.map (Prod.map f f)) (returnOutputs produced assigned registers)
      (returnOutputs (produced.map f) (assigned.map f) registers) := by
  induction registers with
  | nil => exact .pure []
  | cons r rest ih =>
    rw [returnOutputs, returnOutputs, Arrays.get?_map, Arrays.get?_map]
    cases produced.get? r.name with
    | none => exact .throw rfl
    | some p =>
      cases assigned.get? r.name with
      | none => exact .throw rfl
      | some a =>
        simp only [Option.map_some, Grid.shape_map, Grid.toList_map]
        have hfree : Twin (σ := σ) f 0 (List.map (Prod.map f f))
            (do
              Allocator.free p.toList
              let more ← returnOutputs produced assigned rest
              return p.toList.zip a.toList ++ more)
            (do
              Allocator.free (p.toList.map f)
              let more ← returnOutputs (produced.map f) (assigned.map f) rest
              return (p.toList.map f).zip (a.toList.map f) ++ more) := by
          refine (Twin.free p.toList).bind (k := 0) fun _ => ih.bind (k := 0) fun more => ?_
          rw [List.zip_map, ← List.map_append]
          exact .pure _
        split
        · exact (Twin.throw rfl).bind (g := id) (k := 0) fun _ => hfree
        · exact hfree

variable {β γ : Type} [BloqKind β] [GateKind γ] [CircuitForm β γ]

theorem twin_emitOn (c : Composite β) (quregs : Quregs) :
    Twin f (c.ancillas .greedy) (Circuit.map f) (emitOn c quregs) (emitOn c (quregs.map f)) := by
  refine Twin.within ?_
  refine .lift_bind (agree_pick quregs c.signature.lefts Arrays.empty) fun inputs => ?_
  refine .lift_bind (Quregs.agree_merge inputs c.signature.lefts) fun qubits => ?_
  refine ((Twin.declare qubits).bind fun _ => ?_).mono (Nat.zero_add _).le
  refine (c.twin_export c.signature inputs .greedy).bind (k := 0) fun result => ?_
  obtain ⟨circuit, out⟩ := result
  refine (twin_returnOutputs out quregs (c.signature.rights.filter (·.side == .right))).bind
    (k := 0) fun pairs => ?_
  show Twin f 0 _ _ (pure ((circuit.map f).map _))
  rw [Circuit.map_rename]
  exact .pure _

/-- How many ancillas the circuit of a decomposition takes, if there is one. -/
def ancillas (decomposition : Except Error (Composite β)) : Nat :=
  match decomposition with
  | .ok c => c.ancillas .greedy
  | .error _ => 0

/-- The kind of a failure alone settles whether there is a decomposition. -/
theorem twin_decompose (signature : Signature) (decomposition : Except Error (Composite β))
    (qubits : List Qubit) :
    Twin f (ancillas decomposition) (Option.map (List.map (Operation.map f)))
      (decompose signature decomposition qubits)
      (decompose signature decomposition (qubits.map f)) := by
  refine .lift_bind (Quregs.agree_split signature qubits) fun quregs => ?_
  let rename : Option (List (Operation γ)) → Option (List (Operation γ)) :=
    Option.map (List.map (Operation.map f))
  -- an early return of operations passes the handler, a failure does not
  have hemit : Twin f (ancillas decomposition)
      (fun r : Except (Option (List (Operation γ))) (Option (List (Operation γ))) =>
        (r.mapError rename).map rename)
      (do
        let c ← decomposition
        let circuit ← emitOn c quregs
        return .error (some circuit.operations))
      (do
        let c ← decomposition
        let circuit ← emitOn c (quregs.map f)
        return .error (some circuit.operations)) := by
    refine .bind_same fun c hc => ?_
    rw [hc]
    exact (twin_emitOn c quregs).bind (k := 0) fun circuit =>
      .pure (Except.error (some circuit.operations))
  refine (hemit.tryCatch (k := 0) fun e e' he => ?_).bind (k := 0) fun r => ?_
  · rw [Error.isDecomposeUnavailable, Error.isDecomposeUnavailable, he]
    split
    · exact .pure (Except.error none)
    · exact (Twin.throw he).bind (g := rename) (k := 0) fun r => .pure (Except.ok r)
  · cases r with
    | ok ops => exact .pure ops
    | error ops => exact .pure ops

end Wrapped

/-! ## Gates -/

section
variable {α κ : Type} [Angle α]

theorem StandardGate.agree_decompose (g : StandardGate α) (qubits : List Qubit) :
    Agree (Option.map (List.map (Operation.map f))) (g.decompose (κ := κ) qubits)
      (g.decompose (qubits.map f)) := by
  have on : ∀ (g : StandardGate α) (qubits : List Qubit), Agree (Operation.map f)
      (Operation.make (Gate.standard (κ := κ) g) qubits)
      (Operation.make (Gate.standard g) (qubits.map f)) := fun g => Operation.agree_make _
  cases g with
  | swap =>
    obtain _ | ⟨a, _ | ⟨b, _ | ⟨c, rest⟩⟩⟩ := qubits
    · exact .ok none
    · exact .ok none
    · exact (on .cx [a, b]).bind fun x => (on .cx [b, a]).bind fun y => (on .cx [a, b]).bind fun z =>
        .ok (some [x, y, z])
    · exact .ok none
  | cswap =>
    obtain _ | ⟨c, _ | ⟨a, _ | ⟨b, _ | ⟨d, rest⟩⟩⟩⟩ := qubits
    · exact .ok none
    · exact .ok none
    · exact .ok none
    · exact (on .cx [b, a]).bind fun x => (on .ccx [c, a, b]).bind fun y =>
        (on .cx [b, a]).bind fun z => .ok (some [x, y, z])
    · exact .ok none
  | _ => exact .ok none

theorem agree_qubitsAt (qubits : Array Qubit) (positions : List Nat) :
    Agree (List.map f) (qubitsAt qubits positions) (qubitsAt (qubits.map f) positions) := by
  refine .mapM fun k _ => ?_
  rw [Array.getElem?_map]
  cases qubits[k]? with
  | none => exact .error rfl
  | some q => exact .ok q

theorem GateBody.twin_run (body : GateBody (Gate α κ)) (qubits : List Qubit) :
    Twin f body.ancillas (List.map (Operation.map f)) (body.run qubits)
      (body.run (qubits.map f)) := by
  refine (Twin.alloc body.ancillas).bind (k := 0) fun ancillas => ?_
  rw [← List.map_append, ← List.map_toArray]
  have hsteps : Twin (σ := CleanPool) f 0 (List.map (Operation.map f))
      (body.steps.mapM fun s => do Operation.make s.1 (← qubitsAt (qubits ++ ancillas).toArray s.2))
      (body.steps.mapM fun s => do
        Operation.make s.1 (← qubitsAt ((qubits ++ ancillas).toArray.map f) s.2)) :=
    .mapM fun s _ => .lift_bind (agree_qubitsAt _ s.2) fun qubits => .lift (Operation.agree_make s.1 _)
  refine hsteps.bind (k := 0) fun ops => ?_
  cases body.fault with
  | some e => exact .throw rfl
  | none =>
    dsimp only
    split
    · exact (Twin.free ancillas).bind (k := 0) fun _ => .pure ops
    · exact .pure ops

/-- How many ancillas a gate takes when it is decomposed, its parts not counted. -/
def Gate.ancillas : Gate α κ → Nat
  | .ofBloq b => Wrapped.ancillas b.decomposition
  | .declared d => d.body.elim 0 GateBody.ancillas
  | .standard _ | .nest _ => 0

/-- A gate on renamed qubits stands for the renamed operations, as long as the renaming keeps the
ancillas that the gate takes. -/
theorem Gate.twin_decompose (g : Gate α κ) (qubits : List Qubit) :
    Twin f g.ancillas (Option.map (List.map (Operation.map f))) (g.decompose qubits)
      (g.decompose (qubits.map f)) := by
  cases g with
  | standard g =>
    rw [Gate.decompose, Gate.decompose]
    exact .lift (g.agree_decompose qubits)
  | ofBloq b =>
    rw [Gate.decompose, Gate.decompose]
    exact Wrapped.twin_decompose b.signature b.decomposition qubits
  | declared d =>
    rw [Gate.decompose, Gate.decompose, Gate.ancillas]
    cases d.body with
    | none => exact .pure none
    | some body => exact (body.twin_run qubits).bind (k := 0) fun ops => .pure (some ops)
  | nest levels =>
    rw [Gate.decompose, Gate.decompose]
    exact .lift_bind (Operation.agree_make _ qubits) fun op => .pure (some [op])

end

end BloqCircuit
