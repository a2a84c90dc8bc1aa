import BloqCircuit.Export
import BloqCircuit.Proofs.Renamed.Runs
/-! Walks over composites on renamed qubits. -/
namespace BloqCircuit
variable {f : Qubit ↪ Qubit}

/-! ## Operations and arrays -/

/-- Whether the qubits of an operation repeat does not depend on their names. -/
theorem Operation.agree_make {γ : Type} [GateKind γ] (gate : γ) (qubits : List Qubit) :
    Agree (Operation.map f) (make gate qubits) (make gate (qubits.map f)) := by
  unfold make
  rw [List.length_map]
  split
  · exact .error rfl
  · have hiff : firstRepeat ∅ (qubits.map f) = none ↔ firstRepeat ∅ qubits = none := by
      simp only [firstRepeat_eq_none, Std.ExtTreeSet.not_mem_empty, not_false_eq_true, implies_true,
        and_true, List.nodup_map_iff f.injective]
    cases h : firstRepeat ∅ qubits with
    | none =>
      rw [hiff.mpr h]
      exact .ok _
    | some q =>
      cases h' : firstRepeat ∅ (qubits.map f) with
      | none => cases h.symm.trans (hiff.mp h')
      | some q' => exact .error rfl

theorem Register.agree_arrayOf (r : Register) (qubits : List Qubit) :
    Agree (Grid.map f) (r.arrayOf qubits) (r.arrayOf (qubits.map f)) :=
  .of_map (r.arrayOf_map f qubits)

theorem Register.agree_arrayIn (r : Register) (q : Quregs) :
    Agree (Grid.map f) (r.arrayIn q) (r.arrayIn (q.map f)) := by
  unfold arrayIn
  rw [Arrays.get?_map]
  cases q.get? r.name with
  | none => exact .error rfl
  | some g =>
    show Agree _ (r.checkArray g >>= fun _ => pure g) (r.checkArray (g.map f) >>= fun _ => _)
    unfold checkArray
    rw [Grid.shape_map]
    split
    · exact .ok g
    · exact .error rfl

namespace Quregs

theorem agree_merge (q : Quregs) (registers : List Register) :
    Agree (List.map f) (q.merge registers) (merge (q.map f) registers) := by
  have hparts : Agree (List.map (List.map f))
      (registers.mapM fun r => do return (← r.arrayIn q).toList)
      (registers.mapM fun r => do return (← r.arrayIn (q.map f)).toList) := by
    refine .mapM fun r _ => (r.agree_arrayIn q).bind fun g => ?_
    rw [Grid.toList_map]
    exact .ok g.toList
  refine hparts.bind fun parts => ?_
  rw [← List.map_flatten]
  exact .ok parts.flatten

theorem agree_cut (registers : List Register) (qubits : List Qubit) :
    Agree (List.map (Prod.map id (Grid.map f))) (cut registers qubits)
      (cut registers (qubits.map f)) := by
  induction registers generalizing qubits with
  | nil => exact .ok []
  | cons r rest ih =>
    rw [cut, cut, ← List.map_take, ← List.map_drop]
    exact (r.agree_arrayOf _).bind fun g => (ih _).bind fun more => .ok ((r.name, g) :: more)

end Quregs

theorem Arrays.ofList_map (entries : List (String × Grid Qubit)) :
    Arrays.ofList (entries.map (Prod.map id (Grid.map f))) = (Arrays.ofList entries).map f := by
  rw [ofList, ofList, List.foldl_map]
  symm
  refine (List.foldl_hom (Arrays.map f) fun a e => ?_).symm
  exact (insert_map f a e.1 e.2).symm

theorem Quregs.agree_split (s : Signature) (qubits : List Qubit) :
    Agree (Arrays.map f) (split s qubits) (split s (qubits.map f)) := by
  unfold split
  cases s.repeatedName? with
  | some name => exact .error rfl
  | none =>
    rw [List.length_map]
    show Agree _ (if _ then _ else _) (if _ then _ else _)
    split
    · exact .error rfl
    · refine (agree_cut s.registers qubits).bind fun entries => ?_
      rw [Arrays.ofList_map]
      exact .ok _

/-! ## Carriers -/

/-- The same ports with renamed qubits on them. -/
def Carriers.renamed (f : Qubit → Qubit) (carriers : Carriers) : Carriers :=
  Std.ExtTreeMap.map (fun _ => List.map f) carriers

namespace Carriers
variable {carriers : Carriers}

@[simp] theorem getElem?_renamed (f : Qubit → Qubit) (carriers : Carriers) (p : Port) :
    (carriers.renamed f)[p]? = carriers[p]?.map (List.map f) := Std.ExtTreeMap.getElem?_map

theorem insert_renamed (f : Qubit → Qubit) (carriers : Carriers) (p : Port) (qubits : List Qubit) :
    (carriers.renamed f).insert p (qubits.map f) = renamed f (carriers.insert p qubits) := by
  refine Std.ExtTreeMap.ext_getElem? fun q => ?_
  rw [getElem?_renamed, getElem?_insert_key, getElem?_insert_key, getElem?_renamed]
  split <;> rfl

theorem erase_renamed (f : Qubit → Qubit) (carriers : Carriers) (p : Port) :
    (carriers.renamed f).erase p = renamed f (carriers.erase p) := by
  refine Std.ExtTreeMap.ext_getElem? fun q => ?_
  rw [getElem?_renamed, getElem?_erase_key, getElem?_erase_key, getElem?_renamed]
  split <;> rfl

end Carriers

namespace Export
variable {β γ : Type}

theorem agree_bindInputs (quregs : Quregs) (registers : List Register) (carriers : Carriers) :
    Agree (Carriers.renamed f) (bindInputs quregs registers carriers)
      (bindInputs (quregs.map f) registers (carriers.renamed f)) := by
  induction registers generalizing carriers with
  | nil => exact .ok carriers
  | cons r rest ih =>
    rw [bindInputs, bindInputs]
    refine (r.agree_arrayIn quregs).bind fun g => ?_
    have hbound : r.indices.foldl (fun c i => c.insert (⟨0, i, r⟩ : Port) (r.lane (g.map f) i))
        (carriers.renamed f) =
        Carriers.renamed f (r.indices.foldl (fun c i => c.insert ⟨0, i, r⟩ (r.lane g i)) carriers) := by
      refine List.foldl_hom (Carriers.renamed f) fun c i => ?_
      rw [Register.lane_map, Carriers.insert_renamed]
    rw [hbound]
    exact ih _

theorem agree_bindOutputs (out : Quregs) (edges : List (Edge β)) (carriers : Carriers) :
    Agree (Carriers.renamed f) (bindOutputs out edges carriers)
      (bindOutputs (out.map f) edges (carriers.renamed f)) := by
  induction edges generalizing carriers with
  | nil => exact .ok carriers
  | cons e rest ih =>
    rw [bindOutputs, bindOutputs]
    refine (e.wire.left.reg.agree_arrayIn out).bind fun g => ?_
    rw [Register.lane_map, Carriers.insert_renamed]
    exact ih _

variable [BloqKind β]

theorem agree_follow (e : Edge β) (carriers : Carriers) :
    Agree (Carriers.renamed f) (follow e carriers) (follow e (carriers.renamed f)) := by
  unfold follow
  rw [Carriers.getElem?_renamed]
  cases carriers[e.start]? with
  | none => exact .error rfl
  | some qubits =>
    show Agree _ _ (.ok (((carriers.renamed f).erase e.start).insert e.stop (qubits.map f)))
    rw [Carriers.erase_renamed, Carriers.insert_renamed]
    exact .ok _

theorem agree_followAll (edges : List (Edge β)) (carriers : Carriers) :
    Agree (Carriers.renamed f) (followAll edges carriers) (followAll edges (carriers.renamed f)) := by
  induction edges generalizing carriers with
  | nil => exact .ok carriers
  | cons e edges ih =>
    rw [followAll, followAll, List.foldlM_cons, List.foldlM_cons]
    exact (agree_follow e carriers).bind ih

theorem agree_collect (number : Nat) (node : Node β) (reg : Register) (ends : Bool)
    (indices : List (List Nat)) (carriers : Carriers) (lanes : List (List Qubit)) :
    Agree (Prod.map (List.map (List.map f)) (Carriers.renamed f))
      (collect number node reg ends indices carriers lanes)
      (collect number node reg ends indices (carriers.renamed f) (lanes.map (List.map f))) := by
  induction indices generalizing carriers lanes with
  | nil =>
    rw [collect, collect, ← List.map_reverse]
    exact .ok (lanes.reverse, carriers)
  | cons i rest ih =>
    rw [collect, collect, Carriers.getElem?_renamed]
    cases carriers[(⟨number, i, reg⟩ : Port)]? with
    | none => exact .error rfl
    | some qubits =>
      have hends : (if ends then (carriers.renamed f).erase ⟨number, i, reg⟩ else carriers.renamed f) =
          Carriers.renamed f (if ends then carriers.erase ⟨number, i, reg⟩ else carriers) := by
        cases ends with
        | true => exact Carriers.erase_renamed f carriers _
        | false => rfl
      have hrest := ih (if ends then carriers.erase ⟨number, i, reg⟩ else carriers) (qubits :: lanes)
      rw [← hends] at hrest
      exact hrest

theorem agree_gather (number : Nat) (node : Node β) (ends : Register → Bool)
    (registers : List Register) (carriers : Carriers) (arrays : Quregs) :
    Agree (Prod.map (Arrays.map f) (Carriers.renamed f))
      (gather number node ends registers carriers arrays)
      (gather number node ends registers (carriers.renamed f) (arrays.map f)) := by
  induction registers generalizing carriers arrays with
  | nil => exact .ok (arrays, carriers)
  | cons r rest ih =>
    rw [gather, gather]
    refine (agree_collect number node r (ends r) r.indices carriers []).bind fun result => ?_
    obtain ⟨lanes, carriers⟩ := result
    show Agree _ (r.arrayOf lanes.flatten >>= _) (r.arrayOf (lanes.map (List.map f)).flatten >>= _)
    rw [← List.map_flatten]
    refine (r.agree_arrayOf lanes.flatten).bind fun g => ?_
    rw [← Arrays.insert_map]
    exact ih carriers _

end Export

/-! ## Forms of bloqs -/

/-- How many qubits the outputs of registers need that are no inputs. -/
def newBits (registers : List Register) : Nat :=
  ((registers.filter (·.side == .right)).map (·.totalBits)).sum

theorem newBits_cons (r : Register) (registers : List Register) :
    newBits (r :: registers) = (if r.side == .right then r.totalBits else 0) + newBits registers := by
  rw [newBits, List.filter_cons]
  split
  · rw [List.map_cons, List.sum_cons, newBits]
  · rw [Nat.zero_add, newBits]

/-- How many ancillas a native form takes. -/
def Native.ancillas {γ : Type} : Native γ → Nat
  | .allocate reg => reg.totalBits
  | _ => 0

/-- How many ancillas a bloq takes, natively or wrapped as a gate. -/
def Export.ancillas {β γ : Type} [BloqKind β] [CircuitForm β γ] (b : β) : Nat :=
  match CircuitForm.native? b with
  | some form => form.ancillas
  | none => newBits (BloqKind.signature b).registers

/-- How many ancillas the walk over a composite takes. -/
def Composite.ancillas {β γ : Type} [BloqKind β] [CircuitForm β γ] (c : Composite β)
    (order : TraversalOrder) : Nat :=
  match c.visits order with
  | .ok visits => (visits.map fun v => v.node.instance?.elim 0 fun x => Export.ancillas x.bloq).sum
  | .error _ => 0

section
variable {β γ σ : Type} [Allocator σ] [Nominal σ]

theorem Quregs.twin_complete (given : Quregs) (registers : List Register) (all out : Quregs) :
    Twin (σ := σ) f (newBits registers) (Prod.map (Arrays.map f) (Arrays.map f))
      (given.complete registers all out)
      (Quregs.complete (given.map f) registers (all.map f) (out.map f)) := by
  induction registers generalizing all out with
  | nil => exact .pure (all, out)
  | cons r rest ih =>
    rw [newBits_cons, complete, complete]
    have hrest : ∀ (side : Side) (g : Grid Qubit),
        Twin (σ := σ) f (newBits rest) (Prod.map (Arrays.map f) (Arrays.map f))
          (given.complete rest (all.insert r.name g)
            (if side.isRight then out.insert r.name g else out))
          (Quregs.complete (given.map f) rest ((all.map f).insert r.name (g.map f))
            (if side.isRight then (out.map f).insert r.name (g.map f) else out.map f)) := by
      intro side g
      have hout : (if side.isRight then (out.map f).insert r.name (g.map f) else out.map f) =
          (if side.isRight then out.insert r.name g else out).map f := by
        rw [← Arrays.insert_map]
        split <;> rfl
      rw [hout, ← Arrays.insert_map]
      exact ih _ _
    cases r.side with
    | right =>
      refine (Twin.alloc r.totalBits).bind fun qubits => ?_
      exact .lift_bind (r.agree_arrayOf qubits) (hrest .right)
    | left =>
      rw [if_neg (by decide), Nat.zero_add]
      exact .lift_bind (r.agree_arrayIn given) (hrest .left)
    | thru =>
      rw [if_neg (by decide), Nat.zero_add]
      exact .lift_bind (r.agree_arrayIn given) (hrest .thru)

theorem Native.agree_forwarded (given : Quregs) (outputs : List (String × String)) (out : Quregs) :
    Agree (Arrays.map f) (forwarded given outputs out)
      (forwarded (given.map f) outputs (out.map f)) := by
  induction outputs generalizing out with
  | nil => exact .ok out
  | cons names rest ih =>
    obtain ⟨name, source⟩ := names
    rw [forwarded, forwarded, Arrays.get?_map]
    cases given.get? source with
    | none => exact .error rfl
    | some g =>
      have hrest := ih (out.insert name g)
      rw [Arrays.insert_map] at hrest
      exact hrest

/-- All qubits of a map of arrays. -/
theorem Arrays.flatMap_map (q : Quregs) :
    ((q.map f).entries.flatMap fun e => e.2.toList) = (q.entries.flatMap fun e => e.2.toList).map f := by
  rw [Arrays.map, List.flatMap_map, List.map_flatMap]
  simp only [Grid.toList_map]

theorem Native.twin_run [GateKind γ] (given : Quregs) (form : Native γ) :
    Twin (σ := σ) f form.ancillas (Prod.map (Option.map (Operation.map f)) (Arrays.map f))
      (form.run given) (form.run (given.map f)) := by
  cases form with
  | reshape source target =>
    refine .lift_bind (given.agree_merge [source]) fun qubits => ?_
    exact .lift_bind (target.agree_arrayOf qubits) fun g => .pure (none, Arrays.mk [(target.name, g)])
  | allocate reg =>
    refine (Twin.alloc reg.totalBits).bind (k := 0) fun qubits => ?_
    exact .lift_bind (reg.agree_arrayOf qubits) fun g => .pure (none, Arrays.mk [(reg.name, g)])
  | free reg =>
    refine .lift_bind (given.agree_merge [reg]) fun qubits => ?_
    exact (Twin.free qubits).bind (k := 0) fun _ => .pure (none, Arrays.empty)
  | gate g reg =>
    refine .lift_bind (given.agree_merge [reg]) fun qubits => ?_
    exact .lift_bind (Operation.agree_make g qubits) fun op => .pure (some op, given)
  | forward g outputs =>
    cases g with
    | none =>
      exact .lift_bind (agree_forwarded given outputs Arrays.empty) fun out => .pure (none, out)
    | some made =>
      refine .bind_same fun g _ => ?_
      show Twin f 0 _ _ (liftM (Operation.make g ((given.map f).entries.flatMap _)) >>= _)
      rw [Arrays.flatMap_map]
      refine .lift_bind (Operation.agree_make g _) fun op => ?_
      exact .lift_bind (agree_forwarded given outputs Arrays.empty) fun out => .pure (some op, out)

variable [BloqKind β] [GateKind γ] [CircuitForm β γ]

theorem Wrapped.twin_onInputs (bloq : β) (given : Quregs) :
    Twin (σ := σ) f (newBits (BloqKind.signature bloq).registers)
      (Prod.map (Operation.map f) (Arrays.map f)) (onInputs bloq given)
      (onInputs bloq (given.map f)) := by
  refine .bind_same fun g _ => ?_
  refine (Quregs.twin_complete given (BloqKind.signature bloq).registers Arrays.empty
    Arrays.empty).bind (k := 0) fun result => ?_
  obtain ⟨all, out⟩ := result
  refine .lift_bind (Quregs.agree_merge all (BloqKind.signature bloq).registers) fun qubits => ?_
  exact .lift_bind (Operation.agree_make g qubits) fun op => .pure (op, out)

namespace Export

theorem twin_runBloq (bloq : β) (arrays : Quregs) :
    Twin (σ := σ) f (Export.ancillas bloq) (Prod.map (Option.map (Operation.map f)) (Arrays.map f))
      (runBloq bloq arrays) (runBloq bloq (arrays.map f)) := by
  unfold runBloq Export.ancillas
  cases CircuitForm.native? bloq with
  | some form => exact form.twin_run arrays
  | none =>
    refine (Wrapped.twin_onInputs bloq arrays).bind (k := 0) fun result => ?_
    obtain ⟨op, out⟩ := result
    exact .pure (some op, out)

theorem twin_emit (x : Instance β) (v : Visit β) (carriers : Carriers) :
    Twin (σ := σ) f (Export.ancillas x.bloq)
      (Prod.map (Option.map (Operation.map f)) (Carriers.renamed f)) (emit x v carriers)
      (emit x v (carriers.renamed f)) := by
  unfold emit
  refine .lift_bind (agree_followAll v.incoming carriers) fun carriers => ?_
  dsimp only
  cases classicalOutput? (BloqKind.signature x.bloq) with
  | some r => exact (Twin.throw rfl).mono (Nat.zero_le _)
  | none =>
    refine .lift_bind (agree_gather v.number v.node (fun r => r.side == .left)
      (BloqKind.signature x.bloq).lefts carriers Arrays.empty) fun result => ?_
    obtain ⟨arrays, carriers⟩ := result
    refine (twin_runBloq x.bloq arrays).bind (k := 0) fun result => ?_
    obtain ⟨op, out⟩ := result
    exact .lift_bind (agree_bindOutputs out v.outgoing carriers) fun carriers =>
      .pure (op, carriers)

/-- A walk takes what its nodes take. -/
theorem twin_emitAll (visits : List (Visit β)) (carriers : Carriers) :
    Twin (σ := σ) f (visits.map fun v => v.node.instance?.elim 0 fun x => Export.ancillas x.bloq).sum
      (Prod.map (List.map (Operation.map f)) (Carriers.renamed f)) (emitAll visits carriers)
      (emitAll visits (carriers.renamed f)) := by
  induction visits generalizing carriers with
  | nil => exact .pure ([], carriers)
  | cons v rest ih =>
    rw [List.map_cons, List.sum_cons, emitAll, emitAll]
    cases v.node with
    | leftDangle =>
      exact (ih carriers).mono (Nat.le_add_left _ _)
    | rightDangle =>
      exact (Twin.lift_bind (agree_followAll v.incoming carriers) ih).mono (Nat.le_add_left _ _)
    | placed x =>
      refine (twin_emit x v carriers).bind fun result => ?_
      obtain ⟨op, carriers⟩ := result
      refine (ih carriers).bind (k := 0) fun result => ?_
      obtain ⟨ops, carriers⟩ := result
      have hops : (op.map (Operation.map f)).toList ++ ops.map (Operation.map f) =
          (op.toList ++ ops).map (Operation.map f) := by
        cases op <;> simp
      show Twin f 0 _ _ (pure ((op.map (Operation.map f)).toList ++ _, _))
      rw [hops]
      exact .pure (op.toList ++ ops, carriers)

end Export

/-- The circuit of a composite on renamed arrays is its circuit with the qubits renamed, as long as the
renaming keeps the ancillas. -/
theorem Composite.twin_export (c : Composite β) (signature : Signature) (quregs : Quregs)
    (order : TraversalOrder) :
    Twin (σ := σ) f (c.ancillas order) (Prod.map (Circuit.map f) (Arrays.map f))
      (c.export signature quregs order) (c.export signature (quregs.map f) order) := by
  unfold Composite.export
  refine .lift_bind (Export.agree_bindInputs quregs signature.lefts ∅) fun carriers => ?_
  refine .bind_same fun visits hvisits => ?_
  simp only [Composite.ancillas, hvisits]
  refine (Export.twin_emitAll visits carriers).bind (k := 0) fun result => ?_
  obtain ⟨ops, carriers⟩ := result
  refine .lift_bind (Export.agree_gather (c.instances.length + 1) (.rightDangle : Node β)
    (fun _ => true) signature.rights carriers Arrays.empty) fun result => ?_
  obtain ⟨out, carriers⟩ := result
  exact .pure (Circuit.mk ops, out)

end

end BloqCircuit
