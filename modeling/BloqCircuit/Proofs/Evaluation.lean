import BloqCircuit.Bloq.Tensor
import BloqCircuit.Proofs.Keys
import BloqCircuit.Proofs.Steps
/-! Dense evaluation of operations whose gates have matrices of their own, and what it makes of
renamed qubits. -/
namespace BloqCircuit

namespace Dense
variable {γ κ : Type}

def Leaf.map (r : Qubit → Qubit) (l : Leaf κ) : Leaf κ := ⟨l.matrix, l.qubits.map r⟩

section
variable [GateKind γ]

/-- The leaves of operations when each gate has a matrix of its own. -/
def ownLeaves (own : γ → DenseMatrix κ) (ops : List (Operation γ)) : Except Error (List (Leaf κ)) :=
  ops.mapM fun op => leafOf op (own op.gate)

variable {own : γ → DenseMatrix κ} {meaning : GateMeaning γ κ} {ops : List (Operation γ)}

/-- The part of the evaluation that deals with one operation. -/
def leavesOf (meaning : GateMeaning γ κ) (levels : Nat) (op : Operation γ) :
    AllocM CleanPool (List (Leaf κ)) := do
  match ← meaning.unitary op.gate with
  | some m => return [← leafOf op m]
  | none => match ← meaning.decompose op.gate op.qubits with
    | some inner => leaves meaning levels inner
    | none => throw (.noUnitary (GateKind.name op.gate))

theorem leaves_succ (levels : Nat) (ops : List (Operation γ)) :
    leaves meaning (levels + 1) ops = do
      let parts ← ops.mapM (leavesOf meaning levels)
      return parts.flatten := rfl

private theorem run_leavesOf {op : Operation γ}
    (h : meaning.unitary op.gate = .ok (some (own op.gate))) (levels : Nat) (p : CleanPool) :
    (leavesOf meaning levels op).run p = ((leafOf op (own op.gate)).map ([·]), p) := by
  rw [leavesOf, run_bind, run_lift, h]
  show (liftM (leafOf op (own op.gate)) >>= fun l => pure [l] : AllocM CleanPool _).run p = _
  rw [run_bind, run_lift]
  cases leafOf op (own op.gate) with
  | error e => rfl
  | ok l => rfl

/-- Gates with matrices of their own are not decomposed, and need no ancillas. -/
theorem leaves_of_own (h : ∀ op ∈ ops, meaning.unitary op.gate = .ok (some (own op.gate)))
    (levels : Nat) (p : CleanPool) :
    (leaves meaning (levels + 1) ops).run p = (ownLeaves own ops, p) := by
  -- each operation is one leaf, and the pool stays as it is
  have hparts : (ops.mapM (leavesOf meaning levels)).run p =
      ((ownLeaves own ops).map (List.map ([·])), p) := by
    induction ops with
    | nil => rfl
    | cons op ops ih =>
      have hrest := ih fun op hop => h op (List.mem_cons_of_mem _ hop)
      rw [List.mapM_cons, run_bind, run_leavesOf (h op List.mem_cons_self), ownLeaves, List.mapM_cons]
      cases leafOf op (own op.gate) with
      | error e => rfl
      | ok l =>
        rw [ownLeaves] at hrest
        show (List.mapM (leavesOf meaning levels) ops >>= fun parts => pure ([l] :: parts)).run p = _
        rw [run_bind, hrest]
        cases ops.mapM fun op => leafOf op (own op.gate) with
        | error e => rfl
        | ok ls => rfl
  rw [leaves_succ, run_bind, hparts]
  cases ownLeaves own ops with
  | error e => rfl
  | ok ls =>
    show (Except.ok (ls.map ([·])).flatten, p) = (Except.ok ls, p)
    rw [← List.flatMap_def, List.flatMap_singleton']

theorem qubits_ownLeaves {ls : List (Leaf κ)} (h : ownLeaves own ops = .ok ls) :
    ls.flatMap Leaf.qubits = ops.flatMap (·.qubits) := by
  induction ops generalizing ls with
  | nil =>
    cases h
    rfl
  | cons op ops ih =>
    rw [ownLeaves, List.mapM_cons] at h
    obtain ⟨l, hl, h⟩ := bind_eq_ok.mp h
    obtain ⟨rest, hrest, h⟩ := bind_eq_ok.mp h
    cases h
    rw [List.flatMap_cons, List.flatMap_cons, ih hrest]
    unfold leafOf at hl
    split at hl
    · cases hl
      rfl
    · cases hl

theorem leafOf_map (r : Qubit → Qubit) (op : Operation γ) (m : DenseMatrix κ) :
    leafOf (op.map r) m = (leafOf op m).map (Leaf.map r) := by
  unfold leafOf
  rw [Operation.map, List.length_map]
  split <;> rfl

theorem ownLeaves_map (r : Qubit → Qubit) :
    ownLeaves own (ops.map (Operation.map r)) = (ownLeaves own ops).map (List.map (Leaf.map r)) := by
  induction ops with
  | nil => rfl
  | cons op ops ih =>
    rw [ownLeaves] at ih ⊢
    rw [List.map_cons, List.mapM_cons, ih, ownLeaves, ownLeaves, List.mapM_cons]
    have hone : leafOf (op.map r) (own (op.map r).gate) = _ := leafOf_map r op (own op.gate)
    rw [hone]
    cases leafOf op (own op.gate) with
    | error e => rfl
    | ok l =>
      cases ops.mapM fun op => leafOf op (own op.gate) with
      | error e => rfl
      | ok ls => rfl

end

/-! ## Renamed qubits -/

private theorem idxOf_map {r : Qubit → Qubit} {order : List Qubit} {q : Qubit}
    (hr : ∀ x ∈ order, r x = r q → x = q) : (order.map r).idxOf (r q) = order.idxOf q := by
  induction order with
  | nil => rfl
  | cons x order ih =>
    rw [List.map_cons, List.idxOf_cons, List.idxOf_cons, ih fun y hy => hr y (List.mem_cons_of_mem _ hy)]
    by_cases hx : x = q
    · rw [hx, BEq.rfl, BEq.rfl]
    · have hne : r x ≠ r q := fun h => hx (hr x List.mem_cons_self h)
      rw [beq_false_of_ne hx, beq_false_of_ne hne]

private theorem map_places {r : Qubit → Qubit} {order qs : List Qubit}
    (hr : ∀ x ∈ order, ∀ q ∈ qs, r x = r q → x = q) :
    (qs.map r).map (fun q => order.length - 1 - (order.map r).idxOf q) =
      qs.map fun q => order.length - 1 - order.idxOf q := by
  rw [List.map_map]
  refine List.map_congr_left fun q hq => ?_
  rw [Function.comp_apply, idxOf_map fun x hx => hr x hx q hq]

variable [Amplitude κ]

/-- The matrix of leaves on not too many qubits. -/
def assemble (inputs outputs : List Qubit) (leaves : List (Leaf κ)) : Except Error (DenseMatrix κ) := do
  let order := firstUses (inputs ++ outputs ++ leaves.flatMap Leaf.qubits)
  if maxDenseQubits < order.length then
    throw (.tooManyQubits order.length maxDenseQubits)
  let places := outputs.map fun q => order.length - 1 - order.idxOf q
  return evaluate order inputs.length places leaves

theorem between_eq [GateKind γ] (meaning : GateMeaning γ κ) (ops : List (Operation γ))
    (inputs outputs : List Qubit) : between meaning ops inputs outputs =
      ((leaves meaning (maxDecompositionDepth + 1) ops).run {}).1 >>= assemble inputs outputs := rfl

theorem between_of_own [GateKind γ] {meaning : GateMeaning γ κ} {own : γ → DenseMatrix κ}
    {ops : List (Operation γ)} (h : ∀ op ∈ ops, meaning.unitary op.gate = .ok (some (own op.gate)))
    (inputs outputs : List Qubit) :
    between meaning ops inputs outputs = ownLeaves own ops >>= assemble inputs outputs := by
  rw [between_eq, maxDecompositionDepth, leaves_of_own h]

/-- An operation without a matrix of its own is evaluated as what it decomposes into. -/
theorem between_of_decomposition [GateKind γ] {meaning meaning' : GateMeaning γ κ}
    (own : γ → DenseMatrix κ) {op : Operation γ} {ops : List (Operation γ)} {p : CleanPool}
    (hu : meaning.unitary op.gate = .ok none)
    (hd : Gives (meaning.decompose op.gate op.qubits) {} (some ops) p)
    (hown : ∀ x ∈ ops, meaning.unitary x.gate = .ok (some (own x.gate)))
    (hown' : ∀ x ∈ ops, meaning'.unitary x.gate = .ok (some (own x.gate)))
    (inputs outputs : List Qubit) :
    between meaning [op] inputs outputs = between meaning' ops inputs outputs := by
  have hrun : (meaning.decompose op.gate op.qubits).run {} = (.ok (some ops), p) := hd
  have hone : (leavesOf meaning maxDecompositionDepth op).run {} = (ownLeaves own ops, p) := by
    rw [leavesOf, run_bind, run_lift, hu]
    simp only
    rw [run_bind, hrun]
    exact leaves_of_own hown _ p
  have hleaves : ((leaves meaning (maxDecompositionDepth + 1) [op]).run {}).1 = ownLeaves own ops := by
    rw [leaves_succ, List.mapM_cons, List.mapM_nil]
    simp only [run_bind, hone]
    cases ownLeaves own ops with
    | error e => rfl
    | ok ls => exact congrArg Except.ok List.flatten_singleton
  rw [between_eq, hleaves, between_of_own hown']

private theorem evaluate_map {r : Qubit → Qubit} {order : List Qubit} {ls : List (Leaf κ)}
    (hr : ∀ x ∈ order, ∀ q ∈ ls.flatMap Leaf.qubits, r x = r q → x = q) (width : Nat)
    (places : List Nat) :
    evaluate (order.map r) width places (ls.map (Leaf.map r)) = evaluate order width places ls := by
  have hplaced : (ls.map (Leaf.map r)).map (fun l => (l.matrix, Placement.ofPlaces
      (basisSize order.length) (l.qubits.map fun q => order.length - 1 - (order.map r).idxOf q))) =
      ls.map fun l => (l.matrix, Placement.ofPlaces (basisSize order.length)
        (l.qubits.map fun q => order.length - 1 - order.idxOf q)) := by
    rw [List.map_map]
    refine List.map_congr_left fun l hl => ?_
    rw [Function.comp_apply, Leaf.map,
      map_places fun x hx q hq => hr x hx q (List.mem_flatMap.mpr ⟨l, hl, hq⟩)]
  unfold evaluate
  rw [List.length_map]
  simp only [hplaced]

/-- Where qubits stand in an order does not change if all are renamed and none are merged. -/
theorem assemble_map {r : Qubit → Qubit} {inputs outputs : List Qubit} {ls : List (Leaf κ)}
    (hr : ∀ x ∈ inputs ++ outputs ++ ls.flatMap Leaf.qubits,
      ∀ y ∈ inputs ++ outputs ++ ls.flatMap Leaf.qubits, r x = r y → x = y) :
    assemble (inputs.map r) (outputs.map r) (ls.map (Leaf.map r)) = assemble inputs outputs ls := by
  have hall : inputs.map r ++ outputs.map r ++ (ls.map (Leaf.map r)).flatMap Leaf.qubits =
      (inputs ++ outputs ++ ls.flatMap Leaf.qubits).map r := by
    rw [List.map_append, List.map_append, List.map_flatMap, List.flatMap_map]
    rfl
  have hmem : ∀ x ∈ firstUses (inputs ++ outputs ++ ls.flatMap Leaf.qubits),
      ∀ q ∈ inputs ++ outputs ++ ls.flatMap Leaf.qubits, r x = r q → x = q :=
    fun x hx => hr x (mem_firstUses.mp hx)
  have horder := firstUses_map hr
  unfold assemble
  rw [hall, horder]
  generalize firstUses (inputs ++ outputs ++ ls.flatMap Leaf.qubits) = order at hmem
  have hplaces := map_places fun x hx q hq =>
    hmem x hx q (List.mem_append_left _ (List.mem_append_right inputs hq))
  have heval := evaluate_map fun x hx q hq => hmem x hx q (List.mem_append_right _ hq)
  simp only [List.length_map, hplaces, heval]

/-- Renaming the qubits of operations changes nothing as long as different ones stay different. -/
theorem between_map [GateKind γ] {meaning : GateMeaning γ κ} {own : γ → DenseMatrix κ}
    {ops : List (Operation γ)} {inputs outputs : List Qubit} {r : Qubit → Qubit}
    (h : ∀ op ∈ ops, meaning.unitary op.gate = .ok (some (own op.gate)))
    (hr : ∀ x ∈ inputs ++ outputs ++ ops.flatMap (·.qubits),
      ∀ y ∈ inputs ++ outputs ++ ops.flatMap (·.qubits), r x = r y → x = y) :
    between meaning (ops.map (Operation.map r)) (inputs.map r) (outputs.map r) =
      between meaning ops inputs outputs := by
  have hmapped : ∀ op ∈ ops.map (Operation.map r),
      meaning.unitary op.gate = .ok (some (own op.gate)) := by
    intro op hmem
    obtain ⟨op, hop, rfl⟩ := List.mem_map.mp hmem
    exact h op hop
  rw [between_of_own hmapped, between_of_own h, ownLeaves_map]
  cases ho : ownLeaves own ops with
  | error e => rfl
  | ok ls =>
    rw [← qubits_ownLeaves ho] at hr
    exact assemble_map hr

end Dense
end BloqCircuit
