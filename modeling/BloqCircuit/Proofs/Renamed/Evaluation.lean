import BloqCircuit.Bloq.Tensor
import BloqCircuit.Proofs.Evaluation
import BloqCircuit.Proofs.Renamed.Decomposition
/-! Dense evaluation of circuits on renamed qubits. Evaluation numbers its ancillas from zero, whatever
qubits the circuit has, so that a renaming is safe only if it moves none onto or off these. -/
namespace BloqCircuit
variable {f : Qubit ↪ Qubit}

namespace Dense
variable {γ κ : Type} [GateKind γ] {meaning : GateMeaning γ κ}

/-! ## Gates that are decomposed -/

/-- The gates that the evaluation of an operation decomposes, given those of the operations that it
stands for. -/
def decomposedBy (meaning : GateMeaning γ κ) (inner : List (Operation γ) → CleanPool → List γ)
    (op : Operation γ) (p : CleanPool) : List γ :=
  match meaning.unitary op.gate with
  | .ok none => op.gate :: match (meaning.decompose op.gate op.qubits).run p with
    | (.ok (some ops), q) => inner ops q
    | _ => []
  | _ => []

/-- The gates that are decomposed for operations in turn, up to the first one that fails. -/
def decomposedAlong {τ : Type} (run : Operation γ → AllocM CleanPool τ)
    (one : Operation γ → CleanPool → List γ) : List (Operation γ) → CleanPool → List γ
  | [], _ => []
  | op :: ops, p => one op p ++ match (run op).run p with
    | (.ok _, q) => decomposedAlong run one ops q
    | (.error _, _) => []

/-- The gates that the evaluation of operations decomposes on so many levels, from a given pool on. -/
def decomposed (meaning : GateMeaning γ κ) : Nat → List (Operation γ) → CleanPool → List γ
  | 0, _, _ => []
  | levels + 1, ops, p =>
    decomposedAlong (leavesOf meaning levels) (decomposedBy meaning (decomposed meaning levels)) ops p

/-- Gates with matrices of their own are not decomposed. -/
theorem decomposed_of_own {ops : List (Operation γ)}
    (h : ∀ op ∈ ops, ∃ m, meaning.unitary op.gate = .ok (some m)) (levels : Nat) (p : CleanPool) :
    decomposed meaning levels ops p = [] := by
  cases levels with
  | zero => rfl
  | succ levels =>
    rw [decomposed]
    induction ops generalizing p with
    | nil => rfl
    | cons op ops ih =>
      obtain ⟨m, hm⟩ := h op List.mem_cons_self
      have hrest := ih fun x hx => h x (List.mem_cons_of_mem _ hx)
      have hone : decomposedBy meaning (decomposed meaning levels) op p = [] := by
        rw [decomposedBy, hm]
      rw [decomposedAlong, hone, List.nil_append]
      cases (leavesOf meaning levels op).run p with
      | mk result q =>
        cases result with
        | error e => rfl
        | ok ls => exact hrest q

/-! ## Leaves -/

/-- How many ancillas the decompositions take in all. -/
def ancillasOf (count : γ → Nat) (gates : List γ) : Nat := (gates.map count).sum

variable {count : γ → Nat}

/-- One operation, if the operations that it stands for are evaluated alike. -/
theorem alike_leavesOf {levels : Nat}
    (hd : ∀ g qubits, Twin f (count g) (Option.map (List.map (Operation.map f)))
      (meaning.decompose g qubits) (meaning.decompose g (qubits.map f)))
    (hinner : ∀ ops {p p' : CleanPool}, CleanPool.Alike f p p' →
      AlikeFrom f (ancillasOf count (decomposed meaning levels ops p)) (List.map (Leaf.map f))
        (leaves meaning levels ops) (leaves meaning levels (ops.map (Operation.map f))) p p')
    (op : Operation γ) {p p' : CleanPool} (hp : CleanPool.Alike f p p') :
    AlikeFrom f (ancillasOf count (decomposedBy meaning (decomposed meaning levels) op p))
      (List.map (Leaf.map f)) (leavesOf meaning levels op) (leavesOf meaning levels (op.map f))
      p p' := by
  have hgate : (op.map f).gate = op.gate := rfl
  rw [leavesOf, leavesOf, hgate, decomposedBy]
  cases hu : meaning.unitary op.gate with
  | error e => exact Twin.throw (f := f) rfl hp
  | ok own =>
    cases own with
    | some m =>
      refine Twin.lift_bind (.of_map (leafOf_map f op m)) (fun l => ?_) hp
      exact .pure [l]
    | none =>
      show AlikeFrom f (count op.gate + ancillasOf count _) _ (meaning.decompose op.gate op.qubits >>= _)
        (meaning.decompose op.gate (op.qubits.map f) >>= _) p p'
      refine (hd op.gate op.qubits hp).bind fun inner t t' ht halike => ?_
      have hrun : (meaning.decompose op.gate op.qubits).run p = (.ok inner, t) := ht
      rw [hrun]
      cases inner with
      | none => exact Twin.throw (f := f) rfl halike
      | some ops => exact hinner ops halike

/-- The leaves of renamed operations are the renamed leaves, if what the renaming keeps includes the
ancillas that the decompositions take. -/
theorem alike_leaves (hd : ∀ g qubits, Twin f (count g) (Option.map (List.map (Operation.map f)))
      (meaning.decompose g qubits) (meaning.decompose g (qubits.map f))) (levels : Nat)
    (ops : List (Operation γ)) {p p' : CleanPool} (hp : CleanPool.Alike f p p') :
    AlikeFrom f (ancillasOf count (decomposed meaning levels ops p)) (List.map (Leaf.map f))
      (leaves meaning levels ops) (leaves meaning levels (ops.map (Operation.map f))) p p' := by
  induction levels generalizing ops p p' with
  | zero =>
    cases ops with
    | nil => exact Twin.pure (f := f) [] hp
    | cons op ops => exact Twin.throw (f := f) rfl hp
  | succ levels ih =>
    have hparts : ∀ {p p' : CleanPool}, CleanPool.Alike f p p' →
        AlikeFrom f (ancillasOf count (decomposed meaning (levels + 1) ops p))
          (List.map (List.map (Leaf.map f))) (ops.mapM (leavesOf meaning levels))
          ((ops.map (Operation.map f)).mapM (leavesOf meaning levels)) p p' := by
      induction ops with
      | nil => exact fun hp => Twin.pure (f := f) [] hp
      | cons op ops ihops =>
        intro p p' hp
        rw [List.map_cons, List.mapM_cons, List.mapM_cons, decomposed, decomposedAlong, ancillasOf,
          List.map_append, List.sum_append]
        refine (alike_leavesOf hd (fun ops _ _ h => ih ops h) op hp).bind fun ls t t' ht halike => ?_
        have hrun : (leavesOf meaning levels op).run p = (.ok ls, t) := ht
        rw [hrun]
        refine (ihops halike).bind (k := 0) fun rest u u' _ hlast => ?_
        exact Twin.pure (f := f) (ls :: rest) hlast
    rw [leaves_succ, leaves_succ]
    refine (hparts hp).bind (k := 0) fun parts t t' _ halike => ?_
    rw [← List.map_flatten]
    exact Twin.pure (f := f) parts.flatten halike

variable [Amplitude κ]

theorem between_map_kind (hd : ∀ g qubits, Twin f (count g) (Option.map (List.map (Operation.map f)))
      (meaning.decompose g qubits) (meaning.decompose g (qubits.map f)))
    {ops : List (Operation γ)} (inputs outputs : List Qubit)
    (hf : ∀ q ∈ CleanPool.fresh 0
      (ancillasOf count (decomposed meaning (maxDecompositionDepth + 1) ops {})), f q = q) :
    (between meaning (ops.map (Operation.map f)) (inputs.map f) (outputs.map f)).mapError Error.kind =
      (between meaning ops inputs outputs).mapError Error.kind := by
  have hstart : CleanPool.Alike f {} {} := ⟨rfl, QubitSet.alike_empty⟩
  obtain ⟨hagree, -⟩ := alike_leaves hd (maxDecompositionDepth + 1) ops hstart hf
  rw [between_eq, between_eq]
  generalize ((leaves meaning (maxDecompositionDepth + 1) ops).run {}).1 = r at hagree
  generalize ((leaves meaning (maxDecompositionDepth + 1) (ops.map (Operation.map f))).run {}).1 = r'
    at hagree
  cases hagree with
  | error he => exact congrArg Except.error he
  | ok ls =>
    show (assemble (inputs.map f) (outputs.map f) (ls.map (Leaf.map f))).mapError Error.kind = _
    rw [assemble_map fun x _ y _ h => f.injective h]
    rfl

end Dense

/-! ## Circuits -/

section
variable {α κ : Type} [Angle α] [Amplitude κ] [Rotation α κ]

/-- The ancillas that the evaluation of a circuit takes. -/
def Circuit.ancillas (c : Circuit (Gate α κ)) : List Qubit :=
  CleanPool.fresh 0 (Dense.ancillasOf Gate.ancillas
    (Dense.decomposed Gate.meaning (maxDecompositionDepth + 1) c.operations {}))

/-- Evaluation does not depend on the names of qubits, except those of the ancillas that it takes: a
circuit with its qubits renamed has the same matrix, or fails with an error of the same kind, if no two
qubits are merged and none is moved off or onto one of these ancillas. -/
theorem Circuit.unitaryBetween_map {c : Circuit (Gate α κ)} {inputs outputs : List Qubit}
    {r : Qubit → Qubit} (hr : ∀ x ∈ inputs ++ outputs ++ c.qubits,
      ∀ y ∈ inputs ++ outputs ++ c.qubits, r x = r y → x = y)
    (hkept : ∀ q ∈ inputs ++ outputs ++ c.qubits, q ∈ c.ancillas ∨ r q ∈ c.ancillas → r q = q) :
    ((c.map r).unitaryBetween (inputs.map r) (outputs.map r)).mapError Error.kind =
      (c.unitaryBetween inputs outputs).mapError Error.kind := by
  obtain ⟨f, hf, hfixed, hused⟩ := exists_extension hr hkept
  have hin : inputs.map r = inputs.map f := List.map_congr_left fun q hq =>
    (hused q (List.mem_append_left _ (List.mem_append_left _ hq))).symm
  have hout : outputs.map r = outputs.map f := List.map_congr_left fun q hq =>
    (hused q (List.mem_append_left _ (List.mem_append_right _ hq))).symm
  have hops : c.operations.map (Operation.map r) = c.operations.map (Operation.map f) := by
    refine List.map_congr_left fun op hop => congrArg (Operation.mk op.gate) ?_
    refine List.map_congr_left fun q hq => (hused q (List.mem_append_right _ ?_)).symm
    exact mem_firstUses.mpr (List.mem_flatMap.mpr ⟨op, hop, hq⟩)
  show (Dense.between Gate.meaning (c.operations.map (Operation.map r)) _ _).mapError _ = _
  rw [hin, hout, hops]
  exact Dense.between_map_kind (f := ⟨f, hf⟩) Gate.twin_decompose inputs outputs hfixed

end

/-- A controlled not onto an ancilla, twice. -/
private def echo : Gate Float Complex :=
  .declared ⟨"echo", "", 1, some ⟨1, [(.standard .cx, [0, 1]), (.standard .cx, [0, 1])], none, true⟩,
    none, none, none⟩

private theorem ancillas_echo : Circuit.ancillas ⟨[⟨echo, [.line 0]⟩]⟩ = [.clean 0] := by
  let cx : Operation (Gate Float Complex) := ⟨.standard .cx, [.line 0, .clean 0]⟩
  have hrun : ∃ p, (echo.decompose [.line 0]).run {} = (.ok (some [cx, cx]), p) := by
    rw [echo, Gate.decompose]
    exact ⟨_, rfl⟩
  obtain ⟨p, hrun⟩ := hrun
  have hinner : Dense.decomposed Gate.meaning maxDecompositionDepth [cx, cx] p = [] := by
    refine Dense.decomposed_of_own (fun op hop => ?_) maxDecompositionDepth p
    obtain rfl : op = cx := by simpa using hop
    exact ⟨_, rfl⟩
  have hone : Dense.decomposedBy Gate.meaning (Dense.decomposed Gate.meaning maxDecompositionDepth)
      ⟨echo, [.line 0]⟩ {} = [echo] := by
    have hrun' : (Gate.meaning.decompose echo [.line 0]).run {} = (.ok (some [cx, cx]), p) := hrun
    rw [Dense.decomposedBy, show Gate.meaning.unitary echo = .ok none from rfl]
    simp only [hrun', hinner]
  have hall : Dense.decomposed Gate.meaning (maxDecompositionDepth + 1) [⟨echo, [.line 0]⟩] {} =
      [echo] := by
    rw [Dense.decomposed, Dense.decomposedAlong, hone]
    split <;> rfl
  rw [Circuit.ancillas, hall]
  rfl

/-- The qubit of a gate that takes one ancilla is moved onto the one after it. -/
theorem Circuit.unitaryBetween_map_echo :
    ∃ r : Qubit → Qubit, r (.line 0) = .clean 1 ∧
      Circuit.ancillas ⟨[⟨echo, [.line 0]⟩]⟩ = [.clean 0] ∧
      ((Circuit.mk [⟨echo, [.clean 1]⟩]).unitaryBetween [.clean 1] [.clean 1]).mapError Error.kind =
        ((Circuit.mk [⟨echo, [.line 0]⟩]).unitaryBetween [.line 0] [.line 0]).mapError Error.kind := by
  have hmoved : Equiv.swap (Qubit.line 0) (.clean 1) (.line 0) = .clean 1 := Equiv.swap_apply_left _ _
  refine ⟨Equiv.swap (.line 0) (.clean 1), hmoved, ancillas_echo, ?_⟩
  have hkept : ∀ q ∈ [Qubit.line 0] ++ [.line 0] ++ Circuit.qubits (Circuit.mk [⟨echo, [.line 0]⟩]),
      q ∈ Circuit.ancillas ⟨[⟨echo, [.line 0]⟩]⟩ ∨
        Equiv.swap (Qubit.line 0) (.clean 1) q ∈ Circuit.ancillas ⟨[⟨echo, [.line 0]⟩]⟩ →
      Equiv.swap (Qubit.line 0) (.clean 1) q = q := by
    intro q hq h
    obtain rfl : q = .line 0 := by simpa [Circuit.qubits, mem_firstUses] using hq
    rw [ancillas_echo, hmoved] at h
    exact absurd h (by decide)
  have heq := Circuit.unitaryBetween_map (fun _ _ _ _ h => Equiv.injective _ h) hkept
  rw [Circuit.map, List.map_singleton, Operation.map, List.map_singleton, hmoved] at heq
  exact heq

end BloqCircuit
