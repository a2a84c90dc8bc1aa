import Mathlib.Data.List.Basic
import BloqCircuit.Proofs.Evaluation
import BloqCircuit.Scalar.Double
/-! Decomposition trees. Evaluation reaches exactly the nodes with matrices, from left to right, and fails
as it does at the first node that stops it. -/
namespace BloqCircuit
namespace Dense
variable {γ κ : Type}

/-! ## Nodes -/

/-- What an operation turns out to be. -/
inductive Content (γ κ : Type) where
  | matrix (m : DenseMatrix κ)
  /-- It stands for other operations. -/
  | parts (ops : List (Operation γ))
  /-- It has neither a matrix nor a decomposition. -/
  | nothing
  /-- To ask for its matrix, or for its decomposition, was an error. -/
  | failure (e : Error)

/-- What an operation is in a pool, and the pool after it was asked for its decomposition. -/
def contentOf (meaning : GateMeaning γ κ) (op : Operation γ) (p : CleanPool) :
    Content γ κ × CleanPool :=
  match meaning.unitary op.gate with
  | .error e => (.failure e, p)
  | .ok (some m) => (.matrix m, p)
  | .ok none => match (meaning.decompose op.gate op.qubits).run p with
    | (.ok (some ops), q) => (.parts ops, q)
    | (.ok none, q) => (.nothing, q)
    | (.error e, q) => (.failure e, q)

/-- The trees under operations in turn are finite, and to expand all of them takes one pool to the other. -/
inductive Expands (meaning : GateMeaning γ κ) : List (Operation γ) → CleanPool → CleanPool → Prop
  | nil {p} : Expands meaning [] p p
  | leaf {op ops content p q r} : contentOf meaning op p = (content, q) →
    (∀ inner, content ≠ .parts inner) → Expands meaning ops q r → Expands meaning (op :: ops) p r
  | parts {op ops inner p q r s} : contentOf meaning op p = (.parts inner, q) →
    Expands meaning inner q r → Expands meaning ops r s → Expands meaning (op :: ops) p s

/-- A node of the trees under operations in turn, with the pool in which it is come upon. Its position
names the operation, then one of the parts of that, and so on down to it. -/
inductive NodeAt (meaning : GateMeaning γ κ) :
    List (Operation γ) → CleanPool → List Nat → Operation γ → CleanPool → Prop
  | root {op ops p} : NodeAt meaning (op :: ops) p [0] op p
  | inside {op ops inner p q position x s} : contentOf meaning op p = (.parts inner, q) →
    NodeAt meaning inner q position x s → NodeAt meaning (op :: ops) p (0 :: position) x s
  | later {op ops p q k path x s} : Expands meaning [op] p q → NodeAt meaning ops q (k :: path) x s →
    NodeAt meaning (op :: ops) p ((k + 1) :: path) x s

variable [GateKind γ]

/-- Why the evaluation cannot go on at a node of this depth. -/
def fault? (meaning : GateMeaning γ κ) (limit depth : Nat) (op : Operation γ) (p : CleanPool) :
    Option Error :=
  if limit < depth then some (.decompositionDepth (GateKind.name op.gate))
  else match (contentOf meaning op p).1 with
    | .matrix m =>
      if m.rows = basisSize op.qubits.length ∧ m.cols = basisSize op.qubits.length then none
      else some
        (.qubitCountMismatch (GateKind.name op.gate) (trailingZeros m.rows) op.qubits.length)
    | .parts _ => none
    | .nothing => some (.noUnitary (GateKind.name op.gate))
    | .failure e => some e

/-- How an evaluation that succeeds goes through the operations, on so many levels. -/
inductive Evaluates (meaning : GateMeaning γ κ) :
    Nat → List (Operation γ) → CleanPool → List (Leaf κ) → CleanPool → Prop
  | nil {n p} : Evaluates meaning n [] p [] p
  | leaf {n op ops m p q r rest} : contentOf meaning op p = (.matrix m, q) →
    leafOf op m = .ok ⟨m, op.qubits⟩ → Evaluates meaning (n + 1) ops q rest r →
    Evaluates meaning (n + 1) (op :: ops) p ([⟨m, op.qubits⟩] ++ rest) r
  | parts {n op ops inner p q r s ls rest} : contentOf meaning op p = (.parts inner, q) →
    Evaluates meaning n inner q ls r → Evaluates meaning (n + 1) ops r rest s →
    Evaluates meaning (n + 1) (op :: ops) p (ls ++ rest) s

variable {meaning : GateMeaning γ κ} {op x x' : Operation γ} {ops inner : List (Operation γ)}
  {p q q' r s s' : CleanPool} {ls rest : List (Leaf κ)} {n : Nat} {position : List Nat}
  {l : Leaf κ} {m : DenseMatrix κ} {e : Error}

/-! ## One operation after another -/

omit [GateKind γ] in
theorem Expands.unique (h : Expands meaning ops p q) (h' : Expands meaning ops p q') : q = q' := by
  induction h generalizing q' with
  | nil =>
    cases h'
    rfl
  | leaf hop hleaf _ ih =>
    cases h' with
    | leaf hop' _ hops =>
      cases hop.symm.trans hop'
      exact ih hops
    | parts hop' => exact absurd (Prod.ext_iff.mp (hop.symm.trans hop')).1 (hleaf _)
  | parts hop _ _ ihinner ih =>
    cases h' with
    | leaf hop' hleaf' => exact absurd (Prod.ext_iff.mp (hop'.symm.trans hop)).1 (hleaf' _)
    | parts hop' hinner hops =>
      cases hop.symm.trans hop'
      cases ihinner hinner
      exact ih hops

omit [GateKind γ] in
theorem Expands.matrix (hop : contentOf meaning op p = (.matrix m, q)) : Expands meaning [op] p q := by
  refine .leaf hop ?_ .nil
  intro inner hparts
  cases hparts

omit [GateKind γ] in
/-- A position names one node. -/
theorem NodeAt.unique (h : NodeAt meaning ops p position x s) (h' : NodeAt meaning ops p position x' s') :
    x = x' ∧ s = s' := by
  induction h generalizing x' s' with
  | root =>
    cases h' with
    | root => exact ⟨rfl, rfl⟩
    | inside _ h' => cases h'
  | inside hop h ih =>
    cases h' with
    | root => cases h
    | inside hop' h' =>
      cases hop.symm.trans hop'
      exact ih h'
  | later hq _ ih =>
    cases h' with
    | later hq' h' =>
      cases hq.unique hq'
      exact ih h'

omit [GateKind γ] in
/-- The nodes under one operation: itself, and those under its parts. -/
theorem nodeAt_singleton_iff : NodeAt meaning [op] p position x s ↔
    (position = [0] ∧ x = op ∧ s = p) ∨ ∃ inner q below, position = 0 :: below ∧
      contentOf meaning op p = (.parts inner, q) ∧ NodeAt meaning inner q below x s := by
  constructor
  · intro h
    cases h with
    | root => exact .inl ⟨rfl, rfl, rfl⟩
    | inside hop h => exact .inr ⟨_, _, _, rfl, hop, h⟩
    | later _ h => cases h
  · rintro (⟨rfl, rfl, rfl⟩ | ⟨inner, q, below, rfl, hop, h⟩)
    · exact .root
    · exact .inside hop h

omit [GateKind γ] in
theorem NodeAt.exists_eq_cons (h : NodeAt meaning ops p position x s) :
    ∃ k path, position = k :: path := by
  cases h with
  | root => exact ⟨_, _, rfl⟩
  | inside => exact ⟨_, _, rfl⟩
  | later => exact ⟨_, _, rfl⟩

omit [GateKind γ] in
theorem NodeAt.exists_eq_zero (h : NodeAt meaning [op] p position x s) :
    ∃ path, position = 0 :: path := by
  rcases nodeAt_singleton_iff.mp h with ⟨rfl, -, -⟩ | ⟨_, _, below, rfl, -, -⟩
  · exact ⟨[], rfl⟩
  · exact ⟨below, rfl⟩

/-- The position one operation later. -/
def later : List Nat → List Nat
  | [] => []
  | k :: path => (k + 1) :: path

@[simp] theorem length_later (position : List Nat) : (later position).length = position.length := by
  cases position with
  | nil => rfl
  | cons k path => rfl

@[simp] theorem later_lt_later_iff {a b : List Nat} : later a < later b ↔ a < b := by
  cases b with
  | nil => simp [later]
  | cons j b =>
    cases a with
    | nil => simp [later]
    | cons i a => simp [later, List.cons_lt_cons_iff]

omit [GateKind γ] in
/-- The nodes under an operation and those under the operations after it. -/
theorem nodeAt_cons_iff (hq : Expands meaning [op] p q) : NodeAt meaning (op :: ops) p position x s ↔
    NodeAt meaning [op] p position x s ∨
      ∃ before, position = later before ∧ NodeAt meaning ops q before x s := by
  constructor
  · intro h
    cases h with
    | root => exact .inl .root
    | inside hop h => exact .inl (.inside hop h)
    | later hq' h =>
      cases hq.unique hq'
      exact .inr ⟨_, rfl, h⟩
  · rintro (h | ⟨before, rfl, h⟩)
    · cases h with
      | root => exact .root
      | inside hop h => exact .inside hop h
      | later _ h => cases h
    · obtain ⟨k, path, rfl⟩ := h.exists_eq_cons
      exact .later hq h

theorem fault?_succ (limit depth : Nat) (op : Operation γ) (p : CleanPool) :
    fault? meaning (limit + 1) (depth + 1) op p = fault? meaning limit depth op p := by
  simp only [fault?, Nat.add_lt_add_iff_right]

theorem leaves_nil (n : Nat) : leaves meaning n [] = pure [] := by
  cases n <;> rfl

theorem leaves_cons (n : Nat) (op : Operation γ) (ops : List (Operation γ)) :
    leaves meaning n (op :: ops) = do
      let ls ← leaves meaning n [op]
      let rest ← leaves meaning n ops
      return ls ++ rest := by
  cases n with
  | zero => rfl
  | succ n => simp [leaves_succ]

theorem leaves_singleton (n : Nat) (op : Operation γ) :
    leaves meaning (n + 1) [op] = leavesOf meaning n op := by
  simp [leaves_succ]

theorem run_leaves_singleton (n : Nat) (op : Operation γ) (p : CleanPool) :
    (leaves meaning (n + 1) [op]).run p = match contentOf meaning op p with
      | (.matrix m, q) => ((leafOf op m).map ([·]), q)
      | (.parts inner, q) => (leaves meaning n inner).run q
      | (.nothing, q) => (.error (.noUnitary (GateKind.name op.gate)), q)
      | (.failure e, q) => (.error e, q) := by
  rw [leaves_singleton, leavesOf, run_bind, run_lift, contentOf]
  cases meaning.unitary op.gate with
  | error e => rfl
  | ok m? =>
    cases m? with
    | some m =>
      dsimp only
      rw [run_bind, run_lift]
      cases leafOf op m <;> rfl
    | none =>
      dsimp only
      rw [run_bind]
      rcases (meaning.decompose op.gate op.qubits).run p with ⟨result, q⟩
      cases result with
      | error e => rfl
      | ok inner? => cases inner? <;> rfl

theorem leafOf_eq_ok : leafOf op m = .ok l ↔
    (m.rows = basisSize op.qubits.length ∧ m.cols = basisSize op.qubits.length) ∧
      l = ⟨m, op.qubits⟩ := by
  unfold leafOf
  split
  · next hm => simp [hm, eq_comm]
  · next hm => simp [hm]

/-- An operation that is evaluated has a matrix, or its parts are evaluated. -/
theorem gives_leaves_singleton (h : Gives (leaves meaning (n + 1) [op]) p ls q) :
    (∃ m, contentOf meaning op p = (.matrix m, q) ∧ leafOf op m = .ok ⟨m, op.qubits⟩ ∧
      ls = [⟨m, op.qubits⟩]) ∨
    ∃ inner r, contentOf meaning op p = (.parts inner, r) ∧ Gives (leaves meaning n inner) r ls q := by
  unfold Gives at h
  rw [run_leaves_singleton] at h
  rcases hop : contentOf meaning op p with ⟨content, r⟩
  rw [hop] at h
  cases content with
  | matrix m =>
    dsimp only at h
    cases hl : leafOf op m with
    | error e =>
      rw [hl] at h
      cases h
    | ok l =>
      rw [hl] at h
      cases h
      obtain ⟨-, rfl⟩ := leafOf_eq_ok.mp hl
      exact .inl ⟨m, rfl, hl, rfl⟩
  | parts inner => exact .inr ⟨inner, r, rfl, h⟩
  | nothing => cases h
  | failure e => cases h

/-- An operation that is not evaluated is at fault itself, or its parts are not evaluated. -/
theorem fails_leaves_singleton (h : Fails (leaves meaning (n + 1) [op]) p e) :
    fault? meaning (n + 1) 1 op p = some e ∨
    ∃ inner r, contentOf meaning op p = (.parts inner, r) ∧ Fails (leaves meaning n inner) r e := by
  unfold Fails at h
  rw [run_leaves_singleton] at h
  rw [fault?_succ, fault?, if_neg (Nat.not_lt_zero n)]
  rcases hop : contentOf meaning op p with ⟨content, r⟩
  rw [hop] at h
  cases content with
  | matrix m =>
    left
    dsimp only at h ⊢
    unfold leafOf at h
    split at h
    · cases h
    · next hm =>
      rw [if_neg hm]
      cases h
      rfl
  | parts inner => exact .inr ⟨inner, r, rfl, h⟩
  | nothing =>
    cases h
    exact .inl rfl
  | failure e =>
    cases h
    exact .inl rfl

/-! ## Runs that succeed -/

theorem evaluates_of_gives (h : Gives (leaves meaning n ops) p ls q) :
    Evaluates meaning n ops p ls q := by
  induction n generalizing ops p ls q with
  | zero =>
    cases ops with
    | nil =>
      obtain ⟨rfl, rfl⟩ := gives_pure.mp h
      exact .nil
    | cons op ops => exact (gives_throw.mp h).elim
  | succ n ih =>
    induction ops generalizing p ls q with
    | nil =>
      rw [leaves_nil] at h
      obtain ⟨rfl, rfl⟩ := gives_pure.mp h
      exact .nil
    | cons op ops ihops =>
      rw [leaves_cons] at h
      obtain ⟨first, r, hfirst, h⟩ := gives_bind.mp h
      obtain ⟨rest, s, hrest, h⟩ := gives_bind.mp h
      obtain ⟨rfl, rfl⟩ := gives_pure.mp h
      rcases gives_leaves_singleton hfirst with ⟨m, hop, hm, rfl⟩ | ⟨inner, t, hop, hinner⟩
      · exact .leaf hop hm (ihops hrest)
      · exact .parts hop (ih hinner) (ihops hrest)

theorem Evaluates.expands (h : Evaluates meaning n ops p ls q) : Expands meaning ops p q := by
  induction h with
  | nil => exact .nil
  | leaf hop _ _ ih => exact .leaf hop (fun _ hparts => by cases hparts) ih
  | parts hop _ _ ihinner ih => exact .parts hop ihinner ih

/-- No node stops an evaluation that succeeds. -/
theorem Evaluates.fault?_eq_none (h : Evaluates meaning n ops p ls q)
    (hx : NodeAt meaning ops p position x s) : fault? meaning n position.length x s = none := by
  induction h generalizing position x s with
  | nil => cases hx
  | leaf hop hm _ ih =>
    cases hx with
    | root =>
      obtain ⟨hm, -⟩ := leafOf_eq_ok.mp hm
      simp [fault?, hop, hm]
    | inside hop' => cases hop.symm.trans hop'
    | later hq hx =>
      cases hq.unique (.matrix hop)
      have hnone := ih hx
      exact hnone
  | parts hop hinner _ ihinner ih =>
    cases hx with
    | root => simp [fault?, hop]
    | inside hop' hx =>
      cases hop.symm.trans hop'
      rw [List.length_cons, fault?_succ]
      exact ihinner hx
    | later hq hx =>
      cases hq.unique (.parts hop hinner.expands .nil)
      have hnone := ih hx
      exact hnone

/-! ## Leaves from left to right -/

/-- The leaf of a node with a matrix. -/
def LeafAt (meaning : GateMeaning γ κ) (ops : List (Operation γ)) (p : CleanPool)
    (position : List Nat) (l : Leaf κ) : Prop :=
  ∃ x s m, NodeAt meaning ops p position x s ∧ (contentOf meaning x s).1 = .matrix m ∧
    l = ⟨m, x.qubits⟩

/-- The leaves of all nodes with matrices, in the order of their positions. -/
def Lists (meaning : GateMeaning γ κ) (ops : List (Operation γ)) (p : CleanPool)
    (ls : List (Leaf κ)) : Prop :=
  ∃ rows : List (List Nat × Leaf κ), rows.Pairwise (fun a b => a.1 < b.1) ∧
    (∀ position l, (position, l) ∈ rows ↔ LeafAt meaning ops p position l) ∧ ls = rows.map Prod.snd

omit [GateKind γ] in
theorem leafAt_cons_iff (hq : Expands meaning [op] p q) : LeafAt meaning (op :: ops) p position l ↔
    LeafAt meaning [op] p position l ∨
      ∃ before, position = later before ∧ LeafAt meaning ops q before l := by
  constructor
  · rintro ⟨x, s, m, hx, hm, rfl⟩
    rcases (nodeAt_cons_iff hq).mp hx with hfirst | ⟨before, rfl, hrest⟩
    · exact .inl ⟨x, s, m, hfirst, hm, rfl⟩
    · exact .inr ⟨before, rfl, x, s, m, hrest, hm, rfl⟩
  · rintro (⟨x, s, m, hx, hm, rfl⟩ | ⟨before, rfl, x, s, m, hx, hm, rfl⟩)
    · exact ⟨x, s, m, (nodeAt_cons_iff hq).mpr (.inl hx), hm, rfl⟩
    · exact ⟨x, s, m, (nodeAt_cons_iff hq).mpr (.inr ⟨before, rfl, hx⟩), hm, rfl⟩

omit [GateKind γ] in
theorem Lists.nil : Lists meaning [] p [] := by
  refine ⟨[], .nil, ?_, rfl⟩
  intro position l
  constructor
  · intro h
    cases h
  · rintro ⟨x, s, m, hx, -⟩
    cases hx

omit [GateKind γ] in
theorem Lists.leaf (hop : contentOf meaning op p = (.matrix m, q)) :
    Lists meaning [op] p [⟨m, op.qubits⟩] := by
  refine ⟨[([0], ⟨m, op.qubits⟩)], List.pairwise_singleton _ _, ?_, rfl⟩
  intro position l
  rw [List.mem_singleton, Prod.mk.injEq]
  constructor
  · rintro ⟨rfl, rfl⟩
    exact ⟨op, p, m, .root, by rw [hop], rfl⟩
  · rintro ⟨x, s, m', hx, hm', rfl⟩
    rcases nodeAt_singleton_iff.mp hx with ⟨rfl, rfl, rfl⟩ | ⟨inner, q', below, rfl, hop', -⟩
    · rw [hop] at hm'
      cases hm'
      exact ⟨rfl, rfl⟩
    · cases hop.symm.trans hop'

omit [GateKind γ] in
/-- The leaves under the parts are those under the operation. -/
theorem Lists.parts (hop : contentOf meaning op p = (.parts inner, q)) (h : Lists meaning inner q ls) :
    Lists meaning [op] p ls := by
  obtain ⟨rows, hsorted, hrows, rfl⟩ := h
  refine ⟨rows.map fun row => (0 :: row.1, row.2), ?_, ?_, ?_⟩
  · apply List.pairwise_map.mpr
    exact hsorted.imp List.cons_lt_cons_self.mpr
  · intro position l
    rw [List.mem_map]
    constructor
    · rintro ⟨row, hrow, heq⟩
      cases heq
      obtain ⟨x, s, m, hx, hm, hl⟩ := (hrows _ _).mp hrow
      exact ⟨x, s, m, .inside hop hx, hm, hl⟩
    · rintro ⟨x, s, m, hx, hm, rfl⟩
      rcases nodeAt_singleton_iff.mp hx with ⟨rfl, rfl, rfl⟩ | ⟨inner', q', below, rfl, hop', hx⟩
      · rw [hop] at hm
        cases hm
      · cases hop.symm.trans hop'
        exact ⟨(below, ⟨m, x.qubits⟩), (hrows _ _).mpr ⟨x, s, m, hx, hm, rfl⟩, rfl⟩
  · rw [List.map_map]
    rfl

omit [GateKind γ] in
theorem Lists.cons (h : Lists meaning [op] p ls) (hq : Expands meaning [op] p q)
    (h' : Lists meaning ops q rest) : Lists meaning (op :: ops) p (ls ++ rest) := by
  obtain ⟨rows, hsorted, hrows, rfl⟩ := h
  obtain ⟨rows', hsorted', hrows', rfl⟩ := h'
  refine ⟨rows ++ rows'.map fun row => (later row.1, row.2), ?_, ?_, ?_⟩
  · apply List.pairwise_append.mpr
    refine ⟨hsorted, List.pairwise_map.mpr (hsorted'.imp later_lt_later_iff.mpr), ?_⟩
    -- the first number of a position tells the operations apart
    intro row hrow row' hrow'
    obtain ⟨before, hbefore, rfl⟩ := List.mem_map.mp hrow'
    obtain ⟨x, s, m, hx, -⟩ := (hrows _ _).mp hrow
    obtain ⟨x', s', m', hx', -⟩ := (hrows' _ _).mp hbefore
    obtain ⟨path, hpath⟩ := hx.exists_eq_zero
    obtain ⟨k, path', hpath'⟩ := hx'.exists_eq_cons
    rw [hpath, hpath']
    exact List.cons_lt_cons_iff.mpr (.inl (Nat.succ_pos k))
  · intro position l
    refine Iff.trans ?_ (leafAt_cons_iff hq).symm
    rw [List.mem_append, hrows, List.mem_map]
    apply or_congr_right
    constructor
    · rintro ⟨row, hrow, heq⟩
      cases heq
      exact ⟨row.1, rfl, (hrows' _ _).mp hrow⟩
    · rintro ⟨before, rfl, hl⟩
      exact ⟨(before, l), (hrows' _ _).mpr hl, rfl⟩
  · rw [List.map_append, List.map_map]
    rfl

theorem Evaluates.lists (h : Evaluates meaning n ops p ls q) : Lists meaning ops p ls := by
  induction h with
  | nil => exact .nil
  | leaf hop _ _ ih => exact (Lists.leaf hop).cons (.matrix hop) ih
  | parts hop hinner _ ihinner ih => exact (ihinner.parts hop).cons (.parts hop hinner.expands .nil) ih

/-! ## Runs that fail -/

/-- The first node that stops the evaluation, and how it does so. -/
structure StopsAt (meaning : GateMeaning γ κ) (n : Nat) (ops : List (Operation γ)) (p : CleanPool)
    (position : List Nat) (e : Error) : Prop where
  fault : ∃ x s, NodeAt meaning ops p position x s ∧ fault? meaning n position.length x s = some e
  first : ∀ before x s, NodeAt meaning ops p before x s → before < position →
    fault? meaning n before.length x s = none

omit [GateKind γ] in
theorem not_lt_zero (h : NodeAt meaning ops p position x s) : ¬ position < [0] := by
  obtain ⟨k, path, rfl⟩ := h.exists_eq_cons
  intro hlt
  rcases List.cons_lt_cons_iff.mp hlt with hlt | ⟨-, hlt⟩
  · exact Nat.not_lt_zero k hlt
  · exact List.not_lt_nil path hlt

theorem StopsAt.root (h : fault? meaning n 1 op p = some e) : StopsAt meaning n (op :: ops) p [0] e where
  fault := ⟨op, p, .root, h⟩
  first _ _ _ hx hlt := absurd hlt (not_lt_zero hx)

theorem StopsAt.inside (hop : contentOf meaning op p = (.parts inner, q))
    (h : StopsAt meaning n inner q position e) :
    StopsAt meaning (n + 1) (op :: ops) p (0 :: position) e where
  fault := by
    obtain ⟨x, s, hx, hfault⟩ := h.fault
    exact ⟨x, s, .inside hop hx, (fault?_succ _ _ x s).trans hfault⟩
  first before x s hx hlt := by
    cases hx with
    | root => simp [fault?, hop]
    | inside hop' hx =>
      cases hop.symm.trans hop'
      have hlt := List.cons_lt_cons_self.mp hlt
      exact (fault?_succ _ _ x s).trans (h.first _ x s hx hlt)
    | later _ _ =>
      rcases List.cons_lt_cons_iff.mp hlt with hlt | ⟨heq, -⟩
      · exact absurd hlt (Nat.not_lt_zero _)
      · cases heq

theorem StopsAt.after (hfirst : Evaluates meaning n [op] p ls q) (h : StopsAt meaning n ops q position e) :
    StopsAt meaning n (op :: ops) p (later position) e where
  fault := by
    obtain ⟨x, s, hx, hfault⟩ := h.fault
    refine ⟨x, s, (nodeAt_cons_iff hfirst.expands).mpr (.inr ⟨position, rfl, hx⟩), ?_⟩
    rwa [length_later]
  first before x s hx hlt := by
    -- what comes before is under the operation that succeeded, or before the node among the others
    rcases (nodeAt_cons_iff hfirst.expands).mp hx with hx | ⟨before, rfl, hrest⟩
    · exact hfirst.fault?_eq_none hx
    · rw [length_later]
      exact h.first before x s hrest (later_lt_later_iff.mp hlt)

theorem exists_stopsAt (h : Fails (leaves meaning n ops) p e) :
    ∃ position, StopsAt meaning n ops p position e := by
  induction n generalizing ops p with
  | zero =>
    cases ops with
    | nil => exact (fails_pure.mp h).elim
    | cons op ops =>
      obtain rfl := fails_throw.mp h
      exact ⟨[0], .root rfl⟩
  | succ n ih =>
    induction ops generalizing p with
    | nil =>
      rw [leaves_nil] at h
      exact (fails_pure.mp h).elim
    | cons op ops ihops =>
      rw [leaves_cons] at h
      rcases fails_bind.mp h with h | ⟨ls, q, hfirst, h⟩
      · rcases fails_leaves_singleton h with hfault | ⟨inner, q, hop, hinner⟩
        · exact ⟨[0], .root hfault⟩
        · obtain ⟨position, hstop⟩ := ih hinner
          exact ⟨0 :: position, hstop.inside hop⟩
      · rcases fails_bind.mp h with h | ⟨_, _, -, h⟩
        · obtain ⟨position, hstop⟩ := ihops h
          exact ⟨later position, hstop.after (evaluates_of_gives hfirst)⟩
        · exact (fails_pure.mp h).elim

/-- Only one node is the first one to stop the evaluation. -/
theorem StopsAt.unique {position' : List Nat} {e' : Error} (h : StopsAt meaning n ops p position e)
    (h' : StopsAt meaning n ops p position' e') : position = position' ∧ e = e' := by
  obtain ⟨x, s, hx, hfault⟩ := h.fault
  obtain ⟨x', s', hx', hfault'⟩ := h'.fault
  have heq : position = position' := by
    apply List.le_antisymm
    · intro hlt
      rw [h.first _ x' s' hx' hlt] at hfault'
      cases hfault'
    · intro hlt
      rw [h'.first _ x s hx hlt] at hfault
      cases hfault
  subst heq
  obtain ⟨rfl, rfl⟩ := hx.unique hx'
  exact ⟨rfl, Option.some.inj (hfault.symm.trans hfault')⟩

/-- Evaluation succeeds exactly if no node stops it. -/
theorem gives_leaves_iff : (∃ ls q, Gives (leaves meaning n ops) p ls q) ↔
    ∀ position x s, NodeAt meaning ops p position x s → fault? meaning n position.length x s = none := by
  constructor
  · rintro ⟨ls, q, h⟩ position x s hx
    exact (evaluates_of_gives h).fault?_eq_none hx
  · intro hnone
    rcases gives_or_fails (leaves meaning n ops) p with h | ⟨e, h⟩
    · exact h
    · obtain ⟨position, hstop⟩ := exists_stopsAt h
      obtain ⟨x, s, hx, hfault⟩ := hstop.fault
      rw [hnone position x s hx] at hfault
      cases hfault

/-- Evaluation fails with the error of the first node that stops it. -/
theorem fails_leaves_iff : Fails (leaves meaning n ops) p e ↔
    ∃ position, StopsAt meaning n ops p position e := by
  constructor
  · exact exists_stopsAt
  · rintro ⟨position, hstop⟩
    rcases gives_or_fails (leaves meaning n ops) p with ⟨ls, q, h⟩ | ⟨e', h⟩
    · obtain ⟨x, s, hx, hfault⟩ := hstop.fault
      rw [(evaluates_of_gives h).fault?_eq_none hx] at hfault
      cases hfault
    · obtain ⟨position', hstop'⟩ := exists_stopsAt h
      obtain ⟨-, rfl⟩ := hstop.unique hstop'
      exact h

/-- An operation that stands for itself is unfolded until no level is left. -/
theorem fails_of_itself (h : ∀ p, contentOf meaning op p = (.parts [op], p)) (n : Nat) (p : CleanPool) :
    Fails (leaves meaning n [op]) p (.decompositionDepth (GateKind.name op.gate)) := by
  induction n with
  | zero => rfl
  | succ n ih =>
    unfold Fails
    rw [run_leaves_singleton, h]
    exact ih

/-! ## One operation -/

/-- A node of the tree under one operation, which is the root. The path names a part of the operation, a
part of that, and so on down to the node. -/
def Node (meaning : GateMeaning γ κ) (op : Operation γ) (p : CleanPool) (path : List Nat)
    (x : Operation γ) (s : CleanPool) : Prop := NodeAt meaning [op] p (0 :: path) x s

/-- Nothing about a node of this depth stops the evaluation. -/
structure Admissible (meaning : GateMeaning γ κ) (limit depth : Nat) (op : Operation γ)
    (p : CleanPool) : Prop where
  shallow : depth ≤ limit
  succeeds : ∀ e, (contentOf meaning op p).1 ≠ .failure e
  known : (contentOf meaning op p).1 ≠ .nothing
  fits : ∀ m, (contentOf meaning op p).1 = .matrix m →
    m.rows = basisSize op.qubits.length ∧ m.cols = basisSize op.qubits.length

theorem fault?_eq_none_iff {limit depth : Nat} :
    fault? meaning limit depth op p = none ↔ Admissible meaning limit depth op p := by
  rw [fault?]
  by_cases hdepth : limit < depth
  · rw [if_pos hdepth]
    constructor
    · intro h
      cases h
    · intro h
      exact absurd h.shallow (Nat.not_le_of_lt hdepth)
  · rw [if_neg hdepth]
    constructor
    · intro h
      refine ⟨Nat.le_of_not_lt hdepth, ?_, ?_, ?_⟩
      · intro e he
        rw [he] at h
        cases h
      · intro hnothing
        rw [hnothing] at h
        cases h
      · intro m hm
        rw [hm] at h
        dsimp only at h
        split at h
        · assumption
        · cases h
    · intro h
      cases hop : (contentOf meaning op p).1 with
      | matrix m => exact if_pos (h.fits m hop)
      | parts inner => rfl
      | nothing => exact absurd hop h.known
      | failure e => exact absurd hop (h.succeeds e)

omit [GateKind γ] in
/-- The leaves under one operation by their paths. -/
theorem Lists.rows (h : Lists meaning [op] p ls) :
    ∃ rows : List (List Nat × Leaf κ), rows.Pairwise (fun a b => a.1 < b.1) ∧
      (∀ path l, (path, l) ∈ rows ↔ ∃ x s m, Node meaning op p path x s ∧
        (contentOf meaning x s).1 = .matrix m ∧ l = ⟨m, x.qubits⟩) ∧ ls = rows.map Prod.snd := by
  obtain ⟨rows, hsorted, hrows, rfl⟩ := h
  have hrooted : ∀ row ∈ rows, row.1 = 0 :: row.1.tail := by
    intro row hrow
    obtain ⟨x, s, m, hx, -⟩ := (hrows _ _).mp hrow
    obtain ⟨path, hpath⟩ := hx.exists_eq_zero
    rw [hpath]
    rfl
  refine ⟨rows.map fun row => (row.1.tail, row.2), ?_, ?_, ?_⟩
  · apply List.pairwise_map.mpr
    apply hsorted.imp_of_mem
    intro a b ha hb hlt
    rw [hrooted a ha, hrooted b hb] at hlt
    exact List.cons_lt_cons_self.mp hlt
  · intro path l
    refine Iff.trans ?_ (hrows (0 :: path) l)
    rw [List.mem_map]
    constructor
    · rintro ⟨row, hrow, heq⟩
      cases heq
      rw [← hrooted row hrow]
      exact hrow
    · intro hrow
      exact ⟨_, hrow, rfl⟩
  · rw [List.map_map]
    rfl

end Dense
end BloqCircuit
