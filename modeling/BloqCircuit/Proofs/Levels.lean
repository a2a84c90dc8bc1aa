import BloqCircuit.Proofs.Actions
import BloqCircuit.Proofs.Reference
/-! Dense evaluation through the levels of decompositions: operations that stand for others with the same
effect are evaluated with this effect. -/
namespace BloqCircuit.Dense
variable {γ κ : Type} [ExactAmplitude κ] {meaning : GateMeaning γ κ} {own : γ → DenseMatrix κ}
  {op : Operation γ} {ops ops' : List (Operation γ)} {ls ls' : List (Leaf κ)} {levels d : Nat}

/-! ## Leaves in the place of operations -/

/-- Leaves on qubits of some operations that do what the matrices of these do. -/
structure Renders (own : γ → DenseMatrix κ) (ops : List (Operation γ)) (ls : List (Leaf κ)) : Prop where
  nodup : ∀ l ∈ ls, l.qubits.Nodup
  subset : ls.flatMap Leaf.qubits ⊆ ops.flatMap (·.qubits)
  act : ∀ ψ, actAll ls ψ = actAll (ops.map (leafBy own)) ψ

theorem Renders.nil : Renders own [] [] :=
  ⟨fun _ hl => absurd hl List.not_mem_nil, List.Subset.refl _, fun _ => rfl⟩

theorem Renders.append (h : Renders own ops ls) (h' : Renders own ops' ls') :
    Renders own (ops ++ ops') (ls ++ ls') where
  nodup l hl := (List.mem_append.mp hl).elim (h.nodup l) (h'.nodup l)
  subset := by
    rw [List.flatMap_append, List.flatMap_append]
    exact List.append_subset.mpr ⟨List.subset_append_of_subset_left _ h.subset,
      List.subset_append_of_subset_right _ h'.subset⟩
  act ψ := by rw [List.map_append, actAll_append, actAll_append, h.act, h'.act]

theorem Renders.leaf (h : (leafBy own op).Fits) : Renders own [op] [leafBy own op] where
  nodup _ hl := List.mem_singleton.mp hl ▸ h.nodup
  subset := List.Subset.refl _
  act _ := rfl

/-- Leaves for what an operation stands for are leaves for the operation. -/
theorem Renders.folded (h : Renders own ops ls) (hsub : ops.flatMap (·.qubits) ⊆ op.qubits)
    (hact : ∀ ψ, actAll (ops.map (leafBy own)) ψ = (leafBy own op).act ψ) : Renders own [op] ls where
  nodup := h.nodup
  subset := by
    rw [List.flatMap_singleton]
    exact List.Subset.trans h.subset hsub
  act ψ := (h.act ψ).trans (hact ψ)

/-! ## Operations within a depth -/

/-- An operation without a matrix of its own that stands, whatever the pool, for operations of some kind
on its qubits, which together do what one matrix does. -/
structure Unfolds (meaning : GateMeaning γ κ) (own : γ → DenseMatrix κ) (inner : Operation γ → Prop)
    (op : Operation γ) : Prop where
  fits : (leafBy own op).Fits
  matrix : meaning.unitary op.gate = .ok none
  decompose : ∀ p, ∃ ops p', Gives (meaning.decompose op.gate op.qubits) p (some ops) p' ∧
    (∀ o ∈ ops, inner o) ∧ ops.flatMap (·.qubits) ⊆ op.qubits ∧
    ∀ ψ, actAll (ops.map (leafBy own)) ψ = (leafBy own op).act ψ

theorem Unfolds.mono {inner inner' : Operation γ → Prop} (h : Unfolds meaning own inner op)
    (hi : ∀ o, inner o → inner' o) : Unfolds meaning own inner' op := by
  refine ⟨h.fits, h.matrix, fun p => ?_⟩
  obtain ⟨ops, p', hgives, hinner, hrest⟩ := h.decompose p
  exact ⟨ops, p', hgives, fun o ho => hi o (hinner o ho), hrest⟩

/-- An operation that has a matrix of its own, or unfolds at most this many times to operations that
have one. -/
def Within (meaning : GateMeaning γ κ) (own : γ → DenseMatrix κ) : Nat → Operation γ → Prop
  | 0 => Direct meaning own
  | d + 1 => fun op => Direct meaning own op ∨ Unfolds meaning own (Within meaning own d) op

theorem Direct.within (h : Direct meaning own op) (d : Nat) : Within meaning own d op := by
  cases d with
  | zero => exact h
  | succ d => exact .inl h

theorem Within.fits (h : Within meaning own d op) : (leafBy own op).Fits := by
  cases d with
  | zero => exact Direct.fits h
  | succ d =>
    rcases h with h | h
    · exact h.fits
    · exact h.fits

theorem Within.mono {d' : Nat} (h : Within meaning own d op) (hle : d ≤ d') :
    Within meaning own d' op := by
  induction d generalizing d' op with
  | zero => exact Direct.within h d'
  | succ d ih =>
    obtain ⟨k, rfl⟩ := Nat.exists_eq_add_of_le' hle
    rcases h with h | h
    · exact h.within _
    · exact .inr (h.mono fun o ho => ih ho (Nat.le_of_succ_le_succ hle))

variable [GateKind γ]

omit [ExactAmplitude κ] in
theorem Direct.leavesOf_gives (h : Direct meaning own op) (levels : Nat) (p : CleanPool) :
    Gives (leavesOf meaning levels op) p [leafBy own op] p := by
  have hleaf : leafOf op (own op.gate) = .ok (leafBy own op) := if_pos ⟨h.fits.rows, h.fits.cols⟩
  refine gives_bind.mpr ⟨some (own op.gate), p, gives_lift.mpr ⟨h.matrix, rfl⟩, ?_⟩
  exact gives_bind.mpr ⟨_, p, gives_lift.mpr ⟨hleaf, rfl⟩, gives_pure.mpr ⟨rfl, rfl⟩⟩

omit [ExactAmplitude κ] in
/-- An operation without a matrix of its own is evaluated as what it stands for. -/
theorem leavesOf_gives_iff (hm : meaning.unitary op.gate = .ok none) {p p₁ p' : CleanPool}
    (hd : Gives (meaning.decompose op.gate op.qubits) p (some ops) p₁) :
    Gives (leavesOf meaning levels op) p ls p' ↔ Gives (leaves meaning levels ops) p₁ ls p' := by
  constructor
  · intro h
    obtain ⟨m, p₀, hlift, h⟩ := gives_bind.mp h
    obtain ⟨hunitary, rfl⟩ := gives_lift.mp hlift
    cases hm.symm.trans hunitary
    obtain ⟨inner, p₂, hinner, h⟩ := gives_bind.mp h
    obtain ⟨rfl, rfl⟩ := hd.unique hinner
    exact h
  · intro h
    exact gives_bind.mpr ⟨none, p, gives_lift.mpr ⟨hm, rfl⟩, gives_bind.mpr ⟨some ops, p₁, hd, h⟩⟩

private theorem renders_parts
    (hone : ∀ op ∈ ops, ∀ p ls p', Gives (leavesOf meaning levels op) p ls p' → Renders own [op] ls)
    {parts : List (List (Leaf κ))} {p p' : CleanPool}
    (h : Gives (ops.mapM (leavesOf meaning levels)) p parts p') : Renders own ops parts.flatten := by
  induction ops generalizing p p' parts with
  | nil =>
    obtain ⟨rfl, -⟩ := gives_pure.mp h
    exact .nil
  | cons op ops ih =>
    rw [List.mapM_cons] at h
    obtain ⟨ls, p₁, hop, h⟩ := gives_bind.mp h
    obtain ⟨rest, p₂, hrest, h⟩ := gives_bind.mp h
    obtain ⟨rfl, -⟩ := gives_pure.mp h
    exact (hone op List.mem_cons_self _ _ _ hop).append
      (ih (fun o ho => hone o (List.mem_cons_of_mem _ ho)) hrest)

omit [ExactAmplitude κ] in
private theorem exists_parts
    (hone : ∀ op ∈ ops, ∀ p, ∃ ls p', Gives (leavesOf meaning levels op) p ls p') (p : CleanPool) :
    ∃ parts p', Gives (ops.mapM (leavesOf meaning levels)) p parts p' := by
  induction ops generalizing p with
  | nil => exact ⟨[], p, gives_pure.mpr ⟨rfl, rfl⟩⟩
  | cons op ops ih =>
    obtain ⟨ls, p₁, hop⟩ := hone op List.mem_cons_self p
    obtain ⟨rest, p₂, hrest⟩ := ih (fun o ho => hone o (List.mem_cons_of_mem _ ho)) p₁
    refine ⟨ls :: rest, p₂, ?_⟩
    rw [List.mapM_cons]
    exact gives_bind.mpr ⟨_, _, hop, gives_bind.mpr ⟨_, _, hrest, gives_pure.mpr ⟨rfl, rfl⟩⟩⟩

/-- What evaluation finds for operations within a depth renders them, whatever the levels. -/
theorem renders_leaves (h : ∀ op ∈ ops, Within meaning own d op) {p p' : CleanPool}
    (hleaves : Gives (leaves meaning levels ops) p ls p') : Renders own ops ls := by
  induction levels generalizing d ops ls p p' with
  | zero =>
    cases ops with
    | nil =>
      obtain ⟨rfl, -⟩ := gives_pure.mp hleaves
      exact .nil
    | cons op ops => exact (gives_throw.mp hleaves).elim
  | succ levels ih =>
    rw [leaves_succ] at hleaves
    obtain ⟨parts, p₁, hparts, hleaves⟩ := gives_bind.mp hleaves
    obtain ⟨rfl, -⟩ := gives_pure.mp hleaves
    refine renders_parts (fun op hop p ls p' hone => ?_) hparts
    -- an operation with a matrix is one leaf, and any other has the leaves of what it stands for
    have hdirect : Direct meaning own op → Renders own [op] ls := by
      intro hd
      obtain ⟨rfl, -⟩ := (hd.leavesOf_gives levels p).unique hone
      exact .leaf hd.fits
    cases d with
    | zero => exact hdirect (h op hop)
    | succ d =>
      rcases h op hop with hd | ⟨-, hmatrix, hdecompose⟩
      · exact hdirect hd
      · obtain ⟨inner, p₁, hgives, hinner, hsub, hact⟩ := hdecompose p
        exact (ih hinner ((leavesOf_gives_iff hmatrix hgives).mp hone)).folded hsub hact

/-- More levels than the depth are enough. -/
theorem exists_leaves (h : ∀ op ∈ ops, Within meaning own d op) (hd : d < levels) (p : CleanPool) :
    ∃ ls p', Gives (leaves meaning levels ops) p ls p' := by
  induction levels generalizing d ops p with
  | zero => exact absurd hd (Nat.not_lt_zero _)
  | succ levels ih =>
    have hone : ∀ op ∈ ops, ∀ p, ∃ ls p', Gives (leavesOf meaning levels op) p ls p' := by
      intro op hop p
      cases d with
      | zero => exact ⟨_, _, Direct.leavesOf_gives (h op hop) levels p⟩
      | succ d =>
        rcases h op hop with hdirect | ⟨-, hmatrix, hdecompose⟩
        · exact ⟨_, _, hdirect.leavesOf_gives levels p⟩
        · obtain ⟨inner, p₁, hgives, hinner, -⟩ := hdecompose p
          obtain ⟨ls, p', hleaves⟩ := ih hinner (Nat.lt_of_succ_lt_succ hd) p₁
          exact ⟨ls, p', (leavesOf_gives_iff hmatrix hgives).mpr hleaves⟩
    obtain ⟨parts, p', hparts⟩ := exists_parts hone p
    refine ⟨parts.flatten, p', ?_⟩
    rw [leaves_succ]
    exact gives_bind.mpr ⟨_, _, hparts, gives_pure.mpr ⟨rfl, rfl⟩⟩

/-! ## Matrices -/

/-- If the evaluation of one operation gives a matrix, it is the one that belongs to its gate. -/
theorem Within.between_eq_ok (h : Within meaning own d op) {m : DenseMatrix κ}
    (hm : between meaning [op] op.qubits op.qubits = .ok m) : m = own op.gate := by
  have hn : op.qubits.Nodup := h.fits.nodup
  rw [between_eq] at hm
  obtain ⟨ls, hleaves, hm⟩ := bind_eq_ok.mp hm
  have hone : ∀ o ∈ [op], Within meaning own d o := by simpa using h
  have hrenders := renders_leaves hone (Prod.ext hleaves rfl)
  rw [assemble_eq hn hn hrenders.nodup] at hm
  simp only at hm
  split at hm
  · cases hm
  · obtain rfl := Except.ok.inj hm
    exact ofFn_amplitude hn h.fits.sized hrenders.act

/-- On few qubits and within the depth that is allowed, the evaluation gives this matrix. -/
theorem Within.between_eq (h : Within meaning own d op) (hd : d ≤ maxDecompositionDepth)
    (hq : op.qubits.length ≤ maxDenseQubits) :
    between meaning [op] op.qubits op.qubits = .ok (own op.gate) := by
  have hn : op.qubits.Nodup := h.fits.nodup
  have hone : ∀ o ∈ [op], Within meaning own d o := by simpa using h
  obtain ⟨ls, p', hleaves⟩ := exists_leaves hone (Nat.lt_succ_of_le hd) {}
  have hrenders := renders_leaves hone hleaves
  have hwidth : (op.qubits ++ op.qubits ++ ls.flatMap Leaf.qubits).toFinset.card ≤ maxDenseQubits := by
    refine Nat.le_trans (Finset.card_le_card fun q hq => ?_)
      (Nat.le_trans (List.toFinset_card_le op.qubits) hq)
    rw [List.mem_toFinset, List.mem_append, List.mem_append, or_self] at hq
    refine List.mem_toFinset.mpr (hq.elim id fun hq => ?_)
    simpa using hrenders.subset hq
  rw [Dense.between_eq, show ((leaves meaning (maxDecompositionDepth + 1) [op]).run {}).1 = .ok ls from
    congrArg Prod.fst hleaves]
  show assemble op.qubits op.qubits ls = _
  rw [assemble_eq hn hn hrenders.nodup]
  simp only [if_neg (Nat.not_lt.mpr hwidth)]
  exact congrArg Except.ok (ofFn_amplitude hn h.fits.sized hrenders.act)

end BloqCircuit.Dense
