import BloqCircuit.Proofs.Evaluation
import BloqCircuit.Proofs.Flow
/-! More levels of nesting change no matrix that fewer levels give. -/
namespace BloqCircuit

/-! ## Matrices of gates -/

section
variable {α κ : Type} [Angle α] [Amplitude κ] [Rotation α κ]
  {dense dense' : Composite (Bloq α κ) → Except Error (DenseMatrix κ)} {levels : Nat}

mutual
/-- A gate's matrix depends on tensors only of composites that are nested in it. -/
theorem Gate.unitaryWith_mono (h : ∀ c m, (Bloq.composite c).nesting ≤ levels → dense c = .ok m →
    dense' c = .ok m) : (g : Gate α κ) → g.nesting ≤ levels → ∀ {r}, g.unitaryWith dense = .ok r →
    g.unitaryWith dense' = .ok r
  | .standard g, _, r, hr => by
    rw [Gate.unitaryWith] at hr ⊢
    exact hr
  | .declared d, _, r, hr => by
    rw [Gate.unitaryWith] at hr ⊢
    exact hr
  | .nest n, _, r, hr => by
    rw [Gate.unitaryWith] at hr ⊢
    exact hr
  | .ofBloq b, hn, r, hr => by
    rw [Gate.nesting] at hn
    rw [Gate.unitaryWith] at hr ⊢
    by_cases ht : (!b.signature.allThru) = true
    · rw [if_pos ht] at hr ⊢
      exact hr
    · rw [if_neg ht] at hr ⊢
      -- only a bloq that cannot be decomposed needs a tensor
      cases hd : b.decomposition with
      | ok c =>
        rw [hd] at hr
        exact hr
      | error e =>
        rw [hd] at hr
        dsimp only at hr ⊢
        by_cases he : (!e.isDecomposeUnavailable) = true
        · rw [if_pos he] at hr ⊢
          exact hr
        · rw [if_neg he] at hr ⊢
          obtain ⟨m, hm, hr⟩ := bind_eq_ok.mp hr
          exact bind_eq_ok.mpr ⟨m, Bloq.tensorWith_mono h b hn hm, hr⟩

theorem Bloq.tensorWith_mono (h : ∀ c m, (Bloq.composite c).nesting ≤ levels → dense c = .ok m →
    dense' c = .ok m) : (b : Bloq α κ) → b.nesting ≤ levels → ∀ {r}, b.tensorWith dense = .ok r →
    b.tensorWith dense' = .ok r
  | .split t, _, r, hr => by
    rw [Bloq.tensorWith] at hr ⊢
    exact hr
  | .join t, _, r, hr => by
    rw [Bloq.tensorWith] at hr ⊢
    exact hr
  | .allocate t, _, r, hr => by
    rw [Bloq.tensorWith] at hr ⊢
    exact hr
  | .free t, _, r, hr => by
    rw [Bloq.tensorWith] at hr ⊢
    exact hr
  | .adjoint b, hn, r, hr => by
    rw [Bloq.nesting] at hn
    rw [Bloq.tensorWith] at hr ⊢
    obtain ⟨m, hm, hr⟩ := bind_eq_ok.mp hr
    exact bind_eq_ok.mpr ⟨m, Bloq.tensorWith_mono h b hn hm, hr⟩
  | .power b n, hn, r, hr => by
    rw [Bloq.nesting] at hn
    rw [Bloq.tensorWith] at hr ⊢
    obtain ⟨m, hm, hr⟩ := bind_eq_ok.mp hr
    exact bind_eq_ok.mpr ⟨m, Bloq.tensorWith_mono h b hn hm, hr⟩
  | .ofGate g, hn, r, hr => by
    rw [Bloq.nesting] at hn
    rw [Bloq.tensorWith] at hr ⊢
    exact Gate.unitaryWith_mono h g hn hr
  | .composite c, hn, r, hr => by
    rw [Bloq.tensorWith] at hr ⊢
    cases hd : dense c with
    | error e =>
      rw [hd] at hr
      cases hr
    | ok m =>
      rw [h c m hn hd, ← hd]
      exact hr
  | .declared d, _, r, hr => by
    rw [Bloq.tensorWith] at hr ⊢
    exact hr
end

end

/-! ## Evaluation -/

namespace Dense
variable {γ κ : Type} [GateKind γ] {meaning meaning' : GateMeaning γ κ}

/-- A run over a list depends only on the runs of its members that the list makes. -/
theorem gives_mapM_mono {σ ι β : Type} {f g : ι → ExceptT Error (StateM σ) β}
    (h : ∀ x s y t, Gives (f x) s y t → Gives (g x) s y t) {xs : List ι} {ys : List β} {s t : σ}
    (hf : Gives (xs.mapM f) s ys t) : Gives (xs.mapM g) s ys t := by
  induction xs generalizing s ys t with
  | nil => exact hf
  | cons x xs ih =>
    rw [List.mapM_cons] at hf ⊢
    obtain ⟨y, s₁, hy, hf⟩ := gives_bind.mp hf
    obtain ⟨ys', s₂, hys, hf⟩ := gives_bind.mp hf
    exact gives_bind.mpr ⟨y, s₁, h x s y s₁ hy, gives_bind.mpr ⟨ys', s₂, ih hys, hf⟩⟩

/-- Evaluation that succeeds does so with any meaning that agrees where matrices are known. -/
theorem leaves_mono (hd : meaning.decompose = meaning'.decompose)
    (hu : ∀ {g r}, meaning.unitary g = .ok r → meaning'.unitary g = .ok r) {levels : Nat}
    {ops : List (Operation γ)} {s t : CleanPool} {ls : List (Leaf κ)}
    (h : Gives (leaves meaning levels ops) s ls t) : Gives (leaves meaning' levels ops) s ls t := by
  induction levels generalizing ops s t ls with
  | zero => cases ops <;> exact h
  | succ levels ih =>
    rw [leaves_succ] at h ⊢
    obtain ⟨parts, s', hparts, h⟩ := gives_bind.mp h
    refine gives_bind.mpr ⟨parts, s', gives_mapM_mono (fun op s y t hpart => ?_) hparts, h⟩
    obtain ⟨r, s₁, hr, hpart⟩ := gives_bind.mp hpart
    obtain ⟨hr', rfl⟩ := gives_lift.mp hr
    refine gives_bind.mpr ⟨r, _, gives_lift.mpr ⟨hu hr', rfl⟩, ?_⟩
    cases r with
    | some m => exact hpart
    | none =>
      obtain ⟨inner, s₂, hinner, hpart⟩ := gives_bind.mp hpart
      refine gives_bind.mpr ⟨inner, s₂, hd ▸ hinner, ?_⟩
      cases inner with
      | some inner => exact ih hpart
      | none => exact hpart

variable [Amplitude κ]

theorem between_mono (hd : meaning.decompose = meaning'.decompose)
    (hu : ∀ {g r}, meaning.unitary g = .ok r → meaning'.unitary g = .ok r)
    {ops : List (Operation γ)} {inputs outputs : List Qubit} {m : DenseMatrix κ}
    (h : between meaning ops inputs outputs = .ok m) : between meaning' ops inputs outputs = .ok m := by
  rw [between_eq] at h ⊢
  obtain ⟨ls, hls, h⟩ := bind_eq_ok.mp h
  have hgives : Gives (leaves meaning (maxDecompositionDepth + 1) ops) {} ls _ := Prod.ext hls rfl
  exact bind_eq_ok.mpr ⟨ls, congrArg Prod.fst (leaves_mono hd hu hgives), h⟩

end Dense

section
variable {α κ : Type} [Angle α] [Amplitude κ] [Rotation α κ] {c : Composite (Bloq α κ)}
  {m : DenseMatrix κ} {levels levels' : Nat}

theorem Composite.tensorWithin_mono (h : c.tensorWithin levels = .ok m) (hle : levels ≤ levels') :
    c.tensorWithin levels' = .ok m := by
  induction levels generalizing c m levels' with
  | zero => cases h
  | succ levels ih =>
    obtain ⟨levels', rfl⟩ : ∃ k, levels' = k + 1 := ⟨levels' - 1, by omega⟩
    rw [tensorWithin] at h ⊢
    split at h
    · cases h
    · obtain ⟨⟨inputs, circuit, out⟩, hparts, h⟩ := bind_eq_ok.mp h
      obtain ⟨outputs, hout, h⟩ := bind_eq_ok.mp h
      refine bind_eq_ok.mpr ⟨(inputs, circuit, out), hparts, bind_eq_ok.mpr ⟨outputs, hout, ?_⟩⟩
      -- the two meanings differ only in the tensors of nested composites
      let meaning (n : Nat) : GateMeaning (Gate α κ) κ :=
        ⟨Gate.unitaryWith (tensorWithin n), Gate.decompose⟩
      have hmono {g : Gate α κ} {r : Option (DenseMatrix κ)}
          (hr : (meaning levels).unitary g = .ok r) : (meaning levels').unitary g = .ok r :=
        Gate.unitaryWith_mono (fun c m _ hm => ih hm (Nat.le_of_succ_le_succ hle)) g
          (Nat.le_refl g.nesting) hr
      have hdecompose : (meaning levels).decompose = (meaning levels').decompose := rfl
      exact Dense.between_mono hdecompose hmono h

/-- On sufficiently many levels a gate has its matrix. -/
theorem Gate.unitaryWith_of_unitary {g : Gate α κ} {r : Option (DenseMatrix κ)}
    (h : g.unitary = .ok r) (hle : g.nesting ≤ levels) :
    g.unitaryWith (Composite.tensorWithin levels) = .ok r :=
  Gate.unitaryWith_mono (fun _ _ hn hm => Composite.tensorWithin_mono hm hn) g hle h

omit [Angle α] [Amplitude κ] [Rotation α κ] in
/-- What a bloq emits is nested no deeper than the bloq. -/
theorem Bloq.nesting_of_emits {b : Bloq α κ} {g : Gate α κ} (h : b.emits = some g) :
    g.nesting = b.nesting := by
  cases b with
  | split t => cases h
  | join t => cases h
  | allocate t => cases h
  | free t => cases h
  | ofGate g' =>
    cases h
    rw [Bloq.nesting]
  | _ =>
    cases h
    rw [Gate.nesting]

omit [Angle α] [Amplitude κ] [Rotation α κ] in
theorem nesting_le_of_mem {is : List (Instance (Bloq α κ))} {x : Instance (Bloq α κ)} (h : x ∈ is) :
    x.bloq.nesting ≤ instancesNesting is := by
  induction is with
  | nil => cases h
  | cons y is ih =>
    obtain ⟨n, b⟩ := y
    rw [instancesNesting]
    rcases List.mem_cons.mp h with rfl | h
    · exact Nat.le_max_left _ _
    · exact Nat.le_trans (ih h) (Nat.le_max_right _ _)

end
end BloqCircuit
