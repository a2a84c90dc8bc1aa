import BloqCircuit.Error
/-! Outcomes of stateful computations that may fail: what a computation gives, and how it fails. -/
namespace BloqCircuit

variable {σ τ υ : Type} {s t u : σ} {x : τ} {y : υ} {e e' : Error}

/-- From state `s` the computation succeeds with `x` in state `t`. -/
def Gives (m : ExceptT Error (StateM σ) τ) (s : σ) (x : τ) (t : σ) : Prop :=
  m.run s = (.ok x, t)

/-- From state `s` the computation fails with `e`. -/
def Fails (m : ExceptT Error (StateM σ) τ) (s : σ) (e : Error) : Prop :=
  (m.run s).1 = .error e

theorem bind_eq_ok {m : Except Error τ} {f : τ → Except Error υ} :
    (m >>= f) = .ok y ↔ ∃ x, m = .ok x ∧ f x = .ok y := by
  cases m with
  | error e => simp [bind, Except.bind]
  | ok x => simp [bind, Except.bind]

theorem bind_eq_error {m : Except Error τ} {f : τ → Except Error υ} :
    (m >>= f) = .error e ↔ m = .error e ∨ ∃ x, m = .ok x ∧ f x = .error e := by
  cases m with
  | error e => simp [bind, Except.bind]
  | ok x => simp [bind, Except.bind]

theorem mapM_eq_ok {f : τ → Except Error υ} {g : τ → υ} {xs : List τ}
    (h : ∀ x ∈ xs, f x = .ok (g x)) : xs.mapM f = .ok (xs.map g) := by
  induction xs with
  | nil => rfl
  | cons x xs ih =>
    rw [List.mapM_cons, h x List.mem_cons_self, ih fun y hy => h y (List.mem_cons_of_mem _ hy)]
    rfl

theorem mapM_map_eq_ok {ι : Type} {f : τ → Except Error υ} {g : ι → τ} {h : ι → υ} {xs : List ι}
    (hf : ∀ x ∈ xs, f (g x) = .ok (h x)) : (xs.map g).mapM f = .ok (xs.map h) := by
  induction xs with
  | nil => rfl
  | cons x xs ih =>
    rw [List.map_cons, List.mapM_cons, hf x List.mem_cons_self,
      ih fun y hy => hf y (List.mem_cons_of_mem _ hy)]
    rfl

/-- What a traversal gives, it gave for a member of the list. -/
theorem exists_of_mapM_eq_ok {f : τ → Except Error υ} {xs : List τ} {ys : List υ}
    (h : xs.mapM f = .ok ys) (hy : y ∈ ys) : ∃ x ∈ xs, f x = .ok y := by
  induction xs generalizing ys with
  | nil =>
    cases h
    cases hy
  | cons x xs ih =>
    rw [List.mapM_cons] at h
    obtain ⟨z, hz, h⟩ := bind_eq_ok.mp h
    obtain ⟨zs, hzs, h⟩ := bind_eq_ok.mp h
    cases h
    rcases List.mem_cons.mp hy with rfl | hy
    · exact ⟨x, List.mem_cons_self, hz⟩
    · obtain ⟨x', hx', hf⟩ := ih hzs hy
      exact ⟨x', List.mem_cons_of_mem _ hx', hf⟩

/-- A traversal fails as it did for a member of the list. -/
theorem exists_of_mapM_eq_error {f : τ → Except Error υ} {xs : List τ} (h : xs.mapM f = .error e) :
    ∃ x ∈ xs, f x = .error e := by
  induction xs with
  | nil => cases h
  | cons x xs ih =>
    rw [List.mapM_cons] at h
    rcases bind_eq_error.mp h with hx | ⟨y, -, h⟩
    · exact ⟨x, List.mem_cons_self, hx⟩
    · rcases bind_eq_error.mp h with hxs | ⟨ys, -, h⟩
      · obtain ⟨x', hx', hf⟩ := ih hxs
        exact ⟨x', List.mem_cons_of_mem _ hx', hf⟩
      · cases h

/-- A traversal that comes to a failing member fails. -/
theorem exists_mapM_eq_error {f : τ → Except Error υ} {xs : List τ} (hx : x ∈ xs)
    (hf : f x = .error e) : ∃ e', xs.mapM f = .error e' := by
  induction xs with
  | nil => cases hx
  | cons y ys ih =>
    rw [List.mapM_cons]
    cases hy : f y with
    | error e' => exact ⟨e', rfl⟩
    | ok z =>
      rcases List.mem_cons.mp hx with rfl | hx
      · rw [hf] at hy
        cases hy
      · obtain ⟨e', htail⟩ := ih hx
        rw [htail]
        exact ⟨e', rfl⟩

theorem exists_eq_ok_of_mapM {f : τ → Except Error υ} {xs : List τ} {ys : List υ}
    (h : xs.mapM f = .ok ys) (hx : x ∈ xs) : ∃ y, f x = .ok y := by
  cases hf : f x with
  | ok y => exact ⟨y, rfl⟩
  | error e =>
    obtain ⟨e', herror⟩ := exists_mapM_eq_error hx hf
    cases h.symm.trans herror

theorem run_bind {ε : Type} (m : ExceptT ε (StateM σ) τ) (f : τ → ExceptT ε (StateM σ) υ) (s : σ) :
    (m >>= f).run s = match m.run s with
      | (.ok x, t) => (f x).run t
      | (.error e, t) => (.error e, t) := by
  simp only [bind, ExceptT.bind, ExceptT.run, ExceptT.mk, StateT.bind]
  rcases m s with ⟨r, t⟩
  cases r <;> rfl

theorem run_map (f : τ → υ) (m : ExceptT Error (StateM σ) τ) (s : σ) :
    (f <$> m).run s = ((m.run s).1.map f, (m.run s).2) := by
  rw [← bind_pure_comp, run_bind]
  rcases m.run s with ⟨r, t⟩
  cases r <;> rfl

theorem run_lift (m : Except Error τ) (s : σ) :
    (liftM m : ExceptT Error (StateM σ) τ).run s = (m, s) := by
  cases m <;> rfl

theorem run_mapM_lift {ι : Type} (a : ι → Except Error τ) (xs : List ι) (s : σ) :
    (xs.mapM fun x => (liftM (a x) : ExceptT Error (StateM σ) τ)).run s = (xs.mapM a, s) := by
  induction xs with
  | nil => rfl
  | cons x xs ih =>
    rw [List.mapM_cons, List.mapM_cons, run_bind, run_lift]
    cases a x with
    | error e => rfl
    | ok y =>
      dsimp only
      rw [run_bind, ih]
      cases xs.mapM a <;> rfl

theorem run_tryCatch (m : ExceptT Error (StateM σ) τ) (handle : Error → ExceptT Error (StateM σ) τ)
    (s : σ) : (tryCatch m handle).run s = match m.run s with
      | (.ok x, t) => (.ok x, t)
      | (.error e, t) => (handle e).run t := by
  simp only [tryCatch, tryCatchThe, MonadExceptOf.tryCatch, ExceptT.tryCatch, ExceptT.run, ExceptT.mk,
    bind, StateT.bind]
  rcases m s with ⟨r, t⟩
  cases r <;> rfl

/-! ## What a computation gives -/

theorem gives_bind {m : ExceptT Error (StateM σ) τ} {f : τ → ExceptT Error (StateM σ) υ} :
    Gives (m >>= f) s y u ↔ ∃ x t, Gives m s x t ∧ Gives (f x) t y u := by
  unfold Gives
  rw [run_bind]
  rcases m.run s with ⟨r, t⟩
  cases r with
  | error e =>
    constructor
    · intro h
      cases h
    · rintro ⟨x, t', h, -⟩
      cases h
  | ok x =>
    constructor
    · intro h
      exact ⟨x, t, rfl, h⟩
    · rintro ⟨x', t', h, hf⟩
      cases h
      exact hf

@[simp] theorem gives_pure {z : τ} :
    Gives (pure z : ExceptT Error (StateM σ) τ) s x t ↔ z = x ∧ s = t := by
  constructor
  · intro h
    cases h
    exact ⟨rfl, rfl⟩
  · rintro ⟨rfl, rfl⟩
    rfl

@[simp] theorem gives_throw :
    Gives (throw e : ExceptT Error (StateM σ) τ) s x t ↔ False := by
  constructor
  · intro h
    cases h
  · exact False.elim

@[simp] theorem gives_get {r : σ} :
    Gives (get : ExceptT Error (StateM σ) σ) s r t ↔ s = r ∧ s = t := by
  constructor
  · intro h
    cases h
    exact ⟨rfl, rfl⟩
  · rintro ⟨rfl, rfl⟩
    rfl

@[simp] theorem gives_set {r : σ} {z : PUnit} :
    Gives (set r : ExceptT Error (StateM σ) PUnit) s z t ↔ r = t := by
  constructor
  · intro h
    cases h
    rfl
  · rintro rfl
    rfl

@[simp] theorem gives_modify {f : σ → σ} {z : PUnit} :
    Gives (modify f : ExceptT Error (StateM σ) PUnit) s z t ↔ f s = t := by
  constructor
  · intro h
    cases h
    rfl
  · rintro rfl
    rfl

@[simp] theorem gives_lift {m : Except Error τ} :
    Gives (liftM m : ExceptT Error (StateM σ) τ) s x t ↔ m = .ok x ∧ s = t := by
  constructor
  · intro h
    cases m with
    | error e => cases h
    | ok z =>
      cases h
      exact ⟨rfl, rfl⟩
  · rintro ⟨rfl, rfl⟩
    rfl

@[simp] theorem gives_act {m : StateM σ τ} :
    Gives (liftM m : ExceptT Error (StateM σ) τ) s x t ↔ m s = (x, t) := by
  constructor
  · intro h
    have h : (Except.ok (m s).1, (m s).2) = ((Except.ok x : Except Error τ), t) := h
    rw [Prod.mk.injEq, Except.ok.injEq] at h
    exact Prod.ext h.1 h.2
  · intro h
    show (Except.ok (m s).1, (m s).2) = ((Except.ok x : Except Error τ), t)
    rw [h]

theorem lift_ok_bind (x : τ) (f : τ → ExceptT Error (StateM σ) υ) :
    (liftM (Except.ok x : Except Error τ) >>= f) = f x := rfl

theorem Gives.unique {m : ExceptT Error (StateM σ) τ} {x' : τ} {t' : σ}
    (h : Gives m s x t) (h' : Gives m s x' t') : x = x' ∧ t = t' := by
  have hr : ((.ok x : Except Error τ), t) = (.ok x', t') := h.symm.trans h'
  rw [Prod.mk.injEq, Except.ok.injEq] at hr
  exact hr

/-! ## What a failure leaves -/

/-- From state `s` the computation fails with `e` and leaves state `t`. -/
def Leaves (m : ExceptT Error (StateM σ) τ) (s : σ) (e : Error) (t : σ) : Prop :=
  m.run s = (.error e, t)

theorem leaves_bind {m : ExceptT Error (StateM σ) τ} {f : τ → ExceptT Error (StateM σ) υ} :
    Leaves (m >>= f) s e u ↔ Leaves m s e u ∨ ∃ x t, Gives m s x t ∧ Leaves (f x) t e u := by
  unfold Leaves Gives
  rw [run_bind]
  rcases m.run s with ⟨r, t⟩
  cases r with
  | error e' =>
    constructor
    · intro h
      cases h
      exact .inl rfl
    · rintro (h | ⟨x, t', h, -⟩)
      · cases h
        rfl
      · cases h
  | ok x =>
    constructor
    · intro h
      exact .inr ⟨x, t, rfl, h⟩
    · rintro (h | ⟨x', t', h, hf⟩)
      · cases h
      · cases h
        exact hf

@[simp] theorem leaves_pure {z : τ} :
    Leaves (pure z : ExceptT Error (StateM σ) τ) s e t ↔ False := by
  constructor
  · intro h
    cases h
  · exact False.elim

@[simp] theorem leaves_throw :
    Leaves (throw e' : ExceptT Error (StateM σ) τ) s e t ↔ e' = e ∧ s = t := by
  constructor
  · intro h
    cases h
    exact ⟨rfl, rfl⟩
  · rintro ⟨rfl, rfl⟩
    rfl

@[simp] theorem leaves_get : Leaves (get : ExceptT Error (StateM σ) σ) s e t ↔ False := by
  constructor
  · intro h
    cases h
  · exact False.elim

@[simp] theorem leaves_set {r : σ} :
    Leaves (set r : ExceptT Error (StateM σ) PUnit) s e t ↔ False := by
  constructor
  · intro h
    cases h
  · exact False.elim

@[simp] theorem leaves_modify {f : σ → σ} :
    Leaves (modify f : ExceptT Error (StateM σ) PUnit) s e t ↔ False := by
  constructor
  · intro h
    cases h
  · exact False.elim

@[simp] theorem leaves_lift {m : Except Error τ} :
    Leaves (liftM m : ExceptT Error (StateM σ) τ) s e t ↔ m = .error e ∧ s = t := by
  constructor
  · intro h
    cases m with
    | error e' =>
      cases h
      exact ⟨rfl, rfl⟩
    | ok z => cases h
  · rintro ⟨rfl, rfl⟩
    rfl

/-! ## How a computation fails -/

theorem fails_iff_leaves {m : ExceptT Error (StateM σ) τ} : Fails m s e ↔ ∃ t, Leaves m s e t :=
  ⟨fun h => ⟨(m.run s).2, Prod.ext h rfl⟩, fun ⟨_, h⟩ => congrArg Prod.fst h⟩

theorem gives_or_fails (m : ExceptT Error (StateM σ) τ) (s : σ) :
    (∃ x t, Gives m s x t) ∨ ∃ e, Fails m s e := by
  rcases hrun : m.run s with ⟨result, t⟩
  cases result with
  | ok x => exact .inl ⟨x, t, hrun⟩
  | error e => exact .inr ⟨e, congrArg Prod.fst hrun⟩

theorem Gives.not_fails {m : ExceptT Error (StateM σ) τ} (h : Gives m s x t) : ¬Fails m s e := by
  intro hf
  rw [Fails, h] at hf
  cases hf

theorem Fails.unique {m : ExceptT Error (StateM σ) τ} (h : Fails m s e) (h' : Fails m s e') : e = e' :=
  Except.error.inj (h.symm.trans h')

theorem fails_bind {m : ExceptT Error (StateM σ) τ} {f : τ → ExceptT Error (StateM σ) υ} :
    Fails (m >>= f) s e ↔ Fails m s e ∨ ∃ x t, Gives m s x t ∧ Fails (f x) t e := by
  simp only [fails_iff_leaves, leaves_bind, exists_or]
  refine or_congr_right ⟨?_, ?_⟩
  · rintro ⟨u, x, t, hm, hf⟩
    exact ⟨x, t, hm, u, hf⟩
  · rintro ⟨x, t, hm, u, hf⟩
    exact ⟨u, x, t, hm, hf⟩

@[simp] theorem fails_pure {z : τ} :
    Fails (pure z : ExceptT Error (StateM σ) τ) s e ↔ False := by
  simp [fails_iff_leaves]

@[simp] theorem fails_throw :
    Fails (throw e' : ExceptT Error (StateM σ) τ) s e ↔ e' = e := by
  simp [fails_iff_leaves]

@[simp] theorem fails_get : Fails (get : ExceptT Error (StateM σ) σ) s e ↔ False := by
  simp [fails_iff_leaves]

@[simp] theorem fails_set {r : σ} :
    Fails (set r : ExceptT Error (StateM σ) PUnit) s e ↔ False := by
  simp [fails_iff_leaves]

@[simp] theorem fails_modify {f : σ → σ} :
    Fails (modify f : ExceptT Error (StateM σ) PUnit) s e ↔ False := by
  simp [fails_iff_leaves]

@[simp] theorem fails_lift {m : Except Error τ} :
    Fails (liftM m : ExceptT Error (StateM σ) τ) s e ↔ m = .error e := by
  simp [fails_iff_leaves]

end BloqCircuit
