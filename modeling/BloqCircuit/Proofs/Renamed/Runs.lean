import BloqCircuit.Proofs.Pools
import BloqCircuit.Wrapped
/-! Two runs of a computation that allocates, one of them with the qubits renamed. They run alike as
long as the renaming keeps the ancillas that are taken on the way. -/
namespace BloqCircuit

/-! ## Outcomes -/

/-- Outcomes that agree: the second result is the first one under `g`, or both are failures of one
kind. -/
inductive Agree {τ υ : Type} (g : τ → υ) : Except Error τ → Except Error υ → Prop
  | ok (x : τ) : Agree g (.ok x) (.ok (g x))
  | error {e e' : Error} (h : e'.kind = e.kind) : Agree g (.error e) (.error e')

namespace Agree
variable {τ υ τ' υ' : Type} {g : τ → υ} {g' : τ' → υ'}

theorem of_map {m : Except Error τ} {m' : Except Error υ} (h : m' = m.map g) : Agree g m m' := by
  subst h
  cases m with
  | error e => exact .error rfl
  | ok x => exact .ok x

/-- What a success agrees with is one. -/
theorem eq_ok {x : τ} {m' : Except Error υ} (h : Agree g (.ok x) m') : m' = .ok (g x) := by
  cases h with
  | ok x => rfl

/-- What a failure agrees with is one of its kind. -/
theorem exists_error {e : Error} {m' : Except Error υ} (h : Agree g (.error e) m') :
    ∃ e', m' = .error e' ∧ e'.kind = e.kind := by
  cases h with
  | error he => exact ⟨_, rfl, he⟩

theorem bind {m : Except Error τ} {m' : Except Error υ} {k : τ → Except Error τ'}
    {k' : υ → Except Error υ'} (h : Agree g m m') (hk : ∀ x, Agree g' (k x) (k' (g x))) :
    Agree g' (m >>= k) (m' >>= k') := by
  cases h with
  | ok x => exact hk x
  | error he => exact .error he

/-- Runs over one list agree if those of its members do. -/
theorem mapM {ι : Type} {a : ι → Except Error τ} {a' : ι → Except Error υ} {xs : List ι}
    (h : ∀ x ∈ xs, Agree g (a x) (a' x)) : Agree (List.map g) (xs.mapM a) (xs.mapM a') := by
  induction xs with
  | nil => exact .ok []
  | cons x xs ih =>
    rw [List.mapM_cons, List.mapM_cons]
    refine (h x List.mem_cons_self).bind fun y => ?_
    refine (ih fun z hz => h z (List.mem_cons_of_mem _ hz)).bind fun ys => ?_
    exact .ok (y :: ys)

end Agree

/-! ## Sets of qubits -/

variable {f : Qubit ↪ Qubit}

/-- The second set has of the renamed qubits those whose old names are in the first one. -/
def QubitSet.Alike (f : Qubit ↪ Qubit) (s s' : QubitSet) : Prop := ∀ q, f q ∈ s' ↔ q ∈ s

namespace QubitSet
variable {s s' : QubitSet}

theorem alike_empty : Alike f ∅ ∅ := fun q => by simp

theorem Alike.insertMany (h : Alike f s s') (qs : List Qubit) :
    Alike f (s.insertMany qs) (s'.insertMany (qs.map f)) := by
  intro q
  rw [mem_insertMany, mem_insertMany, h q, List.mem_map_of_injective f.injective]

theorem Alike.eraseMany (h : Alike f s s') (qs : List Qubit) :
    Alike f (s.eraseMany qs) (s'.eraseMany (qs.map f)) := by
  intro q
  rw [mem_eraseMany, mem_eraseMany, h q, List.mem_map_of_injective f.injective]

theorem Alike.erase (h : Alike f s s') (q : Qubit) : Alike f (s.erase q) (s'.erase (f q)) := by
  intro x
  rw [Std.ExtTreeSet.mem_erase, Std.ExtTreeSet.mem_erase, h x, ne_eq, ne_eq,
    Std.LawfulEqOrd.compare_eq_iff_eq, Std.LawfulEqOrd.compare_eq_iff_eq, f.injective.eq_iff]

theorem Alike.contains (h : Alike f s s') (q : Qubit) : s'.contains (f q) = s.contains q := by
  rw [Bool.eq_iff_iff, Std.ExtTreeSet.contains_iff_mem, Std.ExtTreeSet.contains_iff_mem, h q]

/-- The first qubits of two lists that are not in the sets. -/
theorem Alike.find? (h : Alike f s s') (qs : List Qubit) :
    (qs.map f).find? (fun q => !s'.contains q) = (qs.find? fun q => !s.contains q).map f := by
  rw [List.find?_map]
  simp only [Function.comp_def, h.contains]

end QubitSet

/-! ## States of allocation -/

/-- States of allocation up to the names of qubits. The numbers of ancillas are not renamed, so that
states are alike only if they hand out the same ancillas. -/
class Nominal (σ : Type) [Allocator σ] where
  /-- The number of the next ancilla. -/
  next : σ → UInt32
  /-- The second state is the first one with the qubits renamed. -/
  Alike (f : Qubit ↪ Qubit) : σ → σ → Prop
  alloc (f : Qubit ↪ Qubit) {s s' : σ} (n : Nat) : Alike f s s' →
    (∀ q ∈ CleanPool.fresh (next s) n, f q = q) →
    (Allocator.alloc n s').1 = (Allocator.alloc n s).1.map f ∧
      Alike f (Allocator.alloc n s).2 (Allocator.alloc n s').2 ∧
      next (Allocator.alloc n s).2 = next s + UInt32.ofNat n
  free (f : Qubit ↪ Qubit) {s s' : σ} (qs : List Qubit) : Alike f s s' →
    Agree id ((Allocator.free qs).run s).1 ((Allocator.free (qs.map f)).run s').1 ∧
      Alike f ((Allocator.free qs).run s).2 ((Allocator.free (qs.map f)).run s').2 ∧
      next ((Allocator.free qs).run s).2 = next s

/-- Pools with the same next ancilla whose sets are alike. -/
structure CleanPool.Alike (f : Qubit ↪ Qubit) (p p' : CleanPool) : Prop where
  next : p'.next = p.next
  inUse : QubitSet.Alike f p.inUse p'.inUse

instance : Nominal CleanPool where
  next := CleanPool.next
  Alike := CleanPool.Alike
  alloc f {p p'} n h hn := by
    have hmap := map_kept hn
    show CleanPool.fresh p'.next n = (CleanPool.fresh p.next n).map f ∧
      CleanPool.Alike f (p.alloc n).2 (p'.alloc n).2 ∧ _
    refine ⟨by rw [h.next, hmap], ⟨?_, ?_⟩, rfl⟩
    · show p'.next + _ = p.next + _
      rw [h.next]
    · have hin := h.inUse.insertMany (CleanPool.fresh p.next n)
      rw [hmap, ← h.next] at hin
      show QubitSet.Alike f (p.inUse.insertMany (CleanPool.fresh p.next n)) _
      rw [← h.next]
      exact hin
  free f {p p'} qs h := by
    show Agree id (p.free qs).1 (p'.free (qs.map f)).1 ∧
      CleanPool.Alike f (p.free qs).2 (p'.free (qs.map f)).2 ∧ (p.free qs).2.next = p.next
    unfold CleanPool.free CleanPool.firstUnused
    rw [h.inUse.find?]
    cases qs.find? fun q => !p.inUse.contains q with
    | some q => exact ⟨.error rfl, h, rfl⟩
    | none => exact ⟨.ok (), ⟨h.next, h.inUse.eraseMany qs⟩, rfl⟩

namespace Scope
variable {σ : Type} [Allocator σ] [Nominal σ] {s s' : Scope σ}

/-- Scopes on top of alike states whose sets are alike. -/
structure Alike (f : Qubit ↪ Qubit) (s s' : Scope σ) : Prop where
  base : Nominal.Alike f s.base s'.base
  managed : QubitSet.Alike f s.managed s'.managed
  declared : QubitSet.Alike f s.declared s'.declared

theorem Alike.declare (h : Alike f s s') (qs : List Qubit) :
    Alike f (s.declare qs) (s'.declare (qs.map f)) :=
  ⟨h.base, h.managed.insertMany qs, h.declared.insertMany qs⟩

theorem Alike.foldl_releaseOne (h : Alike f s s') (owned qs : List Qubit) :
    ((qs.map f).foldl releaseOne (owned.map f, s')).1 =
        (qs.foldl releaseOne (owned, s)).1.map f ∧
      Alike f (qs.foldl releaseOne (owned, s)).2
        ((qs.map f).foldl releaseOne (owned.map f, s')).2 := by
  induction qs generalizing owned s s' with
  | nil => exact ⟨rfl, h⟩
  | cons q qs ih =>
    rw [List.map_cons, List.foldl_cons, List.foldl_cons, releaseOne, releaseOne,
      h.declared.contains]
    have hrest : Alike f { s with managed := s.managed.erase q, declared := s.declared.erase q }
        { s' with managed := s'.managed.erase (f q), declared := s'.declared.erase (f q) } :=
      ⟨h.base, h.managed.erase q, h.declared.erase q⟩
    cases s.declared.contains q with
    | true => exact ih hrest owned
    | false => exact ih hrest (q :: owned)

theorem Alike.release (h : Alike f s s') (qs : List Qubit) :
    (Scope.release (qs.map f) s').1 = (Scope.release qs s).1.map f ∧
      Alike f (Scope.release qs s).2 (Scope.release (qs.map f) s').2 := by
  obtain ⟨howned, hrest⟩ := h.foldl_releaseOne [] qs
  refine ⟨?_, hrest⟩
  show List.reverse _ = (List.reverse _).map f
  rw [List.map_reverse]
  exact congrArg List.reverse howned

theorem Alike.free (h : Alike f s s') (qs : List Qubit) :
    Agree id (free qs s).1 (free (qs.map f) s').1 ∧
      Alike f (free qs s).2 (free (qs.map f) s').2 ∧
      Nominal.next (free qs s).2.base = Nominal.next s.base := by
  obtain ⟨howned, hrest⟩ := h.release qs
  have hbase : (Scope.release qs s).2.base = s.base := by rw [release_snd]
  unfold Scope.free
  rw [h.managed.find?]
  cases qs.find? fun q => !s.managed.contains q with
  | some q => exact ⟨.error rfl, h, rfl⟩
  | none =>
    -- what was not declared goes back to the base
    generalize Scope.release qs s = r at howned hrest hbase
    generalize Scope.release (qs.map f) s' = r' at howned hrest
    obtain ⟨owned, t⟩ := r
    obtain ⟨owned', t'⟩ := r'
    replace howned : owned' = owned.map f := howned
    replace hbase : t.base = s.base := hbase
    subst howned
    show Agree id (if owned.isEmpty then _ else _ : Except Error Unit × Scope σ).1
      (if (owned.map f).isEmpty then _ else _ : Except Error Unit × Scope σ).1 ∧ _
    simp only [List.isEmpty_map]
    cases hempty : owned.isEmpty with
    | true => exact ⟨.ok (), hrest, congrArg Nominal.next hbase⟩
    | false =>
      obtain ⟨hagree, hfreed, hnext⟩ := Nominal.free f owned hrest.base
      exact ⟨hagree, ⟨hfreed, hrest.managed, hrest.declared⟩,
        hnext.trans (congrArg Nominal.next hbase)⟩

instance : Nominal (Scope σ) where
  next s := Nominal.next s.base
  Alike := Scope.Alike
  alloc f {s s'} n h hn := by
    obtain ⟨hqs, hbase, hnext⟩ := Nominal.alloc f n h.base hn
    have hmanaged := h.managed.insertMany (Allocator.alloc n s.base).1
    rw [← hqs] at hmanaged
    exact ⟨hqs, ⟨hbase, hmanaged, h.declared⟩, hnext⟩
  free f {s s'} qs h := h.free qs

end Scope

/-! ## Runs -/

section
variable {σ τ υ τ' υ' : Type} [Allocator σ] [Nominal σ] {g : τ → υ} {g' : τ' → υ'} {n k : Nat}

/-- The runs of two computations from two states are alike if the renaming keeps the next `n` ancillas:
the outcomes agree, the states are alike at the end, and no more than these ancillas are taken. -/
def AlikeFrom (f : Qubit ↪ Qubit) (n : Nat) (g : τ → υ) (m : AllocM σ τ) (m' : AllocM σ υ)
    (s s' : σ) : Prop :=
  (∀ q ∈ CleanPool.fresh (Nominal.next s) n, f q = q) →
    Agree g (m.run s).1 (m'.run s').1 ∧ Nominal.Alike f (m.run s).2 (m'.run s').2 ∧
      ∃ k ≤ n, Nominal.next (m.run s).2 = Nominal.next s + UInt32.ofNat k

/-- Two computations whose runs from alike states are alike. -/
def Twin (f : Qubit ↪ Qubit) (n : Nat) (g : τ → υ) (m : AllocM σ τ) (m' : AllocM σ υ) : Prop :=
  ∀ ⦃s s' : σ⦄, Nominal.Alike f s s' → AlikeFrom f n g m m' s s'

theorem add_ofNat_zero (next : UInt32) : next + UInt32.ofNat 0 = next := UInt32.add_zero next

namespace AlikeFrom
variable {m : AllocM σ τ} {m' : AllocM σ υ} {a : AllocM σ τ'} {a' : AllocM σ υ'} {s s' t t' : σ}

theorem mono (h : AlikeFrom f k g m m' s s') (hk : k ≤ n) : AlikeFrom f n g m m' s s' := by
  intro hn
  obtain ⟨hagree, halike, j, hj, hnext⟩ := h fun q hq => hn q (CleanPool.fresh_subset_of_le hk hq)
  exact ⟨hagree, halike, j, hj.trans hk, hnext⟩

/-- Runs from states that are no more than `n` ancillas further. -/
theorem further {j : Nat} (h : AlikeFrom f k g' a a' t t') (hj : j ≤ n)
    (hnext : Nominal.next t = Nominal.next s + UInt32.ofNat j)
    (hn : ∀ q ∈ CleanPool.fresh (Nominal.next s) (n + k), f q = q) :
    Agree g' (a.run t).1 (a'.run t').1 ∧ Nominal.Alike f (a.run t).2 (a'.run t').2 ∧
      ∃ i ≤ n + k, Nominal.next (a.run t).2 = Nominal.next s + UInt32.ofNat i := by
  obtain ⟨hagree, halike, i, hi, hlast⟩ := h fun q hq =>
    hn q (CleanPool.fresh_subset hj (hnext ▸ hq))
  refine ⟨hagree, halike, j + i, Nat.add_le_add hj hi, ?_⟩
  rw [hlast, hnext, UInt32.ofNat_add, UInt32.add_assoc]

protected theorem bind {b : τ → AllocM σ τ'} {b' : υ → AllocM σ υ'}
    (h : AlikeFrom f n g m m' s s')
    (hb : ∀ x t t', Gives m s x t → Nominal.Alike f t t' → AlikeFrom f k g' (b x) (b' (g x)) t t') :
    AlikeFrom f (n + k) g' (m >>= b) (m' >>= b') s s' := by
  intro hn
  obtain ⟨hagree, halike, j, hj, hnext⟩ :=
    h fun q hq => hn q (CleanPool.fresh_subset_of_le (Nat.le_add_right n k) hq)
  have hgives : ∀ x t, m.run s = (.ok x, t) → Gives m s x t := fun _ _ h => h
  rw [run_bind, run_bind]
  generalize m.run s = r at hagree halike hnext hgives
  generalize m'.run s' = r' at hagree halike
  obtain ⟨x, t⟩ := r
  obtain ⟨y, t'⟩ := r'
  cases hagree with
  | error he => exact ⟨.error he, halike, j, hj.trans (Nat.le_add_right n k), hnext⟩
  | ok x => exact (hb x t t' (hgives x t rfl) halike).further hj hnext hn

/-- What follows a failure depends on nothing but its kind. -/
protected theorem tryCatch {b : Error → AllocM σ τ} {b' : Error → AllocM σ υ}
    (h : AlikeFrom f n g m m' s s')
    (hb : ∀ e e' t t', e'.kind = e.kind → Nominal.Alike f t t' → AlikeFrom f k g (b e) (b' e') t t') :
    AlikeFrom f (n + k) g (tryCatch m b) (tryCatch m' b') s s' := by
  intro hn
  obtain ⟨hagree, halike, j, hj, hnext⟩ :=
    h fun q hq => hn q (CleanPool.fresh_subset_of_le (Nat.le_add_right n k) hq)
  rw [run_tryCatch, run_tryCatch]
  generalize m.run s = r at hagree halike hnext
  generalize m'.run s' = r' at hagree halike
  obtain ⟨x, t⟩ := r
  obtain ⟨y, t'⟩ := r'
  cases hagree with
  | ok x => exact ⟨.ok x, halike, j, hj.trans (Nat.le_add_right n k), hnext⟩
  | error he => exact (hb _ _ t t' he halike).further hj hnext hn

end AlikeFrom

namespace Twin

theorem lift {m : Except Error τ} {m' : Except Error υ} (h : Agree g m m') :
    Twin (σ := σ) f 0 g (liftM m) (liftM m') := by
  intro s s' hs _
  rw [run_lift, run_lift]
  exact ⟨h, hs, 0, le_rfl, (add_ofNat_zero _).symm⟩

protected theorem pure (x : τ) : Twin (σ := σ) f 0 g (pure x) (pure (g x)) := lift (.ok x)

protected theorem throw {e e' : Error} (h : e'.kind = e.kind) :
    Twin (σ := σ) f 0 g (throw e) (throw e') := lift (.error h)

theorem mono {m : AllocM σ τ} {m' : AllocM σ υ} (h : Twin f k g m m') (hk : k ≤ n) :
    Twin f n g m m' := fun _ _ hs => (h hs).mono hk

protected theorem bind {m : AllocM σ τ} {m' : AllocM σ υ} {a : τ → AllocM σ τ'}
    {a' : υ → AllocM σ υ'} (h : Twin f n g m m') (ha : ∀ x, Twin f k g' (a x) (a' (g x))) :
    Twin f (n + k) g' (m >>= a) (m' >>= a') :=
  fun _ _ hs => (h hs).bind fun x _ _ _ ht => ha x ht

/-- A part that deals with no qubits gives the same in both runs. -/
theorem bind_same {m : Except Error τ} {a : τ → AllocM σ τ'} {a' : τ → AllocM σ υ'}
    (h : ∀ x, m = .ok x → Twin f n g' (a x) (a' x)) :
    Twin f n g' (liftM m >>= a) (liftM m >>= a') := by
  cases m with
  | error e => exact (Twin.throw rfl).mono (Nat.zero_le n)
  | ok x => exact h x rfl

/-- A part that allocates nothing comes first. -/
theorem lift_bind {m : Except Error τ} {m' : Except Error υ} {a : τ → AllocM σ τ'}
    {a' : υ → AllocM σ υ'} (h : Agree g m m') (ha : ∀ x, Twin f n g' (a x) (a' (g x))) :
    Twin f n g' (liftM m >>= a) (liftM m' >>= a') :=
  ((lift h).bind ha).mono (Nat.zero_add n).le

/-- Runs over one list that take nothing are alike if those of its members are. -/
theorem mapM {ι : Type} {a : ι → AllocM σ τ} {a' : ι → AllocM σ υ} {xs : List ι}
    (h : ∀ x ∈ xs, Twin f 0 g (a x) (a' x)) : Twin f 0 (List.map g) (xs.mapM a) (xs.mapM a') := by
  induction xs with
  | nil => exact .pure []
  | cons x xs ih =>
    rw [List.mapM_cons, List.mapM_cons]
    refine (h x List.mem_cons_self).bind (k := 0) fun y => ?_
    refine (ih fun z hz => h z (List.mem_cons_of_mem _ hz)).bind (k := 0) fun ys => ?_
    exact .pure (y :: ys)

theorem alloc (n : Nat) :
    Twin (σ := σ) f n (List.map f) (liftM (Allocator.alloc n : StateM σ (List Qubit)))
      (liftM (Allocator.alloc n : StateM σ (List Qubit))) := by
  intro s s' hs hn
  obtain ⟨hqs, halike, hnext⟩ := Nominal.alloc f n hs hn
  show Agree (List.map f) (.ok (Allocator.alloc n s).1) (.ok (Allocator.alloc n s').1) ∧ _
  rw [hqs]
  exact ⟨.ok _, halike, n, le_rfl, hnext⟩

theorem free (qs : List Qubit) :
    Twin (σ := σ) f 0 id (Allocator.free qs) (Allocator.free (qs.map f)) := by
  intro s s' hs _
  obtain ⟨hagree, halike, hnext⟩ := Nominal.free f qs hs
  exact ⟨hagree, halike, 0, le_rfl, hnext.trans (add_ofNat_zero _).symm⟩

protected theorem tryCatch {m : AllocM σ τ} {m' : AllocM σ υ} {a : Error → AllocM σ τ}
    {a' : Error → AllocM σ υ} (h : Twin f n g m m')
    (ha : ∀ e e', e'.kind = e.kind → Twin f k g (a e) (a' e')) :
    Twin f (n + k) g (tryCatch m a) (tryCatch m' a') :=
  fun _ _ hs => (h hs).tryCatch fun e e' _ _ he ht => ha e e' he ht

/-- Scopes start out alike on top of alike states. -/
theorem within {m : AllocM (Scope σ) τ} {m' : AllocM (Scope σ) υ} (h : Twin f n g m m') :
    Twin f n g (Scope.within m) (Scope.within m') := by
  intro s s' hs hn
  have hstart : Nominal.Alike f ({ base := s } : Scope σ) { base := s' } :=
    ⟨hs, QubitSet.alike_empty, QubitSet.alike_empty⟩
  obtain ⟨hagree, halike, hnext⟩ := h hstart hn
  exact ⟨hagree, halike.base, hnext⟩

theorem declare (qs : List Qubit) : Twin (σ := Scope σ) f 0 id (modify (Scope.declare qs))
    (modify (Scope.declare (qs.map f))) := by
  intro s s' hs _
  exact ⟨.ok (), hs.declare qs, 0, le_rfl, (add_ofNat_zero _).symm⟩

end Twin
end

end BloqCircuit
