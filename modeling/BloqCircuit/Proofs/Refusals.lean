import BloqCircuit.Proofs.Ownership
/-! Lists that a pool or a scope on top of it refuses to take back, and what such a call leaves behind. -/
namespace BloqCircuit

namespace CleanPool

variable {p : CleanPool} {qs : List Qubit} {e : Error}

/-- A refusal names a qubit of the list that is not in use. -/
theorem refused (h : (p.free qs).1 = .error e) :
    (p.free qs).2 = p ∧ ∃ q ∈ qs, e = .qubitNotAllocated q ∧ q ∉ p.inUse := by
  rw [CleanPool.free] at h ⊢
  cases hf : p.firstUnused qs with
  | none =>
    rw [hf] at h
    cases h
  | some q =>
    rw [hf] at h
    have hnot := List.find?_some hf
    obtain rfl : Error.qubitNotAllocated q = e := Except.error.inj h
    refine ⟨rfl, q, List.mem_of_find?_eq_some hf, rfl, fun huse => ?_⟩
    rw [Std.ExtTreeSet.contains_iff_mem.mpr huse] at hnot
    cases hnot

end CleanPool

namespace Scope

variable {s : Scope CleanPool} {qs : List Qubit} {e : Error}

/-! ## One refusal -/

/-- The pool sees nothing of a call that is refused. -/
theorem base_of_refused (h : (s.free qs).1 = .error e) : (s.free qs).2.base = s.base := by
  by_cases hm : ∀ q ∈ qs, q ∈ s.managed
  · rw [free_of_managed hm] at h ⊢
    exact (CleanPool.refused h).1
  · obtain ⟨q, hq⟩ := free_of_not_managed hm
    rw [hq]

/-- A list of live qubits is refused because of one that is handed on and is not in use in the pool. -/
theorem refused_of_managed (hm : ∀ q ∈ qs, q ∈ s.managed) (h : (s.free qs).1 = .error e) :
    ∃ q ∈ qs, e = .qubitNotAllocated q ∧ q ∉ s.base.inUse ∧ (q ∈ s.declared → 1 < qs.count q) := by
  rw [free_of_managed hm] at h
  obtain ⟨-, q, hq, he, hnot⟩ := CleanPool.refused h
  obtain ⟨-, hmem, htwice⟩ := mem_passed.mp hq
  exact ⟨q, hmem, he, hnot, htwice⟩

/-- A refusal changes nothing exactly if it is the scope that refuses. -/
theorem unchanged_iff_of_refused (h : (s.free qs).1 = .error e) :
    (s.free qs).2 = s ↔ ∃ q ∈ qs, q ∉ s.managed := by
  constructor
  · intro heq
    by_contra hm
    simp only [not_exists, not_and, not_not] at hm
    obtain ⟨q, hq, -⟩ := refused_of_managed hm h
    -- the qubit that the error names is live before the call and not after it
    have hlive := hm q hq
    rw [← heq, free_of_managed hm] at hlive
    exact (mem_eraseMany.mp hlive).2 hq
  · rintro ⟨q, hq, hnot⟩
    obtain ⟨x, hx⟩ := free_of_not_managed fun hm => hnot (hm q hq)
    rw [hx]

/-! ## Runs that share the pool -/

/-- A scope after any calls, some of them directly to the pool under it. `spares` says which lists may be
freed there in which states. -/
inductive Sharing (spares : Scope CleanPool → List Qubit → Prop) : Scope CleanPool → Prop
  | new (p : CleanPool) : Sharing spares { base := p }
  | alloc {s : Scope CleanPool} (n : Nat) : Sharing spares s → Sharing spares (s.alloc n).2
  | declare {s : Scope CleanPool} (qs : List Qubit) : Sharing spares s → Sharing spares (s.declare qs)
  | free {s : Scope CleanPool} (qs : List Qubit) : Sharing spares s → Sharing spares (s.free qs).2
  | allocBelow {s : Scope CleanPool} (n : Nat) : Sharing spares s →
      Sharing spares { s with base := (s.base.alloc n).2 }
  | freeBelow {s : Scope CleanPool} {qs : List Qubit} : spares s qs → Sharing spares s →
      Sharing spares { s with base := (s.base.free qs).2 }

/-- None of the qubits is live because it was allocated through the scope. -/
def Foreign (s : Scope CleanPool) (qs : List Qubit) : Prop :=
  ∀ q ∈ qs, q ∈ s.managed → q ∈ s.declared

/-- A live qubit that was not declared is in use in the pool. -/
def Backed (s : Scope CleanPool) : Prop := ∀ q ∈ s.managed, q ∉ s.declared → q ∈ s.base.inUse

theorem Backed.free (h : s.Backed) (qs : List Qubit) : Backed (s.free qs).2 := by
  by_cases hm : ∀ q ∈ qs, q ∈ s.managed
  · intro q hq hd
    rw [base_free, CleanPool.mem_inUse_free]
    rw [free_of_managed hm] at hq hd
    obtain ⟨hq, hnot⟩ := mem_eraseMany.mp hq
    have huse := h q hq fun hd' => hd (mem_eraseMany.mpr ⟨hd', hnot⟩)
    exact ⟨huse, fun hp => hnot (mem_passed.mp hp.2).2.1⟩
  · obtain ⟨q, hq⟩ := free_of_not_managed hm
    rw [hq]
    exact h

theorem Backed.freeBelow (h : s.Backed) (hs : s.Foreign qs) :
    Backed { s with base := (s.base.free qs).2 } := by
  intro q hq hd
  refine CleanPool.mem_inUse_free q |>.mpr ⟨h q hq hd, fun hp => ?_⟩
  exact hd (hs q hp.2 hq)

theorem Sharing.backed (h : Sharing Foreign s) : s.Backed := by
  induction h with
  | new => exact fun q hq => absurd hq Std.ExtTreeSet.not_mem_empty
  | alloc n _ ih =>
    intro q hq hd
    rcases mem_insertMany.mp hq with hq | hq
    · exact mem_insertMany.mpr (.inl (ih q hq hd))
    · exact mem_insertMany.mpr (.inr hq)
  | declare qs _ ih =>
    intro q hq hd
    rcases mem_insertMany.mp hq with hq | hq
    · exact ih q hq fun hd' => hd (mem_insertMany.mpr (.inl hd'))
    · exact absurd (mem_insertMany.mpr (.inr hq)) hd
  | free qs _ ih => exact ih.free qs
  | allocBelow n _ ih => exact fun q hq hd => mem_insertMany.mpr (.inl (ih q hq hd))
  | freeBelow hs _ ih => exact ih.freeBelow hs

/-- Then the pool refuses nothing that the scope hands on, unless a declared qubit stands twice in the
list. -/
theorem Backed.exists_not_managed (h : s.Backed) (hs : s.Separate qs)
    (hrefused : (s.free qs).1 = .error e) : ∃ q ∈ qs, q ∉ s.managed := by
  by_contra hm
  simp only [not_exists, not_and, not_not] at hm
  obtain ⟨q, hq, -, hnot, htwice⟩ := refused_of_managed hm hrefused
  refine hnot (h q (hm q hq) fun hd => ?_)
  exact absurd (htwice hd) (Nat.not_lt.mpr (hs q hd))

/-- A pool that refuses a list is left as it was, whether it is asked directly or through a scope. The
scope is left as it was exactly if one of the qubits is not live. If all are, it has given up every one of
them, and the error names one that is not in use in the pool and that was not declared or stands twice in
the list. This does not happen as long as the pool is not asked for what was allocated through the scope
and the list names no declared qubit twice. -/
theorem free_refused (s : Scope CleanPool) (qs : List Qubit) (e : Error) :
    ((s.base.free qs).1 = .error e → (s.base.free qs).2 = s.base) ∧
    ((s.free qs).1 = .error e →
      (s.free qs).2.base = s.base ∧
      ((s.free qs).2 = s ↔ ∃ q ∈ qs, q ∉ s.managed) ∧
      ((∀ q ∈ qs, q ∈ s.managed) →
        (∀ q, q ∈ (s.free qs).2.managed ↔ q ∈ s.managed ∧ q ∉ qs) ∧
        (∀ q, q ∈ (s.free qs).2.declared ↔ q ∈ s.declared ∧ q ∉ qs) ∧
        ∃ q ∈ qs, e = .qubitNotAllocated q ∧ q ∉ s.base.inUse ∧ (q ∈ s.declared → 1 < qs.count q))) ∧
    (Sharing Foreign s → s.Separate qs → (s.free qs).1 = .error e → (s.free qs).2 = s) := by
  refine ⟨fun h => (CleanPool.refused h).1, fun h => ?_, fun hs hqs h => ?_⟩
  · refine ⟨base_of_refused h, unchanged_iff_of_refused h, fun hm => ⟨fun q => ?_, fun q => ?_, ?_⟩⟩
    · rw [free_of_managed hm]
      exact mem_eraseMany
    · rw [free_of_managed hm]
      exact mem_eraseMany
    · exact refused_of_managed hm h
  · exact (unchanged_iff_of_refused h).mpr (hs.backed.exists_not_managed hqs h)

/-- An ancilla that was allocated through the scope is freed directly in the pool: the scope gives it up
although the pool then refuses it. Without the direct call a list with a qubit that is not live changes
nothing. -/
theorem free_refused_below :
    ∃ s t : Scope CleanPool, Sharing (fun _ _ => True) s ∧ Sharing Foreign t ∧
      (s.free [.clean 0]).1 = .error (.qubitNotAllocated (.clean 0)) ∧
      .clean 0 ∈ s.managed ∧ .clean 0 ∉ (s.free [.clean 0]).2.managed ∧
      (s.free [.clean 0]).2 ≠ s ∧
      (t.free [.clean 0, .line 0]).1 = .error (.qubitNotAllocated (.line 0)) ∧
      (t.free [.clean 0, .line 0]).2 = t := by
  let t : Scope CleanPool := (Scope.alloc 1 { base := {} }).2
  let s : Scope CleanPool := { t with base := (t.base.free [.clean 0]).2 }
  have ht : Sharing Foreign t := .alloc 1 (.new {})
  have hs : Sharing (fun _ _ => True) s := .freeBelow trivial (.alloc 1 (.new {}))
  have hserr : (s.free [.clean 0]).1 = .error (.qubitNotAllocated (.clean 0)) := by decide +kernel
  have hterr : (t.free [.clean 0, .line 0]).1 = .error (.qubitNotAllocated (.line 0)) := by
    decide +kernel
  have hm : ∀ q ∈ [Qubit.clean 0], q ∈ s.managed := by decide +kernel
  obtain ⟨-, hiff, hlost⟩ := (free_refused s [.clean 0] _).2.1 hserr
  refine ⟨s, t, hs, ht, hserr, hm _ (.head _), fun hmem => ?_, fun heq => ?_, hterr, ?_⟩
  · exact (((hlost hm).1 _).mp hmem).2 (.head _)
  · obtain ⟨q, hq, hnot⟩ := hiff.mp heq
    exact hnot (hm q hq)
  · exact (free_refused t [.clean 0, .line 0] _).2.2 ht (separate_of_nodup t (by decide)) hterr

end Scope
end BloqCircuit
