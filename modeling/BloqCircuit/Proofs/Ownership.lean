import BloqCircuit.Proofs.Balance
/-! Whole runs of a scope on top of a pool: which qubits it may give back, and which of them reach the
pool. -/
namespace BloqCircuit

/-! ## Runs of a pool -/

namespace CleanPool

/-- A pool after any calls, with all that it has handed out, in order. -/
inductive After : CleanPool → List Qubit → Prop
  | new : After {} []
  | alloc {p : CleanPool} {past : List Qubit} (n : Nat) : After p past →
      After (p.alloc n).2 (past ++ (p.alloc n).1)
  | free {p : CleanPool} {past : List Qubit} (qs : List Qubit) : After p past →
      After (p.free qs).2 past

variable {p : CleanPool} {past qs : List Qubit}

theorem After.reached (h : p.After past) : p.Reached past.length := by
  induction h with
  | new => exact .new
  | alloc n _ ih =>
    rw [List.length_append, CleanPool.alloc, length_fresh]
    exact .alloc n ih
  | free qs _ ih => exact .free qs ih

theorem After.eq_fresh (h : p.After past) : past = fresh 0 past.length := by
  induction h with
  | new => rfl
  | @alloc p past n h ih =>
    rw [CleanPool.alloc, List.length_append, length_fresh, fresh_add, ← ih, h.reached.spec.1,
      UInt32.zero_add]
  | free qs _ ih => exact ih

end CleanPool

/-! ## Runs of a scope -/

namespace Scope

variable {s : Scope CleanPool} {qs : List Qubit}

/-- A scope on top of the pool `p` after any calls, with all that was handed out through it, in order.
`permits` says which lists may be given back in which states. -/
inductive After (permits : Scope CleanPool → List Qubit → Prop) (p : CleanPool) :
    Scope CleanPool → List Qubit → Prop
  | new : After permits p { base := p } []
  | alloc {s : Scope CleanPool} {handed : List Qubit} (n : Nat) : After permits p s handed →
      After permits p (s.alloc n).2 (handed ++ (s.alloc n).1)
  | declare {s : Scope CleanPool} {handed : List Qubit} (qs : List Qubit) : After permits p s handed →
      After permits p (s.declare qs) handed
  | free {s : Scope CleanPool} {handed qs : List Qubit} : permits s qs → After permits p s handed →
      After permits p (s.free qs).2 handed

/-- No declared qubit stands twice in a list that is given back. -/
def Separate (s : Scope CleanPool) (qs : List Qubit) : Prop := ∀ q ∈ s.declared, qs.count q ≤ 1

theorem separate_of_nodup (s : Scope CleanPool) (h : qs.Nodup) : s.Separate qs :=
  fun q _ => List.nodup_iff_count_le_one.mp h q

/-- What holds of a scope on top of `p` through which `handed` was handed out. -/
structure Owned (p : CleanPool) (handed : List Qubit) (s : Scope CleanPool) : Prop where
  handed_eq : handed = CleanPool.fresh p.next handed.length
  next : s.base.next = p.next + UInt32.ofNat handed.length
  /-- A live qubit that was not declared was handed out and is still in use. -/
  undeclared : ∀ q ∈ s.managed, q ∉ s.declared → q ∈ handed ∧ q ∈ s.base.inUse

variable {p : CleanPool} {past handed : List Qubit} {permits : Scope CleanPool → List Qubit → Prop}

theorem alloc_fst (s : Scope CleanPool) (n : Nat) :
    (s.alloc n).1 = CleanPool.fresh s.base.next n := rfl

theorem Owned.alloc (h : Owned p handed s) (n : Nat) :
    Owned p (handed ++ (s.alloc n).1) (s.alloc n).2 where
  handed_eq := by
    rw [alloc_fst, List.length_append, CleanPool.length_fresh, CleanPool.fresh_add, ← h.handed_eq,
      h.next]
  next := by
    rw [alloc_fst, List.length_append, CleanPool.length_fresh, UInt32.ofNat_add, ← UInt32.add_assoc,
      ← h.next]
    rfl
  undeclared q hq hd := by
    rcases mem_insertMany.mp hq with hq | hq
    · obtain ⟨hh, hu⟩ := h.undeclared q hq hd
      exact ⟨List.mem_append_left _ hh, mem_insertMany.mpr (.inl hu)⟩
    · exact ⟨List.mem_append_right _ hq, mem_insertMany.mpr (.inr hq)⟩

theorem Owned.declare (h : Owned p handed s) (qs : List Qubit) : Owned p handed (s.declare qs) where
  handed_eq := h.handed_eq
  next := h.next
  undeclared q hq hd := by
    rcases mem_insertMany.mp hq with hq | hq
    · exact h.undeclared q hq fun hm => hd (mem_insertMany.mpr (.inl hm))
    · exact absurd (mem_insertMany.mpr (.inr hq)) hd

theorem Owned.free (h : Owned p handed s) (qs : List Qubit) : Owned p handed (s.free qs).2 := by
  by_cases hm : ∀ q ∈ qs, q ∈ s.managed
  · refine ⟨h.handed_eq, ?_, fun q hq hd => ?_⟩
    · rw [base_free, CleanPool.next_free, h.next]
    · rw [free_of_managed hm] at hq hd
      obtain ⟨hq, hnot⟩ := mem_eraseMany.mp hq
      obtain ⟨hh, hu⟩ := h.undeclared q hq fun hd' => hd (mem_eraseMany.mpr ⟨hd', hnot⟩)
      refine ⟨hh, ?_⟩
      rw [base_free, CleanPool.mem_inUse_free]
      exact ⟨hu, fun hp => hnot (mem_passed.mp hp.2).2.1⟩
  · obtain ⟨q, hq⟩ := free_of_not_managed hm
    rw [hq]
    exact h

theorem After.owned (h : After permits p s handed) : Owned p handed s := by
  induction h with
  | new => exact ⟨rfl, (UInt32.add_zero _).symm, fun q hq => absurd hq Std.ExtTreeSet.not_mem_empty⟩
  | alloc n _ ih => exact ih.alloc n
  | declare qs _ ih => exact ih.declare qs
  | @free s handed qs _ _ ih => exact ih.free qs

/-- Until its numbers wrap, a pool with a scope on top hands out different qubits. -/
theorem After.nodup_handed (h : After permits p s handed) (hp : p.After past)
    (hcount : past.length + handed.length < UInt32.size) : (past ++ handed).Nodup := by
  rw [hp.eq_fresh, h.owned.handed_eq, hp.reached.spec.1]
  have hfresh := CleanPool.nodup_fresh 0 hcount.le
  rwa [CleanPool.fresh_add, UInt32.zero_add] at hfresh

/-- What the pool had in use before is not handed out here. -/
theorem After.not_mem_handed (h : After permits p s handed) (hp : p.After past)
    (hcount : past.length + handed.length < UInt32.size) {q : Qubit} (hq : q ∈ p.inUse) :
    q ∉ handed := by
  have hpast : q ∈ past := hp.eq_fresh ▸ hp.reached.spec.2 q hq
  exact fun hmem => (List.nodup_append.mp (h.nodup_handed hp hcount)).2.2 q hpast q hmem rfl

/-- If no declared qubit is given back twice at a time, then what is handed on was handed out here. -/
theorem Owned.mem_handed_of_passed (h : Owned p handed s) (hs : s.Separate qs) {q : Qubit}
    (hq : q ∈ s.passed qs) : q ∈ handed := by
  obtain ⟨hm, hmem, htwice⟩ := mem_passed.mp hq
  refine (h.undeclared q (hm q hmem) fun hd => ?_).1
  exact absurd (htwice hd) (Nat.not_lt.mpr (hs q hd))

/-- If no declared qubit is given back twice at a time, then the pool keeps what was not handed out
here. -/
theorem After.mem_inUse (h : After permits p s handed)
    (hpermits : ∀ s qs, permits s qs → s.Separate qs) {q : Qubit} (hq : q ∈ p.inUse)
    (hnot : q ∉ handed) : q ∈ s.base.inUse := by
  induction h with
  | new => exact hq
  | alloc n _ ih =>
    exact mem_insertMany.mpr (.inl (ih fun hm => hnot (List.mem_append_left _ hm)))
  | declare qs _ ih => exact ih hnot
  | @free s handed qs hqs h ih =>
    rw [base_free, CleanPool.mem_inUse_free]
    exact ⟨ih hnot, fun hp => hnot (h.owned.mem_handed_of_passed (hpermits s qs hqs) hp.2)⟩

/-- The accounts of a run in which no list that is given back names a qubit twice: no qubit is handed out
twice, a live qubit that was not declared is in use in the pool, and the pool keeps all that it had in
use before. A list is taken back exactly if its qubits are live; then these are live no more, and those
of them that were not declared, and no others, are freed in the pool. -/
theorem After.accounts (hp : p.After past) (h : After (fun _ qs => qs.Nodup) p s handed)
    (hcount : past.length + handed.length < UInt32.size) :
    (past ++ handed).Nodup ∧
    (∀ q ∈ s.managed, q ∉ s.declared → q ∈ s.base.inUse) ∧
    (∀ q ∈ p.inUse, q ∈ s.base.inUse) ∧
    ∀ qs : List Qubit, qs.Nodup →
      ((s.free qs).1 = .ok () ↔ ∀ q ∈ qs, q ∈ s.managed) ∧
      ((s.free qs).1 = .ok () →
        (∀ q, q ∈ (s.free qs).2.managed ↔ q ∈ s.managed ∧ q ∉ qs) ∧
        ∀ q, q ∈ (s.free qs).2.base.inUse ↔ q ∈ s.base.inUse ∧ ¬(q ∈ qs ∧ q ∉ s.declared)) := by
  have howned := h.owned
  refine ⟨h.nodup_handed hp hcount, fun q hq hd => (howned.undeclared q hq hd).2, fun q hq => ?_,
    fun qs hqs => ?_⟩
  · exact h.mem_inUse (fun s _ => separate_of_nodup s) hq (h.not_mem_handed hp hcount hq)
  · have hpassed : ∀ q, q ∈ s.passed qs ↔ (∀ x ∈ qs, x ∈ s.managed) ∧ q ∈ qs ∧ q ∉ s.declared :=
      fun _ => mem_passed_of_nodup hqs
    have hok : (s.free qs).1 = .ok () ↔ ∀ q ∈ qs, q ∈ s.managed := by
      rw [free_ok_iff]
      refine and_iff_left_of_imp fun hm q hq => ?_
      obtain ⟨-, hmem, hd⟩ := (hpassed q).mp hq
      exact (howned.undeclared q (hm q hmem) hd).2
    refine ⟨hok, fun hfree => ⟨fun q => ?_, fun q => ?_⟩⟩
    · rw [free_of_managed (hok.mp hfree)]
      exact mem_eraseMany
    · rw [base_free, CleanPool.mem_inUse_free, CleanPool.free_ok_iff, hpassed,
        and_iff_right (free_ok_iff.mp hfree).2, and_iff_right (hok.mp hfree)]

/-- A name is declared that the pool hands out only later, together with a line; all of it is given back
with an ancilla that was handed out. Of the three only the last is freed in the pool. -/
theorem After.accounts_mixed :
    ∃ (p : CleanPool) (s : Scope CleanPool), p.After [.clean 0] ∧
      After (fun _ qs => qs.Nodup) p s [.clean 1, .clean 2] ∧
      [Qubit.clean 0].length + [Qubit.clean 1, .clean 2].length < UInt32.size ∧
      [Qubit.clean 0, .clean 1, .clean 2].Nodup ∧
      (s.free [.line 0, .clean 1, .clean 2]).1 = .ok () ∧
      .clean 1 ∈ (s.free [.line 0, .clean 1, .clean 2]).2.base.inUse ∧
      .clean 2 ∉ (s.free [.line 0, .clean 1, .clean 2]).2.base.inUse := by
  let p : CleanPool := (CleanPool.alloc 1 {}).2
  let s : Scope CleanPool := (Scope.alloc 2 (Scope.declare [.line 0, .clean 1] { base := p })).2
  have hp : p.After [.clean 0] := .alloc 1 .new
  have hs : After (fun _ qs => qs.Nodup) p s [.clean 1, .clean 2] := .alloc 2 (.declare _ .new)
  have hcount : [Qubit.clean 0].length + [Qubit.clean 1, .clean 2].length < UInt32.size := by decide
  obtain ⟨hnodup, -, -, hlists⟩ := After.accounts hp hs hcount
  obtain ⟨hok, hfreed⟩ := hlists [.line 0, .clean 1, .clean 2] (by decide)
  have hfree := hok.mpr (by decide +kernel)
  have hinUse := (hfreed hfree).2
  refine ⟨p, s, hp, hs, hcount, hnodup, hfree, (hinUse _).mpr ?_, fun h => ((hinUse _).mp h).2 ?_⟩
  · decide +kernel
  · decide +kernel

/-- Of all lists, repeated qubits included: what reaches the pool. A qubit that was not handed out is
handed on only if it is declared and stands twice in the list, and a list of live qubits is refused
exactly if such a qubit is not in use in the pool. As long as no declared qubit is given back twice at a
time, the pool keeps all that it had in use before. -/
theorem After.passes (hp : p.After past) (h : After permits p s handed)
    (hcount : past.length + handed.length < UInt32.size) :
    ((∀ s qs, permits s qs → s.Separate qs) → ∀ q ∈ p.inUse, q ∈ s.base.inUse) ∧
    ∀ qs : List Qubit,
      (s.free qs).2.base = (CleanPool.free (s.passed qs) s.base).2 ∧
      (∀ q ∈ s.passed qs, q ∉ handed → q ∈ s.declared ∧ 1 < qs.count q) ∧
      ((∀ q ∈ qs, q ∈ s.managed) →
        ((s.free qs).1 = .ok () ↔ ∀ q ∈ s.declared, 1 < qs.count q → q ∈ s.base.inUse)) := by
  have howned := h.owned
  refine ⟨fun hpermits q hq => ?_, fun qs => ⟨base_free s qs, fun q hq hnot => ?_, fun hm => ?_⟩⟩
  · exact h.mem_inUse hpermits hq (h.not_mem_handed hp hcount hq)
  · obtain ⟨hm, hmem, htwice⟩ := mem_passed.mp hq
    have hd : q ∈ s.declared := by
      by_contra hd
      exact hnot (howned.undeclared q (hm q hmem) hd).1
    exact ⟨hd, htwice hd⟩
  · rw [free_ok_iff, and_iff_right hm]
    constructor
    · intro hall q hd htwice
      have hmem : q ∈ qs := List.count_pos_iff.mp (Nat.lt_of_succ_lt htwice)
      exact hall q (mem_passed.mpr ⟨hm, hmem, fun _ => htwice⟩)
    · intro hall q hq
      obtain ⟨-, hmem, htwice⟩ := mem_passed.mp hq
      by_cases hd : q ∈ s.declared
      · exact hall q hd (htwice hd)
      · exact (howned.undeclared q (hm q hmem) hd).2

/-- A qubit that is in use in the pool is declared and given back twice at a time: the call succeeds,
and the pool has lost the qubit, which was never handed out. -/
theorem After.passes_twice :
    ∃ (p : CleanPool) (s : Scope CleanPool), p.After [.clean 0] ∧ After Separate p s [] ∧
      [Qubit.clean 0].length + ([] : List Qubit).length < UInt32.size ∧ .clean 0 ∈ s.base.inUse ∧
      (s.free [.clean 0, .clean 0]).1 = .ok () ∧
      .clean 0 ∉ (s.free [.clean 0, .clean 0]).2.base.inUse := by
  let p : CleanPool := (CleanPool.alloc 1 {}).2
  let s : Scope CleanPool := Scope.declare [.clean 0] { base := p }
  have hp : p.After [.clean 0] := .alloc 1 .new
  have hs : After Separate p s [] := .declare _ .new
  have hcount : [Qubit.clean 0].length + ([] : List Qubit).length < UInt32.size := by decide
  obtain ⟨hkeeps, hlists⟩ := After.passes hp hs hcount
  obtain ⟨hbase, -, hok⟩ := hlists [.clean 0, .clean 0]
  have huse := hkeeps (fun _ _ h => h) (.clean 0) (by decide +kernel)
  refine ⟨p, s, hp, hs, hcount, huse, (hok (by decide +kernel)).mpr fun q hq _ => ?_, ?_⟩
  · rcases mem_insertMany.mp hq with hq | hq
    · exact absurd hq Std.ExtTreeSet.not_mem_empty
    · exact List.mem_singleton.mp hq ▸ huse
  · rw [hbase]
    decide +kernel

end Scope
end BloqCircuit
