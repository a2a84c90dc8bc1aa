import BloqCircuit.Proofs.Emission
/-! Pools of ancillas serve the walk over a composite. -/
namespace BloqCircuit

namespace CleanPool

theorem length_fresh (next : UInt32) (n : Nat) : (fresh next n).length = n := by
  rw [fresh, List.length_map, List.length_range]

theorem fresh_add (next : UInt32) (m n : Nat) :
    fresh next (m + n) = fresh next m ++ fresh (next + UInt32.ofNat m) n := by
  rw [fresh, List.range_add, List.map_append, List.map_map]
  refine congrArg (fresh next m ++ ·) (List.map_congr_left fun k _ => ?_)
  show Qubit.clean (next + UInt32.ofNat (m + k)) = _
  rw [UInt32.ofNat_add, UInt32.add_assoc]

/-- The ancillas after the first `j` ones are among the next ones. -/
theorem fresh_subset {next : UInt32} {j n k : Nat} (hj : j ≤ n) :
    fresh (next + UInt32.ofNat j) k ⊆ fresh next (n + k) := by
  intro q hq
  obtain ⟨d, rfl⟩ := Nat.exists_eq_add_of_le hj
  rw [Nat.add_assoc, fresh_add, Nat.add_comm d, fresh_add]
  exact List.mem_append_right _ (List.mem_append_left _ hq)

theorem fresh_subset_of_le {next : UInt32} {k n : Nat} (h : k ≤ n) : fresh next k ⊆ fresh next n := by
  obtain ⟨d, rfl⟩ := Nat.exists_eq_add_of_le h
  rw [fresh_add]
  exact List.subset_append_left _ _

/-- Ancillas are clean qubits. -/
theorem not_mem_fresh {q : Qubit} (h : ∀ k, q ≠ .clean k) (next : UInt32) (n : Nat) :
    q ∉ fresh next n := by
  intro hm
  obtain ⟨k, -, hk⟩ := List.mem_map.mp hm
  exact h _ hk.symm

/-- The next `n` qubits of a pool have different numbers, and `qs` are none of them. -/
structure Spares (p : CleanPool) (qs : List Qubit) (n : Nat) : Prop where
  small : n ≤ UInt32.size
  apart : ∀ q ∈ qs, q ∉ fresh p.next n

theorem nodup_fresh (next : UInt32) {n : Nat} (hn : n ≤ UInt32.size) : (fresh next n).Nodup := by
  refine List.Nodup.map_on (fun j hj k hk hjk => ?_) List.nodup_range
  have hadd : next + UInt32.ofNat j = next + UInt32.ofNat k := Qubit.clean.inj hjk
  have heq := congrArg UInt32.toNat ((UInt32.add_right_inj next).mp hadd)
  rwa [UInt32.toNat_ofNat_of_lt' (Nat.lt_of_lt_of_le (List.mem_range.mp hj) hn),
    UInt32.toNat_ofNat_of_lt' (Nat.lt_of_lt_of_le (List.mem_range.mp hk) hn)] at heq

theorem Spares.nodup {p : CleanPool} {qs : List Qubit} {n : Nat} (h : p.Spares qs n)
    (hn : qs.Nodup) : (qs ++ fresh p.next n).Nodup := by
  refine List.nodup_append.mpr ⟨hn, nodup_fresh _ h.small, fun q hq q' hq' heq => ?_⟩
  subst heq
  exact h.apart q hq hq'

theorem free_eq {p : CleanPool} {qs : List Qubit} (h : ∀ q ∈ qs, q ∈ p.inUse) :
    CleanPool.free qs p = (.ok (), { p with inUse := p.inUse.eraseMany qs }) := by
  have hnone : p.firstUnused qs = none := by
    refine List.find?_eq_none.mpr fun q hq => ?_
    simpa using h q hq
  rw [CleanPool.free, hnone]

theorem free_nil (p : CleanPool) : CleanPool.free [] p = (.ok (), p) := by
  rw [free_eq fun q hq => absurd hq List.not_mem_nil, eraseMany_eq_foldl]
  rfl

variable {p : CleanPool} {qs : List Qubit}

/-- A pool takes qubits back if all of them are in use; else nothing changes. -/
theorem free_ok_iff : (p.free qs).1 = .ok () ↔ ∀ q ∈ qs, q ∈ p.inUse := by
  rw [CleanPool.free]
  cases h : p.firstUnused qs with
  | none => simpa using fun q hq => by simpa using List.find?_eq_none.mp h q hq
  | some x =>
    have hx := List.find?_some h
    have hmem := List.mem_of_find?_eq_some h
    simp only [reduceCtorEq, false_iff]
    intro hall
    rw [Std.ExtTreeSet.contains_iff_mem.mpr (hall x hmem)] at hx
    cases hx

theorem mem_inUse_free (q : Qubit) : q ∈ (p.free qs).2.inUse ↔
    q ∈ p.inUse ∧ ¬((p.free qs).1 = .ok () ∧ q ∈ qs) := by
  rw [CleanPool.free]
  cases p.firstUnused qs with
  | none => simp [mem_eraseMany]
  | some x => simp

theorem next_free : (p.free qs).2.next = p.next := by
  rw [CleanPool.free]
  split <;> rfl

end CleanPool

namespace Scope

/-- Qubits that a scope can take back. -/
def Live (s : Scope CleanPool) (qs : List Qubit) : Prop :=
  ∀ q ∈ qs, q ∈ s.managed ∧ (q ∈ s.declared ∨ q ∈ s.base.inUse)

variable {s : Scope CleanPool} {qs rest : List Qubit}

theorem Live.mono (h : s.Live qs) (hs : rest ⊆ qs) : s.Live rest := fun q hq => h q (hs hq)

theorem live_declare (base : CleanPool) (qs : List Qubit) :
    (Scope.declare qs { base := base }).Live qs := by
  intro q hq
  exact ⟨mem_insertMany.mpr (.inr hq), .inl (mem_insertMany.mpr (.inr hq))⟩

/-- What is allocated is fresh and live. -/
theorem alloc_gives (s : Scope CleanPool) (n : Nat) :
    ∃ t, Allocator.alloc n s = (CleanPool.fresh s.base.next n, t) ∧
      t.base.next = s.base.next + UInt32.ofNat n ∧
      ∀ qs, s.Live qs → t.Live (qs ++ CleanPool.fresh s.base.next n) := by
  refine ⟨_, rfl, rfl, fun qs h q hq => ?_⟩
  rcases List.mem_append.mp hq with hq | hq
  · obtain ⟨hm, hd⟩ := h q hq
    exact ⟨mem_insertMany.mpr (.inl hm), hd.imp id fun hu => mem_insertMany.mpr (.inl hu)⟩
  · exact ⟨mem_insertMany.mpr (.inr hq), .inr (mem_insertMany.mpr (.inr hq))⟩

section
variable {σ : Type}

theorem count_foldl_releaseOne (s : Scope σ) (owned qs : List Qubit) (q : Qubit) :
    (qs.foldl releaseOne (owned, s)).1.count q =
      owned.count q + (qs.count q - if q ∈ s.declared then 1 else 0) := by
  induction qs generalizing owned s with
  | nil => simp
  | cons x qs ih =>
    rw [List.foldl_cons, releaseOne, ih]
    simp only [Std.ExtTreeSet.mem_erase, ne_eq, Std.LawfulEqOrd.compare_eq_iff_eq,
      Std.ExtTreeSet.contains_iff_mem]
    by_cases hx : x = q
    · subst hx
      by_cases hd : x ∈ s.declared
      · simp [hd]
      · simp [hd]
        omega
    · by_cases hd : x ∈ s.declared
      · simp [hx, hd]
      · simp [hx, hd]

theorem foldl_releaseOne_snd (s : Scope σ) (owned qs : List Qubit) :
    (qs.foldl releaseOne (owned, s)).2 =
      { s with managed := s.managed.eraseMany qs, declared := s.declared.eraseMany qs } := by
  induction qs generalizing owned s with
  | nil => simp [eraseMany_eq_foldl]
  | cons x qs ih =>
    rw [List.foldl_cons, releaseOne, ih]
    simp only [eraseMany_eq_foldl, List.foldl_cons]

/-- Of a declared qubit one occurrence is kept back. -/
theorem count_release (s : Scope σ) (qs : List Qubit) (q : Qubit) :
    (release qs s).1.count q = qs.count q - if q ∈ s.declared then 1 else 0 := by
  show (qs.foldl releaseOne ([], s)).1.reverse.count q = _
  rw [List.count_reverse, count_foldl_releaseOne, List.count_nil, Nat.zero_add]

theorem release_snd (s : Scope σ) (qs : List Qubit) : (release qs s).2 =
    { s with managed := s.managed.eraseMany qs, declared := s.declared.eraseMany qs } :=
  foldl_releaseOne_snd s [] qs

theorem mem_release {s : Scope σ} {qs : List Qubit} {q : Qubit} :
    q ∈ (release qs s).1 ↔ q ∈ qs ∧ (q ∈ s.declared → 1 < qs.count q) := by
  rw [← List.count_pos_iff, count_release, ← List.count_pos_iff (l := qs)]
  split
  · next hd => simp only [hd, forall_const]; omega
  · next hd => simp [hd]

end

/-- What giving a list back hands on to the pool. -/
def passed (qs : List Qubit) (s : Scope CleanPool) : List Qubit :=
  if ∀ q ∈ qs, q ∈ s.managed then (release qs s).1 else []

theorem mem_passed {q : Qubit} : q ∈ s.passed qs ↔
    (∀ x ∈ qs, x ∈ s.managed) ∧ q ∈ qs ∧ (q ∈ s.declared → 1 < qs.count q) := by
  rw [passed]
  split
  · next h => rw [mem_release]; exact (and_iff_right h).symm
  · next h => simp [h]

theorem mem_passed_of_nodup (hn : qs.Nodup) {q : Qubit} : q ∈ s.passed qs ↔
    (∀ x ∈ qs, x ∈ s.managed) ∧ q ∈ qs ∧ q ∉ s.declared := by
  have honce := List.nodup_iff_count_le_one.mp hn q
  rw [mem_passed, iff_false_intro (Nat.not_lt.mpr honce)]

/-- Of live qubits what was not declared is freed in the pool. -/
theorem free_of_managed (h : ∀ q ∈ qs, q ∈ s.managed) :
    s.free qs = ((CleanPool.free (s.passed qs) s.base).1,
      ⟨(CleanPool.free (s.passed qs) s.base).2, s.managed.eraseMany qs, s.declared.eraseMany qs⟩) := by
  have hnone : qs.find? (fun q => !s.managed.contains q) = none :=
    List.find?_eq_none.mpr fun q hq => by simpa using h q hq
  have hsnd := release_snd s qs
  rw [Scope.free, hnone, passed, if_pos h]
  cases hr : release qs s with
  | mk owned released =>
    rw [hr] at hsnd
    obtain rfl : released = _ := hsnd
    cases owned with
    | nil => simp [CleanPool.free_nil]
    | cons q owned => rfl

theorem free_of_not_managed (h : ¬∀ q ∈ qs, q ∈ s.managed) :
    ∃ q, s.free qs = (.error (.qubitNotAllocated q), s) := by
  cases hf : qs.find? fun q => !s.managed.contains q with
  | some q => exact ⟨q, by rw [Scope.free, hf]⟩
  | none => exact absurd (fun q hq => by simpa using List.find?_eq_none.mp hf q hq) h

/-- The pool sees of a call that gives back a list only what is handed on. -/
theorem base_free (s : Scope CleanPool) (qs : List Qubit) :
    (s.free qs).2.base = (CleanPool.free (s.passed qs) s.base).2 := by
  by_cases h : ∀ q ∈ qs, q ∈ s.managed
  · rw [free_of_managed h]
  · obtain ⟨q, hq⟩ := free_of_not_managed h
    rw [hq, passed, if_neg h, CleanPool.free_nil]

theorem free_ok_iff : (s.free qs).1 = .ok () ↔
    (∀ q ∈ qs, q ∈ s.managed) ∧ ∀ q ∈ s.passed qs, q ∈ s.base.inUse := by
  by_cases h : ∀ q ∈ qs, q ∈ s.managed
  · rw [free_of_managed h, CleanPool.free_ok_iff, and_iff_right h]
  · obtain ⟨q, hq⟩ := free_of_not_managed h
    rw [hq]
    simp [h]

theorem gives_free {t : Scope CleanPool} :
    Gives (Allocator.free qs) s () t ↔ (s.free qs).1 = .ok () ∧ (s.free qs).2 = t :=
  Prod.ext_iff

/-- Live qubits are taken back, and the others stay live. -/
theorem Live.free_gives (h : s.Live (qs ++ rest)) (hn : (qs ++ rest).Nodup) :
    ∃ t, Gives (Allocator.free qs) s () t ∧ t.base.next = s.base.next ∧ t.Live rest := by
  obtain ⟨hqs, -, hdisjoint⟩ := List.nodup_append.mp hn
  have hmanaged : ∀ q ∈ qs, q ∈ s.managed := fun q hq => (h q (List.mem_append_left _ hq)).1
  have hok : (s.free qs).1 = .ok () := by
    refine free_ok_iff.mpr ⟨hmanaged, fun q hq => ?_⟩
    obtain ⟨-, hmem, hd⟩ := (mem_passed_of_nodup hqs).mp hq
    exact (h q (List.mem_append_left _ hmem)).2.resolve_left hd
  refine ⟨_, gives_free.mpr ⟨hok, rfl⟩, ?_, fun q hq => ?_⟩
  · rw [base_free, CleanPool.next_free]
  · have hnot : q ∉ qs := fun hm => hdisjoint q hm q hq rfl
    obtain ⟨hm, hd⟩ := h q (List.mem_append_right _ hq)
    rw [base_free, CleanPool.mem_inUse_free, free_of_managed hmanaged]
    refine ⟨mem_eraseMany.mpr ⟨hm, hnot⟩, hd.imp (fun hd => mem_eraseMany.mpr ⟨hd, hnot⟩) fun hu => ?_⟩
    exact ⟨hu, fun hp => hnot (mem_passed.mp hp.2).2.1⟩

/-- Fresh qubits are handed out list by list. -/
theorem exists_handed (lists : List (List Qubit)) {due : List Qubit} {n : Nat}
    (h : lists.flatten ++ due = CleanPool.fresh s.base.next n) :
    ∃ t, Handed lists s t ∧ (∃ m, due = CleanPool.fresh t.base.next m) ∧
      ∀ qs, s.Live qs → t.Live (qs ++ lists.flatten) := by
  induction lists generalizing s n with
  | nil => exact ⟨s, .nil s, ⟨n, h⟩, fun qs hl => by rwa [List.flatten_nil, List.append_nil]⟩
  | cons qs lists ih =>
    obtain ⟨m, rfl⟩ : ∃ m, n = qs.length + m := by
      have hlen := congrArg List.length h
      rw [CleanPool.length_fresh] at hlen
      simp only [List.flatten_cons, List.length_append] at hlen
      exact ⟨lists.flatten.length + due.length, by omega⟩
    rw [CleanPool.fresh_add, List.flatten_cons, List.append_assoc] at h
    obtain ⟨hqs, hrest⟩ := List.append_inj h (CleanPool.length_fresh _ _).symm
    obtain ⟨t, halloc, hnext, hlive⟩ := alloc_gives s qs.length
    rw [← hnext] at hrest
    obtain ⟨u, hh, hdue, hlive'⟩ := ih hrest
    rw [← hqs] at halloc hlive
    refine ⟨u, .cons halloc hh, hdue, fun live hl => ?_⟩
    rw [List.flatten_cons, ← List.append_assoc]
    exact hlive' _ (hlive _ hl)

/-! ## How far a pool has come -/

variable {t : Scope CleanPool}

theorem next_handed {lists : List (List Qubit)} (h : Handed lists s t) :
    t.base.next = s.base.next + UInt32.ofNat lists.flatten.length := by
  induction h with
  | nil s => exact (UInt32.add_zero _).symm
  | cons halloc _ ih =>
    have hnext := congrArg (fun r => r.2.base.next) halloc
    simp only at hnext
    rw [ih, List.flatten_cons, List.length_append, UInt32.ofNat_add, ← UInt32.add_assoc, ← hnext]
    rfl

theorem next_free (h : Gives (Allocator.free qs) s () t) : t.base.next = s.base.next := by
  obtain ⟨-, rfl⟩ := gives_free.mp h
  rw [base_free, CleanPool.next_free]

end Scope

namespace Composite
variable {α κ : Type} {c : Composite (Bloq α κ)} {L : Labels} {s : Scope CleanPool}

/-- How many fresh qubits the outputs of bloqs need that are no inputs. -/
def demand (c : Composite (Bloq α κ)) : Nat :=
  (c.instances.map fun x => (x.bloq.born.map (·.totalBits)).sum).sum

variable [Angle α]

omit [Angle α] in
theorem flatten_born (L : Labels) (v : Nat) (b : Bloq α κ) :
    (b.born.map fun r => L.on v [r]).flatten = L.on v b.born :=
  List.flatMap_def.symm.trans (Labels.on_eq_flatMap b.born).symm

/-- No wire begins on a boundary that is reached. -/
theorem Threaded.crossing_of_boundary (hc : c.Threaded) {done : List Nat} {v : Nat}
    (hb : c.bloqAt v = none) (hv : v < c.size) {e : Edge (Bloq α κ)}
    (he : e ∈ c.crossing (done ++ [v])) : e ∈ c.crossing done := by
  refine crossing_of_append he ?_
  rcases eq_boundary_of_bloqAt hb hv with h0 | hlast
  · exact .inr h0
  · have hmem := (mem_crossing.mp he).1
    exact .inl (Nat.ne_of_lt (hlast ▸ Nat.lt_of_lt_of_le (hc.forward e hmem) (hc.target_le hmem)))

/-- If what appears on a bloq is what the pool hands out next, then the scope serves it, and what
crosses the front after it is live. -/
theorem Flow.exists_serves (hl : c.Flow L) (hc : c.Threaded) {done rest : List Nat} {v : Nat}
    (hf : c.Front (done ++ [v])) (hd : c.Distinct L (done ++ rest)) {b : Bloq α κ}
    (hb : c.bloqAt v = some b) {due : List Qubit} {n : Nat}
    (hdue : L.on v b.born ++ due = CleanPool.fresh s.base.next n)
    (hlive : s.Live ((c.crossing done).flatMap fun e => L e.start)) :
    ∃ t, b.Serves L v s t ∧ (∃ m, due = CleanPool.fresh t.base.next m) ∧
      t.Live ((c.crossing (done ++ [v])).flatMap fun e => L e.start) := by
  rw [← flatten_born] at hdue
  obtain ⟨s₁, hh, ⟨m, hdue₁⟩, hlive₁⟩ := Scope.exists_handed _ hdue
  rw [flatten_born] at hlive₁
  obtain ⟨others, hbefore, hafter⟩ := hl.exchange_bloq hc hf hb
  have hlive₁ := (hlive₁ _ hlive).mono (hbefore.symm.append_right (L.on v b.born)).subset
  -- only an end gives qubits back; they were live since what crosses the front is
  cases hr : b.releases with
  | false =>
    refine ⟨s₁, ⟨s₁, hh, by rw [hr]; rfl⟩, ⟨m, hdue₁⟩, hlive₁.mono fun q hq => ?_⟩
    rcases List.mem_append.mp (hafter.subset hq) with hq | hq
    · have hq := (hl.node v b hb).perm.symm.subset (List.mem_append_left _ hq)
      rcases List.mem_append.mp hq with hq | hq
      · exact List.mem_append_left _ (List.mem_append_left _ hq)
      · exact List.mem_append_right _ hq
    · exact List.mem_append_left _ (List.mem_append_right _ hq)
  | true =>
    have hnodup := hbefore.nodup_iff.mp (hl.nodup_crossing hc hf.init.1 hd)
    obtain ⟨s₂, hfree, hnext, hlive₂⟩ :=
      (hlive₁.mono (List.subset_append_left _ _)).free_gives hnodup
    refine ⟨s₂, ⟨s₁, hh, by rw [hr]; exact hfree⟩, ⟨m, hnext ▸ hdue₁⟩, hlive₂.mono ?_⟩
    obtain ⟨t, rfl⟩ := Bloq.exists_free_of_releases hr
    have hright : (Bloq.free t : Bloq α κ).signature.rights = [] := Bloq.rights_free t
    rw [hright, Labels.on_nil] at hafter
    exact hafter.subset

/-- If what appears on the nodes of the walk is what the pool hands out next, then the scope serves
the walk, and what crosses the front after it is live. -/
theorem Flow.exists_served (hl : c.Flow L) (hc : c.Threaded) {done rest : List Nat}
    (hf : c.Front (done ++ rest)) (hd : c.Distinct L (done ++ rest)) {n : Nat}
    (hdue : rest.flatMap (c.bornAt L) = CleanPool.fresh s.base.next n)
    (hlive : s.Live ((c.crossing done).flatMap fun e => L e.start)) :
    ∃ t, c.Served L rest s t ∧ t.Live ((c.crossing (done ++ rest)).flatMap fun e => L e.start) := by
  induction rest generalizing done s n with
  | nil => exact ⟨s, .nil s, by rwa [List.append_nil]⟩
  | cons v rest ih =>
    have hassoc : done ++ v :: rest = done ++ [v] ++ rest := by simp
    rw [List.flatMap_cons] at hdue
    rw [hassoc] at hf ⊢
    have hfront : c.Front (done ++ [v]) := hf.of_append
    cases hb : c.bloqAt v with
    | none =>
      rw [bornAt_of_none hb, List.nil_append] at hdue
      obtain ⟨t, ht, hleft⟩ := ih hf (hassoc ▸ hd) hdue (hlive.mono fun q hq => by
        obtain ⟨e, he, hq⟩ := List.mem_flatMap.mp hq
        exact List.mem_flatMap.mpr ⟨e, hc.crossing_of_boundary hb hfront.init.2.lt he, hq⟩)
      exact ⟨t, .boundary hb ht, hleft⟩
    | some b =>
      rw [bornAt_of_some hb] at hdue
      obtain ⟨u, hserves, ⟨m, hdue⟩, hlive⟩ := hl.exists_serves hc hfront hd hb hdue hlive
      obtain ⟨t, ht, hleft⟩ := ih hf (hassoc ▸ hd) hdue hlive
      exact ⟨t, .placed hb hserves ht, hleft⟩

/-! ## Walks on pools -/

theorem Threaded.exists_order (hc : c.Threaded) (traversal : TraversalOrder) :
    ∃ order, c.sortedNodes traversal = .ok order ∧ c.graph.Sorts order := by
  obtain ⟨hg, hf⟩ := hc.inRange
  obtain ⟨order, ho⟩ := Multigraph.exists_topologicalOrder?
    (fun v => (c.nodes.map (priority traversal)).toArray.getD v 0) hg hf
  refine ⟨order, ?_, (Multigraph.sorts_of_topologicalOrder? hg ho).1⟩
  rw [sortedNodes]
  simp only [ho]

omit [Angle α] in
/-- A sum over the bloqs on the nodes of a walk is one over the instances. -/
theorem sum_bloqAt {order : List Nat} (hs : c.graph.Sorts order) (f : Bloq α κ → Nat) :
    (order.map fun v => (c.bloqAt v).elim 0 f).sum = (c.instances.map fun x => f x.bloq).sum := by
  have hrange : (List.range (c.instances.length + 2)).map (fun v => (c.bloqAt v).elim 0 f) =
      ((List.range (c.instances.length + 2)).map c.bloqAt).map fun b => b.elim 0 f := by
    rw [List.map_map]
    rfl
  have hsize : c.graph.size = c.instances.length + 2 := rfl
  rw [(hs.perm.map _).sum_nat, hsize, hrange, map_bloqAt_range, List.map_cons, List.map_append,
    List.map_map, List.sum_cons, List.sum_append]
  exact (Nat.zero_add _).trans (Nat.add_zero _)

theorem Flow.length_born (h : c.Flow L) (_ : c.Threaded) {order : List Nat}
    (hs : c.graph.Sorts order) : (order.flatMap (c.bornAt L)).length = c.demand := by
  rw [List.length_flatMap, demand, ← sum_bloqAt hs fun b => (b.born.map (·.totalBits)).sum]
  refine congrArg List.sum (List.map_congr_left fun v _ => ?_)
  rw [bornAt]
  cases hb : c.bloqAt v with
  | none => rfl
  | some b =>
    refine Labels.length_on ((h.node v b hb).fits.mono fun r hr => ?_)
    rw [Bloq.born] at hr
    split at hr
    · cases hr
    · exact (List.mem_filter.mp hr).1

/-- Any qubits can appear in the order of a walk. -/
theorem Threaded.exists_flow_on (hc : c.Threaded) {l : Labels} (hl : l.Fits 0 c.signature.lefts)
    {order : List Nat} (hs : c.graph.Sorts order) {news : List Qubit} (hn : news.length = c.demand) :
    ∃ L, c.Flow L ∧ (∀ p, p.node = 0 → L p = l p) ∧ order.flatMap (c.bornAt L) = news := by
  rw [demand, ← sum_bloqAt hs fun b => (b.born.map (·.totalBits)).sum] at hn
  obtain ⟨pieces, hwidth, hflat⟩ := exists_pieces (hs.perm.nodup_iff.mpr List.nodup_range) _ hn
  have hlen : ∀ v b, c.bloqAt v = some b → (pieces v).length = (b.born.map (·.totalBits)).sum := by
    intro v b hb
    have hv : v ∈ order := hs.perm.mem_iff.mpr
      (List.mem_range.mpr (Nat.lt_succ_of_lt (bloqAt_lt hb).2))
    rw [hwidth v hv, hb]
    rfl
  obtain ⟨L, hflow, hinput, hborn⟩ := hc.exists_flow hl hlen
  refine ⟨L, hflow, hinput, ?_⟩
  rw [← hflat]
  refine List.flatMap_congr fun v hv => ?_
  cases hb : c.bloqAt v with
  | none =>
    have hnil := hwidth v hv
    rw [hb] at hnil
    rw [bornAt_of_none hb, List.length_eq_zero_iff.mp hnil]
  | some b =>
    exact (bornAt_of_some hb).trans (hborn v b hb)

/-! ## Exports -/

omit [Angle α] in
/-- Boundaries need no service. -/
theorem served_filter {σ : Type} [Allocator σ] {p : Nat → Bool}
    (hp : ∀ v, p v = false → c.bloqAt v = none) {order : List Nat} {s t : σ} :
    c.Served L (order.filter p) s t ↔ c.Served L order s t := by
  induction order generalizing s with
  | nil => rfl
  | cons v order ih =>
    cases hv : p v with
    | false =>
      rw [List.filter_cons_of_neg (by rw [hv]; exact Bool.false_ne_true), ih]
      refine ⟨.boundary (hp v hv), fun h => ?_⟩
      cases h with
      | boundary _ h => exact h
      | placed hb _ _ => cases (hp v hv).symm.trans hb
    | true =>
      rw [List.filter_cons_of_pos hv]
      constructor <;> intro h
      · cases h with
        | boundary hb h => exact .boundary hb (ih.mp h)
        | placed hb hs h => exact .placed hb hs (ih.mp h)
      · cases h with
        | boundary hb h => exact .boundary hb (ih.mpr h)
        | placed hb hs h => exact .placed hb hs (ih.mpr h)

/-- The walk can leave out the output boundary. -/
theorem Threaded.front_filter (hc : c.Threaded) {order : List Nat} (hf : c.Front order) :
    c.Front (order.filter (· != c.instances.length + 1)) := by
  refine hf.filter fun e he _ => ?_
  have hlt := hc.forward e he
  have hle := hc.target_le he
  have hne : e.source ≠ c.instances.length + 1 := by omega
  simpa using hne

/-- The inputs cross the first front. -/
theorem Flow.first_front_perm (h : c.Flow L) (hc : c.Threaded) :
    ((c.crossing []).flatMap fun e => L e.start).Perm (L.on 0 c.signature.lefts) := by
  have hnil : c.Front [] := fun front v rest he => by simp at he
  simpa using h.cut_perm hc hnil

/-- What crosses the front when only the output boundary is left goes to the outputs. -/
theorem Flow.last_front_perm (h : c.Flow L) (hc : c.Threaded) {order : List Nat}
    (hs : c.graph.Sorts order) :
    ((c.crossing (order.filter (· != c.instances.length + 1))).flatMap fun e => L e.start).Perm
      (L.on (c.instances.length + 1) c.signature.rights) := by
  have hin : c.regsIn (c.instances.length + 1) = c.signature.rights := if_pos rfl
  have hincoming := h.incoming_perm hc (c.instances.length + 1)
  rw [hin] at hincoming
  refine List.Perm.trans (List.Perm.of_eq
    (congrArg (List.flatMap fun e : Edge (Bloq α κ) => L e.start) ?_)) hincoming
  refine List.filter_congr fun e he => ?_
  have hlt := hc.forward e he
  have hle := hc.target_le he
  have hmem : ∀ v, v < c.instances.length + 2 → v ∈ order := fun v hv =>
    hs.perm.mem_iff.mpr (List.mem_range.mpr hv)
  have hsource := hmem e.source (by omega)
  have htarget := hmem e.target (by omega)
  by_cases ht : e.target = c.instances.length + 1
  · simp [ht, hsource]
    omega
  · simp [ht, htarget]

omit [Angle α] in
/-- Nothing appears or is served on the output boundary. -/
theorem bloqAt_of_last {v : Nat} (hv : (v != c.instances.length + 1) = false) : c.bloqAt v = none := by
  obtain rfl : v = c.instances.length + 1 := by simpa using hv
  exact bloqAt_last

omit [Angle α] in
theorem born_of_filter (L : Labels) (order : List Nat) :
    (order.filter (· != c.instances.length + 1)).flatMap (c.bornAt L) =
      order.flatMap (c.bornAt L) := by
  refine flatMap_filter fun v hv => ?_
  exact bornAt_of_none (bloqAt_of_last hv)

omit [Angle α] in
/-- A walk takes from the pool what appears on it. -/
theorem Served.next {order : List Nat} {t : Scope CleanPool} (h : c.Served L order s t) :
    t.base.next = s.base.next + UInt32.ofNat (order.flatMap (c.bornAt L)).length := by
  induction h with
  | nil s => exact (UInt32.add_zero _).symm
  | boundary hb _ ih => rw [ih, List.flatMap_cons, bornAt_of_none hb, List.nil_append]
  | placed hb hs _ ih =>
    obtain ⟨u, hh, hfree⟩ := hs
    have hnext := Scope.next_handed hh
    rw [flatten_born] at hnext
    rw [ih, List.flatMap_cons, bornAt_of_some hb, List.length_append, UInt32.ofNat_add,
      ← UInt32.add_assoc, ← hnext]
    split at hfree
    · rw [Scope.next_free hfree]
    · rw [hfree]

/-- What reaches the outputs is live after the walk. -/
theorem Flow.exists_served_live (h : c.Flow L) (hc : c.Threaded) {order : List Nat}
    (hs : c.graph.Sorts order) (hd : c.Distinct L order) {n : Nat}
    (hnews : order.flatMap (c.bornAt L) = CleanPool.fresh s.base.next n)
    (hlive : s.Live (L.on 0 c.signature.lefts)) :
    ∃ t, c.Served L order s t ∧ t.Live (L.on (c.instances.length + 1) c.signature.rights) := by
  have hfront : c.Front ([] ++ order.filter (· != c.instances.length + 1)) := hc.front_filter hs.next
  have hborn := born_of_filter (c := c) L order
  have hdistinct : c.Distinct L ([] ++ order.filter (· != c.instances.length + 1)) := by
    rw [Distinct, List.nil_append, hborn]
    exact hd
  have hstart : s.Live ((c.crossing []).flatMap fun e => L e.start) :=
    hlive.mono (h.first_front_perm hc).subset
  obtain ⟨t, ht, hend⟩ := h.exists_served hc hfront hdistinct (hborn.trans hnews) hstart
  exact ⟨t, (served_filter fun _ => bloqAt_of_last).mp ht,
    hend.mono (h.last_front_perm hc hs).symm.subset⟩

/-! ## Exports -/

/-- A walk on whose nodes the next qubits of a pool appear is emitted. Its outputs are live then. -/
theorem Flow.exists_export (h : c.Flow L) (hc : c.Threaded) (hp : ∀ x ∈ c.instances, x.bloq.Plain)
    (hq : ∀ x ∈ c.instances, Export.classicalOutput? x.bloq.signature = none)
    {quregs : Quregs} (hin : ∀ r ∈ c.signature.lefts, r.arrayIn quregs = .ok (L.array 0 r))
    {traversal : TraversalOrder} {order : List Nat} (ho : c.sortedNodes traversal = .ok order)
    (hs : c.graph.Sorts order) (hd : c.Distinct L order) {p : CleanPool} {n : Nat}
    (hnews : order.flatMap (c.bornAt L) = CleanPool.fresh p.next n) :
    ∃ t, Gives (c.export c.signature quregs traversal)
        (Scope.declare (L.on 0 c.signature.lefts) { base := p })
        (⟨order.filterMap (c.operationAt? L)⟩,
          L.arrays (c.instances.length + 1) c.signature.rights) t ∧
      t.Live (L.on (c.instances.length + 1) c.signature.rights) := by
  obtain ⟨t, ht, hlive⟩ :=
    h.exists_served_live hc hs hd hnews (Scope.live_declare p (L.on 0 c.signature.lefts))
  exact ⟨t, h.export_gives_of hc hp hq hin ho hs hd ht, hlive⟩

/-- A flow is emitted in the order of any walk, after a renaming by which the qubits that appear are
the next ones of the pool. -/
theorem Flow.exists_export_map (h : c.Flow L) (hc : c.Threaded)
    (hp : ∀ x ∈ c.instances, x.bloq.Plain)
    (hq : ∀ x ∈ c.instances, Export.classicalOutput? x.bloq.signature = none)
    {quregs : Quregs} (hin : ∀ r ∈ c.signature.lefts, r.arrayIn quregs = .ok (L.array 0 r))
    {traversal : TraversalOrder} {order : List Nat} (ho : c.sortedNodes traversal = .ok order)
    (hs : c.graph.Sorts order) {p : CleanPool} {n : Nat} {r : Qubit → Qubit}
    (hkept : ∀ q ∈ L.on 0 c.signature.lefts, r q = q)
    (hborn : (order.flatMap (c.bornAt L)).map r = CleanPool.fresh p.next n)
    (hn : (L.on 0 c.signature.lefts ++ CleanPool.fresh p.next n).Nodup) :
    ∃ t, Gives (c.export c.signature quregs traversal)
        (Scope.declare (L.on 0 c.signature.lefts) { base := p })
        (⟨(order.filterMap (c.operationAt? L)).map (Operation.map r)⟩,
          (L.arrays (c.instances.length + 1) c.signature.rights).map r) t ∧
      t.base.next = p.next + UInt32.ofNat n := by
  have hlefts : (L.map r).on 0 c.signature.lefts = L.on 0 c.signature.lefts := by
    rw [Labels.on_map]
    exact map_kept hkept
  have hgiven : ∀ s ∈ c.signature.lefts, s.arrayIn quregs = .ok ((L.map r).array 0 s) := by
    intro s hs
    rw [hin s hs, Labels.array_eq_of_on h.inputs (h.map r).inputs hlefts.symm hs]
  have hborn' : order.flatMap (c.bornAt (L.map r)) = CleanPool.fresh p.next n := by
    rw [← hborn, List.map_flatMap]
    exact List.flatMap_congr fun v _ => bornAt_map r v
  have hdistinct : c.Distinct (L.map r) order := by
    rw [Distinct, hlefts, hborn']
    exact hn
  obtain ⟨t, hserved, -⟩ := (h.map r).exists_served_live hc hs hdistinct hborn'
    (Scope.live_declare p ((L.map r).on 0 c.signature.lefts))
  have hnext := hserved.next
  rw [hborn', CleanPool.length_fresh] at hnext
  have hexport := (h.map r).export_gives_of hc hp hq hgiven ho hs hdistinct hserved
  have hone : c.operationAt? (L.map r) = fun v => (c.operationAt? L v).map (Operation.map r) :=
    funext (operationAt?_map r)
  rw [hlefts, hone, ← List.map_filterMap, Labels.arrays_map r (h.fits_rights hc)] at hexport
  exact ⟨t, hexport, hnext⟩

/-- On different inputs a walk is served, whatever its order, and the qubits that appear on it are the
next ones of the pool. -/
theorem Threaded.exists_walk (hc : c.Threaded) {quregs : Quregs} {inputs : List Qubit}
    (hin : quregs.merge c.signature.lefts = .ok inputs) (hn : inputs.Nodup)
    (traversal : TraversalOrder) {p : CleanPool} (hpool : p.Spares inputs c.demand) :
    ∃ L order t, c.Flow L ∧ c.sortedNodes traversal = .ok order ∧ c.graph.Sorts order ∧
      c.Distinct L order ∧ L.on 0 c.signature.lefts = inputs ∧
      (∀ r ∈ c.signature.lefts, r.arrayIn quregs = .ok (L.array 0 r)) ∧
      order.flatMap (c.bornAt L) = CleanPool.fresh p.next c.demand ∧
      c.Served L order (Scope.declare inputs { base := p }) t ∧
      t.Live (L.on (c.instances.length + 1) c.signature.rights) := by
  obtain ⟨l, hfits, harrays, hon⟩ := Labels.exists_of_merge 0 hin
  obtain ⟨order, ho, hs⟩ := hc.exists_order traversal
  obtain ⟨L, hflow, hinput, hborn⟩ :=
    hc.exists_flow_on hfits hs (CleanPool.length_fresh p.next c.demand)
  have hlefts : L.on 0 c.signature.lefts = inputs := by
    rw [← hon]
    exact Labels.on_congr fun p hp => hinput p (mem_portsOn.mp hp).1
  have harray : ∀ r ∈ c.signature.lefts, r.arrayIn quregs = .ok (L.array 0 r) := by
    intro r hr
    have hlabels : (fun i => l ⟨0, i, r⟩) = fun i => L ⟨0, i, r⟩ :=
      funext fun i => (hinput ⟨0, i, r⟩ rfl).symm
    rw [harrays r hr, Labels.array, Labels.array, hlabels]
  have hdistinct : c.Distinct L order := by
    rw [Distinct, hborn, hlefts]
    exact hpool.nodup hn
  obtain ⟨t, ht, hlive⟩ :=
    hflow.exists_served_live hc hs hdistinct hborn (Scope.live_declare p (L.on 0 c.signature.lefts))
  rw [hlefts] at ht
  exact ⟨L, order, t, hflow, ho, hs, hdistinct, hlefts, harray, hborn, ht, hlive⟩

/-- A composite on different inputs is emitted as some flow of different qubits says. -/
theorem Threaded.exists_export (hc : c.Threaded) (hp : ∀ x ∈ c.instances, x.bloq.Plain)
    (hq : ∀ x ∈ c.instances, Export.classicalOutput? x.bloq.signature = none)
    {quregs : Quregs} {inputs : List Qubit} (hin : quregs.merge c.signature.lefts = .ok inputs)
    (hn : inputs.Nodup) (traversal : TraversalOrder) {p : CleanPool}
    (hpool : p.Spares inputs c.demand) :
    ∃ L order t, c.Flow L ∧ c.graph.Sorts order ∧ c.Distinct L order ∧
      L.on 0 c.signature.lefts = inputs ∧
      (∀ r ∈ c.signature.lefts, r.arrayIn quregs = .ok (L.array 0 r)) ∧
      order.flatMap (c.bornAt L) = CleanPool.fresh p.next c.demand ∧
      Gives (c.export c.signature quregs traversal) (Scope.declare inputs { base := p })
        (⟨order.filterMap (c.operationAt? L)⟩,
          L.arrays (c.instances.length + 1) c.signature.rights) t ∧
      t.Live (L.on (c.instances.length + 1) c.signature.rights) := by
  obtain ⟨L, order, t, hflow, ho, hs, hdistinct, hlefts, harray, hborn, hserved, hlive⟩ :=
    hc.exists_walk hin hn traversal hpool
  exact ⟨L, order, t, hflow, hs, hdistinct, hlefts, harray, hborn,
    hflow.export_gives_of hc hp hq harray ho hs hdistinct hserved, hlive⟩

end Composite
end BloqCircuit
