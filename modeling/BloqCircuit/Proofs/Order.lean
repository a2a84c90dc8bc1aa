import Mathlib.Data.Fintype.EquivFin
import Mathlib.Data.Fintype.Card
import Mathlib.Data.List.Nodup
import Mathlib.Data.List.Perm.Subperm
import Mathlib.Logic.Relation
import Mathlib.Order.WellFounded
import Mathlib.Tactic.ByContra
import BloqCircuit.Multigraph
/-! Topological orders: the walk places at every step the least node whose predecessors are all
placed. -/
namespace BloqCircuit
namespace Multigraph
variable {g : Multigraph} {priority : Nat → Int}

/-! ## Legal steps -/

/-- A node that may be placed next: all of its predecessors are placed. -/
structure Next (g : Multigraph) (done : List Nat) (v : Nat) : Prop where
  lt : v < g.size
  fresh : v ∉ done
  after : ∀ e ∈ g.edges, e.2 = v → e.1 ∈ done

/-- Nodes are ordered by priority and then by number. -/
def Before (priority : Nat → Int) (v w : Nat) : Prop :=
  priority v < priority w ∨ priority v = priority w ∧ v ≤ w

/-- After `done`, every node of the list is the least of those that may come next. -/
def Greedy (g : Multigraph) (priority : Nat → Int) : List Nat → List Nat → Prop
  | _, [] => True
  | done, v :: rest =>
    g.Next done v ∧ (∀ w, g.Next done w → Before priority v w) ∧ Greedy g priority (done ++ [v]) rest

/-- Every edge joins nodes of the graph. -/
def InRange (g : Multigraph) : Prop := ∀ e ∈ g.edges, e.1 < g.size ∧ e.2 < g.size

/-- How many edges from nodes that are not yet placed end at a node. -/
def waiting (g : Multigraph) (done : List Nat) (v : Nat) : Nat :=
  g.edges.countP fun e => decide (e.2 = v ∧ e.1 ∉ done)

theorem waiting_eq_zero {done : List Nat} {v : Nat} :
    g.waiting done v = 0 ↔ ∀ e ∈ g.edges, e.2 = v → e.1 ∈ done := by
  rw [waiting, List.countP_eq_zero]
  refine forall_congr' fun e => forall_congr' fun _ => ?_
  simp

theorem waiting_append {done : List Nat} {u v : Nat} (hu : u ∉ done) :
    g.waiting done v = g.waiting (done ++ [u]) v + g.edges.countP fun e => decide (e.1 = u ∧ e.2 = v) := by
  unfold waiting
  induction g.edges with
  | nil => rfl
  | cons e es ih =>
    rw [List.countP_cons, List.countP_cons, List.countP_cons, ih]
    generalize es.countP _ = m, es.countP _ = n
    by_cases hv : e.2 = v
    · by_cases he : e.1 = u
      · simp [hv, he, hu]
        omega
      · by_cases hd : e.1 ∈ done <;> simp [hv, he, hd]
        omega
    · simp [hv]

/-! ## The tables -/

private theorem size_foldl_modify {τ : Type} (es : List (Nat × Nat)) (f : Nat × Nat → Nat)
    (h : Nat × Nat → τ → τ) (t : Array τ) :
    (es.foldl (fun t e => t.modify (f e) (h e)) t).size = t.size := by
  induction es generalizing t with
  | nil => rfl
  | cons e es ih => rw [List.foldl_cons, ih, Array.size_modify]

private theorem getD_modify {τ : Type} (t : Array τ) (i j : Nat) (h : τ → τ) (d : τ)
    (hi : i < t.size) : (t.modify j h).getD i d = if j = i then h (t.getD i d) else t.getD i d := by
  rw [← Array.getElem_eq_getD (h := by simpa using hi), ← Array.getElem_eq_getD (h := hi),
    Array.getElem_modify]

theorem size_inDegrees : g.inDegrees.size = g.size := by
  rw [inDegrees, size_foldl_modify g.edges (·.2) fun _ => (· + 1)]
  simp

theorem inDegrees_getD {v : Nat} (hv : v < g.size) : g.inDegrees.getD v 0 = g.waiting [] v := by
  have h (t : Array Nat) (ht : v < t.size) (es : List (Nat × Nat)) :
      (es.foldl (fun d e => d.modify e.2 (· + 1)) t).getD v 0 =
        t.getD v 0 + es.countP fun e => decide (e.2 = v ∧ e.1 ∉ ([] : List Nat)) := by
    induction es generalizing t with
    | nil => rfl
    | cons e es ih =>
      rw [List.foldl_cons, ih _ (by simpa using ht), getD_modify t v e.2 _ 0 ht, List.countP_cons]
      by_cases he : e.2 = v
      · simp [he]
        omega
      · simp [he]
  rw [inDegrees, h _ (by simpa using hv)]
  simp [waiting, hv]

theorem count_targets {u v : Nat} (hu : u < g.size) :
    (g.targets.getD u []).count v = g.edges.countP fun e => decide (e.1 = u ∧ e.2 = v) := by
  have h (t : Array (List Nat)) (ht : u < t.size) (es : List (Nat × Nat)) :
      ((es.foldl (fun t e => t.modify e.1 (e.2 :: ·)) t).getD u []).count v =
        (t.getD u []).count v + es.countP fun e => decide (e.1 = u ∧ e.2 = v) := by
    induction es generalizing t with
    | nil => rfl
    | cons e es ih =>
      rw [List.foldl_cons, ih _ (by simpa using ht), getD_modify t u e.1 _ [] ht, List.countP_cons]
      by_cases he : e.1 = u
      · simp [he, List.count_cons]
        omega
      · simp [he]
  rw [targets, h _ (by simpa using hu)]
  simp [hu]

theorem mem_targets {u v : Nat} (hu : u < g.size) :
    v ∈ g.targets.getD u [] ↔ (u, v) ∈ g.edges := by
  rw [← List.count_pos_iff, count_targets hu, List.countP_pos_iff]
  simp

theorem mem_sources {u v : Nat} (hv : v < g.size) :
    u ∈ g.sources.getD v [] ↔ (u, v) ∈ g.edges := by
  have h (t : Array (List Nat)) (ht : v < t.size) (es : List (Nat × Nat)) :
      u ∈ (es.foldl (fun t e => t.modify e.2 (e.1 :: ·)) t).getD v [] ↔
        u ∈ t.getD v [] ∨ (u, v) ∈ es := by
    induction es generalizing t with
    | nil => simp
    | cons e es ih =>
      rw [List.foldl_cons, ih _ (by simpa using ht), getD_modify t v e.2 _ [] ht]
      by_cases he : e.2 = v
      · simp [he, Prod.ext_iff, or_comm, or_assoc, or_left_comm]
      · simp [he, Ne.symm he, Prod.ext_iff]
  rw [sources, h _ (by simpa using hv)]
  simp [hv]

/-! ## The ready nodes -/

/-- How ready nodes are compared. -/
private abbrev readyOrder : Int × Nat → Int × Nat → Ordering :=
  compareLex (compareOn Prod.fst) (compareOn Prod.snd)

private theorem readyOrder_eq {x y : Int × Nat} : readyOrder x y = .eq ↔ x = y := by
  simp only [readyOrder, compareLex_eq_eq, compareOn, Std.LawfulEqOrd.compare_eq_iff_eq,
    Prod.ext_iff]

private instance : Std.LawfulEqCmp readyOrder where
  eq_of_compare := readyOrder_eq.mp

private theorem isLE_readyOrder {x y : Int × Nat} :
    (readyOrder x y).isLE = true ↔ x.1 < y.1 ∨ x.1 = y.1 ∧ x.2 ≤ y.2 := by
  rw [readyOrder, compareLex, Ordering.isLE_then_iff_or]
  simp only [compareOn, Std.compare_eq_lt, Std.LawfulEqOrd.compare_eq_iff_eq, Std.isLE_compare]

theorem mem_insert_ready {ready : Ready} {x y : Int × Nat} :
    y ∈ ready.insert x ↔ y = x ∨ y ∈ ready := by
  rw [Std.ExtTreeSet.mem_insert, readyOrder_eq, eq_comm]

theorem mem_erase_ready {ready : Ready} {x y : Int × Nat} :
    y ∈ ready.erase x ↔ y ≠ x ∧ y ∈ ready := by
  rw [Std.ExtTreeSet.mem_erase, ne_eq, readyOrder_eq, eq_comm]

private theorem getD_setIfInBounds (d : Array Nat) (v w : Nat) :
    (d.setIfInBounds v (d.getD v 0 - 1)).getD w 0 =
      if v = w then d.getD w 0 - 1 else d.getD w 0 := by
  by_cases hvw : v = w
  · subst hvw
    by_cases hv : v < d.size <;> simp [hv]
  · simp [hvw, Array.getElem?_setIfInBounds_ne]

theorem release_spec (priority : Nat → Int) (vs : List Nat) (degrees : Array Nat) (ready : Ready) :
    let r := release priority vs degrees ready
    r.1.size = degrees.size ∧
    (∀ w, r.1.getD w 0 = degrees.getD w 0 - vs.count w) ∧
    ∀ x, x ∈ r.2 ↔ x ∈ ready ∨ ∃ w ∈ vs, x = (priority w, w) ∧ r.1.getD w 0 = 0 := by
  induction vs generalizing degrees ready with
  | nil => simp [release]
  | cons v vs ih =>
    obtain ⟨hs, hd, hr⟩ := ih (degrees.setIfInBounds v (degrees.getD v 0 - 1))
      (if degrees.getD v 0 - 1 = 0 then ready.insert (priority v, v) else ready)
    rw [release]
    generalize release priority vs _ _ = r at hs hd hr ⊢
    have hd (w : Nat) : r.1.getD w 0 = degrees.getD w 0 - (v :: vs).count w := by
      rw [hd w, getD_setIfInBounds, List.count_cons]
      by_cases hvw : v = w
      · simp [hvw]
        omega
      · simp [hvw]
    refine ⟨by rw [hs, Array.size_setIfInBounds], hd, fun x => ?_⟩
    have hx : (x ∈ if degrees.getD v 0 - 1 = 0 then ready.insert (priority v, v) else ready) ↔
        x ∈ ready ∨ x = (priority v, v) ∧ degrees.getD v 0 - 1 = 0 := by
      split
      · next h => simp only [mem_insert_ready, h, and_true, or_comm]
      · next h => simp only [h, and_false, or_false]
    rw [hr, hx]
    constructor
    · rintro ((hx | ⟨rfl, h0⟩) | ⟨w, hw, rfl, h0⟩)
      · exact .inl hx
      · refine .inr ⟨v, List.mem_cons_self, rfl, ?_⟩
        rw [hd, List.count_cons_self]
        omega
      · exact .inr ⟨w, List.mem_cons_of_mem _ hw, rfl, h0⟩
    · rintro (hx | ⟨w, hw, rfl, h0⟩)
      · exact .inl (.inl hx)
      · by_cases hm : w ∈ vs
        · exact .inr ⟨w, hm, rfl, h0⟩
        · obtain rfl : w = v := (List.mem_cons.mp hw).resolve_right hm
          rw [hd, List.count_cons_self, List.count_eq_zero.mpr hm] at h0
          exact .inl (.inr ⟨rfl, h0⟩)

/-! ## The walk -/

/-- What the tables of the walk hold after the nodes of `done` were placed. -/
structure Agrees (g : Multigraph) (priority : Nat → Int) (done : List Nat) (degrees : Array Nat)
    (ready : Ready) : Prop where
  size : degrees.size = g.size
  degree : ∀ v < g.size, degrees.getD v 0 = g.waiting done v
  ready : ∀ x, x ∈ ready ↔ ∃ v, x = (priority v, v) ∧ g.Next done v
  closed : ∀ e ∈ g.edges, e.2 ∈ done → e.1 ∈ done

theorem next_iff {done : List Nat} {v : Nat} :
    g.Next done v ↔ v < g.size ∧ v ∉ done ∧ g.waiting done v = 0 := by
  rw [waiting_eq_zero]
  exact ⟨fun h => ⟨h.lt, h.fresh, h.after⟩, fun h => ⟨h.1, h.2.1, h.2.2⟩⟩

theorem Agrees.start (g : Multigraph) (priority : Nat → Int) :
    Agrees g priority [] g.inDegrees
      (.ofList (((List.range g.size).filter fun v => g.inDegrees.getD v 0 = 0).map
        fun v => (priority v, v)) _) where
  size := size_inDegrees
  degree v hv := inDegrees_getD hv
  ready x := by
    rw [Std.ExtTreeSet.mem_ofList, List.contains_iff_mem, List.mem_map]
    refine exists_congr fun v => ?_
    rw [List.mem_filter, List.mem_range, next_iff, decide_eq_true_eq]
    constructor
    · rintro ⟨⟨hv, h0⟩, rfl⟩
      exact ⟨rfl, hv, List.not_mem_nil, by rw [← inDegrees_getD hv, h0]⟩
    · rintro ⟨rfl, hv, -, h0⟩
      exact ⟨⟨hv, by rw [inDegrees_getD hv, h0]⟩, rfl⟩
  closed e _ he := absurd he List.not_mem_nil

/-- Placing a ready node keeps the tables in agreement. -/
theorem Agrees.step (hg : g.InRange) {done : List Nat} {degrees : Array Nat} {ready : Ready}
    (h : Agrees g priority done degrees ready) {v : Nat} (hv : g.Next done v) :
    Agrees g priority (done ++ [v])
      (release priority (g.targets.getD v []) degrees (ready.erase (priority v, v))).1
      (release priority (g.targets.getD v []) degrees (ready.erase (priority v, v))).2 := by
  obtain ⟨hs, hd, hr⟩ :=
    release_spec priority (g.targets.getD v []) degrees (ready.erase (priority v, v))
  generalize release priority _ _ _ = r at hs hd hr ⊢
  have degree : ∀ w < g.size, r.1.getD w 0 = g.waiting (done ++ [v]) w := by
    intro w hw
    rw [hd, h.degree w hw, count_targets hv.lt, waiting_append hv.fresh]
    omega
  refine ⟨hs.trans h.size, degree, ?_, ?_⟩
  · intro x
    rw [hr, mem_erase_ready, h.ready]
    constructor
    · rintro (⟨hne, w, rfl, hw⟩ | ⟨w, hw, rfl, h0⟩)
      · -- a node that was ready before
        refine ⟨w, rfl, hw.lt, ?_, fun e he hew => List.mem_append_left _ (hw.after e he hew)⟩
        rw [List.mem_append, List.mem_singleton, not_or]
        exact ⟨hw.fresh, fun hwv => hne (by rw [hwv])⟩
      · -- a node that waited for this one
        have he : (v, w) ∈ g.edges := (mem_targets hv.lt).mp hw
        have hlt : w < g.size := (hg _ he).2
        refine ⟨w, rfl, next_iff.mpr ⟨hlt, ?_, by rw [← degree w hlt, h0]⟩⟩
        rw [List.mem_append, List.mem_singleton, not_or]
        constructor
        · intro hm
          exact hv.fresh (h.closed _ he hm)
        · rintro rfl
          exact hv.fresh (hv.after _ he rfl)
    · rintro ⟨w, rfl, hw⟩
      have hwv : w ≠ v := fun e => hw.fresh (e ▸ List.mem_append_right _ List.mem_cons_self)
      have hwd : w ∉ done := fun hm => hw.fresh (List.mem_append_left _ hm)
      by_cases hold : ∀ e ∈ g.edges, e.2 = w → e.1 ∈ done
      · exact .inl ⟨fun e => hwv (Prod.ext_iff.mp e).2, w, rfl, hw.lt, hwd, hold⟩
      · right
        simp only [not_forall] at hold
        obtain ⟨e, he, hew, hed⟩ := hold
        have hev : e.1 = v := by
          have := hw.after e he hew
          simpa [hed] using this
        refine ⟨w, (mem_targets hv.lt).mpr ?_, rfl, ?_⟩
        · rw [← hev, ← hew]
          exact he
        · rw [degree w hw.lt, (next_iff.mp hw).2.2]
  · intro e he hm
    rcases List.mem_append.mp hm with hm | hm
    · exact List.mem_append_left _ (h.closed e he hm)
    · exact List.mem_append_left _ (hv.after e he (List.mem_singleton.mp hm))

/-- The walk is greedy, and it only stops early if nothing may come next. -/
theorem place_spec (hg : g.InRange) (fuel : Nat) {done : List Nat} {degrees : Array Nat}
    {ready : Ready} (h : Agrees g priority done degrees ready) :
    let order := place g.targets priority fuel degrees ready
    Greedy g priority done order ∧
      (order.length = fuel ∨ order.length < fuel ∧ ∀ v, ¬ g.Next (done ++ order) v) := by
  induction fuel generalizing done degrees ready with
  | zero => exact ⟨trivial, .inl rfl⟩
  | succ fuel ih =>
    rw [place]
    cases hm : ready.min? with
    | none =>
      refine ⟨trivial, .inr ⟨Nat.succ_pos fuel, fun v hv => ?_⟩⟩
      have hv : (priority v, v) ∈ ready := (h.ready _).mpr ⟨v, rfl, by simpa using hv⟩
      rw [Std.ExtTreeSet.min?_eq_none_iff] at hm
      rw [hm] at hv
      exact Std.ExtTreeSet.not_mem_empty hv
    | some x =>
      obtain ⟨hx, hmin⟩ := Std.ExtTreeSet.min?_eq_some_iff_mem_and_forall.mp hm
      obtain ⟨v, rfl, hv⟩ := (h.ready x).mp hx
      obtain ⟨hgreedy, hlen⟩ := ih (h.step hg hv)
      refine ⟨⟨hv, fun w hw => ?_, hgreedy⟩, ?_⟩
      · exact isLE_readyOrder.mp (hmin _ ((h.ready _).mpr ⟨w, rfl, hw⟩))
      · rcases hlen with hlen | ⟨hlen, hnone⟩
        · exact .inl (congrArg (· + 1) hlen)
        · refine .inr ⟨Nat.succ_lt_succ hlen, fun w hw => hnone w ?_⟩
          rwa [List.append_assoc]

/-! ## Orders of a whole graph -/

theorem Greedy.next {done order : List Nat} (h : Greedy g priority done order) {front rest : List Nat}
    {v : Nat} (ho : order = front ++ v :: rest) : g.Next (done ++ front) v := by
  induction front generalizing done order with
  | nil =>
    subst ho
    rw [List.append_nil]
    exact h.1
  | cons u front ih =>
    subst ho
    have hn := ih h.2.2 rfl
    rwa [List.append_assoc] at hn

theorem Greedy.least {done order : List Nat} (h : Greedy g priority done order) {front rest : List Nat}
    {v w : Nat} (ho : order = front ++ v :: rest) (hw : g.Next (done ++ front) w) :
    Before priority v w := by
  induction front generalizing done order with
  | nil =>
    subst ho
    rw [List.append_nil] at hw
    exact h.2.1 w hw
  | cons u front ih =>
    subst ho
    refine ih h.2.2 rfl ?_
    rwa [List.append_assoc]

theorem Greedy.nodup {done order : List Nat} (h : Greedy g priority done order) :
    order.Nodup ∧ ∀ v ∈ order, v < g.size ∧ v ∉ done := by
  induction order generalizing done with
  | nil => exact ⟨List.nodup_nil, fun v hv => absurd hv List.not_mem_nil⟩
  | cons u order ih =>
    obtain ⟨hu, -, hrest⟩ := h
    obtain ⟨hn, hm⟩ := ih hrest
    refine ⟨List.nodup_cons.mpr ⟨fun hu' => ?_, hn⟩, ?_⟩
    · exact (hm u hu').2 (List.mem_append_right _ List.mem_cons_self)
    · intro v hv
      cases hv with
      | head => exact ⟨hu.lt, hu.fresh⟩
      | tail _ hv => exact ⟨(hm v hv).1, fun hd => (hm v hv).2 (List.mem_append_left _ hd)⟩

/-- All nodes, each after its predecessors. -/
structure Sorts (g : Multigraph) (order : List Nat) : Prop where
  perm : order.Perm (List.range g.size)
  next : ∀ front v rest, order = front ++ v :: rest → g.Next front v

theorem Sorts.nodup {order : List Nat} (h : g.Sorts order) : order.Nodup :=
  h.perm.nodup_iff.mpr List.nodup_range

theorem Sorts.mem_iff {order : List Nat} (h : g.Sorts order) {v : Nat} : v ∈ order ↔ v < g.size := by
  rw [h.perm.mem_iff, List.mem_range]

/-- Every edge leads from an earlier to a later node. -/
theorem Sorts.forward (hg : g.InRange) {order : List Nat} (h : g.Sorts order) {e : Nat × Nat}
    (he : e ∈ g.edges) : order.idxOf e.1 < order.idxOf e.2 := by
  obtain ⟨front, rest, ho⟩ := List.append_of_mem (h.mem_iff.mpr (hg e he).2)
  have hm : e.1 ∈ front := (h.next front e.2 rest ho).after e he rfl
  have hfresh : e.2 ∉ front := (h.next front e.2 rest ho).fresh
  rw [ho, List.idxOf_append_of_mem hm, List.idxOf_append_of_notMem hfresh]
  exact (List.idxOf_lt_length_of_mem hm).trans_le (Nat.le_add_right _ _)

theorem sorts_of_forward {order : List Nat} (hp : order.Perm (List.range g.size))
    (hf : ∀ e ∈ g.edges, order.idxOf e.1 < order.idxOf e.2) : g.Sorts order where
  perm := hp
  next := by
    rintro front v rest rfl
    have hmem {u : Nat} : u ∈ front ++ v :: rest ↔ u < g.size := by rw [hp.mem_iff, List.mem_range]
    have hnodup : (front ++ v :: rest).Nodup := hp.nodup_iff.mpr List.nodup_range
    have hfresh : v ∉ front := fun hv =>
      List.disjoint_of_nodup_append hnodup hv List.mem_cons_self
    refine ⟨hmem.mp (List.mem_append_right _ List.mem_cons_self), hfresh, ?_⟩
    rintro e he rfl
    by_contra hu
    have hlt := hf e he
    rw [List.idxOf_append_of_notMem hu, List.idxOf_append_of_notMem hfresh, List.idxOf_cons_self] at hlt
    omega

theorem sorts_of_topologicalOrder? (hg : g.InRange) {order : List Nat}
    (h : g.topologicalOrder? priority = some order) :
    g.Sorts order ∧ Greedy g priority [] order := by
  have hp := place_spec hg g.size (.start g priority)
  simp only [topologicalOrder?] at h
  split at h
  · next hlen =>
    cases h
    refine ⟨⟨?_, fun front v rest ho => hp.1.next ho⟩, hp.1⟩
    obtain ⟨hn, hm⟩ := hp.1.nodup
    have hsub := List.subperm_of_subset hn fun v hv => List.mem_range.mpr (hm v hv).1
    exact hsub.perm_of_length_le (by rw [hlen, List.length_range])
  · cases h

/-! ## Cycles -/

/-- A path of one or more edges leads from one node to the other. -/
def Leads (g : Multigraph) : Nat → Nat → Prop := Relation.TransGen fun u v => (u, v) ∈ g.edges

/-- Some path comes back to the node at which it starts. -/
def Cyclic (g : Multigraph) : Prop := ∃ v, g.Leads v v

theorem Leads.lt (hg : g.InRange) {u v : Nat} (h : g.Leads u v) : v < g.size := by
  cases h with
  | single he => exact (hg _ he).2
  | tail _ he => exact (hg _ he).2

/-- Edges to greater numbers make no cycle. -/
theorem not_cyclic_of_forward (hf : ∀ e ∈ g.edges, e.1 < e.2) : ¬ g.Cyclic := by
  have forward : ∀ {u v}, g.Leads u v → u < v := by
    intro u v h
    induction h with
    | single he => exact hf _ he
    | tail _ he ih => exact ih.trans (hf _ he)
  rintro ⟨v, hv⟩
  exact absurd (forward hv) (Nat.lt_irrefl v)

/-- Where a path ends, all nodes on it have been placed before. -/
theorem Sorts.mem_of_leads {order : List Nat} (h : g.Sorts order) {u v : Nat} (hl : g.Leads u v) :
    ∀ front rest, order = front ++ v :: rest → u ∈ front := by
  induction hl with
  | single he =>
    intro front rest ho
    exact (h.next front _ rest ho).after _ he rfl
  | tail _ he ih =>
    intro front rest ho
    obtain ⟨before, after, hsplit⟩ := List.append_of_mem ((h.next front _ rest ho).after _ he rfl)
    rw [hsplit, List.append_assoc, List.cons_append] at ho
    rw [hsplit]
    exact List.mem_append_left _ (ih before _ ho)

theorem Sorts.not_cyclic (hg : g.InRange) {order : List Nat} (h : g.Sorts order) : ¬ g.Cyclic := by
  rintro ⟨v, hv⟩
  have hm : v ∈ order := h.mem_iff.mpr (hv.lt hg)
  obtain ⟨front, rest, ho⟩ := List.append_of_mem hm
  exact (h.next front v rest ho).fresh (h.mem_of_leads hv front rest ho)

/-- Without a cycle, something may come next as long as nodes are left. -/
theorem exists_next (hg : g.InRange) (hc : ¬ g.Cyclic) {done : List Nat}
    (hleft : ∃ v < g.size, v ∉ done) : ∃ v, g.Next done v := by
  let leads (u v : Fin g.size) : Prop := g.Leads u v
  have : IsTrans (Fin g.size) leads := ⟨fun _ _ _ huv hvw => Relation.TransGen.trans huv hvw⟩
  have : Std.Irrefl leads := ⟨fun v hv => hc ⟨v, hv⟩⟩
  have hwf : WellFounded leads := Finite.wellFounded_of_trans_of_irrefl leads
  -- a node that is left and that no path from another one of them leads to
  obtain ⟨v, hv, hleast⟩ := hwf.has_min {v | v.1 ∉ done} (hleft.elim fun v hv => ⟨⟨v, hv.1⟩, hv.2⟩)
  refine ⟨v, v.2, hv, fun e he hev => ?_⟩
  by_contra hd
  refine hleast ⟨e.1, (hg e he).1⟩ hd (Relation.TransGen.single ?_)
  rw [← hev]
  exact he

/-- Without a cycle there is an order. -/
theorem exists_topologicalOrder?_of_not_cyclic (priority : Nat → Int) (hg : g.InRange)
    (hc : ¬ g.Cyclic) : ∃ order, g.topologicalOrder? priority = some order := by
  have hp := place_spec hg g.size (.start g priority)
  simp only [topologicalOrder?]
  generalize place _ _ _ _ _ = order at hp ⊢
  obtain ⟨-, hlen | ⟨hlen, hnone⟩⟩ := hp
  · exact ⟨order, if_pos hlen⟩
  · exfalso
    have hleft : ∃ v < g.size, v ∉ order := by
      by_contra hall
      simp only [not_exists, not_and, not_not] at hall
      have hsub : (List.range g.size).Subperm order :=
        List.subperm_of_subset List.nodup_range fun v hv => hall v (List.mem_range.mp hv)
      have := List.Subperm.length_le hsub
      rw [List.length_range] at this
      omega
    obtain ⟨v, hv⟩ := exists_next hg hc hleft
    exact hnone v hv

theorem topologicalOrder?_eq_none_iff (priority : Nat → Int) (hg : g.InRange) :
    g.topologicalOrder? priority = none ↔ g.Cyclic := by
  constructor
  · intro h
    by_contra hc
    obtain ⟨order, ho⟩ := exists_topologicalOrder?_of_not_cyclic priority hg hc
    rw [h] at ho
    cases ho
  · intro hc
    cases h : g.topologicalOrder? priority with
    | none => rfl
    | some order => exact absurd hc ((sorts_of_topologicalOrder? hg h).1.not_cyclic hg)

theorem isAcyclic_iff (hg : g.InRange) : g.isAcyclic = true ↔ ¬ g.Cyclic := by
  rw [isAcyclic, Option.isSome_iff_ne_none, ne_eq, topologicalOrder?_eq_none_iff _ hg]

/-- If all edges lead to greater numbers, then there is an order. -/
theorem exists_topologicalOrder? (priority : Nat → Int) (hg : g.InRange) (hf : ∀ e ∈ g.edges, e.1 < e.2) :
    ∃ order, g.topologicalOrder? priority = some order :=
  exists_topologicalOrder?_of_not_cyclic priority hg (not_cyclic_of_forward hf)

/-- If moreover greater numbers never have lesser priorities, then the nodes come by number. -/
theorem topologicalOrder?_eq_range (hg : g.InRange) (hf : ∀ e ∈ g.edges, e.1 < e.2)
    (hp : ∀ v w, v ≤ w → w < g.size → priority v ≤ priority w) :
    g.topologicalOrder? priority = some (List.range g.size) := by
  obtain ⟨order, ho⟩ := exists_topologicalOrder? priority hg hf
  obtain ⟨hsorts, hgreedy⟩ := sorts_of_topologicalOrder? hg ho
  have key (order : List Nat) (k : Nat) (h : Greedy g priority (List.range k) order)
      (hk : k + order.length ≤ g.size) : order = List.range' k order.length := by
    induction order generalizing k with
    | nil => rfl
    | cons v rest ih =>
      obtain ⟨hv, hleast, hrest⟩ := h
      have hkn : g.Next (List.range k) k := by
        refine ⟨by simp at hk; omega, List.not_mem_range_self, fun e he hek => ?_⟩
        exact List.mem_range.mpr (hek ▸ hf e he)
      have hkv : k ≤ v := by
        have := hv.fresh
        rw [List.mem_range] at this
        omega
      have hvk : v = k := by
        rcases hleast k hkn with hlt | ⟨-, hle⟩
        · have := hp k v hkv hv.lt
          omega
        · omega
      subst hvk
      rw [← List.range_succ] at hrest
      rw [List.length_cons, List.range'_succ, ← ih (v + 1) hrest (by simp at hk; omega)]
  have hlen : order.length = g.size := by
    rw [hsorts.perm.length_eq, List.length_range]
  rw [ho, key order 0 hgreedy (by omega), hlen, List.range_eq_range']

end Multigraph
end BloqCircuit
