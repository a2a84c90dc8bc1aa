import Mathlib.Order.Bounds.Basic
import BloqCircuit.Proofs.Order
/-! Generations. Whatever sorted list they are made from, a node is in the generation whose number is
the length of the longest path that ends at it. -/
namespace BloqCircuit
namespace Multigraph
variable {g : Multigraph} {order : List Nat} {d n u v : Nat}

/-! ## Longest paths -/

/-- A path of so many edges from one node to another. -/
inductive Path (g : Multigraph) : Nat → Nat → Nat → Prop
  | nil {v : Nat} : Path g 0 v v
  | snoc {n u v w : Nat} : Path g n u v → (v, w) ∈ g.edges → Path g (n + 1) u w

/-- The longest path that ends at a node has so many edges. -/
def Level (g : Multigraph) (v n : Nat) : Prop := IsGreatest {k | ∃ u, g.Path k u v} n

theorem Level.unique (h : g.Level v n) (h' : g.Level v d) : n = d := IsGreatest.unique h h'

/-- An edge leads to a greater level. -/
theorem Level.lt_of_edge (hu : g.Level u n) (hv : g.Level v d) (he : (u, v) ∈ g.edges) : n < d := by
  obtain ⟨x, hp⟩ := hu.1
  exact hv.2 ⟨x, hp.snoc he⟩

/-- The level of a node is one more than the greatest level at the start of an edge into it, and zero
if there is none. -/
theorem level_of_sources {f : Nat → Nat} (hf : ∀ u, (u, v) ∈ g.edges → g.Level u (f u))
    (hle : ∀ u, (u, v) ∈ g.edges → f u + 1 ≤ n)
    (hmax : n = 0 ∨ ∃ u, (u, v) ∈ g.edges ∧ n = f u + 1) : g.Level v n := by
  constructor
  · rcases hmax with rfl | ⟨u, he, rfl⟩
    · exact ⟨v, .nil⟩
    · obtain ⟨x, hp⟩ := (hf u he).1
      exact ⟨x, hp.snoc he⟩
  · rintro k ⟨x, hp⟩
    cases hp with
    | nil => exact Nat.zero_le n
    | snoc hp he =>
      have hlast := (hf _ he).2 ⟨x, hp⟩
      have hnext := hle _ he
      omega

/-- A longest path goes through all lesser levels. -/
theorem Level.exists_pred (h : g.Level v (n + 1)) : ∃ u, (u, v) ∈ g.edges ∧ g.Level u n := by
  obtain ⟨x, hp⟩ := h.1
  cases hp with
  | snoc hp he =>
    refine ⟨_, he, ⟨x, hp⟩, ?_⟩
    rintro k ⟨y, hq⟩
    exact Nat.le_of_succ_le_succ (h.2 ⟨y, hq.snoc he⟩)

/-! ## Depths -/

private theorem foldl_max {τ : Type} (f : τ → Nat) (xs : List τ) (a : Nat) :
    let m := xs.foldl (fun n x => max n (f x)) a
    a ≤ m ∧ (∀ x ∈ xs, f x ≤ m) ∧ (m = a ∨ ∃ x ∈ xs, m = f x) := by
  induction xs generalizing a with
  | nil => simp
  | cons x xs ih =>
    obtain ⟨hstart, hle, hmax⟩ := ih (max a (f x))
    rw [List.foldl_cons]
    generalize xs.foldl _ _ = m at hstart hle hmax ⊢
    refine ⟨by omega, ?_, ?_⟩
    · intro y hy
      rcases List.mem_cons.mp hy with rfl | hy
      · omega
      · exact hle y hy
    · rcases hmax with hmax | ⟨y, hy, hmax⟩
      · rcases Nat.le_total (f x) a with hx | hx
        · exact .inl (by omega)
        · exact .inr ⟨x, List.mem_cons_self, by omega⟩
      · exact .inr ⟨y, List.mem_cons_of_mem _ hy, hmax⟩

/-- The depths of the sources that stand before it give a node its level. -/
theorem level_depthAfter {depths : Array Nat} (hv : v < g.size)
    (h : ∀ u, (u, v) ∈ g.edges → g.Level u (depths.getD u 0)) :
    g.Level v (depthAfter depths (g.sources.getD v [])) := by
  obtain ⟨-, hle, hmax⟩ := foldl_max (fun s => depths.getD s 0 + 1) (g.sources.getD v []) 0
  apply level_of_sources h
  · intro u he
    exact hle u ((mem_sources hv).mpr he)
  · refine hmax.imp_right ?_
    rintro ⟨u, hu, hmax⟩
    exact ⟨u, (mem_sources hv).mp hu, hmax⟩

/-! ## The pass -/

namespace Layers

theorem size_put (gens : Array (List Nat)) (d v : Nat) : (put gens d v).size = max gens.size (d + 1) := by
  simp only [put, Array.size_modify, Array.size_append, Array.size_replicate]
  omega

theorem getD_put (gens : Array (List Nat)) (d v i : Nat) :
    (put gens d v).getD i [] = if i = d then gens.getD d [] ++ [v] else gens.getD i [] := by
  simp only [put, Array.getD_eq_getD_getElem?, Array.getElem?_modify, Array.getElem?_append,
    Array.getElem?_replicate]
  by_cases hid : i = d
  · subst hid
    by_cases hi : i < gens.size
    · simp [hi]
    · have hlt : i - gens.size < i + 1 - gens.size := by omega
      simp [hi, hlt]
  · by_cases hi : i < gens.size
    · simp [hi, hid, Ne.symm hid]
    · simp [hi, hid, Ne.symm hid]
      split <;> rfl

end Layers

/-- What the pass holds after it has gone through the nodes of `done`. -/
structure Layered (g : Multigraph) (done : List Nat) (l : Layers) : Prop where
  size : l.depths.size = g.size
  level : ∀ u ∈ done, g.Level u (l.depths.getD u 0)
  generation : ∀ d, l.generations.getD d [] = done.filter fun u => l.depths.getD u 0 = d
  filled : ∀ d < l.generations.size, l.generations.getD d [] ≠ []

theorem Layered.start (g : Multigraph) : g.Layered [] (.start g.size) where
  size := by simp [Layers.start]
  level u hu := absurd hu List.not_mem_nil
  generation d := by simp [Layers.start]
  filled d hd := by simp [Layers.start] at hd

/-- The lesser levels are there before a node is put into its own. -/
theorem Layered.le_size {done : List Nat} {l : Layers} (h : g.Layered done l) (hv : g.Next done v)
    (hd : g.Level v d) : d ≤ l.generations.size := by
  cases d with
  | zero => exact Nat.zero_le _
  | succ d =>
    obtain ⟨u, he, hu⟩ := hd.exists_pred
    have hdone := hv.after _ he rfl
    have hdepth : l.depths.getD u 0 = d := (h.level u hdone).unique hu
    have hmem : u ∈ l.generations.getD d [] := by
      rw [h.generation]
      exact List.mem_filter.mpr ⟨hdone, decide_eq_true hdepth⟩
    by_contra hsize
    simp [Array.getElem?_eq_none (Nat.le_of_lt_succ (Nat.lt_of_not_le hsize))] at hmem

/-- A node is put where its level says, after those that were there. -/
theorem Layered.put {done : List Nat} {l : Layers} (h : g.Layered done l) (hv : g.Next done v)
    (hd : g.Level v d) :
    g.Layered (done ++ [v])
      { depths := l.depths.setIfInBounds v d, generations := Layers.put l.generations d v } := by
  have hkept {u : Nat} (hu : u ∈ done) :
      (l.depths.setIfInBounds v d).getD u 0 = l.depths.getD u 0 := by
    have hne : v ≠ u := by
      rintro rfl
      exact hv.fresh hu
    simp [hne, Array.getElem?_setIfInBounds_ne]
  have hnew : (l.depths.setIfInBounds v d).getD v 0 = d := by simp [h.size, hv.lt]
  refine ⟨?size, ?level, ?generation, ?filled⟩
  case size => simp [h.size]
  case level =>
    intro u hu
    rcases List.mem_append.mp hu with hu | hu
    · rw [hkept hu]
      exact h.level u hu
    · obtain rfl := List.mem_singleton.mp hu
      rwa [hnew]
  case generation =>
    intro i
    have hold : (done.filter fun u => (l.depths.setIfInBounds v d).getD u 0 = i) =
        l.generations.getD i [] := by
      rw [h.generation]
      apply List.filter_congr
      intro u hu
      rw [hkept hu]
    rw [Layers.getD_put, List.filter_append, hold, List.filter_singleton, hnew]
    by_cases hi : i = d
    · simp [hi]
    · simp [hi, Ne.symm hi]
  case filled =>
    -- no generation is skipped, so that only the new one can have been added
    intro i hi
    have hle := h.le_size hv hd
    rw [Layers.size_put] at hi
    rw [Layers.getD_put]
    split
    · exact List.append_ne_nil_of_right_ne_nil _ (List.cons_ne_nil _ _)
    · apply h.filled
      omega

theorem Layered.add {done : List Nat} {l : Layers} (h : g.Layered done l) (hv : g.Next done v) :
    g.Layered (done ++ [v]) (l.add g.sources v) := by
  apply h.put hv
  apply level_depthAfter hv.lt
  intro u he
  exact h.level u (hv.after _ he rfl)

theorem Layered.foldl {done rest : List Nat} {l : Layers} (h : g.Layered done l)
    (hnext : ∀ front v back, rest = front ++ v :: back → g.Next (done ++ front) v) :
    g.Layered (done ++ rest) (rest.foldl (Layers.add g.sources) l) := by
  induction rest generalizing done l with
  | nil => rwa [List.append_nil]
  | cons v rest ih =>
    have hv := hnext [] v rest rfl
    rw [List.append_nil] at hv
    rw [List.append_cons]
    apply ih (h.add hv)
    intro front w back hback
    rw [List.append_assoc]
    exact hnext (v :: front) w back (congrArg (v :: ·) hback)

theorem Sorts.layered (h : g.Sorts order) :
    g.Layered order (order.foldl (Layers.add g.sources) (.start g.size)) :=
  (Layered.start g).foldl h.next

/-! ## Generations -/

/-- A generation has the nodes of its level, in the order of the list, and at least one of them. -/
theorem Sorts.generation (h : g.Sorts order) {nodes : List Nat}
    (hd : (g.generations order)[d]? = some nodes) :
    nodes ≠ [] ∧ nodes.Sublist order ∧ ∀ v, v ∈ nodes ↔ v ∈ order ∧ g.Level v d := by
  have hl := h.layered
  rw [generations, Array.getElem?_toList] at hd
  generalize order.foldl _ _ = l at hl hd
  obtain ⟨hlt, -⟩ := Array.getElem?_eq_some_iff.mp hd
  have hnodes : l.generations.getD d [] = nodes := by simp [hd]
  refine ⟨hnodes ▸ hl.filled d hlt, ?_, ?_⟩
  · rw [← hnodes, hl.generation]
    exact List.filter_sublist
  · intro v
    rw [← hnodes, hl.generation, List.mem_filter, decide_eq_true_eq]
    apply and_congr_right
    intro hv
    have hv := hl.level v hv
    constructor
    · rintro rfl
      exact hv
    · exact hv.unique

/-- Every level of a node has its generation. -/
theorem Sorts.exists_generation (h : g.Sorts order) (hv : v ∈ order) (hd : g.Level v d) :
    ∃ nodes, (g.generations order)[d]? = some nodes := by
  have hl := h.layered
  rw [generations, Array.getElem?_toList]
  generalize order.foldl _ _ = l at hl ⊢
  have hmem : v ∈ l.generations.getD d [] := by
    rw [hl.generation]
    exact List.mem_filter.mpr ⟨hv, decide_eq_true ((hl.level v hv).unique hd)⟩
  cases hnodes : l.generations[d]? with
  | none => simp [hnodes] at hmem
  | some nodes => exact ⟨nodes, rfl⟩

theorem Sorts.exists_level (h : g.Sorts order) (hv : v ∈ order) : ∃ d, g.Level v d :=
  ⟨_, h.layered.level v hv⟩

theorem Sorts.flatten_generations (h : g.Sorts order) : (g.generations order).flatten.Perm order := by
  have hnodup : (g.generations order).flatten.Nodup := by
    apply List.nodup_flatten.mpr
    constructor
    · intro nodes hnodes
      obtain ⟨d, hd⟩ := List.mem_iff_getElem?.mp hnodes
      exact h.nodup.sublist (h.generation hd).2.1
    · apply List.pairwise_iff_getElem.mpr
      intro i j hi hj hij v hvi hvj
      have hvi := ((h.generation (List.getElem?_eq_getElem hi)).2.2 v).mp hvi
      have hvj := ((h.generation (List.getElem?_eq_getElem hj)).2.2 v).mp hvj
      exact Nat.ne_of_lt hij (hvi.2.unique hvj.2)
  apply (List.perm_ext_iff_of_nodup hnodup h.nodup).mpr
  intro v
  rw [List.mem_flatten]
  constructor
  · rintro ⟨nodes, hnodes, hv⟩
    obtain ⟨d, hd⟩ := List.mem_iff_getElem?.mp hnodes
    exact (h.generation hd).2.1.subset hv
  · intro hv
    obtain ⟨d, hlevel⟩ := h.exists_level hv
    obtain ⟨nodes, hd⟩ := h.exists_generation hv hlevel
    exact ⟨nodes, List.mem_of_getElem? hd, ((h.generation hd).2.2 v).mpr ⟨hv, hlevel⟩⟩

/-- The generations made from another sorted list are the same up to order. -/
theorem Sorts.exists_perm_generation {order' : List Nat} (h : g.Sorts order) (h' : g.Sorts order')
    {nodes : List Nat} (hd : (g.generations order)[d]? = some nodes) :
    ∃ nodes', (g.generations order')[d]? = some nodes' ∧ nodes.Perm nodes' := by
  obtain ⟨hne, hsub, hmem⟩ := h.generation hd
  have hmove (v : Nat) : v ∈ order ↔ v ∈ order' := by rw [h.mem_iff, h'.mem_iff]
  obtain ⟨v, hv⟩ := List.exists_mem_of_ne_nil nodes hne
  have hv := (hmem v).mp hv
  obtain ⟨nodes', hd'⟩ := h'.exists_generation ((hmove v).mp hv.1) hv.2
  obtain ⟨-, hsub', hmem'⟩ := h'.generation hd'
  refine ⟨nodes', hd', ?_⟩
  apply (List.perm_ext_iff_of_nodup (h.nodup.sublist hsub) (h'.nodup.sublist hsub')).mpr
  intro v
  rw [hmem, hmem', hmove]

theorem Sorts.length_generations_le {order' : List Nat} (h : g.Sorts order) (h' : g.Sorts order') :
    (g.generations order).length ≤ (g.generations order').length := by
  by_contra hlt
  obtain ⟨nodes, hd, -⟩ :=
    h.exists_perm_generation h' (List.getElem?_eq_getElem (Nat.lt_of_not_le hlt))
  obtain ⟨hd, -⟩ := List.getElem?_eq_some_iff.mp hd
  exact absurd hd (Nat.lt_irrefl _)

theorem Sorts.generations_perm {order' : List Nat} (h : g.Sorts order) (h' : g.Sorts order') :
    List.Forall₂ List.Perm (g.generations order) (g.generations order') := by
  apply List.forall₂_iff_get.mpr
  refine ⟨(h.length_generations_le h').antisymm (h'.length_generations_le h), ?_⟩
  intro d hd hd'
  obtain ⟨nodes', hnodes', hperm⟩ := h.exists_perm_generation h' (List.getElem?_eq_getElem hd)
  rw [List.getElem?_eq_getElem hd'] at hnodes'
  cases hnodes'
  exact hperm

/-- Generations are levels: each has the nodes at which the longest path has so many edges, in the order
of the list. No generation is empty, each node stands in one, edges lead to later ones, and another
sorted list only changes the order within them. -/
theorem Sorts.generations_levels (h : g.Sorts order) :
    (∀ (d : Nat) nodes, (g.generations order)[d]? = some nodes →
      nodes ≠ [] ∧ nodes.Sublist order ∧ ∀ v, v ∈ nodes ↔ v ∈ order ∧ g.Level v d) ∧
    (g.generations order).flatten.Perm (List.range g.size) ∧
    (∀ (i j : Nat) us vs u v, (g.generations order)[i]? = some us → (g.generations order)[j]? = some vs →
      u ∈ us → v ∈ vs → (u, v) ∈ g.edges → i < j) ∧
    ∀ order', g.Sorts order' → List.Forall₂ List.Perm (g.generations order) (g.generations order') := by
  refine ⟨?nodes, ?once, ?forward, ?same⟩
  case nodes => exact fun d nodes hd => h.generation hd
  case once => exact h.flatten_generations.trans h.perm
  case forward =>
    intro i j us vs u v hi hj hu hv he
    have hu := ((h.generation hi).2.2 u).mp hu
    have hv := ((h.generation hj).2.2 v).mp hv
    exact hu.2.lt_of_edge hv.2 he
  case same => exact fun order' h' => h.generations_perm h'

/-- Parallel wires count once, and a wire past a level does not shorten the way. -/
theorem Sorts.generations_levels_diamond :
    let g : Multigraph := ⟨5, [(0, 1), (0, 1), (0, 2), (0, 3), (1, 3), (2, 3), (3, 4), (0, 4)]⟩
    g.Sorts [0, 2, 1, 3, 4] ∧ g.generations [0, 2, 1, 3, 4] = [[0], [2, 1], [3], [4]] ∧
    (∀ v, v ∈ [3] ↔ v ∈ [0, 2, 1, 3, 4] ∧ g.Level v 2) := by
  intro g
  have h : g.Sorts [0, 2, 1, 3, 4] :=
    sorts_of_forward (by decide +kernel) (by decide +kernel)
  have hgens : g.generations [0, 2, 1, 3, 4] = [[0], [2, 1], [3], [4]] := by decide +kernel
  exact ⟨h, hgens, ((generations_levels h).1 2 [3] (by rw [hgens]; rfl)).2.2⟩

end Multigraph
end BloqCircuit
