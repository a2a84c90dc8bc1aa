import BloqCircuit.Proofs.Amplitudes
import BloqCircuit.Proofs.Emission
/-! Different walks over one flow put the same operations into a circuit, and change the places only
of operations that share no qubit. -/
namespace BloqCircuit

/-! ## Lists in two orders -/

/-- Operations of two lists change places only where the lists disagree. -/
theorem Dense.Commuted.of_perm {ι γ : Type} {f : ι → Option (Operation γ)} {xs ys : List ι}
    (hperm : xs.Perm ys)
    (h : ∀ u v a b, [u, v].Sublist xs → [v, u].Sublist ys → f u = some a → f v = some b →
      a.qubits.Disjoint b.qubits) :
    Dense.Commuted (xs.filterMap f) (ys.filterMap f) := by
  induction ys generalizing xs with
  | nil =>
    rw [hperm.eq_nil]
    exact .nil
  | cons v ys ih =>
    obtain ⟨pre, post, rfl⟩ := List.append_of_mem (hperm.symm.subset List.mem_cons_self)
    have hrest : (pre ++ post).Perm ys := (List.perm_cons v).mp (List.perm_middle.symm.trans hperm)
    have hsub : (pre ++ post).Sublist (pre ++ v :: post) :=
      (List.sublist_cons_self v post).append_left pre
    have hcommuted := ih hrest fun u w a b hu hw =>
      h u w a b (hu.trans hsub) (hw.trans (List.sublist_cons_self v ys))
    cases hv : f v with
    | none =>
      rw [List.filterMap_append, List.filterMap_cons_none hv, ← List.filterMap_append,
        List.filterMap_cons_none hv]
      exact hcommuted
    | some b =>
      rw [List.filterMap_append, List.filterMap_cons_some hv, List.filterMap_cons_some hv]
      rw [List.filterMap_append] at hcommuted
      refine (Dense.Commuted.move fun a ha => ?_).trans (.cons b hcommuted)
      obtain ⟨u, hu, hua⟩ := List.mem_filterMap.mp ha
      have hbefore : [u, v].Sublist (pre ++ v :: post) :=
        (List.singleton_sublist.mpr hu).append (List.singleton_sublist.mpr List.mem_cons_self)
      have hafter : [v, u].Sublist (v :: ys) := List.Sublist.cons_cons v
        (List.singleton_sublist.mpr (hrest.subset (List.mem_append_left _ hu)))
      exact h u v a b hbefore hafter hua hv

private theorem exists_split {ι : Type} {u v : ι} {xs : List ι} (h : [u, v].Sublist xs) :
    ∃ front after, xs = front ++ u :: after ∧ v ∈ after := by
  obtain ⟨before, after, rfl, hu, hv⟩ := List.cons_sublist_iff.mp h
  obtain ⟨front, more, rfl⟩ := List.append_of_mem hu
  exact ⟨front, more ++ after, by simp, List.mem_append_right _ (List.singleton_sublist.mp hv)⟩

namespace Composite
variable {α κ : Type} {c : Composite (Bloq α κ)} {L : Labels}

variable [Angle α]

omit [Angle α] in
/-- The wires into two nodes that could both come next cross the front. -/
theorem Threaded.crossing_two {done : List Nat} {u v : Nat} (hu : c.graph.Next done u)
    (hv : c.graph.Next done v) (hne : u ≠ v) :
    ∃ rest, (c.crossing done).Perm
      (c.edges.filter (·.target == u) ++ (c.edges.filter (·.target == v) ++ rest)) := by
  have hinto : ∀ {w : Nat}, c.graph.Next done w →
      (c.crossing done).filter (·.target == w) = c.edges.filter (·.target == w) := by
    intro w hw
    rw [crossing, List.filter_filter]
    refine List.filter_congr fun e he => ?_
    by_cases ht : e.target = w
    · have hs := hw.after _ (List.mem_map_of_mem he) ht
      simp [ht, hs, hw.fresh]
    · simp [ht]
  refine ⟨((c.crossing done).filter fun e => !(e.target == u)).filter fun e => !(e.target == v), ?_⟩
  refine (List.filter_append_perm (·.target == u) (c.crossing done)).symm.trans ?_
  rw [hinto hu]
  refine List.Perm.append_left _ ?_
  refine (List.filter_append_perm (·.target == v) _).symm.trans (List.Perm.append_right _ ?_)
  rw [List.filter_filter, ← hinto hv]
  refine List.Perm.of_eq (List.filter_congr fun e _ => ?_)
  by_cases ht : e.target = v
  · have hu' : (v == u) = false := beq_eq_false_iff_ne.mpr hne.symm
    simp [ht, hu']
  · simp [ht]

/-- Two nodes that could both come next have no qubit in common. -/
theorem Flow.disjoint_of_next (h : c.Flow L) (hc : c.Threaded) {order done : List Nat}
    (hs : c.graph.Sorts order) (hd : c.Distinct L order) (hf : c.Front done) (hnodup : done.Nodup)
    {u v : Nat} (hu : c.graph.Next done u) (hv : c.graph.Next done v) (hne : u ≠ v) :
    (L.on u (c.regsIn u) ++ c.bornAt L u).Disjoint (L.on v (c.regsIn v) ++ c.bornAt L v) := by
  obtain ⟨rest, hcrossing⟩ := Threaded.crossing_two hu hv hne
  have hcut := h.cut_perm hc hf
  have hlabels := hcrossing.flatMap_right fun e => L e.start
  rw [List.flatMap_append, List.flatMap_append] at hlabels
  have hin := h.incoming_perm hc u
  have hin' := h.incoming_perm hc v
  -- what appears on the front and on the two nodes is part of what appears on the walk
  have hsub : (done ++ [u, v]).Subperm order := by
    refine List.Nodup.subperm ?_ fun w hw => hs.perm.mem_iff.mpr (List.mem_range.mpr ?_)
    · rw [List.nodup_append]
      refine ⟨hnodup, by simpa using hne, fun w hw w' hw' he => ?_⟩
      subst he
      rcases List.mem_cons.mp hw' with rfl | hw'
      · exact hu.fresh hw
      · exact hv.fresh (List.mem_singleton.mp hw' ▸ hw)
    · rcases List.mem_append.mp hw with hw | hw
      · obtain ⟨front, after, he⟩ := List.append_of_mem hw
        exact (hf front w after he).lt
      · rcases List.mem_cons.mp hw with rfl | hw
        · exact hu.lt
        · exact List.mem_singleton.mp hw ▸ hv.lt
  have hborn : (L.on 0 c.signature.lefts ++
      (done.flatMap (c.bornAt L) ++ (c.bornAt L u ++ c.bornAt L v))).Nodup := by
    obtain ⟨part, hperm, hpart⟩ := hsub
    have hnd : (L.on 0 c.signature.lefts ++ part.flatMap (c.bornAt L)).Nodup :=
      List.Nodup.sublist ((hpart.flatMap _).append_left _) hd
    have hflat := (hperm.flatMap_right (c.bornAt L)).append_left (L.on 0 c.signature.lefts)
    simpa using hflat.nodup_iff.mp hnd
  intro q hq hq'
  have hq := List.count_pos_iff.mpr hq
  have hq' := List.count_pos_iff.mpr hq'
  have hone := List.nodup_iff_count_le_one.mp hborn q
  have hcut := hcut.count_eq q
  have hlabels := hlabels.count_eq q
  have hin := hin.count_eq q
  have hin' := hin'.count_eq q
  simp only [List.count_append] at hq hq' hone hcut hlabels hin hin'
  omega

/-- Two walks over a flow of different qubits emit operations that can change places. -/
theorem Flow.commuted (h : c.Flow L) (hc : c.Threaded) (hp : ∀ x ∈ c.instances, x.bloq.Plain)
    {order order' : List Nat} (hs : c.graph.Sorts order) (hs' : c.graph.Sorts order')
    (hd : c.Distinct L order) :
    Dense.Commuted (order.filterMap (c.operationAt? L)) (order'.filterMap (c.operationAt? L)) := by
  refine Dense.Commuted.of_perm (hs.perm.trans hs'.perm.symm) fun u v a b huv hvu ha hb => ?_
  have hqubits : ∀ {w : Nat} {op : Operation (Gate α κ)}, c.operationAt? L w = some op →
      op.qubits.Perm (L.on w (c.regsIn w) ++ c.bornAt L w) := by
    intro w op hop
    obtain ⟨x, hx, hop⟩ := Option.bind_eq_some_iff.mp hop
    obtain ⟨g, hg, rfl⟩ := Option.map_eq_some_iff.mp hop
    obtain ⟨y, hy, rfl⟩ := exists_instance hx
    have hborn : c.bornAt L w = L.on w y.bloq.born := by
      rw [bornAt, hx]
      rfl
    rw [regsIn_eq hx, hborn, ← Labels.on_append]
    exact (Labels.on_perm (Bloq.lefts_born_perm ((hp y hy).of_emits hg).1)).symm
  obtain ⟨front, after, horder, hv⟩ := exists_split huv
  obtain ⟨front', after', horder', hu⟩ := exists_split hvu
  have hprefix : ∀ {order front after : List Nat} {w : Nat}, c.graph.Sorts order →
      order = front ++ w :: after → c.Front front ∧ c.graph.Next front w ∧ ∀ x ∈ after, x ∉ front := by
    rintro order front after w hs rfl
    have hf : c.Front (front ++ w :: after) := hs.next
    have hnd := hs.perm.nodup_iff.mpr List.nodup_range
    refine ⟨fun a x b he => hf a x (b ++ w :: after) (by rw [he]; simp), hf front w after rfl,
      fun x hx hm => (List.nodup_append.mp hnd).2.2 x hm x (List.mem_cons_of_mem _ hx) rfl⟩
  obtain ⟨hfront, hnext, hnot⟩ := hprefix hs horder
  obtain ⟨hfront', hnext', hnot'⟩ := hprefix hs' horder'
  -- what comes before either of the nodes is a front at which both could come next
  have hdone : c.Front (order.filter fun w => decide (w ∈ front ∨ w ∈ front')) := by
    refine Front.filter hs.next fun e he ht => decide_eq_true ?_
    exact (of_decide_eq_true ht).imp (hfront.closed he) (hfront'.closed he)
  have hmem : ∀ {w : Nat}, w ∈ order.filter (fun w => decide (w ∈ front ∨ w ∈ front')) ↔
      w ∈ front ∨ w ∈ front' := by
    intro w
    rw [List.mem_filter, decide_eq_true_iff, and_iff_right_iff_imp]
    rintro (hw | hw)
    · rw [horder]
      exact List.mem_append_left _ hw
    · refine (hs.perm.trans hs'.perm.symm).mem_iff.mpr ?_
      rw [horder']
      exact List.mem_append_left _ hw
  have hne : u ≠ v := fun he => hnext'.fresh (by
    have h := hnext.fresh
    subst he
    have hnd := hs.perm.nodup_iff.mpr List.nodup_range
    rw [horder] at hnd
    exact absurd hv (List.nodup_cons.mp (List.nodup_append.mp hnd).2.1).1)
  have hdisjoint := h.disjoint_of_next hc hs hd hdone
    ((hs.perm.nodup_iff.mpr List.nodup_range).filter _)
    (u := u) (v := v)
    ⟨hnext.lt, fun hm => (hmem.mp hm).elim hnext.fresh (hnot' u hu),
      fun e he ht => hmem.mpr (.inl (hnext.after e he ht))⟩
    ⟨hnext'.lt, fun hm => (hmem.mp hm).elim (hnot v hv) hnext'.fresh,
      fun e he ht => hmem.mpr (.inr (hnext'.after e he ht))⟩ hne
  exact fun q hq hq' => hdisjoint ((hqubits ha).subset hq) ((hqubits hb).subset hq')

end Composite
end BloqCircuit
