import Mathlib.Data.List.Flatten
import BloqCircuit.Proofs.Pools
/-! Every qubit of an export is accounted for: what the scope manages at the end are the outputs, and
nothing that was given back is among them. -/
namespace BloqCircuit

/-! ## A log of what is given back -/

/-- An allocator with a list of all qubits that it was asked to take back. -/
structure Logged (σ : Type) where
  base : σ
  freed : List Qubit := []

namespace Logged
variable {σ : Type} [Allocator σ]

def alloc (n : Nat) (s : Logged σ) : List Qubit × Logged σ :=
  let (qs, base) := Allocator.alloc (σ := σ) n s.base
  (qs, { s with base := base })

def free (qs : List Qubit) (s : Logged σ) : Except Error Unit × Logged σ :=
  let (result, base) := Allocator.free (σ := σ) qs s.base
  (result, { base := base, freed := s.freed ++ qs })

instance : Allocator (Logged σ) where
  alloc n := fun s => Logged.alloc n s
  free qs := fun s => Logged.free qs s

variable {s t : σ} {qs freed : List Qubit}

theorem alloc_eq {n : Nat} (h : Allocator.alloc n s = (qs, t)) :
    Allocator.alloc n (⟨s, freed⟩ : Logged σ) = (qs, ⟨t, freed⟩) := by
  show Logged.alloc n ⟨s, freed⟩ = _
  rw [Logged.alloc, h]

theorem free_gives (h : Gives (Allocator.free qs) s () t) :
    Gives (Allocator.free qs) (⟨s, freed⟩ : Logged σ) () ⟨t, freed ++ qs⟩ := by
  have h : Allocator.free qs s = (.ok (), t) := h
  show Logged.free qs ⟨s, freed⟩ = _
  rw [Logged.free, h]

theorem handed {lists : List (List Qubit)} (h : Handed lists s t) :
    Handed lists (⟨s, freed⟩ : Logged σ) ⟨t, freed⟩ := by
  induction h with
  | nil s => exact .nil _
  | cons halloc _ ih => exact .cons (alloc_eq halloc) ih

end Logged

/-! ## What a scope manages -/

namespace Scope
variable {σ : Type} [Allocator σ] {s t : Scope σ} {qs : List Qubit} {q : Qubit}

theorem mem_managed_alloc {n : Nat} (h : Allocator.alloc n s = (qs, t)) :
    q ∈ t.managed ↔ q ∈ s.managed ∨ q ∈ qs := by
  have h : Scope.alloc n s = (qs, t) := h
  cases h
  exact mem_insertMany

theorem mem_managed_handed {lists : List (List Qubit)} (h : Handed lists s t) :
    q ∈ t.managed ↔ q ∈ s.managed ∨ q ∈ lists.flatten := by
  induction h with
  | nil s => simp
  | cons halloc _ ih =>
    rw [ih, mem_managed_alloc halloc, List.flatten_cons, List.mem_append, or_assoc]

theorem mem_managed_free (h : Gives (Allocator.free qs) s () t) :
    q ∈ t.managed ↔ q ∈ s.managed ∧ q ∉ qs := by
  have h : Scope.free qs s = (.ok (), t) := h
  have hmanaged : t.managed = (release qs s).2.managed := by
    rw [Scope.free] at h
    split at h
    · cases h
    · dsimp only at h
      split at h
      · exact (congrArg (fun r => r.2.managed) h).symm
      · exact (congrArg (fun r => r.2.managed) h).symm
  rw [hmanaged, release_snd, mem_eraseMany]

end Scope

namespace Composite
variable {α κ : Type} {c : Composite (Bloq α κ)} {L : Labels}

/-- The qubits that a node gives back. -/
def releasedAt (c : Composite (Bloq α κ)) (L : Labels) (v : Nat) : List Qubit :=
  (c.bloqAt v).elim [] fun b => if b.releases then L.on v b.signature.lefts else []

/-- The qubits that end on a node and are not given back. -/
def keptAt (c : Composite (Bloq α κ)) (L : Labels) (v : Nat) : List Qubit :=
  (c.bloqAt v).elim [] fun b => if b.releases then [] else L.on v b.dead

theorem keptAt_of_none {v : Nat} (h : c.bloqAt v = none) : c.keptAt L v = [] := by
  rw [keptAt, h]
  rfl

/-- The log of a walk lists what its nodes give back. -/
theorem Served.logged {σ : Type} [Allocator σ] {order : List Nat} {s t : σ}
    (h : c.Served L order s t) (freed : List Qubit) :
    c.Served L order (⟨s, freed⟩ : Logged σ) ⟨t, freed ++ order.flatMap (c.releasedAt L)⟩ := by
  induction h generalizing freed with
  | nil s =>
    rw [List.flatMap_nil, List.append_nil]
    exact .nil _
  | @boundary v rest s u hb _ ih =>
    have hnone : c.releasedAt L v = [] := by
      rw [releasedAt, hb]
      rfl
    rw [List.flatMap_cons, hnone, List.nil_append]
    exact .boundary hb (ih freed)
  | @placed v b rest s t u hb hs _ ih =>
    obtain ⟨s₁, hh, hfree⟩ := hs
    rw [List.flatMap_cons, ← List.append_assoc]
    refine .placed hb ⟨⟨s₁, freed⟩, Logged.handed hh, ?_⟩ (ih _)
    rw [releasedAt, hb]
    cases hr : b.releases with
    | true =>
      rw [hr, if_pos rfl] at hfree
      rw [if_pos rfl]
      simp only [Option.elim, hr, if_true]
      exact Logged.free_gives hfree
    | false =>
      rw [hr, if_neg Bool.false_ne_true] at hfree
      rw [if_neg Bool.false_ne_true, hfree]
      simp [hr]

theorem kept_of_filter (L : Labels) (order : List Nat) :
    (order.filter (· != c.instances.length + 1)).flatMap (c.keptAt L) = order.flatMap (c.keptAt L) := by
  refine flatMap_filter fun v hv => ?_
  exact keptAt_of_none (bloqAt_of_last hv)

/-- What a node keeps is gone there. -/
theorem keptAt_sublist (L : Labels) (v : Nat) : (c.keptAt L v).Sublist (c.goneAt L v) := by
  rw [keptAt]
  cases hb : c.bloqAt v with
  | none => exact List.nil_sublist _
  | some b =>
    rw [goneAt_of_some hb, Option.elim]
    split
    · exact List.nil_sublist _
    · exact List.Sublist.refl _

variable [Angle α]

section
variable {σ : Type} [Allocator σ] {s t : Scope σ} {done rest : List Nat}

/-- Serving a bloq exchanges its inputs, among what is managed, for its outputs and for what ends on
it and is not given back. -/
theorem Flow.mem_managed_of_serves (h : c.Flow L) {v : Nat} {b : Bloq α κ}
    (hb : c.bloqAt v = some b) (hs : b.Serves L v s t) {others : List Qubit}
    (hn : (L.on v b.signature.lefts ++ others).Nodup)
    (hm : ∀ q, q ∈ s.managed ↔ q ∈ L.on v b.signature.lefts ++ others) (q : Qubit) :
    q ∈ t.managed ↔ q ∈ (L.on v b.signature.rights ++ c.keptAt L v) ++ others := by
  obtain ⟨u, hh, hfree⟩ := hs
  have hu : q ∈ u.managed ↔ q ∈ L.on v b.signature.lefts ++ others ∨ q ∈ L.on v b.born := by
    rw [Scope.mem_managed_handed hh, hm, flatten_born]
  cases hr : b.releases with
  | false =>
    rw [hr, if_neg Bool.false_ne_true] at hfree
    subst hfree
    have hkept : c.keptAt L v = L.on v b.dead := by
      rw [keptAt, hb, Option.elim, hr, if_neg Bool.false_ne_true]
    rw [hu, hkept, List.mem_append, or_right_comm, ← List.mem_append,
      (h.node v b hb).perm.mem_iff, ← List.mem_append]
  | true =>
    rw [hr, if_pos rfl] at hfree
    have hkept : c.keptAt L v = [] := by
      rw [keptAt, hb, Option.elim, hr, if_pos rfl]
    obtain ⟨dtype, rfl⟩ := Bloq.exists_free_of_releases hr
    obtain ⟨-, -, hapart⟩ := List.nodup_append.mp hn
    have hright : (Bloq.free dtype : Bloq α κ).signature.rights = [] := Bloq.rights_free dtype
    rw [Scope.mem_managed_free hfree, hu, Bloq.born_free, hright, hkept, Labels.on_nil,
      List.nil_append, List.nil_append, List.mem_append]
    constructor
    · rintro ⟨(hq | hq) | hq, hnot⟩
      · exact absurd hq hnot
      · exact hq
      · cases hq
    · exact fun hq => ⟨.inl (.inr hq), fun hl => hapart q hl q hq rfl⟩

/-- What is managed is what crosses the front and what was kept behind it. -/
theorem Flow.mem_managed_of_served (h : c.Flow L) (hc : c.Threaded)
    (hf : c.Front (done ++ rest)) (hd : c.Distinct L (done ++ rest))
    (hlast : c.instances.length + 1 ∉ rest) (hs : c.Served L rest s t)
    (hm : ∀ q, q ∈ s.managed ↔
      q ∈ ((c.crossing done).flatMap fun e => L e.start) ++ done.flatMap (c.keptAt L)) (q : Qubit) :
    q ∈ t.managed ↔ q ∈ ((c.crossing (done ++ rest)).flatMap fun e => L e.start) ++
      (done ++ rest).flatMap (c.keptAt L) := by
  -- on what is left of the walk: each node exchanges its inputs for its outputs on the front
  induction rest generalizing done s with
  | nil =>
    cases hs
    rw [List.append_nil]
    exact hm q
  | cons v rest ih =>
    have hassoc : done ++ v :: rest = done ++ [v] ++ rest := by simp
    have hlast' : c.instances.length + 1 ∉ rest := fun hmem => hlast (List.mem_cons_of_mem _ hmem)
    rw [hassoc] at hf ⊢
    have hfront : c.Front (done ++ [v]) := hf.of_append
    have hkept : (done ++ [v]).flatMap (c.keptAt L) = done.flatMap (c.keptAt L) ++ c.keptAt L v := by
      rw [List.flatMap_append, List.flatMap_singleton]
    cases hs with
    | boundary hb hs =>
      have hne : v ≠ c.instances.length + 1 := fun he => hlast (he ▸ List.mem_cons_self)
      have h0 := (eq_boundary_of_bloqAt hb hfront.init.2.lt).resolve_right hne
      refine ih hf (hassoc ▸ hd) hlast' hs fun q => ?_
      rw [hm, hkept, keptAt_of_none hb, List.append_nil, h0, hc.crossing_zero]
    | @placed _ b _ _ u _ hb hserves hs =>
      obtain ⟨others, hbefore, hafter⟩ := h.exchange_bloq hc hfront hb
      have hnodup : (L.on v b.signature.lefts ++ (others ++ done.flatMap (c.keptAt L))).Nodup := by
        rw [← List.append_assoc, ← (hbefore.append_right _).nodup_iff]
        refine (h.nodup_cut hc hfront.init.1 hd).sublist (List.Sublist.append_left ?_ _)
        exact List.Sublist.flatMap_right _ fun v _ => keptAt_sublist L v
      have hmanaged : ∀ q, q ∈ s.managed ↔
          q ∈ L.on v b.signature.lefts ++ (others ++ done.flatMap (c.keptAt L)) := fun q => by
        rw [hm, ← List.append_assoc, (hbefore.append_right _).mem_iff]
      refine ih hf (hassoc ▸ hd) hlast' hs fun q => ?_
      rw [h.mem_managed_of_serves hb hserves hnodup hmanaged q, (hafter.append_right _).mem_iff, hkept]
      simp only [List.mem_append]
      tauto

end

/-- After a whole walk the outputs are managed, and what was kept, and nothing else. -/
theorem Flow.mem_managed_or_kept {σ : Type} [Allocator σ] (h : c.Flow L) (hc : c.Threaded)
    {order : List Nat} (hs : c.graph.Sorts order) (hd : c.Distinct L order) {s t : Scope σ}
    (hserved : c.Served L order s t) (hm : ∀ q, q ∈ s.managed ↔ q ∈ L.on 0 c.signature.lefts)
    (q : Qubit) :
    q ∈ t.managed ↔ q ∈ L.on (c.instances.length + 1) c.signature.rights ∨
      q ∈ order.flatMap (c.keptAt L) := by
  have hfront : c.Front ([] ++ order.filter (· != c.instances.length + 1)) := hc.front_filter hs.next
  have hdistinct : c.Distinct L ([] ++ order.filter (· != c.instances.length + 1)) := by
    rw [Distinct, List.nil_append, born_of_filter]
    exact hd
  have hinner := (served_filter fun _ => bloqAt_of_last).mpr hserved
  rw [h.mem_managed_of_served hc hfront hdistinct (by simp) hinner (fun q => by
      rw [hm, List.flatMap_nil, List.append_nil, (h.first_front_perm hc).mem_iff]) q,
    List.nil_append, List.mem_append, (h.last_front_perm hc hs).mem_iff, kept_of_filter]

/-- After a whole walk past bloqs that keep nothing the outputs are managed, and nothing else. -/
theorem Flow.mem_managed_outputs {σ : Type} [Allocator σ] (h : c.Flow L) (hc : c.Threaded)
    (hkeeps : ∀ v b, c.bloqAt v = some b → b.releases = false → b.dead = []) {order : List Nat}
    (hs : c.graph.Sorts order) (hd : c.Distinct L order) {s t : Scope σ} (hserved : c.Served L order s t)
    (hm : ∀ q, q ∈ s.managed ↔ q ∈ L.on 0 c.signature.lefts) (q : Qubit) :
    q ∈ t.managed ↔ q ∈ L.on (c.instances.length + 1) c.signature.rights := by
  have hkept : order.flatMap (c.keptAt L) = [] := by
    refine List.flatMap_eq_nil_iff.mpr fun v _ => ?_
    rw [keptAt]
    cases hb : c.bloqAt v with
    | none => rfl
    | some b =>
      rw [Option.elim]
      split
      · rfl
      · next hr => rw [hkeeps v b hb (Bool.eq_false_iff.mpr hr), Labels.on_nil]
  rw [h.mem_managed_or_kept hc hs hd hserved hm q, hkept, or_iff_left List.not_mem_nil]

/-- What a node releases is gone there. -/
theorem releasedAt_sublist (L : Labels) (v : Nat) : (c.releasedAt L v).Sublist (c.goneAt L v) := by
  rw [releasedAt]
  cases hb : c.bloqAt v with
  | none => exact List.nil_sublist _
  | some b =>
    rw [goneAt_of_some hb, Option.elim]
    cases hr : b.releases with
    | false => exact List.nil_sublist _
    | true =>
      obtain ⟨dtype, rfl⟩ := Bloq.exists_free_of_releases hr
      have hlefts : (Bloq.free dtype : Bloq α κ).signature.lefts = [bundleOn .left dtype] :=
        Bloq.lefts_free dtype
      rw [if_pos rfl, hlefts, Bloq.dead_free]

/-- Parts of what is gone on the nodes are different qubits, and none of them comes out. -/
theorem Flow.nodup_of_gone (h : c.Flow L) (hc : c.Threaded) {order : List Nat}
    (hs : c.graph.Sorts order) (hd : c.Distinct L order) {part : Nat → List Qubit}
    (hpart : ∀ v, (part v).Sublist (c.goneAt L v)) (hlast : part (c.instances.length + 1) = []) :
    (order.flatMap part ++ L.on (c.instances.length + 1) c.signature.rights).Nodup := by
  have hrange : (order.flatMap part).Perm ((List.range (c.instances.length + 1)).flatMap part) := by
    have hperm := hs.perm.flatMap_right part
    have hsize : c.graph.size = c.instances.length + 1 + 1 := rfl
    rwa [hsize, List.range_succ, List.flatMap_append, List.flatMap_singleton, hlast,
      List.append_nil] at hperm
  rw [(hrange.append_right _).nodup_iff]
  exact (h.nodup_through hc hs hd).sublist
    ((List.Sublist.flatMap_right _ fun v _ => hpart v).append_right _)

/-- No qubit is released twice, and none that is released comes out. -/
theorem Flow.nodup_released (h : c.Flow L) (hc : c.Threaded) {order : List Nat}
    (hs : c.graph.Sorts order) (hd : c.Distinct L order) :
    (order.flatMap (c.releasedAt L) ++ L.on (c.instances.length + 1) c.signature.rights).Nodup := by
  refine h.nodup_of_gone hc hs hd (releasedAt_sublist L) ?_
  rw [releasedAt, bloqAt_last]
  rfl

/-- What is kept are different qubits, and none of them comes out. -/
theorem Flow.nodup_kept (h : c.Flow L) (hc : c.Threaded) {order : List Nat}
    (hs : c.graph.Sorts order) (hd : c.Distinct L order) :
    (order.flatMap (c.keptAt L) ++ L.on (c.instances.length + 1) c.signature.rights).Nodup :=
  h.nodup_of_gone hc hs hd (keptAt_sublist L) (keptAt_of_none bloqAt_last)

/-- What is given back does not come out. -/
theorem Flow.not_released_of_output (h : c.Flow L) (hc : c.Threaded) {order : List Nat}
    (hs : c.graph.Sorts order) (hd : c.Distinct L order) {q : Qubit}
    (hq : q ∈ L.on (c.instances.length + 1) c.signature.rights) :
    q ∉ order.flatMap (c.releasedAt L) := fun hm =>
  (List.nodup_append.mp (h.nodup_released hc hs hd)).2.2 q hm q hq rfl

omit [Angle α] in
/-- A bloq without inputs that are no outputs keeps no qubits. -/
theorem dead_eq_nil {b : Bloq α κ} (h : b.Plain)
    (hk : b.native? = none → ∀ r ∈ b.signature.registers, r.side ≠ .left)
    (hr : b.releases = false) : b.dead = [] := by
  cases h with
  | split t | join t => rfl
  | allocate t => exact Bloq.dead_allocate t
  | free t => cases hr
  | gate g => exact Bloq.dead_ofGate g
  | wrapped _ hn _ =>
    rw [Bloq.dead, (Bloq.emits_of_native? hn).2.1, if_neg Bool.false_ne_true]
    exact List.filter_eq_nil_iff.mpr fun r hr => by simpa using hk hn r hr

end Composite

/-- Whatever its order, an export on different inputs succeeds, and accounts for every qubit. Its
outputs have the shapes of their registers, sit on different qubits, were not given back, and are all
that is managed in the end. -/
theorem Builder.Reached.export_accounts {α κ : Type} [Angle α] {b b' : Builder (Bloq α κ)}
    {final : Soquets (Bloq α κ)} {c : Composite (Bloq α κ)} (hb : b.Reached)
    (hc : Gives (Builder.finalize final) b c b') (hp : ∀ x ∈ c.instances, x.bloq.Plain)
    (hk : ∀ x ∈ c.instances, x.bloq.native? = none →
      ∀ r ∈ x.bloq.signature.registers, r.side ≠ .left)
    (hq : ∀ x ∈ c.instances, ∀ r ∈ x.bloq.signature.registers, r.side = .right →
      r.dtype.isQuantum = true)
    {quregs : Quregs} {inputs : List Qubit} (hin : quregs.merge c.signature.lefts = .ok inputs)
    (hn : inputs.Nodup) (traversal : TraversalOrder) {p : CleanPool}
    (hpool : p.Spares inputs c.demand) :
    ∃ (circuit : Circuit (Gate α κ)) (out : Quregs) (outputs : List Qubit) (t : Scope CleanPool)
      (freed : List Qubit),
      Gives (c.export c.signature quregs traversal) (Scope.declare inputs { base := p })
        (circuit, out) t ∧
      Gives (c.export c.signature quregs traversal)
        (⟨Scope.declare inputs { base := p }, []⟩ : Logged (Scope CleanPool)) (circuit, out)
        ⟨t, freed⟩ ∧
      (∀ r ∈ c.signature.rights, ∃ g, out.get? r.name = some g ∧ g.shape = r.qubitShape) ∧
      out.merge c.signature.rights = .ok outputs ∧ outputs.Nodup ∧ (∀ q ∈ outputs, q ∉ freed) ∧
      ∀ q, q ∈ t.managed ↔ q ∈ outputs := by
  have hlinear : c.Threaded := hb.linear hc
  have hclassical : ∀ x ∈ c.instances, Export.classicalOutput? x.bloq.signature = none := by
    refine fun x hx => List.find?_eq_none.mpr fun r hr hon => ?_
    rw [Bool.and_eq_true, beq_iff_eq, Bool.not_eq_true'] at hon
    rw [hq x hx r (Signature.mem_rights.mp hr).1 hon.1] at hon
    exact absurd hon.2 Bool.false_ne_true.symm
  have hkeeps : ∀ v x, c.bloqAt v = some x → x.releases = false → x.dead = [] := by
    intro v x hx hr
    obtain ⟨y, hy, rfl⟩ := Composite.exists_instance hx
    exact Composite.dead_eq_nil (hp y hy) (hk y hy) hr
  obtain ⟨L, order, t, hflow, ho, hs, hd, hlefts, harray, -, hserved, -⟩ :=
    hlinear.exists_walk hin hn traversal hpool
  have hfits := hflow.fits_rights hlinear
  have hnames := hlinear.valid.nodup_rights
  refine ⟨_, _, L.on (c.instances.length + 1) c.signature.rights, t, _,
    hflow.export_gives_of hlinear hp hclassical harray ho hs hd hserved,
    hflow.export_gives_of hlinear hp hclassical harray ho hs hd (hserved.logged []),
    fun r hr => ⟨_, Arrays.get?_byRegister hnames hr, rfl⟩, Labels.merge_arrays hnames hfits,
    (hflow.nodup_through hlinear hs hd).of_append_right,
    fun q hq => hflow.not_released_of_output hlinear hs hd hq, fun q => ?_⟩
  refine hflow.mem_managed_outputs hlinear hkeeps hs hd hserved (fun q => ?_) q
  rw [hlefts]
  exact mem_insertMany.trans (or_iff_right (Std.ExtTreeSet.not_mem_empty))

private def suppliesQubit : Bloq Float Complex → Bool
  | .allocate t | .free t => t == .qbit
  | _ => false

/-- One qubit goes through beside two ancillas, of which one is freed and the other comes out. -/
theorem Builder.Reached.export_accounts_ancillas :
    ∃ (b b' : Builder (Bloq Float Complex)) (final : Soquets (Bloq Float Complex))
      (c : Composite (Bloq Float Complex)), b.Reached ∧ Gives (Builder.finalize final) b c b' ∧
      (∀ x ∈ c.instances, x.bloq = .allocate .qbit ∨ x.bloq = .free .qbit) ∧
      c.instances.length = 3 ∧ CleanPool.Spares {} [.named "q"] c.demand ∧
      ∃ (circuit : Circuit (Gate Float Complex)) (out : Quregs) (outputs : List Qubit)
        (t : Scope CleanPool) (freed : List Qubit),
        Gives (c.export c.signature (Quregs.named c.signature.lefts) .greedy)
          (Scope.declare [.named "q"] { base := {} }) (circuit, out) t ∧
        Gives (c.export c.signature (Quregs.named c.signature.lefts) .greedy)
          (⟨Scope.declare [.named "q"] { base := {} }, []⟩ : Logged (Scope CleanPool)) (circuit, out)
          ⟨t, freed⟩ ∧
        (∀ r ∈ c.signature.rights, ∃ g, out.get? r.name = some g ∧ g.shape = r.qubitShape) ∧
        out.merge c.signature.rights = .ok outputs ∧ outputs.Nodup ∧ (∀ q ∈ outputs, q ∉ freed) ∧
        ∀ q, q ∈ t.managed ↔ q ∈ outputs := by
  let q : Register := ⟨"q", .qbit, [], .thru⟩
  let m : BuildM (Bloq Float Complex) (Soquets (Bloq Float Complex)) := do
    let inputs ← Builder.start ⟨[q]⟩ true
    let a ← Builder.allocate .qbit
    let b ← Builder.allocate .qbit
    Builder.free a
    return inputs.insert "out" (.scalar b)
  -- all but the last call is run
  have hrun : Builder.closesWith m (fun b => decide (
      b.registers = [q, ⟨"out", .qbit, [], .right⟩] ∧ b.instances.toList.length = 3 ∧
      (b.instances.toList.map fun x => (x.bloq.born.map (·.totalBits)).sum).sum = 2 ∧
      b.instances.toList.all (fun x => suppliesQubit x.bloq) = true)) = true := by decide +kernel
  obtain ⟨final, b, b', hm, hclose, hempty, hp⟩ := Builder.exists_of_closesWith hrun
  obtain ⟨hregisters, hlength, hdemand, hbloqs⟩ := of_decide_eq_true hp
  obtain ⟨inputs, b₁, hstart, hm⟩ := gives_bind.mp hm
  obtain ⟨x, b₂, hx, hm⟩ := gives_bind.mp hm
  obtain ⟨y, b₃, hy, hm⟩ := gives_bind.mp hm
  obtain ⟨⟨⟩, b₄, hfree, hm⟩ := gives_bind.mp hm
  obtain ⟨rfl, rfl⟩ := gives_pure.mp hm
  have hreached : b₄.Reached :=
    .call (.call (.call (.start hstart) (.allocate hx)) (.allocate hy)) (.free hfree)
  obtain ⟨c, hfinal, hsignature, hinstances⟩ := hreached.sound.finalize_gives_of_consume
    (by rw [hregisters]; rfl) hclose hempty
  rw [hregisters] at hsignature
  rw [← hinstances] at hlength hdemand hbloqs
  have hkind : ∀ x ∈ c.instances, x.bloq = .allocate .qbit ∨ x.bloq = .free .qbit := by
    intro x hx
    have hx := List.all_eq_true.mp hbloqs x hx
    cases hb : x.bloq with
    | allocate t =>
      rw [hb] at hx
      exact .inl (congrArg _ (eq_of_beq hx))
    | free t =>
      rw [hb] at hx
      exact .inr (congrArg _ (eq_of_beq hx))
    | _ =>
      rw [hb] at hx
      cases hx
  have hspares : CleanPool.Spares {} [.named "q"] c.demand := by
    refine ⟨by rw [Composite.demand, hdemand]; decide, fun p hp => ?_⟩
    rw [List.mem_singleton.mp hp]
    exact CleanPool.not_mem_fresh (by simp) _ _
  refine ⟨b₄, b', _, c, hreached, hfinal, hkind, hlength, hspares,
    hreached.export_accounts hfinal (fun x hx => ?_) (fun x hx hn => ?_) (fun x hx r hr _ => ?_)
      (by rw [hsignature]; decide +kernel) (List.nodup_singleton _) .greedy hspares⟩
  · rcases hkind x hx with h | h <;> rw [h]
    · exact .allocate _
    · exact .free _
  · rcases hkind x hx with h | h <;> rw [h] at hn <;> cases hn
  · rcases hkind x hx with h | h <;> rw [h] at hr
    · rw [Bloq.signature_allocate, List.mem_singleton] at hr
      rw [hr]
      rfl
    · rw [Bloq.signature_free, List.mem_singleton] at hr
      rw [hr]
      rfl

end BloqCircuit
