import BloqCircuit.Proofs.Accounting
import BloqCircuit.Proofs.Traversals
import BloqCircuit.Proofs.Wrapping
/-! What the decomposition of a wrapped bloq leaves in use: the ancillas that are neither freed on the
way nor returned at its end. -/
namespace BloqCircuit

/-! ## Pools -/

namespace CleanPool

/-- A pool after any calls, which took so many qubits in all. -/
inductive Reached : CleanPool → Nat → Prop
  | new : Reached {} 0
  | alloc {p : CleanPool} {taken : Nat} (n : Nat) : Reached p taken →
      Reached (p.alloc n).2 (taken + n)
  | free {p : CleanPool} {taken : Nat} (qs : List Qubit) : Reached p taken →
      Reached (p.free qs).2 taken

theorem Reached.spec {p : CleanPool} {taken : Nat} (h : p.Reached taken) :
    p.next = UInt32.ofNat taken ∧ ∀ q ∈ p.inUse, q ∈ fresh 0 taken := by
  induction h with
  | new => exact ⟨rfl, fun q hq => absurd hq Std.ExtTreeSet.not_mem_empty⟩
  | @alloc p taken n _ ih =>
    obtain ⟨hnext, huse⟩ := ih
    refine ⟨?_, fun q hq => ?_⟩
    · rw [UInt32.ofNat_add, ← hnext]
      rfl
    · rw [fresh_add, UInt32.zero_add, ← hnext]
      exact List.mem_append.mpr ((mem_insertMany.mp hq).imp_left (huse q))
  | @free p taken qs _ ih =>
    obtain ⟨hnext, huse⟩ := ih
    rw [CleanPool.free]
    split
    · exact ⟨hnext, huse⟩
    · exact ⟨hnext, fun q hq => huse q (mem_eraseMany.mp hq).1⟩

/-- Before its numbers wrap, a pool hands out no qubit that is in use. -/
theorem Reached.not_inUse {p : CleanPool} {taken n : Nat} (h : p.Reached taken)
    (hn : taken + n ≤ UInt32.size) {q : Qubit} (hq : q ∈ fresh p.next n) : q ∉ p.inUse := by
  obtain ⟨hnext, huse⟩ := h.spec
  have hnodup := nodup_fresh 0 hn
  rw [fresh_add, UInt32.zero_add, ← hnext] at hnodup
  exact fun hm => (List.nodup_append.mp hnodup).2.2 q (huse q hm) q hq rfl

end CleanPool

/-! ## A ledger of a scope -/

namespace Scope
variable {s t : Scope CleanPool} {qs : List Qubit}

/-- What taking qubits back does. Those that were declared stay in use below. -/
theorem free_spec (h : Gives (Allocator.free qs) s () t) (hn : qs.Nodup) :
    (∀ q ∈ qs, q ∈ s.managed) ∧ t.managed = s.managed.eraseMany qs ∧
      t.declared = s.declared.eraseMany qs ∧ t.base.next = s.base.next ∧
      ∀ q, q ∈ t.base.inUse ↔ q ∈ s.base.inUse ∧ ¬(q ∈ qs ∧ q ∉ s.declared) := by
  obtain ⟨hok, rfl⟩ := gives_free.mp h
  obtain ⟨hmanaged, huse⟩ := free_ok_iff.mp hok
  refine ⟨hmanaged, ?_, ?_, ?_, fun q => ?_⟩
  · rw [free_of_managed hmanaged]
  · rw [free_of_managed hmanaged]
  · rw [base_free, CleanPool.next_free]
  · rw [base_free, CleanPool.mem_inUse_free, CleanPool.free_ok_iff, and_iff_right huse,
      mem_passed_of_nodup hn, and_iff_right hmanaged]

/-- A scope on top of the pool `p` in which `inputs` were declared, `n` qubits were taken and `freed`
was given back. -/
structure Ledger (p : CleanPool) (inputs : List Qubit) (n : Nat) (freed : List Qubit)
    (s : Scope CleanPool) : Prop where
  next : s.base.next = p.next + UInt32.ofNat n
  managed : ∀ q ∈ s.managed, q ∈ inputs ++ CleanPool.fresh p.next n
  returned : ∀ q ∈ freed, q ∈ inputs ++ CleanPool.fresh p.next n
  declared : ∀ q, q ∈ s.declared ↔ q ∈ inputs ∧ q ∉ freed
  inUse : ∀ q, q ∈ s.base.inUse ↔
    (q ∈ p.inUse ∨ q ∈ CleanPool.fresh p.next n) ∧ (q ∈ inputs ∨ q ∉ freed)

variable {p : CleanPool} {inputs freed : List Qubit} {n : Nat}

theorem ledger_declare (p : CleanPool) (inputs : List Qubit) :
    Ledger p inputs 0 [] (Scope.declare inputs { base := p }) where
  next := (UInt32.add_zero _).symm
  managed q hq := by
    rcases mem_insertMany.mp hq with hq | hq
    · exact absurd hq Std.ExtTreeSet.not_mem_empty
    · exact List.mem_append_left _ hq
  returned q hq := absurd hq List.not_mem_nil
  declared q := by
    constructor
    · intro hq
      rcases mem_insertMany.mp hq with hq | hq
      · exact absurd hq Std.ExtTreeSet.not_mem_empty
      · exact ⟨hq, List.not_mem_nil⟩
    · exact fun hq => mem_insertMany.mpr (.inr hq.1)
  inUse q := by simp [Scope.declare, CleanPool.fresh]

variable {limit : Nat}

theorem Ledger.alloc (h : Ledger p inputs n freed s) {m : Nat} (ha : Allocator.alloc m s = (qs, t))
    (hn : (inputs ++ CleanPool.fresh p.next limit).Nodup) (hm : n + m ≤ limit) :
    Ledger p inputs (n + m) freed t := by
  have hqs : qs = CleanPool.fresh s.base.next m := (congrArg Prod.fst ha).symm
  have ht : t = (Scope.alloc m s).2 := (congrArg Prod.snd ha).symm
  have hfresh : CleanPool.fresh p.next (n + m) = CleanPool.fresh p.next n ++ qs := by
    rw [hqs, CleanPool.fresh_add, h.next]
  obtain ⟨k, rfl⟩ := Nat.exists_eq_add_of_le hm
  rw [CleanPool.fresh_add, hfresh, ← List.append_assoc, ← List.append_assoc] at hn
  have hapart : ∀ q ∈ qs, q ∉ freed := fun q hq hf =>
    (List.nodup_append.mp hn.of_append_left).2.2 q (h.returned q hf) q hq rfl
  have hgrows : ∀ q ∈ inputs ++ CleanPool.fresh p.next n,
      q ∈ inputs ++ CleanPool.fresh p.next (n + m) := by
    intro q hq
    rw [hfresh, ← List.append_assoc]
    exact List.mem_append_left _ hq
  refine ⟨?_, fun q hq => ?_, fun q hq => ?_, ?_, fun q => ?_⟩
  · rw [ht, UInt32.ofNat_add, ← UInt32.add_assoc, ← h.next]
    rfl
  · rw [ht] at hq
    rcases mem_insertMany.mp hq with hq | hq
    · exact hgrows q (h.managed q hq)
    · rw [hfresh, ← List.append_assoc, hqs]
      exact List.mem_append_right _ hq
  · exact hgrows q (h.returned q hq)
  · rw [ht]
    exact h.declared
  · have hmem : q ∈ t.base.inUse ↔ q ∈ s.base.inUse ∨ q ∈ qs := by
      rw [ht, hqs]
      exact mem_insertMany
    rw [hmem, h.inUse, hfresh, List.mem_append]
    constructor
    · rintro (⟨hq, hi⟩ | hq)
      · exact ⟨hq.imp_right .inl, hi⟩
      · exact ⟨.inr (.inr hq), .inr (hapart q hq)⟩
    · rintro ⟨hq | hq | hq, hi⟩
      · exact .inl ⟨.inl hq, hi⟩
      · exact .inl ⟨.inr hq, hi⟩
      · exact .inr hq

theorem Ledger.free (h : Ledger p inputs n freed s) (hf : Gives (Allocator.free qs) s () t)
    (hn : (freed ++ qs).Nodup) : Ledger p inputs n (freed ++ qs) t := by
  obtain ⟨hmanaged, hm, hd, hnext, huse⟩ := free_spec hf hn.of_append_right
  have hapart : ∀ q ∈ qs, q ∉ freed := fun q hq hm => (List.nodup_append.mp hn).2.2 q hm q hq rfl
  refine ⟨hnext.trans h.next, fun q hq => ?_, fun q hq => ?_, fun q => ?_, fun q => ?_⟩
  · rw [hm] at hq
    exact h.managed q (mem_eraseMany.mp hq).1
  · rcases List.mem_append.mp hq with hq | hq
    · exact h.returned q hq
    · exact h.managed q (hmanaged q hq)
  · rw [hd, mem_eraseMany, h.declared, List.mem_append, not_or, and_assoc]
  · rw [huse, h.inUse, h.declared, List.mem_append]
    have := hapart q
    tauto

theorem Ledger.handed {lists : List (List Qubit)} (h : Ledger p inputs n freed s)
    (hh : Handed lists s t) (hn : (inputs ++ CleanPool.fresh p.next limit).Nodup)
    (hm : n + lists.flatten.length ≤ limit) : Ledger p inputs (n + lists.flatten.length) freed t := by
  induction hh generalizing n with
  | nil s => exact h
  | cons halloc _ ih =>
    rw [List.flatten_cons, List.length_append, ← Nat.add_assoc] at hm ⊢
    exact ih (h.alloc halloc hn (Nat.le_trans (Nat.le_add_right _ _) hm)) hm

/-- What stays in use in the pool, if it hands out no input and nothing that is in use. -/
theorem Ledger.mem_inUse (h : Ledger p inputs n freed s) (hp : p.Spares inputs n)
    (hfresh : ∀ q ∈ CleanPool.fresh p.next n, q ∉ p.inUse) (q : Qubit) :
    q ∈ s.base.inUse ↔ q ∈ p.inUse ∨ q ∈ CleanPool.fresh p.next n ∧ q ∉ freed := by
  rw [h.inUse]
  constructor
  · rintro ⟨hq | hq, hi⟩
    · exact .inl hq
    · exact .inr ⟨hq, hi.resolve_left fun hi => hp.apart q hi hq⟩
  · rintro (hq | ⟨hq, hf⟩)
    · refine ⟨.inl hq, or_iff_not_imp_right.mpr fun hf => ?_⟩
      exact (List.mem_append.mp (h.returned q (not_not.mp hf))).resolve_right fun hm => hfresh q hm hq
    · exact ⟨.inr hq, .inr hf⟩

theorem Ledger.inUse_eq_iff (h : Ledger p inputs n freed s) (hp : p.Spares inputs n)
    (hfresh : ∀ q ∈ CleanPool.fresh p.next n, q ∉ p.inUse) :
    s.base.inUse = p.inUse ↔ ∀ q ∈ CleanPool.fresh p.next n, q ∈ freed := by
  have hmem := h.mem_inUse hp hfresh
  constructor
  · intro heq q hq
    by_contra hf
    exact hfresh q hq (heq ▸ (hmem q).mpr (.inr ⟨hq, hf⟩))
  · intro hall
    refine Std.ExtTreeSet.ext_mem fun q => ?_
    rw [hmem]
    exact or_iff_left fun hq => hq.2 (hall q hq.1)

end Scope

/-! ## Decompositions -/

namespace Composite
variable {α κ : Type} {c : Composite (Bloq α κ)} {L : Labels} {p : CleanPool}
  {inputs freed : List Qubit} {n limit : Nat} {s t : Scope CleanPool}

/-- A walk takes what appears on it and gives back what its nodes release. -/
theorem Served.ledger {order : List Nat} (hs : c.Served L order s t)
    (h : Scope.Ledger p inputs n freed s) (hn : (inputs ++ CleanPool.fresh p.next limit).Nodup)
    (hm : n + (order.flatMap (c.bornAt L)).length ≤ limit)
    (hfreed : (freed ++ order.flatMap (c.releasedAt L)).Nodup) :
    Scope.Ledger p inputs (n + (order.flatMap (c.bornAt L)).length)
      (freed ++ order.flatMap (c.releasedAt L)) t := by
  induction hs generalizing n freed with
  | nil s =>
    rw [List.flatMap_nil, List.flatMap_nil, List.append_nil]
    exact h
  | @boundary v rest s u hb _ ih =>
    have hnone : c.releasedAt L v = [] := by
      rw [releasedAt, hb]
      rfl
    rw [List.flatMap_cons, bornAt_of_none hb, List.nil_append] at hm ⊢
    rw [List.flatMap_cons, hnone, List.nil_append] at hfreed ⊢
    exact ih h hm hfreed
  | @placed v b rest s u t hb hserves _ ih =>
    obtain ⟨w, hh, hfree⟩ := hserves
    rw [List.flatMap_cons, bornAt_of_some hb, List.length_append, ← Nat.add_assoc] at hm ⊢
    rw [List.flatMap_cons, ← List.append_assoc] at hfreed ⊢
    have hborn := h.handed hh hn (by
      rw [flatten_born]
      exact Nat.le_trans (Nat.le_add_right _ _) hm)
    rw [flatten_born] at hborn
    refine ih ?_ hm hfreed
    rw [releasedAt, hb] at hfreed ⊢
    cases hr : b.releases with
    | true =>
      rw [hr, if_pos rfl] at hfree
      simp only [Option.elim, hr, if_true] at hfreed ⊢
      exact hborn.free hfree hfreed.of_append_left
    | false =>
      rw [hr, if_neg Bool.false_ne_true] at hfree
      simp only [Option.elim, hr, Bool.false_eq_true, if_false, List.append_nil]
      exact hfree ▸ hborn

variable [Angle α]

/-- Where no bloq keeps qubits, what appears on a walk is released on it or comes out. -/
theorem Flow.mem_released_or_output (h : c.Flow L) (hc : c.Threaded)
    (hkeeps : ∀ v b, c.bloqAt v = some b → b.releases = false → b.dead = []) {order : List Nat}
    (hs : c.graph.Sorts order) {q : Qubit} (hq : q ∈ order.flatMap (c.bornAt L)) :
    q ∈ order.flatMap (c.releasedAt L) ∨ q ∈ L.on (c.instances.length + 1) c.signature.rights := by
  have hsize : c.graph.size = c.size := rfl
  have hmem : ∀ v, v ∈ order ↔ v < c.size := fun v => hs.perm.mem_iff.trans (hsize ▸ List.mem_range)
  rw [(hs.perm.flatMap_right _).mem_iff] at hq
  rcases List.mem_append.mp
    ((h.through_perm hc).mem_iff.mpr (List.mem_append_right _ hq)) with hgone | hout
  · obtain ⟨v, hv, hgone⟩ := List.mem_flatMap.mp hgone
    have hlt := List.mem_range.mp hv
    rw [goneAt, if_neg (Nat.ne_of_lt hlt)] at hgone
    refine .inl (List.mem_flatMap.mpr ⟨v, (hmem v).mpr (Nat.lt_succ_of_lt hlt), ?_⟩)
    rw [releasedAt]
    cases hb : c.bloqAt v with
    | none =>
      rw [hb] at hgone
      cases hgone
    | some b =>
      rw [hb, Option.elim] at hgone
      cases hr : b.releases with
      | false =>
        rw [hkeeps v b hb hr] at hgone
        cases hgone
      | true =>
        obtain ⟨dtype, rfl⟩ := Bloq.exists_free_of_releases hr
        have hlefts : (Bloq.free dtype : Bloq α κ).signature.lefts = [bundleOn .left dtype] :=
          Bloq.lefts_free dtype
        rw [Bloq.dead_free, ← hlefts] at hgone
        exact hgone
  · exact .inr hout

end Composite

namespace Wrapped

/-- The arrays that are picked are those of the map. -/
theorem get?_of_pick {registers : List Register} {quregs given out : Quregs}
    (h : pick quregs registers given = .ok out) :
    (∀ r ∈ registers, out.get? r.name = quregs.get? r.name) ∧
      ∀ name ∉ registers.map (·.name), out.get? name = given.get? name := by
  induction registers generalizing given with
  | nil =>
    cases h
    exact ⟨fun r hr => absurd hr List.not_mem_nil, fun _ _ => rfl⟩
  | cons r rest ih =>
    rw [pick] at h
    cases hg : quregs.get? r.name with
    | none =>
      rw [hg] at h
      cases h
    | some g =>
      rw [hg] at h
      obtain ⟨hrest, hother⟩ := ih h
      refine ⟨fun s hs => ?_, fun name hname => ?_⟩
      · by_cases hmem : s.name ∈ rest.map (·.name)
        · obtain ⟨s', hs', heq⟩ := List.mem_map.mp hmem
          rw [← heq]
          exact hrest s' hs'
        · have hs : s = r := (List.mem_cons.mp hs).resolve_right fun hs =>
            hmem (List.mem_map_of_mem hs)
          rw [hother _ hmem, hs, Arrays.get?_insert, if_pos rfl, hg]
      · rw [List.map_cons, List.mem_cons, not_or] at hname
        rw [hother name hname.2, Arrays.get?_insert, if_neg hname.1]

end Wrapped

/-- Under different names, arrays that were cut out of a list of different qubits hold different qubits
of the list. -/
theorem Quregs.nodup_qubitsUnder {s : Signature} {qubits : List Qubit} {quregs : Quregs}
    (h : Quregs.split s qubits = .ok quregs) (hn : qubits.Nodup) {names : List String}
    (hnames : names.Nodup) :
    (quregs.qubitsUnder names).Nodup ∧ ∀ q ∈ quregs.qubitsUnder names, q ∈ qubits := by
  have hsubperm := subperm_qubitsUnder (q := quregs) hnames
  rw [qubits_of_split h] at hsubperm
  obtain ⟨part, hperm, hpart⟩ := hsubperm
  exact ⟨hperm.nodup_iff.mp (hn.sublist hpart), fun q hq => hpart.subset (hperm.mem_iff.mpr hq)⟩

theorem Quregs.nodup_of_split {s : Signature} {qubits inputs : List Qubit} {quregs arrays : Quregs}
    (h : Quregs.split s qubits = .ok quregs) (hn : qubits.Nodup) {registers : List Register}
    (hnames : (registers.map (·.name)).Nodup)
    (harrays : ∀ r ∈ registers, arrays.get? r.name = quregs.get? r.name)
    (hmerge : arrays.merge registers = .ok inputs) : inputs.Nodup ∧ ∀ q ∈ inputs, q ∈ qubits := by
  have hsame : arrays.qubitsUnder (registers.map (·.name)) =
      quregs.qubitsUnder (registers.map (·.name)) :=
    qubitsUnder_congr (List.forall_mem_map.mpr harrays)
  rw [qubitsUnder_of_merge hmerge, hsame]
  exact nodup_qubitsUnder h hn hnames

/-! ## What decompositions ran -/

theorem Scope.gives_of_within {σ τ : Type} {s t : σ} {x : τ} {m : AllocM (Scope σ) τ}
    (h : Gives (Scope.within m) s x t) :
    ∃ u, Gives m { base := s } x u ∧ t = u.base := by
  have h : Scope.within m s = (.ok x, t) := h
  rw [Scope.within] at h
  cases hm : m { base := s } with
  | mk result u =>
    rw [hm] at h
    cases h
    exact ⟨u, hm, rfl⟩

namespace Wrapped

/-- A decomposition that gives operations emitted a composite. -/
theorem of_decompose {β γ : Type} [BloqKind β] [GateKind γ] [CircuitForm β γ] {s : Signature}
    {decomposition : Except Error (Composite β)} {qubits : List Qubit} {p p' : CleanPool}
    {ops : List (Operation γ)} (h : Gives (decompose s decomposition qubits) p (some ops) p') :
    ∃ (quregs : Quregs) (c : Composite β) (circuit : Circuit γ),
      Quregs.split s qubits = .ok quregs ∧ decomposition = .ok c ∧
        Gives (emitOn c quregs) p circuit p' ∧ ops = circuit.operations := by
  rcases cases_of_decompose h with ⟨-, hnone⟩ | ⟨quregs, c, hsplit, hc, hends⟩
  · exact absurd rfl (hnone ops)
  · rcases hends with ⟨circuit, hops, hemit⟩ | ⟨e, hnone, -⟩
    · cases hops
      exact ⟨quregs, c, circuit, hsplit, hc, hemit, rfl⟩
    · split at hnone <;> cases hnone

theorem of_emitOn {β γ : Type} [BloqKind β] [GateKind γ] [CircuitForm β γ] {c : Composite β}
    {quregs : Quregs} {emitted : Circuit γ} {p p' : CleanPool}
    (h : Gives (emitOn c quregs) p emitted p') :
    ∃ (arrays : Quregs) (inputs : List Qubit) (circuit : Circuit γ) (out : Quregs)
      (pairs : List (Qubit × Qubit)) (s t : Scope CleanPool),
      pick quregs c.signature.lefts Arrays.empty = .ok arrays ∧
      arrays.merge c.signature.lefts = .ok inputs ∧
      Gives (c.export c.signature arrays .greedy) (Scope.declare inputs { base := p })
        (circuit, out) s ∧
      Gives (returnOutputs out quregs (c.signature.rights.filter (·.side == .right))) s pairs t ∧
      p' = t.base ∧ emitted = circuit.map (Renaming.ofPairs pairs).rename := by
  obtain ⟨u, hwithin, rfl⟩ := Scope.gives_of_within h
  obtain ⟨arrays, s₁, hlift, hrest⟩ := gives_bind.mp hwithin
  obtain ⟨hpick, rfl⟩ := gives_lift.mp hlift
  obtain ⟨inputs, s₂, hlift, hrest⟩ := gives_bind.mp hrest
  obtain ⟨hmerge, rfl⟩ := gives_lift.mp hlift
  obtain ⟨⟨⟩, s₃, hdeclare, hrun⟩ := gives_bind.mp hrest
  obtain rfl := gives_modify.mp hdeclare
  obtain ⟨⟨circuit, out⟩, s₄, hexport, hrest⟩ := gives_bind.mp hrun
  obtain ⟨pairs, s₅, hreturn, hlast⟩ := gives_bind.mp hrest
  obtain ⟨rfl, rfl⟩ := gives_pure.mp hlast
  exact ⟨arrays, inputs, circuit, out, pairs, s₄, s₅, hpick, hmerge, hexport, hreturn, rfl, rfl⟩

/-- What is returned at the end of a decomposition is given back as well. -/
theorem ledger_of_returnOutputs {L : Labels} {w n : Nat} {registers : List Register}
    {produced assigned : Quregs} {p : CleanPool} {inputs freed : List Qubit} {s t : Scope CleanPool}
    {pairs : List (Qubit × Qubit)}
    (hp : ∀ r ∈ registers, produced.get? r.name = some (L.array w r)) (hL : L.Fits w registers)
    (hg : Gives (returnOutputs produced assigned registers) s pairs t)
    (h : Scope.Ledger p inputs n freed s) (hn : (freed ++ L.on w registers).Nodup) :
    Scope.Ledger p inputs n (freed ++ L.on w registers) t := by
  induction registers generalizing s freed pairs with
  | nil =>
    obtain ⟨-, rfl⟩ := gives_pure.mp hg
    rw [Labels.on_nil, List.append_nil]
    exact h
  | cons r rest ih =>
    have hr : r ∈ r :: rest := List.mem_cons_self
    have hsplit : L.on w (r :: rest) = L.on w [r] ++ L.on w rest := Labels.on_append [r] rest
    rw [hsplit, ← List.append_assoc] at hn ⊢
    rw [returnOutputs, hp r hr] at hg
    cases ha : assigned.get? r.name with
    | none =>
      rw [ha] at hg
      cases gives_throw.mp hg
    | some a =>
      rw [ha] at hg
      dsimp only at hg
      split at hg
      · obtain ⟨_, _, hthrow, -⟩ := gives_bind.mp hg
        cases gives_throw.mp hthrow
      · obtain ⟨⟨⟩, s₁, hfree, hg⟩ := gives_bind.mp hg
        obtain ⟨more, s₂, hrest, hg⟩ := gives_bind.mp hg
        obtain ⟨-, rfl⟩ := gives_pure.mp hg
        rw [Labels.toList_array hL hr] at hfree
        exact ih (fun x hx => hp x (List.mem_cons_of_mem _ hx))
          (hL.mono fun x => List.mem_cons_of_mem _) hrest (h.free hfree hn.of_append_left) hn

end Wrapped

/-- A decomposition leaves the pool's qubits in use as they were exactly if every ancilla that it took
was freed on the way or came out on an output that is no input. The others stay in use. There are none
if no bloq on the way keeps the qubits that end on it and what goes through comes out on the qubits
of the gate. -/
theorem Gate.decompose_inUse {α κ : Type} [Angle α] {b : Bloq α κ} {b₀ b₁ : Builder (Bloq α κ)}
    {final : Soquets (Bloq α κ)} {c : Composite (Bloq α κ)} (hb : b₀.Reached)
    (hc : Gives (Builder.finalize final) b₀ c b₁)
    (hx : ∀ x ∈ c.instances, x.bloq.Plain ∨ x.bloq.native? = none)
    (hdecomposition : b.decomposition = .ok c) {qubits : List Qubit} (hn : qubits.Nodup)
    {p p' : CleanPool} {taken : Nat} (hp : p.Reached taken) (hsmall : taken + c.demand ≤ UInt32.size)
    (hapart : ∀ q ∈ qubits, q ∉ CleanPool.fresh p.next c.demand) {ops : List (Operation (Gate α κ))}
    (h : Gives ((Gate.ofBloq b).decompose qubits) p (some ops) p') :
    ∃ (quregs : Quregs) (inputs : List Qubit) (circuit : Circuit (Gate α κ)) (out : Quregs)
      (t : Scope CleanPool) (freed returned : List Qubit),
      quregs.merge c.signature.lefts = .ok inputs ∧ (∀ q ∈ inputs, q ∈ qubits) ∧
      Gives (c.export c.signature quregs .greedy)
        (⟨Scope.declare inputs { base := p }, []⟩ : Logged (Scope CleanPool)) (circuit, out)
        ⟨t, freed⟩ ∧
      out.merge c.news = .ok returned ∧
      (∀ q, q ∈ p'.inUse ↔ q ∈ p.inUse ∨
        q ∈ CleanPool.fresh p.next c.demand ∧ q ∉ freed ∧ q ∉ returned) ∧
      (p'.inUse = p.inUse ↔
        ∀ q ∈ CleanPool.fresh p.next c.demand, q ∈ freed ∨ q ∈ returned) ∧
      ((∀ x ∈ c.instances, x.bloq.native? = none →
          ∀ r ∈ x.bloq.signature.registers, r.side ≠ .left) →
        (∀ r ∈ c.signature.registers, r.side = .thru →
          ∀ g, out.get? r.name = some g → ∀ q ∈ g.toList, q ∈ qubits) →
        p'.inUse = p.inUse) := by
  have hlinear : c.Threaded := hb.linear hc
  rw [Gate.decompose] at h
  obtain ⟨quregs, c', emitted, hsplit, hsame, hemit, -⟩ := Wrapped.of_decompose h
  obtain rfl : c = c' := Except.ok.inj (hdecomposition.symm.trans hsame)
  obtain ⟨arrays, inputs, circuit, out, pairs, u, u', hpick, hmerge, hexport, hreturn, rfl, -⟩ :=
    Wrapped.of_emitOn hemit
  obtain ⟨hnodup, hsub⟩ := Quregs.nodup_of_split hsplit hn hlinear.valid.nodup_lefts
    (Wrapped.get?_of_pick hpick).1 hmerge
  have hspares : p.Spares inputs c.demand :=
    ⟨Nat.le_trans (Nat.le_add_left _ _) hsmall, fun q hq => hapart q (hsub q hq)⟩
  have hemissible := Composite.emissible_of_export hlinear hexport
  -- the walk is known from its flow, and so is what is given back on it and after it
  obtain ⟨L, order, t, hflow, ho, hs, hd, -, harray, hborn, hserved, -⟩ :=
    hlinear.exists_walk hmerge hnodup .greedy hspares
  have hwalk := fun {σ : Type} [Allocator σ] {s t : σ} => hflow.export_gives_of (s := s) (t := t)
    hlinear (fun x hm => (hemissible x hm).plain (hx x hm)) (fun x hm => (hemissible x hm).1)
    harray ho hs hd
  obtain ⟨heq, rfl⟩ := hexport.unique (hwalk hserved)
  cases heq
  have hnews : ∀ r ∈ c.news, r ∈ c.signature.rights := fun r hr => (Composite.mem_news.mp hr).1
  have hfits := (hflow.fits_rights hlinear).mono hnews
  have hnames := hlinear.valid.nodup_rights
  have hreleased := (hflow.nodup_released hlinear hs hd).sublist
    ((Composite.on_news_sublist L (c.instances.length + 1)).append_left _)
  have hledger := hserved.ledger (Scope.ledger_declare p inputs) (hspares.nodup hnodup)
    (by rw [hborn, CleanPool.length_fresh, Nat.zero_add]) hreleased.of_append_left
  rw [hborn, CleanPool.length_fresh, Nat.zero_add, List.nil_append] at hledger
  have hledger' := Wrapped.ledger_of_returnOutputs
    (fun r hr => Arrays.get?_byRegister hnames (hnews r hr)) hfits hreturn hledger hreleased
  have hfresh : ∀ q ∈ CleanPool.fresh p.next c.demand, q ∉ p.inUse := fun q hq =>
    hp.not_inUse hsmall hq
  have hmem := hledger'.mem_inUse hspares hfresh
  have heq := hledger'.inUse_eq_iff hspares hfresh
  simp only [List.mem_append, not_or] at hmem heq
  refine ⟨arrays, inputs, _, _, u, _, L.on (c.instances.length + 1) c.news, hmerge, hsub,
    hwalk (hserved.logged []),
    Labels.merge_eq (fun r hr => Labels.arrayIn_arrays hnames (hnews r hr)) hfits, hmem, heq,
    fun hleft hthru => heq.mpr fun q hq => ?_⟩
  have hkeeps : ∀ v x, c.bloqAt v = some x → x.releases = false → x.dead = [] := by
    intro v x hv hr
    obtain ⟨y, hy, rfl⟩ := Composite.exists_instance hv
    exact Composite.dead_eq_nil ((hemissible y hy).plain (hx y hy)) (hleft y hy) hr
  refine (hflow.mem_released_or_output hlinear hkeeps hs (hborn ▸ hq)).imp_right fun hout => ?_
  rw [Labels.on_eq_flatMap] at hout ⊢
  obtain ⟨r, hr, hmem⟩ := List.mem_flatMap.mp hout
  refine List.mem_flatMap.mpr ⟨r, Composite.mem_news.mpr ⟨hr, ?_⟩, hmem⟩
  obtain ⟨hregister, hright⟩ := Signature.mem_rights.mp hr
  cases hside : r.side with
  | left =>
    rw [hside] at hright
    cases hright
  | right => rfl
  | thru =>
    -- what goes through came in, so that it is no ancilla
    refine absurd hq (hapart q (hthru r hregister hside _ (Arrays.get?_byRegister hnames hr) q ?_))
    rwa [Labels.toList_array (hflow.fits_rights hlinear) hr]

private def isBookkeeping : Bloq Float Complex → Bool
  | .allocate _ | .free _ => true
  | _ => false

/-- One ancilla is freed on the way and another one comes out, so that none stays in use. -/
theorem Gate.decompose_inUse_ancillas :
    ∃ (b₀ b₁ : Builder (Bloq Float Complex)) (final : Soquets (Bloq Float Complex))
      (c : Composite (Bloq Float Complex)) (ops : List (Operation (Gate Float Complex)))
      (p' : CleanPool),
      b₀.Reached ∧ Gives (Builder.finalize final) b₀ c b₁ ∧ c.instances.length = 3 ∧ c.demand = 2 ∧
      (∀ x ∈ c.instances, x.bloq.Plain ∨ x.bloq.native? = none) ∧
      CleanPool.Reached {} 0 ∧ (∀ q ∈ [Qubit.named "q"], q ∉ CleanPool.fresh 0 c.demand) ∧
      Gives ((Gate.ofBloq (.composite c)).decompose [.named "q"]) {} (some ops) p' ∧
      p'.inUse = ∅ := by
  let o : Register := ⟨"out", .qbit, [], .right⟩
  let m : BuildM (Bloq Float Complex) (Soquets (Bloq Float Complex)) := do
    let outputs ← Builder.start ⟨[o]⟩ false
    let a ← Builder.allocate .qbit
    let b ← Builder.allocate .qbit
    Builder.free a
    return outputs.insert "out" (.scalar b)
  -- all but the last call is run
  have hrun : Builder.closesWith m (fun b => decide (
      b.registers = [o] ∧ b.instances.toList.length = 3 ∧
      (b.instances.toList.map fun x => (x.bloq.born.map (·.totalBits)).sum).sum = 2 ∧
      b.instances.toList.all (fun x => isBookkeeping x.bloq) = true ∧
      ∀ x ∈ b.instances.toList, Export.classicalOutput? x.bloq.signature = none)) = true := by
    decide +kernel
  obtain ⟨final, b, b', hm, hclose, hempty, hp⟩ := Builder.exists_of_closesWith hrun
  obtain ⟨hregisters, hlength, hdemand, hbloqs, hclassical⟩ := of_decide_eq_true hp
  obtain ⟨outputs, b₁, hstart, hm⟩ := gives_bind.mp hm
  obtain ⟨x, b₂, hx, hm⟩ := gives_bind.mp hm
  obtain ⟨y, b₃, hy, hm⟩ := gives_bind.mp hm
  obtain ⟨⟨⟩, b₄, hfree, hm⟩ := gives_bind.mp hm
  obtain ⟨rfl, rfl⟩ := gives_pure.mp hm
  have hreached : b₄.Reached :=
    .call (.call (.call (.start hstart) (.allocate hx)) (.allocate hy)) (.free hfree)
  obtain ⟨c, hfinal, hsignature, hinstances⟩ := hreached.sound.finalize_gives_of_consume
    (by rw [hregisters]; rfl) hclose hempty
  rw [hregisters] at hsignature
  rw [← hinstances] at hlength hdemand hbloqs hclassical
  have hlinear : c.Threaded := hreached.linear hfinal
  have hkind : ∀ x ∈ c.instances, x.bloq.Plain ∧ x.bloq.native? ≠ none := by
    intro x hx
    have hx := List.all_eq_true.mp hbloqs x hx
    cases hb : x.bloq with
    | allocate t => exact ⟨.allocate t, Option.some_ne_none _⟩
    | free t => exact ⟨.free t, Option.some_ne_none _⟩
    | _ =>
      rw [hb] at hx
      cases hx
  have hlefts : c.signature.lefts = [] := by
    rw [hsignature]
    rfl
  have hspares : CleanPool.Spares {} [] c.demand :=
    ⟨by rw [Composite.demand, hdemand]; decide, fun q hq => absurd hq List.not_mem_nil⟩
  have hmerge : Quregs.merge Arrays.empty c.signature.lefts = .ok [] := by
    rw [hlefts]
    rfl
  obtain ⟨L, order, t, hflow, ho, hs, hd, -, -, hborn, -, -⟩ :=
    hlinear.exists_walk hmerge List.nodup_nil .greedy hspares
  -- the gate is given one qubit, for the output
  let f : Labels := fun _ => [.named "q"]
  have hfits : f.Fits 0 c.signature.registers := by
    rw [hsignature]
    intro p hp
    rw [List.mem_singleton.mp (mem_portsOn.mp hp).2.1]
    rfl
  have hon : f.on 0 c.signature.registers = [.named "q"] := by
    rw [hsignature]
    rfl
  obtain ⟨p', hdecompose⟩ := hflow.decompose_gives hlinear (fun x hx => (hkind x hx).1) hclassical ho
    hs hd (p := {}) hborn (by rw [hsignature]; rfl) hfits (by
      rw [hlefts]
      exact fun p hp => absurd hp List.not_mem_nil)
  rw [hon] at hdecompose
  have hkinds : ∀ x ∈ c.instances, x.bloq.Plain ∨ x.bloq.native? = none := fun x hx =>
    .inl (hkind x hx).1
  have hapart : ∀ q ∈ [Qubit.named "q"], q ∉ CleanPool.fresh 0 c.demand := by
    intro p hp
    rw [List.mem_singleton.mp hp]
    exact CleanPool.not_mem_fresh (by simp) _ _
  obtain ⟨_, _, _, _, _, _, _, -, -, -, -, -, -, hbalanced⟩ := Gate.decompose_inUse hreached hfinal hkinds
    (b := .composite c) (by rw [Bloq.decomposition]) (List.nodup_singleton _) .new
    (by rw [Nat.zero_add]; exact hspares.small) hapart hdecompose
  refine ⟨b₄, b', _, c, _, p', hreached, hfinal, hlength, hdemand, hkinds, .new, hapart, hdecompose,
    hbalanced (fun x hx hn => absurd hn (hkind x hx).2) fun r hr hside => ?_⟩
  rw [hsignature, List.mem_singleton] at hr
  rw [hr] at hside
  cases hside

end BloqCircuit
