import BloqCircuit.Proofs.Balance
import BloqCircuit.Proofs.Interrupted
/-! However a decomposition ends, the qubits that were in use in its pool before are in use after it: it
gives back only what it took there itself. -/
namespace BloqCircuit

/-! ## Failures that say more than that there is no decomposition -/

theorem Register.available_of_arrayIn {r : Register} {quregs : Quregs} {e : Error}
    (h : r.arrayIn quregs = .error e) : e.isDecomposeUnavailable = false := by
  rw [arrayIn] at h
  cases hg : quregs.get? r.name with
  | none =>
    rw [hg] at h
    cases h
    rfl
  | some g =>
    rw [hg] at h
    rcases bind_eq_error.mp h with h | ⟨_, -, h⟩
    · rw [checkArray] at h
      split at h
      · cases h
      · cases h
        rfl
    · cases h

theorem Quregs.available_of_merge {quregs : Quregs} {registers : List Register} {e : Error}
    (h : quregs.merge registers = .error e) : e.isDecomposeUnavailable = false := by
  rcases bind_eq_error.mp h with h | ⟨_, -, h⟩
  · obtain ⟨r, -, hr⟩ := exists_of_mapM_eq_error h
    rcases bind_eq_error.mp hr with hr | ⟨_, -, hr⟩
    · exact Register.available_of_arrayIn hr
    · cases hr
  · cases h

theorem Wrapped.available_of_pick {quregs given : Quregs} {registers : List Register} {e : Error}
    (h : pick quregs registers given = .error e) : e.isDecomposeUnavailable = false := by
  induction registers generalizing given with
  | nil => cases h
  | cons r rest ih =>
    rw [pick] at h
    split at h
    · exact ih h
    · cases h
      rfl

/-! ## What is kept -/

namespace Scope
variable {p : CleanPool} {inputs : List Qubit} {limit : Nat} {t : Scope CleanPool}

/-- No more was taken from a pool than a limit, and nothing was given back to it but what was taken. -/
def Kept (p : CleanPool) (inputs : List Qubit) (limit : Nat) (t : Scope CleanPool) : Prop :=
  ∃ n freed, n ≤ limit ∧ Ledger p inputs n freed t

theorem Kept.mem_inUse (h : Kept p inputs limit t) (hp : p.Spares inputs limit)
    (hfresh : ∀ q ∈ CleanPool.fresh p.next limit, q ∉ p.inUse) {q : Qubit} (hq : q ∈ p.inUse) :
    q ∈ t.base.inUse := by
  obtain ⟨n, freed, hn, hledger⟩ := h
  have hsub : CleanPool.fresh p.next n ⊆ CleanPool.fresh p.next limit :=
    CleanPool.fresh_subset_of_le hn
  have hspares : p.Spares inputs n := ⟨hn.trans hp.small, fun q hq hm => hp.apart q hq (hsub hm)⟩
  exact (hledger.mem_inUse hspares (fun q hq => hfresh q (hsub hq)) q).mpr (.inl hq)

end Scope

namespace Wrapped
variable {L : Labels} {w n : Nat} {registers : List Register} {produced assigned : Quregs}
  {p : CleanPool} {inputs freed : List Qubit} {s t : Scope CleanPool} {e : Error}

/-- If the return of outputs fails, then because of an array that does not fit, and what was returned
before was given back. -/
theorem ledger_of_returnOutputs_leaves
    (hp : ∀ r ∈ registers, produced.get? r.name = some (L.array w r)) (hL : L.Fits w registers)
    (hg : Leaves (returnOutputs produced assigned registers) s e t)
    (h : Scope.Ledger p inputs n freed s) (hn : (freed ++ L.on w registers).Nodup)
    (hlive : s.Live (L.on w registers)) :
    e.isDecomposeUnavailable = false ∧ ∃ returned, Scope.Ledger p inputs n returned t := by
  induction registers generalizing s freed with
  | nil => exact (leaves_pure.mp hg).elim
  | cons r rest ih =>
    have hr : r ∈ r :: rest := List.mem_cons_self
    have hsplit : L.on w (r :: rest) = L.on w [r] ++ L.on w rest := Labels.on_append [r] rest
    rw [hsplit] at hlive hn
    have hapart : (L.on w [r] ++ L.on w rest).Nodup := hn.of_append_right
    rw [← List.append_assoc] at hn
    rw [returnOutputs, hp r hr] at hg
    cases ha : assigned.get? r.name with
    | none =>
      rw [ha] at hg
      obtain ⟨rfl, rfl⟩ := leaves_throw.mp hg
      exact ⟨rfl, freed, h⟩
    | some a =>
      rw [ha] at hg
      dsimp only at hg
      split at hg
      · rcases leaves_bind.mp hg with hg | ⟨_, _, hg, -⟩
        · obtain ⟨rfl, rfl⟩ := leaves_throw.mp hg
          exact ⟨rfl, freed, h⟩
        · exact (gives_throw.mp hg).elim
      · obtain ⟨s₁, hfree, -, hlive'⟩ := hlive.free_gives hapart
        rw [Labels.toList_array hL hr] at hg
        rcases leaves_bind.mp hg with hg | ⟨_, s₂, hfree', hg⟩
        · cases hg.symm.trans hfree
        · obtain ⟨-, rfl⟩ := hfree.unique hfree'
          rcases leaves_bind.mp hg with hg | ⟨_, _, -, hg⟩
          · exact ih (fun x hx => hp x (List.mem_cons_of_mem _ hx))
              (hL.mono fun x => List.mem_cons_of_mem _) hg (h.free hfree hn.of_append_left) hn hlive'
          · exact (leaves_pure.mp hg).elim

end Wrapped

/-! ## Exports in a scope -/

/-- An export on different inputs, from a pool that hands none of them out, either succeeds or stops at a
bloq that cannot be emitted. Either way it takes no more than the demand of the composite. -/
theorem Composite.Threaded.export_ledger {α κ : Type} [Angle α] {c : Composite (Bloq α κ)}
    (hc : c.Threaded) (hx : ∀ x ∈ c.instances, x.bloq.Plain ∨ x.bloq.native? = none)
    {quregs : Quregs} {inputs : List Qubit} (hin : quregs.merge c.signature.lefts = .ok inputs)
    (hn : inputs.Nodup) (traversal : TraversalOrder) {p : CleanPool}
    (hpool : p.Spares inputs c.demand) :
    (∃ (L : Labels) (circuit : Circuit (Gate α κ)) (t : Scope CleanPool) (freed : List Qubit),
      Gives (c.export c.signature quregs traversal) (Scope.declare inputs { base := p })
        (circuit, L.arrays (c.instances.length + 1) c.signature.rights) t ∧
      Scope.Ledger p inputs c.demand freed t ∧
      L.Fits (c.instances.length + 1) c.signature.rights ∧
      (freed ++ L.on (c.instances.length + 1) c.signature.rights).Nodup ∧
      t.Live (L.on (c.instances.length + 1) c.signature.rights)) ∨
    ∃ (e : Error) (u : Scope CleanPool),
      Leaves (c.export c.signature quregs traversal :
        AllocM (Scope CleanPool) (Circuit (Gate α κ) × Quregs))
        (Scope.declare inputs { base := p }) e u ∧
      e.isDecomposeUnavailable = false ∧ Scope.Kept p inputs c.demand u := by
  obtain ⟨L, order, t, hflow, ho, hs, hd, -, harray, hborn, hserved, hlive⟩ :=
    hc.exists_walk hin hn traversal hpool
  have hreleased := hflow.nodup_released hc hs hd
  have hdemand : (order.flatMap (c.bornAt L)).length = c.demand := by
    rw [hborn, CleanPool.length_fresh]
  -- what a part of the walk does to the scope
  have hledger : ∀ {part : List Nat} {u : Scope CleanPool}, part.Sublist order →
      c.Served L part (Scope.declare inputs { base := p }) u →
      Scope.Ledger p inputs (0 + (part.flatMap (c.bornAt L)).length)
        ([] ++ part.flatMap (c.releasedAt L)) u := by
    intro part u hpart hu
    refine hu.ledger (Scope.ledger_declare p inputs) (hpool.nodup hn) ?_ ?_
    · rw [Nat.zero_add, ← hdemand]
      exact (hpart.flatMap _).length_le
    · exact hreleased.of_append_left.sublist (hpart.flatMap _)
  cases he : c.refusal? order with
  | none =>
    have ht := hledger (List.Sublist.refl order) hserved
    rw [hdemand, Nat.zero_add, List.nil_append] at ht
    exact .inl ⟨L, _, t, _, hflow.export_gives_of_refusal hc hx harray ho hs hd hserved he, ht,
      hflow.fits_rights hc, hreleased, hlive⟩
  | some e =>
    obtain ⟨u, hbefore, hleaves⟩ := hflow.export_leaves hc hx harray ho hs hd hserved he
    obtain ⟨b, hb⟩ := Composite.exists_refusal he
    have hpart : (c.beforeRefusal order).Sublist order := List.takeWhile_sublist _
    refine .inr ⟨e, u, hleaves, Bloq.available_of_refusal hb, _, _, ?_, hledger hpart hbefore⟩
    rw [Nat.zero_add, ← hdemand]
    exact (hpart.flatMap _).length_le

/-! ## How decompositions end -/

section
variable {σ τ : Type} {s t : σ} {e : Error}

theorem Scope.leaves_of_within {m : AllocM (Scope σ) τ} (h : Leaves (Scope.within m) s e t) :
    ∃ u, Leaves m { base := s } e u ∧ t = u.base := by
  have h : Scope.within m s = (.error e, t) := h
  rw [Scope.within] at h
  cases hm : m { base := s } with
  | mk result u =>
    rw [hm] at h
    cases h
    exact ⟨u, hm, rfl⟩

end

namespace Wrapped
variable {β γ : Type} [BloqKind β] [GateKind γ] [CircuitForm β γ]

/-- A composite that is not emitted lacks an array, or its export fails, or its outputs do not fit. -/
theorem leaves_of_emitOn {c : Composite β} {quregs : Quregs} {e : Error} {p p' : CleanPool}
    (h : Leaves (emitOn c quregs : AllocM CleanPool (Circuit γ)) p e p') :
    (e.isDecomposeUnavailable = false ∧ p' = p) ∨
    ∃ (arrays : Quregs) (inputs : List Qubit) (s : Scope CleanPool),
      pick quregs c.signature.lefts Arrays.empty = .ok arrays ∧
      arrays.merge c.signature.lefts = .ok inputs ∧ p' = s.base ∧
      (Leaves (c.export c.signature arrays .greedy :
          AllocM (Scope CleanPool) (Circuit γ × Quregs)) (Scope.declare inputs { base := p }) e s ∨
        ∃ (circuit : Circuit γ) (out : Quregs) (t : Scope CleanPool),
          Gives (c.export c.signature arrays .greedy) (Scope.declare inputs { base := p })
            (circuit, out) t ∧
          Leaves (returnOutputs out quregs (c.signature.rights.filter (·.side == .right))) t e s) := by
  obtain ⟨u, hwithin, rfl⟩ := Scope.leaves_of_within h
  rcases leaves_bind.mp hwithin with hlift | ⟨arrays, s₁, hlift, hrest⟩
  · obtain ⟨hpick, rfl⟩ := leaves_lift.mp hlift
    exact .inl ⟨available_of_pick hpick, rfl⟩
  obtain ⟨hpick, rfl⟩ := gives_lift.mp hlift
  rcases leaves_bind.mp hrest with hlift | ⟨inputs, s₂, hlift, hrest⟩
  · obtain ⟨hmerge, rfl⟩ := leaves_lift.mp hlift
    exact .inl ⟨Quregs.available_of_merge hmerge, rfl⟩
  obtain ⟨hmerge, rfl⟩ := gives_lift.mp hlift
  refine .inr ⟨arrays, inputs, u, hpick, hmerge, rfl, ?_⟩
  rcases leaves_bind.mp hrest with hdeclare | ⟨⟨⟩, s₃, hdeclare, hrun⟩
  · exact (leaves_modify.mp hdeclare).elim
  obtain rfl := gives_modify.mp hdeclare
  rcases leaves_bind.mp hrun with hexport | ⟨⟨circuit, out⟩, t, hexport, hrest⟩
  · exact .inl hexport
  rcases leaves_bind.mp hrest with hreturn | ⟨pairs, s₅, -, hlast⟩
  · exact .inr ⟨circuit, out, t, hexport, hreturn⟩
  · exact (leaves_pure.mp hlast).elim

end Wrapped

/-! ## What stays in use -/

section
variable {α κ : Type} [Angle α] {c : Composite (Bloq α κ)} {s : Signature} {quregs : Quregs}
  {qubits : List Qubit} {p p' : CleanPool}

/-- The inputs that a composite is given out of different qubits are different, and the pool spares them
as it spares all of the qubits. -/
theorem Wrapped.spares_of_pick {arrays : Quregs} {inputs : List Qubit} (hc : c.Threaded)
    (hsplit : Quregs.split s qubits = .ok quregs) (hn : qubits.Nodup)
    (hpool : p.Spares qubits c.demand)
    (hpick : pick quregs c.signature.lefts Arrays.empty = .ok arrays)
    (hmerge : arrays.merge c.signature.lefts = .ok inputs) :
    inputs.Nodup ∧ p.Spares inputs c.demand := by
  obtain ⟨hnodup, hsub⟩ := Quregs.nodup_of_split hsplit hn hc.valid.nodup_lefts
    (get?_of_pick hpick).1 hmerge
  exact ⟨hnodup, hpool.small, fun q hq => hpool.apart q (hsub q hq)⟩

namespace Composite.Threaded

theorem get?_news (hc : c.Threaded) (L : Labels) : ∀ r ∈ c.news,
    (L.arrays (c.instances.length + 1) c.signature.rights).get? r.name =
      some (L.array (c.instances.length + 1) r) := fun _ hr =>
  Arrays.get?_byRegister hc.valid.nodup_rights (Composite.mem_news.mp hr).1

/-- A composite that is emitted on the arrays of a gate keeps what is in use below. -/
theorem emitOn_keeps (hc : c.Threaded) (hx : ∀ x ∈ c.instances, x.bloq.Plain ∨ x.bloq.native? = none)
    (hsplit : Quregs.split s qubits = .ok quregs) (hn : qubits.Nodup)
    (hpool : p.Spares qubits c.demand) (hfresh : ∀ q ∈ CleanPool.fresh p.next c.demand, q ∉ p.inUse)
    {emitted : Circuit (Gate α κ)} (h : Gives (Wrapped.emitOn c quregs) p emitted p') {q : Qubit}
    (hq : q ∈ p.inUse) : q ∈ p'.inUse := by
  obtain ⟨arrays, inputs, circuit, out, pairs, u, u', hpick, hmerge, hexport, hreturn, rfl, -⟩ :=
    Wrapped.of_emitOn h
  obtain ⟨hnodup, hspares⟩ := Wrapped.spares_of_pick hc hsplit hn hpool hpick hmerge
  rcases hc.export_ledger hx hmerge hnodup .greedy hspares with
    ⟨L, circuit', t, freed, hgives, hledger, hfits, hfreed, -⟩ | ⟨e, u₁, hleaves, -⟩
  · obtain ⟨heq, rfl⟩ := hexport.unique hgives
    cases heq
    have hnews := Composite.on_news_sublist (c := c) L (c.instances.length + 1)
    have hledger' := Wrapped.ledger_of_returnOutputs (hc.get?_news L)
      (hfits.mono fun r hr => (Composite.mem_news.mp hr).1) hreturn hledger
      (hfreed.sublist (hnews.append_left _))
    exact Scope.Kept.mem_inUse ⟨_, _, Nat.le_refl _, hledger'⟩ hspares hfresh hq
  · cases hexport.symm.trans hleaves

/-- A composite that fails to be emitted keeps what is in use below, and does not say that there is no
decomposition. -/
theorem emitOn_leaves_keeps (hc : c.Threaded)
    (hx : ∀ x ∈ c.instances, x.bloq.Plain ∨ x.bloq.native? = none)
    (hsplit : Quregs.split s qubits = .ok quregs) (hn : qubits.Nodup)
    (hpool : p.Spares qubits c.demand) (hfresh : ∀ q ∈ CleanPool.fresh p.next c.demand, q ∉ p.inUse)
    {e : Error} (h : Leaves (Wrapped.emitOn c quregs : AllocM CleanPool (Circuit (Gate α κ))) p e p') :
    e.isDecomposeUnavailable = false ∧ ∀ q ∈ p.inUse, q ∈ p'.inUse := by
  rcases Wrapped.leaves_of_emitOn h with
    ⟨havailable, rfl⟩ | ⟨arrays, inputs, u, hpick, hmerge, rfl, hends⟩
  · exact ⟨havailable, fun q hq => hq⟩
  obtain ⟨hnodup, hspares⟩ := Wrapped.spares_of_pick hc hsplit hn hpool hpick hmerge
  suffices hkept : e.isDecomposeUnavailable = false ∧ Scope.Kept p inputs c.demand u from
    ⟨hkept.1, fun q hq => hkept.2.mem_inUse hspares hfresh hq⟩
  rcases hc.export_ledger hx hmerge hnodup .greedy hspares with
    ⟨L, circuit, t, freed, hgives, hledger, hfits, hfreed, hlive⟩ | ⟨e', u', hleaves, he, hkept⟩
  -- the export succeeds, so that it is an output that does not fit
  · rcases hends with hexport | ⟨circuit', out, t', hexport, hreturn⟩
    · cases hexport.symm.trans hgives
    · obtain ⟨heq, rfl⟩ := hexport.unique hgives
      cases heq
      have hnews := Composite.on_news_sublist (c := c) L (c.instances.length + 1)
      obtain ⟨he, returned, hledger'⟩ := Wrapped.ledger_of_returnOutputs_leaves (hc.get?_news L)
        (hfits.mono fun r hr => (Composite.mem_news.mp hr).1) hreturn hledger
        (hfreed.sublist (hnews.append_left _)) (hlive.mono hnews.subset)
      exact ⟨he, _, _, Nat.le_refl _, hledger'⟩
  -- the export stops
  · rcases hends with hexport | ⟨circuit', out, t', hexport, -⟩
    · cases hexport.symm.trans hleaves
      exact ⟨he, hkept⟩
    · cases hexport.symm.trans hleaves

end Composite.Threaded
end

/-- A decomposition never takes a qubit from its caller. Whatever it gives and however it fails, what
was in use in the pool is in use afterwards, and if it gives nothing, the pool is as it was. The bloq
may have any decomposition that was built, and the gate any different qubits, in use or not, that the
pool is not about to hand out. -/
theorem Gate.decompose_keeps_inUse {α κ : Type} [Angle α] {b : Bloq α κ} {qubits : List Qubit}
    (hn : qubits.Nodup) {p p' : CleanPool} {taken : Nat} (hp : p.Reached taken)
    (hbuilt : ∀ c, b.decomposition = .ok c → c.Assembled)
    (hroom : ∀ c, b.decomposition = .ok c → taken + c.demand ≤ UInt32.size ∧
      ∀ q ∈ qubits, q ∉ CleanPool.fresh p.next c.demand)
    {r : Except Error (Option (List (Operation (Gate α κ))))}
    (h : ((Gate.ofBloq b).decompose qubits).run p = (r, p')) :
    (∀ q ∈ p.inUse, q ∈ p'.inUse) ∧ (r = .ok none → p' = p) := by
  rw [Gate.decompose] at h
  rcases Wrapped.cases_of_decompose h with ⟨rfl, -⟩ | ⟨quregs, c, hsplit, hc, hends⟩
  · exact ⟨fun q hq => hq, fun _ => rfl⟩
  obtain ⟨b₀, b₁, final, hreached, hfinal, hx⟩ := hbuilt c hc
  obtain ⟨hsmall, hapart⟩ := hroom c hc
  have hspares : p.Spares qubits c.demand :=
    ⟨Nat.le_trans (Nat.le_add_left _ _) hsmall, hapart⟩
  have hthreaded : c.Threaded := hreached.linear hfinal
  have hfresh : ∀ q ∈ CleanPool.fresh p.next c.demand, q ∉ p.inUse := fun q hq =>
    hp.not_inUse hsmall hq
  rcases hends with ⟨circuit, rfl, hemit⟩ | ⟨e, rfl, hemit⟩
  · exact ⟨fun q hq => hthreaded.emitOn_keeps hx hsplit hn hspares hfresh hemit hq,
      fun hr => by cases hr⟩
  · obtain ⟨havailable, huse⟩ :=
      hthreaded.emitOn_leaves_keeps hx hsplit hn hspares hfresh hemit
    refine ⟨huse, fun hr => ?_⟩
    rw [havailable, if_neg Bool.false_ne_true] at hr
    cases hr

private def isRelease : Bloq Float Complex → Bool
  | .free t => t == .qbit
  | _ => false

/-- A gate that frees its one qubit leaves it in use where the pool had given it to the caller. -/
theorem Gate.decompose_keeps_inUse_freed :
    ∃ (c : Composite (Bloq Float Complex)) (ops : List (Operation (Gate Float Complex)))
      (p p' : CleanPool),
      c.Assembled ∧ c.instances.length = 1 ∧ (∀ x ∈ c.instances, x.bloq = .free .qbit) ∧
      c.demand = 0 ∧ p.Reached 1 ∧ .clean 0 ∈ p.inUse ∧ .clean 0 ∉ CleanPool.fresh p.next c.demand ∧
      Gives ((Gate.ofBloq (.composite c)).decompose [.clean 0]) p (some ops) p' ∧
      (∀ q ∈ p.inUse, q ∈ p'.inUse) := by
  let q : Register := ⟨"q", .qbit, [], .left⟩
  let m : BuildM (Bloq Float Complex) (Soquets (Bloq Float Complex)) := do
    let inputs ← Builder.start ⟨[q]⟩ true
    Builder.add (Bloq.free .qbit) ⟨inputs.entries.map fun e => ("reg", e.2)⟩
  -- all but the last call is run
  have hrun : Builder.closesWith m (fun b => decide (
      b.registers = [q] ∧ b.instances.toList.length = 1 ∧
      (b.instances.toList.map fun x => (x.bloq.born.map (·.totalBits)).sum).sum = 0 ∧
      b.instances.toList.all (fun x => isRelease x.bloq) = true)) = true := by decide +kernel
  obtain ⟨final, b, b', hm, hclose, hempty, hp⟩ := Builder.exists_of_closesWith hrun
  obtain ⟨hregisters, hlength, hdemand, hbloqs⟩ := of_decide_eq_true hp
  obtain ⟨inputs, b₁, hstart, hadd⟩ := gives_bind.mp hm
  have hreached : b.Reached := .call (.start hstart) (.add (Bloq.valid_free .qbit) hadd)
  obtain ⟨c, hfinal, hsignature, hinstances⟩ := hreached.sound.finalize_gives_of_consume
    (by rw [hregisters]; rfl) hclose hempty
  rw [hregisters] at hsignature
  rw [← hinstances] at hlength hdemand hbloqs
  have hkind : ∀ x ∈ c.instances, x.bloq = .free .qbit := by
    intro x hx
    have hx := List.all_eq_true.mp hbloqs x hx
    rw [isRelease.eq_def] at hx
    split at hx
    · next t h => exact h.trans (congrArg _ (eq_of_beq hx))
    · cases hx
  have hzero : c.demand = 0 := hdemand
  have hplain : ∀ x ∈ c.instances, x.bloq.Plain := fun x hx => by
    rw [hkind x hx]
    exact .free _
  have hassembled : c.Assembled := ⟨b, b', final, hreached, hfinal, fun x hx => .inl (hplain x hx)⟩
  have hlinear : c.Threaded := hreached.linear hfinal
  let p : CleanPool := (CleanPool.alloc 1 {}).2
  have hreached : p.Reached 1 := .alloc 1 .new
  have huse : Qubit.clean 0 ∈ p.inUse := mem_insertMany.mpr (.inr (List.mem_singleton.mpr rfl))
  have hspares : p.Spares [.clean 0] c.demand := by
    rw [hzero]
    exact ⟨Nat.zero_le _, fun _ _ hm => absurd hm List.not_mem_nil⟩
  have hlefts : c.signature.lefts = c.signature.registers := by
    rw [hsignature]
    rfl
  have hmerge : Quregs.merge ⟨[("q", .vector [.clean 0])]⟩ c.signature.lefts = .ok [.clean 0] := by
    rw [hsignature]
    decide +kernel
  obtain ⟨L, order, t, hflow, ho, hs, hd, hon, -, hborn, -, -⟩ :=
    hlinear.exists_walk hmerge (List.nodup_singleton _) .greedy hspares
  have hfits : L.Fits 0 c.signature.registers := by
    rw [← hlefts]
    exact hflow.inputs
  -- the gate is given the one qubit of its input
  have hagree : ∀ p ∈ portsOn 0 c.signature.lefts, L p = L.moveTo 0 p := by
    intro p hp
    rw [Labels.moveTo, ← (mem_portsOn.mp hp).1]
  obtain ⟨p', hdecompose⟩ := hflow.decompose_gives hlinear hplain
    (fun x hx => by rw [hkind x hx]; rfl) ho hs hd hborn (by rw [hsignature]; rfl) hfits hagree
  rw [← hlefts, hon] at hdecompose
  have hroom : ∀ c', (Bloq.composite c).decomposition = .ok c' → 1 + c'.demand ≤ UInt32.size ∧
      ∀ q ∈ [Qubit.clean 0], q ∉ CleanPool.fresh p.next c'.demand := by
    intro c' hc'
    rw [Bloq.decomposition] at hc'
    cases hc'
    exact ⟨by rw [hzero]; decide, hspares.apart⟩
  refine ⟨c, _, p, p', hassembled, hlength, hkind, hzero, hreached, huse,
    hspares.apart _ (List.mem_singleton.mpr rfl), hdecompose, ?_⟩
  refine (Gate.decompose_keeps_inUse (List.nodup_singleton _) hreached (fun c' hc' => ?_) hroom
    hdecompose).1
  rw [Bloq.decomposition] at hc'
  cases hc'
  exact hassembled

end BloqCircuit
