import BloqCircuit.Proofs.Accounting
/-! What an export leaves managed. A wire that is freed, and one that comes out, is settled; one that
ends on a bloq that is wrapped as a gate is not given back by anything. -/
namespace BloqCircuit

namespace Composite
variable {α κ : Type}

/-- How many qubits end on inputs, without an output of the same register, of bloqs that have no
circuit form of their own. -/
def stranded (c : Composite (Bloq α κ)) : Nat :=
  (c.instances.map fun x => if x.bloq.native?.isNone
    then ((x.bloq.signature.registers.filter (·.side == .left)).map (·.totalBits)).sum else 0).sum

variable {c : Composite (Bloq α κ)} {L : Labels}

/-- Only bloqs that are wrapped as gates keep qubits, and these are on their inputs alone. -/
theorem kept_of_plain {b : Bloq α κ} (h : b.Plain) : (if b.releases then [] else b.dead) =
    if b.native?.isNone then b.signature.registers.filter (·.side == .left) else [] := by
  cases h with
  | split t | join t => rfl
  | allocate t =>
    rw [Bloq.dead_allocate]
    rfl
  | free t => rfl
  | gate g =>
    rw [Bloq.dead_ofGate]
    rfl
  | wrapped _ hn _ =>
    obtain ⟨-, hmoves, hreleases⟩ := Bloq.emits_of_native? hn
    rw [hreleases, Bloq.dead, hmoves, hn]
    rfl

theorem keptAt_of_plain {v : Nat} {b : Bloq α κ} (hb : c.bloqAt v = some b) (h : b.Plain) :
    c.keptAt L v =
      L.on v (if b.native?.isNone then b.signature.registers.filter (·.side == .left) else []) := by
  rw [keptAt, hb, Option.elim, ← kept_of_plain h, apply_ite (L.on v), Labels.on_nil]

/-- As many qubits are kept as there are elements for them to end on. -/
theorem Flow.length_kept [Angle α] (h : c.Flow L) (hp : ∀ x ∈ c.instances, x.bloq.Plain) {order : List Nat}
    (hs : c.graph.Sorts order) : (order.flatMap (c.keptAt L)).length = c.stranded := by
  rw [List.length_flatMap, stranded, ← sum_bloqAt hs fun b => if b.native?.isNone
    then ((b.signature.registers.filter (·.side == .left)).map (·.totalBits)).sum else 0]
  refine congrArg List.sum (List.map_congr_left fun v _ => ?_)
  cases hb : c.bloqAt v with
  | none => rw [keptAt_of_none hb, List.length_nil, Option.elim]
  | some b =>
    obtain ⟨x, hx, rfl⟩ := exists_instance hb
    rw [keptAt_of_plain hb (hp x hx), Option.elim]
    split
    · exact Labels.length_on ((h.node v _ hb).fits.mono fun r hr => (List.mem_filter.mp hr).1)
    · rfl

/-- A kept qubit is one of those that an operation acts on, and the gate of this operation wraps a
bloq that has an input without an output. -/
theorem exists_operation_of_kept (hp : ∀ x ∈ c.instances, x.bloq.Plain) {order : List Nat} {q : Qubit}
    (hq : q ∈ order.flatMap (c.keptAt L)) :
    ∃ op ∈ order.filterMap (c.operationAt? L), ∃ x ∈ c.instances, op.gate = .ofBloq x.bloq ∧
      x.bloq.native? = none ∧ (∃ r ∈ x.bloq.signature.registers, r.side = .left) ∧ q ∈ op.qubits := by
  obtain ⟨v, hv, hq⟩ := List.mem_flatMap.mp hq
  cases hb : c.bloqAt v with
  | none =>
    rw [keptAt_of_none hb] at hq
    cases hq
  | some b =>
    obtain ⟨x, hx, rfl⟩ := exists_instance hb
    rw [keptAt_of_plain hb (hp x hx)] at hq
    cases hn : x.bloq.native? with
    | some n =>
      rw [hn] at hq
      cases hq
    | none =>
      rw [hn] at hq
      obtain ⟨p, hport, hq⟩ := List.mem_flatMap.mp hq
      obtain ⟨hnode, hreg, hindex⟩ := mem_portsOn.mp hport
      obtain ⟨hreg, hside⟩ := List.mem_filter.mp hreg
      have hemits := (Bloq.emits_of_native? hn).1
      refine ⟨⟨.ofBloq x.bloq, L.on v x.bloq.signature.registers⟩, List.mem_filterMap.mpr ⟨v, hv, ?_⟩,
        x, hx, rfl, hn, ⟨p.reg, hreg, beq_iff_eq.mp hside⟩, ?_⟩
      · rw [operationAt?_of_some hb, Bloq.operation?, hemits]
        rfl
      · exact List.mem_flatMap.mpr ⟨p, mem_portsOn.mpr ⟨hnode, hreg, hindex⟩, hq⟩

end Composite

/-- An export on different inputs succeeds, and leaves managed the qubits of its outputs and those
that end on bloqs that it wraps, which are different qubits. So the outputs are all that is managed
only if no wire ends on such a bloq. -/
theorem Builder.Reached.export_managed {α κ : Type} [Angle α] {b b' : Builder (Bloq α κ)}
    {final : Soquets (Bloq α κ)} {c : Composite (Bloq α κ)} (hb : b.Reached)
    (hc : Gives (Builder.finalize final) b c b') (hp : ∀ x ∈ c.instances, x.bloq.Plain)
    (hq : ∀ x ∈ c.instances, ∀ r ∈ x.bloq.signature.registers, r.side = .right →
      r.dtype.isQuantum = true)
    {quregs : Quregs} {inputs : List Qubit} (hin : quregs.merge c.signature.lefts = .ok inputs)
    (hn : inputs.Nodup) (traversal : TraversalOrder) {p : CleanPool}
    (hpool : p.Spares inputs c.demand) :
    ∃ (circuit : Circuit (Gate α κ)) (out : Quregs) (outputs kept : List Qubit) (t : Scope CleanPool),
      Gives (c.export c.signature quregs traversal) (Scope.declare inputs { base := p })
        (circuit, out) t ∧
      out.merge c.signature.rights = .ok outputs ∧ (kept ++ outputs).Nodup ∧
      (∀ q, q ∈ t.managed ↔ q ∈ outputs ∨ q ∈ kept) ∧ kept.length = c.stranded ∧
      (∀ q ∈ kept, ∃ op ∈ circuit.operations, ∃ x ∈ c.instances, op.gate = .ofBloq x.bloq ∧
        x.bloq.native? = none ∧ (∃ r ∈ x.bloq.signature.registers, r.side = .left) ∧
        q ∈ op.qubits) ∧
      ((∀ q, q ∈ t.managed ↔ q ∈ outputs) ↔ c.stranded = 0) := by
  have hlinear : c.Threaded := hb.linear hc
  have hclassical : ∀ x ∈ c.instances, Export.classicalOutput? x.bloq.signature = none :=
    fun x hx => Export.classicalOutput?_eq_none_iff.mpr (hq x hx)
  obtain ⟨L, order, t, hflow, ho, hs, hd, hlefts, harray, -, hserved, -⟩ :=
    hlinear.exists_walk hin hn traversal hpool
  have hmerge := Labels.merge_arrays hlinear.valid.nodup_rights (hflow.fits_rights hlinear)
  have hdistinct := hflow.nodup_kept hlinear hs hd
  have hlength := hflow.length_kept hp hs
  have hmanaged : ∀ q, q ∈ t.managed ↔ q ∈ L.on (c.instances.length + 1) c.signature.rights ∨
      q ∈ order.flatMap (c.keptAt L) := fun q => by
    refine hflow.mem_managed_or_kept hlinear hs hd hserved (fun q => ?_) q
    rw [hlefts]
    exact mem_insertMany.trans (or_iff_right (Std.ExtTreeSet.not_mem_empty))
  refine ⟨_, _, _, _, t, hflow.export_gives_of hlinear hp hclassical harray ho hs hd hserved, hmerge,
    hdistinct, hmanaged, hlength, fun q hq => Composite.exists_operation_of_kept hp hq, ?_⟩
  constructor
  · intro honly
    rw [← hlength, List.length_eq_zero_iff]
    refine List.eq_nil_iff_forall_not_mem.mpr fun q hkept => ?_
    have hout := (honly q).mp ((hmanaged q).mpr (.inr hkept))
    exact (List.nodup_append.mp hdistinct).2.2 q hkept q hout rfl
  · intro hnone q
    rw [← hlength, List.length_eq_zero_iff] at hnone
    rw [hmanaged, hnone, or_iff_left List.not_mem_nil]

private def suppliesOrSinks : Bloq Float Complex → Bool
  | .allocate t | .adjoint (.allocate t) => t == .qbit
  | _ => false

/-- One qubit goes through beside an ancilla that ends on the general adjoint of an allocation: the
ancilla is managed when the export is over. -/
theorem Builder.Reached.export_managed_sink :
    ∃ (b b' : Builder (Bloq Float Complex)) (final : Soquets (Bloq Float Complex))
      (c : Composite (Bloq Float Complex)), b.Reached ∧ Gives (Builder.finalize final) b c b' ∧
      (∀ x ∈ c.instances, x.bloq = .allocate .qbit ∨ x.bloq = .adjoint (.allocate .qbit)) ∧
      c.stranded = 1 ∧ CleanPool.Spares {} [.named "q"] c.demand ∧
      ∃ (circuit : Circuit (Gate Float Complex)) (out : Quregs) (outputs kept : List Qubit)
        (t : Scope CleanPool),
        Gives (c.export c.signature (Quregs.named c.signature.lefts) .greedy)
          (Scope.declare [.named "q"] { base := {} }) (circuit, out) t ∧
        out.merge c.signature.rights = .ok outputs ∧ (kept ++ outputs).Nodup ∧
        (∀ q, q ∈ t.managed ↔ q ∈ outputs ∨ q ∈ kept) ∧ kept.length = c.stranded ∧
        (∀ q ∈ kept, ∃ op ∈ circuit.operations, ∃ x ∈ c.instances, op.gate = .ofBloq x.bloq ∧
          x.bloq.native? = none ∧ (∃ r ∈ x.bloq.signature.registers, r.side = .left) ∧
          q ∈ op.qubits) ∧
        ((∀ q, q ∈ t.managed ↔ q ∈ outputs) ↔ c.stranded = 0) := by
  let q : Register := ⟨"q", .qbit, [], .thru⟩
  let sink : Bloq Float Complex := .adjoint (.allocate .qbit)
  let m : BuildM (Bloq Float Complex) (Soquets (Bloq Float Complex)) := do
    let inputs ← Builder.start ⟨[q]⟩ true
    let a ← Builder.allocate .qbit
    let _ ← Builder.add sink ⟨[("reg", .scalar a)]⟩
    return inputs
  -- all but the last call is run
  have hrun : Builder.closesWith m (fun b => decide (
      b.registers = [q] ∧
      (b.instances.toList.map fun x => (x.bloq.born.map (·.totalBits)).sum).sum = 1 ∧
      (b.instances.toList.map fun x => if x.bloq.native?.isNone
        then ((x.bloq.signature.registers.filter (·.side == .left)).map (·.totalBits)).sum
        else 0).sum = 1 ∧
      b.instances.toList.all (fun x => suppliesOrSinks x.bloq) = true)) = true := by decide +kernel
  obtain ⟨final, b, b', hm, hclose, hempty, hp⟩ := Builder.exists_of_closesWith hrun
  obtain ⟨hregisters, hdemand, hstranded, hbloqs⟩ := of_decide_eq_true hp
  obtain ⟨inputs, b₁, hstart, hm⟩ := gives_bind.mp hm
  obtain ⟨a, b₂, ha, hm⟩ := gives_bind.mp hm
  obtain ⟨out, b₃, hadd, hm⟩ := gives_bind.mp hm
  obtain ⟨rfl, rfl⟩ := gives_pure.mp hm
  have hsink : sink.signature = ⟨[bundleOn .left .qbit]⟩ := by
    rw [Bloq.signature, Bloq.signature_allocate]
    rfl
  have hvalid : sink.signature.Valid := by
    rw [hsink]
    rfl
  have hreached : b₃.Reached := .call (.call (.start hstart) (.allocate ha)) (.add hvalid hadd)
  obtain ⟨c, hfinal, hsignature, hinstances⟩ := hreached.sound.finalize_gives_of_consume
    (by rw [hregisters]; rfl) hclose hempty
  rw [hregisters] at hsignature
  rw [← hinstances] at hdemand hstranded hbloqs
  have hkind : ∀ x ∈ c.instances, x.bloq = .allocate .qbit ∨ x.bloq = sink := by
    intro x hx
    have hx := List.all_eq_true.mp hbloqs x hx
    rw [suppliesOrSinks.eq_def] at hx
    split at hx
    · next t h => exact .inl (h.trans (congrArg _ (eq_of_beq hx)))
    · next t h => exact .inr (h.trans (congrArg (fun t => Bloq.adjoint (.allocate t)) (eq_of_beq hx)))
    · cases hx
  have hspares : CleanPool.Spares {} [.named "q"] c.demand := by
    refine ⟨by rw [Composite.demand, hdemand]; decide, fun p hp => ?_⟩
    rw [List.mem_singleton.mp hp]
    exact CleanPool.not_mem_fresh (by simp) _ _
  refine ⟨b₃, b', _, c, hreached, hfinal, hkind, hstranded, hspares,
    hreached.export_managed hfinal (fun x hx => ?_) (fun x hx r hr hside => ?_)
      (by rw [hsignature]; decide +kernel) (List.nodup_singleton _) .greedy hspares⟩
  · rcases hkind x hx with h | h <;> rw [h]
    · exact .allocate _
    · exact .wrapped _ rfl (by rw [hsink]; rfl)
  · rcases hkind x hx with h | h <;> rw [h] at hr
    · rw [Bloq.signature_allocate, List.mem_singleton] at hr
      rw [hr]
      rfl
    · rw [hsink, List.mem_singleton] at hr
      rw [hr]
      rfl

end BloqCircuit
