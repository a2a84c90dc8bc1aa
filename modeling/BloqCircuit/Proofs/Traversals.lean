import BloqCircuit.Proofs.Pools
/-! The order of a walk decides neither whether a composite can be emitted nor, up to the numbers of
the ancillas, what is emitted. -/
namespace BloqCircuit

/-! ## What an emission asks for -/

/-- What a bloq must be like to be emitted at all: no classical data on outputs that are no inputs,
and different register names if it is wrapped as a gate. -/
def Bloq.Emissible {α κ : Type} (b : Bloq α κ) : Prop :=
  Export.classicalOutput? b.signature = none ∧
    (b.native? = none → b.signature.repeatedName? = none)

theorem Bloq.Emissible.plain {α κ : Type} {b : Bloq α κ} (h : b.Emissible)
    (hb : b.Plain ∨ b.native? = none) : b.Plain :=
  hb.elim id fun hn => .wrapped b hn (h.2 hn)

namespace Export
variable {α κ σ : Type} [Angle α] [Allocator σ] {s t : σ}

theorem emissible_of_emit {x : Instance (Bloq α κ)} {v : Visit (Bloq α κ)}
    {carriers : Carriers} {y : Option (Operation (Gate α κ)) × Carriers}
    (h : Gives (emit x v carriers) s y t) : x.bloq.Emissible := by
  obtain ⟨carriers', s', -, h⟩ := gives_bind.mp h
  cases hq : classicalOutput? (BloqKind.signature x.bloq) with
  | some r =>
    simp only [hq] at h
    exact absurd h (by simp)
  | none =>
    simp only [hq] at h
    refine ⟨hq, fun hnative => ?_⟩
    obtain ⟨arrays, s₁, -, h⟩ := gives_bind.mp h
    obtain ⟨out, s₂, hrun, -⟩ := gives_bind.mp h
    have hform : CircuitForm.native? x.bloq = none := hnative
    rw [runBloq] at hrun
    simp only [hform] at hrun
    obtain ⟨op, s₃, hwrapped, -⟩ := gives_bind.mp hrun
    obtain ⟨g, s₄, hgate, -⟩ := gives_bind.mp hwrapped
    obtain ⟨hgate, -⟩ := gives_lift.mp hgate
    exact (Bloq.gate_eq_ok.mp hgate).1

/-- A walk that succeeds has emitted all of its bloqs. -/
theorem emissible_of_emitAll {visits : List (Visit (Bloq α κ))} {carriers : Carriers}
    {y : List (Operation (Gate α κ)) × Carriers} (h : Gives (emitAll visits carriers) s y t)
    {v : Visit (Bloq α κ)} (hv : v ∈ visits) {x : Instance (Bloq α κ)} (hx : v.node = .placed x) :
    x.bloq.Emissible := by
  induction visits generalizing carriers s t y with
  | nil => exact absurd hv List.not_mem_nil
  | cons w rest ih =>
    rw [emitAll] at h
    cases hw : w.node with
    | leftDangle =>
      simp only [hw] at h
      rcases List.mem_cons.mp hv with rfl | hv
      · cases hw.symm.trans hx
      · exact ih h hv
    | rightDangle =>
      simp only [hw] at h
      obtain ⟨carriers', s', -, h⟩ := gives_bind.mp h
      rcases List.mem_cons.mp hv with rfl | hv
      · cases hw.symm.trans hx
      · exact ih h hv
    | placed z =>
      simp only [hw] at h
      obtain ⟨first, s₁, hfirst, h⟩ := gives_bind.mp h
      obtain ⟨others, s₂, hothers, -⟩ := gives_bind.mp h
      rcases List.mem_cons.mp hv with rfl | hv
      · cases hw.symm.trans hx
        exact emissible_of_emit hfirst
      · exact ih hothers hv

end Export

namespace Composite
variable {α κ : Type} [Angle α] {c : Composite (Bloq α κ)} {L : Labels}

theorem emissible_of_export {σ : Type} [Allocator σ] {s t : σ} (hc : c.Threaded) {signature : Signature}
    {quregs : Quregs} {traversal : TraversalOrder} {y : Circuit (Gate α κ) × Quregs}
    (h : Gives (c.export signature quregs traversal) s y t) :
    ∀ x ∈ c.instances, x.bloq.Emissible := by
  intro x hx
  obtain ⟨order, ho, hs⟩ := hc.exists_order traversal
  have hlt : ∀ v ∈ order, v < c.size := fun v hv => List.mem_range.mp (hs.perm.mem_iff.mp hv)
  obtain ⟨carriers, s₁, -, h⟩ := gives_bind.mp h
  obtain ⟨visits, s₂, hvisits, h⟩ := gives_bind.mp h
  obtain ⟨hvisits, -⟩ := gives_lift.mp hvisits
  rw [visits_eq ho hlt] at hvisits
  cases hvisits
  obtain ⟨emitted, s₃, hemitted, -⟩ := gives_bind.mp h
  obtain ⟨k, hk, rfl⟩ := List.mem_iff_getElem.mp hx
  have hmem : k + 1 ∈ order := hs.perm.mem_iff.mpr (List.mem_range.mpr (Nat.succ_lt_succ (Nat.lt_succ_of_lt hk)))
  refine Export.emissible_of_emitAll hemitted (List.mem_map_of_mem hmem) ?_
  rw [visitAt, nodeAt, if_neg (Nat.succ_ne_zero k), Nat.add_sub_cancel, List.getElem?_eq_getElem hk]
  rfl

/-- Whatever the order of the walk, a composite is emitted if its bloqs can be. -/
theorem Threaded.exports_iff (hc : c.Threaded)
    (hx : ∀ x ∈ c.instances, x.bloq.Plain ∨ x.bloq.native? = none) {quregs : Quregs}
    {inputs : List Qubit} (hin : quregs.merge c.signature.lefts = .ok inputs) (hn : inputs.Nodup)
    (traversal : TraversalOrder) {p : CleanPool} (hpool : p.Spares inputs c.demand) :
    (∃ y t, Gives (c.export c.signature quregs traversal) (Scope.declare inputs { base := p }) y t) ↔
      ∀ x ∈ c.instances, x.bloq.Emissible := by
  constructor
  · rintro ⟨y, t, h⟩
    exact emissible_of_export hc h
  · intro h
    obtain ⟨L, order, t, -, -, -, -, -, -, hexport, -⟩ :=
      hc.exists_export (fun x hm => (h x hm).plain (hx x hm)) (fun x hm => (h x hm).1) hin hn
        traversal hpool
    exact ⟨_, t, hexport⟩

end Composite

/-! ## Two walks -/

/-- Two walks over a composite on different inputs both succeed or both fail. If they succeed, a
permutation of the qubits that they allocate takes the operations of the one, up to their order, and
its outputs to those of the other. -/
theorem Builder.Reached.export_traversals {α κ : Type} [Angle α] {b b' : Builder (Bloq α κ)}
    {final : Soquets (Bloq α κ)} {c : Composite (Bloq α κ)} (hb : b.Reached)
    (hc : Gives (Builder.finalize final) b c b')
    (hx : ∀ x ∈ c.instances, x.bloq.Plain ∨ x.bloq.native? = none) {quregs : Quregs}
    {inputs : List Qubit} (hin : quregs.merge c.signature.lefts = .ok inputs) (hn : inputs.Nodup)
    {p : CleanPool} (hpool : p.Spares inputs c.demand) (traversal traversal' : TraversalOrder) :
    ((∃ y t, Gives (c.export c.signature quregs traversal) (Scope.declare inputs { base := p }) y t) ↔
      ∃ y t, Gives (c.export c.signature quregs traversal') (Scope.declare inputs { base := p }) y t) ∧
    ∀ {circuit circuit' : Circuit (Gate α κ)} {out out' : Quregs} {t t' : Scope CleanPool},
      Gives (c.export c.signature quregs traversal) (Scope.declare inputs { base := p })
        (circuit, out) t →
      Gives (c.export c.signature quregs traversal') (Scope.declare inputs { base := p })
        (circuit', out') t' →
      t.base.next = p.next + UInt32.ofNat c.demand ∧
      t'.base.next = p.next + UInt32.ofNat c.demand ∧
      ∃ r : Equiv.Perm Qubit, (∀ q ∈ inputs, r q = q) ∧
        (∀ q ∉ CleanPool.fresh p.next c.demand, r q = q) ∧
        circuit'.operations.Perm (circuit.operations.map (Operation.map r)) ∧ out' = out.map r := by
  have hlinear : c.Threaded := hb.linear hc
  refine ⟨(hlinear.exports_iff hx hin hn traversal hpool).trans
    (hlinear.exports_iff hx hin hn traversal' hpool).symm, ?_⟩
  intro circuit circuit' out out' t t' h h'
  have hemissible := Composite.emissible_of_export hlinear h
  have hp : ∀ x ∈ c.instances, x.bloq.Plain := fun x hm => (hemissible x hm).plain (hx x hm)
  have hq : ∀ x ∈ c.instances, Export.classicalOutput? x.bloq.signature = none :=
    fun x hm => (hemissible x hm).1
  -- one flow serves both walks; on the second one its qubits appear in another order
  obtain ⟨L, order, u, hflow, ho, hs, hd, hlefts, harray, hborn, hserved, -⟩ :=
    hlinear.exists_walk hin hn traversal hpool
  obtain ⟨order', ho', hs'⟩ := hlinear.exists_order traversal'
  have hsame : order'.Perm order := hs'.perm.trans hs.perm.symm
  have hperm : (order'.flatMap (c.bornAt L)).Perm (CleanPool.fresh p.next c.demand) :=
    hborn ▸ hsame.flatMap_right _
  obtain ⟨r, hother, hmap⟩ := exists_permuting hperm
    (hperm.nodup_iff.mpr (CleanPool.nodup_fresh _ hpool.small))
  have hfixed : ∀ q ∉ CleanPool.fresh p.next c.demand, r q = q := fun q hq =>
    hother q fun hm => hq (hperm.mem_iff.mp hm)
  have hkept : ∀ q ∈ inputs, r q = q := fun q hm => hfixed q (hpool.apart q hm)
  have hexport := hflow.export_gives_of hlinear hp hq harray ho hs hd hserved
  have hnext := hserved.next
  rw [hborn, CleanPool.length_fresh] at hnext
  obtain ⟨u', hexport', hnext'⟩ := hflow.exists_export_map hlinear hp hq harray ho' hs'
    (hlefts ▸ hkept) hmap (hlefts ▸ hpool.nodup hn)
  rw [hlefts] at hexport'
  obtain ⟨heq, rfl⟩ := h.unique hexport
  obtain ⟨heq', rfl⟩ := h'.unique hexport'
  cases heq
  cases heq'
  exact ⟨hnext, hnext', r, hkept, hfixed, (hsame.filterMap _).map _, rfl⟩

private def supplies : Bloq Float Complex → Bool
  | .allocate _ | .free _ | .adjoint _ => true
  | _ => false

/-- The ancilla that comes out is the first one or the second one, depending on the walk. -/
theorem Builder.Reached.export_traversals_ancillas :
    ∃ (b b' : Builder (Bloq Float Complex)) (final : Soquets (Bloq Float Complex))
      (c : Composite (Bloq Float Complex)), b.Reached ∧ Gives (Builder.finalize final) b c b' ∧
      c.instances.length = 3 ∧ (∀ x ∈ c.instances, x.bloq.Plain ∨ x.bloq.native? = none) ∧
      (Quregs.named c.signature.lefts).merge c.signature.lefts = .ok [.named "q"] ∧
      CleanPool.Spares {} [.named "q"] c.demand ∧ c.demand = 2 ∧
      ∃ (circuit circuit' : Circuit (Gate Float Complex)) (out out' : Quregs)
        (t t' : Scope CleanPool),
        Gives (c.export c.signature (Quregs.named c.signature.lefts) .greedy)
          (Scope.declare [.named "q"] { base := {} }) (circuit, out) t ∧
        Gives (c.export c.signature (Quregs.named c.signature.lefts) .insertion)
          (Scope.declare [.named "q"] { base := {} }) (circuit', out') t' ∧
        t.base.next = 0 + UInt32.ofNat c.demand ∧ t'.base.next = 0 + UInt32.ofNat c.demand ∧
        ∃ r : Equiv.Perm Qubit, (∀ q ∈ [Qubit.named "q"], r q = q) ∧
          (∀ q ∉ CleanPool.fresh 0 c.demand, r q = q) ∧
          circuit'.operations.Perm (circuit.operations.map (Operation.map r)) ∧
          out' = out.map r := by
  let q : Register := ⟨"q", .qbit, [], .thru⟩
  let m : BuildM (Bloq Float Complex) (Soquets (Bloq Float Complex)) := do
    let inputs ← Builder.start ⟨[q]⟩ true
    let a ← Builder.allocate .qbit
    let out ← Builder.add (.adjoint (.free .qbit)) Arrays.empty
    Builder.free a
    return ⟨inputs.entries ++ out.entries⟩
  -- all but the last call is run
  have hrun : Builder.closesWith m (fun b => decide (
      b.registers = [q, bundleOn .right .qbit] ∧ b.instances.toList.length = 3 ∧
      (b.instances.toList.map fun x => (x.bloq.born.map (·.totalBits)).sum).sum = 2 ∧
      b.instances.toList.all (fun x => supplies x.bloq) = true ∧
      ∀ x ∈ b.instances.toList, Export.classicalOutput? x.bloq.signature = none ∧
        x.bloq.signature.repeatedName? = none)) = true := by decide +kernel
  obtain ⟨final, b, b', hm, hclose, hempty, hp⟩ := Builder.exists_of_closesWith hrun
  obtain ⟨hregisters, hlength, hdemand, hsupplies, hnames⟩ := of_decide_eq_true hp
  obtain ⟨inputs, b₁, hstart, hm⟩ := gives_bind.mp hm
  obtain ⟨x, b₂, hx, hm⟩ := gives_bind.mp hm
  obtain ⟨out, b₃, hadd, hm⟩ := gives_bind.mp hm
  obtain ⟨⟨⟩, b₄, hfree, hm⟩ := gives_bind.mp hm
  obtain ⟨rfl, rfl⟩ := gives_pure.mp hm
  have hvalid : (Bloq.adjoint (.free .qbit) : Bloq Float Complex).signature.Valid := by
    rw [Bloq.signature, Bloq.signature_free]
    rfl
  have hreached : b₄.Reached :=
    .call (.call (.call (.start hstart) (.allocate hx)) (.add hvalid hadd)) (.free hfree)
  obtain ⟨c, hfinal, hsignature, hinstances⟩ := hreached.sound.finalize_gives_of_consume
    (by rw [hregisters]; rfl) hclose hempty
  rw [hregisters] at hsignature
  rw [← hinstances] at hlength hdemand hsupplies hnames
  have hkind : ∀ x ∈ c.instances, x.bloq.Plain ∨ x.bloq.native? = none := by
    intro x hx
    have hx := List.all_eq_true.mp hsupplies x hx
    cases hb : x.bloq with
    | allocate t => exact .inl (.allocate t)
    | free t => exact .inl (.free t)
    | adjoint b => exact .inr rfl
    | _ =>
      rw [hb] at hx
      cases hx
  have hspares : CleanPool.Spares {} [.named "q"] c.demand := by
    refine ⟨by rw [Composite.demand, hdemand]; decide, fun p hp => ?_⟩
    rw [List.mem_singleton.mp hp]
    exact CleanPool.not_mem_fresh (by simp) _ _
  have hmerge : (Quregs.named c.signature.lefts).merge c.signature.lefts = .ok [.named "q"] := by
    rw [hsignature]
    decide +kernel
  have hexports := fun traversal => ((hreached.linear hfinal).threaded.exports_iff hkind hmerge
    (List.nodup_singleton _) traversal hspares).mpr fun x hx =>
      ⟨(hnames x hx).1, fun _ => (hnames x hx).2⟩
  obtain ⟨⟨circuit, out⟩, t, h⟩ := hexports .greedy
  obtain ⟨⟨circuit', out'⟩, t', h'⟩ := hexports .insertion
  exact ⟨b₄, b', _, c, hreached, hfinal, hlength, hkind, hmerge, hspares, hdemand, circuit, circuit',
    out, out', t, t', h, h', (hreached.export_traversals hfinal hkind hmerge (List.nodup_singleton _)
      hspares .greedy .insertion).2 h h'⟩

end BloqCircuit
