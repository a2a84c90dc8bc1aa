import BloqCircuit.Proofs.Closing
import BloqCircuit.Proofs.Pools
/-! Composites come back from the circuits that they emit, up to their bookkeeping and the names of
the qubits that they allocate. -/
namespace BloqCircuit

namespace Composite
variable {α κ : Type} [Angle α] {c : Composite (Bloq α κ)} {L : Labels}

/-! ## Operations on the way -/

/-- The operations of a composite can follow one another in the order of a walk. -/
theorem Flow.lively (h : c.Flow L) (hc : c.Linear) (hr : ∀ x ∈ c.instances, x.bloq.Regular)
    {done rest : List Nat} (hf : c.Front (done ++ rest)) (hd : c.Distinct L (done ++ rest))
    {outputs known gone : List Qubit}
    (hknown : ∀ q ∈ known, q ∈ L.on 0 c.signature.lefts ++ done.flatMap (c.bornAt L))
    (hgone : ∀ q ∈ gone, ∃ v ∈ done, ∃ b, c.bloqAt v = some b ∧ q ∈ L.on v b.dead)
    (hout : ∀ q ∈ outputs, ∀ v b, c.bloqAt v = some b → q ∉ L.on v b.dead) :
    Import.Lively outputs known gone (rest.filterMap (c.operationAt? L)) := by
  induction rest generalizing done known gone with
  | nil =>
    refine .nil fun q hq hg => ?_
    obtain ⟨v, -, b, hb, hmem⟩ := hgone q hg
    exact hout q hq v b hb hmem
  | cons v rest ih =>
    have hassoc : done ++ v :: rest = done ++ [v] ++ rest := by simp
    have hfront : c.Front (done ++ [v]) := by
      rw [hassoc] at hf
      exact hf.of_append
    have hmono : ∀ q ∈ L.on 0 c.signature.lefts ++ done.flatMap (c.bornAt L),
        q ∈ L.on 0 c.signature.lefts ++ (done ++ [v]).flatMap (c.bornAt L) := by
      intro q hq
      rw [List.flatMap_append, ← List.append_assoc]
      exact List.mem_append_left _ hq
    have hkept : ∀ q ∈ gone, ∃ u ∈ done ++ [v], ∃ b, c.bloqAt u = some b ∧ q ∈ L.on u b.dead := by
      intro q hq
      obtain ⟨u, hu, hdead⟩ := hgone q hq
      exact ⟨u, List.mem_append_left _ hu, hdead⟩
    have hrest := @ih (done ++ [v]) (by rwa [← hassoc]) (by rwa [← hassoc])
    cases hop : c.operationAt? L v with
    | none =>
      rw [List.filterMap_cons_none hop]
      exact hrest (fun q hq => hmono q (hknown q hq)) hkept
    | some op =>
      rw [List.filterMap_cons_some hop]
      obtain ⟨b, hb, hop⟩ := Option.bind_eq_some_iff.mp hop
      obtain ⟨g, hg, hopq⟩ := Option.map_eq_some_iff.mp hop
      have hqubits : op.qubits = L.on v b.signature.registers := by rw [← hopq]
      have hregular : b.Regular := by
        obtain ⟨x, hx, rfl⟩ := exists_instance hb
        exact hr x hx
      have hmoves := (hregular.plain.of_emits hg).1
      obtain ⟨others, harrive⟩ := h.arriving hc hfront (bloqAt_lt hb).1
      rw [regsIn_eq hb] at harrive
      have hupto : (L.on 0 c.signature.lefts ++ done.flatMap (c.bornAt L) ++ c.bornAt L v).Nodup := by
        rw [Distinct, List.flatMap_append, List.flatMap_cons, ← List.append_assoc,
          ← List.append_assoc] at hd
        exact hd.of_append_left
      have hbefore := hupto.of_append_left
      -- what is gone ended behind the front, what arrives crosses it, and what appears is new
      refine .cons hregular (h.node v b hb) hop ?_ ?_ ?_ (hrest ?_ ?_)
      · rw [hqubits]
        exact h.nodup_registers hc hfront hd hb hmoves
      · intro q hq hm
        obtain ⟨u, hu, b', hb', hdead⟩ := hgone q hm
        have hcut := harrive.nodup_iff.mpr hbefore
        rw [List.append_assoc] at hcut
        refine (List.nodup_append.mp hcut).2.2 q hq q (List.mem_append_right _ ?_) rfl
        exact List.mem_flatMap.mpr ⟨u, hu, (goneAt_of_some hb').symm ▸ hdead⟩
      · intro q hq hm
        have hborn : q ∈ c.bornAt L v := (bornAt_of_some hb).symm ▸ hq
        exact (List.nodup_append.mp hupto).2.2 q (hknown q hm) q hborn rfl
      · intro q hq
        rcases List.mem_append.mp hq with hq | hq
        · exact hmono q (hknown q hq)
        · rw [hqubits] at hq
          exact h.registers_subset hc hfront hb hmoves hq
      · intro q hq
        rcases List.mem_append.mp hq with hq | hq
        · exact hkept q hq
        · exact ⟨v, List.mem_append_right _ List.mem_cons_self, b, hb, hq⟩

/-! ## There and back -/

/-- A composite on which operations run emits them again, on other ancillas. -/
theorem Realizes.exists_export {s : Signature} {ops : List (Operation (Gate α κ))}
    (h : c.Realizes s L ops) {quregs : Quregs}
    (hin : ∀ r ∈ s.lefts, r.arrayIn quregs = .ok (L.array 0 r)) (traversal : TraversalOrder)
    {p : CleanPool} (hp : p.Spares (L.on 0 s.lefts) c.demand) :
    ∃ (circuit : Circuit (Gate α κ)) (t : Scope CleanPool) (r : Qubit → Qubit),
      Gives (c.export c.signature quregs traversal)
        (Scope.declare (L.on 0 s.lefts) { base := p })
        (circuit, (L.arrays (c.instances.length + 1) s.rights).map r) t ∧
      Function.Injective r ∧ (∀ q ∈ L.on 0 s.lefts, r q = q) ∧
      circuit.operations.Perm (ops.map (Operation.map r)) := by
  obtain ⟨hc, hsig, hr, hflow, hops, hd⟩ := h
  subst hsig
  obtain ⟨order, ho, hs⟩ := hc.threaded.exists_order traversal
  have hdistinct : c.Distinct L order := hd.perm hs.perm.symm
  have hn : (L.on 0 c.signature.lefts).Nodup := List.Nodup.of_append_left hd
  have hlen : (order.flatMap (c.bornAt L)).length = (CleanPool.fresh p.next c.demand).length := by
    rw [hflow.length_born hc hs, CleanPool.length_fresh]
  -- renamed, the qubits that appear are those that the pool hands out on this walk
  obtain ⟨r, hr', hkept, hmap⟩ := exists_renaming hdistinct (hp.nodup hn) hlen
  obtain ⟨t, ht, -⟩ := hflow.exists_export_map hc (fun x hx => (hr x hx).plain)
    (fun x hx => (hr x hx).classicalOutput?) hin ho hs hkept hmap (hp.nodup hn)
  refine ⟨_, t, r, ht, hr', hkept, ?_⟩
  rw [← hops]
  exact (hs.perm.filterMap _).map _

/-- The circuit of a composite is imported on the same boundary, and needs no more ancillas there. -/
theorem Linear.exists_import (hc : c.Linear) (hr : ∀ x ∈ c.instances, x.bloq.Regular)
    (hq : ∀ r ∈ c.signature.registers, r.Quantum) {quregs : Quregs} {inputs : List Qubit}
    (hin : quregs.merge c.signature.lefts = .ok inputs) (hn : inputs.Nodup)
    {traversal : TraversalOrder} {p : CleanPool} (hp : p.Spares inputs c.demand)
    {circuit : Circuit (Gate α κ)} {out : Quregs} {t : Scope CleanPool}
    (h : Gives (c.export c.signature quregs traversal) (Scope.declare inputs { base := p })
      (circuit, out) t) :
    ∃ c' L, circuit.importBetween c.signature quregs out = .ok c' ∧
      c'.Realizes c.signature L circuit.operations ∧ L.on 0 c.signature.lefts = inputs ∧
      (∀ r ∈ c.signature.lefts, r.arrayIn quregs = .ok (L.array 0 r)) ∧
      L.arrays (c'.instances.length + 1) c.signature.rights = out ∧ c'.demand ≤ c.demand := by
  obtain ⟨L, order, t', hflow, hs, hd, hlefts, harray, -, hexport, -⟩ :=
    hc.threaded.exists_export (fun x hx => (hr x hx).plain)
      (fun x hx => (hr x hx).classicalOutput?) hin hn traversal hp
  obtain ⟨heq, -⟩ := h.unique hexport
  cases heq
  have hfront : c.Front ([] ++ order) := hs.next
  have hlively : Import.Lively (L.on (c.instances.length + 1) c.signature.rights)
      (L.on 0 c.signature.lefts) [] (order.filterMap (c.operationAt? L)) :=
    hflow.lively hc hr hfront hd (fun q hq => List.mem_append_left _ hq) (fun q hq => absurd hq List.not_mem_nil)
      fun q hq v b hb => hflow.not_dead_of_output hc hs hd hq hb
  obtain ⟨c', L', himport, hrealizes, hinput, houtput, hwithin⟩ := Circuit.importBetween_realizes
    hc.valid hq hflow.inputs harray (List.Nodup.of_append_left hd) (hflow.fits_rights hc)
    (fun r hr => Labels.arrayIn_arrays hc.valid.nodup_rights hr)
    (List.Nodup.of_append_right (hflow.nodup_through hc hs hd)) hlively
  have hlefts' : L'.on 0 c.signature.lefts = L.on 0 c.signature.lefts :=
    Labels.on_congr fun p hp => hinput p (mem_portsOn.mp hp).1
  refine ⟨c', L', himport, hrealizes, hlefts'.trans hlefts, fun r hr => ?_, ?_, ?_⟩
  · have hlabels : (fun i => L ⟨0, i, r⟩) = fun i => L' ⟨0, i, r⟩ :=
      funext fun i => (hinput ⟨0, i, r⟩ rfl).symm
    rw [harray r hr, Labels.array, Labels.array, hlabels]
  · refine Arrays.byRegister_congr fun r _ => ?_
    exact congrArg r.array (funext fun i => houtput r i)
  · have hdistinct := hrealizes.distinct
    rw [Distinct, hrealizes.signature, hlefts'] at hdistinct
    -- what appears on the imported composite appeared on the exported one
    have hborn : (List.range c'.size).flatMap (c'.bornAt L') ⊆ order.flatMap (c.bornAt L) := by
      intro q hq
      have hnot : q ∉ L.on 0 c.signature.lefts := fun hm =>
        (List.nodup_append.mp hdistinct).2.2 q hm q hq rfl
      have hmem : q ∈ L.on 0 c.signature.lefts ++ order.flatMap (c.bornAt L) := by
        rcases hwithin q (List.mem_append_right _ hq) with hq | hq | hq
        · exact List.mem_append_left _ hq
        · exact hflow.mem_of_operation hc (fun x hx => (hr x hx).plain) hs hq
        · exact hflow.mem_of_output hc hs hq
      exact (List.mem_append.mp hmem).resolve_left hnot
    have hle := ((List.Nodup.of_append_right hdistinct).subperm hborn).length_le
    rwa [hflow.length_born hc hs,
      hrealizes.flow.length_born hrealizes.linear hrealizes.linear.sorts_range] at hle

end Composite

/-- A composite that a builder gives, emitted on any different inputs, comes back from its circuit.
What comes back emits the same operations up to their order and the numbers of the ancillas, of
which it takes no more. -/
theorem Builder.Reached.export_import {α κ : Type} [Angle α] {b b' : Builder (Bloq α κ)}
    {final : Soquets (Bloq α κ)} {c : Composite (Bloq α κ)} (hb : b.Reached)
    (hc : Gives (Builder.finalize final) b c b') (hq : ∀ r ∈ c.signature.registers, r.Quantum)
    (hr : ∀ x ∈ c.instances, x.bloq.Regular) {quregs : Quregs} {inputs : List Qubit}
    (hin : quregs.merge c.signature.lefts = .ok inputs) (hn : inputs.Nodup)
    {traversal : TraversalOrder} {p : CleanPool} (hp : p.Spares inputs c.demand)
    {circuit : Circuit (Gate α κ)} {out : Quregs} {t : Scope CleanPool}
    (h : Gives (c.export c.signature quregs traversal) (Scope.declare inputs { base := p })
      (circuit, out) t) (name : String) :
    ∃ c', circuit.importAs (some c.signature) (some quregs) (some out) name = .ok c' ∧
      c'.demand ≤ c.demand ∧
      ∀ (traversal' : TraversalOrder) (p' : CleanPool), p'.Spares inputs c'.demand →
        ∃ circuit' out' t' r,
          Gives (c'.export c'.signature quregs traversal') (Scope.declare inputs { base := p' })
            (circuit', out') t' ∧
          Function.Injective r ∧ (∀ q ∈ inputs, r q = q) ∧
          circuit'.operations.Perm (circuit.operations.map (Operation.map r)) ∧
          out' = out.map r := by
  obtain ⟨c', L, himport, hrealizes, hlefts, harray, hout, hle⟩ :=
    (hb.linear hc).exists_import hr hq hin hn hp h
  refine ⟨c', himport, hle, fun traversal' p' hp' => ?_⟩
  rw [← hlefts] at hp'
  obtain ⟨circuit', t', r, hexport, hinj, hkept, hperm⟩ :=
    hrealizes.exists_export harray traversal' hp'
  rw [hlefts] at hexport hkept
  rw [hout] at hexport
  exact ⟨circuit', _, t', r, hexport, hinj, hkept, hperm, rfl⟩

/-- An ancilla that is allocated, flipped and put out. -/
theorem Builder.Reached.export_import_ancilla :
    ∃ (b b' : Builder (Bloq Float Complex)) (final : Soquets (Bloq Float Complex))
      (c : Composite (Bloq Float Complex)) (circuit : Circuit (Gate Float Complex)) (q : Qubit)
      (out : Quregs) (t : Scope CleanPool),
      b.Reached ∧ Gives (Builder.finalize final) b c b' ∧
      c.signature = ⟨[{ gateRegister 1 with side := .right }]⟩ ∧
      (∀ r ∈ c.signature.registers, r.Quantum) ∧ (∀ x ∈ c.instances, x.bloq.Regular) ∧
      Quregs.merge Arrays.empty c.signature.lefts = .ok [] ∧ ([] : List Qubit).Nodup ∧
      CleanPool.Spares {} [] c.demand ∧
      Gives (c.export c.signature Arrays.empty .greedy) (Scope.declare [] { base := {} })
        (circuit, out) t ∧
      circuit.operations = [⟨.standard .x, [q]⟩] ∧
      ∃ c', circuit.importAs (some c.signature) (some Arrays.empty) (some out) "a" = .ok c' ∧
        c'.demand ≤ c.demand ∧
        ∀ (traversal' : TraversalOrder) (p' : CleanPool), p'.Spares [] c'.demand →
          ∃ circuit' out' t' r,
            Gives (c'.export c'.signature Arrays.empty traversal') (Scope.declare [] { base := p' })
              (circuit', out') t' ∧
            Function.Injective r ∧ (∀ q ∈ ([] : List Qubit), r q = q) ∧
            circuit'.operations.Perm (circuit.operations.map (Operation.map r)) ∧
            out' = out.map r := by
  obtain ⟨s, hs⟩ : ∃ s : Signature, s = ⟨[{ gateRegister 1 with side := .right }]⟩ := ⟨_, rfl⟩
  let f : Labels := fun _ => [.clean 0]
  let x : Bloq Float Complex := .ofGate (.standard .x)
  have hlefts : s.lefts = [] := by rw [hs]; rfl
  have hrights : s.rights = [{ gateRegister 1 with side := .right }] := by rw [hs]; rfl
  have hvalid : s.Valid := by rw [hs]; rfl
  have hquantum : ∀ r ∈ s.registers, r.Quantum := by
    rw [hs]
    intro r hr
    rw [List.mem_singleton.mp hr]
    exact ⟨rfl, Nat.le_refl 1⟩
  have hx : x.signature = ⟨[gateRegister 1]⟩ := Bloq.signature_ofGate _
  have hxlefts : x.signature.lefts = [gateRegister 1] := by rw [hx]; rfl
  have hxrights : x.signature.rights = [gateRegister 1] := by rw [hx]; rfl
  have hregular : x.Regular := Bloq.regular_ofGate fun b hb => by cases hb
  have hborn : x.born = [] := by rw [Bloq.born, hx]; rfl
  have hdead : x.dead = [] := by rw [Bloq.dead, hx]; rfl
  have hpasses : ∀ v, f.Passes v x := by
    refine fun v => ⟨fun p hp => ?_, fun hm => absurd hm Bool.false_ne_true⟩
    rw [hx] at hp
    rw [List.mem_singleton.mp (mem_portsOn.mp hp).2.1]
    rfl
  have hoperation : ∀ v, x.operation? f v = some ⟨.standard .x, [.clean 0]⟩ := by
    intro v
    rw [Bloq.operation?, hx]
    rfl
  -- the ancilla is allocated
  have hopened : (Builder.opened s : Builder (Bloq Float Complex)).Holds s f [] [] [] := by
    have hempty : Builder.inputStock Float Complex s f = [] := by
      rw [Builder.inputStock, hlefts]
      rfl
    rw [← hempty]
    refine Builder.holds_opened hvalid (fun r hr => hquantum r (Signature.mem_lefts.mp hr).1) ?_ ?_
    · rw [hlefts]
      exact fun p hp => absurd hp List.not_mem_nil
    · rw [hlefts]
      exact List.nodup_nil
  obtain ⟨b₁, so, hallocate, hholds₁⟩ : ∃ b₁ so, Gives (Builder.allocate .qbit) (Builder.opened s) so b₁ ∧
      b₁.Holds s f ([([.clean 0], so)] ++ []) [] [] :=
    hopened.allocate rfl rfl (by exact Nat.le_refl 1) (List.nodup_singleton _)
  -- it is flipped
  let cells : Register → Grid (Soquet (Bloq Float Complex)) := fun r => Grid.ofFn r.shape fun _ => so
  have hcells : ∀ r ∈ x.signature.lefts, (cells r).shape = r.shape := fun r _ => rfl
  obtain ⟨b₂, hadd, hholds₂⟩ := hholds₁.add hregular (by rw [hx]; rfl) (hpasses _) (by rw [hxlefts]; rfl) hcells
    (by rw [hxlefts]; rfl) (by rw [hborn]; exact List.nodup_singleton _)
  rw [hxrights, hdead, hoperation] at hholds₂
  -- it is put out
  let outs : Register → Grid (Soquet (Bloq Float Complex)) := fun r =>
    Grid.ofFn r.shape fun i => ⟨.placed ⟨b₁.next, x⟩, gateRegister 1, i⟩
  have houts : ∀ r ∈ s.rights, (outs r).shape = r.shape := fun r _ => rfl
  have hfits : f.Fits 0 s.rights := by
    rw [hrights]
    intro p hp
    rw [List.mem_singleton.mp (mem_portsOn.mp hp).2.1]
    rfl
  obtain ⟨c, L, b', hfinal, hrealizes, -, -, hbalance⟩ := hholds₂.finalize
    (fun r hr => hquantum r (Signature.mem_rights.mp hr).1) houts hfits (by rw [hrights]; rfl)
    (by rw [hrights]; rfl)
  have hdemand : c.demand = 1 := by
    have hlen := hbalance.length_eq
    rw [hlefts, Labels.on_nil, List.nil_append, List.append_nil,
      hrealizes.flow.length_born hrealizes.linear hrealizes.linear.sorts_range] at hlen
    exact hlen
  have hspares : CleanPool.Spares {} [] c.demand :=
    ⟨by rw [hdemand]; decide, fun q hq => absurd hq List.not_mem_nil⟩
  have hL : L.on 0 s.lefts = [] := by
    rw [hlefts]
    rfl
  have hin : ∀ r ∈ s.lefts, r.arrayIn Arrays.empty = .ok (L.array 0 r) := by
    rw [hlefts]
    exact fun r hr => absurd hr List.not_mem_nil
  obtain ⟨circuit, t, r, hexport, -, -, hperm⟩ :=
    hrealizes.exists_export hin .greedy (by rwa [hL])
  rw [hL] at hexport
  have hreached : b₂.Reached :=
    .call (.call (.start (Builder.start_gives hvalid)) (.allocate hallocate))
      (.add (by rw [hx]; rfl) hadd)
  have hquantum : ∀ r ∈ c.signature.registers, r.Quantum := by rwa [hrealizes.signature]
  have hmerge : Quregs.merge Arrays.empty c.signature.lefts = .ok [] := by
    rw [hrealizes.signature, hlefts]
    rfl
  exact ⟨b₂, b', _, c, circuit, r (.clean 0), _, t, hreached, hfinal, hrealizes.signature.trans hs,
    hquantum, hrealizes.regular, hmerge, List.nodup_nil, hspares, hexport,
    List.perm_singleton.mp hperm,
    hreached.export_import hfinal hquantum hrealizes.regular hmerge List.nodup_nil hspares hexport "a"⟩

end BloqCircuit
