import BloqCircuit.Proofs.Levels
import BloqCircuit.Proofs.Raised
import BloqCircuit.Proofs.Rewrapping
import BloqCircuit.Proofs.Walks
/-! Composites of raised bloqs that do what one matrix does. Read backwards they do what its conjugate
transpose does, and as decompositions they unfold to operations with raised bloqs. -/
namespace BloqCircuit

/-! ## Bloqs on which nothing appears or ends -/

namespace Bloq

/-- Splits and joins of qubits, and raised bloqs whose gates unfold less than so many times. -/
inductive Quiet (d : Nat) : Bloq ℝ ℂ → Prop
  | split {t : DataType} (h : t.isQuantum = true) : Quiet d (.split t)
  | join {t : DataType} (h : t.isQuantum = true) : Quiet d (.join t)
  | raised {b : Bloq ℝ ℂ} {g : Gate ℝ ℂ} (h : b.Raised) (he : b.emits = some g) (hd : g.height < d) :
      Quiet d b

namespace Quiet
variable {d : Nat} {b : Bloq ℝ ℂ}

theorem plain (h : b.Quiet d) : b.Plain := by
  cases h with
  | split _ => exact .split _
  | join _ => exact .join _
  | raised h _ _ => exact h.plain

theorem still (h : b.Quiet d) : Composite.Still b := by
  cases h with
  | split _ => exact ⟨rfl, rfl, rfl⟩
  | join _ => exact ⟨rfl, rfl, rfl⟩
  | raised h _ _ => exact h.still

theorem classicalOutput? (h : b.Quiet d) : Export.classicalOutput? b.signature = none := by
  refine Export.classicalOutput?_eq_none fun r hr => ?_
  cases h with
  | split ht =>
    rw [signature_split] at hr
    rcases List.mem_pair.mp hr with rfl | rfl
    · exact ht
    · rfl
  | join ht =>
    rw [signature_join] at hr
    rcases List.mem_pair.mp hr with rfl | rfl
    · rfl
    · exact ht
  | raised h _ _ =>
    rw [h.signature_eq] at hr
    rw [List.mem_singleton.mp hr]
    rfl

theorem of_emits (h : b.Quiet d) {g : Gate ℝ ℂ} (he : b.emits = some g) :
    b.Raised ∧ g.bloq = b ∧ g.height < d := by
  cases h with
  | split _ => cases he
  | join _ => cases he
  | raised h he' hd =>
    cases he.symm.trans he'
    exact ⟨h, h.bloq_of_emits he, hd⟩

theorem mirrors (h : b.Quiet d) : b.Mirrors b.adjointOf Operation.mirrored := by
  cases h with
  | split _ =>
    rw [adjointOf, ownAdjoint?]
    exact mirrors_split _ _
  | join _ =>
    rw [adjointOf, ownAdjoint?]
    exact mirrors_join _ _
  | raised h _ _ => exact h.mirrors

theorem adjointOf (h : b.Quiet d) : b.adjointOf.Quiet d := by
  cases h with
  | split ht =>
    rw [Bloq.adjointOf, ownAdjoint?]
    exact .join ht
  | join ht =>
    rw [Bloq.adjointOf, ownAdjoint?]
    exact .split ht
  | raised h he hd =>
    obtain ⟨g', he', -⟩ := h.turned.raised.exists_gate
    exact .raised h.turned.raised he' (Nat.lt_of_le_of_lt (h.turned.height _ _ he he') hd)

end Quiet
end Bloq

/-! ## Operations with raised bloqs -/

/-- An operation of a gate with a raised bloq, on as many qubits as the gate takes, no two the same. -/
structure Operation.Raised (op : Operation (Gate ℝ ℂ)) : Prop where
  bloq : op.gate.bloq.Raised
  nodup : op.qubits.Nodup
  length : op.qubits.length = op.gate.bloq.signature.totalBits

theorem Operation.Raised.fits {op : Operation (Gate ℝ ℂ)} (h : op.Raised) :
    (Dense.leafBy Gate.bloqMatrix op).Fits := by
  have hsized := h.bloq.sized
  rw [← h.length] at hsized
  exact ⟨hsized.rows, hsized.cols, h.nodup⟩

theorem Operation.Raised.leafBy_mirrored {op : Operation (Gate ℝ ℂ)} (h : op.Raised) :
    Dense.leafBy Gate.bloqMatrix op.mirrored = (Dense.leafBy Gate.bloqMatrix op).adjoint :=
  congrArg (fun m => (⟨m, op.qubits⟩ : Dense.Leaf ℂ)) (Gate.bloqMatrix_mirrored h.bloq)

namespace Composite
variable {c : Composite (Bloq ℝ ℂ)} {L : Labels} {d n : Nat} {m : DenseMatrix ℂ} {qubits : List Qubit}

/-- Nothing appears on quiet bloqs. -/
theorem born_of_quiet (h : ∀ x ∈ c.instances, x.bloq.Quiet d) (order : List Nat) :
    order.flatMap (c.bornAt L) = [] := by
  refine List.flatMap_eq_nil_iff.mpr fun v _ => ?_
  cases hb : c.bloqAt v with
  | none => exact bornAt_of_none hb
  | some b =>
    obtain ⟨x, hx, rfl⟩ := exists_instance hb
    rw [bornAt_of_some hb, (h x hx).still.1, Labels.on_nil]

theorem distinct_of_quiet (h : ∀ x ∈ c.instances, x.bloq.Quiet d)
    (hn : (L.on 0 c.signature.lefts).Nodup) (order : List Nat) : c.Distinct L order := by
  rwa [Distinct, born_of_quiet h, List.append_nil]

/-- The operations of quiet bloqs are on qubits that came in. -/
theorem Flow.raised_operation (hf : c.Flow L) (hc : c.Threaded)
    (h : ∀ x ∈ c.instances, x.bloq.Quiet d) (hn : (L.on 0 c.signature.lefts).Nodup)
    {order : List Nat} (hs : c.graph.Sorts order) {op : Operation (Gate ℝ ℂ)}
    (hop : op ∈ order.filterMap (c.operationAt? L)) : op.Raised ∧ op.gate.height < d := by
  obtain ⟨v, hv, hop⟩ := List.mem_filterMap.mp hop
  obtain ⟨b, hb, hop⟩ := Option.bind_eq_some_iff.mp hop
  obtain ⟨g, he, rfl⟩ := Option.map_eq_some_iff.mp hop
  obtain ⟨x, hx, rfl⟩ := exists_instance hb
  obtain ⟨hraised, hbloq, hd⟩ := (h x hx).of_emits he
  have hmoves := ((h x hx).plain.of_emits he).1
  obtain ⟨front, rest, rfl⟩ := List.append_of_mem hv
  have hfront : c.Front (front ++ v :: rest) := hs.next
  rw [← List.singleton_append, ← List.append_assoc] at hfront
  refine ⟨⟨hbloq.symm ▸ hraised, ?_, ?_⟩, hd⟩
  · exact hf.nodup_registers hc hfront.of_append (distinct_of_quiet h hn (front ++ v :: rest)) hb hmoves
  · show (L.on v x.bloq.signature.registers).length = g.bloq.signature.totalBits
    rw [Labels.length_on (hf.node v _ hb).fits, hbloq, Signature.totalBits_eq]

/-! ## Composites that do what a matrix does -/

/-- Some qubits flow through a composite and come out where they came in, and the matrices of the
operations together do to them what one matrix does. -/
structure Runs (c : Composite (Bloq ℝ ℂ)) (L : Labels) (qubits : List Qubit) (m : DenseMatrix ℂ) :
    Prop where
  flow : c.Flow L
  inputs : L.on 0 c.signature.lefts = qubits
  outputs : L.on (c.instances.length + 1) c.signature.rights = qubits
  act : ∀ ψ, Dense.actAll (((List.range c.size).filterMap (c.operationAt? L)).map
    (Dense.leafBy Gate.bloqMatrix)) ψ = (⟨m, qubits⟩ : Dense.Leaf ℂ).act ψ

/-- A composite of quiet bloqs on the register of a gate that does to any qubits what one matrix does. -/
structure Computes (c : Composite (Bloq ℝ ℂ)) (n d : Nat) (m : DenseMatrix ℂ) : Prop where
  threaded : c.Threaded
  numbered : c.Numbered
  signature : c.signature = ⟨[gateRegister n]⟩
  quiet : ∀ x ∈ c.instances, x.bloq.Quiet d
  sized : m.Sized (basisSize n)
  runs : ∀ qubits : List Qubit, qubits.Nodup → qubits.length = n → ∃ L, c.Runs L qubits m

/-- Read backwards, a composite does what the conjugate transpose does. -/
theorem Runs.backwards (h : c.Runs L qubits m) (hc : c.Computes n d m) (hn : qubits.Nodup)
    (hlen : qubits.length = n) :
    (c.backwards Bloq.adjointOf).Runs (L.turned (c.instances.length + 1)) qubits m.adjoint := by
  have hm : ∀ x ∈ c.instances, x.bloq.Mirrors x.bloq.adjointOf Operation.mirrored :=
    fun x hx => (hc.quiet x hx).mirrors
  have hinputs := Labels.on_turned (Nat.le_refl (c.instances.length + 1)) L c.signature.rights
  have houtputs := Labels.on_turned (Nat.zero_le (c.instances.length + 1)) L c.signature.lefts
  rw [Nat.sub_self, ← Signature.lefts_adjoint] at hinputs
  rw [Nat.sub_zero, ← Signature.rights_adjoint] at houtputs
  have hoperations : ∀ op ∈ (List.range c.size).filterMap (c.operationAt? L), op.Raised :=
    fun op hop => (h.flow.raised_operation hc.threaded hc.quiet (h.inputs.symm ▸ hn)
      hc.threaded.sorts_range hop).1
  refine ⟨h.flow.backwards hm hc.threaded, hinputs.trans h.outputs, ?_, fun ψ => ?_⟩
  · rw [length_backwards]
    exact houtputs.trans h.inputs
  · have hfits : (⟨m, qubits⟩ : Dense.Leaf ℂ).Fits :=
      ⟨by rw [hlen, hc.sized.rows], by rw [hlen, hc.sized.cols], hn⟩
    have hleaves : ∀ l ∈ ((List.range c.size).filterMap (c.operationAt? L)).map
        (Dense.leafBy Gate.bloqMatrix), l.Fits := by
      intro l hl
      obtain ⟨op, hop, rfl⟩ := List.mem_map.mp hl
      exact (hoperations op hop).fits
    have hback := Dense.actAll_adjoint hleaves hfits h.act ψ
    rw [operations_backwards hm L, List.map_reverse, List.map_map]
    rw [← List.map_reverse, List.map_map] at hback
    refine Eq.trans (congrArg (Dense.actAll · ψ) ?_) hback
    rw [← List.map_reverse]
    exact List.map_congr_left fun op hop => (hoperations op (List.mem_reverse.mp hop)).leafBy_mirrored

/-- The adjoint of a composite that does what a matrix does is the graph read backwards, and does what
the conjugate transpose does. -/
theorem Computes.adjoint (h : c.Computes n d m) : c.adjoint = .ok (c.backwards Bloq.adjointOf) ∧
    (c.backwards Bloq.adjointOf).Computes n d m.adjoint := by
  have hexchange : ∀ x ∈ c.instances, Exchanges x.bloq x.bloq.adjointOf :=
    fun x hx => (h.quiet x hx).mirrors.toExchanges
  refine ⟨h.numbered.adjoint_eq h.threaded hexchange, h.threaded.backwards hexchange,
    h.numbered.backwards, ?_, fun x hx => ?_, h.sized.adjoint, fun qubits hn hlen => ?_⟩
  · rw [Composite.backwards, h.signature]
    rfl
  · obtain ⟨y, hy, rfl⟩ := List.mem_map.mp hx
    exact (h.quiet y (List.mem_reverse.mp hy)).adjointOf
  · obtain ⟨L, hL⟩ := h.runs qubits hn hlen
    exact ⟨_, hL.backwards h hn hlen⟩

/-- A bloq with a composite that does what the bloq's tensor does unfolds, as a gate, to the operations
of the composite. -/
theorem Computes.unfolds {b : Bloq ℝ ℂ} (h : c.Computes b.signature.totalBits d b.matrix)
    (hb : b.Raised) (hc : b.decomposition = .ok c) (hr : (Operation.mk (Gate.ofBloq b) qubits).Raised) :
    Dense.Unfolds Gate.meaning Gate.bloqMatrix (fun op => op.Raised ∧ op.gate.height < d)
      ⟨.ofBloq b, qubits⟩ := by
  have hn := hr.nodup
  obtain ⟨L, hL⟩ := h.runs qubits hn hr.length
  have hnodup : (L.on 0 c.signature.lefts).Nodup := hL.inputs.symm ▸ hn
  have hplain : ∀ x ∈ c.instances, x.bloq.Plain := fun x hx => (h.quiet x hx).plain
  obtain ⟨order, ho, hs⟩ := h.threaded.exists_order .greedy
  refine ⟨hr.fits, ?_, fun p => ?_⟩
  · show Gate.unitaryWith _ _ = _
    rw [Gate.unitaryWith, hb.allThru, hc]
    rfl
  · have hthru : ∀ r ∈ c.signature.registers, r.side = .thru := by
      rw [h.signature]
      intro r hr
      rw [List.mem_singleton.mp hr]
      rfl
    have hserved := served_of_still (L := L) (fun x hx => (h.quiet x hx).still) order
      (Scope.declare (L.on 0 c.signature.lefts) { base := p })
    have hgives := hL.flow.decompose_thru h.threaded hplain
      (fun x hx => (h.quiet x hx).classicalOutput?) hthru (hb.signature_eq.trans h.signature.symm) hc ho
      hs (distinct_of_quiet h.quiet hnodup order) hserved
    rw [hL.inputs] at hgives
    refine ⟨_, _, hgives, fun op hop => hL.flow.raised_operation h.threaded h.quiet hnodup hs hop,
      fun q hq => ?_, fun ψ => ?_⟩
    · have hmem := hL.flow.mem_of_operation h.threaded hplain hs hq
      rwa [born_of_quiet h.quiet, List.append_nil, hL.inputs] at hmem
    · -- the walk may change places of operations that have no qubit in common
      have hcommuted := hL.flow.commuted h.threaded hplain hs h.threaded.sorts_range
        (distinct_of_quiet h.quiet hnodup order)
      rw [hcommuted.actAll (fun op hop => (hL.flow.raised_operation h.threaded h.quiet hnodup hs
        hop).1.nodup), hL.act]
      rfl

/-! ## Composites on which operations run -/

/-- A composite on which operations with raised bloqs run, one after another, on the qubits of its one
register. -/
structure Plays (c : Composite (Bloq ℝ ℂ)) (L : Labels) (n d : Nat) (qubits : List Qubit)
    (ops : List (Operation (Gate ℝ ℂ))) : Prop where
  realizes : c.Realizes ⟨[gateRegister n]⟩ L ops
  inputs : L.on 0 [gateRegister n] = qubits
  outputs : L.on (c.instances.length + 1) [gateRegister n] = qubits
  born : (List.range c.size).flatMap (c.bornAt L) = []
  raised : ∀ op ∈ ops, op.gate.bloq.Raised ∧ op.gate.bloq.emits = some op.gate ∧ op.gate.height < d

/-- Nothing but what is quiet is in it. -/
theorem Plays.quiet {ops : List (Operation (Gate ℝ ℂ))} (h : c.Plays L n d qubits ops) :
    ∀ x ∈ c.instances, x.bloq.Quiet d := by
  intro x hx
  have hstill := h.realizes.still (fun op hop => (h.raised op hop).1.passing (h.raised op hop).2.1)
    h.born (congrArg List.length (h.outputs.trans h.inputs.symm)) x hx
  have hregular := h.realizes.regular x hx
  have hemits : ∀ g, x.bloq.emits = some g → x.bloq.Quiet d := by
    intro g he
    obtain ⟨hraised, -, hd⟩ := h.raised _ (h.realizes.mem_operations hx he)
    have hbloq : g.bloq = x.bloq := hregular.of_emits he
    exact .raised (hbloq ▸ hraised) he hd
  obtain ⟨k, b⟩ := x
  cases hregular.plain with
  | split t => exact .split (hregular.quantum _ List.mem_cons_self).1
  | join t =>
    have hmem : bundleOn .right t ∈ (Bloq.join t : Bloq ℝ ℂ).signature.registers := by
      rw [Bloq.signature_join]
      exact List.mem_cons_of_mem _ List.mem_cons_self
    exact .join (hregular.quantum _ hmem).1
  | allocate t => exact absurd ((Bloq.born_allocate t).symm.trans hstill.1) (List.cons_ne_nil _ _)
  | free t => exact absurd ((Bloq.dead_free t).symm.trans hstill.2.1) (List.cons_ne_nil _ _)
  | gate g => exact hemits g rfl
  | wrapped _ hnative _ => exact hemits _ (Bloq.emits_of_native? hnative).1

/-- A composite computes a matrix if, whatever the qubits, operations run on it that together do what
the matrix does. -/
theorem exists_computes {made : Except Error (Composite (Bloq ℝ ℂ))} (hm : m.Sized (basisSize n))
    (h : ∀ qubits : List Qubit, qubits.Nodup → qubits.length = n →
      ∃ c L ops, made = .ok c ∧ Plays c L n d qubits ops ∧
        ∀ ψ, Dense.actAll (ops.map (Dense.leafBy Gate.bloqMatrix)) ψ =
          (⟨m, qubits⟩ : Dense.Leaf ℂ).act ψ) :
    ∃ c, made = .ok c ∧ c.Computes n d m := by
  obtain ⟨names, -, hnames, hlen, -⟩ := Quregs.exists_names n
  obtain ⟨c, L, ops, rfl, hplays, -⟩ := h names hnames hlen
  refine ⟨c, rfl, hplays.realizes.linear.threaded, hplays.realizes.linear.numbered,
    hplays.realizes.signature, hplays.quiet, hm, fun qubits hn hlen => ?_⟩
  obtain ⟨_, L, ops, hc, hplays, hact⟩ := h qubits hn hlen
  obtain rfl := Except.ok.inj hc
  refine ⟨L, hplays.realizes.flow, ?_, ?_, ?_⟩
  · rw [hplays.realizes.signature]
    exact hplays.inputs
  · rw [hplays.realizes.signature]
    exact hplays.outputs
  · rw [hplays.realizes.operations]
    exact hact

end Composite
end BloqCircuit
