import BloqCircuit.Proofs.Raised
/-! Bloqs that come back when the adjoint is taken twice, and composites of them: the graph is read
backwards twice, and every bloq returns to its place. -/
namespace BloqCircuit

/-! ## Standard gates -/

namespace StandardGate
variable {α : Type}

/-- An inverse has an inverse on as many qubits, which is the gate again if turning the angle round
twice leaves it the same. -/
theorem inverse?_inverse? [Neg α] {g k : StandardGate α} (h : g.inverse? = some k) :
    k.arity = g.arity ∧ ∃ g' : StandardGate α, k.inverse? = some g' ∧ g'.arity = g.arity ∧
      ∀ [BEq α], (∀ a, g.angle? = some a → (- -a == a) = true) → (g' == g) = true := by
  cases g with
  | reset => cases h
  | rx a | ry a | rz a | globalPhase a =>
    cases h
    exact ⟨rfl, _, rfl, rfl, fun ha => ha a rfl⟩
  | _ =>
    cases h
    exact ⟨rfl, _, rfl, rfl, fun _ => rfl⟩

end StandardGate

/-! ## Bloqs that return -/

namespace Composite
variable {β : Type} [BloqKind β]

theorem Exchanges.symm {a b : β} (h : Exchanges a b) (hv : (BloqKind.signature a).Valid) :
    Exchanges b a := by
  have hturned : ∀ rs : List Register, (rs.map Register.adjoint).map Register.adjoint = rs := fun rs =>
    by rw [List.map_map, Function.LeftInverse.id Register.adjoint_adjoint, List.map_id]
  exact ⟨hv, by rw [h.rights, hturned], by rw [h.lefts, hturned]⟩

theorem Exchanges.of_adjoint {a b : β} (hv : (BloqKind.signature a).Valid)
    (h : BloqKind.signature b = (BloqKind.signature a).adjoint) : Exchanges a b where
  valid := h ▸ hv.adjoint
  lefts := by rw [h, Signature.lefts_adjoint]
  rights := by rw [h, Signature.rights_adjoint]

/-- Only the registers matter. -/
theorem Exchanges.congr {a a' b b' : β} (h : Exchanges a b)
    (ha : BloqKind.signature a' = BloqKind.signature a)
    (hb : BloqKind.signature b' = BloqKind.signature b) : Exchanges a' b' where
  valid := hb ▸ h.valid
  lefts := by rw [ha, hb, h.lefts]
  rights := by rw [ha, hb, h.rights]

end Composite

section
variable {α κ : Type} [Angle α]

namespace Bloq

/-- The adjoint of a bloq takes its place in a graph read backwards, the adjoint of that takes the
place of the adjoint, and is the bloq again. -/
structure Returns (b : Bloq α κ) : Prop where
  there : Composite.Exchanges b b.adjointOf
  back : Composite.Exchanges b.adjointOf b.adjointOf.adjointOf
  same : b.adjointOf.adjointOf.same b = true

end Bloq

namespace Composite

/-- Every element of every register, on the boundaries and on the instances by the signatures of
their bloqs, is one end of exactly one wire. Wires join elements of one width and one kind, are
between instances of the composite, and lead forward. -/
structure Wired (c : Composite (Bloq α κ)) : Prop extends c.Threaded, c.Numbered where
  kinds : ∀ e ∈ c.edges, e.wire.left.reg.dtype.isQuantum = e.wire.right.reg.dtype.isQuantum

variable {c : Composite (Bloq α κ)}

theorem Linear.wired (h : c.Linear) : c.Wired :=
  ⟨h.threaded, h.numbered, fun e he => (h.agree e he).2⟩

theorem Wired.backwards {turn : Bloq α κ → Bloq α κ} (hc : c.Wired)
    (h : ∀ x ∈ c.instances, Exchanges x.bloq (turn x.bloq)) : (c.backwards turn).Wired := by
  refine ⟨hc.toThreaded.backwards h, hc.toNumbered.backwards, fun e he => ?_⟩
  obtain ⟨f, hf, rfl⟩ := List.mem_map.mp he
  exact (hc.kinds f (List.mem_reverse.mp hf)).symm

/-! ## The graph read backwards twice -/

section
variable {turn turn' : Bloq α κ → Bloq α κ}

omit [Angle α] in
/-- The instances are in their order again, and each has been turned twice. -/
theorem instances_backwards_backwards : ((c.backwards turn).backwards turn').instances =
    c.instances.map fun x => ⟨x.number, turn' (turn x.bloq)⟩ := by
  rw [backwards, backwards, ← List.map_reverse, List.reverse_reverse, List.map_map]
  rfl

omit [Angle α] in
theorem signature_backwards_backwards :
    ((c.backwards turn).backwards turn').signature = c.signature :=
  c.signature.adjoint_adjoint

/-- Ports turned twice, with the list of them reversed twice, are where they were. -/
private theorem turned_reverse_turned {last : Nat} {ports : List Port}
    (h : ∀ p ∈ ports, p.node ≤ last) :
    (ports.reverse.map (Port.turned last)).reverse.map (Port.turned last) = ports := by
  rw [← List.map_reverse, List.reverse_reverse, List.map_map]
  exact (List.map_congr_left fun p hp => Port.turned_turned (h p hp)).trans (List.map_id _)

theorem Threaded.starts_backwards_backwards (hc : c.Threaded) :
    ((c.backwards turn).backwards turn').edges.map Edge.start = c.edges.map Edge.start := by
  rw [starts_backwards, stops_backwards, length_backwards]
  refine turned_reverse_turned fun p hp => ?_
  obtain ⟨e, he, rfl⟩ := List.mem_map.mp hp
  exact Nat.le_of_lt (Nat.lt_of_lt_of_le (hc.forward e he) (hc.target_le he))

theorem Threaded.stops_backwards_backwards (hc : c.Threaded) :
    ((c.backwards turn).backwards turn').edges.map Edge.stop = c.edges.map Edge.stop := by
  rw [stops_backwards, starts_backwards, length_backwards]
  refine turned_reverse_turned fun p hp => ?_
  obtain ⟨e, he, rfl⟩ := List.mem_map.mp hp
  exact hc.target_le he

end

/-! ## The adjoint taken twice -/

theorem sameEnds_of_eq {β : Type} {es fs : List (Edge β)}
    (hstarts : es.map Edge.start = fs.map Edge.start) (hstops : es.map Edge.stop = fs.map Edge.stop) :
    sameEnds es fs = true := by
  induction es generalizing fs with
  | nil =>
    cases fs with
    | nil => rfl
    | cons f fs => cases hstarts
  | cons e es ih =>
    cases fs with
    | nil => cases hstarts
    | cons f fs =>
      obtain ⟨hstart, hstarts⟩ := List.cons.inj hstarts
      obtain ⟨hstop, hstops⟩ := List.cons.inj hstops
      rw [sameEnds, Edge.sameEnds, hstart, hstop, BEq.rfl, BEq.rfl, ih hstarts hstops]
      rfl

private theorem sameInstances_map {f : Bloq α κ → Bloq α κ} {xs : List (Instance (Bloq α κ))}
    (h : ∀ x ∈ xs, (f x.bloq).same x.bloq = true) :
    sameInstances (xs.map fun x => ⟨x.number, f x.bloq⟩) xs = true := by
  induction xs with
  | nil => rfl
  | cons x rest ih =>
    have hx := h x List.mem_cons_self
    have hrest := ih fun y hy => h y (List.mem_cons_of_mem _ hy)
    rw [List.map_cons, sameInstances, BEq.rfl, hx, hrest]
    rfl

theorem beq_instances {xs ys : List (Instance (Bloq α κ))}
    (h : sameInstances xs ys = true) : (xs == ys) = true := by
  induction xs generalizing ys with
  | nil =>
    cases ys with
    | nil => rfl
    | cons y ys => cases h
  | cons x xs ih =>
    cases ys with
    | nil => cases h
    | cons y ys =>
      rw [sameInstances, Bool.and_eq_true] at h
      exact (Bool.and_eq_true _ _).mpr ⟨h.1, ih h.2⟩

/-- Composites of bloqs that return have adjoints, and the adjoints of these are the composites. -/
theorem Wired.adjoint_twice (hc : c.Wired) (h : ∀ x ∈ c.instances, x.bloq.Returns) :
    ∃ d e, c.adjoint = .ok d ∧ d.signature = c.signature.adjoint ∧ d.Wired ∧
      d.adjoint = .ok e ∧ e.signature = c.signature ∧
      e.instances.map (·.number) = c.instances.map (·.number) ∧
      e.edges.map Edge.start = c.edges.map Edge.start ∧
      e.edges.map Edge.stop = c.edges.map Edge.stop ∧ sameInstances e.instances c.instances = true := by
  have hthere : ∀ x ∈ c.instances, Exchanges x.bloq x.bloq.adjointOf := fun x hx => (h x hx).there
  have hwired := hc.backwards hthere
  have hback : ∀ x ∈ (c.backwards Bloq.adjointOf).instances, Exchanges x.bloq x.bloq.adjointOf := by
    intro x hx
    obtain ⟨y, hy, rfl⟩ := List.mem_map.mp hx
    exact (h y (List.mem_reverse.mp hy)).back
  refine ⟨_, _, hc.toNumbered.adjoint_eq hc.toThreaded hthere, rfl, hwired,
    hwired.toNumbered.adjoint_eq hwired.toThreaded hback, signature_backwards_backwards, ?_,
    hc.starts_backwards_backwards, hc.stops_backwards_backwards, ?_⟩
  · rw [instances_backwards_backwards, List.map_map]
    rfl
  · rw [instances_backwards_backwards]
    exact sameInstances_map (f := fun b => b.adjointOf.adjointOf) fun x hx => (h x hx).same

end Composite

/-! ## Which bloqs return -/

namespace Bloq
variable {b : Bloq α κ}

/-- Bloqs whose adjoints can be taken twice: those that only reshape, create or end bundles, standard
gates with angles that survive being turned round twice, bloqs without adjoints of their own, bare or
under the general adjoint, powers, and the composites of builders. -/
inductive Turnable : Bloq α κ → Prop
  | split (t : DataType) : Turnable (.split t)
  | join (t : DataType) : Turnable (.join t)
  | allocate (t : DataType) : Turnable (.allocate t)
  | free (t : DataType) : Turnable (.free t)
  | gate {g : StandardGate α} (h : ∀ a, g.angle? = some a → (- -a == a) = true) :
      Turnable (.ofGate (.standard g))
  | bare {b : Bloq α κ} (h : b.ownAdjoint? = none) : Turnable b
  | wrapped {b : Bloq α κ} (h : b.ownAdjoint? = none) : Turnable (.adjoint b)
  | power {b : Bloq α κ} (h : Turnable b) (n : Nat) : Turnable (.power b n)
  | composite {b b' : Builder (Bloq α κ)} {final : Soquets (Bloq α κ)} {c : Composite (Bloq α κ)}
      (hb : b.Reached) (hc : Gives (Builder.finalize final) b c b')
      (h : ∀ x ∈ c.instances, Turnable x.bloq) : Turnable (.composite c)

theorem adjointOf_of_none (h : b.ownAdjoint? = none) : b.adjointOf = .adjoint b := by
  rw [adjointOf, h]
  rfl

theorem adjointOf_composite {c d : Composite (Bloq α κ)} (h : c.adjoint = .ok d) :
    (composite c).adjointOf = composite d := by
  have h : Composite.adjointFrom (turnInstances c.instances) c = .ok d := h
  rw [adjointOf, ownAdjoint?, h]
  rfl

theorem adjointOf_split (t : DataType) : (split t : Bloq α κ).adjointOf = join t := by
  rw [adjointOf, ownAdjoint?]
  rfl

theorem adjointOf_join (t : DataType) : (join t : Bloq α κ).adjointOf = split t := by
  rw [adjointOf, ownAdjoint?]
  rfl

theorem adjointOf_allocate (t : DataType) : (allocate t : Bloq α κ).adjointOf = free t := by
  rw [adjointOf, ownAdjoint?]
  rfl

theorem adjointOf_free (t : DataType) : (free t : Bloq α κ).adjointOf = allocate t := by
  rw [adjointOf, ownAdjoint?]
  rfl

/-- Two bloqs that are each other's adjoints. -/
theorem Returns.of_pair {b' : Bloq α κ} (hv : b.signature.Valid) (there : b.adjointOf = b')
    (back : b'.adjointOf = b) (h : Composite.Exchanges b b') : b.Returns := by
  subst there
  rw [← back] at hv
  exact ⟨h, back.symm ▸ h.symm (back ▸ hv), back.symm ▸ b.same_self⟩

theorem Returns.of_none (hv : b.signature.Valid) (h : b.ownAdjoint? = none) : b.Returns := by
  refine .of_pair hv (adjointOf_of_none h) (adjointOf_adjoint b) (.of_adjoint hv ?_)
  show (adjoint b).signature = _
  rw [signature]
  rfl

theorem Returns.adjoint (hv : (adjoint b).signature.Valid) (h : b.ownAdjoint? = none) :
    (adjoint b).Returns := by
  have hsignature : (Bloq.adjoint b).signature = b.signature.adjoint := by rw [signature]
  refine .of_pair hv (adjointOf_adjoint b) (adjointOf_of_none h) (.of_adjoint hv ?_)
  show b.signature = (Bloq.adjoint b).signature.adjoint
  rw [hsignature, Signature.adjoint_adjoint]

theorem Returns.power (h : b.Returns) (n : Nat) : (power b n).Returns := by
  have hsignature : ∀ a : Bloq α κ, (Bloq.power a n).signature = a.signature := fun a => by
    rw [signature]
  refine ⟨?_, ?_, ?_⟩
  · rw [adjointOf_power]
    exact h.there.congr (hsignature _) (hsignature _)
  · rw [adjointOf_power, adjointOf_power]
    exact h.back.congr (hsignature _) (hsignature _)
  · rw [adjointOf_power, adjointOf_power, Bloq.same, BEq.rfl, h.same]
    rfl

/-- Gates on as many qubits take each other's places. -/
private theorem exchanges_ofGate {f g : Gate α κ} (h : g.arity = f.arity) :
    Composite.Exchanges (ofGate f) (ofGate g) := by
  refine .of_adjoint (valid_ofGate f) ?_
  show (ofGate g).signature = (ofGate f).signature.adjoint
  rw [signature_ofGate, signature_ofGate, h]
  rfl

theorem Returns.standard {g : StandardGate α} (h : ∀ a, g.angle? = some a → (- -a == a) = true) :
    (ofGate (.standard g) : Bloq α κ).Returns := by
  cases hk : g.inverse? with
  | none =>
    refine .of_none (valid_ofGate _) ?_
    rw [ownAdjoint?, Gate.inverse, hk]
    rfl
  | some k =>
    obtain ⟨harity, g', hg', harity', hsame⟩ := StandardGate.inverse?_inverse? hk
    refine ⟨?_, ?_, ?_⟩
    · rw [adjointOf_standard hk]
      exact exchanges_ofGate (by rw [Gate.arity, Gate.arity, harity])
    · rw [adjointOf_standard hk, adjointOf_standard hg']
      exact exchanges_ofGate (by rw [Gate.arity, Gate.arity, harity, harity'])
    · rw [adjointOf_standard hk, adjointOf_standard hg', Bloq.same, Gate.same]
      exact hsame h

theorem Returns.composite {c : Composite (Bloq α κ)} (hc : c.Wired)
    (h : ∀ x ∈ c.instances, x.bloq.Returns) : (composite c).Returns := by
  obtain ⟨d, e, hd, hdsig, hdwired, he, hesig, -, hstarts, hstops, hinstances⟩ :=
    hc.adjoint_twice h
  have hsignature : ∀ a : Composite (Bloq α κ), (Bloq.composite a).signature = a.signature := fun a => by
    rw [signature]
  refine ⟨?_, ?_, ?_⟩
  · rw [adjointOf_composite hd]
    refine .of_adjoint (show (Bloq.composite c).signature.Valid from hsignature c ▸ hc.valid) ?_
    exact (hsignature d).trans (hdsig.trans (congrArg _ (hsignature c).symm))
  · rw [adjointOf_composite hd, adjointOf_composite he]
    refine .of_adjoint (show (Bloq.composite d).signature.Valid from hsignature d ▸ hdwired.valid) ?_
    show (Bloq.composite e).signature = (Bloq.composite d).signature.adjoint
    rw [hsignature, hsignature, hesig, hdsig, Signature.adjoint_adjoint]
  · rw [adjointOf_composite hd, adjointOf_composite he, Bloq.same, hesig, BEq.rfl,
      Composite.sameEnds_of_eq hstarts hstops, hinstances]
    rfl

/-- One case for each way in which a bloq is turnable; the composites by induction on the nesting. -/
theorem Turnable.returns (h : b.Turnable) (hv : b.signature.Valid) : b.Returns := by
  induction h with
  | split t => exact .of_pair hv (adjointOf_split t) (adjointOf_join t) (mirrors_split t id).toExchanges
  | join t => exact .of_pair hv (adjointOf_join t) (adjointOf_split t) (mirrors_join t id).toExchanges
  | allocate t =>
    refine .of_pair hv (adjointOf_allocate t) (adjointOf_free t) (.of_adjoint hv ?_)
    show (Bloq.free t).signature = (Bloq.allocate t).signature.adjoint
    rw [signature_free, signature_allocate]
    rfl
  | free t =>
    refine .of_pair hv (adjointOf_free t) (adjointOf_allocate t) (.of_adjoint hv ?_)
    show (Bloq.allocate t).signature = (Bloq.free t).signature.adjoint
    rw [signature_free, signature_allocate]
    rfl
  | gate h => exact .standard h
  | bare h => exact .of_none hv h
  | wrapped h => exact .adjoint hv h
  | power _ n ih => exact (ih (by rwa [signature] at hv)).power n
  | composite hb hc _ ih =>
    have hlinear := hb.linear hc
    exact .composite hlinear.wired fun x hx => ih x hx (hlinear.validAt x hx)

end Bloq

/-! ## Composites of builders -/

/-- A composite that a builder closes over bloqs that return has an adjoint, whose wires use every
element of every register once, and the adjoint of the adjoint is the composite: its registers, its
instances in their order under their numbers, and its wires in their order. -/
theorem Builder.Reached.adjoint_involution {b b' : Builder (Bloq α κ)} {final : Soquets (Bloq α κ)}
    {c : Composite (Bloq α κ)} (hb : b.Reached) (hf : Gives (Builder.finalize final) b c b')
    (h : ∀ x ∈ c.instances, x.bloq.Turnable) :
    ∃ d e, c.adjoint = .ok d ∧ d.signature = c.signature.adjoint ∧ d.Wired ∧
      d.adjoint = .ok e ∧ (e == c) = true ∧ e.signature = c.signature ∧
      e.instances.map (·.number) = c.instances.map (·.number) ∧
      e.edges.map Edge.start = c.edges.map Edge.start ∧
      e.edges.map Edge.stop = c.edges.map Edge.stop := by
  have hlinear := hb.linear hf
  obtain ⟨d, e, hd, hdsig, hdwired, he, hesig, hnumbers, hstarts, hstops, hinstances⟩ :=
    hlinear.wired.adjoint_twice fun x hx => (h x hx).returns (hlinear.validAt x hx)
  refine ⟨d, e, hd, hdsig, hdwired, he, ?_, hesig, hnumbers, hstarts, hstops⟩
  show (e.signature == c.signature && sameEnds e.edges c.edges && e.instances == c.instances) = true
  rw [hesig, BEq.rfl, Composite.sameEnds_of_eq hstarts hstops, Composite.beq_instances hinstances]
  rfl

end

/-- Allocations, ends, and gates without angles, under any powers. -/
private def angleless {α κ : Type} : Bloq α κ → Bool
  | .allocate _ | .free _ => true
  | .ofGate (.standard g) => g.angle?.isNone
  | .power b _ => angleless b
  | _ => false

private theorem turnable_of_angleless {α κ : Type} [Angle α] {b : Bloq α κ}
    (h : angleless b = true) : b.Turnable := by
  induction b using angleless.induct with
  | case1 t => exact .allocate t
  | case2 t => exact .free t
  | case3 g =>
    refine .gate fun a ha => ?_
    rw [angleless, ha] at h
    cases h
  | case4 b n ih =>
    rw [angleless] at h
    exact .power (ih h) n
  | case5 b hallocate hfree hgate hpower =>
    rw [angleless.eq_5 b hallocate hfree hgate hpower] at h
    cases h

/-- A turn and its square on a qubit, beside a qubit that is allocated and ended. -/
theorem Builder.Reached.adjoint_involution_turns :
    ∃ (b b' : Builder (Bloq Float Complex)) (final : Soquets (Bloq Float Complex))
      (c : Composite (Bloq Float Complex)),
      b.Reached ∧ Gives (Builder.finalize final) b c b' ∧ c.instances.length = 4 ∧
      (∀ x ∈ c.instances, x.bloq.Turnable) ∧
      ∃ d e, c.adjoint = .ok d ∧ d.signature = c.signature.adjoint ∧ d.Wired ∧
        d.adjoint = .ok e ∧ (e == c) = true ∧ e.signature = c.signature ∧
        e.instances.map (·.number) = c.instances.map (·.number) ∧
        e.edges.map Edge.start = c.edges.map Edge.start ∧
        e.edges.map Edge.stop = c.edges.map Edge.stop := by
  let q : Register := ⟨"q", .qbit, [], .thru⟩
  let turn : Bloq Float Complex := .ofGate (.standard .s)
  let m : BuildM (Bloq Float Complex) (Soquets (Bloq Float Complex)) := do
    let inputs ← Builder.start ⟨[q]⟩ true
    let turned ← Builder.add turn inputs
    let squared ← Builder.add (.power turn 2) turned
    let a ← Builder.allocate .qbit
    Builder.free a
    return squared
  -- all but the last call is run
  have hrun : Builder.closesWith m (fun b => decide (
      b.registers = [q] ∧ b.instances.toList.length = 4 ∧
      b.instances.toList.all (fun x => angleless x.bloq) = true)) = true := by decide +kernel
  obtain ⟨final, b, b', hm, hclose, hempty, hp⟩ := Builder.exists_of_closesWith hrun
  obtain ⟨hregisters, hlength, hbloqs⟩ := of_decide_eq_true hp
  obtain ⟨inputs, b₁, hstart, hm⟩ := gives_bind.mp hm
  obtain ⟨turned, b₂, hturn, hm⟩ := gives_bind.mp hm
  obtain ⟨squared, b₃, hsquare, hm⟩ := gives_bind.mp hm
  obtain ⟨a, b₄, ha, hm⟩ := gives_bind.mp hm
  obtain ⟨⟨⟩, b₅, hfree, hm⟩ := gives_bind.mp hm
  obtain ⟨rfl, rfl⟩ := gives_pure.mp hm
  have hvalid : (Bloq.power turn 2).signature.Valid := by
    rw [Bloq.signature]
    exact Bloq.valid_ofGate _
  have hreached : b₅.Reached :=
    .call (.call (.call (.call (.start hstart) (.add (Bloq.valid_ofGate _) hturn))
      (.add hvalid hsquare)) (.allocate ha)) (.free hfree)
  obtain ⟨c, hfinal, hsignature, hinstances⟩ := hreached.sound.finalize_gives_of_consume
    (by rw [hregisters]; rfl) hclose hempty
  rw [← hinstances] at hlength hbloqs
  have hturnable : ∀ x ∈ c.instances, x.bloq.Turnable := fun x hx =>
    turnable_of_angleless (List.all_eq_true.mp hbloqs x hx)
  exact ⟨b₅, b', _, c, hreached, hfinal, hlength, hturnable,
    hreached.adjoint_involution hfinal hturnable⟩

end BloqCircuit
