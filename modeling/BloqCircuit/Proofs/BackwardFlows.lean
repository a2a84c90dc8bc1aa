import BloqCircuit.Proofs.Reversal
import BloqCircuit.Proofs.Emission
/-! Qubits that flow through a composite flow back through the graph read backwards, and meet the same
operations from the last to the first. -/
namespace BloqCircuit

/-! ## Adjoints of bloqs -/

section
variable {α κ : Type} [Angle α]

/-- The gate in the place of a gate: its inverse, or the general adjoint of its bloq if it has
none. -/
def Gate.turned (g : Gate α κ) : Gate α κ := match g.inverse with
  | .ok (some h) => h
  | _ => .ofBloq (.adjoint (.ofGate g))

def Operation.turned (op : Operation (Gate α κ)) : Operation (Gate α κ) := ⟨op.gate.turned, op.qubits⟩

theorem gateRegister_adjoint (n : Nat) : (gateRegister n).adjoint = gateRegister n := rfl

namespace Bloq

/-- A bloq that takes the place of another when a graph is read backwards, and an operation that of its
operation. -/
structure Mirrors (b b' : Bloq α κ)
    (turned : Operation (Gate α κ) → Operation (Gate α κ) := Operation.turned) : Prop
    extends Composite.Exchanges b b' where
  moves : b'.moves = b.moves
  plain : b'.Plain
  operation : ∀ (L : Labels) {v last : Nat}, v ≤ last →
    b'.operation? (L.turned last) (last - v) = (b.operation? L v).map turned

/-- What ended on a bloq appears on the one in its place. -/
theorem Mirrors.born {b b' : Bloq α κ} {turned : Operation (Gate α κ) → Operation (Gate α κ)}
    (h : b.Mirrors b' turned) :
    b'.born = b.dead.map Register.adjoint := by
  have hrights : b'.signature.rights = b.signature.lefts.map Register.adjoint := h.rights
  rw [born_eq_filter, dead_eq_filter, h.moves, hrights, List.filter_map]
  split
  · rfl
  · refine congrArg _ (List.filter_congr fun r _ => ?_)
    rw [Function.comp_apply, Register.adjoint]
    cases r.side <;> rfl

private theorem mirrors_gate {g : Gate α κ} {b' : Bloq α κ}
    (hsignature : b'.signature = ⟨[gateRegister g.arity]⟩) (hmoves : b'.moves = false)
    (hplain : b'.Plain) (hemits : b'.emits = some g.turned) : (ofGate g).Mirrors b' where
  valid := by
    show b'.signature.Valid
    rw [hsignature]
    exact Signature.valid_of_nodup (List.nodup_singleton _)
  lefts := by
    show b'.signature.lefts = (Bloq.signature (ofGate g)).rights.map _
    rw [hsignature, signature_ofGate]
    rfl
  rights := by
    show b'.signature.rights = (Bloq.signature (ofGate g)).lefts.map _
    rw [hsignature, signature_ofGate]
    rfl
  moves := hmoves
  plain := hplain
  operation L v last hv := by
    have hon := Labels.on_turned hv L [gateRegister g.arity]
    rw [List.map_singleton, gateRegister_adjoint] at hon
    rw [operation?, operation?, hemits, hsignature, signature_ofGate, hon]
    rfl

private theorem mirrors_ofGate {g : Gate α κ} (harity : g.turned.arity = g.arity) :
    (ofGate g).Mirrors (ofGate g).adjointOf := by
  have hinverse : (∃ h, g.inverse = .ok (some h)) ∨ ∀ h, g.inverse ≠ .ok (some h) := by
    rw [← not_exists]
    exact Classical.em _
  rcases hinverse with ⟨h, hi⟩ | hi
  · have hadjoint : (ofGate g).adjointOf = ofGate h := by
      rw [adjointOf, ownAdjoint?, hi]
      rfl
    have hturned : g.turned = h := by rw [Gate.turned, hi]
    rw [hturned] at harity
    refine mirrors_gate ?_ ?_ ?_ ?_ <;> rw [hadjoint]
    · rw [signature_ofGate, harity]
    · rfl
    · exact .gate h
    · rw [hturned]
      rfl
  · have hadjoint : (ofGate g).adjointOf = .adjoint (.ofGate g) := by
      rw [adjointOf, ownAdjoint?]
      split
      · next h hh => exact absurd hh (hi h)
      · rfl
    have hturned : g.turned = .ofBloq (.adjoint (.ofGate g)) := by
      rw [Gate.turned]
      split
      · next h hh => exact absurd hh (hi h)
      · rfl
    have hsignature : (Bloq.adjoint (.ofGate g)).signature = ⟨[gateRegister g.arity]⟩ := by
      rw [signature, signature_ofGate]
      rfl
    refine mirrors_gate ?_ ?_ ?_ ?_ <;> rw [hadjoint]
    · exact hsignature
    · rfl
    · refine .wrapped _ rfl (Signature.repeatedName?_eq_none.mpr ?_)
      rw [hsignature]
      exact List.nodup_singleton _
    · rw [hturned]
      rfl

section
variable (t : DataType) (turned : Operation (Gate α κ) → Operation (Gate α κ))

/-- Splits and joins take each other's places. -/
theorem mirrors_split : (split t).Mirrors (join t) turned :=
  ⟨⟨valid_join t, by rw [lefts_join, rights_split]; rfl, by rw [rights_join, lefts_split]; rfl⟩,
    rfl, .join t, fun _ _ _ _ => rfl⟩

theorem mirrors_join : (join t).Mirrors (split t) turned :=
  ⟨⟨valid_split t, by rw [lefts_split, rights_join]; rfl, by rw [rights_split, lefts_join]; rfl⟩,
    rfl, .split t, fun _ _ _ _ => rfl⟩

end

/-- Allocations and ends take each other's places. -/
private theorem mirrors_supply (t : DataType) :
    (allocate t : Bloq α κ).Mirrors (free t) ∧ (free t : Bloq α κ).Mirrors (allocate t) :=
  ⟨⟨⟨valid_free t, by rw [lefts_free, rights_allocate]; rfl, by rw [rights_free, lefts_allocate]; rfl⟩,
      rfl, .free t, fun _ _ _ _ => rfl⟩,
    ⟨⟨valid_allocate t, by rw [lefts_allocate, rights_free]; rfl,
        by rw [rights_allocate, lefts_free]; rfl⟩,
      rfl, .allocate t, fun _ _ _ _ => rfl⟩⟩

/-- Bookkeeping bloqs, and the bloqs of gates with some property. -/
inductive Basic (P : Gate α κ → Prop) : Bloq α κ → Prop
  | split (t : DataType) : Basic P (.split t)
  | join (t : DataType) : Basic P (.join t)
  | allocate (t : DataType) : Basic P (.allocate t)
  | free (t : DataType) : Basic P (.free t)
  | gate {g : Gate α κ} (h : P g) : Basic P (.ofGate g)

omit [Angle α] in
theorem Basic.plain {P : Gate α κ → Prop} {b : Bloq α κ} (h : b.Basic P) : b.Plain := by
  cases h with
  | split t => exact .split t
  | join t => exact .join t
  | allocate t => exact .allocate t
  | free t => exact .free t
  | gate _ => exact .gate _

omit [Angle α] in
theorem Basic.mono {P Q : Gate α κ → Prop} {b : Bloq α κ} (h : b.Basic P) (hpq : ∀ g, P g → Q g) :
    b.Basic Q := by
  cases h with
  | split t => exact .split t
  | join t => exact .join t
  | allocate t => exact .allocate t
  | free t => exact .free t
  | gate h => exact .gate (hpq _ h)

omit [Angle α] in
theorem Basic.of_emits {P : Gate α κ → Prop} {b : Bloq α κ} {g : Gate α κ} (h : b.Basic P)
    (he : b.emits = some g) : b = .ofGate g ∧ P g := by
  cases h with
  | gate h =>
    cases he
    exact ⟨rfl, h⟩
  | _ => cases he

/-- The adjoints of basic bloqs take their places if the gates in the places of others are on as many
qubits. -/
theorem Basic.mirrors {P : Gate α κ → Prop} {b : Bloq α κ} (h : b.Basic P)
    (harity : ∀ g, P g → g.turned.arity = g.arity) : b.Mirrors b.adjointOf := by
  cases h with
  | split t =>
    rw [adjointOf, ownAdjoint?]
    exact mirrors_split t _
  | join t =>
    rw [adjointOf, ownAdjoint?]
    exact mirrors_join t _
  | allocate t =>
    rw [adjointOf, ownAdjoint?]
    exact (mirrors_supply t).1
  | free t =>
    rw [adjointOf, ownAdjoint?]
    exact (mirrors_supply t).2
  | gate h => exact mirrors_ofGate (harity _ h)

end Bloq

/-! ## Flows backwards -/

theorem Labels.Fits.turned {L : Labels} {v last : Nat} {registers : List Register}
    (h : L.Fits v registers) (hv : v ≤ last) :
    (L.turned last).Fits (last - v) (registers.map Register.adjoint) := by
  intro p hp
  have hle : p.node ≤ last := by
    rw [(mem_portsOn.mp hp).1]
    exact Nat.sub_le _ _
  rw [← Port.turned_turned hle] at hp
  exact h _ ((mem_portsOn_turned hv (Nat.sub_le _ _)).mp hp)

/-- The bloq in the place of another passes the qubits on the other way. -/
theorem Labels.Passes.turned {L : Labels} {v last : Nat} {b b' : Bloq α κ}
    {turned : Operation (Gate α κ) → Operation (Gate α κ)} (hp : L.Passes v b)
    (h : b.Mirrors b' turned) (hv : v ≤ last) : (L.turned last).Passes (last - v) b' := by
  have hlefts : b'.signature.lefts = b.signature.rights.map Register.adjoint := h.lefts
  have hrights : b'.signature.rights = b.signature.lefts.map Register.adjoint := h.rights
  constructor
  case fits =>
    refine .of_sides ?_ ?_
    · rw [hlefts]
      exact hp.fits.rights.turned hv
    · rw [hrights]
      exact hp.fits.lefts.turned hv
  case moved =>
    intro hm
    rw [hlefts, hrights, Labels.on_turned hv, Labels.on_turned hv]
    exact (hp.moved (h.moves ▸ hm)).symm

namespace Composite
variable {c : Composite (Bloq α κ)} {L : Labels} {turn : Bloq α κ → Bloq α κ}

omit [Angle α] in
/-- The nodes of the graph read backwards, by their numbers from the other end. -/
theorem range_backwards : List.range (c.backwards turn).size =
    (List.range c.size).reverse.map (c.instances.length + 1 - ·) := by
  rw [size, length_backwards, size]
  refine List.ext_getElem (by simp) fun k hk _ => ?_
  have hk : k < c.instances.length + 2 := by simpa using hk
  simp [List.getElem_reverse]
  omega

omit [Angle α] in
/-- A bloq of the graph read backwards is in the place of another. -/
theorem exists_bloqAt_of_backwards {v : Nat} {b' : Bloq α κ}
    (h : (c.backwards turn).bloqAt v = some b') :
    ∃ u b, v = c.instances.length + 1 - u ∧ u ≤ c.instances.length + 1 ∧ c.bloqAt u = some b ∧
      b' = turn b := by
  have hlt := (bloqAt_lt h).2
  rw [length_backwards] at hlt
  obtain ⟨u, hu, rfl⟩ : ∃ u, u ≤ c.instances.length + 1 ∧ v = c.instances.length + 1 - u :=
    ⟨c.instances.length + 1 - v, Nat.sub_le _ _, by omega⟩
  rw [bloqAt_backwards hu] at h
  obtain ⟨b, hb, rfl⟩ := Option.map_eq_some_iff.mp h
  exact ⟨u, b, rfl, hu, hb, rfl⟩

section
variable {turned : Operation (Gate α κ) → Operation (Gate α κ)}
  (h : ∀ x ∈ c.instances, x.bloq.Mirrors (turn x.bloq) turned)
include h

/-- Qubits that flow through a composite flow back through it. -/
theorem Flow.backwards (hl : c.Flow L) (hc : c.Threaded) :
    (c.backwards turn).Flow (L.turned (c.instances.length + 1)) := by
  refine ⟨fun e he => ?_, ?_, fun v b' hb' => ?_⟩
  · obtain ⟨f, hf, rfl⟩ := List.mem_map.mp he
    have hf := List.mem_reverse.mp hf
    have htarget : f.stop.node ≤ c.instances.length + 1 := hc.target_le hf
    have hsource : f.start.node ≤ c.instances.length + 1 :=
      Nat.le_trans (Nat.le_of_lt (hc.forward f hf)) htarget
    have hwire := hl.wire f hf
    rw [← Port.turned_turned hsource, ← Port.turned_turned htarget] at hwire
    exact hwire.symm
  · have hfits := (hl.fits_rights hc).turned (Nat.le_refl _)
    rw [Nat.sub_self] at hfits
    rw [Composite.backwards, Signature.lefts_adjoint]
    exact hfits
  · obtain ⟨v, b, rfl, hv, hb, rfl⟩ := exists_bloqAt_of_backwards hb'
    obtain ⟨x, hx, rfl⟩ := exists_instance hb
    exact (hl.node v _ hb).turned (h x hx) hv

/-- What appears on the nodes of the graph read backwards is what left the graph. -/
theorem born_backwards (L : Labels) :
    (List.range (c.backwards turn).size).flatMap
        ((c.backwards turn).bornAt (L.turned (c.instances.length + 1))) =
      ((List.range (c.instances.length + 1)).reverse.flatMap (c.goneAt L)) := by
  have hborn : ∀ v ≤ c.instances.length + 1,
      (c.backwards turn).bornAt (L.turned (c.instances.length + 1)) (c.instances.length + 1 - v) =
        (c.bloqAt v).elim [] fun b => L.on v b.dead := by
    intro v hv
    rw [bornAt, bloqAt_backwards hv]
    cases hb : c.bloqAt v with
    | none => rfl
    | some b =>
      obtain ⟨x, hx, rfl⟩ := exists_instance hb
      show (L.turned _).on _ (turn x.bloq).born = L.on v x.bloq.dead
      rw [(h x hx).born, Labels.on_turned hv]
  rw [range_backwards, List.flatMap_map, size, List.range_succ, List.reverse_append,
    List.flatMap_append]
  have hlast : c.bloqAt (c.instances.length + 1) = none := bloqAt_last
  rw [List.reverse_singleton, List.flatMap_singleton, hborn _ (Nat.le_refl _), hlast]
  refine List.flatMap_congr fun v hv => ?_
  have hlt := List.mem_range.mp (List.mem_reverse.mp hv)
  rw [hborn v (Nat.le_of_lt hlt), goneAt, if_neg (Nat.ne_of_lt hlt)]

/-- The operations of the graph read backwards come in the opposite order. -/
theorem operations_backwards (L : Labels) :
    (List.range (c.backwards turn).size).filterMap
        ((c.backwards turn).operationAt? (L.turned (c.instances.length + 1))) =
      (((List.range c.size).filterMap (c.operationAt? L)).map turned).reverse := by
  have hop : ∀ v ≤ c.instances.length + 1,
      (c.backwards turn).operationAt? (L.turned (c.instances.length + 1))
        (c.instances.length + 1 - v) = (c.operationAt? L v).map turned := by
    intro v hv
    rw [operationAt?, bloqAt_backwards hv, operationAt?]
    cases hb : c.bloqAt v with
    | none => rfl
    | some b =>
      obtain ⟨x, hx, rfl⟩ := exists_instance hb
      exact (h x hx).operation L hv
  rw [range_backwards, List.filterMap_map, List.map_filterMap, ← List.filterMap_reverse]
  refine List.filterMap_congr fun v hv => hop v ?_
  exact Nat.le_of_lt_succ (List.mem_range.mp (List.mem_reverse.mp hv))

end
end Composite
end
end BloqCircuit
