import Mathlib.Data.Set.Function
import BloqCircuit.Proofs.Balance
import BloqCircuit.Proofs.Renamed.Emission
/-! The qubits of emitted operations. A walk puts its operations on the qubits that it was given and on
those that were handed out on the way, and makes each of them with the checks of the constructor. -/
namespace BloqCircuit

/-! ## Operations -/

namespace Operation
variable {γ : Type} [GateKind γ] {op : Operation γ} {S : Qubit → Prop}

/-- As many qubits as the gate takes, no two the same. -/
structure Proper (op : Operation γ) : Prop where
  length : op.qubits.length = GateKind.arity op.gate
  nodup : op.qubits.Nodup

/-- These are what the constructor asks for. -/
theorem proper_iff : op.Proper ↔ make op.gate op.qubits = .ok op := by
  rw [make_eq_ok]
  constructor
  · intro h
    exact ⟨h.length, h.nodup, rfl⟩
  · intro h
    exact ⟨h.1, h.2.1⟩

theorem proper_of_make {g : γ} {qubits : List Qubit} (h : make g qubits = .ok op) : op.Proper := by
  obtain ⟨hlength, hnodup, rfl⟩ := make_eq_ok.mp h
  exact ⟨hlength, hnodup⟩

/-- Renaming keeps an operation proper if it merges no two of its qubits, and only then. -/
theorem proper_map_iff {f : Qubit → Qubit} :
    (op.map f).Proper ↔ op.Proper ∧ Set.InjOn f {q | q ∈ op.qubits} := by
  constructor
  · intro h
    exact ⟨⟨(List.length_map f).symm.trans h.length, h.nodup.of_map⟩,
      fun x hx y hy => List.inj_on_of_nodup_map h.nodup hx hy⟩
  · rintro ⟨h, hf⟩
    exact ⟨(List.length_map f).trans h.length, h.nodup.map_on fun x hx y hy => hf hx hy⟩

/-- A proper operation on qubits of `S`. -/
structure ProperOn (S : Qubit → Prop) (op : Operation γ) : Prop where
  proper : op.Proper
  mem : ∀ q ∈ op.qubits, S q

theorem properOn_of_make {g : γ} {qubits : List Qubit} (h : make g qubits = .ok op)
    (hS : ∀ q ∈ qubits, S q) : op.ProperOn S := by
  refine ⟨proper_of_make h, ?_⟩
  obtain ⟨-, -, rfl⟩ := make_eq_ok.mp h
  exact hS

end Operation

/-! ## Supplies of qubits -/

/-- What is known of the states of an allocator: from a state with `n` left, the next `n` qubits that
it hands out are in `S`. -/
structure Supply (σ : Type) [Allocator σ] (S : Qubit → Prop) where
  left : Nat → σ → Prop
  alloc {n k : Nat} {s : σ} : left (n + k) s →
    (∀ q ∈ (Allocator.alloc n s).1, S q) ∧ left k (Allocator.alloc n s).2
  free {k : Nat} {qs : List Qubit} {s t : σ} : left k s → Gives (Allocator.free qs) s () t → left k t

/-- Of an arbitrary allocator nothing is known. -/
def Supply.unknown (σ : Type) [Allocator σ] : Supply σ fun _ => True where
  left _ _ := True
  alloc _ := ⟨fun _ _ => trivial, trivial⟩
  free _ _ := trivial

/-- The pool after any calls to the pool `p`, with all that these handed out, in order. -/
inductive CleanPool.Since (p : CleanPool) : CleanPool → List Qubit → Prop
  | refl : Since p p []
  | alloc {p' : CleanPool} {handed : List Qubit} (n : Nat) : Since p p' handed →
      Since p (p'.alloc n).2 (handed ++ (p'.alloc n).1)
  | free {p' : CleanPool} {handed : List Qubit} (qs : List Qubit) : Since p p' handed →
      Since p (p'.free qs).2 handed

theorem CleanPool.Since.spec {p p' : CleanPool} {handed : List Qubit} (h : p.Since p' handed) :
    p'.next = p.next + UInt32.ofNat handed.length ∧ handed = fresh p.next handed.length := by
  induction h with
  | refl => exact ⟨(UInt32.add_zero _).symm, rfl⟩
  | @alloc p' handed n _ ih =>
    obtain ⟨hnext, hfresh⟩ := ih
    rw [CleanPool.alloc, List.length_append, length_fresh, UInt32.ofNat_add, ← UInt32.add_assoc,
      fresh_add, ← hnext, ← hfresh]
    exact ⟨rfl, rfl⟩
  | free qs _ ih => rwa [next_free]

/-- A scope hands out the ancillas of the pool below, by calls to it. -/
def Supply.ancillas {S : Qubit → Prop} (p : CleanPool) (total : Nat)
    (hS : ∀ q ∈ CleanPool.fresh p.next total, S q) : Supply (Scope CleanPool) S where
  left k s := ∃ handed, handed.length + k = total ∧ p.Since s.base handed
  alloc := by
    rintro n k s ⟨handed, hlength, hsince⟩
    constructor
    · intro q hq
      have hq : q ∈ CleanPool.fresh s.base.next n := hq
      rw [hsince.spec.1] at hq
      exact hS q (CleanPool.fresh_subset_of_le (by omega) (CleanPool.fresh_subset le_rfl hq))
    · refine ⟨handed ++ CleanPool.fresh s.base.next n, ?_, hsince.alloc n⟩
      rw [List.length_append, CleanPool.length_fresh]
      omega
  free := by
    rintro k qs s t ⟨handed, hlength, hsince⟩ hfree
    obtain ⟨-, rfl⟩ := Scope.gives_free.mp hfree
    refine ⟨handed, hlength, ?_⟩
    rw [Scope.base_free]
    exact hsince.free _

section
variable {σ τ υ : Type} [Allocator σ] {S : Qubit → Prop} {n k : Nat} {P : τ → Prop} {Q : υ → Prop}

/-- What the computation gives satisfies `P`, and it takes `n` qubits. -/
def Supply.Yields (u : Supply σ S) (n : Nat) (P : τ → Prop) (m : AllocM σ τ) : Prop :=
  ∀ ⦃k s x t⦄, u.left (n + k) s → Gives m s x t → P x ∧ u.left k t

namespace Supply.Yields
variable {u : Supply σ S}

protected theorem pure {x : τ} (h : P x) : u.Yields 0 P (pure x) := by
  intro k s y t hs hg
  obtain ⟨rfl, rfl⟩ := gives_pure.mp hg
  exact ⟨h, Nat.zero_add k ▸ hs⟩

protected theorem throw {e : Error} : u.Yields n P (throw e) := by
  intro k s x t hs hg
  cases gives_throw.mp hg

protected theorem bind {m : AllocM σ τ} {a : τ → AllocM σ υ} (h : u.Yields n P m)
    (ha : ∀ x, P x → u.Yields k Q (a x)) : u.Yields (n + k) Q (m >>= a) := by
  intro j s y t hs hg
  obtain ⟨x, s', hm, hx⟩ := gives_bind.mp hg
  rw [Nat.add_assoc] at hs
  obtain ⟨hP, hs'⟩ := h hs hm
  exact ha x hP hs' hx

theorem lift_bind {m : Except Error τ} {a : τ → AllocM σ υ}
    (ha : ∀ x, m = .ok x → u.Yields n Q (a x)) : u.Yields n Q (liftM m >>= a) := by
  intro k s y t hs hg
  obtain ⟨x, s', hlift, hx⟩ := gives_bind.mp hg
  obtain ⟨hm, rfl⟩ := gives_lift.mp hlift
  exact ha x hm hs hx

theorem alloc_bind {a : List Qubit → AllocM σ υ}
    (ha : ∀ qubits, (∀ q ∈ qubits, S q) → u.Yields k Q (a qubits)) :
    u.Yields (n + k) Q (liftM (Allocator.alloc n : StateM σ (List Qubit)) >>= a) := by
  apply Yields.bind (P := fun qubits => ∀ q ∈ qubits, S q) _ ha
  intro j s qubits t hs hg
  have halloc := u.alloc hs
  rw [gives_act.mp hg] at halloc
  exact halloc

theorem free_bind {qs : List Qubit} {a : Unit → AllocM σ υ} (ha : u.Yields n Q (a ())) :
    u.Yields n Q (Allocator.free qs >>= a) := by
  intro k s y t hs hg
  obtain ⟨⟨⟩, s', hfree, hx⟩ := gives_bind.mp hg
  exact ha (u.free hs hfree) hx

end Supply.Yields
end

/-! ## Arrays of qubits -/

variable {S : Qubit → Prop}

/-- All qubits of the arrays are in `S`. -/
def Quregs.Over (S : Qubit → Prop) (arrays : Quregs) : Prop :=
  ∀ e ∈ arrays.entries, ∀ q ∈ e.2.toList, S q

theorem Register.mem_of_mem_lane {r : Register} {g : Grid Qubit} {index : List Nat} {q : Qubit}
    (hq : q ∈ r.lane g index) : q ∈ g.toList := by
  obtain ⟨b, -, hb⟩ := List.mem_filterMap.mp hq
  rw [Grid.get?] at hb
  split at hb
  · exact Array.mem_toList_iff.mpr (Array.mem_of_getElem? hb)
  · cases hb

namespace Quregs
variable {arrays : Quregs} {g : Grid Qubit} {r : Register}

theorem over_empty : Over S Arrays.empty := fun _ he => absurd he List.not_mem_nil

theorem over_singleton {name : String} (hg : ∀ q ∈ g.toList, S q) : Over S ⟨[(name, g)]⟩ := by
  intro e he
  rw [List.mem_singleton.mp he]
  exact hg

theorem Over.get? (h : arrays.Over S) {name : String} (hg : arrays.get? name = some g) :
    ∀ q ∈ g.toList, S q :=
  h (name, g) (Arrays.mem_of_get? hg)

theorem Over.insert (h : arrays.Over S) {name : String} (hg : ∀ q ∈ g.toList, S q) :
    Over S (arrays.insert name g) := by
  intro e he
  rw [Arrays.insert] at he
  split at he
  · obtain ⟨e', he', rfl⟩ := List.mem_map.mp he
    split
    · exact hg
    · exact h e' he'
  · rcases List.mem_append.mp he with he | he
    · exact h e he
    · rw [List.mem_singleton.mp he]
      exact hg

theorem Over.arrayIn (h : arrays.Over S) (hg : r.arrayIn arrays = .ok g) : ∀ q ∈ g.toList, S q :=
  h.get? (Register.arrayIn_eq_ok.mp hg).1

theorem Over.merge (h : arrays.Over S) {registers : List Register} {qubits : List Qubit}
    (hm : arrays.merge registers = .ok qubits) : ∀ q ∈ qubits, S q := by
  obtain ⟨parts, hparts, hflatten⟩ := bind_eq_ok.mp hm
  cases hflatten
  intro q hq
  obtain ⟨part, hpart, hq⟩ := List.mem_flatten.mp hq
  obtain ⟨r, -, hr⟩ := exists_of_mapM_eq_ok hparts hpart
  obtain ⟨g, hg, hsame⟩ := bind_eq_ok.mp hr
  cases hsame
  exact h.arrayIn hg q hq

theorem forall_of_arrayOf {qubits : List Qubit} (h : ∀ q ∈ qubits, S q)
    (hg : r.arrayOf qubits = .ok g) : ∀ q ∈ g.toList, S q :=
  (Register.arrayOf_eq_ok.mp hg).2 ▸ h

end Quregs

/-! ## Carriers -/

/-- All qubits at the ports are in `S`. -/
def Carriers.Over (S : Qubit → Prop) (carriers : Carriers) : Prop :=
  ∀ (p : Port) (qubits : List Qubit), carriers[p]? = some qubits → ∀ q ∈ qubits, S q

namespace Carriers
variable {carriers : Carriers}

theorem over_empty : Over S ∅ := by
  intro p qubits h
  rw [Std.ExtTreeMap.getElem?_empty] at h
  cases h

theorem Over.insert (h : carriers.Over S) {p : Port} {qubits : List Qubit} (hq : ∀ q ∈ qubits, S q) :
    Over S (carriers.insert p qubits) := by
  intro p' qubits' h'
  rw [getElem?_insert_key] at h'
  split at h'
  · cases h'
    exact hq
  · exact h p' qubits' h'

theorem Over.erase (h : carriers.Over S) {p : Port} : Over S (carriers.erase p) := by
  intro p' qubits' h'
  rw [getElem?_erase_key] at h'
  split at h'
  · cases h'
  · exact h p' qubits' h'

end Carriers

namespace Export
variable {β : Type} {carriers carriers' : Carriers}

theorem over_bindInputs {quregs : Quregs} {registers : List Register} (hq : quregs.Over S)
    (hc : carriers.Over S) (h : bindInputs quregs registers carriers = .ok carriers') :
    carriers'.Over S := by
  induction registers generalizing carriers with
  | nil =>
    cases h
    exact hc
  | cons r rest ih =>
    obtain ⟨g, hg, h⟩ := bind_eq_ok.mp h
    refine ih ?_ h
    refine List.foldlRecOn r.indices _ hc fun c hc i _ => ?_
    exact hc.insert fun q hm => hq.arrayIn hg q (Register.mem_of_mem_lane hm)

theorem over_bindOutputs {out : Quregs} {edges : List (Edge β)} (ho : out.Over S)
    (hc : carriers.Over S) (h : bindOutputs out edges carriers = .ok carriers') :
    carriers'.Over S := by
  induction edges generalizing carriers with
  | nil =>
    cases h
    exact hc
  | cons e rest ih =>
    obtain ⟨g, hg, h⟩ := bind_eq_ok.mp h
    exact ih (hc.insert fun q hm => ho.arrayIn hg q (Register.mem_of_mem_lane hm)) h

variable [BloqKind β]

theorem over_followAll {edges : List (Edge β)} (hc : carriers.Over S)
    (h : followAll edges carriers = .ok carriers') : carriers'.Over S := by
  induction edges generalizing carriers with
  | nil =>
    cases h
    exact hc
  | cons e rest ih =>
    rw [followAll, List.foldlM_cons] at h
    obtain ⟨moved, hmoved, h⟩ := bind_eq_ok.mp h
    refine ih ?_ h
    rw [follow] at hmoved
    split at hmoved
    · next qubits hqubits =>
      cases hmoved
      exact hc.erase.insert (hc e.start qubits hqubits)
    · cases hmoved

theorem over_collect {number : Nat} {node : Node β} {reg : Register} {ends : Bool}
    {indices : List (List Nat)} {lanes lanes' : List (List Qubit)} (hc : carriers.Over S)
    (hl : ∀ q ∈ lanes.flatten, S q)
    (h : collect number node reg ends indices carriers lanes = .ok (lanes', carriers')) :
    (∀ q ∈ lanes'.flatten, S q) ∧ carriers'.Over S := by
  induction indices generalizing carriers lanes with
  | nil =>
    cases h
    refine ⟨fun q hq => hl q ?_, hc⟩
    simpa only [List.mem_flatten, List.mem_reverse] using hq
  | cons i rest ih =>
    rw [collect] at h
    split at h
    · cases h
    · next qubits hqubits =>
      refine ih ?_ ?_ h
      · split
        · exact hc.erase
        · exact hc
      · rw [List.flatten_cons]
        exact List.forall_mem_append.mpr ⟨hc _ qubits hqubits, hl⟩

theorem over_gather {number : Nat} {node : Node β} {ends : Register → Bool}
    {registers : List Register} {arrays arrays' : Quregs} (hc : carriers.Over S)
    (ha : arrays.Over S)
    (h : gather number node ends registers carriers arrays = .ok (arrays', carriers')) :
    arrays'.Over S ∧ carriers'.Over S := by
  induction registers generalizing carriers arrays with
  | nil =>
    cases h
    exact ⟨ha, hc⟩
  | cons r rest ih =>
    obtain ⟨⟨lanes, left⟩, hcollect, h⟩ := bind_eq_ok.mp h
    obtain ⟨hlanes, hleft⟩ := over_collect hc (List.forall_mem_nil _) hcollect
    obtain ⟨g, hg, h⟩ := bind_eq_ok.mp h
    exact ih hleft (ha.insert (Quregs.forall_of_arrayOf hlanes hg)) h

end Export

/-! ## Walks -/

section
variable {β γ σ : Type} [Allocator σ] {u : Supply σ S} {given : Quregs}

theorem Quregs.yields_complete (hg : given.Over S) {registers : List Register} {all out : Quregs}
    (ha : all.Over S) (ho : out.Over S) :
    u.Yields (newBits registers) (fun r => r.1.Over S ∧ r.2.Over S)
      (given.complete registers all out) := by
  induction registers generalizing all out with
  | nil => exact .pure ⟨ha, ho⟩
  | cons r rest ih =>
    rw [newBits_cons, complete]
    have hrest : ∀ (side : Side) (g : Grid Qubit), (∀ q ∈ g.toList, S q) →
        u.Yields (newBits rest) (fun r => r.1.Over S ∧ r.2.Over S)
          (given.complete rest (all.insert r.name g)
            (if side.isRight then out.insert r.name g else out)) := by
      intro side g hq
      apply ih (ha.insert hq)
      split
      · exact ho.insert hq
      · exact ho
    cases r.side with
    | right =>
      apply Supply.Yields.alloc_bind
      intro qubits hqubits
      exact .lift_bind fun g hm => hrest .right g (forall_of_arrayOf hqubits hm)
    | left =>
      rw [if_neg (by decide), Nat.zero_add]
      exact .lift_bind fun g hm => hrest .left g (hg.arrayIn hm)
    | thru =>
      rw [if_neg (by decide), Nat.zero_add]
      exact .lift_bind fun g hm => hrest .thru g (hg.arrayIn hm)

theorem Native.over_forwarded (hg : given.Over S) {outputs : List (String × String)}
    {out out' : Quregs} (ho : out.Over S) (h : forwarded given outputs out = .ok out') :
    out'.Over S := by
  induction outputs generalizing out with
  | nil =>
    cases h
    exact ho
  | cons names rest ih =>
    rw [forwarded] at h
    split at h
    · next g hget => exact ih (ho.insert (hg.get? hget)) h
    · cases h

variable [GateKind γ]

/-- What a bloq gives: an operation, if any, and arrays, on qubits of `S`. -/
inductive Emitted (S : Qubit → Prop) : Option (Operation γ) × Quregs → Prop
  | none {out : Quregs} (ho : out.Over S) : Emitted S (none, out)
  | some {op : Operation γ} {out : Quregs} (hop : op.ProperOn S) (ho : out.Over S) :
      Emitted S (some op, out)

theorem Native.yields_run (hg : given.Over S) (form : Native γ) :
    u.Yields form.ancillas (Emitted S) (form.run given) := by
  cases form with
  | reshape source target =>
    refine .lift_bind fun qubits hm => .lift_bind fun g ha => .pure (.none ?_)
    exact Quregs.over_singleton (Quregs.forall_of_arrayOf (hg.merge hm) ha)
  | allocate reg =>
    refine Supply.Yields.alloc_bind (k := 0) fun qubits hqubits => .lift_bind fun g ha => .pure (.none ?_)
    exact Quregs.over_singleton (Quregs.forall_of_arrayOf hqubits ha)
  | free reg =>
    exact .lift_bind fun qubits _ => .free_bind (.pure (.none Quregs.over_empty))
  | gate g reg =>
    exact .lift_bind fun qubits hm => .lift_bind fun op hop =>
      .pure (.some (Operation.properOn_of_make hop (hg.merge hm)) hg)
  | forward g outputs =>
    cases g with
    | none =>
      exact .lift_bind fun out ho => .pure (.none (over_forwarded hg Quregs.over_empty ho))
    | some made =>
      refine .lift_bind fun g _ => .lift_bind fun op hop => .lift_bind fun out ho =>
        .pure (.some ?_ (over_forwarded hg Quregs.over_empty ho))
      apply Operation.properOn_of_make hop
      intro q hq
      obtain ⟨e, he, hq⟩ := List.mem_flatMap.mp hq
      exact hg e he q hq

variable [BloqKind β] [CircuitForm β γ]

/-- A bloq without a native form is made an operation with the same checks. -/
theorem Wrapped.yields_onInputs (bloq : β) (hg : given.Over S) :
    u.Yields (newBits (BloqKind.signature bloq).registers)
      (fun r => r.1.ProperOn S ∧ r.2.Over S) (onInputs bloq given) := by
  refine .lift_bind fun g _ => ?_
  refine (Quregs.yields_complete hg Quregs.over_empty Quregs.over_empty).bind (k := 0) fun r hr => ?_
  obtain ⟨all, out⟩ := r
  exact .lift_bind fun qubits hm => .lift_bind fun op hop =>
    .pure ⟨Operation.properOn_of_make hop (hr.1.merge hm), hr.2⟩

namespace Export
variable {carriers : Carriers}

theorem yields_runBloq (bloq : β) (hg : given.Over S) :
    u.Yields (Export.ancillas bloq) (Emitted S) (runBloq bloq given) := by
  unfold runBloq Export.ancillas
  cases CircuitForm.native? bloq with
  | some form => exact form.yields_run hg
  | none =>
    refine (Wrapped.yields_onInputs bloq hg).bind (k := 0) fun r hr => ?_
    obtain ⟨op, out⟩ := r
    exact .pure (.some hr.1 hr.2)

theorem yields_emit (x : Instance β) (v : Visit β) (hc : carriers.Over S) :
    u.Yields (Export.ancillas x.bloq) (fun r => (∀ op ∈ r.1.toList, op.ProperOn S) ∧ r.2.Over S)
      (emit x v carriers) := by
  unfold emit
  refine .lift_bind fun moved hmoved => ?_
  dsimp only
  cases classicalOutput? (BloqKind.signature x.bloq) with
  | some r => exact .throw
  | none =>
    refine .lift_bind fun r hr => ?_
    obtain ⟨arrays, rest⟩ := r
    obtain ⟨ha, hrest⟩ := over_gather (over_followAll hc hmoved) Quregs.over_empty hr
    refine (yields_runBloq x.bloq ha).bind (k := 0) fun r hr => .lift_bind fun bound hbound => .pure ?_
    cases hr with
    | none ho => exact ⟨List.forall_mem_nil _, over_bindOutputs ho hrest hbound⟩
    | some hop ho =>
      exact ⟨List.forall_mem_singleton.mpr hop, over_bindOutputs ho hrest hbound⟩

/-- What one node keeps, the walk keeps. -/
theorem yields_emitAll (visits : List (Visit β)) (hc : carriers.Over S) :
    u.Yields (visits.map fun v => v.node.instance?.elim 0 fun x => Export.ancillas x.bloq).sum
      (fun r => (∀ op ∈ r.1, op.ProperOn S) ∧ r.2.Over S) (emitAll visits carriers) := by
  induction visits generalizing carriers with
  | nil => exact .pure ⟨List.forall_mem_nil _, hc⟩
  | cons v rest ih =>
    rw [List.map_cons, List.sum_cons, emitAll]
    cases v.node with
    | leftDangle =>
      change u.Yields (0 + _) _ _
      rw [Nat.zero_add]
      exact ih hc
    | rightDangle =>
      change u.Yields (0 + _) _ _
      rw [Nat.zero_add]
      exact .lift_bind fun moved hmoved => ih (over_followAll hc hmoved)
    | placed x =>
      refine (yields_emit x v hc).bind fun r hr => ?_
      obtain ⟨op, left⟩ := r
      refine (ih hr.2).bind (k := 0) fun r hr' => ?_
      obtain ⟨ops, last⟩ := r
      exact .pure ⟨List.forall_mem_append.mpr ⟨hr.1, hr'.1⟩, hr'.2⟩

end Export

/-- The operations of an exported circuit are proper, and they are on qubits that were given or handed
out on the way. -/
theorem Composite.yields_export (c : Composite β) {signature : Signature} {quregs : Quregs}
    {order : TraversalOrder} (hq : quregs.Over S) :
    u.Yields (c.ancillas order) (fun r => (∀ op ∈ r.1.operations, op.ProperOn S) ∧ r.2.Over S)
      (c.export signature quregs order) := by
  unfold Composite.export
  refine .lift_bind fun carriers hbind => .lift_bind fun visits hvisits => ?_
  have hc := Export.over_bindInputs hq Carriers.over_empty hbind
  simp only [Composite.ancillas, hvisits]
  refine (Export.yields_emitAll visits hc).bind (k := 0) fun r hr => ?_
  obtain ⟨ops, left⟩ := r
  refine .lift_bind fun r hgather => ?_
  obtain ⟨out, last⟩ := r
  exact .pure ⟨hr.1, (Export.over_gather hr.2 Quregs.over_empty hgather).1⟩

variable {c : Composite β} {signature : Signature} {quregs out : Quregs} {order : TraversalOrder}
  {circuit : Circuit γ}

/-- Whatever the allocator hands out, the operations of an exported circuit are proper. -/
theorem Composite.proper_of_export {s t : σ}
    (h : Gives (c.export signature quregs order) s (circuit, out) t) :
    ∀ op ∈ circuit.operations, op.Proper := by
  have hgiven : quregs.Over fun _ => True := fun _ _ _ _ => trivial
  have hexported := c.yields_export (u := .unknown σ) hgiven (k := 0) trivial h
  intro op hop
  exact (hexported.1.1 op hop).proper

end
end BloqCircuit
