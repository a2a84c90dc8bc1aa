import BloqCircuit.Proofs.Carriers
/-! What an export delivers when the graph need not be linear. The walk follows every wire that does
not end on the input boundary. Of several wires into one input the last one counts, and the bits of a
register are counted only all together. -/
namespace BloqCircuit

/-! ## Steps on carriers -/

namespace Export
variable {β : Type} {v : Nat} {carriers carriers' : Carriers}

theorem bindInputs_eq_ok {quregs : Quregs} {registers : List Register}
    (h : bindInputs quregs registers carriers = .ok carriers') {p : Port} {q : List Qubit}
    (hp : carriers'[p]? = some q) : carriers[p]? = some q ∨
      p.node = 0 ∧ ∃ g, p.reg.arrayIn quregs = .ok g ∧ q = p.reg.lane g p.index := by
  induction registers generalizing carriers with
  | nil =>
    cases h
    exact .inl hp
  | cons r rest ih =>
    obtain ⟨g, hg, h⟩ := bind_eq_ok.mp h
    rcases ih h with hq | hq
    · rw [insertLanes] at hq
      split at hq
      · next hr =>
        obtain ⟨hv, hr, -⟩ := hr
        exact .inr ⟨hv, g, hr ▸ hg, by rw [hr]; exact (Option.some.inj hq).symm⟩
      · exact .inl hq
    · exact .inr hq

/-- The last of the wires that end at a port. -/
def lastInto (edges : List (Edge β)) (p : Port) : Option (Edge β) :=
  (edges.filter (·.stop == p)).getLast?

theorem lastInto_cons (e : Edge β) (edges : List (Edge β)) (p : Port) :
    lastInto (e :: edges) p =
      (lastInto edges p).or (if e.stop = p then some e else none) := by
  rw [lastInto, lastInto, List.filter_cons]
  by_cases h : e.stop = p
  · rw [if_pos (beq_iff_eq.mpr h), if_pos h, List.getLast?_cons]
    cases (edges.filter (·.stop == p)).getLast? <;> rfl
  · rw [if_neg (mt beq_iff_eq.mp h), if_neg h, Option.or_none]

theorem stop_of_lastInto {edges : List (Edge β)} {p : Port} {e : Edge β}
    (h : lastInto edges p = some e) : e ∈ edges ∧ e.stop = p := by
  obtain ⟨he, hp⟩ := List.mem_filter.mp (List.mem_of_getLast? h)
  exact ⟨he, beq_iff_eq.mp hp⟩

/-- What following wires into one node does. -/
structure Follows (v : Nat) (edges : List (Edge β)) (carriers carriers' : Carriers) : Prop where
  once : (edges.map Edge.start).Nodup
  there : ∀ e ∈ edges, ∃ q, carriers[e.start]? = some q
  away : ∀ p : Port, p.node ≠ v →
    carriers'[p]? = if p ∈ edges.map Edge.start then none else carriers[p]?
  here : ∀ p : Port, p.node = v →
    carriers'[p]? = (lastInto edges p).elim carriers[p]? fun e => carriers[e.start]?

/-- A wire that is followed changes the carriers at its ends only, and no wire into the node starts
there. -/
theorem Follows.cons {e : Edge β} {edges : List (Edge β)} {q : List Qubit}
    (h : Follows v edges ((carriers.erase e.start).insert e.stop q) carriers')
    (hq : carriers[e.start]? = some q) (htarget : e.target = v)
    (hv : ∀ f ∈ e :: edges, f.source ≠ v) : Follows v (e :: edges) carriers carriers' := by
  obtain ⟨once, there, away, here⟩ := h
  have hget : ∀ p : Port, ((carriers.erase e.start).insert e.stop q)[p]? =
      if e.stop = p then some q else if e.start = p then none else carriers[p]? := by
    intro p
    rw [getElem?_insert_key, getElem?_erase_key]
  have hstart : ∀ f ∈ edges, e.stop ≠ f.start := by
    intro f hf heq
    exact hv f (List.mem_cons_of_mem _ hf) ((congrArg Port.node heq).symm.trans htarget)
  have hfresh : e.start ∉ edges.map Edge.start := by
    intro hmem
    obtain ⟨f, hf, heq⟩ := List.mem_map.mp hmem
    obtain ⟨q', hq'⟩ := there f hf
    rw [hget, if_neg (hstart f hf), if_pos heq.symm] at hq'
    cases hq'
  have hkept : ∀ f ∈ edges,
      ((carriers.erase e.start).insert e.stop q)[f.start]? = carriers[f.start]? := by
    intro f hf
    have hne : e.start ≠ f.start := fun heq => hfresh (heq ▸ List.mem_map_of_mem hf)
    rw [hget, if_neg (hstart f hf), if_neg hne]
  constructor
  case once => exact List.nodup_cons.mpr ⟨hfresh, once⟩
  case there =>
    intro f hf
    rcases List.mem_cons.mp hf with rfl | hf
    · exact ⟨q, hq⟩
    · rw [← hkept f hf]
      exact there f hf
  case away =>
    intro p hp
    have hstop : e.stop ≠ p := fun heq => hp (heq ▸ htarget)
    rw [away p hp, hget, if_neg hstop, List.map_cons]
    simp only [List.mem_cons]
    by_cases hs : e.start = p
    · simp [hs]
    · simp [hs, Ne.symm hs]
  case here =>
    intro p hp
    rw [here p hp, lastInto_cons]
    cases hlast : lastInto edges p with
    | some f => exact hkept f (stop_of_lastInto hlast).1
    | none =>
      have hs : e.start ≠ p := fun heq =>
        hv e List.mem_cons_self ((congrArg Port.node heq).trans hp)
      rw [Option.none_or, Option.elim_none, hget, if_neg hs]
      split
      · exact hq.symm
      · rfl

variable [BloqKind β]

theorem followAll_eq_ok {edges : List (Edge β)} (hv : ∀ e ∈ edges, e.target = v ∧ e.source ≠ v)
    (h : followAll edges carriers = .ok carriers') : Follows v edges carriers carriers' := by
  induction edges generalizing carriers with
  | nil =>
    cases h
    exact ⟨List.nodup_nil, fun e he => absurd he List.not_mem_nil, fun p _ => rfl, fun p _ => rfl⟩
  | cons e edges ih =>
    rw [followAll, List.foldlM_cons] at h
    obtain ⟨next, hnext, h⟩ := bind_eq_ok.mp h
    obtain ⟨q, hq, rfl⟩ : ∃ q, carriers[e.start]? = some q ∧
        next = (carriers.erase e.start).insert e.stop q := by
      rw [follow] at hnext
      split at hnext
      · next q hq => exact ⟨q, hq, (Except.ok.inj hnext).symm⟩
      · cases hnext
    exact (ih (fun f hf => hv f (List.mem_cons_of_mem _ hf)) h).cons hq (hv e List.mem_cons_self).1
      fun f hf => (hv f hf).2

/-- Collecting the lanes of a register finds a carrier on each of its elements. -/
theorem collect_eq_ok {node : Node β} {r : Register} {ends : Bool} {is : List (List Nat)}
    (hn : is.Nodup) {lanes out : List (List Qubit)}
    (h : collect v node r ends is carriers lanes = .ok (out, carriers')) :
    (∀ i ∈ is, ∃ q, carriers[(⟨v, i, r⟩ : Port)]? = some q) ∧
      out = lanes.reverse ++ is.map (fun i => carriers[(⟨v, i, r⟩ : Port)]?.getD []) ∧
      ∀ p : Port, carriers'[p]? =
        if ends = true ∧ p.node = v ∧ p.reg = r ∧ p.index ∈ is then none else carriers[p]? := by
  induction is generalizing carriers lanes with
  | nil =>
    cases h
    exact ⟨fun i hi => absurd hi List.not_mem_nil, by simp, fun p => by simp⟩
  | cons i is ih =>
    obtain ⟨hi, hn⟩ := List.nodup_cons.mp hn
    rw [collect] at h
    split at h
    · cases h
    · next q hq =>
      obtain ⟨hthere, rfl, hafter⟩ := ih hn h
      have hget := getElem?_erase_if ends carriers ⟨v, i, r⟩
      have hother : ∀ j ∈ is, (if ends then carriers.erase ⟨v, i, r⟩ else carriers)[
          (⟨v, j, r⟩ : Port)]? = carriers[(⟨v, j, r⟩ : Port)]? := by
        intro j hj
        rw [hget, if_neg]
        rintro ⟨-, heq⟩
        rw [Port.mk.injEq] at heq
        exact hi (heq.2.1 ▸ hj)
      refine ⟨?_, ?_, ?_⟩
      · intro j hj
        rcases List.mem_cons.mp hj with rfl | hj
        · exact ⟨q, hq⟩
        · rw [← hother j hj]
          exact hthere j hj
      · rw [List.map_cons, hq, List.map_congr_left fun j hj => congrArg (·.getD []) (hother j hj)]
        simp
      · intro p
        rw [hafter, hget]
        obtain ⟨u, j, s⟩ := p
        by_cases hs : ends = true ∧ u = v ∧ s = r
        · by_cases hj : j = i <;> simp [hs, hj, Ne.symm]
        · have hne : ¬ (ends = true ∧ (⟨v, i, r⟩ : Port) = ⟨u, j, s⟩) := by
            rw [Port.mk.injEq]
            rintro ⟨he, hv, -, hr⟩
            exact hs ⟨he, hv.symm, hr.symm⟩
          simp only [if_neg hne]
          rw [if_neg fun hall => hs ⟨hall.1, hall.2.1, hall.2.2.1⟩,
            if_neg fun hall => hs ⟨hall.1, hall.2.1, hall.2.2.1⟩]

/-- What gathering the arrays of registers on a node does. A register shares its array with none if
it shares its name with none. -/
structure Gathers (v : Nat) (registers : List Register) (carriers carriers' : Carriers)
    (before after : Quregs) : Prop where
  there : ∀ p ∈ portsOn v registers, ∃ q, carriers[p]? = some q
  away : ∀ p : Port, p.node ≠ v → carriers'[p]? = carriers[p]?
  kept : ∀ name, name ∉ registers.map (·.name) → after.get? name = before.get? name
  array : ∀ r ∈ registers, (∀ s ∈ registers, s.name = r.name → s = r) → ∃ g,
    after.get? r.name = some g ∧
      r.arrayOf (r.flat fun i => carriers[(⟨v, i, r⟩ : Port)]?.getD []) = .ok g

omit [BloqKind β] in
/-- A register that is gathered before others takes nothing that they need: a carrier that is still
there after it was there before. -/
theorem Gathers.cons {s : Register} {rest : List Register} {next : Carriers} {ends : Bool}
    {g : Grid Qubit} {before after : Quregs}
    (h : Gathers v rest next carriers' (before.insert s.name g) after)
    (hthere : ∀ i ∈ s.indices, ∃ q, carriers[(⟨v, i, s⟩ : Port)]? = some q)
    (hnext : ∀ p : Port, next[p]? =
      if ends = true ∧ p.node = v ∧ p.reg = s ∧ p.index ∈ s.indices then none else carriers[p]?)
    (hg : s.arrayOf (s.flat fun i => carriers[(⟨v, i, s⟩ : Port)]?.getD []) = .ok g) :
    Gathers v (s :: rest) carriers carriers' before after := by
  obtain ⟨there, away, kept, array⟩ := h
  have hback : ∀ p : Port, (∃ q, next[p]? = some q) → next[p]? = carriers[p]? := by
    rintro p ⟨q, hq⟩
    rw [hnext] at hq ⊢
    split at hq
    · cases hq
    · next hnot => rw [if_neg hnot]
  constructor
  case there =>
    intro p hp
    obtain ⟨hv, hr, hi⟩ := mem_portsOn.mp hp
    rcases List.mem_cons.mp hr with hr | hr
    · obtain ⟨u, i, r⟩ := p
      subst hv hr
      exact hthere i hi
    · have hp := there p (mem_portsOn.mpr ⟨hv, hr, hi⟩)
      rwa [hback p hp] at hp
  case away =>
    intro p hp
    rw [away p hp, hnext, if_neg fun hall => hp hall.2.1]
  case kept =>
    intro name hname
    rw [List.map_cons, List.mem_cons, not_or] at hname
    rw [kept name hname.2, Arrays.get?_insert, if_neg hname.1]
  case array =>
    intro r hr hsole
    by_cases hrest : r ∈ rest
    · obtain ⟨g', hget, harray⟩ := array r hrest fun t ht => hsole t (List.mem_cons_of_mem _ ht)
      refine ⟨g', hget, ?_⟩
      have hlane : ∀ i ∈ r.indices, next[(⟨v, i, r⟩ : Port)]?.getD [] =
          carriers[(⟨v, i, r⟩ : Port)]?.getD [] := by
        intro i hi
        rw [hback _ (there _ (mem_portsOn.mpr ⟨rfl, hrest, hi⟩))]
      rwa [Register.flat, List.flatMap_congr hlane] at harray
    · obtain rfl : r = s := (List.mem_cons.mp hr).resolve_right hrest
      have hname : r.name ∉ rest.map (·.name) := by
        intro hmem
        obtain ⟨t, ht, hname⟩ := List.mem_map.mp hmem
        exact hrest (hsole t (List.mem_cons_of_mem _ ht) hname ▸ ht)
      refine ⟨g, ?_, hg⟩
      rw [kept _ hname, Arrays.get?_insert, if_pos rfl]

theorem gather_eq_ok {node : Node β} {ends : Register → Bool} {registers : List Register}
    {before after : Quregs}
    (h : gather v node ends registers carriers before = .ok (after, carriers')) :
    Gathers v registers carriers carriers' before after := by
  induction registers generalizing carriers before with
  | nil =>
    cases h
    exact ⟨fun p hp => absurd hp List.not_mem_nil, fun p _ => rfl, fun name _ => rfl,
      fun r hr => absurd hr List.not_mem_nil⟩
  | cons s rest ih =>
    obtain ⟨⟨lanes, next⟩, hcollect, h⟩ := bind_eq_ok.mp h
    obtain ⟨g, hg, h⟩ := bind_eq_ok.mp h
    obtain ⟨hthere, hlanes, hnext⟩ := collect_eq_ok Register.nodup_indices hcollect
    refine (ih h).cons hthere hnext ?_
    rw [Register.flat, List.flatMap_def]
    rwa [hlanes] at hg

omit [BloqKind β] in
/-- The wires out of a node carry the lanes of its output arrays. -/
theorem bindOutputs_eq_ok {out : Quregs} {edges : List (Edge β)}
    (h : bindOutputs out edges carriers = .ok carriers') :
    (∀ e ∈ edges, ∃ g, e.wire.left.reg.arrayIn out = .ok g ∧
      carriers'[e.start]? = some (e.wire.left.reg.lane g e.wire.left.index)) ∧
      ∀ p : Port, p ∉ edges.map Edge.start → carriers'[p]? = carriers[p]? := by
  induction edges generalizing carriers with
  | nil =>
    cases h
    exact ⟨fun e he => absurd he List.not_mem_nil, fun p _ => rfl⟩
  | cons e edges ih =>
    obtain ⟨g, hg, h⟩ := bind_eq_ok.mp h
    obtain ⟨hbound, hkept⟩ := ih h
    refine ⟨?_, ?_⟩
    · intro f hf
      by_cases hmem : f ∈ edges
      · exact hbound f hmem
      · obtain rfl : f = e := (List.mem_cons.mp hf).resolve_right hmem
        refine ⟨g, hg, ?_⟩
        by_cases hlater : f.start ∈ edges.map Edge.start
        · obtain ⟨f', hf', hstart⟩ := List.mem_map.mp hlater
          obtain ⟨g', hg', hlane⟩ := hbound f' hf'
          obtain ⟨-, hindex, hreg⟩ := Port.mk.inj hstart
          rw [hindex, hreg, hstart] at hlane
          rw [hreg, hg] at hg'
          cases hg'
          exact hlane
        · rw [hkept _ hlater, getElem?_insert_key, if_pos rfl]
    · intro p hp
      rw [List.map_cons, List.mem_cons, not_or] at hp
      rw [hkept p hp.2, getElem?_insert_key, if_neg (Ne.symm hp.1)]

/-! ## The walk -/

section
variable {γ σ : Type} [GateKind γ] [CircuitForm β γ] [Allocator σ] {given made : Nat → Quregs}

/-- The bloqs of a walk are run one after another. Each is given arrays and makes arrays. -/
inductive Runs (given made : Nat → Quregs) :
    List (Visit β) → List (Operation γ) → σ → σ → Prop
  | nil {s} : Runs given made [] [] s s
  | boundary {v rest ops s t} : (∀ x, v.node ≠ .placed x) → Runs given made rest ops s t →
      Runs given made (v :: rest) ops s t
  | placed {v x op rest ops s t u} : v.node = .placed x →
      Gives (runBloq x.bloq (given v.number)) s (op, made v.number) t →
      Runs given made rest ops t u → Runs given made (v :: rest) (op.toList ++ ops) s u

theorem Runs.congr {given' : Nat → Quregs} {visits : List (Visit β)} {ops : List (Operation γ)}
    {s t : σ} (h : Runs given made visits ops s t)
    (hg : ∀ v ∈ visits, ∀ x, v.node = .placed x → given' v.number = given v.number) :
    Runs given' made visits ops s t := by
  induction h with
  | nil => exact .nil
  | boundary hnode _ ih => exact .boundary hnode (ih fun v hv => hg v (List.mem_cons_of_mem _ hv))
  | placed hnode hrun _ ih =>
    rw [← hg _ List.mem_cons_self _ hnode] at hrun
    exact .placed hnode hrun (ih fun v hv => hg v (List.mem_cons_of_mem _ hv))

end

/-- The lane that the producer of a wire made holds these qubits. -/
def Sends (made : Nat → Quregs) (e : Edge β) (q : List Qubit) : Prop :=
  ∃ g, e.wire.left.reg.arrayIn (made e.source) = .ok g ∧
    e.wire.left.reg.lane g e.wire.left.index = q

/-- The lane that the consumer of a wire is given holds these qubits. -/
def Receives (given : Nat → Quregs) (e : Edge β) (q : List Qubit) : Prop :=
  ∃ g, e.wire.right.reg.arrayIn (given e.target) = .ok g ∧
    e.wire.right.reg.lane g e.wire.right.index = q

end Export

namespace Composite
open Export
variable {β : Type} [BloqKind β] {c : Composite β} {made made' : Nat → Quregs} {done : List Nat}
  {carriers carriers' : Carriers} {v : Nat}

/-- A wire that its input takes: the input is there and its name is its own, no later wire leads into
it, and the wires into its register come from outputs and are all as wide as it. -/
structure Lands (c : Composite β) (e : Edge β) : Prop where
  input : e.stop ∈ portsOn e.target (c.regsIn e.target)
  alone : ∀ r ∈ c.regsIn e.target, r.name = e.wire.right.reg.name → r = e.wire.right.reg
  last : lastInto c.edges e.stop = some e
  widths : ∀ f ∈ c.edges, f.target = e.target → f.wire.right.reg = e.wire.right.reg →
    f.source ≠ c.instances.length + 1 ∧ f.wire.left.reg.bitsize = f.wire.right.reg.bitsize

/-- What the carriers hold when some nodes are done. -/
structure Holds (c : Composite β) (made : Nat → Quregs) (done : List Nat) (carriers : Carriers) :
    Prop where
  /-- What comes before a node that is done is done. -/
  closed : ∀ e ∈ c.edges, e.target ∈ done → e.source ∈ done
  /-- Nothing is carried at nodes to come, but for the input boundary. -/
  fresh : ∀ p : Port, p.node ≠ 0 → p.node ∉ done → carriers[p]? = none
  /-- A wire that is carried at its start carries the lane of its producer. -/
  lanes : ∀ e ∈ c.edges, e.source = 0 ∨ e.source ∈ done → e.source ≠ c.instances.length + 1 →
    ∀ q, carriers[e.start]? = some q → Sends made e q
  /-- Wires that were followed are no longer carried at their starts. -/
  gone : ∀ e ∈ c.edges, e.target ∈ done → e.target ≠ 0 → carriers[e.start]? = none
  /-- Wires that were followed start at different ports. -/
  once : c.edges.Pairwise fun e f => e.target ∈ done → e.target ≠ 0 → f.target ∈ done →
    f.target ≠ 0 → e.start ≠ f.start
  /-- What is carried at the output boundary was brought by the last wire. -/
  last : c.instances.length + 1 ∈ done → ∀ p : Port, p.node = c.instances.length + 1 →
    ∀ q, carriers[p]? = some q → ∃ e, lastInto c.edges p = some e ∧ Sends made e q

omit [BloqKind β] in
theorem lastInto_filter (c : Composite β) {p : Port} (hp : p.node = v) :
    lastInto (c.edges.filter (·.target == v)) p = lastInto c.edges p := by
  rw [lastInto, lastInto, List.filter_filter]
  refine congrArg List.getLast? (List.filter_congr fun e _ => ?_)
  by_cases h : e.stop = p
  · have ht : e.target = v := (congrArg Port.node h).trans hp
    simp [h, ht]
  · simp [h]

omit [BloqKind β] in
theorem source_of_next (hn : c.graph.Next done v) {e : Edge β} (he : e ∈ c.edges)
    (ht : e.target = v) : e.source ∈ done ∧ e.source ≠ v := by
  have hmem : (e.source, e.target) ∈ c.graph.edges := List.mem_map.mpr ⟨e, he, rfl⟩
  have hdone := hn.after _ hmem ht
  exact ⟨hdone, fun heq => hn.fresh (heq ▸ hdone)⟩

omit [BloqKind β] in
theorem Sends_congr {e : Edge β} {q : List Qubit} (h : Sends made e q)
    (he : made' e.source = made e.source) : Sends made' e q := by
  rwa [Sends, he]

omit [BloqKind β] in
theorem Holds.closed_step (h : c.Holds made done carriers) (hn : c.graph.Next done v) :
    ∀ e ∈ c.edges, e.target ∈ done ++ [v] → e.source ∈ done ++ [v] := by
  intro e he ht
  refine List.mem_append_left _ ?_
  rcases List.mem_append.mp ht with ht | ht
  · exact h.closed e he ht
  · exact (source_of_next hn he (List.mem_singleton.mp ht)).1

omit [BloqKind β] in
/-- The wires into a node that is followed start at ports of their own, and at none where a wire into
a node that is done starts. -/
theorem Holds.once_step (h : c.Holds made done carriers) {mid : Carriers}
    (hf : Follows v (c.edges.filter (·.target == v)) carriers mid) :
    c.edges.Pairwise fun e f => e.target ∈ done ++ [v] → e.target ≠ 0 → f.target ∈ done ++ [v] →
      f.target ≠ 0 → e.start ≠ f.start := by
  have hdone : ∀ {u}, u ∈ done ++ [v] ↔ u ∈ done ∨ u = v := by simp
  have hown : c.edges.Pairwise fun e f => e.target = v → f.target = v → e.start ≠ f.start := by
    have honce := hf.once
    rw [List.Nodup, List.pairwise_map, List.pairwise_filter] at honce
    refine honce.imp fun {e f} hne hev hfv => ?_
    exact hne (beq_iff_eq.mpr hev) (beq_iff_eq.mpr hfv)
  -- a wire into the node is carried before, one into a node that is done is not
  have hmixed : ∀ e ∈ c.edges, ∀ f ∈ c.edges, e.target = v → f.target ∈ done → f.target ≠ 0 →
      e.start ≠ f.start := by
    intro e he f hf' hev hfd hf0 heq
    obtain ⟨q, hq⟩ := hf.there e (List.mem_filter.mpr ⟨he, beq_iff_eq.mpr hev⟩)
    rw [heq, h.gone f hf' hfd hf0] at hq
    cases hq
  refine (h.once.and hown).imp_of_mem fun {e f} he hf' hboth hed he0 hfd hf0 => ?_
  rcases hdone.mp hed with hed | hev
  · rcases hdone.mp hfd with hfd | hfv
    · exact hboth.1 hed he0 hfd hf0
    · exact (hmixed f hf' e he hfv hed he0).symm
  · rcases hdone.mp hfd with hfd | hfv
    · exact hmixed e he f hf' hev hfd hf0
    · exact hboth.2 hev hfv

omit [BloqKind β] in
/-- A node is done after the wires into it were followed; besides that only its own ports change. -/
theorem Holds.step (h : c.Holds made done carriers) (hn : c.graph.Next done v)
    {mid : Carriers} (hf : Follows v (c.edges.filter (·.target == v)) carriers mid)
    (haway : ∀ p : Port, p.node ≠ v → carriers'[p]? = mid[p]?)
    (hmade : ∀ u, u ≠ v → made' u = made u)
    (hlanes : v ≠ c.instances.length + 1 → ∀ e ∈ c.edges, e.source = v → ∀ q,
      carriers'[e.start]? = some q → Sends made' e q)
    (hlast : v = c.instances.length + 1 → ∀ p : Port, p.node = v → ∀ q,
      carriers'[p]? = some q → ∃ e, lastInto c.edges p = some e ∧ Sends made' e q) :
    c.Holds made' (done ++ [v]) carriers' := by
  have hdone : ∀ {u}, u ∈ done ++ [v] ↔ u ∈ done ∨ u = v := by simp
  -- away from the node, carriers are kept or taken away
  have hkept : ∀ p : Port, p.node ≠ v → ∀ q, carriers'[p]? = some q → carriers[p]? = some q := by
    intro p hp q hq
    rw [haway p hp, hf.away p hp] at hq
    split at hq
    · cases hq
    · exact hq
  have hnone : ∀ p : Port, p.node ≠ v → carriers[p]? = none → carriers'[p]? = none := by
    intro p hp hc
    cases hq : carriers'[p]? with
    | none => rfl
    | some q => rw [hkept p hp q hq] at hc; cases hc
  constructor
  case closed => exact h.closed_step hn
  case fresh =>
    intro p h0 hp
    rw [hdone, not_or] at hp
    exact hnone p hp.2 (h.fresh p h0 hp.1)
  case lanes =>
    intro e he hs hlen q hq
    by_cases hsv : e.source = v
    · exact hlanes (hsv ▸ hlen) e he hsv q hq
    · have hs : e.source = 0 ∨ e.source ∈ done :=
        hs.imp_right fun hs => (hdone.mp hs).resolve_right hsv
      exact Sends_congr (h.lanes e he hs hlen q (hkept _ hsv q hq)) (hmade _ hsv)
  case gone =>
    intro e he ht h0
    rcases hdone.mp ht with ht | ht
    · have hsv : e.source ≠ v := fun heq => hn.fresh (heq ▸ h.closed e he ht)
      exact hnone _ hsv (h.gone e he ht h0)
    · have hsv := (source_of_next hn he ht).2
      have hin : e ∈ c.edges.filter (·.target == v) := List.mem_filter.mpr ⟨he, beq_iff_eq.mpr ht⟩
      rw [haway _ hsv, hf.away _ hsv, if_pos (List.mem_map_of_mem hin)]
  case once => exact h.once_step hf
  case last =>
    intro hd p hp q hq
    by_cases hvl : v = c.instances.length + 1
    · exact hlast hvl p (hp.trans hvl.symm) q hq
    · have hd := (hdone.mp hd).resolve_right (Ne.symm hvl)
      have hpv : p.node ≠ v := fun heq => hvl (heq.symm.trans hp)
      obtain ⟨e, hlast, hsends⟩ := h.last hd p hp q (hkept p hpv q hq)
      obtain ⟨he, hstop⟩ := stop_of_lastInto hlast
      have ht : e.target = c.instances.length + 1 := (congrArg Port.node hstop).trans hp
      have hsv : e.source ≠ v := fun heq => hn.fresh (heq ▸ h.closed e he (ht ▸ hd))
      exact ⟨e, hlast, Sends_congr hsends (hmade _ hsv)⟩

/-- A node whose inputs all have wires, and that is given what those that land hold. -/
structure Supplied (c : Composite β) (given made : Nat → Quregs) (v : Nat) : Prop where
  fed : ∀ p ∈ portsOn v (c.regsIn v), ∃ e ∈ c.edges, e.stop = p
  honoured : ∀ e ∈ c.edges, e.target = v → c.Lands e → ∃ q, Sends made e q ∧ Receives given e q

theorem Supplied.congr {given given' : Nat → Quregs} (h : c.Supplied given made v)
    (hg : given' v = given v) : c.Supplied given' made v where
  fed := h.fed
  honoured e he ht hl := by
    obtain ⟨q, hsent, g, hget, hlane⟩ := h.honoured e he ht hl
    subst ht
    exact ⟨q, hsent, g, hg ▸ hget, hlane⟩

/-- Arrays that are gathered from what the last wires brought supply the node. -/
theorem supplied_of_gathers {given : Nat → Quregs} {mid after : Carriers} {before : Quregs}
    (hi : ∀ e ∈ c.edges, e.wire.left.index ∈ e.wire.left.reg.indices)
    (hm : ∀ p : Port, p.node = v → ∀ q, mid[p]? = some q → ∃ e, lastInto c.edges p = some e ∧
      (e.source ≠ c.instances.length + 1 → Sends made e q))
    (hg : Gathers v (c.regsIn v) mid after before (given v)) : c.Supplied given made v where
  fed p hp := by
    obtain ⟨q, hq⟩ := hg.there p hp
    obtain ⟨e, hlast, -⟩ := hm p (mem_portsOn.mp hp).1 q hq
    exact ⟨e, stop_of_lastInto hlast⟩
  honoured e he ht hl := by
    subst ht
    obtain ⟨hp, halone, hlast, hwidths⟩ := hl
    obtain ⟨-, hr, hindex⟩ := mem_portsOn.mp hp
    obtain ⟨g, hget, harray⟩ := hg.array e.wire.right.reg hr halone
    -- each lane of the register was sent along a wire of its width
    have hfits : e.wire.right.reg.Fits fun i =>
        mid[(⟨e.target, i, e.wire.right.reg⟩ : Port)]?.getD [] := by
      intro i hi'
      obtain ⟨q, hq⟩ := hg.there ⟨e.target, i, e.wire.right.reg⟩ (mem_portsOn.mpr ⟨rfl, hr, hi'⟩)
      obtain ⟨f, hf, hsent⟩ := hm _ rfl q hq
      obtain ⟨hf, hstop⟩ := stop_of_lastInto hf
      obtain ⟨hft, -, hfr⟩ := Port.mk.inj hstop
      obtain ⟨hsource, hbits⟩ := hwidths f hf hft hfr
      obtain ⟨g', hg', hlane⟩ := hsent hsource
      show (mid[(⟨e.target, i, e.wire.right.reg⟩ : Port)]?.getD []).length = _
      rw [hq, Option.getD_some, ← hlane,
        Register.fits_lane (Register.arrayIn_eq_ok.mp hg').2 _ (hi f hf), hbits, hfr]
    rw [Register.arrayOf_flat hfits] at harray
    cases harray
    obtain ⟨q, hq⟩ := hg.there _ hp
    obtain ⟨f, hf, hsent⟩ := hm _ rfl q hq
    obtain rfl : e = f := Option.some.inj (hlast.symm.trans hf)
    refine ⟨q, hsent (hwidths e he rfl rfl).1, _, Register.arrayIn_eq_ok.mpr ⟨hget, rfl⟩, ?_⟩
    have hlane := Register.lane_array hfits hindex
    change _ = mid[e.stop]?.getD [] at hlane
    rwa [hq] at hlane

omit [BloqKind β] in
/-- What wires into a node bring to its ports. -/
theorem Holds.brings (h : c.Holds made done carriers) (hn : c.graph.Next done v) (hv : v ≠ 0)
    {mid : Carriers} (hf : Follows v (c.edges.filter (·.target == v)) carriers mid) {p : Port}
    (hp : p.node = v) {q : List Qubit} (hq : mid[p]? = some q) :
    ∃ e, lastInto c.edges p = some e ∧
      (e.source ≠ c.instances.length + 1 → Sends made e q) := by
  rw [hf.here p hp, lastInto_filter c hp] at hq
  cases hlast : lastInto c.edges p with
  | none =>
    rw [hlast, Option.elim_none, h.fresh p (hp.symm ▸ hv) (hp.symm ▸ hn.fresh)] at hq
    cases hq
  | some e =>
    rw [hlast, Option.elim_some] at hq
    obtain ⟨he, hstop⟩ := stop_of_lastInto hlast
    have ht : e.target = v := (congrArg Port.node hstop).trans hp
    exact ⟨e, rfl, fun hs => h.lanes e he (.inr (source_of_next hn he ht).1) hs q hq⟩

section
variable {γ σ : Type} [GateKind γ] [CircuitForm β γ] [Allocator σ]

omit [BloqKind β] in
theorem nodeAt_zero : c.nodeAt 0 = .leftDangle := if_pos rfl

omit [BloqKind β] in
/-- A node is one of the boundaries or has an instance. -/
theorem nodeAt_cases (c : Composite β) (v : Nat) :
    (v = 0 ∧ c.nodeAt v = .leftDangle) ∨
      (∃ k x, v = k + 1 ∧ c.instances[k]? = some x ∧ c.nodeAt v = .placed x) ∨
      c.instances.length < v ∧ c.nodeAt v = .rightDangle := by
  cases v with
  | zero => exact .inl ⟨rfl, nodeAt_zero⟩
  | succ k =>
    rw [nodeAt, if_neg (Nat.succ_ne_zero k), Nat.add_sub_cancel]
    cases hk : c.instances[k]? with
    | none => exact .inr (.inr ⟨Nat.lt_succ_of_le (List.getElem?_eq_none_iff.mp hk), rfl⟩)
    | some x => exact .inr (.inl ⟨k, x, rfl, hk, rfl⟩)

/-- A node with an instance is that instance. -/
theorem regsIn_of_placed {x : Instance β} (h : c.nodeAt v = .placed x) :
    v ≠ 0 ∧ v ≠ c.instances.length + 1 ∧ c.regsIn v = (BloqKind.signature x.bloq).lefts := by
  rcases c.nodeAt_cases v with ⟨-, hv⟩ | ⟨k, y, rfl, hk, hv⟩ | ⟨-, hv⟩
  · cases hv.symm.trans h
  · cases hv.symm.trans h
    have hb : c.bloqAt (k + 1) = some x.bloq := by rw [bloqAt, hk]; rfl
    exact ⟨Nat.succ_ne_zero k, Nat.ne_of_lt (bloqAt_lt hb).2, regsIn_eq hb⟩
  · cases hv.symm.trans h

omit [BloqKind β] in
theorem nodeAt_of_rightDangle (hv : v < c.size) (h : c.nodeAt v = .rightDangle) :
    v = c.instances.length + 1 := by
  rcases c.nodeAt_cases v with ⟨-, hn⟩ | ⟨k, y, -, -, hn⟩ | ⟨hlt, -⟩
  · cases hn.symm.trans h
  · cases hn.symm.trans h
  · exact Nat.le_antisymm (Nat.le_of_lt_succ hv) hlt

omit [BloqKind β] in
theorem nodeAt_of_leftDangle (h : c.nodeAt v = .leftDangle) : v = 0 := by
  rcases c.nodeAt_cases v with ⟨hv, -⟩ | ⟨k, y, -, -, hn⟩ | ⟨-, hn⟩
  · exact hv
  · cases hn.symm.trans h
  · cases hn.symm.trans h

/-- An instance is emitted in four steps: the wires into it are followed, its arrays are gathered, its
bloq is run on them, and the wires out of it are bound. -/
theorem emit_gives {x : Instance β} {op : Option (Operation γ)} {s t : σ}
    (h : Gives (emit x (c.visitAt v) carriers) s (op, carriers') t) :
    ∃ mid after given out,
      followAll (c.edges.filter (·.target == v)) carriers = .ok mid ∧
      gather v (c.nodeAt v) (fun r => r.side == .left) (BloqKind.signature x.bloq).lefts mid
        Arrays.empty = .ok (given, after) ∧
      Gives (runBloq x.bloq given) s (op, out) t ∧
      bindOutputs out (c.edges.filter (·.source == v)) after = .ok carriers' := by
  obtain ⟨mid, s₁, hlift, h⟩ := gives_bind.mp h
  obtain ⟨hfollow, rfl⟩ := gives_lift.mp hlift
  dsimp only at h
  split at h
  · exact (gives_throw.mp h).elim
  · obtain ⟨⟨given, after⟩, s₂, hlift, h⟩ := gives_bind.mp h
    obtain ⟨hgather, rfl⟩ := gives_lift.mp hlift
    obtain ⟨⟨op', out⟩, t', hrun, h⟩ := gives_bind.mp h
    obtain ⟨bound, t'', hlift, h⟩ := gives_bind.mp h
    obtain ⟨hbind, rfl⟩ := gives_lift.mp hlift
    obtain ⟨heq, rfl⟩ := gives_pure.mp h
    cases heq
    exact ⟨mid, after, given, out, hfollow, hgather, hrun, hbind⟩

omit [BloqKind β] in
theorem incoming_of_next (hn : c.graph.Next done v) :
    ∀ e ∈ c.edges.filter (·.target == v), e.target = v ∧ e.source ≠ v := by
  intro e he
  obtain ⟨he, ht⟩ := List.mem_filter.mp he
  have ht := beq_iff_eq.mp ht
  exact ⟨ht, (source_of_next hn he ht).2⟩

/-- A step of the walk supplies the instance that it emits. -/
theorem Holds.emit (h : c.Holds made done carriers) (hn : c.graph.Next done v)
    (hi : ∀ e ∈ c.edges, e.wire.left.index ∈ e.wire.left.reg.indices) {x : Instance β}
    (hx : c.nodeAt v = .placed x) {op : Option (Operation γ)} {s t : σ}
    (hg : Gives (emit x (c.visitAt v) carriers) s (op, carriers') t) :
    ∃ arrays out, Gives (runBloq x.bloq arrays) s (op, out) t ∧
      c.Holds (Function.update made v out) (done ++ [v]) carriers' ∧
      ∀ given : Nat → Quregs, given v = arrays → ∀ made' : Nat → Quregs,
        (∀ u ∈ done, made' u = made u) → c.Supplied given made' v := by
  obtain ⟨mid, after, arrays, out, hfollow, hgather, hrun, hbind⟩ := emit_gives hg
  obtain ⟨h0, hlen, hregs⟩ := regsIn_of_placed hx
  have hf := followAll_eq_ok (incoming_of_next hn) hfollow
  have hgathers := gather_eq_ok hgather
  obtain ⟨hbound, hkept⟩ := bindOutputs_eq_ok hbind
  refine ⟨arrays, out, hrun, ?_, ?_⟩
  · refine h.step hn hf ?_ (fun u hu => Function.update_of_ne hu _ _) ?_ (fun heq => absurd heq hlen)
    · intro p hp
      have hp' : p ∉ (c.edges.filter (·.source == v)).map Edge.start := by
        intro hmem
        obtain ⟨e, he, hstart⟩ := List.mem_map.mp hmem
        exact hp ((congrArg Port.node hstart).symm.trans (beq_iff_eq.mp (List.mem_filter.mp he).2))
      rw [hkept p hp', hgathers.away p hp]
    · intro _ e he hsource q hq
      obtain ⟨g, hg, hlane⟩ := hbound e (List.mem_filter.mpr ⟨he, beq_iff_eq.mpr hsource⟩)
      refine ⟨g, ?_, Option.some.inj (hlane.symm.trans hq)⟩
      rw [hsource, Function.update_self]
      exact hg
  · rintro given rfl made' hmade
    refine supplied_of_gathers hi (fun p hp q hq => ?_) (hregs ▸ hgathers)
    obtain ⟨e, hlast, hsent⟩ := h.brings hn h0 hf hp hq
    obtain ⟨he, hstop⟩ := stop_of_lastInto hlast
    have ht : e.target = v := (congrArg Port.node hstop).trans hp
    exact ⟨e, hlast, fun hs => Sends_congr (hsent hs) (hmade _ (source_of_next hn he ht).1)⟩

/-- The output boundary is done after the wires into it were followed. -/
theorem Holds.close (h : c.Holds made done carriers) (hn : c.graph.Next done v)
    (hx : c.nodeAt v = .rightDangle)
    (hf : followAll (c.edges.filter (·.target == v)) carriers = .ok carriers') :
    c.Holds made (done ++ [v]) carriers' := by
  have hv : v = c.instances.length + 1 := nodeAt_of_rightDangle hn.lt hx
  have hf := followAll_eq_ok (incoming_of_next hn) hf
  refine h.step hn hf (fun p _ => rfl) (fun u _ => rfl) (fun hne => absurd hv hne) ?_
  intro _ p hp q hq
  obtain ⟨e, hlast, hsent⟩ := h.brings hn (by omega) hf hp hq
  obtain ⟨he, hstop⟩ := stop_of_lastInto hlast
  have ht : e.target = v := (congrArg Port.node hstop).trans hp
  exact ⟨e, hlast, hsent (hv ▸ (source_of_next hn he ht).2)⟩

omit [BloqKind β] in
/-- The input boundary is done at once. -/
theorem Holds.skip (h : c.Holds made done carriers) (hn : c.graph.Next done 0) :
    c.Holds made (done ++ [0]) carriers := by
  have hdone : ∀ {u}, u ∈ done ++ [0] ↔ u ∈ done ∨ u = 0 := by simp
  have hback : ∀ {u}, u ≠ 0 → u ∈ done ++ [0] → u ∈ done := fun hu hm =>
    (hdone.mp hm).resolve_right hu
  constructor
  case closed => exact h.closed_step hn
  case fresh => exact fun p h0 hp => h.fresh p h0 fun hm => hp (hdone.mpr (.inl hm))
  case lanes =>
    intro e he hs
    refine h.lanes e he ?_
    rcases hs with hs | hs
    · exact .inl hs
    · exact (hdone.mp hs).symm
  case gone => exact fun e he ht h0 => h.gone e he (hback h0 ht) h0
  case once =>
    refine h.once.imp fun {e f} hne hed he0 hfd hf0 => ?_
    exact hne (hback he0 hed) he0 (hback hf0 hfd) hf0
  case last => exact fun hd => h.last (hback (Nat.succ_ne_zero _) hd)

/-- Some nodes are served one after another: their bloqs run, and what each is given is what the
wires into it were sent. -/
structure Serves (c : Composite β) (made : Nat → Quregs) (rest : List Nat) (ops : List (Operation γ))
    (s t : σ) (given made' : Nat → Quregs) : Prop where
  kept : ∀ u, u ∉ rest ∨ u = 0 → made' u = made u
  runs : Runs given made' (rest.map c.visitAt) ops s t
  supplied : ∀ v ∈ rest, v ≠ 0 → v ≠ c.instances.length + 1 → c.Supplied given made' v

theorem Serves.nil (c : Composite β) (made : Nat → Quregs) (s : σ) :
    c.Serves made [] ([] : List (Operation γ)) s s (fun _ => Arrays.empty) made where
  kept _ _ := rfl
  runs := .nil
  supplied _ hv := absurd hv List.not_mem_nil

variable {rest : List Nat} {given : Nat → Quregs} {ops : List (Operation γ)} {s t : σ}

/-- Nothing runs on a boundary. -/
theorem Serves.boundary (h : c.Serves made rest ops s t given made')
    (hnode : ∀ x, c.nodeAt v ≠ .placed x) (hv : v = 0 ∨ v = c.instances.length + 1) :
    c.Serves made (v :: rest) ops s t given made' where
  kept u hu := h.kept u (hu.imp_left fun hu hm => hu (List.mem_cons_of_mem _ hm))
  runs := .boundary hnode h.runs
  supplied u hu h0 hlast := by
    refine h.supplied u ((List.mem_cons.mp hu).resolve_left ?_) h0 hlast
    rintro rfl
    exact hv.elim h0 hlast

/-- A bloq runs, and then the others. -/
theorem Serves.placed {x : Instance β} {arrays out : Quregs} {op : Option (Operation γ)} {s' : σ}
    (h : c.Serves (Function.update made v out) rest ops s' t given made')
    (hnode : c.nodeAt v = .placed x) (h0 : v ≠ 0) (hrest : v ∉ rest)
    (hrun : Gives (runBloq x.bloq arrays) s (op, out) s')
    (hsupplied : c.Supplied (Function.update given v arrays) made' v) :
    c.Serves made (v :: rest) (op.toList ++ ops) s t (Function.update given v arrays) made' := by
  have hgiven : ∀ u ∈ rest, Function.update given v arrays u = given u := fun u hu =>
    Function.update_of_ne (ne_of_mem_of_not_mem hu hrest) _ _
  constructor
  case kept =>
    intro u hu
    have huv : u ≠ v := by
      rintro rfl
      exact hu.elim (fun hu => hu List.mem_cons_self) h0
    rw [h.kept u (hu.imp_left fun hu hm => hu (List.mem_cons_of_mem _ hm)),
      Function.update_of_ne huv]
  case runs =>
    refine .placed hnode ?_ (h.runs.congr fun w hw _ _ => ?_)
    · show Gives (runBloq x.bloq (Function.update given v arrays v)) s (op, made' v) s'
      rw [Function.update_self, h.kept v (.inl hrest), Function.update_self]
      exact hrun
    · obtain ⟨u, hu, rfl⟩ := List.mem_map.mp hw
      exact hgiven u hu
  case supplied =>
    intro u hu hu0 hul
    rcases List.mem_cons.mp hu with rfl | hu
    · exact hsupplied
    · exact (h.supplied u hu hu0 hul).congr (hgiven u hu)

/-- The walk serves the nodes that are left, from what the carriers hold when the others are done. -/
theorem Holds.walk {order rest : List Nat} (hs : c.graph.Sorts order) (ho : order = done ++ rest)
    (hi : ∀ e ∈ c.edges, e.wire.left.index ∈ e.wire.left.reg.indices)
    (h : c.Holds made done carriers) {ops : List (Operation γ)} {s t : σ}
    (hg : Gives (emitAll (rest.map c.visitAt) carriers) s (ops, carriers') t) :
    ∃ given made', c.Serves made rest ops s t given made' ∧ c.Holds made' order carriers' := by
  induction rest generalizing done made carriers ops s with
  | nil =>
    obtain ⟨heq, rfl⟩ := gives_pure.mp hg
    cases heq
    rw [ho, List.append_nil]
    exact ⟨_, made, .nil c made s, h⟩
  | cons v rest ih =>
    have hn : c.graph.Next done v := hs.next done v rest ho
    have ho' : order = (done ++ [v]) ++ rest := by rw [ho, List.append_assoc]; rfl
    have hrest : ∀ u ∈ done ++ [v], u ∉ rest := by
      have hnodup := hs.perm.nodup_iff.mpr List.nodup_range
      rw [ho'] at hnodup
      exact fun u hu hm => (List.nodup_append.mp hnodup).2.2 u hu u hm rfl
    rw [List.map_cons, emitAll] at hg
    split at hg
    case _ hnode =>
      have hv : v = 0 := nodeAt_of_leftDangle hnode
      obtain ⟨given, made', hserves, hholds⟩ := ih ho' (hv ▸ h.skip (hv ▸ hn)) hg
      exact ⟨given, made', hserves.boundary (fun x hx => by cases hnode.symm.trans hx) (.inl hv), hholds⟩
    case _ hnode =>
      have hv : v = c.instances.length + 1 := nodeAt_of_rightDangle hn.lt hnode
      obtain ⟨mid, s', hlift, hg⟩ := gives_bind.mp hg
      obtain ⟨hfollow, rfl⟩ := gives_lift.mp hlift
      obtain ⟨given, made', hserves, hholds⟩ := ih ho' (h.close hn hnode hfollow) hg
      exact ⟨given, made', hserves.boundary (fun x hx => by cases hnode.symm.trans hx) (.inr hv), hholds⟩
    case _ x hnode =>
      obtain ⟨⟨op, mid⟩, s', hemit, hg⟩ := gives_bind.mp hg
      obtain ⟨⟨more, last⟩, t', hmore, hg⟩ := gives_bind.mp hg
      obtain ⟨heq, rfl⟩ := gives_pure.mp hg
      cases heq
      obtain ⟨h0, -, -⟩ := regsIn_of_placed hnode
      obtain ⟨arrays, out, hrun, hholds, hsupplied⟩ := h.emit hn hi hnode hemit
      obtain ⟨given, made', hserves, hholds⟩ := ih ho' hholds hmore
      have hvrest : v ∉ rest := hrest v (List.mem_append_right _ List.mem_cons_self)
      refine ⟨_, made', hserves.placed hnode h0 hvrest hrun ?_, hholds⟩
      -- what the producers made before is not made again
      refine hsupplied _ (Function.update_self ..) made' fun w hw => ?_
      rw [hserves.kept w (.inl (hrest w (List.mem_append_left _ hw))),
        Function.update_of_ne (ne_of_mem_of_not_mem hw hn.fresh)]

theorem nodeOf_lt {instances : List (Instance β)} {s : Soquet β} {u : Nat}
    (h : nodeOf instances.length (numbering instances) s = .ok u) : u < instances.length + 2 := by
  rcases cases_of_nodeOf h with ⟨-, rfl⟩ | ⟨-, rfl⟩ | ⟨x, y, -, -, hx, -⟩
  · exact Nat.succ_pos _
  · exact Nat.lt_succ_self _
  · have := (List.getElem?_eq_some_iff.mp hx).1
    omega

/-- Wires that were put together join nodes that are there. -/
theorem edgesOf_lt {instances : List (Instance β)} {connections : List (Connection β)}
    {es : List (Edge β)} (h : edgesOf instances connections = .ok es) {e : Edge β} (he : e ∈ es) :
    e.source < instances.length + 2 ∧ e.target < instances.length + 2 := by
  obtain ⟨w, -, hw⟩ := exists_of_mapM_eq_ok h he
  obtain ⟨source, hsource, hw⟩ := bind_eq_ok.mp hw
  obtain ⟨target, htarget, hw⟩ := bind_eq_ok.mp hw
  cases hw
  exact ⟨nodeOf_lt hsource, nodeOf_lt htarget⟩

theorem inRange_of_assemble {signature : Signature} {instances : List (Instance β)}
    {connections : List (Connection β)} (h : assemble signature instances connections = .ok c) :
    c.graph.InRange := by
  obtain ⟨es, hes, h⟩ := bind_eq_ok.mp h
  dsimp only at h
  split at h
  · cases h
    intro e he
    obtain ⟨f, hf, rfl⟩ := List.mem_map.mp he
    exact edgesOf_lt hes hf
  · cases h

omit [BloqKind β] in
/-- At first the input boundary alone carries something. -/
theorem holds_of_bindInputs {quregs : Quregs} {registers : List Register}
    (h : bindInputs quregs registers ∅ = .ok carriers) : c.Holds (fun _ => quregs) [] carriers := by
  have hinputs : ∀ {p : Port} {q}, carriers[p]? = some q →
      p.node = 0 ∧ ∃ g, p.reg.arrayIn quregs = .ok g ∧ q = p.reg.lane g p.index := by
    intro p q hq
    refine (bindInputs_eq_ok h hq).resolve_left fun hnone => ?_
    rw [Std.ExtTreeMap.getElem?_empty] at hnone
    cases hnone
  constructor
  case closed => exact fun e _ ht => absurd ht List.not_mem_nil
  case fresh =>
    intro p h0 _
    cases hq : carriers[p]? with
    | none => rfl
    | some q => exact absurd (hinputs hq).1 h0
  case lanes =>
    intro e _ _ _ q hq
    obtain ⟨-, g, hg, hlane⟩ := hinputs hq
    exact ⟨g, hg, hlane.symm⟩
  case gone => exact fun e _ ht => absurd ht List.not_mem_nil
  case once => exact List.pairwise_of_forall fun e f ht => absurd ht List.not_mem_nil
  case last => exact fun hm => absurd hm List.not_mem_nil

/-- Whatever the graph, a circuit comes out only if different wires start at different ports, those
into the input boundary apart, and every input has a wire. Then each wire that lands is honoured: what
its consumer is given holds the qubits that its producer made. -/
theorem export_delivers {signature : Signature} {instances : List (Instance β)}
    {connections : List (Connection β)} (ha : assemble signature instances connections = .ok c)
    (hi : ∀ e ∈ c.edges, e.wire.left.index ∈ e.wire.left.reg.indices) {quregs out : Quregs}
    {traversal : TraversalOrder} {circuit : Circuit γ} {s t : σ}
    (h : Gives (c.export c.signature quregs traversal) s (circuit, out) t) :
    ∃ visits given made, c.visits traversal = .ok visits ∧
      Runs given made visits circuit.operations s t ∧ made 0 = quregs ∧
      given (c.instances.length + 1) = out ∧
      ((c.edges.filter fun e => e.target ≠ 0).map Edge.start).Nodup ∧
      (∀ v, v ≠ 0 → v < c.size → ∀ p ∈ portsOn v (c.regsIn v), ∃ e ∈ c.edges, e.stop = p) ∧
      ∀ e ∈ c.edges, c.Lands e → ∃ q, Sends made e q ∧ Receives given e q := by
  obtain ⟨carriers, s₁, hlift, h⟩ := gives_bind.mp h
  obtain ⟨hinputs, rfl⟩ := gives_lift.mp hlift
  obtain ⟨visits, s₂, hlift, h⟩ := gives_bind.mp h
  obtain ⟨hvisits, rfl⟩ := gives_lift.mp hlift
  obtain ⟨⟨ops, last⟩, t', hemit, h⟩ := gives_bind.mp h
  obtain ⟨⟨out', after⟩, t'', hlift, h⟩ := gives_bind.mp h
  obtain ⟨hgather, rfl⟩ := gives_lift.mp hlift
  obtain ⟨heq, rfl⟩ := gives_pure.mp h
  cases heq
  obtain ⟨order, horder, -⟩ := bind_eq_ok.mp hvisits
  have hs : c.graph.Sorts order := by
    rw [sortedNodes] at horder
    split at horder
    · next sorted hsorted =>
      cases horder
      exact (Multigraph.sorts_of_topologicalOrder? (inRange_of_assemble ha) hsorted).1
    · cases horder
  have hmem : ∀ v, v ∈ order ↔ v < c.size := fun v => by rw [hs.perm.mem_iff, List.mem_range]; rfl
  have heq := visits_eq horder fun v hv => (hmem v).mp hv
  obtain rfl : visits = order.map c.visitAt := Except.ok.inj (hvisits.symm.trans heq)
  obtain ⟨given, made, ⟨hmade, hruns, hsupplied⟩, hholds⟩ :=
    (holds_of_bindInputs hinputs).walk hs (List.nil_append order).symm hi hemit
  -- the arrays of the outputs are what the output boundary is given
  have hend : c.instances.length + 1 ∈ order := (hmem _).mpr (Nat.lt_succ_self _)
  have hregs : c.regsIn (c.instances.length + 1) = c.signature.rights := if_pos rfl
  have hout : c.Supplied (Function.update given (c.instances.length + 1) out) made
      (c.instances.length + 1) := by
    have hgathers := gather_eq_ok hgather
    rw [← hregs, ← Function.update_self (c.instances.length + 1) out given] at hgathers
    refine supplied_of_gathers hi (fun p hp q hq => ?_) hgathers
    obtain ⟨e, hlast, hsent⟩ := hholds.last hend p hp q hq
    exact ⟨e, hlast, fun _ => hsent⟩
  have hall : ∀ v, v ≠ 0 → v < c.size →
      c.Supplied (Function.update given (c.instances.length + 1) out) made v := by
    intro v h0 hv
    by_cases hlast : v = c.instances.length + 1
    · exact hlast ▸ hout
    · exact (hsupplied v ((hmem v).mpr hv) h0 hlast).congr (Function.update_of_ne hlast _ _)
  refine ⟨_, Function.update given (c.instances.length + 1) out, made, hvisits, ?_,
    hmade 0 (.inr rfl), Function.update_self .., ?_, fun v h0 hv => (hall v h0 hv).fed, ?_⟩
  · refine hruns.congr fun w hw x hx => ?_
    obtain ⟨u, -, rfl⟩ := List.mem_map.mp hw
    exact Function.update_of_ne (regsIn_of_placed hx).2.1 _ _
  · rw [List.Nodup, List.pairwise_map, List.pairwise_filter]
    refine hholds.once.imp_of_mem fun {e f} he hf hne he0 hf0 => ?_
    have hlt : ∀ e ∈ c.edges, e.target ∈ order := fun e he =>
      (hmem _).mpr (inRange_of_assemble ha _ (List.mem_map_of_mem he)).2
    exact hne (hlt e he) (of_decide_eq_true he0) (hlt f hf) (of_decide_eq_true hf0)
  · intro e he hl
    have h0 : e.target ≠ 0 := by
      intro h0
      have hp := hl.input
      rw [h0] at hp
      exact absurd hp List.not_mem_nil
    exact (hall _ h0 (inRange_of_assemble ha _ (List.mem_map_of_mem he)).2).honoured e he rfl hl

end

/-- Whether a composite is emitted along given visits, with a property of the output arrays. -/
private def emitsAlong {β γ : Type} [BloqKind β] [GateKind γ] [CircuitForm β γ] (c : Composite β)
    (visits : List (Visit β)) (quregs : Quregs) (p : Quregs → Bool) : Bool :=
  match (do
      let carriers ← (bindInputs quregs c.signature.lefts ∅ : Except Error Carriers)
      let (ops, carriers) ← emitAll visits carriers
      let (out, _) ← gather (c.instances.length + 1) (.rightDangle : Node β) (fun _ => true)
        c.signature.rights carriers Arrays.empty
      return (⟨ops⟩, out) : AllocM CleanPool (Circuit γ × Quregs)).run {} with
  | (.ok (_, out), _) => p out
  | _ => false

private theorem exists_of_emitsAlong {β γ : Type} [BloqKind β] [GateKind γ] [CircuitForm β γ]
    {c : Composite β} {visits : List (Visit β)} {quregs : Quregs} {p : Quregs → Bool}
    {traversal : TraversalOrder} (hv : c.visits traversal = .ok visits)
    (h : emitsAlong c visits quregs p = true) : ∃ (circuit : Circuit γ) (out : Quregs) (t : CleanPool),
      Gives (c.export c.signature quregs traversal) {} (circuit, out) t ∧ p out = true := by
  rw [emitsAlong] at h
  split at h
  · next circuit out t hrun =>
    refine ⟨circuit, out, t, ?_, h⟩
    rw [Composite.export, hv]
    exact hrun
  · cases h

/-- Two wires lead to one output. The first is lost, and the second is honoured. -/
theorem export_delivers_last :
    let x : Register := ⟨"x", .qbit, [], .thru⟩
    let y : Register := ⟨"y", .qbit, [], .left⟩
    let wire (r : Register) : Edge (Bloq Float Complex) :=
      ⟨0, 1, ⟨⟨.leftDangle, r, []⟩, ⟨.rightDangle, x, []⟩⟩⟩
    let c : Composite (Bloq Float Complex) := ⟨⟨[x, y]⟩, [], [wire x, wire y]⟩
    assemble ⟨[x, y]⟩ [] [(wire x).wire, (wire y).wire] = .ok c ∧
      (∀ e ∈ c.edges, e.wire.left.index ∈ e.wire.left.reg.indices) ∧ c.Lands (wire y) ∧
      ∃ (circuit : Circuit (Gate Float Complex)) (out : Quregs) (t : CleanPool),
        Gives (c.export c.signature (Quregs.named c.signature.lefts) .greedy) {} (circuit, out) t ∧
        (out.get? "x").map Grid.toList = some [.named "y"] ∧
        ∃ given made, made 0 = Quregs.named c.signature.lefts ∧ given 1 = out ∧
          ((c.edges.filter fun e => e.target ≠ 0).map Edge.start).Nodup ∧
          (∀ p ∈ portsOn 1 (c.regsIn 1), ∃ e ∈ c.edges, e.stop = p) ∧
          ∃ q, Sends made (wire y) q ∧ Receives given (wire y) q := by
  intro x y wire c
  have hassemble : assemble ⟨[x, y]⟩ [] [(wire x).wire, (wire y).wire] = .ok c :=
    assemble_of_forward rfl (by simp [wire])
  have hi : ∀ e ∈ c.edges, e.wire.left.index ∈ e.wire.left.reg.indices := by
    simp [c, wire, x, y, Register.indices, shapeIndices]
  have hregs : c.regsIn 1 = [x] := rfl
  have hlands : c.Lands (wire y) := by
    refine ⟨?_, ?_, rfl, ?_⟩
    · rw [show (wire y).target = 1 from rfl, hregs]
      exact mem_portsOn.mpr ⟨rfl, List.mem_singleton_self x, List.mem_singleton_self []⟩
    · rw [show (wire y).target = 1 from rfl, hregs]
      exact fun r hr _ => List.mem_singleton.mp hr
    · intro f hf _ _
      rcases List.mem_pair.mp hf with rfl | rfl
      · exact ⟨Nat.zero_ne_one, rfl⟩
      · exact ⟨Nat.zero_ne_one, rfl⟩
  -- there is only one order of the two boundaries
  have hpriority : ∀ v w, v ≤ w → w < 2 →
      ((c.nodes.map (priority .greedy)).toArray.getD v 0) ≤
        ((c.nodes.map (priority .greedy)).toArray.getD w 0) := by
    intro v w hvw hw
    obtain rfl | ⟨rfl, rfl⟩ : v = w ∨ v = 0 ∧ w = 1 := by omega
    · exact Int.le_refl _
    · decide
  have hsorted : c.sortedNodes .greedy = .ok [0, 1] := by
    have horder := Multigraph.topologicalOrder?_eq_range (inRange_of_assemble hassemble)
      (by simp [c, wire, graph]) hpriority
    rw [sortedNodes, horder]
    rfl
  have hvisits := visits_eq hsorted (by simp [size, c])
  have hrun : emitsAlong c ([0, 1].map c.visitAt) (Quregs.named c.signature.lefts) (fun out =>
      decide ((out.get? "x").map Grid.toList = some [.named "y"])) = true := by decide +kernel
  obtain ⟨circuit, out, t, hgives, hout⟩ := exists_of_emitsAlong hvisits hrun
  obtain ⟨_, given, made, -, -, hmade, hgiven, honce, hfed, hhonoured⟩ :=
    export_delivers hassemble hi hgives
  exact ⟨hassemble, hi, hlands, circuit, out, t, hgives, of_decide_eq_true hout, given, made, hmade,
    hgiven, honce, hfed 1 Nat.one_ne_zero Nat.one_lt_two,
    hhonoured _ (List.mem_cons_of_mem _ List.mem_cons_self) hlands⟩

end Composite
end BloqCircuit
