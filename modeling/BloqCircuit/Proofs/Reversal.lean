import BloqCircuit.Bloq.Adjoint
import BloqCircuit.Proofs.Flow
/-! The adjoint of a composite whose instances have different numbers is its graph read backwards, with
every bloq replaced. Its nodes are numbered from the other end. -/
namespace BloqCircuit

/-! ## Exchanged sides -/

theorem Side.overlaps_adjoint (a b : Side) : a.adjoint.overlaps b.adjoint = a.overlaps b := by
  cases a <;> cases b <;> rfl

theorem Register.adjoint_injective : Function.Injective Register.adjoint :=
  Function.LeftInverse.injective Register.adjoint_adjoint

namespace Signature
variable {s : Signature}

theorem lefts_adjoint (s : Signature) : s.adjoint.lefts = s.rights.map Register.adjoint := by
  rw [lefts, rights, adjoint, List.filter_map]
  exact congrArg _ (List.filter_congr fun r _ => r.side.isLeft_adjoint)

theorem rights_adjoint (s : Signature) : s.adjoint.rights = s.lefts.map Register.adjoint := by
  rw [lefts, rights, adjoint, List.filter_map]
  exact congrArg _ (List.filter_congr fun r _ => r.side.isRight_adjoint)

theorem Valid.adjoint (h : s.Valid) : s.adjoint.Valid := by
  rw [valid_iff, Signature.adjoint, List.pairwise_map]
  refine (valid_iff.mp h).imp fun {a b} ho hn => ?_
  exact (Side.overlaps_adjoint a.side b.side).trans (ho hn)

end Signature

/-! ## Ports from the other end -/

/-- The port that takes a port's place when `last` is the number of the output boundary. -/
def Port.turned (last : Nat) (p : Port) : Port := ⟨last - p.node, p.index, p.reg.adjoint⟩

theorem Port.turned_turned {last : Nat} {p : Port} (h : p.node ≤ last) :
    (p.turned last).turned last = p := by
  obtain ⟨v, i, r⟩ := p
  have hv : last - (last - v) = v := Nat.sub_sub_self h
  simp [turned, hv, Register.adjoint_adjoint]

theorem mem_portsOn_turned {last v : Nat} {p : Port} {registers : List Register} (hv : v ≤ last)
    (hp : p.node ≤ last) :
    p.turned last ∈ portsOn (last - v) (registers.map Register.adjoint) ↔ p ∈ portsOn v registers := by
  rw [mem_portsOn, mem_portsOn]
  have hnode : (p.turned last).node = last - v ↔ p.node = v := by
    show last - p.node = last - v ↔ _
    omega
  have hreg : (p.turned last).reg ∈ registers.map Register.adjoint ↔ p.reg ∈ registers :=
    List.mem_map_of_injective Register.adjoint_injective
  rw [hnode, hreg]
  rfl

/-- The labels on the ports that these have taken the place of. -/
def Labels.turned (last : Nat) (L : Labels) : Labels := fun p => L (p.turned last)

theorem Labels.on_turned {last v : Nat} (hv : v ≤ last) (L : Labels) (registers : List Register) :
    (L.turned last).on (last - v) (registers.map Register.adjoint) = L.on v registers := by
  induction registers with
  | nil => rfl
  | cons r rest ih =>
    have hlabels : (fun i => L.turned last ⟨last - v, i, r.adjoint⟩) = fun i => L ⟨v, i, r⟩ := by
      funext i
      exact congrArg L (Port.turned_turned (show Port.node ⟨v, i, r⟩ ≤ last from hv))
    rw [List.map_cons, on_cons, on_cons, ih, hlabels]
    rfl

theorem nodup_map_turned {last : Nat} {ports : List Port} (hn : ports.Nodup)
    (hle : ∀ p ∈ ports, p.node ≤ last) : (ports.map (Port.turned last)).Nodup :=
  hn.map_on fun p hp q hq h => by
    rw [← Port.turned_turned (hle p hp), h, Port.turned_turned (hle q hq)]

/-- If ports are those of certain registers on each node, then from the other end they are those of
the exchanged registers. -/
theorem mem_map_turned {last : Nat} {ports : List Port} {regs regs' : Nat → List Register}
    (hle : ∀ p ∈ ports, p.node ≤ last)
    (hports : ∀ p, p ∈ ports ↔ p ∈ portsOn p.node (regs p.node))
    (hregs : ∀ v ≤ last, regs' (last - v) = (regs v).map Register.adjoint)
    (hout : ∀ v, last < v → regs' v = []) (p : Port) :
    p ∈ ports.map (Port.turned last) ↔ p ∈ portsOn p.node (regs' p.node) := by
  constructor
  · intro hp
    obtain ⟨q, hq, rfl⟩ := List.mem_map.mp hp
    have hq' := (mem_portsOn_turned (hle q hq) (hle q hq)).mpr ((hports q).mp hq)
    rwa [← hregs _ (hle q hq)] at hq'
  · intro hp
    have hle' : p.node ≤ last := by
      by_contra hlt
      rw [hout _ (Nat.not_le.mp hlt)] at hp
      cases hp
    obtain ⟨q, hq, hqp⟩ : ∃ q : Port, q.node ≤ last ∧ q.turned last = p :=
      ⟨p.turned last, Nat.sub_le _ _, Port.turned_turned hle'⟩
    subst hqp
    have hnode : (q.turned last).node = last - q.node := rfl
    rw [hnode, hregs _ hq] at hp
    exact List.mem_map_of_mem ((hports q).mpr ((mem_portsOn_turned hq hq).mp hp))

/-! ## The graph read backwards -/

namespace Composite

section
variable {β : Type} {c : Composite β} {turn : β → β}

/-- The instance in the place of an instance. -/
def turnedInstance (turn : β → β) (x : Instance β) : Instance β := ⟨x.number, turn x.bloq⟩

/-- The node in the place of a node. A placed bloq counts as the instance with its number. -/
def turnedNode (turn : β → β) (c : Composite β) : Node β → Node β
  | .leftDangle => .rightDangle
  | .rightDangle => .leftDangle
  | .placed y =>
    .placed (turnedInstance turn ((c.instances.find? (·.number == y.number)).getD y))

def turnedWire (turn : β → β) (c : Composite β) (w : Connection β) : Connection β :=
  ⟨⟨c.turnedNode turn w.right.node, w.right.reg.adjoint, w.right.index⟩,
    ⟨c.turnedNode turn w.left.node, w.left.reg.adjoint, w.left.index⟩⟩

def turnedEdge (turn : β → β) (c : Composite β) (e : Edge β) : Edge β :=
  ⟨c.instances.length + 1 - e.target, c.instances.length + 1 - e.source, c.turnedWire turn e.wire⟩

/-- The graph with its sides exchanged, its wires reversed and its bloqs replaced, all listed from
the last to the first. -/
def backwards (turn : β → β) (c : Composite β) : Composite β :=
  ⟨c.signature.adjoint, c.instances.reverse.map (turnedInstance turn),
    c.edges.reverse.map (c.turnedEdge turn)⟩

theorem length_backwards : (c.backwards turn).instances.length = c.instances.length := by
  rw [backwards, List.length_map, List.length_reverse]

theorem starts_backwards : (c.backwards turn).edges.map Edge.start =
    (c.edges.map Edge.stop).reverse.map (Port.turned (c.instances.length + 1)) := by
  rw [backwards, ← List.map_reverse, List.map_map, List.map_map]
  rfl

theorem stops_backwards : (c.backwards turn).edges.map Edge.stop =
    (c.edges.map Edge.start).reverse.map (Port.turned (c.instances.length + 1)) := by
  rw [backwards, ← List.map_reverse, List.map_map, List.map_map]
  rfl

/-- The bloq on a node is the one in the place of that on the node from the other end. -/
theorem bloqAt_backwards {v : Nat} (hv : v ≤ c.instances.length + 1) :
    (c.backwards turn).bloqAt (c.instances.length + 1 - v) = (c.bloqAt v).map turn := by
  cases v with
  | zero =>
    rw [Nat.sub_zero, ← (length_backwards : (c.backwards turn).instances.length = _), bloqAt_last]
    rfl
  | succ k =>
    by_cases hk : k < c.instances.length
    · obtain ⟨j, hj⟩ : ∃ j, c.instances.length + 1 - (k + 1) = j + 1 :=
        ⟨c.instances.length - 1 - k, by omega⟩
      have hjlt : j < c.instances.length := by omega
      have hkj : c.instances.length - 1 - j = k := by omega
      rw [hj, bloqAt, bloqAt, backwards, List.getElem?_map, List.getElem?_reverse hjlt, hkj,
        Option.map_map, Option.map_map]
      rfl
    · have hk : k = c.instances.length := by omega
      rw [hk, Nat.sub_self, bloqAt_last]
      rfl

variable [BloqKind β]

/-- A bloq whose inputs are the outputs of another, and the other way round. -/
structure Exchanges (b b' : β) : Prop where
  valid : (BloqKind.signature b').Valid
  lefts : (BloqKind.signature b').lefts = (BloqKind.signature b).rights.map Register.adjoint
  rights : (BloqKind.signature b').rights = (BloqKind.signature b).lefts.map Register.adjoint

variable {v : Nat}

theorem regsIn_backwards (h : ∀ x ∈ c.instances, Exchanges x.bloq (turn x.bloq))
    (hv : v ≤ c.instances.length + 1) :
    (c.backwards turn).regsIn (c.instances.length + 1 - v) =
      (c.regsOut v).map Register.adjoint := by
  rw [regsIn, regsOut, length_backwards, bloqAt_backwards hv]
  by_cases h0 : v = 0
  · rw [if_pos (by omega), if_pos h0]
    exact Signature.rights_adjoint _
  · rw [if_neg (by omega), if_neg h0]
    cases hb : c.bloqAt v with
    | none => rfl
    | some b =>
      obtain ⟨x, hx, rfl⟩ := exists_instance hb
      exact (h x hx).lefts

theorem regsOut_backwards (h : ∀ x ∈ c.instances, Exchanges x.bloq (turn x.bloq))
    (hv : v ≤ c.instances.length + 1) :
    (c.backwards turn).regsOut (c.instances.length + 1 - v) =
      (c.regsIn v).map Register.adjoint := by
  rw [regsIn, regsOut, bloqAt_backwards hv]
  by_cases hn : v = c.instances.length + 1
  · rw [if_pos (by omega), if_pos hn]
    exact Signature.lefts_adjoint _
  · rw [if_neg (by omega), if_neg hn]
    cases hb : c.bloqAt v with
    | none => rfl
    | some b =>
      obtain ⟨x, hx, rfl⟩ := exists_instance hb
      exact (h x hx).rights

theorem regsIn_of_lt (hv : c.instances.length + 1 < v) : c.regsIn v = [] := by
  rw [regsIn, if_neg (Nat.ne_of_gt hv)]
  cases hb : c.bloqAt v with
  | none => rfl
  | some b => exact absurd (bloqAt_lt hb).2 (Nat.not_lt.mpr (Nat.le_of_lt hv))

theorem regsOut_of_lt (hv : c.instances.length + 1 < v) : c.regsOut v = [] := by
  rw [regsOut, if_neg (Nat.ne_of_gt (Nat.lt_of_le_of_lt (Nat.zero_le _) hv))]
  cases hb : c.bloqAt v with
  | none => rfl
  | some b => exact absurd (bloqAt_lt hb).2 (Nat.not_lt.mpr (Nat.le_of_lt hv))

end

/-! ## Wires -/

section
variable {α κ : Type} [Angle α] {c : Composite (Bloq α κ)} {turn : Bloq α κ → Bloq α κ}

/-- Read backwards, wires are used once and lead forward again. -/
theorem Threaded.backwards (hc : c.Threaded)
    (h : ∀ x ∈ c.instances, Exchanges x.bloq (turn x.bloq)) : (c.backwards turn).Threaded where
  valid := hc.valid.adjoint
  validAt x hx := by
    obtain ⟨y, hy, rfl⟩ := List.mem_map.mp hx
    exact (h y (List.mem_reverse.mp hy)).valid
  stopsOnce := by
    rw [stops_backwards]
    refine nodup_map_turned (List.nodup_reverse.mpr hc.startsOnce) fun p hp => ?_
    obtain ⟨e, he, rfl⟩ := List.mem_map.mp (List.mem_reverse.mp hp)
    exact Nat.le_of_lt (Nat.lt_of_lt_of_le (hc.forward e he) (hc.target_le he))
  stops := by
    rw [stops_backwards]
    refine mem_map_turned (fun p hp => ?_) (fun p => ?_) (fun v hv => regsIn_backwards h hv)
      fun v hv => regsIn_of_lt (by rwa [length_backwards])
    · obtain ⟨e, he, rfl⟩ := List.mem_map.mp (List.mem_reverse.mp hp)
      exact Nat.le_of_lt (Nat.lt_of_lt_of_le (hc.forward e he) (hc.target_le he))
    · rw [List.mem_reverse, hc.starts]
  startsOnce := by
    rw [starts_backwards]
    refine nodup_map_turned (List.nodup_reverse.mpr hc.stopsOnce) fun p hp => ?_
    obtain ⟨e, he, rfl⟩ := List.mem_map.mp (List.mem_reverse.mp hp)
    exact hc.target_le he
  starts := by
    rw [starts_backwards]
    refine mem_map_turned (fun p hp => ?_) (fun p => ?_) (fun v hv => regsOut_backwards h hv)
      fun v hv => regsOut_of_lt (by rwa [length_backwards])
    · obtain ⟨e, he, rfl⟩ := List.mem_map.mp (List.mem_reverse.mp hp)
      exact hc.target_le he
    · rw [List.mem_reverse, hc.stops]
  agree e he := by
    obtain ⟨f, hf, rfl⟩ := List.mem_map.mp he
    exact (hc.agree f (List.mem_reverse.mp hf)).symm
  forward e he := by
    obtain ⟨f, hf, rfl⟩ := List.mem_map.mp he
    have hf := List.mem_reverse.mp hf
    have hlt := hc.forward f hf
    have hle := hc.target_le hf
    show c.instances.length + 1 - f.target < c.instances.length + 1 - f.source
    omega

end

/-! ## The adjoint -/

section
variable {β : Type} {c : Composite β} {turn : β → β}

private theorem byNumber_foldl {turned : List (Instance β)}
    (hn : (turned.map (·.number)).Nodup) (t : Std.ExtTreeMap Nat (Instance β)) :
    (∀ k, k ∉ turned.map (·.number) → (turned.foldl (fun t y => t.insert y.number y) t)[k]? = t[k]?) ∧
      ∀ y ∈ turned, (turned.foldl (fun t y => t.insert y.number y) t)[y.number]? = some y := by
  induction turned generalizing t with
  | nil => exact ⟨fun _ _ => rfl, fun y hy => absurd hy List.not_mem_nil⟩
  | cons x rest ih =>
    obtain ⟨hx, hn⟩ := List.nodup_cons.mp hn
    obtain ⟨hother, hmem⟩ := ih hn (t.insert x.number x)
    refine ⟨fun k hk => ?_, fun y hy => ?_⟩
    · rw [List.map_cons, List.mem_cons, not_or] at hk
      rw [List.foldl_cons, hother k hk.2, getElem?_insert_key, if_neg (Ne.symm hk.1)]
    · rcases List.mem_cons.mp hy with rfl | hy
      · rw [List.foldl_cons, hother _ hx, getElem?_insert_key, if_pos rfl]
      · exact hmem y hy

/-- Instances are found by their numbers. -/
theorem byNumber_turned (hn : (c.instances.map (·.number)).Nodup) {x : Instance β}
    (hx : x ∈ c.instances) :
    (byNumber (c.instances.map (turnedInstance turn)))[x.number]? = some (turnedInstance turn x) := by
  have hnumbers : ((c.instances.map (turnedInstance turn)).map (·.number)).Nodup := by
    rw [List.map_map]
    exact hn
  exact (byNumber_foldl hnumbers ∅).2 _ (List.mem_map_of_mem hx)

theorem find?_number {xs : List (Instance β)} (hn : (xs.map (·.number)).Nodup) {x : Instance β}
    (hx : x ∈ xs) : xs.find? (·.number == x.number) = some x := by
  cases hf : xs.find? (·.number == x.number) with
  | none => exact absurd (BEq.rfl : x.number == x.number) (List.find?_eq_none.mp hf x hx)
  | some y =>
    have hnumber := List.find?_some hf
    rw [beq_iff_eq] at hnumber
    rw [List.inj_on_of_nodup_map hn (List.mem_of_find?_eq_some hf) hx hnumber]

theorem getElem?_backwards {k : Nat} {x : Instance β} (hx : c.instances[k]? = some x) :
    (c.backwards turn).instances[c.instances.length - 1 - k]? = some (turnedInstance turn x) := by
  have hlt := (List.getElem?_eq_some_iff.mp hx).1
  rw [backwards, List.getElem?_map, List.getElem?_reverse (by omega),
    show c.instances.length - 1 - (c.instances.length - 1 - k) = k by omega, hx]
  rfl

theorem numbers_backwards (hn : (c.instances.map (·.number)).Nodup) :
    ((c.backwards turn).instances.map (·.number)).Nodup := by
  rw [backwards, List.map_map, List.map_reverse]
  exact List.nodup_reverse.mpr hn

variable [BloqKind β]

/-- A node is the one at the place `v`. A placed bloq counts as an instance that it equals. -/
def Stands (c : Composite β) (v : Nat) : Node β → Prop
  | .leftDangle => v = 0
  | .rightDangle => v = c.instances.length + 1
  | .placed y => ∃ k x, v = k + 1 ∧ c.instances[k]? = some x ∧ (x == y) = true

/-- The instances have different numbers, in any order, and the wires are between them and the
boundaries. -/
structure Numbered (c : Composite β) : Prop where
  numbers : (c.instances.map (·.number)).Nodup
  stands : ∀ e ∈ c.edges, c.Stands e.source e.wire.left.node ∧ c.Stands e.target e.wire.right.node

theorem Linear.numbered (hc : c.Linear) : c.Numbered := by
  have hstands : ∀ v node, c.Located v node → c.Stands v node := by
    intro v node h
    cases node with
    | leftDangle => exact h
    | rightDangle => exact h
    | placed y =>
      obtain ⟨rfl, x, hx, he⟩ := h
      exact ⟨y.number, x, rfl, hx, he⟩
  refine ⟨hc.numbers ▸ List.nodup_range, fun e he => ?_⟩
  obtain ⟨hsource, htarget⟩ := hc.located e he
  exact ⟨hstands _ _ hsource, hstands _ _ htarget⟩

private theorem number_eq_of_beq {x y : Instance β} (h : (x == y) = true) : x.number = y.number := by
  have h : (x.number == y.number && x.bloq == y.bloq) = true := h
  rw [Bool.and_eq_true] at h
  exact beq_iff_eq.mp h.1

theorem turnedNode_placed (hn : (c.instances.map (·.number)).Nodup) {k : Nat} {x y : Instance β}
    (hx : c.instances[k]? = some x) (he : (x == y) = true) :
    c.turnedNode turn (.placed y) = .placed (turnedInstance turn x) := by
  rw [turnedNode, ← number_eq_of_beq he, find?_number hn (List.mem_of_getElem? hx)]
  rfl

theorem turnNode_eq (hn : (c.instances.map (·.number)).Nodup) {v : Nat} {node : Node β}
    (h : c.Stands v node) :
    turnNode (byNumber (c.instances.map (turnedInstance turn))) node =
      .ok (c.turnedNode turn node) := by
  cases node with
  | leftDangle => rfl
  | rightDangle => rfl
  | placed y =>
    obtain ⟨k, x, -, hx, he⟩ := h
    have hfound : (byNumber (c.instances.map (turnedInstance turn)))[x.number]? = _ :=
      byNumber_turned hn (List.mem_of_getElem? hx)
    rw [turnedNode_placed hn hx he, turnNode, ← number_eq_of_beq he]
    simp only [hfound]

/-- A node that has taken the place of another has the number of that from the other end. -/
theorem stands_backwards [ReflBEq β] (hn : (c.instances.map (·.number)).Nodup) {v : Nat}
    {node : Node β} (h : c.Stands v node) :
    (c.backwards turn).Stands (c.instances.length + 1 - v) (c.turnedNode turn node) := by
  cases node with
  | leftDangle =>
    obtain rfl : v = 0 := h
    show _ = (c.backwards turn).instances.length + 1
    rw [length_backwards, Nat.sub_zero]
  | rightDangle =>
    obtain rfl : v = c.instances.length + 1 := h
    exact Nat.sub_self _
  | placed y =>
    obtain ⟨k, x, rfl, hx, he⟩ := h
    have hlt := (List.getElem?_eq_some_iff.mp hx).1
    rw [turnedNode_placed hn hx he]
    exact ⟨_, _, by omega, getElem?_backwards hx, BEq.rfl⟩

theorem nodeOf_of_stands (hn : (c.instances.map (·.number)).Nodup) {v : Nat} {node : Node β}
    (h : c.Stands v node) (r : Register) (i : List Nat) :
    nodeOf c.instances.length (numbering c.instances) ⟨node, r, i⟩ = .ok v := by
  cases node with
  | leftDangle =>
    obtain rfl : v = 0 := h
    rfl
  | rightDangle =>
    obtain rfl : v = c.instances.length + 1 := h
    rfl
  | placed y =>
    obtain ⟨k, x, rfl, hx, he⟩ := h
    have hnumber := number_eq_of_beq he
    have hmem : (k + 1, x) ∈ (numbering c.instances).getD y.number [] :=
      mem_numbering.mpr ⟨hnumber, Nat.le_add_left _ _, hx⟩
    unfold nodeOf
    simp only [nodeIndex?]
    cases hf : ((numbering c.instances).getD y.number []).find? (·.2 == y) with
    | none => exact absurd he (List.find?_eq_none.mp hf _ hmem)
    | some e =>
      -- only one instance has the number
      obtain ⟨hk, h1, hi⟩ := mem_numbering.mp (List.mem_of_find?_eq_some hf)
      have hlt : k < (c.instances.map (·.number)).length := by
        rw [List.length_map]
        exact (List.getElem?_eq_some_iff.mp hx).1
      have hindex : k = e.1 - 1 := (List.getElem?_inj hlt hn).mp (by
        rw [List.getElem?_map, List.getElem?_map, hx, hi, Option.map_some, Option.map_some, hnumber,
          hk])
      simp only [Option.map_some]
      exact congrArg Except.ok (by omega)

theorem Numbered.backwards [ReflBEq β] (hc : c.Numbered) : (c.backwards turn).Numbered := by
  refine ⟨numbers_backwards hc.numbers, fun e he => ?_⟩
  obtain ⟨f, hf, rfl⟩ := List.mem_map.mp he
  obtain ⟨hsource, htarget⟩ := hc.stands f (List.mem_reverse.mp hf)
  exact ⟨stands_backwards hc.numbers htarget, stands_backwards hc.numbers hsource⟩

/-- The adjoint of a composite is the graph read backwards. -/
theorem Numbered.adjointFrom_eq [ReflBEq β] (hc : c.Numbered)
    (hback : (c.backwards turn).graph.isAcyclic = true) :
    c.adjointFrom (c.instances.map (turnedInstance turn)) = .ok (c.backwards turn) := by
  have hconnections : (c.connections.reverse.mapM fun w => do
      let left ← turnSoquet (byNumber (c.instances.map (turnedInstance turn))) w.right
      let right ← turnSoquet (byNumber (c.instances.map (turnedInstance turn))) w.left
      return (⟨left, right⟩ : Connection β)) =
        .ok (c.connections.reverse.map (c.turnedWire turn)) := by
    refine mapM_eq_ok fun w hw => ?_
    obtain ⟨e, he, rfl⟩ := List.mem_map.mp (List.mem_reverse.mp hw)
    obtain ⟨hsource, htarget⟩ := hc.stands e he
    rw [turnSoquet, turnSoquet, turnNode_eq hc.numbers hsource, turnNode_eq hc.numbers htarget]
    rfl
  have hinstances : c.instances.reverse.filterMap
      (fun x => (byNumber (c.instances.map (turnedInstance turn)))[x.number]?) =
        (c.backwards turn).instances := by
    have hsome : ∀ x ∈ c.instances.reverse,
        (byNumber (c.instances.map (turnedInstance turn)))[x.number]? = some (turnedInstance turn x) :=
      fun _ hx => byNumber_turned hc.numbers (List.mem_reverse.mp hx)
    exact (List.filterMap_congr hsome).trans (congrFun List.filterMap_eq_map _)
  have hedges : edgesOf (c.backwards turn).instances (c.connections.reverse.map (c.turnedWire turn)) =
      .ok (c.backwards turn).edges := by
    have hwires : c.connections.reverse.map (c.turnedWire turn) =
        c.edges.reverse.map fun e => c.turnedWire turn e.wire := by
      rw [connections, ← List.map_reverse, List.map_map]
      rfl
    rw [hwires]
    refine mapM_map_eq_ok fun e he => ?_
    obtain ⟨hsource, htarget⟩ := hc.stands e (List.mem_reverse.mp he)
    have hnumbers : ((c.backwards turn).instances.map (·.number)).Nodup := numbers_backwards hc.numbers
    show (do
      let source ← nodeOf _ _ (c.turnedWire turn e.wire).left
      let target ← nodeOf _ _ (c.turnedWire turn e.wire).right
      return (⟨source, target, c.turnedWire turn e.wire⟩ : Edge β)) = _
    rw [turnedWire, nodeOf_of_stands hnumbers (stands_backwards hc.numbers htarget),
      nodeOf_of_stands hnumbers (stands_backwards hc.numbers hsource)]
    rfl
  refine bind_eq_ok.mpr ⟨_, hconnections, ?_⟩
  rw [hinstances]
  exact bind_eq_ok.mpr ⟨_, hedges, if_pos hback⟩

end

section
variable {α κ : Type} [Angle α] {c : Composite (Bloq α κ)}

theorem Threaded.isAcyclic (hc : c.Threaded) : c.graph.isAcyclic = true := by
  obtain ⟨hg, hf⟩ := hc.inRange
  obtain ⟨order, ho⟩ := Multigraph.exists_topologicalOrder? (fun _ => 0) hg hf
  rw [Multigraph.isAcyclic, ho]
  rfl

/-- A composite has an adjoint if the adjoints of its bloqs exchange inputs and outputs. -/
theorem Numbered.adjoint_eq (hn : c.Numbered) (hc : c.Threaded)
    (h : ∀ x ∈ c.instances, Exchanges x.bloq x.bloq.adjointOf) :
    c.adjoint = .ok (c.backwards Bloq.adjointOf) := by
  rw [adjoint, turnInstances_eq_map]
  exact hn.adjointFrom_eq (hc.backwards h).isAcyclic

theorem Linear.adjoint_eq (hc : c.Linear)
    (h : ∀ x ∈ c.instances, Exchanges x.bloq x.bloq.adjointOf) :
    c.adjoint = .ok (c.backwards Bloq.adjointOf) :=
  hc.numbered.adjoint_eq hc.threaded h

end

end Composite
end BloqCircuit
