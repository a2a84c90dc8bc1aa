import Mathlib.Data.List.Perm.Subperm
import BloqCircuit.Composite
import BloqCircuit.Proofs.Bookkeeping
import BloqCircuit.Proofs.Order
import BloqCircuit.Scalar.Double
/-! Linear composites: every wire end is used exactly once, and wires lead forward. Builders keep
what makes their composites linear. -/
namespace BloqCircuit

theorem Instance.number_eq {β : Type} {xs : List (Instance β)}
    (h : xs.map (·.number) = List.range xs.length) {k : Nat} {x : Instance β}
    (hx : xs[k]? = some x) : x.number = k := by
  have hk : (xs.map (·.number))[k]? = some x.number := by simp [hx]
  rw [h, List.getElem?_range (List.getElem?_eq_some_iff.mp hx).1] at hk
  exact (Option.some.inj hk).symm

/-! ## Linear composites -/

namespace Composite
variable {β : Type} [BloqKind β]

/-- The ports at which wires end: inputs of instances and outputs of the composite. -/
def inPorts (c : Composite β) : List Port :=
  (c.instances.flatMap fun x => portsOn (x.number + 1) (BloqKind.signature x.bloq).lefts) ++
    portsOn (c.instances.length + 1) c.signature.rights

/-- The ports at which wires start: inputs of the composite and outputs of instances. -/
def outPorts (c : Composite β) : List Port :=
  portsOn 0 c.signature.lefts ++
    c.instances.flatMap fun x => portsOn (x.number + 1) (BloqKind.signature x.bloq).rights

/-- A node is the one with the number `v`. A placed bloq counts as the instance that it equals. -/
def Located (c : Composite β) (v : Nat) : Node β → Prop
  | .leftDangle => v = 0
  | .rightDangle => v = c.instances.length + 1
  | .placed y => v = y.number + 1 ∧ ∃ x, c.instances[y.number]? = some x ∧ (x == y) = true

/-- Every port is one end of exactly one wire, wires join ports of one type, and they lead from
lesser to greater numbers. -/
structure Linear (c : Composite β) : Prop where
  valid : c.signature.Valid
  validAt : ∀ x ∈ c.instances, (BloqKind.signature x.bloq).Valid
  numbers : c.instances.map (·.number) = List.range c.instances.length
  stopsOnce : (c.edges.map Edge.stop).Nodup
  stops : ∀ p, p ∈ c.edges.map Edge.stop ↔ p ∈ c.inPorts
  startsOnce : (c.edges.map Edge.start).Nodup
  starts : ∀ p, p ∈ c.edges.map Edge.start ↔ p ∈ c.outPorts
  agree : ∀ e ∈ c.edges, e.wire.left.reg.bitsize = e.wire.right.reg.bitsize ∧
    e.wire.left.reg.dtype.isQuantum = e.wire.right.reg.dtype.isQuantum
  located : ∀ e ∈ c.edges, c.Located e.source e.wire.left.node ∧
    c.Located e.target e.wire.right.node
  forward : ∀ e ∈ c.edges, e.source < e.target

end Composite

/-! ## Sound builders -/

namespace Builder

variable {β : Type} [BloqKind β]

/-- The ports of all soquets produced so far. -/
def outPorts (b : Builder β) : List Port :=
  portsOn 0 (⟨b.registers⟩ : Signature).lefts ++
    b.instances.toList.flatMap fun x => portsOn (x.number + 1) (BloqKind.signature x.bloq).rights

/-- The ports of all soquets consumed so far. -/
def usedPorts (b : Builder β) : List Port := b.connections.toList.map (·.left.port)

/-- A node on which soquets are produced, as it stands in the list of instances. -/
def Produces (b : Builder β) (node : Node β) : Prop :=
  node = .leftDangle ∨ ∃ x, node = .placed x ∧ b.instances[x.number]? = some x

/-- A node that equals one on which soquets are produced. -/
def Meets (b : Builder β) (node : Node β) : Prop :=
  node = .leftDangle ∨ ∃ x y, node = .placed y ∧ b.instances[y.number]? = some x ∧ (x == y) = true

/-- What every sequence of calls keeps. -/
structure Sound (b : Builder β) : Prop where
  next : b.next = b.instances.size
  numbers : b.instances.toList.map (·.number) = List.range b.instances.toList.length
  valid : (⟨b.registers⟩ : Signature).Valid
  validAt : ∀ x ∈ b.instances, (BloqKind.signature x.bloq).Valid
  port : ∀ p (t : Soquet β), b.available[p]? = some t → t.port = p ∧ b.Produces t.node
  there : ∀ p, (∃ t, b.available[p]? = some t) ↔ p ∈ b.outPorts ∧ p ∉ b.usedPorts
  used : ∀ p ∈ b.usedPorts, p ∈ b.outPorts
  once : b.usedPorts.Nodup
  rights : b.connections.toList.map (·.right) = b.instances.toList.flatMap fun x =>
    soquetsOn (.placed x) (BloqKind.signature x.bloq).lefts
  agree : ∀ w ∈ b.connections, w.left.reg.dtype.isConsistentWith w.right.reg.dtype = true
  meets : ∀ w ∈ b.connections, b.Meets w.left.node
  forward : ∀ w ∈ b.connections, w.left.port.node < w.right.port.node

variable {b : Builder β}

theorem Sound.empty : Sound ({} : Builder β) where
  next := rfl
  numbers := rfl
  valid := rfl
  validAt x hx := by simp at hx
  port p t h := by simp at h
  there p := by simp [outPorts, portsOn, Signature.lefts]
  used p hp := by simp [usedPorts] at hp
  once := List.nodup_nil
  rights := rfl
  agree w hw := by simp at hw
  meets w hw := by simp at hw
  forward w hw := by simp at hw

/-- A soquet that equals a produced one sits on a node that equals the node of the other. -/
theorem Produces.meets {s t : Soquet β} (h : b.Produces t.node) (hs : (t == s) = true) :
    b.Meets s.node := by
  obtain ⟨n, r, i⟩ := s
  obtain ⟨n', r', i'⟩ := t
  change Soquet.same _ _ = true at hs
  rcases h with h | ⟨x, h, hx⟩
  · obtain rfl : n' = .leftDangle := h
    cases n <;> simp [Soquet.same] at hs
    exact .inl rfl
  · obtain rfl : n' = .placed x := h
    cases n with
    | leftDangle => simp [Soquet.same] at hs
    | rightDangle => simp [Soquet.same] at hs
    | placed y =>
      simp only [Soquet.same, Bool.and_eq_true, beq_iff_eq] at hs
      obtain ⟨⟨⟨hn, -⟩, -⟩, hb⟩ := hs
      refine .inr ⟨x, y, rfl, hn ▸ hx, ?_⟩
      show (x.number == y.number && x.bloq == y.bloq) = true
      simp [hn, hb]

theorem mem_outPorts {p : Port} :
    p ∈ b.outPorts ↔ p ∈ portsOn 0 (⟨b.registers⟩ : Signature).lefts ∨
      ∃ x ∈ b.instances, p ∈ portsOn (x.number + 1) (BloqKind.signature x.bloq).rights := by
  simp [outPorts]

theorem Sound.number_lt (h : b.Sound) {x : Instance β} (hx : x ∈ b.instances) :
    x.number < b.instances.size := by
  obtain ⟨k, hk⟩ := List.mem_iff_getElem?.mp (Array.mem_toList_iff.mpr hx)
  rw [Instance.number_eq h.numbers hk]
  exact (List.getElem?_eq_some_iff.mp hk).1

theorem Sound.node_le (h : b.Sound) {p : Port} (hp : p ∈ b.outPorts) :
    p.node ≤ b.instances.size := by
  rcases mem_outPorts.mp hp with hp | ⟨x, hx, hp⟩
  · rw [(mem_portsOn.mp hp).1]
    exact Nat.zero_le _
  · rw [(mem_portsOn.mp hp).1]
    exact h.number_lt hx

/-- The ports of the next node are none of those that are there. -/
theorem Sound.not_mem_outPorts (h : b.Sound) {p : Port} {registers : List Register}
    (hp : p ∈ portsOn (b.next + 1) registers) : p ∉ b.outPorts := by
  intro hm
  have hle := h.node_le hm
  rw [(mem_portsOn.mp hp).1, h.next] at hle
  omega

/-- Registers that are no inputs do not change what is sound. -/
theorem Sound.withRegisters (h : b.Sound) {registers : List Register}
    (hv : (⟨registers⟩ : Signature).Valid)
    (hl : (⟨registers⟩ : Signature).lefts = (⟨b.registers⟩ : Signature).lefts) :
    Sound { b with registers := registers } := by
  have ho : outPorts { b with registers := registers } = b.outPorts := by
    simp [outPorts, hl]
  refine ⟨h.next, h.numbers, hv, h.validAt, h.port, ?_, ?_, h.once, h.rights, h.agree, h.meets,
    h.forward⟩
  · rw [ho]
    exact h.there
  · rw [ho]
    exact h.used

theorem Sound.withOpen (h : b.Sound) (isOpen : Bool) : Sound { b with isOpen := isOpen } :=
  ⟨h.next, h.numbers, h.valid, h.validAt, h.port, h.there, h.used, h.once, h.rights, h.agree,
    h.meets, h.forward⟩

/-- The ports of a new input register are not there yet. -/
theorem input_fresh {reg : Register} (hv : (⟨b.registers ++ [reg]⟩ : Signature).Valid)
    (hl : reg.side.isLeft = true) : ∀ p ∈ portsOn 0 [reg], p ∉ b.outPorts := by
  have hnodup : ((⟨b.registers⟩ : Signature).lefts ++ [reg]).Nodup := by
    have hn := hv.nodup_lefts.of_map _
    rwa [Signature.lefts, List.filter_append, List.filter_singleton, hl, cond_true] at hn
  intro p hp hm
  obtain ⟨h0, hr, -⟩ := mem_portsOn.mp hp
  rcases mem_outPorts.mp hm with hm | ⟨x, -, hm⟩
  · exact (List.nodup_append.mp hnodup).2.2 _ (mem_portsOn.mp hm).2.1 _ hr rfl
  · rw [(mem_portsOn.mp hm).1] at h0
    cases h0

/-- A new input register produces its soquets on the left boundary. -/
theorem Sound.addInput (h : b.Sound) {reg : Register}
    (hv : (⟨b.registers ++ [reg]⟩ : Signature).Valid) (hl : reg.side.isLeft = true) :
    Sound (produce (soquetsOn .leftDangle [reg]) { b with registers := b.registers ++ [reg] }) := by
  have hports : (soquetsOn (.leftDangle : Node β) [reg]).map Soquet.port = portsOn 0 [reg] :=
    port_soquetsOn_leftDangle [reg]
  have hlefts : (⟨b.registers ++ [reg]⟩ : Signature).lefts =
      (⟨b.registers⟩ : Signature).lefts ++ [reg] := by
    simp [Signature.lefts, List.filter_append, hl]
  have hnew := input_fresh (b := b) hv hl
  have hout : ∀ p, p ∈ outPorts (produce (soquetsOn .leftDangle [reg])
      { b with registers := b.registers ++ [reg] }) ↔ p ∈ b.outPorts ∨ p ∈ portsOn 0 [reg] := by
    intro p
    rw [mem_outPorts, mem_outPorts, or_right_comm]
    refine or_congr_left ?_
    show p ∈ portsOn 0 (⟨b.registers ++ [reg]⟩ : Signature).lefts ↔ _
    rw [hlefts]
    simp only [mem_portsOn, List.mem_append]
    tauto
  -- only what is available and the outputs of the boundary change
  refine ⟨h.next, h.numbers, hv, h.validAt, ?_, ?_, ?_, h.once, h.rights, h.agree, h.meets,
    h.forward⟩
  · intro p t ht
    by_cases hp : p ∈ portsOn 0 [reg]
    · obtain ⟨s, hs, rfl⟩ := List.mem_map.mp (hports ▸ hp)
      rw [produce_available_of_mem (hports ▸ nodup_portsOn (List.nodup_singleton reg)) hs] at ht
      cases ht
      refine ⟨rfl, .inl ?_⟩
      simp only [soquetsOn, List.mem_flatMap, List.mem_map] at hs
      obtain ⟨-, -, -, -, rfl⟩ := hs
      rfl
    · rw [produce_available_of_not_mem (hports ▸ hp)] at ht
      exact h.port p t ht
  · intro p
    rw [hout]
    by_cases hp : p ∈ portsOn 0 [reg]
    · obtain ⟨s, hs, rfl⟩ := List.mem_map.mp (hports ▸ hp)
      rw [produce_available_of_mem (hports ▸ nodup_portsOn (List.nodup_singleton reg)) hs]
      exact ⟨fun _ => ⟨.inr hp, fun hu => hnew _ hp (h.used _ hu)⟩, fun _ => ⟨s, rfl⟩⟩
    · rw [produce_available_of_not_mem (hports ▸ hp)]
      simp only [hp, or_false]
      exact h.there p
  · intro p hp
    exact (hout p).mpr (.inl (h.used p hp))

section
variable {x : Instance β} {ws : List (Connection β)}

theorem instances_place_drawAll : ((b.drawAll ws).place x).instances = b.instances.push x :=
  congrArg (Array.push · x) (instances_drawAll b ws)

theorem connections_place_drawAll :
    ((b.drawAll ws).place x).connections = b.connections ++ ws.toArray :=
  connections_drawAll b ws

theorem usedPorts_place_drawAll :
    ((b.drawAll ws).place x).usedPorts = b.usedPorts ++ ws.map (·.left.port) := by
  rw [usedPorts, connections_place_drawAll, Array.toList_append, List.map_append]
  rfl

theorem mem_outPorts_place_drawAll {p : Port} : p ∈ ((b.drawAll ws).place x).outPorts ↔
    p ∈ b.outPorts ∨ p ∈ portsOn (x.number + 1) (BloqKind.signature x.bloq).rights := by
  have hregisters : ((b.drawAll ws).place x).registers = b.registers := registers_drawAll b ws
  rw [outPorts, hregisters, instances_place_drawAll, Array.toList_push, List.flatMap_append,
    List.flatMap_singleton, ← List.append_assoc, List.mem_append]
  rfl

/-- What was available is so after placing, unless a wire took it; the new outputs are as well. -/
theorem available_place_drawAll (hn : (BloqKind.signature x.bloq).rights.Nodup) (p : Port) :
    ((b.drawAll ws).place x).available[p]? =
      if p ∈ portsOn (x.number + 1) (BloqKind.signature x.bloq).rights
      then some ⟨.placed x, p.reg, p.index⟩
      else if p ∈ ws.map (·.left.port) then none else b.available[p]? := by
  rw [place_available _ _ hn, drawAll_available]

theorem getElem?_place_drawAll {k : Nat} {y : Instance β} (h : b.instances[k]? = some y) :
    ((b.drawAll ws).place x).instances[k]? = some y := by
  rw [instances_place_drawAll, Array.getElem?_push,
    if_neg (Nat.ne_of_lt (Array.getElem?_eq_some_iff.mp h).1), h]

theorem Produces.place_drawAll {node : Node β} (h : b.Produces node) :
    ((b.drawAll ws).place x).Produces node := by
  refine h.imp_right ?_
  rintro ⟨y, hy, hi⟩
  exact ⟨y, hy, getElem?_place_drawAll hi⟩

theorem Meets.place_drawAll {node : Node β} (h : b.Meets node) :
    ((b.drawAll ws).place x).Meets node := by
  refine h.imp_right ?_
  rintro ⟨y, z, hz, hi, he⟩
  exact ⟨y, z, hz, getElem?_place_drawAll hi, he⟩

theorem mem_connections_place_drawAll {w : Connection β} :
    w ∈ ((b.drawAll ws).place x).connections ↔ w ∈ b.connections ∨ w ∈ ws := by
  rw [connections_place_drawAll, Array.mem_append]
  exact or_congr_right List.mem_toArray

end

/-- A wire that can be drawn begins at a port that is not used yet. -/
theorem Drawable.fresh {ws : List (Connection β)} (hd : b.Drawable ws) (h : b.Sound)
    {w : Connection β} (hw : w ∈ ws) : w.left.port ∈ b.outPorts ∧ w.left.port ∉ b.usedPorts := by
  obtain ⟨t, ht, -⟩ := hd.there w hw
  exact (h.there _).mp ⟨t, ht⟩

theorem Drawable.fresh_port {ws : List (Connection β)} (hd : b.Drawable ws) (h : b.Sound) :
    ∀ p ∈ ws.map (·.left.port), p ∈ b.outPorts ∧ p ∉ b.usedPorts := by
  intro p hp
  obtain ⟨w, hw, rfl⟩ := List.mem_map.mp hp
  exact hd.fresh h hw

theorem Drawable.nodup_used {ws : List (Connection β)} (hd : b.Drawable ws) (h : b.Sound) :
    (b.usedPorts ++ ws.map (·.left.port)).Nodup := by
  refine List.nodup_append.mpr ⟨h.once, hd.once, ?_⟩
  rintro p hp q hq rfl
  exact (hd.fresh_port h p hq).2 hp

theorem Drawable.meets {ws : List (Connection β)} (hd : b.Drawable ws) (h : b.Sound)
    {w : Connection β} (hw : w ∈ ws) : b.Meets w.left.node := by
  obtain ⟨t, ht, hs⟩ := hd.there w hw
  exact (h.port _ t ht).2.meets hs

/-- Wires that use up all that is available leave every output used exactly once. -/
theorem Drawable.exhausts {ws : List (Connection β)} (hd : b.Drawable ws) (h : b.Sound)
    (he : ∀ p : Port, (b.drawAll ws).available[p]? = none) :
    (b.usedPorts ++ ws.map (·.left.port)).Nodup ∧
      ∀ p, p ∈ b.usedPorts ++ ws.map (·.left.port) ↔ p ∈ b.outPorts := by
  refine ⟨hd.nodup_used h, fun p => ?_⟩
  rw [List.mem_append]
  constructor
  · exact fun hp => hp.elim (h.used p) fun hp => (hd.fresh_port h p hp).1
  · intro hp
    by_contra hn
    rw [not_or] at hn
    obtain ⟨t, ht⟩ := (h.there p).mpr ⟨hp, hn.1⟩
    have hp := he p
    rw [drawAll_available, if_neg hn.2, ht] at hp
    cases hp

/-- After placing, the ports that are available are the outputs that no wire uses. -/
theorem Sound.there_place (h : b.Sound) {bloq : β} (hv : (BloqKind.signature bloq).Valid)
    {ws : List (Connection β)} (hd : b.Drawable ws) (p : Port) :
    (∃ t, ((b.drawAll ws).place ⟨b.next, bloq⟩).available[p]? = some t) ↔
      p ∈ ((b.drawAll ws).place ⟨b.next, bloq⟩).outPorts ∧
        p ∉ ((b.drawAll ws).place ⟨b.next, bloq⟩).usedPorts := by
  rw [mem_outPorts_place_drawAll, usedPorts_place_drawAll, List.mem_append,
    available_place_drawAll hv.nodup_rights.of_map]
  by_cases hp : p ∈ portsOn (b.next + 1) (BloqKind.signature bloq).rights
  · rw [if_pos hp]
    refine ⟨fun _ => ⟨.inr hp, ?_⟩, fun _ => ⟨_, rfl⟩⟩
    rintro (hu | hu)
    · exact h.not_mem_outPorts hp (h.used p hu)
    · exact h.not_mem_outPorts hp (hd.fresh_port h p hu).1
  · rw [if_neg hp]
    by_cases hw : p ∈ ws.map (·.left.port)
    · simp [hw]
    · simp only [hw, hp, if_false, or_false]
      exact h.there p

theorem Sound.forward_place (h : b.Sound) {bloq : β} {ws : List (Connection β)} (hd : b.Drawable ws)
    (hr : ws.map (·.right) = soquetsOn (.placed ⟨b.next, bloq⟩) (BloqKind.signature bloq).lefts) :
    ∀ w ∈ ((b.drawAll ws).place ⟨b.next, bloq⟩).connections,
      w.left.port.node < w.right.port.node := by
  intro w hw
  rcases mem_connections_place_drawAll.mp hw with hw | hw
  · exact h.forward w hw
  · have hle := h.node_le (hd.fresh h hw).1
    have hright : w.right ∈ ws.map (·.right) := List.mem_map_of_mem hw
    rw [hr] at hright
    simp only [soquetsOn, List.mem_flatMap, List.mem_map] at hright
    obtain ⟨r, -, i, -, hright⟩ := hright
    rw [← hright]
    show w.left.port.node < b.next + 1
    rw [h.next]
    omega

/-- Drawing wires into a node and then placing it keeps a builder sound. -/
theorem Sound.place (h : b.Sound) {bloq : β} (hv : (BloqKind.signature bloq).Valid)
    {ws : List (Connection β)} (hd : b.Drawable ws)
    (hr : ws.map (·.right) = soquetsOn (.placed ⟨b.next, bloq⟩) (BloqKind.signature bloq).lefts) :
    Sound ((b.drawAll ws).place ⟨b.next, bloq⟩) := by
  have hnodup : (BloqKind.signature bloq).rights.Nodup := hv.nodup_rights.of_map
  constructor
  case next =>
    rw [instances_place_drawAll, Array.size_push, ← h.next]
    exact congrArg (· + 1) (next_drawAll b ws)
  case numbers =>
    rw [instances_place_drawAll, Array.toList_push, List.map_append, h.numbers, List.length_append,
      List.length_singleton, List.range_succ]
    simp [h.next]
  case valid =>
    rw [show ((b.drawAll ws).place _).registers = b.registers from registers_drawAll b ws]
    exact h.valid
  case validAt =>
    intro y hy
    rw [instances_place_drawAll] at hy
    rcases Array.mem_push.mp hy with hy | rfl
    · exact h.validAt y hy
    · exact hv
  case port =>
    intro p t ht
    rw [available_place_drawAll hnodup] at ht
    split at ht
    · next hp =>
      cases ht
      have hnode := (mem_portsOn.mp hp).1.symm
      refine ⟨congrArg (fun v => (⟨v, p.index, p.reg⟩ : Port)) hnode, .inr ⟨_, rfl, ?_⟩⟩
      rw [instances_place_drawAll, h.next, Array.getElem?_push, if_pos rfl]
    · split at ht
      · cases ht
      · exact (h.port p t ht).imp_right Produces.place_drawAll
  case there => exact h.there_place hv hd
  case used =>
    intro p hp
    rw [usedPorts_place_drawAll, List.mem_append] at hp
    exact mem_outPorts_place_drawAll.mpr (.inl (hp.elim (h.used p) fun hp => (hd.fresh_port h p hp).1))
  case once =>
    rw [usedPorts_place_drawAll]
    exact hd.nodup_used h
  case rights =>
    rw [connections_place_drawAll, instances_place_drawAll, Array.toList_append, List.map_append,
      h.rights, hr, Array.toList_push, List.flatMap_append, List.flatMap_singleton]
  case agree =>
    intro w hw
    exact (mem_connections_place_drawAll.mp hw).elim (h.agree w) (hd.agree w)
  case meets =>
    intro w hw
    exact ((mem_connections_place_drawAll.mp hw).elim (h.meets w) (hd.meets h)).place_drawAll
  case forward => exact h.forward_place hd hr

end Builder

/-! ## Assembling -/

namespace Composite
variable {β : Type}

private theorem mem_foldl_numbering {k : Nat} {e : Nat × Instance β} (es : List (Instance β × Nat))
    (t : Numbering β) :
    e ∈ (es.foldl (fun t e => t.alter e.1.number fun old => some ((e.2, e.1) :: old.getD []))
      t).getD k [] ↔ (e.2.number = k ∧ (e.2, e.1) ∈ es) ∨ e ∈ t.getD k [] := by
  induction es generalizing t with
  | nil => simp
  | cons d es ih =>
    rw [List.foldl_cons, ih, Std.ExtTreeMap.getD_alter, List.mem_cons]
    simp only [Std.LawfulEqOrd.compare_eq_iff_eq, ← Std.ExtTreeMap.getD_eq_getD_getElem?]
    obtain ⟨x, n⟩ := d
    obtain ⟨m, y⟩ := e
    by_cases hk : x.number = k
    · subst hk
      simp only [if_true, Option.getD_some, List.mem_cons, Prod.mk.injEq]
      constructor
      · rintro (⟨hn, hy⟩ | ⟨rfl, rfl⟩ | hy)
        · exact .inl ⟨hn, .inr hy⟩
        · exact .inl ⟨rfl, .inl ⟨rfl, rfl⟩⟩
        · exact .inr hy
      · rintro (⟨hn, ⟨rfl, rfl⟩ | hy⟩ | hy)
        · exact .inr (.inl ⟨rfl, rfl⟩)
        · exact .inl ⟨hn, hy⟩
        · exact .inr (.inr hy)
    · simp only [if_neg hk, Prod.mk.injEq]
      constructor
      · rintro (⟨hn, hy⟩ | hy)
        · exact .inl ⟨hn, .inr hy⟩
        · exact .inr hy
      · rintro (⟨hn, ⟨rfl, rfl⟩ | hy⟩ | hy)
        · exact absurd hn hk
        · exact .inl ⟨hn, hy⟩
        · exact .inr hy

theorem mem_numbering {instances : List (Instance β)} {k : Nat} {e : Nat × Instance β} :
    e ∈ (numbering instances).getD k [] ↔
      e.2.number = k ∧ 1 ≤ e.1 ∧ instances[e.1 - 1]? = some e.2 := by
  rw [numbering, mem_foldl_numbering, List.mk_mem_zipIdx_iff_le_and_getElem?_sub]
  simp

/-- The number under which a node is known among `count` instances. -/
def numberOf (count : Nat) : Node β → Nat
  | .leftDangle => 0
  | .rightDangle => count + 1
  | .placed y => y.number + 1

theorem inRange_graph {c : Composite β} (h : ∀ e ∈ c.edges, e.source < e.target ∧ e.target < c.size) :
    c.graph.InRange ∧ ∀ e ∈ c.graph.edges, e.1 < e.2 := by
  constructor
  · intro e he
    obtain ⟨f, hf, rfl⟩ := List.mem_map.mp he
    exact ⟨(h f hf).1.trans (h f hf).2, (h f hf).2⟩
  · intro e he
    obtain ⟨f, hf, rfl⟩ := List.mem_map.mp he
    exact (h f hf).1

variable [BloqKind β]

/-- A soquet whose node is found sits on a boundary or has the number of an instance. -/
theorem cases_of_nodeOf {instances : List (Instance β)} {s : Soquet β} {v : Nat}
    (h : nodeOf instances.length (numbering instances) s = .ok v) :
    (s.node = .leftDangle ∧ v = 0) ∨ (s.node = .rightDangle ∧ v = instances.length + 1) ∨
      ∃ x y, s.node = .placed y ∧ 1 ≤ v ∧ instances[v - 1]? = some x ∧ x.number = y.number := by
  unfold nodeOf at h
  split at h
  · next i hi =>
    cases h
    cases hs : s.node with
    | leftDangle =>
      rw [hs] at hi
      exact .inl ⟨rfl, (Option.some.inj hi).symm⟩
    | rightDangle =>
      rw [hs] at hi
      exact .inr (.inl ⟨rfl, (Option.some.inj hi).symm⟩)
    | placed y =>
      rw [hs, nodeIndex?, Option.map_eq_some_iff] at hi
      obtain ⟨e, he, rfl⟩ := hi
      obtain ⟨hnumber, h1, hx⟩ := mem_numbering.mp (List.mem_of_find?_eq_some he)
      exact .inr (.inr ⟨e.2, y, rfl, h1, hx, hnumber⟩)
  · cases h

theorem nodeOf_eq {instances : List (Instance β)}
    (hn : instances.map (·.number) = List.range instances.length) {s : Soquet β}
    (h : ∀ y, s.node = .placed y → ∃ x, instances[y.number]? = some x ∧ (x == y) = true) :
    nodeOf instances.length (numbering instances) s =
      .ok (numberOf instances.length s.node) := by
  unfold nodeOf
  obtain ⟨node, reg, i⟩ := s
  cases node with
  | leftDangle => rfl
  | rightDangle => rfl
  | placed y =>
    obtain ⟨x, hx, he⟩ := h y rfl
    have hmem : (y.number + 1, x) ∈ (numbering instances).getD y.number [] :=
      mem_numbering.mpr ⟨Instance.number_eq hn hx, Nat.le_add_left _ _, hx⟩
    cases hf : ((numbering instances).getD y.number []).find? (·.2 == y) with
    | none => exact absurd he (List.find?_eq_none.mp hf _ hmem)
    | some e =>
      obtain ⟨hk, h1, hi⟩ := mem_numbering.mp (List.mem_of_find?_eq_some hf)
      have he1 : e.1 = y.number + 1 := by
        have := Instance.number_eq hn hi
        omega
      simp [nodeIndex?, hf, he1, numberOf]

/-- The edge of a wire among `count` instances. -/
def edgeOf (count : Nat) (w : Connection β) : Edge β :=
  ⟨numberOf count w.left.node, numberOf count w.right.node, w⟩

theorem edgesOf_eq {instances : List (Instance β)}
    (hn : instances.map (·.number) = List.range instances.length)
    {connections : List (Connection β)}
    (hl : ∀ w ∈ connections, ∀ y, w.left.node = .placed y →
      ∃ x, instances[y.number]? = some x ∧ (x == y) = true)
    (hr : ∀ w ∈ connections, ∀ y, w.right.node = .placed y →
      ∃ x, instances[y.number]? = some x ∧ (x == y) = true) :
    edgesOf instances connections = .ok (connections.map (edgeOf instances.length)) := by
  refine mapM_eq_ok fun w hw => ?_
  rw [nodeOf_eq hn (hl w hw), nodeOf_eq hn (hr w hw)]
  rfl

/-- Wires that lead forward make no cycle. -/
theorem assemble_of_forward {signature : Signature} {instances : List (Instance β)}
    {connections : List (Connection β)} {es : List (Edge β)}
    (he : edgesOf instances connections = .ok es)
    (hf : ∀ e ∈ es, e.source < e.target ∧ e.target < instances.length + 2) :
    assemble signature instances connections = .ok ⟨signature, instances, es⟩ := by
  have hacyclic : (⟨signature, instances, es⟩ : Composite β).graph.isAcyclic = true := by
    obtain ⟨hg, hf⟩ := inRange_graph (c := ⟨signature, instances, es⟩) hf
    obtain ⟨order, ho⟩ := Multigraph.exists_topologicalOrder? (fun _ => 0) hg hf
    rw [Multigraph.isAcyclic, ho]
    rfl
  rw [assemble, he]
  exact if_pos hacyclic

end Composite

namespace Builder
variable {β : Type} [BloqKind β] {b : Builder β}

/-- The wires of a sound builder end at the inputs of its instances. -/
theorem Sound.right_mem (h : b.Sound) {w : Connection β} (hw : w ∈ b.connections) :
    ∃ x ∈ b.instances, ∃ r ∈ (BloqKind.signature x.bloq).lefts, ∃ i ∈ r.indices,
      w.right = ⟨.placed x, r, i⟩ := by
  have hr : w.right ∈ b.connections.toList.map (·.right) :=
    List.mem_map_of_mem (Array.mem_toList_iff.mpr hw)
  rw [h.rights, List.mem_flatMap] at hr
  obtain ⟨x, hx, hr⟩ := hr
  simp only [soquetsOn, List.mem_flatMap, List.mem_map] at hr
  obtain ⟨r, hr, i, hi, hw⟩ := hr
  exact ⟨x, Array.mem_toList_iff.mp hx, r, hr, i, hi, hw.symm⟩

theorem Meets.start_edgeOf {w : Connection β} (h : b.Meets w.left.node) (count : Nat) :
    (Composite.edgeOf count w).start = w.left.port := by
  rcases h with h | ⟨x, y, h, -⟩
  · simp [Composite.edgeOf, Edge.start, Soquet.port, Composite.numberOf, h]
  · simp [Composite.edgeOf, Edge.start, Soquet.port, Composite.numberOf, h]

theorem stops_edgeOf {xs : List (Instance β)} {connections : List (Connection β)}
    {registers : List Register} (count : Nat)
    (hr : connections.map (·.right) = (xs.flatMap fun x =>
      soquetsOn (.placed x) (BloqKind.signature x.bloq).lefts) ++ soquetsOn .rightDangle registers) :
    (connections.map (Composite.edgeOf count)).map Edge.stop = (xs.flatMap fun x =>
      portsOn (x.number + 1) (BloqKind.signature x.bloq).lefts) ++ portsOn (count + 1) registers := by
  have hp : (connections.map (Composite.edgeOf count)).map Edge.stop =
      (connections.map (·.right)).map fun s => ⟨Composite.numberOf count s.node, s.index, s.reg⟩ := by
    rw [List.map_map, List.map_map]
    rfl
  rw [hp, hr]
  simp only [List.map_append, List.map_flatMap, soquetsOn, portsOn, List.map_map]
  rfl

/-- The composite of a builder after the last wires were drawn to the output boundary. -/
def closed (b : Builder β) (ws : List (Connection β)) : Composite β :=
  ⟨⟨b.registers⟩, b.instances.toList,
    (b.connections.toList ++ ws).map (Composite.edgeOf b.instances.toList.length)⟩

/-- The last wires: one to each output, after which nothing is left over. -/
structure Closes (b : Builder β) (ws : List (Connection β)) : Prop where
  drawable : b.Drawable ws
  rights : ws.map (·.right) = soquetsOn .rightDangle (⟨b.registers⟩ : Signature).rights
  empty : ∀ p : Port, (b.drawAll ws).available[p]? = none

variable {ws : List (Connection β)}

theorem Closes.meets (hc : b.Closes ws) (h : b.Sound) {w : Connection β}
    (hw : w ∈ b.connections.toList ++ ws) : b.Meets w.left.node := by
  rcases List.mem_append.mp hw with hw | hw
  · exact h.meets w (Array.mem_toList_iff.mp hw)
  · exact hc.drawable.meets h hw

/-- Each wire leads on, to an instance or to the output boundary. -/
theorem Closes.target (hc : b.Closes ws) (h : b.Sound) {w : Connection β}
    (hw : w ∈ b.connections.toList ++ ws) :
    (∃ x, b.instances.toList[x.number]? = some x ∧ w.right.node = .placed x ∧
      w.left.port.node < x.number + 1) ∨
    (w.right.node = .rightDangle ∧ w.left.port.node ≤ b.instances.toList.length) := by
  rcases List.mem_append.mp hw with hw | hw
  · obtain ⟨x, hx, r, -, i, -, hwr⟩ := h.right_mem (Array.mem_toList_iff.mp hw)
    have hlt := h.forward w (Array.mem_toList_iff.mp hw)
    obtain ⟨k, hk⟩ := List.mem_iff_getElem?.mp (Array.mem_toList_iff.mpr hx)
    refine .inl ⟨x, ?_, by rw [hwr], ?_⟩
    · rw [Instance.number_eq h.numbers hk, hk]
    · rwa [hwr] at hlt
  · have hm : w.right ∈ ws.map (·.right) := List.mem_map_of_mem hw
    rw [hc.rights] at hm
    simp only [soquetsOn, List.mem_flatMap, List.mem_map] at hm
    obtain ⟨r, -, i, -, hwr⟩ := hm
    exact .inr ⟨by rw [← hwr], h.node_le (hc.drawable.fresh h hw).1⟩

theorem Closes.starts (hc : b.Closes ws) (h : b.Sound) :
    (b.closed ws).edges.map Edge.start = b.usedPorts ++ ws.map (·.left.port) := by
  rw [closed, List.map_map, usedPorts, ← List.map_append]
  exact List.map_congr_left fun w hw => (hc.meets h hw).start_edgeOf _

theorem Closes.stops (hc : b.Closes ws) (h : b.Sound) :
    (b.closed ws).edges.map Edge.stop = (b.closed ws).inPorts := by
  refine stops_edgeOf _ (?_ : _ = _ ++ soquetsOn .rightDangle (⟨b.registers⟩ : Signature).rights)
  rw [List.map_append, h.rights, hc.rights]
  rfl

theorem Closes.forward (hc : b.Closes ws) (h : b.Sound) :
    ∀ e ∈ (b.closed ws).edges, e.source < e.target ∧ e.target < (b.closed ws).size := by
  intro e he
  obtain ⟨w, hw, rfl⟩ := List.mem_map.mp he
  have hs : (Composite.edgeOf b.instances.toList.length w).source = w.left.port.node :=
    congrArg Port.node ((hc.meets h hw).start_edgeOf _)
  rw [hs, Composite.size]
  rcases hc.target h hw with ⟨x, hx, hn, hlt⟩ | ⟨hn, hle⟩
  · have hk := (List.getElem?_eq_some_iff.mp hx).1
    simp only [closed, Composite.edgeOf, hn, Composite.numberOf]
    omega
  · simp only [closed, Composite.edgeOf, hn, Composite.numberOf]
    omega

theorem Closes.edgesOf [ReflBEq β] (hc : b.Closes ws) (h : b.Sound) :
    Composite.edgesOf b.instances.toList (b.connections.toList ++ ws) = .ok (b.closed ws).edges := by
  refine Composite.edgesOf_eq h.numbers ?_ ?_
  · intro w hw y hy
    rcases hc.meets h hw with hn | ⟨x, z, hz, hx, he⟩
    · rw [hn] at hy
      cases hy
    · rw [hz] at hy
      cases hy
      exact ⟨x, by simpa using hx, he⟩
  · intro w hw y hy
    rcases hc.target h hw with ⟨x, hx, hn, -⟩ | ⟨hn, -⟩
    · rw [hn] at hy
      cases hy
      exact ⟨_, hx, BEq.rfl⟩
    · rw [hn] at hy
      cases hy

/-- A sound builder that closes is assembled. -/
theorem Closes.assemble [ReflBEq β] (hc : b.Closes ws) (h : b.Sound) :
    Composite.assemble ⟨b.registers⟩ b.instances.toList (b.connections.toList ++ ws) =
      .ok (b.closed ws) :=
  Composite.assemble_of_forward (hc.edgesOf h) (hc.forward h)

theorem Sound.nodup_inPorts (h : b.Sound) (ws : List (Connection β)) :
    (b.closed ws).inPorts.Nodup := by
  rw [Composite.inPorts, List.nodup_append]
  refine ⟨nodup_flatMap_portsOn ?_ ?_, nodup_portsOn (h.valid.nodup_rights.of_map _), ?_⟩
  · show (b.instances.toList.map _).Nodup
    rw [h.numbers]
    exact List.nodup_range
  · intro x hx
    exact (h.validAt x (Array.mem_toList_iff.mp hx)).nodup_lefts.of_map _
  · rintro p hp q hq rfl
    obtain ⟨x, hx, hp⟩ := List.mem_flatMap.mp hp
    have hlt : x.number < (b.closed ws).instances.length :=
      Array.length_toList.symm ▸ h.number_lt (Array.mem_toList_iff.mp hx)
    have hnode := (mem_portsOn.mp hp).1.symm.trans (mem_portsOn.mp hq).1
    omega

theorem Closes.linear [ReflBEq β] (hc : b.Closes ws) (h : b.Sound) : (b.closed ws).Linear where
  valid := h.valid
  validAt x hx := h.validAt x (Array.mem_toList_iff.mp hx)
  numbers := h.numbers
  stopsOnce := by
    rw [hc.stops h]
    exact h.nodup_inPorts ws
  stops p := by rw [hc.stops h]
  startsOnce := by
    rw [hc.starts h]
    exact (hc.drawable.exhausts h hc.empty).1
  starts p := by
    rw [hc.starts h]
    exact (hc.drawable.exhausts h hc.empty).2 p
  agree e he := by
    obtain ⟨w, hw, rfl⟩ := List.mem_map.mp he
    have ha : w.left.reg.dtype.isConsistentWith w.right.reg.dtype = true := by
      rcases List.mem_append.mp hw with hw | hw
      · exact h.agree w (Array.mem_toList_iff.mp hw)
      · exact hc.drawable.agree w hw
    rw [DataType.isConsistentWith, Bool.and_eq_true, beq_iff_eq, beq_iff_eq] at ha
    exact ha
  located e he := by
    obtain ⟨w, hw, rfl⟩ := List.mem_map.mp he
    constructor
    · rcases hc.meets h hw with hn | ⟨x, y, hn, hx, he⟩
      · simp [Composite.Located, Composite.edgeOf, Composite.numberOf, hn]
      · have hx : b.instances.toList[y.number]? = some x := by simpa using hx
        simp only [Composite.Located, Composite.edgeOf, Composite.numberOf, hn]
        exact ⟨trivial, x, hx, he⟩
    · rcases hc.target h hw with ⟨x, hx, hn, -⟩ | ⟨hn, -⟩
      · simp only [Composite.Located, Composite.edgeOf, Composite.numberOf, hn]
        exact ⟨trivial, x, hx, BEq.rfl⟩
      · simp [Composite.Located, Composite.edgeOf, Composite.numberOf, hn, closed]
  forward e he := (hc.forward h e he).1

/-! ## Finalizing -/

/-- A builder with an output register for each final array that has none. -/
def withImplied (b : Builder β) (final : Soquets β) : Builder β :=
  if b.isOpen then { b with registers := addImplied b.registers final.entries } else b

omit [BloqKind β] in
theorem lefts_addImplied (registers : List Register) (final : List (String × Grid (Soquet β))) :
    (⟨addImplied registers final⟩ : Signature).lefts = (⟨registers⟩ : Signature).lefts := by
  induction final generalizing registers with
  | nil => rfl
  | cons e final ih =>
    rw [addImplied, ih]
    split
    · rfl
    · simp [Signature.lefts, impliedRegister, Side.isLeft]

theorem Sound.withImplied (h : b.Sound) {final : Soquets β}
    (hv : (⟨(b.withImplied final).registers⟩ : Signature).Valid) : (b.withImplied final).Sound := by
  unfold Builder.withImplied at hv ⊢
  split
  · next ho =>
    rw [if_pos ho] at hv
    exact h.withRegisters hv (lefts_addImplied _ _)
  · exact h

private theorem closes_of_consume {final : Soquets β} {b₁ b₂ : Builder β} {owner : String}
    (hc : Gives (consumeExactly owner .rightDangle (⟨b₁.registers⟩ : Signature).rights final)
      b₁ () b₂) (he : b₂.available.isEmpty = true) :
    ∃ ws, b₁.Closes ws ∧ b₂.instances = b₁.instances ∧
      b₂.connections.toList = b₁.connections.toList ++ ws := by
  obtain ⟨ws, hr, hd, rfl⟩ := consumeExactly_gives hc
  refine ⟨ws, ⟨hd, hr, fun p => ?_⟩, by rw [drawAll_eq], by rw [drawAll_eq]; simp⟩
  rw [Std.ExtTreeMap.isEmpty_iff.mp he]
  exact Std.ExtTreeMap.getElem?_empty

theorem finalize_gives {final : Soquets β} {b' : Builder β} {c : Composite β}
    (h : Gives (finalize final) b c b') :
    (⟨(b.withImplied final).registers⟩ : Signature).Valid ∧ ∃ ws, (b.withImplied final).Closes ws ∧
      Composite.assemble ⟨(b.withImplied final).registers⟩ (b.withImplied final).instances.toList
        ((b.withImplied final).connections.toList ++ ws) = .ok c := by
  simp only [finalize, gives_bind, gives_modify, gives_get, gives_lift,
    Signature.ofRegisters_eq_ok] at h
  obtain ⟨_, b₁, hb₁, _, _, ⟨rfl, rfl⟩, s, _, ⟨⟨rfl, hv⟩, rfl⟩, _, b₂, hb₂, _, _, ⟨rfl, rfl⟩, h⟩ := h
  obtain rfl : b.withImplied final = b₁ := hb₁
  refine ⟨hv, ?_⟩
  cases he : b₂.available.isEmpty with
  | false => simp [he] at h
  | true =>
    obtain ⟨ws, hc, hi, hw⟩ := closes_of_consume hb₂ he
    refine ⟨ws, hc, ?_⟩
    rw [if_neg (by simp [he])] at h
    rw [← hi, ← hw]
    exact (gives_lift.mp h).1

theorem finalize_fails {final : Soquets β} {e : Error} (h : Fails (finalize final) b e) :
    e.kind = .validation ∨
    (⟨(b.withImplied final).registers⟩ : Signature).Valid ∧ ∃ ws, (b.withImplied final).Closes ws ∧
      Composite.assemble ⟨(b.withImplied final).registers⟩ (b.withImplied final).instances.toList
        ((b.withImplied final).connections.toList ++ ws) = .error e := by
  simp only [finalize, fails_bind, fails_modify, fails_get, fails_lift, gives_modify, gives_get,
    gives_lift, Signature.ofRegisters_eq_ok, false_or] at h
  obtain ⟨_, b₁, hb₁, _, _, ⟨rfl, rfl⟩, h⟩ := h
  obtain rfl : b.withImplied final = b₁ := hb₁
  obtain hs | ⟨s, _, ⟨⟨rfl, hv⟩, rfl⟩, h⟩ := h
  · left
    unfold Signature.ofRegisters at hs
    split at hs <;> cases hs
    rfl
  · obtain hf | ⟨_, b₂, hb₂, _, _, ⟨rfl, rfl⟩, h⟩ := h
    · exact .inl (consumeExactly_fails hf)
    · cases he : b₂.available.isEmpty with
      | false =>
        rw [if_pos (by simp [he])] at h
        obtain h | ⟨_, _, h, -⟩ := fails_bind.mp h
        · obtain rfl := fails_throw.mp h
          exact .inl rfl
        · exact (gives_throw.mp h).elim
      | true =>
        obtain ⟨ws, hc, hi, hw⟩ := closes_of_consume hb₂ he
        refine .inr ⟨hv, ws, hc, ?_⟩
        rw [if_neg (by simp [he])] at h
        rw [← hi, ← hw]
        exact fails_lift.mp h

/-- A sound builder that is no longer open closes on arrays for its outputs. -/
theorem finalize_of_closes [ReflBEq β] (h : b.Sound) (ho : b.isOpen = false)
    {cells : Register → Grid (Soquet β)}
    (hs : ∀ r ∈ (⟨b.registers⟩ : Signature).rights, (cells r).shape = r.shape)
    (hc : b.Closes (wiring .rightDangle (⟨b.registers⟩ : Signature).rights cells)) :
    let ws := wiring .rightDangle (⟨b.registers⟩ : Signature).rights cells
    Gives (finalize (Arrays.byRegister (⟨b.registers⟩ : Signature).rights cells)) b (b.closed ws)
      (b.drawAll ws) := by
  intro ws
  have he : (b.drawAll ws).available.isEmpty = true := by
    rw [Std.ExtTreeMap.isEmpty_iff]
    refine Std.ExtTreeMap.ext_getElem? fun p => ?_
    rw [hc.empty p, Std.ExtTreeMap.getElem?_empty]
  have ha := hc.assemble h
  simp only [finalize, gives_bind, gives_modify, gives_get, gives_lift,
    Signature.ofRegisters_eq_ok]
  refine ⟨(), b, ?_, b, b, ⟨rfl, rfl⟩, ⟨b.registers⟩, b, ⟨⟨rfl, h.valid⟩, rfl⟩, (), _,
    consumeExactly_of_drawable h.valid.nodup_rights hs hc.drawable, _, _, ⟨rfl, rfl⟩, ?_⟩
  · simp [ho]
  · rw [if_neg (by simpa using he), gives_lift]
    refine ⟨?_, rfl⟩
    rw [drawAll_eq]
    simpa using ha

/-- A builder whose outputs take all soquets that are left is closed if its wires make a composite. -/
theorem finalize_of_consume {final : Soquets β} {b' : Builder β} {c : Composite β}
    (hv : (⟨(b.withImplied final).registers⟩ : Signature).Valid)
    (hc : Gives (consumeExactly ownName .rightDangle
      (⟨(b.withImplied final).registers⟩ : Signature).rights final) (b.withImplied final) () b')
    (he : b'.available.isEmpty = true)
    (ha : Composite.assemble ⟨(b.withImplied final).registers⟩ b'.instances.toList
      b'.connections.toList = .ok c) : Gives (finalize final) b c b' := by
  simp only [finalize, gives_bind, gives_modify, gives_get, gives_lift,
    Signature.ofRegisters_eq_ok]
  refine ⟨(), _, rfl, _, _, ⟨rfl, rfl⟩, _, _, ⟨⟨rfl, hv⟩, rfl⟩, (), b', hc, _, _, ⟨rfl, rfl⟩, ?_⟩
  rw [if_neg (by simpa using he), gives_lift]
  exact ⟨ha, rfl⟩

/-- A sound builder whose outputs take all soquets that are left is closed. -/
theorem Sound.finalize_gives_of_consume [ReflBEq β] (h : b.Sound) {final : Soquets β} {b' : Builder β}
    (hv : (⟨(b.withImplied final).registers⟩ : Signature).Valid)
    (hc : Gives (consumeExactly ownName .rightDangle
      (⟨(b.withImplied final).registers⟩ : Signature).rights final) (b.withImplied final) () b')
    (he : b'.available.isEmpty = true) :
    ∃ c, Gives (finalize final) b c b' ∧ c.signature = ⟨(b.withImplied final).registers⟩ ∧
      c.instances = (b.withImplied final).instances.toList := by
  obtain ⟨ws, hcloses, hi, hw⟩ := closes_of_consume hc he
  have ha := hcloses.assemble (h.withImplied hv)
  rw [← hi, ← hw] at ha
  exact ⟨(b.withImplied final).closed ws, finalize_of_consume hv hc he ha, rfl, rfl⟩

/-- Whether calls succeed, their outputs can be closed on, and the builder that is closed then has a
property. -/
def closesWith (m : BuildM β (Soquets β)) (p : Builder β → Bool) : Bool :=
  match m.run {} with
  | (.ok final, b) =>
    match (consumeExactly ownName .rightDangle (⟨(b.withImplied final).registers⟩ : Signature).rights
        final).run (b.withImplied final) with
    | (.ok (), b') => b'.available.isEmpty && p (b.withImplied final)
    | _ => false
  | _ => false

theorem exists_of_closesWith {m : BuildM β (Soquets β)} {p : Builder β → Bool}
    (h : closesWith m p = true) :
    ∃ final b b', Gives m {} final b ∧
      Gives (consumeExactly ownName .rightDangle
        (⟨(b.withImplied final).registers⟩ : Signature).rights final) (b.withImplied final) () b' ∧
      b'.available.isEmpty = true ∧ p (b.withImplied final) = true := by
  rw [closesWith] at h
  split at h
  · next final b hm =>
    split at h
    · next b' hclose => exact ⟨final, b, b', hm, hclose, (Bool.and_eq_true _ _).mp h⟩
    · cases h
  · cases h

/-! ## Calls -/

theorem Sound.add (h : b.Sound) {bloq : β} (hv : (BloqKind.signature bloq).Valid)
    {given out : Soquets β} {b' : Builder β} (ha : Gives (add bloq given) b out b') : b'.Sound := by
  obtain ⟨c, hc, -, rfl⟩ := add_gives.mp ha
  obtain ⟨ws, hr, hd, rfl⟩ := consumeExactly_gives hc
  exact h.place hv hd hr

theorem Sound.addRegister (h : b.Sound) {reg : Register} {g : Option (Grid (Soquet β))}
    {b' : Builder β} (ha : Gives (addRegister reg) b g b') : b'.Sound := by
  obtain ⟨-, hv, ha⟩ := addRegister_gives.mp ha
  split at ha
  · next hl =>
    obtain ⟨-, rfl⟩ := ha
    exact h.addInput hv hl
  · next hl =>
    obtain ⟨-, rfl⟩ := ha
    refine h.withRegisters hv ?_
    simp [Signature.lefts, List.filter_append, hl]

omit [BloqKind β] in
/-- What adding one register keeps, adding registers one after another keeps. -/
theorem addRegisters_keeps {P : Builder β → Prop}
    (hP : ∀ {b b' reg g}, Gives (addRegister reg) b g b' → P b → P b')
    {registers : List Register} {soquets out : Soquets β} {b' : Builder β} (h : P b)
    (ha : Gives (addRegisters registers soquets) b out b') : P b' := by
  induction registers generalizing b soquets with
  | nil =>
    obtain ⟨-, rfl⟩ := gives_pure.mp ha
    exact h
  | cons r registers ih =>
    obtain ⟨g, c, hc, ha⟩ := gives_bind.mp ha
    cases g with
    | some g => exact ih (hP hc h) ha
    | none => exact ih (hP hc h) ha

theorem Sound.start (h : b.Sound) {signature : Signature} {isOpen : Bool} {out : Soquets β}
    {b' : Builder β} (ha : Gives (start signature isOpen) b out b') : b'.Sound := by
  simp only [Builder.start, gives_bind, gives_modify, gives_pure] at ha
  obtain ⟨_, c, hc, _, _, rfl, -, rfl⟩ := ha
  exact (addRegisters_keeps (fun ha h => h.addRegister ha) h hc).withOpen isOpen

end Builder

section
variable {α κ : Type} [Angle α]

/-- One call that succeeds. A list of bits is joined as the array of it. -/
inductive Builder.Call (b : Builder (Bloq α κ)) : Builder (Bloq α κ) → Prop
  | addRegister {reg g b'} : Gives (addRegister reg) b g b' → Call b b'
  | add {bloq given out b'} : (Bloq.signature bloq).Valid → Gives (add bloq given) b out b' → Call b b'
  | split {s g b'} : Gives (split s) b g b' → Call b b'
  | join {bits dtype? s b'} : Gives (join bits dtype?) b s b' → Call b b'
  | allocate {dtype s b'} : Gives (allocate dtype) b s b' → Call b b'
  | free {s b'} : Gives (free s) b () b' → Call b b'

/-- A builder after any calls that all succeeded. -/
inductive Builder.Reached : Builder (Bloq α κ) → Prop
  | new : Reached {}
  | start {signature isOpen out b} : Gives (Builder.start signature isOpen) {} out b → Reached b
  | call {b b'} : Reached b → b.Call b' → Reached b'

variable {b b' : Builder (Bloq α κ)}

/-- A call adds a register or places a bloq. -/
theorem Builder.Call.adds (hc : b.Call b') :
    (∃ reg g, Gives (Builder.addRegister reg) b g b') ∨ ∃ bloq given out,
      (BloqKind.signature bloq).Valid ∧ Gives (Builder.add bloq given) b out b' := by
  cases hc with
  | addRegister hc => exact .inl ⟨_, _, hc⟩
  | add hv hc => exact .inr ⟨_, _, _, hv, hc⟩
  | split hc =>
    obtain ⟨out, hc⟩ := split_adds hc
    exact .inr ⟨_, _, out, Bloq.valid_split _, hc⟩
  | join hc =>
    obtain ⟨out, hc⟩ := join_adds hc
    exact .inr ⟨_, _, out, Bloq.valid_join _, hc⟩
  | allocate hc =>
    obtain ⟨out, hc⟩ := allocate_adds hc
    exact .inr ⟨_, _, out, Bloq.valid_allocate _, hc⟩
  | free hc =>
    obtain ⟨out, hc⟩ := free_adds hc
    exact .inr ⟨_, _, out, Bloq.valid_free _, hc⟩

theorem Builder.Sound.call (h : b.Sound) (hc : b.Call b') : b'.Sound := by
  obtain ⟨reg, g, hc⟩ | ⟨bloq, given, out, hv, hc⟩ := hc.adds
  · exact h.addRegister hc
  · exact h.add hv hc

theorem Builder.Reached.sound (h : b.Reached) : b.Sound := by
  induction h with
  | new => exact .empty
  | start hs => exact Sound.empty.start hs
  | call _ hc ih => exact ih.call hc

theorem Builder.Reached.linear (h : b.Reached) {final : Soquets (Bloq α κ)}
    {c : Composite (Bloq α κ)} (hf : Gives (finalize final) b c b') : c.Linear := by
  obtain ⟨hv, ws, hc, ha⟩ := finalize_gives hf
  have hsound := h.sound.withImplied hv
  rw [hc.assemble hsound] at ha
  cases ha
  exact hc.linear hsound

end
end BloqCircuit
