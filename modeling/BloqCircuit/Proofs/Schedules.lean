import Mathlib.Data.Int.ConditionallyCompleteOrder
import Mathlib.Order.Lattice.Nat
import Mathlib.Order.WithBot
import BloqCircuit.Proofs.Deliveries
import BloqCircuit.Proofs.Failures
/-! The order in which graphs of bloqs are walked: of the nodes whose predecessors were all walked,
always the one of least rank. What builders close is walked in the order in which its bloqs were
placed. -/
namespace BloqCircuit

/-! ## Ranks -/

namespace Composite
variable {β : Type} [BloqKind β] {traversal : TraversalOrder}

/-- How many bits more a bloq gives than it takes, as far as the walk asks for it. -/
def excess (traversal : TraversalOrder) (x : Instance β) : Int := match traversal with
  | .insertion => 0
  | .greedy => (BloqKind.signature x.bloq).rightBits - (BloqKind.signature x.bloq).leftBits

/-- The inputs rank before all bloqs and the outputs behind them. -/
def rank (traversal : TraversalOrder) : Node β → WithBot (WithTop Int)
  | .leftDangle => ⊥
  | .rightDangle => ⊤
  | .placed x => ((excess traversal x : WithTop Int) : WithBot (WithTop Int))

/-- The registers of a node hold fewer bits than differences of words can tell apart. -/
def Modest : Node β → Prop
  | .placed x => (BloqKind.signature x.bloq).leftBits < 2 ^ 62 ∧
      (BloqKind.signature x.bloq).rightBits < 2 ^ 62
  | _ => True

theorem signedWord_eq {n : Nat} (h : n < 2 ^ 62) : signedWord n = n := by
  refine Int.bmod_eq_of_le ?_ ?_
  · omega
  · omega

/-- The priority of a modest bloq is its excess, and it is strictly between those of the boundaries. -/
theorem priority_placed (traversal : TraversalOrder) {x : Instance β} (h : Modest (.placed x)) :
    priority traversal (.placed x) = excess traversal x ∧
      -2 ^ 62 < excess traversal x ∧ excess traversal x < 2 ^ 62 := by
  obtain ⟨hleft, hright⟩ := h
  cases traversal with
  | insertion => exact ⟨rfl, show -2 ^ 62 < (0 : Int) ∧ (0 : Int) < 2 ^ 62 by decide⟩
  | greedy =>
    rw [priority, excess, signedWord_eq hleft, signedWord_eq hright]
    omega

/-- Among modest nodes priorities compare as ranks do. -/
theorem priority_lt_iff (traversal : TraversalOrder) {m n : Node β} (hm : Modest m) (hn : Modest n) :
    priority traversal m < priority traversal n ↔ rank traversal m < rank traversal n := by
  have hleft : priority traversal (.leftDangle : Node β) = -9223372036854775808 := rfl
  have hright : priority traversal (.rightDangle : Node β) = 9223372036854775807 := rfl
  cases m with
  | leftDangle =>
    cases n with
    | leftDangle => simp [rank]
    | rightDangle => simp [rank, hleft, hright]
    | placed y =>
      have hy := priority_placed traversal hn
      simp only [rank, hleft, hy.1, WithBot.bot_lt_coe, iff_true]
      omega
  | rightDangle =>
    cases n with
    | leftDangle => simp [rank, hleft, hright]
    | rightDangle => simp [rank]
    | placed y =>
      have hy := priority_placed traversal hn
      simp only [rank, hright, hy.1, not_top_lt, iff_false]
      omega
  | placed x =>
    have hx := priority_placed traversal hm
    cases n with
    | leftDangle =>
      simp only [rank, hleft, hx.1, not_lt_bot, iff_false]
      omega
    | rightDangle =>
      have htop : ((excess traversal x : WithTop Int) : WithBot (WithTop Int)) < ⊤ :=
        WithBot.coe_lt_coe.mpr (WithTop.coe_lt_top _)
      simp only [rank, hright, hx.1, htop, iff_true]
      omega
    | placed y =>
      have hy := priority_placed traversal hn
      rw [hx.1, hy.1, rank, rank, WithBot.coe_lt_coe, WithTop.coe_lt_coe]

theorem priority_eq_iff (traversal : TraversalOrder) {m n : Node β} (hm : Modest m) (hn : Modest n) :
    priority traversal m = priority traversal n ↔ rank traversal m = rank traversal n := by
  rw [le_antisymm_iff, le_antisymm_iff, ← not_lt, ← not_lt, ← not_lt, ← not_lt,
    priority_lt_iff traversal hm hn, priority_lt_iff traversal hn hm]

/-! ## Schedules -/

/-- The numbers of the nodes of a graph in the order of the walk. Any of the nodes may be the
boundaries. -/
def sortNodes (g : Multigraph) (nodes : List (Node β)) (traversal : TraversalOrder) :
    Except Error (List Nat) :=
  match g.topologicalOrder? fun v => (nodes.map (priority traversal)).toArray.getD v 0 with
  | some order => .ok order
  | none => .error .cycle

theorem sortedNodes_eq (c : Composite β) (traversal : TraversalOrder) :
    c.sortedNodes traversal = sortNodes c.graph c.nodes traversal := rfl

/-- A composite from its parts, with any check that there is no cycle. -/
def assembleIf (acyclic : Multigraph → Bool) (signature : Signature) (instances : List (Instance β))
    (connections : List (Connection β)) : Except Error (Composite β) := do
  let c : Composite β := ⟨signature, instances, ← edgesOf instances connections⟩
  if acyclic c.graph then return c else throw .cycle

theorem assemble_eq : assemble (β := β) = assembleIf Multigraph.isAcyclic := rfl

/-- The rank of the node with a number. -/
def rankAt (traversal : TraversalOrder) (nodes : List (Node β)) (v : Nat) : WithBot (WithTop Int) :=
  nodes[v]?.elim ⊤ (rank traversal)

/-- All nodes once and along the edges. Each is the least by rank and number among those whose
predecessors were all walked before. -/
structure Schedules (g : Multigraph) (nodes : List (Node β)) (traversal : TraversalOrder)
    (order : List Nat) : Prop where
  perm : order.Perm (List.range g.size)
  forward : ∀ e ∈ g.edges, order.idxOf e.1 < order.idxOf e.2
  ready : ∀ front v rest, order = front ++ v :: rest → g.Next front v
  least : ∀ front v rest, order = front ++ v :: rest → ∀ w, g.Next front w →
    rankAt traversal nodes v < rankAt traversal nodes w ∨
      rankAt traversal nodes v = rankAt traversal nodes w ∧ v ≤ w

variable {g : Multigraph} {nodes : List (Node β)}

/-- The numbers of modest nodes are compared by their ranks. -/
theorem before_iff (hbits : ∀ n ∈ nodes, Modest n) {v w : Nat} (hv : v < nodes.length)
    (hw : w < nodes.length) :
    Multigraph.Before (fun v => (nodes.map (priority traversal)).toArray.getD v 0) v w ↔
      rankAt traversal nodes v < rankAt traversal nodes w ∨
        rankAt traversal nodes v = rankAt traversal nodes w ∧ v ≤ w := by
  have hget : ∀ {u : Nat} (hu : u < nodes.length),
      (nodes.map (priority traversal)).toArray.getD u 0 = priority traversal nodes[u] := by
    intro u hu
    simp [hu]
  have hrank : ∀ {u : Nat} (hu : u < nodes.length), rankAt traversal nodes u = rank traversal nodes[u] := by
    intro u hu
    simp [rankAt, hu]
  have hm := hbits _ (List.getElem_mem hv)
  have hn := hbits _ (List.getElem_mem hw)
  rw [Multigraph.Before, hget hv, hget hw, hrank hv, hrank hw, priority_lt_iff traversal hm hn,
    priority_eq_iff traversal hm hn]

theorem sortNodes_eq_ok {order : List Nat} : sortNodes g nodes traversal = .ok order ↔
    g.topologicalOrder? (fun v => (nodes.map (priority traversal)).toArray.getD v 0) = some order := by
  rw [sortNodes]
  cases g.topologicalOrder? _ <;> simp

theorem sortNodes_eq_error (hg : g.InRange) : sortNodes g nodes traversal = .error .cycle ↔ g.Cyclic := by
  rw [sortNodes, ← g.topologicalOrder?_eq_none_iff _ hg]
  cases g.topologicalOrder? _ <;> simp

/-- Without a cycle all nodes are walked. -/
theorem exists_sortNodes (traversal : TraversalOrder) (nodes : List (Node β)) (hg : g.InRange)
    (hc : ¬ g.Cyclic) : ∃ order, sortNodes g nodes traversal = .ok order := by
  obtain ⟨order, ho⟩ := g.exists_topologicalOrder?_of_not_cyclic _ hg hc
  exact ⟨order, sortNodes_eq_ok.mpr ho⟩

theorem schedules_of_sortNodes (hg : g.InRange) (hsize : nodes.length = g.size)
    (hbits : ∀ n ∈ nodes, Modest n) {order : List Nat}
    (ho : sortNodes g nodes traversal = .ok order) : Schedules g nodes traversal order := by
  obtain ⟨hsorts, hgreedy⟩ := Multigraph.sorts_of_topologicalOrder? hg (sortNodes_eq_ok.mp ho)
  refine ⟨hsorts.perm, fun e he => hsorts.forward hg he, hsorts.next, ?_⟩
  intro front v rest hsplit w hw
  refine (before_iff hbits ?_ ?_).mp (hgreedy.least hsplit hw)
  · rw [hsize]
    exact (hsorts.next front v rest hsplit).lt
  · rw [hsize]
    exact hw.lt

/-- What any right check lets pass is walked. -/
theorem exists_sortedNodes_of_assembleIf (traversal : TraversalOrder) {acyclic : Multigraph → Bool}
    (hcheck : ∀ h : Multigraph, h.InRange → (acyclic h = true ↔ ¬ h.Cyclic)) {signature : Signature}
    {instances : List (Instance β)} {connections : List (Connection β)} {c : Composite β}
    (h : assembleIf acyclic signature instances connections = .ok c) :
    ∃ order, c.sortedNodes traversal = .ok order := by
  obtain ⟨es, hes, h⟩ := bind_eq_ok.mp h
  dsimp only at h
  split at h
  · next hacyclic =>
    cases h
    have hg : (⟨signature, instances, es⟩ : Composite β).graph.InRange := by
      intro e he
      obtain ⟨f, hf, rfl⟩ := List.mem_map.mp he
      exact edgesOf_lt hes hf
    exact exists_sortNodes traversal _ hg ((hcheck _ hg).mp hacyclic)
  · cases h

/-- The walk fails exactly on cycles; otherwise it is the schedule by rank and number. Whatever check
for cycles is used, if it is right, then every composite that passes it is walked. -/
theorem sortNodes_schedules (traversal : TraversalOrder) (hg : g.InRange)
    (hsize : nodes.length = g.size) (hbits : ∀ n ∈ nodes, Modest n) :
    (sortNodes g nodes traversal = .error .cycle ↔ g.Cyclic) ∧
    (¬ g.Cyclic → ∃ order, sortNodes g nodes traversal = .ok order ∧
      Schedules g nodes traversal order) ∧
    ∀ acyclic : Multigraph → Bool, (∀ h : Multigraph, h.InRange → (acyclic h = true ↔ ¬ h.Cyclic)) →
      ∀ signature instances connections (c : Composite β),
        assembleIf acyclic signature instances connections = .ok c →
        ∃ order, c.sortedNodes traversal = .ok order := by
  refine ⟨sortNodes_eq_error hg, fun hc => ?_, fun acyclic hcheck _ _ _ _ h => ?_⟩
  · obtain ⟨order, ho⟩ := exists_sortNodes traversal nodes hg hc
    exact ⟨order, ho, schedules_of_sortNodes hg hsize hbits ho⟩
  · exact exists_sortedNodes_of_assembleIf traversal hcheck h

/-- A bundle that is taken apart and put together again has a schedule. -/
theorem sortNodes_schedules_bundle :
    let g : Multigraph := ⟨4, [(0, 1), (1, 2), (1, 2), (2, 3)]⟩
    let nodes : List (Node (Bloq Float Complex)) :=
      [.leftDangle, .placed ⟨0, .split (.qany 2)⟩, .placed ⟨1, .join (.qany 2)⟩, .rightDangle]
    g.InRange ∧ nodes.length = g.size ∧ (∀ n ∈ nodes, Modest n) ∧ ¬ g.Cyclic ∧
      ∃ order, sortNodes g nodes .greedy = .ok order ∧ Schedules g nodes .greedy order := by
  intro g nodes
  have hg : g.InRange := by
    rw [Multigraph.InRange]
    decide
  have hsplit : Modest (.placed ⟨0, .split (.qany 2)⟩ : Node (Bloq Float Complex)) := by
    simp only [Modest, BloqKind.signature, Bloq.signature_split]
    decide
  have hjoin : Modest (.placed ⟨1, .join (.qany 2)⟩ : Node (Bloq Float Complex)) := by
    simp only [Modest, BloqKind.signature, Bloq.signature_join]
    decide
  have hbits : ∀ n ∈ nodes, Modest n := by
    rw [List.forall_mem_cons, List.forall_mem_cons, List.forall_mem_cons, List.forall_mem_singleton]
    exact ⟨trivial, hsplit, hjoin, trivial⟩
  have hc : ¬ g.Cyclic := Multigraph.not_cyclic_of_forward (by decide)
  exact ⟨hg, rfl, hbits, hc, (sortNodes_schedules .greedy hg rfl hbits).2.1 hc⟩

end Composite

/-! ## The order of the calls -/

namespace Builder
variable {β : Type} [BloqKind β] {b b' : Builder β} {placed : List β}

/-- A builder after calls that all succeeded, with the bloqs that they placed, in order. -/
inductive Logged : Builder β → List β → Prop
  | new : Logged {} []
  | start {signature isOpen out b} : Gives (Builder.start signature isOpen) {} out b → Logged b []
  | addRegister {b placed reg g b'} : Logged b placed → Gives (addRegister reg) b g b' →
      Logged b' placed
  | add {b placed bloq given out b'} : Logged b placed → Gives (add bloq given) b out b' →
      Logged b' (placed ++ [bloq])
  | split {b placed s g b'} : Logged b placed → Gives (split s) b g b' →
      Logged b' (placed ++ [BloqKind.split s.reg.dtype])
  | join {b placed bits dtype? s b'} : Logged b placed → Gives (join bits dtype?) b s b' →
      Logged b' (placed ++ [BloqKind.join (dtype?.getD (.qany bits.toList.length))])
  | allocate {b placed dtype s b'} : Logged b placed → Gives (allocate dtype) b s b' →
      Logged b' (placed ++ [BloqKind.allocate dtype])
  | free {b placed s b'} : Logged b placed → Gives (free s) b () b' →
      Logged b' (placed ++ [BloqKind.free s.reg.dtype])

/-- Where a soquet may sit that is produced after so many bloqs. -/
def Early (count : Nat) (s : Soquet β) : Prop := s.node ≠ .rightDangle ∧ s.port.node ≤ count

omit [BloqKind β] in
theorem early_leftDangle {count : Nat} {r : Register} {i : List Nat} :
    Early count (⟨.leftDangle, r, i⟩ : Soquet β) := ⟨by simp, Nat.zero_le _⟩

omit [BloqKind β] in
theorem early_placed {count : Nat} {x : Instance β} {r : Register} {i : List Nat}
    (h : x.number < count) : Early count (⟨.placed x, r, i⟩ : Soquet β) := ⟨by simp, h⟩

/-- The instances are those of the calls, under the numbers from zero on. What is available sits on
them or on the inputs, and every wire leads to a later bloq. -/
structure Advances (b : Builder β) (placed : List β) : Prop where
  next : b.next = placed.length
  instances : b.instances.toList = placed.mapIdx fun k bloq => ⟨k, bloq⟩
  available : ∀ p (t : Soquet β), b.available[p]? = some t → t.port = p ∧ Early placed.length t
  wires : ∀ w ∈ b.connections, ∃ x : Instance β, w.right.node = .placed x ∧
    x.number < placed.length ∧ Early x.number w.left

omit [BloqKind β] in
theorem Advances.empty : Advances ({} : Builder β) [] where
  next := rfl
  instances := rfl
  available p t h := by simp at h
  wires w hw := by simp at hw

omit [BloqKind β] in
theorem available_of_produce {ss : List (Soquet β)} {p : Port} {t : Soquet β}
    (h : (produce ss b).available[p]? = some t) : (t ∈ ss ∧ t.port = p) ∨ b.available[p]? = some t := by
  induction ss generalizing b with
  | nil => exact .inr h
  | cons s ss ih =>
    have h : (produce ss (produce [s] b)).available[p]? = some t := h
    rcases ih h with ⟨hm, hp⟩ | h
    · exact .inl ⟨List.mem_cons_of_mem _ hm, hp⟩
    · have h : (b.available.insert s.port s)[p]? = some t := h
      rw [getElem?_insert_key] at h
      split at h
      · next hp =>
        cases h
        exact .inl ⟨List.mem_cons_self, hp⟩
      · exact .inr h

/-- A soquet that counts as one that was produced early is early as well. -/
theorem Early.congr {count : Nat} {s t : Soquet β} (h : Early count t) (hp : t.port = s.port)
    (hs : (t == s) = true) : Early count s := by
  obtain ⟨hnode, hle⟩ := h
  refine ⟨fun hright => ?_, hp ▸ hle⟩
  change Soquet.same _ _ = true at hs
  rw [Soquet.same, hright] at hs
  cases ht : t.node with
  | rightDangle => exact hnode ht
  | leftDangle =>
    rw [ht] at hs
    cases hs
  | placed x =>
    rw [ht] at hs
    cases hs

theorem Drawable.early {ws : List (Connection β)} (hd : b.Drawable ws) (h : b.Advances placed)
    {w : Connection β} (hw : w ∈ ws) : Early placed.length w.left := by
  obtain ⟨t, ht, hs⟩ := hd.there w hw
  obtain ⟨hp, he⟩ := h.available _ t ht
  exact he.congr hp hs

/-- Placing a bloq adds it at the end. -/
theorem Advances.add (h : b.Advances placed) {bloq : β} {given out : Soquets β}
    (ha : Gives (add bloq given) b out b') : b'.Advances (placed ++ [bloq]) := by
  obtain ⟨_, hc, -, rfl⟩ := add_gives.mp ha
  obtain ⟨ws, hr, hd, rfl⟩ := consumeExactly_gives hc
  constructor
  case next =>
    rw [List.length_append, ← h.next]
    exact congrArg (· + 1) (next_drawAll b ws)
  case instances =>
    rw [instances_place_drawAll, Array.toList_push, h.instances, h.next, List.mapIdx_concat]
  case available =>
    intro p t ht
    rw [List.length_append]
    rcases available_of_produce ht with ⟨hm, hp⟩ | ht
    · obtain ⟨r, -, i, -, rfl⟩ := mem_soquetsOn.mp hm
      refine ⟨hp, early_placed ?_⟩
      rw [h.next]
      exact Nat.lt_succ_self _
    · have ht : (b.drawAll ws).available[p]? = some t := ht
      rw [drawAll_available] at ht
      split at ht
      · cases ht
      · obtain ⟨hp, hnode, hle⟩ := h.available p t ht
        exact ⟨hp, hnode, hle.trans (Nat.le_add_right _ _)⟩
  case wires =>
    intro w hw
    rw [List.length_append]
    rcases mem_connections_place_drawAll.mp hw with hw | hw
    · obtain ⟨x, hx, hlt, he⟩ := h.wires w hw
      exact ⟨x, hx, hlt.trans (Nat.lt_succ_self _), he⟩
    · have hright : w.right ∈ ws.map (·.right) := List.mem_map_of_mem hw
      rw [hr] at hright
      obtain ⟨r, -, i, -, hright⟩ := mem_soquetsOn.mp hright
      refine ⟨⟨b.next, bloq⟩, by rw [hright], ?_, ?_⟩
      · rw [h.next]
        exact Nat.lt_succ_self _
      · rw [h.next]
        exact hd.early h hw

omit [BloqKind β] in
theorem Advances.addRegister (h : b.Advances placed) {reg : Register} {g : Option (Grid (Soquet β))}
    (ha : Gives (addRegister reg) b g b') : b'.Advances placed := by
  obtain ⟨-, -, ha⟩ := addRegister_gives.mp ha
  split at ha
  · obtain ⟨-, rfl⟩ := ha
    refine ⟨h.next, h.instances, fun p t ht => ?_, h.wires⟩
    rcases available_of_produce ht with ⟨hm, hp⟩ | ht
    · obtain ⟨r, -, i, -, rfl⟩ := mem_soquetsOn.mp hm
      exact ⟨hp, early_leftDangle⟩
    · exact h.available p t ht
  · obtain ⟨-, rfl⟩ := ha
    exact ⟨h.next, h.instances, h.available, h.wires⟩

omit [BloqKind β] in
theorem Advances.start {signature : Signature} {isOpen : Bool} {out : Soquets β}
    (ha : Gives (start signature isOpen) {} out b) : b.Advances [] := by
  simp only [Builder.start, gives_bind, gives_modify, gives_pure] at ha
  obtain ⟨_, c, hc, _, _, rfl, -, rfl⟩ := ha
  obtain ⟨hnext, hinstances, havailable, hwires⟩ : c.Advances [] :=
    addRegisters_keeps (fun ha h => Advances.addRegister h ha) Advances.empty hc
  exact ⟨hnext, hinstances, havailable, hwires⟩

theorem Logged.advances (h : b.Logged placed) : b.Advances placed := by
  induction h with
  | new => exact .empty
  | start hc => exact .start hc
  | addRegister _ hc ih => exact ih.addRegister hc
  | add _ hc ih => exact ih.add hc
  | split _ hc ih =>
    obtain ⟨out, hc⟩ := split_adds hc
    exact ih.add hc
  | join _ hc ih =>
    obtain ⟨out, hc⟩ := join_adds hc
    exact ih.add hc
  | allocate _ hc ih =>
    obtain ⟨out, hc⟩ := allocate_adds hc
    exact ih.add hc
  | free _ hc ih =>
    obtain ⟨out, hc⟩ := free_adds hc
    exact ih.add hc

omit [BloqKind β] in
theorem Early.numberOf_eq {count n : Nat} {s : Soquet β} (h : Early n s) :
    Composite.numberOf count s.node = s.port.node := by
  obtain ⟨hnode, -⟩ := h
  obtain ⟨node, r, i⟩ := s
  cases node with
  | leftDangle => rfl
  | placed x => rfl
  | rightDangle => exact absurd rfl hnode

omit [BloqKind β] in
theorem Advances.numbers (h : b.Advances placed) :
    b.instances.toList.map (·.number) = List.range b.instances.toList.length := by
  rw [h.instances]
  refine List.ext_getElem (by simp) fun k hk hk' => ?_
  simp

omit [BloqKind β] in
theorem Advances.withImplied (h : b.Advances placed) (final : Soquets β) :
    (b.withImplied final).Advances placed := by
  unfold Builder.withImplied
  split
  · exact ⟨h.next, h.instances, h.available, h.wires⟩
  · exact h

/-- What is closed has the bloqs of the calls in their order, and all wires lead to later nodes. -/
theorem Advances.finalize (h : b.Advances placed) {final : Soquets β} {c : Composite β}
    (hg : Gives (finalize final) b c b') :
    c.instances = (placed.mapIdx fun k bloq => ⟨k, bloq⟩) ∧ c.graph.InRange ∧
      ∀ e ∈ c.graph.edges, e.1 < e.2 := by
  obtain ⟨-, ws, hcloses, ha⟩ := finalize_gives hg
  have h := h.withImplied final
  obtain rfl := Composite.assemble_eq_ok h.numbers ha
  refine ⟨h.instances, Composite.inRange_graph fun e he => ?_⟩
  obtain ⟨w, hw, rfl⟩ := List.mem_map.mp he
  have hlen : (b.withImplied final).instances.toList.length = placed.length := by
    rw [h.instances, List.length_mapIdx]
  rcases List.mem_append.mp hw with hw | hw
  · obtain ⟨x, hx, hlt, he⟩ := h.wires w (Array.mem_toList_iff.mp hw)
    have htarget : Composite.numberOf placed.length w.right.node = x.number + 1 := by
      rw [hx]
      rfl
    have hle := he.2
    simp only [Composite.edgeOf, he.numberOf_eq, htarget, Composite.size, hlen]
    omega
  · have he := hcloses.drawable.early h hw
    have hright : w.right ∈ ws.map (·.right) := List.mem_map_of_mem hw
    rw [hcloses.rights] at hright
    obtain ⟨r, -, i, -, hright⟩ := mem_soquetsOn.mp hright
    have htarget : Composite.numberOf placed.length w.right.node = placed.length + 1 := by
      rw [hright]
      rfl
    have hle := he.2
    simp only [Composite.edgeOf, he.numberOf_eq, htarget, Composite.size, hlen]
    omega

/-- After calls that all succeeded, the walk in the order of insertion is the order of the calls. So
is the greedy walk if every bloq gives as many bits as it takes. -/
theorem Logged.finalize_visits (h : b.Logged placed) {final : Soquets β} {c : Composite β}
    (hg : Gives (finalize final) b c b') :
    (∃ visits, c.visits .insertion = .ok visits ∧ visits.map (·.node) =
      .leftDangle :: (placed.mapIdx fun k bloq => .placed ⟨k, bloq⟩) ++ [.rightDangle]) ∧
    ((∀ bloq ∈ placed, (BloqKind.signature bloq).rightBits = (BloqKind.signature bloq).leftBits) →
      c.visits .greedy = c.visits .insertion) := by
  obtain ⟨hinstances, hrange, hforward⟩ := h.advances.finalize hg
  have hvisits {traversal : TraversalOrder}
      (hlevel : ∀ x ∈ c.instances, Composite.priority traversal (.placed x) = 0) :
      c.visits traversal = .ok ((List.range c.size).map c.visitAt) :=
    Composite.visits_eq (Composite.sortedNodes_eq_range hrange hforward hlevel)
      fun v hv => List.mem_range.mp hv
  have hinsertion := @hvisits .insertion fun _ _ => rfl
  refine ⟨⟨_, hinsertion, ?_⟩, fun heven => ?_⟩
  · have hnodes : (placed.mapIdx fun k bloq => (⟨k, bloq⟩ : Instance β)).map Node.placed =
        placed.mapIdx fun k bloq => .placed ⟨k, bloq⟩ :=
      List.ext_getElem (by simp) fun k _ _ => by simp
    rw [Composite.map_visitAt_range, Composite.nodes, hinstances, hnodes]
    rfl
  · rw [hinsertion]
    refine hvisits fun x hx => ?_
    rw [hinstances] at hx
    obtain ⟨k, hk, rfl⟩ := List.mem_mapIdx.mp hx
    rw [Composite.priority, heven _ (List.getElem_mem hk)]
    exact Int.sub_self _

/-- A bundle is taken apart and put together again. -/
theorem Logged.finalize_visits_bundle :
    ∃ (b b' : Builder (Bloq Float Complex)) (final : Soquets (Bloq Float Complex))
      (c : Composite (Bloq Float Complex)),
      b.Logged [.split (.qany 2), .join (.qany 2)] ∧ Gives (finalize final) b c b' ∧
      (∃ visits, c.visits .insertion = .ok visits ∧ visits.map (·.node) =
        [.leftDangle, .placed ⟨0, .split (.qany 2)⟩, .placed ⟨1, .join (.qany 2)⟩, .rightDangle]) ∧
      c.visits .greedy = c.visits .insertion := by
  let whole : Register := ⟨bundleName, .qany 2, [], .thru⟩
  let m : BuildM (Bloq Float Complex) (Soquets (Bloq Float Complex)) := do
    let inputs ← Builder.start ⟨[whole]⟩ false
    let bits ← Builder.add (.split (.qany 2)) inputs
    Builder.add (.join (.qany 2)) bits
  -- all but the last call is run
  have hrun : closesWith m (fun b => decide (b.registers = [whole])) = true := by decide +kernel
  obtain ⟨final, b, b', hm, hclose, hempty, hp⟩ := exists_of_closesWith hrun
  obtain ⟨inputs, b₁, hstart, hm⟩ := gives_bind.mp hm
  obtain ⟨bits, b₂, hsplit, hjoin⟩ := gives_bind.mp hm
  have hreached : b.Reached :=
    .call (.call (.start hstart) (.add (Bloq.valid_split _) hsplit)) (.add (Bloq.valid_join _) hjoin)
  obtain ⟨c, hfinal, -, -⟩ := hreached.sound.finalize_gives_of_consume
    (by rw [of_decide_eq_true hp]; rfl) hclose hempty
  have hlogged : b.Logged [.split (.qany 2), .join (.qany 2)] := .add (.add (.start hstart) hsplit) hjoin
  have heven : ∀ bloq ∈ [Bloq.split (.qany 2), (.join (.qany 2) : Bloq Float Complex)],
      (BloqKind.signature bloq).rightBits = (BloqKind.signature bloq).leftBits := by
    simp only [List.mem_cons, List.not_mem_nil, or_false, forall_eq_or_imp, forall_eq,
      BloqKind.signature, Bloq.signature_split, Bloq.signature_join]
    decide
  obtain ⟨hinsertion, hgreedy⟩ := hlogged.finalize_visits hfinal
  exact ⟨b, b', final, c, hlogged, hfinal, hinsertion, hgreedy heven⟩

end Builder
end BloqCircuit
