import BloqCircuit.Builder
import BloqCircuit.Proofs.Names
import BloqCircuit.Proofs.Steps
/-! What the steps of construction do to a builder: wires are drawn from available soquets, and
placed bloqs produce new ones. -/
namespace BloqCircuit

instance {β : Type} [BEq β] [ReflBEq β] : ReflBEq (Instance β) where
  rfl {x} := by
    show (x.number == x.number && x.bloq == x.bloq) = true
    rw [BEq.rfl, BEq.rfl]
    rfl

instance {β : Type} [BEq β] [ReflBEq β] : ReflBEq (Soquet β) where
  rfl {s} := by
    show Soquet.same s s = true
    unfold Soquet.same
    cases s.node <;> simp

/-- The soquets of registers on a node, register by register. -/
def soquetsOn {β : Type} (node : Node β) (registers : List Register) : List (Soquet β) :=
  registers.flatMap fun r => r.indices.map fun i => ⟨node, r, i⟩

/-- The ports of registers on the node with a number, register by register. -/
def portsOn (v : Nat) (registers : List Register) : List Port :=
  registers.flatMap fun r => r.indices.map fun i => ⟨v, i, r⟩

theorem portsOn_append (v : Nat) (rs ss : List Register) :
    portsOn v (rs ++ ss) = portsOn v rs ++ portsOn v ss := List.flatMap_append

theorem portsOn_singleton (v : Nat) (r : Register) :
    portsOn v [r] = r.indices.map fun i => ⟨v, i, r⟩ := List.append_nil _

theorem mem_portsOn {v : Nat} {registers : List Register} {p : Port} :
    p ∈ portsOn v registers ↔ p.node = v ∧ p.reg ∈ registers ∧ p.index ∈ p.reg.indices := by
  simp only [portsOn, List.mem_flatMap, List.mem_map]
  constructor
  · rintro ⟨r, hr, i, hi, rfl⟩
    exact ⟨rfl, hr, hi⟩
  · rintro ⟨rfl, hr, hi⟩
    exact ⟨p.reg, hr, p.index, hi, rfl⟩

theorem nodup_portsOn {v : Nat} {registers : List Register} (h : registers.Nodup) :
    (portsOn v registers).Nodup := by
  rw [portsOn, List.nodup_flatMap]
  constructor
  · intro r _
    exact Register.nodup_indices.map fun i j hij => by cases hij; rfl
  · refine h.imp fun {r s} hrs => ?_
    rw [Function.onFun_apply, List.disjoint_left]
    intro p hp hq
    obtain ⟨i, -, rfl⟩ := List.mem_map.mp hp
    obtain ⟨j, -, hj⟩ := List.mem_map.mp hq
    cases hj
    exact hrs rfl

theorem mem_soquetsOn {β : Type} {node : Node β} {registers : List Register} {s : Soquet β} :
    s ∈ soquetsOn node registers ↔ ∃ r ∈ registers, ∃ i ∈ r.indices, s = ⟨node, r, i⟩ := by
  simp only [soquetsOn, List.mem_flatMap, List.mem_map, eq_comm]

theorem port_soquetsOn_placed {β : Type} (x : Instance β) (registers : List Register) :
    (soquetsOn (.placed x) registers).map Soquet.port = portsOn (x.number + 1) registers := by
  simp only [soquetsOn, portsOn, List.map_flatMap, List.map_map]
  rfl

theorem port_soquetsOn_leftDangle {β : Type} (registers : List Register) :
    (soquetsOn (.leftDangle : Node β) registers).map Soquet.port = portsOn 0 registers := by
  simp only [soquetsOn, portsOn, List.map_flatMap, List.map_map]
  rfl

theorem nodup_flatMap_portsOn {β : Type} {xs : List (Instance β)}
    (hn : (xs.map (·.number)).Nodup) {registers : Instance β → List Register}
    (hr : ∀ x ∈ xs, (registers x).Nodup) :
    (xs.flatMap fun x => portsOn (x.number + 1) (registers x)).Nodup := by
  rw [List.nodup_flatMap]
  constructor
  · intro x hx
    exact nodup_portsOn (hr x hx)
  · rw [List.Nodup, List.pairwise_map] at hn
    refine hn.imp fun {x y} hxy => ?_
    rw [Function.onFun_apply, List.disjoint_left]
    intro p hp hq
    have h := (mem_portsOn.mp hp).1.symm.trans (mem_portsOn.mp hq).1
    exact hxy (Nat.succ.inj h)

namespace Builder
variable {β : Type}

/-! ## Drawing wires -/

/-- The wires from soquets into elements of a register, one by one. -/
def wiresInto (node : Node β) (reg : Register) (is : List (List Nat)) (ss : List (Soquet β)) :
    List (Connection β) :=
  List.zipWith (fun i s => ⟨s, ⟨node, reg, i⟩⟩) is ss

/-- The wires from arrays of soquets into registers. -/
def wiring (node : Node β) (registers : List Register) (cells : Register → Grid (Soquet β)) :
    List (Connection β) :=
  registers.flatMap fun r => wiresInto node r r.indices (cells r).toList

/-- The soquets of a register on a node. -/
def cellsOn (node : Node β) (r : Register) : Grid (Soquet β) := Grid.ofFn r.shape fun i => ⟨node, r, i⟩

theorem right_wiresInto {node : Node β} {reg : Register} {is : List (List Nat)}
    {ss : List (Soquet β)} (h : ss.length = is.length) :
    (wiresInto node reg is ss).map (·.right) = is.map fun i => ⟨node, reg, i⟩ := by
  induction is generalizing ss with
  | nil => rfl
  | cons i is ih =>
    cases ss with
    | nil => cases h
    | cons s ss =>
      rw [wiresInto, List.zipWith_cons_cons, List.map_cons, List.map_cons]
      exact congrArg _ (ih (Nat.succ.inj h))

theorem left_wiresInto {node : Node β} {reg : Register} {is : List (List Nat)}
    {ss : List (Soquet β)} (h : ss.length = is.length) :
    (wiresInto node reg is ss).map (·.left) = ss := by
  induction is generalizing ss with
  | nil => exact (List.length_eq_zero_iff.mp h).symm
  | cons i is ih =>
    cases ss with
    | nil => cases h
    | cons s ss =>
      rw [wiresInto, List.zipWith_cons_cons, List.map_cons]
      exact congrArg _ (ih (Nat.succ.inj h))

theorem length_cells {reg : Register} {g : Grid (Soquet β)} (h : g.shape = reg.shape) :
    g.toList.length = reg.indices.length := by
  rw [Grid.length_toList, Register.indices, length_shapeIndices, h]

theorem right_wiring {node : Node β} {registers : List Register} {cells : Register → Grid (Soquet β)}
    (h : ∀ r ∈ registers, (cells r).shape = r.shape) :
    (wiring node registers cells).map (·.right) = soquetsOn node registers := by
  rw [wiring, soquetsOn, List.map_flatMap]
  exact List.flatMap_congr fun r hr => right_wiresInto (length_cells (h r hr))

theorem left_wiring {node : Node β} {registers : List Register} {cells : Register → Grid (Soquet β)}
    (h : ∀ r ∈ registers, (cells r).shape = r.shape) :
    (wiring node registers cells).map (·.left) = registers.flatMap fun r => (cells r).toList := by
  rw [wiring, List.map_flatMap]
  exact List.flatMap_congr fun r hr => left_wiresInto (length_cells (h r hr))

/-- Draws a wire: its left soquet is used up. -/
def draw (b : Builder β) (w : Connection β) : Builder β :=
  { b with available := b.available.erase w.left.port, connections := b.connections.push w }

def drawAll (b : Builder β) (ws : List (Connection β)) : Builder β := ws.foldl draw b

/-- A builder after drawing, field by field. -/
theorem drawAll_eq (b : Builder β) (ws : List (Connection β)) :
    b.drawAll ws = { b with
      available := (b.drawAll ws).available
      connections := b.connections ++ ws.toArray } := by
  induction ws generalizing b with
  | nil => simp [drawAll]
  | cons w ws ih =>
    have h := ih (b.draw w)
    have hc : (b.draw w).connections ++ ws.toArray = b.connections ++ (w :: ws).toArray := by
      simp [draw]
    rw [hc] at h
    exact h

section
variable (b : Builder β) (ws : List (Connection β))

@[simp] theorem next_drawAll : (b.drawAll ws).next = b.next := by rw [drawAll_eq]

@[simp] theorem instances_drawAll : (b.drawAll ws).instances = b.instances := by rw [drawAll_eq]

@[simp] theorem connections_drawAll :
    (b.drawAll ws).connections = b.connections ++ ws.toArray := by rw [drawAll_eq]

@[simp] theorem registers_drawAll : (b.drawAll ws).registers = b.registers := by rw [drawAll_eq]

@[simp] theorem isOpen_drawAll : (b.drawAll ws).isOpen = b.isOpen := by rw [drawAll_eq]

end

theorem drawAll_available (b : Builder β) (ws : List (Connection β)) (p : Port) :
    (b.drawAll ws).available[p]? =
      if p ∈ ws.map (·.left.port) then none else b.available[p]? := by
  induction ws generalizing b with
  | nil => simp [drawAll]
  | cons w ws ih =>
    have h := ih (b.draw w)
    rw [draw, getElem?_erase_key] at h
    rw [drawAll, List.foldl_cons]
    refine h.trans ?_
    simp only [List.map_cons, List.mem_cons]
    by_cases hp : p = w.left.port
    · simp only [hp, true_or, if_true, ite_self]
    · simp only [hp, Ne.symm hp, false_or, if_false]

theorem drawAll_append (b : Builder β) (ws ws' : List (Connection β)) :
    b.drawAll (ws ++ ws') = (b.drawAll ws).drawAll ws' :=
  List.foldl_append

/-! ## Producing -/

theorem produce_append (b : Builder β) (ss ss' : List (Soquet β)) :
    produce (ss ++ ss') b = produce ss' (produce ss b) := by
  simp [produce]

theorem produce_available_of_not_mem {ss : List (Soquet β)} {p : Port}
    {b : Builder β} (h : p ∉ ss.map Soquet.port) : (produce ss b).available[p]? = b.available[p]? := by
  induction ss generalizing b with
  | nil => rfl
  | cons s ss ih =>
    rw [List.map_cons, List.mem_cons, not_or] at h
    have hs : (produce (s :: ss) b).available[p]? = (produce [s] b).available[p]? :=
      ih (b := produce [s] b) h.2
    rw [hs]
    exact getElem?_insert_key.trans (if_neg (Ne.symm h.1))

theorem produce_available_of_mem {ss : List (Soquet β)} {b : Builder β} (hn : (ss.map Soquet.port).Nodup)
    {s : Soquet β} (hs : s ∈ ss) : (produce ss b).available[s.port]? = some s := by
  induction ss generalizing b with
  | nil => cases hs
  | cons t ss ih =>
    obtain ⟨ht, hn⟩ := List.nodup_cons.mp hn
    cases hs with
    | head =>
      have hp : (produce (s :: ss) b).available[s.port]? = (produce [s] b).available[s.port]? :=
        produce_available_of_not_mem (b := produce [s] b) ht
      rw [hp]
      exact getElem?_insert_key.trans (if_pos rfl)
    | tail _ hs => exact ih (b := produce [t] b) hn hs

theorem addRegister_gives {b b' : Builder β} {reg : Register} {g : Option (Grid (Soquet β))} :
    Gives (addRegister reg) b g b' ↔ b.isOpen = true ∧
      (⟨b.registers ++ [reg]⟩ : Signature).Valid ∧
      if reg.side.isLeft then
        g = some (Grid.ofFn reg.shape fun i => ⟨.leftDangle, reg, i⟩) ∧
          b' = produce (soquetsOn .leftDangle [reg]) { b with registers := b.registers ++ [reg] }
      else g = none ∧ b' = { b with registers := b.registers ++ [reg] } := by
  have hs : (Grid.ofFn reg.shape fun i => (⟨.leftDangle, reg, i⟩ : Soquet β)).toList =
      soquetsOn .leftDangle [reg] := by
    simp [Grid.toList_ofFn, soquetsOn, Register.indices]
  simp only [addRegister, gives_bind, gives_get]
  constructor
  · rintro ⟨_, _, ⟨rfl, rfl⟩, h⟩
    cases ho : b.isOpen with
    | false => simp [ho] at h
    | true =>
      simp only [ho, Bool.not_true, Bool.false_eq_true, if_false, gives_bind, gives_lift,
        gives_set, Signature.ofRegisters_eq_ok] at h
      obtain ⟨_, _, ⟨⟨rfl, hv⟩, rfl⟩, _, _, rfl, h⟩ := h
      refine ⟨rfl, hv, ?_⟩
      by_cases hl : reg.side.isLeft = true
      · simp only [hl, if_true, gives_bind, gives_modify, gives_pure] at h ⊢
        obtain ⟨_, _, rfl, rfl, rfl⟩ := h
        exact ⟨rfl, by rw [hs]⟩
      · simp only [hl] at h ⊢
        obtain ⟨rfl, rfl⟩ := gives_pure.mp h
        exact ⟨rfl, rfl⟩
  · rintro ⟨ho, hv, h⟩
    refine ⟨b, b, ⟨rfl, rfl⟩, ?_⟩
    rw [if_neg (by simp [ho])]
    simp only [gives_bind, gives_lift, gives_set, Signature.ofRegisters_eq_ok]
    refine ⟨_, b, ⟨⟨rfl, hv⟩, rfl⟩, (), _, rfl, ?_⟩
    by_cases hl : reg.side.isLeft = true
    · simp only [hl, if_true] at h ⊢
      obtain ⟨rfl, rfl⟩ := h
      simp only [gives_bind, gives_modify, gives_pure]
      exact ⟨(), _, rfl, trivial, by rw [hs]⟩
    · simp only [hl] at h ⊢
      obtain ⟨rfl, rfl⟩ := h
      exact gives_pure.mpr ⟨rfl, rfl⟩

variable [BloqKind β] {b b' : Builder β}

/-- Wires that can be drawn one after another. -/
structure Drawable (b : Builder β) (ws : List (Connection β)) : Prop where
  agree : ∀ w ∈ ws, w.left.reg.dtype.isConsistentWith w.right.reg.dtype = true
  there : ∀ w ∈ ws, ∃ t, b.available[w.left.port]? = some t ∧ (t == w.left) = true
  once : (ws.map (·.left.port)).Nodup

theorem drawable_append {ws ws' : List (Connection β)} :
    b.Drawable (ws ++ ws') ↔ b.Drawable ws ∧ (b.drawAll ws).Drawable ws' := by
  constructor
  · rintro ⟨agree, there, once⟩
    rw [List.map_append, List.nodup_append] at once
    refine ⟨⟨fun w hw => agree w (List.mem_append_left _ hw),
      fun w hw => there w (List.mem_append_left _ hw), once.1⟩,
      fun w hw => agree w (List.mem_append_right _ hw), fun w hw => ?_, once.2.1⟩
    have hn : w.left.port ∉ ws.map (·.left.port) := fun h =>
      once.2.2 _ h _ (List.mem_map_of_mem hw) rfl
    rw [drawAll_available, if_neg hn]
    exact there w (List.mem_append_right _ hw)
  · rintro ⟨⟨agree, there, once⟩, agree', there', once'⟩
    have fresh : ∀ w ∈ ws', w.left.port ∉ ws.map (·.left.port) := by
      intro w hw hm
      obtain ⟨t, ht, -⟩ := there' w hw
      rw [drawAll_available, if_pos hm] at ht
      cases ht
    refine ⟨?_, ?_, ?_⟩
    · intro w hw
      exact (List.mem_append.mp hw).elim (agree w) (agree' w)
    · intro w hw
      rcases List.mem_append.mp hw with hw | hw
      · exact there w hw
      · have h := there' w hw
        rwa [drawAll_available, if_neg (fresh w hw)] at h
    · rw [List.map_append, List.nodup_append]
      refine ⟨once, once', ?_⟩
      intro p hp q hq hpq
      obtain ⟨w, hw, rfl⟩ := List.mem_map.mp hq
      exact fresh w hw (hpq ▸ hp)

theorem drawable_cons {w : Connection β} {ws : List (Connection β)} :
    b.Drawable (w :: ws) ↔ b.Drawable [w] ∧ (b.draw w).Drawable ws :=
  @drawable_append _ _ b [w] ws

theorem drawable_nil : b.Drawable [] where
  agree _ hw := absurd hw List.not_mem_nil
  there _ hw := absurd hw List.not_mem_nil
  once := List.nodup_nil

theorem takeOut_eq_some {s : Soquet β} {rest : PortMap (Soquet β)} :
    takeOut s b.available = some rest ↔
      (∃ t, b.available[s.port]? = some t ∧ (t == s) = true) ∧ rest = b.available.erase s.port := by
  unfold takeOut
  cases b.available[s.port]? with
  | none =>
    constructor
    · intro h
      cases h
    · rintro ⟨⟨t, ht, -⟩, -⟩
      cases ht
  | some t =>
    simp only [Option.some.injEq, exists_eq_left']
    by_cases h : (t == s) = true
    · rw [if_pos h, Option.some.injEq]
      constructor
      · rintro rfl
        exact ⟨h, rfl⟩
      · rintro ⟨-, rfl⟩
        rfl
    · rw [if_neg h]
      constructor
      · intro h
        cases h
      · rintro ⟨hs, -⟩
        exact absurd hs h

/-! ## Consuming -/

theorem drawable_singleton {w : Connection β} :
    b.Drawable [w] ↔ w.left.reg.dtype.isConsistentWith w.right.reg.dtype = true ∧
      ∃ t, b.available[w.left.port]? = some t ∧ (t == w.left) = true := by
  constructor
  · intro h
    exact ⟨h.agree w List.mem_cons_self, h.there w List.mem_cons_self⟩
  · rintro ⟨agree, there⟩
    refine ⟨?_, ?_, List.nodup_singleton _⟩
    · intro w' hw'
      rwa [List.mem_singleton.mp hw']
    · intro w' hw'
      rwa [List.mem_singleton.mp hw']

theorem consumeOne_gives {node : Node β} {reg : Register} {i : List Nat} {s : Soquet β} {u : Unit} :
    Gives (consumeOne node reg i s) b u b' ↔
      b.Drawable [⟨s, ⟨node, reg, i⟩⟩] ∧ b' = b.draw ⟨s, ⟨node, reg, i⟩⟩ := by
  rw [drawable_singleton, consumeOne]
  by_cases ht : s.reg.dtype.isConsistentWith reg.dtype = true
  · simp only [ht, Bool.not_true, Bool.false_eq_true, if_false, gives_bind, gives_get, true_and]
    constructor
    · rintro ⟨_, _, ⟨rfl, rfl⟩, h⟩
      cases hr : takeOut s b.available with
      | none => simp [hr] at h
      | some rest =>
        obtain ⟨there, rfl⟩ := takeOut_eq_some.mp hr
        rw [hr] at h
        exact ⟨there, (gives_set.mp h).symm⟩
    · rintro ⟨there, rfl⟩
      refine ⟨b, b, ⟨rfl, rfl⟩, ?_⟩
      rw [takeOut_eq_some.mpr ⟨there, rfl⟩]
      exact gives_set.mpr rfl
  · simp [ht]

theorem consumeEach_nil_left (node : Node β) (reg : Register) (ss : List (Soquet β)) :
    consumeEach node reg [] ss = pure () := by
  cases ss <;> rfl

theorem consumeEach_nil_right (node : Node β) (reg : Register) (is : List (List Nat)) :
    consumeEach node reg is [] = pure () := by
  cases is <;> rfl

theorem consumeEach_gives {node : Node β} {reg : Register} {is : List (List Nat)}
    {ss : List (Soquet β)} {u : Unit} :
    Gives (consumeEach node reg is ss) b u b' ↔
      b.Drawable (wiresInto node reg is ss) ∧ b' = b.drawAll (wiresInto node reg is ss) := by
  induction is generalizing b ss with
  | nil =>
    rw [consumeEach_nil_left, gives_pure]
    exact ⟨fun h => ⟨drawable_nil, h.2.symm⟩, fun h => ⟨rfl, h.2.symm⟩⟩
  | cons i is ih =>
    cases ss with
    | nil =>
      rw [consumeEach_nil_right, gives_pure]
      exact ⟨fun h => ⟨drawable_nil, h.2.symm⟩, fun h => ⟨rfl, h.2.symm⟩⟩
    | cons s ss =>
      rw [consumeEach, gives_bind, wiresInto, List.zipWith_cons_cons, drawable_cons]
      constructor
      · rintro ⟨_, c, hc, h⟩
        obtain ⟨hd, rfl⟩ := consumeOne_gives.mp hc
        obtain ⟨hds, rfl⟩ := ih.mp h
        exact ⟨⟨hd, hds⟩, rfl⟩
      · rintro ⟨⟨hd, hds⟩, rfl⟩
        exact ⟨(), _, consumeOne_gives.mpr ⟨hd, rfl⟩, ih.mpr ⟨hds, rfl⟩⟩

theorem consume_gives {node : Node β} {reg : Register} {g : Grid (Soquet β)} {u : Unit} :
    Gives (consume node reg g) b u b' ↔ g.shape = reg.shape ∧
      b.Drawable (wiresInto node reg reg.indices g.toList) ∧
      b' = b.drawAll (wiresInto node reg reg.indices g.toList) := by
  rw [consume]
  by_cases hs : g.shape = reg.shape
  · simp only [hs, ne_eq, not_true_eq_false, if_false, true_and]
    exact consumeEach_gives
  · simp [hs]

/-- Every element of the registers has got exactly one wire. -/
theorem consumeAll_gives {owner : String} {node : Node β} {registers : List Register}
    {given rest : Soquets β} (h : Gives (consumeAll owner node registers given) b rest b') :
    ∃ ws, ws.map (·.right) = soquetsOn node registers ∧ b.Drawable ws ∧ b' = b.drawAll ws := by
  induction registers generalizing b given with
  | nil =>
    obtain ⟨-, rfl⟩ := gives_pure.mp h
    exact ⟨[], rfl, drawable_nil, rfl⟩
  | cons r registers ih =>
    rw [consumeAll] at h
    split at h
    · exact (gives_throw.mp h).elim
    · obtain ⟨_, c, hc, h⟩ := gives_bind.mp h
      obtain ⟨hs, hd, rfl⟩ := consume_gives.mp hc
      obtain ⟨ws, hr, hds, rfl⟩ := ih h
      refine ⟨_ ++ ws, ?_, drawable_append.mpr ⟨hd, hds⟩, (drawAll_append _ _ _).symm⟩
      rw [List.map_append, hr, right_wiresInto (length_cells hs)]
      rfl

theorem consumeExactly_gives {owner : String} {node : Node β} {registers : List Register}
    {given : Soquets β} {u : Unit} (h : Gives (consumeExactly owner node registers given) b u b') :
    ∃ ws, ws.map (·.right) = soquetsOn node registers ∧ b.Drawable ws ∧ b' = b.drawAll ws := by
  rw [consumeExactly, gives_bind] at h
  obtain ⟨rest, c, hc, h⟩ := h
  obtain ⟨ws, hr, hd, rfl⟩ := consumeAll_gives hc
  cases hn : rest.names with
  | nil =>
    rw [hn] at h
    exact ⟨ws, hr, hd, (gives_pure.mp h).2.symm⟩
  | cons name names =>
    rw [hn] at h
    exact (gives_throw.mp h).elim

private theorem consumeAll_of_drawable {owner : String} {node : Node β} {registers : List Register}
    {cells : Register → Grid (Soquet β)} (hn : (registers.map (·.name)).Nodup)
    (hs : ∀ r ∈ registers, (cells r).shape = r.shape)
    (hd : b.Drawable (wiring node registers cells)) :
    Gives (consumeAll owner node registers (Arrays.byRegister registers cells)) b Arrays.empty
      (b.drawAll (wiring node registers cells)) := by
  induction registers generalizing b with
  | nil => exact gives_pure.mpr ⟨rfl, rfl⟩
  | cons r registers ih =>
    obtain ⟨hr, hn⟩ := List.nodup_cons.mp hn
    obtain ⟨hd, hds⟩ := drawable_append.mp hd
    rw [consumeAll, Arrays.take_byRegister hr]
    refine gives_bind.mpr ⟨(), _, consume_gives.mpr ⟨hs r List.mem_cons_self, hd, rfl⟩, ?_⟩
    have h := ih hn (fun s hs' => hs s (List.mem_cons_of_mem _ hs')) hds
    rwa [← drawAll_append] at h

theorem consumeExactly_of_drawable {owner : String} {node : Node β} {registers : List Register}
    {cells : Register → Grid (Soquet β)} (hn : (registers.map (·.name)).Nodup)
    (hs : ∀ r ∈ registers, (cells r).shape = r.shape)
    (hd : b.Drawable (wiring node registers cells)) :
    Gives (consumeExactly owner node registers (Arrays.byRegister registers cells)) b ()
      (b.drawAll (wiring node registers cells)) :=
  gives_bind.mpr ⟨_, _, consumeAll_of_drawable hn hs hd, gives_pure.mpr ⟨rfl, rfl⟩⟩

/-! ## Placing -/

/-- A builder after a bloq was placed: its outputs are produced. -/
def place (x : Instance β) (b : Builder β) : Builder β :=
  { produce (soquetsOn (.placed x) (BloqKind.signature x.bloq).rights) b with
    next := b.next + 1
    instances := b.instances.push x }

theorem place_available (x : Instance β) (b : Builder β)
    (hn : (BloqKind.signature x.bloq).rights.Nodup) (p : Port) :
    (b.place x).available[p]? = if p ∈ portsOn (x.number + 1) (BloqKind.signature x.bloq).rights
      then some ⟨.placed x, p.reg, p.index⟩ else b.available[p]? := by
  have hports := port_soquetsOn_placed x (BloqKind.signature x.bloq).rights
  by_cases hp : p ∈ portsOn (x.number + 1) (BloqKind.signature x.bloq).rights
  · obtain ⟨s, hs, rfl⟩ := List.mem_map.mp (hports ▸ hp)
    rw [if_pos hp, place, produce_available_of_mem (hports ▸ nodup_portsOn hn) hs]
    simp only [soquetsOn, List.mem_flatMap, List.mem_map] at hs
    obtain ⟨-, -, -, -, rfl⟩ := hs
    rfl
  · rw [if_neg hp, place, produce_available_of_not_mem (hports ▸ hp)]

theorem add_gives {bloq : β} {given out : Soquets β} :
    Gives (add bloq given) b out b' ↔
      ∃ c, Gives (consumeExactly (BloqKind.text bloq) (.placed ⟨b.next, bloq⟩)
          (BloqKind.signature bloq).lefts given) b () c ∧
        out = Soquets.ofNode (.placed ⟨b.next, bloq⟩) (BloqKind.signature bloq).rights ∧
        b' = c.place ⟨b.next, bloq⟩ := by
  simp only [add, gives_bind, gives_get, gives_modify, gives_pure]
  constructor
  · rintro ⟨_, _, ⟨rfl, rfl⟩, _, c, hc, _, _, rfl, rfl, rfl⟩
    exact ⟨c, hc, rfl, rfl⟩
  · rintro ⟨c, hc, rfl, rfl⟩
    exact ⟨b, b, ⟨rfl, rfl⟩, (), c, hc, (), _, rfl, rfl, rfl⟩

/-! ## How consuming fails -/

theorem consumeOne_fails {node : Node β} {reg : Register} {i : List Nat} {s : Soquet β} {e : Error}
    (h : Fails (consumeOne node reg i s) b e) : e.kind = .validation := by
  rw [consumeOne] at h
  split at h
  · obtain rfl := fails_throw.mp h
    rfl
  · obtain h | ⟨c, _, hc, h⟩ := fails_bind.mp h
    · exact (fails_get.mp h).elim
    · split at h
      · obtain rfl := fails_throw.mp h
        rfl
      · exact (fails_set.mp h).elim

theorem consumeEach_fails {node : Node β} {reg : Register} {is : List (List Nat)}
    {ss : List (Soquet β)} {e : Error} (h : Fails (consumeEach node reg is ss) b e) :
    e.kind = .validation := by
  induction is generalizing b ss with
  | nil =>
    rw [consumeEach_nil_left] at h
    exact (fails_pure.mp h).elim
  | cons i is ih =>
    cases ss with
    | nil =>
      rw [consumeEach_nil_right] at h
      exact (fails_pure.mp h).elim
    | cons s ss =>
      obtain h | ⟨_, c, -, h⟩ := fails_bind.mp h
      · exact consumeOne_fails h
      · exact ih h

theorem consumeAll_fails {owner : String} {node : Node β} {registers : List Register}
    {given : Soquets β} {e : Error} (h : Fails (consumeAll owner node registers given) b e) :
    e.kind = .validation := by
  induction registers generalizing b given with
  | nil => exact (fails_pure.mp h).elim
  | cons r registers ih =>
    rw [consumeAll] at h
    split at h
    · obtain rfl := fails_throw.mp h
      rfl
    · obtain h | ⟨_, c, -, h⟩ := fails_bind.mp h
      · rw [consume] at h
        split at h
        · obtain rfl := fails_throw.mp h
          rfl
        · exact consumeEach_fails h
      · exact ih h

theorem consumeExactly_fails {owner : String} {node : Node β} {registers : List Register}
    {given : Soquets β} {e : Error} (h : Fails (consumeExactly owner node registers given) b e) :
    e.kind = .validation := by
  obtain h | ⟨rest, c, -, h⟩ := fails_bind.mp h
  · exact consumeAll_fails h
  · split at h
    · exact (fails_pure.mp h).elim
    · obtain rfl := fails_throw.mp h
      rfl

/-! ## How consuming is refused -/

/-- A soquet of the right type is refused only because it is not available. -/
theorem consumeOne_refused {node : Node β} {reg : Register} {i : List Nat} {s : Soquet β}
    (ht : s.reg.dtype.isConsistentWith reg.dtype = true)
    (hd : ¬ b.Drawable [⟨s, ⟨node, reg, i⟩⟩]) :
    Fails (consumeOne node reg i s) b (.soquetNotAvailable s.text) := by
  have hnone : takeOut s b.available = none := by
    cases hrest : takeOut s b.available with
    | none => rfl
    | some rest => exact absurd (drawable_singleton.mpr ⟨ht, (takeOut_eq_some.mp hrest).1⟩) hd
  rw [consumeOne, if_neg (by simp [ht])]
  refine fails_bind.mpr (.inr ⟨b, b, gives_get.mpr ⟨rfl, rfl⟩, ?_⟩)
  rw [hnone]
  exact fails_throw.mpr rfl

theorem consumeEach_refused {node : Node β} {reg : Register} {is : List (List Nat)}
    {ss : List (Soquet β)}
    (ht : ∀ w ∈ wiresInto node reg is ss,
      w.left.reg.dtype.isConsistentWith w.right.reg.dtype = true)
    (hd : ¬ b.Drawable (wiresInto node reg is ss)) :
    ∃ s ∈ ss, Fails (consumeEach node reg is ss) b (.soquetNotAvailable s.text) := by
  induction is generalizing b ss with
  | nil => exact absurd drawable_nil hd
  | cons i is ih =>
    cases ss with
    | nil => exact absurd drawable_nil hd
    | cons s ss =>
      rw [wiresInto, List.zipWith_cons_cons] at ht hd
      rw [drawable_cons, not_and] at hd
      have hs := ht _ List.mem_cons_self
      by_cases hone : b.Drawable [⟨s, ⟨node, reg, i⟩⟩]
      · obtain ⟨s', hs', hfails⟩ := ih (fun w hw => ht w (List.mem_cons_of_mem _ hw)) (hd hone)
        refine ⟨s', List.mem_cons_of_mem _ hs', ?_⟩
        exact fails_bind.mpr (.inr ⟨(), _, consumeOne_gives.mpr ⟨hone, rfl⟩, hfails⟩)
      · exact ⟨s, List.mem_cons_self, fails_bind.mpr (.inl (consumeOne_refused hs hone))⟩

private theorem consumeAll_refused (owner : String) {node : Node β} {registers : List Register}
    {cells : Register → Grid (Soquet β)} (hn : (registers.map (·.name)).Nodup)
    (hs : ∀ r ∈ registers, (cells r).shape = r.shape)
    (ht : ∀ w ∈ wiring node registers cells,
      w.left.reg.dtype.isConsistentWith w.right.reg.dtype = true)
    (hd : ¬ b.Drawable (wiring node registers cells)) :
    ∃ s ∈ registers.flatMap (fun r => (cells r).toList),
      Fails (consumeAll owner node registers (Arrays.byRegister registers cells)) b
        (.soquetNotAvailable s.text) := by
  induction registers generalizing b with
  | nil => exact absurd drawable_nil hd
  | cons r registers ih =>
    obtain ⟨hr, hn⟩ := List.nodup_cons.mp hn
    have hshape := hs r List.mem_cons_self
    rw [wiring, List.flatMap_cons] at ht hd
    rw [drawable_append, not_and] at hd
    rw [consumeAll, Arrays.take_byRegister hr, List.flatMap_cons]
    by_cases hfirst : b.Drawable (wiresInto node r r.indices (cells r).toList)
    · obtain ⟨s, hmem, hfails⟩ := ih hn (fun t ht' => hs t (List.mem_cons_of_mem _ ht'))
        (fun w hw => ht w (List.mem_append_right _ hw)) (hd hfirst)
      refine ⟨s, List.mem_append_right _ hmem, fails_bind.mpr (.inr ⟨(), _, ?_, hfails⟩)⟩
      exact consume_gives.mpr ⟨hshape, hfirst, rfl⟩
    · obtain ⟨s, hmem, hfails⟩ :=
        consumeEach_refused (fun w hw => ht w (List.mem_append_left _ hw)) hfirst
      refine ⟨s, List.mem_append_left _ hmem, fails_bind.mpr (.inl ?_)⟩
      rw [consume, if_neg (not_not.mpr hshape)]
      exact hfails

/-- If all types are right, the inputs of a bloq are refused only because one of the soquets is not
available, or not any more. -/
theorem add_refused {bloq : β} (hv : (BloqKind.signature bloq).Valid)
    {cells : Register → Grid (Soquet β)}
    (hs : ∀ r ∈ (BloqKind.signature bloq).lefts, (cells r).shape = r.shape)
    (ht : ∀ w ∈ wiring (.placed ⟨b.next, bloq⟩) (BloqKind.signature bloq).lefts cells,
      w.left.reg.dtype.isConsistentWith w.right.reg.dtype = true)
    (hd : ¬ b.Drawable (wiring (.placed ⟨b.next, bloq⟩) (BloqKind.signature bloq).lefts cells)) :
    ∃ s ∈ (BloqKind.signature bloq).lefts.flatMap (fun r => (cells r).toList),
      Fails (add bloq (Arrays.byRegister (BloqKind.signature bloq).lefts cells)) b
        (.soquetNotAvailable s.text) := by
  obtain ⟨s, hmem, hfails⟩ := consumeAll_refused (BloqKind.text bloq) hv.nodup_lefts hs ht hd
  refine ⟨s, hmem, fails_bind.mpr (.inr ⟨b, b, gives_get.mpr ⟨rfl, rfl⟩, ?_⟩)⟩
  exact fails_bind.mpr (.inl (fails_bind.mpr (.inl hfails)))

end Builder
end BloqCircuit
