import BloqCircuit.Proofs.Linear
/-! Builders after calls that failed. A failed call leaves the wires that it drew before it failed, and
the number of its instance is used again. -/
namespace BloqCircuit

namespace Builder

/-! ## What failed calls draw -/

section
variable {β : Type} [BloqKind β] {b b' : Builder β} {node : Node β} {e : Error}

theorem consumeOne_leaves {reg : Register} {i : List Nat} {s : Soquet β}
    (h : Leaves (consumeOne node reg i s) b e b') : b' = b := by
  rw [consumeOne] at h
  split at h
  · exact (leaves_throw.mp h).2.symm
  · obtain h | ⟨c, d, hc, h⟩ := leaves_bind.mp h
    · exact (leaves_get.mp h).elim
    · obtain ⟨rfl, rfl⟩ := gives_get.mp hc
      split at h
      · exact (leaves_throw.mp h).2.symm
      · exact (leaves_set.mp h).elim

theorem consumeEach_leaves {reg : Register} {is : List (List Nat)} {ss : List (Soquet β)}
    (h : Leaves (consumeEach node reg is ss) b e b') : ∃ ws, b.Drawable ws ∧ b' = b.drawAll ws := by
  induction is generalizing b ss with
  | nil =>
    rw [consumeEach_nil_left] at h
    exact (leaves_pure.mp h).elim
  | cons i is ih =>
    cases ss with
    | nil =>
      rw [consumeEach_nil_right] at h
      exact (leaves_pure.mp h).elim
    | cons s ss =>
      obtain h | ⟨_, c, hc, h⟩ := leaves_bind.mp h
      · exact ⟨[], drawable_nil, consumeOne_leaves h⟩
      · obtain ⟨hd, rfl⟩ := consumeOne_gives.mp hc
        obtain ⟨ws, hds, rfl⟩ := ih h
        exact ⟨_ :: ws, drawable_cons.mpr ⟨hd, hds⟩, rfl⟩

theorem consume_leaves {reg : Register} {g : Grid (Soquet β)}
    (h : Leaves (consume node reg g) b e b') : ∃ ws, b.Drawable ws ∧ b' = b.drawAll ws := by
  rw [consume] at h
  split at h
  · exact ⟨[], drawable_nil, (leaves_throw.mp h).2.symm⟩
  · exact consumeEach_leaves h

theorem consumeAll_leaves {owner : String} {registers : List Register} {given : Soquets β}
    (h : Leaves (consumeAll owner node registers given) b e b') :
    ∃ ws, b.Drawable ws ∧ b' = b.drawAll ws := by
  induction registers generalizing b given with
  | nil => exact (leaves_pure.mp h).elim
  | cons r registers ih =>
    rw [consumeAll] at h
    split at h
    · exact ⟨[], drawable_nil, (leaves_throw.mp h).2.symm⟩
    · obtain h | ⟨_, c, hc, h⟩ := leaves_bind.mp h
      · exact consume_leaves h
      · obtain ⟨-, hd, rfl⟩ := consume_gives.mp hc
        obtain ⟨ws, hds, rfl⟩ := ih h
        exact ⟨_ ++ ws, drawable_append.mpr ⟨hd, hds⟩, (drawAll_append _ _ _).symm⟩

theorem consumeExactly_leaves {owner : String} {registers : List Register} {given : Soquets β}
    (h : Leaves (consumeExactly owner node registers given) b e b') :
    ∃ ws, b.Drawable ws ∧ b' = b.drawAll ws := by
  obtain h | ⟨rest, c, hc, h⟩ := leaves_bind.mp h
  · exact consumeAll_leaves h
  · obtain ⟨ws, -, hd, rfl⟩ := consumeAll_gives hc
    split at h
    · exact (leaves_pure.mp h).elim
    · exact ⟨ws, hd, (leaves_throw.mp h).2.symm⟩

/-- Placing a bloq fails only while its inputs are wired. -/
theorem add_leaves {bloq : β} {given : Soquets β} (h : Leaves (add bloq given) b e b') :
    ∃ ws, b.Drawable ws ∧ b' = b.drawAll ws := by
  simp only [add, leaves_bind, leaves_get, leaves_modify, leaves_pure, gives_get, gives_modify,
    false_or, and_false, exists_false, or_false] at h
  obtain ⟨_, _, ⟨rfl, rfl⟩, h⟩ := h
  exact consumeExactly_leaves h

omit [BloqKind β] in
theorem addRegister_leaves {reg : Register} (h : Leaves (addRegister reg) b e b') : b' = b := by
  simp only [addRegister, leaves_bind, leaves_get, gives_get, false_or] at h
  obtain ⟨_, _, ⟨rfl, rfl⟩, h⟩ := h
  split at h
  · obtain h | ⟨_, _, h, -⟩ := leaves_bind.mp h
    · exact (leaves_throw.mp h).2.symm
    · exact (gives_throw.mp h).elim
  · obtain h | ⟨_, _, -, h⟩ := leaves_bind.mp h
    · exact (leaves_lift.mp h).2.symm
    · split at h
      · simp only [leaves_bind, leaves_set, leaves_modify, leaves_pure, and_false, exists_false,
          or_false] at h
      · simp only [leaves_bind, leaves_set, leaves_pure, and_false, exists_false, or_false] at h

end

section
variable {α κ : Type} [Angle α] {b b' : Builder (Bloq α κ)} {e : Error}

/-- What a bookkeeping bloq puts out is under the name of its bundle. -/
theorem split_leaves {s : Soquet (Bloq α κ)} (h : Leaves (split s) b e b') :
    Leaves (add (BloqKind.split s.reg.dtype) (scalarArg s)) b e b' := by
  obtain h | ⟨out, c, hc, h⟩ := leaves_bind.mp h
  · exact h
  · obtain ⟨-, -, rfl, -⟩ := add_gives.mp hc
    rw [show (BloqKind.signature (BloqKind.split s.reg.dtype : Bloq α κ)).rights = _ from
      Bloq.rights_split _] at h
    exact (leaves_pure.mp h).elim

theorem join_leaves {bits : Grid (Soquet (Bloq α κ))} {dtype? : Option DataType}
    (h : Leaves (join bits dtype?) b e b') : b' = b ∨ ∃ dtype,
      Leaves (add (BloqKind.join dtype : Bloq α κ) ⟨[(bundleName, bits)]⟩) b e b' := by
  simp only [join] at h
  split at h
  · obtain h | ⟨_, _, h, -⟩ := leaves_bind.mp h
    · exact .inl (leaves_throw.mp h).2.symm
    · exact (gives_throw.mp h).elim
  · obtain h | ⟨out, c, hc, h⟩ := leaves_bind.mp h
    · exact .inr ⟨_, h⟩
    · obtain ⟨-, -, rfl, -⟩ := add_gives.mp hc
      have hs := (leaves_lift.mp h).1
      rw [show (BloqKind.signature (BloqKind.join _ : Bloq α κ)).rights = _ from Bloq.rights_join _,
        Soquets.ofNode_eq] at hs
      · cases (Soquets.single_scalar _ _).symm.trans hs
      · exact List.nodup_singleton _

theorem allocate_leaves {t : DataType} (h : Leaves (allocate t) b e b') :
    Leaves (add (BloqKind.allocate t : Bloq α κ) Arrays.empty) b e b' := by
  obtain h | ⟨out, c, hc, h⟩ := leaves_bind.mp h
  · exact h
  · obtain ⟨-, -, rfl, -⟩ := add_gives.mp hc
    have hs := (leaves_lift.mp h).1
    rw [show (BloqKind.signature (BloqKind.allocate t : Bloq α κ)).rights = _ from
      Bloq.rights_allocate _, Soquets.ofNode_eq] at hs
    · cases (Soquets.single_scalar _ _).symm.trans hs
    · exact List.nodup_singleton _

theorem free_leaves {s : Soquet (Bloq α κ)} (h : Leaves (free s) b e b') :
    Leaves (add (BloqKind.free s.reg.dtype) (scalarArg s)) b e b' := by
  obtain h | ⟨out, c, hc, h⟩ := leaves_bind.mp h
  · exact h
  · exact (leaves_pure.mp h).elim

end

/-! ## Lost wires -/

section
variable {β : Type} [BloqKind β] {b s : Builder β} {lost ws : List (Connection β)}

theorem Drawable.perm {ws' : List (Connection β)} (h : b.Drawable ws) (hp : ws.Perm ws') :
    b.Drawable ws' where
  agree w hw := h.agree w (hp.mem_iff.mpr hw)
  there w hw := h.there w (hp.mem_iff.mpr hw)
  once := (hp.map _).nodup_iff.mp h.once

/-- What can be drawn depends only on what is available. -/
theorem Drawable.of_available {b' : Builder β} (h : b.Drawable ws)
    (ha : b.available = b'.available) : b'.Drawable ws :=
  ⟨h.agree, fun w hw => ha ▸ h.there w hw, h.once⟩

/-- A builder differs from a sound one in wires that are lost: they were drawn among the others, and
nothing was placed at their ends. -/
structure Strays (b s : Builder β) (lost : List (Connection β)) : Prop where
  sound : s.Sound
  drawable : s.Drawable lost
  wires : b.connections.toList.Perm (s.connections.toList ++ lost)
  next : b.next = s.next
  instances : b.instances = s.instances
  registers : b.registers = s.registers
  isOpen : b.isOpen = s.isOpen
  available : b.available = (s.drawAll lost).available

theorem Sound.strays (h : s.Sound) : s.Strays s [] where
  sound := h
  drawable := drawable_nil
  wires := by rw [List.append_nil]
  next := rfl
  instances := rfl
  registers := rfl
  isOpen := rfl
  available := rfl

theorem Strays.wires_append (h : b.Strays s lost) (ws : List (Connection β)) :
    (b.connections.toList ++ ws).Perm (s.connections.toList ++ ws ++ lost) := by
  refine (h.wires.append_right ws).trans ?_
  rw [List.append_assoc, List.append_assoc]
  exact List.perm_append_comm.append_left _

/-- What the builder can draw, the sound one can draw before the lost wires are drawn. -/
theorem Strays.commute (h : b.Strays s lost) (hd : b.Drawable ws) :
    s.Drawable ws ∧ (s.drawAll ws).Drawable lost :=
  drawable_append.mp ((drawable_append.mpr ⟨h.drawable, hd.of_available h.available⟩).perm
    List.perm_append_comm)

omit [BloqKind β] in
theorem drawAll_available_comm (s : Builder β) (ws lost : List (Connection β)) :
    ((s.drawAll lost).drawAll ws).available = ((s.drawAll ws).drawAll lost).available := by
  refine Std.ExtTreeMap.ext_getElem? fun p => ?_
  simp only [drawAll_available]
  split <;> split <;> rfl

omit [BloqKind β] in
theorem drawAll_available_congr {b' : Builder β} (h : b.available = b'.available)
    (ws : List (Connection β)) : (b.drawAll ws).available = (b'.drawAll ws).available := by
  refine Std.ExtTreeMap.ext_getElem? fun p => ?_
  rw [drawAll_available, drawAll_available, h]

/-- Wires that a failed call draws are lost. -/
theorem Strays.draw (h : b.Strays s lost) (hd : b.Drawable ws) :
    (b.drawAll ws).Strays s (lost ++ ws) where
  sound := h.sound
  drawable := drawable_append.mpr ⟨h.drawable, hd.of_available h.available⟩
  wires := by
    rw [connections_drawAll, Array.toList_append, ← List.append_assoc]
    exact h.wires.append_right ws
  next := (next_drawAll b ws).trans h.next
  instances := (instances_drawAll b ws).trans h.instances
  registers := (registers_drawAll b ws).trans h.registers
  isOpen := (isOpen_drawAll b ws).trans h.isOpen
  available := by rw [drawAll_append, drawAll_available_congr h.available]

/-- New soquets do not touch wires that start elsewhere. -/
theorem Drawable.produce (h : b.Drawable lost) {ss : List (Soquet β)}
    (hf : ∀ p ∈ lost.map (·.left.port), p ∉ ss.map Soquet.port) : (produce ss b).Drawable lost where
  agree := h.agree
  there w hw := by
    rw [produce_available_of_not_mem (hf _ (List.mem_map_of_mem hw))]
    exact h.there w hw
  once := h.once

omit [BloqKind β] in
theorem produce_drawAll_available {ss : List (Soquet β)} (hn : (ss.map Soquet.port).Nodup)
    (hf : ∀ p ∈ lost.map (·.left.port), p ∉ ss.map Soquet.port)
    (ha : b.available = (s.drawAll lost).available) :
    (produce ss b).available = ((produce ss s).drawAll lost).available := by
  refine Std.ExtTreeMap.ext_getElem? fun p => ?_
  rw [drawAll_available]
  by_cases hp : p ∈ ss.map Soquet.port
  · rw [if_neg fun hl => hf p hl hp]
    obtain ⟨t, ht, rfl⟩ := List.mem_map.mp hp
    rw [produce_available_of_mem hn ht, produce_available_of_mem hn ht]
  · rw [produce_available_of_not_mem hp, produce_available_of_not_mem hp, ha, drawAll_available]

theorem Strays.lost_mem (h : b.Strays s lost) {p : Port} (hp : p ∈ lost.map (·.left.port)) :
    p ∈ s.outPorts := by
  obtain ⟨w, hw, rfl⟩ := List.mem_map.mp hp
  exact (h.drawable.fresh h.sound hw).1

/-- A bloq is placed beside the lost wires as it is without them. -/
theorem Strays.place (h : b.Strays s lost) {bloq : β} (hv : (BloqKind.signature bloq).Valid)
    (hd : b.Drawable ws)
    (hr : ws.map (·.right) = soquetsOn (.placed ⟨b.next, bloq⟩) (BloqKind.signature bloq).lefts) :
    ((b.drawAll ws).place ⟨b.next, bloq⟩).Strays ((s.drawAll ws).place ⟨b.next, bloq⟩) lost := by
  obtain ⟨hds, hlost⟩ := h.commute hd
  have hports := port_soquetsOn_placed ⟨b.next, bloq⟩ (BloqKind.signature bloq).rights
  have hfresh : ∀ p ∈ lost.map (·.left.port),
      p ∉ (soquetsOn (.placed ⟨b.next, bloq⟩) (BloqKind.signature bloq).rights).map Soquet.port := by
    intro p hp hm
    rw [hports] at hm
    change p ∈ portsOn (b.next + 1) _ at hm
    rw [h.next] at hm
    exact h.sound.not_mem_outPorts hm (h.lost_mem hp)
  constructor
  case sound =>
    rw [h.next] at hr ⊢
    exact h.sound.place hv hds hr
  case drawable => exact (hlost.produce hfresh).of_available rfl
  case wires =>
    rw [connections_place_drawAll, connections_place_drawAll, Array.toList_append,
      Array.toList_append]
    exact h.wires_append ws
  case next => exact congrArg (· + 1) ((next_drawAll b ws).trans (h.next.trans (next_drawAll s ws).symm))
  case instances => rw [instances_place_drawAll, instances_place_drawAll, h.instances]
  case registers => exact (registers_drawAll b ws).trans (h.registers.trans (registers_drawAll s ws).symm)
  case isOpen => exact (isOpen_drawAll b ws).trans (h.isOpen.trans (isOpen_drawAll s ws).symm)
  case available =>
    have ha : (b.drawAll ws).available = ((s.drawAll ws).drawAll lost).available := by
      rw [drawAll_available_congr h.available, drawAll_available_comm]
    refine (produce_drawAll_available (hports ▸ nodup_portsOn hv.nodup_rights.of_map) hfresh
      ha).trans (drawAll_available_congr ?_ lost)
    rfl

theorem Strays.withRegisters (h : b.Strays s lost) {registers : List Register}
    (hv : (⟨registers⟩ : Signature).Valid)
    (hl : (⟨registers⟩ : Signature).lefts = (⟨s.registers⟩ : Signature).lefts) :
    Strays { b with registers := registers } { s with registers := registers } lost where
  sound := h.sound.withRegisters hv hl
  drawable := h.drawable.of_available rfl
  wires := h.wires
  next := h.next
  instances := h.instances
  registers := rfl
  isOpen := h.isOpen
  available := by
    refine h.available.trans (drawAll_available_congr ?_ lost)
    rfl

theorem Strays.withImplied (h : b.Strays s lost) {final : Soquets β}
    (hv : (⟨(b.withImplied final).registers⟩ : Signature).Valid) :
    (b.withImplied final).Strays (s.withImplied final) lost := by
  have ho := h.isOpen
  unfold Builder.withImplied at hv ⊢
  split at hv
  · next hb =>
    rw [if_pos hb, if_pos (ho ▸ hb), ← h.registers]
    refine h.withRegisters hv ?_
    rw [lefts_addImplied, h.registers]
  · next hb =>
    rw [if_neg hb, if_neg (ho ▸ hb)]
    exact h

/-- A register is added beside the lost wires as it is without them. -/
theorem Strays.addRegister (h : b.Strays s lost) {reg : Register} {g : Option (Grid (Soquet β))}
    {b' : Builder β} (ha : Gives (addRegister reg) b g b') : ∃ s', b'.Strays s' lost := by
  obtain ⟨-, hv, ha⟩ := addRegister_gives.mp ha
  rw [h.registers] at hv ha
  split at ha
  · next hl =>
    obtain ⟨-, rfl⟩ := ha
    have hports : (soquetsOn (.leftDangle : Node β) [reg]).map Soquet.port = portsOn 0 [reg] :=
      port_soquetsOn_leftDangle [reg]
    have hfresh : ∀ p ∈ lost.map (·.left.port),
        p ∉ (soquetsOn (.leftDangle : Node β) [reg]).map Soquet.port := by
      intro p hp hm
      exact input_fresh hv hl p (hports ▸ hm) (h.lost_mem hp)
    refine ⟨_, h.sound.addInput hv hl, ?_, h.wires, h.next, h.instances, rfl, h.isOpen, ?_⟩
    · exact (h.drawable.produce hfresh).of_available rfl
    · refine (produce_drawAll_available (hports ▸ nodup_portsOn (List.nodup_singleton reg)) hfresh
        h.available).trans (drawAll_available_congr ?_ lost)
      rfl
  · next hl =>
    obtain ⟨-, rfl⟩ := ha
    refine ⟨_, h.withRegisters hv ?_⟩
    simp [Signature.lefts, List.filter_append, hl]

theorem Strays.add (h : b.Strays s lost) {bloq : β} (hv : (BloqKind.signature bloq).Valid)
    {given out : Soquets β} {b' : Builder β} (ha : Gives (add bloq given) b out b') :
    ∃ s', b'.Strays s' lost := by
  obtain ⟨c, hc, -, rfl⟩ := add_gives.mp ha
  obtain ⟨ws, hr, hd, rfl⟩ := consumeExactly_gives hc
  exact ⟨_, h.place hv hd hr⟩

end

end Builder

/-! ## Assembling -/

namespace Composite
variable {β : Type} [BloqKind β] {instances : List (Instance β)}

theorem nodeOf_eq_ok (hn : instances.map (·.number) = List.range instances.length) {s : Soquet β}
    {v : Nat} (h : nodeOf instances.length (numbering instances) s = .ok v) :
    v = numberOf instances.length s.node := by
  rcases cases_of_nodeOf h with ⟨hs, rfl⟩ | ⟨hs, rfl⟩ | ⟨x, y, hs, h1, hx, hnumber⟩
  · rw [hs]
    rfl
  · rw [hs]
    rfl
  · have := Instance.number_eq hn hx
    rw [hs]
    show v = y.number + 1
    omega

theorem edgesOf_eq_ok (hn : instances.map (·.number) = List.range instances.length)
    {connections : List (Connection β)} {es : List (Edge β)}
    (h : edgesOf instances connections = .ok es) :
    es = connections.map (edgeOf instances.length) := by
  unfold edgesOf at h
  induction connections generalizing es with
  | nil =>
    cases h
    rfl
  | cons w connections ih =>
    rw [List.mapM_cons] at h
    obtain ⟨e, he, h⟩ := bind_eq_ok.mp h
    obtain ⟨source, hsource, he⟩ := bind_eq_ok.mp he
    obtain ⟨target, htarget, he⟩ := bind_eq_ok.mp he
    obtain ⟨rest, hrest, h⟩ := bind_eq_ok.mp h
    cases he
    cases h
    rw [nodeOf_eq_ok hn hsource, nodeOf_eq_ok hn htarget, ih hrest]
    rfl

theorem assemble_eq_ok (hn : instances.map (·.number) = List.range instances.length)
    {signature : Signature} {connections : List (Connection β)} {c : Composite β}
    (h : assemble signature instances connections = .ok c) :
    c = ⟨signature, instances, connections.map (edgeOf instances.length)⟩ := by
  obtain ⟨es, hes, h⟩ := bind_eq_ok.mp h
  obtain rfl := edgesOf_eq_ok hn hes
  dsimp only at h
  split at h
  · cases h
    rfl
  · cases h

end Composite

/-! ## Closing -/

namespace Builder
variable {β : Type} [BloqKind β] {b s : Builder β} {lost ws : List (Connection β)}

/-- All wires of a builder that closes come from outputs of the sound one, each from its own. -/
theorem Strays.starts (h : b.Strays s lost) (hc : b.Closes ws) :
    ((b.closed ws).edges.map Edge.start).Nodup ∧
      ∀ p, p ∈ (b.closed ws).edges.map Edge.start ↔ p ∈ (b.closed ws).outPorts := by
  have hd : s.Drawable (lost ++ ws) :=
    drawable_append.mpr ⟨h.drawable, hc.drawable.of_available h.available⟩
  have hempty : ∀ p : Port, (s.drawAll (lost ++ ws)).available[p]? = none := by
    intro p
    rw [drawAll_append, ← drawAll_available_congr h.available, hc.empty p]
  have hwires : (b.connections.toList ++ ws).Perm (s.connections.toList ++ (lost ++ ws)) := by
    rw [← List.append_assoc]
    exact h.wires.append_right ws
  have hmeets : ∀ w ∈ b.connections.toList ++ ws, s.Meets w.left.node := by
    intro w hw
    rcases List.mem_append.mp (hwires.mem_iff.mp hw) with hw | hw
    · exact h.sound.meets w (Array.mem_toList_iff.mp hw)
    · exact hd.meets h.sound hw
  have hstarts : ((b.closed ws).edges.map Edge.start).Perm
      (s.usedPorts ++ (lost ++ ws).map (·.left.port)) := by
    rw [closed, List.map_map, usedPorts, ← List.map_append]
    exact (List.map_congr_left fun w hw => (hmeets w hw).start_edgeOf _) ▸ hwires.map _
  have hout : (b.closed ws).outPorts = s.outPorts := by
    rw [Composite.outPorts, closed, h.registers, h.instances]
    rfl
  obtain ⟨honce, hall⟩ := hd.exhausts h.sound hempty
  refine ⟨hstarts.nodup_iff.mpr honce, fun p => ?_⟩
  rw [hstarts.mem_iff, hall, hout]

/-- One wire ends at each input of a builder that closes, and besides them the lost wires end. -/
theorem Strays.stops (h : b.Strays s lost) (hc : b.Closes ws) :
    ((b.closed ws).edges.map Edge.stop).Perm ((b.closed ws).inPorts ++
      lost.map fun w => (Composite.edgeOf b.instances.toList.length w).stop) := by
  have hright : (s.connections.toList ++ ws).map (·.right) = (b.instances.toList.flatMap fun x =>
      soquetsOn (.placed x) (BloqKind.signature x.bloq).lefts) ++
        soquetsOn .rightDangle (⟨b.registers⟩ : Signature).rights := by
    rw [List.map_append, h.sound.rights, hc.rights, h.instances]
  have hin : (b.closed ws).inPorts =
      ((s.connections.toList ++ ws).map (Composite.edgeOf b.instances.toList.length)).map Edge.stop :=
    (stops_edgeOf _ hright).symm
  rw [hin, closed, List.map_map, List.map_map]
  exact List.map_append ▸ (h.wires_append ws).map _

end Builder

section
variable {α κ : Type} [Angle α]

/-- One call that fails. -/
inductive Builder.Failed (b : Builder (Bloq α κ)) : Builder (Bloq α κ) → Prop
  | addRegister {reg e b'} : Leaves (addRegister reg) b e b' → Failed b b'
  | add {bloq given e b'} : Leaves (add bloq given) b e b' → Failed b b'
  | split {s e b'} : Leaves (split s) b e b' → Failed b b'
  | join {bits dtype? e b'} : Leaves (join bits dtype?) b e b' → Failed b b'
  | allocate {dtype e b'} : Leaves (allocate dtype) b e b' → Failed b b'
  | free {s e b'} : Leaves (free s) b e b' → Failed b b'

/-- A builder after any calls, of which some failed, with the wires that the failed ones drew. -/
inductive Builder.Tried : Builder (Bloq α κ) → List (Connection (Bloq α κ)) → Prop
  | new : Tried {} []
  | start {signature isOpen out b} : Gives (Builder.start signature isOpen) {} out b → Tried b []
  | call {b b' lost} : Tried b lost → b.Call b' → Tried b' lost
  | failed {b b' lost ws} : Tried b lost → b.Failed b' →
      b'.connections = b.connections ++ ws.toArray → Tried b' (lost ++ ws)

variable {b b' : Builder (Bloq α κ)} {lost : List (Connection (Bloq α κ))}

/-- A failed call draws some wires and changes nothing else. -/
theorem Builder.Failed.draws (h : b.Failed b') : ∃ ws, b.Drawable ws ∧ b' = b.drawAll ws := by
  cases h with
  | addRegister h => exact ⟨[], drawable_nil, addRegister_leaves h⟩
  | add h => exact add_leaves h
  | split h => exact add_leaves (split_leaves h)
  | join h =>
    rcases join_leaves h with h | ⟨dtype, h⟩
    · exact ⟨[], drawable_nil, h⟩
    · exact add_leaves h
  | allocate h => exact add_leaves (allocate_leaves h)
  | free h => exact add_leaves (free_leaves h)

/-- The wires that a failed call draws are told by the connections that it leaves. -/
theorem Builder.Failed.eq_drawAll (h : b.Failed b') {ws : List (Connection (Bloq α κ))}
    (hw : b'.connections = b.connections ++ ws.toArray) : b.Drawable ws ∧ b' = b.drawAll ws := by
  obtain ⟨ws', hd, rfl⟩ := h.draws
  rw [connections_drawAll, Array.append_right_inj] at hw
  obtain rfl : ws' = ws := congrArg Array.toList hw
  exact ⟨hd, rfl⟩

theorem Builder.Strays.call {s : Builder (Bloq α κ)} (h : b.Strays s lost) (hc : b.Call b') :
    ∃ s', b'.Strays s' lost := by
  obtain ⟨reg, g, hc⟩ | ⟨bloq, given, out, hv, hc⟩ := hc.adds
  · exact h.addRegister hc
  · exact h.add hv hc

theorem Builder.Tried.strays (h : b.Tried lost) : ∃ s, b.Strays s lost := by
  induction h with
  | new => exact ⟨_, Sound.empty.strays⟩
  | start hs => exact ⟨_, (Sound.empty.start hs).strays⟩
  | call _ hc ih =>
    obtain ⟨s, ih⟩ := ih
    exact ih.call hc
  | failed _ hf hw ih =>
    obtain ⟨s, ih⟩ := ih
    obtain ⟨hd, rfl⟩ := hf.eq_drawAll hw
    exact ⟨s, ih.draw hd⟩

/-- If the failed calls drew no wires, they might as well not have been made. -/
theorem Builder.Tried.reached (h : b.Tried lost) (hl : lost = []) : b.Reached := by
  induction h with
  | new => exact .new
  | start hs => exact .start hs
  | call _ hc ih => exact .call (ih hl) hc
  | failed _ hf hw ih =>
    obtain ⟨rfl, rfl⟩ := List.append_eq_nil_iff.mp hl
    obtain ⟨-, rfl⟩ := hf.eq_drawAll hw
    exact ih rfl

/-- What is put together after failed calls has one wire out of every output and one wire into every
input, and besides the lost wires. It is linear exactly if none was lost. -/
theorem Builder.Tried.finalize_ends (h : b.Tried lost) {final : Soquets (Bloq α κ)}
    {c : Composite (Bloq α κ)} (hf : Gives (finalize final) b c b') :
    (c.edges.map Edge.start).Nodup ∧ (∀ p, p ∈ c.edges.map Edge.start ↔ p ∈ c.outPorts) ∧
      c.inPorts.Nodup ∧ (c.edges.map Edge.stop).Perm
        (c.inPorts ++ lost.map fun w => (Composite.edgeOf c.instances.length w).stop) ∧
      (c.Linear ↔ lost = []) := by
  obtain ⟨hv, ws, hc, ha⟩ := finalize_gives hf
  obtain ⟨s, hs⟩ := h.strays
  have hs := hs.withImplied hv
  have hin : ((b.withImplied final).closed ws).inPorts.Nodup := by
    rw [Composite.inPorts, closed, hs.registers, hs.instances]
    exact hs.sound.nodup_inPorts ws
  obtain rfl : c = (b.withImplied final).closed ws := by
    refine Composite.assemble_eq_ok ?_ ha
    rw [hs.instances]
    exact hs.sound.numbers
  obtain ⟨hnodup, hall⟩ := hs.starts hc
  have hstops := hs.stops hc
  refine ⟨hnodup, hall, hin, hstops, fun hl => ?_, fun hl => (h.reached hl).linear hf⟩
  have hsame := (List.perm_ext_iff_of_nodup hl.stopsOnce hin).mpr hl.stops
  have hlength := (hsame.symm.trans hstops).length_eq
  rw [List.length_append, List.length_map] at hlength
  exact List.eq_nil_of_length_eq_zero (by omega)

/-- Whether, after a start, a call fails, the next one succeeds, its outputs can be closed on, and the
builders before and after the failure and at both ends of closing have a property. -/
private def closesAfterFailure {β : Type} [BloqKind β] (start first second : BuildM β (Soquets β))
    (p : Builder β → Builder β → Builder β → Builder β → Bool) : Bool :=
  match start.run {} with
  | (.ok _, b₁) => match first.run b₁ with
    | (.error _, b₂) => match second.run b₂ with
      | (.ok final, b) => match (Builder.consumeExactly Builder.ownName .rightDangle
          (⟨(b.withImplied final).registers⟩ : Signature).rights final).run (b.withImplied final) with
        | (.ok (), b') => b'.available.isEmpty && p b₁ b₂ (b.withImplied final) b'
        | _ => false
      | _ => false
    | _ => false
  | _ => false

private theorem exists_of_closesAfterFailure {β : Type} [BloqKind β]
    {start first second : BuildM β (Soquets β)}
    {p : Builder β → Builder β → Builder β → Builder β → Bool}
    (h : closesAfterFailure start first second p = true) :
    ∃ inputs b₁ e b₂ final b b', Gives start {} inputs b₁ ∧ Leaves first b₁ e b₂ ∧
      Gives second b₂ final b ∧ Gives (Builder.consumeExactly Builder.ownName .rightDangle
        (⟨(b.withImplied final).registers⟩ : Signature).rights final) (b.withImplied final) () b' ∧
      b'.available.isEmpty = true ∧ p b₁ b₂ (b.withImplied final) b' = true := by
  rw [closesAfterFailure] at h
  split at h
  · next inputs b₁ hstart =>
    split at h
    · next e b₂ hfirst =>
      split at h
      · next final b hsecond =>
        split at h
        · next b' hclose =>
          exact ⟨inputs, b₁, e, b₂, final, b, b', hstart, hfirst, hsecond, hclose,
            (Bool.and_eq_true _ _).mp h⟩
        · cases h
      · cases h
    · cases h
  · cases h

/-- Whether wires lead forward among instances, and some end is met twice. -/
private def collides {β : Type} [BloqKind β] (b : Builder β) : Bool :=
  match Composite.edgesOf b.instances.toList b.connections.toList with
  | .ok es => es.all (fun e => e.source < e.target && e.target < b.instances.toList.length + 2) &&
    !decide (es.map Edge.stop).Nodup
  | .error _ => false

private theorem assemble_of_collides {β : Type} [BloqKind β] {b : Builder β}
    (h : collides b = true) (signature : Signature) : ∃ c,
      Composite.assemble signature b.instances.toList b.connections.toList = .ok c ∧
      ¬ (c.edges.map Edge.stop).Nodup := by
  rw [collides] at h
  split at h
  · next es hes =>
    simp only [Bool.and_eq_true, List.all_eq_true, decide_eq_true_eq, Bool.not_eq_true',
      decide_eq_false_iff_not] at h
    exact ⟨_, Composite.assemble_of_forward hes h.1, h.2⟩
  · cases h

/-- An input is given twice to a gate, which fails after the first time; then the gate is placed on
other inputs. Two wires end on the same element of it. -/
theorem Builder.Tried.finalize_ends_twice :
    ∃ (b b' : Builder (Bloq Float Complex)) (final : Soquets (Bloq Float Complex))
      (c : Composite (Bloq Float Complex)) (w : Connection (Bloq Float Complex)),
      b.Tried [w] ∧ Gives (Builder.finalize final) b c b' ∧ ¬ (c.edges.map Edge.stop).Nodup ∧
      (c.edges.map Edge.start).Nodup ∧ (∀ p, p ∈ c.edges.map Edge.start ↔ p ∈ c.outPorts) ∧
      c.inPorts.Nodup ∧ (c.edges.map Edge.stop).Perm
        (c.inPorts ++ [w].map fun w => (Composite.edgeOf c.instances.length w).stop) ∧
      (c.Linear ↔ [w] = []) := by
  let one : Register := ⟨"a", .qbit, [], .left⟩
  let two : Register := ⟨"b", .qbit, [2], .left⟩
  let on (r : Register) (i : List Nat) : Soquet (Bloq Float Complex) := ⟨.leftDangle, r, i⟩
  let place (soquets : List (Soquet (Bloq Float Complex))) :=
    Builder.add (.ofGate (.standard .cx)) ⟨[("q", .vector soquets)]⟩
  have hrun : closesAfterFailure (Builder.start ⟨[one, two]⟩ true) (place [on one [], on one []])
      (place [on two [0], on two [1]]) (fun b₁ b₂ b b' => decide (b₁.connections.size = 0 ∧
        b₂.connections.size = 1 ∧ b.registers = [one, two, ⟨"q", .qbit, [2], .right⟩]) &&
        collides b') = true := by decide +kernel
  obtain ⟨inputs, b₁, e, b₂, final, b, b', hstart, hfirst, hsecond, hclose, hempty, hp⟩ :=
    exists_of_closesAfterFailure hrun
  obtain ⟨hp, hcollides⟩ := (Bool.and_eq_true _ _).mp hp
  obtain ⟨hnone, hone, hregisters⟩ := of_decide_eq_true hp
  -- one wire was drawn before the failure
  have hfailed : b₁.Failed b₂ := .add hfirst
  obtain ⟨ws, -, hdrawn⟩ := hfailed.draws
  have hwires : b₂.connections = b₁.connections ++ ws.toArray := by
    rw [hdrawn, connections_drawAll]
  have hlength : ws.length = 1 := by simpa [hwires, hnone] using hone
  obtain ⟨w, rfl⟩ := List.length_eq_one_iff.mp hlength
  have htried : b.Tried [w] :=
    .call (.failed (.start hstart) hfailed hwires) (.add (Bloq.valid_ofGate _) hsecond)
  obtain ⟨c, hassemble, htwice⟩ := assemble_of_collides hcollides ⟨(b.withImplied final).registers⟩
  have hfinal : Gives (Builder.finalize final) b c b' :=
    finalize_of_consume (by rw [hregisters]; rfl) hclose hempty hassemble
  exact ⟨b, b', final, c, w, htried, hfinal, htwice, htried.finalize_ends hfinal⟩

end
end BloqCircuit
