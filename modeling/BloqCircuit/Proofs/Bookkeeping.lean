import BloqCircuit.Bloq
import BloqCircuit.Proofs.Wiring
/-! The bloqs that reshape, make and end bundles, and what placing them does to a builder. -/
namespace BloqCircuit
variable {α κ : Type} [Angle α]

instance : ReflBEq (Bloq α κ) where
  rfl {b} := b.same_self

/-- The register of a whole bundle. -/
def bundleOn (side : Side) (t : DataType) : Register := { bundleRegister t with side := side }

/-- The register of the bits of a bundle. -/
def bitsOn (side : Side) (t : DataType) : Register := { bitsRegister t with side := side }

theorem totalBits_gateRegister (n : Nat) : (gateRegister n).totalBits = n := by
  by_cases h1 : n = 1 <;> simp [gateRegister, h1, Register.totalBits, Register.bitsize,
    Register.numElements, shapeSize, Register.single, DataType.bitsize]

theorem notMem_name_gateRegister (n : Nat) : '[' ∉ (gateRegister n).name.toList := by
  have hname : (gateRegister n).name = "q" := rfl
  rw [hname]
  decide

namespace Bloq

omit [Angle α] in
theorem signature_ofGate (g : Gate α κ) :
    (ofGate g).signature = ⟨[gateRegister g.arity]⟩ := by
  rw [signature]

omit [Angle α] in
theorem signature_split (t : DataType) :
    (split t : Bloq α κ).signature = ⟨[bundleOn .left t, bitsOn .right t]⟩ := by
  rw [signature]
  rfl

omit [Angle α] in
theorem signature_join (t : DataType) :
    (join t : Bloq α κ).signature = ⟨[bitsOn .left t, bundleOn .right t]⟩ := by
  rw [signature]
  rfl

omit [Angle α] in
theorem signature_allocate (t : DataType) :
    (allocate t : Bloq α κ).signature = ⟨[bundleOn .right t]⟩ := by
  rw [signature]
  rfl

omit [Angle α] in
theorem signature_free (t : DataType) :
    (free t : Bloq α κ).signature = ⟨[bundleOn .left t]⟩ := by
  rw [signature]
  rfl

section
variable (t : DataType)

theorem lefts_split : (BloqKind.signature (split t : Bloq α κ)).lefts = [bundleOn .left t] := by
  show (Bloq.signature _).lefts = _
  rw [signature_split]
  rfl

theorem rights_split : (BloqKind.signature (split t : Bloq α κ)).rights = [bitsOn .right t] := by
  show (Bloq.signature _).rights = _
  rw [signature_split]
  rfl

theorem lefts_join : (BloqKind.signature (join t : Bloq α κ)).lefts = [bitsOn .left t] := by
  show (Bloq.signature _).lefts = _
  rw [signature_join]
  rfl

theorem rights_join : (BloqKind.signature (join t : Bloq α κ)).rights = [bundleOn .right t] := by
  show (Bloq.signature _).rights = _
  rw [signature_join]
  rfl

theorem lefts_allocate : (BloqKind.signature (allocate t : Bloq α κ)).lefts = [] := by
  show (Bloq.signature _).lefts = _
  rw [signature_allocate]
  rfl

theorem rights_allocate :
    (BloqKind.signature (allocate t : Bloq α κ)).rights = [bundleOn .right t] := by
  show (Bloq.signature _).rights = _
  rw [signature_allocate]
  rfl

theorem lefts_free : (BloqKind.signature (free t : Bloq α κ)).lefts = [bundleOn .left t] := by
  show (Bloq.signature _).lefts = _
  rw [signature_free]
  rfl

theorem rights_free : (BloqKind.signature (free t : Bloq α κ)).rights = [] := by
  show (Bloq.signature _).rights = _
  rw [signature_free]
  rfl

theorem valid_ofGate (g : Gate α κ) : (BloqKind.signature (ofGate g : Bloq α κ)).Valid := by
  show (Bloq.signature _).Valid
  rw [signature_ofGate]
  exact Signature.valid_of_nodup (List.nodup_singleton _)

theorem valid_split : (BloqKind.signature (split t : Bloq α κ)).Valid := by
  show (Bloq.signature _).Valid
  rw [signature_split]
  rfl

theorem valid_join : (BloqKind.signature (join t : Bloq α κ)).Valid := by
  show (Bloq.signature _).Valid
  rw [signature_join]
  rfl

theorem valid_allocate : (BloqKind.signature (allocate t : Bloq α κ)).Valid := by
  show (Bloq.signature _).Valid
  rw [signature_allocate]
  rfl

theorem valid_free : (BloqKind.signature (free t : Bloq α κ)).Valid := by
  show (Bloq.signature _).Valid
  rw [signature_free]
  rfl

end

end Bloq

namespace Soquets

theorem ofNode_eq {β : Type} (node : Node β) {registers : List Register}
    (hn : (registers.map (·.name)).Nodup) :
    ofNode node registers =
      Arrays.byRegister registers fun r => Grid.ofFn r.shape fun i => ⟨node, r, i⟩ := by
  rw [ofNode, Arrays.ofList_eq]
  · rfl
  · rwa [List.map_map]

theorem single_scalar {β : Type} (name : String) (s : Soquet β) :
    single (⟨[(name, .ofFn [] fun _ => s)]⟩ : Soquets β) name = .ok s := by
  simp [single, Arrays.get?, Grid.rank, Grid.ofFn, Grid.toList, shapeIndices]

end Soquets

namespace Builder

/-! ## What bookkeeping calls come down to -/

section
variable {β : Type} [BloqKind β] {b b' : Builder β} {s t : Soquet β}

theorem split_adds {g : Grid (Soquet β)} (h : Gives (split s) b g b') :
    ∃ out, Gives (add (BloqKind.split s.reg.dtype) (scalarArg s)) b out b' := by
  obtain ⟨out, c, hc, h⟩ := gives_bind.mp h
  split at h
  · obtain ⟨-, rfl⟩ := gives_pure.mp h
    exact ⟨out, hc⟩
  · exact (gives_throw.mp h).elim

theorem join_adds {bits : Grid (Soquet β)} {dtype? : Option DataType}
    (h : Gives (join bits dtype?) b t b') :
    ∃ out, Gives (add (BloqKind.join (dtype?.getD (.qany bits.toList.length)))
      ⟨[(bundleName, bits)]⟩) b out b' := by
  simp only [join] at h
  split at h
  · simp at h
  · obtain ⟨out, c, hc, h⟩ := gives_bind.mp h
    obtain ⟨-, rfl⟩ := gives_lift.mp h
    exact ⟨out, hc⟩

theorem allocate_adds {dtype : DataType} (h : Gives (allocate dtype) b t b') :
    ∃ out, Gives (add (BloqKind.allocate dtype) Arrays.empty) b out b' := by
  obtain ⟨out, c, hc, h⟩ := gives_bind.mp h
  obtain ⟨-, rfl⟩ := gives_lift.mp h
  exact ⟨out, hc⟩

theorem free_adds {u : Unit} (h : Gives (free s) b u b') :
    ∃ out, Gives (add (BloqKind.free s.reg.dtype) (scalarArg s)) b out b' := by
  obtain ⟨out, c, hc, h⟩ := gives_bind.mp h
  obtain ⟨-, rfl⟩ := gives_pure.mp h
  exact ⟨out, hc⟩

theorem add_of_drawable {bloq : β} (hv : (BloqKind.signature bloq).Valid)
    (cells : Register → Grid (Soquet β))
    (hs : ∀ r ∈ (BloqKind.signature bloq).lefts, (cells r).shape = r.shape)
    (hd : b.Drawable (wiring (.placed ⟨b.next, bloq⟩) (BloqKind.signature bloq).lefts cells)) :
    Gives (add bloq (Arrays.byRegister (BloqKind.signature bloq).lefts cells)) b
      (Arrays.byRegister (BloqKind.signature bloq).rights fun r =>
        Grid.ofFn r.shape fun i => ⟨.placed ⟨b.next, bloq⟩, r, i⟩)
      ((b.drawAll (wiring (.placed ⟨b.next, bloq⟩) (BloqKind.signature bloq).lefts cells)).place
        ⟨b.next, bloq⟩) := by
  refine add_gives.mpr ⟨_, consumeExactly_of_drawable hv.nodup_lefts hs hd, ?_, rfl⟩
  rw [Soquets.ofNode_eq _ hv.nodup_rights]

theorem drawable_of_available [ReflBEq β] {r : Register} {node : Node β} {i : List Nat}
    (ht : s.reg.dtype.isConsistentWith r.dtype = true) (hs : b.available[s.port]? = some s) :
    b.Drawable [⟨s, ⟨node, r, i⟩⟩] :=
  drawable_singleton.mpr ⟨ht, s, hs, BEq.rfl⟩

end

/-! ## What bookkeeping calls give -/

theorem isConsistentWith_self (t : DataType) : t.isConsistentWith t = true := by
  simp [DataType.isConsistentWith]

variable {b : Builder (Bloq α κ)} {s : Soquet (Bloq α κ)} {t : DataType}

/-- The wire of a bundle into a node. -/
def bundleWire (x : Instance (Bloq α κ)) (t : DataType) (s : Soquet (Bloq α κ)) :
    Connection (Bloq α κ) := ⟨s, ⟨.placed x, bundleOn .left t, []⟩⟩

theorem split_gives (ht : s.reg.dtype = t) (hs : b.available[s.port]? = some s) :
    Gives (split s) b (Grid.ofFn [t.bitsize] fun i => ⟨.placed ⟨b.next, .split t⟩, bitsOn .right t, i⟩)
      ((b.draw (bundleWire ⟨b.next, .split t⟩ t s)).place ⟨b.next, .split t⟩) := by
  subst ht
  have hadd := add_of_drawable (b := b) (Bloq.valid_split (α := α) (κ := κ) s.reg.dtype)
    fun _ => .scalar s
  rw [Bloq.lefts_split, Bloq.rights_split] at hadd
  refine gives_bind.mpr ⟨_, _, hadd ?_ ?_, gives_pure.mpr ⟨rfl, rfl⟩⟩
  · intro r hr
    rw [List.mem_singleton.mp hr]
    rfl
  · exact drawable_of_available (isConsistentWith_self _) hs

/-- The wires of single bits into a node. -/
def bitWires (x : Instance (Bloq α κ)) (t : DataType) (bits : List (Soquet (Bloq α κ))) :
    List (Connection (Bloq α κ)) :=
  wiresInto (.placed x) (bitsOn .left t) (bitsOn .left t).indices bits

theorem join_gives {bits : List (Soquet (Bloq α κ))} (ht : t.bitsize = bits.length)
    (hd : b.Drawable (bitWires ⟨b.next, .join t⟩ t bits)) :
    Gives (join (.vector bits) (some t)) b ⟨.placed ⟨b.next, .join t⟩, bundleOn .right t, []⟩
      ((b.drawAll (bitWires ⟨b.next, .join t⟩ t bits)).place ⟨b.next, .join t⟩) := by
  have hadd := add_of_drawable (b := b) (Bloq.valid_join (α := α) (κ := κ) t)
    fun _ => .vector bits
  rw [Bloq.lefts_join, Bloq.rights_join] at hadd
  have hw : wiring (.placed ⟨b.next, .join t⟩) [bitsOn .left t] (fun _ => .vector bits) =
      bitWires ⟨b.next, .join t⟩ t bits := by
    simp [wiring, bitWires, Grid.toList_vector]
  rw [hw] at hadd
  have hshape : ¬ (t.bitsize ≠ (Grid.vector bits).toList.length ∨ (Grid.vector bits).rank ≠ 1) := by
    rw [Grid.toList_vector, ht]
    simp [Grid.rank, Grid.vector]
  rw [join, Option.getD_some, if_neg hshape]
  refine gives_bind.mpr ⟨_, _, hadd ?_ hd, gives_lift.mpr ⟨?_, rfl⟩⟩
  · intro r hr
    rw [List.mem_singleton.mp hr]
    simp [Grid.vector, bitsOn, bitsRegister, ht]
  · exact Soquets.single_scalar _ _

theorem allocate_gives :
    Gives (allocate t) b (⟨.placed ⟨b.next, .allocate t⟩, bundleOn .right t, []⟩ : Soquet (Bloq α κ))
      (b.place ⟨b.next, .allocate t⟩) := by
  have hadd := add_of_drawable (b := b) (Bloq.valid_allocate (α := α) (κ := κ) t)
    fun _ => .vector []
  rw [Bloq.lefts_allocate, Bloq.rights_allocate] at hadd
  refine gives_bind.mpr ⟨_, _, hadd ?_ drawable_nil, gives_lift.mpr ⟨?_, rfl⟩⟩
  · intro r hr
    cases hr
  · exact Soquets.single_scalar _ _

theorem free_gives (ht : s.reg.dtype = t) (hs : b.available[s.port]? = some s) :
    Gives (free s) b () ((b.draw (bundleWire ⟨b.next, .free t⟩ t s)).place ⟨b.next, .free t⟩) := by
  subst ht
  have hadd := add_of_drawable (b := b) (Bloq.valid_free (α := α) (κ := κ) s.reg.dtype)
    fun _ => .scalar s
  rw [Bloq.lefts_free, Bloq.rights_free] at hadd
  refine gives_bind.mpr ⟨_, _, hadd ?_ ?_, gives_pure.mpr ⟨rfl, rfl⟩⟩
  · intro r hr
    rw [List.mem_singleton.mp hr]
    rfl
  · exact drawable_of_available (isConsistentWith_self _) hs

end Builder
end BloqCircuit
