import Mathlib.Data.List.Induction
import Mathlib.Data.List.Perm.Basic
import Mathlib.Data.List.Perm.Subperm
import BloqCircuit.Proofs.Linear
/-! Flows: qubits on the ports of a linear composite, as its wires and bloqs pass them on. -/
namespace BloqCircuit

theorem sum_bitsize_portsOn (v : Nat) (registers : List Register) :
    ((portsOn v registers).map fun p => p.reg.bitsize).sum =
      (registers.map (·.totalBits)).sum := by
  induction registers with
  | nil => rfl
  | cons r rest ih =>
    have hr : (r.indices.map fun _ => r.bitsize).sum = r.totalBits := by
      rw [List.map_const', List.sum_replicate_nat, Register.indices, length_shapeIndices]
      exact Nat.mul_comm _ _
    rw [List.map_cons, List.sum_cons, ← ih, ← hr, portsOn, List.flatMap_cons, List.map_append,
      List.sum_append, List.map_map]
    rfl

/-! ## Labels -/

/-- The qubits at each port. -/
abbrev Labels := Port → List Qubit

namespace Labels
variable (L : Labels) (v : Nat)

/-- The qubits of registers on a node, register by register. -/
def on (registers : List Register) : List Qubit := (portsOn v registers).flatMap L

/-- The array of a register on a node. -/
def array (r : Register) : Grid Qubit := r.array fun i => L ⟨v, i, r⟩

/-- The arrays of registers on a node. -/
def arrays (registers : List Register) : Quregs := Arrays.byRegister registers (L.array v)

/-- Every port has as many qubits as its register asks for. -/
def Fits (registers : List Register) : Prop :=
  ∀ p ∈ portsOn v registers, (L p).length = p.reg.bitsize

variable {L v}

theorem on_nil : L.on v [] = [] := rfl

theorem on_cons (r : Register) (registers : List Register) :
    L.on v (r :: registers) = r.flat (fun i => L ⟨v, i, r⟩) ++ L.on v registers := by
  simp [on, portsOn, Register.flat, List.flatMap_map]

theorem on_append (rs ss : List Register) : L.on v (rs ++ ss) = L.on v rs ++ L.on v ss := by
  simp [on, portsOn]

theorem on_singleton (r : Register) : L.on v [r] = r.flat fun i => L ⟨v, i, r⟩ := by
  rw [on_cons, on_nil, List.append_nil]

theorem on_eq_flatMap (registers : List Register) :
    L.on v registers = registers.flatMap fun r => L.on v [r] := by
  induction registers with
  | nil => rfl
  | cons r rest ih => rw [on_cons, List.flatMap_cons, on_singleton, ih]

theorem on_perm {rs ss : List Register} (h : rs.Perm ss) : (L.on v rs).Perm (L.on v ss) := by
  rw [on_eq_flatMap rs, on_eq_flatMap ss]
  exact h.flatMap_right _

theorem Fits.mono {rs ss : List Register} (h : L.Fits v ss) (hs : ∀ r ∈ rs, r ∈ ss) :
    L.Fits v rs := by
  intro p hp
  obtain ⟨hv, hr, hi⟩ := mem_portsOn.mp hp
  exact h p (mem_portsOn.mpr ⟨hv, hs _ hr, hi⟩)

theorem Fits.lefts {s : Signature} (h : L.Fits v s.registers) : L.Fits v s.lefts :=
  h.mono fun _ hr => (Signature.mem_lefts.mp hr).1

theorem Fits.rights {s : Signature} (h : L.Fits v s.registers) : L.Fits v s.rights :=
  h.mono fun _ hr => (Signature.mem_rights.mp hr).1

/-- Each register of a signature is on one of its sides. -/
theorem Fits.of_sides {s : Signature} (hl : L.Fits v s.lefts) (hr : L.Fits v s.rights) :
    L.Fits v s.registers := by
  intro p hp
  obtain ⟨hn, hreg, hi⟩ := mem_portsOn.mp hp
  by_cases hside : p.reg.side.isLeft = true
  · exact hl p (mem_portsOn.mpr ⟨hn, Signature.mem_lefts.mpr ⟨hreg, hside⟩, hi⟩)
  · have hright : p.reg.side.isRight = true := Side.isRight_of_ne fun h => hside (h ▸ rfl)
    exact hr p (mem_portsOn.mpr ⟨hn, Signature.mem_rights.mpr ⟨hreg, hright⟩, hi⟩)

theorem Fits.register {registers : List Register} (h : L.Fits v registers) {r : Register}
    (hr : r ∈ registers) : r.Fits fun i => L ⟨v, i, r⟩ :=
  fun i hi => h ⟨v, i, r⟩ (mem_portsOn.mpr ⟨rfl, hr, hi⟩)

theorem toList_array {registers : List Register} (h : L.Fits v registers) {r : Register}
    (hr : r ∈ registers) : (L.array v r).toList = L.on v [r] := by
  rw [array, Register.toList_array (h.register hr), on_singleton]

theorem length_on {registers : List Register} (h : L.Fits v registers) :
    (L.on v registers).length = (registers.map (·.totalBits)).sum := by
  induction registers with
  | nil => rfl
  | cons r rest ih =>
    rw [on_cons, List.length_append, Register.length_flat (h.register List.mem_cons_self),
      ih (h.mono fun s hs => List.mem_cons_of_mem _ hs), List.map_cons, List.sum_cons]

theorem on_congr {L' : Labels} {registers : List Register}
    (h : ∀ p ∈ portsOn v registers, L p = L' p) : L.on v registers = L'.on v registers :=
  List.flatMap_congr h

theorem fits_congr {L' : Labels} {registers : List Register} (h : L.Fits v registers)
    (hl : ∀ p ∈ portsOn v registers, L p = L' p) : L'.Fits v registers := by
  intro p hp
  rw [← hl p hp]
  exact h p hp

/-- Labels with those of one node exchanged. -/
def onNode (L f : Labels) (v : Nat) : Labels := fun p => if p.node = v then f p else L p

theorem onNode_self {f : Labels} {p : Port} (h : p.node = v) : L.onNode f v p = f p := if_pos h

theorem onNode_of_ne {f : Labels} {p : Port} (h : p.node ≠ v) : L.onNode f v p = L p := if_neg h

theorem on_onNode_self {f : Labels} (registers : List Register) :
    (L.onNode f v).on v registers = f.on v registers :=
  on_congr fun _ hp => onNode_self (mem_portsOn.mp hp).1

theorem on_onNode_of_ne {f : Labels} {u : Nat} (h : u ≠ v) (registers : List Register) :
    (L.onNode f v).on u registers = L.on u registers :=
  on_congr fun _ hp => onNode_of_ne ((mem_portsOn.mp hp).1 ▸ h)

/-- Labels with the qubits renamed. -/
def map (f : Qubit → Qubit) (L : Labels) : Labels := fun p => (L p).map f

theorem on_map (f : Qubit → Qubit) (registers : List Register) :
    (L.map f).on v registers = (L.on v registers).map f := by
  rw [on, on, List.map_flatMap]
  rfl

end Labels

/-! ## What bloqs do with qubits -/

/-- A register that carries qubits. -/
def Register.Quantum (r : Register) : Prop := r.dtype.isQuantum = true ∧ 1 ≤ r.bitsize

theorem quantum_gateRegister (n : Nat) : (gateRegister n).Quantum := ⟨rfl, Nat.le_refl 1⟩

namespace Bloq
variable {α κ : Type}

/-- Whether a bloq hands the qubits of its input on to an output of another shape. -/
def moves : Bloq α κ → Bool
  | .split _ | .join _ => true
  | _ => false

/-- The outputs on which new qubits appear. -/
def born (b : Bloq α κ) : List Register :=
  if b.moves then [] else b.signature.registers.filter (·.side == .right)

/-- The inputs whose qubits are not handed on. -/
def dead (b : Bloq α κ) : List Register :=
  if b.moves then [] else b.signature.registers.filter (·.side == .left)

theorem born_eq_filter (b : Bloq α κ) :
    b.born = if b.moves then [] else b.signature.rights.filter (·.side == .right) := by
  rw [born, Signature.rights, List.filter_filter]
  refine ite_congr rfl (fun _ => rfl) fun _ => List.filter_congr fun r _ => ?_
  cases r.side <;> rfl

theorem dead_eq_filter (b : Bloq α κ) :
    b.dead = if b.moves then [] else b.signature.lefts.filter (·.side == .left) := by
  rw [dead, Signature.lefts, List.filter_filter]
  refine ite_congr rfl (fun _ => rfl) fun _ => List.filter_congr fun r _ => ?_
  cases r.side <;> rfl

theorem lefts_born_perm {b : Bloq α κ} (h : b.moves = false) :
    (b.signature.lefts ++ b.born).Perm b.signature.registers := by
  have hl : b.signature.lefts = b.signature.registers.filter fun r => !(r.side == .right) :=
    List.filter_congr fun r _ => by cases r.side <;> rfl
  rw [born, h, hl]
  exact List.perm_append_comm.trans (List.filter_append_perm _ _)

theorem rights_dead_perm {b : Bloq α κ} (h : b.moves = false) :
    (b.signature.rights ++ b.dead).Perm b.signature.registers := by
  have hr : b.signature.rights = b.signature.registers.filter fun r => !(r.side == .left) :=
    List.filter_congr fun r _ => by cases r.side <;> rfl
  rw [dead, h, hr]
  exact List.perm_append_comm.trans (List.filter_append_perm _ _)

theorem born_allocate (t : DataType) : (allocate t : Bloq α κ).born = [bundleOn .right t] := by
  rw [born, signature_allocate]
  rfl

theorem dead_allocate (t : DataType) : (allocate t : Bloq α κ).dead = [] := by
  rw [dead, signature_allocate]
  rfl

theorem born_free (t : DataType) : (free t : Bloq α κ).born = [] := by
  rw [born, signature_free]
  rfl

theorem dead_free (t : DataType) : (free t : Bloq α κ).dead = [bundleOn .left t] := by
  rw [dead, signature_free]
  rfl

theorem born_ofGate (g : Gate α κ) : (ofGate g).born = [] := by
  rw [born, signature_ofGate]
  rfl

theorem dead_ofGate (g : Gate α κ) : (ofGate g).dead = [] := by
  rw [dead, signature_ofGate]
  rfl

/-- The gate that a bloq puts into a circuit. -/
def emits : Bloq α κ → Option (Gate α κ)
  | .split _ | .join _ | .allocate _ | .free _ => none
  | .ofGate g => some g
  | b => some (.ofBloq b)

/-- Whether a bloq gives the qubits of its input back. -/
def releases : Bloq α κ → Bool
  | .free _ => true
  | _ => false

theorem exists_free_of_releases {b : Bloq α κ} (h : b.releases = true) : ∃ t, b = free t := by
  cases b with
  | free t => exact ⟨t, rfl⟩
  | _ => cases h

/-- The operation of a bloq on the qubits of its registers. -/
def operation? (b : Bloq α κ) (L : Labels) (v : Nat) : Option (Operation (Gate α κ)) :=
  b.emits.map fun g => ⟨g, L.on v b.signature.registers⟩

/-- Bookkeeping bloqs, gates that act as bloqs, and bloqs that are wrapped as gates. -/
inductive Plain : Bloq α κ → Prop
  | split (t : DataType) : Plain (.split t)
  | join (t : DataType) : Plain (.join t)
  | allocate (t : DataType) : Plain (.allocate t)
  | free (t : DataType) : Plain (.free t)
  | gate (g : Gate α κ) : Plain (.ofGate g)
  | wrapped (b : Bloq α κ) : b.native? = none → b.signature.repeatedName? = none → Plain b

theorem emits_of_native? {b : Bloq α κ} (h : b.native? = none) :
    b.emits = some (.ofBloq b) ∧ b.moves = false ∧ b.releases = false := by
  cases b with
  | split | join | allocate | free | ofGate => cases h
  | _ => exact ⟨rfl, rfl, rfl⟩

/-- A plain bloq that emits an operation goes by the names of its registers. -/
theorem Plain.of_emits {b : Bloq α κ} {g : Gate α κ} (h : b.Plain)
    (he : b.emits = some g) :
    b.moves = false ∧ (b.signature.registers.map (·.name)).Nodup := by
  cases h with
  | split t => cases he
  | join t => cases he
  | allocate t => cases he
  | free t => cases he
  | gate g' =>
    refine ⟨rfl, ?_⟩
    rw [signature_ofGate]
    exact List.nodup_singleton _
  | wrapped b hn hr => exact ⟨(emits_of_native? hn).2.1, Signature.repeatedName?_eq_none.mp hr⟩

/-- A plain bloq on registers that carry qubits, but not the bloq of a gate that wraps a bloq. -/
structure Regular (b : Bloq α κ) : Prop where
  plain : b.Plain
  original : ∀ b', b ≠ .ofGate (.ofBloq b')
  quantum : ∀ r ∈ b.signature.registers, r.Quantum

/-- A regular bloq that emits an operation is what the gate stands for. -/
theorem Regular.of_emits {b : Bloq α κ} {g : Gate α κ} (h : b.Regular)
    (he : b.emits = some g) : g.bloq = b := by
  cases b with
  | split t => cases he
  | join t => cases he
  | allocate t => cases he
  | free t => cases he
  | ofGate g' =>
    cases he
    cases g with
    | ofBloq b => exact absurd rfl (h.original b)
    | _ => rfl
  | _ =>
    cases he
    rfl

theorem regular_split {t : DataType} (hq : t.isQuantum = true) (hpos : 1 ≤ t.bitsize) :
    (split t : Bloq α κ).Regular := by
  refine ⟨.split t, fun _ heq => (by cases heq), fun r hr => ?_⟩
  rw [signature_split] at hr
  rcases List.mem_pair.mp hr with rfl | rfl
  · exact ⟨hq, hpos⟩
  · exact ⟨rfl, Nat.le_refl 1⟩

theorem regular_join {t : DataType} (hq : t.isQuantum = true) (hpos : 1 ≤ t.bitsize) :
    (join t : Bloq α κ).Regular := by
  refine ⟨.join t, fun _ heq => (by cases heq), fun r hr => ?_⟩
  rw [signature_join] at hr
  rcases List.mem_pair.mp hr with rfl | rfl
  · exact ⟨rfl, Nat.le_refl 1⟩
  · exact ⟨hq, hpos⟩

theorem regular_allocate {t : DataType} (hq : t.isQuantum = true) (hpos : 1 ≤ t.bitsize) :
    (allocate t : Bloq α κ).Regular := by
  refine ⟨.allocate t, fun _ heq => (by cases heq), fun r hr => ?_⟩
  rw [signature_allocate] at hr
  rw [List.mem_singleton.mp hr]
  exact ⟨hq, hpos⟩

theorem regular_free {t : DataType} (hq : t.isQuantum = true) (hpos : 1 ≤ t.bitsize) :
    (free t : Bloq α κ).Regular := by
  refine ⟨.free t, fun _ heq => (by cases heq), fun r hr => ?_⟩
  rw [signature_free] at hr
  rw [List.mem_singleton.mp hr]
  exact ⟨hq, hpos⟩

theorem regular_ofGate {g : Gate α κ} (hg : ∀ b, g ≠ .ofBloq b) : (ofGate g).Regular := by
  refine ⟨.gate g, fun b heq => hg b (Bloq.ofGate.inj heq), fun r hr => ?_⟩
  rw [signature_ofGate] at hr
  rw [List.mem_singleton.mp hr]
  exact quantum_gateRegister _

end Bloq

namespace Labels
variable {α κ : Type}

/-- Labels on a node as its bloq passes the qubits on. -/
structure Passes (L : Labels) (v : Nat) (b : Bloq α κ) : Prop where
  fits : L.Fits v b.signature.registers
  moved : b.moves = true → L.on v b.signature.lefts = L.on v b.signature.rights

variable {L : Labels} {v : Nat} {b : Bloq α κ}

/-- No qubit is lost or doubled on a node. -/
theorem Passes.perm (h : L.Passes v b) :
    (L.on v b.signature.lefts ++ L.on v b.born).Perm
      (L.on v b.signature.rights ++ L.on v b.dead) := by
  cases hm : b.moves with
  | true =>
    rw [Bloq.born, Bloq.dead, if_pos hm, if_pos hm, h.moved hm]
  | false =>
    rw [← on_append, ← on_append]
    exact on_perm ((Bloq.lefts_born_perm hm).trans (Bloq.rights_dead_perm hm).symm)

theorem operation?_congr {L' : Labels} (h : ∀ p, p.node = v → L p = L' p) :
    b.operation? L v = b.operation? L' v := by
  rw [Bloq.operation?, Bloq.operation?, on_congr fun p hp => h p (mem_portsOn.mp hp).1]

theorem Passes.congr {L' : Labels} (h : L.Passes v b) (hl : ∀ p, p.node = v → L p = L' p) :
    L'.Passes v b where
  fits := fits_congr h.fits fun p hp => hl p (mem_portsOn.mp hp).1
  moved hm := by
    have hon : ∀ registers, L'.on v registers = L.on v registers :=
      fun _ => (on_congr fun p hp => hl p (mem_portsOn.mp hp).1).symm
    rw [hon, hon, h.moved hm]

theorem Passes.onNode_self (h : L.Passes v b) {L' : Labels} : (L'.onNode L v).Passes v b :=
  h.congr fun _ hp => (Labels.onNode_self hp).symm

theorem Passes.onNode_of_ne (h : L.Passes v b) {f : Labels} {u : Nat} (hne : v ≠ u) :
    (L.onNode f u).Passes v b :=
  h.congr fun _ hp => (Labels.onNode_of_ne (hp ▸ hne)).symm

theorem Passes.map (h : L.Passes v b) (f : Qubit → Qubit) : (L.map f).Passes v b where
  fits p hp := by rw [Labels.map, List.length_map, h.fits p hp]
  moved hm := by rw [on_map, on_map, h.moved hm]

theorem operation?_map (f : Qubit → Qubit) :
    b.operation? (L.map f) v = (b.operation? L v).map (Operation.map f) := by
  rw [Bloq.operation?, Bloq.operation?, Option.map_map, on_map]
  rfl

end Labels
/-! ## Nodes by number -/

namespace Composite

section
variable {β : Type} {c : Composite β}

/-- The bloq on the node with a number, unless the node is a boundary. -/
def bloqAt (c : Composite β) : Nat → Option β
  | 0 => none
  | k + 1 => c.instances[k]?.map (·.bloq)

theorem bloqAt_lt {v : Nat} {b : β} (h : c.bloqAt v = some b) :
    v ≠ 0 ∧ v < c.instances.length + 1 := by
  cases v with
  | zero => cases h
  | succ k =>
    obtain ⟨x, hx, -⟩ := Option.map_eq_some_iff.mp h
    exact ⟨Nat.succ_ne_zero k, Nat.succ_lt_succ (List.getElem?_eq_some_iff.mp hx).1⟩

theorem exists_instance {v : Nat} {b : β} (h : c.bloqAt v = some b) :
    ∃ x ∈ c.instances, x.bloq = b := by
  cases v with
  | zero => cases h
  | succ k =>
    obtain ⟨x, hx, hb⟩ := Option.map_eq_some_iff.mp h
    exact ⟨x, List.mem_of_getElem? hx, hb⟩

theorem exists_bloqAt {v : Nat} (h0 : v ≠ 0) (hv : v < c.instances.length + 1) :
    ∃ b, c.bloqAt v = some b := by
  cases v with
  | zero => exact absurd rfl h0
  | succ k =>
    have hk : k < c.instances.length := by omega
    exact ⟨c.instances[k].bloq, by rw [bloqAt, List.getElem?_eq_getElem hk]; rfl⟩

/-- Only the boundaries carry no bloq. -/
theorem eq_boundary_of_bloqAt {v : Nat} (h : c.bloqAt v = none) (hv : v < c.size) :
    v = 0 ∨ v = c.instances.length + 1 := by
  by_contra hno
  rw [not_or] at hno
  obtain ⟨b, hb⟩ := exists_bloqAt hno.1 (Nat.lt_of_le_of_ne (Nat.le_of_lt_succ hv) hno.2)
  rw [h] at hb
  cases hb

theorem mem_instances_iff (hn : c.instances.map (·.number) = List.range c.instances.length)
    {x : Instance β} : x ∈ c.instances ↔ c.instances[x.number]? = some x := by
  constructor
  · intro hx
    obtain ⟨k, hk⟩ := List.mem_iff_getElem?.mp hx
    rwa [Instance.number_eq hn hk]
  · exact List.mem_of_getElem?

/-- The nodes of a composite in the order of insertion. -/
theorem range_size_eq (hn : c.instances.map (·.number) = List.range c.instances.length) :
    List.range c.size = 0 :: (c.instances.map (fun x => x.number + 1) ++ [c.instances.length + 1]) := by
  have hsucc : c.instances.map (fun x => x.number + 1) =
      (List.range c.instances.length).map Nat.succ := by
    rw [← hn, List.map_map]
    rfl
  rw [size, List.range_succ_eq_map, List.range_succ, List.map_append, hsucc]
  rfl

/-- The bloqs on the nodes in the order of insertion. -/
theorem map_bloqAt_range (c : Composite β) :
    (List.range (c.instances.length + 2)).map c.bloqAt =
      none :: (c.instances.map (fun x => some x.bloq) ++ [none]) := by
  have hlast : c.bloqAt (c.instances.length + 1) = none := by
    rw [bloqAt, List.getElem?_eq_none (Nat.le_refl _)]
    rfl
  have hmiddle : (List.range c.instances.length).map (fun k => c.bloqAt (k + 1)) =
      c.instances.map fun x => some x.bloq := by
    refine List.ext_getElem (by simp) fun k hk _ => ?_
    have hlt : k < c.instances.length := by simpa using hk
    simp [bloqAt, hlt]
  rw [List.range_succ, List.map_append, List.map_singleton, hlast, List.range_succ_eq_map,
    List.map_cons, List.map_map]
  exact congrArg (fun bs => none :: (bs ++ [none])) hmiddle

theorem bloqAt_number (hn : c.instances.map (·.number) = List.range c.instances.length)
    {x : Instance β} (hx : x ∈ c.instances) : c.bloqAt (x.number + 1) = some x.bloq := by
  rw [bloqAt, (mem_instances_iff hn).mp hx]
  rfl

theorem bloqAt_last : c.bloqAt (c.instances.length + 1) = none := by
  rw [bloqAt, List.getElem?_eq_none (Nat.le_refl _)]
  rfl

variable [BloqKind β]

/-- The registers at which wires end on a node. -/
def regsIn (c : Composite β) (v : Nat) : List Register :=
  if v = c.instances.length + 1 then c.signature.rights
  else (c.bloqAt v).elim [] fun b => (BloqKind.signature b).lefts

/-- The registers at which wires start on a node. -/
def regsOut (c : Composite β) (v : Nat) : List Register :=
  if v = 0 then c.signature.lefts else (c.bloqAt v).elim [] fun b => (BloqKind.signature b).rights

theorem regsIn_eq {v : Nat} {b : β} (h : c.bloqAt v = some b) :
    c.regsIn v = (BloqKind.signature b).lefts := by
  rw [regsIn, if_neg (Nat.ne_of_lt (bloqAt_lt h).2), h]
  rfl

theorem regsOut_eq {v : Nat} {b : β} (h : c.bloqAt v = some b) :
    c.regsOut v = (BloqKind.signature b).rights := by
  rw [regsOut, if_neg (bloqAt_lt h).1, h]
  rfl

/-- Wires end on the output boundary and on bloqs only. -/
theorem exists_of_mem_regsIn {v : Nat} {r : Register} (hv : v ≠ c.instances.length + 1)
    (hr : r ∈ c.regsIn v) : ∃ b, c.bloqAt v = some b ∧ r ∈ (BloqKind.signature b).lefts := by
  rw [regsIn, if_neg hv] at hr
  cases hb : c.bloqAt v with
  | none =>
    rw [hb] at hr
    cases hr
  | some b =>
    rw [hb] at hr
    exact ⟨b, rfl, hr⟩

/-- Wires start on the input boundary and on bloqs only. -/
theorem exists_of_mem_regsOut {v : Nat} {r : Register} (hv : v ≠ 0) (hr : r ∈ c.regsOut v) :
    ∃ b, c.bloqAt v = some b ∧ r ∈ (BloqKind.signature b).rights := by
  rw [regsOut, if_neg hv] at hr
  cases hb : c.bloqAt v with
  | none =>
    rw [hb] at hr
    cases hr
  | some b =>
    rw [hb] at hr
    exact ⟨b, rfl, hr⟩

theorem mem_inPorts (hn : c.instances.map (·.number) = List.range c.instances.length) {p : Port} :
    p ∈ c.inPorts ↔ p ∈ portsOn p.node (c.regsIn p.node) := by
  rw [inPorts, List.mem_append, List.mem_flatMap]
  constructor
  · rintro (⟨x, hx, hp⟩ | hp)
    · have hv := (mem_portsOn.mp hp).1
      have hb : c.bloqAt (x.number + 1) = some x.bloq := by
        rw [bloqAt, (mem_instances_iff hn).mp hx]
        rfl
      rwa [hv, regsIn_eq hb]
    · rwa [(mem_portsOn.mp hp).1, regsIn, if_pos rfl]
  · intro hp
    by_cases hv : p.node = c.instances.length + 1
    · rw [regsIn, if_pos hv, hv] at hp
      exact .inr hp
    · obtain ⟨b, hb, -⟩ := exists_of_mem_regsIn hv (mem_portsOn.mp hp).2.1
      rw [regsIn_eq hb] at hp
      obtain ⟨k, hk⟩ := Nat.exists_eq_succ_of_ne_zero (bloqAt_lt hb).1
      rw [hk] at hb hp
      obtain ⟨x, hx, rfl⟩ := Option.map_eq_some_iff.mp hb
      refine .inl ⟨x, List.mem_of_getElem? hx, ?_⟩
      rwa [Instance.number_eq hn hx]

theorem mem_outPorts (hn : c.instances.map (·.number) = List.range c.instances.length) {p : Port} :
    p ∈ c.outPorts ↔ p ∈ portsOn p.node (c.regsOut p.node) := by
  rw [outPorts, List.mem_append, List.mem_flatMap]
  constructor
  · rintro (hp | ⟨x, hx, hp⟩)
    · rwa [(mem_portsOn.mp hp).1, regsOut, if_pos rfl]
    · have hv := (mem_portsOn.mp hp).1
      have hb : c.bloqAt (x.number + 1) = some x.bloq := by
        rw [bloqAt, (mem_instances_iff hn).mp hx]
        rfl
      rwa [hv, regsOut_eq hb]
  · intro hp
    by_cases hv : p.node = 0
    · rw [regsOut, if_pos hv, hv] at hp
      exact .inl hp
    · obtain ⟨b, hb, -⟩ := exists_of_mem_regsOut hv (mem_portsOn.mp hp).2.1
      rw [regsOut_eq hb] at hp
      obtain ⟨k, hk⟩ := Nat.exists_eq_succ_of_ne_zero hv
      rw [hk] at hb hp
      obtain ⟨x, hx, rfl⟩ := Option.map_eq_some_iff.mp hb
      refine .inr ⟨x, List.mem_of_getElem? hx, ?_⟩
      rwa [Instance.number_eq hn hx]

/-- Every port is one end of exactly one wire, and wires join ports of one width and lead from
lesser to greater nodes, however the instances are numbered. -/
structure Threaded (c : Composite β) : Prop where
  valid : c.signature.Valid
  validAt : ∀ x ∈ c.instances, (BloqKind.signature x.bloq).Valid
  stopsOnce : (c.edges.map Edge.stop).Nodup
  stops : ∀ p, p ∈ c.edges.map Edge.stop ↔ p ∈ portsOn p.node (c.regsIn p.node)
  startsOnce : (c.edges.map Edge.start).Nodup
  starts : ∀ p, p ∈ c.edges.map Edge.start ↔ p ∈ portsOn p.node (c.regsOut p.node)
  agree : ∀ e ∈ c.edges, e.wire.left.reg.bitsize = e.wire.right.reg.bitsize
  forward : ∀ e ∈ c.edges, e.source < e.target

theorem Linear.threaded (h : c.Linear) : c.Threaded where
  valid := h.valid
  validAt := h.validAt
  stopsOnce := h.stopsOnce
  stops p := (h.stops p).trans (mem_inPorts h.numbers)
  startsOnce := h.startsOnce
  starts p := (h.starts p).trans (mem_outPorts h.numbers)
  agree e he := (h.agree e he).1
  forward := h.forward

instance : Coe c.Linear c.Threaded := ⟨Linear.threaded⟩

/-- The registers on a node are told apart by their names. -/
theorem Threaded.nodup_regsIn (h : c.Threaded) (v : Nat) : ((c.regsIn v).map (·.name)).Nodup := by
  rw [regsIn]
  split
  · exact h.valid.nodup_rights
  · cases hb : c.bloqAt v with
    | none => exact List.nodup_nil
    | some b =>
      obtain ⟨x, hx, rfl⟩ := exists_instance hb
      exact (h.validAt x hx).nodup_lefts

theorem Threaded.nodup_regsOut (h : c.Threaded) (v : Nat) : ((c.regsOut v).map (·.name)).Nodup := by
  rw [regsOut]
  split
  · exact h.valid.nodup_lefts
  · cases hb : c.bloqAt v with
    | none => exact List.nodup_nil
    | some b =>
      obtain ⟨x, hx, rfl⟩ := exists_instance hb
      exact (h.validAt x hx).nodup_rights

/-- The wires that end on a node end at its input ports, one at each. -/
theorem Threaded.stops_perm (h : c.Threaded) (v : Nat) :
    ((c.edges.filter (·.target == v)).map Edge.stop).Perm (portsOn v (c.regsIn v)) := by
  have hsub := (List.filter_sublist (p := (·.target == v)) (l := c.edges)).map Edge.stop
  refine (List.perm_ext_iff_of_nodup (h.stopsOnce.sublist hsub)
    (nodup_portsOn (h.nodup_regsIn v).of_map)).mpr fun p => ?_
  rw [List.mem_map]
  constructor
  · rintro ⟨e, he, rfl⟩
    obtain ⟨he, hv⟩ := List.mem_filter.mp he
    have hp := (h.stops _).mp (List.mem_map_of_mem he)
    have hv : e.stop.node = v := by simpa [Edge.stop] using hv
    rwa [hv] at hp
  · intro hp
    have hv := (mem_portsOn.mp hp).1
    obtain ⟨e, he, rfl⟩ := List.mem_map.mp
      ((h.stops p).mpr (by rwa [hv]))
    exact ⟨e, List.mem_filter.mpr ⟨he, by simpa [Edge.stop] using hv⟩, rfl⟩

theorem Threaded.starts_perm (h : c.Threaded) (v : Nat) :
    ((c.edges.filter (·.source == v)).map Edge.start).Perm (portsOn v (c.regsOut v)) := by
  have hsub := (List.filter_sublist (p := (·.source == v)) (l := c.edges)).map Edge.start
  refine (List.perm_ext_iff_of_nodup (h.startsOnce.sublist hsub)
    (nodup_portsOn (h.nodup_regsOut v).of_map)).mpr fun p => ?_
  rw [List.mem_map]
  constructor
  · rintro ⟨e, he, rfl⟩
    obtain ⟨he, hv⟩ := List.mem_filter.mp he
    have hp := (h.starts _).mp (List.mem_map_of_mem he)
    have hv : e.start.node = v := by simpa [Edge.start] using hv
    rwa [hv] at hp
  · intro hp
    have hv := (mem_portsOn.mp hp).1
    obtain ⟨e, he, rfl⟩ := List.mem_map.mp
      ((h.starts p).mpr (by rwa [hv]))
    exact ⟨e, List.mem_filter.mpr ⟨he, by simpa [Edge.start] using hv⟩, rfl⟩

end

/-! ## Flows -/

variable {α κ : Type} {c : Composite (Bloq α κ)} {L : Labels}

/-- Labels that agree along wires and pass through bloqs. -/
structure Flow (c : Composite (Bloq α κ)) (L : Labels) : Prop where
  wire : ∀ e ∈ c.edges, L e.start = L e.stop
  inputs : L.Fits 0 c.signature.lefts
  node : ∀ v b, c.bloqAt v = some b → L.Passes v b

/-- The qubits that appear on a node. -/
def bornAt (c : Composite (Bloq α κ)) (L : Labels) (v : Nat) : List Qubit :=
  (c.bloqAt v).elim [] fun b => L.on v b.born

/-- The qubits that leave the graph on a node. -/
def goneAt (c : Composite (Bloq α κ)) (L : Labels) (v : Nat) : List Qubit :=
  if v = c.instances.length + 1 then L.on v c.signature.rights
  else (c.bloqAt v).elim [] fun b => L.on v b.dead

/-- The operation of a node. -/
def operationAt? (c : Composite (Bloq α κ)) (L : Labels) (v : Nat) : Option (Operation (Gate α κ)) :=
  (c.bloqAt v).bind fun b => b.operation? L v

section
variable {v : Nat} {b : Bloq α κ}

theorem bornAt_of_some (h : c.bloqAt v = some b) : c.bornAt L v = L.on v b.born := by
  rw [bornAt, h]
  rfl

theorem bornAt_of_none (h : c.bloqAt v = none) : c.bornAt L v = [] := by
  rw [bornAt, h]
  rfl

theorem goneAt_of_some (h : c.bloqAt v = some b) : c.goneAt L v = L.on v b.dead := by
  rw [goneAt, if_neg (Nat.ne_of_lt (bloqAt_lt h).2), h]
  rfl

theorem operationAt?_of_some (h : c.bloqAt v = some b) : c.operationAt? L v = b.operation? L v := by
  rw [operationAt?, h]
  rfl

theorem operationAt?_of_none (h : c.bloqAt v = none) : c.operationAt? L v = none := by
  rw [operationAt?, h]
  rfl

end

/-- The wires that lead from the nodes of `done` and the input boundary to other nodes. -/
def crossing (c : Composite (Bloq α κ)) (done : List Nat) : List (Edge (Bloq α κ)) :=
  c.edges.filter fun e => decide ((e.source = 0 ∨ e.source ∈ done) ∧ e.target ∉ done)

/-- The inputs and all qubits that appear are different. -/
def Distinct (c : Composite (Bloq α κ)) (L : Labels) (order : List Nat) : Prop :=
  (L.on 0 c.signature.lefts ++ order.flatMap (c.bornAt L)).Nodup

theorem Distinct.perm {order order' : List Nat} (h : c.Distinct L order) (hp : order.Perm order') :
    c.Distinct L order' :=
  ((hp.flatMap_right (c.bornAt L)).append_left _).nodup_iff.mp h

theorem Flow.map (h : c.Flow L) (f : Qubit → Qubit) : c.Flow (L.map f) where
  wire e he := by rw [Labels.map, Labels.map, h.wire e he]
  inputs p hp := by rw [Labels.map, List.length_map, h.inputs p hp]
  node v b hb := (h.node v b hb).map f

theorem bornAt_map (f : Qubit → Qubit) (v : Nat) :
    c.bornAt (L.map f) v = (c.bornAt L v).map f := by
  unfold bornAt
  cases c.bloqAt v with
  | none => rfl
  | some b => exact Labels.on_map f b.born

theorem operationAt?_map (f : Qubit → Qubit) (v : Nat) :
    c.operationAt? (L.map f) v = (c.operationAt? L v).map (Operation.map f) := by
  unfold operationAt?
  cases c.bloqAt v with
  | none => rfl
  | some b => exact Labels.operation?_map f

theorem operations_range (hn : c.instances.map (·.number) = List.range c.instances.length) :
    (List.range c.size).filterMap (c.operationAt? L) =
      c.instances.filterMap fun x => x.bloq.operation? L (x.number + 1) := by
  have hlast : c.operationAt? L (c.instances.length + 1) = none := operationAt?_of_none bloqAt_last
  have hfirst : c.operationAt? L 0 = none := rfl
  rw [range_size_eq hn, List.filterMap_cons_none hfirst, List.filterMap_append,
    List.filterMap_cons_none hlast, List.filterMap_nil, List.append_nil, List.filterMap_map]
  refine List.filterMap_congr fun x hx => ?_
  exact operationAt?_of_some (bloqAt_number hn hx)

theorem born_range (hn : c.instances.map (·.number) = List.range c.instances.length) :
    (List.range c.size).flatMap (c.bornAt L) =
      c.instances.flatMap fun x => L.on (x.number + 1) x.bloq.born := by
  have hlast : c.bornAt L (c.instances.length + 1) = [] := bornAt_of_none bloqAt_last
  have hfirst : c.bornAt L 0 = [] := rfl
  rw [range_size_eq hn, List.flatMap_cons, hfirst, List.nil_append, List.flatMap_append,
    List.flatMap_singleton, hlast, List.append_nil, List.flatMap_map]
  refine List.flatMap_congr fun x hx => ?_
  exact bornAt_of_some (bloqAt_number hn hx)

variable [Angle α]

theorem Flow.incoming_perm (h : c.Flow L) (hc : c.Threaded) (v : Nat) :
    ((c.edges.filter (·.target == v)).flatMap fun e => L e.start).Perm (L.on v (c.regsIn v)) := by
  have hs : ((c.edges.filter (·.target == v)).flatMap fun e => L e.start) =
      ((c.edges.filter (·.target == v)).map Edge.stop).flatMap L := by
    rw [List.flatMap_map]
    exact List.flatMap_congr fun e he => h.wire e (List.mem_filter.mp he).1
  rw [hs]
  exact (hc.stops_perm v).flatMap_right L

theorem outgoing_perm (hc : c.Threaded) (L : Labels) (v : Nat) :
    ((c.edges.filter (·.source == v)).flatMap fun e => L e.start).Perm (L.on v (c.regsOut v)) := by
  rw [← List.flatMap_map]
  exact (hc.starts_perm v).flatMap_right L

/-- What enters or appears on a node leaves it or is gone. -/
theorem Flow.node_perm (h : c.Flow L) {v : Nat} (h0 : v ≠ 0) (hv : v < c.size) :
    (L.on v (c.regsIn v) ++ c.bornAt L v).Perm (L.on v (c.regsOut v) ++ c.goneAt L v) := by
  by_cases hn : v = c.instances.length + 1
  · have hb : c.bloqAt v = none := by
      by_contra hb
      obtain ⟨b, hb⟩ := Option.ne_none_iff_exists'.mp hb
      exact absurd hn (Nat.ne_of_lt (bloqAt_lt hb).2)
    rw [regsIn, if_pos hn, regsOut, if_neg h0, bornAt_of_none hb, goneAt, if_pos hn, hb]
    exact List.perm_append_comm
  · have hlt : v < c.instances.length + 1 := by
      rw [size] at hv
      omega
    obtain ⟨b, hb⟩ := exists_bloqAt h0 hlt
    rw [regsIn_eq hb, regsOut_eq hb, bornAt_of_some hb, goneAt_of_some hb]
    exact (h.node v b hb).perm

/-- Each node of the list comes after its predecessors, the input boundary apart. -/
def Front (c : Composite (Bloq α κ)) (done : List Nat) : Prop :=
  ∀ front v rest, done = front ++ v :: rest → c.graph.Next front v

omit [Angle α] in
theorem Front.of_append {done rest : List Nat} (h : c.Front (done ++ rest)) : c.Front done := by
  intro front v after he
  exact h front v (after ++ rest) (by rw [he, List.append_assoc, List.cons_append])

omit [Angle α] in
theorem Front.init {done : List Nat} {v : Nat} (h : c.Front (done ++ [v])) :
    c.Front done ∧ c.graph.Next done v := by
  constructor
  · exact h.of_append
  · exact h done v [] rfl

omit [Angle α] in
theorem Front.closed {done : List Nat} (h : c.Front done) {e : Edge (Bloq α κ)} (he : e ∈ c.edges)
    (ht : e.target ∈ done) : e.source ∈ done := by
  obtain ⟨front, rest, rfl⟩ := List.append_of_mem ht
  exact List.mem_append_left _ ((h front _ rest rfl).after _ (List.mem_map_of_mem he) rfl)

omit [Angle α] in
/-- A part of a walk that has all predecessors of its nodes is a walk. -/
theorem Front.filter {order : List Nat} (hf : c.Front order) {p : Nat → Bool}
    (hp : ∀ e ∈ c.edges, p e.target = true → p e.source = true) : c.Front (order.filter p) := by
  intro front v rest he
  obtain ⟨before, after, rfl, rfl, hafter⟩ := List.filter_eq_append_iff.mp he
  obtain ⟨skipped, more, rfl, hskipped, hv, -⟩ := List.filter_eq_cons_iff.mp hafter
  have hnext := hf (before ++ skipped) v more (by rw [List.append_assoc])
  refine ⟨hnext.lt, fun hm => hnext.fresh (List.mem_append_left _ (List.mem_filter.mp hm).1),
    fun e he ht => ?_⟩
  obtain ⟨w, hw, rfl⟩ := List.mem_map.mp he
  have hsource : p w.source = true := hp w hw (by rwa [show w.target = v from ht])
  rcases List.mem_append.mp (hnext.after _ he ht) with hm | hm
  · exact List.mem_filter.mpr ⟨hm, hsource⟩
  · exact absurd hsource (hskipped _ hm)

/-- Placing a node exchanges the wires into it for the wires out of it. -/
theorem Threaded.crossing_append (h : c.Threaded) {done : List Nat} {v : Nat}
    (hf : c.Front (done ++ [v])) (h0 : v ≠ 0) :
    let rest := c.edges.filter fun e =>
      decide ((e.source = 0 ∨ e.source ∈ done) ∧ e.target ∉ done ++ [v])
    (c.crossing done).Perm (c.edges.filter (·.target == v) ++ rest) ∧
      (c.crossing (done ++ [v])).Perm (c.edges.filter (·.source == v) ++ rest) := by
  intro rest
  obtain ⟨hdone, hv⟩ := hf.init
  constructor
  · refine (List.filter_append_perm (·.target == v) (c.crossing done)).symm.trans ?_
    refine List.Perm.append ?_ ?_
    · rw [crossing, List.filter_filter]
      refine (List.Perm.of_eq (List.filter_congr fun e he => ?_))
      by_cases ht : e.target = v
      · have hs := hv.after _ (List.mem_map_of_mem he) ht
        simp [ht, hs, hv.fresh]
      · simp [ht]
    · rw [crossing, List.filter_filter]
      refine (List.Perm.of_eq (List.filter_congr fun e _ => ?_))
      by_cases ht : e.target = v <;> simp [ht]
  · refine (List.filter_append_perm (·.source == v) (c.crossing (done ++ [v]))).symm.trans ?_
    refine List.Perm.append ?_ ?_
    · rw [crossing, List.filter_filter]
      refine (List.Perm.of_eq (List.filter_congr fun e he => ?_))
      by_cases hs : e.source = v
      · have hne : e.target ≠ v := fun ht => Nat.lt_irrefl v (by
          have := h.forward e he
          rwa [hs, ht] at this)
        have hd : e.target ∉ done := fun ht => hv.fresh (hs ▸ hdone.closed he ht)
        simp [hs, hne, hd]
      · simp [hs]
    · rw [crossing, List.filter_filter]
      refine (List.Perm.of_eq (List.filter_congr fun e _ => ?_))
      by_cases hs : e.source = v
      · simp [hs, h0, hv.fresh]
      · simp [hs]

/-- The input boundary is behind every front. -/
theorem Threaded.crossing_zero (h : c.Threaded) (done : List Nat) :
    c.crossing (done ++ [0]) = c.crossing done := by
  refine List.filter_congr fun e he => ?_
  have ht : e.target ≠ 0 := Nat.ne_of_gt (Nat.lt_of_le_of_lt (Nat.zero_le _) (h.forward e he))
  by_cases hs : e.source = 0 <;> simp [hs, ht]

/-- At a node, what the wires bring is exchanged for what they take away. -/
theorem Flow.exchange (h : c.Flow L) (hc : c.Threaded) {done : List Nat} {v : Nat}
    (hf : c.Front (done ++ [v])) (h0 : v ≠ 0) :
    ∃ others, ((c.crossing done).flatMap fun e => L e.start).Perm
        (L.on v (c.regsIn v) ++ others) ∧
      ((c.crossing (done ++ [v])).flatMap fun e => L e.start).Perm
        (L.on v (c.regsOut v) ++ others) := by
  obtain ⟨hbefore, hafter⟩ := hc.crossing_append hf h0
  have hbefore := hbefore.flatMap_right fun e => L e.start
  have hafter := hafter.flatMap_right fun e => L e.start
  rw [List.flatMap_append] at hbefore hafter
  exact ⟨_, hbefore.trans ((h.incoming_perm hc v).append_right _),
    hafter.trans ((outgoing_perm hc L v).append_right _)⟩

/-- At every front of a flow, the qubits on the wires that cross it and those that are gone are the
inputs and the qubits that appeared so far. -/
theorem Flow.cut_perm (h : c.Flow L) (hc : c.Threaded) {done : List Nat} (hf : c.Front done) :
    (((c.crossing done).flatMap fun e => L e.start) ++ done.flatMap (c.goneAt L)).Perm
      (L.on 0 c.signature.lefts ++ done.flatMap (c.bornAt L)) := by
  induction done using List.reverseRecOn with
  | nil =>
    have hs : c.crossing [] = c.edges.filter (·.source == 0) := by
      refine List.filter_congr fun e _ => ?_
      by_cases hs : e.source = 0 <;> simp [hs]
    rw [hs]
    simpa [regsOut] using outgoing_perm hc L 0
  | append_singleton done v ih =>
    obtain ⟨hdone, hv⟩ := hf.init
    have ih := ih hdone
    rw [List.flatMap_append, List.flatMap_append, List.flatMap_singleton, List.flatMap_singleton]
    by_cases h0 : v = 0
    · -- the input boundary was there from the start
      subst h0
      have hg : c.goneAt L 0 = [] := by
        rw [goneAt, if_neg (Nat.ne_of_lt (Nat.succ_pos _))]
        rfl
      rw [hc.crossing_zero, hg, List.append_nil, bornAt_of_none rfl, List.append_nil]
      exact ih
    · obtain ⟨others, hbefore, hafter⟩ := h.exchange hc hf h0
      have hnode := h.node_perm h0 hv.lt
      -- what stays on its wires is on both sides; the rest is exchanged on the node
      simp only [List.perm_iff_count, List.count_append] at ih hbefore hafter hnode ⊢
      intro q
      have := ih q
      have := hbefore q
      have := hafter q
      have := hnode q
      omega

/-- If the inputs and all that appears are different, then so is what crosses a front. -/
theorem Flow.nodup_cut (h : c.Flow L) (hc : c.Threaded) {done rest : List Nat}
    (hf : c.Front done) (hd : c.Distinct L (done ++ rest)) :
    (((c.crossing done).flatMap fun e => L e.start) ++ done.flatMap (c.goneAt L)).Nodup := by
  rw [Distinct, List.flatMap_append, ← List.append_assoc] at hd
  exact (h.cut_perm hc hf).nodup_iff.mpr hd.of_append_left

theorem Flow.nodup_crossing (h : c.Flow L) (hc : c.Threaded) {done rest : List Nat}
    (hf : c.Front done) (hd : c.Distinct L (done ++ rest)) :
    ((c.crossing done).flatMap fun e => L e.start).Nodup :=
  (h.nodup_cut hc hf hd).of_append_left

/-- Placing a bloq exchanges its inputs on the front for its outputs. -/
theorem Flow.exchange_bloq (h : c.Flow L) (hc : c.Threaded) {done : List Nat} {v : Nat}
    (hf : c.Front (done ++ [v])) {b : Bloq α κ} (hb : c.bloqAt v = some b) :
    ∃ others, ((c.crossing done).flatMap fun e => L e.start).Perm
        (L.on v b.signature.lefts ++ others) ∧
      ((c.crossing (done ++ [v])).flatMap fun e => L e.start).Perm
        (L.on v b.signature.rights ++ others) := by
  obtain ⟨others, hbefore, hafter⟩ := h.exchange hc hf (bloqAt_lt hb).1
  rw [regsIn_eq hb] at hbefore
  rw [regsOut_eq hb] at hafter
  exact ⟨others, hbefore, hafter⟩

/-- What arrives on a node is there at the front before it. -/
theorem Flow.arriving (h : c.Flow L) (hc : c.Threaded) {done : List Nat} {v : Nat}
    (hf : c.Front (done ++ [v])) (h0 : v ≠ 0) :
    ∃ others, (L.on v (c.regsIn v) ++ others ++ done.flatMap (c.goneAt L)).Perm
      (L.on 0 c.signature.lefts ++ done.flatMap (c.bornAt L)) := by
  obtain ⟨others, hbefore, -⟩ := h.exchange hc hf h0
  exact ⟨others, (hbefore.symm.append_right _).trans (h.cut_perm hc hf.init.1)⟩

theorem Threaded.target_le (hc : c.Threaded) {e : Edge (Bloq α κ)} (he : e ∈ c.edges) :
    e.target ≤ c.instances.length + 1 := by
  have hp := (hc.stops _).mp (List.mem_map_of_mem he)
  by_contra hlt
  have hne : e.stop.node ≠ c.instances.length + 1 := fun h => hlt (Nat.le_of_eq h)
  obtain ⟨b, hb, -⟩ := exists_of_mem_regsIn hne (mem_portsOn.mp hp).2.1
  exact hlt (Nat.le_of_lt (bloqAt_lt hb).2)

theorem Threaded.inRange (hc : c.Threaded) :
    c.graph.InRange ∧ ∀ e ∈ c.graph.edges, e.1 < e.2 :=
  inRange_graph fun e he => ⟨hc.forward e he, Nat.lt_succ_of_le (hc.target_le he)⟩

theorem Threaded.sorts_range (hc : c.Threaded) : c.graph.Sorts (List.range c.size) := by
  obtain ⟨hg, hf⟩ := hc.inRange
  have hrange : c.graph.topologicalOrder? (fun _ => 0) = some (List.range c.size) :=
    Multigraph.topologicalOrder?_eq_range hg hf fun _ _ _ _ => Int.le_refl 0
  exact (Multigraph.sorts_of_topologicalOrder? hg hrange).1

theorem Linear.sorts_range (hc : c.Linear) : c.graph.Sorts (List.range c.size) :=
  hc.threaded.sorts_range

/-- What comes in and appears goes out or is gone. -/
theorem Flow.through_perm (h : c.Flow L) (hc : c.Threaded) :
    ((List.range (c.instances.length + 1)).flatMap (c.goneAt L) ++
        L.on (c.instances.length + 1) c.signature.rights).Perm
      (L.on 0 c.signature.lefts ++ (List.range c.size).flatMap (c.bornAt L)) := by
  have hfront : c.Front (List.range c.size) := hc.sorts_range.next
  have hcut := h.cut_perm hc hfront
  have hcrossing : c.crossing (List.range c.size) = [] := by
    refine List.filter_eq_nil_iff.mpr fun e he => ?_
    have hlt : e.target < c.size := Nat.lt_succ_of_le (hc.target_le he)
    simp [hlt]
  have hlast : c.goneAt L (c.instances.length + 1) =
      L.on (c.instances.length + 1) c.signature.rights := if_pos rfl
  rw [hcrossing, List.flatMap_nil, List.nil_append] at hcut
  nth_rewrite 1 [size] at hcut
  rwa [List.range_succ, List.flatMap_append, List.flatMap_singleton, hlast] at hcut

/-! ## Existence -/

omit [Angle α] in
/-- A bloq that moves qubits has as many bits on its output as on its input. -/
private theorem totalBits_of_moves {b : Bloq α κ} (h : b.moves = true) :
    b.signature.registers.filter (·.side == .right) = b.signature.rights ∧
      (b.signature.lefts.map (·.totalBits)).sum = (b.signature.rights.map (·.totalBits)).sum := by
  have hbits : ∀ (side : Side) (t : DataType), (bitsOn side t).totalBits = t.bitsize := by
    intro side t
    show 1 * (t.bitsize * 1) = t.bitsize
    omega
  have hbundle : ∀ (side : Side) (t : DataType), (bundleOn side t).totalBits = t.bitsize := by
    intro side t
    show t.bitsize * 1 = t.bitsize
    omega
  cases b with
  | split t =>
    rw [Bloq.signature_split]
    exact ⟨rfl, (congrArg (· + 0) ((hbundle .left t).trans (hbits .right t).symm) :)⟩
  | join t =>
    rw [Bloq.signature_join]
    exact ⟨rfl, (congrArg (· + 0) ((hbits .left t).trans (hbundle .right t).symm) :)⟩
  | _ => cases h

omit [Angle α] in
/-- Labels on the inputs of a bloq go on to its outputs, and any new qubits appear there. -/
theorem exists_passes {b : Bloq α κ} (hv : b.signature.Valid) {f : Labels} {v : Nat}
    (hf : f.Fits v b.signature.lefts) {news : List Qubit}
    (hn : news.length = (b.born.map (·.totalBits)).sum) :
    ∃ g : Labels, (∀ p ∈ portsOn v b.signature.lefts, g p = f p) ∧ g.Passes v b ∧
      g.on v b.born = news := by
  have hnodup : (b.signature.registers.filter (·.side == .right)).Nodup := by
    have hsub : (b.signature.registers.filter (·.side == .right)).Sublist b.signature.rights := by
      refine List.monotone_filter_right _ fun r hr => ?_
      rw [eq_of_beq hr]
      rfl
    exact hv.nodup_rights.of_map.sublist hsub
  -- the qubits of the outputs that are no inputs
  obtain ⟨qubits, hqubits⟩ : ∃ qubits, qubits = if b.moves then f.on v b.signature.lefts else news :=
    ⟨_, rfl⟩
  have hlen : qubits.length =
      ((portsOn v (b.signature.registers.filter (·.side == .right))).map fun p => p.reg.bitsize).sum := by
    rw [sum_bitsize_portsOn, hqubits]
    cases hm : b.moves with
    | true =>
      rw [if_pos rfl, Labels.length_on hf, (totalBits_of_moves hm).2, (totalBits_of_moves hm).1]
    | false =>
      rw [if_neg Bool.false_ne_true, hn, Bloq.born, hm]
      rfl
  obtain ⟨pieces, hwidth, hpieces⟩ := exists_pieces (nodup_portsOn hnodup (v := v)) _ hlen
  have hleft : ∀ p ∈ portsOn v b.signature.lefts,
      (if p.reg.side.isLeft then f p else pieces p) = f p := by
    intro p hp
    exact if_pos (Signature.mem_lefts.mp (mem_portsOn.mp hp).2.1).2
  have hright : ∀ p ∈ portsOn v (b.signature.registers.filter (·.side == .right)),
      (if p.reg.side.isLeft then f p else pieces p) = pieces p := by
    intro p hp
    have hs := eq_of_beq (List.mem_filter.mp (mem_portsOn.mp hp).2.1).2
    rw [hs]
    rfl
  refine ⟨fun p => if p.reg.side.isLeft then f p else pieces p, hleft, ⟨?_, ?_⟩, ?_⟩
  · intro p hp
    obtain ⟨hpv, hr, hi⟩ := mem_portsOn.mp hp
    by_cases hs : p.reg.side.isLeft = true
    · have hp := mem_portsOn.mpr ⟨hpv, Signature.mem_lefts.mpr ⟨hr, hs⟩, hi⟩
      exact (congrArg List.length (hleft p hp)).trans (hf p hp)
    · have hside : (p.reg.side == .right) = true := by
        revert hs
        cases p.reg.side <;> simp [Side.isLeft]
      have hp := hwidth p (mem_portsOn.mpr ⟨hpv, List.mem_filter.mpr ⟨hr, hside⟩, hi⟩)
      exact (congrArg List.length (if_neg hs)).trans hp
  · intro hm
    rw [if_pos hm] at hqubits
    rw [Labels.on_congr hleft, ← (totalBits_of_moves hm).1, ← hqubits, ← hpieces]
    exact (Labels.on_congr hright).symm
  · cases hm : b.moves with
    | true =>
      rw [Bloq.born, if_pos hm] at hn ⊢
      exact (List.length_eq_zero_iff.mp hn).symm
    | false =>
      rw [hm, if_neg Bool.false_ne_true] at hqubits
      rw [Bloq.born, hm, ← hqubits, ← hpieces]
      exact Labels.on_congr hright

private theorem exists_back {ι τ υ : Type} [DecidableEq τ] [Inhabited υ] {xs : List ι} (f : ι → τ)
    (h : (xs.map f).Nodup) (g : ι → υ) : ∃ k : τ → υ, ∀ x ∈ xs, k (f x) = g x := by
  refine ⟨fun y => ((xs.find? fun x => f x = y).map g).getD default, fun x hx => ?_⟩
  cases hf : xs.find? fun z => f z = f x with
  | none => exact absurd (by simp) (List.find?_eq_none.mp hf x hx)
  | some z =>
    have hz : f z = f x := by simpa using List.find?_some hf
    have hzx := List.inj_on_of_nodup_map h (List.mem_of_find?_eq_some hf) hx hz
    simp only [hf, hzx, Option.map_some, Option.getD_some]

/-- Labels up to a node: wires to the nodes so far agree, and the bloqs on them pass qubits on. -/
private structure FlowTo (c : Composite (Bloq α κ)) (l : Labels) (news : Nat → List Qubit) (k : Nat)
    (L : Labels) : Prop where
  inputs : ∀ p, p.node = 0 → L p = l p
  wire : ∀ e ∈ c.edges, e.target ≤ k → L e.start = L e.stop
  node : ∀ v b, v ≤ k → c.bloqAt v = some b → L.Passes v b ∧ L.on v b.born = news v

variable {l : Labels} {news : Nat → List Qubit}

private theorem FlowTo.length_start {k : Nat} (h : FlowTo c l news k L) (hc : c.Threaded)
    (hl : l.Fits 0 c.signature.lefts) {e : Edge (Bloq α κ)} (he : e ∈ c.edges) (hk : e.source ≤ k) :
    (L e.start).length = e.stop.reg.bitsize := by
  have hp := (hc.starts _).mp (List.mem_map_of_mem he)
  refine Eq.trans ?_ (hc.agree e he)
  by_cases h0 : e.start.node = 0
  · rw [h0, regsOut, if_pos rfl] at hp
    rw [h.inputs _ h0]
    exact hl _ hp
  · obtain ⟨hv, hr, hi⟩ := mem_portsOn.mp hp
    obtain ⟨b, hb, hr⟩ := exists_of_mem_regsOut h0 hr
    exact (h.node _ b hk hb).1.fits _ (mem_portsOn.mpr ⟨hv, (Signature.mem_rights.mp hr).1, hi⟩)

private theorem FlowTo.step {k : Nat} (h : FlowTo c l news k L) (hc : c.Threaded)
    (hl : l.Fits 0 c.signature.lefts)
    (hnews : ∀ v b, c.bloqAt v = some b → (news v).length = (b.born.map (·.totalBits)).sum) :
    ∃ L, FlowTo c l news (k + 1) L := by
  -- what the wires bring to the next node
  obtain ⟨back, hback⟩ : ∃ back : Labels, ∀ e ∈ c.edges, back e.stop = L e.start :=
    exists_back Edge.stop hc.stopsOnce fun e => L e.start
  have hfits : back.Fits (k + 1) (c.regsIn (k + 1)) := by
    intro p hp
    have hv := (mem_portsOn.mp hp).1
    obtain ⟨e, he, rfl⟩ := List.mem_map.mp
      ((hc.stops p).mpr (by rwa [hv]))
    rw [hback e he]
    have hlt : e.source < k + 1 := Nat.lt_of_lt_of_eq (hc.forward e he) hv
    exact h.length_start hc hl he (Nat.le_of_lt_succ hlt)
  obtain ⟨g, hg, hnode⟩ : ∃ g : Labels,
      (∀ p ∈ portsOn (k + 1) (c.regsIn (k + 1)), g p = back p) ∧
      ∀ b, c.bloqAt (k + 1) = some b → g.Passes (k + 1) b ∧ g.on (k + 1) b.born = news (k + 1) := by
    cases hb : c.bloqAt (k + 1) with
    | none => exact ⟨back, fun _ _ => rfl, fun b hb => absurd hb.symm (Option.some_ne_none b)⟩
    | some b =>
      have hvalid : b.signature.Valid := by
        obtain ⟨x, hx, rfl⟩ := exists_instance hb
        exact hc.validAt x hx
      rw [regsIn_eq hb] at hfits ⊢
      obtain ⟨g, hg, hpasses, hborn⟩ := exists_passes hvalid hfits (hnews _ b hb)
      refine ⟨g, hg, fun b' hb' => ?_⟩
      cases hb'
      exact ⟨hpasses, hborn⟩
  refine ⟨L.onNode g (k + 1), fun p hp => ?_, fun e he hk => ?_, fun v b hv hb => ?_⟩
  · rw [Labels.onNode_of_ne (by omega), h.inputs p hp]
  · have hlt := hc.forward e he
    have hs : e.start.node ≠ k + 1 := by
      show e.source ≠ k + 1
      omega
    rw [Labels.onNode_of_ne hs]
    by_cases ht : e.target = k + 1
    · have hp := (hc.stops _).mp (List.mem_map_of_mem he)
      have hn : e.stop.node = k + 1 := ht
      rw [hn] at hp
      rw [Labels.onNode_self hn, hg _ hp, hback e he]
    · rw [Labels.onNode_of_ne (show e.stop.node ≠ k + 1 from ht)]
      exact h.wire e he (by omega)
  · by_cases hk : v = k + 1
    · subst hk
      obtain ⟨hpasses, hborn⟩ := hnode b hb
      exact ⟨hpasses.onNode_self, (Labels.on_onNode_self b.born).trans hborn⟩
    · obtain ⟨hpasses, hborn⟩ := h.node v b (by omega) hb
      exact ⟨hpasses.onNode_of_ne hk, (Labels.on_onNode_of_ne hk b.born).trans hborn⟩

/-- Labels on the inputs of a linear composite flow through it, whatever qubits appear on its
nodes. -/
theorem Threaded.exists_flow (hc : c.Threaded) (hl : l.Fits 0 c.signature.lefts)
    (hnews : ∀ v b, c.bloqAt v = some b → (news v).length = (b.born.map (·.totalBits)).sum) :
    ∃ L, c.Flow L ∧ (∀ p, p.node = 0 → L p = l p) ∧
      ∀ v b, c.bloqAt v = some b → L.on v b.born = news v := by
  have hto : ∀ k, ∃ L, FlowTo c l news k L := by
    intro k
    induction k with
    | zero =>
      refine ⟨l, fun _ _ => rfl, fun e he hk => ?_, fun v b hv hb => ?_⟩
      · exact absurd (hc.forward e he) (by omega)
      · exact absurd (Nat.le_zero.mp hv) (bloqAt_lt hb).1
    | succ k ih =>
      obtain ⟨L, h⟩ := ih
      exact h.step hc hl hnews
  obtain ⟨L, h⟩ := hto (c.instances.length + 1)
  refine ⟨L, ⟨fun e he => h.wire e he (hc.target_le he), ?_, fun v b hb => ?_⟩, h.inputs,
    fun v b hb => (h.node v b (Nat.le_of_lt (bloqAt_lt hb).2) hb).2⟩
  · exact Labels.fits_congr hl fun p hp => (h.inputs p (mem_portsOn.mp hp).1).symm
  · exact (h.node v b (Nat.le_of_lt (bloqAt_lt hb).2) hb).1

end Composite
end BloqCircuit
