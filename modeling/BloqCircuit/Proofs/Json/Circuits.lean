import BloqCircuit.Circuit.Json
import BloqCircuit.Proofs.Doubles
import BloqCircuit.Proofs.Keys
import BloqCircuit.Proofs.Steps
import BloqCircuit.Proofs.Json.Reading
/-! Circuits as JSON text. A circuit of standard gates always has a text. It is read back if every angle
is read back and no operation has a qubit twice, and only then. -/
namespace BloqCircuit
open BloqCircuit.Json (member tagged)
variable {α κ : Type}

/-- A traversal of members that are all there. -/
theorem mapM_map_eq_some {ι τ υ : Type} {f : τ → Option υ} {g : ι → τ} {h : ι → υ} {xs : List ι}
    (hf : ∀ x ∈ xs, f (g x) = some (h x)) : (xs.map g).mapM f = some (xs.map h) := by
  induction xs with
  | nil => rfl
  | cons x xs ih =>
    rw [List.map_cons, List.mapM_cons, hf x List.mem_cons_self,
      ih fun y hy => hf y (List.mem_cons_of_mem _ hy)]
    rfl

theorem mapM_eq_none {τ υ : Type} {f : τ → Option υ} {xs : List τ} {x : τ} (hx : x ∈ xs)
    (hf : f x = none) : xs.mapM f = none := by
  induction xs with
  | nil => cases hx
  | cons y ys ih =>
    rw [List.mapM_cons]
    cases hx with
    | head => rw [hf, Option.bind_eq_bind, Option.bind_none]
    | tail _ hx =>
      rw [ih hx]
      cases f y <;> rfl

theorem exists_of_mapM_eq_some {τ υ : Type} {f : τ → Option υ} {xs : List τ} {ys : List υ} {y : υ}
    (h : xs.mapM f = some ys) (hy : y ∈ ys) : ∃ x ∈ xs, f x = some y := by
  induction xs generalizing ys with
  | nil =>
    cases h
    cases hy
  | cons x xs ih =>
    rw [List.mapM_cons] at h
    obtain ⟨z, hz, h⟩ := Option.bind_eq_some_iff.mp h
    obtain ⟨zs, hzs, h⟩ := Option.bind_eq_some_iff.mp h
    cases h
    rcases List.mem_cons.mp hy with rfl | hy
    · exact ⟨x, List.mem_cons_self, hz⟩
    · obtain ⟨x', hx', hf⟩ := ih hzs hy
      exact ⟨x', List.mem_cons_of_mem _ hx', hf⟩

/-! ## Qubits -/

theorem Json.natural?_natural {limit n : Nat} (h : n < limit) :
    (Json.natural n).natural? limit = some n :=
  if_pos (decide_eq_true h)

theorem UInt32.ofNat_natural? (i : UInt32) :
    ((Json.natural i.toNat).natural? wordLimit).map UInt32.ofNat = some i := by
  have hlimit : i.toNat < wordLimit := i.toNat_lt
  rw [Json.natural?_natural hlimit, Option.map_some, UInt32.ofNat_toNat]

theorem Qubit.ofJson?_toJson (q : Qubit) : Qubit.ofJson? q.toJson = some q := by
  cases q with
  | line i =>
    have := congrArg (Option.map line) (UInt32.ofNat_natural? i)
    rwa [Option.map_map] at this
  | named n => rfl
  | clean i =>
    have := congrArg (Option.map clean) (UInt32.ofNat_natural? i)
    rwa [Option.map_map] at this

theorem Json.proper_empty : (Json.object []).Proper :=
  .object (List.forall_mem_nil _) (List.forall_mem_nil _)

theorem Json.Proper.member {name : String} {j : Json} (h : j.Proper)
    {ms : List (Option String × Json)} (hms : (Json.object ms).Proper) :
    (Json.object (Json.member name j :: ms)).Proper := by
  cases hms with
  | object names hms =>
    exact .object (List.forall_mem_cons.mpr ⟨rfl, names⟩) (List.forall_mem_cons.mpr ⟨h, hms⟩)

theorem Json.Proper.tagged {j : Json} (h : j.Proper) (tag : String) : (Json.tagged tag j).Proper :=
  h.member proper_empty

theorem Qubit.proper_toJson (q : Qubit) : q.toJson.Proper := by
  cases q with
  | line i => exact (Json.Proper.number _).tagged _
  | named n => exact (Json.Proper.text n).tagged _
  | clean i => exact (Json.Proper.number _).tagged _

/-! ## Gates -/

section
variable [AngleJson α]

/-- The angle that the numeral of an angle is read as. -/
def AngleJson.reread? (a : α) : Option α := (numeral? a).bind ofNumeral?

namespace StandardGate

/-- The gate with another angle, if it has one. -/
def withAngle (g : StandardGate α) (b : α) : StandardGate α :=
  match g with
  | rx _ => rx b
  | ry _ => ry b
  | rz _ => rz b
  | globalPhase _ => globalPhase b
  | g => g

/-- The gate with its angle as it is read back. -/
def reread (g : StandardGate α) : StandardGate α :=
  ((g.angle?.bind AngleJson.reread?).map g.withAngle).getD g

omit [AngleJson α] in
theorem withAngle_self {g : StandardGate α} {a : α} (h : g.angle? = some a) :
    g.withAngle a = g := by
  cases g <;> cases h <;> rfl

omit [AngleJson α] in
theorem arity_withAngle (g : StandardGate α) (b : α) : (g.withAngle b).arity = g.arity := by
  cases g <;> rfl

theorem arity_reread (g : StandardGate α) : g.reread.arity = g.arity := by
  rw [reread]
  cases g.angle?.bind AngleJson.reread? with
  | none => rfl
  | some b => exact g.arity_withAngle b

theorem reread_self {g : StandardGate α}
    (h : ∀ a, g.angle? = some a → AngleJson.reread? a = some a) : g.reread = g := by
  rw [reread]
  cases ha : g.angle? with
  | none => rfl
  | some a =>
    rw [Option.bind_some, h a ha]
    exact withAngle_self ha

theorem ofJson?_of_angleless {g : StandardGate α} (h : g.angle? = none) :
    ofJson? g.toJson = some g := by
  cases g <;> first | cases h; done | rfl

theorem ofJson?_of_angle {g : StandardGate α} {a : α} (h : g.angle? = some a) :
    ofJson? g.toJson = (AngleJson.reread? a).map g.withAngle := by
  have htag : toJson g = tagged g.tag (angleJson a) := by
    rw [toJson, h]
  rw [htag, angleJson, AngleJson.reread?]
  cases AngleJson.numeral? a with
  | none => cases g <;> cases h <;> rfl
  | some n =>
    change (AngleJson.ofNumeral? n).bind (ofTagAngle? g.tag) =
      (AngleJson.ofNumeral? n : Option α).map g.withAngle
    cases (AngleJson.ofNumeral? n : Option α) with
    | none => rfl
    | some b => cases g <;> cases h <;> rfl

/-- A gate is read with its angle, if that is read. -/
theorem ofJson?_toJson {g : StandardGate α}
    (h : ∀ a, g.angle? = some a → (AngleJson.reread? a).isSome = true) :
    ofJson? g.toJson = some g.reread := by
  rw [reread]
  cases ha : g.angle? with
  | none => exact ofJson?_of_angleless ha
  | some a =>
    obtain ⟨b, hb⟩ := Option.isSome_iff_exists.mp (h a ha)
    rw [ofJson?_of_angle ha, Option.bind_some, hb]
    rfl

omit [AngleJson α] in
theorem angle?_of_ofTag? {tag : String} {g : StandardGate α} (h : ofTag? tag = some g) :
    g.angle? = none := by
  have hmem : g ∈ plain := List.mem_of_find?_eq_some h
  cases g <;> first | rfl | simp [plain] at hmem

omit [AngleJson α] in
theorem angle?_of_ofTagAngle? {tag : String} {b : α} {g : StandardGate α}
    (h : ofTagAngle? tag b = some g) : g.angle? = some b := by
  have hmem : g ∈ [rx b, ry b, rz b, globalPhase b] := List.mem_of_find?_eq_some h
  simp only [List.mem_cons, List.not_mem_nil, or_false] at hmem
  rcases hmem with rfl | rfl | rfl | rfl <;> rfl

/-- The angle of a gate that is read was read from a numeral. -/
theorem exists_numeral {g : StandardGate α} {j : Json} {a : α} (h : ofJson? j = some g)
    (ha : g.angle? = some a) : ∃ n, AngleJson.ofNumeral? n = some a := by
  rw [ofJson?] at h
  split at h
  · rename_i n _
    obtain ⟨b, hb, h⟩ := Option.bind_eq_some_iff.mp h
    cases ha.symm.trans (angle?_of_ofTagAngle? h)
    exact ⟨n, hb⟩
  · split at h
    · cases ha.symm.trans (angle?_of_ofTag? h)
    · cases h
  · cases h

theorem proper_toJson (g : StandardGate α) : g.toJson.Proper := by
  rw [toJson]
  cases g.angle? with
  | none => exact .text _
  | some a =>
    refine Json.Proper.tagged ?_ _
    rw [angleJson]
    cases AngleJson.numeral? a with
    | none => exact .null
    | some n => exact .number n

end StandardGate

/-! ## Operations

A part is a gate with its qubits. -/

def partJson (p : StandardGate α × List Qubit) : Json :=
  .object [member "gate" p.1.toJson, member "qubits" (.array (p.2.map Qubit.toJson))]

theorem ofJson?_partJson (p : StandardGate α × List Qubit) :
    Operation.ofJson? (partJson p) =
      (StandardGate.ofJson? p.1.toJson : Option (StandardGate α)).map (·, p.2) := by
  have hqubits : (Json.array (p.2.map Qubit.toJson)).list? Qubit.ofJson? = some p.2 := by
    rw [Json.list?, mapM_map_eq_some (h := id) fun q _ => q.ofJson?_toJson, List.map_id]
  have hfields : (partJson p).fields? ["gate", "qubits"] =
    some [p.1.toJson, .array (p.2.map Qubit.toJson)] := rfl
  rw [Operation.ofJson?, hfields]
  dsimp only
  rw [hqubits]
  cases (StandardGate.ofJson? p.1.toJson : Option (StandardGate α)) <;> rfl

theorem exists_gate_of_part {j : Json} {p : StandardGate α × List Qubit}
    (h : Operation.ofJson? j = some p) : ∃ j, StandardGate.ofJson? j = some p.1 := by
  rw [Operation.ofJson?] at h
  split at h
  · obtain ⟨g, hg, h⟩ := Option.bind_eq_some_iff.mp h
    obtain ⟨qubits, -, h⟩ := Option.bind_eq_some_iff.mp h
    cases h
    exact ⟨_, hg⟩
  · cases h

theorem proper_partJson (p : StandardGate α × List Qubit) : (partJson p).Proper := by
  have hqubits : (Json.array (p.2.map Qubit.toJson)).Proper :=
    .array (List.forall_mem_map.mpr fun q _ => q.proper_toJson)
  exact p.1.proper_toJson.member (hqubits.member Json.proper_empty)

def rereadPart (p : StandardGate α × List Qubit) : StandardGate α × List Qubit := (p.1.reread, p.2)

section
variable [Angle α]

def makePart (p : StandardGate α × List Qubit) : Except Error (Operation (Gate α κ)) :=
  Operation.make (.standard p.1) p.2

omit [AngleJson α] in
theorem makePart_eq_ok {p : StandardGate α × List Qubit} {op : Operation (Gate α κ)} :
    makePart p = .ok op ↔ p.2.length = p.1.arity ∧ p.2.Nodup ∧ op = ⟨.standard p.1, p.2⟩ :=
  Operation.make_eq_ok

omit [AngleJson α] in
theorem makePart_of_repeated {p : StandardGate α × List Qubit} (hlength : p.2.length = p.1.arity)
    (h : ¬p.2.Nodup) :
    ∃ q, (makePart p : Except Error (Operation (Gate α κ))) =
      .error (.duplicateQubit q p.1.name) := by
  have hcount : ¬p.2.length ≠ GateKind.arity (Gate.standard p.1 : Gate α κ) := not_not.mpr hlength
  rw [makePart, Operation.make, if_neg hcount]
  cases hrepeat : firstRepeat ∅ p.2 with
  | none => exact absurd (firstRepeat_eq_none.mp hrepeat).1 h
  | some q => exact ⟨q, rfl⟩

end

/-! ## Circuits -/

namespace Circuit

/-- A gate of the circuit has this angle. -/
def HasAngle (c : Circuit (Gate α κ)) (a : α) : Prop :=
  ∃ op ∈ c.operations, ∃ g, op.gate = .standard g ∧ g.angle? = some a

def ofParts (parts : List (StandardGate α × List Qubit)) : Circuit (Gate α κ) :=
  ⟨parts.map fun p => ⟨.standard p.1, p.2⟩⟩

omit [AngleJson α] in
theorem exists_parts {c : Circuit (Gate α κ)} (h : ∀ op ∈ c.operations, ∃ g, op.gate = .standard g) :
    ∃ parts, c = ofParts parts := by
  obtain ⟨ops⟩ := c
  induction ops with
  | nil => exact ⟨[], rfl⟩
  | cons op ops ih =>
    obtain ⟨⟨g, hg⟩, hops⟩ := List.forall_mem_cons.mp h
    obtain ⟨parts, hparts⟩ := ih hops
    have hlist : ops = parts.map fun p => ⟨.standard p.1, p.2⟩ := congrArg operations hparts
    obtain ⟨gate, qubits⟩ := op
    cases hg
    refine ⟨(g, qubits) :: parts, ?_⟩
    rw [ofParts, List.map_cons, ← hlist]

omit [AngleJson α] in
theorem mem_ofParts {parts : List (StandardGate α × List Qubit)} {p : StandardGate α × List Qubit}
    (h : p ∈ parts) : ⟨.standard p.1, p.2⟩ ∈ (ofParts parts : Circuit (Gate α κ)).operations :=
  List.mem_map_of_mem (f := fun p => (⟨.standard p.1, p.2⟩ : Operation (Gate α κ))) h

omit [AngleJson α] in
theorem hasAngle_ofParts {parts : List (StandardGate α × List Qubit)} {a : α} :
    (ofParts parts : Circuit (Gate α κ)).HasAngle a ↔ ∃ p ∈ parts, p.1.angle? = some a := by
  constructor
  · rintro ⟨op, hop, g, hgate, ha⟩
    obtain ⟨p, hp, rfl⟩ := List.mem_map.mp hop
    cases hgate
    exact ⟨p, hp, ha⟩
  · rintro ⟨p, hp, ha⟩
    exact ⟨_, mem_ofParts hp, p.1, rfl, ha⟩

def circuitJson (parts : List (StandardGate α × List Qubit)) : Json :=
  .object [member "operations" (.array (parts.map partJson))]

theorem proper_circuitJson (parts : List (StandardGate α × List Qubit)) :
    (circuitJson parts).Proper :=
  Json.Proper.tagged (.array (List.forall_mem_map.mpr fun p _ => proper_partJson p)) _

variable [Angle α] {parts : List (StandardGate α × List Qubit)}

theorem toJsonText_ofParts :
    (ofParts parts : Circuit (Gate α κ)).toJsonText = .ok (circuitJson parts).pretty := by
  have hops : (ofParts parts : Circuit (Gate α κ)).operations.mapM Operation.toJson =
    .ok (parts.map partJson) := mapM_map_eq_ok fun _ _ => rfl
  rw [toJsonText, hops]
  rfl

/-- What reading comes to, once the value of the text is known. -/
theorem ofJsonText_eq {t : String} : (ofJsonText t : Except Error (Circuit (Gate α κ))) =
    ((Json.read? t).bind partsOfJson?).elim (.error .json)
      fun ps : List (StandardGate α × List Qubit) => (ps.mapM makePart).map Circuit.mk := by
  rw [ofJsonText]
  cases ((Json.read? t).bind partsOfJson? : Option (List (StandardGate α × List Qubit))) with
  | none => rfl
  | some ps =>
    rw [Option.elim_some]
    change (ps.mapM makePart >>= fun ops => pure (Circuit.mk ops)) = _
    cases (ps.mapM makePart : Except Error (List (Operation (Gate α κ)))) <;> rfl

theorem ofJsonText_pretty :
    (ofJsonText (circuitJson parts).pretty : Except Error (Circuit (Gate α κ))) =
      ((parts.map partJson).mapM Operation.ofJson?).elim (.error .json)
        fun ps : List (StandardGate α × List Qubit) => (ps.mapM makePart).map Circuit.mk := by
  have hparts : partsOfJson? (circuitJson parts) =
    ((parts.map partJson).mapM Operation.ofJson? : Option (List (StandardGate α × List Qubit))) := rfl
  rw [ofJsonText_eq, (proper_circuitJson parts).read?_pretty, Option.bind_some, hparts]

/-- An angle that is not read back makes the text unreadable. -/
theorem ofJsonText_of_unread {a : α} (ha : ∃ p ∈ parts, p.1.angle? = some a)
    (hread : AngleJson.reread? a = none) :
    (ofJsonText (circuitJson parts).pretty : Except Error (Circuit (Gate α κ))) = .error .json := by
  obtain ⟨p, hp, ha⟩ := ha
  have hpart : Operation.ofJson? (partJson p) = (none : Option (StandardGate α × List Qubit)) := by
    rw [ofJson?_partJson, StandardGate.ofJson?_of_angle ha, hread]
    rfl
  rw [ofJsonText_pretty, mapM_eq_none (List.mem_map_of_mem hp) hpart, Option.elim_none]

section
variable (hread : ∀ p ∈ parts, ∀ a, p.1.angle? = some a → (AngleJson.reread? a).isSome = true)
include hread

theorem ofJsonText_of_reread :
    (ofJsonText (circuitJson parts).pretty : Except Error (Circuit (Gate α κ))) =
      ((parts.map rereadPart).mapM makePart).map Circuit.mk := by
  have hparts : (parts.map partJson).mapM Operation.ofJson? = some (parts.map rereadPart) := by
    refine mapM_map_eq_some fun p hp => ?_
    rw [ofJson?_partJson, StandardGate.ofJson?_toJson (hread p hp), Option.map_some, rereadPart]
  rw [ofJsonText_pretty, hparts, Option.elim_some]

variable (hlength : ∀ p ∈ parts, p.2.length = p.1.arity)
include hlength

/-- A text is read with the angles that are read back. -/
theorem ofJsonText_of_nodup (hnodup : ∀ p ∈ parts, p.2.Nodup) :
    (ofJsonText (circuitJson parts).pretty : Except Error (Circuit (Gate α κ))) =
      .ok (ofParts (parts.map rereadPart)) := by
  have hmake : ∀ p ∈ parts, makePart (rereadPart p) =
      .ok (⟨.standard p.1.reread, p.2⟩ : Operation (Gate α κ)) := fun p hp =>
    makePart_eq_ok.mpr ⟨(hlength p hp).trans p.1.arity_reread.symm, hnodup p hp, rfl⟩
  rw [ofJsonText_of_reread hread, mapM_map_eq_ok hmake, ofParts, List.map_map]
  rfl

/-- An operation that has a qubit twice is refused. -/
theorem ofJsonText_of_repeated (hrepeated : ∃ p ∈ parts, ¬p.2.Nodup) :
    ∃ q name, (ofJsonText (circuitJson parts).pretty : Except Error (Circuit (Gate α κ))) =
      .error (.duplicateQubit q name) := by
  have hfails : ∀ p ∈ parts, ¬p.2.Nodup → ∃ q,
      (makePart (rereadPart p) : Except Error (Operation (Gate α κ))) =
        .error (.duplicateQubit q p.1.reread.name) := fun p hp h =>
    makePart_of_repeated ((hlength p hp).trans p.1.arity_reread.symm) h
  obtain ⟨p, hp, h⟩ := hrepeated
  obtain ⟨q, hfail⟩ := hfails p hp h
  obtain ⟨e, herror⟩ := exists_mapM_eq_error (List.mem_map_of_mem hp) hfail
  -- the error is that of the first operation that fails, which need not be this one
  obtain ⟨first, hfirst, hmake⟩ := exists_of_mapM_eq_error herror
  obtain ⟨p', hp', rfl⟩ := List.mem_map.mp hfirst
  by_cases hnodup : p'.2.Nodup
  · have hok : makePart (rereadPart p') = .ok (⟨.standard p'.1.reread, p'.2⟩ : Operation (Gate α κ)) :=
      makePart_eq_ok.mpr ⟨(hlength p' hp').trans p'.1.arity_reread.symm, hnodup, rfl⟩
    cases hok.symm.trans hmake
  · obtain ⟨q', hfail'⟩ := hfails p' hp' hnodup
    cases hfail'.symm.trans hmake
    refine ⟨q', p'.1.reread.name, ?_⟩
    rw [ofJsonText_of_reread hread, herror]
    rfl

end

/-- With angles that are read as themselves the same circuit is read. -/
theorem ofJsonText_of_self (hself : ∀ p ∈ parts, ∀ a, p.1.angle? = some a →
      AngleJson.reread? a = some a) (hfits : ∀ p ∈ parts, p.2.length = p.1.arity ∧ p.2.Nodup) :
    (ofJsonText (circuitJson parts).pretty : Except Error (Circuit (Gate α κ))) =
      .ok (ofParts parts) := by
  have hread : ∀ p ∈ parts, ∀ a, p.1.angle? = some a → (AngleJson.reread? a).isSome = true :=
    fun p hp a ha => Option.isSome_of_eq_some (hself p hp a ha)
  have hparts : parts.map rereadPart = parts := by
    refine (List.map_congr_left fun p hp => ?_).trans parts.map_id
    rw [rereadPart, StandardGate.reread_self (hself p hp)]
    rfl
  rw [ofJsonText_of_nodup hread (fun p hp => (hfits p hp).1) fun p hp => (hfits p hp).2, hparts]

omit [Angle α] in
theorem exists_gate_of_parts {j : Json} (h : partsOfJson? j = some parts) :
    ∀ p ∈ parts, ∃ j, StandardGate.ofJson? j = some p.1 := by
  intro p hp
  rw [partsOfJson?] at h
  split at h
  · rename_i ops _
    cases ops with
    | array js =>
      obtain ⟨j, -, hj⟩ := exists_of_mapM_eq_some h hp
      exact exists_gate_of_part hj
    | _ => cases h
  · cases h

omit [AngleJson α] in
theorem eq_ofParts_of_mapM {ops : List (Operation (Gate α κ))} (h : parts.mapM makePart = .ok ops) :
    ⟨ops⟩ = (ofParts parts : Circuit (Gate α κ)) ∧
      ∀ p ∈ parts, p.2.length = p.1.arity ∧ p.2.Nodup := by
  have hmade : ∀ p ∈ parts, (makePart p : Except Error (Operation (Gate α κ))) =
      .ok ⟨.standard p.1, p.2⟩ ∧ p.2.length = p.1.arity ∧ p.2.Nodup := by
    intro p hp
    obtain ⟨op, hop⟩ := exists_eq_ok_of_mapM h hp
    obtain ⟨hlength, hnodup, rfl⟩ := makePart_eq_ok.mp hop
    exact ⟨hop, hlength, hnodup⟩
  cases h.symm.trans (mapM_eq_ok fun p hp => (hmade p hp).1)
  exact ⟨rfl, fun p hp => (hmade p hp).2⟩

/-- What is read is made of gates that were read, on qubits that fit. -/
theorem exists_parts_of_ofJsonText {t : String} {c : Circuit (Gate α κ)}
    (h : ofJsonText t = .ok c) : ∃ parts, c = ofParts parts ∧
      (∀ p ∈ parts, ∃ j, StandardGate.ofJson? j = some p.1) ∧
      ∀ p ∈ parts, p.2.length = p.1.arity ∧ p.2.Nodup := by
  rw [ofJsonText_eq] at h
  cases hparts : ((Json.read? t).bind partsOfJson? :
      Option (List (StandardGate α × List Qubit))) with
  | none =>
    rw [hparts] at h
    cases h
  | some parts =>
    rw [hparts, Option.elim_some] at h
    obtain ⟨j, -, hj⟩ := Option.bind_eq_some_iff.mp hparts
    cases hops : (parts.mapM makePart : Except Error (List (Operation (Gate α κ)))) with
    | error e =>
      rw [hops] at h
      cases h
    | ok ops =>
      rw [hops] at h
      cases h
      obtain ⟨heq, hfits⟩ := eq_ofParts_of_mapM hops
      exact ⟨parts, heq, exists_gate_of_parts hj, hfits⟩

end Circuit
end

/-! ## Doubles as angles -/

theorem AngleJson.reread?_of_finite {a : Float} (h : a.isFinite = true) :
    AngleJson.reread? a = Double.ofNumeral? (Double.jsonLayout.numeral a) := by
  have hnumeral : AngleJson.numeral? a = some (Double.jsonLayout.numeral a) := if_pos h
  rw [AngleJson.reread?, hnumeral, Option.bind_some]
  rfl

/-- Infinities and NaN are written as null, which no angle is read from. -/
theorem AngleJson.reread?_of_not_finite {a : Float} (h : a.isFinite = false) :
    AngleJson.reread? a = none := by
  have hnumeral : AngleJson.numeral? a = none := if_neg (Bool.eq_false_iff.mp h)
  rw [AngleJson.reread?, hnumeral, Option.bind_none]

/-- What is written of a circuit of standard gates with finite angles is read as that circuit, and
what is read can be written and read again, provided that its angles are read as themselves. -/
theorem Circuit.json_round_trip {c : Circuit (Gate Float κ)}
    (hread : ∀ a, c.HasAngle a → a.isFinite = true →
      Double.ofNumeral? (Double.jsonLayout.numeral a) = some a) :
    ((∀ op ∈ c.operations, ∃ g : StandardGate Float, op.gate = .standard g ∧
        Operation.make op.gate op.qubits = .ok op) →
      (∀ a, c.HasAngle a → a.isFinite = true) →
      ∃ text, c.toJsonText = .ok text ∧ ofJsonText text = .ok c) ∧
    ∀ t, ofJsonText t = .ok c → ∃ text, c.toJsonText = .ok text ∧ ofJsonText text = .ok c := by
  have hself : (∀ a, c.HasAngle a → a.isFinite = true) →
      ∀ a, c.HasAngle a → AngleJson.reread? a = some a := fun hfinite a ha => by
    rw [AngleJson.reread?_of_finite (hfinite a ha), hread a ha (hfinite a ha)]
  constructor
  · intro hops hfinite
    obtain ⟨parts, rfl⟩ := exists_parts fun op hop => (hops op hop).imp fun g hg => hg.1
    have hfits : ∀ p ∈ parts, p.2.length = p.1.arity ∧ p.2.Nodup := by
      intro p hp
      obtain ⟨g, -, hmake⟩ := hops _ (mem_ofParts hp)
      obtain ⟨hlength, hnodup, -⟩ := Operation.make_eq_ok.mp hmake
      exact ⟨hlength, hnodup⟩
    exact ⟨_, toJsonText_ofParts, ofJsonText_of_self
      (fun p hp a ha => hself hfinite a (hasAngle_ofParts.mpr ⟨p, hp, ha⟩)) hfits⟩
  · intro t ht
    obtain ⟨parts, rfl, hgates, hfits⟩ := exists_parts_of_ofJsonText ht
    have hfinite : ∀ a, (ofParts parts : Circuit (Gate Float κ)).HasAngle a →
        a.isFinite = true := by
      intro a ha
      obtain ⟨p, hp, ha⟩ := hasAngle_ofParts.mp ha
      obtain ⟨j, hj⟩ := hgates p hp
      obtain ⟨n, hn⟩ := StandardGate.exists_numeral hj ha
      exact Double.isFinite_of_ofNumeral? hn
    exact ⟨_, toJsonText_ofParts, ofJsonText_of_self
      (fun p hp a ha => hself hfinite a (hasAngle_ofParts.mpr ⟨p, hp, ha⟩)) hfits⟩

/-- Gates with and without an angle, on qubits of every kind, one with a name to be escaped. -/
def escapedParts : List (StandardGate Float × List Qubit) :=
  [(.rx 0.25, [.named "a\"b\\c\n\x00"]), (.cx, [.line 4294967295, .clean 0])]

theorem Circuit.json_round_trip_escaped :
    (ofParts escapedParts : Circuit (Gate Float Complex)).HasAngle 0.25 ∧
      ∃ text, (ofParts escapedParts : Circuit (Gate Float Complex)).toJsonText = .ok text ∧
        ofJsonText text = .ok (ofParts escapedParts : Circuit (Gate Float Complex)) := by
  have hread : Double.ofNumeral? (Double.jsonLayout.numeral 0.25) = some 0.25 := by decide +kernel
  have hangle : ∀ a, (ofParts escapedParts : Circuit (Gate Float Complex)).HasAngle a →
      a = 0.25 := by
    intro a ha
    obtain ⟨p, hp, ha⟩ := hasAngle_ofParts.mp ha
    rcases List.mem_cons.mp hp with rfl | hp
    · exact (Option.some.inj ha).symm
    · cases List.mem_singleton.mp hp
      cases ha
  refine ⟨hasAngle_ofParts.mpr ⟨_, List.mem_cons_self, rfl⟩,
    (json_round_trip fun a ha _ => hangle a ha ▸ hread).1 ?_ fun a ha => ?_⟩
  · refine List.forall_mem_cons.mpr ⟨⟨.rx 0.25, rfl, ?_⟩, List.forall_mem_singleton.mpr ⟨.cx, rfl, ?_⟩⟩
    all_goals exact Operation.make_eq_ok.mpr ⟨rfl, by decide, rfl⟩
  · rw [hangle a ha]
    decide +kernel

end BloqCircuit
