import BloqCircuit.Proofs.Json.Circuits
import BloqCircuit.Proofs.Rereading
/-! Which of the circuits that can be built have a text that is read. Renaming the qubits of an
operation is not checked, and neither is the angle of a gate, but reading refuses what results from it:
two qubits that have become one, and angles that are no finite numbers. -/
namespace BloqCircuit
variable {α κ : Type}

section
variable [Angle α]

/-- The operations: gates applied to qubits, and these with their qubits renamed. -/
inductive Operation.Built : Operation (Gate α κ) → Prop
  | make {g : Gate α κ} {qubits : List Qubit} {op : Operation (Gate α κ)}
      (h : Operation.make g qubits = .ok op) : Built op
  | map (f : Qubit → Qubit) {op : Operation (Gate α κ)} (h : Built op) : Built (op.map f)

/-- The circuits: from the empty one by adding operations and renaming qubits. -/
inductive Circuit.Built : Circuit (Gate α κ) → Prop
  | empty : Built ⟨[]⟩
  | push {c : Circuit (Gate α κ)} {op : Operation (Gate α κ)} (h : Built c) (hop : op.Built) :
      Built (c.push op)
  | extend {c : Circuit (Gate α κ)} {ops : List (Operation (Gate α κ))} (h : Built c)
      (hops : ∀ op ∈ ops, op.Built) : Built (c.extend ops)
  | map (f : Qubit → Qubit) {c : Circuit (Gate α κ)} (h : Built c) : Built (c.map f)

/-- Renaming changes no number of qubits. -/
theorem Operation.Built.length_qubits {op : Operation (Gate α κ)} (h : op.Built) :
    op.qubits.length = op.gate.arity := by
  induction h with
  | make h =>
    obtain ⟨hlength, -, rfl⟩ := make_eq_ok.mp h
    exact hlength
  | map f _ ih => exact (List.length_map f).trans ih

theorem Circuit.Built.built {c : Circuit (Gate α κ)} (h : c.Built) :
    ∀ op ∈ c.operations, op.Built := by
  induction h with
  | empty => exact List.forall_mem_nil _
  | push _ hop ih => exact List.forall_mem_append.mpr ⟨ih, List.forall_mem_singleton.mpr hop⟩
  | extend _ hops ih => exact List.forall_mem_append.mpr ⟨ih, hops⟩
  | map f _ ih => exact List.forall_mem_map.mpr fun op hop => (ih op hop).map f

namespace Circuit
variable [AngleJson α]

/-- Exactly the circuits of standard gates have a text. -/
theorem exists_toJsonText {c : Circuit (Gate α κ)} :
    (∃ text, c.toJsonText = .ok text) ↔ ∀ op ∈ c.operations, ∃ g, op.gate = .standard g := by
  constructor
  · rintro ⟨text, htext⟩ op hop
    obtain ⟨js, hjs, -⟩ := bind_eq_ok.mp htext
    obtain ⟨j, hj⟩ := exists_eq_ok_of_mapM hjs hop
    rw [Operation.toJson] at hj
    split at hj
    · exact ⟨_, ‹_›⟩
    · cases hj
  · intro h
    obtain ⟨parts, rfl⟩ := exists_parts h
    exact ⟨_, toJsonText_ofParts⟩

/-- Every angle of the circuit has a numeral that is read. -/
def AnglesRead (c : Circuit (Gate α κ)) : Prop :=
  ∀ a, c.HasAngle a → (AngleJson.reread? a).isSome = true

/-- What becomes of the text of a circuit. An angle that is not read decides before any qubit. -/
theorem Built.ofJsonText_cases {c : Circuit (Gate α κ)} (hc : c.Built) {text : String}
    (htext : c.toJsonText = .ok text) :
    (¬c.AnglesRead ∧ ofJsonText text = (.error .json : Except Error (Circuit (Gate α κ)))) ∨
    (c.AnglesRead ∧ (∃ op ∈ c.operations, ¬op.qubits.Nodup) ∧
      ∃ q name, ofJsonText text =
        (.error (.duplicateQubit q name) : Except Error (Circuit (Gate α κ)))) ∨
    (c.AnglesRead ∧ (∀ op ∈ c.operations, op.qubits.Nodup) ∧
      ∃ c' : Circuit (Gate α κ), ofJsonText text = .ok c') := by
  obtain ⟨parts, rfl⟩ := exists_parts (exists_toJsonText.mp ⟨text, htext⟩)
  cases toJsonText_ofParts.symm.trans htext
  have hlength : ∀ p ∈ parts, p.2.length = p.1.arity := fun p hp =>
    (hc.built _ (mem_ofParts hp)).length_qubits
  by_cases hangles : (ofParts parts : Circuit (Gate α κ)).AnglesRead
  · have hread : ∀ p ∈ parts, ∀ a, p.1.angle? = some a → (AngleJson.reread? a).isSome = true :=
      fun p hp a ha => hangles a (hasAngle_ofParts.mpr ⟨p, hp, ha⟩)
    by_cases hnodup : ∀ op ∈ (ofParts parts : Circuit (Gate α κ)).operations, op.qubits.Nodup
    · exact .inr (.inr ⟨hangles, hnodup, _, ofJsonText_of_nodup hread hlength fun p hp =>
        hnodup _ (mem_ofParts hp)⟩)
    · have hrepeated : ∃ op ∈ (ofParts parts : Circuit (Gate α κ)).operations,
          ¬op.qubits.Nodup := by
        push Not at hnodup
        exact hnodup
      obtain ⟨op, hop, h⟩ := hrepeated
      obtain ⟨p, hp, rfl⟩ := List.mem_map.mp hop
      exact .inr (.inl ⟨hangles, ⟨_, hop, h⟩, ofJsonText_of_repeated hread hlength ⟨p, hp, h⟩⟩)
  · refine .inl ⟨hangles, ?_⟩
    rw [AnglesRead] at hangles
    push Not at hangles
    obtain ⟨a, ha, hunread⟩ := hangles
    exact ofJsonText_of_unread (hasAngle_ofParts.mp ha)
      (Option.not_isSome_iff_eq_none.mp hunread)

end Circuit
end

/-- Exactly the finite angles are read again. -/
theorem AngleJson.isSome_reread? {a : Float} :
    (AngleJson.reread? a).isSome = true ↔ a.isFinite = true := by
  cases h : a.isFinite with
  | true =>
    rw [reread?_of_finite h]
    exact iff_of_true (Option.isSome_iff_exists.mpr (Double.exists_ofNumeral?_numeral h)) rfl
  | false =>
    rw [reread?_of_not_finite h]
    exact iff_of_false Bool.false_ne_true Bool.false_ne_true

/-- Exactly the circuits of standard gates are written. What is written is read if all angles are
finite and no operation has a qubit twice, and only then: an angle that is not finite makes it
unreadable, and with finite angles a qubit that stands twice is reported. -/
theorem Circuit.Built.read_iff {c : Circuit (Gate Float κ)} (hc : c.Built) :
    ((∃ text, c.toJsonText = .ok text) ↔ ∀ op ∈ c.operations, ∃ g, op.gate = .standard g) ∧
    ∀ text, c.toJsonText = .ok text →
      ((∃ c' : Circuit (Gate Float κ), ofJsonText text = .ok c') ↔
        (∀ a, c.HasAngle a → a.isFinite = true) ∧ ∀ op ∈ c.operations, op.qubits.Nodup) ∧
      ((∃ a, c.HasAngle a ∧ a.isFinite = false) →
        ofJsonText text = (.error .json : Except Error (Circuit (Gate Float κ)))) ∧
      ((∃ op ∈ c.operations, ¬op.qubits.Nodup) → (∀ a, c.HasAngle a → a.isFinite = true) →
        ∃ q name, ofJsonText text =
          (.error (.duplicateQubit q name) : Except Error (Circuit (Gate Float κ)))) := by
  have hangles : c.AnglesRead ↔ ∀ a, c.HasAngle a → a.isFinite = true :=
    forall₂_congr fun _ _ => AngleJson.isSome_reread?
  refine ⟨exists_toJsonText, fun text htext => ?_⟩
  rw [← hangles]
  have hinfinite : (∃ a, c.HasAngle a ∧ a.isFinite = false) → ¬c.AnglesRead := by
    rintro ⟨a, ha, hfinite⟩ hread
    have := hangles.mp hread a ha
    rw [hfinite] at this
    cases this
  rcases hc.ofJsonText_cases htext with
    ⟨hunread, herror⟩ | ⟨hread, hrepeated, q, name, herror⟩ | ⟨hread, hnodup, c', hok⟩
  · refine ⟨⟨?_, fun h => absurd h.1 hunread⟩, fun _ => herror, fun _ h => absurd h hunread⟩
    rintro ⟨c', hok⟩
    cases herror.symm.trans hok
  · refine ⟨⟨?_, ?_⟩, fun h => absurd hread (hinfinite h), fun _ _ => ⟨q, name, herror⟩⟩
    · rintro ⟨c', hok⟩
      cases herror.symm.trans hok
    · rintro ⟨-, hnodup⟩
      obtain ⟨op, hop, h⟩ := hrepeated
      exact absurd (hnodup op hop) h
  · refine ⟨⟨fun _ => ⟨hread, hnodup⟩, fun _ => ⟨c', hok⟩⟩, fun h => absurd hread (hinfinite h), ?_⟩
    rintro ⟨op, hop, h⟩
    exact absurd (hnodup op hop) h

/-- A rotation by what is no number. -/
def nanRotation : Circuit (Gate Float Complex) :=
  Circuit.push ⟨[]⟩ ⟨.standard (.rx (0 / 0)), [.line 0]⟩

theorem Circuit.Built.read_iff_nan : nanRotation.Built ∧
    ∃ text, nanRotation.toJsonText = .ok text ∧
      ofJsonText text = (.error .json : Except Error (Circuit (Gate Float Complex))) := by
  have hbuilt : nanRotation.Built :=
    .push .empty (.make (Operation.make_eq_ok.mpr ⟨rfl, List.nodup_singleton _, rfl⟩))
  obtain ⟨hwritten, hread⟩ := hbuilt.read_iff
  obtain ⟨text, htext⟩ := hwritten.mpr (List.forall_mem_singleton.mpr ⟨_, rfl⟩)
  have hangle : nanRotation.HasAngle (0 / 0) := ⟨_, List.mem_singleton_self _, _, rfl, rfl⟩
  exact ⟨hbuilt, text, htext, (hread text htext).2.1 ⟨0 / 0, hangle, by decide +kernel⟩⟩

end BloqCircuit
