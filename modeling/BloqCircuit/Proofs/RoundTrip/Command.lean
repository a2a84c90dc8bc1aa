import BloqCircuit.CommandLine
import BloqCircuit.Proofs.Json.Circuits
import BloqCircuit.Proofs.RoundTrip.Circuits
/-! The command that takes a circuit to a composite and back succeeds on every circuit that it can
load, and says so. -/
namespace BloqCircuit

/-! ## What a command prints -/

namespace CommandLine
variable {τ υ : Type} {m : PrintM τ} {f : τ → PrintM υ} {x : τ} {y : υ} {s t : String}

/-- Whatever was printed before, the computation succeeds with `x` and prints `text`. -/
def Prints (m : PrintM τ) (x : τ) (text : String) : Prop :=
  ∀ before, m.run before = (.ok x, before ++ text)

/-- The computation prints nothing, and what was printed before makes no difference to it. -/
def Silent (m : PrintM τ) : Prop := ∃ r : Except String τ, ∀ before, m.run before = (r, before)

theorem prints_pure (x : τ) : Prints (pure x) x "" := fun before => by
  rw [String.append_empty]
  rfl

theorem prints_printLine (line : String) : Prints (printLine line) () (line ++ "\n") := fun _ => rfl

theorem prints_within {r : Except String τ} (what : String) (h : r = .ok x) :
    Prints (within what r) x "" := by
  rw [h]
  exact prints_pure x

theorem Prints.bind (hm : Prints m x s) (hf : Prints (f x) y t) : Prints (m >>= f) y (s ++ t) := by
  intro before
  rw [run_bind, hm before]
  change (f x).run (before ++ s) = _
  rw [hf, String.append_assoc]

theorem Prints.bind_silent (hm : Prints m x "") (hf : Prints (f x) y t) : Prints (m >>= f) y t := by
  have h := hm.bind hf
  rwa [String.empty_append] at h

theorem silent_within (what : String) (r : Except String τ) : Silent (within what r) := by
  cases r with
  | ok x => exact ⟨.ok x, fun _ => rfl⟩
  | error e => exact ⟨.error (what ++ ": " ++ e), fun _ => rfl⟩

theorem silent_throw_bind (e : String) (f : τ → PrintM υ) : Silent (throw e >>= f) :=
  ⟨.error e, fun _ => rfl⟩

theorem Silent.bind (hm : Silent m) (hf : ∀ x, Silent (f x)) : Silent (m >>= f) := by
  obtain ⟨r, hr⟩ := hm
  cases r with
  | error e =>
    refine ⟨.error e, fun before => ?_⟩
    rw [run_bind, hr]
  | ok x =>
    obtain ⟨r', hr'⟩ := hf x
    refine ⟨r', fun before => ?_⟩
    rw [run_bind, hr]
    exact hr' before

/-- What a silent computation gives once, it always gives. -/
theorem Silent.prints (h : Silent m) (hx : (m.run s).1 = .ok x) : Prints m x "" := by
  obtain ⟨r, hr⟩ := h
  rw [hr s] at hx
  intro before
  rw [hr before, String.append_empty]
  exact congrArg (·, before) hx

theorem eq_ok_of_run_within {what : String} {r : Except String τ}
    (h : ((within what r).run s).1 = .ok x) : r = .ok x := by
  cases r with
  | error e => cases h
  | ok x' => exact congrArg Except.ok (Except.ok.inj h)

theorem eq_ok_of_explained {r : Except Error τ} (h : explained r = .ok x) : r = .ok x := by
  cases r with
  | error e => cases h
  | ok x' => exact congrArg Except.ok (Except.ok.inj h)

/-! ## Loading -/

variable {find : String → Entry} {path : String}

theorem silent_loadConfig (find : String → Entry) (path : Option String) :
    Silent (loadConfig find path) := by
  cases path with
  | none => exact ⟨_, fun _ => rfl⟩
  | some path => exact (silent_within _ _).bind fun _ => silent_within _ _

theorem silent_loadCircuit (find : String → Entry) (path : String) :
    Silent (loadCircuit find path) := by
  unfold loadCircuit
  split
  · exact silent_throw_bind _ _
  · dsimp only
    split
    · exact silent_throw_bind _ _
    · exact (silent_within _ _).bind fun _ => silent_within _ _

theorem Entry.content_eq_ok {e : Entry} {text : String} : e.content = .ok text ↔ e = .file text := by
  cases e <;> simp [content]

/-- The circuits that are loaded are those that are read from the text of a file with the right
ending. -/
theorem run_loadCircuit_eq_ok {c : Circuit Gates} :
    ((loadCircuit find path).run s).1 = .ok c ↔ ∃ text, find path = .file text ∧
      (extension path).toLower = "json" ∧ Circuit.ofJsonText text = .ok c := by
  unfold loadCircuit
  dsimp only
  constructor
  · intro h
    split at h
    · cases h
    · split at h
      · cases h
      · rename_i hextension
        rw [run_bind] at h
        cases hcontent : (find path).content with
        | error e =>
          rw [hcontent] at h
          cases h
        | ok text =>
          rw [hcontent] at h
          exact ⟨text, Entry.content_eq_ok.mp hcontent, not_not.mp hextension,
            eq_ok_of_explained (eq_ok_of_run_within h)⟩
  · rintro ⟨text, hfile, hextension, htext⟩
    rw [hfile, hextension, if_neg (by simp [Entry.isPresent]), if_neg (not_not_intro rfl)]
    rw [run_bind]
    change ((within _ (explained (Circuit.ofJsonText text))).run s).1 = _
    rw [htext]
    rfl

end CommandLine

/-! ## The comparison -/

section
variable {τ : Type} [BEq τ] [ReflBEq τ]

instance : ReflBEq (Grid τ) where
  rfl {g} := by
    change (g.shape == g.shape && g.cells == g.cells) = true
    rw [BEq.rfl, BEq.rfl, Bool.and_self]

theorem Arrays.holdsSame_self {a : Arrays τ} (h : a.names.Nodup) : a.holdsSame a = true := by
  rw [holdsSame, BEq.rfl, Bool.true_and]
  refine List.all_eq_true.mpr fun e he => ?_
  rw [get?_of_mem h he]
  exact BEq.rfl

instance : ReflBEq (Operation τ) where
  rfl {op} := by
    change (op.qubits == op.qubits && op.gate == op.gate) = true
    rw [BEq.rfl, BEq.rfl, Bool.and_self]

instance : ReflBEq (Circuit τ) where
  rfl {c} := by
    change (c.operations == c.operations) = true
    exact BEq.rfl

end

section
variable {α κ : Type} [Angle α]

instance : ReflBEq (Gate α κ) where
  rfl {g} := by
    cases g with
    | ofBloq b =>
      change (b == b) = true
      exact BEq.rfl
    | _ => exact Gate.same_self _

/-- The gates that are read are not wrapped, and their operands were checked. -/
theorem Circuit.steady_of_ofJsonText [AngleJson α] {t : String} {c : Circuit (Gate α κ)}
    (h : Circuit.ofJsonText t = .ok c) :
    ∀ op ∈ c.operations, op.gate.Steady ∧ Operation.make op.gate op.qubits = .ok op := by
  obtain ⟨parts, rfl, -, hfits⟩ := exists_parts_of_ofJsonText h
  intro op hop
  obtain ⟨p, hp, rfl⟩ := List.mem_map.mp hop
  obtain ⟨hlength, hnodup⟩ := hfits p hp
  exact ⟨trivial, Operation.make_eq_ok.mpr ⟨hlength, hnodup, rfl⟩⟩

end

namespace CommandLine

/-- What is printed if the circuit comes back as it was. -/
def preserved (path : String) (composite : Composite Bloqs) (c : Circuit Gates) : String :=
  "→ Round-tripping " ++ path ++ "\n" ++
    ("  Imported: " ++ toString composite.instances.length ++ " instances" ++ "\n" ++
      ("✓ Round trip preserved " ++ toString c.length ++ " ops" ++ "\n" ++
        ("  Operation order unchanged" ++ "\n")))

variable {find : String → Entry} {paths : Paths} {config : Config} {c : Circuit Gates}

/-- A circuit that comes back from its composite is reported as preserved. -/
theorem prints_roundTrip {composite : Composite Bloqs}
    (hconfig : Prints (loadConfig find paths.config) config "")
    (hcircuit : Prints (loadCircuit find paths.input) c "")
    (himport : c.importWhole config.defaultRegister = .ok composite)
    (hexport : Gives (composite.export composite.signature (c.defaultQuregs config.defaultRegister)
      config.traversal) ({} : CleanPool) (c, c.defaultQuregs config.defaultRegister) {}) :
    Prints (CommandLine.roundTrip find paths) () (preserved paths.input composite c) := by
  have hsame : Arrays.holdsSame (c.defaultQuregs config.defaultRegister)
      (c.defaultQuregs config.defaultRegister) = true :=
    Arrays.holdsSame_self (List.nodup_singleton _)
  have hlength : (sortedTexts c).length = c.length := by
    rw [sortedTexts, List.length_mergeSort, List.length_map]
    rfl
  have hback : ((composite.export composite.signature (c.defaultQuregs config.defaultRegister)
      config.traversal).run ({} : CleanPool)).1 = .ok (c, c.defaultQuregs config.defaultRegister) :=
    congrArg Prod.fst hexport
  unfold CommandLine.roundTrip preserved
  refine Prints.bind (prints_printLine _) ?_
  refine hconfig.bind_silent (hcircuit.bind_silent ?_)
  refine (prints_within _ (congrArg explained himport)).bind_silent ?_
  refine (prints_printLine _).bind ((prints_within _ (congrArg explained hback)).bind_silent ?_)
  dsimp only
  rw [hsame, if_neg (by decide), if_neg (not_not_intro rfl), if_pos BEq.rfl, hlength]
  exact (prints_printLine _).bind (prints_printLine _)

theorem run_of_prints {args : List String} {command : Command} {text : String}
    (hargs : Command.ofArguments? args = some command) (h : Prints (command.run find) () text) :
    run find args = ⟨0, text, ""⟩ := by
  rw [run, hargs]
  dsimp only
  rw [h, String.empty_append]

end CommandLine

/-! ## Circuits and the command -/

section
variable (α κ : Type) [Angle α]
open CommandLine

/-- A circuit of steady gates, imported without a signature, is emitted again with the same
operations in the same order and on the same qubits, in either order of the walk. The command finds
this of every circuit that it can load, whatever the settings. -/
theorem Circuit.round_trips :
    (∀ c : Circuit (Gate α κ),
      (∀ op ∈ c.operations, op.gate.Steady ∧ Operation.make op.gate op.qubits = .ok op) →
      ∀ (inputs outputs : Option Quregs) (name : String),
        ∃ g : Composite (Bloq α κ), c.importAs none inputs outputs name = .ok g ∧
          ∀ (σ : Type) [Allocator σ] (traversal : TraversalOrder) (s : σ),
            Gives (g.export g.signature (c.defaultQuregs name) traversal) s
              (c, c.defaultQuregs name) s) ∧
    ∀ (find : String → Entry) (args : List String) (paths : Paths) (config : Config)
      (c : Circuit Gates),
      Command.ofArguments? args = some (.roundTrip paths) →
      ((loadConfig find paths.config).run "").1 = .ok config →
      ((loadCircuit find paths.input).run "").1 = .ok c →
      ∃ g : Composite Bloqs, c.importWhole config.defaultRegister = .ok g ∧
        run find args = ⟨0, preserved paths.input g c, ""⟩ := by
  refine ⟨fun c hops => c.import_export hops, fun find args paths config c hargs hconfig hload => ?_⟩
  obtain ⟨text, -, -, htext⟩ := run_loadCircuit_eq_ok.mp hload
  obtain ⟨g, himport, hexport⟩ :=
    c.import_export (steady_of_ofJsonText htext) none none config.defaultRegister
  refine ⟨g, himport, run_of_prints hargs ?_⟩
  exact prints_roundTrip ((silent_loadConfig find paths.config).prints hconfig)
    ((silent_loadCircuit find paths.input).prints hload) himport (hexport CleanPool config.traversal {})

/-- A gate on two qubits between gates on one of them, the last of which wraps a bloq; and a command
for a file of gates that do not. -/
theorem Circuit.round_trips_entangled :
    let c : Circuit (Gate Float Complex) := ⟨[⟨.standard .h, [.line 0]⟩,
      ⟨.standard .cx, [.line 0, .line 1]⟩, ⟨.ofBloq (.power (.ofGate (.standard .x)) 2), [.line 1]⟩]⟩
    let parts : List (StandardGate Float × List Qubit) :=
      [(.h, [.line 0]), (.cx, [.line 0, .line 1])]
    let find : String → Entry := fun _ => .file (circuitJson parts).pretty
    (∃ g : Composite (Bloq Float Complex), c.importAs none none none "q" = .ok g ∧
      ∀ (σ : Type) [Allocator σ] (traversal : TraversalOrder) (s : σ),
        Gives (g.export g.signature (c.defaultQuregs "q") traversal) s (c, c.defaultQuregs "q") s) ∧
    ∃ g : Composite Bloqs, (Circuit.ofParts parts : Circuit Gates).importWhole "qubits" = .ok g ∧
      run find ["roundtrip", "-i", "bell.json"] = ⟨0, preserved "bell.json" g (.ofParts parts), ""⟩ := by
  intro c parts find
  have hpower : (Bloq.power (.ofGate (.standard .x)) 2 : Bloq Float Complex).signature =
      ⟨[gateRegister 1]⟩ := by
    rw [Bloq.signature]
    exact Bloq.signature_ofGate _
  have hops : ∀ op ∈ c.operations, op.gate.Steady ∧ Operation.make op.gate op.qubits = .ok op := by
    intro op hop
    simp only [c, List.mem_cons, List.not_mem_nil, or_false] at hop
    rcases hop with rfl | rfl | rfl
    · exact ⟨trivial, Operation.make_eq_ok.mpr ⟨rfl, by decide, rfl⟩⟩
    · exact ⟨trivial, Operation.make_eq_ok.mpr ⟨rfl, by decide, rfl⟩⟩
    · refine ⟨⟨rfl, ?_, fun r hr => ?_⟩, Operation.make_eq_ok.mpr ⟨?_, by decide, rfl⟩⟩
      · rw [hpower]
        rfl
      · rw [hpower] at hr
        rw [List.mem_singleton.mp hr]
        exact ⟨rfl, quantum_gateRegister 1⟩
      · show 1 = (Bloq.power (.ofGate (.standard .x)) 2 : Bloq Float Complex).signature.totalBits
        rw [hpower]
        rfl
  have hread : (Circuit.ofJsonText (circuitJson parts).pretty : Except Error (Circuit Gates)) =
      .ok (.ofParts parts) := by
    refine ofJsonText_of_self (fun p hp a ha => ?_) fun p hp => ?_
    · simp only [parts, List.mem_cons, List.not_mem_nil, or_false] at hp
      rcases hp with rfl | rfl <;> cases ha
    · simp only [parts, List.mem_cons, List.not_mem_nil, or_false] at hp
      rcases hp with rfl | rfl
      · exact ⟨rfl, by decide⟩
      · exact ⟨rfl, by decide⟩
  have hname : "bell.json".splitOn "/" = ["bell.json"] := by
    unfold String.splitOn
    rw [if_neg (by decide)]
    iterate 9 rw [String.splitOnAux, if_neg (by decide), if_neg (by decide)]
    rw [String.splitOnAux, if_pos (by decide)]
    decide
  have hextension : extension "bell.json" = "json" := by
    rw [extension, CommandLine.parts, hname]
    decide
  have hlower : (extension "bell.json").toLower = "json" := by
    rw [hextension]
    exact String.toList_injective (String.toList_map.trans (by decide))
  have hload : ((loadCircuit find "bell.json").run "").1 = .ok (.ofParts parts) :=
    run_loadCircuit_eq_ok.mpr ⟨_, rfl, hlower, hread⟩
  exact ⟨(Circuit.round_trips Float Complex).1 c hops none none "q",
    (Circuit.round_trips Float Complex).2 find ["roundtrip", "-i", "bell.json"] ⟨"bell.json", none⟩ {}
      (.ofParts parts) (by decide +kernel) rfl hload⟩

end
end BloqCircuit
