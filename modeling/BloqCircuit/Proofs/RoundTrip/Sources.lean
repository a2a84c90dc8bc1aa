import BloqCircuit.Proofs.RoundTrip.Composites
import BloqCircuit.Proofs.RoundTrip.Narrow
/-! Circuits whose bloqs bring new qubits in come back from the composites that they are imported as:
each operation is wired to the outputs of the operations that its qubits come from. -/
namespace BloqCircuit

section
variable {α κ : Type}

/-! ## New qubits -/

/-- The qubits of registers that are outputs and no inputs, when the registers are laid out on a flat
list of qubits. -/
def newQubits : List Register → List Qubit → List Qubit
  | [], _ => []
  | r :: rest, qubits =>
    (if r.side = .right then qubits.take r.totalBits else []) ++
      newQubits rest (qubits.drop r.totalBits)

/-- The qubits that come into being on an operation. -/
def Operation.news (op : Operation (Gate α κ)) : List Qubit :=
  newQubits op.gate.bloq.signature.registers op.qubits

/-- Whatever an operation brings in is neither known before nor on an earlier operation. -/
def Import.Unseen : List Qubit → List (Operation (Gate α κ)) → Prop
  | _, [] => True
  | known, op :: ops => (∀ q ∈ op.news, q ∉ known) ∧ Unseen (known ++ op.qubits) ops

theorem newQubits_on {L : Labels} {v : Nat} {registers : List Register} (h : L.Fits v registers) :
    newQubits registers (L.on v registers) = L.on v (registers.filter (·.side == .right)) := by
  induction registers with
  | nil => rfl
  | cons r rest ih =>
    have hlen : (L.on v [r]).length = r.totalBits := by
      rw [Labels.length_on (h.mono fun s hs => List.mem_singleton.mp hs ▸ List.mem_cons_self)]
      exact List.sum_singleton
    have hsplit : L.on v (r :: rest) = L.on v [r] ++ L.on v rest := Labels.on_append [r] rest
    rw [newQubits, hsplit, ← hlen, List.take_left, List.drop_left,
      ih (h.mono fun s hs => List.mem_cons_of_mem _ hs)]
    by_cases hr : r.side = .right
    · rw [if_pos hr, List.filter_cons_of_pos (by rw [hr]; rfl)]
      exact (Labels.on_append [r] _).symm
    · rw [if_neg hr, List.filter_cons_of_neg (by simpa using hr), List.nil_append]

/-! ## Gates that keep their qubits -/

/-- A gate that is no bloq, or whose bloq has no circuit form of its own and whose registers carry
qubits that do not end there. -/
def Gate.Keeping : Gate α κ → Prop
  | .ofBloq b => b.native? = none ∧ b.signature.Valid ∧
      ∀ r ∈ b.signature.registers, r.side ≠ .left ∧ r.Quantum
  | _ => True

theorem Gate.Keeping.emitted {g : Gate α κ} (h : g.Keeping) : g.Emitted := by
  cases g with
  | ofBloq b =>
    obtain ⟨hnative, hvalid, hkeeps⟩ := h
    have hrights : b.signature.rights = b.signature.registers :=
      List.filter_eq_self.mpr fun r hr => Side.isRight_of_ne (hkeeps r hr).1
    have hnames : b.signature.repeatedName? = none := by
      rw [Signature.repeatedName?_eq_none, ← hrights]
      exact hvalid.nodup_rights
    exact emitted_ofBloq hnative hnames fun r hr => (hkeeps r hr).2
  | standard g => exact emitted_ofGate (fun b hb => by cases hb) rfl
  | declared d => exact emitted_ofGate (fun b hb => by cases hb) rfl
  | nest n => exact emitted_ofGate (fun b hb => by cases hb) rfl

theorem Gate.Keeping.side_ne {g : Gate α κ} (h : g.Keeping) :
    ∀ r ∈ g.bloq.signature.registers, r.side ≠ .left := by
  have hgate : ∀ r ∈ (Bloq.ofGate g).signature.registers, r.side ≠ .left := by
    intro r hr
    rw [Bloq.signature_ofGate] at hr
    rw [List.mem_singleton.mp hr]
    exact Side.noConfusion
  cases g with
  | ofBloq b => exact fun r hr => (h.2.2 r hr).1
  | standard g => exact hgate
  | declared d => exact hgate
  | nest n => exact hgate

theorem Gate.Keeping.dead_eq {g : Gate α κ} (h : g.Keeping) : g.bloq.dead = [] :=
  h.emitted.dead_eq h.side_ne

theorem Import.unseen_of_news_eq_nil {ops : List (Operation (Gate α κ))}
    (h : ∀ op ∈ ops, op.news = []) (known : List Qubit) : Import.Unseen known ops := by
  induction ops generalizing known with
  | nil => trivial
  | cons op ops ih =>
    refine ⟨fun q hq => ?_, ih (fun op hop => h op (List.mem_cons_of_mem _ hop)) _⟩
    rw [h op List.mem_cons_self] at hq
    cases hq

end

variable {α κ : Type} [Angle α]

/-- The qubits of an operation are labels of the bloq that its gate stands for, and those that come
into being are the labels of its new outputs. -/
theorem Operation.exists_passes {op : Operation (Gate α κ)} (hgate : op.gate.Keeping)
    (hmake : Operation.make op.gate op.qubits = .ok op) :
    ∃ f : Labels, f.Passes 0 op.gate.bloq ∧ op.gate.bloq.operation? f 0 = some op ∧
      f.on 0 op.gate.bloq.born = op.news := by
  obtain ⟨f, hp, hop⟩ := hgate.emitted.exists_passes (Operation.make_eq_ok.mp hmake).1
  have hmoves := (hgate.emitted.regular.plain.of_emits hgate.emitted.emits).1
  have hqubits : f.on 0 op.gate.bloq.signature.registers = op.qubits := by
    rw [Bloq.operation?, hgate.emitted.emits] at hop
    exact congrArg Operation.qubits (Option.some.inj hop)
  refine ⟨f, hp, hop, ?_⟩
  rw [Operation.news, ← hqubits, newQubits_on hp.fits, Bloq.born, hmoves, if_neg Bool.false_ne_true]

/-- Nothing comes in on new outputs that have no elements. -/
theorem Operation.news_eq_nil {op : Operation (Gate α κ)} (hgate : op.gate.Keeping)
    (hmake : Operation.make op.gate op.qubits = .ok op)
    (hborn : (op.gate.bloq.born.map (·.totalBits)).sum = 0) : op.news = [] := by
  obtain ⟨f, hp, -, hnews⟩ := Operation.exists_passes hgate hmake
  have hmoves := (hgate.emitted.regular.plain.of_emits hgate.emitted.emits).1
  have hfits : f.Fits 0 op.gate.bloq.born := hp.fits.mono fun r hr =>
    (Bloq.lefts_born_perm hmoves).subset (List.mem_append_right _ hr)
  rw [← hnews]
  exact List.length_eq_zero_iff.mp ((Labels.length_on hfits).trans hborn)

/-- Operations that bring in unseen qubits only can follow one another. -/
theorem Import.lively_of_unseen {ops : List (Operation (Gate α κ))} {known : List Qubit}
    (h : ∀ op ∈ ops, op.gate.Keeping ∧ Operation.make op.gate op.qubits = .ok op)
    (hunseen : Import.Unseen known ops) (outputs : List Qubit) :
    Import.Lively outputs known [] ops := by
  induction ops generalizing known with
  | nil => exact .nil fun q _ hq => absurd hq List.not_mem_nil
  | cons op ops ih =>
    obtain ⟨hgate, hmake⟩ := h op List.mem_cons_self
    have hn : op.qubits.Nodup := (Operation.make_eq_ok.mp hmake).2.1
    obtain ⟨f, hp, hop, hborn⟩ := Operation.exists_passes hgate hmake
    obtain ⟨hnew, hrest⟩ := hunseen
    refine .cons hgate.emitted.regular hp hop hn (fun q _ hq => absurd hq List.not_mem_nil)
      (fun q hq => hnew q (hborn ▸ hq)) ?_
    rw [hgate.dead_eq]
    exact ih (fun op hop => h op (List.mem_cons_of_mem _ hop)) hrest

/-! ## There and back -/

/-- A composite emits operations again, on other names for the qubits that do not come in: whatever
an operation does to a qubit after another one brought it in, or an output of the boundary, is wired
to where the qubit came from. -/
def Composite.Follows (c : Composite (Bloq α κ)) (s : Signature) (inputs outputs : Quregs)
    (ins : List Qubit) (ops : List (Operation (Gate α κ))) : Prop :=
  ∀ (traversal : TraversalOrder) (p : CleanPool), p.Spares ins c.demand →
    ∃ (circuit : Circuit (Gate α κ)) (out : Quregs) (t : Scope CleanPool) (f : Qubit → Qubit),
      Gives (c.export s inputs traversal) (Scope.declare ins { base := p }) (circuit, out) t ∧
      Function.Injective f ∧ (∀ q ∈ ins, f q = q) ∧
      circuit.operations.Perm (ops.map (Operation.map f)) ∧
      ∀ r ∈ s.rights, ∃ g, r.arrayIn outputs = .ok g ∧ r.arrayIn out = .ok (g.map f)

/-- A circuit on which every new qubit is unseen is imported between any boundaries, and what it is
imported as follows its qubits. -/
theorem Circuit.importBetween_follows {s : Signature} {inputs outputs : Quregs}
    {ins outs : List Qubit} {ops : List (Operation (Gate α κ))} (hv : s.Valid)
    (hq : ∀ r ∈ s.registers, r.Quantum) (hin : inputs.merge s.lefts = .ok ins) (hins : ins.Nodup)
    (hout : outputs.merge s.rights = .ok outs) (houts : outs.Nodup)
    (hops : ∀ op ∈ ops, op.gate.Keeping ∧ Operation.make op.gate op.qubits = .ok op)
    (hunseen : Import.Unseen ins ops) :
    ∃ c : Composite (Bloq α κ),
      (⟨ops⟩ : Circuit (Gate α κ)).importBetween s inputs outputs = .ok c ∧
        c.Follows s inputs outputs ins ops := by
  obtain ⟨l, hl, hlefts, hlon⟩ := Labels.exists_of_merge 0 hin
  obtain ⟨k, hk, hrights, hkon⟩ := Labels.exists_of_merge 0 hout
  obtain ⟨c, L, himport, hrealizes, hinput, houtput, -⟩ := importBetween_realizes hv hq hl hlefts
    (hlon ▸ hins) hk hrights (hkon ▸ houts) (Import.lively_of_unseen hops (hlon ▸ hunseen) _)
  have hon : L.on 0 s.lefts = ins := by
    rw [← hlon]
    exact Labels.on_congr fun p hp => hinput p (mem_portsOn.mp hp).1
  have hgiven : ∀ r ∈ s.lefts, r.arrayIn inputs = .ok (L.array 0 r) := by
    intro r hr
    have hlabels : (fun i => l ⟨0, i, r⟩) = fun i => L ⟨0, i, r⟩ :=
      funext fun i => (hinput ⟨0, i, r⟩ rfl).symm
    rw [hlefts r hr, Labels.array, Labels.array, hlabels]
  refine ⟨c, himport, fun traversal p hp => ?_⟩
  obtain ⟨circuit, t, f, hexport, hinj, hkept, hperm⟩ :=
    hrealizes.exists_export hgiven traversal (hon ▸ hp)
  rw [hon] at hexport hkept
  refine ⟨circuit, _, t, f, hrealizes.signature ▸ hexport, hinj, hkept, hperm, fun r hr => ?_⟩
  have hlabels : L.array (c.instances.length + 1) r = k.array 0 r :=
    congrArg r.array (funext (houtput r))
  refine ⟨_, hrights r hr, Register.arrayIn_eq_ok.mpr ⟨?_, rfl⟩⟩
  rw [Labels.arrays, Arrays.map_byRegister, Arrays.get?_byRegister hv.nodup_rights hr, hlabels]

/-- If all operations are on registers that are one qubit wide, then a circuit is imported as a whole
only if nothing comes in on an operation, and what it is imported as follows its qubits. -/
theorem Circuit.importWhole_follows {ops : List (Operation (Gate α κ))} {name : String}
    {k : Composite (Bloq α κ)}
    (hops : ∀ op ∈ ops, op.gate.Keeping ∧ Operation.make op.gate op.qubits = .ok op)
    (hw : ∀ op ∈ ops, ∀ r ∈ op.gate.bloq.signature.registers, r.bitsize = 1)
    (h : (⟨ops⟩ : Circuit (Gate α κ)).importWhole name = .ok k) :
    (∀ op ∈ ops, op.news = []) ∧
      k.Follows ⟨[(⟨ops⟩ : Circuit (Gate α κ)).defaultRegister name]⟩
        ((⟨ops⟩ : Circuit (Gate α κ)).defaultQuregs name)
        ((⟨ops⟩ : Circuit (Gate α κ)).defaultQuregs name) (⟨ops⟩ : Circuit (Gate α κ)).qubits ops := by
  have hborn := born_of_importWhole (fun op hop => ⟨(hops op hop).1.emitted, fun r hr =>
    ⟨(hops op hop).1.side_ne r hr, hw op hop r hr⟩⟩) h
  have hnews : ∀ op ∈ ops, op.news = [] := fun op hop =>
    Operation.news_eq_nil (hops op hop).1 (hops op hop).2 (hborn op hop)
  obtain ⟨c, himport, hfollows⟩ := importBetween_follows (valid_default _ name)
    (quantum_default _ name) (merge_defaultQuregs _ name) (nodup_firstUses _)
    (merge_defaultQuregs _ name) (nodup_firstUses _) hops (Import.unseen_of_news_eq_nil hnews _)
  have heq := Except.ok.inj (himport.symm.trans h)
  subst heq
  exact ⟨hnews, hfollows⟩

/-- Import follows each qubit through the operations that bring it in. Between any boundaries it does
so if every new qubit is unseen. With the default signature all qubits come in on the boundary; if all
operations are on registers that are one qubit wide, then import fails as soon as an operation brings
one in again, and otherwise follows the qubits. -/
theorem Circuit.import_follows {ops : List (Operation (Gate α κ))}
    (hops : ∀ op ∈ ops, op.gate.Keeping ∧ Operation.make op.gate op.qubits = .ok op) :
    (∀ (s : Signature) (inputs outputs : Quregs) (ins outs : List Qubit), s.Valid →
      (∀ r ∈ s.registers, r.Quantum) → inputs.merge s.lefts = .ok ins → ins.Nodup →
      outputs.merge s.rights = .ok outs → outs.Nodup → Import.Unseen ins ops →
      ∃ c : Composite (Bloq α κ),
        (⟨ops⟩ : Circuit (Gate α κ)).importBetween s inputs outputs = .ok c ∧
          c.Follows s inputs outputs ins ops) ∧
    ((∀ op ∈ ops, ∀ r ∈ op.gate.bloq.signature.registers, r.bitsize = 1) →
      ∀ (name : String) (c : Composite (Bloq α κ)),
        (⟨ops⟩ : Circuit (Gate α κ)).importWhole name = .ok c →
        (∀ op ∈ ops, op.news = []) ∧
          c.Follows ⟨[(⟨ops⟩ : Circuit (Gate α κ)).defaultRegister name]⟩
            ((⟨ops⟩ : Circuit (Gate α κ)).defaultQuregs name)
            ((⟨ops⟩ : Circuit (Gate α κ)).defaultQuregs name)
            (⟨ops⟩ : Circuit (Gate α κ)).qubits ops) := by
  constructor
  · intro s inputs outputs ins outs hv hq hin hins hout houts hunseen
    exact importBetween_follows hv hq hin hins hout houts hops hunseen
  · intro hw name c h
    exact importWhole_follows hops hw h

/-- A bloq brings two qubits in, of which a gate takes one; and a circuit on which nothing comes in. -/
theorem Circuit.import_follows_bundle :
    let pair : Gate Float Complex := .ofBloq (.adjoint (.free (.qubits 2)))
    let ops : List (Operation (Gate Float Complex)) :=
      [⟨pair, [.line 0, .line 1]⟩, ⟨.standard .h, [.line 0]⟩]
    let s : Signature := ⟨[⟨"out", .qbit, [2], .right⟩]⟩
    let outputs : Quregs := ⟨[("out", ⟨[2, 1], #[.line 0, .line 1], rfl⟩)]⟩
    let c : Circuit (Gate Float Complex) :=
      ⟨[⟨.standard .cx, [.line 0, .line 1]⟩, ⟨.standard .h, [.line 1]⟩]⟩
    (∃ k : Composite (Bloq Float Complex),
      (⟨ops⟩ : Circuit (Gate Float Complex)).importBetween s Arrays.empty outputs = .ok k ∧
        k.Follows s Arrays.empty outputs [] ops) ∧
    ∃ k : Composite (Bloq Float Complex), c.importWhole "q" = .ok k ∧
      (∀ op ∈ c.operations, op.news = []) ∧
      k.Follows ⟨[c.defaultRegister "q"]⟩ (c.defaultQuregs "q") (c.defaultQuregs "q") c.qubits
        c.operations := by
  intro pair ops s outputs c
  have hsignature : (Bloq.adjoint (.free (.qubits 2)) : Bloq Float Complex).signature =
      ⟨[bundleOn .right (.qubits 2)]⟩ := by
    rw [Bloq.signature, Bloq.signature_free]
    rfl
  have hquantum : ∀ r ∈ s.registers, r.Quantum := by
    intro r hr
    rw [List.mem_singleton.mp hr]
    exact ⟨rfl, Nat.le_refl 1⟩
  have hops : ∀ op ∈ ops, op.gate.Keeping ∧ Operation.make op.gate op.qubits = .ok op := by
    intro op hop
    simp only [ops, List.mem_cons, List.not_mem_nil, or_false] at hop
    rcases hop with rfl | rfl
    · refine ⟨⟨rfl, ?_, fun r hr => ?_⟩, Operation.make_eq_ok.mpr ⟨?_, by decide, rfl⟩⟩
      · rw [hsignature]
        rfl
      · rw [hsignature] at hr
        rw [List.mem_singleton.mp hr]
        exact ⟨Side.noConfusion, rfl, by decide⟩
      · show 2 = (Bloq.adjoint (.free (.qubits 2)) : Bloq Float Complex).signature.totalBits
        rw [hsignature]
        rfl
    · exact ⟨trivial, Operation.make_eq_ok.mpr ⟨rfl, by decide, rfl⟩⟩
  have hgates : ∀ op ∈ c.operations,
      op.gate.Keeping ∧ Operation.make op.gate op.qubits = .ok op := by
    intro op hop
    simp only [c, List.mem_cons, List.not_mem_nil, or_false] at hop
    rcases hop with rfl | rfl <;> exact ⟨trivial, Operation.make_eq_ok.mpr ⟨rfl, by decide, rfl⟩⟩
  have hregisters : ∀ g : StandardGate Float,
      (Gate.standard g : Gate Float Complex).bloq.signature.registers = [gateRegister g.arity] :=
    fun g => congrArg Signature.registers (Bloq.signature_ofGate (.standard g))
  -- a standard gate brings nothing in
  have hnews : ∀ (g : StandardGate Float) (qs : List Qubit),
      Operation.news (⟨.standard g, qs⟩ : Operation (Gate Float Complex)) = [] := by
    intro g qs
    rw [Operation.news, hregisters]
    rfl
  have hunseen : Import.Unseen [] ops := by
    refine ⟨fun q _ => List.not_mem_nil, fun q hq => ?_, trivial⟩
    rw [hnews] at hq
    exact absurd hq List.not_mem_nil
  have hwidth : ∀ op ∈ c.operations, ∀ r ∈ op.gate.bloq.signature.registers, r.bitsize = 1 := by
    intro op hop r hr
    simp only [c, List.mem_cons, List.not_mem_nil, or_false] at hop
    rcases hop with rfl | rfl <;> rw [hregisters] at hr <;> rw [List.mem_singleton.mp hr] <;> rfl
  have hnone : ∀ op ∈ c.operations, op.news = [] := by
    intro op hop
    simp only [c, List.mem_cons, List.not_mem_nil, or_false] at hop
    rcases hop with rfl | rfl <;> exact hnews _ _
  obtain ⟨k, hk, -⟩ := importBetween_follows (valid_default c "q") (quantum_default c "q")
    (merge_defaultQuregs c "q") (nodup_firstUses _) (merge_defaultQuregs c "q") (nodup_firstUses _)
    hgates (Import.unseen_of_news_eq_nil hnone _)
  refine ⟨(import_follows hops).1 s Arrays.empty outputs [] [.line 0, .line 1] (by rfl) hquantum
    (by rfl) List.nodup_nil (by rfl) (by decide) hunseen, k, hk, ?_⟩
  exact (import_follows hgates).2 hwidth "q" k hk

end BloqCircuit
