import BloqCircuit.Proofs.Closing
import BloqCircuit.Proofs.Emission
/-! Circuits come back from the composites that they are imported as, in either order of the walk. -/
namespace BloqCircuit

/-! ## The default signature -/

section
variable {α κ : Type} (c : Circuit (Gate α κ)) (name : String)

theorem exists_labels_defaultQuregs (v : Nat) :
    ∃ l : Labels, l.Fits v [c.defaultRegister name] ∧
      (∀ r ∈ [c.defaultRegister name], r.arrayIn (c.defaultQuregs name) = .ok (l.array v r)) ∧
      l.on v [c.defaultRegister name] = c.qubits ∧
      l.arrays v [c.defaultRegister name] = c.defaultQuregs name := by
  obtain ⟨g, hg⟩ : ∃ g : Grid Qubit, g = ⟨[c.qubits.length, 1], c.qubits.toArray, by simp [shapeSize]⟩ :=
    ⟨_, rfl⟩
  have hquregs : c.defaultQuregs name = Arrays.byRegister [c.defaultRegister name] fun _ => g := by
    rw [hg]
    rfl
  have hin : (c.defaultRegister name).arrayIn (c.defaultQuregs name) = .ok g := by
    have hname : ([c.defaultRegister name].map (·.name)).Nodup := List.nodup_singleton _
    rw [hquregs]
    refine Register.arrayIn_eq_ok.mpr ⟨Arrays.get?_byRegister hname List.mem_cons_self, ?_⟩
    rw [hg]
    rfl
  have hmerge : (c.defaultQuregs name).merge [c.defaultRegister name] = .ok c.qubits := by
    have hparts : ([c.defaultRegister name].mapM fun r => do
        let g ← r.arrayIn (c.defaultQuregs name)
        return g.toList) = .ok ([c.defaultRegister name].map fun _ => c.qubits) := by
      refine mapM_eq_ok fun r hr => ?_
      rw [List.mem_singleton.mp hr, hin, hg]
      rfl
    rw [Quregs.merge, hparts]
    exact congrArg Except.ok (List.append_nil _)
  obtain ⟨l, hfits, harrays, hon⟩ := Labels.exists_of_merge v hmerge
  have harray := harrays _ List.mem_cons_self
  refine ⟨l, hfits, harrays, hon, ?_⟩
  rw [hin] at harray
  rw [hquregs, Except.ok.inj harray]
  rfl

theorem Circuit.valid_default : (⟨[c.defaultRegister name]⟩ : Signature).Valid := by
  have hname : ([c.defaultRegister name].map (·.name)).Nodup := List.nodup_singleton _
  exact Signature.valid_of_nodup hname

theorem Circuit.quantum_default : ∀ r ∈ [c.defaultRegister name], r.Quantum := by
  intro r hr
  rw [List.mem_singleton.mp hr]
  exact ⟨rfl, Nat.le_refl 1⟩

theorem Circuit.merge_defaultQuregs :
    (c.defaultQuregs name).merge [c.defaultRegister name] = .ok c.qubits := by
  obtain ⟨l, hfits, -, hon, harrays⟩ := exists_labels_defaultQuregs c name 0
  rw [← harrays, ← hon]
  exact Labels.merge_arrays (List.nodup_singleton _) hfits

end

/-! ## Steady gates -/

section
variable {α κ : Type}

/-- A gate whose bloq has no circuit form of its own and passes every qubit through, or a gate that
is no bloq. -/
def Gate.Steady : Gate α κ → Prop
  | .ofBloq b => b.native? = none ∧ b.signature.Valid ∧
      ∀ r ∈ b.signature.registers, r.side = .thru ∧ r.Quantum
  | _ => True

/-- A gate whose bloq emits it again. -/
structure Gate.Emitted (g : Gate α κ) : Prop where
  regular : g.bloq.Regular
  emits : g.bloq.emits = some g
  arity : (g.bloq.signature.registers.map (·.totalBits)).sum = g.arity

/-- A gate whose bloq emits it again, on registers that all go through. -/
structure Gate.Passing (g : Gate α κ) : Prop extends Gate.Emitted g where
  thru : ∀ r ∈ g.bloq.signature.registers, r.side = .thru

private theorem signature_of_bloq {g : Gate α κ} (hbloq : g.bloq = .ofGate g) :
    g.bloq.signature.registers = [gateRegister g.arity] := by
  rw [hbloq, Bloq.signature_ofGate]

theorem emitted_ofGate {g : Gate α κ} (hg : ∀ b, g ≠ .ofBloq b) (hbloq : g.bloq = .ofGate g) :
    g.Emitted := by
  refine ⟨?_, ?_, ?_⟩
  · rw [hbloq]
    exact Bloq.regular_ofGate hg
  · rw [hbloq]
    rfl
  · rw [signature_of_bloq hbloq, List.map_singleton, List.sum_singleton, totalBits_gateRegister]

theorem emitted_ofBloq {b : Bloq α κ} (hnative : b.native? = none)
    (hnames : b.signature.repeatedName? = none) (hq : ∀ r ∈ b.signature.registers, r.Quantum) :
    (Gate.ofBloq b).Emitted := by
  refine ⟨⟨.wrapped b hnative hnames, fun b' heq => ?_, hq⟩, ?_, ?_⟩
  · rw [Gate.bloq] at heq
    rw [heq] at hnative
    cases hnative
  · cases b with
    | split | join | allocate | free | ofGate => cases hnative
    | _ => rfl
  · rw [Gate.bloq, Gate.arity, Signature.totalBits_eq]

private theorem passing_ofGate {g : Gate α κ} (hg : ∀ b, g ≠ .ofBloq b) (hbloq : g.bloq = .ofGate g) :
    g.Passing := by
  refine ⟨emitted_ofGate hg hbloq, fun r hr => ?_⟩
  rw [signature_of_bloq hbloq] at hr
  rw [List.mem_singleton.mp hr]
  rfl

theorem Gate.Steady.passing {g : Gate α κ} (h : g.Steady) : g.Passing := by
  cases g with
  | ofBloq b =>
    obtain ⟨hnative, hvalid, hthru⟩ := h
    have hlefts := Signature.lefts_of_thru fun r hr => (hthru r hr).1
    have hnames : b.signature.repeatedName? = none := by
      rw [Signature.repeatedName?_eq_none, ← hlefts]
      exact hvalid.nodup_lefts
    exact ⟨emitted_ofBloq hnative hnames fun r hr => (hthru r hr).2, fun r hr => (hthru r hr).1⟩
  | standard g => exact passing_ofGate (fun b hb => by cases hb) rfl
  | declared d => exact passing_ofGate (fun b hb => by cases hb) rfl
  | nest n => exact passing_ofGate (fun b hb => by cases hb) rfl

theorem Gate.Passing.born_eq {g : Gate α κ} (h : g.Passing) : g.bloq.born = [] := by
  rw [Bloq.born, (h.regular.plain.of_emits h.emits).1, if_neg Bool.false_ne_true]
  refine List.filter_eq_nil_iff.mpr fun r hr => ?_
  rw [h.thru r hr]
  exact Bool.false_ne_true

/-- Nothing ends on a bloq without inputs of their own. -/
theorem Gate.Emitted.dead_eq {g : Gate α κ} (h : g.Emitted)
    (hs : ∀ r ∈ g.bloq.signature.registers, r.side ≠ .left) : g.bloq.dead = [] := by
  rw [Bloq.dead, (h.regular.plain.of_emits h.emits).1, if_neg Bool.false_ne_true]
  exact List.filter_eq_nil_iff.mpr fun r hr => by simpa using hs r hr

theorem Gate.Passing.dead_eq {g : Gate α κ} (h : g.Passing) : g.bloq.dead = [] :=
  h.toEmitted.dead_eq fun r hr => by rw [h.thru r hr]; exact Side.noConfusion

/-- Any qubits are the labels of registers that they fit. -/
theorem Labels.exists_on {registers : List Register} (hn : (registers.map (·.name)).Nodup)
    {qubits : List Qubit} (hlen : qubits.length = (registers.map (·.totalBits)).sum) (v : Nat) :
    ∃ f : Labels, f.Fits v registers ∧ f.on v registers = qubits := by
  rw [← sum_bitsize_portsOn v] at hlen
  obtain ⟨f, hwidth, hflat⟩ := exists_pieces (nodup_portsOn hn.of_map) _ hlen
  exact ⟨f, hwidth, hflat⟩

/-- The qubits of an operation are labels of the bloq that its gate stands for. -/
theorem Gate.Emitted.exists_passes {g : Gate α κ} (h : g.Emitted) {qubits : List Qubit}
    (hlen : qubits.length = g.arity) :
    ∃ f : Labels, f.Passes 0 g.bloq ∧ g.bloq.operation? f 0 = some ⟨g, qubits⟩ := by
  obtain ⟨hmoves, hnames⟩ := h.regular.plain.of_emits h.emits
  obtain ⟨f, hfits, hon⟩ := Labels.exists_on hnames (hlen.trans h.arity.symm) 0
  refine ⟨f, ⟨hfits, fun hm => ?_⟩, ?_⟩
  · rw [hmoves] at hm
    cases hm
  · rw [Bloq.operation?, h.emits]
    exact congrArg (fun qs => some (⟨g, qs⟩ : Operation (Gate α κ))) hon

end

variable {α κ : Type} [Angle α]

/-- Operations with passing gates can follow one another in any order. -/
theorem lively_of_passing {ops : List (Operation (Gate α κ))}
    (h : ∀ op ∈ ops, op.gate.Passing ∧ Operation.make op.gate op.qubits = .ok op)
    (outputs known : List Qubit) : Import.Lively outputs known [] ops := by
  induction ops generalizing known with
  | nil => exact .nil fun q _ hq => absurd hq List.not_mem_nil
  | cons op ops ih =>
    obtain ⟨hgate, hmake⟩ := h op List.mem_cons_self
    obtain ⟨hlen, hn, -⟩ := Operation.make_eq_ok.mp hmake
    obtain ⟨f, hp, hop⟩ := hgate.exists_passes hlen
    have hrest := ih (fun op hop => h op (List.mem_cons_of_mem _ hop)) (known ++ op.qubits)
    refine .cons hgate.regular hp hop hn (fun q _ hq => absurd hq List.not_mem_nil) (fun q hq => ?_) ?_
    · rw [hgate.born_eq] at hq
      cases hq
    · rw [hgate.dead_eq]
      exact hrest

/-! ## Composites on which nothing appears -/

namespace Composite
variable {c : Composite (Bloq α κ)} {L : Labels} {s : Signature} {ops : List (Operation (Gate α κ))}

omit [Angle α] in
private theorem on_bundleOn_ne_nil {v : Nat} {side : Side} {t : DataType}
    (hf : L.Fits v [bundleOn side t]) (hq : (bundleOn side t).Quantum) :
    L.on v [bundleOn side t] ≠ [] := by
  have hlen : (L ⟨v, [], bundleOn side t⟩).length = (bundleOn side t).bitsize :=
    hf _ (mem_portsOn.mpr ⟨rfl, List.mem_singleton_self _, List.mem_singleton_self _⟩)
  have hpos := hq.2
  intro hnil
  have hon : L.on v [bundleOn side t] = L ⟨v, [], bundleOn side t⟩ := List.append_nil _
  rw [← hon, hnil, List.length_nil] at hlen
  omega

/-- A bloq on which no qubit appears or ends. -/
def Still (b : Bloq α κ) : Prop := b.born = [] ∧ b.dead = [] ∧ b.releases = false

/-- The operation of a bloq on its qubits is among those that run. -/
theorem Realizes.mem_operations (h : c.Realizes s L ops) {x : Instance (Bloq α κ)}
    (hx : x ∈ c.instances) {g : Gate α κ} (hg : x.bloq.emits = some g) :
    ⟨g, L.on (x.number + 1) x.bloq.signature.registers⟩ ∈ ops := by
  have hb := bloqAt_number h.linear.numbers hx
  rw [← h.operations]
  refine List.mem_filterMap.mpr
    ⟨x.number + 1, List.mem_range.mpr (Nat.lt_succ_of_lt (bloqAt_lt hb).2), ?_⟩
  rw [operationAt?_of_some hb, Bloq.operation?, hg]
  rfl

/-- If all gates pass their qubits through and nothing appears, then nothing appears or ends on any
bloq. -/
theorem Realizes.still (h : c.Realizes s L ops) (hops : ∀ op ∈ ops, op.gate.Passing)
    (hborn : (List.range c.size).flatMap (c.bornAt L) = [])
    (hlen : (L.on (c.instances.length + 1) s.rights).length = (L.on 0 s.lefts).length) :
    ∀ x ∈ c.instances, Still x.bloq := by
  have hgone : (List.range (c.instances.length + 1)).flatMap (c.goneAt L) = [] := by
    have hperm := (h.flow.through_perm h.linear).length_eq
    rw [h.signature, hborn, List.append_nil, List.length_append] at hperm
    exact List.length_eq_zero_iff.mp (by omega)
  intro x hx
  have hb := bloqAt_number h.linear.numbers hx
  have hlt := (bloqAt_lt hb).2
  have hnoborn : L.on (x.number + 1) x.bloq.born = [] := by
    have hnil := List.flatMap_eq_nil_iff.mp hborn (x.number + 1)
      (List.mem_range.mpr (Nat.lt_succ_of_lt hlt))
    rwa [bornAt, hb] at hnil
  have hnogone : L.on (x.number + 1) x.bloq.dead = [] := by
    have hnil := List.flatMap_eq_nil_iff.mp hgone (x.number + 1) (List.mem_range.mpr hlt)
    rwa [goneAt, if_neg (Nat.ne_of_lt hlt), hb] at hnil
  have hregular := h.regular x hx
  have hfits := (h.flow.node _ _ hb).fits
  have hmem := fun g (hg : x.bloq.emits = some g) => h.mem_operations hx hg
  obtain ⟨b, hxb⟩ : ∃ b, x.bloq = b := ⟨_, rfl⟩
  rw [hxb] at hnoborn hnogone hregular hfits hmem ⊢
  have hquantum {side : Side} {t : DataType} (hs : b.signature = ⟨[bundleOn side t]⟩) :
      (bundleOn side t).Quantum := by
    refine hregular.quantum _ ?_
    rw [hs]
    exact List.mem_cons_self
  -- a bloq that emits an operation is the bloq of a passing gate
  have hemits : ∀ g, b.emits = some g → Still b := by
    intro g hg
    have hpassing : g.Passing := hops _ (hmem g hg)
    have hbloq := hregular.of_emits hg
    refine ⟨hbloq ▸ hpassing.born_eq, hbloq ▸ hpassing.dead_eq, ?_⟩
    cases b with
    | free => cases hg
    | _ => rfl
  cases hregular.plain with
  | split t => exact ⟨rfl, rfl, rfl⟩
  | join t => exact ⟨rfl, rfl, rfl⟩
  | allocate t =>
    rw [Bloq.born_allocate] at hnoborn
    rw [Bloq.signature_allocate] at hfits
    exact absurd hnoborn (on_bundleOn_ne_nil hfits (hquantum (Bloq.signature_allocate t)))
  | free t =>
    rw [Bloq.dead_free] at hnogone
    rw [Bloq.signature_free] at hfits
    exact absurd hnogone (on_bundleOn_ne_nil hfits (hquantum (Bloq.signature_free t)))
  | gate g => exact hemits g rfl
  | wrapped _ hn _ => exact hemits _ (Bloq.emits_of_native? hn).1

/-- Between bloqs that give up as many bits as they take, both orders of the walk are the order of
insertion. -/
theorem sortedNodes_of_still (hc : c.Linear) (hl : c.Flow L) (h : ∀ x ∈ c.instances, Still x.bloq)
    (traversal : TraversalOrder) : c.sortedNodes traversal = .ok (List.range c.size) := by
  have hbits : ∀ x ∈ c.instances, priority traversal (.placed x) = 0 := by
    intro x hx
    obtain ⟨hborn, hdead, -⟩ := h x hx
    have hpasses := hl.node _ _ (bloqAt_number hc.numbers hx)
    have hlen := hpasses.perm.length_eq
    rw [hborn, hdead, Labels.on_nil, List.append_nil, List.append_nil,
      Labels.length_on hpasses.fits.lefts,
      Labels.length_on hpasses.fits.rights] at hlen
    have hbits : (BloqKind.signature x.bloq).rightBits = (BloqKind.signature x.bloq).leftBits := by
      rw [Signature.rightBits, Signature.leftBits, Signature.sumBits_eq, Signature.sumBits_eq]
      exact hlen.symm
    cases traversal with
    | insertion => rfl
    | greedy =>
      rw [priority, hbits]
      exact Int.sub_self _
  obtain ⟨hg, hf⟩ := hc.threaded.inRange
  exact sortedNodes_eq_range hg hf hbits

omit [Angle α] in
theorem served_of_still {σ : Type} [Allocator σ] (h : ∀ x ∈ c.instances, Still x.bloq)
    (order : List Nat) (s : σ) : c.Served L order s s := by
  induction order with
  | nil => exact .nil s
  | cons v rest ih =>
    cases hb : c.bloqAt v with
    | none => exact .boundary hb ih
    | some b =>
      obtain ⟨x, hx, rfl⟩ := exists_instance hb
      obtain ⟨hborn, -, hreleases⟩ := h x hx
      refine .placed hb ⟨s, ?_, ?_⟩ ih
      · rw [hborn]
        exact .nil s
      · rw [hreleases]
        rfl

end Composite

/-! ## The round trip -/

/-- A circuit of steady gates, imported without a signature, is emitted again with the same
operations in the same order and on the same qubits. The order of the walk makes no difference, and
no qubit is allocated or freed. -/
theorem Circuit.import_export (c : Circuit (Gate α κ))
    (hops : ∀ op ∈ c.operations, op.gate.Steady ∧ Operation.make op.gate op.qubits = .ok op)
    (inputs outputs : Option Quregs) (name : String) :
    ∃ g : Composite (Bloq α κ), c.importAs none inputs outputs name = .ok g ∧
      ∀ (σ : Type) [Allocator σ] (traversal : TraversalOrder) (s : σ),
        Gives (g.export g.signature (c.defaultQuregs name) traversal) s (c, c.defaultQuregs name) s := by
  obtain ⟨r, hr⟩ : ∃ r, r = c.defaultRegister name := ⟨_, rfl⟩
  obtain ⟨l, hfits, harray, hon, harrays⟩ := exists_labels_defaultQuregs c name 0
  have hvalid := c.valid_default name
  have hquantum := c.quantum_default name
  rw [← hr] at hfits harray hon harrays hvalid hquantum
  have hleft : (⟨[r]⟩ : Signature).lefts = [r] := by rw [hr]; rfl
  have hright : (⟨[r]⟩ : Signature).rights = [r] := by rw [hr]; rfl
  have hnodup : (l.on 0 [r]).Nodup := by
    rw [hon]
    exact nodup_firstUses _
  have hpassing : ∀ op ∈ c.operations, op.gate.Passing ∧ Operation.make op.gate op.qubits = .ok op :=
    fun op hop => ⟨(hops op hop).1.passing, (hops op hop).2⟩
  obtain ⟨g, L, himport, hrealizes, hinput, houtput, hwithin⟩ := importBetween_realizes hvalid
    hquantum (by rwa [hleft])
    (by rwa [hleft]) (by rwa [hleft]) (by rwa [hright]) (by rwa [hright]) (by rwa [hright])
    (lively_of_passing hpassing (l.on 0 (⟨[r]⟩ : Signature).rights) (l.on 0 (⟨[r]⟩ : Signature).lefts))
  rw [hleft, hright] at hwithin
  have hlefts : L.on 0 [r] = c.qubits := by
    rw [← hon]
    exact Labels.on_congr fun p hp => hinput p (mem_portsOn.mp hp).1
  have hlabels : (fun i => L ⟨g.instances.length + 1, i, r⟩) = fun i => l ⟨0, i, r⟩ :=
    funext (houtput r)
  have hrights : L.on (g.instances.length + 1) [r] = c.qubits := by
    rw [← hon, Labels.on_singleton, Labels.on_singleton, hlabels]
  -- all qubits of the circuit come in, so that nothing is left to appear
  have hborn : (List.range g.size).flatMap (g.bornAt L) = [] := by
    have hdistinct := hrealizes.distinct
    rw [Composite.Distinct, hrealizes.signature, hleft, hlefts] at hdistinct
    refine List.eq_nil_iff_forall_not_mem.mpr fun q hq => ?_
    have hmem : q ∈ c.qubits := by
      rw [hon] at hwithin
      rcases hwithin q (List.mem_append_right _ hq) with hq | hq | hq
      · exact hq
      · exact mem_firstUses.mpr hq
      · exact hq
    exact (List.nodup_append.mp hdistinct).2.2 q hmem q hq rfl
  have hstill := hrealizes.still (fun op hop => (hpassing op hop).1) hborn (by
    rw [hright, hleft, hrights, hlefts])
  refine ⟨g, by rw [hr] at himport; exact himport, fun σ _ traversal s => ?_⟩
  have hgiven : ∀ s ∈ g.signature.lefts, s.arrayIn (c.defaultQuregs name) = .ok (L.array 0 s) := by
    rw [hrealizes.signature, hleft]
    intro s hs
    have hlabels : (fun i => l ⟨0, i, s⟩) = fun i => L ⟨0, i, s⟩ :=
      funext fun i => (hinput ⟨0, i, s⟩ rfl).symm
    rw [harray s hs, Labels.array, Labels.array, hlabels]
  have hexport := hrealizes.flow.export_gives hrealizes.linear
    (fun x hx => (hrealizes.regular x hx).plain)
    (fun x hx r hr => ((hrealizes.regular x hx).quantum r hr).1) hgiven
    (Composite.sortedNodes_of_still hrealizes.linear hrealizes.flow hstill traversal)
    hrealizes.linear.sorts_range hrealizes.distinct (Composite.served_of_still hstill _ s)
  have hout : L.arrays (g.instances.length + 1) g.signature.rights = c.defaultQuregs name := by
    have harrayr : L.array (g.instances.length + 1) r = l.array 0 r := congrArg r.array hlabels
    rw [← harrays, hrealizes.signature, hright, Labels.arrays, Arrays.byRegister, List.map_singleton,
      harrayr]
    rfl
  rwa [hrealizes.operations, hout] at hexport

end BloqCircuit
