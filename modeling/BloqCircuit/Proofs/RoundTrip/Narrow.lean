import BloqCircuit.Proofs.Pools
import BloqCircuit.Proofs.RoundTrip.Circuits
/-! Imports in which every wire carries one qubit. All qubits of the circuit come in on wires of their
own, so that a bloq that brings one in leaves its wire dangling, and the import fails. -/
namespace BloqCircuit

/-! ## Wires of single qubits -/

namespace Bundles
variable {β : Type} {b : Bundles β} {qs : List Qubit}

/-- What is bound are the qubits of the list, each by itself. -/
def Singles (b : Bundles β) (qs : List Qubit) : Prop :=
  ∃ held, b.Lists held ∧ (held.map Prod.fst).Perm (qs.map fun q => [q])

theorem Singles.exists_get? (h : b.Singles qs) {q : Qubit} (hq : q ∈ qs) :
    ∃ s, b.get? [q] = some s := by
  obtain ⟨held, hlists, hperm⟩ := h
  obtain ⟨e, he, hkey⟩ := List.mem_map.mp (hperm.symm.subset (List.mem_map_of_mem hq))
  exact ⟨e.2, (hlists.mem _ _).mpr (hkey ▸ he)⟩

theorem Singles.insert (h : b.Singles qs) {q : Qubit} (hq : q ∈ qs) (s : Soquet β) :
    (b.insert [q] s).Singles qs := by
  obtain ⟨t, ht⟩ := h.exists_get? hq
  obtain ⟨held, hlists, hperm⟩ := h
  obtain ⟨before, after, rfl⟩ := List.append_of_mem ((hlists.mem _ _).mp ht)
  have hfront : (before ++ ([q], t) :: after).Perm (([q], t) :: (before ++ after)) := List.perm_middle
  refine ⟨([q], s) :: (before ++ after), (hlists.perm hfront).replace s, ?_⟩
  exact (hfront.map Prod.fst).symm.trans hperm

theorem Singles.of_mem_entries (h : b.Singles qs) {e : List Qubit × Soquet β} (he : e ∈ b.entries) :
    ∃ q ∈ qs, e.1 = [q] := by
  obtain ⟨held, hlists, hperm⟩ := h
  have hmem := hperm.subset (List.mem_map_of_mem (hlists.entries_perm.subset he))
  obtain ⟨q, hq, heq⟩ := List.mem_map.mp hmem
  exact ⟨q, hq, heq.symm⟩

end Bundles

/-! ## Builders that are filled -/

namespace Builder
variable {α κ : Type} [Angle α] {s : Signature} {b b' : Builder (Bloq α κ)} {bloqs : List (Bloq α κ)}

/-- A builder that started with a signature and takes no more registers, after bloqs were placed. -/
structure Filled (s : Signature) (b : Builder (Bloq α κ)) (bloqs : List (Bloq α κ)) : Prop where
  sound : b.Sound
  registers : b.registers = s.registers
  closed : b.isOpen = false
  bloqs : b.instances.toList.map (·.bloq) = bloqs

theorem Filled.opened (hv : s.Valid) : (opened s : Builder (Bloq α κ)).Filled s [] where
  sound := Sound.opened hv
  registers := rfl
  closed := rfl
  bloqs := rfl

theorem Filled.add (h : b.Filled s bloqs) {bloq : Bloq α κ} (hv : bloq.signature.Valid)
    {given out : Soquets (Bloq α κ)} (ha : Gives (Builder.add bloq given) b out b') :
    b'.Filled s (bloqs ++ [bloq]) := by
  obtain ⟨c, hconsume, -, hb'⟩ := add_gives.mp ha
  obtain ⟨ws, -, -, hc⟩ := consumeExactly_gives hconsume
  subst hc hb'
  refine ⟨h.sound.add hv ha, ?_, ?_, ?_⟩
  · exact (registers_drawAll b ws).trans h.registers
  · exact (isOpen_drawAll b ws).trans h.closed
  · rw [instances_place_drawAll, Array.toList_push, List.map_append, h.bloqs]
    rfl

/-- Closing keeps what was placed. -/
theorem Filled.finalize (h : b.Filled s bloqs) {final : Soquets (Bloq α κ)}
    {c : Composite (Bloq α κ)} (hf : Gives (Builder.finalize final) b c b') :
    c.Linear ∧ c.signature = s ∧ c.instances.map (·.bloq) = bloqs := by
  have himplied : b.withImplied final = b := by
    rw [withImplied, h.closed]
    rfl
  obtain ⟨-, ws, hcloses, hassemble⟩ := finalize_gives hf
  rw [himplied] at hcloses hassemble
  rw [hcloses.assemble h.sound] at hassemble
  cases hassemble
  exact ⟨hcloses.linear h.sound, congrArg Signature.mk h.registers, h.bloqs⟩

end Builder

namespace Import
variable {α κ : Type} [Angle α] {b b' : Builder (Bloq α κ)} {bundles bundles' : Bundles (Bloq α κ)}
  {qs : List Qubit}

/-- Every element of a register sits on one of the qubits. -/
def Narrow (qs : List Qubit) (a : Register × Grid Qubit) : Prop :=
  ∀ i ∈ a.1.indices, ∃ q ∈ qs, a.1.lane a.2 i = [q]

/-- Single qubits are at hand as they are. -/
theorem ensureEach_singles (h : bundles.Singles qs) {requests : List QubitBundle}
    (hr : ∀ r ∈ requests, ∃ q ∈ qs, r.qubits = [q]) {ss : List (Soquet (Bloq α κ))}
    (hg : Gives (ensureEach requests bundles) b (ss, bundles') b') : bundles' = bundles ∧ b' = b := by
  induction requests generalizing ss bundles' b' with
  | nil =>
    obtain ⟨heq, hb⟩ := gives_pure.mp hg
    exact ⟨(congrArg Prod.snd heq).symm, hb.symm⟩
  | cons r requests ih =>
    obtain ⟨q, hq, hqubits⟩ := hr r List.mem_cons_self
    obtain ⟨s, hs⟩ := h.exists_get? hq
    obtain ⟨first, b₁, hfirst, hg⟩ := gives_bind.mp hg
    rw [ensure, hqubits, hs] at hfirst
    obtain ⟨heq, hb⟩ := gives_pure.mp hfirst
    subst heq hb
    obtain ⟨rest, b₂, hrest, hg⟩ := gives_bind.mp hg
    obtain ⟨rest, bundles₂⟩ := rest
    obtain ⟨heq, hb⟩ := gives_pure.mp hg
    obtain ⟨rfl, rfl⟩ := ih (fun r hr' => hr r (List.mem_cons_of_mem _ hr')) hrest
    exact ⟨(congrArg Prod.snd heq).symm, hb.symm⟩

theorem ensureRegisters_singles (h : bundles.Singles qs) {arrays : List (Register × Grid Qubit)}
    (ha : ∀ a ∈ arrays, Narrow qs a) {out final : Soquets (Bloq α κ)}
    (hg : Gives (ensureRegisters arrays bundles out) b (final, bundles') b') :
    bundles' = bundles ∧ b' = b := by
  induction arrays generalizing out with
  | nil =>
    obtain ⟨heq, hb⟩ := gives_pure.mp hg
    exact ⟨(congrArg Prod.snd heq).symm, hb.symm⟩
  | cons a arrays ih =>
    obtain ⟨r, g⟩ := a
    rw [ensureRegisters] at hg
    obtain ⟨first, b₁, hfirst, hnext⟩ := gives_bind.mp hg
    obtain ⟨soquets, bundles₁⟩ := first
    have hr : ∀ x ∈ r.indices.map (r.bundle g), ∃ q ∈ qs, x.qubits = [q] := by
      intro x hx
      obtain ⟨i, hi, rfl⟩ := List.mem_map.mp hx
      exact ha (r, g) List.mem_cons_self i hi
    obtain ⟨rfl, rfl⟩ := ensureEach_singles h hr hfirst
    dsimp only at hnext
    split at hnext
    · exact ih (fun a ha' => ha a (List.mem_cons_of_mem _ ha')) hnext
    · exact (gives_throw.mp hnext).elim

theorem rebind_singles {bloq : Bloq α κ} {out : Soquets (Bloq α κ)} {r : Register} {g : Grid Qubit}
    (hs : r.side ≠ .left) {is : List (List Nat)} (hr : ∀ i ∈ is, ∃ q ∈ qs, r.lane g i = [q])
    (h : bundles.Singles qs) (hg : rebind bloq out r g is bundles = .ok bundles') :
    bundles'.Singles qs := by
  induction is generalizing bundles with
  | nil =>
    cases hg
    exact h
  | cons i is ih =>
    rw [rebind, if_neg hs] at hg
    obtain ⟨q, hq, hlane⟩ := hr i List.mem_cons_self
    split at hg
    · rw [hlane] at hg
      exact ih (fun i hi => hr i (List.mem_cons_of_mem _ hi)) (h.insert hq _) hg
    · cases hg

theorem rebindAll_singles {bloq : Bloq α κ} {out : Soquets (Bloq α κ)}
    {arrays : List (Register × Grid Qubit)} (hs : ∀ a ∈ arrays, a.1.side ≠ .left)
    (ha : ∀ a ∈ arrays, Narrow qs a) (h : bundles.Singles qs)
    (hg : rebindAll bloq out arrays bundles = .ok bundles') : bundles'.Singles qs := by
  induction arrays generalizing bundles with
  | nil =>
    cases hg
    exact h
  | cons a arrays ih =>
    obtain ⟨r, g⟩ := a
    rw [rebindAll] at hg
    obtain ⟨bundles₁, hone, hg⟩ := bind_eq_ok.mp hg
    refine ih (fun a ha' => hs a (List.mem_cons_of_mem _ ha'))
      (fun a ha' => ha a (List.mem_cons_of_mem _ ha')) ?_ hg
    exact rebind_singles (hs (r, g) List.mem_cons_self) (ha (r, g) List.mem_cons_self) h hone

section
variable {f : Labels} {v : Nat} {registers : List Register}

omit [Angle α] in
/-- Labels on elements that are one qubit wide are the qubits that they are on. -/
theorem map_portsOn_singles (hf : f.Fits v registers) (hw : ∀ r ∈ registers, r.bitsize = 1) :
    (portsOn v registers).map f = (f.on v registers).map fun q => [q] := by
  rw [Labels.on, List.map_flatMap, ← List.flatMap_singleton' ((portsOn v registers).map f), List.flatMap_map]
  refine List.flatMap_congr fun p hp => ?_
  obtain ⟨q, hone⟩ := List.length_eq_one_iff.mp ((hf p hp).trans (hw _ (mem_portsOn.mp hp).2.1))
  rw [hone]
  rfl

omit [Angle α] in
theorem narrow_array (hf : f.Fits v registers) (hw : ∀ r ∈ registers, r.bitsize = 1)
    (hq : ∀ q ∈ f.on v registers, q ∈ qs) {r : Register} (hr : r ∈ registers) :
    Narrow qs (r, f.array v r) := by
  intro i hi
  have hlane : r.lane (f.array v r) i = f ⟨v, i, r⟩ := Register.lane_array (hf.register hr) hi
  have hport : (⟨v, i, r⟩ : Port) ∈ portsOn v registers := mem_portsOn.mpr ⟨rfl, hr, hi⟩
  have hmem : f ⟨v, i, r⟩ ∈ (f.on v registers).map fun q => [q] := by
    rw [← map_portsOn_singles hf hw]
    exact List.mem_map_of_mem hport
  obtain ⟨q, hmem, heq⟩ := List.mem_map.mp hmem
  exact ⟨q, hq q hmem, hlane.trans heq.symm⟩

end

variable {s : Signature} {bloqs : List (Bloq α κ)}

/-- An operation whose registers are one qubit wide places its bloq and nothing else. -/
theorem addOperation_singles {op : Operation (Gate α κ)} (hgate : op.gate.Emitted)
    (hs : ∀ r ∈ op.gate.bloq.signature.registers, r.side ≠ .left)
    (hw : ∀ r ∈ op.gate.bloq.signature.registers, r.bitsize = 1) (hq : ∀ q ∈ op.qubits, q ∈ qs)
    (hb : b.Filled s bloqs) (h : bundles.Singles qs)
    (hg : Gives (addOperation op bundles) b bundles' b') :
    b'.Filled s (bloqs ++ [op.gate.bloq]) ∧ bundles'.Singles qs := by
  have hnames : (op.gate.bloq.signature.registers.map (·.name)).Nodup :=
    (hgate.regular.plain.of_emits hgate.emits).2
  obtain ⟨quregs, b₁, hsplit, hg₁⟩ := gives_bind.mp hg
  obtain ⟨hcut, hb₁⟩ := gives_lift.mp hsplit
  obtain ⟨f, hf, hon, hquregs⟩ := Quregs.exists_of_split hcut 0
  obtain ⟨arrays, b₂, harrays, hg₂⟩ := gives_bind.mp hg₁
  obtain ⟨harraysOf, hb₂⟩ := gives_lift.mp harrays
  subst hquregs hb₁ hb₂
  have harrays_eq := Except.ok.inj ((arraysOf_eq hnames).symm.trans harraysOf)
  subst harrays_eq
  have hnarrow : ∀ a ∈ op.gate.bloq.signature.registers.map fun r => (r, f.array 0 r),
      Narrow qs a := by
    intro a ha
    obtain ⟨r, hr, rfl⟩ := List.mem_map.mp ha
    refine narrow_array hf hw (fun q hmem => hq q ?_) hr
    rw [← hon]
    exact hmem
  have hside : ∀ a ∈ op.gate.bloq.signature.registers.map fun r => (r, f.array 0 r),
      a.1.side ≠ .left := by
    intro a ha
    obtain ⟨r, hr, rfl⟩ := List.mem_map.mp ha
    exact hs r hr
  obtain ⟨given, b₃, hensure, hg₃⟩ := gives_bind.mp hg₂
  obtain ⟨given, bundles₁⟩ := given
  obtain ⟨hbundles, hb₃⟩ :=
    ensureRegisters_singles h (fun a ha => hnarrow a (List.mem_filter.mp ha).1) hensure
  subst hbundles hb₃
  obtain ⟨out, b₄, hadd, hg₄⟩ := gives_bind.mp hg₃
  obtain ⟨hrebind, hb₄⟩ := gives_lift.mp hg₄
  subst hb₄
  exact ⟨hb.add (Signature.valid_of_nodup hnames) hadd, rebindAll_singles hside hnarrow h hrebind⟩

/-- Operations whose registers are one qubit wide place their bloqs and nothing else. -/
theorem addOperations_singles {ops : List (Operation (Gate α κ))}
    (hops : ∀ op ∈ ops, op.gate.Emitted ∧
      ∀ r ∈ op.gate.bloq.signature.registers, r.side ≠ .left ∧ r.bitsize = 1)
    (hq : ∀ op ∈ ops, ∀ q ∈ op.qubits, q ∈ qs) (hb : b.Filled s bloqs) (h : bundles.Singles qs)
    (hg : Gives (addOperations ops bundles) b bundles' b') :
    b'.Filled s (bloqs ++ ops.map (·.gate.bloq)) ∧ bundles'.Singles qs := by
  induction ops generalizing b bundles bloqs with
  | nil =>
    obtain ⟨hbundles, hb'⟩ := gives_pure.mp hg
    subst hbundles hb'
    rw [List.map_nil, List.append_nil]
    exact ⟨hb, h⟩
  | cons op ops ih =>
    obtain ⟨bundles₁, b₁, hone, hrest⟩ := gives_bind.mp hg
    obtain ⟨hgate, hregisters⟩ := hops op List.mem_cons_self
    obtain ⟨hb₁, hsingles⟩ := addOperation_singles hgate (fun r hr => (hregisters r hr).1)
      (fun r hr => (hregisters r hr).2) (hq op List.mem_cons_self) hb h hone
    have hassoc : bloqs ++ (op :: ops).map (·.gate.bloq) =
        bloqs ++ [op.gate.bloq] ++ ops.map (·.gate.bloq) := by simp
    rw [hassoc]
    exact ih (fun op hop => hops op (List.mem_cons_of_mem _ hop))
      (fun op hop => hq op (List.mem_cons_of_mem _ hop)) hb₁ hsingles hrest

/-! ## Outputs of single qubits -/

variable {f : Labels} {v : Nat} {registers : List Register}

theorem collectOutputs_singles {outputs : Quregs}
    (hout : ∀ r ∈ registers, r.arrayIn outputs = .ok (f.array v r)) (hf : f.Fits v registers)
    (hnarrow : ∀ r ∈ registers, Narrow qs (r, f.array v r)) (h : bundles.Singles qs)
    {out final : Soquets (Bloq α κ)} {used used' : Std.ExtTreeSet (List Qubit)}
    (hg : Gives (collectOutputs outputs registers bundles out used) b (final, used', bundles') b') :
    bundles' = bundles ∧ b' = b ∧ ∀ k, k ∈ used ∨ k ∈ (portsOn v registers).map f → k ∈ used' := by
  induction registers generalizing out used with
  | nil =>
    obtain ⟨heq, hb⟩ := gives_pure.mp hg
    cases heq
    exact ⟨rfl, hb.symm, fun k hk => hk.elim id fun hk => absurd hk List.not_mem_nil⟩
  | cons r rest ih =>
    obtain ⟨g, b₁, harray, hg₁⟩ := gives_bind.mp hg
    obtain ⟨hg_ok, hb₁⟩ := gives_lift.mp harray
    have hg_eq := Except.ok.inj ((hout r List.mem_cons_self).symm.trans hg_ok)
    subst hg_eq hb₁
    obtain ⟨held, b₂, hensure, hg₂⟩ := gives_bind.mp hg₁
    obtain ⟨out₁, bundles₁⟩ := held
    obtain ⟨hbundles, hb₂⟩ := ensureRegisters_singles h
      (fun a ha => List.mem_singleton.mp ha ▸ hnarrow r List.mem_cons_self) hensure
    subst hbundles hb₂
    obtain ⟨hbundles', hb', hused⟩ := ih (fun s hs => hout s (List.mem_cons_of_mem _ hs))
      (hf.mono fun s => List.mem_cons_of_mem _) (fun s hs => hnarrow s (List.mem_cons_of_mem _ hs)) hg₂
    refine ⟨hbundles', hb', fun k hk => hused k ?_⟩
    have hlanes : r.indices.map (r.lane (f.array v r)) = (portsOn v [r]).map f := by
      rw [portsOn_singleton, List.map_map]
      exact List.map_congr_left fun i hi => Register.lane_array (hf.register List.mem_cons_self) hi
    have hports : (portsOn v (r :: rest)).map f =
        (portsOn v [r]).map f ++ (portsOn v rest).map f := by
      rw [← List.map_append, ← portsOn_append]
      rfl
    rw [Std.ExtTreeSet.mem_insertMany_list, List.contains_iff_mem, hlanes, or_assoc,
      ← List.mem_append, ← hports]
    exact hk

/-- If all bundles are used then nothing is freed. -/
theorem freeUnused_of_used {used : Std.ExtTreeSet (List Qubit)}
    {entries : List (List Qubit × Soquet (Bloq α κ))} (h : ∀ e ∈ entries, e.1 ∈ used)
    (hg : Gives (freeUnused used entries) b () b') : b' = b := by
  induction entries with
  | nil => exact (gives_pure.mp hg).2.symm
  | cons e entries ih =>
    obtain ⟨k, t⟩ := e
    have hk : used.contains k = true := h (k, t) List.mem_cons_self
    rw [freeUnused, hk] at hg
    exact ih (fun e he => h e (List.mem_cons_of_mem _ he)) hg

end Import

/-! ## Whole imports -/

namespace Circuit
variable {α κ : Type} [Angle α] {ops : List (Operation (Gate α κ))} {k : Composite (Bloq α κ)}

/-- Operations on registers that are one qubit wide, whose qubits all come in and go out, are
imported as the composite of their bloqs: nothing is reshaped, allocated or freed. -/
theorem importBetween_singles {s : Signature} {l f : Labels} {v : Nat} {inputs outputs : Quregs}
    (hv : s.Valid) (hquantum : ∀ r ∈ s.registers, r.Quantum) (hw : ∀ r ∈ s.registers, r.bitsize = 1)
    (hl : l.Fits 0 s.lefts) (hin : ∀ r ∈ s.lefts, r.arrayIn inputs = .ok (l.array 0 r))
    (hn : (l.on 0 s.lefts).Nodup) (hf : f.Fits v s.rights)
    (hout : ∀ r ∈ s.rights, r.arrayIn outputs = .ok (f.array v r))
    (hall : ∀ q, q ∈ f.on v s.rights ↔ q ∈ l.on 0 s.lefts)
    (hops : ∀ op ∈ ops, op.gate.Emitted ∧
      ∀ r ∈ op.gate.bloq.signature.registers, r.side ≠ .left ∧ r.bitsize = 1)
    (hq : ∀ op ∈ ops, ∀ q ∈ op.qubits, q ∈ l.on 0 s.lefts)
    (h : (⟨ops⟩ : Circuit (Gate α κ)).importBetween s inputs outputs = .ok k) :
    k.Linear ∧ k.signature = s ∧ k.instances.map (·.bloq) = ops.map (·.gate.bloq) := by
  have hlefts : ∀ r ∈ s.lefts, r ∈ s.registers := fun r hr => (Signature.mem_lefts.mp hr).1
  have hrights : ∀ r ∈ s.rights, r ∈ s.registers := fun r hr => (Signature.mem_rights.mp hr).1
  have hwr : ∀ r ∈ s.rights, r.bitsize = 1 := fun r hr => hw r (hrights r hr)
  obtain ⟨b₅, hrun⟩ := Builder.exists_gives_of_run h
  obtain ⟨initial, b₀, hstart, hrun₁⟩ := gives_bind.mp hrun
  obtain ⟨hinitial, hb₀⟩ := hstart.unique (Builder.start_gives hv)
  subst hinitial hb₀
  obtain ⟨bundles, b₁, hbind, hrun₂⟩ := gives_bind.mp hrun₁
  obtain ⟨hbound, hb₁⟩ := gives_lift.mp hbind
  subst hb₁
  obtain ⟨bundles₀, hbound₀, htracks⟩ := Import.exists_start (α := α) (κ := κ) hv
    (fun r hr => hquantum r (hlefts r hr)) hl hin hn
  have hbundles := Except.ok.inj (hbound₀.symm.trans hbound)
  subst hbundles
  have hsingles : bundles₀.Singles (l.on 0 s.lefts) := by
    refine ⟨_, htracks.lists, ?_⟩
    rw [Builder.fst_inputStock, Import.map_portsOn_singles hl fun r hr => hw r (hlefts r hr)]
  obtain ⟨bundles₁, b₂, hadd, hrun₃⟩ := gives_bind.mp hrun₂
  obtain ⟨hfilled, hsingles₁⟩ :=
    Import.addOperations_singles hops hq (Builder.Filled.opened hv) hsingles hadd
  obtain ⟨collected, b₃, hcollect, hrun₄⟩ := gives_bind.mp hrun₃
  obtain ⟨final, used, bundles₂⟩ := collected
  obtain ⟨hbundles, hb₃, hused⟩ := Import.collectOutputs_singles hout hf
    (fun r hr => Import.narrow_array hf hwr (fun q hmem => (hall q).mp hmem) hr) hsingles₁ hcollect
  subst hbundles hb₃
  obtain ⟨⟨⟩, b₄, hfree, hrun₅⟩ := gives_bind.mp hrun₄
  have hb₄ := Import.freeUnused_of_used (fun e he => ?_) hfree
  · subst hb₄
    exact hfilled.finalize hrun₅
  · obtain ⟨q, hmem, heq⟩ := hsingles₁.of_mem_entries he
    refine hused _ (.inr ?_)
    rw [Import.map_portsOn_singles hf hwr, heq]
    exact List.mem_map_of_mem ((hall q).mpr hmem)

end Circuit

/-! ## What comes in -/

namespace Composite
variable {α κ : Type} [Angle α] {c : Composite (Bloq α κ)}

/-- If as many bits go out as come in and no qubit ends on a bloq, then none appears on one. -/
theorem Threaded.demand_eq_zero (hc : c.Threaded) (hdead : ∀ x ∈ c.instances, x.bloq.dead = [])
    (hbits : c.signature.rightBits = c.signature.leftBits) : c.demand = 0 := by
  -- any labels do, since only their numbers are compared
  obtain ⟨L, hflow, -⟩ := hc.exists_flow_on
    (l := fun p => List.replicate p.reg.bitsize (.clean 0)) (fun p _ => List.length_replicate)
    hc.sorts_range (List.length_replicate (n := c.demand) (a := .clean 0))
  have hgone : (List.range (c.instances.length + 1)).flatMap (c.goneAt L) = [] := by
    refine List.flatMap_eq_nil_iff.mpr fun v hv => ?_
    rw [goneAt, if_neg (Nat.ne_of_lt (List.mem_range.mp hv))]
    cases hb : c.bloqAt v with
    | none => rfl
    | some b =>
      obtain ⟨x, hx, rfl⟩ := exists_instance hb
      rw [Option.elim, hdead x hx, Labels.on_nil]
  have hthrough := (hflow.through_perm hc).length_eq
  rw [hgone, List.nil_append, List.length_append, Labels.length_on hflow.inputs,
    hflow.length_born hc hc.sorts_range, Labels.length_on (hflow.fits_rights hc)] at hthrough
  rw [Signature.rightBits, Signature.leftBits, Signature.sumBits_eq, Signature.sumBits_eq] at hbits
  omega

end Composite

namespace Circuit
variable {α κ : Type} [Angle α] {c : Circuit (Gate α κ)} {name : String} {k : Composite (Bloq α κ)}

/-! ## The default signature -/

/-- If a circuit of operations whose registers are one qubit wide is imported as a whole, then no
qubit comes in on an operation: all of them have come in before, and the wire that is displaced would
be lost. -/
theorem born_of_importWhole
    (hops : ∀ op ∈ c.operations, op.gate.Emitted ∧
      ∀ r ∈ op.gate.bloq.signature.registers, r.side ≠ .left ∧ r.bitsize = 1)
    (h : c.importWhole name = .ok k) :
    ∀ op ∈ c.operations, (op.gate.bloq.born.map (·.totalBits)).sum = 0 := by
  have hleft : (⟨[c.defaultRegister name]⟩ : Signature).lefts = [c.defaultRegister name] := rfl
  have hright : (⟨[c.defaultRegister name]⟩ : Signature).rights = [c.defaultRegister name] := rfl
  obtain ⟨l, hfits, harray, hon, -⟩ := exists_labels_defaultQuregs c name 0
  obtain ⟨hlinear, hsignature, hbloqs⟩ := importBetween_singles (valid_default c name)
    (quantum_default c name) (fun r hr => by rw [List.mem_singleton.mp hr]; rfl) hfits harray
    (by rw [hleft, hon]; exact nodup_firstUses _) hfits harray (fun q => by rw [hleft, hright]) hops
    (fun op hop q hq => by
      rw [hleft, hon]
      exact mem_firstUses.mpr (List.mem_flatMap.mpr ⟨op, hop, hq⟩)) h
  have hdemand : k.demand = 0 := by
    refine hlinear.threaded.demand_eq_zero (fun x hx => ?_) ?_
    · obtain ⟨op, hop, heq⟩ := List.mem_map.mp (hbloqs ▸ List.mem_map_of_mem hx)
      obtain ⟨hgate, hregisters⟩ := hops op hop
      have heq : op.gate.bloq = x.bloq := heq
      rw [← heq]
      exact hgate.dead_eq fun r hr => (hregisters r hr).1
    · rw [hsignature, Signature.rightBits, Signature.leftBits, hleft, hright]
  intro op hop
  have hbloq : op.gate.bloq ∈ k.instances.map (·.bloq) := by
    rw [hbloqs]
    exact List.mem_map_of_mem hop
  obtain ⟨x, hx, heq⟩ := List.mem_map.mp hbloq
  rw [← heq]
  exact List.sum_eq_zero_iff_forall_eq_nat.mp hdemand _ (List.mem_map_of_mem hx)

end Circuit
end BloqCircuit
