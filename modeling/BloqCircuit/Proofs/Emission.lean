import BloqCircuit.Proofs.Carriers
/-! Emission of composites: the circuit of a composite is read off the labels of its wires. -/
namespace BloqCircuit

/-! ## Running one bloq -/

section
variable {σ : Type} [Allocator σ]

/-- An allocator hands out these lists of qubits one after another. -/
inductive Handed : List (List Qubit) → σ → σ → Prop
  | nil (s : σ) : Handed [] s s
  | cons {qs rest s t u} : Allocator.alloc qs.length s = (qs, t) → Handed rest t u →
      Handed (qs :: rest) s u
end

namespace Bloq
variable {α κ σ : Type} [Allocator σ] {b : Bloq α κ} {L : Labels} {v : Nat}

/-- An allocator serves a bloq: it hands out what appears on it and takes back what it releases. -/
def Serves (b : Bloq α κ) (L : Labels) (v : Nat) (s u : σ) : Prop :=
  ∃ t, Handed (b.born.map fun r => L.on v [r]) s t ∧
    if b.releases then Gives (Allocator.free (L.on v b.signature.lefts)) t () u else t = u

end Bloq

/-! ## Allocating outputs -/

section
variable {σ : Type} [Allocator σ] {L : Labels} {v : Nat} {s u : σ}

private theorem handed_cons {r : Register} {rest : List Register}
    (h : Handed ((r :: rest).map fun r => L.on v [r]) s u) (hf : L.Fits v (r :: rest)) :
    ∃ t, Allocator.alloc r.totalBits s = (L.on v [r], t) ∧
      Handed (rest.map fun r => L.on v [r]) t u := by
  rw [List.map_cons] at h
  cases h with
  | cons halloc hrest =>
    have hlen : (L.on v [r]).length = r.totalBits := by
      rw [Labels.on_singleton, Register.length_flat (hf.register List.mem_cons_self)]
    rw [hlen] at halloc
    exact ⟨_, halloc, hrest⟩

/-- Outputs that are no inputs sit on the qubits handed out for them. -/
theorem complete_gives {given : Quregs} {before registers : List Register}
    (hn : ((before ++ registers).map (·.name)).Nodup) (hf : L.Fits v registers)
    (hg : ∀ r ∈ registers, r.side.isLeft = true → r.arrayIn given = .ok (L.array v r))
    (hh : Handed ((registers.filter (·.side == .right)).map fun r => L.on v [r]) s u) :
    Gives (Quregs.complete given registers (L.arrays v before)
        (L.arrays v (before.filter (·.side.isRight)))) s
      (L.arrays v (before ++ registers),
        L.arrays v ((before ++ registers).filter (·.side.isRight))) u := by
  induction registers generalizing before s with
  | nil =>
    cases hh
    rw [List.append_nil]
    exact gives_pure.mpr ⟨rfl, rfl⟩
  | cons r rest ih =>
    have hassoc : before ++ [r] ++ rest = before ++ r :: rest := by simp
    have hname : r.name ∉ before.map (·.name) := by
      rw [List.map_append, List.map_cons, List.nodup_append] at hn
      exact fun h => hn.2.2 _ h _ List.mem_cons_self rfl
    have hname' : r.name ∉ (before.filter (·.side.isRight)).map (·.name) := by
      intro h
      obtain ⟨r', hr', he⟩ := List.mem_map.mp h
      exact hname (List.mem_map.mpr ⟨r', (List.mem_filter.mp hr').1, he⟩)
    have hall : (L.arrays v before).insert r.name (L.array v r) = L.arrays v (before ++ [r]) :=
      Arrays.insert_byRegister hname
    have hout : (if r.side.isRight then
        (L.arrays v (before.filter (·.side.isRight))).insert r.name (L.array v r)
        else L.arrays v (before.filter (·.side.isRight))) =
        L.arrays v ((before ++ [r]).filter (·.side.isRight)) := by
      rw [List.filter_append]
      by_cases hr : r.side.isRight = true
      · rw [if_pos hr, List.filter_cons, if_pos hr, List.filter_nil]
        exact Arrays.insert_byRegister hname'
      · rw [if_neg hr, List.filter_cons, if_neg hr, List.filter_nil, List.append_nil]
    have hrest (t : σ) (ht : Handed ((rest.filter (·.side == .right)).map fun r => L.on v [r]) t u) :=
      @ih t (before ++ [r]) (by rwa [hassoc]) (hf.mono fun s => List.mem_cons_of_mem _)
        (fun s hs => hg s (List.mem_cons_of_mem _ hs)) ht
    rw [hassoc, ← hall, ← hout] at hrest
    -- a register with an output only is filled from the pool, any other from what is given
    rw [Quregs.complete]
    split
    · next hr =>
      rw [List.filter_cons_of_pos (by rw [hr]; rfl)] at hh
      have hfits : L.Fits v (r :: rest.filter (·.side == .right)) :=
        hf.mono fun s hs => by
          rcases List.mem_cons.mp hs with rfl | hs
          · exact List.mem_cons_self
          · exact List.mem_cons_of_mem _ (List.mem_filter.mp hs).1
      obtain ⟨t, halloc, hh⟩ := handed_cons hh hfits
      refine gives_bind.mpr ⟨_, t, gives_act.mpr halloc, gives_bind.mpr ⟨_, t, ?_, hrest t hh⟩⟩
      exact gives_lift.mpr ⟨Labels.arrayOf_on hf List.mem_cons_self, rfl⟩
    · next hr =>
      have hside : r.side.isLeft = true := Side.isLeft_of_ne (by simpa using hr)
      rw [List.filter_cons_of_neg (by simpa using hr)] at hh
      refine gives_bind.mpr ⟨_, s, ?_, hrest s hh⟩
      exact gives_lift.mpr ⟨hg r List.mem_cons_self hside, rfl⟩

end

namespace Bloq
variable {α κ σ : Type} [Angle α] [Allocator σ] {b : Bloq α κ} {L : Labels} {v : Nat} {s u : σ}

omit [Allocator σ] in
/-- Exactly the bloqs whose registers have different names act as gates. -/
theorem gate_eq_ok {g : Gate α κ} :
    Wrapped.gate b = .ok g ↔ b.signature.repeatedName? = none ∧ Gate.ofBloq b = g := by
  have hsame : (BloqKind.signature b).repeatedName? = b.signature.repeatedName? := rfl
  rw [Wrapped.gate, hsame]
  cases b.signature.repeatedName? with
  | none =>
    constructor
    · intro h
      exact ⟨rfl, Except.ok.inj h⟩
    · rintro ⟨-, rfl⟩
      rfl
  | some name =>
    constructor
    · intro h
      cases h
    · rintro ⟨h, -⟩
      cases h

omit [Angle α] in
private theorem reshape_gives [GateKind (Gate α κ)] {given : Quregs} {source target : Register}
    {qubits : List Qubit} {g : Grid Qubit} (hm : given.merge [source] = .ok qubits)
    (hg : target.arrayOf qubits = .ok g) :
    Gives (Native.run given (.reshape source target : Native (Gate α κ))) s
      (none, ⟨[(target.name, g)]⟩) s := by
  refine gives_bind.mpr ⟨_, _, gives_lift.mpr ⟨hm, rfl⟩, gives_bind.mpr ⟨_, _, ?_, gives_pure.mpr ⟨rfl, rfl⟩⟩⟩
  exact gives_lift.mpr ⟨hg, rfl⟩

/-- A wrapped bloq acts on all its registers, after outputs that are no inputs were allocated. -/
theorem onInputs_gives (hname : b.signature.repeatedName? = none) (hm : b.moves = false)
    (hv : b.signature.Valid) (hp : L.Passes v b) (hn : (L.on v b.signature.registers).Nodup)
    (hh : Handed (b.born.map fun r => L.on v [r]) s u) :
    Gives (Wrapped.onInputs b (L.arrays v b.signature.lefts)) s
      ((⟨.ofBloq b, L.on v b.signature.registers⟩ : Operation (Gate α κ)),
        L.arrays v b.signature.rights) u := by
  rw [born, hm, if_neg Bool.false_ne_true] at hh
  have hnames := Signature.repeatedName?_eq_none.mp hname
  have hfront : (([] ++ b.signature.registers).map Register.name).Nodup := hnames
  have hgate : Wrapped.gate b = .ok (Gate.ofBloq b) := gate_eq_ok.mpr ⟨hname, rfl⟩
  have hcomplete := complete_gives hfront hp.fits
    (fun r hr hs => Labels.arrayIn_arrays hv.nodup_lefts (Signature.mem_lefts.mpr ⟨hr, hs⟩)) hh
  have hlen : (L.on v b.signature.registers).length = (Gate.ofBloq b : Gate α κ).arity := by
    rw [Labels.length_on hp.fits, Gate.arity, Signature.totalBits_eq]
  refine gives_bind.mpr ⟨_, _, gives_lift.mpr ⟨hgate, rfl⟩, ?_⟩
  refine gives_bind.mpr ⟨_, _, hcomplete, ?_⟩
  refine gives_bind.mpr ⟨_, _, gives_lift.mpr ⟨Labels.merge_arrays hnames hp.fits, rfl⟩, ?_⟩
  refine gives_bind.mpr ⟨_, _, gives_lift.mpr ⟨?_, rfl⟩, gives_pure.mpr ⟨rfl, rfl⟩⟩
  exact Operation.make_eq_ok.mpr ⟨hlen, hn, rfl⟩

/-- A gate as a bloq acts on the qubits of its register, and passes them on. -/
private theorem gate_gives {g : Gate α κ} (hp : L.Passes v (ofGate g))
    (hn : (L.on v (ofGate g).signature.registers).Nodup)
    (hm : (L.arrays v (ofGate g).signature.lefts).merge (ofGate g).signature.lefts =
      .ok (L.on v (ofGate g).signature.lefts)) :
    Gives (Export.runBloq (ofGate g) (L.arrays v (ofGate g).signature.lefts)) s
      ((ofGate g).operation? L v, L.arrays v (ofGate g).signature.rights) s := by
  have hreg : (ofGate g : Bloq α κ).signature = ⟨[gateRegister g.arity]⟩ := signature_ofGate g
  have hl : (ofGate g : Bloq α κ).signature.lefts = [gateRegister g.arity] := by
    rw [hreg]
    rfl
  have hr : (ofGate g : Bloq α κ).signature.rights = [gateRegister g.arity] := by
    rw [hreg]
    rfl
  have hlen : (L.on v [gateRegister g.arity]).length = g.arity := by
    have hleft := hp.fits.lefts
    rw [hl] at hleft
    exact (Labels.length_on hleft).trans (totalBits_gateRegister g.arity)
  rw [hl] at hm ⊢
  rw [hreg] at hn
  rw [hr, operation?, hreg]
  refine gives_bind.mpr ⟨_, _, gives_lift.mpr ⟨hm, rfl⟩, ?_⟩
  refine gives_bind.mpr ⟨⟨g, L.on v [gateRegister g.arity]⟩, _, ?_, gives_pure.mpr ⟨rfl, rfl⟩⟩
  exact gives_lift.mpr ⟨Operation.make_eq_ok.mpr ⟨hlen, hn, rfl⟩, rfl⟩

/-- A plain bloq runs on the arrays of its labels. -/
theorem Plain.run_gives (h : b.Plain) (hv : b.signature.Valid) (hp : L.Passes v b)
    (hn : b.moves = false → (L.on v b.signature.registers).Nodup) (hs : b.Serves L v s u) :
    Gives (Export.runBloq b (L.arrays v b.signature.lefts)) s
      (b.operation? L v, L.arrays v b.signature.rights) u := by
  obtain ⟨t, hh, hfree⟩ := hs
  have hright : L.Fits v b.signature.rights := hp.fits.rights
  have hmerge := Labels.merge_arrays hv.nodup_lefts hp.fits.lefts
  cases h with
  | split t' =>
    cases hh
    cases hfree
    have hmoved := hp.moved rfl
    have hl : (Bloq.split t' : Bloq α κ).signature.lefts = [bundleOn .left t'] := lefts_split t'
    have hr : (Bloq.split t' : Bloq α κ).signature.rights = [bitsOn .right t'] := rights_split t'
    rw [hr] at hright
    rw [hl] at hmerge hmoved ⊢
    rw [hr] at hmoved ⊢
    exact reshape_gives hmerge (hmoved ▸ Labels.arrayOf_on hright List.mem_cons_self)
  | join t' =>
    cases hh
    cases hfree
    have hmoved := hp.moved rfl
    have hl : (Bloq.join t' : Bloq α κ).signature.lefts = [bitsOn .left t'] := lefts_join t'
    have hr : (Bloq.join t' : Bloq α κ).signature.rights = [bundleOn .right t'] := rights_join t'
    rw [hr] at hright
    rw [hl] at hmerge hmoved ⊢
    rw [hr] at hmoved ⊢
    exact reshape_gives hmerge (hmoved ▸ Labels.arrayOf_on hright List.mem_cons_self)
  | allocate t' =>
    cases hfree
    have hr : (Bloq.allocate t' : Bloq α κ).signature.rights = [bundleOn .right t'] := rights_allocate t'
    rw [hr] at hright ⊢
    rw [born_allocate] at hh
    obtain ⟨t, halloc, hh⟩ := handed_cons hh hright
    cases hh
    refine gives_bind.mpr ⟨_, _, gives_act.mpr halloc, gives_bind.mpr ⟨_, _, ?_, gives_pure.mpr ⟨rfl, rfl⟩⟩⟩
    exact gives_lift.mpr ⟨Labels.arrayOf_on hright List.mem_cons_self, rfl⟩
  | free t' =>
    have hl : (Bloq.free t' : Bloq α κ).signature.lefts = [bundleOn .left t'] := lefts_free t'
    have hr : (Bloq.free t' : Bloq α κ).signature.rights = [] := rights_free t'
    rw [born_free] at hh
    cases hh
    rw [hl] at hmerge hfree ⊢
    rw [hr]
    refine gives_bind.mpr ⟨_, _, gives_lift.mpr ⟨hmerge, rfl⟩, ?_⟩
    exact gives_bind.mpr ⟨_, _, hfree, gives_pure.mpr ⟨rfl, rfl⟩⟩
  | gate g =>
    rw [born_ofGate] at hh
    cases hh
    cases hfree
    exact gate_gives hp (hn rfl) hmerge
  | wrapped _ hnative hname =>
    obtain ⟨hemits, hmoves, hreleases⟩ := emits_of_native? hnative
    rw [hreleases, if_neg Bool.false_ne_true] at hfree
    subst hfree
    have hrun : Export.runBloq b (L.arrays v b.signature.lefts) = (do
        let result ← (Wrapped.onInputs b (L.arrays v b.signature.lefts) : AllocM σ _)
        return (some result.1, result.2)) := by
      have hnative : CircuitForm.native? b = none := hnative
      rw [Export.runBloq, hnative]
    rw [hrun, operation?, hemits]
    exact gives_bind.mpr ⟨_, _, onInputs_gives hname hmoves hv hp (hn hmoves) hh,
      gives_pure.mpr ⟨rfl, rfl⟩⟩

end Bloq

theorem Export.classicalOutput?_eq_none_iff {s : Signature} : classicalOutput? s = none ↔
    ∀ r ∈ s.registers, r.side = .right → r.dtype.isQuantum = true := by
  rw [classicalOutput?, List.find?_eq_none]
  constructor
  · intro h r hr hside
    by_contra hquantum
    have hmem : r ∈ s.rights := Signature.mem_rights.mpr ⟨hr, by rw [hside]; rfl⟩
    exact h r hmem (by simp [hside, hquantum])
  · intro h r hr hon
    rw [Bool.and_eq_true, beq_iff_eq, Bool.not_eq_true'] at hon
    rw [h r (Signature.mem_rights.mp hr).1 hon.1] at hon
    cases hon.2

theorem Export.classicalOutput?_eq_none {s : Signature}
    (h : ∀ r ∈ s.registers, r.dtype.isQuantum = true) : classicalOutput? s = none :=
  classicalOutput?_eq_none_iff.mpr fun r hr _ => h r hr

theorem Bloq.Regular.classicalOutput? {α κ : Type} {b : Bloq α κ} (h : b.Regular) :
    Export.classicalOutput? b.signature = none :=
  Export.classicalOutput?_eq_none fun r hr => (h.quantum r hr).1

/-! ## Walking over a composite -/

namespace Composite
variable {α κ σ : Type} [Allocator σ] {c : Composite (Bloq α κ)} {L : Labels}

/-- An allocator serves the nodes of a list one after another. -/
inductive Served (c : Composite (Bloq α κ)) (L : Labels) : List Nat → σ → σ → Prop
  | nil (s : σ) : Served c L [] s s
  | boundary {v rest s u} : c.bloqAt v = none → Served c L rest s u → Served c L (v :: rest) s u
  | placed {v b rest s t u} : c.bloqAt v = some b → b.Serves L v s t → Served c L rest t u →
      Served c L (v :: rest) s u

/-- The carriers of the wires that cross a front, and of those that have reached the outputs. -/
structure Carried (c : Composite (Bloq α κ)) (L : Labels) (done : List Nat) (carriers : Carriers) :
    Prop where
  crossing : ∀ e ∈ c.crossing done, carriers[e.start]? = some (L e.start)
  reached : c.instances.length + 1 ∈ done → ∀ e ∈ c.edges, e.target = c.instances.length + 1 →
    carriers[e.stop]? = some (L e.stop)

theorem nodeAt_eq_placed {v : Nat} {b : Bloq α κ} (h : c.bloqAt v = some b) :
    ∃ x, c.nodeAt v = .placed x ∧ x.bloq = b ∧ x ∈ c.instances := by
  cases v with
  | zero => cases h
  | succ k =>
    obtain ⟨x, hx, rfl⟩ := Option.map_eq_some_iff.mp h
    refine ⟨x, ?_, rfl, List.mem_of_getElem? hx⟩
    rw [nodeAt, if_neg (Nat.succ_ne_zero k), Nat.add_sub_cancel, hx]
    rfl

theorem mem_crossing {done : List Nat} {e : Edge (Bloq α κ)} :
    e ∈ c.crossing done ↔ e ∈ c.edges ∧ (e.source = 0 ∨ e.source ∈ done) ∧ e.target ∉ done := by
  rw [crossing, List.mem_filter, decide_eq_true_iff]

/-- A wire that crosses the front after a node starts there or has crossed the front before. -/
theorem crossing_of_append {done : List Nat} {v : Nat} {e : Edge (Bloq α κ)}
    (he : e ∈ c.crossing (done ++ [v])) (hs : e.source ≠ v ∨ v = 0) : e ∈ c.crossing done := by
  obtain ⟨he, hsource, htarget⟩ := mem_crossing.mp he
  rw [List.mem_append, List.mem_singleton] at hsource htarget
  refine mem_crossing.mpr ⟨he, ?_, fun h => htarget (.inl h)⟩
  rcases hsource with h | h | h
  · exact .inl h
  · exact .inr h
  · rcases hs with hs | hs
    · exact absurd h hs
    · exact .inl (h.trans hs)

variable [Angle α]

/-- The registers of a bloq sit on different qubits, unless it only moves them. -/
theorem Flow.nodup_registers (h : c.Flow L) (hc : c.Threaded) {done rest : List Nat} {v : Nat}
    (hf : c.Front (done ++ [v])) (hd : c.Distinct L (done ++ v :: rest)) {b : Bloq α κ}
    (hb : c.bloqAt v = some b) (hm : b.moves = false) : (L.on v b.signature.registers).Nodup := by
  obtain ⟨others, harrive⟩ := h.arriving hc hf (bloqAt_lt hb).1
  rw [regsIn_eq hb] at harrive
  have hregisters : (L.on v b.signature.registers).Perm
      (L.on v b.signature.lefts ++ c.bornAt L v) := by
    rw [bornAt_of_some hb, ← Labels.on_append]
    exact (Labels.on_perm (Bloq.lefts_born_perm hm)).symm
  refine hregisters.nodup_iff.mpr ?_
  -- inputs and new qubits are among those that are different
  have hsub : (L.on v b.signature.lefts ++ c.bornAt L v).Subperm
      (L.on 0 c.signature.lefts ++ (done ++ v :: rest).flatMap (c.bornAt L)) := by
    rw [List.flatMap_append, List.flatMap_cons, ← List.append_assoc]
    refine List.Subperm.append ?_ ?_
    · refine List.Subperm.trans ?_ harrive.subperm
      rw [List.append_assoc]
      exact (List.sublist_append_left _ _).subperm
    · exact (List.sublist_append_left _ _).subperm
  obtain ⟨qubits, hperm, hsub⟩ := hsub
  exact hperm.nodup_iff.mp (hd.sublist hsub)

/-- The wires into a node take their labels there; other carriers stay. -/
theorem Carried.follow {done : List Nat} {v : Nat} {carriers : Carriers}
    (h : c.Carried L done carriers) (hl : c.Flow L) (hc : c.Threaded) (hf : c.Front (done ++ [v])) :
    ∃ carriers', Export.followAll (c.edges.filter (·.target == v)) carriers = .ok carriers' ∧
      ∀ p : Port, carriers'[p]? = if p ∈ portsOn v (c.regsIn v) then some (L p)
        else if p ∈ (c.edges.filter (·.target == v)).map Edge.start then none else carriers[p]? := by
  obtain ⟨-, hv⟩ := hf.init
  have htarget : ∀ e ∈ c.edges.filter (·.target == v), e ∈ c.edges ∧ e.target = v := by
    intro e he
    rw [List.mem_filter, beq_iff_eq] at he
    exact he
  obtain ⟨carriers', hfollow, hget⟩ := Export.followAll_eq (L := L) carriers
    (fun e he => hl.wire e (htarget e he).1)
    (hc.startsOnce.sublist (List.filter_sublist.map _))
    (fun e he e' he' hs => by
      have hnode : e.target = e'.source := congrArg Port.node hs
      have hlt := hc.forward e' (htarget e' he').1
      rw [(htarget e' he').2, ← hnode, (htarget e he).2] at hlt
      exact Nat.lt_irrefl v hlt)
    (fun e he => by
      obtain ⟨he, ht⟩ := htarget e he
      refine h.crossing e (mem_crossing.mpr ⟨he, .inr ?_, ht ▸ hv.fresh⟩)
      exact hv.after _ (List.mem_map_of_mem he) ht)
  refine ⟨carriers', hfollow, fun p => ?_⟩
  rw [hget]
  simp only [(hc.stops_perm v).mem_iff]

/-- A node carries on what crosses the front after it. -/
theorem Carried.append {done : List Nat} {v : Nat} {carriers carriers' : Carriers}
    (h : c.Carried L done carriers) (hc : c.Threaded)
    (hout : ∀ e ∈ c.edges, e.source = v → v ≠ 0 → carriers'[e.start]? = some (L e.start))
    (hother : ∀ p : Port, p.node ≠ v ∨ v = 0 →
      p ∉ (c.edges.filter (·.target == v)).map Edge.start → carriers'[p]? = carriers[p]?)
    (hreach : v = c.instances.length + 1 → ∀ p ∈ portsOn v c.signature.rights,
      carriers'[p]? = some (L p)) :
    c.Carried L (done ++ [v]) carriers' where
  crossing e he := by
    by_cases hs : e.source = v ∧ v ≠ 0
    · exact hout e (mem_crossing.mp he).1 hs.1 hs.2
    · have hs : e.source ≠ v ∨ v = 0 := by
        rcases Nat.eq_zero_or_pos v with h0 | h0
        · exact .inr h0
        · exact .inl fun h => hs ⟨h, Nat.ne_of_gt h0⟩
      refine (hother e.start hs fun hm => ?_).trans (h.crossing e (crossing_of_append he hs))
      -- another wire from the same place would be this one, which does not end on the node
      obtain ⟨e', he', hstart⟩ := List.mem_map.mp hm
      rw [List.mem_filter, beq_iff_eq] at he'
      have hee := List.inj_on_of_nodup_map hc.startsOnce he'.1 (mem_crossing.mp he).1 hstart
      refine (mem_crossing.mp he).2.2 (List.mem_append_right _ (List.mem_singleton.mpr ?_))
      rw [← hee, he'.2]
  reached hmem e he ht := by
    have hp := (hc.stops _).mp (List.mem_map_of_mem he)
    have hnode : e.stop.node = c.instances.length + 1 := ht
    rw [hnode, regsIn, if_pos rfl] at hp
    by_cases hv : v = c.instances.length + 1
    · exact hreach hv _ (hv ▸ hp)
    · have hdone : c.instances.length + 1 ∈ done := by
        rcases List.mem_append.mp hmem with hm | hm
        · exact hm
        · exact absurd (List.mem_singleton.mp hm).symm hv
      refine (hother e.stop (.inl fun h => hv (h.symm.trans hnode)) fun hm => ?_).trans
        (h.reached hdone e he ht)
      obtain ⟨e', he', hstart⟩ := List.mem_map.mp hm
      have he' := (List.mem_filter.mp he').1
      have hsource : e'.source = c.instances.length + 1 :=
        (congrArg Port.node hstart).trans hnode
      have hlt := hc.forward e' he'
      have hle := hc.target_le he'
      omega

section
variable {done : List Nat} {v : Nat} {carriers : Carriers} {s t : σ}

/-- A placed bloq emits its operation and carries on the wires. -/
theorem Carried.emit_gives (h : c.Carried L done carriers) (hl : c.Flow L) (hc : c.Threaded)
    (hf : c.Front (done ++ [v])) {x : Instance (Bloq α κ)} (hx : c.nodeAt v = .placed x)
    (hb : c.bloqAt v = some x.bloq) (hp : x.bloq.Plain)
    (hclassical : Export.classicalOutput? x.bloq.signature = none)
    (hvalid : x.bloq.signature.Valid)
    (hn : x.bloq.moves = false → (L.on v x.bloq.signature.registers).Nodup)
    (hs : x.bloq.Serves L v s t) :
    ∃ carriers', c.Carried L (done ++ [v]) carriers' ∧
      Gives (Export.emit x (c.visitAt v) carriers) s (c.operationAt? L v, carriers') t := by
  obtain ⟨hv0, hvn⟩ := bloqAt_lt hb
  have hpasses := hl.node v _ hb
  have hin : c.regsIn v = x.bloq.signature.lefts := regsIn_eq hb
  have hout : c.regsOut v = x.bloq.signature.rights := regsOut_eq hb
  obtain ⟨carriers₁, hfollow, hget₁⟩ := h.follow hl hc hf
  rw [hin] at hget₁
  have hnames : (([] ++ x.bloq.signature.lefts).map Register.name).Nodup := hvalid.nodup_lefts
  obtain ⟨carriers₂, hgather, hget₂⟩ := Export.gather_eq (.placed x : Node (Bloq α κ))
    (fun r => r.side == .left) hnames
    hpasses.fits.lefts carriers₁
    (fun p hp => by rw [hget₁, if_pos hp])
  have hstarts : ∀ p, p ∈ (c.edges.filter (·.source == v)).map Edge.start ↔
      p ∈ portsOn v x.bloq.signature.rights := by
    intro p
    rw [(hc.starts_perm v).mem_iff, hout]
  obtain ⟨carriers₃, hbind, hget₃⟩ := Export.bindOutputs_eq (L := L) hvalid.nodup_rights
    hpasses.fits.rights
    (fun e he => (hstarts _).mp (List.mem_map_of_mem he)) carriers₂
  have hrun := hp.run_gives hvalid hpasses hn hs
  refine ⟨carriers₃, h.append hc (fun e he hs _ => ?_) (fun p hp hnot => ?_) (fun hv => ?_), ?_⟩
  · have hmem : e ∈ c.edges.filter (·.source == v) := List.mem_filter.mpr ⟨he, beq_iff_eq.mpr hs⟩
    rw [hget₃, if_pos (List.mem_map_of_mem hmem)]
  · have hnode : p.node ≠ v := hp.resolve_right hv0
    have hports : ∀ registers, p ∉ portsOn v registers := fun _ h => hnode (mem_portsOn.mp h).1
    have hnot₃ : p ∉ (c.edges.filter (·.source == v)).map Edge.start :=
      fun h => hports _ ((hstarts p).mp h)
    rw [hget₃, if_neg hnot₃, hget₂, if_neg fun h => hports _ h.1, hget₁, if_neg (hports _),
      if_neg hnot]
  · exact absurd hv (Nat.ne_of_lt hvn)
  · have hclassical : Export.classicalOutput? (BloqKind.signature x.bloq) = none := hclassical
    refine gives_bind.mpr ⟨_, _, gives_lift.mpr ⟨hfollow, rfl⟩, ?_⟩
    simp only [hclassical]
    have hnode : (c.visitAt v).node = .placed x := hx
    rw [hnode]
    refine gives_bind.mpr ⟨_, _, gives_lift.mpr ⟨hgather, rfl⟩, ?_⟩
    refine gives_bind.mpr ⟨_, _, hrun, ?_⟩
    refine gives_bind.mpr ⟨_, _, gives_lift.mpr ⟨hbind, rfl⟩, gives_pure.mpr ⟨?_, rfl⟩⟩
    rw [operationAt?_of_some hb]

/-- A boundary is passed without an operation: nothing is followed to the inputs, and the wires to the
outputs are. -/
theorem Carried.skip (h : c.Carried L done carriers) (hl : c.Flow L) (hc : c.Threaded)
    (hf : c.Front (done ++ [v])) (hb : c.bloqAt v = none) (s : σ) :
    ∃ carriers₁, c.Carried L (done ++ [v]) carriers₁ ∧ ∀ visits,
      (Export.emitAll (c.visitAt v :: visits) carriers).run s =
        (Export.emitAll visits carriers₁).run s := by
  have hlt : v < c.instances.length + 2 := hf.init.2.lt
  by_cases h0 : v = 0
  · have hnode : (c.visitAt v).node = .leftDangle := if_pos h0
    refine ⟨carriers, h.append hc (fun _ _ _ hne => absurd h0 hne) (fun _ _ _ => rfl) fun hv => ?_,
      fun visits => ?_⟩
    · exact absurd (h0.symm.trans hv) (Nat.succ_ne_zero _).symm
    · rw [Export.emitAll, hnode]
  · have hv := (eq_boundary_of_bloqAt hb hlt).resolve_left h0
    have hnode : (c.visitAt v).node = .rightDangle := by
      show c.nodeAt v = _
      rw [nodeAt, if_neg h0, List.getElem?_eq_none (by omega)]
      rfl
    obtain ⟨carriers₁, hfollow, hget⟩ := h.follow hl hc hf
    have hin : c.regsIn v = c.signature.rights := if_pos hv
    refine ⟨carriers₁, h.append hc (fun e he hs _ => ?_) (fun p hp hnot => ?_) (fun _ p hp => ?_),
      fun visits => ?_⟩
    · have hlt := hc.forward e he
      have hle := hc.target_le he
      omega
    · have hnode : p.node ≠ v := hp.resolve_right h0
      rw [hget, if_neg fun h => hnode (mem_portsOn.mp h).1, if_neg hnot]
    · rw [hget, hin, if_pos hp]
    · have hincoming : Export.followAll (c.visitAt v).incoming carriers = .ok carriers₁ := hfollow
      rw [Export.emitAll, hnode]
      dsimp only
      rw [hincoming, run_bind, run_lift]

/-- The walk over the nodes after a front emits their operations in order. -/
theorem Carried.emitAll_gives {rest : List Nat} (h : c.Carried L done carriers) (hl : c.Flow L)
    (hc : c.Threaded) (hf : c.Front (done ++ rest)) (hp : ∀ x ∈ c.instances, x.bloq.Plain)
    (hq : ∀ x ∈ c.instances, Export.classicalOutput? x.bloq.signature = none)
    (hd : c.Distinct L (done ++ rest)) (hs : c.Served L rest s t) :
    ∃ carriers', c.Carried L (done ++ rest) carriers' ∧
      Gives (Export.emitAll (rest.map c.visitAt) carriers) s
        (rest.filterMap (c.operationAt? L), carriers') t := by
  induction rest generalizing done carriers s with
  | nil =>
    cases hs
    exact ⟨carriers, by rwa [List.append_nil], gives_pure.mpr ⟨rfl, rfl⟩⟩
  | cons v rest ih =>
    have hassoc : done ++ v :: rest = done ++ [v] ++ rest := by simp
    have hfront : c.Front (done ++ [v]) := by
      rw [hassoc] at hf
      exact hf.of_append
    rw [hassoc] at hf ⊢
    rw [List.map_cons]
    cases hs with
    | boundary hb hs =>
      have hop : c.operationAt? L v = none := operationAt?_of_none hb
      rw [List.filterMap_cons_none hop]
      obtain ⟨carriers₁, hcarried, hskip⟩ := h.skip hl hc hfront hb s
      obtain ⟨carriers', hcarried', hemit⟩ := ih hcarried hf (by rwa [← hassoc]) hs
      exact ⟨carriers', hcarried', (hskip _).trans hemit⟩
    | placed hb hserves hs =>
      obtain ⟨x, hx, rfl, hmem⟩ := nodeAt_eq_placed hb
      obtain ⟨carriers₁, hcarried, hemit⟩ := h.emit_gives hl hc hfront hx hb (hp x hmem) (hq x hmem)
        (hc.validAt x hmem) (fun hm => hl.nodup_registers hc hfront hd hb hm) hserves
      obtain ⟨carriers', hcarried', hemits⟩ := ih hcarried hf (by rwa [← hassoc]) hs
      have hnode : (c.visitAt v).node = .placed x := hx
      rw [Export.emitAll, hnode]
      refine ⟨carriers', hcarried', gives_bind.mpr ⟨_, _, hemit, gives_bind.mpr ⟨_, _, hemits, ?_⟩⟩⟩
      refine gives_pure.mpr ⟨Prod.ext ?_ rfl, rfl⟩
      cases hop : c.operationAt? L v with
      | none => rw [List.filterMap_cons_none hop]; rfl
      | some op => rw [List.filterMap_cons_some hop]; rfl

end

/-- Every wire into the output boundary has the width of its register. -/
theorem Flow.fits_rights (h : c.Flow L) (hc : c.Threaded) :
    L.Fits (c.instances.length + 1) c.signature.rights := by
  intro p hp
  have hin : c.regsIn (c.instances.length + 1) = c.signature.rights := if_pos rfl
  obtain ⟨e, he, rfl⟩ := List.mem_map.mp ((hc.stops p).mpr (by
    rw [(mem_portsOn.mp hp).1, hin]
    exact hp))
  rw [← h.wire e he]
  have hstart := (hc.starts _).mp (List.mem_map_of_mem he)
  refine Eq.trans ?_ (hc.agree e he)
  by_cases h0 : e.start.node = 0
  · rw [regsOut, if_pos h0, h0] at hstart
    exact h.inputs _ hstart
  · obtain ⟨hv, hr, hi⟩ := mem_portsOn.mp hstart
    obtain ⟨b, hb, hr⟩ := exists_of_mem_regsOut h0 hr
    exact (h.node _ b hb).fits _ (mem_portsOn.mpr ⟨hv, (Signature.mem_rights.mp hr).1, hi⟩)

/-- The walk starts with the labels of the inputs. -/
theorem Flow.exists_carried (h : c.Flow L) (hc : c.Threaded) {quregs : Quregs}
    (hin : ∀ r ∈ c.signature.lefts, r.arrayIn quregs = .ok (L.array 0 r)) :
    ∃ carriers, Export.bindInputs quregs c.signature.lefts ∅ = .ok carriers ∧
      c.Carried L [] carriers := by
  obtain ⟨carriers, hbind, hget⟩ := Export.bindInputs_eq ∅ hin h.inputs
  refine ⟨carriers, hbind, fun e he => ?_, fun hm => absurd hm List.not_mem_nil⟩
  obtain ⟨he, hsource | hsource, -⟩ := mem_crossing.mp he
  · have hstart := (hc.starts _).mp (List.mem_map_of_mem he)
    have hnode : e.start.node = 0 := hsource
    rw [hnode, regsOut, if_pos rfl] at hstart
    rw [hget, if_pos hstart]
  · cases hsource

/-- A composite is emitted as its labels say: its operations come in the order of the walk, and its
outputs sit on the qubits of the last wires. -/
theorem Flow.export_gives_of (h : c.Flow L) (hc : c.Threaded) (hp : ∀ x ∈ c.instances, x.bloq.Plain)
    (hq : ∀ x ∈ c.instances, Export.classicalOutput? x.bloq.signature = none)
    {quregs : Quregs} (hin : ∀ r ∈ c.signature.lefts, r.arrayIn quregs = .ok (L.array 0 r))
    {traversal : TraversalOrder} {order : List Nat} (ho : c.sortedNodes traversal = .ok order)
    (hsorts : c.graph.Sorts order) (hd : c.Distinct L order) {s t : σ} (hs : c.Served L order s t) :
    Gives (c.export c.signature quregs traversal) s
      (⟨order.filterMap (c.operationAt? L)⟩, L.arrays (c.instances.length + 1) c.signature.rights)
      t := by
  have hlt : ∀ v ∈ order, v < c.size := fun v hv => List.mem_range.mp (hsorts.perm.mem_iff.mp hv)
  obtain ⟨carriers, hbind, hcarried⟩ := h.exists_carried hc hin
  obtain ⟨carriers', hcarried', hemit⟩ :=
    hcarried.emitAll_gives h hc (hsorts.next · · ·) hp hq hd hs
  have hnames : (([] ++ c.signature.rights).map Register.name).Nodup := hc.valid.nodup_rights
  obtain ⟨carriers'', hgather, -⟩ := Export.gather_eq (L := L) (.rightDangle : Node (Bloq α κ))
    (fun _ => true) hnames (h.fits_rights hc) carriers' fun p hp => by
      have hin : c.regsIn (c.instances.length + 1) = c.signature.rights := if_pos rfl
      obtain ⟨e, he, rfl⟩ := List.mem_map.mp ((hc.stops p).mpr (by
        rw [(mem_portsOn.mp hp).1, hin]
        exact hp))
      refine hcarried'.reached ?_ e he (mem_portsOn.mp hp).1
      exact hsorts.perm.mem_iff.mpr (List.mem_range.mpr (Nat.lt_succ_self _))
  refine gives_bind.mpr ⟨_, _, gives_lift.mpr ⟨hbind, rfl⟩, ?_⟩
  refine gives_bind.mpr ⟨_, _, gives_lift.mpr ⟨visits_eq ho hlt, rfl⟩, ?_⟩
  refine gives_bind.mpr ⟨_, _, hemit, ?_⟩
  exact gives_bind.mpr ⟨_, _, gives_lift.mpr ⟨hgather, rfl⟩, gives_pure.mpr ⟨rfl, rfl⟩⟩

theorem Flow.export_gives (h : c.Flow L) (hc : c.Threaded) (hp : ∀ x ∈ c.instances, x.bloq.Plain)
    (hq : ∀ x ∈ c.instances, ∀ r ∈ x.bloq.signature.registers, r.dtype.isQuantum = true)
    {quregs : Quregs} (hin : ∀ r ∈ c.signature.lefts, r.arrayIn quregs = .ok (L.array 0 r))
    {traversal : TraversalOrder} {order : List Nat} (ho : c.sortedNodes traversal = .ok order)
    (hsorts : c.graph.Sorts order) (hd : c.Distinct L order) {s t : σ} (hs : c.Served L order s t) :
    Gives (c.export c.signature quregs traversal) s
      (⟨order.filterMap (c.operationAt? L)⟩, L.arrays (c.instances.length + 1) c.signature.rights)
      t :=
  h.export_gives_of hc hp (fun x hx => Export.classicalOutput?_eq_none (hq x hx)) hin ho hsorts hd hs

/-! ## What becomes of qubits -/

/-- The qubits of a node come in before it or appear on it. -/
theorem Flow.registers_subset (h : c.Flow L) (hc : c.Threaded) {done : List Nat} {v : Nat}
    (hf : c.Front (done ++ [v])) {b : Bloq α κ} (hb : c.bloqAt v = some b) (hm : b.moves = false) :
    L.on v b.signature.registers ⊆
      L.on 0 c.signature.lefts ++ (done ++ [v]).flatMap (c.bornAt L) := by
  obtain ⟨others, harrive⟩ := h.arriving hc hf (bloqAt_lt hb).1
  rw [regsIn_eq hb] at harrive
  intro q hq
  have hq := (Labels.on_perm (Bloq.lefts_born_perm hm)).symm.subset hq
  rw [Labels.on_append] at hq
  rw [List.flatMap_append, List.flatMap_singleton, bornAt_of_some hb, ← List.append_assoc]
  rcases List.mem_append.mp hq with hq | hq
  · have hmem : q ∈ L.on v b.signature.lefts ++ others ++ done.flatMap (c.goneAt L) :=
      List.mem_append_left _ (List.mem_append_left _ hq)
    exact List.mem_append_left _ (harrive.subset hmem)
  · exact List.mem_append_right _ hq

theorem Flow.mem_of_output (h : c.Flow L) (hc : c.Threaded) {order : List Nat}
    (hs : c.graph.Sorts order) {q : Qubit}
    (hq : q ∈ L.on (c.instances.length + 1) c.signature.rights) :
    q ∈ L.on 0 c.signature.lefts ++ order.flatMap (c.bornAt L) := by
  have hborn := (hs.perm.flatMap_right (c.bornAt L)).symm
  exact ((h.through_perm hc).trans (hborn.append_left _)).subset (List.mem_append_right _ hq)

theorem Flow.mem_of_operation (h : c.Flow L) (hc : c.Threaded) (hp : ∀ x ∈ c.instances, x.bloq.Plain)
    {order : List Nat} (hs : c.graph.Sorts order) {q : Qubit}
    (hused : q ∈ (order.filterMap (c.operationAt? L)).flatMap (·.qubits)) :
    q ∈ L.on 0 c.signature.lefts ++ order.flatMap (c.bornAt L) := by
  obtain ⟨_, hop, hq⟩ := List.mem_flatMap.mp hused
  obtain ⟨v, hv, hop⟩ := List.mem_filterMap.mp hop
  obtain ⟨b, hb, hop⟩ := Option.bind_eq_some_iff.mp hop
  obtain ⟨g, hg, rfl⟩ := Option.map_eq_some_iff.mp hop
  obtain ⟨x, hx, rfl⟩ := exists_instance hb
  obtain ⟨front, rest, rfl⟩ := List.append_of_mem hv
  have hfront : c.Front (front ++ [v]) := by
    have hnext : c.Front (front ++ [v] ++ rest) := by
      rw [List.append_assoc]
      exact hs.next
    exact hnext.of_append
  have hmoves := ((hp x hx).of_emits hg).1
  have hmem := h.registers_subset hc hfront hb hmoves hq
  rw [← List.singleton_append, ← List.append_assoc, List.flatMap_append, ← List.append_assoc]
  exact List.mem_append_left _ hmem

theorem Flow.nodup_through (h : c.Flow L) (hc : c.Threaded) {order : List Nat}
    (hs : c.graph.Sorts order) (hd : c.Distinct L order) :
    ((List.range (c.instances.length + 1)).flatMap (c.goneAt L) ++
      L.on (c.instances.length + 1) c.signature.rights).Nodup := by
  have hborn := (hs.perm.flatMap_right (c.bornAt L)).symm
  exact ((h.through_perm hc).trans (hborn.append_left _)).nodup_iff.mpr hd

theorem Flow.not_dead_of_output (h : c.Flow L) (hc : c.Threaded) {order : List Nat}
    (hs : c.graph.Sorts order) (hd : c.Distinct L order) {q : Qubit}
    (hq : q ∈ L.on (c.instances.length + 1) c.signature.rights) {v : Nat} {b : Bloq α κ}
    (hb : c.bloqAt v = some b) : q ∉ L.on v b.dead := by
  intro hdead
  have hlt := (bloqAt_lt hb).2
  refine (List.nodup_append.mp (h.nodup_through hc hs hd)).2.2 q ?_ q hq rfl
  refine List.mem_flatMap.mpr ⟨v, List.mem_range.mpr hlt, ?_⟩
  rwa [goneAt, if_neg (Nat.ne_of_lt hlt), hb]

end Composite
end BloqCircuit
