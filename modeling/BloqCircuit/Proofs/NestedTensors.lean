import BloqCircuit.Proofs.AdjointTensors
import BloqCircuit.Proofs.Wrapping
/-! The tensor of a composite that holds nothing but another composite. As a gate the inner one stands
for its circuit on the qubits that the gate is given: what goes through is expected back on the qubits
on which it came in. -/
namespace BloqCircuit

/-! ## Composites of one bloq -/

section
variable {α κ : Type} [Angle α]

/-- The composite of one bloq is what a builder gives. -/
theorem Builder.exists_reached_of_ofBloq {bloq : Bloq α κ} (hv : bloq.signature.Valid)
    {c : Composite (Bloq α κ)} (h : Composite.ofBloq bloq = .ok c) :
    ∃ (b b' : Builder (Bloq α κ)) (final : Soquets (Bloq α κ)),
      b.Reached ∧ Gives (Builder.finalize final) b c b' := by
  obtain ⟨inputs, b₁, hstart, hrun⟩ := gives_bind.mp (Prod.ext h rfl)
  obtain ⟨final, b₂, hadd, hfinal⟩ := gives_bind.mp hrun
  exact ⟨b₂, _, final, .call (.start hstart) (.add hv hadd), hfinal⟩

/-- Labels of a bloq on the qubits on which the composite of it is emitted by itself. -/
structure Bloq.Seated (b : Bloq α κ) (f : Labels) (n : Nat) : Prop where
  passes : f.Passes 1 b
  merge : (Quregs.named b.signature.lefts).merge b.signature.lefts = .ok (f.on 1 b.signature.lefts)
  arrays : ∀ r ∈ b.signature.lefts, r.arrayIn (Quregs.named b.signature.lefts) = .ok (f.array 1 r)
  born : f.on 1 b.born = CleanPool.fresh 0 n
  distinct : (f.on 1 b.signature.lefts ++ f.on 1 b.born).Nodup

omit [Angle α] in
theorem Bloq.exists_seated {b : Bloq α κ} (hv : b.signature.Valid)
    (hn : ∀ r ∈ b.signature.lefts, '[' ∉ r.name.toList)
    (hsize : (b.born.map (·.totalBits)).sum ≤ UInt32.size) :
    ∃ f, b.Seated f (b.born.map (·.totalBits)).sum := by
  have hmerge := Quregs.merge_named hv.nodup_lefts
  obtain ⟨l, hfits, harrays, hon⟩ := Labels.exists_of_merge 1 hmerge
  obtain ⟨f, hagree, hpasses, hborn⟩ := Composite.exists_passes hv hfits (CleanPool.length_fresh 0 _)
  have hlefts : f.on 1 b.signature.lefts = l.on 1 b.signature.lefts := Labels.on_congr hagree
  refine ⟨f, hpasses, ?_, ?_, hborn, ?_⟩
  · rw [hlefts, hon]
    exact hmerge
  · intro r hr
    rw [harrays r hr]
    refine congrArg Except.ok (Register.array_congr (hfits.register hr) ?_)
    intro i hi
    exact (hagree ⟨1, i, r⟩ (mem_portsOn.mpr ⟨rfl, hr, hi⟩)).symm
  · rw [hborn, hlefts, hon]
    exact (Quregs.spares_named _ hsize).nodup (Quregs.nodup_named hv.nodup_lefts hn)

omit [Angle α] in
/-- On a walk over a single bloq nothing appears but on that. -/
theorem Composite.born_of_single {c : Composite (Bloq α κ)} {L : Labels} {order : List Nat} {b : Bloq α κ} (hb : c.instances = [⟨0, b⟩]) (hs : c.graph.Sorts order) :
    order.flatMap (c.bornAt L) = L.on 1 b.born := by
  have hone : c.bloqAt 1 = some b := by
    rw [bloqAt, hb]
    rfl
  have hother : ∀ v, v ≠ 1 → c.bornAt L v = [] := by
    intro v hv
    refine bornAt_of_none ?_
    obtain _ | _ | k := v
    · rfl
    · exact absurd rfl hv
    · rw [bloqAt, hb]
      rfl
  have hmem : 1 ∈ order := by
    rw [hs.perm.mem_iff, List.mem_range]
    exact Nat.lt_succ_of_lt (bloqAt_lt hone).2
  obtain ⟨front, rest, rfl⟩ := List.append_of_mem hmem
  have hnodup := hs.perm.nodup_iff.mpr List.nodup_range
  have hnil : ∀ part : List Nat, 1 ∉ part → part.flatMap (c.bornAt L) = [] := by
    intro part hpart
    rw [List.flatMap_eq_nil_iff]
    intro v hv
    exact hother v fun heq => hpart (heq ▸ hv)
  obtain ⟨-, hrest, hfront⟩ := List.nodup_append.mp hnodup
  rw [List.flatMap_append, List.flatMap_cons, hnil front fun h => hfront 1 h 1 List.mem_cons_self rfl,
    hnil rest (List.nodup_cons.mp hrest).1, List.nil_append, List.append_nil, bornAt, hone]
  rfl

/-- The composite of one bloq is emitted as the operation of the bloq, on the named inputs and on the
first ancillas. -/
theorem Bloq.Seated.exists_ofBloq {b : Bloq α κ} {f : Labels} {n : Nat} (h : b.Seated f n)
    (hb : b.Regular) (hv : b.signature.Valid) :
    ∃ s : Composite (Bloq α κ), Composite.ofBloq b = .ok s ∧ s.Linear ∧ s.signature = b.signature ∧
      s.instances = [⟨0, b⟩] ∧
      s.exportNamed = .ok (f.on 1 b.signature.lefts, ⟨(b.operation? f 1).toList⟩,
        f.arrays 1 b.signature.rights) := by
  obtain ⟨s, L, hs, hinstances, hrealizes, hlabels⟩ :=
    Composite.exists_ofBloq hb hv h.passes h.distinct
  have hlast : s.instances.length + 1 = 2 := by
    rw [hinstances]
    rfl
  -- all nodes carry the qubits of the bloq
  have hon : ∀ u ≤ 2, ∀ registers, L.on u registers = f.on 1 registers := by
    intro u hu registers
    refine Eq.trans (Labels.on_congr ?_) (Labels.on_moveTo u registers)
    intro p hp
    exact hlabels p ((mem_portsOn.mp hp).1 ▸ hu)
  have harray : ∀ u ≤ 2, ∀ r : Register, L.array u r = f.array 1 r := by
    intro u hu r
    exact congrArg r.array (funext fun i => hlabels ⟨u, i, r⟩ hu)
  have hthreaded := hrealizes.linear.threaded
  obtain ⟨order, ho, hsorts⟩ := hthreaded.exists_order .greedy
  have hdistinct : s.Distinct L order := hrealizes.distinct.perm hsorts.perm.symm
  have hborn : order.flatMap (s.bornAt L) = CleanPool.fresh 0 n := by
    rw [Composite.born_of_single hinstances hsorts, hon 1 (by omega), h.born]
  have hops : order.filterMap (s.operationAt? L) = (b.operation? f 1).toList := by
    have hperm := hsorts.perm.filterMap (s.operationAt? L)
    rw [show (List.range s.graph.size).filterMap (s.operationAt? L) = _ from hrealizes.operations]
      at hperm
    cases hop : b.operation? f 1 with
    | none =>
      rw [hop] at hperm
      exact List.perm_nil.mp hperm
    | some op =>
      rw [hop] at hperm
      exact List.perm_singleton.mp hperm
  have hmerge : (Quregs.named s.signature.lefts).merge s.signature.lefts =
      .ok (L.on 0 s.signature.lefts) := by
    rw [hrealizes.signature, hon 0 (Nat.zero_le 2), h.merge]
  have harrays : ∀ r ∈ s.signature.lefts,
      r.arrayIn (Quregs.named s.signature.lefts) = .ok (L.array 0 r) := by
    rw [hrealizes.signature]
    intro r hr
    rw [harray 0 (Nat.zero_le 2), h.arrays r hr]
  have hexport := hrealizes.flow.exportNamed_eq hthreaded (fun x hx => (hrealizes.regular x hx).plain)
    (fun x hx => (hrealizes.regular x hx).classicalOutput?)
    hmerge harrays ho hsorts hdistinct hborn
  have hout : L.arrays 2 b.signature.rights = f.arrays 1 b.signature.rights :=
    congrArg (Arrays.byRegister b.signature.rights) (funext (harray 2 (Nat.le_refl 2)))
  rw [hops, hlast, hrealizes.signature, hon 0 (Nat.zero_le 2), hout] at hexport
  exact ⟨s, hs, hrealizes.linear, hrealizes.signature, hinstances, hexport⟩

end

/-! ## Composites of one composite -/

namespace Composite
variable {α κ : Type} [Angle α] [ExactAmplitude κ] [Rotation α κ] {c : Composite (Bloq α κ)}
  {L f : Labels} {order : List Nat}

/-- A flow on which a composite is emitted by itself, and the qubits of the operation in whose place
it is emitted as a gate. -/
structure Placed (c : Composite (Bloq α κ)) (L f : Labels) (order : List Nat) : Prop where
  flow : c.Flow L
  sorted : c.sortedNodes .greedy = .ok order
  sorts : c.graph.Sorts order
  distinct : c.Distinct L order
  merge : (Quregs.named c.signature.lefts).merge c.signature.lefts = .ok (L.on 0 c.signature.lefts)
  arrays : ∀ r ∈ c.signature.lefts,
    r.arrayIn (Quregs.named c.signature.lefts) = .ok (L.array 0 r)
  born : order.flatMap (c.bornAt L) = CleanPool.fresh 0 c.demand
  fits : f.Fits 1 c.signature.registers
  agree : ∀ p ∈ portsOn 1 c.signature.lefts, f p = L.moveTo 0 p
  assigned : f.on 1 c.news = CleanPool.fresh 0 (c.news.map (·.totalBits)).sum

omit [Angle α] [ExactAmplitude κ] [Rotation α κ] in
theorem born_composite (c : Composite (Bloq α κ)) : (Bloq.composite c).born = c.news := by
  have hmoves : (Bloq.composite c).moves = false := rfl
  rw [Bloq.born_eq_filter, hmoves, Bloq.signature]
  rfl

omit [ExactAmplitude κ] [Rotation α κ] in
theorem Threaded.exists_placed (hc : c.Threaded) (hb : ∀ r ∈ c.signature.lefts, '[' ∉ r.name.toList)
    (hdemand : c.demand ≤ UInt32.size) : ∃ L f order, c.Placed L f order := by
  obtain ⟨L, order, -, hflow, ho, hs, hd, hon, harrays, hborn, -⟩ := hc.exists_walk
    (Quregs.merge_named hc.valid.nodup_lefts) (Quregs.nodup_named hc.valid.nodup_lefts hb) .greedy
    (Quregs.spares_named _ hdemand)
  have hmerge := Quregs.merge_named hc.valid.nodup_lefts
  rw [← hon] at hmerge
  have hfits : (L.moveTo 0).Fits 1 (Bloq.composite c).signature.lefts := by
    intro p hp
    obtain ⟨-, hr, hi⟩ := mem_portsOn.mp hp
    rw [Bloq.signature] at hr
    exact hflow.inputs ⟨0, p.index, p.reg⟩ (mem_portsOn.mpr ⟨rfl, hr, hi⟩)
  have hvalid : (Bloq.composite c).signature.Valid := by
    rw [Bloq.signature]
    exact hc.valid
  have hlength : (CleanPool.fresh 0 (c.news.map (·.totalBits)).sum).length =
      ((Bloq.composite c).born.map (·.totalBits)).sum := by
    rw [CleanPool.length_fresh, born_composite]
  obtain ⟨f, hagree, hpasses, hnews⟩ := exists_passes hvalid hfits hlength
  have hfits := hpasses.fits
  rw [Bloq.signature] at hagree hfits
  rw [born_composite] at hnews
  exact ⟨L, f, order, hflow, ho, hs, hd, hmerge, harrays, hborn, hfits, hagree, hnews⟩

omit [ExactAmplitude κ] [Rotation α κ] in
theorem Placed.on_lefts (h : c.Placed L f order) :
    f.on 1 c.signature.lefts = L.on 0 c.signature.lefts := by
  rw [Labels.on_congr h.agree, Labels.on_moveTo]

omit [ExactAmplitude κ] [Rotation α κ] in
/-- New outputs take no more qubits than there are. -/
theorem Placed.news_le (h : c.Placed L f order) (hc : c.Threaded) :
    (c.news.map (·.totalBits)).sum ≤ c.signature.leftBits + c.demand := by
  have hfits := h.flow.fits_rights hc
  have hthrough := (h.flow.through_perm hc).length_eq
  rw [List.length_append, List.length_append, Labels.length_on h.flow.inputs,
    h.flow.length_born hc hc.sorts_range, Labels.length_on hfits] at hthrough
  have hsub : (c.news.map (·.totalBits)).Sublist (c.signature.rights.map (·.totalBits)) :=
    List.filter_sublist.map _
  have hle := hsub.sum_le_sum fun _ _ => Nat.zero_le _
  rw [Signature.leftBits, Signature.sumBits_eq]
  omega

omit [ExactAmplitude κ] [Rotation α κ] in
/-- The operation in whose place a composite is emitted takes the named inputs and the first ancillas. -/
theorem Placed.seated (h : c.Placed L f order) (hc : c.Threaded)
    (hsize : c.signature.leftBits + c.demand ≤ UInt32.size) :
    (Bloq.composite c).Seated f (c.news.map (·.totalBits)).sum := by
  have hsignature : (Bloq.composite c).signature = c.signature := by rw [Bloq.signature]
  have hnamed : L.on 0 c.signature.lefts = c.signature.lefts.flatMap fun r => r.namedArray.toList :=
    Except.ok.inj (h.merge.symm.trans (Quregs.merge_named hc.valid.nodup_lefts))
  have hborn : f.on 1 (Bloq.composite c).born = CleanPool.fresh 0 (c.news.map (·.totalBits)).sum := by
    rw [born_composite, h.assigned]
  refine ⟨⟨?_, fun hm => absurd hm Bool.false_ne_true⟩, ?_, ?_, hborn, ?_⟩
  · rw [hsignature]
    exact h.fits
  · rw [hsignature, h.on_lefts]
    exact h.merge
  · rw [hsignature]
    intro r hr
    rw [h.arrays r hr, array_of_moveTo h.fits h.agree hr]
  · have hspares := Quregs.spares_named c.signature.lefts (Nat.le_trans (h.news_le hc) hsize)
    rw [hborn, hsignature, h.on_lefts, hnamed]
    exact hspares.nodup (hnamed ▸ h.distinct.of_append_left)

omit [ExactAmplitude κ] [Rotation α κ] in
/-- A composite that holds nothing but another one is emitted as one operation, on the named inputs and
on the first ancillas. -/
theorem Placed.exists_wrapped (h : c.Placed L f order) (hc : c.Threaded)
    (hq : ∀ r ∈ c.signature.registers, r.Quantum) (hnames : c.signature.repeatedName? = none)
    (hsize : c.signature.leftBits + c.demand ≤ UInt32.size) :
    ∃ s : Composite (Bloq α κ),
      Composite.ofBloq (.composite c) = .ok s ∧ s.signature = c.signature ∧
      s.instances = [⟨0, .composite c⟩] ∧
      s.exportNamed = .ok (L.on 0 c.signature.lefts,
        ⟨[⟨.ofBloq (.composite c), f.on 1 c.signature.registers⟩]⟩,
        f.arrays 1 c.signature.rights) := by
  have hsignature : (Bloq.composite c).signature = c.signature := by rw [Bloq.signature]
  have hregular : (Bloq.composite c).Regular := by
    refine ⟨.wrapped _ rfl ?_, fun _ heq => (by cases heq), ?_⟩
    · rwa [hsignature]
    · rwa [hsignature]
  have hvalid : (Bloq.composite c).signature.Valid := by
    rw [hsignature]
    exact hc.valid
  obtain ⟨s, hs, -, hs', hinstances, hexport⟩ := (h.seated hc hsize).exists_ofBloq hregular hvalid
  have hop : (Bloq.composite c).operation? f 1 =
      some ⟨.ofBloq (.composite c), f.on 1 c.signature.registers⟩ := by
    rw [← hsignature]
    rfl
  rw [hop, hsignature, h.on_lefts] at hexport
  exact ⟨s, hs, hs'.trans hsignature, hinstances, hexport⟩

/-- A composite that acts as a gate has no matrix of its own. -/
theorem unitaryWith_composite (dense : Composite (Bloq α κ) → Except Error (DenseMatrix κ)) :
    (Gate.ofBloq (.composite c)).unitaryWith dense = .ok none := by
  rw [Gate.unitaryWith, Bloq.decomposition]
  split <;> rfl

/-- What is evaluated when a composite is the only bloq of another one: its circuit, with the qubits
of the new outputs renamed, between the qubits of the operation in whose place it stands. -/
theorem Placed.exists_tensor (h : c.Placed L f order) (hc : c.Threaded)
    (hp : ∀ x ∈ c.instances, x.bloq.Plain)
    (hclassical : ∀ x ∈ c.instances, Export.classicalOutput? x.bloq.signature = none)
    (hq : ∀ r ∈ c.signature.registers, r.Quantum) (hnames : c.signature.repeatedName? = none)
    (hsize : c.signature.leftBits + c.demand ≤ UInt32.size) {own : Gate α κ → DenseMatrix κ}
    (hown : ∀ op ∈ order.filterMap (c.operationAt? L), op.gate.unitary = .ok (some (own op.gate))) :
    ∃ s, Composite.ofBloq (.composite c) = .ok s ∧
      s.tensor = Dense.between Gate.meaning
        ((order.filterMap (c.operationAt? L)).map (Operation.map (c.returning L f 1)))
        (L.on 0 c.signature.lefts) (f.on 1 c.signature.rights) := by
  obtain ⟨s, hs, hs', hinstances, hexport⟩ := h.exists_wrapped hc hq hnames hsize
  obtain ⟨p, hdecompose⟩ := h.flow.decompose_gives hc hp hclassical h.sorted h.sorts h.distinct
    (p := {}) h.born hnames h.fits h.agree
  have hmerged := Labels.merge_arrays hc.valid.nodup_rights
    h.fits.rights
  refine ⟨s, hs, ?_⟩
  rw [← hs'] at hexport hmerged
  rw [tensor_of_exportNamed (fun r hr => (hq r (hs' ▸ hr)).1) hexport hmerged, hs']
  refine Dense.between_of_decomposition (p := p) own ?_ ?_ ?_ ?_ _ _
  · exact unitaryWith_composite (tensorWithin (instancesNesting s.instances))
  · exact hdecompose
  · intro x hx
    obtain ⟨op, hop, rfl⟩ := List.mem_map.mp hx
    obtain ⟨v, -, hv⟩ := List.mem_filterMap.mp hop
    obtain ⟨y, hy, hemits⟩ := exists_emits hv
    have hnesting : op.gate.nesting ≤ instancesNesting s.instances := by
      rw [Bloq.nesting_of_emits hemits, hinstances, instancesNesting, Bloq.nesting_composite]
      exact Nat.le_trans (Nat.le_succ_of_le (nesting_le_of_mem hy)) (Nat.le_max_left _ _)
    exact Gate.unitaryWith_of_unitary (hown op hop) hnesting
  · intro x hx
    obtain ⟨op, hop, rfl⟩ := List.mem_map.mp hx
    exact hown op hop

/-! ## Composites that give their inputs back -/

/-- What goes through a composite comes out on the qubits on which it came in, and the other outputs
are on the first ancillas, in any order. -/
def Settled (c : Composite (Bloq α κ)) : Prop :=
  ∃ (inputs news : List Qubit) (circuit : Circuit (Gate α κ)) (out : Quregs),
    c.exportNamed = .ok (inputs, circuit, out) ∧
    (∀ r ∈ c.signature.registers, r.side = .thru →
      r.arrayIn out = r.arrayIn (Quregs.named c.signature.lefts)) ∧
    out.merge c.news = .ok news ∧ news.Perm (CleanPool.fresh 0 news.length)

omit [ExactAmplitude κ] [Rotation α κ] in
/-- The composite of one bloq gives its inputs back unless the bloq moves qubits from register to
register. -/
theorem exists_settled {b : Bloq α κ} (hb : b.Regular) (hv : b.signature.Valid)
    (hm : b.moves = false) (hn : ∀ r ∈ b.signature.lefts, '[' ∉ r.name.toList)
    (hsize : (b.born.map (·.totalBits)).sum ≤ UInt32.size) :
    ∃ c : Composite (Bloq α κ), Composite.ofBloq b = .ok c ∧ c.Linear ∧ c.signature = b.signature ∧
      c.instances = [⟨0, b⟩] ∧ c.Settled := by
  obtain ⟨f, hf⟩ := Bloq.exists_seated hv hn hsize
  obtain ⟨c, hc, hlinear, hsignature, hinstances, hexport⟩ := hf.exists_ofBloq hb hv
  have hnews : c.news = b.born := by
    rw [← born_composite, Bloq.born, Bloq.born, hm, Bloq.signature, hsignature]
    rfl
  have hrights : ∀ r ∈ c.news, r ∈ b.signature.rights := by
    intro r hr
    exact hsignature ▸ (mem_news.mp hr).1
  refine ⟨c, hc, hlinear, hsignature, hinstances, _, f.on 1 c.news, _, _, hexport, ?_, ?_, ?_⟩
  · intro r hr hside
    rw [hsignature] at hr ⊢
    have hleft : r ∈ b.signature.lefts := Signature.mem_lefts.mpr ⟨hr, by rw [hside]; rfl⟩
    have hright : r ∈ b.signature.rights := Signature.mem_rights.mpr ⟨hr, by rw [hside]; rfl⟩
    rw [Labels.arrayIn_arrays hv.nodup_rights hright, hf.arrays r hleft]
  · refine Labels.merge_eq (fun r hr => Labels.arrayIn_arrays hv.nodup_rights (hrights r hr)) ?_
    exact hf.passes.fits.rights.mono hrights
  · rw [hnews, hf.born, CleanPool.length_fresh]

omit [ExactAmplitude κ] [Rotation α κ] in
/-- If inputs are given back, the new outputs change places with the qubits of the operation, and the
outputs are on the qubits of the operation then. -/
theorem Placed.returning_spec (h : c.Placed L f order) (hc : c.Threaded)
    (hp : ∀ x ∈ c.instances, x.bloq.Plain)
    (hclassical : ∀ x ∈ c.instances, Export.classicalOutput? x.bloq.signature = none)
    (hsize : c.signature.leftBits + c.demand ≤ UInt32.size) (hsettled : c.Settled) :
    Function.Injective (c.returning L f 1) ∧
      (L.on 0 c.signature.lefts).map (c.returning L f 1) = L.on 0 c.signature.lefts ∧
      (L.on (c.instances.length + 1) c.signature.rights).map (c.returning L f 1) =
        f.on 1 c.signature.rights := by
  obtain ⟨inputs, news, circuit, out, hexport, hthru, hnews, hperm⟩ := hsettled
  cases hexport.symm.trans (h.flow.exportNamed_eq hc hp hclassical h.merge h.arrays h.sorted h.sorts
    h.distinct h.born)
  have hrights : ∀ r ∈ c.news, r ∈ c.signature.rights := by
    intro r hr
    exact (mem_news.mp hr).1
  have hfits := h.flow.fits_rights hc
  have hf : f.Fits 1 c.news := h.fits.rights.mono hrights
  have hmerge := Labels.merge_eq
    (fun r hr => Labels.arrayIn_arrays hc.valid.nodup_rights (hrights r hr)) (hfits.mono hrights)
  obtain rfl : news = L.on (c.instances.length + 1) c.news := Except.ok.inj (hnews.symm.trans hmerge)
  rw [Labels.length_on (hfits.mono hrights), ← h.assigned] at hperm
  have hnodup := (h.flow.nodup_through hc h.sorts h.distinct).of_append_right.sublist
    (on_news_sublist L (c.instances.length + 1))
  have hmap : (L.on (c.instances.length + 1) c.news).map (c.returning L f 1) = f.on 1 c.news :=
    Renaming.map_ofPairs hnodup hperm.length_eq
  -- named qubits stay
  have hstay : ∀ q ∈ L.on 0 c.signature.lefts, c.returning L f 1 q = q := by
    intro q hq
    apply Renaming.rename_ofPairs_of_not_mem
    intro hmem
    have hnamed : L.on 0 c.signature.lefts = c.signature.lefts.flatMap fun r => r.namedArray.toList :=
      Except.ok.inj (h.merge.symm.trans (Quregs.merge_named hc.valid.nodup_lefts))
    have hfresh := hperm.subset hmem
    rw [h.assigned] at hfresh
    exact (Quregs.spares_named _ (Nat.le_trans (h.news_le hc) hsize)).apart q (hnamed ▸ hq) hfresh
  refine ⟨Renaming.injective_ofPairs hnodup hperm, map_kept hstay, ?_⟩
  rw [Labels.on_eq_flatMap c.signature.rights, Labels.on_eq_flatMap (L := f) c.signature.rights,
    List.map_flatMap]
  apply List.flatMap_congr
  intro r hr
  obtain ⟨hr', hside⟩ := Signature.mem_rights.mp hr
  cases hr'' : r.side with
  | left =>
    rw [hr''] at hside
    cases hside
  | right =>
    have hr : r ∈ c.news := mem_news.mpr ⟨hr, hr''⟩
    rw [Labels.on_eq_flatMap c.news, Labels.on_eq_flatMap (L := f) c.news, List.map_flatMap] at hmap
    refine eq_of_flatMap_eq hmap ?_ r hr
    intro x hx
    have hone : ∀ y ∈ [x], y ∈ c.news := fun y hy => List.mem_singleton.mp hy ▸ hx
    rw [List.length_map, Labels.length_on (hf.mono hone),
      Labels.length_on ((hfits.mono hrights).mono hone)]
  | thru =>
    have hleft : r ∈ c.signature.lefts := Signature.mem_lefts.mpr ⟨hr', by rw [hr'']; rfl⟩
    have hback := hthru r hr' hr''
    rw [Labels.arrayIn_arrays hc.valid.nodup_rights hr, h.arrays r hleft] at hback
    have hcells := congrArg Grid.toList (Except.ok.inj hback)
    rw [Labels.toList_array hfits hr, Labels.toList_array h.flow.inputs hleft] at hcells
    have hassigned := congrArg Grid.toList (array_of_moveTo h.fits h.agree hleft)
    rw [Labels.toList_array h.fits hr', Labels.toList_array h.flow.inputs hleft] at hassigned
    rw [hcells, hassigned]
    apply map_kept
    intro q hq
    apply hstay
    rw [Labels.on_eq_flatMap]
    exact List.mem_flatMap.mpr ⟨r, hleft, hq⟩

/-- A linear composite that gives its inputs back means the same when it is the only bloq of another
one. -/
theorem Linear.tensor_nested (hc : c.Linear) (hb : ∀ x ∈ c.instances, x.bloq.Basic Gate.HasMatrix)
    (hx : ∀ x ∈ c.instances, ∀ r ∈ x.bloq.signature.registers, r.dtype.isQuantum = true)
    (hq : ∀ r ∈ c.signature.registers, r.Quantum) (hnames : c.signature.repeatedName? = none)
    (hn : ∀ r ∈ c.signature.registers, '[' ∉ r.name.toList)
    (hsize : c.signature.leftBits + c.demand ≤ UInt32.size) (hsettled : c.Settled) :
    ∃ s, Composite.ofBloq (.composite c) = .ok s ∧ s.tensor = c.tensor := by
  have hlefts : ∀ r ∈ c.signature.lefts, '[' ∉ r.name.toList := by
    intro r hr
    exact hn r (Signature.mem_lefts.mp hr).1
  have hdemand := Nat.le_trans (Nat.le_add_left _ _) hsize
  have hp : ∀ x ∈ c.instances, x.bloq.Plain := fun x h => (hb x h).plain
  have hclassical : ∀ x ∈ c.instances, Export.classicalOutput? x.bloq.signature = none :=
    fun x h => Export.classicalOutput?_eq_none (hx x h)
  obtain ⟨L, f, order, h⟩ := hc.threaded.exists_placed hlefts hdemand
  have hdirect : ∀ op ∈ order.filterMap (c.operationAt? L),
      Dense.Direct Gate.meaning Gate.ownMatrix op :=
    fun op hop => h.flow.direct hc.threaded hb h.sorts h.distinct hop
  obtain ⟨s, hs, htensor⟩ := h.exists_tensor hc.threaded hp hclassical hq hnames hsize
    fun op hop => (hdirect op hop).matrix
  obtain ⟨hinjective, hin, hout⟩ := h.returning_spec hc.threaded hp hclassical hsize hsettled
  refine ⟨s, hs, ?_⟩
  calc s.tensor
    _ = Dense.between Gate.meaning
          ((order.filterMap (c.operationAt? L)).map (Operation.map (c.returning L f 1)))
          ((L.on 0 c.signature.lefts).map (c.returning L f 1))
          ((L.on (c.instances.length + 1) c.signature.rights).map (c.returning L f 1)) := by
      rw [htensor, hin, hout]
    _ = Dense.between Gate.meaning (order.filterMap (c.operationAt? L)) (L.on 0 c.signature.lefts)
          (L.on (c.instances.length + 1) c.signature.rights) :=
      Dense.between_map (fun op hop => (hdirect op hop).matrix) fun _ _ _ _ heq => hinjective heq
    _ = c.tensor :=
      (h.flow.tensor_eq hc hp hclassical (fun r hr => (hq r hr).1) hlefts hdemand h.sorts h.distinct
        hdirect).symm

omit [ExactAmplitude κ] [Rotation α κ] in
theorem exists_settled_ofGate {g : Gate α κ} (ho : ∀ b, g ≠ .ofBloq b) :
    ∃ c : Composite (Bloq α κ), Composite.ofBloq (.ofGate g) = .ok c ∧ c.Linear ∧
      c.signature = ⟨[gateRegister g.arity]⟩ ∧ c.instances = [⟨0, .ofGate g⟩] ∧ c.Settled := by
  have hsignature : (Bloq.ofGate g).signature = ⟨[gateRegister g.arity]⟩ := Bloq.signature_ofGate g
  have hname : ∀ r ∈ (Bloq.ofGate g).signature.lefts, '[' ∉ r.name.toList := by
    rw [hsignature]
    intro r hr
    rw [List.mem_singleton.mp (Signature.mem_lefts.mp hr).1]
    exact notMem_name_gateRegister g.arity
  have hborn : ((Bloq.ofGate g).born.map (·.totalBits)).sum ≤ UInt32.size := by
    rw [Bloq.born_ofGate]
    exact Nat.zero_le _
  rw [← hsignature]
  exact exists_settled (Bloq.regular_ofGate ho) (Bloq.valid_ofGate g) rfl hname hborn

/-- A gate in a composite inside of another one means the same as in the composite alone. -/
theorem exists_ofBloq_nested {g : Gate α κ} (hg : g.HasMatrix) (ho : ∀ b, g ≠ .ofBloq b)
    (hsize : g.arity ≤ UInt32.size) :
    ∃ c s, Composite.ofBloq (.ofGate g) = .ok c ∧ Composite.ofBloq (.composite c) = .ok s ∧
      s.tensor = c.tensor := by
  obtain ⟨c, hc, hlinear, hsignature, hinstances, hsettled⟩ := exists_settled_ofGate ho
  have hquantum : ∀ r ∈ c.signature.registers, r.Quantum := by
    rw [hsignature, ← Bloq.signature_ofGate]
    exact (Bloq.regular_ofGate ho).quantum
  have hname : ∀ r ∈ c.signature.registers, '[' ∉ r.name.toList := by
    rw [hsignature]
    intro r hr
    rw [List.mem_singleton.mp hr]
    exact notMem_name_gateRegister g.arity
  have hbloq : ∀ x ∈ c.instances, x.bloq = .ofGate g := by
    rw [hinstances]
    intro x hx
    rw [List.mem_singleton.mp hx]
  have hbits : c.signature.leftBits = g.arity := by
    rw [hsignature, Signature.leftBits, Signature.sumBits_eq]
    exact totalBits_gateRegister g.arity
  have hdemand : c.demand = 0 := by
    rw [demand, hinstances, List.map_singleton, List.sum_singleton, Bloq.born_ofGate]
    rfl
  obtain ⟨s, hs, htensor⟩ := hlinear.tensor_nested (fun x hx => hbloq x hx ▸ .gate hg)
    (fun x hx r hr => ((Bloq.regular_ofGate ho).quantum r (hbloq x hx ▸ hr)).1) hquantum
    (by rw [hsignature]; rfl) hname (by rwa [hbits, hdemand]) hsettled
  exact ⟨c, s, hc, hs, htensor⟩

end Composite

/-- A composite that a builder gives means the same when it is the only bloq of another one, if it is
on qubits throughout, consists of bookkeeping bloqs and gates with matrices, and gives its inputs
back. -/
theorem Builder.Reached.nested_tensor {α κ : Type} [Angle α] [ExactAmplitude κ] [Rotation α κ]
    {b b' : Builder (Bloq α κ)} {final : Soquets (Bloq α κ)} {c : Composite (Bloq α κ)}
    (hb : b.Reached) (hc : Gives (Builder.finalize final) b c b')
    (hx : ∀ x ∈ c.instances, x.bloq.Basic Gate.HasMatrix ∧
      ∀ r ∈ x.bloq.signature.registers, r.dtype.isQuantum = true)
    (hr : ∀ r ∈ c.signature.registers, r.Quantum ∧ '[' ∉ r.name.toList)
    (hnames : c.signature.repeatedName? = none)
    (hsize : c.signature.leftBits + c.demand ≤ UInt32.size) (hsettled : c.Settled) :
    ∃ s, Composite.ofBloq (.composite c) = .ok s ∧ s.tensor = c.tensor :=
  (hb.linear hc).tensor_nested (fun x h => (hx x h).1) (fun x h => (hx x h).2)
    (fun r h => (hr r h).1) hnames (fun r h => (hr r h).2) hsize hsettled

/-- Two qubits go through a gate in a composite inside of another one. -/
theorem Builder.Reached.nested_tensor_gate :
    ∃ (b b' : Builder (Bloq ℝ ℂ)) (final : Soquets (Bloq ℝ ℂ)) (c : Composite (Bloq ℝ ℂ)),
      b.Reached ∧ Gives (Builder.finalize final) b c b' ∧
      c.instances = [⟨0, .ofGate (.standard .cx)⟩] ∧ c.Settled ∧
      ∃ s, Composite.ofBloq (.composite c) = .ok s ∧ s.tensor = c.tensor := by
  obtain ⟨c, hc, -, hsignature, hinstances, hsettled⟩ :=
    Composite.exists_settled_ofGate (g := (.standard .cx : Gate ℝ ℂ)) fun b heq => by cases heq
  obtain ⟨b, b', final, hreached, hfinal⟩ :=
    Builder.exists_reached_of_ofBloq (Bloq.valid_ofGate (.standard .cx)) hc
  have hregister : ∀ r ∈ [gateRegister 2], r.Quantum ∧ '[' ∉ r.name.toList := by
    intro r hr
    rw [List.mem_singleton.mp hr]
    exact ⟨⟨rfl, by decide⟩, by decide⟩
  refine ⟨b, b', final, c, hreached, hfinal, hinstances, hsettled,
    hreached.nested_tensor hfinal ?_ ?_ ?_ ?_ hsettled⟩
  · rw [hinstances]
    intro x hx
    rw [List.mem_singleton.mp hx]
    refine ⟨.gate (Gate.Reversible.standard rfl).hasMatrix, ?_⟩
    rw [Bloq.signature_ofGate]
    intro r hr
    exact (hregister r hr).1.1
  · rw [hsignature]
    exact hregister
  · rw [hsignature]
    rfl
  · rw [hsignature, Composite.demand, hinstances, List.map_singleton, List.sum_singleton,
      Bloq.born_ofGate]
    decide

end BloqCircuit
