import Mathlib.Algebra.Order.BigOperators.Group.List
import Mathlib.Data.List.Flatten
import BloqCircuit.Proofs.Interrupted
import BloqCircuit.Proofs.Renamed.Import
/-! Conversions on renamed qubits, in both directions. They go by the wiring alone: other names give the
same composite, and the same circuit and arrays under these names. -/
namespace BloqCircuit
variable {f : Qubit ↪ Qubit}

/-! ## Outcomes of runs -/

section
variable {σ τ υ : Type} {m : ExceptT Error (StateM σ) τ} {m' : ExceptT Error (StateM σ) υ}
  {s s' t t' : σ} {g : τ → υ}

theorem Gives.agree {x : τ} (h : Gives m s x t) (h' : Gives m' s' (g x) t') :
    Agree g (m.run s).1 (m'.run s').1 := by
  rw [show m.run s = _ from h, show m'.run s' = _ from h']
  exact .ok x

theorem Leaves.agree {e e' : Error} (h : Leaves m s e t) (h' : Leaves m' s' e' t')
    (he : e'.kind = e.kind) : Agree g (m.run s).1 (m'.run s').1 := by
  rw [show m.run s = _ from h, show m'.run s' = _ from h']
  exact .error he

end

/-! ## Arrays -/

theorem Quregs.qubits_map (q : Quregs) : qubits (q.map f) = q.qubits.map f := Arrays.flatMap_map q

/-- Arrays that can be bound to the inputs can be merged. -/
theorem Export.exists_merge_of_bindInputs {quregs : Quregs} {registers : List Register}
    {carriers carriers' : Carriers} (h : bindInputs quregs registers carriers = .ok carriers') :
    ∃ inputs, quregs.merge registers = .ok inputs := by
  induction registers generalizing carriers with
  | nil => exact ⟨[], rfl⟩
  | cons r rest ih =>
    obtain ⟨g, hg, h⟩ := bind_eq_ok.mp h
    obtain ⟨inputs, hinputs⟩ := ih h
    obtain ⟨parts, hparts, -⟩ := bind_eq_ok.mp hinputs
    refine ⟨(g.toList :: parts).flatten, bind_eq_ok.mpr ⟨g.toList :: parts, ?_, rfl⟩⟩
    rw [List.mapM_cons, hparts, hg]
    rfl

/-! ## Exports -/

namespace Composite
variable {α κ : Type} [Angle α] {c : Composite (Bloq α κ)}

/-- A bloq takes no more ancillas than outputs of it need that are no inputs. -/
theorem ancillas_le_born {b : Bloq α κ} (h : b.Plain ∨ b.native? = none) :
    Export.ancillas b ≤ (b.born.map (·.totalBits)).sum := by
  have hwrapped : b.native? = none → Export.ancillas b = (b.born.map (·.totalBits)).sum := by
    intro hn
    have hform : CircuitForm.native? b = none := hn
    rw [Export.ancillas, hform, Bloq.born, (Bloq.emits_of_native? hn).2.1]
    rfl
  rcases h with h | hn
  · cases h with
    | split t | join t | free t | gate g => exact Nat.zero_le _
    | allocate t =>
      rw [Bloq.born_allocate]
      exact le_rfl
    | wrapped _ hn _ => exact (hwrapped hn).le
  · exact (hwrapped hn).le

omit [Angle α] in
theorem instance?_nodeAt (v : Nat) : (c.nodeAt v).instance?.map (·.bloq) = c.bloqAt v := by
  cases v with
  | zero => rfl
  | succ k =>
    rw [nodeAt, if_neg (Nat.succ_ne_zero k), Nat.add_sub_cancel, bloqAt]
    cases c.instances[k]? <;> rfl

/-- A walk takes no more than the demand of its composite. -/
theorem Threaded.ancillas_le_demand (hc : c.Threaded)
    (hx : ∀ x ∈ c.instances, x.bloq.Plain ∨ x.bloq.native? = none) (traversal : TraversalOrder) :
    c.ancillas traversal ≤ c.demand := by
  obtain ⟨order, ho, hs⟩ := hc.exists_order traversal
  have hlt : ∀ v ∈ order, v < c.size := fun v hv => List.mem_range.mp (hs.perm.mem_iff.mp hv)
  have hvisits := visits_eq ho hlt
  have hnode : ∀ v ∈ order, (c.visitAt v).node.instance?.elim 0 (fun x => Export.ancillas x.bloq) =
      (c.bloqAt v).elim 0 Export.ancillas := by
    intro v _
    rw [← instance?_nodeAt]
    show Option.elim (c.nodeAt v).instance? _ _ = _
    cases (c.nodeAt v).instance? <;> rfl
  simp only [ancillas, hvisits]
  rw [List.map_map, Function.comp_def, List.map_congr_left hnode, sum_bloqAt hs, demand]
  exact List.sum_le_sum fun x hm => ancillas_le_born (hx x hm)

/-- A composite that was built is emitted alike on renamed inputs if these are different. -/
theorem Threaded.agree_export (hc : c.Threaded)
    (hx : ∀ x ∈ c.instances, x.bloq.Plain ∨ x.bloq.native? = none) {quregs : Quregs}
    {inputs declared : List Qubit} (hin : quregs.merge c.signature.lefts = .ok inputs)
    (hn : inputs.Nodup) (hsub : inputs ⊆ declared) (traversal : TraversalOrder) {p : CleanPool}
    (hpool : p.Spares inputs c.demand) (hkept : ∀ q ∈ CleanPool.fresh p.next c.demand, f q = q) :
    Agree (Prod.map (Circuit.map f) (Arrays.map f))
      ((c.export c.signature quregs traversal : AllocM (Scope CleanPool)
        (Circuit (Gate α κ) × Quregs)).run (Scope.declare declared { base := p })).1
      ((c.export c.signature (quregs.map f) traversal).run
        (Scope.declare (declared.map f) { base := p })).1 := by
  obtain ⟨L, order, -, hflow, ho, hs, hd, hon, harray, hborn, -, -⟩ :=
    hc.exists_walk hin hn traversal hpool
  have hon' : (L.map f).on 0 c.signature.lefts = inputs.map f := by rw [Labels.on_map, hon]
  have hborn' : order.flatMap (c.bornAt (L.map f)) = CleanPool.fresh p.next c.demand := by
    rw [← map_kept hkept, ← hborn, List.map_flatMap]
    exact List.flatMap_congr fun v _ => bornAt_map f v
  have hd' : c.Distinct (L.map f) order := by
    rw [Distinct, hon', hborn', ← map_kept hkept, ← List.map_append]
    exact (hpool.nodup hn).map f.injective
  have harray' : ∀ r ∈ c.signature.lefts, r.arrayIn (quregs.map f) = .ok ((L.map f).array 0 r) := by
    intro r hr
    have hagree := r.agree_arrayIn (f := f) quregs
    rw [harray r hr] at hagree
    rw [hagree.eq_ok]
    exact congrArg Except.ok (Register.array_map (hflow.inputs.register hr) f).symm
  have hlive : ∀ {qs ins : List Qubit}, ins ⊆ qs →
      (Scope.declare qs { base := p } : Scope CleanPool).Live ins := fun h =>
    (Scope.live_declare p _).mono h
  obtain ⟨t, ht, -⟩ := hflow.exists_served_live hc hs hd hborn
    (hlive (hon.symm ▸ hsub))
  obtain ⟨t', ht', -⟩ := (hflow.map f).exists_served_live hc hs hd' hborn'
    (hlive (hon'.symm ▸ List.map_subset f hsub))
  cases he : c.refusal? order with
  | none =>
    have hgives' := (hflow.map f).export_gives_of_refusal hc hx harray' ho hs hd' ht' he
    have hone : c.operationAt? (L.map f) = fun v => (c.operationAt? L v).map (Operation.map f) :=
      funext (operationAt?_map f)
    rw [hone, ← List.map_filterMap, Labels.arrays_map f (hflow.fits_rights hc)] at hgives'
    exact (hflow.export_gives_of_refusal hc hx harray ho hs hd ht he).agree hgives'
  | some e =>
    obtain ⟨u, -, hleaves⟩ := hflow.export_leaves hc hx harray ho hs hd ht he
    obtain ⟨u', -, hleaves'⟩ := (hflow.map f).export_leaves hc hx harray' ho hs hd' ht' he
    exact hleaves.agree hleaves' rfl

/-- Inputs that lack an array, or have one of a wrong shape, fail under any names. -/
theorem agree_export_of_merge (c : Composite (Bloq α κ)) {quregs : Quregs} {e : Error}
    (hin : quregs.merge c.signature.lefts = .error e) (traversal : TraversalOrder)
    (s s' : Scope CleanPool) :
    Agree (Prod.map (Circuit.map f) (Arrays.map f))
      ((c.export c.signature quregs traversal : AllocM (Scope CleanPool)
        (Circuit (Gate α κ) × Quregs)).run s).1
      ((c.export c.signature (quregs.map f) traversal).run s').1 := by
  have hagree := Export.agree_bindInputs (f := f) quregs c.signature.lefts ∅
  cases hbind : Export.bindInputs quregs c.signature.lefts ∅ with
  | ok carriers =>
    obtain ⟨inputs, hmerge⟩ := Export.exists_merge_of_bindInputs hbind
    cases hin.symm.trans hmerge
  | error e' =>
    rw [hbind] at hagree
    obtain ⟨e'', hbind', he⟩ := hagree.exists_error
    have hleaves : ∀ {q : Quregs} {e : Error} (t : Scope CleanPool),
        Export.bindInputs q c.signature.lefts ∅ = .error e →
        Leaves (c.export c.signature q traversal : AllocM (Scope CleanPool)
          (Circuit (Gate α κ) × Quregs)) t e t := fun t h =>
      leaves_bind.mpr (.inl (leaves_lift.mpr ⟨h, rfl⟩))
    exact (hleaves s hbind).agree (hleaves s' hbind') he

/-- A composite that was built is emitted alike on any renamed inputs if what is in use in the pool keeps
its name. -/
theorem Threaded.agree_export_of_kept (hc : c.Threaded)
    (hx : ∀ x ∈ c.instances, x.bloq.Plain ∨ x.bloq.native? = none) (quregs : Quregs)
    (declared : List Qubit) (traversal : TraversalOrder) {p : CleanPool}
    (hkept : ∀ q ∈ CleanPool.fresh p.next c.demand, f q = q) (hused : ∀ q ∈ p.inUse, f q = q) :
    Agree (Prod.map (Circuit.map f) (Arrays.map f))
      ((c.export c.signature quregs traversal : AllocM (Scope CleanPool)
        (Circuit (Gate α κ) × Quregs)).run (Scope.declare declared { base := p })).1
      ((c.export c.signature (quregs.map f) traversal).run
        (Scope.declare (declared.map f) { base := p })).1 := by
  have hpool : CleanPool.Alike f p p := by
    refine ⟨rfl, fun q => ⟨fun hq => ?_, fun hq => ?_⟩⟩
    · rwa [f.injective (hused _ hq)] at hq
    · rwa [hused q hq]
  have hbase : Scope.Alike f ({ base := p } : Scope CleanPool) { base := p } :=
    ⟨hpool, QubitSet.alike_empty, QubitSet.alike_empty⟩
  have hscope : Nominal.Alike f (Scope.declare declared { base := p } : Scope CleanPool)
      (Scope.declare (declared.map f) { base := p }) := hbase.declare declared
  exact (((c.twin_export c.signature quregs traversal).mono
    (hc.ancillas_le_demand hx traversal)) hscope hkept).1

end Composite

/-! ## Both conversions -/

private def isAncilla : Bloq Float Complex → Bool
  | .allocate _ | .free _ => true
  | _ => false

end BloqCircuit
