import BloqCircuit.Import
import BloqCircuit.Proofs.Bundling
import BloqCircuit.Proofs.Renamed.Emission
/-! Circuits on renamed qubits become the same composites. The walk over the operations runs as before,
bundle by bundle, whatever the names of the qubits in them. -/
namespace BloqCircuit
variable {f : Qubit ↪ Qubit}

/-! ## Related constructions -/

section
variable {β τ υ τ' υ' : Type} {R : τ → υ → Prop} {S : τ' → υ' → Prop}

/-- Outcomes that match: related results, or two failures of one kind. -/
inductive Matches (R : τ → υ → Prop) : Except Error τ → Except Error υ → Prop
  | ok {x : τ} {y : υ} (h : R x y) : Matches R (.ok x) (.ok y)
  | error {e e' : Error} (h : e'.kind = e.kind) : Matches R (.error e) (.error e')

theorem Matches.bind {m : Except Error τ} {m' : Except Error υ} {k : τ → Except Error τ'}
    {k' : υ → Except Error υ'} (h : Matches R m m') (hk : ∀ x y, R x y → Matches S (k x) (k' y)) :
    Matches S (m >>= k) (m' >>= k') := by
  cases h with
  | ok hxy => exact hk _ _ hxy
  | error he => exact .error he

theorem Agree.matches {g : τ → υ} {m : Except Error τ} {m' : Except Error υ} (h : Agree g m m') :
    Matches (fun x y => y = g x) m m' := by
  cases h with
  | ok x => exact .ok rfl
  | error he => exact .error he

/-- Two constructions that go in step: from one state they come to one state, with outcomes that
match. -/
def InStep (R : τ → υ → Prop) (m : BuildM β τ) (m' : BuildM β υ) : Prop :=
  ∀ b, (m'.run b).2 = (m.run b).2 ∧ Matches R (m.run b).1 (m'.run b).1

namespace InStep

theorem lift {m : Except Error τ} {m' : Except Error υ} (h : Matches R m m') :
    InStep (β := β) R (liftM m) (liftM m') := by
  intro b
  rw [run_lift, run_lift]
  exact ⟨rfl, h⟩

protected theorem pure {x : τ} {y : υ} (h : R x y) : InStep (β := β) R (pure x) (pure y) :=
  lift (.ok h)

protected theorem throw {e e' : Error} (h : e'.kind = e.kind) :
    InStep (β := β) R (throw e) (throw e') := lift (.error h)

protected theorem bind {m : BuildM β τ} {m' : BuildM β υ} {k : τ → BuildM β τ'}
    {k' : υ → BuildM β υ'} (h : InStep R m m') (hk : ∀ x y, R x y → InStep S (k x) (k' y)) :
    InStep S (m >>= k) (m' >>= k') := by
  intro b
  obtain ⟨hstate, hmatch⟩ := h b
  rw [run_bind, run_bind]
  generalize m.run b = r at hstate hmatch
  generalize m'.run b = r' at hstate hmatch
  obtain ⟨x, t⟩ := r
  obtain ⟨y, t'⟩ := r'
  obtain rfl : t' = t := hstate
  cases hmatch with
  | ok hxy => exact hk _ _ hxy t'
  | error he => exact ⟨rfl, .error he⟩

/-- A part that deals with no qubits is the same in both. -/
theorem bind_same {m : BuildM β τ} {k : τ → BuildM β τ'} {k' : τ → BuildM β υ'}
    (hk : ∀ x, InStep S (k x) (k' x)) : InStep S (m >>= k) (m >>= k') := by
  intro b
  rw [run_bind, run_bind]
  rcases m.run b with ⟨x, t⟩
  cases x with
  | ok x => exact hk x t
  | error e => exact ⟨rfl, .error rfl⟩

/-- A part that only reads qubits comes first. -/
theorem agree_bind {g : τ → υ} {m : Except Error τ} {m' : Except Error υ} {k : τ → BuildM β τ'}
    {k' : υ → BuildM β υ'} (h : Agree g m m') (hk : ∀ x, InStep S (k x) (k' (g x))) :
    InStep S (liftM m >>= k) (liftM m' >>= k') := by
  refine (lift h.matches).bind fun x y hxy => ?_
  subst hxy
  exact hk x

protected theorem refl (m : BuildM β τ) : InStep (fun x y => y = x) m m := by
  intro b
  refine ⟨rfl, ?_⟩
  cases (m.run b).1 with
  | ok x => exact .ok rfl
  | error e => exact .error rfl

/-- Constructions that go in step from nothing end alike. -/
theorem run [BloqKind β] {m m' : BuildM β τ} (h : InStep (fun x y => y = x) m m') :
    Agree id (Builder.run m) (Builder.run m') := by
  have hmatch : Matches (fun x y => y = x) (Builder.run m) (Builder.run m') := (h {}).2
  generalize Builder.run m = r at hmatch
  generalize Builder.run m' = r' at hmatch
  cases hmatch with
  | ok hxy =>
    subst hxy
    exact .ok _
  | error he => exact .error he

end InStep
end

/-! ## Bundles -/

namespace Bundles
variable {β : Type} {b b' : Bundles β} {held : List Qubit}

/-- The second bundles bind the renamed qubits as the first ones bind the old ones, in one order. -/
structure Alike (f : Qubit ↪ Qubit) (b b' : Bundles β) : Prop where
  next : b'.next = b.next
  bound : ∀ held : List Qubit, b'.bound[held.map f]? = b.bound[held]?
  renamed : ∀ (held' : List Qubit) e, b'.bound[held']? = some e →
    ∃ held : List Qubit, held.map f = held'
  numbered : b.Numbered

theorem map_eq_map_iff {qs rs : List Qubit} : qs.map f = rs.map f ↔ qs = rs :=
  (List.map_injective_iff.mpr f.injective).eq_iff

theorem alike_empty : Alike f ({} : Bundles β) {} where
  next := rfl
  bound held := by simp
  renamed held' e h := by simp at h
  numbered := numbered_empty

namespace Alike

theorem get? (h : Alike f b b') (held : List Qubit) : b'.get? (held.map f) = b.get? held := by
  rw [Bundles.get?, Bundles.get?, h.bound]

theorem insert (h : Alike f b b') (held : List Qubit) (s : Soquet β) :
    Alike f (b.insert held s) (b'.insert (held.map f) s) where
  next := by rw [next_insert, next_insert, h.next, h.bound]
  bound held' := by
    rw [bound_insert, bound_insert, h.bound, serialFor, serialFor, h.bound, h.next]
    simp only [map_eq_map_iff]
  renamed held' e he := by
    rw [bound_insert] at he
    split at he
    · next heq => exact ⟨held, heq⟩
    · exact h.renamed held' e he
  numbered := h.numbered.insert held s

theorem erase (h : Alike f b b') (held : List Qubit) :
    Alike f (b.erase held) (b'.erase (held.map f)) where
  next := h.next
  bound held' := by
    rw [bound_erase, bound_erase, h.bound]
    simp only [map_eq_map_iff]
  renamed held' e he := by
    rw [bound_erase] at he
    split at he
    · cases he
    · exact h.renamed held' e he
  numbered := h.numbered.erase held

/-- Whatever is bound in the second bundles is bound in the first ones. -/
theorem exists_bound (h : Alike f b b') {held' : List Qubit} {e : Bound β}
    (he : b'.bound[held']? = some e) :
    ∃ held : List Qubit, held.map f = held' ∧ b.bound[held]? = some e := by
  obtain ⟨held, rfl⟩ := h.renamed held' e he
  exact ⟨held, rfl, (h.bound held).symm.trans he⟩

theorem numbered' (h : Alike f b b') : b'.Numbered where
  serial held' e he := by
    obtain ⟨held, -, he⟩ := h.exists_bound he
    rw [h.next]
    exact h.numbered.serial held e he
  distinct k₁ k₂ e₁ e₂ h₁ h₂ hs := by
    obtain ⟨held₁, rfl, hb₁⟩ := h.exists_bound h₁
    obtain ⟨held₂, rfl, hb₂⟩ := h.exists_bound h₂
    rw [h.numbered.distinct held₁ held₂ e₁ e₂ hb₁ hb₂ hs]

theorem bySerial (h : Alike f b b') :
    b'.bySerial = b.bySerial.map fun _ v => (v.1.map f, v.2) := by
  refine Std.ExtTreeMap.ext_getElem? fun n => Option.ext fun v => ?_
  rw [h.numbered'.getElem?_bySerial, Std.ExtTreeMap.getElem?_map, Option.map_eq_some_iff]
  constructor
  · rintro ⟨e, he, hn, hs⟩
    obtain ⟨held, hheld, he⟩ := h.exists_bound he
    exact ⟨(held, v.2), h.numbered.getElem?_bySerial.mpr ⟨e, he, hn, hs⟩, Prod.ext hheld rfl⟩
  · rintro ⟨w, hw, rfl⟩
    obtain ⟨e, he, hn, hs⟩ := h.numbered.getElem?_bySerial.mp hw
    exact ⟨e, (h.bound w.1).trans he, hn, hs⟩

theorem entries (h : Alike f b b') :
    b'.entries = b.entries.map fun v => (v.1.map f, v.2) := by
  rw [entries_eq, entries_eq, h.bySerial, Std.ExtTreeMap.toList_map, List.map_map, List.map_map]
  rfl

theorem missing (h : Alike f b b') (qubits : List Qubit) :
    b'.missing (qubits.map f) = (b.missing qubits).map f := by
  have hmem : ∀ q ∈ qubits, f q ∈ b'.missing (qubits.map f) ↔ q ∈ b.missing qubits := by
    intro q hq
    rw [mem_missing, mem_missing, List.mem_map_of_injective f.injective]
    refine and_congr_right fun _ => ⟨fun hno held e he hm => ?_, fun hno held' e he hm => ?_⟩
    · exact hno (held.map f) e ((h.bound held).trans he) (List.mem_map_of_mem hm)
    · obtain ⟨held, rfl, hb⟩ := h.exists_bound he
      exact hno held e hb ((List.mem_map_of_injective f.injective).mp hm)
  unfold Bundles.missing at hmem ⊢
  rw [List.filter_map]
  refine congrArg (List.map f) (List.filter_congr fun q hq => ?_)
  have hq' := hmem q hq
  rw [List.mem_filter, List.mem_filter, and_iff_right hq, and_iff_right (List.mem_map_of_mem hq)] at hq'
  exact Bool.eq_iff_iff.mpr hq'

end Alike

/-- Results with bundles: the same but for the names of the qubits in the bundles. -/
def Carry {τ : Type} (f : Qubit ↪ Qubit) (x y : τ × Bundles β) : Prop := y.1 = x.1 ∧ Alike f x.2 y.2

/-- The same result is handed on with bundles that are alike. -/
theorem Carry.bind {τ τ' υ' : Type} {S : τ' → υ' → Prop} {m m' : BuildM β (τ × Bundles β)}
    {k : τ × Bundles β → BuildM β τ'} {k' : τ × Bundles β → BuildM β υ'} (h : InStep (Carry f) m m')
    (hk : ∀ x c c', Alike f c c' → InStep S (k (x, c)) (k' (x, c'))) :
    InStep S (m >>= k) (m' >>= k') := by
  refine h.bind fun x y hxy => ?_
  obtain ⟨x, c⟩ := x
  obtain ⟨y, c'⟩ := y
  obtain ⟨rfl, hc⟩ := hxy
  exact hk _ c c' hc

end Bundles

/-- The same bundle of renamed qubits. -/
def QubitBundle.map (f : Qubit → Qubit) (b : QubitBundle) : QubitBundle := ⟨b.qubits.map f, b.dtype⟩

theorem Register.bundle_map (r : Register) (f : Qubit → Qubit) (g : Grid Qubit) (i : List Nat) :
    r.bundle (g.map f) i = (r.bundle g i).map f := by
  rw [bundle, bundle, lane_map]
  rfl

/-! ## The walk over the operations -/

namespace Import
section
variable {β : Type} {b b' : Bundles β}

theorem alike_bindBits (h : b.Alike f b') (qs : List Qubit) (ss : List (Soquet β)) :
    (bindBits qs ss b).Alike f (bindBits (qs.map f) ss b') := by
  induction qs generalizing ss b b' with
  | nil => exact h
  | cons q qs ih =>
    cases ss with
    | nil => exact h
    | cons s ss => exact ih (h.insert [q] s) ss

theorem matches_takeBits (h : b.Alike f b') (qs : List Qubit) (taken : List (Soquet β)) :
    Matches (Bundles.Carry f) (takeBits qs b taken) (takeBits (qs.map f) b' taken) := by
  induction qs generalizing taken b b' with
  | nil => exact .ok ⟨rfl, h⟩
  | cons q qs ih =>
    have hget : b'.get? [f q] = b.get? [q] := h.get? [q]
    rw [List.map_cons, takeBits, takeBits, hget]
    cases b.get? [q] with
    | none => exact .error rfl
    | some s => exact ih (h.erase [q]) (s :: taken)

variable [BloqKind β]

theorem inStep_splitShared {wanted wanted' : QubitSet} (hw : QubitSet.Alike f wanted wanted')
    (entries : List (List Qubit × Soquet β)) (h : b.Alike f b') :
    InStep (Bundles.Alike f) (splitShared wanted entries b)
      (splitShared wanted' (entries.map fun v => (v.1.map f, v.2)) b') := by
  induction entries generalizing b b' with
  | nil => exact .pure h
  | cons e rest ih =>
    obtain ⟨qubits, s⟩ := e
    have hany : (qubits.map f).any wanted'.contains = qubits.any wanted.contains := by
      rw [List.any_map]
      exact congrArg (qubits.any ·) (funext fun q => hw.contains q)
    rw [List.map_cons, splitShared, splitShared, List.length_map, hany]
    split
    · exact .bind_same fun bits => ih (alike_bindBits h qubits bits.toList)
    · exact ih (h.insert qubits s)

theorem inStep_allocateMissing (qubits : List Qubit) (h : b.Alike f b') :
    InStep (Bundles.Alike f) (allocateMissing qubits b) (allocateMissing (qubits.map f) b') := by
  unfold allocateMissing
  rw [h.missing]
  dsimp only
  rw [List.isEmpty_map, List.length_map]
  split
  · exact .pure h
  · exact .bind_same fun s => .pure (h.insert (b.missing qubits) s)

theorem inStep_regroup (request : QubitBundle) (h : b.Alike f b') :
    InStep (Bundles.Carry f) (regroup request b) (regroup (request.map f) b') := by
  have hwanted : QubitSet.Alike f (.ofList request.qubits) (.ofList (request.map f).qubits) := by
    intro q
    rw [mem_ofList_set, mem_ofList_set]
    exact List.mem_map_of_injective f.injective
  have hlength : (request.map f).qubits.length = request.qubits.length := List.length_map f
  unfold regroup
  rw [h.entries, hlength]
  refine (inStep_splitShared hwanted b.entries Bundles.alike_empty).bind fun c c' hc => ?_
  split
  · rw [show c'.get? (request.map f).qubits = c.get? request.qubits from hc.get? request.qubits]
    cases c.get? request.qubits with
    | some s => exact .pure ⟨rfl, hc⟩
    | none => exact .throw rfl
  · refine Bundles.Carry.bind (.lift (matches_takeBits hc request.qubits [])) fun bits d d' hd => ?_
    exact .bind_same fun s => .pure ⟨rfl, hd.insert request.qubits s⟩

theorem inStep_ensure (request : QubitBundle) (h : b.Alike f b') :
    InStep (Bundles.Carry f) (ensure request b) (ensure (request.map f) b') := by
  have hget : ∀ {c c' : Bundles β}, c.Alike f c' →
      c'.get? (request.map f).qubits = c.get? request.qubits := fun hc => hc.get? request.qubits
  unfold ensure
  rw [hget h]
  cases b.get? request.qubits with
  | some s => exact .pure ⟨rfl, h⟩
  | none =>
    refine (inStep_allocateMissing request.qubits h).bind fun c c' hc => ?_
    rw [hget hc]
    cases c.get? request.qubits with
    | some s => exact .pure ⟨rfl, hc⟩
    | none => exact inStep_regroup request hc

theorem inStep_ensureEach (requests : List QubitBundle) (h : b.Alike f b') :
    InStep (Bundles.Carry f) (ensureEach requests b)
      (ensureEach (requests.map (QubitBundle.map f)) b') := by
  induction requests generalizing b b' with
  | nil => exact .pure ⟨rfl, h⟩
  | cons request rest ih =>
    rw [List.map_cons, ensureEach, ensureEach]
    refine Bundles.Carry.bind (inStep_ensure request h) fun s c c' hc => ?_
    exact Bundles.Carry.bind (ih hc) fun ss d d' hd => .pure ⟨rfl, hd⟩

theorem inStep_ensureRegisters (arrays : List (Register × Grid Qubit)) (h : b.Alike f b')
    (out : Soquets β) :
    InStep (Bundles.Carry f) (ensureRegisters arrays b out)
      (ensureRegisters (arrays.map fun a => (a.1, a.2.map f)) b' out) := by
  induction arrays generalizing b b' out with
  | nil => exact .pure ⟨rfl, h⟩
  | cons a rest ih =>
    obtain ⟨r, g⟩ := a
    have hbundles : r.indices.map (r.bundle (g.map f)) =
        (r.indices.map (r.bundle g)).map (QubitBundle.map f) := by
      rw [List.map_map]
      exact List.map_congr_left fun i _ => r.bundle_map f g i
    rw [List.map_cons, ensureRegisters, ensureRegisters, hbundles]
    refine Bundles.Carry.bind (inStep_ensureEach _ h) fun soquets c c' hc => ?_
    dsimp only
    cases Grid.ofCells? r.shape soquets with
    | some cells => exact ih hc (out.insert r.name cells)
    | none => exact .throw rfl

theorem matches_rebind (bloq : β) (out : Soquets β) (r : Register) (g : Grid Qubit)
    (indices : List (List Nat)) (h : b.Alike f b') :
    Matches (Bundles.Alike f) (rebind bloq out r g indices b)
      (rebind bloq out r (g.map f) indices b') := by
  induction indices generalizing b b' with
  | nil => exact .ok h
  | cons i rest ih =>
    rw [rebind, rebind, r.lane_map]
    split
    · exact ih (h.erase (r.lane g i))
    · cases (out.get? r.name).bind (·.get? i) with
      | some s => exact ih (h.insert (r.lane g i) s)
      | none => exact .error rfl

theorem matches_rebindAll (bloq : β) (out : Soquets β) (arrays : List (Register × Grid Qubit))
    (h : b.Alike f b') :
    Matches (Bundles.Alike f) (rebindAll bloq out arrays b)
      (rebindAll bloq out (arrays.map fun a => (a.1, a.2.map f)) b') := by
  induction arrays generalizing b b' with
  | nil => exact .ok h
  | cons a rest ih =>
    obtain ⟨r, g⟩ := a
    exact (matches_rebind bloq out r g r.indices h).bind fun c c' hc => ih hc

theorem agree_arraysOf (quregs : Quregs) (registers : List Register) :
    Agree (List.map fun a => (a.1, a.2.map f)) (arraysOf quregs registers)
      (arraysOf (quregs.map f) registers) :=
  .mapM fun r _ => (r.agree_arrayIn quregs).bind fun g => .ok (r, g)

end

section
variable {β γ : Type} [BloqKind β] [CircuitForm β γ] {b b' : Bundles β}

/-- An operation on renamed qubits is placed as it was. -/
theorem inStep_addOperation (op : Operation γ) (h : b.Alike f b') :
    InStep (Bundles.Alike f) (addOperation op b) (addOperation (op.map f) b') := by
  unfold addOperation
  refine .agree_bind (Quregs.agree_split _ op.qubits) fun quregs => ?_
  refine .agree_bind (agree_arraysOf quregs _) fun arrays => ?_
  rw [List.filter_map]
  refine Bundles.Carry.bind (inStep_ensureRegisters _ h Arrays.empty) fun given c c' hc => ?_
  exact .bind_same fun out => .lift (matches_rebindAll _ out arrays hc)

theorem inStep_addOperations (ops : List (Operation γ)) (h : b.Alike f b') :
    InStep (Bundles.Alike f) (addOperations ops b) (addOperations (ops.map (Operation.map f)) b') := by
  induction ops generalizing b b' with
  | nil => exact .pure h
  | cons op rest ih =>
    rw [List.map_cons, addOperations, addOperations]
    exact (inStep_addOperation op h).bind fun c c' hc => ih hc

end

/-! ## The boundaries -/

section
variable {β : Type} {b b' : Bundles β}

theorem alike_foldl_insert (r : Register) (g : Grid Qubit) (cells : List (List Nat × Soquet β))
    (h : b.Alike f b') :
    (cells.foldl (fun b e => b.insert (r.lane g e.1) e.2) b).Alike f
      (cells.foldl (fun b e => b.insert (r.lane (g.map f) e.1) e.2) b') := by
  induction cells generalizing b b' with
  | nil => exact h
  | cons e rest ih =>
    rw [List.foldl_cons, List.foldl_cons, r.lane_map]
    exact ih (h.insert (r.lane g e.1) e.2)

theorem matches_bindInputs (initial : Soquets β) (quregs : Quregs) (registers : List Register)
    (h : b.Alike f b') :
    Matches (Bundles.Alike f) (bindInputs initial quregs registers b)
      (bindInputs initial (quregs.map f) registers b') := by
  induction registers generalizing b b' with
  | nil => exact .ok h
  | cons r rest ih =>
    rw [bindInputs, bindInputs]
    refine (r.agree_arrayIn quregs).matches.bind fun g g' hg => ?_
    subst hg
    cases initial.get? r.name with
    | none => exact .error rfl
    | some soquets => exact ih (alike_foldl_insert r g _ h)

variable [BloqKind β]

/-- Lists of qubits of which the second ones are the first ones renamed. -/
def AlikeLists (f : Qubit ↪ Qubit) (used used' : Std.ExtTreeSet (List Qubit)) : Prop :=
  ∀ qs : List Qubit, qs.map f ∈ used' ↔ qs ∈ used

theorem AlikeLists.insertMany {used used' : Std.ExtTreeSet (List Qubit)} (h : AlikeLists f used used')
    (lanes : List (List Qubit)) :
    AlikeLists f (used.insertMany lanes) (used'.insertMany (lanes.map (List.map f))) := by
  intro qs
  simp only [Std.ExtTreeSet.mem_insertMany_list, h qs, List.contains_iff_mem]
  rw [List.mem_map_of_injective (List.map_injective_iff.mpr f.injective)]

theorem inStep_collectOutputs (quregs : Quregs) (registers : List Register) (h : b.Alike f b')
    (out : Soquets β) {used used' : Std.ExtTreeSet (List Qubit)} (hu : AlikeLists f used used') :
    InStep (fun x y => y.1 = x.1 ∧ AlikeLists f x.2.1 y.2.1 ∧ x.2.2.Alike f y.2.2)
      (collectOutputs quregs registers b out used)
      (collectOutputs (quregs.map f) registers b' out used') := by
  induction registers generalizing b b' out used used' with
  | nil => exact .pure ⟨rfl, hu, h⟩
  | cons r rest ih =>
    rw [collectOutputs, collectOutputs]
    refine .agree_bind (r.agree_arrayIn quregs) fun g => ?_
    refine Bundles.Carry.bind (inStep_ensureRegisters [(r, g)] h out) fun out c c' hc => ?_
    have hlanes : r.indices.map (r.lane (g.map f)) = (r.indices.map (r.lane g)).map (List.map f) := by
      rw [List.map_map]
      exact List.map_congr_left fun i _ => r.lane_map f g i
    dsimp only
    rw [hlanes]
    exact ih hc out (hu.insertMany _)

theorem inStep_freeUnused {used used' : Std.ExtTreeSet (List Qubit)} (hu : AlikeLists f used used')
    (entries : List (List Qubit × Soquet β)) :
    InStep (fun x y => y = x) (freeUnused used entries)
      (freeUnused used' (entries.map fun v => (v.1.map f, v.2))) := by
  induction entries with
  | nil => exact .pure rfl
  | cons e rest ih =>
    obtain ⟨qubits, s⟩ := e
    have hcontains : used'.contains (qubits.map f) = used.contains qubits := by
      rw [Bool.eq_iff_iff, Std.ExtTreeSet.contains_iff_mem, Std.ExtTreeSet.contains_iff_mem, hu]
    rw [List.map_cons, freeUnused, freeUnused, hcontains]
    split
    · exact .bind_same fun _ => ih
    · exact ih

end
end Import

/-! ## The composite -/

namespace Circuit
variable {β γ : Type} [BloqKind β] [CircuitForm β γ]

theorem agree_importBetween (c : Circuit γ) (signature : Signature) (inputs outputs : Quregs) :
    Agree id (c.importBetween signature inputs outputs : Except Error (Composite β))
      ((c.map f).importBetween signature (inputs.map f) (outputs.map f)) := by
  unfold importBetween
  refine InStep.run (.bind_same fun initial => ?_)
  refine (InStep.lift (Import.matches_bindInputs initial inputs signature.lefts
    Bundles.alike_empty)).bind fun b b' hb => ?_
  refine (Import.inStep_addOperations c.operations hb).bind fun b b' hb => ?_
  refine (Import.inStep_collectOutputs outputs signature.rights hb Arrays.empty
    (fun qs => by simp)).bind fun x y hxy => ?_
  obtain ⟨final, used, b⟩ := x
  obtain ⟨final', used', b'⟩ := y
  obtain ⟨rfl, hu, hb⟩ := hxy
  dsimp only at hu hb ⊢
  rw [hb.entries]
  exact (Import.inStep_freeUnused hu b.entries).bind fun _ _ _ => .refl _

theorem qubits_map (c : Circuit γ) : (c.map f).qubits = c.qubits.map f := by
  have hqubits : (c.map f).operations.flatMap (·.qubits) =
      (c.operations.flatMap (·.qubits)).map f := by
    rw [Circuit.map, List.flatMap_map, List.map_flatMap]
    rfl
  rw [qubits, qubits, hqubits, firstUses_map fun x _ y _ h => f.injective h]

/-- The boundary that a circuit has by default goes by the first uses of its qubits, not by their
names. -/
theorem defaultQuregs_map (c : Circuit γ) (name : String) :
    (c.map f).defaultQuregs name = (c.defaultQuregs name).map f := by
  refine congrArg (fun g => Arrays.mk [(name, g)]) (Grid.ext_toList ?_ ?_)
  · show [(c.map f).qubits.length, 1] = [c.qubits.length, 1]
    rw [qubits_map, List.length_map]
  · rw [Grid.toList_map]
    exact c.qubits_map

theorem agree_importWhole (c : Circuit γ) (name : String) :
    Agree id (c.importWhole name : Except Error (Composite β)) ((c.map f).importWhole name) := by
  have hregister : (c.map f).defaultRegister name = c.defaultRegister name := by
    rw [defaultRegister, defaultRegister, qubits_map, List.length_map]
  unfold importWhole
  rw [hregister, defaultQuregs_map]
  exact c.agree_importBetween _ _ _

/-- A circuit on renamed qubits becomes the same composite between renamed boundaries. -/
theorem agree_importAs (c : Circuit γ) (signature : Option Signature) (inputs outputs : Option Quregs)
    (name : String) :
    Agree id (c.importAs signature inputs outputs name : Except Error (Composite β))
      ((c.map f).importAs signature (inputs.map (Arrays.map f)) (outputs.map (Arrays.map f)) name) := by
  cases signature with
  | none => exact c.agree_importWhole name
  | some s =>
    cases inputs with
    | none => exact .error rfl
    | some i =>
      cases outputs with
      | none => exact .error rfl
      | some o => exact c.agree_importBetween s i o

end Circuit
end BloqCircuit
