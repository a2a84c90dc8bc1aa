import BloqCircuit.Proofs.Traversals
/-! Exports that stop. A bloq that cannot be emitted ends the walk; what the nodes before it did to the
allocator stays done. -/
namespace BloqCircuit

variable {α κ : Type} [Angle α]

/-! ## Refusals -/

namespace Bloq
variable {b : Bloq α κ}

/-- Why a bloq cannot be emitted, if it cannot. -/
def refusal? (b : Bloq α κ) : Option Error :=
  match Export.classicalOutput? b.signature with
  | some r => some (.classicalOutputWire r.name)
  | none => if b.native?.isNone then b.signature.repeatedName?.map (.registerGroup b.text) else none

theorem emissible_iff : b.Emissible ↔ b.refusal? = none := by
  rw [Emissible, refusal?]
  cases hq : Export.classicalOutput? b.signature with
  | some r => simp
  | none => cases hn : b.native? <;> simp

/-- A refusal has one of two causes. -/
theorem refusal?_eq_some {e : Error} (h : b.refusal? = some e) :
    (∃ r, Export.classicalOutput? b.signature = some r ∧ e = .classicalOutputWire r.name) ∨
      ∃ name, Export.classicalOutput? b.signature = none ∧ b.native? = none ∧
        b.signature.repeatedName? = some name ∧ e = .registerGroup b.text name := by
  rw [refusal?] at h
  cases hq : Export.classicalOutput? b.signature with
  | some r =>
    rw [hq] at h
    exact .inl ⟨r, rfl, (Option.some.inj h).symm⟩
  | none =>
    rw [hq] at h
    cases hn : b.native? with
    | some n =>
      rw [hn] at h
      cases h
    | none =>
      rw [hn] at h
      obtain ⟨name, hname, rfl⟩ := Option.map_eq_some_iff.mp h
      exact .inr ⟨name, rfl, rfl, hname, rfl⟩

/-- A refusal never says that there is no decomposition. -/
theorem available_of_refusal {e : Error} (h : b.refusal? = some e) :
    e.isDecomposeUnavailable = false := by
  rcases refusal?_eq_some h with ⟨r, -, rfl⟩ | ⟨name, -, -, -, rfl⟩ <;> rfl

end Bloq

namespace Composite

/-- A composite that was built of bookkeeping, of gates of circuits and of bloqs that circuits do not
have. -/
def Assembled (c : Composite (Bloq α κ)) : Prop :=
  ∃ (b b' : Builder (Bloq α κ)) (final : Soquets (Bloq α κ)), b.Reached ∧
    Gives (Builder.finalize final) b c b' ∧
    ∀ x ∈ c.instances, x.bloq.Plain ∨ x.bloq.native? = none

/-- Why the bloq on a node cannot be emitted, if it cannot. -/
def refusalAt? (c : Composite (Bloq α κ)) (v : Nat) : Option Error := (c.bloqAt v).bind Bloq.refusal?

/-- Why a walk over nodes stops, if it does: because of the first bloq that cannot be emitted. -/
def refusal? (c : Composite (Bloq α κ)) (order : List Nat) : Option Error :=
  order.findSome? c.refusalAt?

/-- The nodes of a walk before it stops. -/
def beforeRefusal (c : Composite (Bloq α κ)) (order : List Nat) : List Nat :=
  order.takeWhile fun v => (c.refusalAt? v).isNone

variable {c : Composite (Bloq α κ)} {L : Labels}

theorem refusalAt?_of_some {v : Nat} {b : Bloq α κ} (h : c.bloqAt v = some b) :
    c.refusalAt? v = b.refusal? := by
  rw [refusalAt?, h, Option.bind_some]

theorem refusalAt?_of_none {v : Nat} (h : c.bloqAt v = none) : c.refusalAt? v = none := by
  rw [refusalAt?, h, Option.bind_none]

/-- A walk that stops meets a bloq that cannot be emitted. -/
theorem exists_refusal {order : List Nat} {e : Error} (h : c.refusal? order = some e) :
    ∃ b : Bloq α κ, b.refusal? = some e := by
  obtain ⟨v, -, hv⟩ := List.exists_of_findSome?_eq_some h
  obtain ⟨b, -, hb⟩ := Option.bind_eq_some_iff.mp hv
  exact ⟨b, hb⟩

theorem emissible_of_refusal {order : List Nat} (hs : c.graph.Sorts order)
    (h : c.refusal? order = none) : ∀ x ∈ c.instances, x.bloq.Emissible := by
  intro x hx
  obtain ⟨k, hk, rfl⟩ := List.mem_iff_getElem.mp hx
  have hmem : k + 1 ∈ order :=
    hs.perm.mem_iff.mpr (List.mem_range.mpr (Nat.succ_lt_succ (Nat.lt_succ_of_lt hk)))
  have hb : c.bloqAt (k + 1) = some c.instances[k].bloq := by
    rw [bloqAt, List.getElem?_eq_getElem hk]
    rfl
  have hnone := List.findSome?_eq_none_iff.mp h (k + 1) hmem
  rw [refusalAt?_of_some hb] at hnone
  exact Bloq.emissible_iff.mpr hnone

/-! ## The walk -/

section
variable {σ : Type} [Allocator σ] {done : List Nat} {v : Nat} {carriers : Carriers} {s t : σ}

/-- A bloq that cannot be emitted fails before it allocates or frees anything. -/
theorem Carried.emit_leaves (h : c.Carried L done carriers) (hl : c.Flow L) (hc : c.Threaded)
    (hf : c.Front (done ++ [v])) {x : Instance (Bloq α κ)} (hx : c.nodeAt v = .placed x)
    (hb : c.bloqAt v = some x.bloq) (hvalid : x.bloq.signature.Valid) {e : Error}
    (he : x.bloq.refusal? = some e) (s : σ) :
    Leaves (Export.emit x (c.visitAt v) carriers) s e s := by
  have hin : c.regsIn v = x.bloq.signature.lefts := regsIn_eq hb
  obtain ⟨carriers₁, hfollow, hget⟩ := h.follow hl hc hf
  rw [hin] at hget
  refine leaves_bind.mpr (.inr ⟨_, _, gives_lift.mpr ⟨hfollow, rfl⟩, ?_⟩)
  rcases Bloq.refusal?_eq_some he with ⟨r, hclassical, rfl⟩ | ⟨name, hclassical, hnative, hname, rfl⟩
  · have hclassical : Export.classicalOutput? (BloqKind.signature x.bloq) = some r := hclassical
    simp only [hclassical]
    exact leaves_throw.mpr ⟨rfl, rfl⟩
  · have hclassical : Export.classicalOutput? (BloqKind.signature x.bloq) = none := hclassical
    have hnames : (([] ++ x.bloq.signature.lefts).map Register.name).Nodup := hvalid.nodup_lefts
    obtain ⟨carriers₂, hgather, -⟩ := Export.gather_eq (.placed x : Node (Bloq α κ))
      (fun r => r.side == .left) hnames (hl.node v _ hb).fits.lefts carriers₁
      (fun p hp => by rw [hget, if_pos hp])
    have hnode : (c.visitAt v).node = .placed x := hx
    have hgate : (Wrapped.gate x.bloq : Except Error (Gate α κ)) =
        .error (.registerGroup x.bloq.text name) := by
      have hname : (BloqKind.signature x.bloq).repeatedName? = some name := hname
      rw [Wrapped.gate, hname]
      rfl
    simp only [hclassical]
    rw [hnode]
    refine leaves_bind.mpr (.inr ⟨_, _, gives_lift.mpr ⟨hgather, rfl⟩, ?_⟩)
    refine leaves_bind.mpr (.inl ?_)
    have hform : CircuitForm.native? x.bloq = none := hnative
    rw [Export.runBloq, hform]
    exact leaves_bind.mpr (.inl (leaves_bind.mpr (.inl (leaves_lift.mpr ⟨hgate, rfl⟩))))

/-- A walk that stops has served the nodes before it stopped. -/
theorem Carried.emitAll_leaves {rest : List Nat} (h : c.Carried L done carriers) (hl : c.Flow L)
    (hc : c.Threaded) (hf : c.Front (done ++ rest))
    (hx : ∀ x ∈ c.instances, x.bloq.Plain ∨ x.bloq.native? = none)
    (hd : c.Distinct L (done ++ rest)) (hs : c.Served L rest s t) {e : Error}
    (he : c.refusal? rest = some e) :
    ∃ u, c.Served L (c.beforeRefusal rest) s u ∧
      Leaves (Export.emitAll (rest.map c.visitAt) carriers) s e u := by
  induction rest generalizing done carriers s with
  | nil => cases he
  | cons v rest ih =>
    have hassoc : done ++ v :: rest = done ++ [v] ++ rest := by simp
    have hfront : c.Front (done ++ [v]) := by
      rw [hassoc] at hf
      exact hf.of_append
    rw [hassoc] at hf
    rw [refusal?, List.findSome?_cons] at he
    rw [beforeRefusal, List.takeWhile_cons, List.map_cons]
    cases hs with
    | boundary hb hs =>
      rw [refusalAt?_of_none hb] at he ⊢
      obtain ⟨carriers₁, hcarried, hskip⟩ := h.skip hl hc hfront hb s
      obtain ⟨u, hserved, hleaves⟩ := ih hcarried hf (by rwa [← hassoc]) hs he
      exact ⟨u, .boundary hb hserved, (hskip _).trans hleaves⟩
    | placed hb hserves hs =>
      obtain ⟨x, hnode, rfl, hmem⟩ := nodeAt_eq_placed hb
      have hvisit : (c.visitAt v).node = .placed x := hnode
      rw [refusalAt?_of_some hb] at he ⊢
      rw [Export.emitAll, hvisit]
      cases hr : x.bloq.refusal? with
      | some e' =>
        rw [hr] at he
        obtain rfl : e' = e := Option.some.inj he
        exact ⟨s, .nil s, leaves_bind.mpr (.inl
          (h.emit_leaves hl hc hfront hnode hb (hc.validAt x hmem) hr s))⟩
      | none =>
        rw [hr] at he
        have hemissible := Bloq.emissible_iff.mpr hr
        obtain ⟨carriers₁, hcarried, hemit⟩ := h.emit_gives hl hc hfront hnode hb
          (hemissible.plain (hx x hmem)) hemissible.1 (hc.validAt x hmem)
          (fun hm => hl.nodup_registers hc hfront hd hb hm) hserves
        obtain ⟨u, hserved, hleaves⟩ := ih hcarried hf (by rwa [← hassoc]) hs he
        exact ⟨u, .placed hb hserves hserved,
          leaves_bind.mpr (.inr ⟨_, _, hemit, leaves_bind.mpr (.inl hleaves)⟩)⟩

end

/-! ## The export -/

section
variable {σ : Type} [Allocator σ] {s t : σ} {quregs : Quregs} {traversal : TraversalOrder}
  {order : List Nat}

/-- An export that no bloq stops succeeds. -/
theorem Flow.export_gives_of_refusal (h : c.Flow L) (hc : c.Threaded)
    (hx : ∀ x ∈ c.instances, x.bloq.Plain ∨ x.bloq.native? = none)
    (hin : ∀ r ∈ c.signature.lefts, r.arrayIn quregs = .ok (L.array 0 r))
    (ho : c.sortedNodes traversal = .ok order) (hsorts : c.graph.Sorts order)
    (hd : c.Distinct L order) (hs : c.Served L order s t) (he : c.refusal? order = none) :
    Gives (c.export c.signature quregs traversal) s
      (⟨order.filterMap (c.operationAt? L)⟩, L.arrays (c.instances.length + 1) c.signature.rights)
      t := by
  have hemissible := emissible_of_refusal hsorts he
  exact h.export_gives_of hc (fun x hm => (hemissible x hm).plain (hx x hm))
    (fun x hm => (hemissible x hm).1) hin ho hsorts hd hs

/-- An export that a bloq stops fails as this bloq does. -/
theorem Flow.export_leaves (h : c.Flow L) (hc : c.Threaded)
    (hx : ∀ x ∈ c.instances, x.bloq.Plain ∨ x.bloq.native? = none)
    (hin : ∀ r ∈ c.signature.lefts, r.arrayIn quregs = .ok (L.array 0 r))
    (ho : c.sortedNodes traversal = .ok order) (hsorts : c.graph.Sorts order)
    (hd : c.Distinct L order) (hs : c.Served L order s t) {e : Error}
    (he : c.refusal? order = some e) :
    ∃ u, c.Served L (c.beforeRefusal order) s u ∧
      Leaves (c.export c.signature quregs traversal) s e u := by
  have hlt : ∀ v ∈ order, v < c.size := fun v hv => List.mem_range.mp (hsorts.perm.mem_iff.mp hv)
  obtain ⟨carriers, hbind, hcarried⟩ := h.exists_carried hc hin
  obtain ⟨u, hserved, hleaves⟩ := hcarried.emitAll_leaves h hc (hsorts.next · · ·) hx hd hs he
  refine ⟨u, hserved, leaves_bind.mpr (.inr ⟨_, _, gives_lift.mpr ⟨hbind, rfl⟩, ?_⟩)⟩
  refine leaves_bind.mpr (.inr ⟨_, _, gives_lift.mpr ⟨visits_eq ho hlt, rfl⟩, ?_⟩)
  exact leaves_bind.mpr (.inl hleaves)

end

end Composite
end BloqCircuit
