import BloqCircuit.Proofs.Flow
/-! Kinds of wires. Along the wires between splits and joins the kind stays what it was at the input,
unless a type that is taken apart or put together is classical: its bits are qubits. -/
namespace BloqCircuit
variable {α κ : Type} [Angle α]

/-- Both ends of a wire are of this kind. -/
def Edge.HasKind {β : Type} (e : Edge β) (quantum : Bool) : Prop :=
  e.wire.left.reg.dtype.isQuantum = quantum ∧ e.wire.right.reg.dtype.isQuantum = quantum

namespace Composite
variable {c : Composite (Bloq α κ)} {e f : Edge (Bloq α κ)} {path : List (Edge (Bloq α κ))}
  {b : Bloq α κ} {t : DataType} {v : Nat}

/-! ## Routes -/

/-- On the node a bundle of this type is taken apart or put together. -/
def Regroups (c : Composite (Bloq α κ)) (v : Nat) (t : DataType) : Prop :=
  c.bloqAt v = some (.split t) ∨ c.bloqAt v = some (.join t)

/-- A wire and those that follow it, each behind a split or a join. The last one leads to the output
boundary or into a bloq that frees it. -/
inductive Route (c : Composite (Bloq α κ)) : Edge (Bloq α κ) → List (Edge (Bloq α κ)) → Prop
  | output {e : Edge (Bloq α κ)} : e ∈ c.edges → e.target = c.instances.length + 1 → Route c e []
  | freed {e : Edge (Bloq α κ)} {t : DataType} : e ∈ c.edges → c.bloqAt e.target = some (.free t) →
    Route c e []
  | next {e f : Edge (Bloq α κ)} {path : List (Edge (Bloq α κ))} {t : DataType} : e ∈ c.edges →
    c.Regroups e.target t → f.source = e.target → Route c f path → Route c e (f :: path)

omit [Angle α] in
theorem Route.mem (h : c.Route e path) : e ∈ c.edges := by
  cases h with
  | output he => exact he
  | freed he => exact he
  | next he => exact he

omit [Angle α] in
theorem Regroups.unique {u : DataType} (h : c.Regroups v t) (h' : c.Regroups v u) : t = u := by
  rcases h with h | h <;> rcases h' with h' | h' <;> cases h.symm.trans h' <;> rfl

/-! ## Kinds -/

theorem Linear.hasKind (h : c.Linear) (he : e ∈ c.edges) :
    e.HasKind e.wire.left.reg.dtype.isQuantum :=
  ⟨rfl, (h.agree e he).2.symm⟩

theorem Linear.reg_stop (h : c.Linear) (he : e ∈ c.edges) :
    e.wire.right.reg ∈ c.regsIn e.target := by
  have hstop : e.stop ∈ portsOn e.target (c.regsIn e.target) :=
    (h.threaded.stops _).mp (List.mem_map_of_mem he)
  exact (mem_portsOn.mp hstop).2.1

theorem Linear.reg_start (h : c.Linear) (he : e ∈ c.edges) :
    e.wire.left.reg ∈ c.regsOut e.source := by
  have hstart : e.start ∈ portsOn e.source (c.regsOut e.source) :=
    (h.threaded.starts _).mp (List.mem_map_of_mem he)
  exact (mem_portsOn.mp hstart).2.1

/-- A split or a join has one register on each side. They are of one kind exactly if its type is quantum,
as the bits of any bundle are. -/
theorem Regroups.exists_registers (h : c.Regroups v t) : ∃ l r, c.regsIn v = [l] ∧ c.regsOut v = [r] ∧
    (r.dtype.isQuantum = l.dtype.isQuantum ↔ t.isQuantum = true) := by
  rcases h with hb | hb
  · exact ⟨_, _, (regsIn_eq hb).trans (Bloq.lefts_split t), (regsOut_eq hb).trans (Bloq.rights_split t),
      eq_comm⟩
  · exact ⟨_, _, (regsIn_eq hb).trans (Bloq.lefts_join t), (regsOut_eq hb).trans (Bloq.rights_join t),
      Iff.rfl⟩

/-- A split or a join hands its kind on exactly if its type is quantum. -/
theorem Linear.hasKind_next_iff (h : c.Linear) (he : e ∈ c.edges) (hf : f ∈ c.edges)
    (ht : c.Regroups e.target t) (hs : f.source = e.target) :
    f.HasKind e.wire.left.reg.dtype.isQuantum ↔ t.isQuantum = true := by
  obtain ⟨l, r, hl, hr, hkind⟩ := ht.exists_registers
  have hin := h.reg_stop he
  have hout := h.reg_start hf
  rw [hl, List.mem_singleton] at hin
  rw [hs, hr, List.mem_singleton] at hout
  rw [Edge.HasKind, ← (h.agree f hf).2, (h.agree e he).2, and_self, hin, hout]
  exact hkind

/-- The kind at the start of a route is kept exactly if all bundles on the way are quantum. -/
theorem Linear.hasKind_route_iff (h : c.Linear) (hr : c.Route e path) :
    (∀ f ∈ e :: path, f.HasKind e.wire.left.reg.dtype.isQuantum) ↔
      ∀ f ∈ path, ∀ t, c.Regroups f.source t → t.isQuantum = true := by
  induction hr with
  | output he => simp [h.hasKind he]
  | freed he => simp [h.hasKind he]
  | @next e f path t he ht hs hr ih =>
    have hnext := h.hasKind_next_iff he hr.mem ht hs
    have hnode : c.Regroups f.source t := hs ▸ ht
    simp only [List.forall_mem_cons] at ih ⊢
    constructor
    · rintro ⟨-, hf, hpath⟩
      rw [hf.1] at ih
      refine ⟨?_, ih.mp ⟨hf, hpath⟩⟩
      intro u hu
      rw [← hnode.unique hu]
      exact hnext.mp hf
    · rintro ⟨hfirst, hpath⟩
      have hf := hnext.mpr (hfirst t hnode)
      rw [hf.1] at ih
      exact ⟨h.hasKind he, ih.mpr hpath⟩

end Composite

/-! ## Runs that only regroup -/

namespace Builder

/-- A builder after calls that add registers, take bundles apart, put them together or free them, and all
succeeded. A list of bits is joined as the array of it. -/
inductive Regrouped : Builder (Bloq α κ) → Prop
  | new : Regrouped {}
  | start {signature isOpen out b} : Gives (Builder.start signature isOpen) {} out b → Regrouped b
  | addRegister {b reg g b'} : Regrouped b → Gives (addRegister reg) b g b' → Regrouped b'
  | split {b s g b'} : Regrouped b → Gives (split s) b g b' → Regrouped b'
  | join {b bits dtype? s b'} : Regrouped b → Gives (join bits dtype?) b s b' → Regrouped b'
  | free {b s b'} : Regrouped b → Gives (free s) b () b' → Regrouped b'

variable {b b' : Builder (Bloq α κ)}

theorem Regrouped.reached (h : b.Regrouped) : b.Reached := by
  induction h with
  | new => exact .new
  | start hs => exact .start hs
  | addRegister _ hc ih => exact .call ih (.addRegister hc)
  | split _ hc ih => exact .call ih (.split hc)
  | join _ hc ih => exact .call ih (.join hc)
  | free _ hc ih => exact .call ih (.free hc)

/-! ## One bundle taken apart -/

/-- The register of a bundle that comes in. -/
def inputOf (t : DataType) : Register := ⟨"c", t, [], .left⟩

/-- A bundle comes in and is taken apart, and its bits go out. -/
def takenApart (t : DataType) : BuildM (Bloq α κ) (Soquets (Bloq α κ)) := do
  let _ ← addRegister (inputOf t)
  let bits ← split ⟨.leftDangle, inputOf t, []⟩
  return ⟨[("q", bits)]⟩

theorem takenApart_gives {t : DataType} {final : Soquets (Bloq α κ)}
    (h : Gives (takenApart t) {} final b) :
    b.Regrouped ∧ b.instances.toList = [⟨0, .split t⟩] := by
  obtain ⟨_, b₁, hreg, h⟩ := gives_bind.mp h
  obtain ⟨bits, b₂, hsplit, h⟩ := gives_bind.mp h
  obtain ⟨-, rfl⟩ := gives_pure.mp h
  refine ⟨.split (.addRegister .new hreg) hsplit, ?_⟩
  obtain ⟨-, -, hreg⟩ := addRegister_gives.mp hreg
  rw [if_pos (by rfl)] at hreg
  obtain ⟨-, rfl⟩ := hreg
  obtain ⟨out, hadd⟩ := split_adds hsplit
  obtain ⟨b₃, hconsume, -, rfl⟩ := add_gives.mp hadd
  obtain ⟨ws, -, -, rfl⟩ := consumeExactly_gives hconsume
  rw [instances_place_drawAll]
  rfl

end Builder

/-- A route leads through the split of the only bundle. -/
theorem Composite.Linear.exists_route {c : Composite (Bloq α κ)} (h : c.Linear) {t : DataType}
    (ht : t.bitsize = 1) (hc : c.instances = [⟨0, .split t⟩]) :
    ∃ e f : Edge (Bloq α κ), c.Route e [f] ∧ c.Regroups f.source t ∧ e.source = 0 := by
  have hnode : c.bloqAt 1 = some (.split t) := by
    rw [bloqAt, hc]
    rfl
  have hin : (⟨1, [], bundleOn .left t⟩ : Port) ∈ portsOn 1 (c.regsIn 1) := by
    rw [regsIn_eq hnode, Bloq.lefts_split]
    exact mem_portsOn.mpr ⟨rfl, List.mem_singleton_self _, List.mem_singleton_self _⟩
  have hindex : [0] ∈ (bitsOn .right t).indices := by
    show [0] ∈ shapeIndices [t.bitsize]
    rw [ht]
    exact List.mem_singleton_self _
  have hout : (⟨1, [0], bitsOn .right t⟩ : Port) ∈ portsOn 1 (c.regsOut 1) := by
    rw [regsOut_eq hnode, Bloq.rights_split]
    exact mem_portsOn.mpr ⟨rfl, List.mem_singleton_self _, hindex⟩
  obtain ⟨e, he, hstop⟩ := List.mem_map.mp ((h.threaded.stops _).mpr hin)
  obtain ⟨f, hf, hstart⟩ := List.mem_map.mp ((h.threaded.starts _).mpr hout)
  have htarget : e.target = 1 := congrArg Port.node hstop
  have hsource : f.source = 1 := congrArg Port.node hstart
  have hfirst : e.source = 0 := by
    have hforward := h.forward e he
    omega
  have hlast : f.target = c.instances.length + 1 := by
    have hforward := h.forward f hf
    have hle := h.threaded.target_le hf
    rw [hc, List.length_singleton] at hle ⊢
    omega
  refine ⟨e, f, ?_, .inl (hsource ▸ hnode), hfirst⟩
  exact .next he (.inl (htarget ▸ hnode)) (hsource.trans htarget.symm) (.output hf hlast)

namespace Builder

/-- If a bundle of one bit can be taken apart in this way, then a route leads through the split. -/
theorem exists_route_takenApart {t : DataType} (ht : t.bitsize = 1)
    (hrun : closesWith (takenApart t : BuildM (Bloq α κ) (Soquets (Bloq α κ))) (fun b =>
      decide ((b.registers.map (·.name)) = ["c", "q"])) = true) :
    ∃ (b b' : Builder (Bloq α κ)) (final : Soquets (Bloq α κ)) (c : Composite (Bloq α κ))
      (e f : Edge (Bloq α κ)), b.Regrouped ∧ Gives (finalize final) b c b' ∧ c.Route e [f] ∧
      c.Regroups f.source t ∧ e.source = 0 := by
  obtain ⟨final, b, b', hm, hclose, hempty, hp⟩ := exists_of_closesWith hrun
  obtain ⟨hregrouped, hplaced⟩ := takenApart_gives hm
  have hvalid : (⟨(b.withImplied final).registers⟩ : Signature).Valid := by
    apply Signature.valid_of_nodup
    rw [of_decide_eq_true hp]
    decide
  obtain ⟨c, hfinal, -, hc⟩ :=
    hregrouped.reached.sound.finalize_gives_of_consume hvalid hclose hempty
  have hkept : (b.withImplied final).instances = b.instances := by
    unfold withImplied
    split <;> rfl
  rw [hkept, hplaced] at hc
  obtain ⟨e, f, hroute⟩ := (hregrouped.reached.linear hfinal).exists_route ht hc
  exact ⟨b, b', final, c, e, f, hregrouped, hfinal, hroute⟩

/-! ## Kinds along the routes of a run -/

/-- Along a route, every soquet is quantum exactly if the first one is, unless a classical bundle is taken
apart or put together on the way. -/
theorem Regrouped.kinds_kept_iff (h : b.Regrouped) {final : Soquets (Bloq α κ)}
    {c : Composite (Bloq α κ)} (hf : Gives (finalize final) b c b') {e : Edge (Bloq α κ)}
    {path : List (Edge (Bloq α κ))} (hr : c.Route e path) :
    (∀ f ∈ e :: path, f.HasKind e.wire.left.reg.dtype.isQuantum) ↔
      ∀ f ∈ path, ∀ t, c.Regroups f.source t → t.isQuantum = true :=
  (h.reached.linear hf).hasKind_route_iff hr

/-- A qubit stays one. -/
theorem Regrouped.kinds_kept_qubit :
    ∃ (b b' : Builder (Bloq Float Complex)) (final : Soquets (Bloq Float Complex))
      (c : Composite (Bloq Float Complex)) (e f : Edge (Bloq Float Complex)),
      b.Regrouped ∧ Gives (finalize final) b c b' ∧ c.Route e [f] ∧
      ∀ g ∈ [e, f], g.HasKind e.wire.left.reg.dtype.isQuantum := by
  have hrun : closesWith (takenApart .qbit : BuildM (Bloq Float Complex) (Soquets (Bloq Float Complex)))
    (fun b => decide ((b.registers.map (·.name)) = ["c", "q"])) = true := by decide +kernel
  obtain ⟨b, b', final, c, e, f, hb, hfinal, hroute, hnode, -⟩ := exists_route_takenApart rfl hrun
  refine ⟨b, b', final, c, e, f, hb, hfinal, hroute, (kinds_kept_iff hb hfinal hroute).mpr ?_⟩
  intro g hg t ht
  obtain rfl := List.mem_singleton.mp hg
  rw [← hnode.unique ht]
  rfl

/-- A classical bit is a qubit once it was taken apart. -/
theorem Regrouped.kinds_changed :
    ¬ ∀ (b b' : Builder (Bloq Float Complex)) (final : Soquets (Bloq Float Complex))
      (c : Composite (Bloq Float Complex)) (e : Edge (Bloq Float Complex))
      (path : List (Edge (Bloq Float Complex))), b.Regrouped → Gives (finalize final) b c b' →
      c.Route e path → e.source = 0 → ∀ f ∈ e :: path, f.HasKind e.wire.left.reg.dtype.isQuantum := by
  intro hall
  have hrun : closesWith (takenApart .cbit : BuildM (Bloq Float Complex) (Soquets (Bloq Float Complex)))
    (fun b => decide ((b.registers.map (·.name)) = ["c", "q"])) = true := by decide +kernel
  obtain ⟨b, b', final, c, e, f, hb, hfinal, hroute, hnode, hfirst⟩ := exists_route_takenApart rfl hrun
  have hkinds := hall b b' final c e [f] hb hfinal hroute hfirst
  have hquantum := ((hb.reached.linear hfinal).hasKind_route_iff hroute).mp hkinds
  cases hquantum f (List.mem_singleton_self f) _ hnode

end Builder
end BloqCircuit
