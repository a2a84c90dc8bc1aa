import BloqCircuit.Proofs.Balance
import BloqCircuit.Proofs.Naming
import BloqCircuit.Proofs.Renamed.Decomposition
import BloqCircuit.Proofs.RoundTrip.Circuits
import BloqCircuit.Scalar.Double
/-! Gates that are seen as bloqs and wrapped as gates again. What they stand for changes by the names
of ancillas only. -/
namespace BloqCircuit

/-! ## Gates that are no bloqs -/

section
variable {α κ : Type} [Angle α]

/-- The operations of a body on the qubits of its gate and its ancillas. -/
def GateBody.on (body : GateBody (Gate α κ)) (available : List Qubit) :
    Except Error (List (Operation (Gate α κ))) := do
  let ops ← body.steps.mapM fun s => do Operation.make s.1 (← qubitsAt available.toArray s.2)
  match body.fault with
  | some e => throw e
  | none => return ops

/-- What a body gives depends on the pool by the names of its ancillas only, which can be freed. -/
theorem GateBody.run_eq (body : GateBody (Gate α κ)) (qubits : List Qubit) (p : CleanPool) :
    ((body.run qubits).run p).1 = body.on (qubits ++ CleanPool.fresh p.next body.ancillas) := by
  obtain ⟨ancillas, hancillas⟩ : ∃ qs, qs = CleanPool.fresh p.next body.ancillas := ⟨_, rfl⟩
  obtain ⟨p₁, hp₁⟩ : ∃ p₁, p₁ = (p.alloc body.ancillas).2 := ⟨_, rfl⟩
  have halloc : (liftM (Allocator.alloc body.ancillas : StateM CleanPool (List Qubit)) :
      AllocM CleanPool (List Qubit)).run p = (.ok ancillas, p₁) := by
    rw [hancillas, hp₁]
    rfl
  have hfree : (Allocator.free ancillas : AllocM CleanPool Unit).run p₁ =
      (.ok (), { p₁ with inUse := p₁.inUse.eraseMany ancillas }) := by
    refine CleanPool.free_eq fun q hq => ?_
    rw [hp₁]
    exact mem_insertMany.mpr (.inr (hancillas ▸ hq))
  have hlift : ∀ available : Array Qubit, (fun s : Gate α κ × List Nat => (do
      Operation.make s.1 (← qubitsAt available s.2) : AllocM CleanPool (Operation (Gate α κ)))) =
        fun s => liftM (do Operation.make s.1 (← qubitsAt available s.2) : Except Error _) := by
    intro available
    funext s
    cases qubitsAt available s.2 <;> rfl
  rw [GateBody.run, run_bind, halloc, ← hancillas, GateBody.on]
  dsimp only
  rw [run_bind, hlift, run_mapM_lift]
  cases body.steps.mapM fun s => do
      Operation.make s.1 (← qubitsAt (qubits ++ ancillas).toArray s.2) with
  | error e => rfl
  | ok ops =>
    cases body.fault with
    | some e => rfl
    | none =>
      cases body.frees with
      | false => rfl
      | true =>
        dsimp only
        rw [if_pos rfl, run_bind, hfree]
        rfl

theorem Agree.map {τ υ τ' υ' : Type} {g : τ → υ} {g' : τ' → υ'} {k : τ → τ'} {k' : υ → υ'}
    {m : Except Error τ} {m' : Except Error υ} (h : Agree g m m') (hk : ∀ x, k' (g x) = g' (k x)) :
    Agree g' (m.map k) (m'.map k') := by
  cases h with
  | error he => exact .error he
  | ok x =>
    show Agree g' (.ok (k x)) (.ok (k' (g x)))
    rw [hk]
    exact .ok (k x)

/-- What agrees with a success is one. -/
theorem Agree.exists_of_ok {τ υ : Type} {g : τ → υ} {m : Except Error τ} {y : υ}
    (h : Agree g m (.ok y)) : ∃ x, m = .ok x ∧ g x = y := by
  cases h with
  | ok x => exact ⟨x, rfl, rfl⟩

theorem GateBody.agree_on {f : Qubit ↪ Qubit} (body : GateBody (Gate α κ)) (available : List Qubit) :
    Agree (List.map (Operation.map f)) (body.on available) (body.on (available.map f)) := by
  have hsteps : Agree (List.map (Operation.map f))
      (body.steps.mapM fun s => do Operation.make s.1 (← qubitsAt available.toArray s.2))
      (body.steps.mapM fun s => do Operation.make s.1 (← qubitsAt (available.map f).toArray s.2)) := by
    rw [← List.map_toArray]
    exact .mapM fun s _ => (agree_qubitsAt _ s.2).bind fun qubits => Operation.agree_make s.1 qubits
  refine hsteps.bind fun ops => ?_
  cases body.fault with
  | some e => exact .error rfl
  | none => exact .ok ops

/-- The operations of a body have as many different qubits as their gates take, all of them given. -/
theorem GateBody.mem_on {body : GateBody (Gate α κ)} {available : List Qubit}
    {ops : List (Operation (Gate α κ))} (h : body.on available = .ok ops) {op : Operation (Gate α κ)}
    (hop : op ∈ ops) :
    Operation.make op.gate op.qubits = .ok op ∧ ∀ q ∈ op.qubits, q ∈ available := by
  obtain ⟨ops', hsteps, hrest⟩ := bind_eq_ok.mp h
  have hops : ops' = ops := by
    cases hfault : body.fault with
    | some e =>
      rw [hfault] at hrest
      cases hrest
    | none =>
      rw [hfault] at hrest
      exact Except.ok.inj hrest
  subst hops
  obtain ⟨s, -, hmake⟩ := exists_of_mapM_eq_ok hsteps hop
  obtain ⟨qubits, hqubits, hmake⟩ := bind_eq_ok.mp hmake
  obtain ⟨hlen, hn, rfl⟩ := Operation.make_eq_ok.mp hmake
  refine ⟨Operation.make_eq_ok.mpr ⟨hlen, hn, rfl⟩, fun q hq => ?_⟩
  obtain ⟨k, -, hk⟩ := exists_of_mapM_eq_ok hqubits hq
  cases hget : available.toArray[k]? with
  | none =>
    rw [hget] at hk
    cases hk
  | some q' =>
    rw [hget] at hk
    cases hk
    rw [List.getElem?_toArray] at hget
    exact List.mem_of_getElem? hget

private theorem made {g : Gate α κ} {qubits all : List Qubit} {op : Operation (Gate α κ)}
    (h : Operation.make g qubits = .ok op) (hq : ∀ q ∈ qubits, q ∈ all) :
    Operation.make op.gate op.qubits = .ok op ∧ ∀ q ∈ op.qubits, q ∈ all := by
  obtain ⟨hlen, hn, rfl⟩ := Operation.make_eq_ok.mp h
  exact ⟨Operation.make_eq_ok.mpr ⟨hlen, hn, rfl⟩, hq⟩

private theorem mem_three {f g h : Gate α κ} {xs ys zs all : List Qubit}
    {ops : List (Operation (Gate α κ))}
    (hops : (do return some [← Operation.make f xs, ← Operation.make g ys, ← Operation.make h zs] :
      Except Error (Option (List (Operation (Gate α κ))))) = .ok (some ops))
    {op : Operation (Gate α κ)} (hop : op ∈ ops) (hx : ∀ q ∈ xs, q ∈ all) (hy : ∀ q ∈ ys, q ∈ all)
    (hz : ∀ q ∈ zs, q ∈ all) :
    Operation.make op.gate op.qubits = .ok op ∧ ∀ q ∈ op.qubits, q ∈ all := by
  obtain ⟨x, hxs, hops⟩ := bind_eq_ok.mp hops
  obtain ⟨y, hys, hops⟩ := bind_eq_ok.mp hops
  obtain ⟨z, hzs, hops⟩ := bind_eq_ok.mp hops
  cases hops
  simp only [List.mem_cons, List.not_mem_nil, or_false] at hop
  rcases hop with rfl | rfl | rfl
  · exact made hxs hx
  · exact made hys hy
  · exact made hzs hz

theorem StandardGate.mem_decompose {g : StandardGate α} {qubits : List Qubit}
    {ops : List (Operation (Gate α κ))} (h : g.decompose qubits = .ok (some ops))
    {op : Operation (Gate α κ)} (hop : op ∈ ops) :
    Operation.make op.gate op.qubits = .ok op ∧ ∀ q ∈ op.qubits, q ∈ qubits := by
  unfold StandardGate.decompose at h
  split at h
  · exact mem_three h hop (by simp) (by simp) (by simp)
  · exact mem_three h hop (by simp) (by simp) (by simp)
  · cases h

namespace Gate
variable {g : Gate α κ} {qubits : List Qubit} {p p₁ : CleanPool}

/-- A gate that is no bloq stands for the renamed operations if its qubits and ancillas are renamed. -/
theorem agree_decompose (p p' : CleanPool) (qubits : List Qubit) (hg : ∀ b, g ≠ .ofBloq b)
    {f : Qubit ↪ Qubit}
    (h : (CleanPool.fresh p.next g.ancillas).map f = CleanPool.fresh p'.next g.ancillas) :
    Agree (Option.map (List.map (Operation.map f))) ((g.decompose qubits).run p).1
      ((g.decompose (qubits.map f)).run p').1 := by
  cases g with
  | standard g =>
    rw [decompose, decompose, run_lift, run_lift]
    exact g.agree_decompose qubits
  | ofBloq b => exact absurd rfl (hg b)
  | declared d =>
    rw [ancillas] at h
    rw [decompose, decompose]
    cases hbody : d.body with
    | none => exact .ok none
    | some body =>
      rw [hbody, Option.elim_some] at h
      dsimp only
      rw [run_map, run_map, body.run_eq, body.run_eq, ← h, ← List.map_append]
      exact (body.agree_on _).map fun ops => rfl
  | nest levels =>
    have hrun : ∀ (inner : Gate α κ) (qs : List Qubit) (p : CleanPool),
        ((do return some [← Operation.make inner qs] :
          AllocM CleanPool (Option (List (Operation (Gate α κ))))).run p).1 =
            (Operation.make inner qs).map fun op => some [op] := by
      intro inner qs p
      rw [run_bind, run_lift]
      cases Operation.make inner qs <;> rfl
    rw [decompose, decompose, hrun, hrun]
    exact (Operation.agree_make _ qubits).map fun op => rfl

/-- The operations that a gate stands for which is no bloq are on its qubits and ancillas. -/
theorem mem_decompose (hg : ∀ b, g ≠ .ofBloq b) {ops : List (Operation (Gate α κ))}
    (h : Gives (g.decompose qubits) p (some ops) p₁) {op : Operation (Gate α κ)} (hop : op ∈ ops) :
    Operation.make op.gate op.qubits = .ok op ∧
      ∀ q ∈ op.qubits, q ∈ qubits ++ CleanPool.fresh p.next g.ancillas := by
  cases g with
  | standard g =>
    rw [decompose] at h
    obtain ⟨hmake, hmem⟩ := StandardGate.mem_decompose (gives_lift.mp h).1 hop
    exact ⟨hmake, fun q hq => List.mem_append_left _ (hmem q hq)⟩
  | ofBloq b => exact absurd rfl (hg b)
  | declared d =>
    rw [decompose] at h
    rw [ancillas]
    cases hbody : d.body with
    | none =>
      rw [hbody] at h
      cases h
    | some body =>
      rw [hbody] at h
      have h := congrArg Prod.fst h
      rw [run_map, body.run_eq] at h
      cases hon : body.on (qubits ++ CleanPool.fresh p.next body.ancillas) with
      | error e =>
        rw [hon] at h
        cases h
      | ok ops' =>
        rw [hon] at h
        cases h
        exact GateBody.mem_on hon hop
  | nest levels =>
    rw [decompose] at h
    obtain ⟨op', p₂, hmake, h⟩ := gives_bind.mp h
    obtain ⟨hops, -⟩ := gives_pure.mp h
    cases hops
    rw [List.mem_singleton.mp hop]
    exact made (gives_lift.mp hmake).1 fun q hq => List.mem_append_left _ hq

end Gate

/-! ## The gate as a bloq -/

theorem Composite.Realizes.map {c : Composite (Bloq α κ)} {s : Signature} {L : Labels}
    {ops : List (Operation (Gate α κ))} (h : c.Realizes s L ops) (f : Qubit ↪ Qubit) :
    c.Realizes s (L.map f) (ops.map (Operation.map f)) where
  linear := h.linear
  signature := h.signature
  regular := h.regular
  flow := h.flow.map f
  operations := by
    rw [← h.operations, List.map_filterMap]
    exact List.filterMap_congr fun v _ => operationAt?_map f v
  distinct := by
    have hborn : (List.range c.size).flatMap (c.bornAt (L.map f)) =
        ((List.range c.size).flatMap (c.bornAt L)).map f := by
      rw [List.map_flatMap]
      exact List.flatMap_congr fun v _ => bornAt_map f v
    rw [Distinct, Labels.on_map, hborn, ← List.map_append]
    exact h.distinct.map f.injective

/-- Different qubits can be renamed to any others. -/
theorem exists_embedding {olds news : List Qubit} (ho : olds.Nodup) (hn : news.Nodup)
    (hlen : olds.length = news.length) : ∃ f : Qubit ↪ Qubit, olds.map f = news := by
  have hold : ([] ++ olds).Nodup := ho
  obtain ⟨f, hf, -, hmap⟩ := exists_renaming hold hn hlen
  exact ⟨⟨f, hf⟩, hmap⟩

/-- The names of a gate's qubits are different names. -/
theorem Quregs.exists_names (n : Nat) : ∃ names : List Qubit,
    (named [gateRegister n]).merge [gateRegister n] = .ok names ∧ names.Nodup ∧ names.length = n ∧
      ∀ q ∈ names, ∃ name, q = .named name := by
  have hname : ([gateRegister n].map (·.name)).Nodup := List.nodup_singleton _
  have hmerge := merge_named hname
  refine ⟨_, hmerge, nodup_named hname fun r hr => ?_, ?_, fun q hq => named_of_mem hq⟩
  · rw [List.mem_singleton.mp hr]
    exact notMem_name_gateRegister n
  · obtain ⟨l, hl, -, hon⟩ := Labels.exists_of_merge 0 hmerge
    rw [← hon, Labels.length_on hl]
    exact totalBits_gateRegister n

namespace Gate
variable {g : Gate α κ} {qubits : List Qubit} {p p₁ : CleanPool}

/-- The names of a gate's qubits, and the ancillas of a new pool, become any different qubits and the next
ancillas of their pool. -/
theorem exists_naming (hn : qubits.Nodup) (hlen : qubits.length = g.arity)
    (hp : p.Spares qubits g.ancillas) :
    ∃ (names : List Qubit) (f : Qubit ↪ Qubit),
      (Quregs.named [gateRegister g.arity]).merge [gateRegister g.arity] = .ok names ∧
      names.Nodup ∧ names.map f = qubits ∧
      (CleanPool.fresh 0 g.ancillas).map f = CleanPool.fresh p.next g.ancillas := by
  obtain ⟨names, hmerge, hnodup, hlength, hnamed⟩ := Quregs.exists_names g.arity
  rw [← hlen] at hlength
  have hapart : ∀ q ∈ names, q ∉ CleanPool.fresh 0 g.ancillas := by
    intro q hq
    obtain ⟨name, rfl⟩ := hnamed q hq
    exact CleanPool.not_mem_fresh (by simp) _ _
  have hspares : CleanPool.Spares {} names g.ancillas := ⟨hp.small, hapart⟩
  obtain ⟨f, hmap⟩ := exists_embedding (hspares.nodup hnodup) (hp.nodup hn) (by
    rw [List.length_append, List.length_append, hlength, CleanPool.length_fresh,
      CleanPool.length_fresh])
  rw [List.map_append] at hmap
  obtain ⟨hqubits, hancillas⟩ := List.append_inj hmap (by rw [List.length_map, hlength])
  exact ⟨names, f, hmerge, hnodup, hqubits, hancillas⟩

/-- Operations on the names of a gate's qubits and on others are imported on the register of the gate,
and others alone appear. -/
private theorem importBetween_named {n : Nat} {names : List Qubit}
    (hmerge : (Quregs.named [gateRegister n]).merge [gateRegister n] = .ok names)
    (hnodup : names.Nodup) {ops : List (Operation (Gate α κ))}
    (hops : ∀ op ∈ ops, op.gate.Passing ∧ Operation.make op.gate op.qubits = .ok op) :
    ∃ (c : Composite (Bloq α κ)) (L : Labels),
      (⟨ops⟩ : Circuit (Gate α κ)).importBetween ⟨[gateRegister n]⟩ (Quregs.named [gateRegister n])
        (Quregs.named [gateRegister n]) = .ok c ∧
      c.Realizes ⟨[gateRegister n]⟩ L ops ∧ L.on 0 [gateRegister n] = names ∧
      L.on (c.instances.length + 1) [gateRegister n] = names ∧
      ∀ q ∈ (List.range c.size).flatMap (c.bornAt L), q ∉ names ∧ q ∈ ops.flatMap (·.qubits) := by
  obtain ⟨r, hr⟩ : ∃ r, r = gateRegister n := ⟨_, rfl⟩
  rw [← hr] at hmerge ⊢
  have hleft : (⟨[r]⟩ : Signature).lefts = [r] := by rw [hr]; rfl
  have hright : (⟨[r]⟩ : Signature).rights = [r] := by rw [hr]; rfl
  have hname : ([r].map (·.name)).Nodup := List.nodup_singleton _
  obtain ⟨l, hl, hin, hon⟩ := Labels.exists_of_merge 0 hmerge
  have hquantum : ∀ s ∈ [r], s.Quantum := by
    intro s hs
    rw [List.mem_singleton.mp hs, hr]
    exact quantum_gateRegister _
  have hlively := lively_of_passing hops (l.on 0 (⟨[r]⟩ : Signature).rights)
    (l.on 0 (⟨[r]⟩ : Signature).lefts)
  have hinputs : ∀ s ∈ (⟨[r]⟩ : Signature).lefts,
      s.arrayIn (Quregs.named [r]) = .ok (l.array 0 s) := by rwa [hleft]
  have houtputs : ∀ s ∈ (⟨[r]⟩ : Signature).rights,
      s.arrayIn (Quregs.named [r]) = .ok (l.array 0 s) := by rwa [hright]
  obtain ⟨c, L, himport, hrealizes, hinput, houtput, hwithin⟩ := Circuit.importBetween_realizes
    (Signature.valid_of_nodup hname) hquantum (hleft.symm ▸ hl) hinputs (by rwa [hleft, hon])
    (hright.symm ▸ hl) houtputs (by rwa [hright, hon]) hlively
  rw [hleft, hright, hon] at hwithin
  have hlefts : L.on 0 [r] = names := by
    rw [← hon]
    exact Labels.on_congr fun p hp => hinput p (mem_portsOn.mp hp).1
  have hrights : L.on (c.instances.length + 1) [r] = names := by
    rw [← hon, Labels.on_singleton, Labels.on_singleton]
    exact congrArg r.flat (funext (houtput r))
  have hdistinct := hrealizes.distinct
  rw [Composite.Distinct, hrealizes.signature, hleft, hlefts] at hdistinct
  refine ⟨c, L, himport, hrealizes, hlefts, hrights, fun q hq => ?_⟩
  have hnot : q ∉ names := fun hm => (List.nodup_append.mp hdistinct).2.2 q hm q hq rfl
  refine ⟨hnot, ?_⟩
  rcases hwithin q (List.mem_append_right _ hq) with hm | hm | hm
  · exact absurd hm hnot
  · exact hm
  · exact absurd hm hnot

/-- What a gate stands for that is no bloq, the bloq of the gate does on any qubits. -/
theorem decomposition_realizes (hg : ∀ b, g ≠ .ofBloq b) (hn : qubits.Nodup)
    (hlen : qubits.length = g.arity) (hp : p.Spares qubits g.ancillas)
    {ops : List (Operation (Gate α κ))} (h : Gives (g.decompose qubits) p (some ops) p₁)
    (hops : ∀ op ∈ ops, op.gate.Steady) :
    ∃ (c : Composite (Bloq α κ)) (L : Labels), (Bloq.ofGate g).decomposition = .ok c ∧
      c.Realizes ⟨[gateRegister g.arity]⟩ L ops ∧ L.on 0 [gateRegister g.arity] = qubits ∧
      L.on (c.instances.length + 1) [gateRegister g.arity] = qubits ∧
      ∀ q ∈ (List.range c.size).flatMap (c.bornAt L), q ∈ CleanPool.fresh p.next g.ancillas := by
  obtain ⟨names, f, hmerge, hnodup, hqubits, hancillas⟩ := exists_naming hn hlen hp
  have hagree := agree_decompose {} p names hg hancillas
  rw [hqubits, show ((g.decompose qubits).run p).1 = .ok (some ops) from congrArg Prod.fst h] at hagree
  obtain ⟨_, hops₀, hmap⟩ := hagree.exists_of_ok
  obtain ⟨ops₀, rfl, rfl⟩ := Option.map_eq_some_iff.mp hmap
  have hmade : ∀ op ∈ ops₀, Operation.make op.gate op.qubits = .ok op ∧
      ∀ q ∈ op.qubits, q ∈ names ++ CleanPool.fresh 0 g.ancillas := fun op hop =>
    mem_decompose hg (p := {}) (Prod.ext hops₀ rfl) hop
  obtain ⟨c, L, himport, hrealizes, hlefts, hrights, hborn⟩ := importBetween_named hmerge hnodup
    fun op hop => ⟨(hops _ (List.mem_map_of_mem hop)).passing, (hmade op hop).1⟩
  refine ⟨c, L.map f, ?_, hrealizes.map f, ?_, ?_, fun q hq => ?_⟩
  · rw [Bloq.decomposition]
    exact bind_eq_ok.mpr ⟨names, hmerge, bind_eq_ok.mpr ⟨some ops₀, hops₀, himport⟩⟩
  · rw [Labels.on_map, hlefts, hqubits]
  · rw [Labels.on_map, hrights, hqubits]
  · -- what appears is renamed from the ancillas of the gate
    obtain ⟨v, hv, hq⟩ := List.mem_flatMap.mp hq
    rw [Composite.bornAt_map] at hq
    obtain ⟨q₀, hq₀, rfl⟩ := List.mem_map.mp hq
    obtain ⟨hnot, hm⟩ := hborn q₀ (List.mem_flatMap.mpr ⟨v, hv, hq₀⟩)
    obtain ⟨op, hop, hm⟩ := List.mem_flatMap.mp hm
    rw [← hancillas]
    exact List.mem_map_of_mem ((List.mem_append.mp ((hmade op hop).2 q₀ hm)).resolve_left hnot)

/-- The bloq of a gate without a decomposition has none. -/
theorem decomposition_eq_error (hg : ∀ b, g ≠ .ofBloq b) (hn : qubits.Nodup)
    (hlen : qubits.length = g.arity) (hp : p.Spares qubits g.ancillas)
    (h : Gives (g.decompose qubits) p none p₁) :
    (Bloq.ofGate g).decomposition = .error (.decomposeNotImplemented g.text) := by
  obtain ⟨names, f, hmerge, -, hqubits, hancillas⟩ := exists_naming hn hlen hp
  have hagree := agree_decompose {} p names hg hancillas
  rw [hqubits, show ((g.decompose qubits).run p).1 = .ok none from congrArg Prod.fst h] at hagree
  obtain ⟨_, hnone, hmap⟩ := hagree.exists_of_ok
  obtain rfl := Option.map_eq_none_iff.mp hmap
  rw [Bloq.decomposition]
  simp only [hmerge, hnone, bind, Except.bind]
  rfl

end Gate

/-! ## The bloq as a gate -/

/-- A bloq that says that it has no decomposition has none as a gate. -/
theorem Wrapped.decompose_gives_none {β γ : Type} [BloqKind β] [GateKind γ] [CircuitForm β γ]
    {s : Signature} {qubits : List Qubit} {quregs : Quregs} {e : Error} {p : CleanPool}
    (hsplit : Quregs.split s qubits = .ok quregs) (he : e.isDecomposeUnavailable = true) :
    Gives (decompose (β := β) (γ := γ) s (.error e) qubits) p none p := by
  unfold Gives
  rw [run_decompose, hsplit]
  dsimp only
  rw [if_pos he]

namespace Composite
variable {c : Composite (Bloq α κ)} {L : Labels}

/-- A bloq on registers that all go through stands, as a gate, for the operations of its composite as
they are. -/
theorem Flow.decompose_thru (h : c.Flow L) (hc : c.Threaded) (hp : ∀ x ∈ c.instances, x.bloq.Plain)
    (hq : ∀ x ∈ c.instances, Export.classicalOutput? x.bloq.signature = none)
    (hthru : ∀ r ∈ c.signature.registers, r.side = .thru) {b : Bloq α κ}
    (hsignature : b.signature = c.signature) (hb : b.decomposition = .ok c) {order : List Nat}
    (ho : c.sortedNodes .greedy = .ok order) (hs : c.graph.Sorts order) (hd : c.Distinct L order)
    {p : CleanPool} {t : Scope CleanPool}
    (ht : c.Served L order (Scope.declare (L.on 0 c.signature.lefts) { base := p }) t) :
    Gives ((Gate.ofBloq b).decompose (L.on 0 c.signature.lefts)) p
      (some (order.filterMap (c.operationAt? L))) t.base := by
  have hlefts := Signature.lefts_of_thru hthru
  have hnews : c.signature.rights.filter (·.side == .right) = [] := by
    refine List.filter_eq_nil_iff.mpr fun r hr => ?_
    rw [hthru r (Signature.mem_rights.mp hr).1]
    exact Bool.false_ne_true
  have hnames := hc.valid.nodup_lefts
  have hfits := h.inputs
  have hpick : Wrapped.pick (L.arrays 0 c.signature.lefts) c.signature.lefts Arrays.empty =
      .ok (L.arrays 0 c.signature.lefts) :=
    Wrapped.pick_arrays (fun r hr => Arrays.get?_byRegister hnames hr) hnames
  have hsplit : Quregs.split c.signature (L.on 0 c.signature.lefts) =
      .ok (L.arrays 0 c.signature.lefts) := by
    rw [hlefts] at hnames hfits ⊢
    exact Quregs.split_on (Signature.repeatedName?_eq_none.mpr hnames) hfits
  have hexport := h.export_gives_of hc hp hq
    (fun r hr => Labels.arrayIn_arrays hnames hr) ho hs hd ht
  -- nothing is returned, so that nothing is renamed
  have hempty : ∀ q, (Renaming.ofPairs (List.zip [] [])).rename q = q := fun q =>
    Renaming.rename_ofPairs_of_not_mem List.not_mem_nil
  have hkept : Circuit.map (Renaming.ofPairs []).rename
      (⟨order.filterMap (c.operationAt? L)⟩ : Circuit (Gate α κ)) =
        ⟨order.filterMap (c.operationAt? L)⟩ := by
    refine congrArg Circuit.mk ((List.map_congr_left fun op _ => ?_).trans (List.map_id _))
    exact congrArg (Operation.mk op.gate) (map_kept fun q _ => hempty q)
  have hemit : Gives (Wrapped.emitOn c (L.arrays 0 c.signature.lefts)) p
      (⟨order.filterMap (c.operationAt? L)⟩ : Circuit (Gate α κ)) t.base := by
    refine Scope.within_gives ?_
    refine gives_bind.mpr ⟨_, _, gives_lift.mpr ⟨hpick, rfl⟩, ?_⟩
    refine gives_bind.mpr ⟨_, _, gives_lift.mpr ⟨Labels.merge_arrays hnames h.inputs, rfl⟩, ?_⟩
    refine gives_bind.mpr ⟨(), _, gives_modify.mpr rfl, ?_⟩
    refine gives_bind.mpr ⟨_, _, hexport, ?_⟩
    rw [hnews]
    exact gives_bind.mpr ⟨[], _, gives_pure.mpr ⟨rfl, rfl⟩, gives_pure.mpr ⟨hkept, rfl⟩⟩
  rw [Gate.decompose, hsignature, hb]
  exact Wrapped.decompose_gives hsplit hemit

end Composite

/-- Some of different qubits are brought to the front by a permutation that moves no other qubit. -/
theorem exists_fronting {olds news rest : List Qubit} (ho : olds.Nodup) (hn : (news ++ rest).Nodup)
    (hsub : olds ⊆ news ++ rest) (hlen : olds.length = news.length) :
    ∃ f : Equiv.Perm Qubit, (∀ q ∉ news ++ rest, f q = q) ∧ olds.map f = news := by
  obtain ⟨others, hothers⟩ : ∃ others, others = (news ++ rest).filter (· ∉ olds) := ⟨_, rfl⟩
  have hnodup : (olds ++ others).Nodup := by
    refine ho.append (hothers ▸ hn.filter _) fun q hq hm => ?_
    rw [hothers, List.mem_filter, decide_eq_true_eq] at hm
    exact hm.2 hq
  have hperm : (olds ++ others).Perm (news ++ rest) := by
    refine (List.perm_ext_iff_of_nodup hnodup hn).mpr fun q => ?_
    rw [List.mem_append, hothers, List.mem_filter, decide_eq_true_eq]
    by_cases hq : q ∈ olds
    · exact ⟨fun _ => hsub hq, fun _ => .inl hq⟩
    · exact ⟨fun h => (h.resolve_left hq).1, fun h => .inr ⟨h, hq⟩⟩
  obtain ⟨f, hkept, hmap⟩ := exists_permuting hperm hnodup
  rw [List.map_append] at hmap
  refine ⟨f, fun q hq => hkept q fun hm => hq (hperm.mem_iff.mp hm), ?_⟩
  exact (List.append_inj hmap (by rw [List.length_map, hlen])).1

namespace Composite
variable {c : Composite (Bloq α κ)} {L : Labels}

/-- What appears in a composite can be renamed to the ancillas that the pool hands out first. -/
theorem Flow.exists_fronting (h : c.Flow L) (hc : c.Threaded) {order : List Nat}
    (hs : c.graph.Sorts order) (hd : c.Distinct L order) {p : CleanPool} {n : Nat}
    (hborn : order.flatMap (c.bornAt L) ⊆ CleanPool.fresh p.next n)
    (hp : p.Spares (L.on 0 c.signature.lefts) n) :
    ∃ f : Equiv.Perm Qubit, c.demand ≤ n ∧ (∀ q ∉ CleanPool.fresh p.next n, f q = q) ∧
      (L.map f).on 0 c.signature.lefts = L.on 0 c.signature.lefts ∧
      order.flatMap (c.bornAt (L.map f)) = CleanPool.fresh p.next c.demand := by
  have hnodup := List.Nodup.of_append_right hd
  have hlen := h.length_born hc hs
  have hle : c.demand ≤ n := by
    have hle := (hnodup.subperm hborn).length_le
    rwa [hlen, CleanPool.length_fresh] at hle
  obtain ⟨k, rfl⟩ := Nat.exists_eq_add_of_le hle
  have hfresh := CleanPool.nodup_fresh p.next hp.small
  rw [CleanPool.fresh_add] at hborn hfresh
  obtain ⟨f, hkept, hmap⟩ := BloqCircuit.exists_fronting hnodup hfresh hborn
    (by rw [hlen, CleanPool.length_fresh])
  rw [← CleanPool.fresh_add] at hkept
  refine ⟨f, hle, hkept, ?_, ?_⟩
  · rw [Labels.on_map]
    exact map_kept fun q hq => hkept q (hp.apart q hq)
  · rw [← hmap, List.map_flatMap]
    exact List.flatMap_congr fun v _ => bornAt_map f v

/-- A composite on which operations run stands for them on the pool's ancillas, and leaves none of them
in use, if all qubits of the boundary stay where they are. -/
theorem Realizes.decompose_gives {s : Signature} {ops : List (Operation (Gate α κ))}
    (h : c.Realizes s L ops) (hops : ∀ op ∈ ops, op.gate.Passing)
    (hthru : ∀ r ∈ s.registers, r.side = .thru) {b : Bloq α κ} (hsignature : b.signature = s)
    (hb : b.decomposition = .ok c)
    (hstay : L.on (c.instances.length + 1) s.rights = L.on 0 s.lefts) {p : CleanPool} {n : Nat}
    (hborn : ∀ q ∈ (List.range c.size).flatMap (c.bornAt L), q ∈ CleanPool.fresh p.next n)
    (hp : p.Spares (L.on 0 s.lefts) n) (hunused : ∀ q ∈ CleanPool.fresh p.next n, q ∉ p.inUse) :
    ∃ (ops' : List (Operation (Gate α κ))) (p' : CleanPool) (f : Equiv.Perm Qubit),
      Gives ((Gate.ofBloq b).decompose (L.on 0 s.lefts)) p (some ops') p' ∧ p'.inUse = p.inUse ∧
      (∀ q ∉ CleanPool.fresh p.next n, f q = q) ∧ ops'.Perm (ops.map (Operation.map f)) := by
  have hkeeps : ∀ v x, c.bloqAt v = some x → x.releases = false → x.dead = [] := by
    intro v x hv hr
    obtain ⟨y, hy, rfl⟩ := exists_instance hv
    refine dead_eq_nil (h.regular y hy).plain (fun hn r hmem => ?_) hr
    have hpassing := hops _ (h.mem_operations hy (Bloq.emits_of_native? hn).1)
    rw [hpassing.thru r hmem]
    exact Side.noConfusion
  obtain ⟨hc, hsig, hr, hflow, hrun, hd⟩ := h
  subst hsig
  obtain ⟨order, ho, hs⟩ := hc.threaded.exists_order .greedy
  have hdistinct : c.Distinct L order := hd.perm hs.perm.symm
  have hsub : order.flatMap (c.bornAt L) ⊆ CleanPool.fresh p.next n := fun q hq =>
    hborn q ((hs.perm.flatMap_right _).mem_iff.mp hq)
  obtain ⟨f, hle, hkept, hinputs, hnews⟩ := hflow.exists_fronting hc.threaded hs hdistinct hsub hp
  have hspares : p.Spares (L.on 0 c.signature.lefts) c.demand :=
    ⟨Nat.le_trans hle hp.small, fun q hq hm => hp.apart q hq (CleanPool.fresh_subset_of_le hle hm)⟩
  have hnodup := hspares.nodup (List.Nodup.of_append_left hd)
  have hapart : c.Distinct (L.map f) order := by
    rw [Distinct, hinputs, hnews]
    exact hnodup
  obtain ⟨t, ht, -⟩ := (hflow.map f).exists_served_live hc.threaded hs hapart hnews
    (Scope.live_declare p ((L.map f).on 0 c.signature.lefts))
  have hgives := (hflow.map f).decompose_thru hc.threaded (fun x hx => (hr x hx).plain)
    (fun x hx => (hr x hx).classicalOutput?) hthru hsignature hb ho hs hapart ht
  rw [hinputs] at hgives ht
  refine ⟨_, t.base, f, hgives, ?_, hkept, ?_⟩
  · have hreleased := (hflow.map f).nodup_released hc.threaded hs hapart
    have hledger := ht.ledger (Scope.ledger_declare p _) hnodup
      (by rw [hnews, CleanPool.length_fresh, Nat.zero_add]) hreleased.of_append_left
    rw [hnews, CleanPool.length_fresh, Nat.zero_add, List.nil_append] at hledger
    refine (hledger.inUse_eq_iff hspares fun q hq => hunused q (CleanPool.fresh_subset_of_le hle hq)).mpr
      fun q hq => ?_
    refine ((hflow.map f).mem_released_or_output hc.threaded hkeeps hs (hnews ▸ hq)).resolve_right
      fun hout => ?_
    -- the outputs are the inputs, and no ancillas
    rw [Labels.on_map, hstay, ← Labels.on_map, hinputs] at hout
    exact hspares.apart q hout hq
  · have hone : c.operationAt? (L.map f) = fun v => (c.operationAt? L v).map (Operation.map f) :=
      funext (operationAt?_map f)
    rw [← hrun, List.map_filterMap, hone]
    exact hs.perm.filterMap _

end Composite

namespace Gate
variable {g : Gate α κ} {qubits : List Qubit} {p : CleanPool}

/-- A gate that is no bloq stands for the same operations after it was made a bloq and a gate again, up
to their order and the names of the ancillas. None of these stay in use, also where the gate itself does not
free them. A gate without a decomposition has none after that either. -/
theorem decompose_ofGate (hg : ∀ b, g ≠ .ofBloq b) (hn : qubits.Nodup)
    (hlen : qubits.length = g.arity) {taken : Nat} (hp : p.Reached taken)
    (hsmall : taken + g.ancillas ≤ UInt32.size)
    (hapart : ∀ q ∈ qubits, q ∉ CleanPool.fresh p.next g.ancillas) :
    (∀ p₁, Gives (g.decompose qubits) p none p₁ →
      Gives ((Gate.ofBloq (.ofGate g)).decompose qubits) p none p) ∧
    ∀ ops p₁, Gives (g.decompose qubits) p (some ops) p₁ → (∀ op ∈ ops, op.gate.Steady) →
      ∃ (ops' : List (Operation (Gate α κ))) (p' : CleanPool) (f : Equiv.Perm Qubit),
        Gives ((Gate.ofBloq (.ofGate g)).decompose qubits) p (some ops') p' ∧ p'.inUse = p.inUse ∧
        (∀ q ∈ qubits, f q = q) ∧ (∀ q, f q ≠ q → q ∈ CleanPool.fresh p.next g.ancillas) ∧
        ops'.Perm (ops.map (Operation.map f)) := by
  have hspares : p.Spares qubits g.ancillas := ⟨Nat.le_trans (Nat.le_add_left _ _) hsmall, hapart⟩
  constructor
  · intro p₁ h
    have hnames : ([gateRegister g.arity].map (·.name)).Nodup := List.nodup_singleton _
    obtain ⟨f, hfits, hon⟩ := Labels.exists_on hnames (hlen.trans (totalBits_gateRegister _).symm) 0
    have hsplit := Quregs.split_on (s := ⟨[gateRegister g.arity]⟩) rfl hfits
    rw [hon] at hsplit
    rw [decompose, Bloq.signature_ofGate, decomposition_eq_error hg hn hlen hspares h]
    exact Wrapped.decompose_gives_none hsplit rfl
  intro ops p₁ h hops
  obtain ⟨c, L, hc, hrealizes, hlefts, hrights, hborn⟩ :=
    decomposition_realizes hg hn hlen hspares h hops
  have hthru : ∀ r ∈ (⟨[gateRegister g.arity]⟩ : Signature).registers, r.side = .thru := by
    intro r hr
    rw [List.mem_singleton.mp hr]
    rfl
  have hinputs : L.on 0 (⟨[gateRegister g.arity]⟩ : Signature).lefts = qubits := hlefts
  obtain ⟨ops', p', f, hgives, hunused, hkept, hperm⟩ := hrealizes.decompose_gives
    (fun op hop => (hops op hop).passing) hthru (Bloq.signature_ofGate g) hc
    (hrights.trans hinputs.symm) hborn (by rwa [hinputs]) fun q hq => hp.not_inUse hsmall hq
  rw [hinputs] at hgives
  exact ⟨ops', p', f, hgives, hunused, fun q hq => hkept q (hapart q hq),
    fun q hq => not_not.mp fun hm => hq (hkept q hm), hperm⟩

/-- A gate that frees neither of its ancillas, one of which it does not use; and a gate without a
decomposition. -/
theorem decompose_ofGate_ancillas :
    let g : Gate Float Complex := .declared ⟨"g", "g", 1, some ⟨2,
      [(.standard .cx, [0, 2]), (.standard .h, [2])], none, false⟩, none, none, none⟩
    let h : Gate Float Complex := .standard .h
    let p : CleanPool := (CleanPool.alloc 1 {}).2
    let ops : List (Operation (Gate Float Complex)) :=
      [⟨.standard .cx, [.line 0, .clean 2]⟩, ⟨.standard .h, [.clean 2]⟩]
    p.Reached 1 ∧ (∀ q ∈ [Qubit.line 0], q ∉ CleanPool.fresh p.next g.ancillas) ∧
      (∃ p₁, Gives (g.decompose [.line 0]) p (some ops) p₁ ∧ p₁.inUse.size = 3) ∧
      (∃ (ops' : List (Operation (Gate Float Complex))) (p' : CleanPool) (f : Equiv.Perm Qubit),
        Gives ((Gate.ofBloq (.ofGate g)).decompose [.line 0]) p (some ops') p' ∧
        p'.inUse = p.inUse ∧ (∀ q ∈ [Qubit.line 0], f q = q) ∧
        (∀ q, f q ≠ q → q ∈ CleanPool.fresh p.next g.ancillas) ∧
        ops'.Perm (ops.map (Operation.map f))) ∧
      Gives (h.decompose [.line 0]) p none p ∧
      Gives ((Gate.ofBloq (.ofGate h)).decompose [.line 0]) p none p := by
  intro g h p ops
  have hg : ∀ b, g ≠ .ofBloq b := fun b => by simp [g]
  have hh : ∀ b, h ≠ .ofBloq b := fun b => by simp [h]
  have hn : [Qubit.line 0].Nodup := List.nodup_singleton _
  have hp : p.Reached 1 := .alloc 1 .new
  have hapart : ∀ n, ∀ q ∈ [Qubit.line 0], q ∉ CleanPool.fresh p.next n := by
    intro n q hq
    rw [List.mem_singleton.mp hq]
    exact CleanPool.not_mem_fresh (by simp) _ _
  have hgives : ∃ p₁, Gives (g.decompose [.line 0]) p (some ops) p₁ ∧ p₁.inUse.size = 3 :=
    ⟨_, rfl, by decide +kernel⟩
  have hsteady : ∀ op ∈ ops, op.gate.Steady := by
    intro op hop
    simp only [ops, List.mem_cons, List.not_mem_nil, or_false] at hop
    rcases hop with rfl | rfl <;> exact trivial
  refine ⟨hp, hapart _, hgives, ?_, rfl, ?_⟩
  · obtain ⟨p₁, hgives, -⟩ := hgives
    exact (decompose_ofGate hg hn rfl hp (by decide) (hapart _)).2 ops p₁ hgives hsteady
  · exact (decompose_ofGate hh hn rfl hp (by decide) (hapart _)).1 p rfl

end Gate
end
end BloqCircuit
