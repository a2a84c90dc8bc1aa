import BloqCircuit.Proofs.Closing
import BloqCircuit.Proofs.Reversal
/-! Which lists of registers are signatures. Registers are accepted exactly if no name has two inputs or two
outputs, whether they come as a whole or one by one; exchanging the sides keeps them accepted. -/
namespace BloqCircuit

/-- Sides that do not overlap are those of one input and one output. -/
theorem Side.overlaps_eq_false {a b : Side} :
    a.overlaps b = false ↔ a = .left ∧ b = .right ∨ a = .right ∧ b = .left := by
  cases a <;> cases b <;> simp [overlaps, isLeft, isRight]

/-- Of three sides two overlap. -/
theorem Side.overlaps_of_three (a b c : Side) :
    a.overlaps b = true ∨ a.overlaps c = true ∨ b.overlaps c = true := by
  cases a <;> cases b <;> cases c <;> decide

namespace Signature
variable {s : Signature} {registers before : List Register} {e : Error}

/-! ## Names of inputs and of outputs -/

theorem valid_iff_nodup :
    s.Valid ↔ (s.lefts.map (·.name)).Nodup ∧ (s.rights.map (·.name)).Nodup := by
  refine ⟨fun h => ⟨h.nodup_lefts, h.nodup_rights⟩, ?_⟩
  rintro ⟨hl, hr⟩
  rw [List.Nodup, List.pairwise_map, lefts, List.pairwise_filter] at hl
  rw [List.Nodup, List.pairwise_map, rights, List.pairwise_filter] at hr
  refine valid_iff.mpr ((hl.and hr).imp fun {a b} h hname => ?_)
  rw [Side.overlaps, Bool.or_eq_false_iff, Bool.and_eq_false_imp, Bool.and_eq_false_imp]
  exact ⟨fun ha => Bool.eq_false_iff.mpr fun hb => h.1 ha hb hname,
    fun ha => Bool.eq_false_iff.mpr fun hb => h.2 ha hb hname⟩

theorem count_names (p : Register → Bool) (name : String) :
    ((registers.filter p).map (·.name)).count name =
      registers.countP fun r => r.name == name && p r := by
  rw [List.count_eq_countP, List.countP_map, List.countP_filter]
  rfl

/-- Registers make a signature exactly if no name has two inputs and no name has two outputs. -/
theorem valid_iff_countP : s.Valid ↔ ∀ name,
    (s.registers.countP fun r => r.name == name && r.side.isLeft) ≤ 1 ∧
      (s.registers.countP fun r => r.name == name && r.side.isRight) ≤ 1 := by
  rw [valid_iff_nodup, List.nodup_iff_count_le_one, List.nodup_iff_count_le_one, ← forall_and]
  simp only [lefts, rights, count_names]

theorem exists_ofRegisters :
    (∃ s, ofRegisters registers = .ok s) ↔ (⟨registers⟩ : Signature).Valid := by
  constructor
  · rintro ⟨s, h⟩
    obtain ⟨rfl, hv⟩ := ofRegisters_eq_ok.mp h
    exact hv
  · exact fun hv => ⟨_, hv⟩

/-! ## The register that is refused -/

theorem firstOverlap_append (seen before after : List Register) :
    firstOverlap seen (before ++ after) =
      (firstOverlap seen before).or (firstOverlap (seen ++ before) after) := by
  induction before generalizing seen with
  | nil => simp [firstOverlap]
  | cons r before ih =>
    rw [List.cons_append, firstOverlap, firstOverlap]
    split
    · rfl
    · rw [ih, List.append_assoc]
      rfl

/-- The register that is found overlaps one before it, and no register before it does. -/
theorem firstOverlap_eq_some {seen : List Register} {r : Register} :
    firstOverlap seen registers = some r ↔ ∃ before after, registers = before ++ r :: after ∧
      firstOverlap seen before = none ∧
      ∃ q ∈ seen ++ before, q.name = r.name ∧ q.side.overlaps r.side = true := by
  constructor
  · intro h
    induction registers generalizing seen with
    | nil => cases h
    | cons x rest ih =>
      rw [firstOverlap] at h
      split at h
      · next hany =>
        cases h
        obtain ⟨q, hq, hsame⟩ := List.any_eq_true.mp hany
        rw [Bool.and_eq_true, beq_iff_eq] at hsame
        exact ⟨[], rest, rfl, rfl, q, List.mem_append_left _ hq, hsame⟩
      · next hany =>
        obtain ⟨before, after, rfl, hnone, q, hq, hsame⟩ := ih h
        rw [List.append_assoc] at hq
        refine ⟨x :: before, after, rfl, ?_, q, hq, hsame⟩
        rw [firstOverlap, if_neg hany, hnone]
  · rintro ⟨before, after, rfl, hnone, q, hq, hname, hsides⟩
    have hany : ((seen ++ before).any fun q => q.name == r.name && q.side.overlaps r.side) = true :=
      List.any_eq_true.mpr ⟨q, hq, by rw [hname, hsides, beq_self_eq_true]; rfl⟩
    rw [firstOverlap_append, hnone, firstOverlap, if_pos hany]
    rfl

theorem ofRegisters_eq_error : ofRegisters registers = .error e ↔
    ∃ r, firstOverlap [] registers = some r ∧ e = .duplicateRegister r.name := by
  rw [ofRegisters]
  cases firstOverlap [] registers with
  | none => simp
  | some r => simp [eq_comm]

theorem firstOverlap_eq_none_iff_valid :
    firstOverlap [] registers = none ↔ (⟨registers⟩ : Signature).Valid := by
  rw [Valid, ofRegisters]
  cases firstOverlap [] registers <;> simp

/-- Registers are refused because of the first one that overlaps a register of its name before it. -/
theorem refused_iff : ofRegisters registers = .error e ↔
    ∃ before r after, registers = before ++ r :: after ∧ (∃ s, ofRegisters before = .ok s) ∧
      (∃ q ∈ before, q.name = r.name ∧ q.side.overlaps r.side = true) ∧
      e = .duplicateRegister r.name := by
  simp only [ofRegisters_eq_error, firstOverlap_eq_some, List.nil_append,
    firstOverlap_eq_none_iff_valid, exists_ofRegisters]
  constructor
  · rintro ⟨r, ⟨before, after, hsplit, hv, hq⟩, he⟩
    exact ⟨before, r, after, hsplit, hv, hq, he⟩
  · rintro ⟨before, r, after, hsplit, hv, hq, he⟩
    exact ⟨r, ⟨before, after, hsplit, hv, hq⟩, he⟩

/-- Registers that are refused stay so, for the same reason, with others after them. -/
theorem refused_append (h : ofRegisters before = .error e) (after : List Register) :
    ofRegisters (before ++ after) = .error e := by
  obtain ⟨r, hr, rfl⟩ := ofRegisters_eq_error.mp h
  exact ofRegisters_eq_error.mpr ⟨r, by rw [firstOverlap_append, hr]; rfl, rfl⟩

/-! ## Groups -/

theorem mem_groups {g : String × List Register} :
    g ∈ s.groups ↔ (∃ r ∈ s.registers, r.name = g.1) ∧ g.2 = s.registers.filter (·.name == g.1) := by
  obtain ⟨name, group⟩ := g
  rw [groups, List.mem_map]
  simp only [mem_firstUses, List.mem_map, Prod.mk.injEq]
  constructor
  · rintro ⟨name, hname, rfl, rfl⟩
    exact ⟨hname, rfl⟩
  · rintro ⟨hname, rfl⟩
    exact ⟨name, hname, rfl, rfl⟩

theorem map_fst_groups : s.groups.map (·.1) = firstUses (s.registers.map (·.name)) := by
  rw [groups, List.map_map]
  exact List.map_id _

/-- Elements bucketed by keys that are all different are all there. -/
theorem perm_flatMap_filter {ι τ : Type} [DecidableEq ι] {key : τ → ι} {keys : List ι} (hn : keys.Nodup)
    {xs : List τ} (h : ∀ x ∈ xs, key x ∈ keys) :
    (keys.flatMap fun k => xs.filter (key · == k)).Perm xs := by
  induction keys generalizing xs with
  | nil =>
    rw [List.eq_nil_iff_forall_not_mem.mpr fun x hx => List.not_mem_nil (h x hx)]
    exact .nil
  | cons k keys ih =>
    obtain ⟨hk, hn⟩ := List.nodup_cons.mp hn
    have hothers : ∀ x ∈ xs.filter (key · != k), key x ∈ keys := by
      intro x hx
      obtain ⟨hx, hne⟩ := List.mem_filter.mp hx
      exact (List.mem_cons.mp (h x hx)).resolve_left (bne_iff_ne.mp hne)
    have hrest : (keys.flatMap fun j => xs.filter (key · == j)) =
        keys.flatMap fun j => (xs.filter (key · != k)).filter (key · == j) := by
      refine List.flatMap_congr fun j hj => ?_
      rw [List.filter_filter]
      refine List.filter_congr fun x _ => ?_
      by_cases hx : key x = j
      · have hne : key x ≠ k := fun he => hk (he.symm.trans hx ▸ hj)
        simp [hx, hx ▸ hne]
      · simp [hx]
    rw [List.flatMap_cons, hrest]
    exact ((ih hn hothers).append_left _).trans (List.filter_append_perm (key · == k) xs)

/-- The groups hold every register once. -/
theorem groups_perm : (s.groups.flatMap (·.2)).Perm s.registers := by
  rw [groups, List.flatMap_map]
  exact perm_flatMap_filter (nodup_firstUses _) fun r hr =>
    mem_firstUses.mpr (List.mem_map_of_mem hr)

/-- In a valid signature a name has one register, or one input and one output. -/
theorem Valid.group (h : s.Valid) {g : String × List Register} (hg : g ∈ s.groups) :
    (∃ r, g.2 = [r]) ∨ ∃ a b, g.2 = [a, b] ∧
      (a.side = .left ∧ b.side = .right ∨ a.side = .right ∧ b.side = .left) := by
  obtain ⟨⟨r, hr, hname⟩, hgroup⟩ := mem_groups.mp hg
  have hmem : r ∈ g.2 := hgroup ▸ List.mem_filter.mpr ⟨hr, beq_iff_eq.mpr hname⟩
  have hapart : g.2.Pairwise fun a b => a.side.overlaps b.side = false := by
    rw [hgroup]
    refine ((valid_iff.mp h).filter _).imp_of_mem fun {a b} ha hb hab => hab ?_
    exact (beq_iff_eq.mp (List.mem_filter.mp ha).2).trans (beq_iff_eq.mp (List.mem_filter.mp hb).2).symm
  rcases g with ⟨name, _ | ⟨a, _ | ⟨b, _ | ⟨c, rest⟩⟩⟩⟩
  · exact absurd hmem List.not_mem_nil
  · exact .inl ⟨a, rfl⟩
  · have hab := (List.pairwise_cons.mp hapart).1 b List.mem_cons_self
    exact .inr ⟨a, b, rfl, Side.overlaps_eq_false.mp hab⟩
  · obtain ⟨ha, hrest⟩ := List.pairwise_cons.mp hapart
    have hab := ha b List.mem_cons_self
    have hac := ha c (List.mem_cons_of_mem _ List.mem_cons_self)
    have hbc := (List.pairwise_cons.mp hrest).1 c List.mem_cons_self
    rcases Side.overlaps_of_three a.side b.side c.side with h | h | h
    · exact absurd h (Bool.eq_false_iff.mp hab)
    · exact absurd h (Bool.eq_false_iff.mp hac)
    · exact absurd h (Bool.eq_false_iff.mp hbc)

end Signature

/-! ## Registers one by one -/

namespace Builder
variable {β : Type} {b b' : Builder β} {reg : Register} {registers : List Register}
  {given : Soquets β} {e : Error}

theorem addRegister_fails (ho : b.isOpen = true) :
    Fails (addRegister reg) b e ↔ Signature.ofRegisters (b.registers ++ [reg]) = .error e := by
  have hrefused : ∀ {e}, Signature.ofRegisters (b.registers ++ [reg]) = .error e →
      Fails (addRegister reg) b e := by
    intro e h
    refine fails_bind.mpr (.inr ⟨b, b, gives_get.mpr ⟨rfl, rfl⟩, ?_⟩)
    rw [if_neg (by simp [ho])]
    exact fails_bind.mpr (.inl (fails_lift.mpr h))
  refine ⟨fun h => ?_, hrefused⟩
  cases hs : Signature.ofRegisters (b.registers ++ [reg]) with
  | ok s =>
    obtain ⟨rfl, hv⟩ := Signature.ofRegisters_eq_ok.mp hs
    exact absurd h (addRegister_withRegisters ho hv).not_fails
  | error e' => exact congrArg _ ((hrefused hs).unique h)

theorem run_addRegisters_cons {g : Option (Grid (Soquet β))} (h : Gives (addRegister reg) b g b') :
    (addRegisters (reg :: registers) given).run b =
      (addRegisters registers (g.elim given (given.insert reg.name))).run b' := by
  rw [addRegisters, run_bind, h]
  cases g <;> rfl

/-- A builder refuses registers that come one by one for the reason for which they are refused as a
whole. -/
theorem addRegisters_fails (ho : b.isOpen = true) (hv : (⟨b.registers⟩ : Signature).Valid) :
    Fails (addRegisters registers given) b e ↔
      Signature.ofRegisters (b.registers ++ registers) = .error e := by
  induction registers generalizing b given with
  | nil =>
    have hok : Signature.ofRegisters b.registers = .ok ⟨b.registers⟩ := hv
    simp [addRegisters, hok]
  | cons r rest ih =>
    rw [List.append_cons]
    cases hs : Signature.ofRegisters (b.registers ++ [r]) with
    | error e' =>
      have hfirst : Fails (addRegisters (r :: rest) given) b e' :=
        fails_bind.mpr (.inl ((addRegister_fails ho).mpr hs))
      rw [Signature.refused_append hs]
      exact ⟨fun h => congrArg _ (hfirst.unique h), fun h => Except.error.inj h ▸ hfirst⟩
    | ok s =>
      obtain ⟨rfl, hv⟩ := Signature.ofRegisters_eq_ok.mp hs
      rw [Fails, run_addRegisters_cons (addRegister_withRegisters ho hv)]
      exact ih ho hv

theorem exists_addRegisters (ho : b.isOpen = true)
    (hv : (⟨b.registers ++ registers⟩ : Signature).Valid) :
    ∃ soquets, Gives (addRegisters registers Arrays.empty) b soquets (b.withRegisters registers) := by
  have hn : ((registers.filter (·.side.isLeft)).map (·.name)).Nodup := by
    have hlefts := hv.nodup_lefts
    rw [Signature.lefts, List.filter_append, List.map_append] at hlefts
    exact (List.nodup_append.mp hlefts).2.1
  exact ⟨_, addRegisters_gives ho hv hn⟩

/-- A builder takes registers one by one exactly if they are accepted together with those that it has.
They make up its signature then. -/
theorem addRegisters_gives_iff {s : Signature} (ho : b.isOpen = true)
    (hv : (⟨b.registers⟩ : Signature).Valid) :
    (∃ soquets b', Gives (addRegisters registers Arrays.empty) b soquets b' ∧ s = ⟨b'.registers⟩) ↔
      Signature.ofRegisters (b.registers ++ registers) = .ok s := by
  constructor
  · rintro ⟨soquets, b', h, rfl⟩
    cases hs : Signature.ofRegisters (b.registers ++ registers) with
    | error e => exact absurd ((addRegisters_fails ho hv).mpr hs) h.not_fails
    | ok s =>
      obtain ⟨rfl, hvalid⟩ := Signature.ofRegisters_eq_ok.mp hs
      obtain ⟨soquets', h'⟩ := exists_addRegisters ho hvalid
      obtain ⟨-, rfl⟩ := h.unique h'
      rfl
  · intro h
    obtain ⟨rfl, hvalid⟩ := Signature.ofRegisters_eq_ok.mp h
    obtain ⟨soquets, h⟩ := exists_addRegisters ho hvalid
    exact ⟨soquets, _, h, rfl⟩

end Builder

/-- Registers are accepted exactly if no name has two inputs and no name has two outputs; otherwise the
first one that overlaps a register of its name before it is refused. The groups of an accepted signature
hold all its registers by name, each group one register or one input with one output. The adjoint is
accepted, has the outputs as inputs and the inputs as outputs, in their order, and its adjoint is the
signature again. An open builder with registers that are accepted takes more of them one by one exactly if
they are accepted all together, and refuses them for the same reason. -/
theorem Signature.registers_accepted {β : Type} (registers : List Register) :
    ((∃ s, ofRegisters registers = .ok s) ↔ ∀ name,
      (registers.countP fun r => r.name == name && r.side.isLeft) ≤ 1 ∧
        (registers.countP fun r => r.name == name && r.side.isRight) ≤ 1) ∧
    (∀ e, ofRegisters registers = .error e ↔
      ∃ before r after, registers = before ++ r :: after ∧ (∃ s, ofRegisters before = .ok s) ∧
        (∃ q ∈ before, q.name = r.name ∧ q.side.overlaps r.side = true) ∧
        e = .duplicateRegister r.name) ∧
    (∀ s, ofRegisters registers = .ok s → s.registers = registers ∧
      ((s.groups.map (·.1)).Nodup ∧ (s.groups.flatMap (·.2)).Perm registers ∧
        ∀ g ∈ s.groups, (∀ r ∈ g.2, r.name = g.1) ∧
          ((∃ r, g.2 = [r]) ∨ ∃ a b, g.2 = [a, b] ∧
            (a.side = .left ∧ b.side = .right ∨ a.side = .right ∧ b.side = .left))) ∧
      ofRegisters s.adjoint.registers = .ok s.adjoint ∧ s.adjoint.adjoint = s ∧
      s.adjoint.lefts = s.rights.map Register.adjoint ∧
      s.adjoint.rights = s.lefts.map Register.adjoint) ∧
    ∀ b : Builder β, b.isOpen = true → (∃ s, ofRegisters b.registers = .ok s) →
      (∀ s, (∃ soquets b', Gives (Builder.addRegisters registers Arrays.empty) b soquets b' ∧
          s = ⟨b'.registers⟩) ↔ ofRegisters (b.registers ++ registers) = .ok s) ∧
      ∀ e, Fails (Builder.addRegisters registers Arrays.empty) b e ↔
        ofRegisters (b.registers ++ registers) = .error e := by
  refine ⟨exists_ofRegisters.trans valid_iff_countP, fun e => refused_iff, fun s h => ?_,
    fun b ho hb => ?_⟩
  · obtain ⟨rfl, hv⟩ := ofRegisters_eq_ok.mp h
    refine ⟨rfl, ⟨?_, groups_perm, fun g hg => ⟨fun r hr => ?_, hv.group hg⟩⟩, hv.adjoint,
      adjoint_adjoint _, lefts_adjoint _, rights_adjoint _⟩
    · rw [map_fst_groups]
      exact nodup_firstUses _
    · rw [(mem_groups.mp hg).2] at hr
      exact beq_iff_eq.mp (List.mem_filter.mp hr).2
  · have hv := exists_ofRegisters.mp hb
    exact ⟨fun s => Builder.addRegisters_gives_iff ho hv, fun e => Builder.addRegisters_fails ho hv⟩

/-- A register that goes through and a pair of one input and one output are accepted, at once or one by one
by a fresh builder. A further input under the name of the pair is refused. -/
theorem Signature.registers_accepted_pair :
    let x : Register := ⟨"x", .qbit, [], .thru⟩
    let l : Register := ⟨"reg", .qany 2, [], .left⟩
    let r : Register := ⟨"reg", .qbit, [2], .right⟩
    let s : Signature := ⟨[x, r, l]⟩
    ofRegisters [x, r, l] = .ok s ∧ ofRegisters s.adjoint.registers = .ok s.adjoint ∧
      (∀ g ∈ s.groups, (∃ r, g.2 = [r]) ∨ ∃ a b, g.2 = [a, b] ∧
        (a.side = .left ∧ b.side = .right ∨ a.side = .right ∧ b.side = .left)) ∧
      ofRegisters [x, r, l, l] = .error (.duplicateRegister "reg") ∧
      (∃ soquets b', Gives (Builder.addRegisters [x, r, l] Arrays.empty) ({} : Builder Unit) soquets b' ∧
        s = ⟨b'.registers⟩) ∧
      Fails (Builder.addRegisters [x, r, l, l] Arrays.empty) ({} : Builder Unit)
        (.duplicateRegister "reg") := by
  intro x l r s
  have hs : ofRegisters [x, r, l] = .ok s := by rfl
  have hrefused : ofRegisters [x, r, l, l] = .error (.duplicateRegister "reg") := by rfl
  obtain ⟨-, -, haccepted, hbuilder⟩ := registers_accepted (β := Unit) [x, r, l]
  obtain ⟨-, ⟨-, -, hgroups⟩, hadjoint, -⟩ := haccepted s hs
  obtain ⟨-, -, -, hbuilder'⟩ := registers_accepted (β := Unit) [x, r, l, l]
  exact ⟨hs, hadjoint, fun g hg => (hgroups g hg).2, hrefused,
    ((hbuilder {} rfl ⟨⟨[]⟩, rfl⟩).1 s).mpr hs, ((hbuilder' {} rfl ⟨⟨[]⟩, rfl⟩).2 _).mpr hrefused⟩

end BloqCircuit
