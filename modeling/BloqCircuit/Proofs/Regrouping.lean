import BloqCircuit.Import
import BloqCircuit.Proofs.Bundling
import BloqCircuit.Proofs.Stock
/-! How bundles are split and joined until a requested one is at hand. -/
namespace BloqCircuit.Import
variable {α κ : Type} {held : Stock α κ} {bundles : Bundles (Bloq α κ)}

/-! ## Single bits -/

theorem bindBits_lists {bits : Stock α κ} {qs : List Qubit} (h : bundles.Lists held)
    (hbits : bits.map Prod.fst = qs.map ([·])) (hn : ((bits ++ held).map Prod.fst).Nodup) :
    (bindBits qs (bits.map Prod.snd) bundles).Lists (bits ++ held) := by
  induction bits generalizing qs held bundles with
  | nil =>
    cases qs with
    | nil => exact h
    | cons q qs => cases hbits
  | cons e bits ih =>
    obtain ⟨q, qs, s, rfl, rfl, hsingles⟩ := Stock.singles_cons hbits
    have hperm : (([q], s) :: bits ++ held).Perm (bits ++ ([q], s) :: held) :=
      List.perm_middle.symm
    have hn := (hperm.map Prod.fst).nodup_iff.mp hn
    have hheld : [q] ∉ held.map Prod.fst := by
      rw [List.map_append, List.nodup_append] at hn
      exact (List.nodup_cons.mp hn.2.1).1
    exact (ih (h.insert hheld s) hsingles hn).perm hperm.symm

theorem takeBits_eq {bits : Stock α κ} {qs : List Qubit} (h : bundles.Lists (bits ++ held))
    (hbits : bits.map Prod.fst = qs.map ([·])) (taken : List (Soquet (Bloq α κ))) :
    ∃ rest, takeBits qs bundles taken = .ok (taken.reverse ++ bits.map Prod.snd, rest) ∧
      rest.Lists held := by
  induction bits generalizing qs bundles taken with
  | nil =>
    cases qs with
    | nil => exact ⟨bundles, by rw [takeBits, List.map_nil, List.append_nil], h⟩
    | cons q qs => cases hbits
  | cons e bits ih =>
    obtain ⟨q, qs, s, rfl, rfl, hsingles⟩ := Stock.singles_cons hbits
    have hget : bundles.get? [q] = some s := (h.mem _ _).mpr List.mem_cons_self
    obtain ⟨rest, htake, hrest⟩ := ih h.erase hsingles (s :: taken)
    refine ⟨rest, ?_, hrest⟩
    rw [takeBits, hget]
    simp only
    rw [htake, List.reverse_cons, List.append_assoc, List.map_cons]
    rfl

/-- Bits that are at hand one by one can be put in front. -/
theorem exists_bits {qs : List Qubit} (hn : qs.Nodup) (h : ∀ q ∈ qs, ∃ s, ([q], s) ∈ held) :
    ∃ bits rest : Stock α κ, held.Perm (bits ++ rest) ∧ bits.map Prod.fst = qs.map ([·]) := by
  induction qs generalizing held with
  | nil => exact ⟨[], held, List.Perm.refl _, rfl⟩
  | cons q qs ih =>
    rw [List.nodup_cons] at hn
    obtain ⟨s, hs⟩ := h q List.mem_cons_self
    obtain ⟨front, back, rfl⟩ := List.append_of_mem hs
    obtain ⟨bits, rest, hperm, hbits⟩ := @ih (front ++ back) hn.2 fun q' hq' => by
      obtain ⟨s', hs'⟩ := h q' (List.mem_cons_of_mem _ hq')
      refine ⟨s', ?_⟩
      rcases List.mem_append.mp hs' with hs' | hs'
      · exact List.mem_append_left _ hs'
      · rcases List.mem_cons.mp hs' with heq | hs'
        · rw [Prod.mk.injEq, List.cons.injEq] at heq
          exact absurd (heq.1.1 ▸ hq') hn.1
        · exact List.mem_append_right _ hs'
    refine ⟨([q], s) :: bits, rest, List.perm_middle.trans (hperm.cons _), ?_⟩
    rw [List.map_cons, hbits]
    rfl

/-! ## What reshaping relies on -/

variable [Angle α] {sig : Signature} {l : Labels} {stock : Stock α κ} {gone : List Qubit}
  {ops : List (Operation (Gate α κ))} {b : Builder (Bloq α κ)}

/-- What holds of a builder and of its stock while bundles are split, joined and allocated: each of
these calls succeeds and puts its bundles into the stock. No qubit that is gone comes back. -/
structure Reshapes (P : Builder (Bloq α κ) → Stock α κ → Prop) (gone : List Qubit) : Prop where
  perm : ∀ {b stock stock'}, P b stock → stock.Perm stock' → P b stock'
  nodup : ∀ {b stock}, P b stock → (stock.qubits ++ gone).Nodup
  nodup_keys : ∀ {b stock}, P b stock → (stock.map Prod.fst).Nodup
  split : ∀ {b qs so rest}, P b ((qs, so) :: rest) →
    ∃ (b' : Builder (Bloq α κ)) (bits : Stock α κ) (g : Grid (Soquet (Bloq α κ))),
      Gives (Builder.split so) b g b' ∧ P b' (bits ++ rest) ∧ bits.map Prod.fst = qs.map ([·]) ∧
      bits.map Prod.snd = g.toList
  join : ∀ {b} {bits : Stock α κ} {rest qs t}, P b (bits ++ rest) →
    bits.map Prod.fst = qs.map ([·]) → t.isQuantum = true → t.bitsize = qs.length → 1 ≤ qs.length →
    ∃ b' so, Gives (Builder.join (.vector (bits.map Prod.snd)) (some t)) b so b' ∧
      P b' ((qs, so) :: rest)
  allocate : ∀ {b stock t} {qs : List Qubit}, P b stock → t.isQuantum = true →
    t.bitsize = qs.length → 1 ≤ qs.length → (stock.qubits ++ gone ++ qs).Nodup →
    ∃ b' so, Gives (Builder.allocate t) b so b' ∧ P b' ((qs, so) :: stock)

variable {P : Builder (Bloq α κ) → Stock α κ → Prop}

/-! ## Splitting -/

/-- A stock of some bundles and of some entries, where the entries that shared qubits with a set are
split into their bits. -/
structure Splits (wanted : QubitSet) (held entries stock : Stock α κ) : Prop where
  qubits : stock.qubits.Perm (Stock.qubits (held ++ entries))
  keeps : ∀ e ∈ held, e ∈ stock
  apart : ∀ e ∈ entries, (∀ q ∈ e.1, q ∉ wanted) → e ∈ stock
  small : ∀ e ∈ stock, e ∈ held ∨ e.1.length = 1 ∨ ∀ q ∈ e.1, q ∉ wanted

section
variable {wanted : QubitSet} {entries : Stock α κ}
omit [Angle α]

theorem Splits.nil : Splits wanted held [] held where
  qubits := by rw [List.append_nil]
  keeps _ he := he
  apart _ he := absurd he List.not_mem_nil
  small _ he := .inl he

/-- The bits of an entry stand for it. -/
theorem Splits.split {bits : Stock α κ} {qs : List Qubit} {so : Soquet (Bloq α κ)}
    (h : Splits wanted (bits ++ held) entries stock) (hbits : bits.map Prod.fst = qs.map ([·]))
    (hshared : ∃ q ∈ qs, q ∈ wanted) : Splits wanted held ((qs, so) :: entries) stock := by
  constructor
  case qubits =>
    refine h.qubits.trans ?_
    rw [Stock.qubits_append, Stock.qubits_append, Stock.qubits_singles hbits, Stock.qubits_append, Stock.qubits_cons,
      ← List.append_assoc]
    exact List.perm_append_comm.append_right _
  case keeps => exact fun e he => h.keeps e (List.mem_append_right _ he)
  case apart =>
    intro e he hno
    rcases List.mem_cons.mp he with rfl | he
    · obtain ⟨q, hq, hw⟩ := hshared
      exact absurd hw (hno q hq)
    · exact h.apart e he hno
  case small =>
    intro e he
    rcases h.small e he with he | he
    · rcases List.mem_append.mp he with he | he
      · have hk := List.mem_map_of_mem (f := Prod.fst) he
        rw [hbits] at hk
        obtain ⟨q, -, hq⟩ := List.mem_map.mp hk
        exact .inr (.inl (by rw [← hq]; rfl))
      · exact .inl he
    · exact .inr he

/-- An entry that is a bit, or that shares no qubits, stays. -/
theorem Splits.stay {e : List Qubit × Soquet (Bloq α κ)}
    (h : Splits wanted (e :: held) entries stock)
    (he : e.1.length = 1 ∨ ∀ q ∈ e.1, q ∉ wanted) : Splits wanted held (e :: entries) stock := by
  constructor
  case qubits => exact h.qubits.trans (Stock.qubits_perm List.perm_middle.symm)
  case keeps => exact fun e he => h.keeps e (List.mem_cons_of_mem _ he)
  case apart =>
    intro e' he' hno
    rcases List.mem_cons.mp he' with rfl | he'
    · exact h.keeps _ List.mem_cons_self
    · exact h.apart e' he' hno
  case small =>
    intro e' he'
    rcases h.small e' he' with he' | he'
    · rcases List.mem_cons.mp he' with rfl | he'
      · exact .inr he
      · exact .inl he'
    · exact .inr he'

end

/-- Bundles that share qubits with a set are split into their bits. -/
theorem Reshapes.splitShared_gives (hP : Reshapes P gone) (wanted : QubitSet)
    {entries : Stock α κ} (h : P b (held ++ entries)) (hB : bundles.Lists held) :
    ∃ b' bundles' stock', Gives (splitShared wanted entries bundles) b bundles' b' ∧
      P b' stock' ∧ bundles'.Lists stock' ∧ Splits wanted held entries stock' := by
  induction entries generalizing b bundles held with
  | nil =>
    rw [List.append_nil] at h
    exact ⟨b, bundles, held, gives_pure.mpr ⟨rfl, rfl⟩, h, hB, .nil⟩
  | cons e entries ih =>
    obtain ⟨qs, so⟩ := e
    have hfront : P b ((qs, so) :: (held ++ entries)) := hP.perm h List.perm_middle
    rw [splitShared]
    by_cases hsplit : (1 < qs.length && qs.any wanted.contains) = true
    · obtain ⟨b₁, bits, g, hgives, hbitsP, hbits, hg⟩ := hP.split hfront
      rw [← List.append_assoc] at hbitsP
      have hkeys := hP.nodup_keys hbitsP
      rw [List.map_append] at hkeys
      obtain ⟨b', bundles', stock', hrest, hstock, hlists, hsplits⟩ :=
        ih hbitsP (bindBits_lists hB hbits hkeys.of_append_left)
      rw [if_pos hsplit]
      refine ⟨b', bundles', stock', gives_bind.mpr ⟨g, b₁, hgives, hg ▸ hrest⟩, hstock, hlists,
        hsplits.split hbits ?_⟩
      rw [Bool.and_eq_true, List.any_eq_true] at hsplit
      exact hsplit.2.imp fun q hq => hq.imp_right Std.ExtTreeSet.contains_iff_mem.mp
    · have hkeys := hP.nodup_keys hfront
      rw [List.map_cons, List.map_append, List.nodup_cons, List.mem_append, not_or] at hkeys
      obtain ⟨b', bundles', stock', hrest, hstock, hlists, hsplits⟩ :=
        @ih ((qs, so) :: held) (bundles.insert qs so) b hfront (hB.insert hkeys.1.1 so)
      rw [if_neg hsplit]
      refine ⟨b', bundles', stock', hrest, hstock, hlists, hsplits.stay ?_⟩
      rw [Bool.and_eq_true, decide_eq_true_eq, List.any_eq_true, not_and] at hsplit
      by_cases hlen : 1 < qs.length
      · refine .inr fun q hq hw => hsplit hlen ⟨q, hq, ?_⟩
        exact Std.ExtTreeSet.contains_iff_mem.mpr hw
      · -- a bundle without qubits shares none
        rcases Nat.le_one_iff_eq_zero_or_eq_one.mp (Nat.le_of_not_lt hlen) with hnone | hone
        · refine .inr fun q hq => ?_
          rw [List.length_eq_zero_iff.mp hnone] at hq
          cases hq
        · exact .inl hone

/-! ## Regrouping -/

/-- A stock that changed on some qubits only. -/
structure Changes (qs : List Qubit) (stock stock' : Stock α κ) : Prop where
  kept : ∀ e ∈ stock, (∀ q ∈ e.1, q ∉ qs) → e ∈ stock'
  within : ∀ q ∈ stock'.qubits, q ∈ stock.qubits ∨ q ∈ qs

omit [Angle α] in
theorem Changes.refl (qs : List Qubit) (stock : Stock α κ) : Changes qs stock stock :=
  ⟨fun _ he _ => he, fun _ hq => .inl hq⟩

omit [Angle α] in
theorem Changes.trans {qs qs' : List Qubit} {stock stock' stock'' : Stock α κ}
    (h : Changes qs stock stock') (h' : Changes qs' stock' stock'') :
    Changes (qs ++ qs') stock stock'' where
  kept e he hno := h'.kept e
    (h.kept e he fun q hq hm => hno q hq (List.mem_append_left _ hm))
    fun q hq hm => hno q hq (List.mem_append_right _ hm)
  within q hq := by
    rcases h'.within q hq with hq | hq
    · exact (h.within q hq).imp_right (List.mem_append_left _)
    · exact .inr (List.mem_append_right _ hq)

omit [Angle α] in
theorem Changes.mono {qs qs' : List Qubit} {stock stock' : Stock α κ} (h : Changes qs stock stock')
    (hs : qs ⊆ qs') : Changes qs' stock stock' where
  kept e he hno := h.kept e he fun q hq hm => hno q hq (hs hm)
  within q hq := (h.within q hq).imp_right (@hs q)

/-- After the allocation some bundle has each of the qubits. -/
theorem Reshapes.allocateMissing_gives (hP : Reshapes P gone) {qs : List Qubit}
    (h : P b stock) (hB : bundles.Lists stock) (hn : qs.Nodup) (hgone : ∀ q ∈ qs, q ∉ gone) :
    ∃ b' bundles' stock', Gives (allocateMissing qs bundles) b bundles' b' ∧
      P b' stock' ∧ bundles'.Lists stock' ∧ Changes qs stock stock' ∧
      ∀ q ∈ qs, q ∈ stock'.qubits := by
  have hmissing : ∀ q, q ∈ bundles.missing qs ↔ q ∈ qs ∧ q ∉ stock.qubits := by
    intro q
    rw [hB.mem_missing, Stock.mem_qubits]
    simp only [not_exists, not_and]
  rw [allocateMissing]
  by_cases hempty : (bundles.missing qs).isEmpty = true
  · refine ⟨b, bundles, stock, by simp [hempty], h, hB, .refl _ _, fun q hq => ?_⟩
    by_contra hno
    have hq := (hmissing q).mpr ⟨hq, hno⟩
    rw [List.isEmpty_iff.mp hempty] at hq
    cases hq
  · simp only [hempty]
    have hpos : 1 ≤ (bundles.missing qs).length := by
      refine List.length_pos_iff.mpr fun hnil => hempty ?_
      rw [hnil]
      rfl
    have hq : (DataType.qubits (bundles.missing qs).length).isQuantum = true := by
      unfold DataType.qubits
      split <;> rfl
    -- what is missing is in no bundle and not gone, so it can be allocated
    have hfresh : (stock.qubits ++ gone ++ bundles.missing qs).Nodup := by
      refine List.nodup_append.mpr ⟨hP.nodup h, hn.sublist (Bundles.missing_sublist qs), ?_⟩
      rintro q hq _ hm rfl
      obtain ⟨hm, hno⟩ := (hmissing q).mp hm
      rcases List.mem_append.mp hq with hq | hq
      · exact hno hq
      · exact hgone q hm hq
    obtain ⟨b', so, hgives, hstock⟩ := hP.allocate h hq (DataType.bitsize_qubits _) hpos hfresh
    have hkeys := hP.nodup_keys hstock
    rw [List.map_cons, List.nodup_cons] at hkeys
    refine ⟨b', _, (bundles.missing qs, so) :: stock,
      gives_bind.mpr ⟨so, b', hgives, gives_pure.mpr ⟨rfl, rfl⟩⟩, hstock, hB.insert hkeys.1 so,
      ⟨fun e he _ => List.mem_cons_of_mem _ he, fun q hq => ?_⟩, fun q hq => ?_⟩
    · rw [Stock.qubits_cons] at hq
      rcases List.mem_append.mp hq with hq | hq
      · exact .inr ((hmissing q).mp hq).1
      · exact .inl hq
    · rw [Stock.qubits_cons, List.mem_append]
      by_cases hm : q ∈ stock.qubits
      · exact .inr hm
      · exact .inl ((hmissing q).mpr ⟨hq, hm⟩)

/-- Qubits that are at hand are regrouped into the requested bundle. -/
theorem Reshapes.regroup_gives (hP : Reshapes P gone) {request : QubitBundle} (h : P b stock)
    (hB : bundles.Lists stock) (hn : request.qubits.Nodup) (hpos : 1 ≤ request.qubits.length)
    (hq : request.dtype.isQuantum = true) (hlen : request.dtype.bitsize = request.qubits.length)
    (hmem : ∀ q ∈ request.qubits, q ∈ stock.qubits) :
    ∃ so b' bundles' stock', Gives (regroup request bundles) b (so, bundles') b' ∧
      P b' stock' ∧ bundles'.Lists stock' ∧ Changes request.qubits stock stock' ∧
      (request.qubits, so) ∈ stock' := by
  have hentries : P b ([] ++ bundles.entries) := hP.perm h hB.entries_perm.symm
  obtain ⟨b₁, bundles₁, stock₁, hsplit, hstock₁, hlists₁, hsplits⟩ :=
    hP.splitShared_gives (.ofList request.qubits) hentries Bundles.lists_empty
  have hqubits : stock₁.qubits.Perm stock.qubits :=
    hsplits.qubits.trans (Stock.qubits_perm hB.entries_perm)
  have hkept : ∀ e ∈ stock, (∀ q ∈ e.1, q ∉ request.qubits) → e ∈ stock₁ := fun e he hno =>
    hsplits.apart e (hB.entries_perm.mem_iff.mpr he) fun q hq hm =>
      hno q hq (mem_ofList_set.mp hm)
  -- after the split, each requested qubit is a bit of its own
  have hbits : ∀ q ∈ request.qubits, ∃ s, ([q], s) ∈ stock₁ := by
    intro q hq
    obtain ⟨⟨k, s⟩, he, hk⟩ := Stock.mem_qubits.mp (hqubits.mem_iff.mpr (hmem q hq))
    rcases hsplits.small _ he with hnil | hone | hno
    · cases hnil
    · obtain ⟨q', rfl⟩ := List.length_eq_one_iff.mp hone
      rw [List.mem_singleton.mp hk]
      exact ⟨s, he⟩
    · exact absurd (mem_ofList_set.mpr hq) (hno q hk)
  rw [regroup]
  by_cases hone : request.qubits.length = 1
  · obtain ⟨q, hsingle⟩ := List.length_eq_one_iff.mp hone
    obtain ⟨s, hs⟩ := hbits q (by rw [hsingle]; exact List.mem_cons_self)
    have hget : bundles₁.get? request.qubits = some s := by
      rw [hsingle]
      exact (hlists₁.mem _ _).mpr hs
    refine ⟨s, b₁, bundles₁, stock₁, gives_bind.mpr ⟨bundles₁, b₁, hsplit, ?_⟩, hstock₁, hlists₁,
      ⟨hkept, fun q hq => .inl (hqubits.mem_iff.mp hq)⟩, by rw [hsingle]; exact hs⟩
    rw [if_pos hone, hget]
    exact gives_pure.mpr ⟨rfl, rfl⟩
  · obtain ⟨bits, rest, hfront, hkeys⟩ := exists_bits hn hbits
    obtain ⟨bundles₂, htake, hlists⟩ := takeBits_eq (hlists₁.perm hfront) hkeys []
    obtain ⟨b', so, hjoin, hstock⟩ := hP.join (hP.perm hstock₁ hfront) hkeys hq hlen hpos
    have hnew := hP.nodup_keys hstock
    rw [List.map_cons, List.nodup_cons] at hnew
    refine ⟨so, b', _, (request.qubits, so) :: rest, gives_bind.mpr ⟨bundles₁, b₁, hsplit, ?_⟩,
      hstock, hlists.insert hnew.1 so, ⟨fun e he hno => ?_, fun q hq => ?_⟩, List.mem_cons_self⟩
    · rw [if_neg hone]
      refine gives_bind.mpr ⟨_, b₁, gives_lift.mpr ⟨htake, rfl⟩, ?_⟩
      exact gives_bind.mpr ⟨so, b', hjoin, gives_pure.mpr ⟨rfl, rfl⟩⟩
    · rcases List.mem_append.mp (hfront.mem_iff.mp (hkept e he hno)) with hm | hm
      · have hk := List.mem_map_of_mem (f := Prod.fst) hm
        rw [hkeys] at hk
        obtain ⟨q, hq, heq⟩ := List.mem_map.mp hk
        exact absurd hq (hno q (by rw [← heq]; exact List.mem_cons_self))
      · exact List.mem_cons_of_mem _ hm
    · rw [Stock.qubits_cons] at hq
      rcases List.mem_append.mp hq with hq | hq
      · exact .inr hq
      · refine .inl (hqubits.mem_iff.mp ((Stock.qubits_perm hfront).mem_iff.mpr ?_))
        rw [Stock.qubits_append]
        exact List.mem_append_right _ hq

/-- The requested bundle is at hand afterwards, and bundles of other qubits stay. -/
theorem Reshapes.ensure_gives (hP : Reshapes P gone) {request : QubitBundle} (h : P b stock)
    (hB : bundles.Lists stock) (hn : request.qubits.Nodup) (hpos : 1 ≤ request.qubits.length)
    (hq : request.dtype.isQuantum = true) (hlen : request.dtype.bitsize = request.qubits.length)
    (hgone : ∀ q ∈ request.qubits, q ∉ gone) :
    ∃ so b' bundles' stock', Gives (ensure request bundles) b (so, bundles') b' ∧
      P b' stock' ∧ bundles'.Lists stock' ∧ Changes request.qubits stock stock' ∧
      (request.qubits, so) ∈ stock' := by
  rw [ensure]
  cases hget : bundles.get? request.qubits with
  | some so =>
    exact ⟨so, b, bundles, stock, gives_pure.mpr ⟨rfl, rfl⟩, h, hB, .refl _ _,
      (hB.mem _ _).mp hget⟩
  | none =>
    obtain ⟨b₁, bundles₁, stock₁, halloc, hstock₁, hlists₁, hchanges, hmem⟩ :=
      hP.allocateMissing_gives h hB hn hgone
    cases hget₁ : bundles₁.get? request.qubits with
    | some so =>
      refine ⟨so, b₁, bundles₁, stock₁, gives_bind.mpr ⟨_, _, halloc, ?_⟩, hstock₁, hlists₁,
        hchanges, (hlists₁.mem _ _).mp hget₁⟩
      simp only [hget₁]
      exact gives_pure.mpr ⟨rfl, rfl⟩
    | none =>
      obtain ⟨so, b', bundles', stock', hregroup, hstock', hlists', hchanges', hso⟩ :=
        hP.regroup_gives hstock₁ hlists₁ hn hpos hq hlen hmem
      refine ⟨so, b', bundles', stock', gives_bind.mpr ⟨_, _, halloc, ?_⟩, hstock', hlists',
        (hchanges.trans hchanges').mono fun q hq => ?_, hso⟩
      · simp only [hget₁]
        exact hregroup
      · exact (List.mem_append.mp hq).elim id id

/-! ## Tracked bundles -/

/-- The bundles bind what the builder holds. -/
structure Tracks (b : Builder (Bloq α κ)) (bundles : Bundles (Bloq α κ)) (sig : Signature)
    (l : Labels) (stock : Stock α κ) (gone : List Qubit) (ops : List (Operation (Gate α κ))) :
    Prop where
  holds : b.Holds sig l stock gone ops
  lists : bundles.Lists stock

/-- Labelled builders go through all that reshaping does. -/
theorem reshapes_holds (sig : Signature) (l : Labels) (gone : List Qubit)
    (ops : List (Operation (Gate α κ))) :
    Reshapes (fun b stock => b.Holds sig l stock gone ops) gone where
  perm h hs := h.perm hs
  nodup h := h.nodup
  nodup_keys h := Stock.nodup_keys h.nodup.of_append_left fun _ he => h.ne_nil he
  split h := h.split
  join h := h.join
  allocate h := h.allocate

theorem nodup_keys (h : b.Holds sig l stock gone ops) : (stock.map Prod.fst).Nodup :=
  (reshapes_holds sig l gone ops).nodup_keys h

theorem Tracks.ensure_gives {request : QubitBundle} (h : Tracks b bundles sig l stock gone ops)
    (hn : request.qubits.Nodup) (hpos : 1 ≤ request.qubits.length)
    (hq : request.dtype.isQuantum = true) (hlen : request.dtype.bitsize = request.qubits.length)
    (hgone : ∀ q ∈ request.qubits, q ∉ gone) :
    ∃ so b' bundles' stock', Gives (ensure request bundles) b (so, bundles') b' ∧
      Tracks b' bundles' sig l stock' gone ops ∧ Changes request.qubits stock stock' ∧
      (request.qubits, so) ∈ stock' := by
  obtain ⟨so, b', bundles', stock', hensure, hholds, hlists, hchanges, hso⟩ :=
    (reshapes_holds sig l gone ops).ensure_gives h.holds h.lists hn hpos hq hlen hgone
  exact ⟨so, b', bundles', stock', hensure, ⟨hholds, hlists⟩, hchanges, hso⟩

end BloqCircuit.Import
