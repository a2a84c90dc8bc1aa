import BloqCircuit.Proofs.Amplitudes
/-! Dense evaluation computes amplitudes: the array of a state lists the amplitudes of the basis
states of its qubits, by their numbers. -/
namespace BloqCircuit

private theorem and_mod_two (k mask : Nat) :
    (k &&& mask) % 2 = if k % 2 = 1 ∧ mask % 2 = 1 then 1 else 0 := by
  have h := Nat.testBit_and k mask 0
  simp only [Nat.testBit_zero, ← Bool.decide_and, decide_eq_decide] at h
  split <;> omega

/-- A number without the bits that a mask has. -/
theorem testBit_sub_and (k mask i : Nat) :
    (k - (k &&& mask)).testBit i = (k.testBit i && !mask.testBit i) := by
  have hle : k &&& mask ≤ k := Nat.and_le_left
  have hlow := and_mod_two k mask
  induction i generalizing k mask with
  | zero =>
    have hodd : (k - (k &&& mask)) % 2 = 1 ↔ k % 2 = 1 ∧ ¬ mask % 2 = 1 := by
      split at hlow <;> omega
    rw [Nat.testBit_zero, Nat.testBit_zero, Nat.testBit_zero, ← decide_not, ← Bool.decide_and,
      decide_eq_decide]
    exact hodd
  | succ i ih =>
    have hhalf : (k - (k &&& mask)) / 2 = k / 2 - (k / 2 &&& mask / 2) := by
      have hdiv : (k &&& mask) / 2 = k / 2 &&& mask / 2 := Nat.and_div_two
      split at hlow <;> omega
    rw [Nat.testBit_add_one, Nat.testBit_add_one, Nat.testBit_add_one, hhalf]
    exact ih _ _ Nat.and_le_left (and_mod_two _ _)

namespace Dense
variable {γ κ : Type}

/-! ## Places of qubits in the numbers of a state -/

/-- The place of a qubit in the numbers of a state's basis; the first qubit is the most
significant. -/
def placeIn (order : List Qubit) (q : Qubit) : Nat := order.length - 1 - order.idxOf q

variable {order qs : List Qubit} {q p : Qubit} {n k c : Nat}

theorem placeIn_lt (hq : q ∈ order) : placeIn order q < order.length := by
  have := List.idxOf_lt_length_iff.mpr hq
  unfold placeIn
  omega

theorem placeIn_inj (hq : q ∈ order) (hp : p ∈ order) :
    placeIn order q = placeIn order p ↔ q = p := by
  have hq' := List.idxOf_lt_length_iff.mpr hq
  have hp' := List.idxOf_lt_length_iff.mpr hp
  refine ⟨fun h => (List.idxOf_inj hq).mp ?_, fun h => h ▸ rfl⟩
  unfold placeIn at h
  omega

private theorem foldl_gatherBits (places : List Nat) (acc : Nat) :
    places.foldl (fun acc p => 2 * acc + if k.testBit p then 1 else 0) acc =
      2 ^ places.length * acc + gatherBits places k := by
  induction places generalizing acc with
  | nil => simp [gatherBits]
  | cons p places ih =>
    have hcons : gatherBits (p :: places) k = 2 ^ places.length * (2 * 0 + if k.testBit p then 1 else 0) +
        gatherBits places k := ih _
    rw [List.foldl_cons, ih, hcons, List.length_cons, pow_succ]
    ring

/-- The bits at the places of qubits are the number that these show. -/
theorem gatherBits_placeIn (hn : order.Nodup) (hq : ∀ q ∈ qs, q ∈ order) :
    gatherBits (qs.map (placeIn order)) k = numberOn qs (setOn order k ∅) := by
  induction qs with
  | nil => rfl
  | cons q qs ih =>
    have hmem : q ∈ setOn order k ∅ ↔ k.testBit (placeIn order q) = true :=
      mem_setOn hn (hq q List.mem_cons_self)
    rw [List.map_cons, gatherBits, List.foldl_cons, foldl_gatherBits,
      ih fun p hp => hq p (List.mem_cons_of_mem _ hp), numberOn, List.length_map]
    simp only [hmem]
    split <;> simp [basisSize]

private theorem testBit_foldl_or {τ : Type} (place : τ → Nat) (on : τ → Bool) (l : List τ)
    (acc i : Nat) :
    (l.foldl (fun acc t => if on t then acc ||| (1 <<< place t) else acc) acc).testBit i =
      (acc.testBit i || l.any fun t => on t && place t == i) := by
  induction l generalizing acc with
  | nil => simp
  | cons t l ih =>
    have hone : (1 <<< place t).testBit i = (place t == i) := by
      rw [Nat.one_shiftLeft, Nat.testBit_two_pow, beq_eq_decide]
    rw [List.foldl_cons, ih, List.any_cons]
    cases on t with
    | false => rw [if_neg Bool.false_ne_true, Bool.false_and, Bool.false_or]
    | true => rw [if_pos rfl, Nat.testBit_or, hone, Bool.true_and, Bool.or_assoc]

/-- Spreading a number over the places of qubits sets these qubits to it. -/
theorem testBit_spreadBits (hn : qs.Nodup) (hqs : ∀ q ∈ qs, q ∈ order) (hq : q ∈ order) :
    (spreadBits (qs.map (placeIn order)) c).testBit (placeIn order q) = true ↔ q ∈ setOn qs c ∅ := by
  have hbit : (spreadBits (qs.map (placeIn order)) c).testBit (placeIn order q) = true ↔
      ∃ j, qs[j]? = some q ∧ c.testBit (qs.length - 1 - j) = true := by
    rw [spreadBits, testBit_foldl_or Prod.fst fun p => c.testBit _, Nat.zero_testBit, Bool.false_or,
      List.any_eq_true, List.length_map]
    constructor
    · rintro ⟨⟨i, j⟩, hmem, hon⟩
      rw [Bool.and_eq_true, beq_iff_eq] at hon
      rw [List.mem_zipIdx_iff_getElem?, List.getElem?_map, Option.map_eq_some_iff] at hmem
      obtain ⟨p, hp, rfl⟩ := hmem
      have hpq := (placeIn_inj (hqs p (List.mem_of_getElem? hp)) hq).mp hon.2
      exact ⟨j, hpq ▸ hp, hon.1⟩
    · rintro ⟨j, hj, hon⟩
      refine ⟨(placeIn order q, j), ?_, ?_⟩
      · rw [List.mem_zipIdx_iff_getElem?, List.getElem?_map, hj]
        rfl
      · rw [Bool.and_eq_true, beq_iff_eq]
        exact ⟨hon, rfl⟩
  rw [hbit]
  by_cases hmem : q ∈ qs
  · rw [mem_setOn hn hmem]
    constructor
    · rintro ⟨j, hj, hon⟩
      obtain ⟨hlt, rfl⟩ := List.getElem?_eq_some_iff.mp hj
      rwa [hn.idxOf_getElem]
    · exact fun hon => ⟨_, List.getElem?_idxOf hmem, hon⟩
  · rw [mem_setOn_of_not_mem hmem]
    refine ⟨?_, fun h => absurd h (Finset.notMem_empty q)⟩
    rintro ⟨j, hj, -⟩
    exact absurd (List.mem_of_getElem? hj) hmem

/-- The bits of spread numbers lie at the given places. -/
theorem spreadBits_lt {places : List Nat} (h : ∀ p ∈ places, p < n) :
    spreadBits places c < basisSize n := by
  refine Nat.lt_pow_two_of_testBit _ fun i hi => ?_
  rw [spreadBits, testBit_foldl_or Prod.fst fun p => c.testBit _, Nat.zero_testBit, Bool.false_or,
    List.any_eq_false]
  rintro ⟨p, j⟩ hmem hon
  rw [Bool.and_eq_true, beq_iff_eq] at hon
  obtain rfl : p = i := hon.2
  exact Nat.not_le_of_lt (h p (List.fst_mem_of_mem_zipIdx hmem)) hi

theorem testBit_mask (places : List Nat) (i : Nat) :
    (places.foldl (fun acc p => acc ||| (1 <<< p)) 0).testBit i = decide (i ∈ places) := by
  have h := testBit_foldl_or (fun p : Nat => p) (fun _ => true) places 0 i
  simp only [if_true, Nat.zero_testBit, Bool.false_or, Bool.true_and] at h
  rw [h, Bool.eq_iff_iff, List.any_eq_true, decide_eq_true_iff]
  constructor
  · rintro ⟨p, hp, he⟩
    exact (beq_iff_eq.mp he) ▸ hp
  · intro hi
    exact ⟨i, hi, BEq.rfl⟩

/-- The basis state at an index whose bits for `qs` are replaced. -/
theorem setOn_replaced (ho : order.Nodup) (hn : qs.Nodup) (hqs : ∀ q ∈ qs, q ∈ order) :
    setOn order ((k - (k &&& (qs.map (placeIn order)).foldl (fun acc p => acc ||| (1 <<< p)) 0)) |||
      spreadBits (qs.map (placeIn order)) c) ∅ = setOn qs c (setOn order k ∅) := by
  ext q
  by_cases hq : q ∈ order
  · rw [mem_setOn ho hq, Nat.testBit_or, testBit_sub_and, testBit_mask, Bool.or_eq_true,
      Bool.and_eq_true]
    have hspread := testBit_spreadBits (c := c) hn hqs hq
    have hplace : placeIn order q ∈ qs.map (placeIn order) ↔ q ∈ qs := by
      rw [List.mem_map]
      constructor
      · rintro ⟨p, hp, he⟩
        exact (placeIn_inj (hqs p hp) hq).mp he ▸ hp
      · intro h
        exact ⟨q, h, rfl⟩
    rw [placeIn] at hspread hplace
    rw [hspread]
    by_cases hmem : q ∈ qs
    · simp [hplace, hmem, mem_setOn hn hmem]
    · simp [hplace, hmem, mem_setOn_of_not_mem hmem, mem_setOn ho hq]
  · have hmem : q ∉ qs := fun h => hq (hqs q h)
    rw [mem_setOn_of_not_mem hq, mem_setOn_of_not_mem hmem, mem_setOn_of_not_mem hq]

/-- The basis state at an index that has bits at the places of some qubits only. -/
theorem setOn_spreadBits (ho : order.Nodup) (hn : qs.Nodup) (hqs : ∀ q ∈ qs, q ∈ order) :
    setOn order (spreadBits (qs.map (placeIn order)) c) ∅ = setOn qs c ∅ := by
  ext q
  by_cases hq : q ∈ order
  · rw [mem_setOn ho hq]
    exact testBit_spreadBits hn hqs hq
  · rw [mem_setOn_of_not_mem hq, mem_setOn_of_not_mem fun h => hq (hqs q h)]

/-- Qubits that come first take the most significant bits. -/
theorem setOn_shiftLeft {rest : List Qubit} (ho : (qs ++ rest).Nodup) :
    setOn (qs ++ rest) (c <<< rest.length) ∅ = setOn qs c ∅ := by
  ext q
  by_cases hq : q ∈ qs
  · have hi := List.idxOf_lt_length_iff.mpr hq
    rw [mem_setOn ho (List.mem_append_left _ hq), mem_setOn (List.Nodup.of_append_left ho) hq,
      List.idxOf_append_of_mem hq, List.length_append, Nat.testBit_shiftLeft,
      decide_eq_true (by omega : qs.length + rest.length - 1 - qs.idxOf q ≥ rest.length),
      Bool.true_and, show qs.length + rest.length - 1 - qs.idxOf q - rest.length =
        qs.length - 1 - qs.idxOf q by omega]
  · rw [mem_setOn_of_not_mem hq]
    by_cases hr : q ∈ rest
    · have hi := List.idxOf_lt_length_iff.mpr hr
      rw [mem_setOn ho (List.mem_append_right _ hr), List.idxOf_append_of_notMem hq,
        List.length_append, Nat.testBit_shiftLeft, decide_eq_false (by omega), Bool.false_and]
      simp
    · rw [mem_setOn_of_not_mem fun h => (List.mem_append.mp h).elim hq hr]

/-! ## States as arrays -/

variable [ExactAmplitude κ]

/-- The array lists the amplitudes of the basis states of ordered qubits by their numbers. -/
structure Shows (order : List Qubit) (state : Array κ) (ψ : Finset Qubit → κ) : Prop where
  size : state.size = basisSize order.length
  entry : ∀ k < basisSize order.length, state.getD k 0 = ψ (setOn order k ∅)

theorem shows_basisState (ho : order.Nodup) (hn : n < basisSize order.length) :
    Shows order (basisState (κ := κ) (basisSize order.length) n) (ket (setOn order n ∅)) := by
  refine ⟨Array.size_ofFn, fun k hk => ?_⟩
  have heq : k = n ↔ setOn order k ∅ = setOn order n ∅ :=
    ⟨fun h => h ▸ rfl, setOn_injective ho hk hn⟩
  rw [basisState, Array.getD_eq_getD_getElem?, Array.getElem?_ofFn, dif_pos hk, ket]
  simp only [Option.getD_some, heq]

/-- The placed matrix does to the array what the leaf does to the state. -/
theorem Shows.applyAt {state : Array κ} {ψ : Finset Qubit → κ} {l : Leaf κ}
    (h : Shows order state ψ) (ho : order.Nodup) (hn : l.qubits.Nodup)
    (hq : ∀ q ∈ l.qubits, q ∈ order) :
    Shows order (Dense.applyAt l.matrix
      (.ofPlaces (basisSize order.length) (l.qubits.map (placeIn order))) state) (l.act ψ) := by
  refine ⟨by rw [Dense.applyAt, Array.size_ofFn, h.size], fun k hk => ?_⟩
  have hk' : k < state.size := h.size ▸ hk
  rw [Dense.applyAt, Array.getD_eq_getD_getElem?, Array.getElem?_ofFn, dif_pos hk',
    Option.getD_some]
  have hoffsets : (Placement.ofPlaces (basisSize order.length)
      (l.qubits.map (placeIn order))).offsets.size = basisSize l.qubits.length := by
    rw [Placement.ofPlaces, spreadTable, Array.size_ofFn, List.length_map]
  have hnumber : (Placement.ofPlaces (basisSize order.length)
      (l.qubits.map (placeIn order))).numbers.getD k 0 = numberOn l.qubits (setOn order k ∅) := by
    rw [Placement.ofPlaces, Array.getD_eq_getD_getElem?, Array.getElem?_ofFn, dif_pos hk,
      Option.getD_some, gatherBits_placeIn ho hq]
  simp only [hoffsets, hnumber]
  rw [sumBelow_eq, Leaf.act]
  refine Finset.sum_congr rfl fun c hc => ?_
  have hc : c < basisSize (l.qubits.map (placeIn order)).length := by
    rw [List.length_map]
    exact Finset.mem_range.mp hc
  -- the entry for `c` is read where the bits of `k` on the leaf's qubits are those of `c`
  have hindex : (Placement.ofPlaces (basisSize order.length)
      (l.qubits.map (placeIn order))).bases.getD k 0 ||| (Placement.ofPlaces
        (basisSize order.length) (l.qubits.map (placeIn order))).offsets.getD c 0 =
      (k - (k &&& (l.qubits.map (placeIn order)).foldl (fun acc p => acc ||| (1 <<< p)) 0)) |||
        spreadBits (l.qubits.map (placeIn order)) c := by
    simp only [Placement.ofPlaces, spreadTable, Array.getD_eq_getD_getElem?, Array.getElem?_ofFn,
      dif_pos hk, dif_pos hc, Option.getD_some]
  have hlt : (k - (k &&& (l.qubits.map (placeIn order)).foldl (fun acc p => acc ||| (1 <<< p)) 0)) |||
      spreadBits (l.qubits.map (placeIn order)) c < basisSize order.length := by
    refine Nat.or_lt_two_pow (Nat.lt_of_le_of_lt (Nat.sub_le _ _) hk) (spreadBits_lt fun p hp => ?_)
    obtain ⟨q, hmem, rfl⟩ := List.mem_map.mp hp
    exact placeIn_lt (hq q hmem)
  rw [hindex, h.entry _ hlt, setOn_replaced ho hn hq]

theorem Shows.applyAll {state : Array κ} {ψ : Finset Qubit → κ} {ls : List (Leaf κ)}
    (h : Shows order state ψ) (ho : order.Nodup) (hn : ∀ l ∈ ls, l.qubits.Nodup)
    (hq : ∀ l ∈ ls, ∀ q ∈ l.qubits, q ∈ order) :
    Shows order ((ls.map fun l => (l.matrix, Placement.ofPlaces (basisSize order.length)
      (l.qubits.map (placeIn order)))).foldl (fun state l => Dense.applyAt l.1 l.2 state) state)
      (actAll ls ψ) := by
  induction ls generalizing state ψ with
  | nil => exact h
  | cons l ls ih =>
    exact ih (h.applyAt ho (hn l List.mem_cons_self) (hq l List.mem_cons_self))
      (fun k hk => hn k (List.mem_cons_of_mem _ hk)) fun k hk => hq k (List.mem_cons_of_mem _ hk)

/-- Evaluation on ordered qubits that begin with the inputs. -/
theorem evaluate_eq {inputs rest outputs : List Qubit} {ls : List (Leaf κ)}
    (ho : (inputs ++ rest).Nodup) (hout : outputs.Nodup) (hmem : ∀ q ∈ outputs, q ∈ inputs ++ rest)
    (hn : ∀ l ∈ ls, l.qubits.Nodup) (hq : ∀ l ∈ ls, ∀ q ∈ l.qubits, q ∈ inputs ++ rest) :
    evaluate (inputs ++ rest) inputs.length (outputs.map (placeIn (inputs ++ rest))) ls =
      .ofFn (basisSize outputs.length) (basisSize inputs.length) (amplitude ls inputs outputs) := by
  unfold evaluate
  rw [List.length_map]
  refine DenseMatrix.ofFn_congr fun r hr c hc => ?_
  have hlen : (inputs ++ rest).length - inputs.length = rest.length := by
    rw [List.length_append, Nat.add_sub_cancel_left]
  have hstart : c <<< rest.length < basisSize (inputs ++ rest).length := by
    rw [Nat.shiftLeft_eq, List.length_append, basisSize, Nat.pow_eq, pow_add]
    exact Nat.mul_lt_mul_of_pos_right hc (Nat.two_pow_pos _)
  have hshows := (shows_basisState (κ := κ) ho hstart).applyAll ho hn hq
  rw [setOn_shiftLeft ho] at hshows
  have hr' : r < basisSize (outputs.map (placeIn (inputs ++ rest))).length := by
    rwa [List.length_map]
  have hspread : spreadBits (outputs.map (placeIn (inputs ++ rest))) r <
      basisSize (inputs ++ rest).length := by
    refine spreadBits_lt fun p hp => ?_
    obtain ⟨q, hq, rfl⟩ := List.mem_map.mp hp
    exact placeIn_lt (hmem q hq)
  have hcolumn : ∀ column : Nat → Array κ,
      ((List.range (basisSize inputs.length)).map column).toArray.getD c #[] = column c := by
    intro column
    rw [Array.getD_eq_getD_getElem?, List.getElem?_toArray, List.getElem?_map,
      List.getElem?_range hc, Option.map_some, Option.getD_some]
  rw [hcolumn, Array.getD_eq_getD_getElem?, Array.getElem?_map, spreadTable, Array.getElem?_ofFn,
    dif_pos hr', Option.map_some, Option.getD_some, hlen, amplitude, ← setOn_spreadBits ho hout hmem]
  exact hshows.entry _ hspread

/-- The matrix of leaves on different qubits lists their amplitudes, if there are not too many qubits. -/
theorem assemble_eq {inputs outputs : List Qubit} {ls : List (Leaf κ)} (hi : inputs.Nodup)
    (ho : outputs.Nodup) (hn : ∀ l ∈ ls, l.qubits.Nodup) :
    assemble inputs outputs ls =
      let width := (inputs ++ outputs ++ ls.flatMap Leaf.qubits).toFinset.card
      if maxDenseQubits < width then .error (.tooManyQubits width maxDenseQubits)
      else .ok (.ofFn (basisSize outputs.length) (basisSize inputs.length)
        (amplitude ls inputs outputs)) := by
  obtain ⟨rest, horder⟩ := exists_firstUses_append hi (outputs ++ ls.flatMap Leaf.qubits)
  rw [← List.append_assoc] at horder
  have hnodup := horder ▸ nodup_firstUses (inputs ++ outputs ++ ls.flatMap Leaf.qubits)
  have hmem : ∀ q, q ∈ inputs ++ outputs ++ ls.flatMap Leaf.qubits → q ∈ inputs ++ rest :=
    fun q hq => horder ▸ mem_firstUses.mpr hq
  have hwidth : (inputs ++ outputs ++ ls.flatMap Leaf.qubits).toFinset.card =
      (inputs ++ rest).length := by
    rw [← List.toFinset_card_of_nodup hnodup, ← horder]
    congr 1
    ext q
    rw [List.mem_toFinset, List.mem_toFinset, mem_firstUses]
  have heval := evaluate_eq hnodup ho
    (fun q hq => hmem q (List.mem_append_left _ (List.mem_append_right _ hq))) hn
    (fun l hl q hq => hmem q (List.mem_append_right _ (List.mem_flatMap.mpr ⟨l, hl, hq⟩)))
  simp only [hwidth, ← heval]
  unfold assemble
  simp only [horder]
  split <;> rfl

/-! ## Operations -/

section
variable [GateKind γ] {meaning : GateMeaning γ κ} {own : γ → DenseMatrix κ}
  {ops : List (Operation γ)} {inputs outputs : List Qubit}

/-- An operation on different qubits, whose gate has a matrix of its own of the right dimension. -/
structure Direct (meaning : GateMeaning γ κ) (own : γ → DenseMatrix κ) (op : Operation γ) : Prop where
  matrix : meaning.unitary op.gate = .ok (some (own op.gate))
  fits : (leafBy own op).Fits

omit [ExactAmplitude κ] in
theorem ownLeaves_eq_ok (h : ∀ op ∈ ops, (leafBy own op).Fits) :
    ownLeaves own ops = .ok (ops.map (leafBy own)) := by
  induction ops with
  | nil => rfl
  | cons op ops ih =>
    have hop := h op List.mem_cons_self
    have hleaf : leafOf op (own op.gate) = .ok (leafBy own op) := if_pos ⟨hop.rows, hop.cols⟩
    have hrest := ih fun o ho => h o (List.mem_cons_of_mem _ ho)
    rw [ownLeaves] at hrest
    rw [ownLeaves, List.mapM_cons, hleaf, hrest]
    rfl

/-- What dense evaluation gives, and when it refuses. -/
theorem between_direct (h : ∀ op ∈ ops, Direct meaning own op) (hi : inputs.Nodup)
    (ho : outputs.Nodup) :
    between meaning ops inputs outputs =
      let width := (inputs ++ outputs ++ ops.flatMap (·.qubits)).toFinset.card
      if maxDenseQubits < width then .error (.tooManyQubits width maxDenseQubits)
      else .ok (.ofFn (basisSize outputs.length) (basisSize inputs.length)
        (amplitude (ops.map (leafBy own)) inputs outputs)) := by
  have hqubits : (ops.map (leafBy own)).flatMap Leaf.qubits = ops.flatMap (·.qubits) :=
    List.flatMap_map _ _ _
  have hleaf : ∀ l ∈ ops.map (leafBy own), l.qubits.Nodup := by
    intro l hl
    obtain ⟨op, hop, rfl⟩ := List.mem_map.mp hl
    exact (h op hop).fits.nodup
  rw [between_of_own fun op hop => (h op hop).matrix, ownLeaves_eq_ok fun op hop => (h op hop).fits]
  show assemble inputs outputs (ops.map (leafBy own)) = _
  rw [assemble_eq hi ho hleaf, hqubits]

/-- Operations on different qubits may change places. -/
theorem Commuted.between {ops' : List (Operation γ)} (hc : Commuted ops ops')
    (h : ∀ op ∈ ops, Direct meaning own op) (hi : inputs.Nodup) (ho : outputs.Nodup) :
    Dense.between meaning ops inputs outputs = Dense.between meaning ops' inputs outputs := by
  have h' : ∀ op ∈ ops', Direct meaning own op := fun op hop => h op (hc.perm.symm.subset hop)
  have hqubits : (inputs ++ outputs ++ ops.flatMap (·.qubits)).toFinset =
      (inputs ++ outputs ++ ops'.flatMap (·.qubits)).toFinset :=
    List.toFinset_eq_of_perm _ _ ((hc.perm.flatMap_right (·.qubits)).append_left _)
  have hamp : amplitude (ops.map (leafBy own)) inputs outputs =
      amplitude (ops'.map (leafBy own)) inputs outputs := by
    funext row col
    rw [amplitude, amplitude, hc.actAll fun op hop => (h op hop).fits.nodup]
  rw [between_direct h hi ho, between_direct h' hi ho, hqubits, hamp]

/-- On not too many qubits, dense evaluation gives the matrix of the amplitudes that the gates'
matrices make, one after another, out of the basis states of the inputs. -/
theorem between_eq_amplitudes (h : ∀ op ∈ ops, Direct meaning own op) (hi : inputs.Nodup)
    (ho : outputs.Nodup)
    (hw : (inputs ++ outputs ++ ops.flatMap (·.qubits)).toFinset.card ≤ maxDenseQubits) :
    Dense.between meaning ops inputs outputs =
      .ok (.ofFn (basisSize outputs.length) (basisSize inputs.length)
        (amplitude (ops.map (leafBy own)) inputs outputs)) := by
  rw [between_direct h hi ho]
  exact if_neg (Nat.not_lt.mpr hw)

end

/-- Two qubits that a gate and a controlled not entangle, over the complex numbers. -/
theorem between_eq_amplitudes_entangled :
    let own (g : Gate ℝ ℂ) : DenseMatrix ℂ := match g with
      | .standard g => g.matrix?.getD (.identity 0)
      | _ => .identity 0
    let ops : List (Operation (Gate ℝ ℂ)) :=
      [⟨.standard .h, [.named "a"]⟩, ⟨.standard .cx, [.named "a", .named "b"]⟩]
    Dense.between Gate.meaning ops [.named "a"] [.named "b", .named "a"] =
      .ok (.ofFn 4 2 (amplitude (ops.map (leafBy own)) [.named "a"] [.named "b", .named "a"])) := by
  intro own ops
  have hdirect : ∀ op ∈ ops, Direct Gate.meaning own op := by
    intro op hop
    obtain rfl | rfl : op = ⟨.standard .h, [.named "a"]⟩ ∨
        op = ⟨.standard .cx, [.named "a", .named "b"]⟩ := by simpa [ops] using hop
    · exact ⟨rfl, rfl, rfl, by decide⟩
    · exact ⟨rfl, rfl, rfl, by decide⟩
  exact between_eq_amplitudes hdirect (by decide) (by decide) (by decide)

end Dense
end BloqCircuit
