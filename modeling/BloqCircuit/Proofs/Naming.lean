import Std.Data.String.ToNat
import Mathlib.Data.List.Pairwise
import Mathlib.Data.List.TakeWhile
import BloqCircuit.Proofs.Carriers
/-! Qubits named after registers are different, as long as no single bit bears the name of a bit of another
register; without brackets in the names of registers none does. -/
namespace BloqCircuit

/-! ## Texts of indices -/

private theorem eq_of_takeWhile {a b s t : List Char} {c : Char} (ha : c ∉ a) (hb : c ∉ b)
    (h : a ++ c :: s = b ++ c :: t) : a = b := by
  have htake : ∀ {x : List Char} (y : List Char), c ∉ x → (x ++ c :: y).takeWhile (· != c) = x := by
    intro x y hx
    have hall : ∀ d ∈ x, (d != c) = true := fun d hd => bne_iff_ne.mpr fun he => hx (he ▸ hd)
    rw [List.takeWhile_append_of_pos hall, List.takeWhile_cons_of_neg (by simp), List.append_nil]
  rw [← htake s ha, h, htake t hb]

private theorem notMem_repr {c : Char} (hc : c.isDigit = false) (n : Nat) : c ∉ (toString n).toList := by
  intro h
  rw [show toString n = n.repr from rfl, Nat.toList_repr] at h
  have hdigit := Nat.isDigit_of_mem_toDigits (by decide) (by decide) h
  rw [hc] at hdigit
  cases hdigit

private theorem eq_of_intercalate {ns ms : List Nat} (hl : ns.length = ms.length)
    (h : [',', ' '].intercalate (ns.map fun n => (toString n).toList) =
      [',', ' '].intercalate (ms.map fun n => (toString n).toList)) : ns = ms := by
  have hone : ∀ {n m : Nat}, (toString n).toList = (toString m).toList → n = m :=
    fun h => Nat.repr_injective (String.toList_inj.mp h)
  induction ns generalizing ms with
  | nil => exact (List.length_eq_zero_iff.mp hl.symm).symm
  | cons n ns ih =>
    obtain _ | ⟨m, ms⟩ := ms
    · cases hl
    obtain _ | ⟨n', ns⟩ := ns
    · obtain rfl := List.length_eq_zero_iff.mp (Nat.succ.inj hl.symm)
      have h : n = m := hone (by simpa using h)
      rw [h]
    · obtain _ | ⟨m', ms⟩ := ms
      · cases hl
      rw [List.map_cons, List.map_cons, List.map_cons, List.map_cons, List.intercalate_cons_cons,
        List.intercalate_cons_cons, List.append_assoc, List.append_assoc] at h
      have hhead := eq_of_takeWhile (notMem_repr (by decide) n) (notMem_repr (by decide) m) h
      rw [hhead] at h
      rw [hone hhead, ih (Nat.succ.inj hl) (List.append_cancel_left (List.append_cancel_left h))]

private theorem bracket_notMem_intercalate (ns : List Nat) :
    '[' ∉ [',', ' '].intercalate (ns.map fun n => (toString n).toList) := by
  induction ns with
  | nil => exact List.not_mem_nil
  | cons n ns ih =>
    have hn : '[' ∉ (toString n).toList := notMem_repr (by decide) n
    cases ns with
    | nil => simpa using hn
    | cons m ns =>
      rw [List.map_cons, List.map_cons, List.intercalate_cons_cons]
      simp only [List.mem_append, not_or]
      exact ⟨⟨hn, by decide⟩, ih⟩

private theorem toList_bracketed (ns : List Nat) : (bracketed ns).toList =
    '[' :: ([',', ' '].intercalate (ns.map fun n => (toString n).toList) ++ [']']) := by
  rw [bracketed, String.toList_append, String.toList_append, String.toList_intercalate, List.map_map]
  rfl

/-- Lists of one length have different texts if they are different. -/
theorem bracketed_inj {ns ms : List Nat} (hl : ns.length = ms.length)
    (h : bracketed ns = bracketed ms) : ns = ms := by
  have h := congrArg String.toList h
  rw [toList_bracketed, toList_bracketed] at h
  exact eq_of_intercalate hl (List.append_cancel_right (List.cons.inj h).2)

/-- A text in brackets can be told from what stands before it. -/
theorem eq_of_append_bracketed {a b : String} {ns ms : List Nat}
    (h : a ++ bracketed ns = b ++ bracketed ms) : a = b := by
  have h := congrArg (fun t => t.toList.reverse) h
  simp only [String.toList_append, toList_bracketed, List.reverse_append, List.reverse_cons,
    List.append_assoc, List.cons_append, List.nil_append, List.reverse_nil] at h
  have h := (List.cons.inj h).2
  have hnot : ∀ ns : List Nat,
      '[' ∉ ([',', ' '].intercalate (ns.map fun n => (toString n).toList)).reverse :=
    fun ns hmem => bracket_notMem_intercalate ns (List.mem_reverse.mp hmem)
  -- read from the end, the first opening bracket is the one that the text begins with
  have htext := eq_of_takeWhile (hnot ns) (hnot ms) h
  rw [htext] at h
  have hrest := (List.cons.inj (List.append_cancel_left h)).2
  exact String.toList_inj.mp (List.reverse_inj.mp hrest)

/-! ## Names of bits -/

namespace Register
variable {r s : Register} {i j : List Nat}

/-- The part of a bit's index that stands in its name. -/
private def nameIndex (r : Register) (i : List Nat) : List Nat :=
  if r.bitsize = 1 then i.dropLast else i

private theorem nameIndex_inj (hi : i ∈ shapeIndices r.qubitShape) (hj : j ∈ shapeIndices r.qubitShape)
    (h : r.nameIndex i = r.nameIndex j) : i = j := by
  unfold nameIndex at h
  split at h
  · next hone =>
    rw [indices_qubitShape, hone] at hi hj
    obtain ⟨i', -, hi⟩ := List.mem_flatMap.mp hi
    obtain ⟨j', -, hj⟩ := List.mem_flatMap.mp hj
    simp only [List.range_one, List.map_singleton, List.mem_singleton] at hi hj
    subst hi hj
    rw [List.dropLast_concat, List.dropLast_concat] at h
    rw [h]
  · exact h

theorem bitName_eq (r : Register) (i : List Nat) : r.bitName i =
    if (r.nameIndex i).isEmpty then r.name else r.name ++ bracketed (r.nameIndex i) := rfl

/-- Only a register of one bit leaves out its index. -/
private theorem qubitShape_of_nameIndex (hi : i ∈ shapeIndices r.qubitShape) (h : r.nameIndex i = []) :
    r.qubitShape = [1] := by
  have hlen := length_of_mem_shapeIndices hi
  rw [qubitShape, List.length_append, List.length_singleton] at hlen
  unfold nameIndex at h
  split at h
  · next hone =>
    have hdrop := congrArg List.length h
    rw [List.length_dropLast, hlen, Nat.add_sub_cancel, List.length_nil] at hdrop
    rw [qubitShape, List.length_eq_zero_iff.mp hdrop, hone, List.nil_append]
  · rw [h] at hlen
    cases hlen

/-- The register is a single bit and bears the name that a bit of the other register gets. -/
def Shadows (r s : Register) : Prop :=
  r.qubitShape = [1] ∧ ∃ j ∈ shapeIndices s.qubitShape, s.bitName j = r.name

/-- If bits of two registers have one name, then one of the registers is a single bit that bears it. -/
theorem shadows_of_bitName (hne : r.name ≠ s.name) (hi : i ∈ shapeIndices r.qubitShape)
    (hj : j ∈ shapeIndices s.qubitShape) (h : r.bitName i = s.bitName j) : r.Shadows s ∨ s.Shadows r := by
  cases hri : r.nameIndex i with
  | nil =>
    have hr : r.bitName i = r.name := by rw [bitName_eq, hri]; rfl
    exact .inl ⟨qubitShape_of_nameIndex hi hri, j, hj, h.symm.trans hr⟩
  | cons a as =>
    cases hsj : s.nameIndex j with
    | nil =>
      have hs : s.bitName j = s.name := by rw [bitName_eq, hsj]; rfl
      exact .inr ⟨qubitShape_of_nameIndex hj hsj, i, hi, h.trans hs⟩
    | cons b bs =>
      rw [bitName_eq, bitName_eq, hri, hsj] at h
      exact absurd (eq_of_append_bracketed h) hne

/-- A name without a bracket is shadowed by no other register. -/
theorem not_shadows (hne : r.name ≠ s.name) (hr : '[' ∉ r.name.toList) : ¬r.Shadows s := by
  rintro ⟨-, j, -, hj⟩
  rw [bitName_eq] at hj
  split at hj
  · exact hne hj.symm
  · refine hr ?_
    rw [← hj, String.toList_append, toList_bracketed]
    exact List.mem_append_right _ List.mem_cons_self

theorem bitName_of_single (h : r.qubitShape = [1]) : r.bitName [0] = r.name := by
  have hshape : r.shape ++ [r.bitsize] = [] ++ [1] := h
  have hone : r.bitsize = 1 := List.singleton_inj.mp (List.append_inj' hshape rfl).2
  have hindex : r.nameIndex [0] = [] := if_pos hone
  rw [bitName_eq, hindex]
  rfl

/-- Different bits of a register have different names. -/
theorem bitName_inj (hi : i ∈ shapeIndices r.qubitShape) (hj : j ∈ shapeIndices r.qubitShape)
    (h : r.bitName i = r.bitName j) : i = j := by
  have hlen : (r.nameIndex i).length = (r.nameIndex j).length := by
    have hij := (length_of_mem_shapeIndices hi).trans (length_of_mem_shapeIndices hj).symm
    unfold nameIndex
    split
    · rw [List.length_dropLast, List.length_dropLast, hij]
    · exact hij
  refine nameIndex_inj hi hj ?_
  rw [bitName_eq, bitName_eq] at h
  cases hi : r.nameIndex i with
  | nil =>
    rw [hi, List.length_nil] at hlen
    exact (List.length_eq_zero_iff.mp hlen.symm).symm
  | cons a as =>
    cases hj : r.nameIndex j with
    | nil =>
      rw [hi, hj] at hlen
      cases hlen
    | cons b bs =>
      rw [hi, hj] at h hlen
      have h : r.name ++ bracketed (a :: as) = r.name ++ bracketed (b :: bs) := h
      have h := congrArg String.toList h
      rw [String.toList_append, String.toList_append] at h
      exact bracketed_inj hlen (String.toList_inj.mp (List.append_cancel_left h))

theorem mem_namedArray {q : Qubit} :
    q ∈ r.namedArray.toList ↔ ∃ i ∈ shapeIndices r.qubitShape, .named (r.bitName i) = q := by
  rw [namedArray, Grid.toList_ofFn, List.mem_map]

/-- Different bits sit on different qubits. -/
theorem nodup_namedArray (r : Register) : r.namedArray.toList.Nodup := by
  rw [namedArray, Grid.toList_ofFn]
  exact (nodup_shapeIndices r.qubitShape).map_on fun i hi j hj h =>
    bitName_inj hi hj (Qubit.named.inj h)

end Register

namespace Quregs
variable {registers : List Register}

theorem arrayIn_named (hn : (registers.map (·.name)).Nodup) {r : Register} (hr : r ∈ registers) :
    r.arrayIn (named registers) = .ok r.namedArray := by
  have hnamed : named registers = Arrays.byRegister registers Register.namedArray :=
    Arrays.ofList_eq (by rwa [List.map_map])
  rw [hnamed]
  exact Register.arrayIn_eq_ok.mpr ⟨Arrays.get?_byRegister hn hr, rfl⟩

/-- The named arrays of registers are merged register by register. -/
theorem merge_named (hn : (registers.map (·.name)).Nodup) :
    (named registers).merge registers = .ok (registers.flatMap fun r => r.namedArray.toList) := by
  have hparts : (registers.mapM fun r => do
      let g ← r.arrayIn (named registers)
      return g.toList) = .ok (registers.map fun r => r.namedArray.toList) := by
    refine mapM_eq_ok fun r hr => ?_
    rw [arrayIn_named hn hr]
    rfl
  rw [merge, hparts, List.flatMap_def]
  rfl

/-- Qubits named after registers are different exactly if no single bit bears the name of a bit of another
register. -/
theorem nodup_named_iff (hn : (registers.map (·.name)).Nodup) :
    (registers.flatMap fun r => r.namedArray.toList).Nodup ↔
      ∀ r ∈ registers, ∀ s ∈ registers, r.name ≠ s.name → ¬r.Shadows s := by
  rw [List.nodup_flatMap, and_iff_right fun r _ => r.nodup_namedArray]
  constructor
  · rintro h r hr s hs hne ⟨hone, j, hj, hname⟩
    have hsymm : Std.Symm (Function.onFun List.Disjoint fun r : Register => r.namedArray.toList) :=
      ⟨fun _ _ hd => hd.symm⟩
    have hapart := h.forall hr hs fun heq => hne (heq ▸ rfl)
    refine hapart (Register.mem_namedArray.mpr ⟨[0], ?_, rfl⟩)
      (Register.mem_namedArray.mpr ⟨j, hj, ?_⟩)
    · rw [hone]
      decide
    · rw [hname, Register.bitName_of_single hone]
  · intro h
    refine (List.pairwise_map.mp hn).imp_of_mem fun {r s} hr hs hne q hq hq' => ?_
    obtain ⟨i, hi, rfl⟩ := Register.mem_namedArray.mp hq
    obtain ⟨j, hj, hji⟩ := Register.mem_namedArray.mp hq'
    rcases Register.shadows_of_bitName hne hi hj (Qubit.named.inj hji).symm with hrs | hsr
    · exact h r hr s hs hne hrs
    · exact h s hs r hr hne.symm hsr

/-- Qubits named after registers whose names have no bracket are different. -/
theorem nodup_named (hn : (registers.map (·.name)).Nodup)
    (hb : ∀ r ∈ registers, '[' ∉ r.name.toList) :
    (registers.flatMap fun r => r.namedArray.toList).Nodup :=
  (nodup_named_iff hn).mpr fun r hr _ _ hne => Register.not_shadows hne (hb r hr)

theorem named_of_mem {q : Qubit} (h : q ∈ registers.flatMap fun r => r.namedArray.toList) :
    ∃ name, q = .named name := by
  obtain ⟨r, -, hq⟩ := List.mem_flatMap.mp h
  obtain ⟨i, -, rfl⟩ := Register.mem_namedArray.mp hq
  exact ⟨_, rfl⟩

end Quregs

/-! ## Inputs on named qubits -/

/-- What carries the ports of registers that are on qubits named after them. -/
def Labels.named : Labels := fun p => p.reg.lane p.reg.namedArray p.index

namespace Labels
variable {registers : List Register}

theorem fits_named (registers : List Register) : named.Fits 0 registers := by
  intro p hp
  obtain ⟨-, -, hi⟩ := mem_portsOn.mp hp
  exact Register.fits_lane rfl p.index hi

theorem array_named (r : Register) : named.array 0 r = r.namedArray :=
  Register.array_lane (g := r.namedArray) rfl

theorem on_named (registers : List Register) :
    named.on 0 registers = registers.flatMap fun r => r.namedArray.toList := by
  rw [on_eq_flatMap]
  refine List.flatMap_congr fun r _ => ?_
  rw [on_singleton]
  exact Register.flat_lane (g := r.namedArray) rfl

end Labels

/-- On the qubits named after its inputs, a valid signature puts each input wire on as many qubits as it
has bits. The wires share no qubit exactly if no input of a single bit bears the name that a bit of
another input gets; so none do if no input has a bracket in its name. -/
theorem Signature.Valid.named_inputs {s : Signature} (h : s.Valid) :
    ∃ qubits carriers, (Quregs.named s.lefts).merge s.lefts = .ok qubits ∧
      Export.bindInputs (Quregs.named s.lefts) s.lefts ∅ = .ok carriers ∧
      (∀ p ∈ portsOn 0 s.lefts, ∃ lane, carriers[p]? = some lane ∧ lane.length = p.reg.bitsize) ∧
      ((portsOn 0 s.lefts).flatMap fun p => carriers[p]?.getD []) = qubits ∧
      (qubits.Nodup ↔ ∀ r ∈ s.lefts, ∀ t ∈ s.lefts, r.name ≠ t.name → ¬r.Shadows t) ∧
      ((∀ r ∈ s.lefts, '[' ∉ r.name.toList) → qubits.Nodup) := by
  have hn := h.nodup_lefts
  obtain ⟨carriers, hbind, hget⟩ := Export.bindInputs_eq (L := Labels.named) ∅
    (fun r hr => (Quregs.arrayIn_named hn hr).trans (congrArg Except.ok (Labels.array_named r).symm))
    (Labels.fits_named s.lefts)
  have hlane : ∀ p ∈ portsOn 0 s.lefts, carriers[p]? = some (Labels.named p) := by
    intro p hp
    rw [hget, if_pos hp]
  refine ⟨_, carriers, Quregs.merge_named hn, hbind, fun p hp => ?_, ?_, Quregs.nodup_named_iff hn,
    Quregs.nodup_named hn⟩
  · exact ⟨_, hlane p hp, Labels.fits_named s.lefts p hp⟩
  · rw [← Labels.on_named, Labels.on]
    refine List.flatMap_congr fun p hp => ?_
    rw [hlane p hp, Option.getD_some]

/-- Two bits under one name, and a single bit that bears the name of the first: three wires on two qubits.
Under another name it is on a qubit of its own. -/
theorem Signature.Valid.named_inputs_shadowed :
    let s : Signature := ⟨[⟨"a", .qbit, [2], .thru⟩, ⟨"a[0]", .qbit, [], .thru⟩]⟩
    let t : Signature := ⟨[⟨"a", .qbit, [2], .thru⟩, ⟨"b", .qbit, [], .left⟩, ⟨"b", .qany 2, [], .right⟩]⟩
    (s.Valid ∧ ∃ qubits, (Quregs.named s.lefts).merge s.lefts = .ok qubits ∧ ¬qubits.Nodup) ∧
    (t.Valid ∧ ∃ qubits, (Quregs.named t.lefts).merge t.lefts = .ok qubits ∧ qubits.Nodup) := by
  intro s t
  have hs : s.Valid := by rfl
  have ht : t.Valid := by rfl
  obtain ⟨qubits, -, hmerge, -, -, -, hiff, -⟩ := hs.named_inputs
  obtain ⟨qubits', -, hmerge', -, -, -, -, hplain⟩ := ht.named_inputs
  refine ⟨⟨hs, qubits, hmerge, fun hnodup => ?_⟩, ht, qubits', hmerge', hplain (by decide)⟩
  exact hiff.mp hnodup ⟨"a[0]", .qbit, [], .thru⟩ (by decide) ⟨"a", .qbit, [2], .thru⟩ (by decide)
    (by decide) ⟨rfl, [0, 0], by decide, by decide +kernel⟩

end BloqCircuit
