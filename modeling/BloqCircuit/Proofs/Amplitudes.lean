import Mathlib.Algebra.BigOperators.Ring.Finset
import BloqCircuit.Proofs.ExactScalars
import BloqCircuit.Proofs.Evaluation
/-! What circuits of matrices mean. A basis state is the set of the qubits that are one; a state
gives each basis state an amplitude; a matrix acts on the qubits of its operation alone. -/
namespace BloqCircuit

theorem sumBelow_eq {κ : Type} [AddCommMonoid κ] (n : Nat) (f : Nat → κ) :
    sumBelow n f = ∑ k ∈ Finset.range n, f k := by
  induction n with
  | zero => rfl
  | succ n ih => rw [sumBelow, ih, Finset.sum_range_succ]

namespace DenseMatrix
variable {κ : Type}

theorem get_ofFn [Zero κ] {rows cols r c : Nat} (f : Nat → Nat → κ) (hr : r < rows) (hc : c < cols) :
    (ofFn rows cols f).get r c = f r c := by
  have hlt : r * cols + c < rows * cols :=
    calc r * cols + c < r * cols + cols := Nat.add_lt_add_left hc _
      _ = (r + 1) * cols := (Nat.succ_mul r cols).symm
      _ ≤ rows * cols := Nat.mul_le_mul_right cols hr
  have hdiv : (r * cols + c) / cols = r := by
    rw [Nat.mul_comm, Nat.mul_add_div (Nat.zero_lt_of_lt hc), Nat.div_eq_of_lt hc, Nat.add_zero]
  have hmod : (r * cols + c) % cols = c := by
    rw [Nat.mul_comm, Nat.mul_add_mod, Nat.mod_eq_of_lt hc]
  show (if c < cols then (Array.ofFn _).getD (r * cols + c) 0 else 0) = _
  rw [if_pos hc, Array.getD_eq_getD_getElem?, Array.getElem?_ofFn, dif_pos hlt]
  show f ((r * cols + c) / cols) ((r * cols + c) % cols) = _
  rw [hdiv, hmod]

/-- A matrix is made of its entries. -/
theorem ofFn_congr {rows cols : Nat} {f g : Nat → Nat → κ}
    (h : ∀ r < rows, ∀ c < cols, f r c = g r c) : ofFn rows cols f = ofFn rows cols g := by
  have hfun : (fun k : Fin (rows * cols) => f (k / cols) (k % cols)) =
      fun k : Fin (rows * cols) => g (k / cols) (k % cols) := by
    funext k
    have hpos : 0 < cols := Nat.pos_of_ne_zero fun h0 => by
      have := k.isLt
      simp [h0] at this
    exact h _ (Nat.div_lt_of_lt_mul (Nat.mul_comm rows cols ▸ k.isLt)) _ (Nat.mod_lt _ hpos)
  unfold ofFn
  simp only [hfun]

theorem get_adjoint [Amplitude κ] {m : DenseMatrix κ} {r c : Nat} (hr : r < m.cols) (hc : c < m.rows) :
    m.adjoint.get r c = Amplitude.conj (m.get c r) := get_ofFn _ hr hc

end DenseMatrix

namespace Dense
variable {γ κ : Type}

/-! ## Numbers in basis states -/

/-- The number that qubits show in a basis state, the first qubit the most significant. -/
def numberOn : List Qubit → Finset Qubit → Nat
  | [], _ => 0
  | q :: qs, x => (if q ∈ x then basisSize qs.length else 0) + numberOn qs x

/-- The basis state in which qubits show a number, and in which the others are as in `x`. -/
def setOn : List Qubit → Nat → Finset Qubit → Finset Qubit
  | [], _, x => x
  | q :: qs, n, x => setOn qs n (if n.testBit qs.length then insert q x else x.erase q)

variable {qs ps : List Qubit} {q : Qubit} {x y : Finset Qubit} {m n : Nat}

theorem mem_setOn_of_not_mem (hq : q ∉ qs) : q ∈ setOn qs n x ↔ q ∈ x := by
  induction qs generalizing x with
  | nil => rfl
  | cons p qs ih =>
    obtain ⟨hp, hq⟩ := List.ne_and_not_mem_of_not_mem_cons hq
    rw [setOn, ih hq]
    split
    · rw [Finset.mem_insert, or_iff_right hp]
    · rw [Finset.mem_erase, and_iff_right hp]

theorem mem_setOn (hn : qs.Nodup) (hq : q ∈ qs) :
    q ∈ setOn qs n x ↔ n.testBit (qs.length - 1 - qs.idxOf q) = true := by
  induction qs generalizing x with
  | nil => cases hq
  | cons p qs ih =>
    obtain ⟨hp, hn⟩ := List.nodup_cons.mp hn
    rw [setOn, List.length_cons]
    by_cases he : p = q
    · subst he
      rw [mem_setOn_of_not_mem hp, List.idxOf_cons_self]
      show _ ↔ n.testBit qs.length = true
      split
      · next h => simp [h]
      · next h => simp [h]
    · have hq := (List.mem_cons.mp hq).resolve_left (Ne.symm he)
      have hi : qs.idxOf q < qs.length := List.idxOf_lt_length_iff.mpr hq
      rw [ih hn hq, List.idxOf_cons_ne qs he,
        show qs.length + 1 - 1 - (qs.idxOf q + 1) = qs.length - 1 - qs.idxOf q by omega]

theorem numberOn_lt (qs : List Qubit) (x : Finset Qubit) : numberOn qs x < basisSize qs.length := by
  induction qs with
  | nil => exact Nat.one_pos
  | cons q qs ih =>
    have hsize : basisSize (q :: qs).length = basisSize qs.length + basisSize qs.length := by
      rw [List.length_cons, basisSize, basisSize]
      exact (pow_succ 2 _).trans (Nat.mul_two _)
    rw [numberOn, hsize]
    split <;> omega

/-- Qubits show the number that they are set to, as far as they can. -/
theorem numberOn_setOn (hn : qs.Nodup) : numberOn qs (setOn qs n x) = n % basisSize qs.length := by
  induction qs generalizing x with
  | nil => exact (Nat.mod_one n).symm
  | cons q qs ih =>
    obtain ⟨hq, hn⟩ := List.nodup_cons.mp hn
    have hmod : n % basisSize (q :: qs).length =
        n % basisSize qs.length + basisSize qs.length * (n.testBit qs.length).toNat := by
      rw [List.length_cons, Nat.toNat_testBit]
      exact Nat.mod_mul
    rw [numberOn, setOn, ih hn, hmod]
    simp only [mem_setOn_of_not_mem hq]
    cases n.testBit qs.length <;> simp [Nat.add_comm]

theorem numberOn_congr (h : ∀ q ∈ qs, q ∈ x ↔ q ∈ y) : numberOn qs x = numberOn qs y := by
  induction qs with
  | nil => rfl
  | cons q qs ih =>
    rw [numberOn, numberOn, ih fun p hp => h p (List.mem_cons_of_mem _ hp)]
    simp only [h q List.mem_cons_self]

theorem testBit_numberOn (hq : q ∈ qs) :
    (numberOn qs x).testBit (qs.length - 1 - qs.idxOf q) = decide (q ∈ x) := by
  induction qs with
  | nil => cases hq
  | cons p qs ih =>
    have hlt : numberOn qs x < 2 ^ qs.length := numberOn_lt qs x
    have htop : ∀ i, (numberOn (p :: qs) x).testBit i =
        if i < qs.length then (numberOn qs x).testBit i
        else (if p ∈ x then 1 else 0 : Nat).testBit (i - qs.length) := by
      intro i
      have hform : numberOn (p :: qs) x = 2 ^ qs.length * (if p ∈ x then 1 else 0) + numberOn qs x := by
        rw [numberOn]
        split <;> simp [basisSize]
      rw [hform, Nat.testBit_two_pow_mul_add _ hlt]
    rw [htop, List.length_cons]
    by_cases he : p = q
    · subst he
      rw [List.idxOf_cons_self, if_neg (by omega), show qs.length + 1 - 1 - 0 - qs.length = 0 by omega]
      split <;> simp_all
    · have hq := (List.mem_cons.mp hq).resolve_left (Ne.symm he)
      have hi : qs.idxOf q < qs.length := List.idxOf_lt_length_iff.mpr hq
      rw [List.idxOf_cons_ne qs he,
        show qs.length + 1 - 1 - (qs.idxOf q + 1) = qs.length - 1 - qs.idxOf q by omega,
        if_pos (by omega), ih hq]

/-- Setting qubits to what they show changes nothing. -/
theorem setOn_numberOn (hn : qs.Nodup) : setOn qs (numberOn qs x) x = x := by
  ext q
  by_cases hq : q ∈ qs
  · rw [mem_setOn hn hq, testBit_numberOn hq, decide_eq_true_iff]
  · rw [mem_setOn_of_not_mem hq]

/-- Only the last number that qubits are set to counts. -/
theorem setOn_setOn (hn : qs.Nodup) : setOn qs m (setOn qs n x) = setOn qs m x := by
  ext q
  by_cases hq : q ∈ qs
  · rw [mem_setOn hn hq, mem_setOn hn hq]
  · rw [mem_setOn_of_not_mem hq, mem_setOn_of_not_mem hq, mem_setOn_of_not_mem hq]

theorem numberOn_setOn_of_disjoint (hd : qs.Disjoint ps) :
    numberOn qs (setOn ps n x) = numberOn qs x :=
  numberOn_congr fun _ hq => mem_setOn_of_not_mem (hd hq)

theorem setOn_comm (hqs : qs.Nodup) (hps : ps.Nodup) (hd : qs.Disjoint ps) :
    setOn qs m (setOn ps n x) = setOn ps n (setOn qs m x) := by
  ext q
  by_cases hq : q ∈ qs
  · rw [mem_setOn hqs hq, mem_setOn_of_not_mem (hd hq), mem_setOn hqs hq]
  · rw [mem_setOn_of_not_mem hq]
    by_cases hp : q ∈ ps
    · rw [mem_setOn hps hp, mem_setOn hps hp]
    · rw [mem_setOn_of_not_mem hp, mem_setOn_of_not_mem hp, mem_setOn_of_not_mem hq]

theorem setOn_subset {U : Finset Qubit} (hq : ∀ q ∈ qs, q ∈ U) (hx : x ⊆ U) : setOn qs n x ⊆ U := by
  intro q h
  by_cases hmem : q ∈ qs
  · exact hq q hmem
  · exact hx ((mem_setOn_of_not_mem hmem).mp h)

/-- Qubits that all show what two numbers say are set by the same number. -/
theorem setOn_injective (hn : qs.Nodup) (hm : m < basisSize qs.length) (hlt : n < basisSize qs.length)
    (h : setOn qs m x = setOn qs n y) : m = n := by
  rw [← Nat.mod_eq_of_lt hm, ← Nat.mod_eq_of_lt hlt, ← numberOn_setOn hn (x := x), h,
    numberOn_setOn hn]

/-! ## Matrices on states -/

section
variable [ExactAmplitude κ]

/-- A matrix acts on its qubits, and as the identity elsewhere. -/
def Leaf.act (l : Leaf κ) (ψ : Finset Qubit → κ) (x : Finset Qubit) : κ :=
  ∑ c ∈ Finset.range (basisSize l.qubits.length),
    l.matrix.get (numberOn l.qubits x) c * ψ (setOn l.qubits c x)

/-- Matrices act one after another. -/
def actAll (ls : List (Leaf κ)) (ψ : Finset Qubit → κ) : Finset Qubit → κ :=
  ls.foldl (fun ψ l => l.act ψ) ψ

/-- The state that is one basis state. -/
def ket (x y : Finset Qubit) : κ := if y = x then 1 else 0

/-- The amplitude of the basis state with `row` in the outputs and zero elsewhere, after matrices
have acted on the basis state with `col` in the inputs and zero elsewhere. -/
def amplitude (ls : List (Leaf κ)) (inputs outputs : List Qubit) (row col : Nat) : κ :=
  actAll ls (ket (setOn inputs col ∅)) (setOn outputs row ∅)

theorem actAll_nil (ψ : Finset Qubit → κ) : actAll [] ψ = ψ := rfl

theorem actAll_cons (l : Leaf κ) (ls : List (Leaf κ)) (ψ : Finset Qubit → κ) :
    actAll (l :: ls) ψ = actAll ls (l.act ψ) := rfl

theorem actAll_append (ls ks : List (Leaf κ)) (ψ : Finset Qubit → κ) :
    actAll (ls ++ ks) ψ = actAll ks (actAll ls ψ) := List.foldl_append

/-- Matrices on different qubits commute. -/
theorem Leaf.act_comm {l k : Leaf κ} (hl : l.qubits.Nodup) (hk : k.qubits.Nodup)
    (hd : l.qubits.Disjoint k.qubits) (ψ : Finset Qubit → κ) : l.act (k.act ψ) = k.act (l.act ψ) := by
  funext x
  unfold act
  simp only [Finset.mul_sum]
  rw [Finset.sum_comm]
  refine Finset.sum_congr rfl fun d _ => Finset.sum_congr rfl fun c _ => ?_
  rw [numberOn_setOn_of_disjoint hd.symm, numberOn_setOn_of_disjoint hd, setOn_comm hk hl hd.symm,
    mul_left_comm]

/-! ## Operations that change places -/

/-- Lists of operations of which neighbours on different qubits may have changed places. -/
inductive Commuted {γ : Type} : List (Operation γ) → List (Operation γ) → Prop where
  | nil : Commuted [] []
  | cons (op : Operation γ) {xs ys : List (Operation γ)} : Commuted xs ys → Commuted (op :: xs) (op :: ys)
  | swap {a b : Operation γ} (xs : List (Operation γ)) :
    a.qubits.Disjoint b.qubits → Commuted (a :: b :: xs) (b :: a :: xs)
  | trans {xs ys zs : List (Operation γ)} : Commuted xs ys → Commuted ys zs → Commuted xs zs

namespace Commuted
variable {xs ys pre post : List (Operation γ)} {a : Operation γ}

theorem refl (xs : List (Operation γ)) : Commuted xs xs := by
  induction xs with
  | nil => exact .nil
  | cons op xs ih => exact .cons op ih

theorem perm (h : Commuted xs ys) : xs.Perm ys := by
  induction h with
  | nil => exact .nil
  | cons op _ ih => exact ih.cons op
  | swap xs _ => exact .swap _ _ xs
  | trans _ _ ih ih' => exact ih.trans ih'

/-- An operation moves in front of others that it shares no qubit with. -/
theorem move (h : ∀ op ∈ pre, op.qubits.Disjoint a.qubits) :
    Commuted (pre ++ a :: post) (a :: (pre ++ post)) := by
  induction pre with
  | nil => exact refl _
  | cons op pre ih =>
    exact (Commuted.cons op (ih fun o ho => h o (List.mem_cons_of_mem _ ho))).trans
      (.swap _ (h op List.mem_cons_self))

end Commuted

/-- A gate's matrix on the qubits of an operation. -/
def leafBy (own : γ → DenseMatrix κ) (op : Operation γ) : Leaf κ := ⟨own op.gate, op.qubits⟩

/-- Operations on different qubits have the same effect in either order. -/
theorem Commuted.actAll {own : γ → DenseMatrix κ} {xs ys : List (Operation γ)} (h : Commuted xs ys)
    (hn : ∀ op ∈ xs, op.qubits.Nodup) (ψ : Finset Qubit → κ) :
    Dense.actAll (xs.map (leafBy own)) ψ = Dense.actAll (ys.map (leafBy own)) ψ := by
  induction h generalizing ψ with
  | nil => rfl
  | cons op _ ih => exact ih (fun o ho => hn o (List.mem_cons_of_mem _ ho)) _
  | @swap a b xs hd =>
    have hcomm := Leaf.act_comm (l := leafBy own b) (k := leafBy own a)
      (hn b (List.mem_cons_of_mem _ List.mem_cons_self)) (hn a List.mem_cons_self) hd.symm ψ
    exact congrArg (Dense.actAll (xs.map (leafBy own))) hcomm
  | trans h _ ih ih' =>
    exact (ih hn ψ).trans (ih' (fun op hop => hn op (h.perm.symm.subset hop)) ψ)

/-! ## The adjoint of a run -/

/-- The conjugate transpose on the same qubits. -/
def Leaf.adjoint (l : Leaf κ) : Leaf κ := ⟨l.matrix.adjoint, l.qubits⟩

/-- A matrix on as many qubits as it is for, no two the same. -/
structure Leaf.Fits (l : Leaf κ) : Prop where
  rows : l.matrix.rows = basisSize l.qubits.length
  cols : l.matrix.cols = basisSize l.qubits.length
  nodup : l.qubits.Nodup

variable {U : Finset Qubit}

/-- Under the product of states on finitely many qubits, the conjugate transpose is the adjoint. A
basis state and a number to be written into it are exchanged for the result of writing it and the
number that was there. -/
theorem Leaf.Fits.sum_act_adjoint {l : Leaf κ} (h : l.Fits) (hU : ∀ q ∈ l.qubits, q ∈ U)
    (φ ψ : Finset Qubit → κ) :
    ∑ x ∈ U.powerset, Amplitude.conj (l.adjoint.act φ x) * ψ x =
      ∑ x ∈ U.powerset, Amplitude.conj (φ x) * l.act ψ x := by
  have hentry : ∀ x, ∀ c ∈ Finset.range (basisSize l.qubits.length),
      Amplitude.conj (l.matrix.adjoint.get (numberOn l.qubits x) c) =
        l.matrix.get c (numberOn l.qubits x) := by
    intro x c hc
    rw [DenseMatrix.get_adjoint (h.cols.symm ▸ numberOn_lt l.qubits x)
      (h.rows.symm ▸ Finset.mem_range.mp hc), Amplitude.conj_conj]
  have hleft : ∀ x, Amplitude.conj (l.adjoint.act φ x) * ψ x =
      ∑ c ∈ Finset.range (basisSize l.qubits.length), l.matrix.get c (numberOn l.qubits x) *
        (Amplitude.conj (φ (setOn l.qubits c x)) * ψ x) := by
    intro x
    have hsum : Amplitude.conj (l.adjoint.act φ x) =
        ∑ c ∈ Finset.range (basisSize l.qubits.length), Amplitude.conj
          (l.matrix.adjoint.get (numberOn l.qubits x) c * φ (setOn l.qubits c x)) :=
      map_sum (Amplitude.conjHom κ) _ _
    rw [hsum, Finset.sum_mul]
    refine Finset.sum_congr rfl fun c hc => ?_
    rw [Amplitude.conj_mul, hentry x c hc, mul_assoc]
  have hright : ∀ x, Amplitude.conj (φ x) * l.act ψ x =
      ∑ c ∈ Finset.range (basisSize l.qubits.length), l.matrix.get (numberOn l.qubits x) c *
        (Amplitude.conj (φ x) * ψ (setOn l.qubits c x)) := by
    intro x
    rw [Leaf.act, Finset.mul_sum]
    exact Finset.sum_congr rfl fun c _ => mul_left_comm _ _ _
  simp only [hleft, hright]
  -- both sides run over a basis state and a number, which are exchanged
  rw [← Finset.sum_product', ← Finset.sum_product']
  have hmem : ∀ p ∈ U.powerset ×ˢ Finset.range (basisSize l.qubits.length),
      (setOn l.qubits p.2 p.1, numberOn l.qubits p.1) ∈
        U.powerset ×ˢ Finset.range (basisSize l.qubits.length) := by
    intro p hp
    obtain ⟨hx, -⟩ := Finset.mem_product.mp hp
    exact Finset.mem_product.mpr ⟨Finset.mem_powerset.mpr
      (setOn_subset hU (Finset.mem_powerset.mp hx)), Finset.mem_range.mpr (numberOn_lt _ _)⟩
  have hnum : ∀ p ∈ U.powerset ×ˢ Finset.range (basisSize l.qubits.length),
      numberOn l.qubits (setOn l.qubits p.2 p.1) = p.2 := by
    intro p hp
    rw [numberOn_setOn h.nodup,
      Nat.mod_eq_of_lt (Finset.mem_range.mp (Finset.mem_product.mp hp).2)]
  have hback : ∀ p : Finset Qubit × Nat,
      setOn l.qubits (numberOn l.qubits p.1) (setOn l.qubits p.2 p.1) = p.1 := fun p => by
    rw [setOn_setOn h.nodup, setOn_numberOn h.nodup]
  refine Finset.sum_bij' (fun p _ => (setOn l.qubits p.2 p.1, numberOn l.qubits p.1))
    (fun p _ => (setOn l.qubits p.2 p.1, numberOn l.qubits p.1)) hmem hmem
    (fun p hp => ?_) (fun p hp => ?_) fun p hp => ?_
  · exact Prod.ext (hback p) (hnum p hp)
  · exact Prod.ext (hback p) (hnum p hp)
  · rw [hnum p hp, hback p]

theorem sum_actAll_adjoint {ls : List (Leaf κ)} (h : ∀ l ∈ ls, l.Fits)
    (hU : ∀ l ∈ ls, ∀ q ∈ l.qubits, q ∈ U) (φ ψ : Finset Qubit → κ) :
    ∑ x ∈ U.powerset, Amplitude.conj (actAll (ls.reverse.map Leaf.adjoint) φ x) * ψ x =
      ∑ x ∈ U.powerset, Amplitude.conj (φ x) * actAll ls ψ x := by
  induction ls generalizing ψ with
  | nil => rfl
  | cons l ls ih =>
    rw [List.reverse_cons, List.map_append, actAll_append, actAll_cons, List.map_singleton,
      actAll_cons, actAll_nil,
      (h l List.mem_cons_self).sum_act_adjoint (hU l List.mem_cons_self),
      ih (fun k hk => h k (List.mem_cons_of_mem _ hk)) fun k hk => hU k (List.mem_cons_of_mem _ hk)]

/-- Run backwards with conjugate transposes, matrices have the conjugate amplitudes. -/
theorem amplitude_adjoint {ls : List (Leaf κ)} (h : ∀ l ∈ ls, l.Fits) (inputs outputs : List Qubit)
    (row col : Nat) : amplitude (ls.reverse.map Leaf.adjoint) outputs inputs col row =
      Amplitude.conj (amplitude ls inputs outputs row col) := by
  -- no other qubits are ever set
  let U := (inputs ++ outputs ++ ls.flatMap Leaf.qubits).toFinset
  have hin : setOn inputs col ∅ ∈ U.powerset := Finset.mem_powerset.mpr
    (setOn_subset (fun q hq => List.mem_toFinset.mpr
      (List.mem_append_left _ (List.mem_append_left _ hq))) (Finset.empty_subset _))
  have hout : setOn outputs row ∅ ∈ U.powerset := Finset.mem_powerset.mpr
    (setOn_subset (fun q hq => List.mem_toFinset.mpr
      (List.mem_append_left _ (List.mem_append_right _ hq))) (Finset.empty_subset _))
  have hsum := sum_actAll_adjoint (U := U) h (fun l hl q hq => List.mem_toFinset.mpr
    (List.mem_append_right _ (List.mem_flatMap.mpr ⟨l, hl, hq⟩)))
    (ket (setOn outputs row ∅)) (ket (setOn inputs col ∅))
  have hconj : ∀ x y : Finset Qubit, Amplitude.conj (ket x y : κ) = ket x y := by
    intro x y
    unfold ket
    split
    · exact Amplitude.conj_one
    · exact Amplitude.conj_zero
  simp only [hconj] at hsum
  simp only [ket, mul_ite, mul_one, mul_zero, ite_mul, one_mul, zero_mul] at hsum
  rw [Finset.sum_ite_eq', if_pos hin, Finset.sum_ite_eq', if_pos hout] at hsum
  rw [amplitude, amplitude]
  exact (Amplitude.conj_conj _).symm.trans (congrArg Amplitude.conj hsum)

end
end Dense
end BloqCircuit
