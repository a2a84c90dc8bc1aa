import BloqCircuit.Proofs.MatrixPowers
import BloqCircuit.Gate.Standard
/-! What matrices on the same qubits do one after another, and runs that do what one matrix does. -/
namespace BloqCircuit.Dense
variable {κ : Type} [ExactAmplitude κ] {m k : DenseMatrix κ} {qs : List Qubit}

/-! ## Products and powers -/

theorem Leaf.act_eq (m : DenseMatrix κ) (qs : List Qubit) (ψ : Finset Qubit → κ) (x : Finset Qubit) :
    (⟨m, qs⟩ : Leaf κ).act ψ x = ∑ c : Fin (basisSize qs.length),
      m.toMatrix _ ⟨numberOn qs x, numberOn_lt qs x⟩ c * ψ (setOn qs c x) :=
  Finset.sum_range _

theorem numberOn_setOn_fin (hn : qs.Nodup) (c : Fin (basisSize qs.length)) (x : Finset Qubit) :
    (⟨numberOn qs (setOn qs c x), numberOn_lt qs _⟩ : Fin (basisSize qs.length)) = c :=
  Fin.ext ((numberOn_setOn hn).trans (Nat.mod_eq_of_lt c.isLt))

/-- A product acts as its factors one after another, the right one first. -/
theorem Leaf.act_mul (hn : qs.Nodup) (hm : m.Sized (basisSize qs.length))
    (hk : k.Sized (basisSize qs.length)) (ψ : Finset Qubit → κ) :
    (⟨m.mul k, qs⟩ : Leaf κ).act ψ = (⟨m, qs⟩ : Leaf κ).act ((⟨k, qs⟩ : Leaf κ).act ψ) := by
  funext x
  simp only [act_eq, hm.toMatrix_mul hk, Matrix.mul_apply, numberOn_setOn_fin hn, setOn_setOn hn,
    Finset.sum_mul, Finset.mul_sum]
  rw [Finset.sum_comm]
  exact Finset.sum_congr rfl fun c _ => Finset.sum_congr rfl fun d _ => mul_assoc _ _ _

theorem Leaf.act_identity (hn : qs.Nodup) (ψ : Finset Qubit → κ) :
    (⟨.identity (basisSize qs.length), qs⟩ : Leaf κ).act ψ = ψ := by
  funext x
  rw [act_eq, DenseMatrix.toMatrix_identity, Finset.sum_eq_single ⟨numberOn qs x, numberOn_lt qs x⟩]
  · rw [Matrix.one_apply_eq, one_mul, setOn_numberOn hn]
  · intro c _ hc
    rw [Matrix.one_apply_ne (Ne.symm hc), zero_mul]
  · exact fun h => absurd (Finset.mem_univ _) h

/-- A matrix some times over acts as its power. -/
theorem actAll_replicate (hn : qs.Nodup) (hm : m.Sized (basisSize qs.length)) (n : Nat)
    (ψ : Finset Qubit → κ) :
    actAll (List.replicate n ⟨m, qs⟩) ψ = (⟨m.pow n, qs⟩ : Leaf κ).act ψ := by
  induction n generalizing ψ with
  | zero =>
    have hone : m.pow 0 = .identity (basisSize qs.length) := by
      rw [DenseMatrix.pow, DenseMatrix.powInto, dif_pos rfl, hm.rows]
    rw [hone, Leaf.act_identity hn]
    rfl
  | succ n ih =>
    rw [List.replicate_succ, actAll_cons, ih, hm.pow_add_one, Leaf.act_mul hn (hm.pow n) hm]

/-! ## Runs backwards -/

omit [ExactAmplitude κ] in
theorem Leaf.Fits.sized {l : Leaf κ} (h : l.Fits) : l.matrix.Sized (basisSize l.qubits.length) :=
  ⟨h.rows, h.cols⟩

/-- A run that does what one matrix does, does backwards and with conjugate transposes what the
conjugate transpose of the matrix does. An amplitude is read off by the product with its basis state. -/
theorem actAll_adjoint {ls : List (Leaf κ)} {l : Leaf κ} (hls : ∀ k ∈ ls, k.Fits) (hl : l.Fits)
    (h : ∀ ψ, actAll ls ψ = l.act ψ) (ψ : Finset Qubit → κ) :
    actAll (ls.reverse.map Leaf.adjoint) ψ = l.adjoint.act ψ := by
  funext x
  let U := (ls.flatMap Leaf.qubits ++ l.qubits).toFinset ∪ x
  have hx : x ∈ U.powerset := Finset.mem_powerset.mpr Finset.subset_union_right
  have hU : ∀ q ∈ ls.flatMap Leaf.qubits ++ l.qubits, q ∈ U := fun q hq =>
    Finset.mem_union_left _ (List.mem_toFinset.mpr hq)
  have hrun := sum_actAll_adjoint (U := U) hls (fun k hk q hq => hU q
    (List.mem_append_left _ (List.mem_flatMap.mpr ⟨k, hk, hq⟩))) ψ (ket x)
  have hone := hl.sum_act_adjoint (U := U) (fun q hq => hU q (List.mem_append_right _ hq)) ψ (ket x)
  have hread : ∀ φ : Finset Qubit → κ,
      ∑ y ∈ U.powerset, Amplitude.conj (φ y) * ket x y = Amplitude.conj (φ x) := by
    intro φ
    simp only [ket, mul_ite, mul_one, mul_zero]
    rw [Finset.sum_ite_eq', if_pos hx]
  rw [h, ← hone, hread, hread] at hrun
  rw [← Amplitude.conj_conj (actAll _ ψ x), hrun, Amplitude.conj_conj]

/-! ## Matrices of runs -/

/-- A run that does what one matrix does has this matrix. -/
theorem ofFn_amplitude (hn : qs.Nodup) (hm : m.Sized (basisSize qs.length)) {ls : List (Leaf κ)}
    (h : ∀ ψ, actAll ls ψ = (⟨m, qs⟩ : Leaf κ).act ψ) :
    .ofFn (basisSize qs.length) (basisSize qs.length) (amplitude ls qs qs) = m := by
  refine Eq.trans (DenseMatrix.ofFn_congr fun r hr c hc => ?_) (hm.rows ▸ hm.cols ▸ m.ofFn_get)
  have hket : ∀ d : Fin (basisSize qs.length),
      (ket (setOn qs c ∅) (setOn qs d (setOn qs r ∅)) : κ) = if d = ⟨c, hc⟩ then 1 else 0 := by
    intro d
    rw [setOn_setOn hn, ket]
    refine if_congr ⟨fun heq => Fin.ext (setOn_injective hn d.isLt hc heq), fun heq => ?_⟩ rfl rfl
    rw [heq]
  rw [amplitude, h, Leaf.act_eq, numberOn_setOn_fin hn ⟨r, hr⟩]
  simp only [hket, mul_ite, mul_one, mul_zero]
  rw [Finset.sum_ite_eq', if_pos (Finset.mem_univ _)]
  rfl

/-! ## Gates that exchange two basis states -/

theorem exchange_apply (n a b : Nat) (r c : Fin n) :
    (.exchange n a b : DenseMatrix κ).toMatrix n r c = if (c : Nat) = Equiv.swap a b r then 1 else 0 := by
  rw [DenseMatrix.exchange, DenseMatrix.toMatrix_ofFn, Matrix.of_apply, Equiv.swap_apply_def]
  split_ifs <;> first | rfl | omega

/-- The basis state that an exchange of two numbers on some qubits makes of another. -/
def exchangedOn (qs : List Qubit) (a b : Nat) (x : Finset Qubit) : Finset Qubit :=
  setOn qs (Equiv.swap a b (numberOn qs x)) x

theorem Leaf.act_exchange {a b : Nat} (ha : a < basisSize qs.length) (hb : b < basisSize qs.length)
    (ψ : Finset Qubit → κ) (x : Finset Qubit) :
    (⟨.exchange (basisSize qs.length) a b, qs⟩ : Leaf κ).act ψ x = ψ (exchangedOn qs a b x) := by
  have hlt : Equiv.swap a b (numberOn qs x) < basisSize qs.length := by
    have hr := numberOn_lt qs x
    rw [Equiv.swap_apply_def]
    split_ifs <;> assumption
  have hone : ∀ c : Fin (basisSize qs.length),
      (c : Nat) = Equiv.swap a b (numberOn qs x) ↔ c = ⟨_, hlt⟩ :=
    fun c => ⟨fun h => Fin.ext h, congrArg Fin.val⟩
  simp only [act_eq, exchange_apply, hone, ite_mul, one_mul, zero_mul]
  rw [Finset.sum_ite_eq', if_pos (Finset.mem_univ _)]
  rfl

/-! ## Swaps -/

section
variable {a b c q : Qubit} {x : Finset Qubit}

/-- The controlled not turns its second qubit where the first is one. -/
theorem mem_exchangedOn_cx (h : a ≠ b) :
    q ∈ exchangedOn [a, b] 2 3 x ↔ if q = b then ¬ (b ∈ x ↔ a ∈ x) else q ∈ x := by
  unfold exchangedOn setOn setOn setOn numberOn numberOn numberOn
  by_cases ha : a ∈ x <;> by_cases hb : b ∈ x <;> by_cases hqa : q = a <;> by_cases hqb : q = b <;>
    simp_all [basisSize, Equiv.swap_apply_def, Nat.testBit]

theorem mem_exchangedOn_swap (h : a ≠ b) : q ∈ exchangedOn [a, b] 1 2 x ↔
    if q = a then b ∈ x else if q = b then a ∈ x else q ∈ x := by
  unfold exchangedOn setOn setOn setOn numberOn numberOn numberOn
  by_cases ha : a ∈ x <;> by_cases hb : b ∈ x <;> by_cases hqa : q = a <;> by_cases hqb : q = b <;>
    simp_all [basisSize, Equiv.swap_apply_def, Nat.testBit]

theorem mem_exchangedOn_ccx (hcb : c ≠ b) (hab : a ≠ b) :
    q ∈ exchangedOn [c, a, b] 6 7 x ↔ if q = b then ¬ (b ∈ x ↔ c ∈ x ∧ a ∈ x) else q ∈ x := by
  unfold exchangedOn setOn setOn setOn setOn numberOn numberOn numberOn numberOn
  by_cases hc : c ∈ x <;> by_cases ha : a ∈ x <;> by_cases hb : b ∈ x <;> by_cases hqc : q = c <;>
    by_cases hqa : q = a <;> by_cases hqb : q = b <;>
    simp_all [basisSize, Equiv.swap_apply_def, Nat.testBit]

theorem mem_exchangedOn_cswap (hca : c ≠ a) (hcb : c ≠ b) (hab : a ≠ b) :
    q ∈ exchangedOn [c, a, b] 5 6 x ↔
      if c ∈ x ∧ q = a then b ∈ x else if c ∈ x ∧ q = b then a ∈ x else q ∈ x := by
  unfold exchangedOn setOn setOn setOn setOn numberOn numberOn numberOn numberOn
  by_cases hc : c ∈ x <;> by_cases ha : a ∈ x <;> by_cases hb : b ∈ x <;> by_cases hqc : q = c <;>
    by_cases hqa : q = a <;> by_cases hqb : q = b <;>
    simp_all [basisSize, Equiv.swap_apply_def, Nat.testBit]

theorem exchangedOn_swap (h : a ≠ b) (x : Finset Qubit) :
    exchangedOn [a, b] 2 3 (exchangedOn [b, a] 2 3 (exchangedOn [a, b] 2 3 x)) =
      exchangedOn [a, b] 1 2 x := by
  ext q
  simp only [mem_exchangedOn_cx h, mem_exchangedOn_cx h.symm, mem_exchangedOn_swap h]
  by_cases ha : a ∈ x <;> by_cases hb : b ∈ x <;> by_cases hqa : q = a <;> by_cases hqb : q = b <;>
    simp_all

theorem exchangedOn_cswap (hca : c ≠ a) (hcb : c ≠ b) (hab : a ≠ b) (x : Finset Qubit) :
    exchangedOn [b, a] 2 3 (exchangedOn [c, a, b] 6 7 (exchangedOn [b, a] 2 3 x)) =
      exchangedOn [c, a, b] 5 6 x := by
  have hba := hab.symm
  ext q
  simp only [mem_exchangedOn_cx hba, mem_exchangedOn_ccx hcb hab,
    mem_exchangedOn_cswap hca hcb hab]
  by_cases hc : c ∈ x <;> by_cases ha : a ∈ x <;> by_cases hb : b ∈ x <;> by_cases hqa : q = a <;>
    by_cases hqb : q = b <;> simp_all

private theorem act_exchange_two {i j : Nat} (hi : i < 4) (hj : j < 4) (a b : Qubit)
    (ψ : Finset Qubit → κ) (x : Finset Qubit) :
    (⟨.exchange 4 i j, [a, b]⟩ : Leaf κ).act ψ x = ψ (exchangedOn [a, b] i j x) :=
  Leaf.act_exchange hi hj ψ x

private theorem act_exchange_three {i j : Nat} (hi : i < 8) (hj : j < 8) (a b c : Qubit)
    (ψ : Finset Qubit → κ) (x : Finset Qubit) :
    (⟨.exchange 8 i j, [a, b, c]⟩ : Leaf κ).act ψ x = ψ (exchangedOn [a, b, c] i j x) :=
  Leaf.act_exchange hi hj ψ x

/-- Three controlled nots in turn swap two qubits. -/
theorem actAll_swap (h : a ≠ b) (ψ : Finset Qubit → κ) :
    actAll [⟨.exchange 4 2 3, [a, b]⟩, ⟨.exchange 4 2 3, [b, a]⟩, ⟨.exchange 4 2 3, [a, b]⟩] ψ =
      (⟨.exchange 4 1 2, [a, b]⟩ : Leaf κ).act ψ := by
  have hcx : ∀ a b : Qubit, ∀ (φ : Finset Qubit → κ) x,
      (⟨.exchange 4 2 3, [a, b]⟩ : Leaf κ).act φ x = φ (exchangedOn [a, b] 2 3 x) :=
    act_exchange_two (by decide) (by decide)
  funext x
  rw [actAll_cons, actAll_cons, actAll_cons, actAll_nil, hcx, hcx, hcx, exchangedOn_swap h,
    act_exchange_two (by decide) (by decide)]

/-- A doubly controlled not between two controlled nots swaps two qubits where the third is one. -/
theorem actAll_cswap (hca : c ≠ a) (hcb : c ≠ b) (hab : a ≠ b) (ψ : Finset Qubit → κ) :
    actAll [⟨.exchange 4 2 3, [b, a]⟩, ⟨.exchange 8 6 7, [c, a, b]⟩, ⟨.exchange 4 2 3, [b, a]⟩] ψ =
      (⟨.exchange 8 5 6, [c, a, b]⟩ : Leaf κ).act ψ := by
  have hcx : ∀ (φ : Finset Qubit → κ) x,
      (⟨.exchange 4 2 3, [b, a]⟩ : Leaf κ).act φ x = φ (exchangedOn [b, a] 2 3 x) :=
    act_exchange_two (by decide) (by decide) b a
  funext x
  rw [actAll_cons, actAll_cons, actAll_cons, actAll_nil, hcx,
    act_exchange_three (by decide) (by decide), hcx, exchangedOn_cswap hca hcb hab,
    act_exchange_three (by decide) (by decide)]

end
end BloqCircuit.Dense
