import BloqCircuit.Proofs.Computing
import BloqCircuit.Proofs.Unrolling
/-! Wrapped as a gate, a raised bloq evaluates to its tensor, whether it is decomposed or has none and the
tensor itself is taken. -/
namespace BloqCircuit

/-! ## Swaps -/

namespace StandardGate
variable {a b c : Qubit}

private theorem make_standard (g : StandardGate ℝ) (qubits : List Qubit) (hn : qubits.Nodup)
    (hlen : qubits.length = g.arity) :
    Operation.make (Gate.standard g : Gate ℝ ℂ) qubits = .ok ⟨.standard g, qubits⟩ :=
  Operation.make_eq_ok.mpr ⟨hlen, hn, rfl⟩

theorem decompose_swap (hab : a ≠ b) : (StandardGate.swap : StandardGate ℝ).decompose [a, b] =
    .ok (some [⟨.standard .cx, [a, b]⟩, ⟨.standard .cx, [b, a]⟩,
      (⟨.standard .cx, [a, b]⟩ : Operation (Gate ℝ ℂ))]) := by
  have hone := make_standard .cx [a, b] (by simpa using hab) rfl
  have htwo := make_standard .cx [b, a] (by simpa using hab.symm) rfl
  simp only [decompose, hone, htwo]
  rfl

theorem decompose_cswap (hca : c ≠ a) (hcb : c ≠ b) (hab : a ≠ b) :
    (StandardGate.cswap : StandardGate ℝ).decompose [c, a, b] =
      .ok (some [⟨.standard .cx, [b, a]⟩, ⟨.standard .ccx, [c, a, b]⟩,
        (⟨.standard .cx, [b, a]⟩ : Operation (Gate ℝ ℂ))]) := by
  have hone := make_standard .cx [b, a] (by simpa using hab.symm) rfl
  have htwo := make_standard .ccx [c, a, b] (by simp [hca, hcb, hab]) rfl
  simp only [decompose, hone, htwo]
  rfl

/-- Other gates do not decompose. -/
theorem decompose_eq_none {g : StandardGate ℝ} (hs : g ≠ .swap) (hc : g ≠ .cswap)
    (qubits : List Qubit) : g.decompose (κ := ℂ) qubits = .ok none := by
  cases g with
  | swap => exact absurd rfl hs
  | cswap => exact absurd rfl hc
  | _ => rfl

end StandardGate

theorem Gate.bloqMatrix_standard {g : StandardGate ℝ} {m : DenseMatrix ℂ} (h : g.matrix? = some m) :
    (Gate.standard g : Gate ℝ ℂ).bloqMatrix = m :=
  Bloq.matrix_eq ((Bloq.tensor_standard g).trans (congrArg _ h))

/-! ## Decompositions -/

namespace Bloq.Raised
variable {b : Bloq ℝ ℂ} {g : StandardGate ℝ} {qubits : List Qubit}

/-- A bloq that says that it has no decomposition, or has one that does what the tensor does. -/
def Settles (b : Bloq ℝ ℂ) : Prop :=
  (∃ e, b.decomposition = .error e ∧ e.isDecomposeUnavailable = true) ∨
    ∃ c, b.decomposition = .ok c ∧ c.Computes b.signature.totalBits b.height b.matrix

private theorem spares_none (qubits : List Qubit) (g : StandardGate ℝ) :
    CleanPool.Spares {} qubits (Gate.standard g : Gate ℝ ℂ).ancillas :=
  ⟨Nat.zero_le _, fun _ _ hm => absurd hm List.not_mem_nil⟩

private theorem decompose_gives_standard {found : Option (List (Operation (Gate ℝ ℂ)))}
    (h : g.decompose qubits = .ok found) :
    Gives ((Gate.standard g : Gate ℝ ℂ).decompose qubits) {} found {} := by
  rw [Gate.decompose]
  exact gives_lift.mpr ⟨h, rfl⟩

/-- The operations that a standard gate stands for run on the composite of its bloq. -/
private theorem exists_plays (hn : qubits.Nodup) (hlen : qubits.length = g.arity)
    {ops : List (Operation (Gate ℝ ℂ))} (h : g.decompose qubits = .ok (some ops))
    (hops : ∀ op ∈ ops, ∃ k : StandardGate ℝ, k ≠ .reset ∧ op.gate = .standard k) :
    ∃ c L, (Bloq.ofGate (.standard g) : Bloq ℝ ℂ).decomposition = .ok c ∧
      Composite.Plays c L g.arity 1 qubits ops := by
  have harity : qubits.length = (Gate.standard g : Gate ℝ ℂ).arity := by rw [hlen, Gate.arity]
  obtain ⟨c, L, hc, hrealizes, hinputs, houtputs, hborn⟩ := Gate.decomposition_realizes
    (fun _ heq => by cases heq) hn harity (spares_none qubits g) (decompose_gives_standard h)
    fun op hop => by
      obtain ⟨k, -, hk⟩ := hops op hop
      rw [hk]
      trivial
  rw [Gate.arity] at hrealizes hinputs houtputs
  refine ⟨c, L, hc, hrealizes, hinputs, houtputs, ?_, fun op hop => ?_⟩
  · exact List.eq_nil_iff_forall_not_mem.mpr fun q hq => absurd (hborn q hq) List.not_mem_nil
  · obtain ⟨k, hk, heq⟩ := hops op hop
    rw [heq]
    exact ⟨.gate hk, rfl, Nat.zero_lt_one⟩

/-- A standard gate whose decomposition does what its matrix does. -/
private theorem settles_of_decompose (hg : g ≠ .reset)
    (h : ∀ qubits : List Qubit, qubits.Nodup → qubits.length = g.arity →
      ∃ ops : List (Operation (Gate ℝ ℂ)), g.decompose qubits = .ok (some ops) ∧
        (∀ op ∈ ops, ∃ k : StandardGate ℝ, k ≠ .reset ∧ op.gate = .standard k) ∧
        ∀ ψ, Dense.actAll (ops.map (Dense.leafBy Gate.bloqMatrix)) ψ =
          (⟨(Bloq.ofGate (.standard g)).matrix, qubits⟩ : Dense.Leaf ℂ).act ψ) :
    Settles (.ofGate (.standard g)) := by
  have hsized := Raised.sized (.gate hg)
  right
  rw [signature_ofGate, totalBits_single, Gate.arity] at hsized ⊢
  refine Composite.exists_computes hsized fun qubits hn hlen => ?_
  obtain ⟨ops, hdecompose, hops, hact⟩ := h qubits hn hlen
  obtain ⟨c, L, hc, hplays⟩ := exists_plays hn hlen hdecompose hops
  exact ⟨c, L, ops, hc, hplays, hact⟩

private theorem settles_swap : Settles (.ofGate (.standard .swap)) := by
  refine settles_of_decompose (by simp) fun qubits hn hlen => ?_
  obtain ⟨a, b, rfl⟩ := List.length_eq_two.mp hlen
  have hab : a ≠ b := by simpa using hn
  refine ⟨_, StandardGate.decompose_swap hab, fun op hop => ?_, fun ψ => ?_⟩
  · simp only [List.mem_cons, List.not_mem_nil, or_false] at hop
    rcases hop with rfl | rfl | rfl <;> exact ⟨.cx, by simp, rfl⟩
  · have hcx : (Gate.standard .cx : Gate ℝ ℂ).bloqMatrix = .exchange 4 2 3 :=
      Gate.bloqMatrix_standard rfl
    have hswap : (Bloq.ofGate (.standard .swap) : Bloq ℝ ℂ).matrix = .exchange 4 1 2 :=
      matrix_eq (tensor_standard _)
    simp only [List.map_cons, List.map_nil, Dense.leafBy, hcx, hswap]
    exact Dense.actAll_swap hab ψ

private theorem settles_cswap : Settles (.ofGate (.standard .cswap)) := by
  refine settles_of_decompose (by simp) fun qubits hn hlen => ?_
  obtain ⟨c, a, b, rfl⟩ := List.length_eq_three.mp hlen
  obtain ⟨⟨hca, hcb⟩, hab⟩ : (c ≠ a ∧ c ≠ b) ∧ a ≠ b := by simpa using hn
  refine ⟨_, StandardGate.decompose_cswap hca hcb hab, fun op hop => ?_, fun ψ => ?_⟩
  · simp only [List.mem_cons, List.not_mem_nil, or_false] at hop
    rcases hop with rfl | rfl | rfl
    · exact ⟨.cx, by simp, rfl⟩
    · exact ⟨.ccx, by simp, rfl⟩
    · exact ⟨.cx, by simp, rfl⟩
  · have hcx : (Gate.standard .cx : Gate ℝ ℂ).bloqMatrix = .exchange 4 2 3 :=
      Gate.bloqMatrix_standard rfl
    have hccx : (Gate.standard .ccx : Gate ℝ ℂ).bloqMatrix = .exchange 8 6 7 :=
      Gate.bloqMatrix_standard rfl
    have hcswap : (Bloq.ofGate (.standard .cswap) : Bloq ℝ ℂ).matrix = .exchange 8 5 6 :=
      matrix_eq (tensor_standard _)
    simp only [List.map_cons, List.map_nil, Dense.leafBy, hcx, hccx, hcswap]
    exact Dense.actAll_cswap hca hcb hab ψ

private theorem settles_gate (g : StandardGate ℝ) : Settles (.ofGate (.standard g)) := by
  by_cases hs : g = .swap
  · exact hs ▸ settles_swap
  by_cases hc : g = .cswap
  · exact hc ▸ settles_cswap
  · left
    obtain ⟨names, -, hn, hlen, -⟩ := Quregs.exists_names g.arity
    have harity : names.length = (Gate.standard g : Gate ℝ ℂ).arity := by rw [hlen, Gate.arity]
    exact ⟨_, Gate.decomposition_eq_error (fun _ heq => by cases heq) hn harity (spares_none names g)
      (decompose_gives_standard (StandardGate.decompose_eq_none hs hc names)), rfl⟩

/-- The gate that a raised bloq emits can be placed on any different qubits. -/
private theorem exists_seated (h : b.Raised) (hn : qubits.Nodup)
    (hlen : qubits.length = b.signature.totalBits) :
    ∃ g f, b.emits = some g ∧ g.bloq = b ∧ g.Seated f ∧ f.on 0 b.signature.registers = qubits := by
  obtain ⟨g, he, rfl, hsteady⟩ := h.exists_gate
  have hnames : (g.bloq.signature.registers.map (·.name)).Nodup := by
    rw [h.signature_eq]
    exact List.nodup_singleton _
  rw [Signature.totalBits_eq] at hlen
  obtain ⟨f, hfits, hon⟩ := Labels.exists_on hnames hlen 0
  have hmoves := (h.plain.of_emits he).1
  refine ⟨g, f, he, rfl, ⟨hsteady.passing, h.valid, ⟨hfits, fun hm => ?_⟩, hon.symm ▸ hn⟩, hon⟩
  rw [hmoves] at hm
  cases hm

/-- A power that is laid out runs its bloq's gate so many times. -/
private theorem exists_plays_unroll (h : b.Raised) {n : Nat} (hn : n ≤ maxUnrolledExponent)
    (hnodup : qubits.Nodup) (hlen : qubits.length = b.signature.totalBits) :
    ∃ c L, ∃ op : Operation (Gate ℝ ℂ), b.unroll n = .ok c ∧
      Composite.Plays c L b.signature.totalBits (b.height + 1) qubits (List.replicate n op) ∧
      Dense.leafBy Gate.bloqMatrix op = ⟨b.matrix, qubits⟩ := by
  obtain ⟨g, f, he, rfl, hseated, hon⟩ := exists_seated h hnodup hlen
  obtain ⟨c, L, hc, hrealizes, hinputs, houtputs, hborn⟩ := unroll_realizes hseated hn
  rw [hon] at hinputs houtputs
  rw [h.signature_eq] at hrealizes hinputs houtputs
  refine ⟨c, L, g.onLabels f, hc, ⟨hrealizes, hinputs, houtputs, hborn, fun op hop => ?_⟩,
    congrArg (Dense.Leaf.mk _) hon⟩
  obtain rfl := List.eq_of_mem_replicate hop
  exact ⟨h, he, Nat.lt_succ_of_le (h.height_emits_le he)⟩

private theorem settles_power (h : b.Raised) (n : Nat) : Settles (.power b n) := by
  by_cases hn : n ≤ maxUnrolledExponent
  · right
    rw [signature, h.matrix_power, decomposition]
    refine Composite.exists_computes (h.sized.pow n) fun qubits hnodup hlen => ?_
    obtain ⟨c, L, op, hc, hplays, hleaf⟩ := exists_plays_unroll h hn hnodup hlen
    refine ⟨c, L, _, hc, hplays, fun ψ => ?_⟩
    have hsized := h.sized
    rw [← hlen] at hsized
    rw [List.map_replicate, hleaf]
    exact Dense.actAll_replicate hnodup hsized n ψ
  · have hunroll : (Bloq.power b n).decomposition = b.unroll n := by rw [decomposition]
    exact .inl ⟨_, hunroll.trans (unroll_eq_error h.valid (Nat.lt_of_not_le hn)), rfl⟩

private theorem settles_adjoint (h : b.Raised) (hb : Settles b) : Settles (.adjoint b) := by
  rcases hb with ⟨e, he, hunavailable⟩ | ⟨c, hc, hcomputes⟩
  · refine .inl ⟨e, ?_, hunavailable⟩
    rw [decomposition, he]
    rfl
  · obtain ⟨hadjoint, hback⟩ := hcomputes.adjoint
    refine .inr ⟨c.backwards Bloq.adjointOf, ?_, ?_⟩
    · rw [decomposition, hc]
      exact hadjoint
    · rw [h.signature_adjoint, h.matrix_adjoint]
      exact hback

theorem settles (h : b.Raised) : Settles b := by
  induction h with
  | @gate g _ => exact settles_gate g
  | adjoint h ih => exact settles_adjoint h ih
  | power h n _ => exact settles_power h n

/-! ## Evaluation -/

theorem height_pos (h : b.Raised) : 0 < b.height := by
  induction h with
  | gate _ => exact Nat.zero_lt_one
  | adjoint _ ih => exact ih
  | power _ _ _ => exact Nat.succ_pos _

/-- A raised bloq without a decomposition has its tensor as a matrix of its own. -/
theorem unitary_of_error (h : b.Raised) {e : Error} (he : b.decomposition = .error e)
    (hu : e.isDecomposeUnavailable = true) : (Gate.ofBloq b).unitary = .ok (some b.matrix) := by
  have htensor : b.tensorWith Composite.tensor = .ok (some b.matrix) := h.tensor_eq
  have hcheck : checkTensor b b.matrix = .ok b.matrix := if_pos ⟨h.sized.rows, h.sized.cols⟩
  rw [Gate.unitary, Gate.unitaryWith, h.allThru, he]
  simp only [hu, Bool.not_true, Bool.false_eq_true, if_false]
  rw [htensor]
  exact congrArg (Except.map some) hcheck

end Bloq.Raised

/-- Every operation with a raised bloq is evaluated within the height of the bloq. -/
theorem Operation.Raised.within {op : Operation (Gate ℝ ℂ)} (h : op.Raised) :
    Dense.Within Gate.meaning Gate.bloqMatrix op.gate.height op := by
  obtain ⟨k, hk⟩ : ∃ k, op.gate.height = k := ⟨_, rfl⟩
  rw [hk]
  induction k using Nat.strong_induction_on generalizing op with
  | _ k ih =>
    obtain ⟨g, qubits⟩ := op
    have hbloq := h.bloq
    cases g with
    | declared d => cases hbloq
    | nest levels => cases hbloq
    | standard g =>
      cases hbloq with
      | gate hg =>
        obtain ⟨m, hm⟩ := StandardGate.exists_matrix hg
        refine Dense.Direct.within ⟨?_, h.fits⟩ k
        rw [Gate.bloqMatrix_standard hm, ← hm]
        show Gate.unitaryWith _ _ = _
        rw [Gate.unitaryWith]
    | ofBloq b =>
      have hbloq : b.Raised := hbloq
      rcases hbloq.settles with ⟨e, he, hu⟩ | ⟨c, hc, hcomputes⟩
      · exact Dense.Direct.within ⟨hbloq.unitary_of_error he hu, h.fits⟩ k
      · have hk : b.height = k := hk
        obtain ⟨k, rfl⟩ := Nat.exists_eq_succ_of_ne_zero (Nat.ne_of_gt (hk ▸ hbloq.height_pos))
        refine .inr ((hcomputes.unfolds hbloq hc h).mono fun op hop => ?_)
        have hlt : op.gate.height < k + 1 := Nat.lt_of_lt_of_eq hop.2 hk
        exact (ih _ hlt hop.1 rfl).mono (Nat.le_of_lt_succ hlt)

namespace Bloq
variable {b : Bloq ℝ ℂ} {qubits : List Qubit} {m : DenseMatrix ℂ}

/-- The matrix of the circuit that applies a bloq, wrapped as a gate, to some qubits. -/
noncomputable def unitaryOn (b : Bloq ℝ ℂ) (qubits : List Qubit) : Except Error (DenseMatrix ℂ) := do
  let g ← b.asGate
  let op ← Operation.make g qubits
  (⟨[op]⟩ : Circuit (Gate ℝ ℂ)).unitaryBetween qubits qubits

theorem Raised.asGate_eq (h : b.Raised) : b.asGate = .ok (.ofBloq b) := by
  have hname : b.signature.repeatedName? = none := by
    rw [h.signature_eq]
    rfl
  exact gate_eq_ok.mpr ⟨hname, rfl⟩

/-- If the circuit of a raised bloq evaluates to a matrix, this is the tensor of the bloq. -/
theorem Raised.tensor_of_unitaryOn (h : b.Raised) (hm : b.unitaryOn qubits = .ok m) :
    b.tensor = .ok (some m) := by
  obtain ⟨g, hg, hm⟩ := bind_eq_ok.mp hm
  obtain rfl := Except.ok.inj (h.asGate_eq.symm.trans hg)
  obtain ⟨op, hop, hm⟩ := bind_eq_ok.mp hm
  obtain ⟨hlen, hn, rfl⟩ := Operation.make_eq_ok.mp hop
  have hraised : (Operation.mk (Gate.ofBloq b) qubits).Raised := ⟨h, hn, hlen⟩
  rw [h.tensor_eq, hraised.within.between_eq_ok hm]
  rfl

/-- On as many different qubits as the bloq takes, a circuit that is not nested too deep evaluates to
the tensor. -/
theorem Raised.unitaryOn_eq_ok (h : b.Raised) (hb : b.height ≤ maxDecompositionDepth)
    (hn : qubits.Nodup) (hlen : qubits.length = b.signature.totalBits) :
    b.unitaryOn qubits = .ok b.matrix := by
  have hraised : (Operation.mk (Gate.ofBloq b) qubits).Raised := ⟨h, hn, hlen⟩
  have hmake : Operation.make (Gate.ofBloq b) qubits = .ok ⟨.ofBloq b, qubits⟩ :=
    Operation.make_eq_ok.mpr ⟨hlen, hn, rfl⟩
  have hfew : qubits.length ≤ maxDenseQubits :=
    Nat.le_trans (Nat.le_of_eq hlen) (Nat.le_trans h.totalBits_le (by decide))
  have heval : (⟨[⟨.ofBloq b, qubits⟩]⟩ : Circuit (Gate ℝ ℂ)).unitaryBetween qubits qubits =
    .ok b.matrix := hraised.within.between_eq hb hfew
  exact bind_eq_ok.mpr ⟨_, h.asGate_eq, bind_eq_ok.mpr ⟨_, hmake, heval⟩⟩

/-- A power that is laid out, in an adjoint, in a power that is not. -/
theorem Raised.tensor_of_unitaryOn_nested :
    let b : Bloq ℝ ℂ := .power (.adjoint (.power (.ofGate (.standard .cswap)) 3)) 5000
    b.Raised ∧ ∃ m, b.unitaryOn [.line 2, .line 0, .line 1] = .ok m ∧ b.tensor = .ok (some m) := by
  intro b
  have hraised : b.Raised := .power (.adjoint (.power (.gate (by simp)) 3)) 5000
  have hbits : b.signature.totalBits = 3 := by
    rw [signature, signature, signature, signature_ofGate]
    exact totalBits_single 3
  have hdistinct : [Qubit.line 2, .line 0, .line 1].Nodup := by decide
  have hok := hraised.unitaryOn_eq_ok (by decide) hdistinct hbits.symm
  exact ⟨hraised, _, hok, hraised.tensor_of_unitaryOn hok⟩

end Bloq
end BloqCircuit
