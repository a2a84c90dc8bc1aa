import BloqCircuit.Bloq.Decomposition
import BloqCircuit.Proofs.RoundTrip.Circuits
/-! The sequence of a power: one bloq placed again and again on the outputs of the last. -/
namespace BloqCircuit

variable {α κ : Type} [Angle α] {g : Gate α κ} {f : Labels}

/-- Labels on the registers of a gate's bloq, which all go through. -/
structure Gate.Seated (g : Gate α κ) (f : Labels) : Prop where
  passing : g.Passing
  valid : g.bloq.signature.Valid
  passes : f.Passes 0 g.bloq
  nodup : (f.on 0 g.bloq.signature.registers).Nodup

/-- The operation of a gate on the qubits of its bloq's registers. -/
def Gate.onLabels (g : Gate α κ) (f : Labels) : Operation (Gate α κ) :=
  ⟨g, f.on 0 g.bloq.signature.registers⟩

namespace Builder
variable {b : Builder (Bloq α κ)} {s : Signature} {l : Labels} {stock : Stock α κ}
  {cells : Register → Grid (Soquet (Bloq α κ))} {ops : List (Operation (Gate α κ))}

/-- Arrays in stock, whose soquets carry the labels of registers. -/
structure Stocked (b : Builder (Bloq α κ)) (s : Signature) (l f : Labels) (registers : List Register)
    (cells : Register → Grid (Soquet (Bloq α κ))) (stock : Stock α κ)
    (ops : List (Operation (Gate α κ))) : Prop where
  holds : b.Holds s l stock [] ops
  fst : stock.map Prod.fst = (portsOn 0 registers).map f
  snd : stock.map Prod.snd = registers.flatMap fun r => (cells r).toList
  shape : ∀ r ∈ registers, (cells r).shape = r.shape

/-- Placing a bloq puts its outputs, on the same qubits, in the place of its inputs. -/
theorem Stocked.add (h : b.Stocked s l f g.bloq.signature.registers cells stock ops)
    (hg : g.Seated f) :
    ∃ b' cells' stock', Gives (Builder.add g.bloq (Arrays.byRegister g.bloq.signature.registers cells)) b
        (Arrays.byRegister g.bloq.signature.registers cells') b' ∧
      b'.Stocked s l f g.bloq.signature.registers cells' stock' (ops ++ [g.onLabels f]) := by
  have hlefts := Signature.lefts_of_thru hg.passing.thru
  have hrights := Signature.rights_of_thru hg.passing.thru
  have hop : g.bloq.operation? (f.moveTo 0) (b.next + 1) = some (g.onLabels f) := by
    rw [Labels.operation?_moveTo, Bloq.operation?, hg.passing.emits]
    rfl
  have hholds := h.holds
  rw [← List.append_nil stock] at hholds
  obtain ⟨b', hadd, hheld⟩ := hholds.add hg.passing.regular hg.valid (hg.passes.moveTo (b.next + 1))
    (by rw [hlefts, Labels.map_moveTo, h.fst]) (hlefts ▸ h.shape) (by rw [hlefts, h.snd])
    (by rw [hg.passing.born_eq, Labels.on_nil, List.append_nil]; exact hholds.nodup)
  rw [hlefts, hrights] at hadd
  rw [hg.passing.dead_eq, hrights, hop, List.append_nil] at hheld
  refine ⟨b', _, _, hadd, hheld, ?_, ?_, fun _ _ => rfl⟩
  · rw [fst_stockOn]
    exact Labels.map_moveTo _ _
  · rw [snd_stockOn]
    exact List.flatMap_congr fun r _ => (Grid.toList_ofFn _ _).symm

/-- Placing a bloq some times over adds its operation so many times. -/
theorem Stocked.addTimes (h : b.Stocked s l f g.bloq.signature.registers cells stock ops)
    (hg : g.Seated f) (n : Nat) :
    ∃ b' cells' stock', Gives (Builder.addTimes g.bloq n
        (Arrays.byRegister g.bloq.signature.registers cells)) b
        (Arrays.byRegister g.bloq.signature.registers cells') b' ∧
      b'.Stocked s l f g.bloq.signature.registers cells' stock'
        (ops ++ List.replicate n (g.onLabels f)) := by
  induction n generalizing b cells stock ops with
  | zero =>
    rw [List.replicate_zero, List.append_nil]
    exact ⟨b, cells, stock, gives_pure.mpr ⟨rfl, rfl⟩, h⟩
  | succ n ih =>
    obtain ⟨b₁, cells₁, stock₁, hadd, h₁⟩ := h.add hg
    obtain ⟨b', cells', stock', htimes, h'⟩ := ih h₁
    refine ⟨b', cells', stock', gives_bind.mpr ⟨_, _, hadd, htimes⟩, ?_⟩
    rwa [List.append_assoc, List.singleton_append, ← List.replicate_succ] at h'

/-- To begin with, the inputs of a signature are in stock. -/
theorem stocked_opened (hg : g.Seated f) :
    (Builder.opened g.bloq.signature : Builder (Bloq α κ)).Stocked g.bloq.signature f f
      g.bloq.signature.registers (Builder.cellsOn .leftDangle)
      (Builder.inputStock α κ g.bloq.signature f) [] := by
  have hlefts := Signature.lefts_of_thru hg.passing.thru
  refine ⟨Builder.holds_opened hg.valid ?_ hg.passes.fits.lefts ?_, ?_, ?_, fun _ _ => rfl⟩
  · rw [hlefts]
    exact hg.passing.regular.quantum
  · rw [hlefts]
    exact hg.nodup
  · rw [Builder.fst_inputStock, hlefts]
  · rw [Builder.inputStock, List.map_map, hlefts]
    exact (List.map_id _).trans (List.flatMap_congr fun r _ => (Grid.toList_ofFn _ _).symm)

end Builder

/-- The sequence of a power that is not too great runs the operation of its bloq so many times, and all
qubits stay where they are. -/
theorem Bloq.unroll_realizes (hg : g.Seated f) {n : Nat} (hn : n ≤ maxUnrolledExponent) :
    ∃ (c : Composite (Bloq α κ)) (L : Labels), g.bloq.unroll n = .ok c ∧
      c.Realizes g.bloq.signature L (List.replicate n (g.onLabels f)) ∧
      L.on 0 g.bloq.signature.registers = f.on 0 g.bloq.signature.registers ∧
      L.on (c.instances.length + 1) g.bloq.signature.registers =
        f.on 0 g.bloq.signature.registers ∧
      (List.range c.size).flatMap (c.bornAt L) = [] := by
  have hlefts := Signature.lefts_of_thru hg.passing.thru
  have hrights := Signature.rights_of_thru hg.passing.thru
  obtain ⟨b, cells, stock, htimes, hstocked⟩ := (Builder.stocked_opened hg).addTimes hg n
  rw [List.nil_append] at hstocked
  have hshape : ∀ r ∈ g.bloq.signature.rights, (cells r).shape = r.shape := by
    rw [hrights]
    exact hstocked.shape
  obtain ⟨c, L, b', hfinal, hrealizes, hinput, houtput, hbalance⟩ := hstocked.holds.finalize
    (hrights.symm ▸ hg.passing.regular.quantum) hshape hg.passes.fits.rights
    (by rw [hrights, hstocked.fst]) (by rw [hrights, hstocked.snd])
  have hin : L.on 0 g.bloq.signature.registers = f.on 0 g.bloq.signature.registers :=
    Labels.on_congr fun p hp => hinput p (mem_portsOn.mp hp).1
  refine ⟨c, L, ?_, hrealizes, hin, ?_, ?_⟩
  · have hstart := Builder.start_gives (β := Bloq α κ) hg.valid
    rw [hlefts] at hstart
    rw [hrights] at hfinal
    refine Builder.run_of_gives (b := b') (gives_bind.mpr ⟨_, _, hstart, ?_⟩)
    refine gives_bind.mpr ⟨_, _, ?_, hfinal⟩
    dsimp only
    rw [if_neg (Nat.not_lt.mpr hn)]
    exact htimes
  · refine Eq.trans ?_ (Labels.on_moveTo (v := 0) (f := f) (c.instances.length + 1) _)
    refine Labels.on_congr fun p hp => ?_
    obtain ⟨v, i, r⟩ := p
    obtain rfl : v = _ := (mem_portsOn.mp hp).1
    exact houtput r i
  · have hstock : stock.qubits = f.on 0 g.bloq.signature.registers := by
      rw [Stock.qubits, List.flatMap_def, hstocked.fst, Labels.on, List.flatMap_def]
    have hlen := hbalance.length_eq
    rw [hlefts, hin, hstock, List.append_nil, List.length_append] at hlen
    exact List.length_eq_zero_iff.mp (by omega)

/-- Greater powers are not laid out. -/
theorem Bloq.unroll_eq_error {b : Bloq α κ} (hv : b.signature.Valid) {n : Nat}
    (hn : maxUnrolledExponent < n) : b.unroll n = .error (.decomposeType (Bloq.power b n).text
      ("exponent exceeds " ++ toString maxUnrolledExponent)) := by
  have hstart := Builder.start_gives (β := Bloq α κ) hv
  refine fails_bind.mpr (.inr ⟨_, _, hstart, fails_bind.mpr (.inl ?_)⟩)
  dsimp only
  rw [if_pos hn]
  exact fails_throw.mpr rfl

end BloqCircuit
