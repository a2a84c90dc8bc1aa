import BloqCircuit.Proofs.Closing
import BloqCircuit.Proofs.Strands
/-! Builders whose stock may hold a bundle without qubits. Bundles are told apart by their qubits alone, so
there is room for one such bundle and no more. -/
namespace BloqCircuit
variable {α κ : Type} [Angle α]

namespace Builder

/-- A builder in which exactly the stock is available: bundles of distinct qubits on soquets as wide as
they are. At most one of them has no qubits. -/
structure Supplies (b : Builder (Bloq α κ)) (s : Signature) (stock : Stock α κ) : Prop where
  sound : b.Sound
  closed : b.isOpen = false
  registers : b.registers = s.registers
  stocked : ∀ e ∈ stock, b.available[e.2.port]? = some e.2
  complete : ∀ (p : Port) t, b.available[p]? = some t → ∃ e ∈ stock, e.2 = t
  apart : (stock.map fun e => e.2.port).Nodup
  proper : ∀ e ∈ stock, e.2.reg.dtype.isQuantum = true ∧ e.1.length = e.2.reg.bitsize
  nodup : stock.qubits.Nodup
  few : (stock.map Prod.fst).count [] ≤ 1

variable {b : Builder (Bloq α κ)} {s : Signature} {L f : Labels} {v : Nat}
  {stock stock' ins outs rest bits : Stock α κ} {gone qs : List Qubit} {so : Soquet (Bloq α κ)}
  {t : DataType} {bloq : Bloq α κ} {ws : List (Connection (Bloq α κ))}

theorem Supplies.nodup_keys (h : b.Supplies s stock) : (stock.map Prod.fst).Nodup :=
  (Stock.nodup_keys_iff h.nodup).mpr h.few

/-- Labelled builders have no bundle without qubits at all. -/
theorem Held.supplies (h : b.Held s L stock gone) : b.Supplies s stock where
  sound := h.sound
  closed := h.closed
  registers := h.registers
  stocked e he := (h.stocked e he).1
  complete := h.complete
  apart := h.nodup_ports
  proper e he := (h.width e he).imp_left And.left
  nodup := h.nodup.of_append_left
  few := (Stock.nodup_keys_iff h.nodup.of_append_left).mp h.nodup_keys

theorem Supplies.perm (h : b.Supplies s stock) (hs : stock.Perm stock') : b.Supplies s stock' where
  sound := h.sound
  closed := h.closed
  registers := h.registers
  stocked e he := h.stocked e (hs.mem_iff.mpr he)
  complete p t ht := (h.complete p t ht).imp fun _ he => he.imp_left hs.mem_iff.mp
  apart := (hs.map _).nodup_iff.mp h.apart
  proper e he := h.proper e (hs.mem_iff.mpr he)
  nodup := (Stock.qubits_perm hs).nodup_iff.mp h.nodup
  few := ((hs.map Prod.fst).count_eq []) ▸ h.few

/-- The bundles can be read as labels of the ports that they are at. -/
theorem Supplies.exists_labels (h : b.Supplies s stock) : ∃ L : Labels, ∀ e ∈ stock, L e.2.port = e.1 := by
  have hlen : (stock.map fun e => e.2.port).length = (stock.map Prod.fst).length := by
    rw [List.length_map, List.length_map]
  obtain ⟨L, hL⟩ := exists_map_eq h.apart hlen
  rw [List.map_map] at hL
  exact ⟨L, List.map_inj_left.mp hL⟩

/-- Whatever entries of the stock are wired, even one of them twice, the types are right. -/
theorem Supplies.agree (h : b.Supplies s stock) (hins : ∀ e ∈ ins, e ∈ stock) {node : Node (Bloq α κ)}
    {registers : List Register} (hleft : ws.map (·.left) = ins.map Prod.snd)
    (hright : ws.map (·.right) = soquetsOn node registers)
    (hfst : (portsOn v registers).map f = ins.map Prod.fst)
    (hq : ∀ r ∈ registers, r.dtype.isQuantum = true) (hf : f.Fits v registers) :
    ∀ w ∈ ws, w.left.reg.dtype.isConsistentWith w.right.reg.dtype = true := by
  obtain ⟨L, hL⟩ := h.exists_labels
  exact agree_of_labels hleft hright hfst (fun e he => hL e (hins e he))
    (fun e he => h.proper e (hins e he)) hq hf

/-- Consistent wires from the stock can be drawn exactly if none of its entries is taken twice. -/
theorem Supplies.drawable_iff (h : b.Supplies s stock) (hins : ∀ e ∈ ins, e ∈ stock)
    (hleft : ws.map (·.left) = ins.map Prod.snd)
    (hagree : ∀ w ∈ ws, w.left.reg.dtype.isConsistentWith w.right.reg.dtype = true) :
    b.Drawable ws ↔ ins.Nodup := by
  have hinj : ∀ e ∈ ins, ∀ e' ∈ ins, e.2.port = e'.2.port → e = e' := fun e he e' he' heq =>
    List.inj_on_of_nodup_map h.apart (hins e he) (hins e' he') heq
  constructor
  · intro hdraw
    have honce := hdraw.once
    rw [port_left hleft] at honce
    exact honce.of_map
  · intro hn
    exact drawable_of_stocked (fun e he => h.stocked e (hins e he)) (hn.map_on hinj) hleft hagree

theorem Supplies.drawable (h : b.Supplies s (ins ++ rest)) (hleft : ws.map (·.left) = ins.map Prod.snd)
    (hagree : ∀ w ∈ ws, w.left.reg.dtype.isConsistentWith w.right.reg.dtype = true) :
    b.Drawable ws := by
  have hn := h.nodup_keys.of_map
  exact (h.drawable_iff (fun e he => List.mem_append_left _ he) hleft hagree).mpr hn.of_append_left

/-- A placed bloq takes some bundles and puts others out. -/
theorem Supplies.place (h : b.Supplies s (ins ++ rest)) (outs : Stock α κ) (hv : bloq.signature.Valid)
    (hdraw : b.Drawable ws) (hleft : ws.map (·.left) = ins.map Prod.snd)
    (hright : ws.map (·.right) = soquetsOn (.placed ⟨b.next, bloq⟩) bloq.signature.lefts)
    (houts : outs.map Prod.snd = soquetsOn (.placed ⟨b.next, bloq⟩) bloq.signature.rights)
    (hproper : ∀ e ∈ outs, e.2.reg.dtype.isQuantum = true ∧ e.1.length = e.2.reg.bitsize)
    (hn : (outs ++ rest).qubits.Nodup) (hfew : ((outs ++ rest).map Prod.fst).count [] ≤ 1) :
    ((b.drawAll ws).place ⟨b.next, bloq⟩).Supplies s (outs ++ rest) := by
  have havailable : ∀ {p : Port} {t : Soquet (Bloq α κ)},
      ((b.drawAll ws).place ⟨b.next, bloq⟩).available[p]? = some t ↔
        (t ∈ soquetsOn (.placed ⟨b.next, bloq⟩) bloq.signature.rights ∨ ∃ e ∈ rest, e.2 = t) ∧
          t.port = p := h.sound.available_place h.stocked h.complete h.apart hv hleft
  have hports : outs.map (fun e => e.2.port) = portsOn (b.next + 1) bloq.signature.rights := by
    rw [← port_soquetsOn_placed ⟨b.next, bloq⟩, ← houts, List.map_map]
    rfl
  constructor
  case sound => exact h.sound.place hv hdraw hright
  case closed => exact (isOpen_drawAll b ws).trans h.closed
  case registers => exact (registers_drawAll b ws).trans h.registers
  case stocked =>
    intro e he
    refine havailable.mpr ⟨?_, rfl⟩
    rcases List.mem_append.mp he with he | he
    · exact .inl (houts ▸ List.mem_map_of_mem he)
    · exact .inr ⟨e, he, rfl⟩
  case complete =>
    intro p t ht
    rcases (havailable.mp ht).1 with ht | ⟨e, he, rfl⟩
    · rw [← houts] at ht
      obtain ⟨e, he, rfl⟩ := List.mem_map.mp ht
      exact ⟨e, List.mem_append_left _ he, rfl⟩
    · exact ⟨e, List.mem_append_right _ he, rfl⟩
  case apart =>
    have hapart := h.apart
    rw [List.map_append] at hapart ⊢
    rw [hports]
    refine List.nodup_append.mpr ⟨nodup_portsOn hv.nodup_rights.of_map, hapart.of_append_right, ?_⟩
    rintro p hp q hq rfl
    -- what was available is on nodes before the new one
    obtain ⟨e, he, rfl⟩ := List.mem_map.mp hq
    have hold := (h.sound.there _).mp ⟨_, h.stocked e (List.mem_append_right _ he)⟩
    exact h.sound.not_mem_outPorts hp hold.1
  case proper =>
    intro e he
    rcases List.mem_append.mp he with he | he
    · exact hproper e he
    · exact h.proper e (List.mem_append_right _ he)
  case nodup => exact hn
  case few => exact hfew

omit [Angle α] in
private theorem count_singles (qs : List Qubit) : (qs.map fun q => [q]).count [] = 0 := by
  refine List.count_eq_zero.mpr fun hm => ?_
  obtain ⟨q, -, hq⟩ := List.mem_map.mp hm
  cases hq

/-- Splitting a bundle puts its bits into its place. A bundle without qubits is gone afterwards. -/
theorem Supplies.split (h : b.Supplies s ((qs, so) :: rest)) :
    ∃ (b' : Builder (Bloq α κ)) (bits : Stock α κ) (g : Grid (Soquet (Bloq α κ))),
      Gives (Builder.split so) b g b' ∧ b'.Supplies s (bits ++ rest) ∧
      bits.map Prod.fst = qs.map ([·]) ∧ bits.map Prod.snd = g.toList := by
  have hin : b.Supplies s ([(qs, so)] ++ rest) := h
  obtain ⟨t, ht⟩ : ∃ t, so.reg.dtype = t := ⟨_, rfl⟩
  have hlen : t.bitsize = qs.length := by
    rw [← ht]
    exact (h.proper _ List.mem_cons_self).2.symm
  have hstocked := h.stocked _ List.mem_cons_self
  have hagree : so.reg.dtype.isConsistentWith t = true := by
    rw [ht]
    exact isConsistentWith_self t
  refine ⟨_, bitStock ⟨b.next, .split t⟩ t qs, _, split_gives ht hstocked, ?_, fst_bitStock, ?_⟩
  · refine hin.place _ (Bloq.valid_split t) (drawable_of_available hagree hstocked) rfl ?_ ?_ ?_ ?_ ?_
    · rw [Bloq.signature_split]
      rfl
    · rw [snd_bitStock hlen, Bloq.signature_split]
      rfl
    · intro e he
      obtain ⟨p, -, rfl⟩ := List.mem_map.mp he
      exact ⟨rfl, rfl⟩
    · rw [Stock.qubits_append, Stock.qubits_singles fst_bitStock, ← Stock.qubits_cons (qs, so)]
      exact h.nodup
    · have hfew := h.few
      rw [List.map_cons, List.count_cons] at hfew
      rw [List.map_append, List.count_append, fst_bitStock, count_singles]
      omega
  · rw [snd_bitStock hlen, soquetsOn, List.flatMap_singleton, Grid.toList_ofFn]
    rfl

/-- Joining bits puts a bundle into their place. If there are none, no bundle without qubits may be
there. -/
theorem Supplies.join (h : b.Supplies s (bits ++ rest)) (hbits : bits.map Prod.fst = qs.map ([·]))
    (hq : t.isQuantum = true) (ht : t.bitsize = qs.length) (hnew : qs = [] → [] ∉ rest.map Prod.fst) :
    ∃ b' so, Gives (Builder.join (.vector (bits.map Prod.snd)) (some t)) b so b' ∧
      b'.Supplies s ((qs, so) :: rest) := by
  have hlen : t.bitsize = (bits.map Prod.snd).length := by
    rw [List.length_map, Stock.length_singles hbits, ht]
  have hindices : (bits.map Prod.snd).length = (bitsOn .left t).indices.length := by
    rw [← hlen, length_indices_bitsOn]
  have hleft : (bitWires ⟨b.next, .join t⟩ t (bits.map Prod.snd)).map (·.left) = bits.map Prod.snd :=
    left_wiresInto hindices
  have hproper := fun e (he : e ∈ bits) => h.proper e (List.mem_append_left _ he)
  have hdraw := h.drawable hleft (agree_bitWires (x := ⟨b.next, .join t⟩) hbits ht
    (fun e he => (hproper e he).1) (fun e he => (hproper e he).2))
  refine ⟨_, _, join_gives hlen hdraw, ?_⟩
  refine h.place [(qs, _)] (Bloq.valid_join t) hdraw hleft ?_ ?_ ?_ ?_ ?_
  · rw [Bloq.signature_join]
    exact (right_wiresInto hindices).trans (List.append_nil _).symm
  · rw [Bloq.signature_join]
    rfl
  · intro e he
    rw [List.mem_singleton.mp he]
    exact ⟨hq, ht.symm⟩
  · have hn := h.nodup
    rwa [Stock.qubits_append, Stock.qubits_singles hbits] at hn
  · have hfew := h.few
    rw [List.map_append, List.count_append, hbits, count_singles, Nat.zero_add] at hfew
    rw [List.singleton_append, List.map_cons]
    by_cases hnil : qs = []
    · rw [hnil, List.count_cons_self, List.count_eq_zero.mpr (hnew hnil)]
    · rwa [List.count_cons_of_ne hnil]

/-- Allocating a bundle adds it to the stock. -/
theorem Supplies.allocate (h : b.Supplies s stock) (hq : t.isQuantum = true) (ht : t.bitsize = qs.length)
    (hpos : 1 ≤ qs.length) (hn : (stock.qubits ++ qs).Nodup) :
    ∃ b' so, Gives (Builder.allocate t) b so b' ∧ b'.Supplies s ((qs, so) :: stock) := by
  have hin : b.Supplies s ([] ++ stock) := h
  refine ⟨_, _, allocate_gives, ?_⟩
  refine hin.place [(qs, _)] (Bloq.valid_allocate t) drawable_nil rfl ?_ ?_ ?_ ?_ ?_
  · rw [Bloq.signature_allocate]
    rfl
  · rw [Bloq.signature_allocate]
    rfl
  · intro e he
    rw [List.mem_singleton.mp he]
    exact ⟨hq, ht.symm⟩
  · exact List.perm_append_comm.nodup_iff.mp hn
  · have hne : qs ≠ [] := List.length_pos_iff.mp hpos
    rw [List.singleton_append, List.map_cons, List.count_cons_of_ne hne]
    exact h.few

/-- Freeing a bundle takes it out of the stock. -/
theorem Supplies.free (h : b.Supplies s ((qs, so) :: rest)) :
    ∃ b', Gives (Builder.free so) b () b' ∧ b'.Supplies s rest := by
  have hin : b.Supplies s ([(qs, so)] ++ rest) := h
  obtain ⟨t, ht⟩ : ∃ t, so.reg.dtype = t := ⟨_, rfl⟩
  have hstocked := h.stocked _ List.mem_cons_self
  have hagree : so.reg.dtype.isConsistentWith t = true := by
    rw [ht]
    exact isConsistentWith_self t
  have hn := h.nodup
  have hfew := h.few
  rw [Stock.qubits_cons] at hn
  rw [List.map_cons, List.count_cons] at hfew
  refine ⟨_, free_gives ht hstocked, ?_⟩
  refine hin.place [] (Bloq.valid_free t) (drawable_of_available hagree hstocked) rfl ?_ ?_
    (fun e he => absurd he List.not_mem_nil) hn.of_append_right (by rw [List.nil_append]; omega)
  · rw [Bloq.signature_free]
    rfl
  · rw [Bloq.signature_free]
    rfl

/-- A bloq whose registers all go through can be added on soquets in stock: its outputs carry what its
inputs did. -/
theorem Supplies.add (h : b.Supplies s (ins ++ rest)) (hv : bloq.signature.Valid)
    (hthru : ∀ r ∈ bloq.signature.registers, r.side = .thru ∧ r.dtype.isQuantum = true)
    (hf : f.Fits (b.next + 1) bloq.signature.registers)
    (hins : ins.map Prod.fst = (portsOn (b.next + 1) bloq.signature.registers).map f)
    {cells : Register → Grid (Soquet (Bloq α κ))}
    (hshape : ∀ r ∈ bloq.signature.lefts, (cells r).shape = r.shape)
    (hsnd : ins.map Prod.snd = bloq.signature.lefts.flatMap fun r => (cells r).toList) :
    ∃ b', Gives (Builder.add bloq (Arrays.byRegister bloq.signature.lefts cells)) b
        (Arrays.byRegister bloq.signature.rights fun r =>
          Grid.ofFn r.shape fun i => ⟨.placed ⟨b.next, bloq⟩, r, i⟩) b' ∧
      b'.Supplies s (stockOn f ⟨b.next, bloq⟩ bloq.signature.rights ++ rest) := by
  have hlefts := Signature.lefts_of_thru fun r hr => (hthru r hr).1
  have hrights := Signature.rights_of_thru fun r hr => (hthru r hr).1
  have hleft : (wiring (.placed ⟨b.next, bloq⟩) bloq.signature.lefts cells).map (·.left) =
      ins.map Prod.snd := (left_wiring hshape).trans hsnd.symm
  have hright : (wiring (.placed ⟨b.next, bloq⟩) bloq.signature.lefts cells).map (·.right) =
      soquetsOn (.placed ⟨b.next, bloq⟩) bloq.signature.lefts := right_wiring hshape
  have hkeys : (stockOn f ⟨b.next, bloq⟩ bloq.signature.rights).map Prod.fst = ins.map Prod.fst := by
    rw [fst_stockOn, hrights, hins]
  have hdraw := h.drawable hleft (h.agree (fun e he => List.mem_append_left _ he) hleft hright
    (v := b.next + 1) (f := f) (by rw [hlefts, hins]) (fun r hr => (hthru r (hlefts ▸ hr)).2)
    (hlefts.symm ▸ hf))
  refine ⟨_, add_of_drawable hv cells hshape hdraw, h.place _ hv hdraw hleft hright (snd_stockOn _ _ _) ?_
    ?_ ?_⟩
  · intro e he
    obtain ⟨r, hr, i, hi, rfl⟩ := mem_stockOn.mp he
    rw [hrights] at hr
    exact ⟨(hthru r hr).2, hf ⟨b.next + 1, i, r⟩ (mem_portsOn.mpr ⟨rfl, hr, hi⟩)⟩
  · have hn := h.nodup
    rw [Stock.qubits, List.flatMap_def, List.map_append] at hn ⊢
    rwa [hkeys]
  · have hfew := h.few
    rw [List.map_append] at hfew ⊢
    rwa [hkeys]

/-- Bundles are regrouped as before: none of the calls that this takes makes a bundle without qubits. -/
theorem reshapes_supplies (s : Signature) :
    Import.Reshapes (fun (b : Builder (Bloq α κ)) stock => b.Supplies s stock) [] where
  perm h hs := h.perm hs
  nodup h := by
    rw [List.append_nil]
    exact h.nodup
  nodup_keys h := h.nodup_keys
  split h := h.split
  join h hbits hq ht hpos := h.join hbits hq ht fun hnil => absurd hnil (List.length_pos_iff.mp hpos)
  allocate h hq ht hpos hn := h.allocate hq ht hpos (by rwa [List.append_nil] at hn)

/-- A builder closes on what it has in stock. -/
theorem Supplies.finalize {cells : Register → Grid (Soquet (Bloq α κ))} (h : b.Supplies s stock)
    (hq : ∀ r ∈ s.rights, r.dtype.isQuantum = true) (hf : f.Fits v s.rights)
    (hshape : ∀ r ∈ s.rights, (cells r).shape = r.shape)
    (hfst : stock.map Prod.fst = (portsOn v s.rights).map f)
    (hsnd : stock.map Prod.snd = s.rights.flatMap fun r => (cells r).toList) :
    ∃ c b', Gives (Builder.finalize (Arrays.byRegister s.rights cells)) b c b' := by
  have hleft : (wiring .rightDangle s.rights cells).map (·.left) = stock.map Prod.snd :=
    (left_wiring hshape).trans hsnd.symm
  have hagree := h.agree (fun _ he => he) hleft (right_wiring hshape) hfst.symm hq hf
  have hdraw := (h.drawable_iff (fun _ he => he) hleft hagree).mpr h.nodup_keys.of_map
  have hcloses := h.sound.closes h.registers h.complete hdraw hshape hsnd
  obtain ⟨registers⟩ := s
  obtain rfl : b.registers = registers := h.registers
  exact ⟨_, _, finalize_of_closes h.sound h.closed hshape hcloses⟩

end Builder
end BloqCircuit
