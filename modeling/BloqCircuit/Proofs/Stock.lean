import Mathlib.Data.List.Pairwise
import BloqCircuit.Proofs.Flow
/-! Builders with labelled wires: which qubits the soquets at hand carry, and how placing a bloq
exchanges them. -/
namespace BloqCircuit
variable {α κ : Type}

/-- Soquets with the qubits that they carry. -/
abbrev Stock (α κ : Type) := List (List Qubit × Soquet (Bloq α κ))

namespace Stock

/-- All qubits of a stock. -/
def qubits (stock : Stock α κ) : List Qubit := stock.flatMap Prod.fst

variable {stock stock' : Stock α κ}

theorem qubits_nil : qubits ([] : Stock α κ) = [] := rfl

theorem qubits_cons (e : List Qubit × Soquet (Bloq α κ)) :
    qubits (e :: stock) = e.1 ++ stock.qubits := List.flatMap_cons

theorem qubits_append : qubits (stock ++ stock') = stock.qubits ++ stock'.qubits :=
  List.flatMap_append

theorem qubits_perm (h : stock.Perm stock') : stock.qubits.Perm stock'.qubits := h.flatMap_right _

theorem mem_qubits {q : Qubit} : q ∈ stock.qubits ↔ ∃ e ∈ stock, q ∈ e.1 := List.mem_flatMap

theorem nodup_keys (hn : stock.qubits.Nodup) (h : ∀ e ∈ stock, e.1 ≠ []) :
    (stock.map Prod.fst).Nodup := by
  rw [qubits, List.flatMap_def] at hn
  refine nodup_of_nodup_flatten hn fun k hk => ?_
  obtain ⟨e, he, rfl⟩ := List.mem_map.mp hk
  exact h e he

/-- Bundles of distinct qubits are distinct unless two of them have none. -/
theorem nodup_keys_iff (hn : stock.qubits.Nodup) :
    (stock.map Prod.fst).Nodup ↔ (stock.map Prod.fst).count [] ≤ 1 := by
  rw [qubits, List.flatMap_def] at hn
  exact nodup_iff_of_nodup_flatten hn

/-- Bundles of one qubit each. -/
theorem qubits_singles {bits : Stock α κ} {qs : List Qubit}
    (h : bits.map Prod.fst = qs.map ([·])) : bits.qubits = qs := by
  rw [qubits, List.flatMap_def, h, ← List.flatMap_def]
  exact List.flatMap_singleton' qs

theorem singles_cons {e : List Qubit × Soquet (Bloq α κ)} {bits : Stock α κ} {qs : List Qubit}
    (h : (e :: bits).map Prod.fst = qs.map ([·])) :
    ∃ q qs' s, qs = q :: qs' ∧ e = ([q], s) ∧ bits.map Prod.fst = qs'.map ([·]) := by
  obtain ⟨k, s⟩ := e
  obtain ⟨q, qs', rfl, hk, hbits⟩ := List.map_eq_cons_iff.mp h.symm
  exact ⟨q, qs', s, rfl, Prod.ext hk.symm rfl, hbits.symm⟩

theorem length_singles {bits : Stock α κ} {qs : List Qubit}
    (h : bits.map Prod.fst = qs.map ([·])) : bits.length = qs.length := by
  have hlen := congrArg List.length h
  rwa [List.length_map, List.length_map] at hlen

/-- A qubit stands at one place of a stock only. -/
theorem place_unique (hn : stock.qubits.Nodup) {e e' : List Qubit × Soquet (Bloq α κ)}
    (he : e ∈ stock) (he' : e' ∈ stock) {i i' : Nat} {q : Qubit} (hi : e.1[i]? = some q)
    (hi' : e'.1[i']? = some q) : e = e' ∧ i = i' := by
  rw [qubits, List.nodup_flatMap] at hn
  have heq : e = e' := by
    by_contra hne
    have hsymm : Std.Symm (Function.onFun List.Disjoint
        fun e : List Qubit × Soquet (Bloq α κ) => e.1) := ⟨fun _ _ h => List.Disjoint.symm h⟩
    exact hn.2.forall he he' hne (List.mem_of_getElem? hi) (List.mem_of_getElem? hi')
  subst heq
  have hlt := (List.getElem?_eq_some_iff.mp hi).1
  exact ⟨rfl, (List.getElem?_inj hlt (hn.1 e he)).mp (hi.trans hi'.symm)⟩

/-- What is taken out of a stock leaves the rest. -/
theorem exists_rest (hn : (stock'.map Prod.fst).Nodup) (h : ∀ e ∈ stock', e ∈ stock) :
    ∃ rest : Stock α κ, stock.Perm (stock' ++ rest) := by
  obtain ⟨taken, htaken, hsub⟩ := List.subperm_of_subset hn.of_map h
  obtain ⟨rest, hrest⟩ := hsub.exists_perm_append
  exact ⟨rest, hrest.trans (htaken.append_right rest)⟩

end Stock

/-- Labelled soquets of registers on a node. -/
def stockOn (L : Labels) (x : Instance (Bloq α κ)) (registers : List Register) : Stock α κ :=
  (soquetsOn (.placed x) registers).map fun s => (L s.port, s)

theorem qubits_stockOn (L : Labels) (x : Instance (Bloq α κ)) (registers : List Register) :
    (stockOn L x registers).qubits = L.on (x.number + 1) registers := by
  rw [Stock.qubits, stockOn, List.flatMap_map, Labels.on, ← port_soquetsOn_placed, List.flatMap_map]

theorem snd_stockOn (L : Labels) (x : Instance (Bloq α κ)) (registers : List Register) :
    (stockOn L x registers).map Prod.snd = soquetsOn (.placed x) registers := by
  rw [stockOn, List.map_map]
  exact List.map_id _

theorem fst_stockOn (L : Labels) (x : Instance (Bloq α κ)) (registers : List Register) :
    (stockOn L x registers).map Prod.fst = (portsOn (x.number + 1) registers).map L := by
  rw [stockOn, List.map_map, ← port_soquetsOn_placed, List.map_map]
  rfl

theorem stockOn_append (L : Labels) (x : Instance (Bloq α κ)) (rs ss : List Register) :
    stockOn L x (rs ++ ss) = stockOn L x rs ++ stockOn L x ss := by
  rw [stockOn, soquetsOn, List.flatMap_append, List.map_append]
  rfl

theorem mem_stockOn {L : Labels} {x : Instance (Bloq α κ)} {registers : List Register}
    {e : List Qubit × Soquet (Bloq α κ)} : e ∈ stockOn L x registers ↔
      ∃ r ∈ registers, ∃ i ∈ r.indices, e = (L ⟨x.number + 1, i, r⟩, ⟨.placed x, r, i⟩) := by
  simp only [stockOn, soquetsOn, List.mem_map, List.mem_flatMap]
  constructor
  · rintro ⟨-, ⟨r, hr, i, hi, rfl⟩, rfl⟩
    exact ⟨r, hr, i, hi, rfl⟩
  · rintro ⟨r, hr, i, hi, rfl⟩
    exact ⟨_, ⟨r, hr, i, hi, rfl⟩, rfl⟩

namespace Builder
variable [Angle α]

/-- The operations of the bloqs placed so far. -/
def operations (b : Builder (Bloq α κ)) (L : Labels) : List (Operation (Gate α κ)) :=
  b.instances.toList.filterMap fun x => x.bloq.operation? L (x.number + 1)

/-- The qubits that appeared on the bloqs placed so far. -/
def born (b : Builder (Bloq α κ)) (L : Labels) : List Qubit :=
  b.instances.toList.flatMap fun x => L.on (x.number + 1) x.bloq.born

/-- A builder whose wires are labelled: the stock is what is available, and no qubit is lost or
doubled. -/
structure Held (s : Signature) (b : Builder (Bloq α κ)) (L : Labels) (stock : Stock α κ)
    (gone : List Qubit) : Prop where
  sound : b.Sound
  closed : b.isOpen = false
  registers : b.registers = s.registers
  regular : ∀ x ∈ b.instances, x.bloq.Regular
  wire : ∀ w ∈ b.connections, L w.left.port = L w.right.port
  inputs : L.Fits 0 s.lefts
  node : ∀ x ∈ b.instances, L.Passes (x.number + 1) x.bloq
  stocked : ∀ e ∈ stock, b.available[e.2.port]? = some e.2 ∧ L e.2.port = e.1
  complete : ∀ (p : Port) t, b.available[p]? = some t → ∃ e ∈ stock, e.2 = t
  width : ∀ e ∈ stock, e.2.reg.Quantum ∧ e.1.length = e.2.reg.bitsize
  balance : (stock.qubits ++ gone).Perm (L.on 0 s.lefts ++ b.born L)
  nodup : (stock.qubits ++ gone).Nodup

variable {s : Signature} {b : Builder (Bloq α κ)} {L : Labels} {stock stock' rest ins : Stock α κ}
  {gone : List Qubit}

theorem Held.perm (h : b.Held s L stock gone) (hs : stock.Perm stock') : b.Held s L stock' gone where
  sound := h.sound
  closed := h.closed
  registers := h.registers
  regular := h.regular
  wire := h.wire
  inputs := h.inputs
  node := h.node
  stocked e he := h.stocked e (hs.mem_iff.mpr he)
  complete p t ht := by
    obtain ⟨e, he, rfl⟩ := h.complete p t ht
    exact ⟨e, hs.mem_iff.mp he, rfl⟩
  width e he := h.width e (hs.mem_iff.mpr he)
  balance := ((Stock.qubits_perm hs).symm.append_right gone).trans h.balance
  nodup := ((Stock.qubits_perm hs).append_right gone).nodup_iff.mp h.nodup

theorem Held.ne_nil (h : b.Held s L stock gone) {e : List Qubit × Soquet (Bloq α κ)} (he : e ∈ stock) :
    e.1 ≠ [] := by
  obtain ⟨⟨-, hpos⟩, hlen⟩ := h.width e he
  intro hnil
  rw [hnil, List.length_nil] at hlen
  omega

theorem Held.nodup_keys (h : b.Held s L stock gone) : (stock.map Prod.fst).Nodup :=
  Stock.nodup_keys h.nodup.of_append_left fun _ he => h.ne_nil he

theorem Held.nodup_ports (h : b.Held s L stock gone) : (stock.map fun e => e.2.port).Nodup := by
  have hkeys : stock.map Prod.fst = (stock.map fun e => e.2.port).map L := by
    rw [List.map_map]
    exact List.map_congr_left fun e he => (h.stocked e he).2.symm
  exact (hkeys ▸ h.nodup_keys).of_map

omit [Angle α] in
theorem port_left {ws : List (Connection (Bloq α κ))}
    (hleft : ws.map (·.left) = ins.map Prod.snd) :
    ws.map (·.left.port) = ins.map fun e => e.2.port := by
  have hmap := congrArg (List.map Soquet.port) hleft
  rwa [List.map_map, List.map_map] at hmap

omit [Angle α] in
/-- The wires from the stock into registers carry the labels there. -/
theorem labels_of_wires {f : Labels} {node : Node (Bloq α κ)} {v : Nat} {registers : List Register}
    {ws : List (Connection (Bloq α κ))} (hleft : ws.map (·.left) = ins.map Prod.snd)
    (hright : ws.map (·.right) = soquetsOn node registers)
    (hf : (portsOn v registers).map f = ins.map Prod.fst) (hl : ∀ e ∈ ins, L e.2.port = e.1) :
    ∀ w ∈ ws, ∃ r ∈ registers, ∃ i ∈ r.indices, w.right = ⟨node, r, i⟩ ∧
      L w.left.port = f ⟨v, i, r⟩ := by
  have hports : (soquetsOn node registers).map (fun s => (⟨v, s.index, s.reg⟩ : Port)) =
      portsOn v registers := by
    simp only [soquetsOn, portsOn, List.map_flatMap, List.map_map]
    rfl
  have hlabels : ws.map (fun w => L w.left.port) =
      ws.map fun w => f ⟨v, w.right.index, w.right.reg⟩ := by
    calc ws.map (fun w => L w.left.port)
        = (ws.map (·.left)).map fun s => L s.port := by rw [List.map_map]; rfl
      _ = ins.map fun e => L e.2.port := by rw [hleft, List.map_map]; rfl
      _ = ins.map Prod.fst := List.map_congr_left hl
      _ = ((soquetsOn node registers).map fun s => (⟨v, s.index, s.reg⟩ : Port)).map f := by
        rw [hports, hf]
      _ = (ws.map (·.right)).map fun s => f ⟨v, s.index, s.reg⟩ := by
        rw [hright, List.map_map]
        rfl
      _ = ws.map fun w => f ⟨v, w.right.index, w.right.reg⟩ := by rw [List.map_map]; rfl
  intro w hw
  have hmem : w.right ∈ soquetsOn node registers := hright ▸ List.mem_map_of_mem hw
  simp only [soquetsOn, List.mem_flatMap, List.mem_map] at hmem
  obtain ⟨r, hr, i, hi, hwr⟩ := hmem
  have hlabel := List.map_inj_left.mp hlabels w hw
  rw [← hwr] at hlabel
  exact ⟨r, hr, i, hi, hwr.symm, hlabel⟩

omit [Angle α] in
/-- Wires from soquets for qubits into registers for qubits are consistent if the widths are right. -/
theorem agree_of_labels {f : Labels} {node : Node (Bloq α κ)} {v : Nat} {registers : List Register}
    {ws : List (Connection (Bloq α κ))} (hleft : ws.map (·.left) = ins.map Prod.snd)
    (hright : ws.map (·.right) = soquetsOn node registers)
    (hfst : (portsOn v registers).map f = ins.map Prod.fst) (hl : ∀ e ∈ ins, L e.2.port = e.1)
    (hproper : ∀ e ∈ ins, e.2.reg.dtype.isQuantum = true ∧ e.1.length = e.2.reg.bitsize)
    (hq : ∀ r ∈ registers, r.dtype.isQuantum = true) (hf : f.Fits v registers) :
    ∀ w ∈ ws, w.left.reg.dtype.isConsistentWith w.right.reg.dtype = true := by
  intro w hw
  obtain ⟨e, he, heq⟩ : ∃ e ∈ ins, e.2 = w.left :=
    List.mem_map.mp (hleft ▸ List.mem_map_of_mem hw)
  obtain ⟨r, hr, i, hi, hwr, hlabel⟩ := labels_of_wires hleft hright hfst hl w hw
  obtain ⟨hquantum, hwidth⟩ := hproper e he
  rw [← hl e he, heq, hlabel, hf ⟨v, i, r⟩ (mem_portsOn.mpr ⟨rfl, hr, hi⟩)] at hwidth
  have hwidth : r.dtype.bitsize = w.left.reg.dtype.bitsize := hwidth
  rw [hwr, DataType.isConsistentWith, ← hwidth, ← heq, hquantum, hq r hr]
  simp

/-- Consistent wires from different soquets that are available can be drawn. -/
theorem drawable_of_stocked {ws : List (Connection (Bloq α κ))}
    (hstocked : ∀ e ∈ ins, b.available[e.2.port]? = some e.2)
    (hapart : (ins.map fun e => e.2.port).Nodup) (hleft : ws.map (·.left) = ins.map Prod.snd)
    (hagree : ∀ w ∈ ws, w.left.reg.dtype.isConsistentWith w.right.reg.dtype = true) :
    b.Drawable ws where
  agree := hagree
  there w hw := by
    obtain ⟨e, he, heq⟩ : ∃ e ∈ ins, e.2 = w.left :=
      List.mem_map.mp (hleft ▸ List.mem_map_of_mem hw)
    exact ⟨w.left, heq ▸ hstocked e he, BEq.rfl⟩
  once := by
    rw [port_left hleft]
    exact hapart

/-- Wires from the stock into registers for qubits can be drawn if the widths are right. -/
theorem Held.drawable (h : b.Held s L (ins ++ rest) gone) {f : Labels} {node : Node (Bloq α κ)}
    {v : Nat} {registers : List Register} {ws : List (Connection (Bloq α κ))}
    (hleft : ws.map (·.left) = ins.map Prod.snd) (hright : ws.map (·.right) = soquetsOn node registers)
    (hfst : (portsOn v registers).map f = ins.map Prod.fst) (hq : ∀ r ∈ registers, r.Quantum)
    (hf : f.Fits v registers) : b.Drawable ws := by
  have hins : ∀ e ∈ ins, e ∈ ins ++ rest := fun e he => List.mem_append_left _ he
  have hports := h.nodup_ports
  rw [List.map_append] at hports
  refine drawable_of_stocked (fun e he => (h.stocked e (hins e he)).1) hports.of_append_left hleft ?_
  exact agree_of_labels hleft hright hfst (fun e he => (h.stocked e (hins e he)).2)
    (fun e he => (h.width e (hins e he)).imp_left And.left) (fun r hr => (hq r hr).1) hf

/-! ## Placing a bloq -/

/-- The labels of nodes that were placed before do not change with those of a later node. -/
theorem Sound.onNode_placed (h : b.Sound) {f : Labels} {v : Nat} (hv : b.instances.size < v)
    {x : Instance (Bloq α κ)} (hx : x ∈ b.instances) {p : Port} (hp : p.node = x.number + 1) :
    L.onNode f v p = L p := by
  have hlt := h.number_lt hx
  exact Labels.onNode_of_ne (by omega)

theorem Sound.onNode_outPort (h : b.Sound) {f : Labels} {v : Nat} (hv : b.instances.size < v)
    {p : Port} (hp : p ∈ b.outPorts) : L.onNode f v p = L p := by
  have hle := h.node_le hp
  exact Labels.onNode_of_ne (by omega)

section
variable {bloq : Bloq α κ} {f : Labels} {ws : List (Connection (Bloq α κ))}

private theorem Sound.size_lt_next (h : b.Sound) : b.instances.size < b.next + 1 := by
  rw [h.next]
  exact Nat.lt_succ_self _

theorem born_place (h : b.Sound) :
    ((b.drawAll ws).place ⟨b.next, bloq⟩).born (L.onNode f (b.next + 1)) =
      b.born L ++ f.on (b.next + 1) bloq.born := by
  rw [born, instances_place_drawAll, Array.toList_push, List.flatMap_append, List.flatMap_singleton,
    Labels.on_onNode_self]
  refine congrArg (· ++ _) (List.flatMap_congr fun x hx => Labels.on_congr fun p hp => ?_)
  exact h.onNode_placed h.size_lt_next (Array.mem_toList_iff.mp hx) (mem_portsOn.mp hp).1

theorem operations_place (h : b.Sound) :
    ((b.drawAll ws).place ⟨b.next, bloq⟩).operations (L.onNode f (b.next + 1)) =
      b.operations L ++ (bloq.operation? f (b.next + 1)).toList := by
  rw [operations, instances_place_drawAll, Array.toList_push, List.filterMap_append]
  refine congrArg₂ _ (List.filterMap_congr fun x hx => Labels.operation?_congr fun p hp => ?_) ?_
  · exact h.onNode_placed h.size_lt_next (Array.mem_toList_iff.mp hx) hp
  · have hop : bloq.operation? (L.onNode f (b.next + 1)) (b.next + 1) =
        bloq.operation? f (b.next + 1) :=
      Labels.operation?_congr fun p hp => Labels.onNode_self hp
    cases ho : bloq.operation? f (b.next + 1) with
    | none => exact List.filterMap_cons_none (hop.trans ho)
    | some op => exact List.filterMap_cons_some (hop.trans ho)

/-- After placing a bloq, its outputs are available, and what was left in the stock. -/
theorem Sound.available_place (h : b.Sound)
    (hstocked : ∀ e ∈ ins ++ rest, b.available[e.2.port]? = some e.2)
    (hcomplete : ∀ (p : Port) t, b.available[p]? = some t → ∃ e ∈ ins ++ rest, e.2 = t)
    (hapart : ((ins ++ rest).map fun e => e.2.port).Nodup) (hv : bloq.signature.Valid)
    (hleft : ws.map (·.left) = ins.map Prod.snd) {p : Port} {t : Soquet (Bloq α κ)} :
    ((b.drawAll ws).place ⟨b.next, bloq⟩).available[p]? = some t ↔
      (t ∈ soquetsOn (.placed ⟨b.next, bloq⟩) bloq.signature.rights ∨ ∃ e ∈ rest, e.2 = t) ∧
        t.port = p := by
  have hports : ∀ r ∈ bloq.signature.rights, ∀ i ∈ r.indices,
      (⟨b.next + 1, i, r⟩ : Port) ∈ portsOn (b.next + 1) bloq.signature.rights :=
    fun r hr i hi => mem_portsOn.mpr ⟨rfl, hr, hi⟩
  have havailable : ((b.drawAll ws).place ⟨b.next, bloq⟩).available[p]? =
      if p ∈ portsOn (b.next + 1) bloq.signature.rights
      then some ⟨.placed ⟨b.next, bloq⟩, p.reg, p.index⟩
      else if p ∈ ins.map (fun e => e.2.port) then none else b.available[p]? := by
    rw [available_place_drawAll hv.nodup_rights.of_map, port_left hleft]
    rfl
  rw [havailable]
  constructor
  · intro ht
    split at ht
    · next hp =>
      cases ht
      obtain ⟨hnode, hr, hi⟩ := mem_portsOn.mp hp
      refine ⟨.inl (List.mem_flatMap.mpr ⟨_, hr, List.mem_map.mpr ⟨_, hi, rfl⟩⟩), ?_⟩
      exact congrArg (fun v => (⟨v, p.index, p.reg⟩ : Port)) hnode.symm
    · split at ht
      · cases ht
      · next hused =>
        have hport := (h.port p t ht).1
        obtain ⟨e, he, rfl⟩ := hcomplete p t ht
        refine ⟨.inr ⟨e, (List.mem_append.mp he).resolve_left fun he => hused ?_, rfl⟩, hport⟩
        exact hport ▸ List.mem_map_of_mem (f := fun e => e.2.port) he
  · rintro ⟨ht | ⟨e, he, rfl⟩, rfl⟩
    · simp only [soquetsOn, List.mem_flatMap, List.mem_map] at ht
      obtain ⟨r, hr, i, hi, rfl⟩ := ht
      exact if_pos (hports r hr i hi)
    · have hstock := hstocked e (List.mem_append_right _ he)
      have hnew : e.2.port ∉ portsOn (b.next + 1) bloq.signature.rights := fun hm =>
        h.not_mem_outPorts hm ((h.there _).mp ⟨_, hstock⟩).1
      have hused : e.2.port ∉ ins.map fun e => e.2.port := by
        intro hm
        rw [List.map_append, List.nodup_append] at hapart
        exact hapart.2.2 _ hm _ (List.mem_map_of_mem (f := fun e => e.2.port) he) rfl
      rw [if_neg hnew, if_neg hused, hstock]

theorem Held.available_place (h : b.Held s L (ins ++ rest) gone) (hv : bloq.signature.Valid)
    (hleft : ws.map (·.left) = ins.map Prod.snd) {p : Port} {t : Soquet (Bloq α κ)} :
    ((b.drawAll ws).place ⟨b.next, bloq⟩).available[p]? = some t ↔
      (t ∈ soquetsOn (.placed ⟨b.next, bloq⟩) bloq.signature.rights ∨ ∃ e ∈ rest, e.2 = t) ∧
        t.port = p :=
  h.sound.available_place (fun e he => (h.stocked e he).1) h.complete h.nodup_ports hv hleft

omit [Angle α] in
/-- A bloq passes on the qubits that are taken out of the stock for it. -/
theorem qubits_exchange (rest : Stock α κ) (gone : List Qubit) {n : Nat}
    (hp : f.Passes (n + 1) bloq)
    (hf : (portsOn (n + 1) bloq.signature.lefts).map f = ins.map Prod.fst) :
    ((stockOn f ⟨n, bloq⟩ bloq.signature.rights ++ rest).qubits ++
        (gone ++ f.on (n + 1) bloq.dead)).Perm
      ((ins ++ rest).qubits ++ gone ++ f.on (n + 1) bloq.born) := by
  have hins : f.on (n + 1) bloq.signature.lefts = ins.qubits := by
    rw [Labels.on, List.flatMap_def, hf, Stock.qubits, List.flatMap_def]
  have hperm := hp.perm
  rw [Stock.qubits_append, Stock.qubits_append, qubits_stockOn, ← hins]
  simp only [List.perm_iff_count, List.count_append] at hperm ⊢
  intro q
  have := hperm q
  omega

/-- The wires into a bloq that is placed carry the labels of its inputs, and those that were there
keep theirs. -/
theorem Held.wire_place (h : b.Held s L (ins ++ rest) gone) (hdraw : b.Drawable ws)
    (hf : (portsOn (b.next + 1) bloq.signature.lefts).map f = ins.map Prod.fst)
    (hleft : ws.map (·.left) = ins.map Prod.snd)
    (hright : ws.map (·.right) = soquetsOn (.placed ⟨b.next, bloq⟩) bloq.signature.lefts) :
    ∀ w ∈ ((b.drawAll ws).place ⟨b.next, bloq⟩).connections,
      L.onNode f (b.next + 1) w.left.port = L.onNode f (b.next + 1) w.right.port := by
  have hsize := h.sound.size_lt_next
  intro w hw
  rcases mem_connections_place_drawAll.mp hw with hw | hw
  · have hport := h.sound.used _ (List.mem_map_of_mem (Array.mem_toList_iff.mpr hw))
    obtain ⟨x, hx, r, -, i, -, hright⟩ := h.sound.right_mem hw
    rw [h.sound.onNode_outPort hsize hport, h.wire w hw, hright]
    exact (h.sound.onNode_placed hsize hx rfl).symm
  · have hl : ∀ e ∈ ins, L e.2.port = e.1 := fun e he =>
      (h.stocked e (List.mem_append_left _ he)).2
    obtain ⟨r, -, i, -, hwr, hlabel⟩ := labels_of_wires hleft hright hf hl w hw
    rw [h.sound.onNode_outPort hsize (hdraw.fresh h.sound hw).1, hlabel, hwr]
    exact (Labels.onNode_self rfl).symm

/-- Placing a bloq exchanges its inputs in the stock for its outputs. -/
theorem Held.place (h : b.Held s L (ins ++ rest) gone) (hb : bloq.Regular)
    (hv : bloq.signature.Valid) (hp : f.Passes (b.next + 1) bloq)
    (hf : (portsOn (b.next + 1) bloq.signature.lefts).map f = ins.map Prod.fst)
    (hleft : ws.map (·.left) = ins.map Prod.snd)
    (hright : ws.map (·.right) = soquetsOn (.placed ⟨b.next, bloq⟩) bloq.signature.lefts)
    (hfresh : ((ins ++ rest).qubits ++ gone ++ f.on (b.next + 1) bloq.born).Nodup) :
    b.Drawable ws ∧
      ((b.drawAll ws).place ⟨b.next, bloq⟩).Held s (L.onNode f (b.next + 1))
        (stockOn f ⟨b.next, bloq⟩ bloq.signature.rights ++ rest)
        (gone ++ f.on (b.next + 1) bloq.dead) ∧
      ((b.drawAll ws).place ⟨b.next, bloq⟩).operations (L.onNode f (b.next + 1)) =
        b.operations L ++ (bloq.operation? f (b.next + 1)).toList := by
  have hdraw : b.Drawable ws := h.drawable hleft hright hf
    (fun r hr => hb.quantum r (Signature.mem_lefts.mp hr).1) hp.fits.lefts
  have hsize := h.sound.size_lt_next
  have hstock : ∀ e ∈ ins ++ rest, L.onNode f (b.next + 1) e.2.port = e.1 := by
    intro e he
    obtain ⟨hav, hlab⟩ := h.stocked e he
    exact (h.sound.onNode_outPort hsize ((h.sound.there _).mp ⟨_, hav⟩).1).trans hlab
  have hinstance : ∀ x ∈ ((b.drawAll ws).place ⟨b.next, bloq⟩).instances,
      x ∈ b.instances ∨ x = ⟨b.next, bloq⟩ := by
    intro x hx
    rw [instances_place_drawAll] at hx
    exact Array.mem_push.mp hx
  have hexchange := qubits_exchange rest gone hp hf
  refine ⟨hdraw, ?_, operations_place h.sound⟩
  constructor
  case sound => exact h.sound.place hv hdraw hright
  case closed => exact (isOpen_drawAll b ws).trans h.closed
  case registers => exact (registers_drawAll b ws).trans h.registers
  case regular =>
    intro x hx
    rcases hinstance x hx with hx | rfl
    · exact h.regular x hx
    · exact hb
  case wire => exact h.wire_place hdraw hf hleft hright
  case inputs =>
    refine Labels.fits_congr h.inputs fun p hp => (Labels.onNode_of_ne ?_).symm
    rw [(mem_portsOn.mp hp).1]
    exact (Nat.succ_ne_zero _).symm
  case node =>
    intro x hx
    rcases hinstance x hx with hx | rfl
    · exact (h.node x hx).congr fun p hp => (h.sound.onNode_placed hsize hx hp).symm
    · exact hp.onNode_self
  case stocked =>
    intro e he
    rw [h.available_place hv hleft]
    rcases List.mem_append.mp he with he | he
    · refine ⟨⟨.inl ?_, rfl⟩, ?_⟩
      · rw [← snd_stockOn f]
        exact List.mem_map_of_mem he
      · obtain ⟨r, -, i, -, rfl⟩ := mem_stockOn.mp he
        exact Labels.onNode_self rfl
    · exact ⟨⟨.inr ⟨e, he, rfl⟩, rfl⟩, hstock e (List.mem_append_right _ he)⟩
  case complete =>
    intro p t ht
    rcases ((h.available_place hv hleft).mp ht).1 with ht | ⟨e, he, rfl⟩
    · rw [← snd_stockOn f] at ht
      obtain ⟨e, he, rfl⟩ := List.mem_map.mp ht
      exact ⟨e, List.mem_append_left _ he, rfl⟩
    · exact ⟨e, List.mem_append_right _ he, rfl⟩
  case width =>
    intro e he
    rcases List.mem_append.mp he with he | he
    · obtain ⟨r, hr, i, hi, rfl⟩ := mem_stockOn.mp he
      have hr := (Signature.mem_rights.mp hr).1
      exact ⟨hb.quantum r hr, hp.fits ⟨b.next + 1, i, r⟩ (mem_portsOn.mpr ⟨rfl, hr, hi⟩)⟩
    · exact h.width e (List.mem_append_right _ he)
  case balance =>
    rw [born_place h.sound, Labels.on_onNode_of_ne (Nat.succ_ne_zero _).symm]
    exact (hexchange.trans (h.balance.append_right _)).trans (.of_eq (List.append_assoc ..))
  case nodup => exact hexchange.nodup_iff.mpr hfresh

end

/-- A builder that holds a stock under some labels, with the inputs on given qubits and the
operations placed so far. -/
def Holds (b : Builder (Bloq α κ)) (s : Signature) (l : Labels) (stock : Stock α κ)
    (gone : List Qubit) (ops : List (Operation (Gate α κ))) : Prop :=
  ∃ L, b.Held s L stock gone ∧ b.operations L = ops ∧ ∀ p, p.node = 0 → L p = l p

variable {l : Labels} {ops : List (Operation (Gate α κ))}

theorem Holds.perm (h : b.Holds s l stock gone ops) (hs : stock.Perm stock') :
    b.Holds s l stock' gone ops := by
  obtain ⟨L, hheld, hops, hl⟩ := h
  exact ⟨L, hheld.perm hs, hops, hl⟩

theorem Holds.nodup (h : b.Holds s l stock gone ops) : (stock.qubits ++ gone).Nodup := by
  obtain ⟨L, hheld, -⟩ := h
  exact hheld.nodup

theorem Holds.width (h : b.Holds s l stock gone ops) :
    ∀ e ∈ stock, e.2.reg.Quantum ∧ e.1.length = e.2.reg.bitsize := by
  obtain ⟨L, hheld, -⟩ := h
  exact hheld.width

theorem Holds.ne_nil (h : b.Holds s l stock gone ops) {e : List Qubit × Soquet (Bloq α κ)}
    (he : e ∈ stock) : e.1 ≠ [] := by
  obtain ⟨L, hheld, -⟩ := h
  exact hheld.ne_nil he

theorem Holds.available (h : b.Holds s l stock gone ops) {e : List Qubit × Soquet (Bloq α κ)}
    (he : e ∈ stock) : b.available[e.2.port]? = some e.2 := by
  obtain ⟨L, hheld, -⟩ := h
  exact (hheld.stocked e he).1

/-- Placing a bloq exchanges its inputs in the stock for its outputs, and adds its operation. -/
theorem Holds.place (h : b.Holds s l (ins ++ rest) gone ops) {bloq : Bloq α κ} (hb : bloq.Regular)
    (hv : bloq.signature.Valid) {f : Labels} (hp : f.Passes (b.next + 1) bloq)
    (hf : (portsOn (b.next + 1) bloq.signature.lefts).map f = ins.map Prod.fst)
    {ws : List (Connection (Bloq α κ))} (hleft : ws.map (·.left) = ins.map Prod.snd)
    (hright : ws.map (·.right) = soquetsOn (.placed ⟨b.next, bloq⟩) bloq.signature.lefts)
    (hfresh : ((ins ++ rest).qubits ++ gone ++ f.on (b.next + 1) bloq.born).Nodup) :
    b.Drawable ws ∧ ((b.drawAll ws).place ⟨b.next, bloq⟩).Holds s l
      (stockOn f ⟨b.next, bloq⟩ bloq.signature.rights ++ rest) (gone ++ f.on (b.next + 1) bloq.dead)
      (ops ++ (bloq.operation? f (b.next + 1)).toList) := by
  obtain ⟨L, hheld, rfl, hl⟩ := h
  obtain ⟨hdraw, hheld', hops⟩ := hheld.place hb hv hp hf hleft hright hfresh
  refine ⟨hdraw, _, hheld', hops, fun p hpn => ?_⟩
  rw [Labels.onNode_of_ne (hpn ▸ (Nat.succ_ne_zero _).symm), hl p hpn]

/-- A bloq can be added on soquets in stock. -/
theorem Holds.add (h : b.Holds s l (ins ++ rest) gone ops) {bloq : Bloq α κ} (hb : bloq.Regular)
    (hv : bloq.signature.Valid) {f : Labels} (hp : f.Passes (b.next + 1) bloq)
    (hf : (portsOn (b.next + 1) bloq.signature.lefts).map f = ins.map Prod.fst)
    {cells : Register → Grid (Soquet (Bloq α κ))}
    (hshape : ∀ r ∈ bloq.signature.lefts, (cells r).shape = r.shape)
    (hsnd : ins.map Prod.snd = bloq.signature.lefts.flatMap fun r => (cells r).toList)
    (hfresh : ((ins ++ rest).qubits ++ gone ++ f.on (b.next + 1) bloq.born).Nodup) :
    ∃ b', Gives (Builder.add bloq (Arrays.byRegister bloq.signature.lefts cells)) b
        (Arrays.byRegister bloq.signature.rights fun r =>
          Grid.ofFn r.shape fun i => ⟨.placed ⟨b.next, bloq⟩, r, i⟩) b' ∧
      b'.Holds s l (stockOn f ⟨b.next, bloq⟩ bloq.signature.rights ++ rest)
        (gone ++ f.on (b.next + 1) bloq.dead)
        (ops ++ (bloq.operation? f (b.next + 1)).toList) := by
  obtain ⟨hdraw, hplace⟩ := h.place hb hv hp hf ((left_wiring hshape).trans hsnd.symm)
    (right_wiring hshape) hfresh
  exact ⟨_, add_of_drawable hv cells hshape hdraw, hplace⟩

/-! ## Bookkeeping -/

omit [Angle α] in
theorem exists_map_eq {ι τ : Type} [DecidableEq ι] {keys : List ι} (hn : keys.Nodup)
    {values : List (List τ)} (h : keys.length = values.length) :
    ∃ f : ι → List τ, keys.map f = values := by
  induction keys generalizing values with
  | nil => exact ⟨fun _ => [], (List.length_eq_zero_iff.mp h.symm).symm⟩
  | cons k keys ih =>
    cases values with
    | nil => cases h
    | cons x values =>
      rw [List.nodup_cons] at hn
      obtain ⟨f, hf⟩ := ih hn.2 (Nat.succ.inj h)
      refine ⟨fun j => if j = k then x else f j, ?_⟩
      rw [List.map_cons, if_pos rfl, ← hf]
      exact congrArg _ (List.map_congr_left fun j hj => if_neg fun (h : j = k) => hn.1 (h ▸ hj))

/-- What the inputs of a placed bloq carry passes on to its outputs. -/
private theorem Holds.exists_place (h : b.Holds s l (ins ++ rest) gone ops) {bloq : Bloq α κ}
    (hb : bloq.Regular) (hv : bloq.signature.Valid)
    (hwidth : (portsOn (b.next + 1) bloq.signature.lefts).map (·.reg.bitsize) =
      ins.map (·.1.length))
    (news : List Qubit) (hnews : news.length = (bloq.born.map (·.totalBits)).sum)
    (ws : List (Connection (Bloq α κ))) (hleft : ws.map (·.left) = ins.map Prod.snd)
    (hright : ws.map (·.right) = soquetsOn (.placed ⟨b.next, bloq⟩) bloq.signature.lefts)
    (hfresh : ((ins ++ rest).qubits ++ gone ++ news).Nodup) :
    ∃ f : Labels, f.on (b.next + 1) bloq.signature.lefts = ins.qubits ∧ f.Passes (b.next + 1) bloq ∧
      f.on (b.next + 1) bloq.born = news ∧ b.Drawable ws ∧
      ((b.drawAll ws).place ⟨b.next, bloq⟩).Holds s l
        (stockOn f ⟨b.next, bloq⟩ bloq.signature.rights ++ rest) (gone ++ f.on (b.next + 1) bloq.dead)
        (ops ++ (bloq.operation? f (b.next + 1)).toList) := by
  have hlen := congrArg List.length hwidth
  rw [List.length_map, List.length_map, ← List.length_map Prod.fst] at hlen
  obtain ⟨f, hf⟩ := exists_map_eq (nodup_portsOn hv.nodup_lefts.of_map) hlen
  have hfits : Labels.Fits f (b.next + 1) bloq.signature.lefts := by
    have hmap : (portsOn (b.next + 1) bloq.signature.lefts).map (fun p => (f p).length) =
        (portsOn (b.next + 1) bloq.signature.lefts).map (·.reg.bitsize) := by
      rw [hwidth, ← Function.comp_def List.length f, ← List.map_map, hf, List.map_map]
      rfl
    exact List.map_inj_left.mp hmap
  obtain ⟨g, hg, hp, hborn⟩ := Composite.exists_passes hv hfits hnews
  have hgf := (List.map_congr_left hg).trans hf
  obtain ⟨hdraw, hplace⟩ := h.place hb hv hp hgf hleft hright (by rwa [hborn])
  refine ⟨g, ?_, hp, hborn, hdraw, hplace⟩
  rw [Labels.on, List.flatMap_def, hgf, Stock.qubits, List.flatMap_def]

omit [Angle α] in
private theorem eq_map_singleton {τ : Type} {xss : List (List τ)} {ys : List τ}
    (h : ∀ xs ∈ xss, xs.length = 1) (hf : xss.flatten = ys) : xss = ys.map ([·]) := by
  induction xss generalizing ys with
  | nil =>
    cases hf
    rfl
  | cons xs xss ih =>
    obtain ⟨x, rfl⟩ := List.length_eq_one_iff.mp (h xs List.mem_cons_self)
    rw [List.flatten_cons] at hf
    rw [← hf, List.map_append, ← ih (fun xs hxs => h xs (List.mem_cons_of_mem _ hxs)) rfl]
    rfl

section
variable {qs : List Qubit} {so : Soquet (Bloq α κ)} {t : DataType}

omit [Angle α] in
theorem length_indices_bitsOn (side : Side) (t : DataType) :
    (bitsOn side t).indices.length = t.bitsize := by
  rw [Register.indices, length_shapeIndices]
  exact Nat.mul_one _

omit [Angle α] in
private theorem stockOn_bundleOn (L : Labels) (x : Instance (Bloq α κ)) (side : Side) (t : DataType) :
    stockOn L x [bundleOn side t] = [(L ⟨x.number + 1, [], bundleOn side t⟩,
      ⟨.placed x, bundleOn side t, []⟩)] := rfl

/-- Splitting a bundle puts its bits into its place. -/
theorem Holds.split (h : b.Holds s l ((qs, so) :: rest) gone ops) :
    ∃ (b' : Builder (Bloq α κ)) (bits : Stock α κ) (g : Grid (Soquet (Bloq α κ))),
      Gives (Builder.split so) b g b' ∧ b'.Holds s l (bits ++ rest) gone ops ∧
      bits.map Prod.fst = qs.map ([·]) ∧ bits.map Prod.snd = g.toList := by
  have hin : b.Holds s l ([(qs, so)] ++ rest) gone ops := h
  obtain ⟨⟨hq, hpos⟩, hlen⟩ := h.width _ List.mem_cons_self
  obtain ⟨t, ht⟩ : ∃ t, so.reg.dtype = t := ⟨_, rfl⟩
  have hl : (Bloq.split t : Bloq α κ).signature.lefts = [bundleOn .left t] := Bloq.lefts_split t
  have hr : (Bloq.split t : Bloq α κ).signature.rights = [bitsOn .right t] := Bloq.rights_split t
  have hreg : (Bloq.split t : Bloq α κ).Regular := Bloq.regular_split (ht ▸ hq) (ht ▸ hpos)
  have hwidth : (portsOn (b.next + 1) (Bloq.split t : Bloq α κ).signature.lefts).map (·.reg.bitsize) =
      [qs.length] := by
    rw [hl, hlen]
    exact congrArg (fun t : DataType => [t.bitsize]) ht.symm
  obtain ⟨f, hf, hp, -, -, hholds⟩ := hin.exists_place hreg (Bloq.valid_split t) hwidth [] rfl
    [bundleWire ⟨b.next, .split t⟩ t so] rfl
    (by rw [hl]; rfl) (by rw [List.append_nil]; exact h.nodup)
  have hmoved := hp.moved rfl
  have hnone : (Bloq.split t : Bloq α κ).operation? f (b.next + 1) = none := rfl
  have hdead : f.on (b.next + 1) (Bloq.split t : Bloq α κ).dead = [] := rfl
  rw [hr, hnone, hdead, List.append_nil, Option.toList_none, List.append_nil] at hholds
  refine ⟨_, stockOn f ⟨b.next, .split t⟩ [bitsOn .right t], _,
    split_gives ht (h.available List.mem_cons_self), hholds, eq_map_singleton (fun xs hxs => ?_) ?_, ?_⟩
  · obtain ⟨e, he, rfl⟩ := List.mem_map.mp hxs
    obtain ⟨r, hr', i, hi, rfl⟩ := mem_stockOn.mp he
    have hbits := hp.fits ⟨b.next + 1, i, r⟩ (mem_portsOn.mpr
      ⟨rfl, (Signature.mem_rights.mp (by rw [hr]; exact hr')).1, hi⟩)
    rw [List.mem_singleton.mp hr'] at hbits ⊢
    exact hbits
  · rw [← List.flatMap_def, ← Stock.qubits, qubits_stockOn, ← hr, ← hmoved, hf, Stock.qubits_cons]
    exact List.append_nil _
  · rw [snd_stockOn, soquetsOn, List.flatMap_singleton]
    rfl

/-- Joining bits puts a bundle into their place. -/
theorem Holds.join {bits : Stock α κ} (h : b.Holds s l (bits ++ rest) gone ops)
    (hbits : bits.map Prod.fst = qs.map ([·])) (hq : t.isQuantum = true) (ht : t.bitsize = qs.length)
    (hpos : 1 ≤ qs.length) :
    ∃ (b' : Builder (Bloq α κ)) (so : Soquet (Bloq α κ)),
      Gives (Builder.join (.vector (bits.map Prod.snd)) (some t)) b so b' ∧
      b'.Holds s l ((qs, so) :: rest) gone ops := by
  have hl : (Bloq.join t : Bloq α κ).signature.lefts = [bitsOn .left t] := Bloq.lefts_join t
  have hr : (Bloq.join t : Bloq α κ).signature.rights = [bundleOn .right t] := Bloq.rights_join t
  have hreg : (Bloq.join t : Bloq α κ).Regular := Bloq.regular_join hq (ht ▸ hpos)
  have hlen : bits.length = t.bitsize := (Stock.length_singles hbits).trans ht.symm
  have hwidth : (portsOn (b.next + 1) (Bloq.join t : Bloq α κ).signature.lefts).map (·.reg.bitsize) =
      bits.map (·.1.length) := by
    have hone : bits.map (·.1.length) = List.replicate bits.length 1 := by
      rw [List.eq_replicate_iff, List.length_map]
      refine ⟨rfl, fun n hn => ?_⟩
      rw [← Function.comp_def List.length Prod.fst, ← List.map_map, hbits, List.map_map] at hn
      obtain ⟨q, -, rfl⟩ := List.mem_map.mp hn
      rfl
    rw [hl, hone, hlen, ← length_indices_bitsOn .left t, portsOn, List.flatMap_singleton, List.map_map]
    exact List.map_const'
  have hws : (bits.map Prod.snd).length = (bitsOn .left t).indices.length := by
    rw [List.length_map, hlen, length_indices_bitsOn]
  obtain ⟨f, hf, hp, -, hdraw, hholds⟩ := h.exists_place hreg (Bloq.valid_join t) hwidth [] rfl
    (bitWires ⟨b.next, .join t⟩ t (bits.map Prod.snd)) (left_wiresInto hws)
    (by rw [hl, soquetsOn, List.flatMap_singleton]; exact right_wiresInto hws)
    (by rw [List.append_nil]; exact h.nodup)
  have hmoved := hp.moved rfl
  have hnone : (Bloq.join t : Bloq α κ).operation? f (b.next + 1) = none := rfl
  have hdead : f.on (b.next + 1) (Bloq.join t : Bloq α κ).dead = [] := rfl
  rw [hr, hnone, hdead, List.append_nil, Option.toList_none, List.append_nil] at hholds
  have hqs : f ⟨b.next + 1, [], bundleOn .right t⟩ = qs := by
    have hon : f.on (b.next + 1) [bundleOn .right t] = f ⟨b.next + 1, [], bundleOn .right t⟩ :=
      List.append_nil _
    rw [← hon, ← hr, ← hmoved, hf, Stock.qubits_singles hbits]
  rw [stockOn_bundleOn, hqs] at hholds
  exact ⟨_, _, join_gives (by rw [List.length_map, hlen]) hdraw, hholds⟩

/-- Allocating a bundle adds it to the stock. -/
theorem Holds.allocate (h : b.Holds s l stock gone ops) (hq : t.isQuantum = true)
    (ht : t.bitsize = qs.length) (hpos : 1 ≤ qs.length)
    (hfresh : (stock.qubits ++ gone ++ qs).Nodup) :
    ∃ (b' : Builder (Bloq α κ)) (so : Soquet (Bloq α κ)), Gives (Builder.allocate t) b so b' ∧
      b'.Holds s l ((qs, so) :: stock) gone ops := by
  have hin : b.Holds s l ([] ++ stock) gone ops := h
  have hl : (Bloq.allocate t : Bloq α κ).signature.lefts = [] := Bloq.lefts_allocate t
  have hr : (Bloq.allocate t : Bloq α κ).signature.rights = [bundleOn .right t] :=
    Bloq.rights_allocate t
  have hborn : (Bloq.allocate t : Bloq α κ).born = [bundleOn .right t] := Bloq.born_allocate t
  have hreg : (Bloq.allocate t : Bloq α κ).Regular := Bloq.regular_allocate hq (ht ▸ hpos)
  have hnews : qs.length = ((Bloq.allocate t : Bloq α κ).born.map (·.totalBits)).sum := by
    rw [hborn, ← ht]
    show t.bitsize = t.bitsize * 1 + 0
    omega
  obtain ⟨f, -, hp, hf, -, hholds⟩ := hin.exists_place hreg (Bloq.valid_allocate t) (by rw [hl]; rfl)
    qs hnews [] rfl (by rw [hl]; rfl) hfresh
  have hnone : (Bloq.allocate t : Bloq α κ).operation? f (b.next + 1) = none := rfl
  have hqs : f ⟨b.next + 1, [], bundleOn .right t⟩ = qs := by
    rw [hborn] at hf
    exact (List.append_nil _).symm.trans hf
  rw [hr, hnone, Bloq.dead_allocate, Labels.on_nil, List.append_nil, Option.toList_none,
    List.append_nil, stockOn_bundleOn, hqs] at hholds
  exact ⟨_, _, allocate_gives, hholds⟩

/-- Freeing a bundle takes it out of the stock. -/
theorem Holds.free (h : b.Holds s l ((qs, so) :: rest) gone ops) :
    ∃ b', Gives (Builder.free so) b () b' ∧ b'.Holds s l rest (gone ++ qs) ops := by
  have hin : b.Holds s l ([(qs, so)] ++ rest) gone ops := h
  obtain ⟨⟨hq, hpos⟩, hlen⟩ := h.width _ List.mem_cons_self
  obtain ⟨t, ht⟩ : ∃ t, so.reg.dtype = t := ⟨_, rfl⟩
  have hl : (Bloq.free t : Bloq α κ).signature.lefts = [bundleOn .left t] := Bloq.lefts_free t
  have hr : (Bloq.free t : Bloq α κ).signature.rights = [] := Bloq.rights_free t
  have hreg : (Bloq.free t : Bloq α κ).Regular := Bloq.regular_free (ht ▸ hq) (ht ▸ hpos)
  have hwidth : (portsOn (b.next + 1) (Bloq.free t : Bloq α κ).signature.lefts).map (·.reg.bitsize) =
      [qs.length] := by
    rw [hl, hlen]
    exact congrArg (fun t : DataType => [t.bitsize]) ht.symm
  obtain ⟨f, hf, hp, -, -, hholds⟩ := hin.exists_place hreg (Bloq.valid_free t) hwidth []
    (by rw [Bloq.born_free]; rfl)
    [bundleWire ⟨b.next, .free t⟩ t so] rfl
    (by rw [hl]; rfl) (by rw [List.append_nil]; exact h.nodup)
  have hnone : (Bloq.free t : Bloq α κ).operation? f (b.next + 1) = none := rfl
  have hqs : f.on (b.next + 1) [bundleOn .left t] = qs := by
    rw [← hl, hf, Stock.qubits_cons]
    exact List.append_nil _
  rw [hr, hnone, Bloq.dead_free, hqs, Option.toList_none, List.append_nil] at hholds
  exact ⟨_, free_gives ht (h.available List.mem_cons_self), hholds⟩

end

end Builder
end BloqCircuit
