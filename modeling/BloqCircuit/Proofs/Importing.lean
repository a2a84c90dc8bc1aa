import Mathlib.Data.List.Flatten
import BloqCircuit.Proofs.Carriers
import BloqCircuit.Proofs.Cutting
import BloqCircuit.Proofs.Regrouping
/-! Import of circuits: each operation takes its inputs out of the stock and puts its outputs in. -/
namespace BloqCircuit

/-- A flat list of qubits is cut into the arrays of its labels. -/
theorem Quregs.split_on {s : Signature} {f : Labels} {v : Nat} (hname : s.repeatedName? = none)
    (hf : f.Fits v s.registers) : Quregs.split s (f.on v s.registers) = .ok (f.arrays v s.registers) := by
  have hflat : flattened s.registers (f.array v) = f.on v s.registers := by
    rw [flattened, Labels.on_eq_flatMap]
    exact List.flatMap_congr fun r hr => Labels.toList_array hf hr
  rw [← hflat]
  exact split_flattened (Signature.repeatedName?_eq_none.mp hname) fun r _ => Register.shape_array _

/-- A flat list of qubits that can be cut is cut into the arrays of labels. -/
theorem Quregs.exists_of_split {s : Signature} {qubits : List Qubit} {quregs : Quregs}
    (h : Quregs.split s qubits = .ok quregs) (v : Nat) :
    ∃ f : Labels, f.Fits v s.registers ∧ f.on v s.registers = qubits ∧
      quregs = f.arrays v s.registers := by
  have hname : s.repeatedName? = none := by
    rw [split] at h
    split at h
    · cases h
    · assumption
  have hsum : qubits.length = ((portsOn v s.registers).map fun p => p.reg.bitsize).sum := by
    rw [length_of_split h, Signature.totalBits_eq, sum_bitsize_portsOn]
  obtain ⟨f, hfits, hflat⟩ := exists_pieces
    (nodup_portsOn (Signature.repeatedName?_eq_none.mp hname).of_map) _ hsum
  have hon : Labels.on f v s.registers = qubits := hflat
  refine ⟨f, hfits, hon, ?_⟩
  rw [← hon, Quregs.split_on hname hfits] at h
  exact (Except.ok.inj h).symm

/-- A list of qubits is cut without remainder. -/
theorem Quregs.qubits_of_split {s : Signature} {qubits : List Qubit} {quregs : Quregs}
    (h : Quregs.split s qubits = .ok quregs) : quregs.qubits = qubits := by
  obtain ⟨f, hfits, hon, rfl⟩ := exists_of_split h 0
  rw [← hon, Labels.on_eq_flatMap, Quregs.qubits]
  change (s.registers.map fun r => (r.name, f.array 0 r)).flatMap _ = _
  rw [List.flatMap_map]
  exact List.flatMap_congr fun r hr => Labels.toList_array hfits hr

namespace Labels

/-- The labels of one node, put on all others. -/
def moveTo (f : Labels) (v : Nat) : Labels := fun p => f { p with node := v }

variable {f : Labels} {v : Nat}

theorem map_moveTo (w : Nat) (registers : List Register) :
    (portsOn w registers).map (f.moveTo v) = (portsOn v registers).map f := by
  rw [portsOn, portsOn, List.map_flatMap, List.map_flatMap]
  refine List.flatMap_congr fun r _ => ?_
  rw [List.map_map, List.map_map]
  rfl

theorem on_moveTo (w : Nat) (registers : List Register) :
    (f.moveTo v).on w registers = f.on v registers := by
  rw [on, on, List.flatMap_def, List.flatMap_def, map_moveTo]

theorem Fits.moveTo {registers : List Register} (h : f.Fits v registers) (w : Nat) :
    (f.moveTo v).Fits w registers := by
  intro p hp
  obtain ⟨-, hr, hi⟩ := mem_portsOn.mp hp
  exact h ⟨v, p.index, p.reg⟩ (mem_portsOn.mpr ⟨rfl, hr, hi⟩)

theorem Passes.moveTo {α κ : Type} {b : Bloq α κ} (h : f.Passes v b) (w : Nat) :
    (f.moveTo v).Passes w b where
  fits := h.fits.moveTo w
  moved hm := by rw [on_moveTo, on_moveTo, h.moved hm]

theorem operation?_moveTo {α κ : Type} (b : Bloq α κ) (w : Nat) :
    b.operation? (f.moveTo v) w = b.operation? f v := by
  rw [Bloq.operation?, Bloq.operation?, on_moveTo]

end Labels

namespace Import
variable {α κ : Type} [Angle α] {sig : Signature} {l : Labels} {stock : Stock α κ}
  {gone : List Qubit} {ops : List (Operation (Gate α κ))} {b : Builder (Bloq α κ)}
  {bundles : Bundles (Bloq α κ)}

/-! ## Requests -/

/-- Whatever builder, bundles and stock `P` holds of, a request is served: its bundle is at hand
afterwards, and bundles of other qubits stay. -/
def Ensures (P : Builder (Bloq α κ) → Bundles (Bloq α κ) → Stock α κ → Prop)
    (request : QubitBundle) : Prop :=
  ∀ {b bundles stock}, P b bundles stock → ∃ so b' bundles' stock',
    Gives (ensure request bundles) b (so, bundles') b' ∧ P b' bundles' stock' ∧
    Changes request.qubits stock stock' ∧ (request.qubits, so) ∈ stock'

section
variable {P : Builder (Bloq α κ) → Bundles (Bloq α κ) → Stock α κ → Prop} {f : Labels} {v : Nat}
  {registers : List Register}

/-- All requested bundles are at hand afterwards. -/
theorem ensureEach_gives (h : P b bundles stock) (requests : List QubitBundle)
    (hn : (requests.flatMap (·.qubits)).Nodup) (hr : ∀ r ∈ requests, Ensures P r) :
    ∃ (ins : Stock α κ) (b' : Builder (Bloq α κ)) (bundles' : Bundles (Bloq α κ))
      (stock' : Stock α κ),
      Gives (ensureEach requests bundles) b (ins.map Prod.snd, bundles') b' ∧ P b' bundles' stock' ∧
      Changes (requests.flatMap (·.qubits)) stock stock' ∧
      ins.map Prod.fst = requests.map (·.qubits) ∧ ∀ e ∈ ins, e ∈ stock' := by
  induction requests generalizing b bundles stock with
  | nil =>
    exact ⟨[], b, bundles, stock, gives_pure.mpr ⟨rfl, rfl⟩, h, .refl _ _, rfl,
      fun e he => absurd he List.not_mem_nil⟩
  | cons r requests ih =>
    rw [List.flatMap_cons] at hn ⊢
    obtain ⟨-, hnrest, hdisjoint⟩ := List.nodup_append.mp hn
    obtain ⟨so, b₁, bundles₁, stock₁, hensure, h₁, hchanges, hso⟩ := hr r List.mem_cons_self h
    obtain ⟨ins, b', bundles', stock', hrest, h', hchanges', hins, hmem⟩ :=
      ih h₁ hnrest fun r hr' => hr r (List.mem_cons_of_mem _ hr')
    refine ⟨(r.qubits, so) :: ins, b', bundles', stock', ?_, h', hchanges.trans hchanges', ?_, ?_⟩
    · exact gives_bind.mpr ⟨_, _, hensure, gives_bind.mpr ⟨_, _, hrest, gives_pure.mpr ⟨rfl, rfl⟩⟩⟩
    · rw [List.map_cons, List.map_cons, hins]
    · intro e he
      rcases List.mem_cons.mp he with rfl | he
      · exact hchanges'.kept _ hso fun q hq hm => hdisjoint q hq q hm rfl
      · exact hmem e he

omit [Angle α] in
private theorem bundle_array (hf : f.Fits v registers) {r : Register} (hr : r ∈ registers)
    {i : List Nat} (hi : i ∈ r.indices) : r.bundle (f.array v r) i = ⟨f ⟨v, i, r⟩, r.dtype⟩ := by
  rw [Register.bundle, Labels.array, Register.lane_array (hf.register hr) hi]

/-- All elements of a register are at hand afterwards, and fill an array of its shape. -/
theorem ensureRegister_gives (h : P b bundles stock) {r : Register} (hf : f.Fits v [r])
    (hn : (f.on v [r]).Nodup) (hr : ∀ p ∈ portsOn v [r], Ensures P ⟨f p, p.reg.dtype⟩) :
    ∃ (cells : Grid (Soquet (Bloq α κ))) (ins : Stock α κ) (b' : Builder (Bloq α κ))
      (bundles' : Bundles (Bloq α κ)) (stock' : Stock α κ),
      Gives (ensureEach (r.indices.map (r.bundle (f.array v r))) bundles) b
        (ins.map Prod.snd, bundles') b' ∧
      Grid.ofCells? r.shape (ins.map Prod.snd) = some cells ∧
      P b' bundles' stock' ∧ Changes (f.on v [r]) stock stock' ∧
      ins.map Prod.fst = (portsOn v [r]).map f ∧ ∀ e ∈ ins, e ∈ stock' := by
  have hmem : r ∈ [r] := List.mem_singleton_self r
  have hrequests : r.indices.map (r.bundle (f.array v r)) =
      r.indices.map fun i => ⟨f ⟨v, i, r⟩, r.dtype⟩ :=
    List.map_congr_left fun i hi => bundle_array hf hmem hi
  have hflat : (r.indices.map (r.bundle (f.array v r))).flatMap (·.qubits) = f.on v [r] := by
    rw [hrequests, List.flatMap_map, Labels.on_singleton]
    rfl
  have hrequest : ∀ request ∈ r.indices.map (r.bundle (f.array v r)), Ensures P request := by
    intro request hrequest
    rw [hrequests] at hrequest
    obtain ⟨i, hi, rfl⟩ := List.mem_map.mp hrequest
    exact hr ⟨v, i, r⟩ (mem_portsOn.mpr ⟨rfl, hmem, hi⟩)
  obtain ⟨ins, b', bundles', stock', heach, h', hchanges, hins, hstock⟩ :=
    ensureEach_gives h _ (hflat ▸ hn) hrequest
  rw [hflat] at hchanges
  rw [hrequests, List.map_map] at hins
  have hlen : (ins.map Prod.snd).toArray.size = shapeSize r.shape := by
    have hlen := congrArg List.length hins
    rw [List.length_map, List.length_map, Register.indices, length_shapeIndices] at hlen
    rw [List.size_toArray, List.length_map, hlen]
  refine ⟨_, ins, b', bundles', stock', heach, dif_pos hlen, h', hchanges, ?_, hstock⟩
  rw [hins, portsOn_singleton, List.map_map]
  rfl

/-- All elements of the registers are at hand afterwards, and the arrays hold their soquets. -/
theorem ensureRegisters_gives (h : P b bundles stock) (hf : f.Fits v registers)
    (hn : (f.on v registers).Nodup) (hr : ∀ p ∈ portsOn v registers, Ensures P ⟨f p, p.reg.dtype⟩)
    (out : Soquets (Bloq α κ)) (hnames : (out.names ++ registers.map (·.name)).Nodup) :
    ∃ (cells : Register → Grid (Soquet (Bloq α κ))) (ins : Stock α κ) (b' : Builder (Bloq α κ))
      (bundles' : Bundles (Bloq α κ)) (stock' : Stock α κ),
      Gives (ensureRegisters (registers.map fun r => (r, f.array v r)) bundles out) b
        (⟨out.entries ++ registers.map fun r => (r.name, cells r)⟩, bundles') b' ∧
      P b' bundles' stock' ∧ Changes (f.on v registers) stock stock' ∧
      (∀ r ∈ registers, (cells r).shape = r.shape) ∧
      ins.map Prod.fst = (portsOn v registers).map f ∧
      ins.map Prod.snd = registers.flatMap (fun r => (cells r).toList) ∧ ∀ e ∈ ins, e ∈ stock' := by
  induction registers generalizing b bundles stock out with
  | nil =>
    refine ⟨fun r => .vector [], [], b, bundles, stock, ?_, h, .refl _ _, fun r hr => absurd hr List.not_mem_nil,
      rfl, rfl, fun e he => absurd he List.not_mem_nil⟩
    rw [List.map_nil, List.map_nil, List.append_nil]
    exact gives_pure.mpr ⟨rfl, rfl⟩
  | cons r rest ih =>
    have hcons : f.on v (r :: rest) = f.on v [r] ++ f.on v rest := Labels.on_append [r] rest
    have hports : portsOn v (r :: rest) = portsOn v [r] ++ portsOn v rest := portsOn_append v [r] rest
    rw [hcons] at hn ⊢
    rw [hports] at hr
    obtain ⟨hnr, hnrest, hdisjoint⟩ := List.nodup_append.mp hn
    obtain ⟨g, ins₁, b₁, bundles₁, stock₁, heach, hg, h₁, hchanges, hins₁, hmem₁⟩ :=
      ensureRegister_gives h (hf.mono fun s hs => List.mem_singleton.mp hs ▸ List.mem_cons_self) hnr
        fun p hp => hr p (List.mem_append_left _ hp)
    obtain ⟨hshape, hcells⟩ := Grid.ofCells?_eq_some.mp hg
    rw [List.map_cons, List.nodup_append, List.nodup_cons] at hnames
    have hname : r.name ∉ out.names := fun hm => hnames.2.2 _ hm _ List.mem_cons_self rfl
    have hinsert := Arrays.insert_of_not_mem hname g
    obtain ⟨cells, ins₂, b', bundles', stock', hrest, h', hchanges', hshapes, hins₂, hsnd, hmem₂⟩ :=
      ih h₁ (hf.mono fun s => List.mem_cons_of_mem _) hnrest
        (fun p hp => hr p (List.mem_append_right _ hp)) (out.insert r.name g) (by
          rw [hinsert, Arrays.names, List.map_append, List.append_assoc]
          refine List.nodup_append.mpr ⟨hnames.1, List.nodup_cons.mpr hnames.2.1, hnames.2.2⟩)
    have hother : ∀ s ∈ rest, (if s = r then g else cells s) = cells s := by
      intro s hs
      exact if_neg fun heq => hnames.2.1.1 (List.mem_map.mpr ⟨s, hs, by rw [heq]⟩)
    refine ⟨fun s => if s = r then g else cells s, ins₁ ++ ins₂, b', bundles', stock', ?_, h',
      hchanges.trans hchanges', ?_, ?_, ?_, ?_⟩
    · rw [List.map_cons, ensureRegisters]
      refine gives_bind.mpr ⟨_, _, heach, ?_⟩
      rw [hinsert] at hrest
      simp only [hg, hinsert]
      have hentries : out.entries ++ [(r.name, g)] ++ rest.map (fun s => (s.name, cells s)) =
          out.entries ++ (r :: rest).map fun s => (s.name, if s = r then g else cells s) := by
        rw [List.append_assoc, List.map_cons, if_pos rfl]
        refine congrArg _ (congrArg _ (List.map_congr_left fun s hs => ?_))
        rw [hother s hs]
      rw [← hentries]
      exact hrest
    · intro s hs
      rcases List.mem_cons.mp hs with rfl | hs
      · exact (congrArg Grid.shape (if_pos rfl)).trans hshape
      · exact (congrArg Grid.shape (hother s hs)).trans (hshapes s hs)
    · rw [List.map_append, hins₁, hins₂, ← List.map_append, hports]
    · rw [List.map_append, hsnd, ← hcells, List.flatMap_cons]
      exact congrArg₂ _ (congrArg Grid.toList (if_pos rfl).symm)
        (List.flatMap_congr fun s hs => congrArg Grid.toList (hother s hs).symm)
    · intro e he
      rcases List.mem_append.mp he with he | he
      · -- what the register takes is not touched when the others are filled
        refine hchanges'.kept e (hmem₁ e he) fun q hqe hm => hdisjoint q ?_ q hm rfl
        have hk := List.mem_map_of_mem (f := Prod.fst) he
        rw [hins₁] at hk
        obtain ⟨p, hp, heq⟩ := List.mem_map.mp hk
        exact List.mem_flatMap.mpr ⟨p, hp, heq ▸ hqe⟩
      · exact hmem₂ e he

end

variable {f : Labels} {v : Nat} {registers : List Register}

theorem Tracks.ensureRegisters_gives (h : Tracks b bundles sig l stock gone ops)
    (hf : f.Fits v registers) (hq : ∀ r ∈ registers, r.Quantum) (hn : (f.on v registers).Nodup)
    (hgone : ∀ q ∈ f.on v registers, q ∉ gone) (out : Soquets (Bloq α κ))
    (hnames : (out.names ++ registers.map (·.name)).Nodup) :
    ∃ (cells : Register → Grid (Soquet (Bloq α κ))) (ins : Stock α κ) (b' : Builder (Bloq α κ))
      (bundles' : Bundles (Bloq α κ)) (stock' : Stock α κ),
      Gives (ensureRegisters (registers.map fun r => (r, f.array v r)) bundles out) b
        (⟨out.entries ++ registers.map fun r => (r.name, cells r)⟩, bundles') b' ∧
      Tracks b' bundles' sig l stock' gone ops ∧ Changes (f.on v registers) stock stock' ∧
      (∀ r ∈ registers, (cells r).shape = r.shape) ∧
      ins.map Prod.fst = (portsOn v registers).map f ∧
      ins.map Prod.snd = registers.flatMap (fun r => (cells r).toList) ∧ ∀ e ∈ ins, e ∈ stock' := by
  refine Import.ensureRegisters_gives
    (P := fun b bundles stock => Tracks b bundles sig l stock gone ops) h hf hn (fun p hp => ?_)
    out hnames
  have hlen : (f p).length = p.reg.bitsize := hf p hp
  have hquantum := hq p.reg (mem_portsOn.mp hp).2.1
  have hpos : 1 ≤ (f p).length := by
    rw [hlen]
    exact hquantum.2
  intro b bundles stock h
  exact h.ensure_gives ((List.nodup_flatMap.mp hn).1 p hp) hpos hquantum.1 hlen.symm fun q hq =>
    hgone q (List.mem_flatMap.mpr ⟨p, hp, hq⟩)

/-! ## Rebinding -/

section
variable (bloq : Bloq α κ) {out : Soquets (Bloq α κ)} {r : Register} {g : Grid Qubit}
  {is : List (List Nat)} {held ins : Stock α κ}

private theorem rebind_ends (out : Soquets (Bloq α κ)) (hs : r.side = .left) (h : bundles.Lists (ins ++ held))
    (hk : ins.map Prod.fst = is.map (r.lane g)) :
    ∃ bundles', rebind bloq out r g is bundles = .ok bundles' ∧ bundles'.Lists held := by
  induction is generalizing ins bundles with
  | nil =>
    rw [List.map_eq_nil_iff.mp hk] at h
    exact ⟨bundles, rfl, h⟩
  | cons i is ih =>
    cases ins with
    | nil => cases hk
    | cons e ins =>
      rw [List.map_cons, List.map_cons, List.cons.injEq] at hk
      rw [rebind, if_pos hs, ← hk.1]
      exact ih h.erase hk.2

private theorem rebind_outputs (hs : r.side ≠ .left) {cells : Grid (Soquet (Bloq α κ))}
    (hout : out.get? r.name = some cells) {so : List Nat → Soquet (Bloq α κ)}
    (hcells : ∀ i ∈ is, cells.get? i = some (so i)) (h : bundles.Lists (ins ++ held))
    (hk : ins = [] ∨ ins.map Prod.fst = is.map (r.lane g))
    (hn : (is.map (r.lane g) ++ held.map Prod.fst).Nodup) :
    ∃ bundles', rebind bloq out r g is bundles = .ok bundles' ∧
      bundles'.Lists (is.map (fun i => (r.lane g i, so i)) ++ held) := by
  induction is generalizing ins held bundles with
  | nil =>
    rcases hk with rfl | hk
    · exact ⟨bundles, rfl, h⟩
    · rw [List.map_eq_nil_iff.mp hk] at h
      exact ⟨bundles, rfl, h⟩
  | cons i is ih =>
    rw [List.map_cons, List.cons_append, List.nodup_cons] at hn
    have hget : (out.get? r.name).bind (·.get? i) = some (so i) := by
      rw [hout]
      exact hcells i List.mem_cons_self
    rw [rebind, if_neg hs, hget]
    -- the output replaces the input in the same place, or is new
    obtain ⟨ins', hlists, hk'⟩ : ∃ ins' : Stock α κ,
        (bundles.insert (r.lane g i) (so i)).Lists ((r.lane g i, so i) :: (ins' ++ held)) ∧
          (ins' = [] ∨ ins'.map Prod.fst = is.map (r.lane g)) := by
      rcases hk with rfl | hk
      · have hnew : r.lane g i ∉ held.map Prod.fst := fun hm => hn.1 (List.mem_append_right _ hm)
        exact ⟨[], h.insert hnew _, .inl rfl⟩
      · cases ins with
        | nil => cases hk
        | cons e ins =>
          obtain ⟨k, t⟩ := e
          rw [List.map_cons, List.map_cons, List.cons.injEq] at hk
          have hkey : k = r.lane g i := hk.1
          subst hkey
          exact ⟨ins, h.replace _, .inr hk.2⟩
    have hperm : (is.map (r.lane g) ++ ((r.lane g i, so i) :: held).map Prod.fst).Nodup := by
      rw [List.map_cons]
      exact List.perm_middle.nodup_iff.mpr (List.nodup_cons.mpr hn)
    obtain ⟨bundles', hrebind, hlists'⟩ := ih (fun j hj => hcells j (List.mem_cons_of_mem _ hj))
      (hlists.perm List.perm_middle.symm) hk' hperm
    refine ⟨bundles', hrebind, hlists'.perm ?_⟩
    rw [List.map_cons]
    exact List.perm_middle

end

section
variable {x : Instance (Bloq α κ)} {out : Soquets (Bloq α κ)} {held ins : Stock α κ}

/-- After a bloq the inputs of a register are no longer bound, and its outputs are. -/
theorem rebind_gives {r : Register} (hf : f.Fits (x.number + 1) [r])
    (hout : r.side ≠ .left → out.get? r.name = some (Grid.ofFn r.shape fun i => ⟨.placed x, r, i⟩))
    (hins : ins.map Prod.fst = (portsOn (x.number + 1) ([r].filter (·.side.isLeft))).map f)
    (hn : ((portsOn (x.number + 1) [r]).map f ++ held.map Prod.fst).Nodup)
    (h : bundles.Lists (ins ++ held)) :
    ∃ bundles', rebind x.bloq out r (f.array (x.number + 1) r) r.indices bundles = .ok bundles' ∧
      bundles'.Lists (stockOn f x ([r].filter (·.side.isRight)) ++ held) := by
  have hlanes : (portsOn (x.number + 1) [r]).map f =
      r.indices.map (r.lane (f.array (x.number + 1) r)) := by
    rw [portsOn_singleton, List.map_map]
    exact List.map_congr_left fun i hi =>
      (Register.lane_array (hf.register (List.mem_singleton_self r)) hi).symm
  rw [hlanes] at hn
  by_cases hs : r.side = .left
  · rw [List.filter_cons_of_pos (by rw [hs]; rfl), List.filter_nil, hlanes] at hins
    rw [List.filter_cons_of_neg (by rw [hs]; exact Bool.false_ne_true)]
    exact rebind_ends x.bloq out hs h hins
  · have hright : r.side.isRight = true := Side.isRight_of_ne hs
    have hk : ins = [] ∨ ins.map Prod.fst = r.indices.map (r.lane (f.array (x.number + 1) r)) := by
      by_cases hl : r.side.isLeft = true
      · rw [List.filter_cons, if_pos hl, List.filter_nil, hlanes] at hins
        exact .inr hins
      · rw [List.filter_cons, if_neg hl] at hins
        exact .inl (List.map_eq_nil_iff.mp hins)
    have hcells : ∀ i ∈ r.indices, (Grid.ofFn r.shape fun i =>
        (⟨.placed x, r, i⟩ : Soquet (Bloq α κ))).get? i = some ⟨.placed x, r, i⟩ :=
      fun i hi => Grid.get?_ofFn r.shape _ hi
    obtain ⟨bundles', hrebind, hlists⟩ := rebind_outputs x.bloq hs (hout hs) hcells h hk hn
    refine ⟨bundles', hrebind, ?_⟩
    have hstock : stockOn f x [r] = r.indices.map fun i =>
        (r.lane (f.array (x.number + 1) r) i, (⟨.placed x, r, i⟩ : Soquet (Bloq α κ))) := by
      rw [stockOn, soquetsOn, List.flatMap_singleton, List.map_map]
      exact List.map_congr_left fun i hi => congrArg (·, _)
        (Register.lane_array (hf.register (List.mem_singleton_self r)) hi).symm
    rwa [List.filter_cons, if_pos hright, List.filter_nil, hstock]

/-- After a bloq its inputs are no longer bound, and its outputs are. -/
theorem rebindAll_gives (hf : f.Fits (x.number + 1) registers)
    (hout : ∀ r ∈ registers, r.side ≠ .left →
      out.get? r.name = some (Grid.ofFn r.shape fun i => ⟨.placed x, r, i⟩))
    (hins : ins.map Prod.fst = (portsOn (x.number + 1) (registers.filter (·.side.isLeft))).map f)
    (hn : ((portsOn (x.number + 1) registers).map f ++ held.map Prod.fst).Nodup)
    (h : bundles.Lists (ins ++ held)) :
    ∃ bundles', rebindAll x.bloq out (registers.map fun r => (r, f.array (x.number + 1) r)) bundles =
        .ok bundles' ∧
      bundles'.Lists (stockOn f x (registers.filter (·.side.isRight)) ++ held) := by
  induction registers generalizing bundles ins held with
  | nil =>
    rw [List.map_eq_nil_iff.mp hins] at h
    exact ⟨bundles, rfl, h⟩
  | cons r rest ih =>
    have hports (p : Register → Bool) : (portsOn (x.number + 1) ((r :: rest).filter p)).map f =
        (portsOn (x.number + 1) ([r].filter p)).map f ++
          (portsOn (x.number + 1) (rest.filter p)).map f := by
      rw [← List.map_append, ← portsOn_append, ← List.filter_append]
      rfl
    -- the inputs that belong to the register, and those of the registers after it
    rw [hports] at hins
    obtain ⟨ins₁, ins₂, rfl, hins₁, hins₂⟩ := List.map_eq_append_iff.mp hins
    have hall : (portsOn (x.number + 1) (r :: rest)).map f =
        (portsOn (x.number + 1) [r]).map f ++ (portsOn (x.number + 1) rest).map f := by
      rw [← List.map_append, ← portsOn_append]
      rfl
    rw [hall, List.append_assoc] at hn
    rw [List.append_assoc] at h
    have hsub (p : Register → Bool) (registers : List Register) :
        ((portsOn (x.number + 1) (registers.filter p)).map f).Sublist
          ((portsOn (x.number + 1) registers).map f) := (List.filter_sublist.flatMap _).map f
    obtain ⟨bundles₁, hrebind, hlists⟩ := rebind_gives
      (hf.mono fun s hs => List.mem_singleton.mp hs ▸ List.mem_cons_self)
      (hout r List.mem_cons_self) hins₁ (by
        rw [List.map_append, hins₂]
        exact hn.sublist (((hsub _ rest).append_right _).append_left _)) h
    have hmove (xs ys : Stock α κ) : (xs ++ (ys ++ held)).Perm (ys ++ (xs ++ held)) := by
      rw [← List.append_assoc, ← List.append_assoc]
      exact List.perm_append_comm.append_right held
    obtain ⟨bundles', hrebinds, hlists'⟩ := ih (hf.mono fun s => List.mem_cons_of_mem _)
      (fun s hs => hout s (List.mem_cons_of_mem _ hs)) hins₂ (by
        rw [List.map_append, fst_stockOn, ← List.append_assoc]
        rw [← List.append_assoc] at hn
        refine (List.perm_append_comm.append_right _).nodup_iff.mp (hn.sublist ?_)
        exact ((hsub _ [r]).append_right _).append_right _) (hlists.perm (hmove _ _))
    refine ⟨bundles', bind_eq_ok.mpr ⟨bundles₁, hrebind, hrebinds⟩, ?_⟩
    have hright : (r :: rest).filter (·.side.isRight) =
        [r].filter (·.side.isRight) ++ rest.filter (·.side.isRight) := List.filter_append [r] rest
    rw [hright, stockOn_append, List.append_assoc]
    exact hlists'.perm (hmove _ _)

end

/-! ## Operations -/

omit [Angle α] in
/-- The outputs of a placed bloq, by register. -/
theorem get?_outputs (x : Instance (Bloq α κ)) (hn : (x.bloq.signature.rights.map (·.name)).Nodup) :
    ∀ r ∈ x.bloq.signature.registers, r.side ≠ .left →
      (Arrays.byRegister x.bloq.signature.rights fun r =>
        Grid.ofFn r.shape fun i => (⟨.placed x, r, i⟩ : Soquet (Bloq α κ))).get? r.name =
          some (Grid.ofFn r.shape fun i => ⟨.placed x, r, i⟩) := by
  intro r hr hs
  exact Arrays.get?_byRegister hn (Signature.mem_rights.mpr ⟨hr, Side.isRight_of_ne hs⟩)

theorem arraysOf_eq (hn : (registers.map (·.name)).Nodup) :
    arraysOf (f.arrays v registers) registers = .ok (registers.map fun r => (r, f.array v r)) := by
  refine mapM_eq_ok fun r hr => ?_
  rw [Labels.arrayIn_arrays hn hr]
  rfl

/-- An operation on the qubits of labels: its inputs are brought to hand, its bloq is added and its
registers are bound. -/
theorem addOperation_eq {op : Operation (Gate α κ)} {bloq : Bloq α κ} (hbloq : op.gate.bloq = bloq)
    (hnames : (bloq.signature.registers.map (·.name)).Nodup)
    (hf : f.Fits v bloq.signature.registers) (hon : f.on v bloq.signature.registers = op.qubits)
    (bundles : Bundles (Bloq α κ)) :
    addOperation op bundles = (do
      let (given, bundles) ←
        ensureRegisters (bloq.signature.lefts.map fun r => (r, f.array v r)) bundles Arrays.empty
      let out ← Builder.add bloq given
      rebindAll bloq out (bloq.signature.registers.map fun r => (r, f.array v r)) bundles) := by
  have hgate : (CircuitForm.ofGate op.gate : Bloq α κ) = bloq := hbloq
  have hsplit : Quregs.split bloq.signature op.qubits = .ok (f.arrays v bloq.signature.registers) := by
    rw [← hon]
    exact Quregs.split_on (Signature.repeatedName?_eq_none.mpr hnames) hf
  have hfilter : (bloq.signature.registers.map fun r => (r, f.array v r)).filter (·.1.side.isLeft) =
      bloq.signature.lefts.map fun r => (r, f.array v r) := List.filter_map
  rw [addOperation, hgate]
  have hsignature : BloqKind.signature bloq = bloq.signature := rfl
  simp only [hsignature, hsplit, lift_ok_bind, arraysOf_eq hnames, hfilter]

omit [Angle α] in
/-- What a placed bloq binds is not bound by the rest of the stock. -/
private theorem nodup_keys_placed {bloq : Bloq α κ} {rest ins : Stock α κ} (hb : bloq.Regular)
    (hm : bloq.moves = false) (hp : f.Passes v bloq)
    (hins : (portsOn v bloq.signature.lefts).map f = ins.map Prod.fst)
    (hne : ∀ e ∈ rest, e.1 ≠ [])
    (hfresh : ((ins ++ rest).qubits ++ gone ++ f.on v bloq.born).Nodup) :
    ((portsOn v bloq.signature.registers).map f ++ rest.map Prod.fst).Nodup := by
  refine nodup_of_nodup_flatten ?_ fun k hk => ?_
  · have hqubits : ((portsOn v bloq.signature.registers).map f ++ rest.map Prod.fst).flatten =
        f.on v bloq.signature.registers ++ rest.qubits := by
      rw [List.flatten_append, Labels.on, Stock.qubits, List.flatMap_def, List.flatMap_def]
    have hinsqubits : ins.qubits = f.on v bloq.signature.lefts := by
      rw [Stock.qubits, List.flatMap_def, ← hins, Labels.on, List.flatMap_def]
    have hperm := Labels.on_perm (L := f) (v := v) (Bloq.lefts_born_perm hm)
    have hfresh := hfresh.sublist
      (List.Sublist.append_right (List.sublist_append_left _ gone) (f.on v bloq.born))
    rw [hqubits]
    refine (List.Perm.nodup_iff ?_).mp hfresh
    rw [Stock.qubits_append, hinsqubits, List.append_assoc]
    rw [Labels.on_append] at hperm
    refine (List.perm_append_comm.append_left _).trans ?_
    rw [← List.append_assoc]
    exact hperm.append_right _
  · rcases List.mem_append.mp hk with hk | hk
    · obtain ⟨p, hport, rfl⟩ := List.mem_map.mp hk
      have hlen := hp.fits p hport
      have hpos := (hb.quantum _ (mem_portsOn.mp hport).2.1).2
      exact List.ne_nil_of_length_pos (by omega)
    · obtain ⟨e, he, rfl⟩ := List.mem_map.mp hk
      exact hne e he

/-- An operation takes its inputs out of the stock and puts its outputs in. -/
theorem Tracks.addOperation_gives (h : Tracks b bundles sig l stock gone ops) {bloq : Bloq α κ}
    (hb : bloq.Regular) (hp : f.Passes v bloq) {op : Operation (Gate α κ)}
    (hop : bloq.operation? f v = some op) (hn : op.qubits.Nodup)
    (hgone : ∀ q ∈ f.on v bloq.signature.lefts, q ∉ gone)
    (hnew : ∀ q ∈ f.on v bloq.born, q ∉ stock.qubits ++ gone) :
    ∃ b' bundles' stock', Gives (addOperation op bundles) b bundles' b' ∧
      Tracks b' bundles' sig l stock' (gone ++ f.on v bloq.dead) (ops ++ [op]) ∧
      ∀ q ∈ stock'.qubits, q ∈ stock.qubits ∨ q ∈ op.qubits := by
  obtain ⟨g, hg, rfl⟩ := Option.map_eq_some_iff.mp hop
  have hbloq := hb.of_emits hg
  obtain ⟨hmoves, hnames⟩ := hb.plain.of_emits hg
  have hvalid : bloq.signature.Valid := Signature.valid_of_nodup hnames
  have hlefts : ∀ r ∈ bloq.signature.lefts, r ∈ bloq.signature.registers :=
    fun r hr => (Signature.mem_lefts.mp hr).1
  have hperm : (f.on v bloq.signature.lefts ++ f.on v bloq.born).Perm
      (f.on v bloq.signature.registers) := by
    rw [← Labels.on_append]
    exact Labels.on_perm (Bloq.lefts_born_perm hmoves)
  have hnodup := hperm.nodup_iff.mpr hn
  obtain ⟨hnlefts, hnborn, hdisjoint⟩ := List.nodup_append.mp hnodup
  -- the inputs are brought to hand; `rest` is what is bound besides them
  obtain ⟨cells, ins, b₁, bundles₁, stock₁, hensure, htracks, hchanges, hshapes, hins, hsnd, hmem⟩ :=
    h.ensureRegisters_gives (hp.fits.mono hlefts) (fun r hr => hb.quantum r (hlefts r hr)) hnlefts
      hgone Arrays.empty hvalid.nodup_lefts
  have hinsqubits : ins.qubits = f.on v bloq.signature.lefts := by
    rw [Stock.qubits, List.flatMap_def, hins, Labels.on, List.flatMap_def]
  obtain ⟨rest, hrest⟩ := Stock.exists_rest (Stock.nodup_keys (by rwa [hinsqubits])
    fun e he => htracks.holds.ne_nil (hmem e he)) hmem
  have hholds := htracks.holds.perm hrest
  -- the bloq gets the next number, so its labels move to that node
  have hfresh : ((ins ++ rest).qubits ++ gone ++ (f.moveTo v).on (b₁.next + 1) bloq.born).Nodup := by
    rw [Labels.on_moveTo]
    refine List.nodup_append.mpr ⟨hholds.nodup, hnborn, fun q hq q' hq' heq => ?_⟩
    subst heq
    rcases List.mem_append.mp hq with hq | hq
    · rcases hchanges.within q ((Stock.qubits_perm hrest).mem_iff.mpr hq) with hq | hq
      · exact hnew q hq' (List.mem_append_left _ hq)
      · exact hdisjoint q hq q hq' rfl
    · exact hnew q hq' (List.mem_append_right _ hq)
  obtain ⟨b', hadd, hplace⟩ := hholds.add hb hvalid (hp.moveTo (b₁.next + 1))
    (by rw [Labels.map_moveTo, hins]) hshapes hsnd hfresh
  rw [Labels.operation?_moveTo, hop, Labels.on_moveTo] at hplace
  have hkeys := nodup_keys_placed hb hmoves (hp.moveTo (b₁.next + 1))
    (by rw [Labels.map_moveTo, hins]) (fun e he => hholds.ne_nil (List.mem_append_right _ he)) hfresh
  obtain ⟨bundles', hrebind, hlists⟩ := rebindAll_gives (hp.moveTo (b₁.next + 1)).fits
    (get?_outputs ⟨b₁.next, bloq⟩ hvalid.nodup_rights)
    (by rw [Labels.map_moveTo]; exact hins) hkeys (htracks.lists.perm hrest)
  refine ⟨b', bundles', _, ?_, ⟨hplace, hlists⟩, fun q hq => ?_⟩
  · rw [addOperation_eq hbloq hnames hp.fits rfl]
    refine gives_bind.mpr ⟨_, _, hensure, ?_⟩
    exact gives_bind.mpr ⟨_, _, hadd, gives_lift.mpr ⟨hrebind, rfl⟩⟩
  · rw [Stock.qubits_append, qubits_stockOn, Labels.on_moveTo] at hq
    rcases List.mem_append.mp hq with hq | hq
    · exact .inr ((Labels.on_perm (Bloq.rights_dead_perm hmoves)).subset (by
        rw [Labels.on_append]
        exact List.mem_append_left _ hq))
    · have hq := (Stock.qubits_perm hrest).mem_iff.mpr (by
        rw [Stock.qubits_append]
        exact List.mem_append_right _ hq)
      exact (hchanges.within q hq).imp_right fun hq => hperm.subset (List.mem_append_left _ hq)

/-- Operations that can follow one another, given the qubits seen and the qubits gone so far: none
takes a qubit that is gone, what comes out of nothing was not seen before, and `outputs` are left. -/
inductive Lively (outputs : List Qubit) :
    List Qubit → List Qubit → List (Operation (Gate α κ)) → Prop
  | nil {known gone : List Qubit} : (∀ q ∈ outputs, q ∉ gone) → Lively outputs known gone []
  | cons {known gone : List Qubit} {op : Operation (Gate α κ)} {ops : List (Operation (Gate α κ))}
      {bloq : Bloq α κ} {f : Labels} {v : Nat} : bloq.Regular → f.Passes v bloq →
      bloq.operation? f v = some op → op.qubits.Nodup →
      (∀ q ∈ f.on v bloq.signature.lefts, q ∉ gone) → (∀ q ∈ f.on v bloq.born, q ∉ known) →
      Lively outputs (known ++ op.qubits) (gone ++ f.on v bloq.dead) ops →
      Lively outputs known gone (op :: ops)

/-- All operations are placed in order, and only their qubits come into play. -/
theorem Tracks.addOperations_gives {outputs known : List Qubit}
    {news : List (Operation (Gate α κ))} (h : Tracks b bundles sig l stock gone ops)
    (hlively : Lively outputs known gone news) (hknown : ∀ q ∈ stock.qubits ++ gone, q ∈ known) :
    ∃ b' bundles' stock' gone', Gives (addOperations news bundles) b bundles' b' ∧
      Tracks b' bundles' sig l stock' gone' (ops ++ news) ∧ (∀ q ∈ outputs, q ∉ gone') ∧
      ∀ q ∈ stock'.qubits ++ gone', q ∈ known ++ news.flatMap (·.qubits) := by
  induction news generalizing b bundles stock gone ops known with
  | nil =>
    cases hlively with
    | nil hout =>
      refine ⟨b, bundles, stock, gone, gives_pure.mpr ⟨rfl, rfl⟩, ?_, hout, ?_⟩
      · rwa [List.append_nil]
      · rwa [List.flatMap_nil, List.append_nil]
  | cons op news ih =>
    cases hlively with
    | @cons _ _ _ _ bloq f v hb hp hop hn hgone hborn hrest =>
      obtain ⟨b₁, bundles₁, stock₁, hadd, htracks, hwithin⟩ :=
        h.addOperation_gives hb hp hop hn hgone fun q hq hm => hborn q hq (hknown q hm)
      have hdead : ∀ q ∈ f.on v bloq.dead, q ∈ op.qubits := by
        obtain ⟨g, hg, rfl⟩ := Option.map_eq_some_iff.mp hop
        have hmoves := (hb.plain.of_emits hg).1
        intro q hq
        refine (Labels.on_perm (Bloq.rights_dead_perm hmoves)).subset ?_
        rw [Labels.on_append]
        exact List.mem_append_right _ hq
      have hknown₁ : ∀ q ∈ stock₁.qubits ++ (gone ++ f.on v bloq.dead), q ∈ known ++ op.qubits := by
        intro q hq
        rcases List.mem_append.mp hq with hq | hq
        · rcases hwithin q hq with hq | hq
          · exact List.mem_append_left _ (hknown q (List.mem_append_left _ hq))
          · exact List.mem_append_right _ hq
        · rcases List.mem_append.mp hq with hq | hq
          · exact List.mem_append_left _ (hknown q (List.mem_append_right _ hq))
          · exact List.mem_append_right _ (hdead q hq)
      obtain ⟨b', bundles', stock', gone', hadds, htracks', hout, hknown'⟩ :=
        ih htracks hrest hknown₁
      refine ⟨b', bundles', stock', gone', gives_bind.mpr ⟨_, _, hadd, hadds⟩, ?_, hout, ?_⟩
      · rwa [List.append_assoc] at htracks'
      · rwa [List.append_assoc] at hknown'

end Import
end BloqCircuit
