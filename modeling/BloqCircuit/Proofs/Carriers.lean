import Mathlib.Data.List.Flatten
import BloqCircuit.Export
import BloqCircuit.Proofs.Flow
/-! What the walk over a composite keeps at the ports, when the wires are labelled. -/
namespace BloqCircuit

/-! ## Arrays of labels -/

namespace Labels
variable {L : Labels} {v : Nat} {registers : List Register}

theorem arrayIn_arrays (hn : (registers.map (·.name)).Nodup) {r : Register} (hr : r ∈ registers) :
    r.arrayIn (L.arrays v registers) = .ok (L.array v r) :=
  Register.arrayIn_eq_ok.mpr ⟨Arrays.get?_byRegister hn hr, rfl⟩

/-- The labels that arrays put on the elements of their registers. -/
def ofQuregs (q : Quregs) : Labels := fun p => (q.get? p.reg.name).elim [] fun g => p.reg.lane g p.index

/-- Arrays that can be merged are the arrays of labels. -/
theorem exists_of_merge {q : Quregs} {qubits : List Qubit} (v : Nat)
    (h : q.merge registers = .ok qubits) :
    ∃ L : Labels, L.Fits v registers ∧ (∀ r ∈ registers, r.arrayIn q = .ok (L.array v r)) ∧
      L.on v registers = qubits := by
  obtain ⟨parts, hparts, hq⟩ := bind_eq_ok.mp h
  cases hq
  have hlane {r : Register} {g : Grid Qubit} (hg : q.get? r.name = some g) (i : List Nat) :
      ofQuregs q ⟨v, i, r⟩ = r.lane g i := by
    rw [ofQuregs, hg]
    rfl
  refine ⟨ofQuregs q, ?_⟩
  clear h
  induction registers generalizing parts with
  | nil =>
    cases hparts
    exact ⟨fun p hp => absurd hp List.not_mem_nil, fun r hr => absurd hr List.not_mem_nil, rfl⟩
  | cons r rest ih =>
    rw [List.mapM_cons] at hparts
    obtain ⟨part, hpart, hparts⟩ := bind_eq_ok.mp hparts
    obtain ⟨more, hmore, hparts⟩ := bind_eq_ok.mp hparts
    obtain ⟨g, hg, hpart⟩ := bind_eq_ok.mp hpart
    cases hparts
    cases hpart
    obtain ⟨hget, hshape⟩ := Register.arrayIn_eq_ok.mp hg
    obtain ⟨hfits, hin, hon⟩ := ih more hmore
    have hlanes : (fun i => ofQuregs q ⟨v, i, r⟩) = r.lane g := funext (hlane hget)
    have harray : (ofQuregs q).array v r = g := by
      rw [array, hlanes]
      exact Register.array_lane hshape
    refine ⟨fun p hp => ?_, fun s hs => ?_, ?_⟩
    · obtain ⟨hv, hr, hi⟩ := mem_portsOn.mp hp
      obtain ⟨u, i, s⟩ := p
      subst hv
      rcases List.mem_cons.mp hr with hr | hr
      · subst hr
        rw [hlane hget]
        exact Register.fits_lane hshape i hi
      · exact hfits _ (mem_portsOn.mpr ⟨rfl, hr, hi⟩)
    · rcases List.mem_cons.mp hs with rfl | hs
      · rw [hg, harray]
      · exact hin s hs
    · rw [on_cons, hon, hlanes, Register.flat_lane hshape]
      rfl

theorem merge_eq {q : Quregs} (hq : ∀ r ∈ registers, r.arrayIn q = .ok (L.array v r))
    (hf : L.Fits v registers) : q.merge registers = .ok (L.on v registers) := by
  have hparts : (registers.mapM fun r => do
      let g ← r.arrayIn q
      return g.toList) = .ok (registers.map fun r => L.on v [r]) := by
    refine mapM_eq_ok fun r hr => ?_
    rw [hq r hr, ← toList_array hf hr]
    rfl
  rw [Quregs.merge, hparts, on_eq_flatMap registers]
  exact congrArg Except.ok (List.flatMap_def.symm)

theorem merge_arrays (hn : (registers.map (·.name)).Nodup) (hf : L.Fits v registers) :
    (L.arrays v registers).merge registers = .ok (L.on v registers) :=
  merge_eq (fun _ hr => arrayIn_arrays hn hr) hf

theorem arrayOf_on {r : Register} (hf : L.Fits v registers) (hr : r ∈ registers) :
    r.arrayOf (L.on v [r]) = .ok (L.array v r) := by
  rw [on_singleton]
  exact Register.arrayOf_flat (hf.register hr)

/-- Registers whose qubits are the same, register by register, have the same arrays. -/
theorem array_eq_of_on {L' : Labels} (hf : L.Fits v registers) (hf' : L'.Fits v registers)
    (h : L.on v registers = L'.on v registers) {r : Register} (hr : r ∈ registers) :
    L.array v r = L'.array v r := by
  rw [on_eq_flatMap registers, on_eq_flatMap (L := L') registers] at h
  have hone : ∀ {l : Labels}, l.Fits v registers → ∀ s ∈ registers,
      (l.on v [s]).length = s.totalBits := by
    intro l hl s hs
    rw [length_on (hl.mono fun t ht => List.mem_singleton.mp ht ▸ hs)]
    exact List.sum_singleton
  have hon := eq_of_flatMap_eq h (fun s hs => (hone hf s hs).trans (hone hf' s hs).symm) r hr
  have harray := arrayOf_on hf hr
  rw [hon, arrayOf_on hf' hr] at harray
  exact (Except.ok.inj harray).symm

theorem arrays_map (f : Qubit → Qubit) (hf : L.Fits v registers) :
    (L.map f).arrays v registers = (L.arrays v registers).map f := by
  rw [arrays, arrays, Arrays.map_byRegister]
  exact Arrays.byRegister_congr fun r hr => Register.array_map (hf.register hr) f

end Labels

/-! ## Qubits of arrays -/

namespace Quregs

/-- All qubits of a map of arrays. -/
def qubits (q : Quregs) : List Qubit := q.entries.flatMap fun e => e.2.toList

/-- The qubits of the arrays under these names, one array after another. -/
def qubitsUnder (q : Quregs) (names : List String) : List Qubit :=
  names.flatMap fun name => (q.get? name).elim [] Grid.toList

variable {q : Quregs}

theorem qubitsUnder_congr {q' : Quregs} {names : List String}
    (h : ∀ name ∈ names, q.get? name = q'.get? name) : q.qubitsUnder names = q'.qubitsUnder names :=
  List.flatMap_congr fun name hname => by rw [h name hname]

/-- The array under a name, with the name. -/
private def named? (q : Quregs) (name : String) : Option (String × Grid Qubit) :=
  (q.get? name).map (name, ·)

private theorem mem_named? {name : String} {e : String × Grid Qubit} :
    e ∈ q.named? name ↔ q.get? name = some e.2 ∧ name = e.1 := by
  rw [named?, Option.mem_def, Option.map_eq_some_iff]
  constructor
  · rintro ⟨g, hg, rfl⟩
    exact ⟨hg, rfl⟩
  · rintro ⟨hg, rfl⟩
    exact ⟨e.2, hg, rfl⟩

private theorem qubitsUnder_eq (q : Quregs) (names : List String) :
    q.qubitsUnder names = (names.filterMap q.named?).flatMap (·.2.toList) := by
  rw [List.filterMap_eq_flatMap_toList, List.flatMap_assoc]
  refine List.flatMap_congr fun name _ => ?_
  rw [named?]
  cases q.get? name with
  | none => rfl
  | some g => exact (List.append_nil _).symm

/-- Under different names there are different arrays. -/
theorem subperm_qubitsUnder {names : List String} (hn : names.Nodup) :
    (q.qubitsUnder names).Subperm q.qubits := by
  have hsub : names.filterMap q.named? ⊆ q.entries := by
    intro e he
    obtain ⟨name, -, hname⟩ := List.mem_filterMap.mp he
    obtain ⟨hget, rfl⟩ := mem_named?.mp hname
    exact Arrays.mem_of_get? hget
  have hdifferent : (names.filterMap q.named?).Nodup := by
    refine hn.filterMap fun name name' e h h' => ?_
    rw [(mem_named?.mp h).2, (mem_named?.mp h').2]
  obtain ⟨part, hperm, hpart⟩ := hdifferent.subperm hsub
  rw [qubitsUnder_eq]
  exact ⟨part.flatMap fun e => e.2.toList, hperm.flatMap_right _, hpart.flatMap _⟩

theorem qubitsUnder_of_merge {registers : List Register} {inputs : List Qubit}
    (h : q.merge registers = .ok inputs) : inputs = q.qubitsUnder (registers.map (·.name)) := by
  obtain ⟨L, hfits, harrays, rfl⟩ := Labels.exists_of_merge 0 h
  rw [qubitsUnder, Labels.on_eq_flatMap, List.flatMap_map]
  refine List.flatMap_congr fun r hr => ?_
  rw [(Register.arrayIn_eq_ok.mp (harrays r hr)).1]
  exact (Labels.toList_array hfits hr).symm

end Quregs

/-! ## Carriers -/

namespace Export
variable {β : Type} {L : Labels} {v : Nat}

theorem insertLanes (r : Register) (g : Grid Qubit) (is : List (List Nat))
    (carriers : Carriers) (p : Port) :
    (is.foldl (fun c i => c.insert ⟨v, i, r⟩ (r.lane g i)) carriers)[p]? =
      if p.node = v ∧ p.reg = r ∧ p.index ∈ is then some (r.lane g p.index) else carriers[p]? := by
  induction is generalizing carriers with
  | nil => simp
  | cons i is ih =>
    rw [List.foldl_cons, ih, getElem?_insert_key]
    obtain ⟨u, j, s⟩ := p
    by_cases hu : u = v
    · by_cases hs : s = r
      · by_cases hj : j = i <;> simp [hu, hs, hj, Ne.symm]
      · simp [hs, Ne.symm hs]
    · simp [hu, Ne.symm hu]

theorem bindInputs_eq {quregs : Quregs} {registers : List Register} (carriers : Carriers)
    (hq : ∀ r ∈ registers, r.arrayIn quregs = .ok (L.array 0 r)) (hf : L.Fits 0 registers) :
    ∃ carriers', bindInputs quregs registers carriers = .ok carriers' ∧ ∀ p : Port,
      carriers'[p]? = if p ∈ portsOn 0 registers then some (L p) else carriers[p]? := by
  induction registers generalizing carriers with
  | nil => exact ⟨carriers, rfl, fun p => rfl⟩
  | cons r rest ih =>
    rw [bindInputs, hq r List.mem_cons_self]
    obtain ⟨carriers', hbind, hget⟩ := ih
      (r.indices.foldl (fun c i => c.insert ⟨0, i, r⟩ (r.lane (L.array 0 r) i)) carriers)
      (fun s hs => hq s (List.mem_cons_of_mem _ hs)) (hf.mono fun s => List.mem_cons_of_mem _)
    refine ⟨carriers', hbind, fun p => ?_⟩
    rw [hget, insertLanes]
    simp only [mem_portsOn, List.mem_cons]
    by_cases hrest : p.node = 0 ∧ p.reg ∈ rest ∧ p.index ∈ p.reg.indices
    · rw [if_pos hrest, if_pos ⟨hrest.1, .inr hrest.2.1, hrest.2.2⟩]
    · rw [if_neg hrest]
      by_cases hr : p.node = 0 ∧ p.reg = r ∧ p.index ∈ r.indices
      · obtain ⟨u, i, s⟩ := p
        obtain ⟨rfl, rfl, hi⟩ := hr
        rw [if_pos ⟨rfl, rfl, hi⟩, if_pos ⟨rfl, .inl rfl, hi⟩]
        exact congrArg some (Register.lane_array (hf.register List.mem_cons_self) hi)
      · rw [if_neg hr, if_neg]
        rintro ⟨hu, hreg | hreg, hi⟩
        · exact hr ⟨hu, hreg, hreg ▸ hi⟩
        · exact hrest ⟨hu, hreg, hi⟩

/-- The wires out of a node get its labels. -/
theorem bindOutputs_eq {registers : List Register} (hn : (registers.map (·.name)).Nodup)
    (hf : L.Fits v registers) {edges : List (Edge β)}
    (he : ∀ e ∈ edges, e.start ∈ portsOn v registers) (carriers : Carriers) :
    ∃ carriers', bindOutputs (L.arrays v registers) edges carriers = .ok carriers' ∧ ∀ p : Port,
      carriers'[p]? = if p ∈ edges.map Edge.start then some (L p) else carriers[p]? := by
  induction edges generalizing carriers with
  | nil => exact ⟨carriers, rfl, fun p => rfl⟩
  | cons e edges ih =>
    obtain ⟨hv, hr, hi⟩ := mem_portsOn.mp (he e List.mem_cons_self)
    have harray : e.wire.left.reg.arrayIn (L.arrays v registers) = .ok (L.array v e.wire.left.reg) :=
      Labels.arrayIn_arrays hn hr
    have hlane : e.wire.left.reg.lane (L.array v e.wire.left.reg) e.wire.left.index = L e.start :=
      (Register.lane_array (hf.register hr) hi).trans (congrArg (fun u => L ⟨u, _, _⟩) hv.symm)
    obtain ⟨carriers', hbind, hget⟩ := ih (fun e' he' => he e' (List.mem_cons_of_mem _ he'))
      (carriers.insert e.start (L e.start))
    refine ⟨carriers', ?_, fun p => ?_⟩
    · rw [bindOutputs]
      simp only [harray, hlane, Except.bind, bind]
      exact hbind
    · rw [hget, getElem?_insert_key]
      simp only [List.map_cons, List.mem_cons]
      by_cases hp : p ∈ edges.map Edge.start
      · rw [if_pos hp, if_pos (.inr hp)]
      · rw [if_neg hp]
        by_cases hs : e.start = p
        · rw [if_pos hs, if_pos (.inl hs.symm), hs]
        · rw [if_neg hs, if_neg]
          rintro (h | h)
          · exact hs h.symm
          · exact hp h

variable [BloqKind β]

/-- Wires that end on one node take their labels there. -/
theorem followAll_eq {edges : List (Edge β)} (carriers : Carriers)
    (hw : ∀ e ∈ edges, L e.start = L e.stop) (hn : (edges.map Edge.start).Nodup)
    (hd : ∀ e ∈ edges, ∀ e' ∈ edges, e.stop ≠ e'.start)
    (hc : ∀ e ∈ edges, carriers[e.start]? = some (L e.start)) :
    ∃ carriers', followAll edges carriers = .ok carriers' ∧ ∀ p : Port, carriers'[p]? =
      if p ∈ edges.map Edge.stop then some (L p)
      else if p ∈ edges.map Edge.start then none else carriers[p]? := by
  induction edges generalizing carriers with
  | nil => exact ⟨carriers, rfl, fun p => rfl⟩
  | cons e edges ih =>
    have hstep : follow e carriers =
        .ok ((carriers.erase e.start).insert e.stop (L e.start)) := by
      rw [follow, hc e List.mem_cons_self]
    rw [List.map_cons, List.nodup_cons] at hn
    obtain ⟨carriers', hfollow, hget⟩ := ih ((carriers.erase e.start).insert e.stop (L e.start))
      (fun e' he' => hw e' (List.mem_cons_of_mem _ he')) hn.2
      (fun a ha b hb => hd a (List.mem_cons_of_mem _ ha) b (List.mem_cons_of_mem _ hb))
      (fun e' he' => by
        have hstart : e.start ≠ e'.start := fun h => hn.1 (h ▸ List.mem_map_of_mem he')
        rw [getElem?_insert_key,
          if_neg (hd e List.mem_cons_self e' (List.mem_cons_of_mem _ he')), getElem?_erase_key,
          if_neg hstart]
        exact hc e' (List.mem_cons_of_mem _ he'))
    refine ⟨carriers', ?_, fun p => ?_⟩
    · rw [followAll, List.foldlM_cons, hstep]
      exact hfollow
    · rw [hget, getElem?_insert_key, getElem?_erase_key]
      simp only [List.map_cons, List.mem_cons]
      -- a later wire, then this one, decides on a port; no wire takes away what another brought
      by_cases hp : p ∈ edges.map Edge.stop
      · rw [if_pos hp, if_pos (.inr hp)]
      · rw [if_neg hp]
        by_cases hs : e.stop = p
        · subst hs
          have hne : e.stop ∉ edges.map Edge.start := by
            intro h
            obtain ⟨e', he', h⟩ := List.mem_map.mp h
            exact hd e List.mem_cons_self e' (List.mem_cons_of_mem _ he') h.symm
          rw [if_neg hne, if_pos rfl, if_pos (.inl rfl), hw e List.mem_cons_self]
        · have hnot : ¬ (p = e.stop ∨ p ∈ edges.map Edge.stop) := by
            rintro (h | h)
            · exact hs h.symm
            · exact hp h
          rw [if_neg hnot, if_neg hs]
          by_cases hst : p ∈ edges.map Edge.start
          · rw [if_pos hst, if_pos (.inr hst)]
          · by_cases he : e.start = p
            · rw [if_neg hst, if_pos he, if_pos (.inl he.symm)]
            · rw [if_neg hst, if_neg he, if_neg]
              rintro (h | h)
              · exact he h.symm
              · exact hst h

theorem getElem?_erase_if (ends : Bool) (carriers : Carriers) (q p : Port) :
    (if ends then carriers.erase q else carriers)[p]? =
      if ends = true ∧ q = p then none else carriers[p]? := by
  cases ends with
  | false => simp
  | true =>
    rw [if_pos rfl, getElem?_erase_key]
    simp

private theorem collect_eq (node : Node β) (r : Register) (ends : Bool) {is : List (List Nat)}
    (hn : is.Nodup) (carriers : Carriers) (lanes : List (List Qubit))
    (hc : ∀ i ∈ is, carriers[(⟨v, i, r⟩ : Port)]? = some (L ⟨v, i, r⟩)) :
    ∃ carriers', collect v node r ends is carriers lanes =
        .ok (lanes.reverse ++ is.map fun i => L ⟨v, i, r⟩, carriers') ∧
      ∀ p : Port, carriers'[p]? =
        if ends = true ∧ p.node = v ∧ p.reg = r ∧ p.index ∈ is then none else carriers[p]? := by
  induction is generalizing carriers lanes with
  | nil => exact ⟨carriers, by simp [collect], fun p => by simp⟩
  | cons i is ih =>
    rw [List.nodup_cons] at hn
    have hget := getElem?_erase_if ends carriers ⟨v, i, r⟩
    obtain ⟨carriers', hcollect, hafter⟩ := ih hn.2 (if ends then carriers.erase ⟨v, i, r⟩ else carriers)
      (L ⟨v, i, r⟩ :: lanes) (fun j hj => by
        have hij : (⟨v, i, r⟩ : Port) ≠ ⟨v, j, r⟩ := by
          intro h
          rw [Port.mk.injEq] at h
          exact hn.1 (h.2.1 ▸ hj)
        rw [hget, if_neg fun h => hij h.2]
        exact hc j (List.mem_cons_of_mem _ hj))
    refine ⟨carriers', ?_, fun p => ?_⟩
    · rw [collect]
      simp only [hc i List.mem_cons_self]
      rw [hcollect]
      simp
    · rw [hafter, hget]
      obtain ⟨u, j, s⟩ := p
      by_cases he : ends = true
      · by_cases hu : u = v
        · by_cases hs : s = r
          · by_cases hj : j = i <;> simp [he, hu, hs, hj, Ne.symm]
          · simp [hs, Ne.symm hs]
        · simp [hu, Ne.symm hu]
      · simp [he]

/-- The arrays gathered on a node are those of the labels. -/
theorem gather_eq (node : Node β) (ends : Register → Bool) {before registers : List Register}
    (hn : ((before ++ registers).map (·.name)).Nodup) (hf : L.Fits v registers) (carriers : Carriers)
    (hc : ∀ p ∈ portsOn v registers, carriers[p]? = some (L p)) :
    ∃ carriers', gather v node ends registers carriers (L.arrays v before) =
        .ok (L.arrays v (before ++ registers), carriers') ∧
      ∀ p : Port, carriers'[p]? =
        if p ∈ portsOn v registers ∧ ends p.reg = true then none else carriers[p]? := by
  induction registers generalizing before carriers with
  | nil =>
    refine ⟨carriers, ?_, fun p => rfl⟩
    rw [gather, List.append_nil]
  | cons r rest ih =>
    obtain ⟨carriers₁, hcollect, hget₁⟩ := collect_eq node r (ends r) Register.nodup_indices carriers []
      (fun i hi => hc ⟨v, i, r⟩ (mem_portsOn.mpr ⟨rfl, List.mem_cons_self, hi⟩))
    have hnames : r.name ∉ before.map (·.name) ∧ r.name ∉ rest.map (·.name) := by
      rw [List.map_append, List.map_cons, List.nodup_append, List.nodup_cons] at hn
      exact ⟨fun h => hn.2.2 _ h _ List.mem_cons_self rfl, hn.2.1.1⟩
    have harray : r.arrayOf ((r.indices.map fun i => L ⟨v, i, r⟩).flatten) = .ok (L.array v r) := by
      rw [← List.flatMap_def]
      exact Register.arrayOf_flat (hf.register List.mem_cons_self)
    have hinsert : (L.arrays v before).insert r.name (L.array v r) =
        L.arrays v (before ++ [r]) := Arrays.insert_byRegister hnames.1
    have hassoc : before ++ [r] ++ rest = before ++ r :: rest := by simp
    obtain ⟨carriers', hgather, hget⟩ := @ih (before ++ [r]) (by rwa [hassoc])
      (hf.mono fun s => List.mem_cons_of_mem _) carriers₁ (fun p hp => by
        obtain ⟨hu, hs, hi⟩ := mem_portsOn.mp hp
        have hne : p.reg ≠ r := fun h => hnames.2 (List.mem_map.mpr ⟨p.reg, hs, by rw [h]⟩)
        rw [hget₁, if_neg fun h => hne h.2.2.1]
        exact hc p (mem_portsOn.mpr ⟨hu, List.mem_cons_of_mem _ hs, hi⟩))
    refine ⟨carriers', ?_, fun p => ?_⟩
    · rw [gather, hcollect]
      simp only [List.reverse_nil, List.nil_append, Except.bind, bind]
      rw [harray]
      simp only
      rw [hinsert, hgather, hassoc]
    -- names are different, so the registers after the first leave its ports alone
    · rw [hget, hget₁]
      simp only [mem_portsOn, List.mem_cons]
      by_cases hrest : (p.node = v ∧ p.reg ∈ rest ∧ p.index ∈ p.reg.indices) ∧ ends p.reg = true
      · rw [if_pos hrest, if_pos ⟨⟨hrest.1.1, .inr hrest.1.2.1, hrest.1.2.2⟩, hrest.2⟩]
      · rw [if_neg hrest]
        by_cases hr : ends r = true ∧ p.node = v ∧ p.reg = r ∧ p.index ∈ r.indices
        · rw [if_pos hr, if_pos]
          obtain ⟨he, hu, hreg, hi⟩ := hr
          exact ⟨⟨hu, .inl hreg, hreg ▸ hi⟩, hreg ▸ he⟩
        · rw [if_neg hr, if_neg]
          rintro ⟨⟨hu, hreg | hreg, hi⟩, he⟩
          · exact hr ⟨hreg ▸ he, hu, hreg, hreg ▸ hi⟩
          · exact hrest ⟨⟨hu, hreg, hi⟩, he⟩

end Export

/-! ## Visits -/

namespace Composite
variable {β : Type}

private theorem edgesAt_getD (size : Nat) (edges : List (Edge β)) (ends : Edge β → Nat) {v : Nat}
    (hv : v < size) : (edgesAt size edges ends).getD v [] = edges.filter (ends · == v) := by
  have hsize : ∀ es : List (Edge β), (edgesAt size es ends).size = size := by
    intro es
    induction es with
    | nil => simp [edgesAt]
    | cons e es ih => simpa [edgesAt] using ih
  induction edges with
  | nil => simp [edgesAt, hv]
  | cons e edges ih =>
    have hcons : edgesAt size (e :: edges) ends =
        (edgesAt size edges ends).modify (ends e) (e :: ·) := rfl
    rw [List.filter_cons, ← ih, hcons]
    have hlt : v < (edgesAt size edges ends).size := by rwa [hsize]
    by_cases he : ends e = v
    · rw [if_pos (beq_iff_eq.mpr he), he, Array.getD_eq_getD_getElem?, Array.getD_eq_getD_getElem?,
        Array.getElem?_modify, if_pos rfl, Array.getElem?_eq_getElem hlt]
      rfl
    · rw [if_neg (mt beq_iff_eq.mp he), Array.getD_eq_getD_getElem?, Array.getD_eq_getD_getElem?,
        Array.getElem?_modify, if_neg he]

/-- The node with a number. -/
def nodeAt (c : Composite β) (v : Nat) : Node β :=
  if v = 0 then .leftDangle else (c.instances[v - 1]?).elim .rightDangle .placed

/-- A node with the wires that end and start there. -/
def visitAt (c : Composite β) (v : Nat) : Visit β :=
  ⟨v, c.nodeAt v, c.edges.filter (·.target == v), c.edges.filter (·.source == v)⟩

theorem nodes_get {c : Composite β} {v : Nat} (hv : v < c.size) : c.nodes[v]? = some (c.nodeAt v) := by
  rw [nodes, nodeAt]
  cases v with
  | zero => rfl
  | succ k =>
    rw [List.getElem?_cons_succ, if_neg (Nat.succ_ne_zero k), Nat.add_sub_cancel,
      List.getElem?_append, List.length_map]
    by_cases hk : k < c.instances.length
    · rw [if_pos hk, List.getElem?_map, List.getElem?_eq_getElem hk]
      rfl
    · have hk' : k - c.instances.length = 0 := by
        rw [size] at hv
        omega
      rw [if_neg hk, hk', List.getElem?_eq_none (Nat.le_of_not_lt hk)]
      rfl

theorem visitTable_get {c : Composite β} {v : Nat} (hv : v < c.size) :
    c.visitTable[v]? = some (c.visitAt v) := by
  have hnode : c.nodes.toArray[v]? = some (c.nodeAt v) := by
    rw [List.getElem?_toArray, nodes_get hv]
  rw [visitTable, Array.getElem?_mapIdx, hnode, Option.map_some, edgesAt_getD _ _ _ hv,
    edgesAt_getD _ _ _ hv]
  rfl

theorem visits_eq [BloqKind β] {c : Composite β} {traversal : TraversalOrder} {order : List Nat}
    (h : c.sortedNodes traversal = .ok order) (hv : ∀ v ∈ order, v < c.size) :
    c.visits traversal = .ok (order.map c.visitAt) := by
  have hmap : order.filterMap (fun v => c.visitTable[v]?) = order.map c.visitAt := by
    rw [← List.filterMap_eq_map]
    exact List.filterMap_congr fun v hm => visitTable_get (hv v hm)
  rw [visits, h]
  exact congrArg Except.ok hmap

/-- By number, the nodes come as they are listed. -/
theorem map_visitAt_range (c : Composite β) :
    ((List.range c.size).map c.visitAt).map (·.node) = c.nodes := by
  refine List.ext_getElem? fun v => ?_
  rw [List.map_map, List.getElem?_map]
  by_cases hv : v < c.size
  · rw [List.getElem?_range hv, nodes_get hv]
    rfl
  · have hlen : c.nodes.length = c.size := by simp [nodes, size]
    rw [List.getElem?_eq_none (by simpa using hv), List.getElem?_eq_none (by omega)]
    rfl

/-- The boundaries have the least and the greatest priority. If all bloqs between have the same one
and wires lead forward, then the nodes come by number. -/
theorem sortedNodes_eq_range [BloqKind β] {c : Composite β} {traversal : TraversalOrder}
    (hg : c.graph.InRange) (hf : ∀ e ∈ c.graph.edges, e.1 < e.2)
    (hlevel : ∀ x ∈ c.instances, priority traversal (.placed x) = 0) :
    c.sortedNodes traversal = .ok (List.range c.size) := by
  have hget : ∀ v < c.size, (c.nodes.map (priority traversal)).toArray.getD v 0 =
      if v = 0 then -9223372036854775808 else if v = c.instances.length + 1 then 9223372036854775807
      else 0 := by
    intro v hv
    rw [Array.getD_eq_getD_getElem?, List.getElem?_toArray, List.getElem?_map, nodes_get hv,
      Option.map_some, Option.getD_some, nodeAt]
    by_cases h0 : v = 0
    · rw [if_pos h0, if_pos h0]
      rfl
    rw [if_neg h0, if_neg h0]
    by_cases hlast : v = c.instances.length + 1
    · rw [if_pos hlast, hlast, Nat.add_sub_cancel, List.getElem?_eq_none (Nat.le_refl _)]
      rfl
    · have hlt : v - 1 < c.instances.length := by
        rw [size] at hv
        omega
      rw [if_neg hlast, List.getElem?_eq_getElem hlt]
      exact hlevel _ (List.getElem_mem hlt)
  have horder : c.graph.topologicalOrder?
      (fun v => (c.nodes.map (priority traversal)).toArray.getD v 0) = some (List.range c.size) := by
    refine Multigraph.topologicalOrder?_eq_range hg hf fun v w hvw hw => ?_
    rw [hget v (Nat.lt_of_le_of_lt hvw hw), hget w hw]
    have hw : w < c.instances.length + 2 := hw
    split_ifs <;> omega
  rw [sortedNodes]
  simp only [horder]

end Composite
end BloqCircuit
