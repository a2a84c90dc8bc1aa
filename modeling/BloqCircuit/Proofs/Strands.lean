import Mathlib.Logic.Relation
import BloqCircuit.Proofs.Failures
import BloqCircuit.Proofs.Regrouping
/-! Which wires carry the qubits of bundles that are regrouped. Each qubit is followed from the place
where it is bound, through the instances that reshaping adds, to the place where it is bound then. -/
namespace BloqCircuit
variable {α κ : Type}

/-! ## Following a qubit -/

/-- A place for one qubit: a soquet, and how many qubits of it come before. -/
abbrev Place (α κ : Type) := Soquet (Bloq α κ) × Nat

/-- A qubit goes on along one of the wires through one of the instances: out of a bundle that is
taken apart, or into a bundle that is put together. -/
inductive Hop (xs : List (Instance (Bloq α κ))) (ws : List (Connection (Bloq α κ))) :
    Place α κ → Place α κ → Prop
  | split {n t s i} : ⟨n, .split t⟩ ∈ xs →
      ⟨s, ⟨.placed ⟨n, .split t⟩, bundleOn .left t, []⟩⟩ ∈ ws → i < t.bitsize →
      Hop xs ws (s, i) (⟨.placed ⟨n, .split t⟩, bitsOn .right t, [i]⟩, 0)
  | join {n t s i} : ⟨n, .join t⟩ ∈ xs →
      ⟨s, ⟨.placed ⟨n, .join t⟩, bitsOn .left t, [i]⟩⟩ ∈ ws →
      Hop xs ws (s, 0) (⟨.placed ⟨n, .join t⟩, bundleOn .right t, []⟩, i)

/-- A qubit in the first place is in the second one behind the instances. -/
def Carries (xs : List (Instance (Bloq α κ))) (ws : List (Connection (Bloq α κ))) :
    Place α κ → Place α κ → Prop := Relation.ReflTransGen (Hop xs ws)

section
variable {xs xs' : List (Instance (Bloq α κ))} {ws ws' : List (Connection (Bloq α κ))}
  {p p' q : Place α κ}

theorem Hop.mono (h : Hop xs ws p q) (hx : xs ⊆ xs') (hw : ws ⊆ ws') : Hop xs' ws' p q := by
  cases h with
  | split hn hs hi => exact .split (hx hn) (hw hs) hi
  | join hn hs => exact .join (hx hn) (hw hs)

/-- If only one wire ends at each input, a qubit comes from one place only. -/
theorem Hop.unique (hn : (ws.map (·.right)).Nodup) (h : Hop xs ws p q) (h' : Hop xs ws p' q) :
    p = p' := by
  cases h with
  | split hx hw hi =>
    cases h' with
    | split hx' hw' hi' =>
      have hwire := List.inj_on_of_nodup_map hn hw hw' rfl
      cases hwire
      rfl
  | join hx hw =>
    cases h' with
    | join hx' hw' =>
      have hwire := List.inj_on_of_nodup_map hn hw hw' rfl
      cases hwire
      rfl

theorem Hop.exists_placed (h : Hop xs ws p q) :
    ∃ x ∈ xs, q.1.node = .placed x ∧ ∀ t, x.bloq ≠ .allocate t := by
  cases h with
  | split hx hw hi => exact ⟨_, hx, rfl, fun t ht => by cases ht⟩
  | join hx hw => exact ⟨_, hx, rfl, fun t ht => by cases ht⟩

theorem Carries.mono (h : Carries xs ws p q) (hx : xs ⊆ xs') (hw : ws ⊆ ws') :
    Carries xs' ws' p q :=
  Relation.ReflTransGen.mono (fun _ _ hop => Hop.mono hop hx hw) p q h

end

/-- A bloq that only reshapes or makes bundles. -/
def Bloq.Reshaping (bloq : Bloq α κ) : Prop :=
  ∃ t, bloq = .split t ∨ bloq = .join t ∨ bloq = .allocate t

theorem Bloq.Reshaping.valid [Angle α] {bloq : Bloq α κ} (h : bloq.Reshaping) :
    bloq.signature.Valid := by
  obtain ⟨t, rfl | rfl | rfl⟩ := h
  · exact Bloq.valid_split t
  · exact Bloq.valid_join t
  · exact Bloq.valid_allocate t

namespace Builder

/-! ## Strands -/

/-- Between two builders, instances were added that only reshape bundles and make fresh ones, with
one wire into each of their inputs. They carry the qubits of one stock, and the fresh ones, into the
other stock. -/
structure Strands (b : Builder (Bloq α κ)) (stock : Stock α κ) (b' : Builder (Bloq α κ))
    (stock' fresh : Stock α κ) (xs : List (Instance (Bloq α κ)))
    (ws : List (Connection (Bloq α κ))) : Prop where
  next : b'.next = b.next + xs.length
  instances : b'.instances = b.instances ++ xs.toArray
  connections : b'.connections = b.connections ++ ws.toArray
  numbers : xs.map (·.number) = List.range' b.next xs.length
  reshaping : ∀ x ∈ xs, x.bloq.Reshaping
  rights : ws.map (·.right) = xs.flatMap fun x => soquetsOn (.placed x) x.bloq.signature.lefts
  made : ∀ e ∈ fresh, ∃ x ∈ xs, ∃ t, x.bloq = .allocate t ∧ e.1.length = t.bitsize ∧
    e.2 = ⟨.placed x, bundleOn .right t, []⟩
  distinct : (fresh.map Prod.snd).Nodup
  qubits : stock'.qubits.Perm (stock.qubits ++ fresh.qubits)
  carried : ∀ e ∈ stock ++ fresh, ∀ i q, e.1[i]? = some q →
    ∃ e' ∈ stock', ∃ j, e'.1[j]? = some q ∧ Carries xs ws (e.2, i) (e'.2, j)

variable {b b₁ b₂ : Builder (Bloq α κ)} {stock stock₁ stock₂ fresh fresh₁ ins outs rest : Stock α κ}
  {xs xs₁ : List (Instance (Bloq α κ))} {ws ws₁ : List (Connection (Bloq α κ))}

theorem Strands.refl (b : Builder (Bloq α κ)) (stock : Stock α κ) :
    b.Strands stock b stock [] [] [] where
  next := rfl
  instances := by simp
  connections := by simp
  numbers := rfl
  reshaping x hx := absurd hx List.not_mem_nil
  rights := rfl
  made e he := absurd he List.not_mem_nil
  distinct := List.nodup_nil
  qubits := by rw [Stock.qubits_nil, List.append_nil]
  carried e he i q hi := ⟨e, (List.append_nil stock) ▸ he, i, hi, .refl⟩

theorem Strands.number_le (h : b.Strands stock b₁ stock₁ fresh xs ws)
    {x : Instance (Bloq α κ)} (hx : x ∈ xs) : b.next ≤ x.number ∧ x.number < b₁.next := by
  have hmem : x.number ∈ xs.map (·.number) := List.mem_map_of_mem hx
  rw [h.numbers, List.mem_range'_1] at hmem
  rw [h.next]
  exact hmem

/-- What was carried into the second builder is carried on into the third. -/
theorem Strands.trans (h : b.Strands stock b₁ stock₁ fresh xs ws)
    (h₁ : b₁.Strands stock₁ b₂ stock₂ fresh₁ xs₁ ws₁) :
    b.Strands stock b₂ stock₂ (fresh ++ fresh₁) (xs ++ xs₁) (ws ++ ws₁) := by
  constructor
  case next => rw [h₁.next, h.next, List.length_append, Nat.add_assoc]
  case instances => simp [h₁.instances, h.instances]
  case connections => simp [h₁.connections, h.connections]
  case numbers =>
    rw [List.map_append, h.numbers, h₁.numbers, h.next, List.length_append, List.range'_append_1]
  case reshaping =>
    intro x hx
    exact (List.mem_append.mp hx).elim (h.reshaping x) (h₁.reshaping x)
  case rights => rw [List.map_append, h.rights, h₁.rights, List.flatMap_append]
  case made =>
    intro e he
    rcases List.mem_append.mp he with he | he
    · obtain ⟨x, hx, hmade⟩ := h.made e he
      exact ⟨x, List.mem_append_left _ hx, hmade⟩
    · obtain ⟨x, hx, hmade⟩ := h₁.made e he
      exact ⟨x, List.mem_append_right _ hx, hmade⟩
  case distinct =>
    rw [List.map_append]
    refine List.nodup_append.mpr ⟨h.distinct, h₁.distinct, ?_⟩
    rintro s hs t ht rfl
    obtain ⟨e, he, rfl⟩ := List.mem_map.mp hs
    obtain ⟨e₁, he₁, heq⟩ := List.mem_map.mp ht
    obtain ⟨x, hx, t, -, -, hx'⟩ := h.made e he
    obtain ⟨x₁, hx₁, t₁, -, -, hx₁'⟩ := h₁.made e₁ he₁
    rw [hx', hx₁'] at heq
    cases heq
    exact Nat.not_lt_of_le (h₁.number_le hx₁).1 (h.number_le hx).2
  case qubits =>
    rw [Stock.qubits_append, ← List.append_assoc]
    exact h₁.qubits.trans (h.qubits.append_right _)
  case carried =>
    -- what is fresh in the second part only waits until there
    have first : ∀ e ∈ stock ++ fresh, ∀ i q, e.1[i]? = some q → ∃ e₁ ∈ stock₁ ++ fresh₁, ∃ j,
        e₁.1[j]? = some q ∧ Carries (xs ++ xs₁) (ws ++ ws₁) (e.2, i) (e₁.2, j) := by
      intro e he i q hi
      obtain ⟨e₁, he₁, j, hj, hc⟩ := h.carried e he i q hi
      exact ⟨e₁, List.mem_append_left _ he₁, j, hj,
        hc.mono (List.subset_append_left _ _) (List.subset_append_left _ _)⟩
    have second : ∀ e ∈ stock ++ (fresh ++ fresh₁), ∀ i q, e.1[i]? = some q →
        ∃ e₁ ∈ stock₁ ++ fresh₁, ∃ j,
          e₁.1[j]? = some q ∧ Carries (xs ++ xs₁) (ws ++ ws₁) (e.2, i) (e₁.2, j) := by
      intro e he i q hi
      rw [← List.append_assoc] at he
      rcases List.mem_append.mp he with he | he
      · exact first e he i q hi
      · exact ⟨e, List.mem_append_right _ he, i, hi, .refl⟩
    intro e he i q hi
    obtain ⟨e₁, he₁, j, hj, hc⟩ := second e he i q hi
    obtain ⟨e₂, he₂, k, hk, hc₁⟩ := h₁.carried e₁ he₁ j q hj
    exact ⟨e₂, he₂, k, hk, Relation.ReflTransGen.trans hc
      (hc₁.mono (List.subset_append_right _ _) (List.subset_append_right _ _))⟩

theorem Strands.perm (h : b.Strands stock b₁ stock₁ fresh xs ws) (hs : stock₁.Perm stock₂) :
    b.Strands stock b₁ stock₂ fresh xs ws := by
  refine { h with qubits := (Stock.qubits_perm hs).symm.trans h.qubits, carried := ?_ }
  intro e he i q hi
  obtain ⟨e', he', hcarried⟩ := h.carried e he i q hi
  exact ⟨e', hs.mem_iff.mp he', hcarried⟩

/-- Bundles beside those that are reshaped stay as they are. -/
theorem Strands.beside (h : b.Strands ins b₁ outs fresh xs ws) (rest : Stock α κ) :
    b.Strands (ins ++ rest) b₁ (outs ++ rest) fresh xs ws := by
  refine { h with qubits := ?qubits, carried := ?carried }
  case qubits =>
    rw [Stock.qubits_append, Stock.qubits_append, List.append_assoc]
    refine (h.qubits.append_right _).trans ?_
    rw [List.append_assoc]
    exact List.perm_append_comm.append_left _
  case carried =>
    intro e he i q hi
    rw [List.append_assoc] at he
    have hmem : e ∈ ins ++ fresh ∨ e ∈ rest := by
      simp only [List.mem_append] at he ⊢
      exact or_assoc.mpr (he.imp_right Or.symm)
    rcases hmem with he | he
    · obtain ⟨e', he', hcarried⟩ := h.carried e he i q hi
      exact ⟨e', List.mem_append_left _ he', hcarried⟩
    · exact ⟨e, List.mem_append_right _ he, i, hi, .refl⟩

/-! ## Stock at hand -/

/-- What may be regrouped: bundles of distinct qubits on distinct soquets that are available, each
as wide as its bundle. -/
structure AtHand (b : Builder (Bloq α κ)) (stock : Stock α κ) : Prop where
  nodup : stock.qubits.Nodup
  ne_nil : ∀ e ∈ stock, e.1 ≠ []
  distinct : (stock.map Prod.snd).Nodup
  available : ∀ e ∈ stock, b.available[e.2.port]? = some e.2
  quantum : ∀ e ∈ stock, e.2.reg.dtype.isQuantum = true
  width : ∀ e ∈ stock, e.1.length = e.2.reg.bitsize

theorem AtHand.perm (h : b.AtHand stock) (hs : stock.Perm stock₁) : b.AtHand stock₁ where
  nodup := (Stock.qubits_perm hs).nodup_iff.mp h.nodup
  ne_nil e he := h.ne_nil e (hs.mem_iff.mpr he)
  distinct := (hs.map Prod.snd).nodup_iff.mp h.distinct
  available e he := h.available e (hs.mem_iff.mpr he)
  quantum e he := h.quantum e (hs.mem_iff.mpr he)
  width e he := h.width e (hs.mem_iff.mpr he)

theorem AtHand.nodup_ports (h : b.AtHand stock) : (stock.map fun e => e.2.port).Nodup := by
  have hinj : ∀ s ∈ stock.map Prod.snd, ∀ t ∈ stock.map Prod.snd, s.port = t.port → s = t := by
    intro s hs t ht hport
    obtain ⟨e, he, rfl⟩ := List.mem_map.mp hs
    obtain ⟨e', he', rfl⟩ := List.mem_map.mp ht
    have hav := h.available e he
    rw [hport, h.available e' he'] at hav
    exact (Option.some.inj hav).symm
  have hports := h.distinct.map_on hinj
  rwa [List.map_map] at hports

theorem Strands.width (h : b.Strands stock b₁ stock₁ fresh xs ws) (hs : b.AtHand stock)
    {e : List Qubit × Soquet (Bloq α κ)} (he : e ∈ stock ++ fresh) :
    e.1.length = e.2.reg.bitsize := by
  rcases List.mem_append.mp he with he | he
  · exact hs.width e he
  · obtain ⟨x, -, t, -, hlen, heq⟩ := h.made e he
    rw [hlen, heq]
    rfl

variable [Angle α] {lost : List (Connection (Bloq α κ))} {bloq : Bloq α κ}

theorem AtHand.drawable (h : b.AtHand (ins ++ rest)) (hleft : ws.map (·.left) = ins.map Prod.snd)
    (hagree : ∀ w ∈ ws, w.left.reg.dtype.isConsistentWith w.right.reg.dtype = true) :
    b.Drawable ws := by
  have hn := h.nodup_ports
  rw [List.map_append] at hn
  exact drawable_of_stocked (fun e he => h.available e (List.mem_append_left _ he)) hn.of_append_left
    hleft hagree

/-- What is available was produced by the boundary or by an instance that was placed. -/
theorem Tried.node_le (h : b.Tried lost) {p : Port} {s : Soquet (Bloq α κ)}
    (hs : b.available[p]? = some s) : p.node ≤ b.next := by
  obtain ⟨c, hc⟩ := h.strays
  rw [hc.available, drawAll_available] at hs
  split at hs
  · cases hs
  · rw [hc.next, hc.sound.next]
    exact hc.sound.node_le ((hc.sound.there p).mp ⟨s, hs⟩).1

/-- A placed bloq takes some bundles and puts others out. -/
theorem AtHand.place (h : b.AtHand (ins ++ rest)) (hb : b.Tried lost) (hv : bloq.signature.Valid)
    (hleft : ws.map (·.left) = ins.map Prod.snd)
    (houts : outs.map Prod.snd = soquetsOn (.placed ⟨b.next, bloq⟩) bloq.signature.rights)
    (hproper : ∀ e ∈ outs, e.1 ≠ [] ∧ e.2.reg.dtype.isQuantum = true ∧
      e.1.length = e.2.reg.bitsize)
    (hn : (outs ++ rest).qubits.Nodup) :
    ((b.drawAll ws).place ⟨b.next, bloq⟩).AtHand (outs ++ rest) := by
  have hports : (outs.map Prod.snd).map Soquet.port =
      portsOn (b.next + 1) bloq.signature.rights := by
    rw [houts, port_soquetsOn_placed]
  have hold : ∀ e ∈ rest, e.2.port ∉ portsOn (b.next + 1) bloq.signature.rights := by
    intro e he hm
    have hle := hb.node_le (h.available e (List.mem_append_right _ he))
    rw [(mem_portsOn.mp hm).1] at hle
    omega
  have hall : ∀ e ∈ outs ++ rest, e.1 ≠ [] ∧ e.2.reg.dtype.isQuantum = true ∧
      e.1.length = e.2.reg.bitsize := by
    intro e he
    rcases List.mem_append.mp he with he | he
    · exact hproper e he
    · have he := List.mem_append_right ins he
      exact ⟨h.ne_nil e he, h.quantum e he, h.width e he⟩
  constructor
  case nodup => exact hn
  case ne_nil => exact fun e he => (hall e he).1
  case quantum => exact fun e he => (hall e he).2.1
  case width => exact fun e he => (hall e he).2.2
  case distinct =>
    have hrest := h.distinct
    rw [List.map_append] at hrest ⊢
    have hnew := nodup_portsOn (v := b.next + 1) (hv.nodup_rights.of_map)
    refine List.nodup_append.mpr ⟨(hports ▸ hnew).of_map, hrest.of_append_right, ?_⟩
    rintro s hs t ht rfl
    obtain ⟨e, he, rfl⟩ := List.mem_map.mp ht
    exact hold e he (hports ▸ List.mem_map_of_mem hs)
  case available =>
    intro e he
    rw [available_place_drawAll hv.nodup_rights.of_map, port_left hleft]
    rcases List.mem_append.mp he with he | he
    · have hs : e.2 ∈ soquetsOn (.placed ⟨b.next, bloq⟩) bloq.signature.rights :=
        houts ▸ List.mem_map_of_mem he
      obtain ⟨r, hr, i, hi, heq⟩ := mem_soquetsOn.mp hs
      rw [heq]
      exact if_pos (mem_portsOn.mpr ⟨rfl, hr, hi⟩)
    · have hn := h.nodup_ports
      rw [List.map_append, List.nodup_append] at hn
      have hnot : e.2.port ∉ ins.map fun e => e.2.port := fun hm =>
        hn.2.2 _ hm _ (List.mem_map_of_mem (f := fun e => e.2.port) he) rfl
      refine (if_neg (hold e he)).trans ((if_neg hnot).trans ?_)
      exact h.available e (List.mem_append_right _ he)

/-! ## Single steps -/

/-- One bloq that reshapes bundles or makes a fresh one. -/
theorem strands_place (hb : bloq.Reshaping)
    (hright : ws.map (·.right) = soquetsOn (.placed ⟨b.next, bloq⟩) bloq.signature.lefts)
    (hmade : ∀ e ∈ fresh, ∃ t, bloq = .allocate t ∧ e.1.length = t.bitsize ∧
      e.2 = ⟨.placed ⟨b.next, bloq⟩, bundleOn .right t, []⟩)
    (hdistinct : (fresh.map Prod.snd).Nodup)
    (hqubits : outs.qubits.Perm (ins.qubits ++ fresh.qubits))
    (hcarried : ∀ e ∈ ins ++ fresh, ∀ i q, e.1[i]? = some q → ∃ e' ∈ outs, ∃ j,
      e'.1[j]? = some q ∧ Carries [⟨b.next, bloq⟩] ws (e.2, i) (e'.2, j)) :
    b.Strands ins ((b.drawAll ws).place ⟨b.next, bloq⟩) outs fresh [⟨b.next, bloq⟩] ws where
  next := congrArg (· + 1) (next_drawAll b ws)
  instances := by rw [instances_place_drawAll, Array.push_eq_append]
  connections := connections_place_drawAll
  numbers := rfl
  reshaping x hx := by
    rw [List.mem_singleton.mp hx]
    exact hb
  rights := by rw [hright, List.flatMap_singleton]
  made e he := by
    obtain ⟨t, ht⟩ := hmade e he
    exact ⟨_, List.mem_singleton_self _, t, ht⟩
  distinct := hdistinct
  qubits := hqubits
  carried := hcarried

/-- The bits of a bundle that was taken apart, each with its qubit. -/
def bitStock (x : Instance (Bloq α κ)) (t : DataType) (qs : List Qubit) : Stock α κ :=
  qs.zipIdx.map fun p => ([p.1], ⟨.placed x, bitsOn .right t, [p.2]⟩)

section
variable {x : Instance (Bloq α κ)} {t : DataType} {qs : List Qubit}
omit [Angle α]

theorem indices_bitsOn (side : Side) (t : DataType) :
    (bitsOn side t).indices = (List.range t.bitsize).map ([·]) := by
  show shapeIndices [t.bitsize] = _
  simp only [shapeIndices, List.map_cons, List.map_nil]
  exact List.flatMap_pure_eq_map _ _

theorem fst_bitStock : (bitStock x t qs).map Prod.fst = qs.map ([·]) := by
  rw [bitStock, List.map_map]
  calc qs.zipIdx.map (Prod.fst ∘ fun p => ([p.1], _))
      = (qs.zipIdx.map Prod.fst).map ([·]) := by rw [List.map_map]; rfl
    _ = qs.map ([·]) := by rw [List.zipIdx_map_fst]

theorem snd_bitStock (ht : t.bitsize = qs.length) :
    (bitStock x t qs).map Prod.snd = soquetsOn (.placed x) [bitsOn .right t] := by
  rw [soquetsOn, List.flatMap_singleton, indices_bitsOn, bitStock, List.map_map, ht,
    List.range_eq_range', ← List.zipIdx_map_snd, List.map_map, List.map_map]
  rfl

theorem mem_bitStock {i : Nat} {q : Qubit} (h : qs[i]? = some q) :
    ([q], ⟨.placed x, bitsOn .right t, [i]⟩) ∈ bitStock x t qs :=
  List.mem_map.mpr ⟨(q, i), List.mem_zipIdx_iff_getElem?.mpr h, rfl⟩

end

theorem strands_split {qs : List Qubit} {so : Soquet (Bloq α κ)} {t : DataType}
    (ht : t.bitsize = qs.length) :
    b.Strands [(qs, so)] ((b.drawAll [bundleWire ⟨b.next, .split t⟩ t so]).place ⟨b.next, .split t⟩)
      (bitStock ⟨b.next, .split t⟩ t qs) [] [⟨b.next, .split t⟩]
      [bundleWire ⟨b.next, .split t⟩ t so] := by
  refine strands_place ⟨t, .inl rfl⟩ ?_ (fun e he => absurd he List.not_mem_nil) List.nodup_nil ?_ ?_
  · rw [Bloq.signature_split]
    rfl
  · rw [Stock.qubits_singles fst_bitStock, Stock.qubits_cons, Stock.qubits_nil, List.append_nil,
      List.append_nil]
  · intro e he i q hi
    rw [List.append_nil] at he
    obtain rfl := List.mem_singleton.mp he
    have hlt : i < t.bitsize := ht ▸ (List.getElem?_eq_some_iff.mp hi).1
    refine ⟨_, mem_bitStock hi, 0, rfl, .single ?_⟩
    exact .split (List.mem_singleton_self _) (List.mem_singleton_self _) hlt

omit [Angle α] in
/-- The wires of bits, one into each element of the register. -/
theorem mem_bitWires {x : Instance (Bloq α κ)} {t : DataType} {ss : List (Soquet (Bloq α κ))}
    (ht : t.bitsize = ss.length) {i : Nat} {s : Soquet (Bloq α κ)} (h : ss[i]? = some s) :
    ⟨s, ⟨.placed x, bitsOn .left t, [i]⟩⟩ ∈ bitWires x t ss := by
  have hi : (bitsOn .left t).indices[i]? = some [i] := by
    have hlt : i < t.bitsize := ht ▸ (List.getElem?_eq_some_iff.mp h).1
    rw [indices_bitsOn, List.getElem?_map, List.getElem?_range hlt]
    rfl
  refine List.mem_iff_getElem?.mpr ⟨i, ?_⟩
  rw [bitWires, wiresInto, List.getElem?_zipWith, hi, h]

omit [Angle α] in
/-- Bits that are one qubit wide may enter a register of bits, whatever their types are. -/
theorem agree_bitWires {x : Instance (Bloq α κ)} {qs : List Qubit} {t : DataType} {bits : Stock α κ}
    (hbits : bits.map Prod.fst = qs.map ([·])) (ht : t.bitsize = qs.length)
    (hq : ∀ e ∈ bits, e.2.reg.dtype.isQuantum = true)
    (hw : ∀ e ∈ bits, e.1.length = e.2.reg.bitsize) :
    ∀ w ∈ bitWires x t (bits.map Prod.snd),
      w.left.reg.dtype.isConsistentWith w.right.reg.dtype = true := by
  intro w hwire
  have hindices : (bits.map Prod.snd).length = (bitsOn .left t).indices.length := by
    rw [length_indices_bitsOn, List.length_map, Stock.length_singles hbits, ht]
  have hleft : (bitWires x t (bits.map Prod.snd)).map (·.left) = bits.map Prod.snd :=
    left_wiresInto hindices
  obtain ⟨e, he, heq⟩ := List.mem_map.mp (hleft ▸ List.mem_map_of_mem hwire)
  have hkey := List.mem_map_of_mem (f := Prod.fst) he
  rw [hbits] at hkey
  obtain ⟨q, -, hkey⟩ := List.mem_map.mp hkey
  have hwidth := hw e he
  rw [← hkey] at hwidth
  have hright : w.right ∈ soquetsOn (.placed x) [bitsOn .left t] := by
    rw [soquetsOn, List.flatMap_singleton, ← right_wiresInto hindices]
    exact List.mem_map_of_mem hwire
  obtain ⟨r, hr, i, -, hwr⟩ := mem_soquetsOn.mp hright
  rw [hwr, List.mem_singleton.mp hr, ← heq, DataType.isConsistentWith, hq e he, Bool.and_eq_true]
  exact ⟨beq_iff_eq.mpr hwidth.symm, rfl⟩

theorem strands_join {qs : List Qubit} {t : DataType} {bits : Stock α κ}
    (hbits : bits.map Prod.fst = qs.map ([·])) (ht : t.bitsize = qs.length) :
    b.Strands bits ((b.drawAll (bitWires ⟨b.next, .join t⟩ t (bits.map Prod.snd))).place
        ⟨b.next, .join t⟩)
      [(qs, ⟨.placed ⟨b.next, .join t⟩, bundleOn .right t, []⟩)] [] [⟨b.next, .join t⟩]
      (bitWires ⟨b.next, .join t⟩ t (bits.map Prod.snd)) := by
  have hlen : t.bitsize = (bits.map Prod.snd).length := by
    rw [List.length_map, Stock.length_singles hbits, ht]
  refine strands_place ⟨t, .inr (.inl rfl)⟩ ?_ (fun e he => absurd he List.not_mem_nil)
    List.nodup_nil ?_ ?_
  · rw [Bloq.signature_join, bitWires, right_wiresInto]
    · exact (List.append_nil _).symm
    · rw [← hlen, length_indices_bitsOn]
  · rw [Stock.qubits_singles hbits, Stock.qubits_cons, Stock.qubits_nil]
  · intro e he i q hi
    rw [List.append_nil] at he
    obtain ⟨k, hk⟩ := List.mem_iff_getElem?.mp he
    have hkey : qs[k]?.map ([·]) = some e.1 := by
      rw [← List.getElem?_map, ← hbits, List.getElem?_map, hk]
      rfl
    obtain ⟨q', hq', heq⟩ := Option.map_eq_some_iff.mp hkey
    rw [← heq] at hi
    obtain ⟨rfl, rfl⟩ : i = 0 ∧ q' = q := by
      cases i with
      | zero => exact ⟨rfl, Option.some.inj hi⟩
      | succ i => cases hi
    refine ⟨_, List.mem_singleton_self _, k, hq', .single ?_⟩
    refine .join (List.mem_singleton_self _) (mem_bitWires hlen ?_)
    rw [List.getElem?_map, hk]
    rfl

theorem strands_allocate {qs : List Qubit} {t : DataType} (ht : t.bitsize = qs.length) :
    b.Strands [] ((b.drawAll []).place ⟨b.next, .allocate t⟩)
      [(qs, ⟨.placed ⟨b.next, .allocate t⟩, bundleOn .right t, []⟩)]
      [(qs, ⟨.placed ⟨b.next, .allocate t⟩, bundleOn .right t, []⟩)] [⟨b.next, .allocate t⟩] [] := by
  refine strands_place ⟨t, .inr (.inr rfl)⟩ ?_ ?_ (List.nodup_singleton _) (List.Perm.refl _) ?_
  · rw [Bloq.signature_allocate]
    rfl
  · intro e he
    obtain rfl := List.mem_singleton.mp he
    exact ⟨t, rfl, ht.symm, rfl⟩
  · intro e he i q hi
    exact ⟨e, he, i, hi, .refl⟩

omit [Angle α] in
/-- A qubit goes on within the width of what it comes to. -/
theorem Strands.lt_bitsize (h : b.Strands stock b₁ stock₁ fresh xs ws) {p q : Place α κ}
    (hop : Hop xs ws p q) : q.2 < q.1.reg.bitsize := by
  cases hop with
  | split hx hw hi => exact Nat.zero_lt_one
  | @join n t s i hx hw =>
    have hright := List.mem_map_of_mem (f := Connection.right) hw
    rw [h.rights, List.mem_flatMap] at hright
    obtain ⟨x, -, hs⟩ := hright
    obtain ⟨r, hr, j, hj, heq⟩ := mem_soquetsOn.mp hs
    cases heq
    change [i] ∈ (bitsOn .left t).indices at hj
    rw [indices_bitsOn, List.mem_map] at hj
    obtain ⟨k, hk, heq⟩ := hj
    cases heq
    exact List.mem_range.mp hk

/-! ## Regrouping keeps the strands -/

/-- A builder whose stock is at hand, and carries the qubits that another stock had before. -/
structure Reshaped (b : Builder (Bloq α κ)) (stock : Stock α κ) (lost : List (Connection (Bloq α κ)))
    (b₁ : Builder (Bloq α κ)) (stock₁ : Stock α κ) : Prop where
  tried : b₁.Tried lost
  atHand : b₁.AtHand stock₁
  strands : ∃ fresh xs ws, b.Strands stock b₁ stock₁ fresh xs ws

theorem Reshaped.place (h : b.Reshaped stock lost b₁ (ins ++ rest))
    (hcall : b₁.Call ((b₁.drawAll ws).place ⟨b₁.next, bloq⟩))
    (hleft : ws.map (·.left) = ins.map Prod.snd)
    (houts : outs.map Prod.snd = soquetsOn (.placed ⟨b₁.next, bloq⟩) bloq.signature.rights)
    (hproper : ∀ e ∈ outs, e.1 ≠ [] ∧ e.2.reg.dtype.isQuantum = true ∧
      e.1.length = e.2.reg.bitsize)
    (hs : b₁.Strands ins ((b₁.drawAll ws).place ⟨b₁.next, bloq⟩) outs fresh [⟨b₁.next, bloq⟩] ws)
    (hn : ((ins ++ rest).qubits ++ fresh.qubits).Nodup) :
    b.Reshaped stock lost ((b₁.drawAll ws).place ⟨b₁.next, bloq⟩) (outs ++ rest) where
  tried := .call h.tried hcall
  atHand := h.atHand.place h.tried (hs.reshaping _ (List.mem_singleton_self _)).valid hleft houts
    hproper ((hs.beside rest).qubits.nodup_iff.mpr hn)
  strands := by
    obtain ⟨fresh₀, xs₀, ws₀, hstrands⟩ := h.strands
    exact ⟨_, _, _, hstrands.trans (hs.beside rest)⟩

theorem Reshaped.split {qs : List Qubit} {so : Soquet (Bloq α κ)}
    (h : b.Reshaped stock lost b₁ ((qs, so) :: rest)) :
    ∃ (b' : Builder (Bloq α κ)) (bits : Stock α κ) (g : Grid (Soquet (Bloq α κ))),
      Gives (Builder.split so) b₁ g b' ∧ b.Reshaped stock lost b' (bits ++ rest) ∧
      bits.map Prod.fst = qs.map ([·]) ∧ bits.map Prod.snd = g.toList := by
  obtain ⟨t, ht⟩ : ∃ t, so.reg.dtype = t := ⟨_, rfl⟩
  have hlen : t.bitsize = qs.length := by
    rw [← ht]
    exact (h.atHand.width _ List.mem_cons_self).symm
  have hgives := split_gives ht (h.atHand.available _ List.mem_cons_self)
  have hin : b.Reshaped stock lost b₁ ([(qs, so)] ++ rest) := h
  refine ⟨_, bitStock ⟨b₁.next, .split t⟩ t qs, _, hgives, ?_, fst_bitStock, ?_⟩
  · refine hin.place (.split hgives) rfl ?_ ?_ (strands_split hlen) ?_
    · rw [snd_bitStock hlen, Bloq.signature_split]
      rfl
    · intro e he
      obtain ⟨p, -, rfl⟩ := List.mem_map.mp he
      exact ⟨List.cons_ne_nil _ _, rfl, rfl⟩
    · rw [Stock.qubits_nil, List.append_nil]
      exact h.atHand.nodup
  · rw [snd_bitStock hlen, soquetsOn, List.flatMap_singleton, Grid.toList_ofFn]
    rfl

theorem Reshaped.join {bits : Stock α κ} {qs : List Qubit} {t : DataType}
    (h : b.Reshaped stock lost b₁ (bits ++ rest)) (hbits : bits.map Prod.fst = qs.map ([·]))
    (hq : t.isQuantum = true) (ht : t.bitsize = qs.length) (hpos : 1 ≤ qs.length) :
    ∃ b' so, Gives (Builder.join (.vector (bits.map Prod.snd)) (some t)) b₁ so b' ∧
      b.Reshaped stock lost b' ((qs, so) :: rest) := by
  have hlen : t.bitsize = (bits.map Prod.snd).length := by
    rw [List.length_map, Stock.length_singles hbits, ht]
  have hindices : (bits.map Prod.snd).length = (bitsOn .left t).indices.length := by
    rw [← hlen, length_indices_bitsOn]
  have hleft : (bitWires ⟨b₁.next, .join t⟩ t (bits.map Prod.snd)).map (·.left) =
      bits.map Prod.snd := left_wiresInto hindices
  have hagree := agree_bitWires (x := ⟨b₁.next, .join t⟩) hbits ht
    (fun e he => h.atHand.quantum e (List.mem_append_left _ he))
    (fun e he => h.atHand.width e (List.mem_append_left _ he))
  have hgives := join_gives hlen (h.atHand.drawable hleft hagree)
  refine ⟨_, _, hgives, ?_⟩
  refine h.place (.join hgives) hleft ?_ ?_ (strands_join hbits ht) ?_
  · rw [Bloq.signature_join]
    rfl
  · intro e he
    rw [List.mem_singleton.mp he]
    exact ⟨List.length_pos_iff.mp hpos, hq, ht.symm⟩
  · rw [Stock.qubits_nil, List.append_nil]
    exact h.atHand.nodup

theorem Reshaped.allocate {qs : List Qubit} {t : DataType}
    (h : b.Reshaped stock lost b₁ rest) (hq : t.isQuantum = true) (ht : t.bitsize = qs.length)
    (hpos : 1 ≤ qs.length) (hn : (rest.qubits ++ qs).Nodup) :
    ∃ b' so, Gives (Builder.allocate t) b₁ so b' ∧
      b.Reshaped stock lost b' ((qs, so) :: rest) := by
  have hin : b.Reshaped stock lost b₁ ([] ++ rest) := h
  refine ⟨_, _, allocate_gives, ?_⟩
  refine hin.place (.allocate allocate_gives) rfl ?_ ?_ (strands_allocate ht) ?_
  · rw [Bloq.signature_allocate]
    rfl
  · intro e he
    rw [List.mem_singleton.mp he]
    exact ⟨List.length_pos_iff.mp hpos, hq, ht.symm⟩
  · rw [Stock.qubits_cons, Stock.qubits_nil, List.append_nil]
    exact hn

/-- Regrouping can go on from any stock at hand, and the strands with it. -/
theorem reshapes_reshaped (b : Builder (Bloq α κ)) (stock : Stock α κ)
    (lost : List (Connection (Bloq α κ))) : Import.Reshapes (b.Reshaped stock lost) [] where
  perm h hs := ⟨h.tried, h.atHand.perm hs, h.strands.imp fun _ h => h.imp fun _ h =>
    h.imp fun _ h => h.perm hs⟩
  nodup h := by
    rw [List.append_nil]
    exact h.atHand.nodup
  nodup_keys h := Stock.nodup_keys h.atHand.nodup h.atHand.ne_nil
  split h := h.split
  join h := h.join
  allocate h hq ht hpos hn := h.allocate hq ht hpos (by rwa [List.append_nil] at hn)

/-! ## One place for each qubit -/

/-- The instances have numbers of their own, so no input has two wires. -/
theorem Strands.nodup_rights (h : b.Strands stock b₁ stock₁ fresh xs ws) :
    (ws.map (·.right)).Nodup := by
  have hnumbers : (xs.map (·.number)).Nodup := by
    rw [h.numbers]
    exact List.nodup_range'
  have hports : (xs.flatMap fun x => portsOn (x.number + 1) x.bloq.signature.lefts).Nodup :=
    nodup_flatMap_portsOn hnumbers fun x hx => (h.reshaping x hx).valid.nodup_lefts.of_map
  have hmap : (ws.map (·.right)).map Soquet.port =
      xs.flatMap fun x => portsOn (x.number + 1) x.bloq.signature.lefts := by
    rw [h.rights, List.map_flatMap]
    exact List.flatMap_congr fun x _ => port_soquetsOn_placed x _
  exact (hmap ▸ hports).of_map

/-- The old soquets are not on the instances that were added: those have greater numbers. -/
theorem Strands.node_ne (h : b.Strands stock b₁ stock₁ fresh xs ws) (hb : b.Tried lost)
    (hs : b.AtHand stock) {e : List Qubit × Soquet (Bloq α κ)} (he : e ∈ stock)
    {x : Instance (Bloq α κ)} (hx : x ∈ xs) : e.2.node ≠ .placed x := by
  intro hnode
  have hle := hb.node_le (hs.available e he)
  have hlt := (h.number_le hx).1
  simp only [Soquet.port, hnode] at hle
  omega

/-- Where the qubits start, no instance that reshapes bundles comes before. -/
theorem Strands.not_hop (h : b.Strands stock b₁ stock₁ fresh xs ws) (hb : b.Tried lost)
    (hs : b.AtHand stock) {e : List Qubit × Soquet (Bloq α κ)} (he : e ∈ stock ++ fresh) {i : Nat}
    {p : Place α κ} : ¬ Hop xs ws p (e.2, i) := by
  intro hop
  obtain ⟨x, hx, hnode, hbloq⟩ := hop.exists_placed
  change e.2.node = .placed x at hnode
  rcases List.mem_append.mp he with he | he
  · exact h.node_ne hb hs he hx hnode
  · obtain ⟨y, hy, t, hy', -, heq⟩ := h.made e he
    rw [heq] at hnode
    cases hnode
    exact hbloq t hy'

/-- What arrives at a place started at one place only: by induction along one of the two ways. -/
theorem Strands.origin_unique (h : b.Strands stock b₁ stock₁ fresh xs ws) (hb : b.Tried lost)
    (hs : b.AtHand stock) {e e' : List Qubit × Soquet (Bloq α κ)} (he : e ∈ stock ++ fresh)
    (he' : e' ∈ stock ++ fresh) {i i' : Nat} {q : Place α κ} (hc : Carries xs ws (e.2, i) q)
    (hc' : Carries xs ws (e'.2, i') q) : (e.2, i) = (e'.2, i') := by
  induction hc with
  | refl =>
    rcases Relation.ReflTransGen.cases_tail hc' with heq | ⟨p, -, hop⟩
    · exact heq
    · exact absurd hop (h.not_hop hb hs he)
  | tail _ hop ih =>
    rcases Relation.ReflTransGen.cases_tail hc' with rfl | ⟨p, hp, hop'⟩
    · exact absurd hop (h.not_hop hb hs he')
    · exact ih (Hop.unique h.nodup_rights hop' hop ▸ hp)

theorem Strands.nodup_origins (h : b.Strands stock b₁ stock₁ fresh xs ws) (hb : b.Tried lost)
    (hs : b.AtHand stock) : ((stock ++ fresh).map Prod.snd).Nodup := by
  rw [List.map_append]
  refine List.nodup_append.mpr ⟨hs.distinct, h.distinct, ?_⟩
  rintro s hs' t ht rfl
  obtain ⟨e, he, rfl⟩ := List.mem_map.mp hs'
  obtain ⟨e', he', heq⟩ := List.mem_map.mp ht
  obtain ⟨x, hx, t, -, -, hx'⟩ := h.made e' he'
  refine h.node_ne hb hs he hx ?_
  rw [← heq, hx']

/-- A qubit is carried exactly to its place in the other stock. -/
theorem Strands.carries_iff (h : b.Strands stock b₁ stock₁ fresh xs ws) (hb : b.Tried lost)
    (hs : b.AtHand stock) (hs₁ : b₁.AtHand stock₁) {e e₁ : List Qubit × Soquet (Bloq α κ)}
    (he : e ∈ stock ++ fresh) (he₁ : e₁ ∈ stock₁) {i j : Nat} {q : Qubit}
    (hi : e.1[i]? = some q) : Carries xs ws (e.2, i) (e₁.2, j) ↔ e₁.1[j]? = some q := by
  constructor
  · intro hc
    have hlt : j < e₁.1.length := by
      rw [hs₁.width e₁ he₁]
      rcases Relation.ReflTransGen.cases_tail hc with heq | ⟨p, -, hop⟩
      · rw [Prod.mk.injEq] at heq
        rw [heq.1, heq.2, ← h.width hs he]
        exact (List.getElem?_eq_some_iff.mp hi).1
      · exact h.lt_bitsize hop
    -- the qubit at the place that is reached came from a place of its own, which can only be this one
    obtain ⟨q', hq'⟩ : ∃ q', e₁.1[j]? = some q' := ⟨_, List.getElem?_eq_getElem hlt⟩
    have hmem : q' ∈ (stock ++ fresh).qubits := by
      rw [Stock.qubits_append]
      refine h.qubits.mem_iff.mp ?_
      exact Stock.mem_qubits.mpr ⟨e₁, he₁, List.mem_of_getElem? hq'⟩
    obtain ⟨e₀, he₀, hq₀⟩ := Stock.mem_qubits.mp hmem
    obtain ⟨i₀, hi₀⟩ := List.mem_iff_getElem?.mp hq₀
    obtain ⟨e₂, he₂, k, hk, hc₀⟩ := h.carried e₀ he₀ i₀ q' hi₀
    obtain ⟨rfl, rfl⟩ := Stock.place_unique hs₁.nodup he₂ he₁ hk hq'
    have heq := h.origin_unique hb hs he he₀ hc hc₀
    obtain rfl := List.inj_on_of_nodup_map (h.nodup_origins hb hs) he he₀ (congrArg Prod.fst heq)
    obtain rfl : i = i₀ := congrArg Prod.snd heq
    exact hq'.trans (hi₀.symm.trans hi)
  · intro hj
    obtain ⟨e₂, he₂, k, hk, hc⟩ := h.carried e he i q hi
    obtain ⟨rfl, rfl⟩ := Stock.place_unique hs₁.nodup he₂ he₁ hk hj
    exact hc

end Builder

/-! ## Requests -/

namespace Import
variable [Angle α] {b : Builder (Bloq α κ)} {bundles : Bundles (Bloq α κ)} {held : Stock α κ}
  {lost : List (Connection (Bloq α κ))} {request : QubitBundle}

/-- The bundles bind exactly the stock that is at hand in a builder. -/
structure Partition (b : Builder (Bloq α κ)) (bundles : Bundles (Bloq α κ)) (held : Stock α κ) :
    Prop extends b.AtHand held where
  lists : bundles.Lists held

/-- In any builder that calls can lead to, a request for distinct qubits succeeds, whatever bundles
are bound. Afterwards it could be made again. The old qubits are bound and those of the request,
which is bound as a whole; bundles that share no qubit with it stay on their soquets. What was added
are bloqs that reshape and make bundles, and what they make are the qubits of the request that were
not bound. Through them every old qubit and every fresh one is carried from its place to exactly the
place where it is bound now: in the soquet of the request, to its place in the request. -/
theorem ensure_strands (h : b.Tried lost) (hp : Partition b bundles held)
    (hn : request.qubits.Nodup) (hne : request.qubits ≠ []) (hq : request.dtype.isQuantum = true)
    (hlen : request.dtype.bitsize = request.qubits.length) :
    ∃ so b' bundles' held' fresh xs ws,
      Gives (ensure request bundles) b (so, bundles') b' ∧ b'.Tried lost ∧
      Partition b' bundles' held' ∧
      (∀ q, q ∈ held'.qubits ↔ q ∈ held.qubits ∨ q ∈ request.qubits) ∧
      bundles'.get? request.qubits = some so ∧
      (∀ e ∈ held, (∀ q ∈ e.1, q ∉ request.qubits) → bundles'.get? e.1 = some e.2) ∧
      b.Strands held b' held' fresh xs ws ∧
      (∀ q, q ∈ fresh.qubits ↔ q ∈ request.qubits ∧ q ∉ held.qubits) ∧
      ∀ e ∈ held ++ fresh, ∀ i q, e.1[i]? = some q →
        (∀ j, Carries xs ws (e.2, i) (so, j) ↔ request.qubits[j]? = some q) ∧
        ∀ e' ∈ held', ∀ j, Carries xs ws (e.2, i) (e'.2, j) ↔ e'.1[j]? = some q := by
  have hpos := List.length_pos_iff.mpr hne
  obtain ⟨so, b', bundles', held', hensure, hreshaped, hlists, hchanges, hso⟩ :=
    (Builder.reshapes_reshaped b held lost).ensure_gives
      ⟨h, hp.toAtHand, [], [], [], .refl b held⟩ hp.lists hn hpos hq hlen
      fun q _ hgone => absurd hgone List.not_mem_nil
  obtain ⟨fresh, xs, ws, hs⟩ := hreshaped.strands
  have hcarries : ∀ e ∈ held ++ fresh, ∀ i q, e.1[i]? = some q → ∀ e' ∈ held', ∀ j,
      Carries xs ws (e.2, i) (e'.2, j) ↔ e'.1[j]? = some q := fun e he i q hi e' he' j =>
    hs.carries_iff h hp.toAtHand hreshaped.atHand he he' hi
  have hqubits : ∀ q, q ∈ held'.qubits ↔ q ∈ held.qubits ∨ q ∈ fresh.qubits := by
    intro q
    rw [hs.qubits.mem_iff, List.mem_append]
  have hrequest : ∀ q ∈ request.qubits, q ∈ held'.qubits := fun q hq =>
    Stock.mem_qubits.mpr ⟨_, hso, hq⟩
  have hapart : ∀ q ∈ fresh.qubits, q ∉ held.qubits := by
    intro q hq hm
    have hnodup := hs.qubits.nodup_iff.mp hreshaped.atHand.nodup
    exact (List.nodup_append.mp hnodup).2.2 q hm q hq rfl
  refine ⟨so, b', bundles', held', fresh, xs, ws, hensure, hreshaped.tried,
    ⟨hreshaped.atHand, hlists⟩, ?_, (hlists.mem _ _).mpr hso, ?_, hs, ?_, ?_⟩
  · intro q
    constructor
    · exact hchanges.within q
    · rintro (hq | hq)
      · exact (hqubits q).mpr (.inl hq)
      · exact hrequest q hq
  · intro e he hno
    exact (hlists.mem _ _).mpr (hchanges.kept e he hno)
  · intro q
    constructor
    · intro hq
      have hnew := hchanges.within q ((hqubits q).mpr (.inr hq))
      exact ⟨hnew.resolve_left (hapart q hq), hapart q hq⟩
    · rintro ⟨hq, hno⟩
      exact ((hqubits q).mp (hrequest q hq)).resolve_left hno
  · intro e he i q hi
    exact ⟨hcarries e he i q hi _ hso, hcarries e he i q hi⟩

/-- A request that crosses the end of a bundle, in the other order: the bundle is taken apart, a
qubit is made, and one of the old qubits comes second. -/
theorem ensure_strands_crossing :
    let b : Builder (Bloq Float Complex) := Builder.place ⟨0, .allocate (.qany 2)⟩ {}
    let so : Soquet (Bloq Float Complex) :=
      ⟨.placed ⟨0, .allocate (.qany 2)⟩, bundleOn .right (.qany 2), []⟩
    let bundles : Bundles (Bloq Float Complex) := Bundles.insert {} [.line 0, .line 1] so
    let request : QubitBundle := ⟨[.line 2, .line 1], .quint 2⟩
    b.Tried [] ∧ Partition b bundles [([.line 0, .line 1], so)] ∧
    ∃ so' b' bundles' held' fresh xs ws,
      Gives (ensure request bundles) b (so', bundles') b' ∧ Partition b' bundles' held' ∧
      bundles'.get? [.line 2, .line 1] = some so' ∧
      b.Strands [([.line 0, .line 1], so)] b' held' fresh xs ws ∧
      (∀ j, Carries xs ws (so, 1) (so', j) ↔ j = 1) ∧ (∀ j, ¬ Carries xs ws (so, 0) (so', j)) ∧
      ∃ e ∈ fresh, ∃ i, e.1[i]? = some (.line 2) ∧ Carries xs ws (e.2, i) (so', 0) := by
  intro b so bundles request
  have htried : b.Tried [] := .call .new (.allocate Builder.allocate_gives)
  have hp : Partition b bundles [([.line 0, .line 1], so)] := by
    refine ⟨⟨by decide, ?_, List.nodup_singleton _, ?_, ?_, ?_⟩, ?_⟩
    · simp
    · intro e he
      rw [List.mem_singleton.mp he]
      rw [Builder.place_available _ _ (by decide)]
      rfl
    · simp [so, bundleOn, bundleRegister, Register.single, DataType.isQuantum]
    · simp [so, bundleOn, bundleRegister, Register.single, Register.bitsize, DataType.bitsize]
    · exact Bundles.lists_empty.insert List.not_mem_nil so
  refine ⟨htried, hp, ?_⟩
  obtain ⟨so', b', bundles', held', fresh, xs, ws, hensure, -, hp', -, hget, -, hs, hfresh, hcarries⟩ :=
    ensure_strands htried hp (show request.qubits.Nodup by decide) (List.cons_ne_nil _ _) rfl rfl
  refine ⟨so', b', bundles', held', fresh, xs, ws, hensure, hp', hget, hs, ?_, ?_, ?_⟩
  · intro j
    rw [(hcarries _ List.mem_cons_self 1 (.line 1) rfl).1 j]
    rcases j with - | - | j <;> simp [request]
  · intro j hc
    have hj := ((hcarries _ List.mem_cons_self 0 (.line 0) rfl).1 j).mp hc
    exact absurd (List.mem_of_getElem? hj) (by decide)
  · obtain ⟨e, he, hq⟩ := Stock.mem_qubits.mp ((hfresh (.line 2)).mpr (by decide))
    obtain ⟨i, hi⟩ := List.mem_iff_getElem?.mp hq
    exact ⟨e, he, i, hi, ((hcarries e (List.mem_append_right _ he) i _ hi).1 0).mpr rfl⟩

end Import
end BloqCircuit
