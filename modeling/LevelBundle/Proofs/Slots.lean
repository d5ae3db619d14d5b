/-
  LevelBundle — the slots of references.

  * `Program.IsSlot p q id part ref o`: a part of the section `id`, which the root leads
    to, refers to `ref`, and lies at the offset `o` of the bundle.
  * `Laidout.slots`: the slots that are listed are these, each once and in increasing
    order; there are as many as the header was made for.
-/
import LevelBundle.Proofs.Contents
import Mathlib.Data.List.Sort

namespace LevelBundle

/-! ## Offsets of references -/

/-- Parts lie one behind the other. -/
theorem pairwise_partOffsets {start : UInt32} {parts : List Part}
    (hs : start.toNat + Part.total parts < 2 ^ 32) :
    (partOffsets start parts).Pairwise fun e e' => e.1.toNat + e.2.size.toNat ≤ e'.1.toNat := by
  induction parts generalizing start with
  | nil => exact .nil
  | cons part rest ih =>
    have ht : Part.total (part :: rest) = part.size.toNat + Part.total rest := by simp [Part.total]
    have hsum : (start + part.size).toNat = start.toNat + part.size.toNat := by
      rw [UInt32.toNat_add, Nat.mod_eq_of_lt]; omega
    refine .cons (fun e he => ?_) (ih (by omega))
    obtain ⟨l, l', -, he⟩ := (mem_partOffsets (by omega)).1 he
    simp only
    omega

theorem length_filter_partOffsets (start : UInt32) (parts : List Part) :
    ((partOffsets start parts).filter fun e => e.2.isReference).length =
      parts.countP Part.isReference := by
  induction parts generalizing start with
  | nil => rfl
  | cons part rest ih =>
    rw [partOffsets, List.filter_cons, List.countP_cons]
    split_ifs
    · rw [List.length_cons, ih]
    · rw [ih]; rfl

theorem Part.size_of_isReference {part : Part} (h : part.isReference = true) :
    part.size.toNat = 4 := by
  cases part <;> first | rfl | cases h

namespace Program

/-- A reference to `ref`, in a section that the root leads to, lies at the offset
    `o` of the bundle. -/
structure IsSlot (p q : Program) (id : SectionId) (part : Part) (ref : ItemRef) (o : UInt32) :
    Prop where
  leads : p.Leads (.level id)
  target : p.target? part = some ref
  parts : ∃ l l', (p.sectionAt id).parts = l ++ part :: l' ∧
    o.toNat = (q.place (.level id)).toNat + Part.total l

/-- The offsets of the references of an item. -/
def slotsOf (q : Program) : ItemRef → List UInt32
  | .level id => ((q.sectionAt id).offsets.filter fun e => e.2.isReference).map fun e =>
      q.place (.level id) + e.1
  | .blob _ => []

theorem isReference_iff {p : Program} {part : Part} :
    part.isReference = true ↔ ∃ ref, p.target? part = some ref := by
  cases part <;> simp [target?, Part.isReference]

end Program

namespace Packer

variable {ctx : CompileContext} {pad : UInt32} {k : Packer} {p q : Program} {s : Settled}

/-- The slots that are listed, before they are sorted. -/
theorem slots_eq_ok {items : List Item} {l : List UInt32} (h : slots q items = .ok l) :
    l = (items.flatMap fun i => q.slotsOf i.ref).mergeSort (· ≤ ·) := by
  simp only [slots, bind_eq_ok, pure_eq_ok, mapM_eq_ok] at h
  obtain ⟨all, hall, rfl⟩ := h
  have hmap : List.Forall₂ (· = ·) (items.map fun i => q.slotsOf i.ref) all := by
    refine List.forall₂_map_left_iff.2 (hall.imp fun i l h => ?_)
    cases hr : i.ref with
    | blob id => rw [hr] at h; cases h; rfl
    | level id =>
      rw [hr] at h
      simp only [bind_eq_ok, pure_eq_ok] at h
      obtain ⟨o, ho, rfl⟩ := h
      rw [Program.slotsOf, place_eq (sectionOffset_eq_ok ho)]
  rw [List.forall₂_eq_eq_eq] at hmap
  rw [List.flatMap_def, hmap]

theorem Laidout.section (hp : p.Sound ctx pad) (hl : Laidout k p q s) {id : SectionId}
    (h : p.Leads (.level id)) :
    (p.sectionAt id).Sound ctx.chunkSize pad ∧
      (q.sectionAt id).offsets = (p.sectionAt id).offsets := by
  obtain ⟨t, ht⟩ := hp.holds h
  rw [Program.sectionAt_eq ht]
  refine ⟨hp.state.sections ht, ?_⟩
  rw [Section.offsets, hl.moved.parts, Program.sectionAt_eq ht, Section.offsets]

/-- What is known of the offset of a reference. -/
structure SlotLies (p q : Program) (id : SectionId) (o : UInt32) : Prop where
  place_le : (q.place (.level id)).toNat ≤ o.toNat
  stop_le : o.toNat + 4 ≤ (q.place (.level id)).toNat + (p.item (.level id)).size.toNat
  words : 4 ∣ o.toNat

/-- The offset after an item that is placed. -/
theorem Laidout.stop_lt (hk : k.Sane) (hl : Laidout k p q s)
    (hcap : s.capacity ≤ k.maxChunks) {ref : ItemRef} (h : p.Leads ref) :
    (q.place ref).toNat + (p.item ref).padSize.toNat ≤
      s.capacity.toNat * k.options.chunkSize.toNat ∧
    (q.place ref).toNat + (p.item ref).padSize.toNat < 2 ^ 32 := by
  obtain ⟨-, -, hb, hin, -⟩ := hl.lies h
  obtain ⟨-, hfile⟩ := capacity_spec hk hcap
  have hd := Nat.div_add_mod' (q.place ref).toNat k.options.chunkSize.toNat
  have hmul := Nat.mul_le_mul_right k.options.chunkSize.toNat (Nat.succ_le_of_lt hb)
  rw [Nat.succ_mul] at hmul
  rw [Nat.add_mul, Nat.one_mul] at hfile
  omega

/-- **A reference lies in its section**, on a whole word. -/
theorem Laidout.slotLies (hp : p.Sound ctx pad) (hl : Laidout k p q s) {id : SectionId}
    {part : Part} {ref : ItemRef} {o : UInt32} (h : p.IsSlot q id part ref o) :
    SlotLies p q id o := by
  obtain ⟨hleads, ht, l, l', hparts, ho⟩ := h
  have href := Program.isReference_iff.2 ⟨ref, ht⟩
  have hs := (hl.section hp hleads).1
  have hsize : (p.item (.level id)).size.toNat = Part.total (p.sectionAt id).parts := hs.size_eq
  have htotal : Part.total (p.sectionAt id).parts = Part.total l + (4 + Part.total l') := by
    rw [hparts, Part.total_append]
    simp [Part.total, Part.size_of_isReference href]
  refine ⟨by omega, by omega, ?_⟩
  rw [ho]
  exact Nat.dvd_add (hl.lies hleads).words (hs.aligned l part l' hparts href)

theorem reaches_of_lt {k : Packer} (hk : k.Sane) {capacity o : UInt32}
    (hcap : capacity ≤ k.maxChunks) (h4 : 4 ∣ o.toNat)
    (hlt : o.toNat / k.options.chunkSize.toNat < capacity.toNat) : k.addressing.Reaches o := by
  obtain ⟨hmax, -⟩ := capacity_spec hk hcap
  have hsane : k.addressing.chunkSize = k.options.chunkSize := hk
  exact ⟨by rw [hsane]; omega, h4⟩

theorem Laidout.reaches_place (hk : k.Sane) (hl : Laidout k p q s)
    (hcap : s.capacity ≤ k.maxChunks) {ref : ItemRef} (h : p.Leads ref) :
    k.addressing.Reaches (q.place ref) :=
  reaches_of_lt hk hcap (hl.lies h).words (hl.lies h).block_lt

/-- A reference lies in the chunk of its section. -/
theorem Laidout.block_slot (hp : p.Sound ctx pad) (g : Grain ctx.chunkSize pad)
    (hl : Laidout k p q s) {id : SectionId} {part : Part} {ref : ItemRef} {o : UInt32}
    (h : p.IsSlot q id part ref o) :
    o.toNat / k.options.chunkSize.toNat < s.capacity.toNat := by
  obtain ⟨hle, hstop, -⟩ := hl.slotLies hp h
  obtain ⟨-, -, hlt, hin, -⟩ := hl.lies h.leads
  have hpad := (hp.fit g (hp.holds h.leads)).size_le
  refine Nat.lt_of_le_of_lt (Nat.le_of_eq ?_) hlt
  have hd := Nat.div_add_mod' (q.place (.level id)).toNat k.options.chunkSize.toNat
  refine Nat.div_eq_of_lt_le (by omega) ?_
  rw [Nat.add_one_mul ((q.place (.level id)).toNat / k.options.chunkSize.toNat)]
  omega

theorem Laidout.reaches_slot (hp : p.Sound ctx pad) (g : Grain ctx.chunkSize pad) (hk : k.Sane)
    (hl : Laidout k p q s) (hcap : s.capacity ≤ k.maxChunks) {id : SectionId} {part : Part}
    {ref : ItemRef} {o : UInt32} (h : p.IsSlot q id part ref o) : k.addressing.Reaches o :=
  reaches_of_lt hk hcap (hl.slotLies hp h).words (hl.block_slot hp g h)

theorem Laidout.mem_slotsOf (hp : p.Sound ctx pad) (g : Grain ctx.chunkSize pad) (hk : k.Sane)
    (hl : Laidout k p q s) (hcap : s.capacity ≤ k.maxChunks) {id : SectionId}
    (h : p.Leads (.level id)) {o : UInt32} :
    o ∈ q.slotsOf (.level id) ↔ ∃ part ref, p.IsSlot q id part ref o := by
  obtain ⟨hs, hoff⟩ := hl.section hp h
  have hstop := (hl.stop_lt hk hcap h).2
  have hfit := hp.fit g (hp.holds h)
  have hsize : (p.item (.level id)).size.toNat = Part.total (p.sectionAt id).parts := hs.size_eq
  -- offsets of references do not wrap
  have hadd {l l' : List Part} {part : Part} (hparts : (p.sectionAt id).parts = l ++ part :: l')
      {e : UInt32} (he : e.toNat = Part.total l) :
      (q.place (.level id) + e).toNat = (q.place (.level id)).toNat + Part.total l := by
    have hle := hfit.size_le
    have htotal : Part.total l ≤ Part.total (p.sectionAt id).parts := by
      rw [hparts, Part.total_append]; omega
    rw [UInt32.toNat_add, he, Nat.mod_eq_of_lt (by omega)]
  simp only [Program.slotsOf, List.mem_map, List.mem_filter, hoff, hs.mem_offsets g]
  constructor
  · rintro ⟨⟨e, part⟩, ⟨⟨l, l', hparts, he⟩, href⟩, rfl⟩
    obtain ⟨ref, ht⟩ := Program.isReference_iff.1 href
    exact ⟨part, ref, h, ht, l, l', hparts, hadd hparts he⟩
  · rintro ⟨part, ref, -, ht, l, l', hparts, ho⟩
    have he : (Part.total l).toUInt32.toNat = Part.total l := toNat_toUInt32 (by
      have := hs.size_le; have := g.chunk_le; have := hs.size_eq
      have : Part.total l ≤ Part.total (p.sectionAt id).parts := by
        rw [hparts, Part.total_append]; omega
      omega)
    refine ⟨((Part.total l).toUInt32, part), ⟨⟨l, l', hparts, he⟩,
      Program.isReference_iff.2 ⟨ref, ht⟩⟩, UInt32.toNat_inj.1 ?_⟩
    rw [hadd hparts he, ho]

/-- The references of one section lie at different offsets. -/
theorem Laidout.nodup_slotsOf (hp : p.Sound ctx pad) (g : Grain ctx.chunkSize pad)
    (hl : Laidout k p q s) {ref : ItemRef} (h : p.Leads ref) : (q.slotsOf ref).Nodup := by
  cases ref with
  | blob id => exact List.nodup_nil
  | level id =>
    obtain ⟨hs, hoff⟩ := hl.section hp h
    have hpw : (partOffsets 0 (p.sectionAt id).parts).Pairwise fun e e' =>
        e.1.toNat + e.2.size.toNat ≤ e'.1.toNat := pairwise_partOffsets (by
      have := hs.size_le; have := g.chunk_le; have := hs.size_eq
      rw [UInt32.toNat_zero]; omega)
    rw [Program.slotsOf, hoff, List.Nodup, List.pairwise_map]
    refine (hpw.filter _).imp_of_mem fun {e e'} he _ hle heq => ?_
    have hsize := Part.size_of_isReference (List.mem_filter.1 he).2
    have : e.1 = e'.1 := (UInt32.add_right_inj _).1 heq
    rw [this] at hle
    omega

/-- **The slots that are listed**: every reference, once and in increasing order. -/
structure Slots (p q : Program) (l : List UInt32) : Prop where
  increasing : l.Pairwise fun o o' => o.toNat < o'.toNat
  mem_iff : ∀ {o}, o ∈ l ↔ ∃ id part ref, p.IsSlot q id part ref o

/-- References of different sections lie apart, as the sections do. -/
theorem Laidout.disjoint_slotsOf (hp : p.Sound ctx pad) (g : Grain ctx.chunkSize pad) (hk : k.Sane)
    (hl : Laidout k p q s) (hcap : s.capacity ≤ k.maxChunks) {ref ref' : ItemRef}
    (h : p.Leads ref) (h' : p.Leads ref') (hne : ref ≠ ref') :
    (q.slotsOf ref).Disjoint (q.slotsOf ref') := by
  intro o ho ho'
  cases ref with
  | blob id => cases ho
  | level id =>
    cases ref' with
    | blob id' => cases ho'
    | level id' =>
      obtain ⟨_, _, hs⟩ := (hl.mem_slotsOf hp g hk hcap h).1 ho
      obtain ⟨_, _, hs'⟩ := (hl.mem_slotsOf hp g hk hcap h').1 ho'
      obtain ⟨h1, h2, -⟩ := hl.slotLies hp hs
      obtain ⟨h1', h2', -⟩ := hl.slotLies hp hs'
      have := (hp.fit g (hp.holds h)).size_le
      have := (hp.fit g (hp.holds h')).size_le
      have := hl.apart h h' hne
      omega

theorem Laidout.length_slotsOf (hp : p.Sound ctx pad) (hl : Laidout k p q s) {id : SectionId}
    (h : p.Leads (.level id)) :
    (q.slotsOf (.level id)).length = (p.sectionAt id).parts.countP Part.isReference := by
  rw [Program.slotsOf, (hl.section hp h).2, List.length_map]
  exact length_filter_partOffsets 0 _

/-- The slots that are listed for a program that was laid out, and how many they are. -/
theorem Laidout.slots (hp : p.Sound ctx pad) (g : Grain ctx.chunkSize pad) (hk : k.Sane)
    (hl : Laidout k p q s) (hcap : s.capacity ≤ k.maxChunks) {l : List UInt32}
    (h : Packer.slots q p.items = .ok l) :
    Slots p q l ∧ l.length = fixupCount p p.items := by
  obtain rfl : l = (p.reachable.flatMap q.slotsOf).mergeSort (· ≤ ·) := by
    rw [slots_eq_ok h, Program.items, List.flatMap_map]
    simp only [Program.item_ref]
  have hnodup : (p.reachable.flatMap q.slotsOf).Nodup := List.nodup_flatMap.2
    ⟨fun ref hr => hl.nodup_slotsOf hp g (hp.mem_reachable_iff.1 hr),
      hp.nodup_reachable.imp_of_mem fun hr hr' hne => hl.disjoint_slotsOf hp g hk hcap
        (hp.mem_reachable_iff.1 hr) (hp.mem_reachable_iff.1 hr') hne⟩
  refine ⟨⟨?increasing, fun {o} => ?mem_iff⟩, ?length⟩
  case increasing =>
    have hsorted := List.pairwise_mergeSort' (· ≤ ·) (p.reachable.flatMap q.slotsOf)
    refine (hsorted.and (List.nodup_mergeSort.2 hnodup)).imp fun h => ?_
    exact UInt32.lt_iff_toNat_lt.1 (UInt32.lt_of_le_of_ne h.1 h.2)
  case mem_iff =>
    rw [List.mem_mergeSort, List.mem_flatMap]
    constructor
    · rintro ⟨ref, hr, ho⟩
      have hlead := hp.mem_reachable_iff.1 hr
      cases ref with
      | blob id => cases ho
      | level id => exact ⟨id, (hl.mem_slotsOf hp g hk hcap hlead).1 ho⟩
    · rintro ⟨id, part, ref, hslot⟩
      exact ⟨.level id, hp.mem_reachable_iff.2 hslot.leads,
        (hl.mem_slotsOf hp g hk hcap hslot.leads).2 ⟨part, ref, hslot⟩⟩
  case length =>
    rw [List.length_mergeSort, fixupCount, List.length_flatMap, Program.items, List.map_map]
    congr 1
    refine List.map_congr_left fun ref hr => ?_
    rw [Function.comp_apply, Program.item_ref]
    cases ref with
    | blob id => rfl
    | level id => exact hl.length_slotsOf hp (hp.mem_reachable_iff.1 hr)

end Packer

end LevelBundle
