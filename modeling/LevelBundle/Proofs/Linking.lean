/-
  LevelBundle — the references in the file of a bundle.

  * `byte_part`, `wordOf_slot`: the parts of a section stand one behind the other; a
    reference is a position.
  * `Refers`: a reference of a section, as a loader finds it.
  * `Filed.fronted`, `Filed.linked`: the words in front are those that a loader relies on, and
    so is what a fixup table leads to.
-/
import LevelBundle.Proofs.Links
import LevelBundle.Proofs.Names
import LevelBundle.Proofs.Standing

namespace LevelBundle

/-- Whether a part refers to the record of a file that is loaded on demand. -/
def Part.isRuntime : Part → Bool
  | .runtimeFile _ _ => true
  | _ => false

/-- A reference of a section that the root leads to, as a loader finds it. -/
structure Refers (p q : Program) (l : Link) (id : SectionId) (part : Part) (ref : ItemRef) :
    Prop where
  slot : p.IsSlot q id part ref l.slot
  target : l.target = q.place ref
  runtime : l.runtime = part.isRuntime

theorem Refers.flags {p q : Program} {l : Link} {id : SectionId} {part : Part} {ref : ItemRef}
    (h : Refers p q l id part ref) : part.flags = l.flags := by
  rw [Link.flags, h.runtime]
  cases part <;> rfl

/-- Two different parts of a section do not overlap. -/
theorem Part.apart_of_total {l l' m m' : List Part} {part part' : Part}
    (h : l ++ part :: l' = m ++ part' :: m') (hne : part ≠ part') :
    total l + part.size.toNat ≤ total m ∨ total m + part'.size.toNat ≤ total l := by
  have grows (l n : List Part) (part : Part) :
      total l + part.size.toNat ≤ total (l ++ part :: n) := by
    rw [total_append]
    simp only [total, List.map_cons, List.sum_cons]
    omega
  rcases List.append_eq_append_iff.1 h with ⟨_ | ⟨_, n⟩, hl, hr⟩ | ⟨_ | ⟨_, n⟩, hl, hr⟩
  · exact absurd (List.cons.inj hr).1 hne
  · obtain ⟨rfl, -⟩ := List.cons.inj hr
    rw [hl]
    exact Or.inl (grows l n part)
  · exact absurd (List.cons.inj hr).1.symm hne
  · obtain ⟨rfl, -⟩ := List.cons.inj hr
    rw [hl]
    exact Or.inr (grows m n part')

theorem contents_record {p q : Program} (hm : p.Moved q) {a : Addressing} {order : ByteOrder}
    {id : SectionId} {filename : String}
    (hs : p.sections[id.index]? = some (Section.record filename)) :
    q.contents a order (.level id) = [0, 0, 0, 0] ++ (Utf8.encode filename ++ [0]) := by
  rw [Program.contents, hm.parts, Program.sectionAt_eq hs]
  simp only [Section.record, Section.recordParts, List.flatMap_cons, List.flatMap_nil,
    Program.partBytes, List.append_nil]

theorem Section.record_inj {filename filename' : String} (h : record filename = record filename') :
    filename = filename' := by
  have hparts := congrArg Section.parts h
  simp only [record, recordParts, List.cons.injEq, Part.literal.injEq, true_and, and_true,
    List.append_cancel_right_eq] at hparts
  have := Utf8.decode?_encode filename
  rwa [hparts, Utf8.decode?_encode, Option.some.injEq, eq_comm] at this

namespace Filed

variable {ctx : CompileContext} {pad : UInt32} {k : Packer} {p q : Program} {s : Settled}
  {b : Bundle} {refs : List UInt32} (h : Filed ctx pad k p q s b refs)
include h

/-! ## Parts -/

/-- **A part of a section** stands behind those before it. -/
theorem byte_part {id : SectionId} (hr : p.Leads (.level id)) {l l' : List Part} {part : Part}
    (hparts : (p.sectionAt id).parts = l ++ part :: l') {j : ℕ} (hj : j < part.size.toNat) :
    some (fileOf b.bytes.toList ((q.place (.level id)).toNat + Part.total l + j)) =
      (q.partBytes k.addressing k.options.order part)[j]? := by
  have hsmall := (h.laidout.section h.sound hr).1.small
  rw [hparts] at hsmall
  have hlen : (q.partBytes k.addressing k.options.order part).length = part.size.toNat :=
    Program.length_partBytes (hsmall part (by simp))
  have hfront : (l.flatMap (q.partBytes k.addressing k.options.order)).length = Part.total l :=
    Program.length_flatMap_partBytes fun part hm => hsmall part (by simp [hm])
  have hcontents : q.contents k.addressing k.options.order (.level id) =
      l.flatMap (q.partBytes k.addressing k.options.order) ++
        (q.partBytes k.addressing k.options.order part ++
          l'.flatMap (q.partBytes k.addressing k.options.order)) := by
    rw [Program.contents, h.laidout.moved.parts, hparts, List.flatMap_append, List.flatMap_cons]
  have hlt : Part.total l + j < (q.contents k.addressing k.options.order (.level id)).length := by
    rw [hcontents]
    simp only [List.length_append]
    omega
  rw [Nat.add_assoc, h.byte_content hr hlt, hcontents, List.getElem?_append_right (by omega),
    hfront, Nat.add_sub_cancel_left, List.getElem?_append_left (by omega)]

theorem target?_eq (part : Part) : q.target? part = p.target? part := by
  cases part <;> simp only [Program.target?, h.laidout.moved.canonical]

/-- **A reference** is the position of its target. -/
theorem wordOf_slot {id : SectionId} {part : Part} {ref : ItemRef} {o : UInt32}
    (hslot : p.IsSlot q id part ref o) :
    k.options.order.wordOf (fileOf b.bytes.toList) o.toNat =
      (k.addressing.positionAt (q.place ref) part.flags).word := by
  obtain ⟨hleads, ht, l, l', hparts, ho⟩ := hslot
  have hsize := Part.size_of_isReference (Program.isReference_iff.2 ⟨ref, ht⟩)
  refine ByteOrder.wordOf_eq fun j hj => ?_
  rw [ho, h.byte_part hleads hparts (by omega),
    Program.partBytes_of_target ((h.target?_eq part).trans ht)]

omit h in
theorem leads_of_isSlot {id : SectionId} {part : Part} {ref : ItemRef} {o : UInt32}
    (hslot : p.IsSlot q id part ref o) : p.Leads ref := by
  obtain ⟨l, l', hparts, -⟩ := hslot.parts
  refine .step hslot.leads (List.mem_filterMap.2 ⟨part, ?_, hslot.target⟩)
  rw [hparts]
  simp

/-- Only one reference lies in a slot. -/
theorem isSlot_inj {id id' : SectionId} {part part' : Part} {ref ref' : ItemRef} {o : UInt32}
    (hslot : p.IsSlot q id part ref o) (hslot' : p.IsSlot q id' part' ref' o) :
    id = id' ∧ part = part' ∧ ref = ref' := by
  have hid : id = id' := by
    by_contra hne
    obtain ⟨h1, h2, -⟩ := h.laidout.slotLies h.sound hslot
    obtain ⟨h1', h2', -⟩ := h.laidout.slotLies h.sound hslot'
    have := (h.length_contents hslot.leads).2
    have := (h.length_contents hslot'.leads).2
    have := h.laidout.apart hslot.leads hslot'.leads fun he => hne (by injection he)
    omega
  subst hid
  obtain ⟨-, ht, l, l', hparts, ho⟩ := hslot
  obtain ⟨-, ht', m, m', hparts', ho'⟩ := hslot'
  have hsize := Part.size_of_isReference (Program.isReference_iff.2 ⟨ref, ht⟩)
  have hsize' := Part.size_of_isReference (Program.isReference_iff.2 ⟨ref', ht'⟩)
  have hpart : part = part' := by
    by_contra hne
    have := Part.apart_of_total (hparts.symm.trans hparts') hne
    omega
  subst hpart
  exact ⟨rfl, rfl, Option.some.inj (ht.symm.trans ht')⟩

/-! ## Places -/

theorem inside_of_lt {o : UInt32} (h4 : 4 ∣ o.toNat)
    (hlt : o.toNat / k.options.chunkSize.toNat < s.capacity.toNat) :
    Inside k.addressing (Image.chunksOf k.addressing.chunkSize.toNat b.bytes.size
      b.chunkCount.toNat) o := by
  have hsane : k.addressing.chunkSize = k.options.chunkSize := h.sane
  refine ⟨Packer.reaches_of_lt h.sane h.accepts.capacity_le h4 hlt, Nat.lt_of_lt_of_le ?_
    (Image.le_chunksOf ..)⟩
  rw [hsane, h.chunkCount]
  exact hlt

theorem inside_place {ref : ItemRef} (hr : p.Leads ref) :
    Inside k.addressing (Image.chunksOf k.addressing.chunkSize.toNat b.bytes.size
      b.chunkCount.toNat) (q.place ref) :=
  h.inside_of_lt (h.laidout.lies hr).words (h.laidout.lies hr).block_lt

theorem inside_slot {id : SectionId} {part : Part} {ref : ItemRef} {o : UInt32}
    (hslot : p.IsSlot q id part ref o) :
    Inside k.addressing (Image.chunksOf k.addressing.chunkSize.toNat b.bytes.size
      b.chunkCount.toNat) o :=
  h.inside_of_lt (h.laidout.slotLies h.sound hslot).words
    (h.laidout.block_slot h.sound h.grain hslot)

/-! ## Records -/

theorem size_record {id : SectionId} {filename : String} (hr : p.Leads (.level id))
    (hs : p.sections[id.index]? = some (Section.record filename)) :
    (p.item (.level id)).size.toNat = (Utf8.encode filename).length + 5 := by
  rw [← (h.length_contents hr).1, contents_record h.laidout.moved hs]
  simp only [List.length_append, List.length_cons, List.length_nil]
  omega

theorem place_inj {ref ref' : ItemRef} (hr : p.Leads ref) (hr' : p.Leads ref')
    (h0 : 0 < (p.item ref).size.toNat) (h0' : 0 < (p.item ref').size.toNat)
    (he : q.place ref = q.place ref') : ref = ref' := by
  by_contra hne
  have := h.laidout.apart hr hr' hne
  have := (h.length_contents hr).2
  have := (h.length_contents hr').2
  rw [he] at *
  omega

/-- The names that are read from the records. -/
theorem exists_name : ∃ name : UInt32 → String, ∀ {id : SectionId} {filename : String},
    p.Leads (.level id) → p.sections[id.index]? = some (Section.record filename) →
      name (q.place (.level id)) = upToZero filename := by
  have key (o : UInt32) : ∃ name, ∀ {id : SectionId} {filename : String}, p.Leads (.level id) →
      p.sections[id.index]? = some (Section.record filename) → q.place (.level id) = o →
        name = upToZero filename := by
    by_cases hx : ∃ (id : SectionId) (filename : String), p.Leads (.level id) ∧
      p.sections[id.index]? = some (Section.record filename) ∧ q.place (.level id) = o
    · obtain ⟨id', filename', hr', hs', hplace'⟩ := hx
      refine ⟨upToZero filename', fun {id filename} hr hs hplace => ?_⟩
      have h0 := h.size_record hr hs
      have h0' := h.size_record hr' hs'
      obtain rfl : id' = id := by
        injection h.place_inj hr' hr (by omega) (by omega) (hplace'.trans hplace.symm)
      rw [hs, Option.some.injEq] at hs'
      rw [Section.record_inj hs']
    · exact ⟨"", fun {id filename} hr hs hplace => absurd ⟨id, filename, hr, hs, hplace⟩ hx⟩
  choose name hname using key
  exact ⟨name, fun hr hs => hname _ hr hs rfl⟩

omit h in
theorem not_isSlot_record {id : SectionId} {filename : String}
    (hs : p.sections[id.index]? = some (Section.record filename)) {part : Part} {ref : ItemRef}
    {o : UInt32} : ¬ p.IsSlot q id part ref o := by
  rintro ⟨-, ht, l, l', hparts, -⟩
  have hm : part ∈ (p.sectionAt id).parts := by rw [hparts]; simp
  rw [Program.sectionAt_eq hs] at hm
  simp only [Section.record, Section.recordParts, List.mem_cons, List.not_mem_nil, or_false] at hm
  rcases hm with rfl | rfl <;> cases ht

/-- A reference to a file that is loaded on demand leads to its record. -/
theorem refers_record {l : Link} {id : SectionId} {part : Part} {ref : ItemRef}
    (hl : Refers p q l id part ref) (hr : l.runtime = true) :
    ∃ record filename, part = .runtimeFile filename record ∧ ref = .level record ∧
      p.sections[record.index]? = some (Section.record filename) := by
  obtain ⟨m, m', hparts, -⟩ := hl.slot.parts
  have hok := h.sound.part (show part ∈ (p.sectionAt id).parts by rw [hparts]; simp)
  have ht := hl.slot.target
  rw [hl.runtime] at hr
  cases part with
  | runtimeFile filename record =>
    cases ht
    exact ⟨record, filename, rfl, rfl, hok.1⟩
  | _ => cases hr

/-! ## Links -/

variable {links : List Link}
  (hlinks : ∀ l ∈ links, ∃ id part ref, Refers p q l id part ref)
include hlinks

/-- What is written lies in an item. -/
theorem written_lies {x : ℕ} (hx : Written links x) :
    ∃ ref, p.Leads ref ∧ (q.place ref).toNat ≤ x ∧
      x + 4 ≤ (q.place ref).toNat + (p.item ref).size.toNat := by
  obtain ⟨l, hm, rfl | ⟨hr, rfl⟩⟩ := hx
  · obtain ⟨id, part, ref, hl⟩ := hlinks l hm
    obtain ⟨h1, h2, -⟩ := h.laidout.slotLies h.sound hl.slot
    exact ⟨.level id, hl.slot.leads, h1, h2⟩
  · obtain ⟨id, part, ref, hl⟩ := hlinks l hm
    obtain ⟨record, filename, -, rfl, hs⟩ := h.refers_record hl hr
    have hlead := leads_of_isSlot hl.slot
    have := h.size_record hlead hs
    rw [hl.target]
    exact ⟨.level record, hlead, Nat.le_refl _, by omega⟩

/-- A slot lies beside all records. -/
theorem slot_beside_record {l : Link} (hm : l ∈ links) {record : SectionId} {filename : String}
    (hr : p.Leads (.level record))
    (hs : p.sections[record.index]? = some (Section.record filename)) :
    l.slot.toNat + 4 ≤ (q.place (.level record)).toNat ∨
      (q.place (.level record)).toNat + (p.item (.level record)).size.toNat ≤ l.slot.toNat := by
  obtain ⟨id, part, ref, hl⟩ := hlinks l hm
  obtain ⟨h1, h2, -⟩ := h.laidout.slotLies h.sound hl.slot
  have hne : ItemRef.level id ≠ .level record := fun he => by
    injection he with he
    subst he
    exact not_isSlot_record hs hl.slot
  have := h.laidout.apart hl.slot.leads hr hne
  have := (h.length_contents hl.slot.leads).2
  have := (h.length_contents hr).2
  omega

/-- In a record, only the first word is written. -/
theorem not_written_record {record : SectionId} {filename : String} (hr : p.Leads (.level record))
    (hs : p.sections[record.index]? = some (Section.record filename)) {x : ℕ}
    (h1 : (q.place (.level record)).toNat < x)
    (h2 : x < (q.place (.level record)).toNat + (p.item (.level record)).size.toNat) :
    ¬ Written links x := by
  rintro ⟨l, hm, rfl | ⟨hrt, rfl⟩⟩
  · have := h.slot_beside_record hlinks hm hr hs
    omega
  · obtain ⟨id, part, ref, hl⟩ := hlinks l hm
    obtain ⟨record', filename', -, rfl, hs'⟩ := h.refers_record hl hrt
    have hr' := leads_of_isSlot hl.slot
    rw [hl.target] at h1 h2
    have hne : ItemRef.level record' ≠ .level record := fun he => by
      rw [he] at h1
      exact Nat.lt_irrefl _ h1
    have := h.laidout.apart hr' hr hne
    have := h.size_record hr' hs'
    have := (h.length_contents hr').2
    have := (h.length_contents hr).2
    omega

/-- **The record of a file** that has not been loaded. -/
theorem recorded {record : SectionId} {filename : String} (hr : p.Leads (.level record))
    (hs : p.sections[record.index]? = some (Section.record filename)) :
    Recorded k.addressing k.options.order (fileOf b.bytes.toList) links (q.place (.level record))
      (upToZero filename) (Utf8.encode (upToZero filename)) := by
  have hsane : k.addressing.chunkSize = k.options.chunkSize := h.sane
  have hcontents : q.contents k.addressing k.options.order (.level record) =
      [0, 0, 0, 0] ++ (Utf8.encode filename ++ [0]) := contents_record h.laidout.moved hs
  obtain ⟨hne, rest, hrest⟩ := Utf8.encode_zero filename
  have hsize := h.size_record hr hs
  have hpad := (h.length_contents hr).2
  have hlen := congrArg List.length hrest
  simp only [List.length_append, List.length_cons, List.length_nil] at hlen
  rw [hrest] at hcontents
  have hbyte {j : ℕ} {v : UInt8}
      (hv : ([0, 0, 0, 0] ++ (Utf8.encode (upToZero filename) ++ 0 :: rest))[j]? = some v) :
      fileOf b.bytes.toList ((q.place (.level record)).toNat + j) = v := by
    rw [← hcontents] at hv
    exact Option.some.inj ((h.byte_content hr (List.getElem?_eq_some_iff.1 hv).1).trans hv)
  have h4 := (h.laidout.lies hr).words
  have hin := (h.laidout.lies hr).inside
  have hzero : k.options.order.wordBytes 0 = [0, 0, 0, 0] := by
    cases k.options.order <;> rfl
  refine ⟨ByteOrder.wordOf_eq fun j hj => ?_, Utf8.decode?_encode _, hne, ?_, fun j hj => ?_, ?_,
    fun j hj => h.not_written_record hlinks hr hs (by omega) (by omega)⟩
  · rw [hzero]
    match j, hj with
    | 0, _ | 1, _ | 2, _ | 3, _ => exact congrArg some (hbyte rfl)
  · rw [hsane]
    omega
  · rw [Nat.add_assoc]
    refine hbyte ?_
    rw [List.getElem?_append_right (by simp), List.length_cons, List.length_cons, List.length_cons,
      List.length_cons, List.length_nil, Nat.add_sub_cancel_left, List.getElem?_append_left hj,
      List.getElem?_eq_getElem hj]
  · rw [Nat.add_assoc]
    refine hbyte ?_
    rw [List.getElem?_append_right (by simp), List.length_cons, List.length_cons, List.length_cons,
      List.length_cons, List.length_nil, Nat.add_sub_cancel_left,
      List.getElem?_append_right (Nat.le_refl _), Nat.sub_self]
    rfl

/-- **The words in front** are those that a loader relies on. -/
theorem fronted : Fronted k.addressing k.options.order (fileOf b.bytes.toList)
    (Image.chunksOf k.addressing.chunkSize.toNat b.bytes.size b.chunkCount.toNat)
    b.chunkCount.toNat (q.place (.level p.root)) links := by
  constructor
  case count_le => exact Image.le_chunksOf ..
  case header_le =>
    have hsane : k.addressing.chunkSize = k.options.chunkSize := h.sane
    have := Packer.le_headerSize k s.capacity (Packer.fixupCount p p.items)
    have := h.accepts.headerSize_le
    rw [hsane, h.chunkCount]
    omega
  case filler =>
    intro i hi
    refine h.wordOf_front ?_
    rw [headerRow, List.getElem?_append_left (by simpa using hi), List.getElem?_replicate,
      if_pos hi]
  case filler_end => exact h.wordOf_front (headerRow_end _ _ _ 0)
  case start =>
    obtain ⟨placed, body, gap, border, hf⟩ := h.file
    rw [← hf.start]
    exact h.wordOf_front (headerRow_end _ _ _ 1)
  case root_inside => exact h.inside_place .root
  case header_le_written =>
    intro x hx
    obtain ⟨ref, hr, hle, -⟩ := h.written_lies hlinks hx
    exact (h.header_le hr).trans hle

/-- **The file is one that a loader can rely on.** -/
theorem linked (hslots : links.map Link.slot = refs) {name : UInt32 → String}
    (hname : ∀ {id : SectionId} {filename : String}, p.Leads (.level id) →
      p.sections[id.index]? = some (Section.record filename) →
        name (q.place (.level id)) = upToZero filename) {t : UInt32}
    (ht : b.fixupTable = some t) (htable : TableLies k p q b refs t) :
    Linked k.addressing k.options.order (fileOf b.bytes.toList)
      (Image.chunksOf k.addressing.chunkSize.toNat b.bytes.size b.chunkCount.toNat)
      b.chunkCount.toNat (q.place (.level p.root)) t links name := by
  obtain ⟨placed, body, gap, border, hf⟩ := h.file
  have hlen : links.length = refs.length := by rw [← hslots, List.length_map]
  constructor
  case toFronted => exact h.fronted hlinks
  case table_word =>
    refine h.wordOf_front ((headerRow_end _ _ _ 2).trans ?_)
    rw [Bundle.tablePosition, ht]
    rfl
  case table_inside => exact ⟨htable.reaches, htable.block_lt⟩
  case header_le_table => exact htable.header_le
  case table_le => rw [hlen]; exact htable.inside
  case row =>
    intro i hi
    refine htable.row ?_
    rw [tableRow, List.getElem?_append_left (by simpa [← hlen] using hi), List.getElem?_map,
      ← hslots, List.getElem?_map, List.getElem?_eq_getElem hi]
    rfl
  case row_end =>
    refine htable.row ?_
    rw [tableRow, hlen, List.getElem?_append_right (by simp), List.length_map, Nat.sub_self]
    rfl
  case slot_inside =>
    intro l hm
    obtain ⟨id, part, ref, hl⟩ := hlinks l hm
    exact h.inside_slot hl.slot
  case target_inside =>
    intro l hm
    obtain ⟨id, part, ref, hl⟩ := hlinks l hm
    rw [hl.target]
    exact h.inside_place (leads_of_isSlot hl.slot)
  case slot_word =>
    intro l hm
    obtain ⟨id, part, ref, hl⟩ := hlinks l hm
    rw [h.wordOf_slot hl.slot, hl.flags, hl.target]
  case recorded =>
    intro l hm hr
    obtain ⟨id, part, ref, hl⟩ := hlinks l hm
    obtain ⟨record, filename, -, rfl, hs⟩ := h.refers_record hl hr
    have hlead := leads_of_isSlot hl.slot
    rw [hl.target, hname hlead hs]
    exact ⟨_, h.recorded hlinks hlead hs⟩
  case nodup =>
    rw [hslots]
    exact hf.slots.increasing.imp fun hlt he => Nat.ne_of_lt hlt (congrArg UInt32.toNat he)
  case apart =>
    intro l hm l' hm' hr he
    obtain ⟨id, part, ref, hl⟩ := hlinks l' hm'
    obtain ⟨record, filename, -, rfl, hs⟩ := h.refers_record hl hr
    have hlead := leads_of_isSlot hl.slot
    have hbeside := h.slot_beside_record hlinks hm hlead hs
    have := h.size_record hlead hs
    rw [he, hl.target] at hbeside
    omega
  case table_free =>
    intro x hx
    obtain ⟨ref, hr, h1, h2⟩ := h.written_lies hlinks hx
    have := (h.length_contents hr).2
    have := htable.apart hr
    omega

end Filed

end LevelBundle
