/-
  LevelBundle — the records of a bundle, in the order in which they are needed.

  * `Program.Records p records`: the records that the root of a program leads to, each
    with its file.
  * `exists_links`: each slot with what it refers to.
  * `exists_records`: the records that are pending at first are these, each once.
-/
import LevelBundle.Proofs.Linking
import LevelBundle.Proofs.Resuming

namespace LevelBundle

/-- The records that the root leads to, each with its file. -/
structure Program.Records (p : Program) (records : List (SectionId × String)) : Prop where
  /-- No record comes twice. -/
  nodup : (records.map Prod.fst).Nodup
  /-- They are the records that the root leads to. -/
  mem_iff : ∀ {id filename}, (id, filename) ∈ records ↔
    p.Leads (.level id) ∧ p.sections[id.index]? = some (Section.record filename)

/-- A file has one record. -/
theorem Program.Records.nodup_files {ctx : CompileContext} {pad : UInt32} {p : Program}
    (hp : p.Sound ctx pad) {records : List (SectionId × String)} (h : p.Records records) :
    (records.map Prod.snd).Nodup := by
  have hn : records.Nodup := .of_map _ h.nodup
  refine hn.map_on fun e he e' he' hname => ?_
  obtain ⟨⟨i⟩, filename⟩ := e
  obtain ⟨⟨j⟩, filename'⟩ := e'
  obtain rfl : filename = filename' := hname
  have hi := (h.mem_iff.1 he).2
  have hj := (h.mem_iff.1 he').2
  rw [show i = j from hp.state.record_inj hi hj]

/-- The root leads to a record over a section that refers to its file. -/
theorem Program.Sound.exists_reference {ctx : CompileContext} {pad : UInt32} {p : Program}
    (hp : p.Sound ctx pad) {record : SectionId} {filename : String} (hr : p.Leads (.level record))
    (hs : p.sections[record.index]? = some (Section.record filename)) :
    ∃ id, p.Leads (.level id) ∧ Part.runtimeFile filename record ∈ (p.sectionAt id).parts := by
  generalize href : ItemRef.level record = ref at hr
  cases hr with
  | root =>
    injection href with href
    subst href
    obtain ⟨t, ht, hrt⟩ := hp.root
    rw [hs, Option.some.injEq] at ht
    rw [← ht] at hrt
    cases hrt
  | @step source target hsource ht =>
    subst href
    cases source with
    | blob => cases ht
    | level id =>
      obtain ⟨part, hm, hpt⟩ := List.mem_filterMap.1 ht
      have hok := hp.part hm
      cases part with
      | runtimeFile filename' =>
        cases hpt
        have hname := hok.1
        rw [hs, Option.some.injEq] at hname
        exact ⟨id, hsource, Section.record_inj hname ▸ hm⟩
      | level =>
        cases hpt
        obtain ⟨t, ht', hrt⟩ := hok
        rw [hs, Option.some.injEq] at ht'
        rw [← ht'] at hrt
        cases hrt
      | _ => cases hpt

/-- **The files of the records** are those that sections refer to. -/
theorem Program.Records.mem_files {ctx : CompileContext} {pad : UInt32} {p : Program}
    (hp : p.Sound ctx pad) {records : List (SectionId × String)} (h : p.Records records)
    {filename : String} : filename ∈ records.map Prod.snd ↔ ∃ id record, p.Leads (.level id) ∧
      Part.runtimeFile filename record ∈ (p.sectionAt id).parts := by
  constructor
  · intro hfile
    obtain ⟨⟨record, filename⟩, hm, rfl⟩ := List.mem_map.1 hfile
    obtain ⟨hr, hs⟩ := h.mem_iff.1 hm
    obtain ⟨id, hid⟩ := hp.exists_reference hr hs
    exact ⟨id, record, hid⟩
  · rintro ⟨id, record, hr, hm⟩
    have hleads : p.Leads (.level record) := .step hr (List.mem_filterMap.2 ⟨_, hm, rfl⟩)
    exact List.mem_map_of_mem (f := Prod.snd) (h.mem_iff.2 ⟨hleads, (hp.part hm).1⟩)

namespace Filed

variable {ctx : CompileContext} {pad : UInt32} {k : Packer} {p q : Program} {s : Settled}
  {b : Bundle} {refs : List UInt32} (h : Filed ctx pad k p q s b refs)
include h

/-! ## Links -/

/-- Each slot, with what it refers to. -/
theorem exists_links : ∃ links : List Link, links.map Link.slot = refs ∧
    ∀ l ∈ links, ∃ id part ref, Refers p q l id part ref := by
  obtain ⟨placed, body, gap, border, hf⟩ := h.file
  have key (o : UInt32) (ho : o ∈ refs) :
      ∃ l : Link, l.slot = o ∧ ∃ id part ref, Refers p q l id part ref := by
    obtain ⟨id, part, ref, hslot⟩ := hf.slots.mem_iff.1 ho
    exact ⟨⟨o, q.place ref, part.isRuntime⟩, rfl, id, part, ref, hslot, rfl, rfl⟩
  have : Nonempty Link := ⟨⟨0, 0, false⟩⟩
  choose! g hg using key
  refine ⟨refs.map g, ?_, fun l hm => ?_⟩
  · rw [List.map_map]
    exact (List.map_congr_left fun o ho => (hg o ho).1).trans (List.map_id _)
  · obtain ⟨o, ho, rfl⟩ := List.mem_map.1 hm
    exact (hg o ho).2

variable {links : List Link} (hslots : links.map Link.slot = refs)
  (hlinks : ∀ l ∈ links, ∃ id part ref, Refers p q l id part ref)
include hslots hlinks

/-- **Every reference of a section is linked.** -/
theorem exists_link {id : SectionId} (hr : p.Leads (.level id)) {l l' : List Part} {part : Part}
    (hparts : (p.sectionAt id).parts = l ++ part :: l') {ref : ItemRef}
    (ht : p.target? part = some ref) : ∃ link ∈ links,
      link.slot.toNat = (q.place (.level id)).toNat + Part.total l ∧
        Refers p q link id part ref := by
  obtain ⟨placed, body, gap, border, hf⟩ := h.file
  have hsection := (h.laidout.section h.sound hr).1
  have hstop := (h.laidout.stop_lt h.sane h.accepts.capacity_le hr).2
  have hpad := (h.length_contents hr).2
  have hsize : (p.item (.level id)).size.toNat = Part.total (p.sectionAt id).parts :=
    hsection.size_eq
  have hle : Part.total l ≤ Part.total (p.sectionAt id).parts := by
    rw [hparts, Part.total_append]
    omega
  have ho := toNat_toUInt32 (show (q.place (.level id)).toNat + Part.total l < 2 ^ 32 by omega)
  have hslot : p.IsSlot q id part ref ((q.place (.level id)).toNat + Part.total l).toUInt32 :=
    ⟨hr, ht, l, l', hparts, ho⟩
  have hmem := hf.slots.mem_iff.2 ⟨id, part, ref, hslot⟩
  rw [← hslots] at hmem
  obtain ⟨link, hm, he⟩ := List.mem_map.1 hmem
  obtain ⟨id', part', ref', hrefers⟩ := hlinks link hm
  obtain ⟨rfl, rfl, rfl⟩ := h.isSlot_inj (he ▸ hrefers.slot) hslot
  exact ⟨link, hm, by rw [he, ho], hrefers⟩

theorem exists_link_record {id : SectionId} {filename : String} (hr : p.Leads (.level id))
    (hs : p.sections[id.index]? = some (Section.record filename)) :
    ∃ link ∈ links, link.runtime = true ∧ link.target = q.place (.level id) := by
  obtain ⟨id', hr', hm⟩ := h.sound.exists_reference hr hs
  obtain ⟨l, l', hparts⟩ := List.append_of_mem hm
  obtain ⟨link, hlink, -, hrefers⟩ := h.exists_link hslots hlinks hr' hparts rfl
  exact ⟨link, hlink, hrefers.runtime, hrefers.target⟩

/-- **The records that are pending at first.** -/
theorem exists_records : ∃ records, p.Records records ∧
    pending [] links = records.map fun e => q.place (.level e.1) := by
  have key (r : UInt32) (hr : r ∈ pending [] links) : ∃ e : SectionId × String,
      p.Leads (.level e.1) ∧ p.sections[e.1.index]? = some (Section.record e.2) ∧
        q.place (.level e.1) = r := by
    obtain ⟨l, hm, hrt, rfl⟩ := mem_pending hr
    obtain ⟨id, part, ref, hl⟩ := hlinks l hm
    obtain ⟨record, filename, -, rfl, hs⟩ := h.refers_record hl hrt
    exact ⟨(record, filename), leads_of_isSlot hl.slot, hs, hl.target.symm⟩
  have : Nonempty (SectionId × String) := ⟨⟨⟨0⟩, ""⟩⟩
  choose! g hg using key
  have hplace : pending [] links =
      ((pending [] links).map g).map fun e => q.place (.level e.1) := by
    rw [List.map_map]
    exact ((List.map_congr_left fun r hr => (hg r hr).2.2).trans (List.map_id _)).symm
  refine ⟨(pending [] links).map g, ⟨?_, fun {id filename} => ⟨fun hm => ?_, fun hx => ?_⟩⟩, hplace⟩
  · refine List.Nodup.of_map (fun id => q.place (.level id)) ?_
    rw [List.map_map]
    exact hplace ▸ nodup_pending.1
  · obtain ⟨r, hr, he⟩ := List.mem_map.1 hm
    have := hg r hr
    rw [he] at this
    exact ⟨this.1, this.2.1⟩
  · obtain ⟨hr, hs⟩ := hx
    obtain ⟨l, hm, hrt, ht⟩ := h.exists_link_record hslots hlinks hr hs
    have hmem : q.place (.level id) ∈ pending [] links := by
      rcases @mem_or_mem_pending [] links l hm hrt with hk | hp
      · exact absurd hk List.not_mem_nil
      · exact ht ▸ hp
    obtain ⟨hr', hs', hplace'⟩ := hg _ hmem
    have h0 := h.size_record hr hs
    have h0' := h.size_record hr' hs'
    have hid : (g (q.place (.level id))).1 = id := by
      injection h.place_inj hr' hr (by omega) (by omega) hplace'
    rw [hid, hs, Option.some.injEq] at hs'
    refine List.mem_map.2 ⟨_, hmem, Prod.ext hid (Section.record_inj hs').symm⟩

end Filed

end LevelBundle
