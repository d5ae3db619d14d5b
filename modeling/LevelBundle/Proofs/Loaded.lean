/-
  LevelBundle — what a resolved bundle holds.

  * `Loader.Holds l o bytes`: some bytes stand at an offset of a bundle in memory.
  * `Program.loaded`: the bytes of an item, where references are addresses and a record
    holds the address of its file.
  * `Filed.holds_loaded`: every item that the root leads to is held so, once all slots
    are resolved.
-/
import LevelBundle.Proofs.Asked

namespace LevelBundle

/-! ## Bytes in memory -/

/-- The byte at an offset of a bundle in memory. -/
def Loader.byteAt? (l : Loader) (o : ℕ) : Option UInt8 :=
  (l.memory.getD (o / l.addressing.chunkSize.toNat) default).bytes[o %
    l.addressing.chunkSize.toNat]?

/-- Some bytes stand at an offset of a bundle in memory. -/
def Loader.Holds (l : Loader) (o : ℕ) (bytes : Bytes) : Prop :=
  ∀ j < bytes.length, l.byteAt? (o + j) = bytes[j]?

namespace Loader

variable {l : Loader} {o : ℕ}

theorem holds_append {xs ys : Bytes} (hx : l.Holds o xs) (hy : l.Holds (o + xs.length) ys) :
    l.Holds o (xs ++ ys) := by
  intro j hj
  rw [List.length_append] at hj
  rcases Nat.lt_or_ge j xs.length with h | h
  · rw [hx j h, List.getElem?_append_left h]
  · obtain ⟨n, rfl⟩ := Nat.exists_eq_add_of_le h
    rw [← Nat.add_assoc, hy n (by omega), List.getElem?_append_right h, Nat.add_sub_cancel_left]

theorem holds_row {order : ByteOrder} {ws : List UInt32} {i : ℕ} {w : UInt32}
    (h : l.Holds o (order.rowBytes ws)) (hw : ws[i]? = some w) :
    l.Holds (o + 4 * i) (order.wordBytes w) := by
  have hi := (List.getElem?_eq_some_iff.1 hw).1
  intro j hj
  rw [order.length_wordBytes] at hj
  rw [Nat.add_assoc, h _ (by rw [order.length_rowBytes]; omega), order.getElem?_rowBytes hw hj]

theorem holds_flatMap {α : Type} {g : α → Bytes} {parts : List α}
    (h : ∀ m part m', parts = m ++ part :: m' → l.Holds (o + (m.flatMap g).length) (g part)) :
    l.Holds o (parts.flatMap g) := by
  induction parts generalizing o with
  | nil => exact fun j hj => absurd hj (Nat.not_lt_zero j)
  | cons part rest ih =>
    rw [List.flatMap_cons]
    refine holds_append (by simpa using h [] part rest rfl) (ih fun m part' m' hm => ?_)
    have := h (part :: m) part' m' (by rw [hm, List.cons_append])
    rwa [List.flatMap_cons, List.length_append, ← Nat.add_assoc] at this

theorem byteAt?_over {a : Addressing} {order : ByteOrder} {bases : List UInt32} {f : ℕ → UInt8}
    {w : Patches} (h : o / a.chunkSize.toNat < bases.length) :
    (overlaid a order bases f w).byteAt? o = some (order.overlay f w o) := by
  have hpos : 0 < a.chunkSize.toNat := by have := a.words.1; omega
  have hregion : (overlaid a order bases f w).memory.getD (o / a.chunkSize.toNat) default =
      ⟨bases.getD (o / a.chunkSize.toNat) 0, chunkAt (order.overlay f w) a.chunkSize.toNat
        (o / a.chunkSize.toNat)⟩ := Memory.getD_holding h
  rw [byteAt?, show (overlaid a order bases f w).addressing = a from rfl, hregion,
    getElem?_chunkAt (Nat.mod_lt _ hpos), Nat.div_add_mod']

theorem holds_word {a : Addressing} {order : ByteOrder} {bases : List UInt32} {f : ℕ → UInt8}
    {w : Patches} {v : UInt32} (h4 : 4 ∣ o) (h : o / a.chunkSize.toNat < bases.length)
    (hw : w o = some v) : (overlaid a order bases f w).Holds o (order.wordBytes v) := by
  have hlen := order.length_wordBytes v
  intro j hj
  have hdiv : (o + j) / a.chunkSize.toNat = o / a.chunkSize.toNat := by
    rw [← div_of_word a.words.2.2, show (o + j) / 4 * 4 = o by omega]
  rw [byteAt?_over (by rw [hdiv]; exact h), ByteOrder.overlay_of_some h4 (by omega) hw,
    List.getD_eq_getElem?_getD, List.getElem?_eq_getElem hj, Option.getD_some]

end Loader

/-- The word at an offset of a bundle in memory. -/
def Loader.readAt (l : Loader) (o : ℕ) : Except LoadError UInt32 :=
  l.read (o / l.addressing.chunkSize.toNat) (o % l.addressing.chunkSize.toNat)

/-- A word that is held in one chunk is read. -/
theorem Loader.readAt_of_holds {l : Loader} {o : ℕ} {w : UInt32}
    (h : l.Holds o (l.order.wordBytes w))
    (hin : o % l.addressing.chunkSize.toNat + 4 ≤ l.addressing.chunkSize.toNat) :
    l.readAt o = .ok w := by
  have hlen := l.order.length_wordBytes w
  have hpos : 0 < l.addressing.chunkSize.toNat := by omega
  have hbyte (j : ℕ) (hj : j < 4) : (l.memory.getD (o / l.addressing.chunkSize.toNat)
      default).bytes[o % l.addressing.chunkSize.toNat + j]? = (l.order.wordBytes w)[j]? := by
    have hdiv : (o + j) / l.addressing.chunkSize.toNat = o / l.addressing.chunkSize.toNat := by
      have hd := Nat.div_add_mod' o l.addressing.chunkSize.toNat
      refine Nat.div_eq_of_lt_le (by omega) ?_
      rw [Nat.add_one_mul (o / l.addressing.chunkSize.toNat)]
      omega
    have hmod := Nat.div_add_mod' (o + j) l.addressing.chunkSize.toNat
    have hd := Nat.div_add_mod' o l.addressing.chunkSize.toNat
    rw [hdiv] at hmod
    have hb := h j (by omega)
    rw [byteAt?, hdiv] at hb
    rwa [show o % l.addressing.chunkSize.toNat + j = (o + j) % l.addressing.chunkSize.toNat by omega]
  have hlast := hbyte 3 (by omega)
  rw [List.getElem?_eq_getElem (by omega)] at hlast
  have hlt := (Array.getElem?_eq_some_iff.1 hlast).1
  rw [readAt, read, Memory.word?, ByteOrder.wordAt?_eq_some (by omega) hbyte]

/-! ## Resolved items -/

namespace Program

/-- The bytes of a part of a resolved bundle: a reference is the address of its target, or
    the address that the host has answered for a file. -/
def loadedPart (p : Program) (order : ByteOrder) (address : ItemRef → UInt32)
    (answer : SectionId → UInt32) : Part → Bytes
  | .literal bytes => bytes
  | .align _ size | .pad size => List.replicate size.toNat 0
  | .blob id => order.wordBytes (address (.blob (p.store.canonical id)))
  | .level id => order.wordBytes (address (.level id))
  | .runtimeFile _ id => order.wordBytes (answer id)

/-- The bytes of an item of a resolved bundle.  The record of a file starts with the
    address that the host has answered, in place of its first part. -/
def loaded (p : Program) (order : ByteOrder) (address : ItemRef → UInt32)
    (answer : SectionId → UInt32) : ItemRef → Bytes
  | .level id =>
    let parts := (p.sectionAt id).parts
    let bytes := p.loadedPart order address answer
    if (p.sectionAt id).runtimeFile then
      order.wordBytes (answer id) ++ (parts.drop 1).flatMap bytes
    else parts.flatMap bytes
  | .blob id => p.store.bytes id

variable {p : Program} {order : ByteOrder} {address : ItemRef → UInt32}
  {answer : SectionId → UInt32}

theorem length_loadedPart {chunk : UInt32} {part : Part} (h : part.Small chunk) :
    (p.loadedPart order address answer part).length = part.size.toNat := by
  cases part with
  | literal bytes => exact h.length_literal
  | align | pad => exact List.length_replicate
  | blob | level | runtimeFile => exact order.length_wordBytes _

theorem length_flatMap_loadedPart {chunk : UInt32} {parts : List Part}
    (h : ∀ part ∈ parts, part.Small chunk) :
    (parts.flatMap (p.loadedPart order address answer)).length = Part.total parts := by
  rw [List.length_flatMap, Part.total]
  congr 1
  exact List.map_congr_left fun part hm => length_loadedPart (h part hm)

end Program

namespace Filed

variable {ctx : CompileContext} {pad : UInt32} {k : Packer} {p q : Program} {s : Settled}
  {b : Bundle} {refs : List UInt32} (h : Filed ctx pad k p q s b refs)
include h

theorem stop_part_le {id : SectionId} (hr : p.Leads (.level id)) {l l' : List Part} {part : Part}
    (hparts : (p.sectionAt id).parts = l ++ part :: l') :
    Part.total l + part.size.toNat ≤ (p.item (.level id)).size.toNat := by
  have hsize : (p.item (.level id)).size.toNat = Part.total (p.sectionAt id).parts :=
    (h.laidout.section h.sound hr).1.size_eq
  rw [hparts, Part.total_append] at hsize
  simp only [Part.total, List.map_cons, List.sum_cons] at hsize ⊢
  omega

variable {links : List Link} (hslots : links.map Link.slot = refs)
  (hlinks : ∀ l ∈ links, ∃ id part ref, Refers p q l id part ref)

include hlinks in
/-- What is written lies in a reference, or in the first word of a record. -/
theorem written_cases {x : ℕ} (hx : Written links x) :
    (∃ id part ref o, p.IsSlot q id part ref o ∧ x = o.toNat) ∨
      ∃ id filename, p.Leads (.level id) ∧
        p.sections[id.index]? = some (Section.record filename) ∧
          x = (q.place (.level id)).toNat := by
  obtain ⟨l, hm, rfl | ⟨hr, rfl⟩⟩ := hx
  · obtain ⟨id, part, ref, hl⟩ := hlinks l hm
    exact Or.inl ⟨id, part, ref, l.slot, hl.slot, rfl⟩
  · obtain ⟨id, part, ref, hl⟩ := hlinks l hm
    obtain ⟨record, filename, -, rfl, hs⟩ := h.refers_record hl hr
    exact Or.inr ⟨record, filename, leads_of_isSlot hl.slot, hs, by rw [hl.target]⟩

include hlinks in
/-- Nothing is written to a blob. -/
theorem not_written_blob {id : BlobId} (hr : p.Leads (.blob id)) {x : ℕ}
    (h1 : (q.place (.blob id)).toNat ≤ x)
    (h2 : x < (q.place (.blob id)).toNat + (p.item (.blob id)).size.toNat) :
    ¬ Written links (x / 4 * 4) := by
  intro hx
  have h4 := (h.laidout.lies hr).words
  have hpad := (h.length_contents hr).2
  rcases h.written_cases hlinks hx with ⟨id', part, ref, o, hslot, ho⟩ | ⟨id', filename, hr', hs, ho⟩
  · obtain ⟨hle, hstop, -⟩ := h.laidout.slotLies h.sound hslot
    have := (h.length_contents hslot.leads).2
    have := h.laidout.apart hslot.leads hr nofun
    omega
  · have := h.size_record hr' hs
    have := (h.length_contents hr').2
    have := h.laidout.apart hr' hr nofun
    omega

include hlinks in
/-- Nothing is written to a part that is no reference, unless the section is a record. -/
theorem not_written_part {id : SectionId} (hr : p.Leads (.level id))
    (hrt : (p.sectionAt id).runtimeFile = false) {l l' : List Part} {part : Part}
    (hparts : (p.sectionAt id).parts = l ++ part :: l') (hnone : p.target? part = none) {j : ℕ}
    (hj : j < part.size.toNat) :
    ¬ Written links (((q.place (.level id)).toNat + Part.total l + j) / 4 * 4) := by
  intro hx
  have h4 := (h.laidout.lies hr).words
  have hpad := (h.length_contents hr).2
  have hsize : (p.item (.level id)).size.toNat = Part.total (p.sectionAt id).parts :=
    (h.laidout.section h.sound hr).1.size_eq
  have htotal : Part.total (p.sectionAt id).parts =
      Part.total l + (part.size.toNat + Part.total l') := by
    rw [hparts, Part.total_append]
    simp [Part.total]
  rcases h.written_cases hlinks hx with ⟨id', part', ref, o, hslot, ho⟩ | ⟨id', filename, hr', hs, ho⟩
  · obtain ⟨hle, hstop, ho4⟩ := h.laidout.slotLies h.sound hslot
    by_cases hid : id' = id
    · subst hid
      obtain ⟨m, m', hparts', ho'⟩ := hslot.parts
      have hsize' := Part.size_of_isReference (Program.isReference_iff.2 ⟨ref, hslot.target⟩)
      have hne : part ≠ part' := fun he => by
        have := hslot.target
        rw [← he, hnone] at this
        cases this
      have := Part.apart_of_total (hparts.symm.trans hparts') hne
      omega
    · have := (h.length_contents hslot.leads).2
      have := h.laidout.apart hslot.leads hr fun he => hid (by injection he)
      omega
  · have hne : ItemRef.level id' ≠ .level id := fun he => by
      injection he with he
      subst he
      rw [Program.sectionAt_eq hs] at hrt
      cases hrt
    have := h.size_record hr' hs
    have := (h.length_contents hr').2
    have := h.laidout.apart hr' hr hne
    omega

/-- An item lies in one chunk in memory. -/
theorem div_lt {ref : ItemRef} (hr : p.Leads ref) {j : ℕ} (hj : j < (p.item ref).size.toNat) :
    ((q.place ref).toNat + j) / k.addressing.chunkSize.toNat <
      Image.chunksOf k.addressing.chunkSize.toNat b.bytes.size b.chunkCount.toNat := by
  have hsane : k.addressing.chunkSize = k.options.chunkSize := h.sane
  have hin := (h.laidout.lies hr).inside
  have hpad := (h.length_contents hr).2
  have hblock := (h.inside_place hr).block_lt
  have hd := Nat.div_add_mod' (q.place ref).toNat k.addressing.chunkSize.toNat
  rw [← hsane] at hin
  rwa [show ((q.place ref).toNat + j) / k.addressing.chunkSize.toNat =
    (q.place ref).toNat / k.addressing.chunkSize.toNat from Nat.div_eq_of_lt_le (by omega) (by
      rw [Nat.add_one_mul ((q.place ref).toNat / k.addressing.chunkSize.toNat)]
      omega)]

variable {bases : List UInt32} {t : UInt32} {name : UInt32 → String} {st : Stage}
  (hbases : bases.length =
    Image.chunksOf k.addressing.chunkSize.toNat b.bytes.size b.chunkCount.toNat)
  (hl : Linked k.addressing k.options.order (fileOf b.bytes.toList) bases.length
    b.chunkCount.toNat (q.place (.level p.root)) t links name)
  (ho : st.Ok links b.chunkCount.toNat)
include hbases ho

/-- Where nothing is written, an item is held as the file has it. -/
theorem byteAt?_free {ref : ItemRef} (hr : p.Leads ref) {j : ℕ}
    (hj : j < (p.item ref).size.toNat)
    (hfree : ¬ Written links (((q.place ref).toNat + j) / 4 * 4)) :
    (st.loader k.addressing k.options.order bases (fileOf b.bytes.toList)
      b.chunkCount.toNat).byteAt? ((q.place ref).toNat + j) =
        some (fileOf b.bytes.toList ((q.place ref).toNat + j)) := by
  have hheader := h.header_le hr
  have h4 := (h.laidout.lies hr).words
  rw [Stage.loader, Loader.byteAt?_over (by rw [hbases]; exact h.div_lt hr hj),
    ByteOrder.overlay_of_none]
  rw [patches_behind ho (by omega), behind_of_not_written ho hfree]

include hlinks in
/-- **A blob** is held as it is. -/
theorem holds_blob {id : BlobId} (hr : p.Leads (.blob id)) :
    (st.loader k.addressing k.options.order bases (fileOf b.bytes.toList)
      b.chunkCount.toNat).Holds (q.place (.blob id)).toNat (p.store.bytes id) := by
  have hcontents : q.contents k.addressing k.options.order (.blob id) = p.store.bytes id :=
    h.laidout.moved.bytes id
  have hlen := (h.length_contents hr).1
  rw [hcontents] at hlen
  intro j hj
  have hfree := h.not_written_blob hlinks hr (show _ ≤ (q.place (.blob id)).toNat + j by omega)
    (by omega)
  rw [h.byteAt?_free hbases ho hr (by omega) hfree, h.byte_content hr (by rwa [hcontents]),
    hcontents]

include hlinks in
/-- **A part that is no reference** is held as it is, unless the section is a record. -/
theorem holds_plain {id : SectionId} (hr : p.Leads (.level id))
    (hrt : (p.sectionAt id).runtimeFile = false) {l l' : List Part} {part : Part}
    (hparts : (p.sectionAt id).parts = l ++ part :: l') (hnone : p.target? part = none) :
    (st.loader k.addressing k.options.order bases (fileOf b.bytes.toList)
      b.chunkCount.toNat).Holds ((q.place (.level id)).toNat + Part.total l)
        (q.partBytes k.addressing k.options.order part) := by
  have hsmall := (h.laidout.section h.sound hr).1.small part (by rw [hparts]; simp)
  have hstop := h.stop_part_le hr hparts
  intro j hj
  rw [Program.length_partBytes hsmall] at hj
  have hfree := h.not_written_part hlinks hr hrt hparts hnone hj
  rw [Nat.add_assoc] at hfree
  rw [← h.byte_part hr hparts hj, Nat.add_assoc]
  exact h.byteAt?_free hbases ho hr (by omega) hfree

variable {answer : SectionId → UInt32} (hdone : st.done = links)
  (hanswer : ∀ {id : SectionId} {filename : String}, p.Leads (.level id) →
    p.sections[id.index]? = some (Section.record filename) →
      answerAt st.answers (q.place (.level id)).toNat = some (answer id))
include hlinks hslots hl hanswer

omit hbases in
include hdone in
/-- **A reference** is held as the address of its target. -/
theorem holds_reference {id : SectionId} (hr : p.Leads (.level id)) {l l' : List Part} {part : Part}
    (hparts : (p.sectionAt id).parts = l ++ part :: l') {ref : ItemRef}
    (ht : p.target? part = some ref) :
    (st.loader k.addressing k.options.order bases (fileOf b.bytes.toList)
      b.chunkCount.toNat).Holds ((q.place (.level id)).toNat + Part.total l)
        (p.loadedPart k.options.order (fun ref => addressOf k.addressing bases (q.place ref)) answer
          part) := by
  obtain ⟨link, hm, hslot, hrefers⟩ := h.exists_link hslots hlinks hr hparts ht
  have hvalue : p.loadedPart k.options.order (fun ref => addressOf k.addressing bases (q.place ref))
      answer part = k.options.order.wordBytes (link.value k.addressing bases st.answers) := by
    rw [Link.value, hrefers.runtime, hrefers.target]
    cases part with
    | runtimeFile filename record =>
      cases ht
      obtain ⟨_, _, hp, -, hs⟩ := h.refers_record hrefers hrefers.runtime
      cases hp
      rw [hanswer (leads_of_isSlot hrefers.slot) hs]
      rfl
    | blob | level => cases ht; rfl
    | _ => cases ht
  have hin := hl.slot_inside link hm
  rw [hvalue, ← hslot]
  exact Loader.holds_word hin.reaches.words hin.block_lt (hl.patches_done ho (hdone ▸ hm))

include hdone in
/-- **A part** is held behind those before it. -/
theorem holds_part {id : SectionId} (hr : p.Leads (.level id))
    (hrt : (p.sectionAt id).runtimeFile = false) {l l' : List Part} {part : Part}
    (hparts : (p.sectionAt id).parts = l ++ part :: l') :
    (st.loader k.addressing k.options.order bases (fileOf b.bytes.toList)
      b.chunkCount.toNat).Holds ((q.place (.level id)).toNat + Part.total l)
        (p.loadedPart k.options.order (fun ref => addressOf k.addressing bases (q.place ref)) answer
          part) := by
  cases ht : p.target? part with
  | some ref => exact h.holds_reference hslots hlinks hl ho hdone hanswer hr hparts ht
  | none =>
    have hbytes : p.loadedPart k.options.order
        (fun ref => addressOf k.addressing bases (q.place ref)) answer part =
          q.partBytes k.addressing k.options.order part := by
      cases part <;> first | rfl | cases ht
    rw [hbytes]
    exact h.holds_plain hlinks hbases ho hr hrt hparts ht

/-- **A record** is held with the address of its file in its first word. -/
theorem holds_record {id : SectionId} {filename : String} (hr : p.Leads (.level id))
    (hs : p.sections[id.index]? = some (Section.record filename)) :
    (st.loader k.addressing k.options.order bases (fileOf b.bytes.toList)
      b.chunkCount.toNat).Holds (q.place (.level id)).toNat
        (k.options.order.wordBytes (answer id) ++ (Utf8.encode filename ++ [0])) := by
  have hin := h.inside_place hr
  have hsize := h.size_record hr hs
  have hcontents : q.contents k.addressing k.options.order (.level id) =
      [0, 0, 0, 0] ++ (Utf8.encode filename ++ [0]) := contents_record h.laidout.moved hs
  have hlen := k.options.order.length_wordBytes (answer id)
  obtain ⟨link, hm, hrt, ht⟩ := h.exists_link_record hslots hlinks hr hs
  have hword : st.patches k.addressing bases b.chunkCount.toNat link.target.toNat = _ :=
    hl.patches_record ho hm hrt
  rw [ht, hanswer hr hs] at hword
  refine Loader.holds_append (Loader.holds_word hin.reaches.words
    (by rw [hbases]; exact hin.block_lt) hword) fun j hj => ?_
  rw [List.length_append, List.length_singleton] at hj
  have hfree := h.not_written_record hlinks hr hs
    (x := ((q.place (.level id)).toNat + (4 + j)) / 4 * 4) (by omega) (by omega)
  rw [hlen, Nat.add_assoc, h.byteAt?_free hbases ho hr (by omega) hfree,
    h.byte_content hr (by rw [hcontents]; simp; omega), hcontents,
    List.getElem?_append_right (by simp)]
  simp

include hdone in
/-- **Every item that the root leads to** is held with its references resolved. -/
theorem holds_loaded {ref : ItemRef} (hr : p.Leads ref) :
    (st.loader k.addressing k.options.order bases (fileOf b.bytes.toList)
      b.chunkCount.toNat).Holds (q.place ref).toNat
        (p.loaded k.options.order (fun ref => addressOf k.addressing bases (q.place ref)) answer
          ref) := by
  cases ref with
  | blob id => exact h.holds_blob hlinks hbases ho hr
  | level id =>
    rw [Program.loaded]
    cases hrt : (p.sectionAt id).runtimeFile with
    | false =>
      simp only [Bool.false_eq_true, if_false]
      refine Loader.holds_flatMap fun l part l' hparts => ?_
      have hsmall := (h.laidout.section h.sound hr).1.small
      rw [Program.length_flatMap_loadedPart fun part hm => hsmall part (by
        rw [hparts]
        exact List.mem_append_left _ hm)]
      exact h.holds_part hslots hlinks hbases hl ho hdone hanswer hr hrt hparts
    | true =>
      obtain ⟨s', hs⟩ := h.sound.holds hr
      rw [Program.sectionAt_eq hs] at hrt
      obtain ⟨filename, rfl⟩ := h.sound.state.record hs hrt
      have := h.holds_record hslots hlinks hbases hl ho hanswer hr hs
      simpa only [Program.sectionAt_eq hs, Section.record, Section.recordParts, if_true,
        List.drop_succ_cons, List.drop_zero, List.flatMap_cons, List.flatMap_nil,
        Program.loadedPart, List.append_nil] using this

end Filed

end LevelBundle
