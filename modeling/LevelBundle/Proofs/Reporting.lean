/-
  LevelBundle — what a bundle file says of itself.

  * `Addressing.fileOffset_positionAt`: a position names the offset that it was made for.
  * `Report.readFixups_of_row`, `Report.decode_front`: the fixup table and the words in
    front are read as they were written.
  * `Report.Tells`: what a report says of a packed program, and of the references that
    stand in its file.
  * `pack_report`: the report on the file of a packed program says so.
-/
import LevelBundle.Bundle.Report
import LevelBundle.Proofs.Linking
import LevelBundle.Proofs.PackedFile

namespace LevelBundle

/-! ## Positions -/

namespace Addressing

variable {a : Addressing} {o flags : UInt32}

theorem fileOffset_positionAt (h : a.Reaches o) (hf : flags.toNat < 4) :
    a.fileOffset (a.positionAt o flags) = o.toNat := by
  rw [fileOffset, block_positionAt h hf, offset_positionAt h hf, Nat.div_add_mod']

theorem isUnresolved_positionAt (h : a.Reaches o) (hf : flags.toNat < 4)
    (h1 : flags.toNat % 2 = 1) : (a.positionAt o flags).isUnresolved = true :=
  Position.isUnresolved_of_flags (flags_positionAt h hf) h1

end Addressing

theorem Addressing.isRuntimeFile_positionAt {a : Addressing} {o : UInt32} (h : a.Reaches o)
    (part : Part) : (a.positionAt o part.flags).isRuntimeFile = part.isRuntime := by
  rw [Position.isRuntimeFile_eq, flags_positionAt h part.flags_lt]
  cases part <;> simp only [Part.flags, Part.isRuntime] <;> decide

/-! ## Reading a file -/

namespace Report

variable {a : Addressing} {data : Array UInt8} {order : ByteOrder} {count : UInt32}
  {start table : Position}

/-- **A fixup table** is read as the positions that stand in it. -/
theorem readFixups_of_row {c : Cursor} {ps : List Position} (offset : ℕ)
    (h : c.Faces (ps.map Position.word ++ [0])) (hp : ∀ p ∈ ps, p.isUnresolved = true) :
    readFixups a offset c = .ok (ps.map a.place, c.seek (c.pos + 4 * (ps.length + 1))) := by
  induction ps generalizing c with
  | nil =>
    rw [readFixups_eq, h.peek?]
    rfl
  | cons p ps ih =>
    have hun := hp p (by simp)
    have hpos : c.skipWord.pos + 4 * (ps.length + 1) = c.pos + 4 * (ps.length + 1 + 1) := by
      show c.pos + 4 + _ = _
      omega
    have h0 : p.word ≠ 0 := by
      rintro h0
      rw [Position.isUnresolved, h0] at hun
      cases hun
    rw [readFixups_eq, h.peek?]
    simp only
    rw [if_neg h0, if_pos hun, ih h.skipWord fun p' hp' => hp p' (by simp [hp']), hpos]
    rfl

/-- What the words in front say. -/
def front (a : Addressing) (data : Array UInt8) (count : UInt32) (start : Position) : Report where
  size := data.size
  crc32 := Checksum.crc32 data
  chunkSize := a.chunkSize
  chunkCount := count
  headerSize := (4 * (count.toNat + 3)).toUInt32
  start := a.place start
  fixupTable := none
  fixups := []

/-- **The words in front** are read, and then the fixup table that they lead to. -/
theorem decode_front (h : Cursor.Faces { data, order } (headerRow count start table))
    (hs : start.isUnresolved = true) : decode data a.chunkSize order =
      if table.isNull then .ok (front a data count start)
      else do
        let offset := a.fileOffset table
        let (fixups, after) ← readFixups a offset { data, order, pos := offset }
        let stop := if offset = 4 * (count.toNat + 3) then after.pos else 4 * (count.toNat + 3)
        return { front a data count start with
          headerSize := stop.toUInt32, fixupTable := some (a.place table), fixups } := by
  have hrow : headerRow count start table =
      (List.replicate count.toNat chunkFiller ++ [0]) ++ [start.word, table.word] := by
    rw [headerRow, List.append_assoc]; rfl
  rw [hrow] at h
  have hbehind := h.drop
  rw [List.length_append, List.length_replicate, List.length_singleton, Nat.zero_add] at hbehind
  have hchunks := Cursor.chunkTable_of_row h.left
  have hstart := hbehind.readWord
  have htable := hbehind.skipWord.readWord
  have hpos : 4 * (count.toNat + 1) + 4 + 4 = 4 * (count.toNat + 3) := by omega
  simp only [Cursor.skipWord, Cursor.seek, hpos] at hstart htable
  rw [decode, Image.ofChunkSize_chunkSize, hchunks]
  simp only [Except.mapError, Cursor.seek, hstart, htable, hs, if_true, bind, Except.bind, pure,
    Except.pure]
  split_ifs <;> rfl

end Report

/-! ## Packed programs -/

/-- What a report says of a packed bundle, and what stands in its file: `p` is the program
    as it was compiled, and `q` the same program once it is placed. -/
structure Report.Tells (a : Addressing) (options : PackOptions) (p q : Program) (b : Bundle)
    (r : Report) : Prop where
  /-- The chunks are counted. -/
  chunkCount : r.chunkCount = b.chunkCount
  /-- The start position is that of the bundle. -/
  start : r.start.position = b.start
  /-- It leads to the root. -/
  root : (q.offsetOf? (.level p.root)).map UInt32.toNat = some r.start.fileOffset
  /-- There is a fixup table unless the options leave it out. -/
  absent_iff : r.fixupTable = none ↔ options.fixups = .absent
  /-- It lies where the bundle says. -/
  table : r.fixupTable.map Place.fileOffset = b.fixupTable.map UInt32.toNat
  /-- The header is as long as the bundle says, unless the table lies at the end. -/
  headerSize : options.fixups ≠ .tail → r.headerSize = b.headerSize
  /-- What the root leads to is placed, and nothing else. -/
  placed : ∀ ref, (∃ o, q.offsetOf? ref = some o) ↔ p.Leads ref
  /-- The entries of the table are in order, each once. -/
  increasing : (r.fixups.map Place.fileOffset).Pairwise (· < ·)
  /-- They are the slots of the references of placed sections. -/
  mem_iff : options.fixups ≠ .absent → ∀ x : ℕ, x ∈ r.fixups.map Place.fileOffset ↔
    ∃ id part ref o, p.IsSlot q id part ref o ∧ o.toNat = x
  /-- A slot holds the position of its target, which is marked if that is a record. -/
  slot : ∀ {id part ref o}, p.IsSlot q id part ref o → ∃ position : Position,
    options.order.wordAt? b.bytes o.toNat = some position.word ∧ position.isUnresolved = true ∧
      (q.offsetOf? ref).map UInt32.toNat = some (a.fileOffset position) ∧
      position.isRuntimeFile = part.isRuntime

namespace Filed

variable {ctx : CompileContext} {pad : UInt32} {k : Packer} {p q : Program} {s : Settled}
  {b : Bundle} {refs : List UInt32} (h : Filed ctx pad k p q s b refs)
include h

theorem reaches_place {ref : ItemRef} (hr : p.Leads ref) : k.addressing.Reaches (q.place ref) :=
  h.laidout.reaches_place h.sane h.accepts.capacity_le hr

theorem reaches_ref {o : UInt32} (ho : o ∈ refs) : k.addressing.Reaches o := by
  obtain ⟨placed, body, gap, border, hf⟩ := h.file
  obtain ⟨id, part, ref, hslot⟩ := hf.slots.mem_iff.1 ho
  exact h.laidout.reaches_slot h.sound h.grain h.sane h.accepts.capacity_le hslot

theorem faces_front : Cursor.Faces { data := b.bytes, order := k.options.order }
    (headerRow b.chunkCount b.start (b.tablePosition k.addressing)) := by
  obtain ⟨r, hr⟩ := h.front_prefix
  exact ⟨[], r, hr, rfl⟩

theorem start_eq : b.start = k.addressing.positionAt (q.place (.level p.root))
    Position.unresolvedFlag := by
  obtain ⟨placed, body, gap, border, hf⟩ := h.file
  exact hf.start

/-- Without a table there is nothing behind the words in front. -/
theorem report_absent (habs : k.options.fixups = .absent) :
    b.fixupTable = none ∧ b.headerSize.toNat = 4 * (b.chunkCount.toNat + 3) ∧
      Report.decode b.bytes k.addressing.chunkSize k.options.order =
        .ok (Report.front k.addressing b.bytes b.chunkCount b.start) := by
  obtain ⟨placed, body, gap, border, hf⟩ := h.file
  have hnone : b.fixupTable = none := by
    have htable := hf.table
    generalize b.fixupTable = o at htable ⊢
    cases htable with
    | absent => rfl
    | front hm | tail hm => rw [habs] at hm; cases hm
  refine ⟨hnone, ?_, ?_⟩
  · rw [hf.headerSize, Bundle.headerBytes, if_neg (by rw [habs]; decide), List.append_nil,
      ByteOrder.length_rowBytes, length_headerRow]
  · rw [Report.decode_front h.faces_front, if_pos]
    · rw [Bundle.tablePosition, hnone]
      rfl
    · rw [h.start_eq]
      exact Addressing.isUnresolved_positionAt (h.reaches_place .root) (by decide) (by decide)

/-- **The report on a file with a fixup table.** -/
theorem report_table (hne : k.options.fixups ≠ .absent) :
    ∃ t, b.fixupTable = some t ∧ k.addressing.Reaches t ∧
      Report.decode b.bytes k.addressing.chunkSize k.options.order =
        .ok { Report.front k.addressing b.bytes b.chunkCount b.start with
          headerSize := (if t.toNat = 4 * (b.chunkCount.toNat + 3) then
            t.toNat + 4 * (refs.length + 1) else 4 * (b.chunkCount.toNat + 3)).toUInt32
          fixupTable := some (k.addressing.place
            (k.addressing.positionAt t Position.unresolvedFlag))
          fixups := refs.map fun o => k.addressing.place
            (k.addressing.positionAt o Position.unresolvedFlag) } := by
  obtain ⟨t, ht, hlies⟩ := h.table hne
  obtain ⟨l, r, hbytes, hl⟩ := h.table_bytes ht
  have hreach := hlies.reaches
  have hflag : Position.unresolvedFlag.toNat < 4 := by decide
  have htable : b.tablePosition k.addressing =
      k.addressing.positionAt t Position.unresolvedFlag := by
    rw [Bundle.tablePosition, ht]
  have hnull : ¬ (b.tablePosition k.addressing).isNull = true := by
    rw [htable, Position.isNull, beq_iff_eq]
    exact Addressing.positionAt_ne_zero hreach hflag (by decide)
  have hfaces : Cursor.Faces { data := b.bytes, order := k.options.order, pos := t.toNat }
      ((refs.map fun o => k.addressing.positionAt o Position.unresolvedFlag).map Position.word ++
        [0]) := by
    rw [List.map_map]
    exact ⟨l, r, hbytes, hl⟩
  have hread := Report.readFixups_of_row (a := k.addressing) t.toNat hfaces fun p hp => by
    obtain ⟨o, ho, rfl⟩ := List.mem_map.1 hp
    exact Addressing.isUnresolved_positionAt (h.reaches_ref ho) hflag (by decide)
  rw [List.map_map, List.length_map] at hread
  refine ⟨t, ht, hreach, ?_⟩
  rw [Report.decode_front h.faces_front, if_neg hnull]
  · simp only [htable, Addressing.fileOffset_positionAt hreach hflag, hread]
    rfl
  · rw [h.start_eq]
    exact Addressing.isUnresolved_positionAt (h.reaches_place .root) hflag (by decide)

/-- The words of slots, as they are read from the file. -/
theorem wordAt?_slot {id : SectionId} {part : Part} {ref : ItemRef} {o : UInt32}
    (hslot : p.IsSlot q id part ref o) : k.options.order.wordAt? b.bytes o.toNat =
      some (k.addressing.positionAt (q.place ref) part.flags).word := by
  obtain ⟨placed, body, gap, border, hf⟩ := h.file
  have hstop := hf.covers.stop_le _ (h.mem_placed hslot.leads hf)
  have hlies := (h.laidout.slotLies h.sound hslot).stop_le
  have hpad := (h.length_contents hslot.leads).2
  have hsize : o.toNat + 4 ≤ b.bytes.size := by
    rw [← Array.length_toList, hf.bytes, List.append_assoc, List.length_append]
    unfold stopOf at hstop
    simp only at hstop
    omega
  rw [ByteOrder.wordAt?_eq_wordOf hsize, h.wordOf_slot hslot]

/-- The table that is read, in either case. -/
theorem exists_report : ∃ r, Report.decode b.bytes k.addressing.chunkSize k.options.order = .ok r ∧
    r.chunkCount = b.chunkCount ∧ r.start = k.addressing.place b.start ∧
    (r.fixupTable = none ↔ k.options.fixups = .absent) ∧
    r.fixupTable.map Place.fileOffset = b.fixupTable.map UInt32.toNat ∧
    (k.options.fixups ≠ .tail → r.headerSize = b.headerSize) ∧
    r.fixups.map Place.fileOffset =
      if k.options.fixups = .absent then [] else refs.map UInt32.toNat := by
  by_cases habs : k.options.fixups = .absent
  · obtain ⟨hnone, hsize, hdecode⟩ := h.report_absent habs
    refine ⟨_, hdecode, rfl, rfl, by simp [Report.front, habs], by rw [hnone]; rfl, fun _ => ?_,
      by rw [if_pos habs]; rfl⟩
    show (4 * (b.chunkCount.toNat + 3)).toUInt32 = b.headerSize
    rw [← hsize]
    exact UInt32.ofNat_toNat
  · obtain ⟨t, ht, hreach, hdecode⟩ := h.report_table habs
    obtain ⟨placed, body, gap, border, hf⟩ := h.file
    refine ⟨_, hdecode, rfl, rfl, by simp [habs], ?_, fun hfront => ?_, ?_⟩
    · rw [ht]
      exact congrArg some (Addressing.fileOffset_positionAt hreach (by decide))
    · have hfront : k.options.fixups = .front := by
        cases hm : k.options.fixups <;> simp_all
      have hpos : t.toNat = 4 * (b.chunkCount.toNat + 3) := by
        have htable := hf.table
        rw [ht] at htable
        cases htable with
        | front _ hpos => exact hpos
        | tail hm => rw [hfront] at hm; cases hm
      have hsize : b.headerSize.toNat = t.toNat + 4 * (refs.length + 1) := by
        rw [hf.headerSize, Bundle.headerBytes, if_pos hfront, ByteOrder.length_rowBytes,
          List.length_append, length_headerRow, length_tableRow, hpos]
        omega
      simp only [if_pos hpos, ← hsize]
      exact UInt32.ofNat_toNat
    · rw [if_neg habs, List.map_map]
      refine List.map_congr_left fun o ho => ?_
      exact Addressing.fileOffset_positionAt (h.reaches_ref ho) (by decide)

end Filed

variable {s : Settings} {files : Files} {table : SectionTable} {p q : Program} {b : Bundle}

/-- **The report on the file of a packed program**: it can be read, and what it says of the
    header, of the fixup table and of the references is true of the program. -/
theorem pack_report (h : p.Fresh s files table) (hp : p.pack s.pack = (.ok b, q)) :
    ∃ a r, Addressing.ofChunkSize s.pack.chunkSize = .ok a ∧
      Report.decode b.bytes s.pack.chunkSize s.pack.order = .ok r ∧ r.Tells a s.pack p q b := by
  obtain ⟨k, l, refs, hopt, hf⟩ := h.filed hp
  obtain ⟨r, hdecode, hcount, hstart, habsent, htable, hheader, hfixups⟩ := hf.exists_report
  obtain ⟨placed, body, gap, border, hfile⟩ := hf.file
  have hchunk : k.addressing.chunkSize = s.pack.chunkSize := hopt ▸ hf.sane
  have hmem {ref : ItemRef} (hr : p.Leads ref) : q.offsetOf? ref = some (q.place ref) :=
    hf.laidout.placed hr
  rw [hopt] at habsent hheader hfixups
  rw [hchunk, hopt] at hdecode
  refine ⟨k.addressing, r, hchunk ▸ Image.ofChunkSize_chunkSize _, hdecode, ?_⟩
  constructor
  case chunkCount => exact hcount
  case start => rw [hstart]; rfl
  case root =>
    rw [hmem .root, hstart, hf.start_eq]
    exact congrArg some
      (Addressing.fileOffset_positionAt (hf.reaches_place .root) (by decide)).symm
  case absent_iff => exact habsent
  case table => exact htable
  case headerSize => exact hheader
  case placed =>
    intro ref
    by_cases hr : p.Leads ref
    · exact ⟨fun _ => hr, fun _ => ⟨_, hmem hr⟩⟩
    · simp [hf.laidout.unplaced hr, hr]
  case increasing =>
    rw [hfixups]
    split_ifs
    · exact .nil
    · exact List.pairwise_map.2 hfile.slots.increasing
  case mem_iff =>
    intro hne x
    rw [hfixups, if_neg hne, List.mem_map]
    constructor
    · rintro ⟨o, ho, rfl⟩
      obtain ⟨id, part, ref, hslot⟩ := hfile.slots.mem_iff.1 ho
      exact ⟨id, part, ref, o, hslot, rfl⟩
    · rintro ⟨id, part, ref, o, hslot, rfl⟩
      exact ⟨o, hfile.slots.mem_iff.2 ⟨id, part, ref, hslot⟩, rfl⟩
  case slot =>
    intro id part ref o hslot
    have hr := Filed.leads_of_isSlot hslot
    have hreach := hf.reaches_place hr
    refine ⟨k.addressing.positionAt (q.place ref) part.flags, hopt ▸ hf.wordAt?_slot hslot, ?_, ?_,
      Addressing.isRuntimeFile_positionAt hreach part⟩
    · exact Addressing.isUnresolved_positionAt hreach part.flags_lt part.flags_odd
    · rw [hmem hr, Addressing.fileOffset_positionAt hreach part.flags_lt]
      rfl

/-- The report on a small bundle. -/
theorem pack_report_demo : ∃ table p q b a r, Program.Fresh Demo.settings Demo.files table p ∧
    p.pack Demo.settings.pack = (.ok b, q) ∧
    Report.decode b.bytes Demo.settings.pack.chunkSize Demo.settings.pack.order = .ok r ∧
    Report.Tells a Demo.settings.pack p q b r := by
  obtain ⟨b, stats, hb⟩ := Demo.build_ok
  obtain ⟨table, p, q, hbuilt⟩ := build_eq_ok hb
  have hfresh := hbuilt.fresh Demo.buildable
  obtain ⟨a, r, -, hdecode, htells⟩ := pack_report hfresh hbuilt.packed
  exact ⟨table, p, q, b, a, r, hfresh, hbuilt.packed, hdecode, htells⟩

end LevelBundle
