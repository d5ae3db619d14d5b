/-
  LevelBundle — the file of a bundle.

  * `Bundle.File`: what the file holds, part by part: the words in front, the
    contents of the items with zeros between them, the zeros behind them, and the
    fixup table.
  * `emit_file`: this is what emission writes.
-/
import LevelBundle.Proofs.Emission

namespace LevelBundle

/-- The position of the fixup table; null if there is none. -/
def Bundle.tablePosition (b : Bundle) (a : Addressing) : Position :=
  match b.fixupTable with
  | none => .null
  | some t => a.positionAt t Position.unresolvedFlag

/-- The bytes before the first item: the words in front, and the fixup table if it
    lies there. -/
def Bundle.headerBytes (b : Bundle) (k : Packer) (slots : List UInt32) : Bytes :=
  k.options.order.rowBytes (headerRow b.chunkCount b.start (b.tablePosition k.addressing) ++
    if k.options.fixups = .front then tableRow k.addressing slots else [])

/-- Where the fixup table lies in a file with this many chunks, if there is one.
    `stop` is the end of what lies before a table at the end, and `border` the number
    of zeros between the two. -/
inductive TableAt (k : Packer) (slots : List UInt32) (capacity stop : ℕ) :
    Option UInt32 → (border : ℕ) → Prop
  /-- There is none. -/
  | absent : k.options.fixups = .absent → TableAt k slots capacity stop none 0
  /-- It lies behind the words in front. -/
  | front {t : UInt32} : k.options.fixups = .front → t.toNat = 4 * (capacity + 3) →
    k.addressing.Reaches t → TableAt k slots capacity stop (some t) 0
  /-- It lies at the end, behind zeros up to a chunk border if it would cross that;
      the block of its chunk is at most the number of chunks. -/
  | tail {t : UInt32} : k.options.fixups = .tail →
    t.toNat = stop + Packer.borderZeros stop k.options.chunkSize.toNat (4 * (slots.length + 1)) →
    k.addressing.Reaches t → t.toNat / k.options.chunkSize.toNat ≤ capacity →
    t.toNat % k.options.chunkSize.toNat + 4 * (slots.length + 1) ≤ k.options.chunkSize.toNat →
    TableAt k slots capacity stop (some t)
      (Packer.borderZeros stop k.options.chunkSize.toNat (4 * (slots.length + 1)))

/-- **What the file of a bundle holds**, part by part: `refs` are the slots of the
    references, `placed` the items with their offsets, `body` the bytes between the
    header and the end of the last item, and `gap` and `border` the numbers of zeros
    up to a sector and up to a chunk border. -/
structure Bundle.File (k : Packer) (p q : Program) (b : Bundle) (refs : List UInt32)
    (placed : List (Item × UInt32)) (body : Bytes) (gap border : ℕ) : Prop where
  /-- The chunks have the size asked for. -/
  chunkSize : b.chunkSize = k.options.chunkSize
  /-- The slots are those of all references, in increasing order. -/
  slots : Packer.Slots p q refs
  /-- They are counted. -/
  fixupCount : b.fixupCount = refs.length
  /-- The start position is that of the root. -/
  start : b.start = k.addressing.positionAt (q.place (.level p.root)) Position.unresolvedFlag
  /-- The header is as long as the bundle says. -/
  headerSize : b.headerSize.toNat = (b.headerBytes k refs).length
  /-- Every item that the root leads to is placed, once. -/
  perm : placed.Perm (p.reachable.map fun ref => (p.item ref, q.place ref))
  /-- The items are listed in the order of their offsets. -/
  sorted : placed.Pairwise fun e e' => e.2.toNat ≤ e'.2.toNat
  /-- The placements of the bundle are these. -/
  placements : b.placements = placed.map fun e =>
    ⟨e.2, e.1.size, e.1.padSize, e.1.kind, e.1.name⟩
  /-- An item takes as many bytes as its placement says. -/
  size : ∀ e ∈ placed, (q.contents k.addressing k.options.order e.1.ref).length = e.1.size.toNat
  /-- The parts of the file. -/
  bytes : b.bytes.toList = b.headerBytes k refs ++ body ++ List.replicate (gap + border) 0 ++
    k.options.order.rowBytes (if k.options.fixups = .tail then tableRow k.addressing refs else [])
  /-- Each item stands at its offset, and zeros stand everywhere else. -/
  covers : Covers (b.headerBytes k refs) placed (q.contents k.addressing k.options.order)
    (b.headerBytes k refs ++ body)
  /-- The body ends with the last item. -/
  last : ∃ e ∈ placed, (b.headerBytes k refs ++ body).length = stopOf e
  /-- Zeros go on to a whole number of sectors. -/
  sector : gap = Packer.sectorZeros (b.headerBytes k refs ++ body).length
    k.options.sectorSize.toNat
  /-- The fixup table lies where the bundle says. -/
  table : TableAt k refs b.chunkCount.toNat ((b.headerBytes k refs ++ body).length + gap)
    b.fixupTable border

/-! ## Bytes behind a header -/

/-- The words in front do not matter to what stands behind them. -/
theorem Covers.head_congr {head head' body : Bytes} {entries : List (Item × UInt32)}
    {contents : ItemRef → Bytes} (h : Covers head entries contents (head ++ body))
    (hl : head'.length = head.length) (he : ∀ e ∈ entries, head.length ≤ e.2.toNat) :
    Covers head' entries contents (head' ++ body) := by
  have hlen : (head' ++ body).length = (head ++ body).length := by
    rw [List.length_append, List.length_append, hl]
  have get {x : ℕ} (hx : head.length ≤ x) : (head' ++ body)[x]? = (head ++ body)[x]? := by
    rw [List.getElem?_append_right (by omega), List.getElem?_append_right hx, hl]
  refine ⟨⟨body, rfl⟩, fun e hm => hlen ▸ h.stop_le e hm, by rw [hlen, hl]; exact h.length_eq,
    fun e hm j hj => ?_, fun x h1 h2 hx => ?_⟩
  · rw [get (by have := he e hm; omega)]
    exact h.content e hm j hj
  · rw [get (by omega)]
    exact h.zero x (by omega) (by omega) hx

theorem Covers.last {head bytes : Bytes} {entries : List (Item × UInt32)}
    {contents : ItemRef → Bytes} (h : Covers head entries contents bytes) {e : Item × UInt32}
    (he : e ∈ entries) (hle : head.length ≤ e.2.toNat) :
    ∃ e ∈ entries, bytes.length = stopOf e := by
  rcases h.length_eq with hl | h
  · have := h.stop_le e he
    unfold stopOf at this ⊢
    exact ⟨e, he, by omega⟩
  · exact h

namespace Packer

variable {k : Packer} {p q : Program} {s : Settled} {b : Bundle} {ctx : CompileContext}
  {pad : UInt32}

/-! ## The header -/

theorem rowBytes_headerRow (order : ByteOrder) (capacity : UInt32) (start : Position) :
    ∃ l : Bytes, l.length = 4 * (capacity.toNat + 2) ∧ ∀ table : Position,
      order.rowBytes (headerRow capacity start table) = l ++ order.wordBytes table.word := by
  refine ⟨order.rowBytes (List.replicate capacity.toNat chunkFiller ++ [0, start.word]), ?_,
    fun table => ?_⟩
  · simp
  · rw [headerRow, show [0, start.word, table.word] = [0, start.word] ++ [table.word] from rfl,
      ← List.append_assoc, ByteOrder.rowBytes_append, ByteOrder.rowBytes_cons,
      ByteOrder.rowBytes_nil, List.append_nil]

/-- What the header consists of before the items are written. -/
structure Headed (k : Packer) (capacity : UInt32) (start : Position) (slots : List UInt32)
    (tableWord : UInt32) (header : Buffer) : Prop where
  order : header.order = k.options.order
  tableWord_eq : tableWord.toNat = 4 * (capacity.toNat + 2)
  behind_eq : (tableWord + wordSize).toNat = 4 * (capacity.toNat + 3)
  front : k.options.fixups = .front → k.addressing.Reaches (tableWord + wordSize) ∧
    header.contents = k.options.order.rowBytes (headerRow capacity start
      (k.addressing.positionAt (tableWord + wordSize) Position.unresolvedFlag) ++
      tableRow k.addressing slots)
  behind : k.options.fixups ≠ .front →
    header.contents = k.options.order.rowBytes (headerRow capacity start .null)

variable {refs : List UInt32} {header body file : Buffer} {table : Option UInt32}

/-- **The header**, with the fixup table if it lies there. -/
theorem headed {capacity : UInt32} {start : Position}
    (hheader : (if k.options.fixups = .front then
        k.emitFixups (k.emitHeader capacity start) ((k.emitHeader capacity start).offset - wordSize)
          refs
      else pure (k.emitHeader capacity start)) = .ok header)
    (hcap : 4 * (capacity.toNat + 3) < 2 ^ 32) :
    Headed k capacity start refs ((k.emitHeader capacity start).offset - wordSize) header := by
  obtain ⟨ho, hc⟩ := emitHeader_contents k capacity start
  obtain ⟨l, hl, hrow⟩ := rowBytes_headerRow k.options.order capacity start
  have hw : wordSize.toNat = 4 := rfl
  have hlen : (k.emitHeader capacity start).contents.length = 4 * (capacity.toNat + 3) := by
    rw [hc, ByteOrder.length_rowBytes, length_headerRow]
  have hoff := Buffer.toNat_offset (hlen ▸ hcap)
  have hword : ((k.emitHeader capacity start).offset - wordSize).toNat =
      4 * (capacity.toNat + 2) := by
    rw [UInt32.toNat_sub_of_le _ _ (UInt32.le_iff_toNat_le.2 (by omega)), hoff, hlen, hw]
    omega
  have hbehind : ((k.emitHeader capacity start).offset - wordSize + wordSize).toNat =
      4 * (capacity.toNat + 3) := by
    rw [UInt32.sub_add_cancel, hoff, hlen]
  by_cases hf : k.options.fixups = .front
  · rw [if_pos hf] at hheader
    have hb : (k.emitHeader capacity start).contents =
        l ++ (k.emitHeader capacity start).order.wordBytes Position.null.word ++ [] := by
      rw [hc, hrow, ho, List.append_nil]
    obtain ⟨horder, hreach, hcontents⟩ := emitFixups_spec hb (by omega) hheader
    refine ⟨horder.trans ho, hword, hbehind, fun _ => ⟨?_, ?_⟩, fun h => absurd hf h⟩
    · rwa [UInt32.sub_add_cancel]
    · rw [UInt32.sub_add_cancel, hcontents, ho, ByteOrder.rowBytes_append, hrow, List.append_nil]
  · rw [if_neg hf] at hheader
    obtain rfl := pure_eq_ok.1 hheader
    exact ⟨ho, hword, hbehind, fun h => absurd h hf, fun _ => hc⟩

theorem Headed.length {capacity tableWord : UInt32} {start : Position} {fixups : ℕ}
    (h : Headed k capacity start refs tableWord header) (hlen : refs.length = fixups) :
    header.contents.length = k.headerSize capacity fixups := by
  unfold headerSize
  by_cases hf : k.options.fixups = .front
  · rw [(h.front hf).2, if_pos hf, ByteOrder.length_rowBytes, List.length_append,
      length_headerRow, length_tableRow]
    omega
  · rw [h.behind hf, if_neg hf, ByteOrder.length_rowBytes, length_headerRow]
    omega

/-- The words in front end with the position of the table. -/
theorem Headed.exists_tableWord {capacity tableWord : UInt32} {start : Position}
    (h : Headed k capacity start refs tableWord header) (ho : body.order = k.options.order)
    {rest : Bytes} (hrest : body.contents = header.contents ++ rest) {l : Bytes}
    (hrow : ∀ table : Position, k.options.order.rowBytes (headerRow capacity start table) =
      l ++ k.options.order.wordBytes table.word) :
    ∃ (w : UInt32) (r : Bytes), body.contents = l ++ body.order.wordBytes w ++ r := by
  rw [hrest, ho]
  by_cases hf : k.options.fixups = .front
  · rw [(h.front hf).2, ByteOrder.rowBytes_append, hrow, List.append_assoc]
    exact ⟨_, _, rfl⟩
  · rw [h.behind hf, hrow]
    exact ⟨_, _, rfl⟩

theorem le_headerSize (k : Packer) (capacity : UInt32) (fixups : ℕ) :
    4 * (capacity.toNat + 3) ≤ k.headerSize capacity fixups := by
  unfold headerSize
  omega

/-- **The items**, behind the header. -/
theorem written (hbody : k.emitItems q header (inOrder p.items s.layout) = .ok body)
    (hp : p.Sound ctx pad) (g : Grain ctx.chunkSize pad) (hk : k.Sane) (hl : Laidout k p q s)
    (hcap : s.capacity ≤ k.maxChunks) (ho : header.order = k.options.order)
    (hlen : header.contents.length = s.headerSize.toNat) :
    body.order = k.options.order ∧
      Covers header.contents (inOrder p.items s.layout)
        (q.contents k.addressing k.options.order) body.contents ∧
      (∃ e ∈ inOrder p.items s.layout, body.contents.length = stopOf e) ∧
      body.contents.length ≤ s.capacity.toNat * k.options.chunkSize.toNat ∧
      ∀ e ∈ inOrder p.items s.layout, header.contents.length ≤ e.2.toNat := by
  obtain ⟨hw, hap⟩ := hl.writable hp g hk hcap hlen
  obtain ⟨horder, hcov⟩ := emitItems_covers ho hbody (Covers.nil _ _)
    (hlen ▸ s.headerSize.toNat_lt) hw hap
  have hmem {ref : ItemRef} (hr : p.Leads ref) :
      (p.item ref, q.place ref) ∈ inOrder p.items s.layout :=
    hl.inOrder.1.mem_iff.2 (List.mem_map_of_mem (hp.mem_reachable_iff.2 hr))
  have hlast := hcov.last (hmem .root) (hw _ (hmem .root)).head_le
  refine ⟨horder, hcov, hlast, ?_, fun e he => (hw e he).head_le⟩
  obtain ⟨e, he, hstop⟩ := hlast
  obtain ⟨ref, hr, rfl⟩ := List.mem_map.1 (hl.inOrder.1.mem_iff.1 he)
  rw [hstop]
  exact (hl.stop_lt hk hcap (hp.mem_reachable_iff.1 hr)).1

/-- What the words in front, the zeros and the fixup table depend on. -/
structure Stages.Ends (k : Packer) (b : Bundle) (refs : List UInt32)
    (contents : ItemRef → Bytes) (placed : List (Item × UInt32)) (body : Bytes)
    (gap border : ℕ) : Prop where
  bytes : b.bytes.toList = b.headerBytes k refs ++ body ++ List.replicate (gap + border) 0 ++
    k.options.order.rowBytes (if k.options.fixups = .tail then tableRow k.addressing refs else [])
  length : (b.headerBytes k refs).length = b.headerSize.toNat
  covers : Covers (b.headerBytes k refs) placed contents (b.headerBytes k refs ++ body)
  sector : gap = sectorZeros (b.headerBytes k refs ++ body).length k.options.sectorSize.toNat
  table : TableAt k refs b.chunkCount.toNat ((b.headerBytes k refs ++ body).length + gap)
    b.fixupTable border

section

variable (h : Stages k q p.items s b refs header body file table)
  (hd : Headed k s.capacity b.start refs ((k.emitHeader s.capacity b.start).offset - wordSize) header)
include h hd

/-- Unless the table lies at the end, the header stays as it was first written. -/
theorem Stages.headerBytes_eq (hf : k.options.fixups ≠ .tail) (hnone : table = none) (stop : ℕ) :
    b.headerBytes k refs = header.contents ∧
      TableAt k refs b.chunkCount.toNat stop b.fixupTable 0 := by
  have htable := h.fixupTable
  rw [hnone] at htable
  cases hmode : k.options.fixups with
  | tail => exact absurd hmode hf
  | front =>
    obtain ⟨hreach, hcontents⟩ := hd.front hmode
    rw [if_pos hmode] at htable
    rw [Bundle.headerBytes, Bundle.tablePosition, htable, if_pos hmode, h.chunkCount]
    exact ⟨hcontents.symm, .front hmode hd.behind_eq hreach⟩
  | absent =>
    have hnot : k.options.fixups ≠ .front := by rw [hmode]; decide
    rw [if_neg hnot] at htable
    rw [Bundle.headerBytes, Bundle.tablePosition, htable, if_neg hnot, List.append_nil,
      h.chunkCount]
    exact ⟨(hd.behind hnot).symm, .absent hmode⟩

/-- A table at the end changes the last word of the header. -/
theorem Stages.headerBytes_of_tail (hf : k.options.fixups = .tail) {t : UInt32}
    (hsome : table = some t) {l : Bytes} (hrow : ∀ table : Position,
      k.options.order.rowBytes (headerRow s.capacity b.start table) =
        l ++ k.options.order.wordBytes table.word) :
    b.fixupTable = some t ∧ b.headerBytes k refs = l ++ k.options.order.wordBytes
        (k.addressing.positionAt t Position.unresolvedFlag).word ∧
      header.contents = l ++ k.options.order.wordBytes Position.null.word := by
  have hnot : k.options.fixups ≠ .front := by rw [hf]; decide
  have htable := h.fixupTable
  rw [hsome, if_neg hnot] at htable
  refine ⟨htable, ?_, by rw [hd.behind hnot, hrow]⟩
  rw [Bundle.headerBytes, if_neg hnot, List.append_nil, h.chunkCount, hrow,
    Bundle.tablePosition, htable]
  rfl

/-- **The ends of the file.** -/
theorem Stages.ends (hpos : 0 < k.options.chunkSize.toNat)
    (hsector : k.options.sectorSize.toNat ≤ k.options.chunkSize.toNat)
    (hfile : (s.capacity.toNat + 1) * k.options.chunkSize.toNat < 2 ^ 32)
    (hlen : header.contents.length = s.headerSize.toNat)
    (ho : body.order = k.options.order) {contents : ItemRef → Bytes}
    {placed : List (Item × UInt32)} (hcov : Covers header.contents placed contents body.contents)
    (hstop : body.contents.length ≤ s.capacity.toNat * k.options.chunkSize.toNat)
    (hhead : ∀ e ∈ placed, header.contents.length ≤ e.2.toNat) :
    ∃ rest gap border, Ends k b refs contents placed rest gap border ∧
      (b.headerBytes k refs ++ rest).length = body.contents.length := by
  obtain ⟨rest, hrest⟩ := hcov.head_prefix
  obtain ⟨added, htail⟩ := h.tail_eq
  obtain ⟨l, hl, hrow⟩ := rowBytes_headerRow k.options.order s.capacity b.start
  have hbytes : b.bytes.toList = file.contents := congrArg Array.toList h.bytes
  have hw := hd.tableWord_eq
  obtain ⟨w, r, hbody⟩ := hd.exists_tableWord ho hrest hrow
  obtain ⟨hplain, htailed⟩ := emitTail_spec hpos hsector hfile hstop hbody (by omega) htail
  by_cases hf : k.options.fixups = .tail
  · obtain ⟨t, zs, zb, hsome, hreach, ⟨hzs, hzb⟩, ht, hblock, hin, hcontents⟩ := htailed hf
    obtain ⟨htable, hheader, hold⟩ := h.headerBytes_of_tail hd hf hsome hrow
    have hleng : (b.headerBytes k refs).length = header.contents.length := by
      rw [hheader, hold]
      simp only [List.length_append, ByteOrder.length_wordBytes]
    have hr : r = rest := by
      rw [hrest, hold, ho] at hbody
      exact (List.append_inj_right hbody (by
        simp only [List.length_append, ByteOrder.length_wordBytes])).symm
    have hsame : (b.headerBytes k refs ++ rest).length = body.contents.length := by
      rw [hrest, List.length_append, List.length_append, hleng]
    refine ⟨rest, zs, zb, ?_, hsame⟩
    constructor
    case bytes => rw [hbytes, hcontents, if_pos hf, hheader, hr, ho]
    case length => rw [hleng, hlen, h.headerSize]
    case covers => exact Covers.head_congr (hrest ▸ hcov) hleng hhead
    case sector => rw [hsame]; exact hzs
    case table =>
      rw [hsame, h.chunkCount, htable, hzb]
      rw [hzb] at ht
      exact .tail hf ht hreach hblock hin
  · obtain ⟨hnone, hcontents⟩ := hplain hf
    obtain ⟨hheader, htable⟩ := h.headerBytes_eq hd hf hnone
      (body.contents.length + sectorZeros body.contents.length k.options.sectorSize.toNat)
    have hsame : b.headerBytes k refs ++ rest = body.contents := by rw [hheader, hrest]
    refine ⟨rest, sectorZeros body.contents.length k.options.sectorSize.toNat, 0, ?_,
      congrArg List.length hsame⟩
    constructor
    case bytes =>
      rw [hbytes, hcontents, if_neg hf, hsame, ByteOrder.rowBytes_nil, List.append_nil,
        Nat.add_zero]
    case length => rw [hheader, hlen, h.headerSize]
    case covers => rw [hsame, hheader]; exact hcov
    case sector => rw [hsame]
    case table => rw [hsame]; exact htable

end

/-- **What emission writes.** -/
theorem emit_file (hp : p.Sound ctx pad) (g : Grain ctx.chunkSize pad) (hk : k.Sane)
    (hl : Laidout k p q s) (hs : k.Accepts p.items (fixupCount p p.items) s)
    (hsector : k.options.sectorSize.toNat ≤ k.options.chunkSize.toNat)
    (h : k.emit q p.items s = .ok b) :
    ∃ refs body gap border, b.chunkCount = s.capacity ∧ b.headerSize = s.headerSize ∧
      b.File k p q refs (inOrder p.items s.layout) body gap border := by
  obtain ⟨refs, header, body, file, table, st⟩ := emit_stages h
  obtain ⟨hcap, hfile⟩ := capacity_spec hk hs.capacity_le
  obtain ⟨h16, h30, -⟩ := k.addressing.words
  rw [hk] at h16 h30
  have hsize := hs.toNat_headerSize hk
  have hle := hs.headerSize_le
  have hwords := le_headerSize k s.capacity (fixupCount p p.items)
  obtain ⟨hslots, hcount⟩ := hl.slots hp g hk hs.capacity_le st.slots_eq
  have hd := headed st.header_eq (by omega)
  have hlen : header.contents.length = s.headerSize.toNat := (hd.length hcount).trans hsize.symm
  obtain ⟨horder, hcov, hlast, hstop, hhead⟩ :=
    written st.body_eq hp g hk hl hs.capacity_le hd.order hlen
  obtain ⟨rest, gap, border, he, hsame⟩ :=
    st.ends hd (by omega) hsector hfile hlen horder hcov hstop hhead
  obtain ⟨o, hoff, hstart⟩ := st.start
  refine ⟨refs, rest, gap, border, st.chunkCount, st.headerSize, ?_⟩
  exact {
    chunkSize := st.chunkSize, slots := hslots, fixupCount := st.fixupCount
    start := by rw [(position_eq_ok hstart).2, ← hl.moved.root, place_eq hoff]
    headerSize := he.length.symm, perm := hl.inOrder.1, sorted := hl.inOrder.2
    placements := st.placements
    size := fun e hm => by
      obtain ⟨ref, hr, rfl⟩ := List.mem_map.1 (hl.inOrder.1.mem_iff.1 hm)
      rw [Program.item_ref]
      exact hp.length_contents hl.moved (hp.holds (hp.mem_reachable_iff.1 hr))
    bytes := he.bytes, covers := he.covers, last := by rwa [hsame]
    sector := he.sector, table := he.table }

end Packer

end LevelBundle
