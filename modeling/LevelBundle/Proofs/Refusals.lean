/-
  LevelBundle — why a compiled program is refused.

  * `PackError.Limit`: the reasons that have to do with how much there is to pack.  All
    others would be faults of packing itself.
  * `Packer.settle_error`, `Packer.commit_runs`, `Packer.emit_error`: a layout is not found
    for such a reason only, the offsets are set, and the file is written but for a table
    at the end that finds no place.
  * `pack_error`: a fresh program is refused for such a reason only.
-/
import LevelBundle.Proofs.PackedFile

namespace LevelBundle

/-- A reason to refuse a program that has to do with how much there is to pack. -/
inductive PackError.Limit : PackError → Prop
  /-- There are more chunks than positions can name. -/
  | capacityExceeded (chunks max : UInt32) : Limit (.capacityExceeded chunks max)
  /-- The words in front and the table there do not fit in a chunk. -/
  | headerTooLarge (headerSize : ℕ) (chunkSize : UInt32) : Limit (.headerTooLarge headerSize chunkSize)
  /-- The table at the end does not fit in a chunk. -/
  | fixupTableTooLarge (size : ℕ) (chunkSize : UInt32) : Limit (.fixupTableTooLarge size chunkSize)
  /-- The table at the end lies behind the chunk that is kept for it. -/
  | fixupTableUnaddressable (block chunks : UInt32) : Limit (.fixupTableUnaddressable block chunks)
  /-- The estimate of the header did not settle. -/
  | layoutDidNotConverge (passes : UInt32) : Limit (.layoutDidNotConverge passes)

namespace Packer

variable {k : Packer} {p q : Program} {s : Settled} {e : PackError} {b b' : Buffer}

/-! ## Options -/

/-- There is a packer for settings that pass their check. -/
theorem exists_ofOptions {s : Settings} (h : s.Valid) : ∃ k, ofOptions s.pack = .ok k := by
  have h16 := h.grain.le_chunk
  have h30 := h.grain.chunk_le
  have hwords : s.pack.chunkSize % 4 = 0 := by
    rw [← UInt32.toNat_inj, UInt32.toNat_mod]
    exact Nat.mod_eq_zero_of_dvd h.grain.chunk_words
  obtain ⟨a, ha⟩ : ∃ a, Addressing.ofChunkSize s.pack.chunkSize = .ok a :=
    ⟨_, dif_pos ⟨UInt32.le_iff_toNat_le.2 h16, UInt32.le_iff_toNat_le.2 h30, hwords⟩⟩
  have hsector : ¬ s.pack.chunkSize < s.pack.sectorSize :=
    UInt32.not_lt.2 (UInt32.le_iff_toNat_le.2 h.sector_le)
  refine ⟨⟨s.pack, a⟩, ?_⟩
  simp only [ofOptions, bind_eq_ok, mapError_eq_ok, check_eq_ok, pure_eq_ok]
  exact ⟨a, ha, hsector, rfl⟩

/-! ## Layouts -/

theorem place_error {items : Array Extent} {order : List ℕ} {headerSize chunkSize : UInt32}
    {e : Oversized} (h : place items order headerSize chunkSize = .error e) :
    ∃ i ∈ order, chunkSize < (Placement.extent items i).padSize := by
  unfold place at h
  split at h
  · rename_i i hi
    exact ⟨i, List.mem_of_find?_eq_some hi, by simpa using List.find?_some hi⟩
  · cases h

/-- **No layout is accepted** for one of four reasons. -/
theorem settle_error_cases {items : List Item} {fixups left : ℕ} {passes capacity : UInt32}
    (h : k.settle items fixups left passes capacity = .error e) :
    (∃ tried, e = .layoutDidNotConverge tried) ∨ (∃ chunks max, e = .capacityExceeded chunks max) ∨
      (∃ headerSize chunkSize, e = .headerTooLarge headerSize chunkSize) ∨
      ∃ what size chunkSize, e = .oversizedItem what size chunkSize ∧
        ∃ i ∈ items, k.options.chunkSize < i.padSize := by
  induction left generalizing passes capacity with
  | zero =>
    cases h
    exact Or.inl ⟨_, rfl⟩
  | succ left ih =>
    simp only [settle] at h
    split_ifs at h with hcap hheader
    · cases h
      exact Or.inr (Or.inl ⟨_, _, rfl⟩)
    · cases h
      exact Or.inr (Or.inr (Or.inl ⟨_, _, rfl⟩))
    · split at h
      · rename_i hplace
        cases h
        obtain ⟨i, hi, hlt⟩ := place_error hplace
        have hi : i < items.length := by
          rw [(k.order_perm items).mem_iff, List.mem_range] at hi
          exact hi
        have hextent : Placement.extent (items.map Item.extent).toArray i = items[i].extent := by
          simp [Placement.extent, hi]
        rw [hextent] at hlt
        exact Or.inr (Or.inr (Or.inr ⟨_, _, _, rfl, items[i], List.getElem_mem hi, hlt⟩))
      · split_ifs at h
        exact ih h

theorem settle_error {items : List Item} {fixups left : ℕ} {passes capacity : UInt32}
    (hfit : ∀ i ∈ items, i.padSize ≤ k.options.chunkSize)
    (h : k.settle items fixups left passes capacity = .error e) : e.Limit := by
  obtain ⟨_, rfl⟩ | ⟨_, _, rfl⟩ | ⟨_, _, rfl⟩ | ⟨_, _, _, -, i, hi, hlt⟩ := settle_error_cases h
  · exact .layoutDidNotConverge _
  · exact .capacityExceeded _ _
  · exact .headerTooLarge _ _
  · exact absurd (hfit i hi) (UInt32.not_le.2 hlt)

/-! ## Offsets -/

/-- The offset of an item that is not placed is set. -/
theorem assign_runs {i : Item} {o : UInt32} (hi : p.Holds i.ref) (hnone : p.offsetOf? i.ref = none) :
    ∃ q, Runs (assign i o) p ⟨⟩ q := by
  simp only [assign, runs_bind, runs_get]
  cases hr : i.ref with
  | level id =>
    rw [hr] at hnone
    have hnot : ¬ (p.sectionAt id).offset.isSome = true := by
      rw [show (p.sectionAt id).offset = none from hnone]
      exact Bool.false_ne_true
    refine ⟨{ p with
      sections := p.sections.modify id.index fun s => { s with offset := some o } },
      _, _, ⟨rfl, rfl⟩, ?_⟩
    simp only
    rw [if_neg hnot]
    exact runs_set.2 rfl
  | blob id =>
    rw [hr] at hi hnone
    have hrun : ∃ store, Runs (Store.assignOffset id o) p.store ⟨⟩ store := by
      have hbind : (p.store.blob? id).bind Blob.offset = none := hnone
      simp only [Store.assignOffset, runs_bind, runs_get]
      refine ⟨{ p.store with
        blobs := p.store.blobs.modify id.index fun b => { b with offset := some o } },
        _, _, ⟨rfl, rfl⟩, ?_⟩
      rw [Program.canonical_eq hi, hbind]
      exact runs_set.2 rfl
    obtain ⟨store, hrun⟩ := hrun
    refine ⟨{ p with store }, _, _, ⟨rfl, rfl⟩, ?_⟩
    simp only
    rw [hrun]
    exact runs_set.2 rfl

/-- **The offsets of all items are set**, if none of them is. -/
theorem commit_runs {entries : List (Item × UInt32)}
    (he : ∀ e ∈ entries, p.Holds e.1.ref ∧ p.offsetOf? e.1.ref = none)
    (hn : (entries.map fun e => e.1.ref).Nodup) :
    ∃ q, Runs (entries.forM fun e => assign e.1 e.2) p ⟨⟩ q := by
  induction entries generalizing p with
  | nil => exact ⟨p, rfl⟩
  | cons e entries ih =>
    obtain ⟨hi, hnone⟩ := he e (by simp)
    obtain ⟨p₁, h1⟩ := assign_runs (o := e.2) hi hnone
    have ha := runs_assign h1 hi
    rw [List.map_cons, List.nodup_cons] at hn
    -- the others are not placed by that
    have hrest : ∀ e' ∈ entries, p₁.Holds e'.1.ref ∧ p₁.offsetOf? e'.1.ref = none := by
      intro e' he'
      obtain ⟨hi', hnone'⟩ := he e' (by simp [he'])
      refine ⟨ha.moved.holds hi', ?_⟩
      rw [ha.frame _ fun heq => hn.1 (heq ▸ List.mem_map_of_mem he'), hnone']
    obtain ⟨q, h2⟩ := ih hrest hn.2
    exact ⟨q, runs_bind.2 ⟨_, _, h1, h2⟩⟩

/-! ## Writing -/

theorem position_ok {o flags : UInt32} (h : k.addressing.Reaches o) (hf : flags.toNat < 4) :
    k.position o flags = .ok (k.addressing.positionAt o flags) := by
  rw [position, mapError_eq_ok]
  exact Addressing.encodeAbsolute_eq_ok.2 ⟨h.encodes hf, rfl⟩

theorem sectionOffset_ok {id : SectionId} {o : UInt32} (h : q.offsetOf? (.level id) = some o) :
    sectionOffset q id = .ok o := by
  have h : (q.sectionAt id).offset = some o := h
  simp only [sectionOffset, h]

theorem blobOffset_ok {id : BlobId} {o : UInt32}
    (h : q.offsetOf? (.blob (q.store.canonical id)) = some o) : blobOffset q id = .ok o := by
  have h : q.store.offset? id = some o := h
  simp only [blobOffset, h]

/-- **A fixup table** is written wherever it can be named. -/
theorem emitFixups_ok (tableWord : UInt32) {slots : List UInt32}
    (hb : k.addressing.Reaches b.offset) (hslots : ∀ o ∈ slots, k.addressing.Reaches o) :
    ∃ b', k.emitFixups b tableWord slots = .ok b' := by
  have hflag : Position.unresolvedFlag.toNat < 4 := by decide
  obtain ⟨b₁, h1⟩ := foldlM_ok (f := fun (b : Buffer) slot => (do
      return b.pushPosition (← k.position slot Position.unresolvedFlag) : Except PackError Buffer))
    (fun o ho b => ⟨_, by rw [position_ok (hslots o ho) hflag]; rfl⟩)
    (b.patch tableWord (k.addressing.positionAt b.offset Position.unresolvedFlag).word)
  refine ⟨b₁.pushWord 0, ?_⟩
  simp only [emitFixups, bind_eq_ok, pure_eq_ok]
  exact ⟨_, position_ok hb hflag, b₁, h1, rfl⟩

/-- A fixup table takes a word for each slot, and one at the end. -/
theorem length_emitFixups {tableWord : UInt32} {slots : List UInt32}
    (h : k.emitFixups b tableWord slots = .ok b') :
    b'.contents.length = b.contents.length + 4 * (slots.length + 1) := by
  simp only [emitFixups, bind_eq_ok, pure_eq_ok] at h
  obtain ⟨pointer, -, b₁, h1, rfl⟩ := h
  have hpatch : (b.patch tableWord pointer.word).contents.length = b.contents.length := by
    rw [← Buffer.size_eq, ← Buffer.size_eq]
    exact ByteOrder.size_setWordAt
  rw [(b₁.extends_pushWord 0).contents, List.length_append, ByteOrder.length_wordBytes,
    (emitSlots_extends h1).contents, List.length_append, ByteOrder.length_rowBytes,
    List.length_map, hpatch]
  omega

theorem length_padTo_gap (b : Buffer) (target : UInt32) :
    (b.padTo target).contents.length = b.contents.length + (b.gap target).toNat := by
  rw [Buffer.padTo, (b.extends_fill 0 _).contents, List.length_append, List.length_replicate]

/-- What is written behind the items is counted. -/
theorem length_emitTail {capacity tableWord : UInt32} {slots : List UInt32} {added : ℕ}
    {table : Option UInt32} (h : k.emitTail b capacity tableWord slots = .ok (b', added, table)) :
    b'.contents.length = b.contents.length + added := by
  simp only [emitTail] at h
  by_cases hmode : k.options.fixups = .tail
  · rw [if_neg (not_not.2 hmode), check_eq_ok, check_eq_ok] at h
    obtain ⟨-, -, h⟩ := h
    simp only [bind_eq_ok, pure_eq_ok, Prod.mk.injEq] at h
    obtain ⟨b₂, h2, rfl, rfl, -⟩ := h
    rw [length_emitFixups h2, length_padTo_gap, length_padTo_gap]
    omega
  · rw [if_pos hmode, pure_eq_ok] at h
    cases h
    exact length_padTo_gap _ _

/-- Whole words stay whole up to a sector and up to a border. -/
theorem four_dvd_zeros {length size zs zb : ℕ} (h : Zeros k length size zs zb)
    (hl : 4 ∣ length) (hsector : 4 ∣ k.options.sectorSize.toNat)
    (hchunk : 4 ∣ k.options.chunkSize.toNat) : 4 ∣ length + zs + zb := by
  have hzs : 4 ∣ zs := by
    rw [h.sector, sectorZeros]
    split_ifs
    · exact Nat.dvd_zero _
    · exact Nat.dvd_sub hsector ((Nat.dvd_mod_iff hsector).2 hl)
  have hzb : 4 ∣ zb := by
    rw [h.border, borderZeros]
    split_ifs
    · exact Nat.dvd_sub hchunk ((Nat.dvd_mod_iff hchunk).2 (Nat.dvd_add hl hzs))
    · exact Nat.dvd_zero _
  exact Nat.dvd_add (Nat.dvd_add hl hzs) hzb

/-- A table at the end that does not come too late has a position. -/
theorem reaches_tableStart {capacity : UInt32} {size : ℕ} (hk : k.Sane)
    (hcap : capacity ≤ k.maxChunks) (hsector : k.options.sectorSize.toNat ≤ k.options.chunkSize.toNat)
    (hwords : 4 ∣ k.options.sectorSize.toNat) (h4 : 4 ∣ b.contents.length)
    (hlen : b.contents.length ≤ capacity.toNat * k.options.chunkSize.toNat)
    (hsize : size ≤ k.options.chunkSize.toNat)
    (hblock : ¬ capacity < (k.tableStart b size).offset / k.options.chunkSize) :
    k.addressing.Reaches (k.tableStart b size).offset := by
  have hsane : k.addressing.chunkSize = k.options.chunkSize := hk
  obtain ⟨h16, -, hc4⟩ := k.addressing.words
  rw [hsane] at h16 hc4
  obtain ⟨hmax, hfile⟩ := capacity_spec hk hcap
  obtain ⟨zs, zb, hz, -, ho, -⟩ := tableStart_spec (by omega) hsector hfile hlen hsize
  rw [UInt32.not_lt, UInt32.le_iff_toNat_le, UInt32.toNat_div] at hblock
  refine ⟨?_, by rw [ho]; exact four_dvd_zeros hz h4 hwords hc4⟩
  rw [hsane]
  exact hblock.trans_lt hmax

/-- **The table at the end** finds its place, or it is too large or comes too late. -/
theorem emitTail_error {capacity tableWord : UInt32} {slots : List UInt32} (hk : k.Sane)
    (hcap : capacity ≤ k.maxChunks) (hsector : k.options.sectorSize.toNat ≤ k.options.chunkSize.toNat)
    (hwords : 4 ∣ k.options.sectorSize.toNat) (h4 : 4 ∣ b.contents.length)
    (hlen : b.contents.length ≤ capacity.toNat * k.options.chunkSize.toNat)
    (hslots : ∀ o ∈ slots, k.addressing.Reaches o)
    (h : k.emitTail b capacity tableWord slots = .error e) : e.Limit := by
  simp only [emitTail] at h
  by_cases hmode : k.options.fixups = .tail
  · rw [if_neg (not_not.2 hmode), check_eq_error, check_eq_error] at h
    obtain ⟨-, rfl⟩ | ⟨hsize, ⟨-, rfl⟩ | ⟨hblock, h⟩⟩ := h
    · exact .fixupTableTooLarge _ _
    · exact .fixupTableUnaddressable _ _
    have hreach : k.addressing.Reaches (k.tableStart b (4 * (slots.length + 1))).offset :=
      reaches_tableStart hk hcap hsector hwords h4 hlen (Nat.not_lt.1 hsize) hblock
    obtain ⟨b', hb'⟩ := emitFixups_ok tableWord hreach hslots
    rw [bind_eq_error] at h
    obtain h | ⟨b₂, -, h⟩ := h
    · cases hb'.symm.trans h
    · exact absurd h pure_ne_error
  · rw [if_pos hmode] at h
    exact absurd h pure_ne_error

/-! ## Items -/

section

variable {ctx : CompileContext} {pad : UInt32} (hp : p.Sound ctx pad) (g : Grain ctx.chunkSize pad)
  (hk : k.Sane) (hl : Laidout k p q s) (hcap : s.capacity ≤ k.maxChunks)
include hk hl hcap

theorem Laidout.target {id : SectionId} (hr : p.Leads (.level id)) {part : Part}
    (hpart : part ∈ (p.sectionAt id).parts) {ref : ItemRef} (ht : p.target? part = some ref) :
    q.offsetOf? ref = some (q.place ref) ∧ k.addressing.Reaches (q.place ref) := by
  have hlead : p.Leads ref := .step hr (List.mem_filterMap.2 ⟨part, hpart, ht⟩)
  exact ⟨hl.placed hlead, hl.reaches_place hk hcap hlead⟩

/-- A part of a placed section is written. -/
theorem Laidout.emitPart_ok {id : SectionId} (hr : p.Leads (.level id)) {part : Part}
    (hpart : part ∈ (p.sectionAt id).parts) (b : Buffer) : ∃ b', k.emitPart q b part = .ok b' := by
  cases part with
  | literal | align | pad => exact ⟨_, rfl⟩
  | blob id' =>
    obtain ⟨ho, hreach⟩ := hl.target hk hcap hr hpart rfl
    rw [← hl.moved.canonical] at ho hreach
    simp only [emitPart, bind_eq_ok, pure_eq_ok]
    exact ⟨_, _, blobOffset_ok ho, _, position_ok hreach (by decide), rfl⟩
  | level id' | runtimeFile name id' =>
    obtain ⟨ho, hreach⟩ := hl.target hk hcap hr hpart rfl
    simp only [emitPart, bind_eq_ok, pure_eq_ok]
    exact ⟨_, _, sectionOffset_ok ho, _, position_ok hreach (by decide), rfl⟩

theorem Laidout.emitItem_ok {ref : ItemRef} (hr : p.Leads ref) (b : Buffer) :
    ∃ b', k.emitItem q b (p.item ref) = .ok b' := by
  unfold emitItem
  rw [Program.item_ref]
  cases ref with
  | blob id => exact ⟨_, rfl⟩
  | level id =>
    refine foldlM_ok (fun part hpart b => ?_) b
    rw [hl.moved.parts] at hpart
    exact hl.emitPart_ok hk hcap hr hpart b

include hp

/-- **All items are written.** -/
theorem Laidout.emitItems_ok (b : Buffer) :
    ∃ b', k.emitItems q b (Packer.inOrder p.items s.layout) = .ok b' := by
  refine foldlM_ok (fun e he b => ?_) b
  obtain ⟨ref, hr, rfl⟩ := List.mem_map.1 (hl.inOrder.1.mem_iff.1 he)
  obtain ⟨b₁, h1⟩ := hl.emitItem_ok hk hcap (hp.mem_reachable_iff.1 hr) (b.padTo (q.place ref))
  exact ⟨b₁.padTo (q.place ref + (p.item ref).padSize), by
    simp only [bind_eq_ok, pure_eq_ok]
    exact ⟨b₁, h1, rfl⟩⟩

omit hk hcap in
theorem Laidout.slots_ok : ∃ refs, Packer.slots q p.items = .ok refs := by
  simp only [Packer.slots, bind_eq_ok, pure_eq_ok]
  refine ⟨_, _, (mapM_ok fun i hi => ?_).choose_spec, rfl⟩
  obtain ⟨ref, hr, rfl⟩ := List.mem_map.1 hi
  rw [Program.item_ref]
  cases ref with
  | blob id => exact ⟨_, rfl⟩
  | level id =>
    simp only [bind_eq_ok, pure_eq_ok]
    exact ⟨_, _, sectionOffset_ok (hl.placed (hp.mem_reachable_iff.1 hr)), rfl⟩

end

/-! ## Files -/

/-- When the items can be written, only what stands behind them can be refused. -/
theorem emit_behind {items : List Item} {o : UInt32} {start : Position} {refs : List UInt32}
    {header body : Buffer} (hroot : sectionOffset q q.root = .ok o)
    (hstart : k.position o Position.unresolvedFlag = .ok start)
    (hslots : slots q items = .ok refs)
    (hheader : (if k.options.fixups = .front then
        k.emitFixups (k.emitHeader s.capacity start)
          ((k.emitHeader s.capacity start).offset - wordSize) refs
      else pure (k.emitHeader s.capacity start)) = .ok header)
    (hsize : header.offset = s.headerSize)
    (hbody : k.emitItems q header (inOrder items s.layout) = .ok body)
    (h : k.emit q items s = .error e) :
    k.emitTail body s.capacity ((k.emitHeader s.capacity start).offset - wordSize) refs =
        .error e ∨
      ∃ file added table,
        k.emitTail body s.capacity ((k.emitHeader s.capacity start).offset - wordSize) refs =
          .ok (file, added, table) ∧
        file.bytes.size ≠ s.capacity.toNat * k.options.chunkSize.toNat -
          (s.capacity.toNat * k.options.chunkSize.toNat - body.offset.toNat) + added := by
  have hbody : k.emitItems q header ((items.zip s.layout.offsets.toList).mergeSort
      fun a b => a.2 ≤ b.2) = .ok body := hbody
  simp only [emit, hroot, hstart, hslots, bind_eq_error, reduceCtorEq, false_or, Except.ok.injEq,
    exists_eq_left'] at h
  by_cases hf : k.options.fixups = .front
  all_goals
    simp only [hf, ↓reduceIte] at h hheader
    simp only [hheader, bind_eq_error, check_eq_error, reduceCtorEq, false_or, Except.ok.injEq,
      exists_eq_left', hsize, ne_eq, not_true_eq_false, false_and, not_false_eq_true, true_and,
      hbody, pure_ne_error, and_false, or_false] at h
    obtain h | ⟨⟨file, added, table⟩, htail, hne, -⟩ := h
    · exact Or.inl h
    · exact Or.inr ⟨file, added, table, htail, hne⟩

section

variable {ctx : CompileContext} {pad : UInt32} (hp : p.Sound ctx pad) (g : Grain ctx.chunkSize pad)
  (hk : k.Sane) (hl : Laidout k p q s) (hs : k.Accepts p.items (fixupCount p p.items) s)
include hp g hk hl hs

/-- **The header** is written, and it is as long as the layout says. -/
theorem Accepts.header_ok {refs : List UInt32} (hslots : Packer.slots q p.items = .ok refs)
    (start : Position) : ∃ header, (if k.options.fixups = .front then
        k.emitFixups (k.emitHeader s.capacity start)
          ((k.emitHeader s.capacity start).offset - wordSize) refs
      else pure (k.emitHeader s.capacity start)) = .ok header ∧ header.order = k.options.order ∧
      header.contents.length = s.headerSize.toNat := by
  have hsane : k.addressing.chunkSize = k.options.chunkSize := hk
  obtain ⟨h16, h30, -⟩ := k.addressing.words
  rw [hsane] at h16 h30
  have hsize := hs.toNat_headerSize hk
  have hle := hs.headerSize_le
  obtain ⟨hrefs, hcount⟩ := hl.slots hp g hk hs.capacity_le hslots
  have hwords := le_headerSize k s.capacity (fixupCount p p.items)
  obtain ⟨header, hheader⟩ : ∃ header, (if k.options.fixups = .front then
      k.emitFixups (k.emitHeader s.capacity start)
        ((k.emitHeader s.capacity start).offset - wordSize) refs
      else pure (k.emitHeader s.capacity start)) = .ok header := by
    by_cases hf : k.options.fixups = .front
    · rw [if_pos hf]
      -- the table in front lies in the first chunk
      have hlen : (k.emitHeader s.capacity start).contents.length = 4 * (s.capacity.toNat + 3) := by
        rw [(emitHeader_contents k s.capacity start).2, ByteOrder.length_rowBytes, length_headerRow]
      have hoffset := Buffer.toNat_offset (b := k.emitHeader s.capacity start) (by omega)
      have hfront : k.headerSize s.capacity (fixupCount p p.items) =
          4 * (s.capacity.toNat + 1) + 8 + 4 * (fixupCount p p.items + 1) := by
        rw [headerSize, if_pos hf]
      obtain ⟨hmax, -⟩ := capacity_spec hk hs.capacity_le
      refine emitFixups_ok _ ⟨?_, by omega⟩ fun o ho => ?_
      · rw [hsane, Nat.div_eq_of_lt (by omega)]
        omega
      · obtain ⟨id, part, ref, hslot⟩ := hrefs.mem_iff.1 ho
        exact hl.reaches_slot hp g hk hs.capacity_le hslot
    · exact ⟨_, if_neg hf⟩
  have hd := headed hheader (by omega)
  exact ⟨header, hheader, hd.order, (hd.length hcount).trans hsize.symm⟩

/-- What is written before the end of the file. -/
structure Begun (k : Packer) (p q : Program) (s : Settled) (start : Position)
    (refs : List UInt32) (header body : Buffer) : Prop where
  root : q.offsetOf? (.level q.root) = some (q.place (.level q.root))
  root_reaches : k.addressing.Reaches (q.place (.level q.root))
  start_eq : k.position (q.place (.level q.root)) Position.unresolvedFlag = .ok start
  slots : Packer.slots q p.items = .ok refs
  reaches : ∀ o ∈ refs, k.addressing.Reaches o
  header_eq : (if k.options.fixups = .front then
      k.emitFixups (k.emitHeader s.capacity start) ((k.emitHeader s.capacity start).offset - wordSize)
        refs
    else pure (k.emitHeader s.capacity start)) = .ok header
  order : header.order = k.options.order
  length : header.contents.length = s.headerSize.toNat
  body_eq : k.emitItems q header (Packer.inOrder p.items s.layout) = .ok body
  behind : ∀ e ∈ Packer.inOrder p.items s.layout, header.contents.length ≤ e.2.toNat
  words : 4 ∣ body.contents.length
  body_le : body.contents.length ≤ s.capacity.toNat * k.options.chunkSize.toNat

/-- **All but the end of the file** is written. -/
theorem Accepts.begun : ∃ start refs header body, Begun k p q s start refs header body := by
  have hcap := hs.capacity_le
  have hroot := hl.placed .root
  have hreach := hl.reaches_place hk hcap .root
  rw [← hl.moved.root] at hroot hreach
  obtain ⟨refs, hslots⟩ := hl.slots_ok hp
  obtain ⟨header, hheader, horder, hlen⟩ := hs.header_ok hp g hk hl hslots
    (k.addressing.positionAt (q.place (.level q.root)) Position.unresolvedFlag)
  obtain ⟨body, hbody⟩ := hl.emitItems_ok hp hk hcap header
  obtain ⟨-, -, ⟨entry, hentry, hstop⟩, hle, hbehind⟩ := written hbody hp g hk hl hcap horder hlen
  refine ⟨_, refs, header, body, hroot, hreach, position_ok hreach (by decide), hslots,
    fun o ho => ?_, hheader, horder, hlen, hbody, hbehind, ?_, hle⟩
  · obtain ⟨id, part, ref, hslot⟩ := (hl.slots hp g hk hcap hslots).1.mem_iff.1 ho
    exact hl.reaches_slot hp g hk hcap hslot
  · -- the items end on a whole word
    obtain ⟨ref, hr, rfl⟩ := List.mem_map.1 (hl.inOrder.1.mem_iff.1 hentry)
    have hr := hp.mem_reachable_iff.1 hr
    rw [hstop]
    exact Nat.dvd_add (hl.lies hr).words (hp.fit g (hp.holds hr)).padSize_words

/-- **The file is written**, but for a table at the end that finds no place. -/
theorem Accepts.emit_error (hsector : k.options.sectorSize.toNat ≤ k.options.chunkSize.toNat)
    (hwords : 4 ∣ k.options.sectorSize.toNat) (h : k.emit q p.items s = .error e) : e.Limit := by
  have hcap := hs.capacity_le
  obtain ⟨start, refs, header, body, hbegun⟩ := hs.begun hp g hk hl
  have hlen := hbegun.length
  have hle := hbegun.body_le
  have hoffset : header.offset = s.headerSize := UInt32.toNat_inj.1 (by
    rw [Buffer.toNat_offset (hlen ▸ s.headerSize.toNat_lt), hlen])
  obtain ⟨-, hfile⟩ := capacity_spec hk hcap
  have hbound : body.contents.length < 2 ^ 32 := by
    rw [Nat.add_mul] at hfile
    omega
  obtain htail | ⟨file, added, table, htail, hne⟩ :=
    emit_behind (sectionOffset_ok hbegun.root) hbegun.start_eq hbegun.slots hbegun.header_eq
      hoffset hbegun.body_eq h
  · exact emitTail_error hk hcap hsector hwords hbegun.words hle hbegun.reaches htail
  · refine absurd ?_ hne
    rw [Buffer.size_eq, length_emitTail htail, Buffer.toNat_offset hbound]
    omega

end

end Packer

/-! ## Programs -/

variable {s : Settings} {files : Files} {table : SectionTable} {p q : Program} {e : PackError}

/-- **Why a fresh program is refused**: there is a packer for its settings, and if it does
    not pack the program, there is too much to pack. -/
theorem pack_error (h : p.Fresh s files table) : (∃ k, Packer.ofOptions s.pack = .ok k) ∧
    ∀ {e q}, p.pack s.pack = (.error e, q) → e.Limit := by
  obtain ⟨hb, hp⟩ := h.sound
  have hv := Settings.valid_of_validate h.valid
  obtain ⟨k, hk⟩ := Packer.exists_ofOptions hv
  refine ⟨⟨k, hk⟩, fun {e q} herror => ?_⟩
  obtain ⟨hsane, hopt⟩ := Packer.sane_of_ofOptions hk
  have hchunk : k.options.chunkSize = (Compiler.context s table files).chunkSize := by
    rw [hopt]; rfl
  have hpack : Fails k.pack p e q := by
    rw [Program.pack, hk] at herror
    exact herror
  simp only [Packer.pack, fails_bind, fails_get, runs_get, fails_lift, runs_lift, false_or] at hpack
  obtain ⟨_, _, ⟨rfl, rfl⟩, hpack⟩ := hpack
  obtain ⟨hsettle, -⟩ | ⟨l, _, ⟨hl, rfl⟩, hpack⟩ := hpack
  · refine Packer.settle_error (fun i hi => ?_) hsettle
    obtain ⟨ref, hr, rfl⟩ := List.mem_map.1 hi
    rw [hchunk, UInt32.le_iff_toNat_le]
    exact (hp.fit hb.grain (hp.holds (hp.mem_reachable_iff.1 hr))).padSize_le
  have hacc := Packer.settle_accepts hl
  obtain ⟨o, ho, -, -⟩ := hacc.lies hsane hp hb.grain
  have hzip : p.items.zip l.layout.offsets.toList = p.reachable.map fun ref =>
      (p.item ref, o ref) := by
    rw [ho, Program.items, List.zip_map']
  have hcommit : ∃ q, Runs (Packer.commit p.items l.layout) p ⟨⟩ q := by
    rw [Packer.commit, hzip]
    refine Packer.commit_runs (fun entry hentry => ?_) ?_
    · obtain ⟨ref, hr, rfl⟩ := List.mem_map.1 hentry
      rw [Program.item_ref]
      exact ⟨hp.holds (hp.mem_reachable_iff.1 hr), Packer.offsetOf?_eq_none hp ref⟩
    · rw [List.map_map]
      simpa only [Function.comp_def, Program.item_ref, List.map_id'] using hp.nodup_reachable
  obtain ⟨q₁, hq⟩ := hcommit
  obtain hfail | ⟨_, _, hrun, _, _, ⟨rfl, rfl⟩, hemit, -⟩ := hpack
  · exact absurd (hq.symm.trans hfail) (by simp)
  · have hlaid := Packer.laidout hsane hp hb.grain hacc hrun
    exact hacc.emit_error hp hb.grain hsane hlaid (hopt ▸ hv.sector_le) (hopt ▸ hv.sector_words)
      hemit

/-- Settings with chunks that have no room for a fixup table behind the words in front. -/
def Demo.narrow : Settings :=
  { pack := { chunkSize := 16, fixups := .front, sectorSize := 4 }, padSize := 4 }

theorem Demo.narrow_buildable : Buildable Demo.narrow Demo.files Demo.path :=
  ⟨by decide +kernel, buildable.script_lt, buildable.file_lt⟩

/-- A small program that is refused: there is no room for its header. -/
theorem pack_error_demo : ∃ table p e q, Program.Fresh Demo.narrow Demo.files table p ∧
    p.pack Demo.narrow.pack = (.error e, q) ∧ e.Limit := by
  have h : (match (Reader.readPath Demo.narrow.readOptions Demo.files Demo.path).run {} with
      | (.ok _, reader) =>
        match Compiler.compile (Compiler.context Demo.narrow reader.table Demo.files)
          (Compiler.start Demo.narrow) Demo.narrow.root with
        | .ok p => !(p.pack Demo.narrow.pack).1.toOption.isSome
        | .error _ => false
      | (.error _, _) => false) = true := by decide +kernel
  split at h
  · rename_i reader hread
    split at h
    · rename_i p hcompiled
      have hfresh := Program.fresh_of_path Demo.narrow_buildable hread hcompiled
      rcases hp : p.pack Demo.narrow.pack with ⟨e | b, q⟩
      · exact ⟨_, p, e, q, hfresh, hp, (pack_error hfresh).2 hp⟩
      · rw [hp] at h
        cases h
    · cases h
  · cases h

end LevelBundle
