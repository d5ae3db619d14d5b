/-
  LevelBundle — the stages of emission.

  * `headerRow`, `tableRow`: the words in front and those of the fixup table.
  * `emitHeader_contents`, `emitFixups_spec`, `emitTail_spec`: what each stage of
    emission writes.
  * `Packer.Stages`: the stages of a bundle; `emit_stages`: emission goes through them.
-/
import LevelBundle.Proofs.Slots

namespace LevelBundle

/-- The chunk table, the start position and the position of the fixup table. -/
def headerRow (capacity : UInt32) (start table : Position) : List UInt32 :=
  List.replicate capacity.toNat chunkFiller ++ [0, start.word, table.word]

/-- The fixup table: the positions of the slots, then a zero word. -/
def tableRow (a : Addressing) (slots : List UInt32) : List UInt32 :=
  slots.map (fun o => (a.positionAt o Position.unresolvedFlag).word) ++ [0]

theorem length_headerRow (capacity : UInt32) (start table : Position) :
    (headerRow capacity start table).length = capacity.toNat + 3 := by
  simp [headerRow]

theorem headerRow_end (capacity : UInt32) (start table : Position) (i : ℕ) :
    (headerRow capacity start table)[capacity.toNat + i]? = [0, start.word, table.word][i]? := by
  rw [headerRow, List.getElem?_append_right (by rw [List.length_replicate]; omega),
    List.length_replicate, Nat.add_sub_cancel_left]

theorem length_tableRow (a : Addressing) (slots : List UInt32) :
    (tableRow a slots).length = slots.length + 1 := by
  simp [tableRow]

namespace Packer

variable {k : Packer} {b b' : Buffer}

/-! ## The header -/

theorem emitHeader_contents (k : Packer) (capacity : UInt32) (start : Position) :
    (k.emitHeader capacity start).order = k.options.order ∧
      (k.emitHeader capacity start).contents =
        k.options.order.rowBytes (headerRow capacity start .null) := by
  have h1 := (Buffer.empty k.options.order).extends_foldl
    (List.replicate capacity.toNat chunkFiller)
  have h2 := h1.trans (Buffer.extends_pushWord _ 0)
  have h3 := h2.trans (Buffer.extends_pushWord _ start.word)
  have h4 := h3.trans (Buffer.extends_pushWord _ 0)
  rw [h3.order, h2.order, h1.order] at h4
  refine ⟨h4.order, h4.contents.trans ?_⟩
  simp only [headerRow, ByteOrder.rowBytes_append, ByteOrder.rowBytes_cons,
    ByteOrder.rowBytes_nil, List.append_nil, List.append_assoc]
  rfl

/-! ## The fixup table -/

/-- The positions of slots are written one behind the other. -/
theorem emitSlots_extends {slots : List UInt32}
    (h : slots.foldlM (fun b slot => do
      return Buffer.pushPosition b (← k.position slot Position.unresolvedFlag)) b = .ok b') :
    b.Extends (b.order.rowBytes
      (slots.map fun o => (k.addressing.positionAt o Position.unresolvedFlag).word)) b' := by
  rw [ByteOrder.rowBytes, List.flatMap_map]
  refine foldlM_extends (fun o _ b₂ b₃ ho h => ?_) (rfl : b.order = b.order) h
  simp only [bind_eq_ok, pure_eq_ok] at h
  obtain ⟨pos, hpos, rfl⟩ := h
  obtain ⟨-, rfl⟩ := position_eq_ok hpos
  rw [← ho]
  exact b₂.extends_pushWord _

/-- **The fixup table** is written at the end, its position in the header. -/
theorem emitFixups_spec {tableWord w : UInt32} {slots : List UInt32} {l r : Bytes}
    (hb : b.contents = l ++ b.order.wordBytes w ++ r)
    (hl : tableWord.toNat = l.length) (h : k.emitFixups b tableWord slots = .ok b') :
    b'.order = b.order ∧ k.addressing.Reaches b.offset ∧
      b'.contents = l ++ b.order.wordBytes
          (k.addressing.positionAt b.offset Position.unresolvedFlag).word ++ r ++
        b.order.rowBytes (tableRow k.addressing slots) := by
  simp only [emitFixups, bind_eq_ok, pure_eq_ok] at h
  obtain ⟨pointer, hp, b₁, h1, rfl⟩ := h
  obtain ⟨henc, rfl⟩ := position_eq_ok hp
  have hpatch := Buffer.contents_patch hb (b.order.length_wordBytes w) hl
    (k.addressing.positionAt b.offset Position.unresolvedFlag).word
  have hslots := emitSlots_extends h1
  have hall := hslots.trans (b₁.extends_pushWord 0)
  refine ⟨hall.order, henc.reaches, ?_⟩
  have horder : b₁.order = b.order := hslots.order
  rw [hall.contents, hpatch, tableRow, ByteOrder.rowBytes_append, ByteOrder.rowBytes_cons,
    ByteOrder.rowBytes_nil, List.append_nil, horder]
  rfl

/-! ## The end -/

/-- The zeros up to a sector. -/
def sectorZeros (length sector : ℕ) : ℕ :=
  if sector ≤ 1 ∨ length % sector = 0 then 0 else sector - length % sector

/-- The zeros up to a chunk border, for a table that would cross it. -/
def borderZeros (length chunk size : ℕ) : ℕ :=
  if chunk < length % chunk + size then chunk - length % chunk else 0

theorem sectorZeros_lt (length : ℕ) {sector : ℕ} (h : 0 < sector) :
    sectorZeros length sector < sector := by
  unfold sectorZeros
  split_ifs <;> omega

/-- **Zeros up to a sector.** -/
theorem extends_sector {sector : UInt32} (h : b.contents.length + sector.toNat < 2 ^ 32) :
    b.Extends (List.replicate (sectorZeros b.contents.length sector.toNat) 0)
      (b.padTo (b.nextBoundary sector)) := by
  have ho := Buffer.toNat_offset (b := b) (by omega)
  have hext := Buffer.extends_padTo (b := b) (by omega) (b.nextBoundary sector)
  suffices hz : (b.nextBoundary sector).toNat - b.contents.length =
      sectorZeros b.contents.length sector.toNat by rwa [hz] at hext
  unfold Buffer.nextBoundary sectorZeros
  by_cases h1 : sector ≤ 1
  · rw [if_pos h1, if_pos (Or.inl (show sector.toNat ≤ 1 from UInt32.le_iff_toNat_le.1 h1)),
      ho, Nat.sub_self]
  · have h1' : ¬ sector.toNat ≤ 1 := fun h => h1 (UInt32.le_iff_toNat_le.2 h)
    have hmod := Nat.mod_le b.contents.length sector.toNat
    rw [if_neg h1, toNat_roundUp (by omega) (by omega), ho]
    split_ifs <;> omega

/-- **Zeros up to the place of the table.** -/
theorem extends_border {chunk : UInt32} {size blocks : ℕ} (hpos : 0 < chunk.toNat)
    (hsize : size ≤ chunk.toNat)
    (hb : b.contents.length < (blocks + 1) * chunk.toNat)
    (hfile : (blocks + 1) * chunk.toNat < 2 ^ 32) :
    b.Extends (List.replicate (borderZeros b.contents.length chunk.toNat size) 0)
      (b.padTo (if chunk.toNat < (b.offset % chunk).toNat + size then roundUp b.offset chunk
        else b.offset)) := by
  have ho := Buffer.toNat_offset (b := b) (by omega)
  have hmod : (b.offset % chunk).toNat = b.contents.length % chunk.toNat := by
    rw [UInt32.toNat_mod, ho]
  -- the next border is that of a block that can be counted
  have hnext : b.contents.length - b.contents.length % chunk.toNat + chunk.toNat < 2 ^ 32 := by
    have hd := Nat.div_add_mod' b.contents.length chunk.toNat
    have hq : b.contents.length / chunk.toNat < blocks + 1 := Nat.div_lt_of_lt_mul (by
      rw [Nat.mul_comm]; exact hb)
    have hm := Nat.mul_le_mul_right chunk.toNat (Nat.succ_le_of_lt hq)
    rw [Nat.succ_mul] at hm
    omega
  have hext := Buffer.extends_padTo (b := b) (by omega)
    (if chunk.toNat < (b.offset % chunk).toNat + size then roundUp b.offset chunk else b.offset)
  suffices hz : (if chunk.toNat < (b.offset % chunk).toNat + size then roundUp b.offset chunk
      else b.offset).toNat - b.contents.length =
      borderZeros b.contents.length chunk.toNat size by rwa [hz] at hext
  have hlt := Nat.mod_lt b.contents.length hpos
  have hle := Nat.mod_le b.contents.length chunk.toNat
  unfold borderZeros
  rw [hmod]
  by_cases hc : chunk.toNat < b.contents.length % chunk.toNat + size
  · rw [if_pos hc, if_pos hc, toNat_roundUp_of_lt hpos (by rw [ho]; exact fun _ => hnext), ho]
    split_ifs
    · omega
    · omega
  · rw [if_neg hc, if_neg hc, ho, Nat.sub_self]

/-- A table behind those zeros lies inside one chunk. -/
theorem borderZeros_spec {length chunk size blocks : ℕ} (hpos : 0 < chunk) (hsize : size ≤ chunk)
    (hb : length < (blocks + 1) * chunk) :
    length + borderZeros length chunk size ≤ (blocks + 1) * chunk ∧
      (length + borderZeros length chunk size) % chunk + size ≤ chunk := by
  have hlt := Nat.mod_lt length hpos
  have hd := Nat.div_add_mod' length chunk
  have hq : length / chunk < blocks + 1 := Nat.div_lt_of_lt_mul (by rw [Nat.mul_comm]; exact hb)
  have hm := Nat.mul_le_mul_right chunk (Nat.succ_le_of_lt hq)
  unfold borderZeros
  split_ifs with hc
  · have he : length + (chunk - length % chunk) = (length / chunk).succ * chunk := by
      rw [Nat.succ_mul]; omega
    rw [he]
    exact ⟨hm, by rw [Nat.mul_mod_left]; omega⟩
  · exact ⟨by omega, by rw [Nat.add_zero]; omega⟩

/-- A buffer with zeros behind it, up to the place of a table of this size. -/
def tableStart (k : Packer) (b : Buffer) (size : ℕ) : Buffer :=
  let sector := b.padTo (b.nextBoundary k.options.sectorSize)
  sector.padTo (if k.options.chunkSize.toNat < (sector.offset % k.options.chunkSize).toNat + size
    then roundUp sector.offset k.options.chunkSize else sector.offset)

/-- The zeros behind the items, before a table of this size. -/
structure Zeros (k : Packer) (length size zs zb : ℕ) : Prop where
  sector : zs = sectorZeros length k.options.sectorSize.toNat
  border : zb = borderZeros (length + zs) k.options.chunkSize.toNat size

/-- **Zeros up to the place of the table.** -/
theorem tableStart_spec {capacity size : ℕ} (hpos : 0 < k.options.chunkSize.toNat)
    (hsector : k.options.sectorSize.toNat ≤ k.options.chunkSize.toNat)
    (hfile : (capacity + 1) * k.options.chunkSize.toNat < 2 ^ 32)
    (hlen : b.contents.length ≤ capacity * k.options.chunkSize.toNat)
    (hsize : size ≤ k.options.chunkSize.toNat) :
    ∃ zs zb, Zeros k b.contents.length size zs zb ∧
      b.Extends (List.replicate (zs + zb) 0) (k.tableStart b size) ∧
      (k.tableStart b size).offset.toNat = b.contents.length + zs + zb ∧
      (b.contents.length + zs + zb) % k.options.chunkSize.toNat + size ≤
        k.options.chunkSize.toNat := by
  have hstop : b.contents.length + k.options.sectorSize.toNat < 2 ^ 32 := by
    rw [Nat.add_mul, Nat.one_mul] at hfile
    omega
  have hs := extends_sector hstop
  have hlen2 := congrArg List.length hs.contents
  rw [List.length_append, List.length_replicate] at hlen2
  have hlt : b.contents.length + sectorZeros b.contents.length k.options.sectorSize.toNat <
      (capacity + 1) * k.options.chunkSize.toNat := by
    have hz : sectorZeros b.contents.length k.options.sectorSize.toNat <
        k.options.chunkSize.toNat := by
      rcases Nat.eq_zero_or_pos k.options.sectorSize.toNat with h0 | h0
      · rw [sectorZeros, if_pos (Or.inl (by omega))]; exact hpos
      · exact (sectorZeros_lt _ h0).trans_le hsector
    rw [Nat.add_mul, Nat.one_mul]
    omega
  have hbord := extends_border (b := b.padTo (b.nextBoundary k.options.sectorSize)) hpos hsize
    (by rw [hlen2]; exact hlt) hfile
  have hspec := borderZeros_spec hpos hsize hlt
  rw [hlen2] at hbord
  have hall : b.Extends (List.replicate (sectorZeros b.contents.length k.options.sectorSize.toNat +
      borderZeros (b.contents.length + sectorZeros b.contents.length k.options.sectorSize.toNat)
        k.options.chunkSize.toNat size) 0) (k.tableStart b size) := by
    rw [← List.replicate_append_replicate]
    exact hs.trans hbord
  have hlen3 := congrArg List.length hall.contents
  rw [List.length_append, List.length_replicate, ← Nat.add_assoc] at hlen3
  refine ⟨_, _, ⟨rfl, rfl⟩, hall, ?_, hspec.2⟩
  rw [Buffer.toNat_offset (by omega), hlen3]

/-- **What is written behind the items.** -/
theorem emitTail_spec {capacity tableWord w : UInt32} {slots : List UInt32} {l r : Bytes}
    (hpos : 0 < k.options.chunkSize.toNat)
    (hsector : k.options.sectorSize.toNat ≤ k.options.chunkSize.toNat)
    (hfile : (capacity.toNat + 1) * k.options.chunkSize.toNat < 2 ^ 32)
    (hlen : b.contents.length ≤ capacity.toNat * k.options.chunkSize.toNat)
    (hb : b.contents = l ++ b.order.wordBytes w ++ r) (hl : tableWord.toNat = l.length)
    {added : ℕ} {table : Option UInt32}
    (h : k.emitTail b capacity tableWord slots = .ok (b', added, table)) :
    (k.options.fixups ≠ .tail → table = none ∧ b'.contents = b.contents ++
      List.replicate (sectorZeros b.contents.length k.options.sectorSize.toNat) 0) ∧
    (k.options.fixups = .tail → ∃ t zs zb, table = some t ∧ k.addressing.Reaches t ∧
      Zeros k b.contents.length (4 * (slots.length + 1)) zs zb ∧
      t.toNat = b.contents.length + zs + zb ∧
      t.toNat / k.options.chunkSize.toNat ≤ capacity.toNat ∧
      t.toNat % k.options.chunkSize.toNat + 4 * (slots.length + 1) ≤ k.options.chunkSize.toNat ∧
      b'.contents = l ++ b.order.wordBytes
          (k.addressing.positionAt t Position.unresolvedFlag).word ++ r ++
        List.replicate (zs + zb) 0 ++ b.order.rowBytes (tableRow k.addressing slots)) := by
  simp only [emitTail] at h
  by_cases hmode : k.options.fixups = .tail
  · rw [if_neg (not_not.2 hmode), check_eq_ok, check_eq_ok] at h
    obtain ⟨htoo, hblock, h⟩ := h
    simp only [bind_eq_ok, pure_eq_ok, Prod.mk.injEq] at h
    obtain ⟨b₂, h2, rfl, -, rfl⟩ := h
    obtain ⟨zs, zb, hz, hext, ho, hin⟩ :=
      tableStart_spec hpos hsector hfile hlen (Nat.not_lt.1 htoo)
    have hb₂ : (k.tableStart b (4 * (slots.length + 1))).contents =
        l ++ (k.tableStart b (4 * (slots.length + 1))).order.wordBytes w ++
          (r ++ List.replicate (zs + zb) 0) := by
      rw [hext.order, hext.contents, hb]
      simp only [List.append_assoc]
    obtain ⟨-, hreach, h2⟩ := emitFixups_spec hb₂ hl h2
    rw [UInt32.not_lt, UInt32.le_iff_toNat_le, UInt32.toNat_div] at hblock
    refine ⟨fun hne => absurd hmode hne, fun _ => ⟨_, zs, zb, rfl, hreach, hz, ho, hblock, ?_, ?_⟩⟩
    · exact (show (k.tableStart b (4 * (slots.length + 1))).offset.toNat % _ + _ ≤ _ by
        rw [ho]; exact hin)
    · rw [h2, hext.order]
      simp only [List.append_assoc]
      rfl
  · have hstop : b.contents.length + k.options.sectorSize.toNat < 2 ^ 32 := by
      rw [Nat.add_mul, Nat.one_mul] at hfile
      omega
    rw [if_pos hmode, pure_eq_ok] at h
    cases h
    exact ⟨fun _ => ⟨rfl, (extends_sector hstop).contents⟩, fun h => absurd h hmode⟩

/-! ## The file -/

/-- The entries in the order in which they are written. -/
def inOrder (items : List Item) (layout : Layout) : List (Item × UInt32) :=
  (items.zip layout.offsets.toList).mergeSort fun a b => a.2 ≤ b.2

/-- The stages of emission, one by one. -/
structure Stages (k : Packer) (q : Program) (items : List Item) (s : Settled) (b : Bundle)
    (slots : List UInt32) (header body file : Buffer) (table : Option UInt32) : Prop where
  start : ∃ o, q.offsetOf? (.level q.root) = some o ∧
    k.position o Position.unresolvedFlag = .ok b.start
  slots_eq : Packer.slots q items = .ok slots
  header_eq : (if k.options.fixups = .front then
      k.emitFixups (k.emitHeader s.capacity b.start)
        ((k.emitHeader s.capacity b.start).offset - wordSize) slots
    else pure (k.emitHeader s.capacity b.start)) = .ok header
  header_offset : header.offset = s.headerSize
  body_eq : k.emitItems q header (inOrder items s.layout) = .ok body
  tail_eq : ∃ added, k.emitTail body s.capacity
    ((k.emitHeader s.capacity b.start).offset - wordSize) slots = .ok (file, added, table)
  bytes : b.bytes = file.bytes
  chunkSize : b.chunkSize = k.options.chunkSize
  chunkCount : b.chunkCount = s.capacity
  headerSize : b.headerSize = s.headerSize
  fixupCount : b.fixupCount = slots.length
  fixupTable : b.fixupTable = ((if k.options.fixups = .front then
    some ((k.emitHeader s.capacity b.start).offset - wordSize + wordSize) else none) <|> table)
  placements : b.placements = (inOrder items s.layout).map fun e =>
    ⟨e.2, e.1.size, e.1.padSize, e.1.kind, e.1.name⟩
  passes : b.passes = s.passes

theorem emit_stages {q : Program} {items : List Item} {s : Settled} {b : Bundle}
    (h : k.emit q items s = .ok b) :
    ∃ slots header body file table, Stages k q items s b slots header body file table := by
  simp only [emit, bind_eq_ok] at h
  obtain ⟨o, ho, start, hstart, slots, hslots, h⟩ := h
  have hoff := sectionOffset_eq_ok ho
  by_cases hf : k.options.fixups = .front
  · simp only [if_pos hf, bind_eq_ok, check_eq_ok, pure_eq_ok] at h
    obtain ⟨header, hheader, hsize, body, hbody, ⟨file, added, table⟩, htail, -, rfl⟩ := h
    exact ⟨slots, header, body, file, table, ⟨o, hoff, hstart⟩, hslots, (if_pos hf).trans hheader,
      not_not.1 hsize, hbody, ⟨added, htail⟩, rfl, rfl, rfl, rfl, rfl, by rw [if_pos hf], rfl, rfl⟩
  · simp only [if_neg hf, bind_eq_ok, check_eq_ok, pure_eq_ok] at h
    obtain ⟨header, rfl, hsize, body, hbody, ⟨file, added, table⟩, htail, -, rfl⟩ := h
    exact ⟨slots, _, body, file, table, ⟨o, hoff, hstart⟩, hslots, if_neg hf, not_not.1 hsize,
      hbody, ⟨added, htail⟩, rfl, rfl, rfl, rfl, rfl, by rw [if_neg hf], rfl, rfl⟩

variable {ctx : CompileContext} {pad : UInt32} {p q : Program} {s : Settled}

/-- The entries are those of the layout, in the order of their offsets. -/
theorem Laidout.inOrder (hl : Laidout k p q s) :
    (inOrder p.items s.layout).Perm (p.reachable.map fun ref => (p.item ref, q.place ref)) ∧
      (inOrder p.items s.layout).Pairwise fun e e' => e.2.toNat ≤ e'.2.toNat := by
  refine ⟨hl.zip_eq ▸ List.mergeSort_perm _ _, ?_⟩
  have hsorted : (Packer.inOrder p.items s.layout).Pairwise fun a b => decide (a.2 ≤ b.2) = true :=
    List.pairwise_mergeSort
      (fun a b c h1 h2 => by
        simp only [decide_eq_true_eq] at *; exact UInt32.le_trans h1 h2)
      (fun a b => by
        simp only [Bool.or_eq_true, decide_eq_true_eq]; exact UInt32.le_total a.2 b.2) _
  exact hsorted.imp fun h => UInt32.le_iff_toNat_le.1 (of_decide_eq_true h)

/-- The entries can be written behind a header that is as long as the layout says. -/
theorem Laidout.writable (hp : p.Sound ctx pad) (g : Grain ctx.chunkSize pad) (hk : k.Sane)
    (hl : Laidout k p q s) (hcap : s.capacity ≤ k.maxChunks) {head : Bytes}
    (hhead : head.length = s.headerSize.toNat) :
    (∀ e ∈ Packer.inOrder p.items s.layout,
      Writable head (q.contents k.addressing k.options.order) e) ∧
      (Packer.inOrder p.items s.layout).Pairwise Apart := by
  obtain ⟨hperm, hsorted⟩ := hl.inOrder
  have hmem {e} (he : e ∈ Packer.inOrder p.items s.layout) :
      ∃ ref, p.Leads ref ∧ e = (p.item ref, q.place ref) := by
    obtain ⟨ref, hr, rfl⟩ := List.mem_map.1 (hperm.mem_iff.1 he)
    exact ⟨ref, hp.mem_reachable_iff.1 hr, rfl⟩
  refine ⟨fun e he => ?_, ?_⟩
  · obtain ⟨ref, hr, rfl⟩ := hmem he
    refine ⟨?_, ?_, (hl.stop_lt hk hcap hr).2⟩
    · rw [Program.item_ref, hp.length_contents hl.moved (hp.holds hr)]
      exact (hp.fit g (hp.holds hr)).size_le
    · rw [hhead]; exact (hl.lies hr).header_le
  · have hnodup : (Packer.inOrder p.items s.layout).Nodup := by
      refine hperm.nodup_iff.2 (hp.nodup_reachable.map fun ref ref' h => ?_)
      have := congrArg (fun e : Item × UInt32 => e.1.ref) h
      simpa only [Program.item_ref] using this
    refine (hsorted.and hnodup).imp_of_mem fun {e e'} he he' h => ?_
    obtain ⟨ref, hr, rfl⟩ := hmem he
    obtain ⟨ref', hr', rfl⟩ := hmem he'
    exact ⟨h.1, hl.apart hr hr' fun heq => h.2 (by rw [heq])⟩

end Packer

end LevelBundle
