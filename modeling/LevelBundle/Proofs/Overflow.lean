/-
  LevelBundle — packing with checks for overflow.

  Offsets, sizes and sums of them are words when a program is packed, and a word that
  wraps says nothing of it.  Here the same steps are taken with numbers, and they come to
  nothing where a number does not fit in a word, a difference would be negative, or a
  place is encoded whose block has no name.

  * `Checked`: answers that may come to nothing.
  * `Checked.emit`: writing a file, checked; `Checked.pack`: packing, checked.
  * `Agrees x y`: the step `x` passes all its checks and answers as `y` does.
-/
import LevelBundle.Proofs.Exactness
import LevelBundle.Proofs.PackOnce

namespace LevelBundle

/-- An answer, or nothing where a number does not fit. -/
abbrev Checked := ExceptT PackError Option

namespace Checked

variable {α : Type}

/-- An answer, if a condition holds. -/
def guard (c : Prop) [Decidable c] (x : Except PackError α) : Checked α :=
  ExceptT.mk (if c then some x else none)

/-- An answer that is not checked. -/
def answer (x : Except PackError α) : Checked α := ExceptT.mk (some x)

/-- The word of a number. -/
def number (n : ℕ) : Checked UInt32 := guard (n < 2 ^ 32) (.ok n.toUInt32)

/-- A difference. -/
def sub (a b : UInt32) : Checked UInt32 := guard (b ≤ a) (.ok (a - b))

/-! ## Buffers -/

/-- The offset at which the next byte lands. -/
def offset (b : Buffer) : Checked UInt32 := number b.bytes.size

/-- How many zeros are missing up to an offset. -/
def gap (b : Buffer) (target : UInt32) : Checked UInt32 := do
  let here ← offset b
  if target ≤ here then return 0
  sub target here

/-- Writes zeros up to an offset. -/
def padTo (b : Buffer) (target : UInt32) : Checked Buffer := do
  return b.fill 0 (← gap b target)

/-- The least multiple of a step that is at least an offset. -/
def up (offset step : UInt32) : Checked UInt32 := number (roundedUp offset.toNat step.toNat)

/-- The next multiple of a boundary; a boundary of at most one asks for nothing. -/
def nextBoundary (b : Buffer) (boundary : UInt32) : Checked UInt32 := do
  let here ← offset b
  if boundary ≤ 1 then return here
  up here boundary

/-! ## References -/

/-- The bytes of a part. -/
def bytesOf : Part → ℕ
  | .literal bytes => bytes.length
  | part => part.size.toNat

/-- Parts with the bytes in front of them. -/
def partOffsets (start : ℕ) : List Part → List (ℕ × Part)
  | [] => []
  | part :: rest => (start, part) :: partOffsets (start + bytesOf part) rest

/-- The position of a place in the bundle, whose block has to have a name. -/
def position (k : Packer) (offset flags : UInt32) : Checked Position :=
  guard (offset / k.addressing.chunkSize < k.addressing.maxBlocks) (k.position offset flags)

/-- Where the references of all items lie, in increasing order. -/
def slots (program : Program) (items : List Item) : Checked (List UInt32) := do
  let all ← items.mapM fun i =>
    match i.ref with
    | .level id => do
      let base ← answer (Packer.sectionOffset program id)
      let references := (partOffsets 0 (program.sectionAt id).parts).filter fun entry =>
        entry.2.isReference
      references.mapM fun entry => number (base.toNat + entry.1)
    | .blob _ => return []
  return all.flatten.mergeSort (· ≤ ·)

/-! ## Writing -/

/-- Writes a part of a section. -/
def emitPart (k : Packer) (program : Program) (b : Buffer) : Part → Checked Buffer
  | .blob id => do
    let offset ← answer (Packer.blobOffset program id)
    return b.pushPosition (← position k offset Position.unresolvedFlag)
  | .level id => do
    let offset ← answer (Packer.sectionOffset program id)
    return b.pushPosition (← position k offset Position.unresolvedFlag)
  | .runtimeFile _ id => do
    let offset ← answer (Packer.sectionOffset program id)
    let flags := Position.unresolvedFlag ||| Position.runtimeFlag
    return b.pushPosition (← position k offset flags)
  | part => answer (k.emitPart program b part)

/-- Writes the contents of an item. -/
def emitItem (k : Packer) (program : Program) (b : Buffer) (i : Item) : Checked Buffer :=
  match i.ref with
  | .level id => (program.sectionAt id).parts.foldlM (emitPart k program) b
  | .blob id => return b.append (program.store.bytes id)

/-- Writes an item at its offset, with zeros in front of it and behind it. -/
def emitEntry (k : Packer) (program : Program) (b : Buffer) (entry : Item × UInt32) :
    Checked Buffer := do
  let b ← emitItem k program (← padTo b entry.2) entry.1
  padTo b (← number (entry.2.toNat + entry.1.padSize.toNat))

/-- Writes the items at their offsets. -/
def emitItems (k : Packer) (program : Program) (b : Buffer) (placed : List (Item × UInt32)) :
    Checked Buffer :=
  placed.foldlM (emitEntry k program) b

/-- Writes the fixup table and its position, which goes to `tableWord`. -/
def emitFixups (k : Packer) (b : Buffer) (tableWord : UInt32) (slots : List UInt32) :
    Checked Buffer := do
  let pointer ← position k (← offset b) Position.unresolvedFlag
  let b ← slots.foldlM (fun b slot => do
    return Buffer.pushPosition b (← position k slot Position.unresolvedFlag))
    (b.patch tableWord pointer.word)
  return b.pushWord 0

/-- The place behind a buffer for a table of some bytes: the next chunk border, if the table
    would cross that. -/
def border (k : Packer) (b : Buffer) (size : ℕ) : Checked UInt32 := do
  let here ← offset b
  if k.options.chunkSize.toNat < (here % k.options.chunkSize).toNat + size then
    up here k.options.chunkSize
  else return here

/-- Writes zeros up to a sector and the fixup table, if it lies at the end. -/
def emitTail (k : Packer) (b : Buffer) (capacity tableWord : UInt32) (slots : List UInt32) :
    Checked (Buffer × ℕ × Option UInt32) := do
  let chunkSize := k.options.chunkSize
  let sector ← nextBoundary b k.options.sectorSize
  let pad := (← gap b sector).toNat
  let b ← padTo b sector
  if k.options.fixups ≠ .tail then return (b, pad, none)
  let size := 4 * (slots.length + 1)
  if chunkSize.toNat < size then throw (.fixupTableTooLarge size chunkSize)
  let border ← border k b size
  let pad := pad + (← gap b border).toNat
  let b ← padTo b border
  let table ← offset b
  let block := table / chunkSize
  if capacity < block then throw (.fixupTableUnaddressable block capacity)
  let b ← emitFixups k b tableWord slots
  return (b, pad + size, some table)

/-- Writes the file. -/
def emit (k : Packer) (program : Program) (items : List Item) (s : Settled) : Checked Bundle := do
  let rootOffset ← answer (Packer.sectionOffset program program.root)
  let start ← position k rootOffset Position.unresolvedFlag
  let header := k.emitHeader s.capacity start
  let tableWord ← sub (← offset header) wordSize
  let behind ← number (tableWord.toNat + wordSize.toNat)
  let slots ← slots program items
  let front := k.options.fixups = .front
  let header ← (if front then emitFixups k header tableWord slots else pure header)
  let frontTable := if front then some behind else none
  let headerSize ← offset header
  if headerSize ≠ s.headerSize then
    throw (.sizeMismatch s.headerSize.toNat headerSize.toNat)
  let placed := Packer.inOrder items s.layout
  let body ← emitItems k program header placed
  let stop ← offset body
  let chunkBytes := s.capacity.toNat * k.options.chunkSize.toNat
  let endPad ← guard (stop.toNat ≤ chunkBytes) (.ok (chunkBytes - stop.toNat))
  let (file, added, tailTable) ← emitTail k body s.capacity tableWord slots
  let _ ← offset file
  let expected := chunkBytes - endPad + added
  if file.bytes.size ≠ expected then throw (.sizeMismatch expected file.bytes.size)
  return {
    bytes := file.bytes, chunkSize := k.options.chunkSize, chunkCount := s.capacity
    headerSize := s.headerSize, fixupCount := slots.length
    fixupTable := frontTable <|> tailTable
    start
    placements := placed.map fun (i, offset) => ⟨offset, i.size, i.padSize, i.kind, i.name⟩
    slack := s.layout.slack, passes := s.passes }

/-- Packs a program. -/
def pack (k : Packer) (p : Program) : Checked Bundle := do
  let s ← answer (k.plan p)
  match ((Packer.commit p.items s.layout).run p : Except PackError Unit × Program) with
  | (.error e, _) => throw e
  | (.ok _, q) => emit k q p.items s

end Checked

/-! ## Agreement -/

/-- A step passes all its checks, and this is its answer. -/
def Agrees {α : Type} (x : Checked α) (y : Except PackError α) : Prop := x.run = some y

namespace Agrees

variable {α β γ : Type} {x : Checked α} {y : Except PackError α} {a : α}

theorem guard {c : Prop} [Decidable c] (h : c) : Agrees (Checked.guard c y) y := by
  simp only [Agrees, Checked.guard, if_pos h, ExceptT.run, ExceptT.mk]

theorem answer : Agrees (Checked.answer y) y := rfl

theorem pure : Agrees (Pure.pure a) (Pure.pure a) := rfl

theorem bind {f : α → Checked β} {g : α → Except PackError β} (h : Agrees x y)
    (hf : ∀ a, y = .ok a → Agrees (f a) (g a)) : Agrees (x >>= f) (y >>= g) := by
  unfold Agrees at *
  rw [ExceptT.run_bind, h]
  cases y with
  | error e => rfl
  | ok a => exact hf a rfl

theorem bind_ok {f : α → Checked β} {z : Except PackError β} (h : Agrees x (.ok a))
    (hf : Agrees (f a) z) : Agrees (x >>= f) z := by
  unfold Agrees at *
  rw [ExceptT.run_bind, h]
  exact hf

theorem check {c : Prop} [Decidable c] {e : PackError} {f : PUnit → Checked α}
    {g : PUnit → Except PackError α} (h : ¬ c → Agrees x y) :
    Agrees (if c then MonadExcept.throw e >>= f else x)
      (if c then MonadExcept.throw e >>= g else y) := by
  split_ifs with hc
  · rfl
  · exact h hc

theorem mapM {f : α → Checked β} {g : α → Except PackError β} {l : List α}
    (h : ∀ a ∈ l, Agrees (f a) (g a)) : Agrees (l.mapM f) (l.mapM g) := by
  induction l with
  | nil => rfl
  | cons a l ih =>
    rw [List.mapM_cons, List.mapM_cons]
    exact (h a (by simp)).bind fun _ _ => (ih fun a' ha => h a' (by simp [ha])).bind
      fun _ _ => .pure

theorem mapM_ok {f : α → Checked β} {g : α → β} {l : List α}
    (h : ∀ a ∈ l, Agrees (f a) (.ok (g a))) : Agrees (l.mapM f) (.ok (l.map g)) := by
  induction l with
  | nil => rfl
  | cons a l ih =>
    rw [List.mapM_cons, List.map_cons]
    exact (h a (by simp)).bind_ok ((ih fun a' ha => h a' (by simp [ha])).bind_ok .pure)

theorem foldlM {f : β → α → Checked β} {g : β → α → Except PackError β} {l : List α}
    (h : ∀ a ∈ l, ∀ b, Agrees (f b a) (g b a)) (b : β) : Agrees (l.foldlM f b) (l.foldlM g b) := by
  induction l generalizing b with
  | nil => rfl
  | cons a l ih =>
    rw [List.foldlM_cons, List.foldlM_cons]
    exact (h a (by simp) b).bind fun b' _ => ih (fun a' ha => h a' (by simp [ha])) b'

theorem number {n : ℕ} (h : n < 2 ^ 32) : Agrees (Checked.number n) (.ok n.toUInt32) := guard h

theorem sub {a b : UInt32} (h : b ≤ a) : Agrees (Checked.sub a b) (.ok (a - b)) := guard h

end Agrees

namespace Checked

variable {k : Packer} {p q : Program} {s : Settled} {b : Buffer}

/-! ## Buffers -/

theorem agrees_offset (h : b.contents.length < 2 ^ 32) : Agrees (offset b) (.ok b.offset) := by
  rw [← Buffer.size_eq] at h
  exact .number h

theorem agrees_gap (h : b.contents.length < 2 ^ 32) (target : UInt32) :
    Agrees (gap b target) (.ok (b.gap target)) := by
  refine (agrees_offset h).bind_ok ?_
  unfold Buffer.gap
  split_ifs with hle
  · exact .pure
  · exact .sub (UInt32.le_of_lt (UInt32.not_le.1 hle))

theorem agrees_padTo (h : b.contents.length < 2 ^ 32) (target : UInt32) :
    Agrees (padTo b target) (.ok (b.padTo target)) :=
  (agrees_gap h target).bind_ok .pure

theorem agrees_up {v step : UInt32} (hs : 0 < step.toNat)
    (h : roundedUp v.toNat step.toNat < 2 ^ 32) : Agrees (up v step) (.ok (roundUp v step)) := by
  have hword : (roundedUp v.toNat step.toNat).toUInt32 = roundUp v step :=
    UInt32.toNat_inj.1 (by rw [toNat_toUInt32 h, toNat_roundUp_eq hs h])
  exact hword ▸ .number h

theorem agrees_nextBoundary {boundary : UInt32}
    (h : b.contents.length + boundary.toNat ≤ 2 ^ 32) (hlt : b.contents.length < 2 ^ 32) :
    Agrees (nextBoundary b boundary) (.ok (b.nextBoundary boundary)) := by
  refine (agrees_offset hlt).bind_ok ?_
  unfold Buffer.nextBoundary
  split_ifs with h1
  · exact .pure
  · have h1 : ¬ boundary.toNat ≤ 1 := fun h => h1 (UInt32.le_iff_toNat_le.2 h)
    refine agrees_up (by omega) ?_
    rw [Buffer.toNat_offset hlt]
    exact (roundedUp_lt _ (by omega)).trans_le h

/-! ## References -/

theorem agrees_position {o : UInt32} (h : k.addressing.Reaches o) (flags : UInt32) :
    Agrees (position k o flags) (k.position o flags) :=
  .guard (UInt32.lt_iff_toNat_lt.2 (by rw [UInt32.toNat_div]; exact h.1))

theorem bytesOf_eq {chunk : UInt32} {part : Part} (h : part.Small chunk) :
    bytesOf part = part.size.toNat := by
  cases part with
  | literal bytes => exact h.length_literal
  | blob | level | runtimeFile | align | pad => rfl

/-- **The offsets of parts are exact.** -/
theorem partOffsets_eq {chunk start : UInt32} {n : ℕ} {parts : List Part}
    (hsmall : ∀ part ∈ parts, part.Small chunk) (hn : start.toNat = n)
    (hs : n + Part.total parts < 2 ^ 32) :
    LevelBundle.partOffsets start parts =
        (partOffsets n parts).map (fun e => (e.1.toUInt32, e.2)) ∧
      ∀ e ∈ partOffsets n parts, e.1 ≤ n + Part.total parts := by
  induction parts generalizing start n with
  | nil => exact ⟨rfl, nofun⟩
  | cons part rest ih =>
    have ht : Part.total (part :: rest) = part.size.toNat + Part.total rest := by simp [Part.total]
    have hbytes := bytesOf_eq (hsmall part (by simp))
    have hnext : (start + part.size).toNat = n + bytesOf part := by
      rw [UInt32.toNat_add, Nat.mod_eq_of_lt] <;> omega
    obtain ⟨heq, hle⟩ := ih (fun q hq => hsmall q (by simp [hq])) hnext (by omega)
    have hstart : start = n.toUInt32 := UInt32.toNat_inj.1 (by rw [toNat_toUInt32 (by omega), hn])
    refine ⟨?_, fun e he => ?_⟩
    · rw [LevelBundle.partOffsets, partOffsets, List.map_cons, heq, hstart]
    · rcases List.mem_cons.1 he with rfl | he
      · exact Nat.le_add_right _ _
      · have := hle e he
        omega

section

variable {ctx : CompileContext} {pad : UInt32} (hp : p.Sound ctx pad) (g : Grain ctx.chunkSize pad)
  (hk : k.Sane) (hl : Packer.Laidout k p q s) (hcap : s.capacity ≤ k.maxChunks)
include hk hl hcap

include hp g in
/-- **The offsets of references are exact.** -/
theorem agrees_slots : Agrees (slots q p.items) (Packer.slots q p.items) := by
  refine .bind (.mapM fun i hi => ?_) fun _ _ => .pure
  obtain ⟨ref, hr, rfl⟩ := List.mem_map.1 hi
  rw [Program.item_ref]
  have hlead := hp.mem_reachable_iff.1 hr
  cases ref with
  | blob id => exact .pure
  | level id =>
    obtain ⟨hs, hoff⟩ := hl.section hp hlead
    have hstop := (hl.stop_lt hk hcap hlead).2
    have hfit := (hp.fit g (hp.holds hlead)).size_le
    have hsize : (p.item (.level id)).size.toNat = Part.total (p.sectionAt id).parts := hs.size_eq
    refine Agrees.answer.bind fun base hbase => ?_
    obtain rfl : q.place (.level id) = base := Packer.place_eq (Packer.sectionOffset_eq_ok hbase)
    obtain ⟨heq, hle⟩ := partOffsets_eq hs.small UInt32.toNat_zero (by omega)
    have hparts : (q.sectionAt id).offsets =
        (partOffsets 0 (p.sectionAt id).parts).map fun e => (e.1.toUInt32, e.2) := hoff.trans heq
    simp only
    rw [hparts, hl.moved.parts, List.filter_map, List.map_map]
    refine .mapM_ok fun e he => ?_
    have hle := hle e (List.mem_filter.1 he).1
    have hsum : q.place (.level id) + e.1.toUInt32 =
        ((q.place (.level id)).toNat + e.1).toUInt32 := by
      refine UInt32.toNat_inj.1 ?_
      rw [UInt32.toNat_add, toNat_toUInt32 (n := e.1) (by omega), toNat_toUInt32 (by omega)]
      exact Nat.mod_eq_of_lt (by omega)
    show Agrees _ (.ok (q.place (.level id) + e.1.toUInt32))
    rw [hsum]
    exact .number (by omega)

/-! ## Items -/

theorem agrees_emitPart {id : SectionId} (hr : p.Leads (.level id)) {part : Part}
    (hpart : part ∈ (p.sectionAt id).parts) (b : Buffer) :
    Agrees (emitPart k q b part) (k.emitPart q b part) := by
  cases part with
  | literal | align | pad => exact .answer
  | blob id' =>
    obtain ⟨ho, hreach⟩ := hl.target hk hcap hr hpart rfl
    rw [← hl.moved.canonical] at ho hreach
    refine Agrees.answer.bind fun o h => (agrees_position ?_ _).bind fun _ _ => .pure
    rw [Packer.blobOffset_ok ho] at h
    exact Except.ok.inj h ▸ hreach
  | level id' | runtimeFile name id' =>
    obtain ⟨ho, hreach⟩ := hl.target hk hcap hr hpart rfl
    refine Agrees.answer.bind fun o h => (agrees_position ?_ _).bind fun _ _ => .pure
    rw [Packer.sectionOffset_ok ho] at h
    exact Except.ok.inj h ▸ hreach

theorem agrees_emitItem {ref : ItemRef} (hr : p.Leads ref) (b : Buffer) :
    Agrees (emitItem k q b (p.item ref)) (k.emitItem q b (p.item ref)) := by
  unfold emitItem Packer.emitItem
  rw [Program.item_ref]
  cases ref with
  | blob id => exact .pure
  | level id =>
    refine .foldlM (fun part hpart b => ?_) b
    rw [hl.moved.parts] at hpart
    exact agrees_emitPart hk hl hcap hr hpart b

end

/-- **One item**: the offset behind it is exact. -/
theorem agrees_emitEntry {e : Item × UInt32} (hlen : b.contents.length < 2 ^ 32)
    (hitem : ∀ b, Agrees (emitItem k q b e.1) (k.emitItem q b e.1))
    (hsize : (q.contents k.addressing b.order e.1.ref).length ≤ e.1.padSize.toNat)
    (hstop : stopOf e < 2 ^ 32) (hle : 0 < e.1.padSize.toNat → b.contents.length ≤ e.2.toNat) :
    Agrees (emitEntry k q b e) (do
      let b ← k.emitItem q (b.padTo e.2) e.1
      return b.padTo (e.2 + e.1.padSize)) := by
  have h1 := Buffer.extends_padTo hlen e.2
  refine (agrees_padTo hlen e.2).bind_ok ((hitem _).bind fun b₂ h2 => ?_)
  have hi := Packer.emitItem_extends h2
  have hlt : b₂.contents.length < 2 ^ 32 := by
    rw [hi.contents, List.length_append, Buffer.length_padTo hlen, h1.order]
    unfold stopOf at hstop
    rcases Nat.eq_zero_or_pos e.1.padSize.toNat with h0 | hpos
    · omega
    · have := hle hpos
      omega
  have hsum : (e.2.toNat + e.1.padSize.toNat).toUInt32 = e.2 + e.1.padSize := by
    refine UInt32.toNat_inj.1 ?_
    rw [toNat_toUInt32 (n := e.2.toNat + e.1.padSize.toNat) hstop, UInt32.toNat_add]
    exact (Nat.mod_eq_of_lt hstop).symm
  exact (Agrees.number hstop).bind_ok (hsum ▸ agrees_padTo hlt _)

/-- **The offsets between items are exact.** -/
theorem agrees_emitItems {order : ByteOrder} {head : Bytes} {entries : List (Item × UInt32)}
    (hitems : ∀ e ∈ entries, ∀ b, Agrees (emitItem k q b e.1) (k.emitItem q b e.1))
    (ho : b.order = order) (hlen : b.contents.length < 2 ^ 32)
    (hb : ∀ e ∈ entries, 0 < e.1.padSize.toNat → b.contents.length ≤ e.2.toNat)
    (hw : ∀ e ∈ entries, Writable head (q.contents k.addressing order) e)
    (hap : entries.Pairwise Apart) :
    Agrees (emitItems k q b entries) (k.emitItems q b entries) := by
  induction entries generalizing b with
  | nil => exact .pure
  | cons e entries ih =>
    obtain ⟨hsize, -, hstop⟩ := hw e (by simp)
    obtain ⟨hbehind, hap⟩ := List.pairwise_cons.1 hap
    rw [emitItems, Packer.emitItems, List.foldlM_cons, List.foldlM_cons]
    refine (agrees_emitEntry hlen (hitems e (by simp)) (ho ▸ hsize) hstop
      (hb e (by simp))).bind fun b₁ h1 => ?_
    have hext := Packer.emitEntry_extends ho hlen hsize hstop (hb e (by simp)) h1
    have hlen₁ := congrArg List.length hext.contents
    simp only [List.length_append, List.length_replicate] at hlen₁
    unfold stopOf at hlen₁ hstop
    -- an item that takes bytes ends where the buffer does
    have hend : b₁.contents.length = max b.contents.length (stopOf e) := by
      unfold stopOf
      rcases Nat.eq_zero_or_pos e.1.padSize.toNat with h0 | hpos
      · omega
      · have := hb e (by simp) hpos
        omega
    refine ih (fun e' he => hitems e' (by simp [he])) (hext.order.trans ho) ?_
      (fun e' he hpos => ?_) (fun e' he => hw e' (by simp [he])) hap
    · rw [hend]
      exact max_lt hlen hstop
    · have := hb e' (by simp [he]) hpos
      obtain ⟨h1, h2⟩ := hbehind e' he
      rw [hend]
      unfold stopOf at h2 ⊢
      omega

/-! ## The fixup table -/

theorem agrees_emitFixups (tableWord : UInt32) {slots : List UInt32}
    (hlen : b.contents.length < 2 ^ 32) (hb : k.addressing.Reaches b.offset)
    (hslots : ∀ o ∈ slots, k.addressing.Reaches o) :
    Agrees (emitFixups k b tableWord slots) (k.emitFixups b tableWord slots) := by
  refine (agrees_offset hlen).bind_ok ((agrees_position hb _).bind fun pointer _ => ?_)
  refine (Agrees.foldlM (fun o ho b => ?_) _).bind fun _ _ => .pure
  exact (agrees_position (hslots o ho) _).bind fun _ _ => .pure

theorem agrees_border {blocks : ℕ} (hpos : 0 < k.options.chunkSize.toNat)
    (hb : b.contents.length ≤ (blocks + 1) * k.options.chunkSize.toNat)
    (hfile : (blocks + 1) * k.options.chunkSize.toNat < 2 ^ 32) (size : ℕ) :
    Agrees (border k b size) (.ok (if k.options.chunkSize.toNat <
        (b.offset % k.options.chunkSize).toNat + size then roundUp b.offset k.options.chunkSize
      else b.offset)) := by
  have hlt := hb.trans_lt hfile
  refine (agrees_offset hlt).bind_ok ?_
  split_ifs
  · refine agrees_up hpos ((roundedUp_le hpos ?_ (Nat.dvd_mul_left _ _)).trans_lt hfile)
    rwa [Buffer.toNat_offset hlt]
  · exact .pure

/-- Zeros up to a sector end in the block behind the chunks, or before. -/
theorem length_sector_le {blocks : ℕ} (hfile : (blocks + 1) * k.options.chunkSize.toNat < 2 ^ 32)
    (hsector : k.options.sectorSize.toNat ≤ k.options.chunkSize.toNat)
    (hlen : b.contents.length ≤ blocks * k.options.chunkSize.toNat) :
    (b.padTo (b.nextBoundary k.options.sectorSize)).contents.length ≤
      (blocks + 1) * k.options.chunkSize.toNat := by
  rw [Nat.add_one_mul] at hfile ⊢
  have hext := Packer.extends_sector
    (show b.contents.length + k.options.sectorSize.toNat < 2 ^ 32 by omega)
  rw [hext.contents, List.length_append, List.length_replicate]
  rcases Nat.eq_zero_or_pos k.options.sectorSize.toNat with h0 | hpos
  · rw [Packer.sectorZeros, if_pos (Or.inl (by omega))]
    omega
  · have := Packer.sectorZeros_lt b.contents.length hpos
    omega

/-- **What stands behind the items is exact**, whether or not the table finds its place. -/
theorem agrees_emitTail {capacity : UInt32} (tableWord : UInt32) {slots : List UInt32}
    (hk : k.Sane) (hcap : capacity ≤ k.maxChunks)
    (hsector : k.options.sectorSize.toNat ≤ k.options.chunkSize.toNat)
    (hwords : 4 ∣ k.options.sectorSize.toNat) (h4 : 4 ∣ b.contents.length)
    (hlen : b.contents.length ≤ capacity.toNat * k.options.chunkSize.toNat)
    (hslots : ∀ o ∈ slots, k.addressing.Reaches o) :
    Agrees (emitTail k b capacity tableWord slots) (k.emitTail b capacity tableWord slots) := by
  have hsane : k.addressing.chunkSize = k.options.chunkSize := hk
  obtain ⟨h16, -, hc4⟩ := k.addressing.words
  rw [hsane] at h16 hc4
  obtain ⟨hmax, hfile⟩ := Packer.capacity_spec hk hcap
  have hroom : b.contents.length + k.options.sectorSize.toNat ≤
      (capacity.toNat + 1) * k.options.chunkSize.toNat := by
    rw [Nat.add_one_mul]
    omega
  have hb : b.contents.length < 2 ^ 32 := by omega
  have hle₁ := length_sector_le hfile hsector hlen
  have hlt₁ := hle₁.trans_lt hfile
  refine (agrees_nextBoundary (by omega) hb).bind_ok ((agrees_gap hb _).bind_ok
    ((agrees_padTo hb _).bind_ok ?_))
  unfold Packer.emitTail
  simp only
  by_cases hmode : k.options.fixups = .tail
  · rw [if_neg (not_not.2 hmode), if_neg (not_not.2 hmode)]
    refine .check fun hsize => ?_
    obtain ⟨zs, zb, -, hext, ho₂, -⟩ :=
      Packer.tableStart_spec (by omega) hsector hfile hlen (Nat.not_lt.1 hsize)
    have hlen₂ := congrArg List.length hext.contents
    rw [List.length_append, List.length_replicate, ← Nat.add_assoc, ← ho₂] at hlen₂
    have hlt₂ := hlen₂.trans_lt (UInt32.toNat_lt _)
    refine (agrees_border (by omega) hle₁ hfile _).bind_ok ((agrees_gap hlt₁ _).bind_ok
      ((agrees_padTo hlt₁ _).bind_ok ((agrees_offset hlt₂).bind_ok (.check fun hblock => ?_))))
    exact (agrees_emitFixups tableWord hlt₂
      (Packer.reaches_tableStart hk hcap hsector hwords h4 hlen (Nat.not_lt.1 hsize) hblock)
      hslots).bind fun _ _ => .pure
  · rw [if_pos hmode, if_pos hmode]
    exact .pure

/-- **The file stays below `2 ^ 32` bytes.** -/
theorem length_emitTail_lt {b' : Buffer} {capacity tableWord : UInt32} {slots : List UInt32}
    {added : ℕ} {table : Option UInt32} (hk : k.Sane) (hcap : capacity ≤ k.maxChunks)
    (hsector : k.options.sectorSize.toNat ≤ k.options.chunkSize.toNat)
    (hlen : b.contents.length ≤ capacity.toNat * k.options.chunkSize.toNat)
    (h : k.emitTail b capacity tableWord slots = .ok (b', added, table)) :
    b'.contents.length < 2 ^ 32 := by
  have hsane : k.addressing.chunkSize = k.options.chunkSize := hk
  obtain ⟨h16, -, -⟩ := k.addressing.words
  rw [hsane] at h16
  obtain ⟨-, hfile⟩ := Packer.capacity_spec hk hcap
  refine Nat.lt_of_le_of_lt ?_ hfile
  simp only [Packer.emitTail] at h
  by_cases hmode : k.options.fixups = .tail
  · rw [if_neg (not_not.2 hmode), check_eq_ok, check_eq_ok] at h
    obtain ⟨hsize, hblock, h⟩ := h
    simp only [bind_eq_ok, pure_eq_ok, Prod.mk.injEq] at h
    obtain ⟨b₂, h2, rfl, -, -⟩ := h
    obtain ⟨zs, zb, -, hext, ho, hin⟩ :=
      Packer.tableStart_spec (by omega) hsector hfile hlen (Nat.not_lt.1 hsize)
    have hlen₂ := congrArg List.length hext.contents
    rw [List.length_append, List.length_replicate, ← Nat.add_assoc, ← ho] at hlen₂
    rw [← ho] at hin
    rw [UInt32.not_lt, UInt32.le_iff_toNat_le, UInt32.toNat_div] at hblock
    -- the table lies in the block that is kept for it, or before
    have hlast := Nat.mul_le_mul_right k.options.chunkSize.toNat hblock
    have hd := Nat.div_add_mod' (k.tableStart b (4 * (slots.length + 1))).offset.toNat
      k.options.chunkSize.toNat
    have htable := Packer.length_emitFixups h2
    change b₂.contents.length = (k.tableStart b (4 * (slots.length + 1))).contents.length + _
      at htable
    change (k.tableStart b (4 * (slots.length + 1))).offset.toNat / _ * _ ≤ _ at hlast
    rw [Nat.add_one_mul]
    omega
  · rw [if_pos hmode, pure_eq_ok] at h
    cases h
    exact length_sector_le hfile hsector hlen

/-- The words in front are short, and the offsets of the last of them are exact. -/
theorem agrees_front {capacity : UInt32} {start : Position} {refs : List UInt32} {header : Buffer}
    (hd : Packer.Headed k capacity start refs ((k.emitHeader capacity start).offset - wordSize)
      header) (hsmall : 4 * (capacity.toNat + 3) < 2 ^ 32) :
    (k.emitHeader capacity start).contents.length < 2 ^ 32 ∧
      wordSize ≤ (k.emitHeader capacity start).offset ∧
      Agrees (number (((k.emitHeader capacity start).offset - wordSize).toNat + wordSize.toNat))
        (.ok ((k.emitHeader capacity start).offset - wordSize + wordSize)) := by
  have hlen : (k.emitHeader capacity start).contents.length = 4 * (capacity.toNat + 3) := by
    rw [(Packer.emitHeader_contents k capacity start).2, ByteOrder.length_rowBytes,
      length_headerRow]
  have hword : wordSize.toNat = 4 := rfl
  refine ⟨by omega, ?_, ?_⟩
  · rw [UInt32.le_iff_toNat_le, Buffer.toNat_offset (by omega)]
    omega
  · have hsum : (k.emitHeader capacity start).offset - wordSize + wordSize =
        (((k.emitHeader capacity start).offset - wordSize).toNat + wordSize.toNat).toUInt32 := by
      refine UInt32.toNat_inj.1 ?_
      rw [hd.behind_eq, hd.tableWord_eq, toNat_toUInt32 (by omega), hword]
      omega
    rw [hsum, hd.tableWord_eq]
    exact .number (by omega)

section

variable {ctx : CompileContext} {pad : UInt32} (hp : p.Sound ctx pad) (g : Grain ctx.chunkSize pad)
  (hk : k.Sane) (hl : Packer.Laidout k p q s)
  (hs : k.Accepts p.items (Packer.fixupCount p p.items) s)
include hp g hk hl hs

/-- **Writing the file is exact**, whether or not it succeeds. -/
theorem agrees_emit (hsector : k.options.sectorSize.toNat ≤ k.options.chunkSize.toNat)
    (hwords : 4 ∣ k.options.sectorSize.toNat) :
    Agrees (emit k q p.items s) (k.emit q p.items s) := by
  have hcap := hs.capacity_le
  obtain ⟨start, refs, header, body, hb⟩ := hs.begun hp g hk hl
  -- the words in front are few
  have hfew := Packer.le_headerSize k s.capacity (Packer.fixupCount p p.items)
  rw [← hs.toNat_headerSize hk] at hfew
  have hlt := s.headerSize.toNat_lt
  have hd := Packer.headed hb.header_eq (by omega)
  obtain ⟨hlt₀, hle₀, hbehind⟩ := agrees_front hd (by omega)
  -- the items end in the chunks
  obtain ⟨hw, hap⟩ := hl.writable hp g hk hcap hb.length
  have hlt₁ : header.contents.length < 2 ^ 32 := hb.length ▸ hlt
  have hitems := agrees_emitItems (b := header) (fun e he b => by
    obtain ⟨ref, hr, rfl⟩ := List.mem_map.1 (hl.inOrder.1.mem_iff.1 he)
    exact agrees_emitItem hk hl hcap (hp.mem_reachable_iff.1 hr) b) hb.order hlt₁
    (fun e he _ => hb.behind e he) hw hap
  obtain ⟨-, hfile⟩ := Packer.capacity_spec hk hcap
  have hle := hb.body_le
  have hlt₂ : body.contents.length < 2 ^ 32 := by
    rw [Nat.add_one_mul] at hfile
    omega
  have ho₂ := Buffer.toNat_offset hlt₂
  unfold emit Packer.emit
  refine Agrees.answer.bind fun o ho => ?_
  rw [Packer.sectionOffset_ok hb.root] at ho
  obtain rfl := Except.ok.inj ho
  refine (agrees_position hb.root_reaches _).bind fun start' hstart => ?_
  obtain rfl := Except.ok.inj (hb.start_eq.symm.trans hstart)
  refine (agrees_offset hlt₀).bind_ok ((Agrees.sub hle₀).bind_ok (hbehind.bind_ok
    ((agrees_slots hp g hk hl hcap).bind fun refs' hrefs => ?_)))
  obtain rfl := Except.ok.inj (hb.slots.symm.trans hrefs)
  -- the header, with the table if it lies there
  have hheader := hb.header_eq
  by_cases hf : k.options.fixups = .front
  all_goals simp only [hf, ↓reduceIte] at hheader ⊢
  on_goal 1 =>
    have hreach := (hd.front hf).1
    rw [UInt32.sub_add_cancel] at hreach
    refine (agrees_emitFixups _ hlt₀ hreach hb.reaches).bind fun header' hheader' => ?_
    obtain rfl := Except.ok.inj (hheader.symm.trans hheader')
  on_goal 2 =>
    obtain rfl := pure_eq_ok.1 hheader
    refine Agrees.pure.bind_ok ?_
  -- the items and the end
  all_goals
    refine (agrees_offset hlt₁).bind_ok (.check fun _ => hitems.bind fun body' hbody => ?_)
    obtain rfl := Except.ok.inj (hb.body_eq.symm.trans hbody)
    refine (agrees_offset hlt₂).bind_ok ((Agrees.guard (by rw [ho₂]; exact hle)).bind_ok ?_)
    refine (agrees_emitTail _ hk hcap hsector hwords hb.words hle hb.reaches).bind
      fun ⟨file, added, table⟩ htail => ?_
    refine (agrees_offset (length_emitTail_lt hk hcap hsector hle htail)).bind_ok ?_
    exact .check fun _ => .pure

/-- A file that is written is short enough for its offsets. -/
theorem size_emit_lt (hsector : k.options.sectorSize.toNat ≤ k.options.chunkSize.toNat)
    {bundle : Bundle} (h : k.emit q p.items s = .ok bundle) : bundle.bytes.size < 2 ^ 32 := by
  obtain ⟨start, refs, header, body, hb⟩ := hs.begun hp g hk hl
  obtain ⟨refs', header', body', file, table, hstages⟩ := Packer.emit_stages h
  obtain rfl := Except.ok.inj (hb.slots.symm.trans hstages.slots_eq)
  obtain ⟨o, ho, hstart⟩ := hstages.start
  obtain rfl := Option.some.inj (hb.root.symm.trans ho)
  obtain rfl := Except.ok.inj (hb.start_eq.symm.trans hstart)
  obtain rfl := Except.ok.inj (hb.header_eq.symm.trans hstages.header_eq)
  obtain rfl := Except.ok.inj (hb.body_eq.symm.trans hstages.body_eq)
  obtain ⟨added, htail⟩ := hstages.tail_eq
  rw [hstages.bytes, Buffer.size_eq]
  exact length_emitTail_lt hk hs.capacity_le hsector hb.body_le htail

end

/-! ## Packing -/

variable {e : PackError}

theorem agrees_pack_of_refused (h : k.plan p = .error e) : Agrees (pack k p) (k.answer p) := by
  rw [(Packer.answer_of_plan_error h).1, pack, h]
  rfl

theorem agrees_pack_of_fails (h : k.plan p = .ok s)
    (hc : Fails (Packer.commit p.items s.layout) p e q) : Agrees (pack k p) (k.answer p) := by
  rw [(Packer.answer_of_commit_fails h hc).1, pack, h]
  refine Agrees.answer.bind_ok ?_
  split
  · rename_i he
    cases hc.symm.trans he
    rfl
  · rename_i he
    cases hc.symm.trans he

theorem agrees_pack_of_runs (h : k.plan p = .ok s)
    (hc : Runs (Packer.commit p.items s.layout) p ⟨⟩ q)
    (he : Agrees (emit k q p.items s) (k.emit q p.items s)) : Agrees (pack k p) (k.answer p) := by
  rw [(Packer.answer_of_commit h hc).1, pack, h]
  refine Agrees.answer.bind_ok ?_
  split
  · rename_i hfails
    cases hc.symm.trans hfails
  · rename_i hruns
    cases hc.symm.trans hruns
    exact he

end Checked

variable {s : Settings} {files : Files} {table : SectionTable} {p : Program} {k : Packer}

/-- **Packing does not overflow.**  However often a compiled program is packed, by the packer of
    its settings and in between by any others: the steps of packing pass all checks and answer
    as they do without them, on the paths that end in a refusal as well.  If a layout is
    accepted, its offsets are the exact places, which end in the chunks, and the file that is
    written has less than `2 ^ 32` bytes. -/
theorem pack_exact (h : p.Fresh s files table) (hk : Packer.ofOptions s.pack = .ok k)
    (ks : List Packer) :
    Agrees (Checked.pack k (p.after ks)) (k.answer (p.after ks)) ∧
      (∀ l, k.plan (p.after ks) = .ok l → k.Exact (p.after ks).items
        (Packer.fixupCount (p.after ks) (p.after ks).items) l) ∧
      ∀ b, k.answer (p.after ks) = .ok b → b.bytes.size < 2 ^ 32 := by
  obtain ⟨hb, hp⟩ := h.sound
  have hv := Settings.valid_of_validate h.valid
  obtain ⟨hsane, hopt⟩ := Packer.sane_of_ofOptions hk
  have hsector : k.options.sectorSize.toNat ≤ k.options.chunkSize.toNat := hopt ▸ hv.sector_le
  have hnone := Packer.offsetOf?_eq_none hp
  -- the program is as it was, or its root is placed
  rcases hp.linked.after hnone ks with hsame | ⟨l, hplaced, hpad⟩
  · rw [hsame]
    refine ⟨?_, fun l hl => (Packer.settle_accepts hl).exact hsane hp hb.grain,
      fun b hanswer => ?_⟩
    all_goals rcases hl : k.plan p with e | l
    · exact Checked.agrees_pack_of_refused hl
    · obtain ⟨q, hq, -⟩ := hp.linked.placed hnone hl
      have hacc := Packer.settle_accepts hl
      exact Checked.agrees_pack_of_runs hl hq (Checked.agrees_emit hp hb.grain hsane
        (Packer.laidout hsane hp hb.grain hacc hq) hacc hsector (hopt ▸ hv.sector_words))
    · rw [(Packer.answer_of_plan_error hl).1] at hanswer
      cases hanswer
    · obtain ⟨q, hq, -⟩ := hp.linked.placed hnone hl
      have hacc := Packer.settle_accepts hl
      rw [(Packer.answer_of_commit hl hq).1] at hanswer
      exact Checked.size_emit_lt hp hb.grain hsane
        (Packer.laidout hsane hp hb.grain hacc hq) hacc hsector hanswer
  · obtain ⟨o, ho⟩ := hplaced.root hp.linked
    have hlinked := hplaced.moved.linked hp.linked
    refine ⟨?_, fun l hl => ?_, fun b hanswer => ?_⟩
    · rcases hl : k.plan (p.after ks) with e | l
      · exact Checked.agrees_pack_of_refused hl
      · exact Checked.agrees_pack_of_fails hl (hlinked.commit_fails ho hl)
    · have hacc := Packer.settle_accepts hl
      rw [hplaced.moved.items hpad, hplaced.moved.fixupCount] at hacc ⊢
      exact hacc.exact hsane hp hb.grain
    · rcases (hlinked.call ho k).2 with ⟨e, -, herror, -⟩ | ⟨l, -, herror⟩
      all_goals
        rw [herror] at hanswer
        cases hanswer

/-- A small program whose layout is accepted. -/
theorem pack_exact_demo : ∃ table p k l, Program.Fresh Demo.settings Demo.files table p ∧
    Packer.ofOptions Demo.settings.pack = .ok k ∧ k.plan p = .ok l ∧
    Agrees (Checked.pack k p) (k.answer p) ∧
    (∀ l, k.plan p = .ok l → k.Exact p.items (Packer.fixupCount p p.items) l) ∧
    ∀ b, k.answer p = .ok b → b.bytes.size < 2 ^ 32 := by
  obtain ⟨b, stats, hb⟩ := Demo.build_ok
  obtain ⟨table, p, q, hbuilt⟩ := build_eq_ok hb
  have hfresh := hbuilt.fresh Demo.buildable
  obtain ⟨k, l, hk, hplan, -⟩ := pack_eq_ok.1 hbuilt.packed
  exact ⟨table, p, k, l, hfresh, hk, hplan, pack_exact hfresh hk []⟩

end LevelBundle
