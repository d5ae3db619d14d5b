/-
  LevelBundle — packing a program into a bundle.

      chunk table (filler …, 0)   4 * (chunks + 1)
      start                       4
      fixup table position        4
      fixup table (in front)      4 * (fixups + 1)
      items                       first fit, none across a chunk border
      zeros up to a sector
      fixup table (at the end)

  The size of the header depends on the number of chunks, which depends on the
  layout, which depends on the size of the header.  `settle` starts from an
  estimate and places the items again behind a larger table until the layout fits
  it.  Then the offsets are set in the program, once, and `emit` writes the
  file.
-/
import LevelBundle.Bundle.Buffer
import LevelBundle.Bundle.Packed
import LevelBundle.Settings

namespace LevelBundle

/-- Packs programs in one way. -/
structure Packer where
  /-- The options. -/
  options : PackOptions
  /-- The split of position words. -/
  addressing : Addressing

/-- A step of packing: it may fail, and offsets set before stay. -/
abbrev PackM := ExceptT PackError (StateM Program)

/-- A layout that fits its header. -/
structure Settled where
  /-- The number of chunks. -/
  capacity : UInt32
  /-- The size of the header. -/
  headerSize : UInt32
  /-- The layout. -/
  layout : Layout
  /-- The number of estimates. -/
  passes : UInt32
  deriving Repr

namespace Packer

/-- The packer with some options, if chunks and sectors have admitted sizes. -/
def ofOptions (options : PackOptions) : Except PackError Packer := do
  let addressing ← (Addressing.ofChunkSize options.chunkSize).mapError .position
  if options.chunkSize < options.sectorSize then
    throw (.sectorTooLarge options.sectorSize options.chunkSize)
  return { options, addressing }

/-- The most chunks a bundle may have.  One block is kept free for a fixup table
    at the end, and the file stays below `2 ^ 32` bytes. -/
def maxChunks (p : Packer) : UInt32 :=
  min (p.addressing.maxBlocks - 1) (0xFFFFFFFF / p.options.chunkSize - 1)

/-- The size of the header for a number of chunks and of fixups. -/
def headerSize (p : Packer) (chunks : UInt32) (fixups : Nat) : Nat :=
  4 * (chunks.toNat + 1) + 8 + if p.options.fixups = .front then 4 * (fixups + 1) else 0

/-- The order in which items are to be placed: the largest first, or as they
    were discovered. -/
def order (p : Packer) (items : List Item) : List Nat :=
  let indexed := items.zipIdx
  let sorted :=
    if p.options.pinnedOrder then indexed
    else indexed.mergeSort fun a b => b.1.padSize ≤ a.1.padSize
  sorted.map Prod.snd

/-- The sizes of all sections among the items. -/
def sectionTotal (items : List Item) : Nat :=
  (items.map fun i =>
    match i.ref with
    | .level _ => i.padSize.toNat
    | .blob _ => 0).foldr (· + ·) 0

/-- The first estimate of the number of chunks. -/
def estimate (p : Packer) (program : Program) (items : List Item) (fixups : Nat) : UInt32 :=
  let total := sectionTotal items + program.store.totalPadSize
  let chunk := p.options.chunkSize.toNat
  let chunks := (p.headerSize 1 fixups + total + (chunk - 1)) / chunk
  (max 1 (min chunks 4294967295)).toUInt32

/-- Places the items behind larger and larger headers; `left` estimates are left
    to be tried. -/
def settle (p : Packer) (items : List Item) (fixups : Nat) :
    Nat → UInt32 → UInt32 → Except PackError Settled
  | 0, _, _ => .error (.layoutDidNotConverge p.options.maxLayoutPasses)
  | left + 1, passes, capacity =>
    let chunkSize := p.options.chunkSize
    let headerSize := p.headerSize capacity fixups
    if p.maxChunks < capacity then .error (.capacityExceeded capacity p.maxChunks)
    else if chunkSize.toNat < headerSize then .error (.headerTooLarge headerSize chunkSize)
    else
      let extents := (items.map Item.extent).toArray
      match place extents (p.order items) headerSize.toUInt32 chunkSize with
      | .error e =>
        let i? := items[e.index]?
        let what := (i?.map fun i => s!"{i.kind.render} '{i.name}'").getD ""
        .error (.oversizedItem what ((i?.map fun i => i.padSize.toNat).getD 0) chunkSize)
      | .ok layout =>
        if layout.chunksUsed ≤ capacity then
          .ok { capacity, headerSize := headerSize.toUInt32, layout, passes := passes + 1 }
        else p.settle items fixups left (passes + 1) layout.chunksUsed

/-- The number of references in all items. -/
def fixupCount (program : Program) (items : List Item) : Nat :=
  (items.map fun i =>
    match i.ref with
    | .level id => (program.sectionAt id).referenceCount
    | .blob _ => 0).foldr (· + ·) 0

/-! ## Setting offsets -/

/-- Sets the offset of an item, once. -/
def assign (i : Item) (offset : UInt32) : PackM Unit := do
  let program ← get
  match i.ref with
  | .level id =>
    if (program.sectionAt id).offset.isSome then throw (.offsetAlreadyAssigned i.name)
    set { program with
      sections := program.sections.modify id.index fun s => { s with offset := some offset } }
  | .blob id =>
    match (Store.assignOffset id offset).run program.store with
    | (.ok _, store) => set { program with store }
    | (.error _, _) => throw (.offsetAlreadyAssigned i.name)

/-- Sets the offsets of all items, in order, up to the first that has one. -/
def commit (items : List Item) (layout : Layout) : PackM Unit :=
  (items.zip layout.offsets.toList).forM fun entry => assign entry.1 entry.2

/-! ## Writing -/

/-- The position of a place in the bundle. -/
def position (p : Packer) (offset flags : UInt32) : Except PackError Position :=
  (p.addressing.encodeAbsolute offset flags).mapError .position

/-- Where a section lies. -/
def sectionOffset (program : Program) (id : SectionId) : Except PackError UInt32 :=
  let s := program.sectionAt id
  match s.offset with
  | some offset => .ok offset
  | none => .error (.unplaced s.name)

/-- Where a blob lies. -/
def blobOffset (program : Program) (id : BlobId) : Except PackError UInt32 :=
  match program.store.offset? id with
  | some offset => .ok offset
  | none => .error (.unplaced (((program.store.blob? id).bind Blob.name).getD id.render))

/-- Writes a part of a section. -/
def emitPart (p : Packer) (program : Program) (b : Buffer) : Part → Except PackError Buffer
  | .literal bytes => .ok (b.append bytes)
  | .blob id => do
    let offset ← blobOffset program id
    return b.pushPosition (← p.position offset Position.unresolvedFlag)
  | .level id => do
    let offset ← sectionOffset program id
    return b.pushPosition (← p.position offset Position.unresolvedFlag)
  | .runtimeFile _ id => do
    let offset ← sectionOffset program id
    let flags := Position.unresolvedFlag ||| Position.runtimeFlag
    return b.pushPosition (← p.position offset flags)
  | .align _ size => .ok (b.fill 0 size)
  | .pad count => .ok (b.fill 0 count)

/-- Writes the contents of an item. -/
def emitItem (p : Packer) (program : Program) (b : Buffer) (i : Item) : Except PackError Buffer :=
  match i.ref with
  | .level id => (program.sectionAt id).parts.foldlM (p.emitPart program) b
  | .blob id => .ok (b.append (program.store.bytes id))

/-- Writes the items at their offsets, with zeros between them. -/
def emitItems (p : Packer) (program : Program) (b : Buffer) (placed : List (Item × UInt32)) :
    Except PackError Buffer :=
  placed.foldlM (fun b entry => do
    let b ← p.emitItem program (b.padTo entry.2) entry.1
    return b.padTo (entry.2 + entry.1.padSize)) b

/-- Where the references of all items lie, in increasing order. -/
def slots (program : Program) (items : List Item) : Except PackError (List UInt32) := do
  let all ← items.mapM fun i =>
    match i.ref with
    | .level id => do
      let base ← sectionOffset program id
      let references := (program.sectionAt id).offsets.filter fun entry => entry.2.isReference
      return references.map fun entry => base + entry.1
    | .blob _ => return []
  return all.flatten.mergeSort (· ≤ ·)

/-- Writes the fixup table and its position, which goes to `tableWord`. -/
def emitFixups (p : Packer) (b : Buffer) (tableWord : UInt32) (slots : List UInt32) :
    Except PackError Buffer := do
  let pointer ← p.position b.offset Position.unresolvedFlag
  let b ← slots.foldlM (fun b slot => do
    return Buffer.pushPosition b (← p.position slot Position.unresolvedFlag))
    (b.patch tableWord pointer.word)
  return b.pushWord 0

/-- Writes the header up to the fixup table, which is the last word written. -/
def emitHeader (p : Packer) (capacity : UInt32) (start : Position) : Buffer :=
  let b := Buffer.empty p.options.order
  let b := (List.replicate capacity.toNat chunkFiller).foldl Buffer.pushWord b
  ((b.pushWord 0).pushPosition start).reserve

/-- Writes zeros up to a sector and the fixup table, if it lies at the end, where
    it does not cross a chunk border.  Answers the zeros and the bytes of the
    table too, and where the table lies. -/
def emitTail (p : Packer) (b : Buffer) (capacity tableWord : UInt32) (slots : List UInt32) :
    Except PackError (Buffer × Nat × Option UInt32) := do
  let chunkSize := p.options.chunkSize
  let sector := b.nextBoundary p.options.sectorSize
  let pad := (b.gap sector).toNat
  let b := b.padTo sector
  if p.options.fixups ≠ .tail then return (b, pad, none)
  let size := 4 * (slots.length + 1)
  if chunkSize.toNat < size then throw (.fixupTableTooLarge size chunkSize)
  let border :=
    if chunkSize.toNat < (b.offset % chunkSize).toNat + size then roundUp b.offset chunkSize
    else b.offset
  let pad := pad + (b.gap border).toNat
  let b := b.padTo border
  let block := b.offset / chunkSize
  if capacity < block then throw (.fixupTableUnaddressable block capacity)
  let table := b.offset
  let b ← p.emitFixups b tableWord slots
  return (b, pad + size, some table)

/-- Writes the file. -/
def emit (p : Packer) (program : Program) (items : List Item) (s : Settled) :
    Except PackError Bundle := do
  let rootOffset ← sectionOffset program program.root
  let start ← p.position rootOffset Position.unresolvedFlag
  let header := p.emitHeader s.capacity start
  let tableWord := header.offset - wordSize
  let slots ← slots program items
  let front := p.options.fixups = .front
  let header ← if front then p.emitFixups header tableWord slots else pure header
  let frontTable := if front then some (tableWord + wordSize) else none
  if header.offset ≠ s.headerSize then
    throw (.sizeMismatch s.headerSize.toNat header.offset.toNat)
  let placed := (items.zip s.layout.offsets.toList).mergeSort fun a b => a.2 ≤ b.2
  let body ← p.emitItems program header placed
  let chunkBytes := s.capacity.toNat * p.options.chunkSize.toNat
  let endPad := chunkBytes - body.offset.toNat
  let (file, added, tailTable) ← p.emitTail body s.capacity tableWord slots
  let expected := chunkBytes - endPad + added
  if file.bytes.size ≠ expected then throw (.sizeMismatch expected file.bytes.size)
  return {
    bytes := file.bytes, chunkSize := p.options.chunkSize, chunkCount := s.capacity
    headerSize := s.headerSize, fixupCount := slots.length
    fixupTable := frontTable <|> tailTable
    start
    placements := placed.map fun (i, offset) => ⟨offset, i.size, i.padSize, i.kind, i.name⟩
    slack := s.layout.slack, passes := s.passes }

/-- Packs a program.  Once a layout is accepted the offsets are set, so a program
    can be packed once. -/
def pack (p : Packer) : PackM Bundle := do
  let program ← get
  let items := program.items
  let fixups := fixupCount program items
  let settled ← p.settle items fixups p.options.maxLayoutPasses.toNat 0
    (p.estimate program items fixups)
  commit items settled.layout
  p.emit (← get) items settled

end Packer

end LevelBundle
