/-
  LevelBundle — resolving a bundle in memory.

  `Loader.init` writes the addresses of the chunks into the chunk table, replaces
  the position in every slot that the fixup table lists by the address it stands
  for, and last the start position by the address of the root.  A resolved start
  word means that all of this has been done.

  A slot for a file that is loaded on demand gets the address that the host
  answers for the name in the file's record.  The record keeps the address, so the
  host is asked once for each.  When a step fails, what was written before stays,
  and a later call goes on from there.
-/
import LevelBundle.Memory
import LevelBundle.Text.Utf8

namespace LevelBundle

/-- Why a bundle in memory cannot be resolved. -/
inductive LoadError where
  /-- The chunk size is not admitted. -/
  | position (cause : PositionError)
  /-- The file is no bundle. -/
  | format (cause : FormatError)
  /-- There is no region. -/
  | noRegions
  /-- The address of a region cannot be used. -/
  | badRegionBase (index : Nat) (base : UInt32)
  /-- There are not as many addresses as chunks. -/
  | regionCountMismatch (expected actual : Nat)
  /-- No zero word ends the chunk table. -/
  | missingChunkTerminator
  /-- The chunk table has more entries than there are regions. -/
  | chunkTableTooLong (entries regions : Nat)
  /-- An entry of the chunk table is neither the filler nor the address. -/
  | badChunkEntry (index : Nat) (value : UInt32)
  /-- The start word is zero. -/
  | nullStart
  /-- A position names a chunk without a region. -/
  | blockOutOfRange (p : Position) (block : UInt32) (regions : Nat)
  /-- A place lies outside its region. -/
  | offsetOutOfRange (block offset length : Nat)
  /-- No zero word ends the fixup table. -/
  | missingFixupTerminator (table : Position)
  /-- The record of a file holds no name. -/
  | badFileRecord (record : Position)
  /-- The host answers an address that cannot be used. -/
  | badAddress (name : String) (address : UInt32)
  /-- The host fails, for this cause. -/
  | callback (name : String) (cause : String)
  deriving DecidableEq, Repr

/-- The wording of each cause. -/
def LoadError.message : LoadError → String
  | position cause => cause.message
  | format cause => cause.message
  | noRegions => "No chunk regions supplied"
  | badRegionBase index base =>
    s!"Chunk region {index} has an invalid base address " ++ Text.hex base.toNat
  | regionCountMismatch expected actual =>
    s!"Expected {expected} chunk base addresses, got {actual}"
  | missingChunkTerminator => "Chunk table is not terminated within the first chunk"
  | chunkTableTooLong entries regions =>
    s!"Chunk table lists {entries} chunks but only {regions} regions were supplied"
  | badChunkEntry index value => s!"Chunk table entry {index} holds " ++ Text.hex value.toNat
  | nullStart => "Bundle has a null start position"
  | blockOutOfRange p block regions =>
    s!"Position {p.render} names block {block}, but only {regions} regions exist"
  | offsetOutOfRange block offset length =>
    "Offset " ++ Text.hex offset ++ s!" lies outside block {block} ({length} bytes)"
  | missingFixupTerminator table => s!"Fixup table at {table.render} is not terminated"
  | badFileRecord record =>
    s!"Runtime file record at {record.render} has no valid NUL-terminated name"
  | badAddress name address =>
    "Loader returned invalid address " ++ Text.hex address.toNat ++ s!" for '{name}'"
  | callback name _ => s!"Failed to load runtime file '{name}'"

/-- How the host loads a file on demand: it answers an address or fails, and may
    change its own state. -/
abbrev FileHost (σ : Type) := String → StateM σ (Except String UInt32)

/-- A bundle in memory. -/
structure Loader where
  /-- The regions. -/
  memory : Memory
  /-- The split of position words. -/
  addressing : Addressing
  /-- The order of the bytes of a word. -/
  order : ByteOrder

/-- What has come of a call. -/
structure LoadOutcome where
  /-- The address of the root. -/
  root : UInt32
  /-- The number of slots written. -/
  fixupsApplied : Nat := 0
  /-- The number of files the host has loaded. -/
  runtimeLoads : Nat := 0
  /-- Whether the bundle was resolved before. -/
  alreadyResolved : Bool := false
  deriving DecidableEq, Repr

/-- Whether the memory of the fixup table may be given back: the host was not
    asked for a file. -/
def LoadOutcome.fixupReleasable (o : LoadOutcome) : Bool := o.runtimeLoads == 0

/-- A loader and the state of its host. -/
structure Hosted (σ : Type) where
  /-- The loader. -/
  loader : Loader
  /-- The state of the host. -/
  host : σ

/-- A step of resolving: it may fail, and what was written before stays. -/
abbrev LoadM (σ : Type) := ExceptT LoadError (StateM (Hosted σ))

namespace Loader

/-- A loader for some regions, if their addresses can be used. -/
def ofMemory (memory : Memory) (chunkSize : UInt32) (order : ByteOrder) :
    Except LoadError Loader := do
  let addressing ← (Addressing.ofChunkSize chunkSize).mapError .position
  if memory.isEmpty then throw .noRegions
  match memory.toList.zipIdx.find? fun entry => !entry.1.usable with
  | some (region, index) => throw (.badRegionBase index region.base)
  | none => return { memory, addressing, order }

/-- The word at an address. -/
def wordAt? (l : Loader) (address : UInt32) : Option UInt32 :=
  l.memory.wordAt? l.order address

/-- The error of a place outside its region. -/
def outside (l : Loader) (block offset : Nat) : LoadError :=
  .offsetOutOfRange block offset (l.memory.sizeAt block)

/-- The word at an offset of a region. -/
def read (l : Loader) (block offset : Nat) : Except LoadError UInt32 :=
  match l.memory.word? l.order block offset with
  | some word => .ok word
  | none => .error (l.outside block offset)

/-- Writes a word at an offset of a region. -/
def write (l : Loader) (block offset : Nat) (word : UInt32) : Except LoadError Loader :=
  if offset + 4 ≤ l.memory.sizeAt block then
    .ok { l with memory := l.memory.setWord l.order block offset word }
  else .error (l.outside block offset)

/-- The region and the offset that a position names. -/
def locate (l : Loader) (p : Position) : Except LoadError (Nat × Nat) :=
  let block := l.addressing.block p
  let offset := (l.addressing.offset p).toNat
  if l.memory.size ≤ block.toNat then .error (.blockOutOfRange p block l.memory.size)
  else if l.memory.sizeAt block.toNat ≤ offset then .error (l.outside block.toNat offset)
  else .ok (block.toNat, offset)

/-- The address that a position stands for. -/
def address (l : Loader) (p : Position) : Except LoadError UInt32 := do
  let (block, offset) ← l.locate p
  let address := (l.memory.baseAt block).toNat + offset
  if address < 4294967296 then return address.toUInt32 else throw (l.outside block offset)

/-- Counts the entries of the chunk table from number `index` on; `left` words
    are left in the region. -/
def countEntries (l : Loader) (index : Nat) : Nat → Except LoadError Nat
  | 0 => .error .missingChunkTerminator
  | left + 1 => do
    if (← l.read 0 (4 * index)) = 0 then return index
    else l.countEntries (index + 1) left

/-- The number of entries of the chunk table. -/
def chunkEntries (l : Loader) : Except LoadError Nat :=
  l.countEntries 0 (l.memory.sizeAt 0 / 4)

/-- The name in the record of a file: the text up to the first zero byte. -/
def recordName (l : Loader) (block offset : Nat) (record : Position) : Except LoadError String :=
  let tail := (l.memory.getD block default).bytes.toList.drop offset
  let name := tail.takeWhile (· ≠ 0)
  if name.length = tail.length then .error (.badFileRecord record)
  else match Utf8.decode? name with
  | some text => .ok text
  | none => .error (.badFileRecord record)

/-! ## Steps -/

variable {σ : Type}

/-- Asks something of the loader. -/
def ask {α : Type} (question : Loader → Except LoadError α) : LoadM σ α := do
  match question (← get).loader with
  | .ok a => return a
  | .error e => throw e

/-- Changes the loader. -/
def change (act : Loader → Except LoadError Loader) : LoadM σ Unit := do
  let s ← get
  match act s.loader with
  | .ok loader => set { s with loader }
  | .error e => throw e

/-- Asks the host for a file. -/
def askHost (host : FileHost σ) (name : String) : LoadM σ UInt32 := do
  let s ← get
  let (answer, state) := (host name).run s.host
  set { s with host := state }
  match answer with
  | .ok address => return address
  | .error cause => throw (.callback name cause)

/-- The address of a file that is loaded on demand, from its record or from the
    host, and whether the host was asked. -/
def runtimeFile (host : FileHost σ) (record : Position) : LoadM σ (UInt32 × Bool) := do
  let (block, offset) ← ask (·.locate record)
  let cached ← ask (·.read block offset)
  if cached ≠ 0 then return (cached, false)
  let name ← ask (·.recordName block (offset + 4) record)
  let address ← askHost host name
  if address = 0 ∨ address % 2 ≠ 0 then throw (.badAddress name address)
  change (·.write block offset address)
  return (address, true)

/-- The address for a slot that holds a position, and whether the host was asked
    for it. -/
def target (host : FileHost σ) (p : Position) : LoadM σ (UInt32 × Bool) := do
  if p.isRuntimeFile then runtimeFile host p
  else return (← ask (·.address p), false)

/-- Resolves the slot that an entry of the fixup table names.  Answers the numbers
    of slots written and of files loaded. -/
def resolveSlot (host : FileHost σ) (entry : Position) : LoadM σ (Nat × Nat) := do
  let (block, offset) ← ask (·.locate entry)
  match Slot.ofWord (← ask (·.read block offset)) with
  | .resolved _ => return (0, 0)
  | .unresolved p =>
    let (address, asked) ← target host p
    change (·.write block offset address)
    return (1, if asked then 1 else 0)

/-- Resolves the slots of the fixup table from `offset` on; `left` words are left
    in the region.  Adds to the numbers of slots written and of files loaded. -/
def resolveSlots (host : FileHost σ) (table : Position) (block : Nat) :
    Nat → Nat → Nat × Nat → LoadM σ (Nat × Nat)
  | 0, _, _ => throw (.missingFixupTerminator table)
  | left + 1, offset, done => do
    let entry ← ask (·.read block offset)
    if entry = 0 then return done
    let (applied, loads) ← resolveSlot host ⟨entry⟩
    resolveSlots host table block left (offset + 4) (done.1 + applied, done.2 + loads)

/-- Writes the address of a chunk into the chunk table. -/
def fillEntry (index : Nat) : LoadM σ Unit := do
  let value ← ask (·.read 0 (4 * index))
  let base := (← get).loader.memory.baseAt index
  if value ≠ chunkFiller ∧ value ≠ base then throw (.badChunkEntry index value)
  change (·.write 0 (4 * index) base)

/-- Resolves the slots that the fixup table lists, if there is one. -/
def resolveTable (host : FileHost σ) (table : Position) : LoadM σ (Nat × Nat) := do
  if table.isNull then return (0, 0)
  let (block, offset) ← ask (·.locate table)
  let left := ((← get).loader.memory.sizeAt block - offset) / 4
  resolveSlots host table block left offset (0, 0)

/-- Resolves the bundle, or reports the root of a resolved one. -/
def init (host : FileHost σ) : LoadM σ LoadOutcome := do
  let entries ← ask (·.chunkEntries)
  let regions := (← get).loader.memory.size
  if regions < entries then throw (.chunkTableTooLong entries regions)
  let startOffset := 4 * (entries + 1)
  let startWord ← ask (·.read 0 startOffset)
  let tableWord ← ask (·.read 0 (startOffset + 4))
  match Slot.ofWord startWord with
  | .resolved root =>
    if root = 0 then throw .nullStart
    return { root, alreadyResolved := true }
  | .unresolved start =>
    (List.range entries).forM fillEntry
    let (fixupsApplied, runtimeLoads) ← resolveTable host ⟨tableWord⟩
    let root ← ask (·.address start)
    change (·.write 0 startOffset root)
    return { root, fixupsApplied, runtimeLoads }

end Loader

end LevelBundle
