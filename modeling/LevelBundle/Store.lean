/-
  LevelBundle — the store of file contents.

  Contents are interned, with or without the name of a file and with or without
  an alignment.  A name once seen stands for its first blob.  With
  deduplication on, equal contents become an alias of the first canonical blob
  whose alignment can be merged with the request; equal sums are only a hint
  and the bytes decide.

  * `Store.find?` answers a request by name, `Store.intern` any request;
  * every accepted request widens the alignment of the blob it names and of
    that blob's canonical; a refused one changes nothing;
  * `Store.assignOffset` places a canonical blob, once.
-/
import LevelBundle.Alignment
import LevelBundle.Store.Blob

namespace LevelBundle

/-- Why the store refuses a request. -/
inductive StoreError where
  /-- Two alignments of one file cannot be merged. -/
  | alignmentConflict (name : String) (existing requested : UInt32)
  /-- The alignment cannot be honoured. -/
  | invalidAlignment (alignment : UInt32)
  /-- The blob is already placed. -/
  | offsetAlreadyAssigned (id : BlobId)
  deriving DecidableEq, Repr

/-- The wording of each refusal. -/
def StoreError.message : StoreError → String
  | alignmentConflict name existing requested =>
    s!"Alignment conflict for '{name}': {existing} and {requested} do not divide each other"
  | invalidAlignment alignment => Alignment.invalidMessage alignment
  | offsetAlreadyAssigned id => s!"Offset of blob {id.render} was already assigned"

/-- File contents, each stored once. -/
structure Store where
  /-- All blobs, in order of creation. -/
  blobs : Array Blob := #[]
  /-- Whether equal contents share a blob. -/
  dedup : Bool := true
  /-- The granularity of padded sizes. -/
  padSize : UInt32 := 4
  /-- The key of the next blob, without deduplication. -/
  nextUnique : UInt32 := 0
  /-- The sum of the padded sizes of canonical blobs. -/
  totalPadSize : Nat := 0
  /-- How many requests an existing blob has answered. -/
  dedupHits : Nat := 0
  deriving Repr

/-- A request to the store: it may be refused, and it keeps the store either
    way. -/
abbrev StoreM := ExceptT StoreError (StateM Store)

namespace Store

/-- An empty store. -/
def empty (padSize : UInt32) (dedup : Bool) : Store := { padSize, dedup }

/-- The number of blobs, aliases included. -/
def size (s : Store) : Nat := s.blobs.size

/-- The blob with this index. -/
def blob? (s : Store) (id : BlobId) : Option Blob := s.blobs[id.index]?

/-- The canonical blob of a blob. -/
def canonical (s : Store) (id : BlobId) : BlobId :=
  match (s.blob? id).map Blob.storage with
  | some (.aliasOf target) => target
  | _ => id

/-- The contents of a blob. -/
def bytes (s : Store) (id : BlobId) : Bytes :=
  ((s.blob? (s.canonical id)).map Blob.ownBytes).getD []

/-- The alignment that a blob carries. -/
def alignment? (s : Store) (id : BlobId) : Option UInt32 :=
  (s.blob? id).bind Blob.alignment

/-- Where the contents of a blob lie in the bundle, once placed. -/
def offset? (s : Store) (id : BlobId) : Option UInt32 :=
  (s.blob? (s.canonical id)).bind Blob.offset

/-- The padded size of a blob. -/
def padSizeOf (s : Store) (id : BlobId) : UInt32 :=
  ((s.blob? id).map Blob.padSize).getD 0

/-- The canonical blobs, in order of creation. -/
def canonicalIds (s : Store) : List BlobId :=
  (s.blobs.toList.zipIdx.filter fun entry => entry.1.isCanonical).map fun entry => ⟨entry.2⟩

/-- The blob that a name stands for. -/
def named? (s : Store) (name : String) : Option BlobId :=
  (s.blobs.findIdx? fun b => b.name == some name).map BlobId.mk

/-- Sets the alignment that a blob carries. -/
def setAlignment (s : Store) (id : BlobId) (alignment : Option UInt32) : Store :=
  { s with blobs := s.blobs.modify id.index fun b => { b with alignment } }

/-- Merges a request into the alignments of a blob and of its canonical; both
    have to admit it before either changes. -/
def reconcile (s : Store) (id : BlobId) (name : String) (alignment : Option UInt32) :
    Except StoreError Store := do
  let target := s.canonical id
  let merged (id : BlobId) : Except StoreError (Option UInt32) :=
    let existing := s.alignment? id
    match Alignment.merge existing alignment with
    | some merged => .ok merged
    | none => .error (.alignmentConflict name (existing.getD 1) (alignment.getD 1))
  let own ← merged id
  let shared ← merged target
  return (s.setAlignment id own).setAlignment target shared

/-- Counts a request that an existing blob has answered. -/
def countHit (s : Store) : Store := { s with dedupHits := s.dedupHits + 1 }

/-- The blob that a name stands for, with the alignment merged into it. -/
def find? (name : String) (alignment : Option UInt32) : StoreM (Option BlobId) := do
  let s ← get
  match s.named? name with
  | none => return none
  | some id =>
    let merged ← s.reconcile id name alignment
    set merged.countHit
    return some id

/-- Whether a canonical blob has these contents and admits this alignment. -/
def admits (b : Blob) (hash : UInt32) (bytes : Bytes) (alignment : Option UInt32) : Bool :=
  b.hash == hash && b.size.toNat == bytes.length && b.storage == .owned bytes &&
    (Alignment.merge b.alignment alignment).isSome

/-- The first canonical blob with these contents that admits this alignment. -/
def findIdentical? (s : Store) (hash : UInt32) (bytes : Bytes) (alignment : Option UInt32) :
    Option BlobId :=
  (s.blobs.findIdx? fun b => admits b hash bytes alignment).map BlobId.mk

/-- Adds an alias of `target`, whose alignment is widened. -/
def addAlias (s : Store) (target : BlobId) (hash : UInt32) (bytes : Bytes)
    (name : Option String) (alignment : Option UInt32) : Store :=
  let merged := (Alignment.merge (s.alignment? target) alignment).getD (s.alignment? target)
  let s := s.setAlignment target merged
  let blob : Blob :=
    { name, size := bytes.length.toUInt32, padSize := s.padSizeOf target, alignment, hash
      storage := .aliasOf target }
  { s with blobs := s.blobs.push blob }.countHit

/-- Adds a canonical blob. -/
def addCanonical (s : Store) (hash : UInt32) (bytes : Bytes)
    (name : Option String) (alignment : Option UInt32) : Store :=
  let size := bytes.length.toUInt32
  let padSize := roundUp size s.padSize
  let blob : Blob := { name, size, padSize, alignment, hash, storage := .owned bytes }
  { s with blobs := s.blobs.push blob, totalPadSize := s.totalPadSize + padSize.toNat }

/-- The key of new contents: their sum, or a number of their own without
    deduplication. -/
def nextHash (s : Store) (bytes : Bytes) : UInt32 × Store :=
  if s.dedup then (contentSum bytes, s)
  else (s.nextUnique, { s with nextUnique := s.nextUnique + 1 })

/-- Adds contents whose name, if any, has not been seen. -/
def add (s : Store) (bytes : Bytes) (name : Option String) (alignment : Option UInt32) :
    Store :=
  let (hash, s) := s.nextHash bytes
  match if s.dedup then s.findIdentical? hash bytes alignment else none with
  | some target => s.addAlias target hash bytes name alignment
  | none => s.addCanonical hash bytes name alignment

/-- The blob for some contents, with or without a file name and an alignment. -/
def intern (bytes : Bytes) (name : Option String) (alignment : Option UInt32) :
    StoreM BlobId := do
  match alignment with
  | some n => unless Alignment.valid n do throw (.invalidAlignment n)
  | none => pure ()
  let known ← match name with
    | some name => find? name alignment
    | none => pure none
  match known with
  | some id => return id
  | none =>
    let s ← get
    set (s.add bytes name alignment)
    return ⟨s.size⟩

/-- Places the canonical blob of a blob, once. -/
def assignOffset (id : BlobId) (offset : UInt32) : StoreM Unit := do
  let s ← get
  let target := s.canonical id
  match (s.blob? target).bind Blob.offset with
  | some _ => throw (.offsetAlreadyAssigned target)
  | none =>
    set { s with blobs := s.blobs.modify target.index fun b => { b with offset := some offset } }

end Store

end LevelBundle
