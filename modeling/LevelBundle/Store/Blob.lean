/-
  LevelBundle — blobs: the file contents a bundle holds.

  A blob is a byte sequence that the bundle holds once.  A *canonical* blob owns
  its bytes; an *alias* has the same contents as a canonical blob and shares
  its place.

  Blobs are numbered in order of creation.  A number stands for a word, so a store
  is taken to hold fewer than `2 ^ 32` blobs.
-/
import LevelBundle.Word

namespace LevelBundle

/-- The index of a blob in its store. -/
structure BlobId where
  /-- The index, in order of creation. -/
  index : Nat
  deriving DecidableEq, Repr, Inhabited

/-- A blob in messages. -/
def BlobId.render (id : BlobId) : String := s!"#{id.index}"

/-- Where the bytes of a blob are. -/
inductive Storage where
  /-- The blob is canonical. -/
  | owned (bytes : Bytes)
  /-- The blob has the contents of this canonical one. -/
  | aliasOf (target : BlobId)
  deriving DecidableEq, Repr

/-- A byte sequence that a bundle holds once. -/
structure Blob where
  /-- How the path of the file is shown that the contents came from, if any. -/
  name : Option String
  /-- The number of bytes. -/
  size : UInt32
  /-- The number of bytes, rounded up to the granularity. -/
  padSize : UInt32
  /-- The alignment inside its chunk that was asked for. -/
  alignment : Option UInt32
  /-- The key by which equal contents are looked up. -/
  hash : UInt32
  /-- The bytes, or the canonical blob that has them. -/
  storage : Storage
  /-- Where the blob lies in the bundle, once placed. -/
  offset : Option UInt32 := none
  deriving Repr

namespace Blob

/-- Whether the blob owns its bytes. -/
def isCanonical (b : Blob) : Bool :=
  match b.storage with
  | .owned _ => true
  | .aliasOf _ => false

/-- The bytes the blob owns. -/
def ownBytes (b : Blob) : Bytes :=
  match b.storage with
  | .owned bytes => bytes
  | .aliasOf _ => []

end Blob

/-- The sum of the little-endian words of some contents; bytes that fill no word
    do not count.  Equal contents have equal sums, and unequal ones may. -/
def contentSum : Bytes → UInt32
  | b₀ :: b₁ :: b₂ :: b₃ :: rest => ByteOrder.word .little b₀ b₁ b₂ b₃ + contentSum rest
  | _ => 0

end LevelBundle
