/-
  LevelBundle — placing items into chunks.

  Items are placed one after another behind the header, none across the border
  of a chunk.  At each step the first remaining item that fits between the
  cursor and the end of the chunk is placed; when none fits, the rest of the
  chunk is skipped and the first remaining item starts the next one.
  Alignments count from the start of the chunk.
-/
import LevelBundle.Word

namespace LevelBundle

/-- What has to be known of an item to place it. -/
structure Extent where
  /-- The bytes it takes. -/
  padSize : UInt32
  /-- Its alignment inside the chunk; at most one for none. -/
  alignment : UInt32
  deriving DecidableEq, Repr, Inhabited

/-- Where items were placed. -/
structure Layout where
  /-- The offset of each item; zero for one that was not to be placed. -/
  offsets : Array UInt32
  /-- The number of chunks that the header and the items start in. -/
  chunksUsed : UInt32
  /-- The bytes left unused before the last item. -/
  slack : Nat
  /-- The offset after the last item. -/
  stop : Nat
  deriving Repr

/-- An item that does not fit in a chunk. -/
structure Oversized where
  /-- The index of the item. -/
  index : Nat
  deriving DecidableEq, Repr

namespace Placement

/-- An offset rounded up to an alignment. -/
def aligned (offset : Nat) (alignment : UInt32) : Nat :=
  if alignment ≤ 1 then offset else (roundUp offset.toUInt32 alignment).toNat

/-- How far the placing has come. -/
structure Progress where
  /-- The offset of each item placed so far. -/
  offsets : Array UInt32
  /-- The offset after the header and the items placed so far. -/
  cursor : Nat
  /-- The bytes left unused so far. -/
  slack : Nat := 0
  /-- The greatest index of a chunk that something starts in. -/
  lastBlock : Nat
  deriving Repr

/-- The item with an index. -/
def extent (items : Array Extent) (index : Nat) : Extent := items.getD index default

/-- The start of the chunk that holds an offset. -/
def chunkStart (chunk cursor : Nat) : Nat := cursor / chunk * chunk

/-- Where an item fits between the cursor and the end of the chunk. -/
def fit? (chunk cursor : Nat) (e : Extent) : Option Nat :=
  let start := chunkStart chunk cursor
  let place := start + aligned (cursor - start) e.alignment
  if place < start + chunk ∧ place + e.padSize.toNat ≤ start + chunk then some place else none

/-- The first index whose item fits, the place, and the other indices. -/
def pick? (items : Array Extent) (chunk cursor : Nat) :
    List Nat → Option (Nat × Nat × List Nat)
  | [] => none
  | index :: rest =>
    match fit? chunk cursor (extent items index) with
    | some place => some (index, place, rest)
    | none =>
      (pick? items chunk cursor rest).map fun found => (found.1, found.2.1, index :: found.2.2)

theorem length_of_pick? {items : Array Extent} {chunk cursor : Nat} {remaining : List Nat}
    {found : Nat × Nat × List Nat} (h : pick? items chunk cursor remaining = some found) :
    found.2.2.length + 1 = remaining.length := by
  induction remaining generalizing found with
  | nil => cases h
  | cons index rest ih =>
    unfold pick? at h
    split at h
    · cases h; rfl
    · obtain ⟨inner, hi, rfl⟩ := Option.map_eq_some_iff.1 h
      simpa using ih hi

/-- Puts an item at a place. -/
def Progress.put (p : Progress) (items : Array Extent) (chunk index place : Nat) : Progress :=
  { offsets := p.offsets.setIfInBounds index place.toUInt32
    cursor := place + (extent items index).padSize.toNat
    slack := p.slack + (place - p.cursor)
    lastBlock := max p.lastBlock (place / chunk) }

/-- Skips the rest of the chunk. -/
def Progress.skip (p : Progress) (chunk : Nat) : Progress :=
  let stop := chunkStart chunk p.cursor + chunk
  { p with slack := p.slack + (stop - p.cursor), cursor := stop }

/-- Places the remaining items. -/
def run (items : Array Extent) (chunk : Nat) (p : Progress) (remaining : List Nat) : Progress :=
  match _h : pick? items chunk p.cursor remaining with
  | some (index, place, rest) => run items chunk (p.put items chunk index place) rest
  | none =>
    match remaining with
    | [] => p
    | index :: rest =>
      let skipped := p.skip chunk
      run items chunk (skipped.put items chunk index skipped.cursor) rest
termination_by remaining.length
decreasing_by
  · have := length_of_pick? _h
    simp only at this
    omega
  · simp

end Placement

/-- Places items in an order, behind a header. -/
def place (items : Array Extent) (order : List Nat) (headerSize chunkSize : UInt32) :
    Except Oversized Layout :=
  match order.find? fun i => chunkSize < (Placement.extent items i).padSize with
  | some index => .error ⟨index⟩
  | none =>
    let chunk := chunkSize.toNat
    let header := headerSize.toNat
    let start : Placement.Progress :=
      { offsets := Array.replicate items.size 0, cursor := header
        lastBlock := (header - 1) / chunk }
    let stop := Placement.run items chunk start order
    .ok { offsets := stop.offsets, chunksUsed := (stop.lastBlock + 1).toUInt32
          slack := stop.slack, stop := stop.cursor }

end LevelBundle
