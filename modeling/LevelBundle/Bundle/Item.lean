/-
  LevelBundle — the items of a bundle.

  The items are what the root of a program leads to: sections, over the
  references of their parts, and the canonical blobs that those refer to.
  `Program.items` lists them in the order of their discovery, each once.
-/
import LevelBundle.Bundle.Placement
import LevelBundle.Program

namespace LevelBundle

/-- A section or a canonical blob. -/
inductive ItemRef where
  /-- A section. -/
  | level (id : SectionId)
  /-- A canonical blob. -/
  | blob (id : BlobId)
  deriving DecidableEq, Repr

/-- What an item is. -/
inductive ItemKind where
  /-- A section of the script. -/
  | level
  /-- The record of a file that is loaded on demand. -/
  | record
  /-- The contents of a file. -/
  | blob
  deriving DecidableEq, Repr

/-- A kind in messages and maps. -/
def ItemKind.render : ItemKind → String
  | level => "section"
  | record => "record"
  | blob => "blob"

/-- An item to be placed. -/
structure Item where
  /-- The section or blob. -/
  ref : ItemRef
  /-- The number of bytes. -/
  size : UInt32
  /-- The bytes that are kept for it. -/
  padSize : UInt32
  /-- The alignment inside the chunk; one for none. -/
  alignment : UInt32
  /-- What it is. -/
  kind : ItemKind
  /-- The name of the section or of the file. -/
  name : String
  deriving Repr

/-- What has to be known of an item to place it. -/
def Item.extent (i : Item) : Extent := ⟨i.padSize, i.alignment⟩

namespace Program

/-- The item that a part refers to. -/
def target? (p : Program) : Part → Option ItemRef
  | .level id | .runtimeFile _ id => some (.level id)
  | .blob id => some (.blob (p.store.canonical id))
  | .literal _ | .align _ _ | .pad _ => none

/-- The items that an item refers to, in the order of its parts. -/
def targets (p : Program) : ItemRef → List ItemRef
  | .level id => (p.sectionAt id).parts.filterMap p.target?
  | .blob _ => []

/-- Adds items that have not been found yet. -/
def addNew (found : Array ItemRef) (more : List ItemRef) : Array ItemRef :=
  more.foldl (fun found ref => if found.contains ref then found else found.push ref) found

/-- Follows the references of the items from number `next` on. -/
def discover (p : Program) : Nat → Nat → Array ItemRef → Array ItemRef
  | 0, _, found => found
  | fuel + 1, next, found =>
    match found[next]? with
    | none => found
    | some ref => p.discover fuel (next + 1) (addNew found (p.targets ref))

/-- What the root leads to, itself first; no program has more items than
    sections and blobs. -/
def reachable (p : Program) : List ItemRef :=
  (p.discover (p.sections.size + p.store.size + 1) 0 #[.level p.root]).toList

/-- The item of a section or blob. -/
def item (p : Program) (ref : ItemRef) : Item :=
  match ref with
  | .level id =>
    let s := p.sectionAt id
    { ref, size := s.size, padSize := roundUp s.size p.store.padSize
      alignment := s.alignment.getD 1
      kind := if s.runtimeFile then .record else .level
      name := s.name }
  | .blob id =>
    let name := (p.store.blob? id).bind Blob.name
    { ref, size := ((p.store.blob? id).map Blob.size).getD 0
      padSize := p.store.padSizeOf id
      alignment := (p.store.alignment? id).getD 1
      kind := .blob
      name := name.getD ("blob " ++ id.render) }

/-- The items of a program, in the order of their discovery. -/
def items (p : Program) : List Item := p.reachable.map p.item

end Program

end LevelBundle
