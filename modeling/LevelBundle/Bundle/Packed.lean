/-
  LevelBundle — packed bundles and their maps.
-/
import LevelBundle.Bundle.Item

namespace LevelBundle

/-- A placed item. -/
structure PlacedItem where
  /-- Where it lies in the bundle. -/
  offset : UInt32
  /-- The number of bytes. -/
  size : UInt32
  /-- The bytes that are kept for it. -/
  padSize : UInt32
  /-- What it is. -/
  kind : ItemKind
  /-- The name of the section or of the file. -/
  name : String
  deriving DecidableEq, Repr

/-- A packed bundle. -/
structure Bundle where
  /-- The file. -/
  bytes : Array UInt8
  /-- The size of a chunk. -/
  chunkSize : UInt32
  /-- The number of entries of the chunk table. -/
  chunkCount : UInt32
  /-- The bytes before the first item. -/
  headerSize : UInt32
  /-- The number of entries of the fixup table. -/
  fixupCount : Nat
  /-- Where the fixup table lies, if there is one. -/
  fixupTable : Option UInt32
  /-- The position of the root. -/
  start : Position
  /-- The items, by their offsets. -/
  placements : List PlacedItem
  /-- The bytes left unused between items. -/
  slack : Nat
  /-- The number of estimates of the header. -/
  passes : UInt32
  deriving Repr

namespace Bundle

/-- A row of the map. -/
def mapRow (offset block size pad kind name : String) : String :=
  Text.padRight 10 offset ++ "  " ++ Text.padLeft 5 ' ' block ++ "  " ++
    Text.padLeft 8 ' ' size ++ "  " ++ Text.padLeft 8 ' ' pad ++ "  " ++
    Text.padRight 7 kind ++ "  " ++ name ++ "\n"

/-- The row of a placed item. -/
def itemRow (chunkSize : UInt32) (i : PlacedItem) : String :=
  mapRow (Text.hexWord i.offset) (toString (i.offset / chunkSize)) (toString i.size)
    (toString i.padSize) i.kind.render i.name

/-- The map of a bundle: its figures, then a row for each item. -/
def renderMap (b : Bundle) : String :=
  "# lvlpak map\n" ++
  s!"chunk_size   {b.chunkSize}\n" ++
  s!"chunks       {b.chunkCount}\n" ++
  s!"header_size  {b.headerSize}\n" ++
  s!"fixups       {b.fixupCount}\n" ++
  s!"slack        {b.slack}\n" ++
  s!"size         {b.bytes.size}\n" ++
  "\n" ++
  mapRow "offset" "block" "size" "pad" "kind" "name" ++
  String.join (b.placements.map (itemRow b.chunkSize))

end Bundle

end LevelBundle
