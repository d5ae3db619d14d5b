/-
  LevelBundle — what the commands print.
-/
import LevelBundle.Build
import LevelBundle.Bundle.Report
import LevelBundle.CommandLine.RuntimeFiles
import LevelBundle.Text.Json

namespace LevelBundle

/-- A line with a label and a value. -/
def labelled (label value : String) : String := Text.padRight 14 label ++ value ++ "\n"

/-- What is printed of a finished build. -/
def BuildStats.listing (s : BuildStats) (b : Bundle) (output : Path) (map : Option Path) :
    String :=
  s!"Built {output.text}\n" ++
  labelled "  size" s!"{s.size} bytes" ++
  labelled "  chunks" s!"{s.chunks} x {b.chunkSize} bytes" ++
  labelled "  sections" s!"{s.sections}" ++
  labelled "  blobs" s!"{s.blobs} ({s.dedupHits} dedup hits)" ++
  labelled "  fixups" s!"{b.fixupCount}" ++
  labelled "  slack" s!"{s.slack} bytes" ++
  match map with
  | some path => s!"  map written to {path.text}\n"
  | none => ""

/-- The JSON lines of a place. -/
def Place.json (p : Place) : List String :=
  Text.Json.record [("raw", Text.Json.number p.position.word.toNat),
    ("block", Text.Json.number p.block.toNat), ("offset", Text.Json.number p.offset.toNat),
    ("file_offset", Text.Json.number p.fileOffset),
    ("runtime_file", Text.Json.boolean p.position.isRuntimeFile)]

/-- The line of an entry of the fixup table. -/
def Place.listing (p : Place) : String :=
  s!"    {Text.hexWord p.position.word}  block " ++ Text.padLeft 4 ' ' (toString p.block) ++
    s!"  offset {Text.hexWide 5 p.offset.toNat}  file {Text.hexWide 8 p.fileOffset}\n"

namespace Report

/-- The JSON lines of a report. -/
def json (r : Report) : List String :=
  Text.Json.record [("size", Text.Json.number r.size), ("crc32", Text.Json.number r.crc32.toNat),
    ("chunk_size", Text.Json.number r.chunkSize.toNat),
    ("chunk_count", Text.Json.number r.chunkCount.toNat),
    ("header_size", Text.Json.number r.headerSize.toNat), ("start", r.start.json),
    ("fixup_table", (r.fixupTable.map Place.json).getD Text.Json.null),
    ("fixups", Text.Json.array (r.fixups.map Place.json))]

/-- What is printed of a report. -/
def listing (r : Report) (bundle : Path) : String :=
  s!"{bundle.text}\n" ++
  labelled "  size" s!"{r.size} bytes" ++
  labelled "  crc32" (Text.padLeft 8 '0' (Text.hexDigits r.crc32.toNat)) ++
  labelled "  chunk size" s!"{r.chunkSize}" ++
  labelled "  chunks" s!"{r.chunkCount}" ++
  labelled "  header" s!"{r.headerSize} bytes" ++
  labelled "  start" (Text.hexWord r.start.position.word ++
    s!" (block {r.start.block}, offset {Text.hex r.start.offset.toNat})") ++
  labelled "  fixup table" (match r.fixupTable with
    | some table => s!"file offset {Text.hex table.fileOffset}, {r.fixups.length} entries"
    | none => "none") ++
  String.join (r.fixups.map Place.listing)

end Report

/-- The line of a file that was loaded on demand. -/
def RuntimeLoad.listing (l : RuntimeLoad) : String :=
  s!"    {Text.hexWord l.address}  " ++ Text.padLeft 8 ' ' (toString l.size) ++
    s!" bytes  {l.name}\n"

/-- What is printed of a resolved bundle. -/
def LoadOutcome.listing (o : LoadOutcome) (bundle : Path) (chunks : Nat) (base : UInt32)
    (loads : List RuntimeLoad) : String :=
  s!"{bundle.text}\n" ++
  labelled "  root" (Text.hexWord o.root) ++
  labelled "  chunks" s!"{chunks} from {Text.hex base.toNat}" ++
  labelled "  fixups" s!"{o.fixupsApplied}" ++
  labelled "  runtime files" s!"{o.runtimeLoads}" ++
  String.join (loads.map RuntimeLoad.listing) ++
  if o.fixupReleasable then "  fixup table may be released\n"
  else "  fixup table must be kept\n"

end LevelBundle
