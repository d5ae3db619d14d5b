/-
  LevelBundle — the settings of a build.

  Every setting has a default, so an empty file is a whole settings file.  Three
  tables hold them: `bundle` for the shape of the bundle, `paths` for where files
  are searched, and `defines` for what scripts refer to.

  `Settings.fault?` says which settings no bundle can be built with.
-/
import LevelBundle.Script.Reader
import LevelBundle.Toml.Document

namespace LevelBundle

/-- Where the fixup table lies. -/
inductive FixupMode where
  /-- In the header. -/
  | front
  /-- After all items. -/
  | tail
  /-- Nowhere: no reference is listed. -/
  | absent
  deriving DecidableEq, Repr

namespace FixupMode

/-- A mode in settings. -/
def name : FixupMode → String
  | front => "front"
  | tail => "end"
  | absent => "none"

/-- Reads a mode by its name. -/
def ofName? : String → Option FixupMode
  | "front" => some front
  | "end" => some tail
  | "none" => some absent
  | _ => none

/-- What is said of a name that no mode has. -/
def unknownName (text : String) : String :=
  s!"unknown fixup mode '{text}' (expected front, end or none)"

end FixupMode

/-- What the shape of a bundle depends on once a program is compiled. -/
structure PackOptions where
  /-- The size of a chunk in bytes. -/
  chunkSize : UInt32 := 32768
  /-- The order of the bytes of a word. -/
  order : ByteOrder := .little
  /-- Where the fixup table lies. -/
  fixups : FixupMode := .front
  /-- The sector size that the file is padded to; zero for none. -/
  sectorSize : UInt32 := 0
  /-- Whether items keep the order of their discovery. -/
  pinnedOrder : Bool := false
  /-- How many estimates of the header are tried. -/
  maxLayoutPasses : UInt32 := 16
  deriving DecidableEq, Repr

/-- The settings of a build. -/
structure Settings where
  /-- What the shape of the bundle depends on. -/
  pack : PackOptions := {}
  /-- The name of the root section. -/
  root : String := "root"
  /-- The granularity of the sizes of items. -/
  padSize : UInt32 := 4
  /-- Whether equal contents share a blob. -/
  dedup : Bool := true
  /-- What a second definition of a section does. -/
  duplicateSections : DuplicatePolicy := .error
  /-- Where files are searched, as given. -/
  search : List Path := []
  /-- What scripts refer to. -/
  definitions : Definitions := {}
  /-- The directory that relative search paths start from. -/
  baseDirectory : Option Path := none
  deriving Repr

/-- Why no bundle can be built with some settings. -/
inductive SettingsFault where
  /-- The root section has no name. -/
  | emptyRoot
  /-- The chunk size is not admitted. -/
  | chunkSize (cause : PositionError)
  /-- The granularity is not admitted. -/
  | padSize (value : UInt32)
  /-- The sector size is not admitted. -/
  | sectorSize (value : UInt32)
  /-- No estimate of the header may be tried. -/
  | noLayoutPasses
  /-- No reference can name a definition. -/
  | defineName (name : String)
  deriving DecidableEq, Repr

/-- The wording of each fault. -/
def SettingsFault.message : SettingsFault → String
  | emptyRoot => "Root section name cannot be empty"
  | chunkSize cause => cause.message
  | padSize value =>
    s!"Invalid pad_size {value}: must be a non-zero multiple of 4 no larger than chunk_size"
  | sectorSize value =>
    s!"Invalid sector_size {value}: must be 0 or a multiple of 4 no larger than chunk_size"
  | noLayoutPasses => "max_layout_passes must be at least 1"
  | defineName name => s!"Invalid define name '{name}'"

/-- Why there are no settings. -/
inductive SettingsError where
  /-- The file cannot be read. -/
  | unreadable (cause : ReadFailure)
  /-- The file is malformed, or holds what is no setting. -/
  | malformed
  /-- No bundle can be built with the settings. -/
  | invalid (fault : SettingsFault)
  deriving DecidableEq, Repr

/-- The wording of each cause. -/
def SettingsError.message : SettingsError → String
  | unreadable cause => s!"Failed to read config file: {cause.message}"
  | malformed => "Failed to parse config"
  | invalid fault => s!"Invalid config: {fault.message}"

/-! ## Reading settings -/

namespace Toml.Value

/-- A text. -/
def text? : Value → Option String
  | text s => some s
  | _ => none

/-- A truth value. -/
def boolean? : Value → Option Bool
  | boolean b => some b
  | _ => none

/-- An integer that fits a word. -/
def word? : Value → Option UInt32
  | integer n => if 0 ≤ n ∧ n < 4294967296 then some n.toNat.toUInt32 else none
  | _ => none

/-- The entries of a table; a moment counts as a table with its text. -/
def entries? : Value → Option Table
  | record entries | table _ entries => some entries
  | moment m => some [(Moment.entryName, text m.render)]
  | _ => none

/-- The fields of a record: the entries of a table, or the items of an array in
    the order of the names.  Items beyond the last name do not count. -/
def fields? (names : List String) : Value → Option Table
  | record entries | table _ entries => some entries
  | array items => some (names.zip items)
  | tables elements => some (names.zip (elements.map (table .header)))
  | _ => none

/-- Whether a value is a table or an array without entries. -/
def isEmpty : Value → Bool
  | record entries | table _ entries => entries.isEmpty
  | array items => items.isEmpty
  | _ => false

/-- One of several choices: its name, or a table with nothing under its name. -/
def choice? : Value → Option String
  | text s => some s
  | record [(name, v)] | table _ [(name, v)] => if v.isEmpty then some name else none
  | _ => none

end Toml.Value

/-- Reads a policy by its name. -/
def DuplicatePolicy.ofName? : String → Option DuplicatePolicy
  | "error" => some error
  | "ignore" => some ignore
  | _ => none

/-- Reads a byte order by the name it goes by in settings. -/
def ByteOrder.ofSetting? : String → Option ByteOrder
  | "little" => some little
  | "big" => some big
  | _ => none

namespace Settings

/-- The names of the settings in the table `bundle`. -/
def bundleNames : List String :=
  ["root", "chunk_size", "pad_size", "endian", "dedup", "fixups", "sector_size",
    "pinned_order", "duplicate_sections", "max_layout_passes"]

/-- Takes in a setting of the table `bundle`. -/
def setBundle (s : Settings) (entry : String × Toml.Value) : Option Settings :=
  let v := entry.2
  match entry.1 with
  | "root" => v.text?.map fun root => { s with root }
  | "chunk_size" => v.word?.map fun chunkSize => { s with pack := { s.pack with chunkSize } }
  | "pad_size" => v.word?.map fun padSize => { s with padSize }
  | "endian" =>
    (v.choice?.bind ByteOrder.ofSetting?).map fun order =>
      { s with pack := { s.pack with order } }
  | "dedup" => v.boolean?.map fun dedup => { s with dedup }
  | "fixups" =>
    (v.choice?.bind FixupMode.ofName?).map fun fixups =>
      { s with pack := { s.pack with fixups } }
  | "sector_size" =>
    v.word?.map fun sectorSize => { s with pack := { s.pack with sectorSize } }
  | "pinned_order" =>
    v.boolean?.map fun pinnedOrder => { s with pack := { s.pack with pinnedOrder } }
  | "duplicate_sections" =>
    (v.choice?.bind DuplicatePolicy.ofName?).map fun duplicateSections =>
      { s with duplicateSections }
  | "max_layout_passes" =>
    v.word?.map fun maxLayoutPasses => { s with pack := { s.pack with maxLayoutPasses } }
  | _ => none

/-- Takes in a setting of the table `paths`. -/
def setPaths (s : Settings) (entry : String × Toml.Value) : Option Settings :=
  match entry with
  | ("search", .array items) => do
    let texts ← items.mapM Toml.Value.text?
    return { s with search := texts.map Path.ofText }
  | _ => none

/-- Takes in a definition. -/
def setDefine (s : Settings) (entry : String × Toml.Value) : Option Settings :=
  entry.2.text?.map fun value =>
    { s with definitions := s.definitions.insert entry.1 value }

/-- Takes in a table of settings. -/
def setTable (s : Settings) (entry : String × Toml.Value) : Option Settings :=
  match entry.1 with
  | "bundle" => do (← entry.2.fields? bundleNames).foldlM setBundle s
  | "paths" => do (← entry.2.fields? ["search"]).foldlM setPaths s
  | "defines" => do (← entry.2.entries?).foldlM setDefine s
  | _ => none

/-- Reads settings; what is not given keeps its default. -/
def ofTable? (t : Toml.Table) : Option Settings := t.foldlM setTable {}

/-- Whether a reference can name this definition. -/
def isDefineName (name : String) : Bool := !name.isEmpty && !name.toList.contains ')'

/-- Why no bundle can be built with these settings, if there is a reason. -/
def fault? (s : Settings) : Option SettingsFault :=
  if s.root.isEmpty then some .emptyRoot
  else match Addressing.ofChunkSize s.pack.chunkSize with
  | .error cause => some (.chunkSize cause)
  | .ok _ =>
    if s.padSize = 0 ∨ s.padSize % 4 ≠ 0 ∨ s.pack.chunkSize < s.padSize then
      some (.padSize s.padSize)
    else if s.pack.sectorSize % 4 ≠ 0 ∨ s.pack.chunkSize < s.pack.sectorSize then
      some (.sectorSize s.pack.sectorSize)
    else if s.pack.maxLayoutPasses = 0 then some .noLayoutPasses
    else (s.definitions.sortedNames.find? fun name => !isDefineName name).map .defineName

/-- Refuses settings that no bundle can be built with. -/
def validate (s : Settings) : Except SettingsError Unit :=
  match s.fault? with
  | some fault => .error (.invalid fault)
  | none => .ok ()

/-- Reads a settings file. -/
def ofText (content : String) : Except SettingsError Settings := do
  match (Toml.ofText? content).bind ofTable? with
  | none => throw .malformed
  | some s =>
    s.validate
    return s

/-- Reads the settings file at a path; relative search paths start from its
    directory. -/
def ofFile (files : Files) (path : Path) : Except SettingsError Settings := do
  match files.read path with
  | .error cause => throw (.unreadable cause)
  | .ok bytes =>
    match Utf8.decode? bytes with
    | none => throw (.unreadable .notTextStream)
    | some content =>
      let s ← ofText content
      return { s with baseDirectory := path.parent? }

/-- Where files are searched. -/
def searchPaths (s : Settings) : List Path :=
  s.search.map fun path =>
    match s.baseDirectory with
    | some base => if path.isAbsolute then path else base.join path
    | none => path

/-- How scripts are read. -/
def readOptions (s : Settings) : ReadOptions :=
  { definitions := s.definitions, policy := s.duplicateSections }

end Settings

end LevelBundle
