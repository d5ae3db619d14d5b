/-
  LevelBundle — commands that fail.

  A failure is told by what was attempted, and below that by its causes, each the
  cause of the one before.  A failed build is told by its diagnostics instead.
-/
import LevelBundle.Build
import LevelBundle.CommandLine.RuntimeFiles
import LevelBundle.Diagnostic

namespace LevelBundle

/-- The causes of a settings error, itself first. -/
def SettingsError.chain (e : SettingsError) : List String :=
  match e with
  | unreadable cause => [e.message, cause.message]
  | malformed | invalid _ => [e.message]

/-- The causes of a load error, itself first. -/
def LoadError.chain (e : LoadError) : List String :=
  match e with
  | callback _ cause => [e.message, cause]
  | _ => [e.message]

/-- Why a command fails. -/
inductive CommandError where
  /-- A file cannot be read. -/
  | unreadable (path : Path) (cause : ReadFailure)
  /-- A file cannot be written. -/
  | unwritable (path : Path) (cause : ReadFailure)
  /-- A settings file cannot be used. -/
  | settingsFile (path : Path) (cause : SettingsError)
  /-- The options make settings that no bundle can be built with. -/
  | settings (cause : SettingsError)
  /-- The build has failed. -/
  | build (error : BuildError) (warnings : List Warning) (sources : SourceMap)
  /-- A file is no bundle. -/
  | undecodable (path : Path) (cause : FormatError)
  /-- A file cannot be split into chunks. -/
  | unsplittable (path : Path) (cause : LoadError)
  /-- The chunks do not fit above the address of the first one. -/
  | noRoom (chunks : Nat) (chunkSize base : UInt32)
  /-- No loader takes the chunks, or it fails the second time. -/
  | loader (cause : LoadError)
  /-- The bundle cannot be resolved; the file that could not be read, if it is that. -/
  | unresolved (path : Path) (cause : LoadError) (file : Option ReadFailure)
  /-- A resolved bundle is not taken for one. -/
  | unsettled

namespace CommandError

/-- The causes of a failure, what was attempted first. -/
def chain : CommandError → List String
  | unreadable path cause => [s!"Failed to read {path.text}", cause.message]
  | unwritable path cause => [s!"Failed to write {path.text}", cause.message]
  | settingsFile path cause => s!"Failed to load {path.text}" :: cause.chain
  | settings cause => "Invalid configuration" :: cause.chain
  | build error _ _ => [error.kind.message]
  | undecodable path cause => [s!"Failed to decode {path.text}", cause.message]
  | unsplittable path cause => s!"Failed to split {path.text} into chunks" :: cause.chain
  | noRoom chunks chunkSize base =>
    [s!"{chunks} chunks of {chunkSize} bytes do not fit above " ++ Text.hex base.toNat]
  | loader cause => cause.chain
  | unresolved path cause _ => s!"Failed to resolve {path.text}" :: cause.chain
  | unsettled => ["second fixup pass did not report the resolved root"]

/-- The lines of a text, those after the first one after some blanks. -/
def indentBelow (indent text : String) : String :=
  ("\n" ++ indent).intercalate (text.splitOn "\n")

/-- The lines that tell the causes of what was attempted; several are numbered. -/
def causeLines : List String → List String
  | [] => []
  | [cause] => ["", "Caused by:", "    " ++ indentBelow "    " cause]
  | causes => "" :: "Caused by:" :: causes.zipIdx.map fun (cause, index) =>
      Text.padLeft 5 ' ' (toString index) ++ ": " ++ indentBelow "       " cause

/-- The text that tells a chain of causes. -/
def renderChain : List String → String
  | [] => ""
  | attempt :: causes =>
    String.join ((("Error: " ++ attempt) :: causeLines causes).map (· ++ "\n"))

/-- The diagnostics of some warnings. -/
def renderWarnings (warnings : List Warning) (sources : SourceMap) : String :=
  String.join (warnings.map fun w => (Diagnostic.ofWarning w).render sources)

/-- The text that tells a failure. -/
def render : CommandError → String
  | build error warnings sources =>
    renderWarnings warnings sources ++ (Diagnostic.ofError error).render sources
      ++ s!"build failed: {Diagnostic.summary 1 warnings.length}\n"
  | e => renderChain e.chain

/-- The file that could not be read, if it is that. -/
def file? : CommandError → Option ReadFailure
  | unreadable _ cause | settingsFile _ (.unreadable cause) => some cause
  | build error _ _ =>
    match error.kind with
    | .unreadable _ cause => some cause
    | _ => none
  | unresolved _ _ file => file
  | _ => none

/-- The path to look at before the command can go on. -/
def unseen? (e : CommandError) : Option Path :=
  match e.file? with
  | some (.unseen path) => some path
  | _ => none

end CommandError

end LevelBundle
