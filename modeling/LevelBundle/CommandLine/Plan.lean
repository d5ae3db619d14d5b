/-
  LevelBundle — running commands.

  A command reads files and ends in a plan: which files to write, and what to say
  when they are written.  If one cannot be written, those before it stay and the
  rest of the plan is dropped.

  * `Command.plan` is what a command does with some files;
  * `FileTree.run` reads a command line and does all of it in a tree of files.
-/
import LevelBundle.CommandLine.Command
import LevelBundle.CommandLine.Failure
import LevelBundle.CommandLine.Listing
import LevelBundle.Memory.Image

namespace LevelBundle

/-- What a run has said, and how it ended. -/
structure Outcome where
  /-- The exit code: zero for success. -/
  code : Nat
  /-- What was printed. -/
  output : String := ""
  /-- What was said about warnings and errors. -/
  errors : String := ""
  deriving DecidableEq, Repr

/-- What is left to do for a command. -/
structure Plan where
  /-- What is said before anything is written. -/
  notices : String := ""
  /-- The files to write, in order. -/
  writes : List (Path × Bytes) := []
  /-- What is printed at the end. -/
  output : String
  /-- What is said at the end. -/
  summary : String := ""
  deriving Repr

/-- The outcome of a plan: one of its files could not be written, or all could. -/
def Plan.outcome (p : Plan) (failure : Option (Path × ReadFailure)) : Outcome :=
  match failure with
  | some (path, cause) =>
    { code := 1, errors := p.notices ++ (CommandError.unwritable path cause).render }
  | none => { code := 0, output := p.output, errors := p.notices ++ p.summary }

/-- The outcome of a command that fails. -/
def CommandError.outcome (e : CommandError) : Outcome := { code := 1, errors := e.render }

/-! ## Building -/

namespace BuildOptions

/-- The settings with those that the options replace. -/
def override (o : BuildOptions) (s : Settings) : Settings :=
  { s with
    root := o.root.getD s.root
    padSize := o.padSize.getD s.padSize
    dedup := s.dedup && !o.noDedup
    definitions := o.definitions.foldl (fun d entry => d.insert entry.1 entry.2) s.definitions
    pack := { s.pack with
      chunkSize := o.chunkSize.getD s.pack.chunkSize
      order := o.order.getD s.pack.order
      fixups := o.fixups.getD s.pack.fixups
      sectorSize := o.sectorSize.getD s.pack.sectorSize
      pinnedOrder := s.pack.pinnedOrder || o.pinned } }

/-- The settings file: the one that is given, or one beside the script if there is
    one. -/
def settingsFile? (o : BuildOptions) (files : Files) (script : Path) : Option Path :=
  match o.config with
  | some path => some path
  | none =>
    let beside := (script.parent?.getD (.ofText ".")).join (.ofText "lvlpak.toml")
    if files.isFile beside then some beside else none

/-- The settings of a build. -/
def settings (o : BuildOptions) (files : Files) (script : Path) :
    Except CommandError Settings := do
  let s ← match o.settingsFile? files script with
    | some path => (Settings.ofFile files path).mapError (.settingsFile path)
    | none => pure {}
  let s := o.override s
  s.validate.mapError .settings
  return s

/-- Builds a script. -/
def plan (o : BuildOptions) (files : Files) (script : Path) : Except CommandError Plan := do
  let report := LevelBundle.build (← o.settings files script) files script
  match report.result with
  | .error e => throw (.build e report.warnings report.sources)
  | .ok (b, stats) =>
    let output := o.output.getD (script.withExtension "lvl")
    let maps := o.map.toList.map fun path => (path, Utf8.encode b.renderMap)
    return {
      notices := CommandError.renderWarnings report.warnings report.sources
      writes := (output, b.bytes.toList) :: maps
      output := stats.listing b output o.map
      summary :=
        if report.warnings.isEmpty then ""
        else Diagnostic.summary 0 report.warnings.length ++ "\n" }

end BuildOptions

/-! ## Reading bundles -/

/-- Reads a bundle file. -/
def Files.readBundle (files : Files) (bundle : Path) : Except CommandError (Array UInt8) := do
  return (← (files.read bundle).mapError (.unreadable bundle)).toArray

/-- Shows what a bundle file says of itself. -/
def InspectOptions.plan (o : InspectOptions) (files : Files) (bundle : Path) :
    Except CommandError Plan := do
  let bytes ← files.readBundle bundle
  let defaults : PackOptions := {}
  let report ← (Report.decode bytes (o.chunkSize.getD defaults.chunkSize)
    (o.order.getD defaults.order)).mapError (.undecodable bundle)
  return { output :=
    if o.json then "\n".intercalate report.json ++ "\n" else report.listing bundle }

namespace LoadOptions

/-- The size of a file that is loaded on demand; without a directory it has no
    contents. -/
def sizeOf (o : LoadOptions) (files : Files) (name : String) : Except ReadFailure Nat :=
  match o.files with
  | some directory => (files.read (directory.join (.ofText name))).map List.length
  | none => .ok 0

/-- Resolves the chunks twice and keeps what the first time has given. -/
def resolve (o : LoadOptions) (files : Files) (bundle : Path) (image : Image) (base : UInt32)
    (start : RuntimeFiles) : Except CommandError (LoadOutcome × List RuntimeLoad) := do
  let loader ← (image.loader (image.contiguousBases base)).mapError .loader
  let host := RuntimeFiles.host (o.sizeOf files)
  let (first, hosted) := (Loader.init host).run ⟨loader, start⟩
  let outcome ← first.mapError (.unresolved bundle · hosted.host.failure)
  let (second, hosted) := (Loader.init host).run hosted
  let again ← second.mapError .loader
  unless again.alreadyResolved && again.root == outcome.root do
    throw .unsettled
  return (outcome, hosted.host.loads)

/-- Resolves a bundle in memory: the chunks lie one behind the other, and the files
    loaded on demand behind them. -/
def plan (o : LoadOptions) (files : Files) (bundle : Path) : Except CommandError Plan := do
  let bytes ← files.readBundle bundle
  let defaults : PackOptions := {}
  let chunkSize := o.chunkSize.getD defaults.chunkSize
  let base := o.base.getD 0x10000
  let image ← (Image.ofBytes bytes chunkSize (o.order.getD defaults.order)).mapError
    (.unsplittable bundle)
  let stop := base.toNat + image.chunkCount * chunkSize.toNat
  if 4294967296 ≤ stop then
    throw (.noRoom image.chunkCount chunkSize base)
  let (outcome, loads) ← o.resolve files bundle image base { next := stop.toUInt32 }
  return { output := outcome.listing bundle image.chunkCount base loads }

end LoadOptions

/-! ## Commands -/

/-- What a command does with some files. -/
def Command.plan (files : Files) : Command → Except CommandError Plan
  | build script options => options.plan files script
  | inspect bundle options => options.plan files bundle
  | load bundle options => options.plan files bundle

/-- What is printed of the commands. -/
def usage : String :=
  "Relocatable chunked resource bundle builder\n\n" ++
  "Usage: lvlpak [OPTIONS] <COMMAND>\n\n" ++
  "Commands:\n" ++
  "  build    Build a section script into a bundle\n" ++
  "  inspect  Decode the header and fixup table of a bundle\n" ++
  "  load     Load a bundle into simulated chunk memory and resolve it\n" ++
  "  help     Print this message\n"

/-- The outcome if no command is run. -/
def Halt.outcome : Halt → Outcome
  | help => { code := 0, output := usage }
  | version => { code := 0, output := "lvlpak 0.2.0\n" }
  | refused cause => { code := 2, errors := s!"error: {cause.message}\n\n" ++ usage }

namespace FileTree

/-- Writes files one after the other, up to one that cannot be written. -/
def writeAll (t : FileTree) : List (Path × Bytes) → FileTree × Option (Path × ReadFailure)
  | [] => (t, none)
  | (path, bytes) :: rest =>
    match t.write path bytes with
    | .ok t => t.writeAll rest
    | .error cause => (t, some (path, cause))

/-- Runs a command line in a tree of files. -/
def run (t : FileTree) (args : List String) : FileTree × Outcome :=
  match Command.parse args with
  | .error halt => (t, halt.outcome)
  | .ok command =>
    match command.plan t.files with
    | .error e => (t, e.outcome)
    | .ok plan =>
      let (t, failure) := t.writeAll plan.writes
      (t, plan.outcome failure)

end FileTree

end LevelBundle
