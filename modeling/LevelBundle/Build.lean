/-
  LevelBundle — building a bundle from a script.

  A build reads the script, compiles what its root leads to, and packs the
  program.  Its report keeps the warnings of the stages that were finished, and the
  texts, so that errors and warnings can be shown with the lines they are about.
-/
import LevelBundle.Program.Compiler
import LevelBundle.Bundle.Packer

namespace LevelBundle

/-- The figures of a build. -/
structure BuildStats where
  /-- The number of distinct contents stored. -/
  blobs : Nat
  /-- The number of requests that an existing blob has answered. -/
  dedupHits : Nat
  /-- The number of sections placed, records of files included. -/
  sections : Nat
  /-- The bytes left unused between items. -/
  slack : Nat
  /-- The number of chunks. -/
  chunks : UInt32
  /-- The size of the file. -/
  size : Nat
  deriving DecidableEq, Repr

/-- What has come of a build. -/
structure BuildReport where
  /-- The bundle, or what stopped the build. -/
  result : Except BuildError (Bundle × BuildStats)
  /-- The warnings of the stages that were finished. -/
  warnings : List Warning
  /-- The script texts. -/
  sources : SourceMap

/-- The figures of a bundle packed from a program. -/
def BuildStats.of (program : Program) (b : Bundle) : BuildStats :=
  { blobs := program.store.canonicalIds.length
    dedupHits := program.store.dedupHits
    sections := b.placements.countP fun i => i.kind != .blob
    slack := b.slack, chunks := b.chunkCount, size := b.bytes.size }

/-- Packs a program with some options. -/
def Program.pack (program : Program) (options : PackOptions) : Except PackError Bundle × Program :=
  match Packer.ofOptions options with
  | .error e => (.error e, program)
  | .ok packer => packer.pack.run program

/-- Builds a bundle from the script at a path. -/
def build (s : Settings) (files : Files) (script : Path) : BuildReport :=
  let (read, reader) := (Reader.readPath s.readOptions files script).run {}
  let sources := reader.sources
  match read with
  | .error e => { result := .error e, warnings := reader.warnings, sources }
  | .ok _ =>
    let ctx := Compiler.context s reader.table files
    match Compiler.compile ctx (Compiler.start s) s.root with
    | .error e => { result := .error e, warnings := reader.warnings, sources }
    | .ok program =>
      let warnings := reader.warnings ++ program.warnings
      match program.pack s.pack with
      | (.error e, _) => { result := .error { kind := .pack e }, warnings, sources }
      | (.ok b, _) => { result := .ok (b, .of program b), warnings, sources }

end LevelBundle
