/-
  LevelBundle — the command-line program.

  A command is tried with what is known of the disk so far.  As long as it fails
  for a path that nobody has looked at, that path is read and the command is tried
  again; then its plan is carried out.  The system is given paths as they are shown,
  which is as they are spelled: the arguments are text.
-/
import LevelBundle.CommandLine.Plan

namespace LevelBundle

/-- What the system says of a file, as a failure.  The system's number of the error
    may come negated. -/
def ReadFailure.ofIO : IO.Error → ReadFailure
  | .noFileOrDirectory .. => .noSuchFile
  | .inappropriateType _ code text | .resourceExhausted _ code text
  | .invalidArgument _ code text =>
    match (if code < 2147483648 then code else 0 - code) with
    | 20 => .notDirectory
    | 21 => .isDirectory
    | 36 => .nameTooLong
    | _ => .other text
  | e => .other (toString e)

/-- Reads a file of the disk. -/
def readDisk (path : Path) : IO (Except ReadFailure Bytes) := do
  try
    return .ok (← IO.FS.readBinFile path.text).toList
  catch e => return .error (.ofIO e)

/-- Writes files of the disk, up to one that cannot be written. -/
def writeDisk : List (Path × Bytes) → IO (Option (Path × ReadFailure))
  | [] => return none
  | (path, bytes) :: rest => do
    try
      IO.FS.writeBinFile path.text (ByteArray.mk bytes.toArray)
    catch e => return some (path, .ofIO e)
    writeDisk rest

/-- Prints what a run has said, and answers its exit code. -/
def Outcome.report (o : Outcome) : IO UInt32 := do
  IO.print o.output
  IO.eprint o.errors
  return o.code.toUInt32

end LevelBundle

open LevelBundle in
/-- Runs a command line on the disk. -/
def main (args : List String) : IO UInt32 := do
  match Command.parse args with
  | .error halt => halt.outcome.report
  | .ok command =>
    let mut known : Snapshot := {}
    repeat
      match command.plan known.files with
      | .ok plan => return ← (plan.outcome (← writeDisk plan.writes)).report
      | .error e =>
        match e.unseen? with
        | some path => known := known.learn path (← readDisk path)
        | none => return ← e.outcome.report
    return 1
