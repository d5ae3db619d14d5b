/-
  LevelBundle — diagnostics.

  A diagnostic is what a person reads about an error or a warning: a headline, an
  excerpt of the script line that is to blame, and a word of help.
-/
import LevelBundle.BuildError
import LevelBundle.Diagnostic.Excerpt

namespace LevelBundle

/-- How bad it is. -/
inductive Severity where
  /-- The build has stopped. -/
  | error
  /-- The build goes on. -/
  | warning
  deriving DecidableEq, Repr

/-- A severity in headlines. -/
def Severity.render : Severity → String
  | error => "error"
  | warning => "warning"

/-- What is said under a line that is to blame for an error. -/
def BuildError.Kind.label : Kind → String
  | malformedLine _ => "cannot parse this line"
  | undefinedVariable _ => "variable used here"
  | unknownKeyword _ => "unknown keyword"
  | invalidArgument _ _ => "invalid argument"
  | unresolvable _ _ => "referenced here"
  | duplicateSection _ => "redefined here"
  | cyclicSection _ | cyclicInsert _ => "cycle closes here"
  | misalignedReference _ _ => "reference emitted here"
  | unreadable _ _ => "while reading this"
  | oversizedItem _ _ _ | store _ | pack _ => "here"

/-- What to do about an error. -/
def BuildError.Kind.help? : Kind → Option String
  | undefinedVariable _ => some "define it under [defines] in lvlpak.toml or pass -D NAME=VALUE"
  | misalignedReference _ _ => some "add `align 4` before the reference"
  | duplicateSection _ =>
    some "set duplicate_sections = \"ignore\" to keep the first definition"
  | oversizedItem _ _ _ => some "split the section or raise chunk_size"
  | _ => none

/-- What is said under a line that is to blame for a warning. -/
def Warning.Kind.label : Warning.Kind → String
  | zeroLength _ => "contributes no bytes"
  | duplicateIgnored _ => "this definition is ignored"

/-- A message for a person. -/
structure Diagnostic where
  /-- How bad it is. -/
  severity : Severity
  /-- The code of an error. -/
  code : Option String := none
  /-- What happened. -/
  message : String
  /-- The line that is to blame, and what is said under it. -/
  label : Option (Origin × String) := none
  /-- What to do about it. -/
  help : Option String := none
  deriving Repr

namespace Diagnostic

/-- The diagnostic of an error. -/
def ofError (e : BuildError) : Diagnostic where
  severity := .error
  code := some e.kind.code
  message := e.kind.message
  label := e.origin.map (·, e.kind.label)
  help := e.kind.help?

/-- The diagnostic of a warning. -/
def ofWarning (w : Warning) : Diagnostic where
  severity := .warning
  message := w.kind.message
  label := w.origin.map (·, w.kind.label)

/-- The headline. -/
def headline (d : Diagnostic) : String :=
  match d.code with
  | some code => s!"{d.severity.render}[{code}]: {d.message}"
  | none => s!"{d.severity.render}: {d.message}"

/-- The lines under the headline, with an excerpt if there is one. -/
def body (d : Diagnostic) (excerpt : Option Excerpt) : List String :=
  match excerpt, d.help with
  | some e, help => e.render help
  | none, some help => [s!" = help: {help}"]
  | none, none => []

/-- The diagnostic with an excerpt or without one. -/
def renderWith (d : Diagnostic) (excerpt : Option Excerpt) : String :=
  String.join ((d.headline :: d.body excerpt ++ [""]).map (· ++ "\n"))

/-- The diagnostic over some script texts, or the bare message if it blames a line
    of a text that is not among them. -/
def render (d : Diagnostic) (sources : SourceMap) : String :=
  match d.label with
  | none => d.renderWith none
  | some (origin, label) =>
    match sources.sources[origin.file]? with
    | none => d.message
    | some source => d.renderWith (some
        { name := source.name, text := source.text.toList, start := origin.start,
          stop := origin.stop, label })

/-- A number of things. -/
def counted (n : Nat) (noun : String) : String :=
  s!"{n} {noun}" ++ if n = 1 then "" else "s"

/-- How a build went, by the numbers of errors and warnings. -/
def summary (errors warnings : Nat) : String :=
  match errors, warnings with
  | 0, 0 => "no problems"
  | 0, w => counted w "warning"
  | e, 0 => counted e "error"
  | e, w => counted e "error" ++ ", " ++ counted w "warning"

end Diagnostic

end LevelBundle
