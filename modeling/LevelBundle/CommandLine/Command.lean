/-
  LevelBundle — the commands.

  `build` makes a bundle from a script, `inspect` shows what a bundle file says of
  itself, and `load` resolves a bundle in memory.  Each has one operand, the file
  it is about, and options.  Arguments are text, and so are the paths among them.

  * `Command.parse` reads a command line.  An option that may not be repeated, an
    unknown one, and a value that cannot be read are refused where they stand.
-/
import LevelBundle.CommandLine.Word
import LevelBundle.Settings

namespace LevelBundle

/-- Why a command line is refused. -/
inductive UsageError where
  /-- There is no command. -/
  | noCommand
  /-- A word is no command. -/
  | unknownCommand (text : String)
  /-- There is no such option. -/
  | unknownOption (name : String)
  /-- An option wants a value. -/
  | missingValue (name : String)
  /-- An option takes no value. -/
  | unwantedValue (name : String)
  /-- An option is given twice. -/
  | repeated (name : String)
  /-- A value of an option cannot be read. -/
  | badValue (name value : String)
  /-- There is an operand too many. -/
  | extraOperand (text : String)
  /-- The operand is missing. -/
  | missingOperand
  deriving DecidableEq, Repr

/-- The wording of each cause. -/
def UsageError.message : UsageError → String
  | noCommand => "a command is required: build, inspect, load or help"
  | unknownCommand text => s!"unrecognized command '{text}'"
  | unknownOption name => s!"unexpected option '{name}'"
  | missingValue name => s!"a value is required for '{name}'"
  | unwantedValue name => s!"'{name}' takes no value"
  | repeated name => s!"'{name}' cannot be used multiple times"
  | badValue name value => s!"invalid value '{value}' for '{name}'"
  | extraOperand text => s!"unexpected argument '{text}'"
  | missingOperand => "the file to work on is missing"

/-- Why no command is run. -/
inductive Halt where
  /-- Help is asked for. -/
  | help
  /-- The version is asked for. -/
  | version
  /-- The command line is refused. -/
  | refused (cause : UsageError)
  deriving DecidableEq, Repr

/-- The options of `build`. -/
structure BuildOptions where
  /-- Where the bundle is written. -/
  output : Option Path := none
  /-- The settings file. -/
  config : Option Path := none
  /-- The root section. -/
  root : Option String := none
  /-- The chunk size. -/
  chunkSize : Option UInt32 := none
  /-- The granularity of the sizes of items. -/
  padSize : Option UInt32 := none
  /-- Where the fixup table lies. -/
  fixups : Option FixupMode := none
  /-- Whether equal contents are stored apart. -/
  noDedup : Bool := false
  /-- Whether items keep the order of their discovery. -/
  pinned : Bool := false
  /-- The sector size. -/
  sectorSize : Option UInt32 := none
  /-- The order of the bytes of a word. -/
  order : Option ByteOrder := none
  /-- Definitions, in the order given. -/
  definitions : List (String × String) := []
  /-- Where a map is written. -/
  map : Option Path := none
  deriving Repr

/-- The options of `inspect`. -/
structure InspectOptions where
  /-- The chunk size. -/
  chunkSize : Option UInt32 := none
  /-- The order of the bytes of a word. -/
  order : Option ByteOrder := none
  /-- Whether JSON is printed. -/
  json : Bool := false
  deriving Repr

/-- The options of `load`. -/
structure LoadOptions where
  /-- The chunk size. -/
  chunkSize : Option UInt32 := none
  /-- The order of the bytes of a word. -/
  order : Option ByteOrder := none
  /-- The address of the first chunk. -/
  base : Option UInt32 := none
  /-- The directory of the files that are loaded on demand. -/
  files : Option Path := none
  deriving Repr

/-- A command. -/
inductive Command where
  /-- Builds a script. -/
  | build (script : Path) (options : BuildOptions)
  /-- Shows what a bundle file says of itself. -/
  | inspect (bundle : Path) (options : InspectOptions)
  /-- Resolves a bundle in memory. -/
  | load (bundle : Path) (options : LoadOptions)
  deriving Repr

namespace Command

/-! ## Values -/

/-- The value of a digit of base sixteen or below. -/
def digit? (base : Nat) (c : Char) : Option Nat :=
  let value? : Option Nat :=
    if '0' ≤ c ∧ c ≤ '9' then some (c.toNat - 48)
    else if 'a' ≤ c ∧ c ≤ 'f' then some (c.toNat - 87)
    else if 'A' ≤ c ∧ c ≤ 'F' then some (c.toNat - 55)
    else none
  value?.filter (· < base)

/-- The number that some digits stand for, after a `+` or not. -/
def digits? (base : Nat) (cs : List Char) : Option Nat :=
  match (match cs with | '+' :: rest => rest | cs => cs) with
  | [] => none
  | ds => ds.foldlM (fun n c => (digit? base c).map (base * n + ·)) 0

/-- Reads a word: decimal, or hexadecimal after `0x`.  Underscores do not count. -/
def word? (text : String) : Option UInt32 :=
  let digitsOf (cs : List Char) : List Char := cs.filter (· ≠ '_')
  let value := match text.toList with
    | '0' :: 'x' :: rest | '0' :: 'X' :: rest => digits? 16 (digitsOf rest)
    | cs => digits? 10 (digitsOf cs)
  (value.filter (· < 4294967296)).map Nat.toUInt32

/-- Reads a path, which is not empty. -/
def path? (text : String) : Option Path := if text.isEmpty then none else some (.ofText text)

/-- Reads a definition, `NAME=VALUE`. -/
def definition? (text : String) : Option (String × String) :=
  let name := text.toList.takeWhile (· ≠ '=')
  match text.toList.dropWhile (· ≠ '=') with
  | [] => none
  | _ :: value => if name = [] then none else some (String.ofList name, String.ofList value)

/-- Reads when to use colours. -/
def color? (text : String) : Option String :=
  if ["auto", "always", "never"].contains text then some text else none

/-! ## Options -/

/-- The options that take a value. -/
def valued : List String :=
  ["--color", "-o", "--output", "--config", "--root", "--chunk-size", "--pad-size", "--fixups",
    "--sector-size", "--endian", "-D", "--map", "--base", "--files"]

/-- Reads the value of an option. -/
def read {α : Type} (name : String) (reader : String → Option α) :
    Option String → Except Halt α
  | none => .error (.refused (.missingValue name))
  | some text =>
    match reader text with
    | some a => .ok a
    | none => .error (.refused (.badValue name text))

/-- Reads the value of an option that may be given once. -/
def once {α : Type} (name : String) (reader : String → Option α) (old : Option α)
    (value : Option String) : Except Halt (Option α) := do
  let a ← read name reader value
  if old.isSome then throw (.refused (.repeated name))
  return some a

/-- Sets an option that takes no value and may be given once. -/
def switch (name : String) (old : Bool) (value : Option String) : Except Halt Bool := do
  if value.isSome then throw (.refused (.unwantedValue name))
  if old then throw (.refused (.repeated name))
  return true

end Command

/-- Takes in an option of `build`. -/
def BuildOptions.set (o : BuildOptions) (name : String) (value : Option String) :
    Except Halt BuildOptions := do
  match name with
  | "-o" | "--output" => return { o with output := ← Command.once name Command.path? o.output value }
  | "--config" => return { o with config := ← Command.once name Command.path? o.config value }
  | "--root" => return { o with root := ← Command.once name some o.root value }
  | "--chunk-size" =>
    return { o with chunkSize := ← Command.once name Command.word? o.chunkSize value }
  | "--pad-size" => return { o with padSize := ← Command.once name Command.word? o.padSize value }
  | "--fixups" => return { o with fixups := ← Command.once name FixupMode.ofName? o.fixups value }
  | "--no-dedup" => return { o with noDedup := ← Command.switch name o.noDedup value }
  | "--pinned" => return { o with pinned := ← Command.switch name o.pinned value }
  | "--sector-size" =>
    return { o with sectorSize := ← Command.once name Command.word? o.sectorSize value }
  | "--endian" => return { o with order := ← Command.once name ByteOrder.ofName? o.order value }
  | "-D" =>
    return { o with definitions := o.definitions ++ [← Command.read name Command.definition? value] }
  | "--map" => return { o with map := ← Command.once name Command.path? o.map value }
  | _ => throw (.refused (.unknownOption name))

/-- Takes in an option of `inspect`. -/
def InspectOptions.set (o : InspectOptions) (name : String) (value : Option String) :
    Except Halt InspectOptions := do
  match name with
  | "--chunk-size" =>
    return { o with chunkSize := ← Command.once name Command.word? o.chunkSize value }
  | "--endian" => return { o with order := ← Command.once name ByteOrder.ofName? o.order value }
  | "--json" => return { o with json := ← Command.switch name o.json value }
  | _ => throw (.refused (.unknownOption name))

/-- Takes in an option of `load`. -/
def LoadOptions.set (o : LoadOptions) (name : String) (value : Option String) :
    Except Halt LoadOptions := do
  match name with
  | "--chunk-size" =>
    return { o with chunkSize := ← Command.once name Command.word? o.chunkSize value }
  | "--endian" => return { o with order := ← Command.once name ByteOrder.ofName? o.order value }
  | "--base" => return { o with base := ← Command.once name Command.word? o.base value }
  | "--files" => return { o with files := ← Command.once name Command.path? o.files value }
  | _ => throw (.refused (.unknownOption name))

namespace Command

/-- What is known of a command before its line ends. -/
structure Draft (α : Type) where
  /-- The operand. -/
  operand : Option Path := none
  /-- When to use colours. -/
  color : Option String := none
  /-- The options. -/
  options : α

/-- Takes in an option that every command has, `-v` any number of times; nothing for
    any other.  Answers when to use colours. -/
def shared? (color : Option String) (name : String) (value : Option String) :
    Option (Except Halt (Option String)) :=
  match name with
  | "-h" | "--help" => some do
    let _ ← switch name false value
    throw .help
  | "-v" | "--verbose" => some do
    let _ ← switch name false value
    return color
  | "--color" => some (once name color? color value)
  | _ => none

/-- Takes in an option after the name of a command. -/
def Draft.set {α : Type} (set : α → String → Option String → Except Halt α) (d : Draft α)
    (name : String) (value : Option String) : Except Halt (Draft α) := do
  match shared? d.color name value with
  | some color => return { d with color := ← color }
  | none => return { d with options := ← set d.options name value }

/-- Takes in a word after the name of a command. -/
def Draft.take {α : Type} (set : α → String → Option String → Except Halt α) (d : Draft α) :
    CommandWord → Except Halt (Draft α)
  | .wanting name => throw (.refused (.missingValue name))
  | .operand text | .plain text => do
    if d.operand.isSome then throw (.refused (.extraOperand text))
    return { d with operand := some (← read "FILE" path? (some text)) }
  | .option name value => d.set set name value
  | .apart name value => d.set set name (some value)

/-- Reads what follows the name of a command. -/
def operandAndOptions {α : Type} (set : α → String → Option String → Except Halt α)
    (options : α) (args : List String) : Except Halt (Path × α) := do
  let words := (CommandWord.scan valued.contains none args).map Prod.fst
  let d ← words.foldlM (Draft.take set) { options }
  match d.operand with
  | some operand => return (operand, d.options)
  | none => throw (.refused .missingOperand)

/-- Reads a command by its name and what follows it. -/
def ofName (name : String) (args : List String) : Except Halt Command := do
  match name with
  | "build" =>
    let (script, options) ← operandAndOptions BuildOptions.set {} args
    return .build script options
  | "inspect" =>
    let (bundle, options) ← operandAndOptions InspectOptions.set {} args
    return .inspect bundle options
  | "load" =>
    let (bundle, options) ← operandAndOptions LoadOptions.set {} args
    return .load bundle options
  | "help" =>
    match args with
    | [] => throw .help
    | [topic] =>
      if ["build", "inspect", "load", "help"].contains topic then throw .help
      throw (.refused (.unknownCommand topic))
    | _ :: text :: _ => throw (.refused (.unknownCommand text))
  | _ => throw (.refused (.unknownCommand name))

/-- Takes in when to use colours, if that was said and not yet looked at. -/
def settle (color waiting : Option String) : Except Halt (Option String) :=
  if waiting.isSome then once "--color" color? color waiting else .ok color

/-- Reads words up to the name of a command, and goes on from there.  When to use
    colours is looked at with the next option, or after the command has been
    read. -/
def ofWords (color waiting : Option String) :
    List (CommandWord × List String) → Except Halt Command
  | [] => .error (.refused .noCommand)
  | (.wanting name, _) :: _ => .error (.refused (.missingValue name))
  | (.plain text, _) :: _ => .error (.refused (.extraOperand text))
  | (.operand name, args) :: _ => do
    let command ← ofName name args
    let _ ← settle color waiting
    return command
  | (.apart name value, _) :: rest => do
    let color ← settle color waiting
    if name = "--color" then ofWords color (some value) rest
    else throw (.refused (.unknownOption name))
  | (.option name value, _) :: rest => do
    let color ← settle color waiting
    if name = "-V" ∨ name = "--version" then
      let _ ← switch name false value
      throw .version
    match shared? color name value with
    | some color => ofWords (← color) none rest
    | none => throw (.refused (.unknownOption name))

/-- Reads a command line. -/
def parse (args : List String) : Except Halt Command :=
  ofWords none none (CommandWord.scan valued.contains none args)

end Command

end LevelBundle
