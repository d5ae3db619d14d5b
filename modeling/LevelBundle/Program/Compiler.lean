/-
  LevelBundle — compiling sections.

  Sections are compiled from a root on.  A section is compiled when it is first
  referred to, and once; sections being compiled are kept on a stack, which
  shows a section that leads back to itself.  File contents go into the store,
  which holds equal contents once.

  Compiling a section can ask for other sections.  `compileLine` takes the way to
  do so as an argument; `compileWithin` bounds how deep that goes, and the number
  of sections of the table is bound enough, since a section on the stack is not
  entered again.
-/
import LevelBundle.Script.Arguments
import LevelBundle.Program
import LevelBundle.Settings

namespace LevelBundle

/-- What compiling depends on. -/
structure CompileContext where
  /-- The sections of the script. -/
  table : SectionTable
  /-- The files that sections refer to. -/
  files : Files
  /-- Where files are searched. -/
  search : List Path
  /-- The size of a chunk. -/
  chunkSize : UInt32
  /-- The order of the bytes of numbers. -/
  order : ByteOrder

/-- How far compiling has come. -/
structure Compiler where
  /-- The contents of files. -/
  store : Store
  /-- The sections compiled or being compiled. -/
  sections : Array Section := #[]
  /-- The names of the sections being compiled, the outermost first. -/
  stack : List String := []
  /-- The warnings, the earliest first. -/
  warnings : List Warning := []
  deriving Repr

/-- A step of compiling: it may fail, and what was done before stays. -/
abbrev CompileM := ExceptT BuildError (StateM Compiler)

/-- A section being compiled. -/
structure Draft where
  /-- The parts so far. -/
  compiled : Section
  /-- The directory that a `path` line has set. -/
  base : Option Path := none
  deriving Repr

namespace Compiler

/-- The context of compiling with some settings. -/
def context (s : Settings) (table : SectionTable) (files : Files) : CompileContext :=
  { table, files, search := s.searchPaths, chunkSize := s.pack.chunkSize
    order := s.pack.order }

/-- Nothing compiled yet. -/
def start (s : Settings) : Compiler := { store := .empty s.padSize s.dedup }

/-- The section compiled, or being compiled, under a name of the script. -/
def compiled? (c : Compiler) (name : String) : Option SectionId :=
  (c.sections.findIdx? fun s => !s.runtimeFile && s.name == name).map SectionId.mk

/-- The record of a file that is loaded on demand. -/
def record? (c : Compiler) (filename : String) : Option SectionId :=
  (c.sections.findIdx? fun s => s.runtimeFile && s.name == "load:" ++ filename).map SectionId.mk

/-- The sections that lead from `name`, on the stack, back to it. -/
def cycle (c : Compiler) (name : String) : List String :=
  c.stack.dropWhile (· != name) ++ [name]

/-- Notes a warning. -/
def warn (kind : Warning.Kind) (origin : Origin) : CompileM Unit :=
  modify fun c => { c with warnings := c.warnings ++ [{ kind, origin := some origin }] }

/-- Whether a size, rounded up to the granularity, passes a chunk. -/
def overflows (ctx : CompileContext) (c : Compiler) (size : UInt32) : Bool :=
  ctx.chunkSize < roundUp size c.store.padSize

/-- Appends a part to a section, which has to fit in a chunk. -/
def push (ctx : CompileContext) (d : Draft) (p : Part) (origin : Origin) : CompileM Draft := do
  match d.compiled.push p with
  | .error kind => throw (.at kind origin)
  | .ok compiled =>
    if (← get).overflows ctx compiled.size then
      throw (.at (.oversizedItem s!"section '{compiled.name}'" compiled.size.toNat ctx.chunkSize)
        origin)
    return { d with compiled }

/-- Checks an alignment against the chunk and the word. -/
def checkAlignment (ctx : CompileContext) (keyword : String) (alignment : UInt32)
    (origin : Origin) : Except BuildError UInt32 :=
  if ctx.chunkSize < alignment then
    .error (.at (.invalidArgument keyword (.pastChunk alignment ctx.chunkSize)) origin)
  else if Alignment.valid alignment then .ok alignment
  else .error (.at (.invalidArgument keyword (.invalidAlignment alignment)) origin)

/-- Where a path may lead, the best place first: from the directory that `path`
    has set or that of the script, then from where files are searched. -/
def candidates (ctx : CompileContext) (base : Option Path) (origin : Origin) (path : Path) :
    List Path :=
  if path.isAbsolute then [path.normalize]
  else ((base.getD origin.directory :: ctx.search).map fun dir => (dir.join path).normalize)

/-- The file a path leads to. -/
def resolve (ctx : CompileContext) (base : Option Path) (origin : Origin) (text : String) :
    Except BuildError Path :=
  match (candidates ctx base origin (.ofText text)).find? ctx.files.isFile with
  | some path => .ok path
  | none => .error (.at (.unresolvable .dataFile text) origin)

/-- The contents of a file, with a warning if there are none. -/
def readContents (ctx : CompileContext) (path : Path) (origin : Origin) : CompileM Bytes := do
  match ctx.files.read path with
  | .error cause => throw (.at (.unreadable path cause) origin)
  | .ok bytes =>
    if bytes.isEmpty then warn (.zeroLength s!"file '{path.text}'") origin
    return bytes

/-- Makes a request to the store, at a line. -/
def request {α : Type} (act : StoreM α) (origin : Origin) : CompileM α := do
  let c ← get
  let (answer, store) := act.run c.store
  set { c with store }
  match answer with
  | .ok a => return a
  | .error cause => throw (.at (.store cause) origin)

/-- The blob of a file, which the store knows by how its path is shown. -/
def fileBlob (ctx : CompileContext) (base : Option Path) (text : String)
    (alignment : Option UInt32) (origin : Origin) : CompileM BlobId := do
  let path ← resolve ctx base origin text
  match ← request (Store.find? path.text alignment) origin with
  | some id => return id
  | none =>
    let bytes ← readContents ctx path origin
    if (← get).overflows ctx (min bytes.length 4294967295).toUInt32 then
      throw (.at (.oversizedItem s!"file '{path.text}'" bytes.length ctx.chunkSize) origin)
    request (Store.intern bytes (some path.text) alignment) origin

/-- The record of a file that is loaded on demand. -/
def fileRecord (ctx : CompileContext) (filename : String) (origin : Origin) :
    CompileM SectionId := do
  let c ← get
  match c.record? filename with
  | some id => return id
  | none =>
    let record := Section.record filename
    if c.overflows ctx record.size then
      throw (.at (.oversizedItem s!"runtime file record '{filename}'" record.size.toNat
        ctx.chunkSize) origin)
    set { c with sections := c.sections.push record }
    return ⟨c.sections.size⟩

/-- A way to have a section compiled for a line. -/
abbrev Visit := String → Option Origin → CompileM SectionId

/-- The alignment that a file line asks for. -/
def fileAlignment (ctx : CompileContext) (line : ScriptLine) :
    Except BuildError (Option UInt32) := do
  if line.arguments.length < 2 then return none
  let value ← line.intAt 1 1 ctx.chunkSize.toNat
  let alignment ← checkAlignment ctx line.keyword (UInt32.ofInt value) line.origin
  return some alignment

/-- Puts the parts of another section at the end of this one. -/
def splice (ctx : CompileContext) (d : Draft) (id : SectionId) (origin : Origin) :
    CompileM Draft := do
  let parts := ((← get).sections[id.index]?.map Section.parts).getD []
  parts.foldlM (fun d p => push ctx d p origin) d

/-- Compiles a keyword line. -/
def compileKeyword (ctx : CompileContext) (visit : Visit) (d : Draft) (line : ScriptLine) :
    Keyword → CompileM Draft
  | .file => do
    line.expectArguments 1 (some 2)
    let path ← line.textAt 0
    let alignment ← fileAlignment ctx line
    let id ← fileBlob ctx d.base path alignment line.origin
    push ctx d (.blob id) line.origin
  | .level => do
    line.expectArguments 1 (some 1)
    let target ← line.textAt 0
    let id ← visit target (some line.origin)
    push ctx d (.level id) line.origin
  | .load => do
    line.expectArguments 1 (some 1)
    let filename ← line.textAt 0
    let record ← fileRecord ctx filename line.origin
    push ctx d (.runtimeFile filename record) line.origin
  | .string => do
    let text ← line.allText
    push ctx d (.literal (Utf8.encode text)) line.origin
  | .binc => do
    line.expectArguments 1 (some 1)
    let path ← resolve ctx d.base line.origin (← line.textAt 0)
    let bytes ← readContents ctx path line.origin
    if ctx.chunkSize.toNat < bytes.length then
      throw (.at (.oversizedItem s!"section '{d.compiled.name}'"
        (d.compiled.size.toNat + bytes.length) ctx.chunkSize) line.origin)
    push ctx d (.literal bytes) line.origin
  | .align => do
    line.expectArguments 1 (some 1)
    let value ← line.intAt 0 1 ctx.chunkSize.toNat
    let boundary ← checkAlignment ctx line.keyword (UInt32.ofInt value) line.origin
    push ctx d (.align boundary 0) line.origin
  | .pad => do
    line.expectArguments 1 (some 1)
    let count ← line.intAt 0 0 ctx.chunkSize.toNat
    push ctx d (.pad (UInt32.ofInt count)) line.origin
  | .path => do
    line.expectArguments 1 (some 1)
    let dir := Path.ofText (← line.textAt 0)
    return { d with base := some (line.origin.directory.join dir).normalize }
  | .insert => do
    line.expectArguments 1 (some 1)
    let target ← line.textAt 0
    if (← get).stack.contains target then
      throw (.at (.cyclicInsert target) line.origin)
    let id ← visit target (some line.origin)
    splice ctx d id line.origin
  | keyword => do
    let bytes ← line.allNumbers keyword ctx.order
    push ctx d (.literal bytes) line.origin

/-- Compiles a line. -/
def compileLine (ctx : CompileContext) (visit : Visit) (d : Draft) (line : ScriptLine) :
    CompileM Draft :=
  match Keyword.ofName? line.keyword with
  | some keyword => compileKeyword ctx visit d line keyword
  | none => throw (.at (.unknownKeyword line.keyword) line.origin)

/-- Compiles a section of the script that has not been compiled.  Its place is
    taken, empty, before its lines are compiled. -/
def compileScript (ctx : CompileContext) (visit : Visit) (script : ScriptSection) :
    CompileM SectionId := do
  match script.alignment with
  | some alignment =>
    let _ ← checkAlignment ctx "align" alignment script.origin
  | none => pure ()
  let empty : Section :=
    { name := script.name, alignment := script.alignment, origin := some script.origin }
  let id : SectionId := ⟨(← get).sections.size⟩
  modify fun c =>
    { c with sections := c.sections.push empty, stack := c.stack ++ [script.name] }
  let d ← script.lines.foldlM (compileLine ctx visit) { compiled := empty }
  modify fun c => { c with stack := c.stack.dropLast }
  if d.compiled.size = 0 then
    warn (.zeroLength s!"section '{script.name}'") script.origin
  modify fun c => { c with sections := c.sections.setIfInBounds id.index d.compiled }
  return id

/-- Compiles the section with a name, or finds it compiled; `referrer` is the
    line that asked for it.  Sections are entered at most `depth` deep; the cycle
    reported at depth zero does not arise when `depth` passes the number of
    sections of the table. -/
def compileWithin (ctx : CompileContext) : Nat → Visit
  | 0, name, referrer => do
    throw { kind := .cyclicSection ((← get).cycle name), origin := referrer }
  | depth + 1, name, referrer => do
    let c ← get
    match c.compiled? name with
    | some id =>
      if c.stack.contains name then
        throw { kind := .cyclicSection (c.cycle name), origin := referrer }
      return id
    | none =>
      match ctx.table.find? name with
      | none => throw { kind := .unresolvable .namedSection name, origin := referrer }
      | some script => compileScript ctx (compileWithin ctx depth) script

/-- Compiles the section with a name, or finds it compiled. -/
def compileSection (ctx : CompileContext) : Visit :=
  compileWithin ctx (ctx.table.size + 1)

/-- The program with the root `root`, for what has been compiled. -/
def program (c : Compiler) (root : SectionId) : Program :=
  { store := c.store, sections := c.sections, root, warnings := c.warnings }

/-- Compiles all that a root leads to. -/
def compile (ctx : CompileContext) (c : Compiler) (root : String) :
    Except BuildError Program :=
  match (compileSection ctx root none).run c with
  | (.ok id, c) => .ok (c.program id)
  | (.error e, _) => .error e

end Compiler

end LevelBundle
