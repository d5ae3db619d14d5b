/-
  LevelBundle — what a run of the compiler does.

  A run that succeeds is taken apart here, function by function.  The modules behind derive
  from these cases what compiling keeps, and need not open the functions again.

  * `BlobRuns`, `RecordRuns`: the blob of a file and the record of one are found or added.
  * `KeywordRuns`: what a keyword line reads, asks for and adds, with one case for each
    keyword.  `runs_compileLine_cases`: every line does one of these.
  * `runs_compileScript_iff`, `runs_compileWithin`, `fails_compileWithin`: a section, around
    its lines.
-/
import LevelBundle.Program.Compiler
import LevelBundle.Proofs.StoreSound
import LevelBundle.Proofs.Written

namespace LevelBundle

/-- A section being compiled, with one more part. -/
def Draft.add (d : Draft) (p : Part) : Draft :=
  { d with compiled := { d.compiled with
      parts := d.compiled.parts ++ [d.compiled.fit p]
      size := addSizes d.compiled.size (d.compiled.fit p).size } }

namespace Compiler

variable {ctx : CompileContext} {c c' : Compiler} {d d' : Draft} {origin : Origin}

/-! ## Arguments -/

theorem checkAlignment_eq_ok {keyword : String} {a b : UInt32}
    (h : checkAlignment ctx keyword a origin = .ok b) :
    b = a ∧ Alignment.valid b = true ∧ b ≤ ctx.chunkSize := by
  unfold checkAlignment at h
  split_ifs at h with h1 h2
  cases h
  exact ⟨rfl, h2, UInt32.not_lt.1 h1⟩

theorem fits_of_fileAlignment {line : ScriptLine} {alignment : Option UInt32}
    (h : fileAlignment ctx line = .ok alignment) : Alignment.Fits ctx.chunkSize alignment := by
  unfold fileAlignment at h
  split_ifs at h
  · obtain rfl := pure_eq_ok.1 h
    exact nofun
  · simp only [bind_eq_ok, pure_eq_ok] at h
    obtain ⟨value, -, a, ha, rfl⟩ := h
    rintro _ ⟨⟩
    exact (checkAlignment_eq_ok ha).2

theorem intAt_eq_ok {line : ScriptLine} {i : ℕ} {low high value : ℤ}
    (h : line.intAt i low high = .ok value) :
    line.arguments[i]?.bind Argument.int? = some value ∧ low ≤ value ∧ value ≤ high := by
  unfold ScriptLine.intAt at h
  split at h
  · cases h
  · rename_i value' hv
    split_ifs at h with hr
    cases h
    exact ⟨hv, by omega⟩

theorem expectArguments_eq_ok {line : ScriptLine} {least most : ℕ} {u : Unit}
    (h : line.expectArguments least (some most) = .ok u) :
    least ≤ line.arguments.length ∧ line.arguments.length ≤ most := by
  simp only [ScriptLine.expectArguments] at h
  split_ifs at h
  omega

theorem exists_argument {line : ScriptLine} {text : String} {u : Unit}
    (hn : line.expectArguments 1 (some 1) = .ok u) (ht : line.textAt 0 = .ok text) :
    ∃ a, line.arguments = [a] ∧ a.text? = some text := by
  obtain ⟨hle, hge⟩ := expectArguments_eq_ok hn
  obtain ⟨a, harguments⟩ := List.length_eq_one_iff.1 (le_antisymm hge hle)
  obtain ⟨b, hb, htext⟩ := ScriptLine.textAt_eq_ok ht
  rw [harguments] at hb
  cases hb
  exact ⟨a, harguments, htext⟩

/-! ## Parts -/

theorem runs_push_eq {p : Part} (h : Runs (push ctx d p origin) c d' c') : c' = c ∧ d' = d.add p := by
  unfold push at h
  split at h
  · simp only [runs_throw] at h
  rename_i s hs
  unfold Section.push at hs
  simp only at hs
  split_ifs at hs
  cases hs
  simp only [runs_bind, runs_get] at h
  obtain ⟨_, _, ⟨rfl, rfl⟩, h⟩ := h
  split_ifs at h
  · simp only [runs_bind, runs_throw, false_and, exists_false] at h
  obtain ⟨rfl, rfl⟩ := runs_pure.1 h
  exact ⟨rfl, rfl⟩

theorem runs_splice_eq {id : SectionId} (h : Runs (splice ctx d id origin) c d' c') :
    c' = c ∧ d' = ((c.sections[id.index]?.map Section.parts).getD []).foldl Draft.add d := by
  simp only [splice, runs_bind, runs_get] at h
  obtain ⟨_, _, ⟨rfl, rfl⟩, h⟩ := h
  generalize (c.sections[id.index]?.map Section.parts).getD [] = parts at h ⊢
  induction parts generalizing d with
  | nil =>
    obtain ⟨rfl, rfl⟩ := runs_pure.1 h
    exact ⟨rfl, rfl⟩
  | cons p parts ih =>
    rw [List.foldlM_cons, runs_bind] at h
    obtain ⟨d₁, c₁, h1, h2⟩ := h
    obtain ⟨rfl, rfl⟩ := runs_push_eq h1
    exact ih h2

/-! ## Files -/

theorem runs_readContents {path : Path} {bytes : Bytes}
    (h : Runs (readContents ctx path origin) c bytes c') :
    ctx.files.read path = .ok bytes ∧ ∃ warnings, c' = { c with warnings } := by
  unfold readContents at h
  split at h
  · simp only [runs_throw] at h
  rename_i bytes' hbytes
  split_ifs at h
  · simp only [warn, runs_bind, runs_modify, runs_pure] at h
    obtain ⟨_, _, rfl, rfl, rfl⟩ := h
    exact ⟨hbytes, _, rfl⟩
  · obtain ⟨rfl, rfl⟩ := runs_pure.1 h
    exact ⟨hbytes, c.warnings, rfl⟩

theorem runs_request {α : Type} {act : StoreM α} {a : α} (h : Runs (request act origin) c a c') :
    ∃ store, Runs act c.store a store ∧ c' = { c with store } := by
  simp only [request, runs_bind, runs_get] at h
  obtain ⟨_, _, ⟨rfl, rfl⟩, h⟩ := h
  rcases hr : (act.run c.store : Except StoreError α × Store) with ⟨answer, store⟩
  rw [hr] at h
  simp only [runs_bind, runs_set] at h
  obtain ⟨_, _, rfl, h⟩ := h
  cases answer with
  | error e => simp only [runs_throw] at h
  | ok a' =>
    obtain ⟨rfl, rfl⟩ := runs_pure.1 h
    exact ⟨store, hr, rfl⟩

/-- The blob of the file at a path is known to the store, or the contents are taken in. -/
inductive BlobRuns (ctx : CompileContext) (path : Path) (a : Option UInt32) (c : Compiler)
    (id : BlobId) : Compiler → Prop
  | known {store : Store} (find : Runs (Store.find? path.text a) c.store (some id) store) :
    BlobRuns ctx path a c id { c with store }
  | taken {bytes : Bytes} {store : Store} {warnings : List Warning}
    (new : c.store.named? path.text = none) (read : ctx.files.read path = .ok bytes)
    (room : ¬ c.overflows ctx (min bytes.length 4294967295).toUInt32 = true)
    (intern : Runs (Store.intern bytes (some path.text) a) c.store id store) :
    BlobRuns ctx path a c id { c with store, warnings }

theorem runs_fileBlob_cases {base : Option Path} {text : String} {a : Option UInt32} {id : BlobId}
    (h : Runs (fileBlob ctx base text a origin) c id c') :
    ∃ path, resolve ctx base origin text = .ok path ∧ BlobRuns ctx path a c id c' := by
  simp only [fileBlob, runs_bind, runs_lift] at h
  obtain ⟨path, _, ⟨hpath, rfl⟩, known, c₁, h1, h⟩ := h
  obtain ⟨store, hfind, rfl⟩ := runs_request h1
  refine ⟨path, hpath, ?_⟩
  cases known with
  | some id' =>
    obtain ⟨rfl, rfl⟩ := runs_pure.1 h
    exact .known hfind
  | none =>
    obtain ⟨-, hnew, rfl⟩ | ⟨_, _, _, hnone, -⟩ := Store.runs_find?_cases hfind
    swap
    · cases hnone
    simp only [runs_bind] at h
    obtain ⟨bytes, c₂, h2, h⟩ := h
    obtain ⟨hread, warnings, rfl⟩ := runs_readContents h2
    simp only [runs_get] at h
    obtain ⟨_, _, ⟨rfl, rfl⟩, h⟩ := h
    split_ifs at h with hover
    · simp only [runs_bind, runs_throw, false_and, exists_false] at h
    obtain ⟨store, hintern, rfl⟩ := runs_request h
    exact .taken hnew hread hover hintern

/-- The record of a file is there, or is put behind all sections. -/
inductive RecordRuns (ctx : CompileContext) (filename : String) (c : Compiler) :
    SectionId → Compiler → Prop
  | known {id : SectionId} {s : Section} (section_eq : c.sections[id.index]? = some s)
    (runtimeFile : s.runtimeFile = true) (name : s.name = "load:" ++ filename) :
    RecordRuns ctx filename c id c
  | added (new : c.record? filename = none)
    (room : ¬ c.overflows ctx (Section.record filename).size = true) :
    RecordRuns ctx filename c ⟨c.sections.size⟩
      { c with sections := c.sections.push (Section.record filename) }

theorem runs_fileRecord_cases {filename : String} {id : SectionId}
    (h : Runs (fileRecord ctx filename origin) c id c') : RecordRuns ctx filename c id c' := by
  simp only [fileRecord, runs_bind, runs_get] at h
  obtain ⟨_, _, ⟨rfl, rfl⟩, h⟩ := h
  split at h
  · rename_i id' hid
    obtain ⟨rfl, rfl⟩ := runs_pure.1 h
    obtain ⟨i, hi, rfl⟩ := Option.map_eq_some_iff.1 hid
    obtain ⟨hlt, hp, -⟩ := Array.findIdx?_eq_some_iff_getElem.1 hi
    rw [Bool.and_eq_true, beq_iff_eq] at hp
    exact .known (Array.getElem?_eq_getElem hlt) hp.1 hp.2
  · rename_i hnew
    split_ifs at h with hover
    · simp only [runs_bind, runs_throw, false_and, exists_false] at h
    simp only [runs_bind, runs_set, runs_pure] at h
    obtain ⟨_, _, rfl, rfl, rfl⟩ := h
    exact .added hnew hover

/-! ## Lines -/

/-- What a keyword line does: which arguments it reads, what it asks for, and which part it
    adds to its section. -/
inductive KeywordRuns (ctx : CompileContext) (visit : Visit) (line : ScriptLine) (c : Compiler)
    (d : Draft) : Keyword → Compiler → Draft → Prop
  | file {text : String} {a : Option UInt32} {path : Path} {id : BlobId} {c₁ c' : Compiler}
    {d' : Draft} (count : line.expectArguments 1 (some 2) = .ok ⟨⟩)
    (text_eq : line.textAt 0 = .ok text) (alignment : fileAlignment ctx line = .ok a)
    (path_eq : resolve ctx d.base line.origin text = .ok path) (blob : BlobRuns ctx path a c id c₁)
    (add : Runs (push ctx d (.blob id) line.origin) c₁ d' c') :
    KeywordRuns ctx visit line c d .file c' d'
  | level {target : String} {id : SectionId} {c₁ c' : Compiler} {d' : Draft}
    (count : line.expectArguments 1 (some 1) = .ok ⟨⟩) (target_eq : line.textAt 0 = .ok target)
    (visited : Runs (visit target (some line.origin)) c id c₁)
    (add : Runs (push ctx d (.level id) line.origin) c₁ d' c') :
    KeywordRuns ctx visit line c d .level c' d'
  | load {filename : String} {id : SectionId} {c₁ c' : Compiler} {d' : Draft}
    (count : line.expectArguments 1 (some 1) = .ok ⟨⟩) (name : line.textAt 0 = .ok filename)
    (record : RecordRuns ctx filename c id c₁)
    (add : Runs (push ctx d (.runtimeFile filename id) line.origin) c₁ d' c') :
    KeywordRuns ctx visit line c d .load c' d'
  | string {text : String} {c' : Compiler} {d' : Draft} (text_eq : line.allText = .ok text)
    (add : Runs (push ctx d (.literal (Utf8.encode text)) line.origin) c d' c') :
    KeywordRuns ctx visit line c d .string c' d'
  | binc {text : String} {path : Path} {bytes : Bytes} {warnings : List Warning} {c' : Compiler}
    {d' : Draft} (count : line.expectArguments 1 (some 1) = .ok ⟨⟩)
    (text_eq : line.textAt 0 = .ok text) (path_eq : resolve ctx d.base line.origin text = .ok path)
    (read : ctx.files.read path = .ok bytes)
    (add : Runs (push ctx d (.literal bytes) line.origin) { c with warnings } d' c') :
    KeywordRuns ctx visit line c d .binc c' d'
  | align {value : ℤ} {boundary : UInt32} {c' : Compiler} {d' : Draft}
    (number : line.intAt 0 1 ctx.chunkSize.toNat = .ok value)
    (check : checkAlignment ctx line.keyword (UInt32.ofInt value) line.origin = .ok boundary)
    (add : Runs (push ctx d (.align boundary 0) line.origin) c d' c') :
    KeywordRuns ctx visit line c d .align c' d'
  | pad {value : ℤ} {c' : Compiler} {d' : Draft}
    (number : line.intAt 0 0 ctx.chunkSize.toNat = .ok value)
    (add : Runs (push ctx d (.pad (UInt32.ofInt value)) line.origin) c d' c') :
    KeywordRuns ctx visit line c d .pad c' d'
  | path {dir : String} (count : line.expectArguments 1 (some 1) = .ok ⟨⟩)
    (dir_eq : line.textAt 0 = .ok dir) : KeywordRuns ctx visit line c d .path c
      { d with base := some (line.origin.directory.join (.ofText dir)).normalize }
  | insert {target : String} {id : SectionId} {c' : Compiler} {d' : Draft}
    (count : line.expectArguments 1 (some 1) = .ok ⟨⟩) (target_eq : line.textAt 0 = .ok target)
    (visited : Runs (visit target (some line.origin)) c id c')
    (add : Runs (splice ctx d id line.origin) c' d' c') :
    KeywordRuns ctx visit line c d .insert c' d'
  | numbers {keyword : Keyword} {width : UInt32} {bytes : Bytes} {c' : Compiler} {d' : Draft}
    (width_eq : keyword.elementWidth? = some width)
    (bytes_eq : line.allNumbers keyword ctx.order = .ok bytes)
    (add : Runs (push ctx d (.literal bytes) line.origin) c d' c') :
    KeywordRuns ctx visit line c d keyword c' d'

theorem runs_compileKeyword_cases {visit : Visit} {line : ScriptLine} {keyword : Keyword}
    (h : Runs (compileKeyword ctx visit d line keyword) c d' c') :
    KeywordRuns ctx visit line c d keyword c' d' := by
  cases keyword with
  | file =>
    simp only [compileKeyword, runs_bind, runs_lift] at h
    obtain ⟨_, _, ⟨hn, rfl⟩, text, _, ⟨ht, rfl⟩, a, _, ⟨ha, rfl⟩, id, c₁, h1, h2⟩ := h
    obtain ⟨path, hpath, hblob⟩ := runs_fileBlob_cases h1
    exact .file hn ht ha hpath hblob h2
  | level =>
    simp only [compileKeyword, runs_bind, runs_lift] at h
    obtain ⟨_, _, ⟨hn, rfl⟩, target, _, ⟨ht, rfl⟩, id, c₁, h1, h2⟩ := h
    exact .level hn ht h1 h2
  | load =>
    simp only [compileKeyword, runs_bind, runs_lift] at h
    obtain ⟨_, _, ⟨hn, rfl⟩, filename, _, ⟨ht, rfl⟩, id, c₁, h1, h2⟩ := h
    exact .load hn ht (runs_fileRecord_cases h1) h2
  | string =>
    simp only [compileKeyword, runs_bind, runs_lift] at h
    obtain ⟨text, _, ⟨ht, rfl⟩, h2⟩ := h
    exact .string ht h2
  | binc =>
    simp only [compileKeyword, runs_bind, runs_lift] at h
    obtain ⟨_, _, ⟨hn, rfl⟩, text, _, ⟨ht, rfl⟩, path, _, ⟨hpath, rfl⟩, bytes, c₁, h1, h2⟩ := h
    obtain ⟨hread, warnings, rfl⟩ := runs_readContents h1
    split_ifs at h2
    · simp only [runs_bind, runs_throw, false_and, exists_false] at h2
    exact .binc hn ht hpath hread h2
  | align =>
    simp only [compileKeyword, runs_bind, runs_lift] at h
    obtain ⟨_, _, ⟨-, rfl⟩, value, _, ⟨hvalue, rfl⟩, boundary, _, ⟨ha, rfl⟩, h2⟩ := h
    exact .align hvalue ha h2
  | pad =>
    simp only [compileKeyword, runs_bind, runs_lift] at h
    obtain ⟨_, _, ⟨-, rfl⟩, value, _, ⟨hvalue, rfl⟩, h2⟩ := h
    exact .pad hvalue h2
  | path =>
    simp only [compileKeyword, runs_bind, runs_lift, runs_pure] at h
    obtain ⟨_, _, ⟨hn, rfl⟩, dir, _, ⟨ht, rfl⟩, rfl, rfl⟩ := h
    exact .path hn ht
  | insert =>
    simp only [compileKeyword, runs_bind, runs_lift, runs_get] at h
    obtain ⟨_, _, ⟨hn, rfl⟩, target, _, ⟨ht, rfl⟩, _, _, ⟨rfl, rfl⟩, h⟩ := h
    split_ifs at h
    · simp only [runs_bind, runs_throw, false_and, exists_false] at h
    simp only [runs_bind] at h
    obtain ⟨id, c₁, h1, h2⟩ := h
    obtain ⟨rfl, -⟩ := runs_splice_eq h2
    exact .insert hn ht h1 h2
  | long | word | byte | float =>
    simp only [compileKeyword, runs_bind, runs_lift] at h
    obtain ⟨bytes, _, ⟨hn, rfl⟩, h2⟩ := h
    exact .numbers rfl hn h2

theorem runs_compileLine_cases {visit : Visit} {line : ScriptLine}
    (h : Runs (compileLine ctx visit d line) c d' c') :
    ∃ keyword, Keyword.ofName? line.keyword = some keyword ∧
      KeywordRuns ctx visit line c d keyword c' d' := by
  unfold compileLine at h
  split at h
  · rename_i keyword hk
    exact ⟨keyword, hk, runs_compileKeyword_cases h⟩
  · simp only [runs_throw] at h

/-! ## Sections -/

/-- Compiling a section of the script, once the alignment in its header has been checked. -/
def compileBody (ctx : CompileContext) (visit : Visit) (script : ScriptSection) :
    CompileM SectionId := do
  let empty : Section :=
    { name := script.name, alignment := script.alignment, origin := some script.origin }
  let id : SectionId := ⟨(← get).sections.size⟩
  modify fun c =>
    { c with sections := c.sections.push empty, stack := c.stack ++ [script.name] }
  let d ← script.lines.foldlM (compileLine ctx visit) { compiled := empty }
  modify fun c => { c with stack := c.stack.dropLast }
  if d.compiled.size = 0 then
    warn (.zeroLength s!"section '{script.name}'") script.origin
  modify fun c => { c with sections := c.sections.setIfInBounds id.index d.compiled }
  return id

theorem compileScript_eq (ctx : CompileContext) (visit : Visit) (script : ScriptSection) :
    compileScript ctx visit script = match script.alignment with
      | some a => do
        let _ ← checkAlignment ctx "align" a script.origin
        compileBody ctx visit script
      | none => compileBody ctx visit script := rfl

/-- What compiling a section does around its lines. -/
theorem runs_compileScript_iff {visit : Visit} {script : ScriptSection} {id : SectionId}
    (h : Runs (compileScript ctx visit script) c id c') :
    Alignment.Fits ctx.chunkSize script.alignment ∧ id = ⟨c.sections.size⟩ ∧
      ∃ (empty : Section) (d : Draft) (c₁ : Compiler) (warnings : List Warning),
        empty = { name := script.name, alignment := script.alignment, origin := some script.origin } ∧
        Runs (script.lines.foldlM (compileLine ctx visit) { compiled := empty })
          { c with sections := c.sections.push empty, stack := c.stack ++ [script.name] } d c₁ ∧
        c' = { c₁ with
          sections := c₁.sections.setIfInBounds c.sections.size d.compiled
          stack := c₁.stack.dropLast, warnings } := by
  have hbody : Alignment.Fits ctx.chunkSize script.alignment ∧
      Runs (compileBody ctx visit script) c id c' := by
    rw [compileScript_eq] at h
    split at h
    · rename_i a ha
      obtain ⟨_, _, h1, h2⟩ := runs_bind.1 h
      obtain ⟨hcheck, rfl⟩ := runs_lift.1 h1
      obtain ⟨rfl, hfits⟩ := checkAlignment_eq_ok hcheck
      refine ⟨?_, h2⟩
      rw [ha]
      rintro _ ⟨⟩
      exact hfits
    · rename_i ha
      refine ⟨?_, h⟩
      rw [ha]
      intro b hb
      cases hb
  obtain ⟨hfits, h⟩ := hbody
  refine ⟨hfits, ?_⟩
  simp only [compileBody, runs_bind, runs_get, runs_modify] at h
  obtain ⟨_, _, ⟨rfl, rfl⟩, _, _, rfl, d, c₁, hlines, _, _, rfl, h⟩ := h
  split_ifs at h
  · simp only [warn, runs_bind, runs_modify, runs_pure] at h
    obtain ⟨_, _, rfl, _, _, rfl, rfl, rfl⟩ := h
    exact ⟨rfl, _, d, c₁, _, rfl, hlines, rfl⟩
  · simp only [runs_bind, runs_modify, runs_pure] at h
    obtain ⟨_, _, rfl, rfl, rfl⟩ := h
    exact ⟨rfl, _, d, c₁, _, rfl, hlines, rfl⟩

/-- A section is found compiled, or is compiled from the script. -/
theorem runs_compileWithin {depth : ℕ} {name : String} {referrer : Option Origin}
    {id : SectionId} (h : Runs (compileWithin ctx (depth + 1) name referrer) c id c') :
    (c' = c ∧ name ∉ c.stack ∧ ∃ s, c.sections[id.index]? = some s ∧ s.runtimeFile = false ∧
      s.name = name) ∨
      (c.compiled? name = none ∧ ∃ script, ctx.table.find? name = some script ∧
        Runs (compileScript ctx (compileWithin ctx depth) script) c id c') := by
  simp only [compileWithin, runs_bind, runs_get] at h
  obtain ⟨_, _, ⟨rfl, rfl⟩, h⟩ := h
  split at h
  · rename_i id' hid
    split_ifs at h with hopen
    · simp only [runs_bind, runs_throw, false_and, exists_false] at h
    obtain ⟨rfl, rfl⟩ := runs_pure.1 h
    obtain ⟨i, hi, rfl⟩ := Option.map_eq_some_iff.1 hid
    obtain ⟨hlt, hp, -⟩ := Array.findIdx?_eq_some_iff_getElem.1 hi
    rw [Bool.and_eq_true, Bool.not_eq_true', beq_iff_eq] at hp
    rw [List.contains_iff_mem] at hopen
    exact Or.inl ⟨rfl, hopen, _, Array.getElem?_eq_getElem hlt, hp⟩
  · rename_i hnone
    split at h
    · simp only [runs_throw] at h
    · exact Or.inr ⟨hnone, _, ‹_›, h⟩

/-- A section is refused before it is entered, or fails. -/
theorem fails_compileWithin {depth : ℕ} {name : String} {referrer : Option Origin}
    {e : BuildError} (h : Fails (compileWithin ctx (depth + 1) name referrer) c e c') :
    (c' = c ∧ (ctx.table.find? name = none ∧
        e = { kind := .unresolvable .namedSection name, origin := referrer } ∨
      name ∈ c.stack ∧ e = { kind := .cyclicSection (c.cycle name), origin := referrer })) ∨
      (c.compiled? name = none ∧ ∃ script, ctx.table.find? name = some script ∧
        Fails (compileScript ctx (compileWithin ctx depth) script) c e c') := by
  simp only [compileWithin, fails_bind, fails_get, false_or, runs_get] at h
  obtain ⟨_, _, ⟨rfl, rfl⟩, h⟩ := h
  split at h
  · split_ifs at h with hopen
    · simp only [fails_bind, fails_throw, runs_throw, false_and, exists_false, or_false] at h
      obtain ⟨rfl, rfl⟩ := h
      exact Or.inl ⟨rfl, Or.inr ⟨List.contains_iff_mem.1 hopen, rfl⟩⟩
    · exact absurd h fails_pure
  · rename_i hnone
    split at h
    · obtain ⟨rfl, rfl⟩ := fails_throw.1 h
      exact Or.inl ⟨rfl, Or.inl ⟨‹_›, rfl⟩⟩
    · exact Or.inr ⟨hnone, _, ‹_›, h⟩

end Compiler

end LevelBundle
