/-
  LevelBundle — what a section takes from those that refer to it.

  Two roots reach the sections of a script in different orders, so that sections and blobs
  have other numbers, and sections have been entered from other lines, at other offsets and
  with other directories set.  A section that both reach has the same parts.  Only the contents
  of a file may be others: the store knows a file by how its path is shown, and where two files
  are shown alike, it keeps those of the file that a root comes to first.

  * `Section.Alike of? p q a b`: two sections read the same, each in its program.
  * `CompileContext.Collides`: two files with other contents are shown alike.
  * `Section.Compared`: how the sections of one name compare in two programs.
  * `compile_independent`: so they do, and with their contents if all is named by text.
-/
import LevelBundle.Proofs.Expanded
import LevelBundle.Proofs.Spellings

namespace LevelBundle

variable {ctx : CompileContext} {p q : Program} {a b s : Section} {sections : Array Section}
  {store : Store} {name : String}

/-! ## Contents under names -/

/-- The contents that are kept under a name. -/
def Store.kept? (store : Store) (name : String) : Option Bytes :=
  (store.named? name).bind store.contents?

theorem Store.Copies.kept? {H : String → Bytes → Prop} (h : store.Copies H) {id : BlobId}
    (hn : store.name? id = some name) :
    store.contents? id = some (store.bytes id) ∧ store.kept? name = some (store.bytes id) := by
  have hcontents : store.contents? id = some (store.bytes id) := by
    obtain ⟨b, hb⟩ := Store.exists_blob (Store.lt_of_name? hn)
    rw [Store.contents?, hb, Option.map_some]
  exact ⟨hcontents, by rw [Store.kept?, (h.named? hn).1, Option.bind_some, hcontents]⟩

/-- A part reads as contents what it reads as names, where names stand for what is kept. -/
theorem Part.reading?_contents {H : String → Bytes → Prop} (h : store.Copies H) {part : Part}
    {ph : Phrase String} (hp : part.phrase? sections store = some ph) :
    part.reading? sections store.contents? =
      some (ph.map fun name => (store.kept? name).getD []) := by
  cases part with
  | literal | align | pad => cases hp; rfl
  | blob id =>
    obtain ⟨name, hn, rfl⟩ := Part.reading?_blob.1 hp
    obtain ⟨hcontents, hkept⟩ := h.kept? hn
    rw [Part.reading?, hcontents, Phrase.map, hkept]
    rfl
  | level id =>
    obtain ⟨s, hs, hr, rfl⟩ := Part.reading?_level.1 hp
    exact Part.reading?_level.2 ⟨s, hs, hr, rfl⟩
  | runtimeFile filename id =>
    obtain ⟨s, hs, hr, hname, rfl⟩ := Part.reading?_runtimeFile.1 hp
    exact Part.reading?_runtimeFile.2 ⟨s, hs, hr, hname, rfl⟩

/-- So does a section. -/
theorem Section.Reads.contents {H : String → Bytes → Prop} (hc : store.Copies H) {t : Passage}
    (h : s.Reads sections store t) : s.parts.map (Part.reading? sections store.contents?) =
      (t.phrases.map (Phrase.map fun name => (store.kept? name).getD [])).map some := by
  have hparts : s.parts.map (Part.reading? sections store.contents?) =
      (s.parts.map (Part.phrase? sections store)).map
        (Option.map (Phrase.map fun name => (store.kept? name).getD [])) := by
    rw [List.map_map]
    refine List.map_congr_left fun part hpart => ?_
    obtain ⟨ph, -, hph⟩ := h.phrase_of_mem hpart
    rw [Part.reading?_contents hc hph, Function.comp_apply, hph, Option.map_some]
  rw [hparts, h.parts, List.map_map, List.map_map]
  rfl

/-- A section refers to a file of this name. -/
def Section.Mentions (store : Store) (s : Section) (name : String) : Prop :=
  ∃ id, .blob id ∈ s.parts ∧ store.name? id = some name

theorem Section.Reads.mentions_iff {t : Passage} (h : s.Reads sections store t) :
    s.Mentions store name ↔ .file name ∈ t.phrases := by
  constructor
  · rintro ⟨id, hid, hn⟩
    obtain ⟨ph, hph, hread⟩ := h.phrase_of_mem hid
    obtain ⟨other, hother, rfl⟩ := Part.reading?_blob.1 hread
    rw [hn, Option.some.injEq] at hother
    exact hother ▸ hph
  · intro hmem
    have hsome : some (.file name) ∈ s.parts.map (Part.phrase? sections store) :=
      h.parts ▸ List.mem_map_of_mem hmem
    obtain ⟨part, hpart, hread⟩ := List.mem_map.1 hsome
    cases part with
    | literal | align | pad => cases hread
    | blob id =>
      obtain ⟨_, hn, hfile⟩ := Part.reading?_blob.1 hread
      cases hfile
      exact ⟨id, hpart, hn⟩
    | level id =>
      obtain ⟨_, -, -, hfile⟩ := Part.reading?_level.1 hread
      cases hfile
    | runtimeFile filename id =>
      obtain ⟨_, -, -, -, hfile⟩ := Part.reading?_runtimeFile.1 hread
      cases hfile

/-! ## Sections of two programs -/

/-- Two sections read the same, each in its program, where blobs are known by `of?`, and nothing
    in them leads nowhere. -/
structure Section.Alike {F : Type} (of? : Store → BlobId → Option F) (p q : Program)
    (a b : Section) : Prop where
  size : a.size = b.size
  alignment : a.alignment = b.alignment
  parts : ∃ phrases : List (Phrase F),
    a.parts.map (Part.reading? p.sections (of? p.store)) = phrases.map some ∧
      b.parts.map (Part.reading? q.sections (of? q.store)) = phrases.map some

/-- Lines refer to two files that are shown alike and have other contents. -/
def CompileContext.Collides (ctx : CompileContext) : Prop :=
  ∃ path path' bytes bytes', path.text = path'.text ∧ ctx.Refers path ∧ ctx.Refers path' ∧
    ctx.files.read path = .ok bytes ∧ ctx.files.read path' = .ok bytes' ∧ bytes ≠ bytes'

/-- Where all is named by text, no files are shown alike. -/
theorem CompileContext.Textual.not_collides (h : ctx.Textual) : ¬ ctx.Collides := by
  rintro ⟨path, path', bytes, bytes', hshown, href, href', hread, hread', hne⟩
  obtain rfl := (h.refers href).text_inj (h.refers href') hshown
  rw [hread, Except.ok.injEq] at hread'
  exact hne hread'

/-- How the sections of one name compare in two programs. -/
structure Section.Compared (ctx : CompileContext) (p q : Program) (a b : Section) : Prop where
  /-- They read the same where files stand for how they are shown. -/
  names : a.Alike Store.name? p q b
  /-- They read the same where files stand for their contents exactly if both programs keep the
      same contents of the files that they refer to. -/
  contents : a.Alike Store.contents? p q b ↔
    ∀ name, a.Mentions p.store name → p.store.kept? name = q.store.kept? name
  /-- Both programs keep contents of files that lines refer to and that are shown so. -/
  kept : ∀ name, a.Mentions p.store name → ∃ bytes bytes', p.store.kept? name = some bytes ∧
    q.store.kept? name = some bytes' ∧ ctx.Holds name bytes ∧ ctx.Holds name bytes'
  /-- So they read the same unless two files with other contents are shown alike. -/
  collides : ¬ a.Alike Store.contents? p q b → ctx.Collides

/-- Two sections that read as one passage read the same with the contents of files, exactly if
    both programs keep the same contents of the files that they refer to. -/
theorem Section.Reads.alike_iff {H : String → Bytes → Prop} {t : Passage}
    (hp : p.store.Copies H) (hq : q.store.Copies H) (ha : a.Reads p.sections p.store t)
    (hb : b.Reads q.sections q.store t) (halign : a.alignment = b.alignment) :
    a.Alike Store.contents? p q b ↔
      ∀ name, a.Mentions p.store name → p.store.kept? name = q.store.kept? name := by
  have hpa := ha.contents hp
  have hqb := hb.contents hq
  constructor
  · -- both are read off one row of phrases, with what each program keeps
    rintro ⟨-, -, phrases, hpr, hqr⟩ name hmem
    have hfile := ha.mentions_iff.1 hmem
    obtain ⟨i, -, hi⟩ := hmem
    obtain ⟨j, -, hj⟩ := hb.mentions_iff.2 hfile
    rw [hpa, ← hqr, hqb, List.map_inj_right fun _ _ => Option.some.inj] at hpr
    have hsame := List.map_inj_left.1 hpr _ hfile
    rw [Phrase.map, Phrase.map, (hp.kept? hi).2, (hq.kept? hj).2] at hsame
    rw [(hp.kept? hi).2, (hq.kept? hj).2]
    exact congrArg some (Phrase.file.inj hsame)
  · intro hsame
    refine ⟨ha.size.trans hb.size.symm, halign, _, hpa, ?_⟩
    rw [hqb, List.map_inj_right fun _ _ => Option.some.inj]
    refine List.map_congr_left fun ph hph => ?_
    cases ph with
    | file name => rw [Phrase.map, Phrase.map, hsame name (ha.mentions_iff.2 hph)]
    | literal | level | load | align | pad => rfl

/-- Finished sections of the same name. -/
theorem Section.Finished.compared (hp : p.Finished ctx) (hq : q.Finished ctx)
    (ha : a.Finished ctx p.sections p.store) (hb : b.Finished ctx q.sections q.store)
    (hname : a.name = b.name) : a.Compared ctx p q b := by
  obtain ⟨script, t, hs, halign, hexp, hreads⟩ := ha.expands
  obtain ⟨script', t', hs', halign', hexp', hreads'⟩ := hb.expands
  rw [← hname, hs, Option.some.injEq] at hs'
  subst hs'
  obtain rfl := hexp.unique hexp'
  have halignment := halign.trans halign'.symm
  have hcontents := hreads.alike_iff hp.copies hq.copies hreads' halignment
  have hkept (name : String) (hmem : a.Mentions p.store name) : ∃ bytes bytes',
      p.store.kept? name = some bytes ∧ q.store.kept? name = some bytes' ∧
        ctx.Holds name bytes ∧ ctx.Holds name bytes' := by
    obtain ⟨j, -, hj⟩ := hreads'.mentions_iff.2 (hreads.mentions_iff.1 hmem)
    obtain ⟨i, -, hi⟩ := hmem
    exact ⟨_, _, (hp.copies.kept? hi).2, (hq.copies.kept? hj).2, (hp.copies.named? hi).2,
      (hq.copies.named? hj).2⟩
  refine ⟨⟨hreads.size.trans hreads'.size.symm, halignment, t.phrases, hreads.parts,
    hreads'.parts⟩, hcontents, hkept, fun hother => ?_⟩
  rw [hcontents, not_forall] at hother
  obtain ⟨name, hother⟩ := hother
  obtain ⟨hmem, hne⟩ := Classical.not_imp.1 hother
  obtain ⟨bytes, bytes', hbytes, hbytes', ⟨path, rfl, href, hread⟩, path', hshown, href', hread'⟩ :=
    hkept name hmem
  rw [hbytes, hbytes'] at hne
  exact ⟨path, path', bytes, bytes', hshown.symm, href, href', hread, hread',
    fun he => hne (congrArg some he)⟩

/-- **What a section compiles to does not depend on who refers to it**, but for the contents of
    files that are shown alike: two roots that both reach it find it with one size, one alignment,
    and parts that read the same, and with the same contents exactly if both keep the same of the
    files that it refers to.  Where scripts and directories are named by text, they do. -/
theorem compile_independent {s : Settings} {table : SectionTable} {files : Files}
    {root root' : String}
    (hp : Compiler.compile (Compiler.context s table files) (Compiler.start s) root = .ok p)
    (hq : Compiler.compile (Compiler.context s table files) (Compiler.start s) root' = .ok q)
    (ha : a ∈ p.sections) (hb : b ∈ q.sections) (hra : a.runtimeFile = false)
    (hrb : b.runtimeFile = false) (hname : a.name = b.name) :
    a.Compared (Compiler.context s table files) p q b ∧
      ((Compiler.context s table files).Textual → a.Alike Store.contents? p q b) := by
  obtain ⟨i, hi⟩ := Array.getElem?_of_mem ha
  obtain ⟨j, hj⟩ := Array.getElem?_of_mem hb
  obtain ⟨hp', -⟩ := (Compiler.faithful_start s).compile rfl hp
  obtain ⟨hq', -⟩ := (Compiler.faithful_start s).compile rfl hq
  have hcompared := (hp'.finished hi hra).compared hp' hq' (hq'.finished hj hrb) hname
  exact ⟨hcompared, fun htext => not_imp_comm.1 hcompared.collides htext.not_collides⟩

/-! ## A section that two roots reach -/

namespace Demo

/-- Two directories whose names are no text, and are shown alike. -/
def here : Path := ⟨[0xFF]⟩

def there : Path := ⟨[0xFE]⟩

/-- A line of the sections below. -/
def line (keyword : String) (arguments : List Argument) : ScriptLine :=
  ⟨keyword, arguments, ⟨0, here.join (.ofText "main"), 1, 0, 0⟩⟩

/-- A section with these lines. -/
def sectionOf (name : String) (lines : List ScriptLine) : ScriptSection where
  name := name
  alignment := none
  origin := ⟨0, here.join (.ofText "main"), 1, 0, 0⟩
  lines := lines

/-- The root `a` refers to the file beside the script.  The root `b`, to which it refers too, looks
    elsewhere. -/
def twoRoots : SectionTable where
  sections := [
    sectionOf "a" [line "file" [.str "f"], line "level" [.str "b"]],
    sectionOf "b" [line "path" [.str "s"], line "file" [.str "f"]]]

/-- Two files of one name, in different directories. -/
def twoDirectories : Files where
  isFile p := p == here.join (.ofText "f") || p == there.join (.ofText "f")
  read p :=
    if p = here.join (.ofText "f") then .ok [1]
    else if p = there.join (.ofText "f") then .ok [2]
    else .error (.absent p)

/-- Files are searched in the second directory. -/
def searching : Settings := { search := [.ofText "."], baseDirectory := some there }

/-- What the two roots compile to. -/
def program? (root : String) : Option Program :=
  (Compiler.compile (Compiler.context searching twoRoots twoDirectories)
    (Compiler.start searching) root).toOption

/-- How both files are shown. -/
def shown : String := (here.join (.ofText "f")).text

/-- The section `b` of a program in which these contents are kept of the file. -/
def keeping? (bytes : Bytes) (p : Program) : Option Section :=
  if p.store.kept? shown = some bytes then
    p.sections.find? fun s => s.name == "b" && !s.runtimeFile && s.parts == [.blob ⟨0⟩] &&
      p.store.name? ⟨0⟩ == some shown
  else none

theorem keeping?_eq {bytes : Bytes} {p : Program} {s : Section} (h : keeping? bytes p = some s) :
    s ∈ p.sections ∧ s.name = "b" ∧ s.runtimeFile = false ∧ s.Mentions p.store shown ∧
      p.store.kept? shown = some bytes := by
  rw [keeping?] at h
  split_ifs at h with hkept
  have hs := Array.find?_some h
  simp only [Bool.and_eq_true, beq_iff_eq, Bool.not_eq_true'] at hs
  obtain ⟨⟨⟨hname, hrt⟩, hparts⟩, hfile⟩ := hs
  exact ⟨Array.mem_of_find?_eq_some h, hname, hrt, ⟨⟨0⟩, by rw [hparts]; simp, hfile⟩, hkept⟩

end Demo

/-- The section `b` reads the same in both programs, but for the contents of its file. -/
theorem compile_independent_demo : ∃ (p q : Program) (a b : Section),
    Compiler.compile (Compiler.context Demo.searching Demo.twoRoots Demo.twoDirectories)
        (Compiler.start Demo.searching) "a" = .ok p ∧
      Compiler.compile (Compiler.context Demo.searching Demo.twoRoots Demo.twoDirectories)
        (Compiler.start Demo.searching) "b" = .ok q ∧
      a ∈ p.sections ∧ b ∈ q.sections ∧ a.name = b.name ∧
      a.Alike Store.name? p q b ∧ ¬ a.Alike Store.contents? p q b := by
  have hp : ((Demo.program? "a").bind (Demo.keeping? [1])).isSome := by decide +kernel
  have hq : ((Demo.program? "b").bind (Demo.keeping? [2])).isSome := by decide +kernel
  obtain ⟨a, hp⟩ := Option.isSome_iff_exists.1 hp
  obtain ⟨b, hq⟩ := Option.isSome_iff_exists.1 hq
  obtain ⟨p, hp, ha⟩ := Option.bind_eq_some_iff.1 hp
  obtain ⟨q, hq, hb⟩ := Option.bind_eq_some_iff.1 hq
  obtain ⟨hmem, hname, hrt, hmentions, hkept⟩ := Demo.keeping?_eq ha
  obtain ⟨hmem', hname', hrt', -, hkept'⟩ := Demo.keeping?_eq hb
  have hp := ok_of_toOption hp
  have hq := ok_of_toOption hq
  have hsame : a.name = b.name := hname.trans hname'.symm
  obtain ⟨hcompared, -⟩ := compile_independent hp hq hmem hmem' hrt hrt' hsame
  refine ⟨p, q, a, b, hp, hq, hmem, hmem', hsame, hcompared.names, fun halike => ?_⟩
  have h := hcompared.contents.1 halike Demo.shown hmentions
  rw [hkept, hkept'] at h
  cases h

end LevelBundle
