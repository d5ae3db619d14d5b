/-
  LevelBundle — what sharing equal contents changes.

  A script is compiled twice, with and without sharing equal contents.  Where the run that
  shares nothing succeeds, the other one goes through the same steps, with the same sections
  and with the same contents under each number, until a file is asked for at an alignment
  that cannot be merged with one of another file with the same contents.  Files that are
  shown alike count as one here, since the store knows a file by how its path is shown.

  * `Compiler.Twin ctx c d`: the two states, side by side.
  * `Compiler.alike_compileWithin`: so it goes for a section, to any depth.
  * `compile_shared`: the two programs, or the conflict.
-/
import LevelBundle.Proofs.FileLines
import LevelBundle.Proofs.Following
import LevelBundle.Proofs.Sharing

namespace LevelBundle

/-! ## Requests -/

namespace Store

variable {A : String → UInt32 → Prop} {H : String → Bytes → Prop} {s t : Store} {name : String}
  {a : Option UInt32}

theorem Twin.countHit (h : Twin A H s t) : Twin A H s.countHit t.countHit :=
  ⟨h.apart, h.padSize, h.names, h.file, h.asked, h.shared, h.aligned⟩

theorem follows_find? (ha : ∀ x, a = some x → A name x) :
    Follows (Conflict A H) (Twin A H) (find? name a) (find? name a)
      fun r s t => Twin A H s t ∧ (r = none → s.named? name = none) := by
  refine .get fun {s t} h => ?_
  rw [h.named?_eq]
  cases hn : s.named? name with
  | none =>
    refine .pure ?_
    rintro _ _ ⟨rfl, rfl⟩
    exact ⟨h, fun _ => hn⟩
  | some id =>
    constructor
    rintro s₁ t₁ r s' ⟨rfl, rfl⟩ hx
    simp only [runs_bind, runs_lift, runs_set, runs_pure] at hx
    obtain ⟨m, _, ⟨hm, rfl⟩, _, _, rfl, rfl, rfl⟩ := hx
    rcases h.reconcile hn ha hm with ⟨m', hm', htwin⟩ | ⟨e, he, hconf⟩
    · refine Or.inl ⟨m'.countHit, ?_, htwin.countHit, fun hr => absurd hr (Option.some_ne_none id)⟩
      exact runs_bind.2 ⟨m', t₁, runs_lift.2 ⟨hm', rfl⟩,
        runs_bind.2 ⟨⟨⟩, m'.countHit, runs_set.2 rfl, runs_pure.2 ⟨rfl, rfl⟩⟩⟩
    · exact Or.inr ⟨e, t₁, fails_bind.2 (Or.inl (fails_lift.2 ⟨he, rfl⟩)), hconf⟩

theorem follows_intern {bytes : Bytes} (ha : ∀ x, a = some x → A name x)
    (hbytes : H name bytes) :
    Follows (Conflict A H) (Twin A H) (intern bytes (some name) a)
      (intern bytes (some name) a) fun _ => Twin A H := by
  rw [intern_eq]
  split_ifs
  · refine (follows_find? ha).bind fun known => ?_
    cases known with
    | some id => exact .pure fun h => h.1
    | none =>
      refine .look fun {s t} h => ?_
      rw [h.1.size_eq]
      exact .bind (.set fun _ => h.1.add (h.2 rfl) ha hbytes) fun _ => .pure fun h => h
  · exact .throw

end Store

namespace Compiler

/-- A line of the script asks for a file that is shown under a name, at an alignment. -/
def Wants (ctx : CompileContext) (name : String) (x : UInt32) : Prop :=
  ∃ path, path.text = name ∧ ctx.Asks path x.toNat

/-- Two states of compiling, of which the first shares nothing. -/
structure Twin (ctx : CompileContext) (c d : Compiler) : Prop where
  store : Store.Twin (Wants ctx) ctx.Holds c.store d.store
  sections : d.sections = c.sections
  stack : d.stack = c.stack
  warnings : d.warnings = c.warnings

/-- A line asks for a file at an alignment that cannot be granted because of another file. -/
def Conflict (ctx : CompileContext) (e : BuildError) : Prop :=
  ∃ cause origin, e = .at (.store cause) origin ∧
    Store.Conflict (Wants ctx) ctx.Holds cause

variable {ctx : CompileContext} {c d : Compiler} {origin : Origin}

theorem Twin.overflows (h : Twin ctx c d) (size : UInt32) :
    d.overflows ctx size = c.overflows ctx size := by
  rw [Compiler.overflows, Compiler.overflows, h.store.padSize]

/-- A step that goes the same way in both runs. -/
abbrev Alike (ctx : CompileContext) {α : Type} (x : CompileM α) : Prop :=
  Follows (Conflict ctx) (Twin ctx) x x fun _ => Twin ctx

theorem alike_request {α : Type} {act : StoreM α}
    (h : Follows (Store.Conflict (Wants ctx) ctx.Holds) (Store.Twin (Wants ctx) ctx.Holds) act act
      fun _ => Store.Twin (Wants ctx) ctx.Holds) : Alike ctx (request act origin) := by
  constructor
  intro c d a c' hcd hx
  obtain ⟨s', hs', rfl⟩ := runs_request hx
  rcases h.run hcd.store hs' with ⟨t', ht', htwin⟩ | ⟨e, t', ht', he⟩
  · exact Or.inl ⟨{ d with store := t' }, runs_request_of ht', htwin, hcd.sections, hcd.stack,
      hcd.warnings⟩
  · exact Or.inr ⟨_, { d with store := t' }, fails_request_of ht', e, origin, rfl, he⟩

theorem alike_warn (kind : Warning.Kind) : Alike ctx (warn kind origin) := by
  refine .modify fun {c d} h => ⟨h.store, h.sections, h.stack, ?_⟩
  rw [h.warnings]

theorem alike_overflows {α : Type} {size : UInt32} {x y : CompileM α}
    (hx : Alike ctx x) (hy : Alike ctx y) :
    Alike ctx (do if (← get).overflows ctx size then x else y) := by
  refine .look fun {c d} h => ?_
  rw [h.overflows]
  split_ifs
  · exact hx
  · exact hy

theorem follows_readContents (path : Path) :
    Follows (Conflict ctx) (Twin ctx) (readContents ctx path origin) (readContents ctx path origin)
      fun bytes c d => ctx.files.read path = .ok bytes ∧ Twin ctx c d := by
  unfold readContents
  split
  · exact .throw
  · rename_i bytes hread
    split_ifs
    · exact (alike_warn _).bind fun _ => .pure fun h => ⟨hread, h⟩
    · exact .pure fun h => ⟨hread, h⟩

/-- **The contents of a file**, which a line asks for. -/
theorem alike_fileBlob {base : Option Path} {text : String} {a : Option UInt32}
    (hr : ∀ path, resolve ctx base origin text = .ok path → ctx.Refers path)
    (ha : ∀ path, resolve ctx base origin text = .ok path → ∀ x, a = some x →
      ctx.Asks path x.toNat) : Alike ctx (fileBlob ctx base text a origin) := by
  refine .bind_lift fun path hpath => ?_
  have hask (x : UInt32) (hx : a = some x) : Wants ctx path.text x := ⟨path, rfl, ha path hpath x hx⟩
  refine .bind (alike_request ((Store.follows_find? hask).mono id And.left)) fun known => ?_
  cases known with
  | some id => exact .pure fun h => h
  | none =>
    refine (follows_readContents path).bind fun bytes => .of fun {c d} hread => ?_
    refine Follows.mono ?_ (fun h => h.2) id
    refine alike_overflows .throw_bind ?_
    have hholds : ctx.Holds path.text bytes := ⟨path, rfl, hr path hpath, hread.1⟩
    exact alike_request (Store.follows_intern hask hholds)

theorem alike_fileRecord (filename : String) : Alike ctx (fileRecord ctx filename origin) := by
  refine .look fun {c d} h => ?_
  have hrec : d.record? filename = c.record? filename := by rw [record?, h.sections, record?]
  rw [hrec, h.sections]
  cases c.record? filename with
  | some id => exact .pure fun h => h
  | none =>
    simp only [h.overflows]
    split_ifs
    · exact .throw_bind
    · exact .bind (.set fun _ => ⟨h.store, rfl, h.stack, h.warnings⟩) fun _ => .pure fun h => h

variable {draft : Draft}

theorem alike_push (p : Part) : Alike ctx (push ctx draft p origin) := by
  unfold push
  split
  · exact .throw
  · exact alike_overflows .throw_bind (.pure fun h => h)

theorem alike_splice (id : SectionId) : Alike ctx (splice ctx draft id origin) := by
  refine .look fun {c d} h => ?_
  rw [h.sections]
  exact .foldlM (fun p _ d => alike_push p) draft

/-! ## Lines -/

/-- **A keyword line**, of which those that ask for files ask for what the script does. -/
theorem alike_compileKeyword {visit : Visit} (hv : ∀ name referrer, Alike ctx (visit name referrer))
    {line : ScriptLine} {keyword : Keyword} (hk : Keyword.ofName? line.keyword = some keyword)
    {before : List ScriptLine} (hbase : draft.base = baseOf before)
    (hrefers : ∀ {path}, line.Refers ctx before path → ctx.Refers path)
    (hask : ∀ {path a}, line.Asks ctx before path a → ctx.Asks path a) :
    Alike ctx (compileKeyword ctx visit draft line keyword) := by
  cases keyword with
  | file =>
    refine .bind_lift fun _ hn => .bind_lift fun text ht => .bind_lift fun a ha => ?_
    have hr (path : Path) (hpath : resolve ctx draft.base line.origin text = .ok path) :
        ctx.Refers path := hrefers ⟨hk, text, ht, hbase ▸ hpath⟩
    refine .bind (alike_fileBlob hr fun path hpath x hx => hask ⟨hk, ?_⟩) fun id => alike_push _
    obtain ⟨target, number, harg, hint⟩ :=
      (fileAlignment_eq_ok (expectArguments_eq_ok hn).2 ha).2 ⟨x, hx, rfl⟩
    obtain ⟨target', hget, htext⟩ := ScriptLine.textAt_eq_ok ht
    obtain rfl : target = target' := by simpa [harg] using hget
    exact ⟨target, number, text, harg, htext, hint, hbase ▸ hpath⟩
  | level =>
    refine .bind_lift fun _ _ => .bind_lift fun text _ => ?_
    exact (hv text _).bind fun id => alike_push _
  | load =>
    refine .bind_lift fun _ _ => .bind_lift fun text _ => ?_
    exact (alike_fileRecord text).bind fun id => alike_push _
  | string => exact .bind_lift fun text _ => alike_push _
  | binc =>
    refine .bind_lift fun _ _ => .bind_lift fun text _ => .bind_lift fun path _ => ?_
    refine (follows_readContents path).bind fun bytes => Follows.mono ?_ (fun h => h.2) fun h => h
    split_ifs
    · exact .throw_bind
    · exact alike_push _
  | align =>
    refine .bind_lift fun _ _ => .bind_lift fun value _ => .bind_lift fun boundary _ => ?_
    exact alike_push _
  | pad => exact .bind_lift fun _ _ => .bind_lift fun count _ => alike_push _
  | path => exact .bind_lift fun _ _ => .bind_lift fun text _ => .pure fun h => h
  | insert =>
    refine .bind_lift fun _ _ => .bind_lift fun text _ => .look fun {c d} h => ?_
    rw [h.stack]
    split_ifs
    · exact .throw_bind
    · exact (hv text _).bind fun id => alike_splice id
  | long | word | byte | float => exact .bind_lift fun bytes _ => alike_push _

/-- **The lines of a section**, of which some have been compiled. -/
theorem alike_lines {visit : Visit} (hv : ∀ name referrer, Alike ctx (visit name referrer))
    {script : ScriptSection} (hs : script ∈ ctx.table.sections) {lines before : List ScriptLine}
    (hlines : script.lines = before ++ lines) (hbase : draft.base = baseOf before) :
    Alike ctx (lines.foldlM (compileLine ctx visit) draft) := by
  induction lines generalizing draft before with
  | nil => exact .pure fun h => h
  | cons line lines ih =>
    rw [List.foldlM_cons]
    have hline : Alike ctx (compileLine ctx visit draft line) := by
      unfold compileLine
      split
      · rename_i keyword hk
        exact alike_compileKeyword hv hk hbase
          (fun h => ⟨script, hs, before, line, lines, hlines, h⟩)
          fun h => ⟨script, hs, before, line, lines, hlines, h⟩
      · exact .throw
    refine hline.answered.bind fun draft' => .of ?_
    rintro _ _ ⟨-, c, hrun⟩
    have hlines' : script.lines = (before ++ [line]) ++ lines := by
      rw [hlines, List.append_assoc, List.singleton_append]
    have hbase' : draft'.base = baseOf (before ++ [line]) := by
      rw [base_compileLine hrun, baseOf_append, hbase]
    exact (ih hlines' hbase').mono (fun h => h.1) fun h => h

/-! ## Sections -/

theorem alike_enter (name : String) (empty : Section) : Alike ctx (modify fun c =>
    { c with sections := c.sections.push empty, stack := c.stack ++ [name] }) := by
  refine .modify fun {c d} h => ⟨h.store, ?_, ?_, h.warnings⟩
  · rw [h.sections]
  · rw [h.stack]

theorem alike_leave : Alike ctx (modify fun c => { c with stack := c.stack.dropLast }) := by
  refine .modify fun {c d} h => ⟨h.store, h.sections, ?_, h.warnings⟩
  rw [h.stack]

theorem alike_settle (i : ℕ) (compiled : Section) : Alike ctx (modify fun c =>
    { c with sections := c.sections.setIfInBounds i compiled }) := by
  refine .modify fun {c d} h => ⟨h.store, ?_, h.stack, h.warnings⟩
  rw [h.sections]

theorem alike_compileBody {visit : Visit} (hv : ∀ name referrer, Alike ctx (visit name referrer))
    {script : ScriptSection} (hs : script ∈ ctx.table.sections) :
    Alike ctx (compileBody ctx visit script) := by
  have hlines : script.lines = [] ++ script.lines := rfl
  refine .look fun {c d} h => ?_
  rw [h.sections]
  refine (alike_enter _ _).bind fun _ => (alike_lines hv hs hlines rfl).bind fun draft => ?_
  refine alike_leave.bind fun _ => ?_
  have hsettle : Alike ctx (do
      modify fun c' => { c' with sections := c'.sections.setIfInBounds c.sections.size draft.compiled }
      return (⟨c.sections.size⟩ : SectionId)) :=
    (alike_settle _ _).bind fun _ => .pure fun h => h
  split_ifs
  · exact (alike_warn _).bind fun _ => hsettle
  · exact hsettle

theorem alike_compileScript {visit : Visit} (hv : ∀ name referrer, Alike ctx (visit name referrer))
    {script : ScriptSection} (hs : script ∈ ctx.table.sections) :
    Alike ctx (compileScript ctx visit script) := by
  rw [compileScript_eq]
  split
  · exact .bind_lift fun _ _ => alike_compileBody hv hs
  · exact alike_compileBody hv hs

/-- **A section**, to any depth. -/
theorem alike_compileWithin (depth : ℕ) (name : String) (referrer : Option Origin) :
    Alike ctx (compileWithin ctx depth name referrer) := by
  induction depth generalizing name referrer with
  | zero => exact .look fun _ => .throw
  | succ depth ih =>
    refine .look fun {c d} h => ?_
    have hcomp : d.compiled? name = c.compiled? name := by rw [compiled?, h.sections, compiled?]
    rw [hcomp, h.stack, cycle, cycle, h.stack]
    split
    · split_ifs
      · exact .throw_bind
      · exact .pure fun h => h
    · split
      · exact .throw
      · rename_i script hscript
        exact alike_compileScript ih (List.mem_of_find?_eq_some hscript)

end Compiler

/-! ## Programs -/

/-- Two programs with the same sections, of which those that refer to a blob refer to the
    same contents. -/
structure Program.Agrees (p q : Program) : Prop where
  root : q.root = p.root
  sections : q.sections = p.sections
  warnings : q.warnings = p.warnings
  bytes : ∀ id, q.store.bytes id = p.store.bytes id

variable {s : Settings} {table : SectionTable} {files : Files} {root : String} {p : Program}

/-- **Sharing equal contents** does not change a program that compiles without it, unless two
    files with the same contents are asked for at alignments of which neither divides the
    other: then compiling may fail, and blames one of the two files for what is asked of the
    other. -/
theorem compile_shared (h : Compiler.compile (Compiler.context s table files)
      (Compiler.start { s with dedup := false }) root = .ok p) :
    (∃ q, Compiler.compile (Compiler.context s table files)
        (Compiler.start { s with dedup := true }) root = .ok q ∧ p.Agrees q) ∨
      ∃ name other bytes x y origin, Compiler.compile (Compiler.context s table files)
          (Compiler.start { s with dedup := true }) root =
            .error (.at (.store (.alignmentConflict name x y)) origin) ∧
        other ≠ name ∧ (Compiler.context s table files).Holds name bytes ∧
        (Compiler.context s table files).Holds other bytes ∧
        Compiler.Wants (Compiler.context s table files) other x ∧
        Compiler.Wants (Compiler.context s table files) name y ∧
        ¬ x.toNat ∣ y.toNat ∧ ¬ y.toNat ∣ x.toNat := by
  obtain ⟨id, c, hrun, rfl⟩ := Compiler.compile_eq_ok.1 h
  have hstart : Compiler.Twin (Compiler.context s table files)
      (Compiler.start { s with dedup := false }) (Compiler.start { s with dedup := true }) :=
    ⟨Store.twin_empty s.padSize, rfl, rfl, rfl⟩
  rcases (Compiler.alike_compileWithin _ root none).run hstart hrun with
    ⟨d, hd, htwin⟩ | ⟨e, d, hd, cause, origin, rfl, name, other, bytes, x, y, rfl, hconf⟩
  · exact Or.inl ⟨d.program id, Compiler.compile_eq_ok.2 ⟨id, d, hd, rfl⟩, rfl, htwin.sections,
      htwin.warnings, htwin.store.bytes_eq⟩
  · exact Or.inr ⟨name, other, bytes, x, y, origin, Compiler.compile_eq_error.2 ⟨d, hd⟩, hconf⟩

/-! ## Two files with equal contents -/

namespace Demo

/-- A line that asks for a file at an alignment. -/
def asking (name : String) (a : Int) : ScriptLine :=
  ⟨"file", [.str name, .int a], ⟨0, .ofText "main", 1, 0, 0⟩⟩

/-- The first file is asked for again, after the second. -/
def requests : SectionTable :=
  ⟨[{ name := "root", alignment := none, origin := ⟨0, .ofText "main", 1, 0, 0⟩,
      lines := [asking "a" 4, asking "b" 8, asking "a" 12] }]⟩

/-- Two files with equal contents. -/
def pair : Files where
  isFile p := p == .ofText "a" || p == .ofText "b"
  read p := if p = .ofText "a" ∨ p = .ofText "b" then .ok [1, 2, 3, 4] else .error (.absent p)

end Demo

/-- A program that compiles as long as its two files are kept apart. -/
theorem compile_shared_demo : ∃ p name other bytes x y origin,
    Compiler.compile (Compiler.context {} Demo.requests Demo.pair)
        (Compiler.start { dedup := false }) "root" = .ok p ∧
      Compiler.compile (Compiler.context {} Demo.requests Demo.pair)
          (Compiler.start { dedup := true }) "root" =
        .error (.at (.store (.alignmentConflict name x y)) origin) ∧
      other ≠ name ∧ (Compiler.context {} Demo.requests Demo.pair).Holds name bytes ∧
      (Compiler.context {} Demo.requests Demo.pair).Holds other bytes := by
  have hok : (Compiler.compile (Compiler.context {} Demo.requests Demo.pair)
      (Compiler.start { dedup := false }) "root").toOption.isSome = true := by decide +kernel
  have hfail : (Compiler.compile (Compiler.context {} Demo.requests Demo.pair)
      (Compiler.start { dedup := true }) "root").toOption.isSome = false := by decide +kernel
  obtain ⟨p, hp⟩ := Option.isSome_iff_exists.1 hok
  have hp := ok_of_toOption hp
  rcases compile_shared hp with ⟨q, hq, -⟩ | ⟨name, other, bytes, x, y, origin, he, hne, h1, h2, -⟩
  · rw [hq] at hfail
    cases hfail
  · exact ⟨p, name, other, bytes, x, y, origin, hp, he, hne, h1, h2⟩

end LevelBundle
