/-
  LevelBundle — compiled sections answer their lines.

  Sections are compiled inside one another, and their parts are put into one another.  Two
  things are kept track of from the first line on: what a section owes to its own lines,
  and which parts of new sections the section in hand leads to.

  * `Section.Answers ctx store script s`: a section has the alignment of its header, and for
    each line that asks for a file a part that refers to its blob.
  * `Compiler.Carries c id p`: a part of a section, or of one that it leads to.
  * `Grows ctx c c' K`: the sections that are new in `c'` answer their lines, their
    references are in `K`, and so are references to all blobs that are new.
  * `visits_compileWithin`: compiling a section answers its lines, and the section carries
    the references of all that are compiled for it.
  * `compile_answers`: so it is in a program, and all is carried by its root.
-/
import LevelBundle.Proofs.Discovery
import LevelBundle.Proofs.FileLines
import LevelBundle.Proofs.StoreCalls

namespace LevelBundle

/-- A section has the alignment of its header and refers to what its lines ask for. -/
structure Section.Answers (ctx : CompileContext) (store : Store) (script : ScriptSection)
    (s : Section) : Prop where
  alignment : s.alignment = script.alignment
  files : ∀ {path a}, script.Asks ctx path a →
    ∃ id x, .blob id ∈ s.parts ∧ x.toNat = a ∧ store.Honours path.text (some x) id

theorem Section.Answers.mono {ctx : CompileContext} {store store' : Store} {script : ScriptSection}
    {s : Section} (h : store.Widens store') (hs : s.Answers ctx store script) :
    s.Answers ctx store' script := by
  refine ⟨hs.alignment, fun hasks => ?_⟩
  obtain ⟨id, x, hid, hx, hon⟩ := hs.files hasks
  exact ⟨id, x, hid, hx, hon.mono h⟩

namespace Compiler

/-- A part of a section, or of one that it leads to. -/
inductive Carries (c : Compiler) : SectionId → Part → Prop
  | here {id : SectionId} {s : Section} {p : Part} :
    c.sections[id.index]? = some s → p ∈ s.parts → Carries c id p
  | level {id target : SectionId} {s : Section} {p : Part} :
    c.sections[id.index]? = some s → .level target ∈ s.parts → Carries c target p → Carries c id p

/-- A part of a section being compiled, or of one that it leads to. -/
def CarriedBy (c : Compiler) (d : Draft) (p : Part) : Prop :=
  p ∈ d.compiled.parts ∨ ∃ id, .level id ∈ d.compiled.parts ∧ c.Carries id p

/-- What is new in a state: sections that answer their lines, with references in `K`, and
    blobs that references in `K` lead to. -/
structure Grows (ctx : CompileContext) (c c' : Compiler) (K : Part → Prop) : Prop where
  store : c.store.Widens c'.store
  size_le : c.sections.size ≤ c'.sections.size
  frame : ∀ {i}, i < c.sections.size → c'.sections[i]? = c.sections[i]?
  answers : ∀ {i s}, c.sections.size ≤ i → c'.sections[i]? = some s → s.runtimeFile = false →
    ∃ script, ctx.table.find? s.name = some script ∧ s.Answers ctx c'.store script
  carries : ∀ {i s p}, c.sections.size ≤ i → c'.sections[i]? = some s → p ∈ s.parts →
    p.isReference = true → K p
  blobs : ∀ {id : BlobId}, c.store.size ≤ id.index → id.index < c'.store.size → K (.blob id)

variable {ctx : CompileContext} {c c' c'' : Compiler} {d d' : Draft} {K K' : Part → Prop}

theorem Carries.mono (h : ∀ {i : ℕ} {s : Section}, c.sections[i]? = some s →
      ∃ s', c'.sections[i]? = some s' ∧ ∀ p ∈ s.parts, p ∈ s'.parts)
    {id : SectionId} {p : Part} (hp : c.Carries id p) : c'.Carries id p := by
  induction hp with
  | here hs hp =>
    obtain ⟨s', hs', hsub⟩ := h hs
    exact .here hs' (hsub _ hp)
  | level hs hl _ ih =>
    obtain ⟨s', hs', hsub⟩ := h hs
    exact .level hs' (hsub _ hl) ih

theorem Grows.keeps (h : Grows ctx c c' K) {i : ℕ} {s : Section} (hs : c.sections[i]? = some s) :
    c'.sections[i]? = some s := by
  rw [h.frame (Array.getElem?_eq_some_iff.1 hs).1, hs]

theorem Grows.carried_mono (h : Grows ctx c c' K) {p : Part}
    (hsub : ∀ q ∈ d.compiled.parts, q.isReference = true → q ∈ d'.compiled.parts)
    (hp : p.isReference = true) (hc : c.CarriedBy d p) : c'.CarriedBy d' p := by
  rcases hc with hc | ⟨id, hid, hc⟩
  · exact Or.inl (hsub p hc hp)
  · exact Or.inr ⟨id, hsub _ hid rfl, hc.mono fun hs => ⟨_, h.keeps hs, fun _ h => h⟩⟩

theorem grows_of_sections (hs : c.store.Widens c'.store) (he : c'.sections = c.sections)
    (hnew : ∀ {id : BlobId}, c.store.size ≤ id.index → id.index < c'.store.size → K (.blob id)) :
    Grows ctx c c' K := by
  refine ⟨hs, by rw [he], fun _ => by rw [he], fun {i s} hi h => ?_, fun {i s p} hi h => ?_, hnew⟩
  all_goals
    rw [he] at h
    exact absurd (Array.getElem?_eq_some_iff.1 h).1 (by omega)

theorem Grows.refl (c : Compiler) : Grows ctx c c K :=
  grows_of_sections (.refl _) rfl fun hge hlt => absurd hlt (Nat.not_lt.2 hge)

theorem Grows.trans (h₁ : Grows ctx c c' K) (h₂ : Grows ctx c' c'' K')
    (hK : ∀ {p}, p.isReference = true → K p → K' p) : Grows ctx c c'' K' := by
  refine ⟨h₁.store.trans h₂.store, h₁.size_le.trans h₂.size_le,
    fun hi => (h₂.frame (hi.trans_le h₁.size_le)).trans (h₁.frame hi),
    fun {i s} hi hs hr => ?_, fun {i s p} hi hs hp href => ?_, fun {id} hid hlt => ?_⟩
  rotate_right
  · rcases Nat.lt_or_ge id.index c'.store.size with hold | hnew
    · exact hK rfl (h₁.blobs hid hold)
    · exact h₂.blobs hnew hlt
  all_goals rcases Nat.lt_or_ge i c'.sections.size with hlt | hge
  · obtain ⟨script, hfind, hans⟩ := h₁.answers hi (h₂.frame hlt ▸ hs) hr
    exact ⟨script, hfind, hans.mono h₂.store⟩
  · exact h₂.answers hge hs hr
  · exact hK href (h₁.carries hi (h₂.frame hlt ▸ hs) hp href)
  · exact h₂.carries hge hs hp href

/-! ## Lines -/

/-- A section being compiled goes on: its parts stay, and so does what its header says. -/
structure Continues (d d' : Draft) : Prop where
  name : d'.compiled.name = d.compiled.name
  alignment : d'.compiled.alignment = d.compiled.alignment
  runtimeFile : d'.compiled.runtimeFile = d.compiled.runtimeFile
  offset : d'.compiled.offset = d.compiled.offset
  parts : d.compiled.parts <+: d'.compiled.parts

theorem Continues.refl (d : Draft) : Continues d d := ⟨rfl, rfl, rfl, rfl, List.prefix_rfl⟩

theorem Continues.trans {d'' : Draft} (h₁ : Continues d d') (h₂ : Continues d' d'') :
    Continues d d'' :=
  ⟨h₂.name.trans h₁.name, h₂.alignment.trans h₁.alignment, h₂.runtimeFile.trans h₁.runtimeFile,
    h₂.offset.trans h₁.offset, h₁.parts.trans h₂.parts⟩

theorem continues_add (d : Draft) (p : Part) : Continues d (d.add p) :=
  ⟨rfl, rfl, rfl, rfl, List.prefix_append _ _⟩

theorem mem_add (d : Draft) {p : Part} (hp : p.isReference = true) :
    p ∈ (d.add p).compiled.parts := by
  have : d.compiled.fit p = p := by cases p <;> first | rfl | cases hp
  simp [Draft.add, this]

theorem continues_foldl_add (parts : List Part) (d : Draft) :
    Continues d (parts.foldl Draft.add d) ∧
      ∀ p ∈ parts, p.isReference = true → p ∈ (parts.foldl Draft.add d).compiled.parts := by
  induction parts generalizing d with
  | nil => exact ⟨.refl d, nofun⟩
  | cons q parts ih =>
    obtain ⟨h1, h2⟩ := ih (d.add q)
    refine ⟨(continues_add d q).trans h1, fun p hp href => ?_⟩
    rcases List.mem_cons.1 hp with rfl | hp
    · exact h1.parts.subset (mem_add d href)
    · exact h2 p hp href

/-- **The blob of a file** honours the request for it. -/
theorem BlobRuns.honours {path : Path} {a : Option UInt32} {id : BlobId} (hc : c.store.Closed)
    (h : BlobRuns ctx path a c id c') : c.store.Widens c'.store ∧
      c'.store.Honours path.text a id ∧ c'.sections = c.sections := by
  cases h with
  | known hfind =>
    obtain ⟨hnone, -⟩ | ⟨id', hid, hw, hh⟩ := Store.runs_find?_honours hc hfind
    · cases hnone
    · cases hid
      exact ⟨hw, hh, rfl⟩
  | taken _ _ _ hintern =>
    obtain ⟨hw, hh⟩ := Store.runs_intern_honours hc hintern
    exact ⟨hw, hh, rfl⟩

theorem BlobRuns.outcome {path : Path} {a : Option UInt32} {id : BlobId}
    (h : BlobRuns ctx path a c id c') :
    ∃ call, c.store.Outcome call (.ok (some id)) c'.store := by
  cases h with
  | known hfind => exact ⟨.find path.text a, Store.outcome_of_runs hfind⟩
  | @taken bytes store _ _ _ _ hintern =>
    refine ⟨.intern bytes (some path.text) a, Store.outcome_of_runs ?_⟩
    exact runs_bind.2 ⟨id, store, hintern, runs_pure.2 ⟨rfl, rfl⟩⟩

theorem not_mem_record {filename : String} {p : Part} (hp : p.isReference = true) :
    p ∉ (Section.record filename).parts := by
  intro hmem
  simp only [Section.record, Section.recordParts, List.mem_cons, List.not_mem_nil, or_false] at hmem
  rcases hmem with rfl | rfl <;> cases hp

theorem RecordRuns.grows {filename : String} {id : SectionId}
    (h : RecordRuns ctx filename c id c') : Grows ctx c c' K := by
  cases h with
  | known => exact .refl c
  | added =>
    have key {i : ℕ} {s : Section} (hi : c.sections.size ≤ i)
        (hs : (c.sections.push (Section.record filename))[i]? = some s) :
        s = Section.record filename := by
      rcases getElem?_push hs with ⟨-, rfl⟩ | hs
      · rfl
      · exact absurd (Array.getElem?_eq_some_iff.1 hs).1 (by omega)
    refine ⟨.refl _, by simp, fun {i} hi => ?_, fun hi hs hr => ?_, fun hi hs hp href => ?_,
      fun hge hlt => absurd hlt (Nat.not_lt.2 hge)⟩
    · exact Array.getElem?_push_lt hi ▸ (Array.getElem?_eq_getElem hi).symm
    · rw [key hi hs] at hr
      cases hr
    · rw [key hi hs] at hp
      exact absurd hp (not_mem_record href)

/-- What is expected of a way to have a section compiled. -/
def Visits (ctx : CompileContext) (visit : Visit) : Prop :=
  ∀ {name referrer c id c'}, Runs (visit name referrer) c id c' → c.store.Closed →
    Grows ctx c c' (c'.Carries id)

/-- **A keyword line** keeps the parts so far, and all that is new is carried by them. -/
theorem KeywordRuns.grows {visit : Visit} (hv : Visits ctx visit) {line : ScriptLine}
    {keyword : Keyword} (hc : c.store.Closed)
    (h : KeywordRuns ctx visit line c d keyword c' d') :
    Grows ctx c c' (c'.CarriedBy d') ∧ Continues d d' := by
  -- a line that adds a part and no section
  have key {p : Part} {c₁ : Compiler} (h : Runs (push ctx d p line.origin) c₁ d' c')
      (hg : Grows ctx c c₁ (c₁.CarriedBy (d.add p))) :
      Grows ctx c c' (c'.CarriedBy d') ∧ Continues d d' := by
    obtain ⟨rfl, rfl⟩ := runs_push_eq h
    exact ⟨hg, continues_add d p⟩
  cases h with
  | file _ _ _ _ hblob hadd =>
    obtain ⟨hw, -, he⟩ := hblob.honours hc
    obtain ⟨call, ho⟩ := hblob.outcome
    refine key hadd (grows_of_sections hw he fun hge hlt => ?_)
    rw [ho.eq_of_new hge hlt]
    exact Or.inl (mem_add d rfl)
  | @level _ id c₁ _ _ _ _ hvisit hadd =>
    refine key hadd ((hv hvisit hc).trans (.refl c₁) fun _ hp => ?_)
    exact Or.inr ⟨id, mem_add d rfl, hp⟩
  | load _ _ hrecord hadd => exact key hadd hrecord.grows
  | binc _ _ _ _ hadd =>
    exact key hadd (grows_of_sections (.refl _) rfl fun hge hlt => absurd hlt (Nat.not_lt.2 hge))
  | path => exact ⟨.refl c, rfl, rfl, rfl, rfl, List.prefix_rfl⟩
  | @insert _ id _ _ _ _ hvisit hadd =>
    obtain ⟨-, rfl⟩ := runs_splice_eq hadd
    obtain ⟨hcont, hmem⟩ :=
      continues_foldl_add ((c'.sections[id.index]?.map Section.parts).getD []) d
    refine ⟨(hv hvisit hc).trans (.refl c') fun href hp => ?_, hcont⟩
    -- what the section carries, it refers to or leads to over a reference
    cases hp with
    | here hs hp =>
      rw [hs] at hmem
      exact Or.inl (by rw [hs]; exact hmem _ hp href)
    | level hs hl hp =>
      rw [hs] at hmem
      exact Or.inr ⟨_, by rw [hs]; exact hmem _ hl rfl, hp⟩
  | string _ hadd | align _ _ hadd | pad _ hadd | numbers _ _ hadd => exact key hadd (.refl c)

/-- **A line that asks for a file** puts a reference to it into its section. -/
theorem runs_compileLine_answers {visit : Visit} {before : List ScriptLine} {line : ScriptLine}
    {path : Path} {a : ℕ} (hline : line.Asks ctx before path a) (hbase : d.base = baseOf before)
    (hc : c.store.Closed) (h : Runs (compileLine ctx visit d line) c d' c') :
    ∃ id x, .blob id ∈ d'.compiled.parts ∧ x.toNat = a ∧
      c'.store.Honours path.text (some x) id := by
  obtain ⟨hk, target, number, text, harg, ht, hn, hpath⟩ := hline
  obtain ⟨keyword, hk', hrun⟩ := runs_compileLine_cases h
  rw [hk, Option.some.injEq] at hk'
  subst hk'
  cases hrun with
  | numbers hwidth => cases hwidth
  | @file _ _ _ id _ _ _ hlen ht' hr hpath' hblob hadd =>
    obtain ⟨x, rfl, hx⟩ :=
      (fileAlignment_eq_ok (expectArguments_eq_ok hlen).2 hr).1 ⟨target, number, harg, hn⟩
    obtain ⟨target', htarget', htext'⟩ := ScriptLine.textAt_eq_ok ht'
    obtain rfl : target = target' := by simpa [harg] using htarget'
    rw [ht, Option.some.injEq] at htext'
    subst htext'
    obtain ⟨-, hh, -⟩ := hblob.honours hc
    rw [hbase, hpath] at hpath'
    cases hpath'
    obtain ⟨rfl, rfl⟩ := runs_push_eq hadd
    exact ⟨id, x, mem_add d rfl, hx, hh⟩

/-- **The lines of a section**, of which some have been compiled. -/
theorem runs_lines_answers {visit : Visit} (hv : Visits ctx visit) {lines : List ScriptLine}
    (h : Runs (lines.foldlM (compileLine ctx visit) d) c d' c') {before : List ScriptLine}
    (hbase : d.base = baseOf before) (hc : c.store.Closed) :
    Grows ctx c c' (c'.CarriedBy d') ∧ Continues d d' ∧
      ∀ {done line rest path a}, lines = done ++ line :: rest →
        line.Asks ctx (before ++ done) path a → ∃ id x, .blob id ∈ d'.compiled.parts ∧
          x.toNat = a ∧ c'.store.Honours path.text (some x) id := by
  induction lines generalizing c d before with
  | nil =>
    obtain ⟨rfl, rfl⟩ := runs_pure.1 h
    refine ⟨.refl _, .refl _, fun he => ?_⟩
    simp at he
  | cons line lines ih =>
    rw [List.foldlM_cons, runs_bind] at h
    obtain ⟨d₁, c₁, h1, h2⟩ := h
    have hbase₁ : d₁.base = baseOf (before ++ [line]) := by
      rw [base_compileLine h1, baseOf_append, hbase]
    obtain ⟨keyword, -, hrun⟩ := runs_compileLine_cases h1
    obtain ⟨hg, hcont⟩ := hrun.grows hv hc
    obtain ⟨hg', hcont', hasks⟩ := ih h2 hbase₁ (hg.store.closed hc)
    refine ⟨hg.trans hg' fun href hp => ?_, hcont.trans hcont', fun {done l rest path a} he hl => ?_⟩
    · exact hg'.carried_mono (fun q hq _ => hcont'.parts.subset hq) href hp
    · cases done with
      | nil =>
        obtain ⟨rfl, rfl⟩ := List.cons.inj he
        rw [List.append_nil] at hl
        obtain ⟨id, x, hid, hx, hh⟩ := runs_compileLine_answers hl hbase hc h1
        exact ⟨id, x, hcont'.parts.subset hid, hx, hh.mono hg'.store⟩
      | cons l' done =>
        obtain ⟨rfl, rfl⟩ := List.cons.inj he
        exact hasks rfl (by rwa [List.append_assoc, List.singleton_append])

/-! ## Sections -/

/-- **A section of the script** answers its lines and carries what is compiled for it. -/
theorem runs_compileScript_grows {visit : Visit} (hv : Visits ctx visit) {script : ScriptSection}
    (hfind : ctx.table.find? script.name = some script) {id : SectionId} (hc : c.store.Closed)
    (h : Runs (compileScript ctx visit script) c id c') : Grows ctx c c' (c'.Carries id) := by
  obtain ⟨-, rfl, empty, d, c₁, warnings, hempty, hlines, hc'⟩ := runs_compileScript_iff h
  have hplace : (c.sections.push empty)[c.sections.size]? = some empty := Array.getElem?_push_size
  obtain ⟨hg, hcont, hasks⟩ := runs_lines_answers hv hlines
    (show ({ compiled := empty } : Draft).base = baseOf [] from rfl) hc
  have hsize : (c.sections.push empty).size = c.sections.size + 1 := Array.size_push _
  have hold : c₁.sections[c.sections.size]? = some empty := hg.keeps hplace
  have hlt : c.sections.size < c₁.sections.size := (Array.getElem?_eq_some_iff.1 hold).1
  have hstore : c'.store = c₁.store := by rw [hc']
  have get (i : ℕ) : c'.sections[i]? =
      if c.sections.size = i then some d.compiled else c₁.sections[i]? := by
    rw [hc', Array.getElem?_setIfInBounds]; split_ifs <;> simp_all
  have hself : c'.sections[c.sections.size]? = some d.compiled := (get _).trans (if_pos rfl)
  -- the place that was kept had no parts, so no section has lost any
  have hmono {k : SectionId} {p : Part} (hp : c₁.Carries k p) : c'.Carries k p := by
    refine hp.mono fun {i s} hs => ?_
    rw [get]
    split_ifs with hi
    · subst hi
      rw [hold, Option.some.injEq] at hs
      refine ⟨d.compiled, rfl, fun p hp => ?_⟩
      rw [← hs, hempty] at hp
      cases hp
    · exact ⟨s, hs, fun _ h => h⟩
  -- what the lines carry, the section carries
  have carry {p : Part} (hp : c₁.CarriedBy d p) : c'.Carries ⟨c.sections.size⟩ p := by
    rcases hp with hp | ⟨k, hk, hp⟩
    · exact .here hself hp
    · exact .level hself hk (hmono hp)
  refine ⟨hstore ▸ hg.store, ?_, fun {i} hi => ?_, fun {i s} hi hs hr => ?_,
    fun {i s p} hi hs hp href => ?_, fun {id} hid hlt => ?_⟩
  · exact (Array.getElem?_eq_some_iff.1 hself).1.le
  · rw [get, if_neg (by omega), hg.frame (show i < (c.sections.push empty).size by omega)]
    exact Array.getElem?_push_lt hi ▸ (Array.getElem?_eq_getElem hi).symm
  · rw [get] at hs
    split_ifs at hs with hi'
    · cases hs
      have hname : d.compiled.name = script.name := hcont.name.trans (by rw [hempty])
      refine ⟨script, hname ▸ hfind, hcont.alignment.trans (by rw [hempty]), fun {path a} hask => ?_⟩
      obtain ⟨done, line, rest, he, hl⟩ := hask
      exact hstore ▸ hasks he hl
    · exact hstore ▸ hg.answers (show (c.sections.push empty).size ≤ i by omega) hs hr
  · rw [get] at hs
    split_ifs at hs with hi'
    · cases hs
      exact .here hself hp
    · exact carry (hg.carries (show (c.sections.push empty).size ≤ i by omega) hs hp href)
  · exact carry (hg.blobs hid (hstore ▸ hlt))

/-- **Compiling a section**, to any depth. -/
theorem visits_compileWithin (depth : ℕ) : Visits ctx (compileWithin ctx depth) := by
  induction depth with
  | zero =>
    intro name referrer c id c' h _
    simp only [compileWithin, runs_bind, runs_throw, and_false, exists_false] at h
  | succ depth ih =>
    intro name referrer c id c' h hc
    rcases runs_compileWithin h with ⟨rfl, -⟩ | ⟨-, script, hs, hrun⟩
    · exact .refl _
    · have hname := SectionTable.find?_name hs
      exact runs_compileScript_grows ih (hname ▸ hs) hc hrun

end Compiler

/-! ## Programs -/

namespace Program

variable {ctx : CompileContext} {s : Settings} {root : String} {p : Program}

/-- The sections of a program answer their lines, and the root carries their references and
    the blobs. -/
structure Answers (ctx : CompileContext) (p : Program) : Prop where
  lines : ∀ {i : ℕ} {s : Section}, p.sections[i]? = some s → s.runtimeFile = false →
    ∃ script, ctx.table.find? s.name = some script ∧ s.Answers ctx p.store script
  leads : ∀ {i : ℕ} {s : Section} {part ref}, p.sections[i]? = some s → part ∈ s.parts →
    p.target? part = some ref → p.Leads ref
  blobs : ∀ {id : BlobId}, id.index < p.store.size → p.Leads (.blob (p.store.canonical id))

theorem leads_of_carries {c : Compiler} (hc : c.sections = p.sections) {id : SectionId}
    {part : Part} (h : c.Carries id part) (hid : p.Leads (.level id)) {ref : ItemRef}
    (ht : p.target? part = some ref) : p.Leads ref := by
  have key {id s q ref} (hs : c.sections[id.index]? = some s) (hq : q ∈ s.parts)
      (hid : p.Leads (.level id)) (ht : p.target? q = some ref) : p.Leads ref := by
    rw [hc] at hs
    exact .step hid (List.mem_filterMap.2 ⟨q, by rwa [sectionAt_eq hs], ht⟩)
  induction h with
  | here hs hp => exact key hs hp hid ht
  | level hs hl _ ih => exact ih (key hs hl hid rfl) ht

/-- **A compiled program answers the lines of its sections.** -/
theorem compile_answers (h : Compiler.compile ctx (Compiler.start s) root = .ok p) :
    p.Answers ctx := by
  obtain ⟨id, c, hr, rfl⟩ := Compiler.compile_eq_ok.1 h
  have hclosed : (Compiler.start s).store.Closed := Store.closed_empty _ _
  have hg : Compiler.Grows ctx _ c _ := Compiler.visits_compileWithin _ hr hclosed
  refine ⟨fun hs => hg.answers (Nat.zero_le _) hs, fun {i s part ref} hs hp ht => ?_,
    fun {id} hid => ?_⟩
  · refine leads_of_carries (c := c) rfl (hg.carries (Nat.zero_le _) hs hp ?_) .root ht
    cases part <;> first | rfl | cases ht
  · exact leads_of_carries (c := c) rfl (hg.blobs (Nat.zero_le _) hid) .root rfl

end Program

end LevelBundle
