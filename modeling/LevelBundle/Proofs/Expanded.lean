/-
  LevelBundle — compiled sections are what their lines expand to.

  Compiling shares a store between all sections, numbers them as they come, and keeps the
  ones that are done.  None of this shows in a section once its references are read as
  what they lead to.

  * `Compiler.Faithful ctx c`: the blobs have contents of files that are shown so, and every
    section but those being compiled is finished.  `expanding_compileWithin`: compiling a section,
    to any depth, keeps this, and finishes the section.
  * `Faithful.compile`: so all sections of a program are finished.
-/
import LevelBundle.Proofs.Readings

namespace LevelBundle

namespace Compiler

variable {ctx : CompileContext} {c c' : Compiler} {d d' : Draft} {s : Section} {t : Passage}
  {origin : Origin}

/-! ## Faithful states -/

/-- Blobs have contents of files that are shown so, and all sections but those being compiled
    are finished. -/
structure Faithful (ctx : CompileContext) (c : Compiler) : Prop where
  copies : c.store.Copies ctx.Holds
  record : ∀ {i : ℕ} {s : Section}, c.sections[i]? = some s → s.runtimeFile = true →
    ∃ filename, s = Section.record filename
  name_inj : ∀ {i j : ℕ} {s t : Section}, c.sections[i]? = some s → c.sections[j]? = some t →
    s.runtimeFile = false → t.runtimeFile = false → s.name = t.name → i = j
  finished : ∀ {i : ℕ} {s : Section}, c.sections[i]? = some s → s.runtimeFile = false →
    s.name ∉ c.stack → s.Finished ctx c.sections c.store

/-- A step that adds no section, but perhaps the record of a file. -/
theorem Faithful.step (hf : Faithful ctx c) (h : Later c c') (hcopies : c'.store.Copies ctx.Holds)
    (hstack : c'.stack = c.stack)
    (hnew : ∀ {i : ℕ} {s : Section}, c'.sections[i]? = some s →
      c.sections[i]? = some s ∨ ∃ filename, s = Section.record filename) : Faithful ctx c' := by
  have old {i : ℕ} {s : Section} (hs : c'.sections[i]? = some s) (hr : s.runtimeFile = false) :
      c.sections[i]? = some s := by
    rcases hnew hs with hs | ⟨filename, rfl⟩
    · exact hs
    · cases hr
  refine ⟨hcopies, fun hs hr => ?_, fun hs ht hr hr' hn => ?_, fun hs hr hn => ?_⟩
  · rcases hnew hs with hs | hrec
    · exact hf.record hs hr
    · exact hrec
  · exact hf.name_inj (old hs hr) (old ht hr') hr hr' hn
  · exact h.finished (hf.finished (old hs hr) hr (hstack ▸ hn))

theorem Faithful.notes (hf : Faithful ctx c) (warnings : List Warning) :
    Faithful ctx { c with warnings } :=
  hf.step ⟨.refl _, fun hs => ⟨_, hs, rfl, rfl⟩⟩ hf.copies rfl Or.inl

/-- **The blob of a file** is found under how its path is shown. -/
theorem BlobRuns.faithful (hf : Faithful ctx c) {path : Path} (hpath : ctx.Refers path)
    {a : Option UInt32} (ha : Alignment.Fits ctx.chunkSize a) {id : BlobId}
    (h : BlobRuns ctx path a c id c') :
    c'.store.name? id = some path.text ∧ Later c c' ∧ Faithful ctx c' ∧ c'.stack = c.stack := by
  obtain ⟨hw, hh, hsections⟩ := h.honours hf.copies.closed
  have hkeep : c'.store.Copies ctx.Holds ∧ c'.stack = c.stack := by
    cases h with
    | known hfind => exact ⟨Store.runs_find?_copies hf.copies ha hfind, rfl⟩
    | taken _ hread _ hintern =>
      exact ⟨Store.runs_intern_copies hf.copies ha ⟨path, rfl, hpath, hread⟩ hintern, rfl⟩
  obtain ⟨hcopies, hstack⟩ := hkeep
  have hlater : Later c c' := ⟨hw, fun hs => ⟨_, hsections ▸ hs, rfl, rfl⟩⟩
  exact ⟨Store.name?_of_named? hh.named, hlater,
    hf.step hlater hcopies hstack fun hs => Or.inl (hsections ▸ hs), hstack⟩

/-- **The record of a file** is there. -/
theorem RecordRuns.faithful (hf : Faithful ctx c) {filename : String} {id : SectionId}
    (h : RecordRuns ctx filename c id c') :
    (Part.runtimeFile filename id).phrase? c'.sections c'.store = some (.load filename) ∧
      Later c c' ∧ Faithful ctx c' ∧ c'.stack = c.stack := by
  have hlater : Later c c' := (h.grows (K := fun _ => True)).later
  cases h with
  | known hs hr hn => exact ⟨Part.reading?_runtimeFile.2 ⟨_, hs, hr, hn, rfl⟩, hlater, hf, rfl⟩
  | added =>
    refine ⟨?_, hlater, hf.step hlater hf.copies rfl fun hs => ?_, rfl⟩
    · exact Part.reading?_runtimeFile.2 ⟨_, Array.getElem?_push_size, rfl, rfl, rfl⟩
    · rcases getElem?_push hs with ⟨-, rfl⟩ | hs
      · exact Or.inr ⟨filename, rfl⟩
      · exact Or.inl hs

/-! ## Lines -/

/-- What is expected of a way to have a section compiled: it is finished then. -/
def Expanding (ctx : CompileContext) (visit : Visit) : Prop :=
  ∀ {name referrer c id c'}, Runs (visit name referrer) c id c' → Faithful ctx c →
    Faithful ctx c' ∧ c'.stack = c.stack ∧ ∃ s, c'.sections[id.index]? = some s ∧
      s.runtimeFile = false ∧ s.name = name ∧ s.Finished ctx c'.sections c'.store

/-- A section being compiled has gone on as a line says. -/
structure GoesOn (ctx : CompileContext) (line : ScriptLine) (t : Passage) (c : Compiler)
    (d : Draft) (c' : Compiler) (d' : Draft) : Prop where
  faithful : Faithful ctx c'
  stack : c'.stack = c.stack
  grounded : ∀ {target}, line.Names .level target ∨ line.Names .insert target →
    ctx.table.Grounded target
  reads : ∃ t', d'.compiled.Reads c'.sections c'.store t' ∧
    ∀ {rest u}, Expands ctx d'.base t' rest u → Expands ctx d.base t (line :: rest) u

/-- A line that adds a part goes on by the phrase that the part reads as. -/
theorem goesOn_phrase {line : ScriptLine} {p : Part} {ph : Phrase String} {c₁ : Compiler}
    (hr : d.compiled.Reads c.sections c.store t) (hlater : Later c c₁)
    (hf₁ : Faithful ctx c₁) (hstack : c₁.stack = c.stack)
    (hadd : Runs (push ctx d p line.origin) c₁ d' c')
    (hp : p.phrase? c₁.sections c₁.store = some ph)
    (hent : line.entry? ctx d.base = some (.phrase ph))
    (hgrounded : ∀ {target}, line.Names .level target ∨ line.Names .insert target →
      ctx.table.Grounded target) : GoesOn ctx line t c d c' d' := by
  obtain ⟨rfl, rfl⟩ := runs_push_eq hadd
  exact ⟨hf₁, hstack, hgrounded, t.add ph, (hlater.reads hr).add hp,
    fun hexp => .phrase hent hexp⟩

theorem grounded_of_only {line : ScriptLine} {name : String} (honly : line.only? = some name)
    (h : ctx.table.Grounded name) {target : String}
    (hn : line.Names .level target ∨ line.Names .insert target) : ctx.table.Grounded target := by
  rcases hn with ⟨-, htarget⟩ | ⟨-, htarget⟩
  all_goals
    rw [honly, Option.some.injEq] at htarget
    exact htarget ▸ h

/-- **A keyword line** adds to its section what it says by itself. -/
theorem KeywordRuns.goesOn {visit : Visit} (hv : Visits ctx visit) (he : Expanding ctx visit)
    {line : ScriptLine} {keyword : Keyword} (hk : Keyword.ofName? line.keyword = some keyword)
    {before : List ScriptLine} (hbase : d.base = baseOf before)
    (hrefers : ∀ {path}, line.Refers ctx before path → ctx.Refers path) (hf : Faithful ctx c) (hr : d.compiled.Reads c.sections c.store t)
    (h : KeywordRuns ctx visit line c d keyword c' d') : GoesOn ctx line t c d c' d' := by
  have plain (hne : keyword ≠ .level) (hne' : keyword ≠ .insert) {target : String}
      (hn : line.Names .level target ∨ line.Names .insert target) : ctx.table.Grounded target := by
    rcases hn with ⟨hn, -⟩ | ⟨hn, -⟩
    · exact absurd (Option.some.inj (hk.symm.trans hn)) hne
    · exact absurd (Option.some.inj (hk.symm.trans hn)) hne'
  have same : Later c c := ⟨.refl _, fun hs => ⟨_, hs, rfl, rfl⟩⟩
  cases h with
  | @file text _ path id _ _ _ _ ht ha hpath hblob hadd =>
    have hpath' : ctx.Refers path := hrefers ⟨hk, text, ht, hbase ▸ hpath⟩
    obtain ⟨hname, hlater, hf₁, hstack⟩ := hblob.faithful hf hpath' (fits_of_fileAlignment ha)
    refine goesOn_phrase hr hlater hf₁ hstack hadd (Part.reading?_blob.2 ⟨_, hname, rfl⟩) ?_
      (plain (by decide) (by decide))
    simp [ScriptLine.entry?, hk, ht, hpath, Except.toOption]
  | @level _ id c₁ _ _ hn ht hvisit hadd =>
    obtain ⟨hf₁, hstack, s, hs, hscript, rfl, hfin⟩ := he hvisit hf
    have honly := ScriptLine.only?_eq hn ht
    have hphrase : (Part.level id).phrase? c₁.sections c₁.store = some (.level s.name) :=
      Part.reading?_level.2 ⟨s, hs, hscript, rfl⟩
    refine goesOn_phrase hr (hv hvisit hf.copies.closed).later hf₁ hstack hadd hphrase ?_
      (grounded_of_only honly hfin.grounded)
    simp [ScriptLine.entry?, hk, honly]
  | load hn ht hrecord hadd =>
    obtain ⟨hp, hlater, hf₁, hstack⟩ := hrecord.faithful hf
    refine goesOn_phrase hr hlater hf₁ hstack hadd hp ?_ (plain (by decide) (by decide))
    simp [ScriptLine.entry?, hk, ScriptLine.only?_eq hn ht]
  | string ht hadd =>
    refine goesOn_phrase hr same hf rfl hadd rfl ?_ (plain (by decide) (by decide))
    simp [ScriptLine.entry?, hk, ht, Except.toOption]
  | @binc _ _ _ warnings _ _ hn ht hpath hread hadd =>
    have hlater : Later c { c with warnings } := ⟨.refl _, fun hs => ⟨_, hs, rfl, rfl⟩⟩
    refine goesOn_phrase hr hlater (hf.notes warnings) rfl hadd rfl ?_
      (plain (by decide) (by decide))
    simp [ScriptLine.entry?, hk, ScriptLine.only?_eq hn ht, hpath, hread, Except.toOption]
  | align hvalue ha hadd =>
    obtain ⟨rfl, -, -⟩ := checkAlignment_eq_ok ha
    refine goesOn_phrase hr same hf rfl hadd rfl ?_ (plain (by decide) (by decide))
    simp [ScriptLine.entry?, hk, hvalue, Except.toOption]
  | pad hvalue hadd =>
    refine goesOn_phrase hr same hf rfl hadd rfl ?_ (plain (by decide) (by decide))
    simp [ScriptLine.entry?, hk, hvalue, Except.toOption]
  | path hn ht =>
    refine ⟨hf, rfl, plain (by decide) (by decide), t, hr, fun hexp => .directory ?_ hexp⟩
    simp only [ScriptLine.entry?, hk, ScriptLine.directory?_eq_some hk hn ht, Option.map_some]
  | insert hn ht hvisit hadd =>
    obtain ⟨hf₁, hstack, s, hs, -, rfl, hfin⟩ := he hvisit hf
    have honly := ScriptLine.only?_eq hn ht
    obtain ⟨-, rfl⟩ := runs_splice_eq hadd
    obtain ⟨script, v, hfind, -, hexp, hreads⟩ := hfin.expands
    have hr₁ := (hv hvisit hf.copies.closed).later.reads hr
    refine ⟨hf₁, hstack, grounded_of_only honly hfin.grounded,
      v.phrases.foldl Passage.add t, ?_, fun {rest u} hrest => ?_⟩
    · rw [hs, Option.map_some, Option.getD_some]
      exact hr₁.foldl_add hreads.parts
    · rw [base_foldl_add] at hrest
      refine .insertion ?_ hfind hexp hrest
      simp [ScriptLine.entry?, hk, honly]
  | numbers hwidth hbytes hadd =>
    refine goesOn_phrase hr same hf rfl hadd rfl ?_
      (plain (by rintro rfl; cases hwidth) (by rintro rfl; cases hwidth))
    cases keyword <;> cases hwidth <;> simp [ScriptLine.entry?, hk, hbytes, Except.toOption]

/-- **The lines of a section**, of which some have been compiled. -/
theorem runs_lines_expands {visit : Visit} (hv : Visits ctx visit) (he : Expanding ctx visit)
    {script : ScriptSection} (hs : script ∈ ctx.table.sections) {before lines : List ScriptLine}
    (hlines : script.lines = before ++ lines) (hbase : d.base = baseOf before)
    (hf : Faithful ctx c) (hr : d.compiled.Reads c.sections c.store t)
    (h : Runs (lines.foldlM (compileLine ctx visit) d) c d' c') :
    Faithful ctx c' ∧ c'.stack = c.stack ∧
      (∀ line ∈ lines, ∀ {target}, line.Names .level target ∨ line.Names .insert target →
        ctx.table.Grounded target) ∧
      ∃ u, Expands ctx d.base t lines u ∧ d'.compiled.Reads c'.sections c'.store u := by
  induction lines generalizing c d t before with
  | nil =>
    obtain ⟨rfl, rfl⟩ := runs_pure.1 h
    exact ⟨hf, rfl, nofun, t, .done, hr⟩
  | cons line lines ih =>
    rw [List.foldlM_cons, runs_bind] at h
    obtain ⟨d₁, c₁, h1, h2⟩ := h
    obtain ⟨keyword, hk, hrun⟩ := runs_compileLine_cases h1
    have hstep : GoesOn ctx line t c d c₁ d₁ :=
      hrun.goesOn hv he hk hbase (fun h => ⟨script, hs, before, line, lines, hlines, h⟩) hf hr
    obtain ⟨t₁, hr₁, hcont⟩ := hstep.reads
    have hlines₁ : script.lines = (before ++ [line]) ++ lines := by
      rw [hlines, List.append_assoc, List.singleton_append]
    have hbase₁ : d₁.base = baseOf (before ++ [line]) := by
      rw [base_compileLine h1, baseOf_append, hbase]
    obtain ⟨hf', hstack, hgrounded, u, hexp, hr'⟩ := ih hlines₁ hbase₁ hstep.faithful hr₁ h2
    refine ⟨hf', hstack.trans hstep.stack, fun l hl => ?_, u, hcont hexp, hr'⟩
    rcases List.mem_cons.1 hl with rfl | hl
    · exact hstep.grounded
    · exact hgrounded l hl

/-! ## Sections -/

/-- A new section takes its place. -/
theorem Faithful.enter (hf : Faithful ctx c) {empty : Section}
    (hnew : c.compiled? empty.name = none) (hscript : empty.runtimeFile = false) :
    Faithful ctx { c with sections := c.sections.push empty, stack := c.stack ++ [empty.name] } := by
  have hlater : Later c
      { c with sections := c.sections.push empty, stack := c.stack ++ [empty.name] } := by
    exact ⟨.refl _, fun {i s} hs => ⟨s, getElem?_push_of_some hs, rfl, rfl⟩⟩
  -- no section has the name
  have hfresh {i : ℕ} {s : Section} (hs : c.sections[i]? = some s) (hr : s.runtimeFile = false)
      (hn : s.name = empty.name) : False := by
    have := compiled?_isSome.2 ⟨i, s, hs, hr, hn⟩
    rw [hnew] at this
    cases this
  refine ⟨hf.copies, fun hs hr => ?_, fun {i j s t} hs ht hr hr' hn => ?_, fun {i s} hs hr hn => ?_⟩
  · rcases getElem?_push hs with ⟨-, rfl⟩ | hs
    · rw [hscript] at hr
      cases hr
    · exact hf.record hs hr
  · rcases getElem?_push hs with ⟨hi, hse⟩ | hs <;> rcases getElem?_push ht with ⟨hj, hte⟩ | ht
    · rw [hi, hj]
    · exact (hfresh ht hr' (hn.symm.trans (congrArg _ hse))).elim
    · exact (hfresh hs hr (hn.trans (congrArg _ hte))).elim
    · exact hf.name_inj hs ht hr hr' hn
  · simp only [List.mem_append, List.mem_singleton, not_or] at hn
    rcases getElem?_push hs with ⟨-, rfl⟩ | hs
    · exact absurd rfl hn.2
    · exact hlater.finished (hf.finished hs hr hn.1)

/-- A section is finished, and is no longer being compiled. -/
theorem Faithful.settle (hf : Faithful ctx c) {i : ℕ} {place : Section} {stack : List String}
    (hi : c.sections[i]? = some place) (hplace : place.runtimeFile = false)
    (hstack : c.stack = stack ++ [place.name]) (hr : s.runtimeFile = false)
    (hn : s.name = place.name) (hs : s.Finished ctx c.sections c.store) (warnings : List Warning) :
    Faithful ctx { c with sections := c.sections.setIfInBounds i s, stack, warnings } ∧
      s.Finished ctx (c.sections.setIfInBounds i s) c.store := by
  have get (j : ℕ) : (c.sections.setIfInBounds i s)[j]? =
      if i = j then some s else c.sections[j]? := getElem?_set_of_some hi j
  have hlater : Later c { c with sections := c.sections.setIfInBounds i s, stack, warnings } := by
    refine ⟨.refl _, fun {j u} hj => ?_⟩
    simp only [get]
    split_ifs with hij
    · subst hij
      rw [hi, Option.some.injEq] at hj
      exact ⟨s, rfl, by rw [hr, ← hj, hplace], by rw [hn, hj]⟩
    · exact ⟨u, hj, rfl, rfl⟩
  -- a section had its name before
  have old {j : ℕ} {u : Section} (hj : (c.sections.setIfInBounds i s)[j]? = some u)
      (hu : u.runtimeFile = false) : ∃ u', c.sections[j]? = some u' ∧ u'.runtimeFile = false ∧
        u'.name = u.name := by
    rw [get] at hj
    split_ifs at hj with hij
    · cases hj
      exact ⟨place, hij ▸ hi, hplace, hn.symm⟩
    · exact ⟨u, hj, hu, rfl⟩
  have hfin := hlater.finished hs
  refine ⟨⟨hf.copies, fun {j u} hj hu => ?_, fun hj hk hu hu' hnames => ?_,
    fun {j u} hj hu hnot => ?_⟩, hfin⟩
  · simp only [get] at hj
    split_ifs at hj
    · cases hj
      rw [hr] at hu
      cases hu
    · exact hf.record hj hu
  · obtain ⟨u₁, h1, h1r, h1n⟩ := old hj hu
    obtain ⟨u₂, h2, h2r, h2n⟩ := old hk hu'
    exact hf.name_inj h1 h2 h1r h2r (by rw [h1n, h2n, hnames])
  · simp only [get] at hj
    split_ifs at hj with hij
    · cases hj
      exact hfin
    · refine hlater.finished (hf.finished hj hu ?_)
      rw [hstack, List.mem_append, List.mem_singleton, not_or]
      exact ⟨hnot, fun hname => hij (hf.name_inj hi hj hplace hu hname.symm)⟩

/-- **A section of the script** is finished once its lines have been compiled. -/
theorem runs_compileScript_expands {visit : Visit} (hv : Visits ctx visit)
    (he : Expanding ctx visit) {script : ScriptSection}
    (hfind : ctx.table.find? script.name = some script)
    (hnew : c.compiled? script.name = none) {id : SectionId} (hf : Faithful ctx c)
    (h : Runs (compileScript ctx visit script) c id c') :
    Faithful ctx c' ∧ c'.stack = c.stack ∧ ∃ s, c'.sections[id.index]? = some s ∧
      s.runtimeFile = false ∧ s.name = script.name ∧ s.Finished ctx c'.sections c'.store := by
  obtain ⟨-, rfl, empty, d, c₁, warnings, hempty, hlines, rfl⟩ := runs_compileScript_iff h
  have hname : empty.name = script.name := by rw [hempty]
  have hscript : empty.runtimeFile = false := by rw [hempty]
  rw [← hname] at hlines hnew
  have hf₀ := hf.enter hnew hscript
  have hbase : none = baseOf [] := rfl
  obtain ⟨hg, hcont, -⟩ := runs_lines_answers hv hlines hbase hf.copies.closed
  have hr₀ : empty.Reads (c.sections.push empty) c.store {} := by rw [hempty]; exact ⟨rfl, rfl⟩
  have hmem : script ∈ ctx.table.sections := List.mem_of_find?_eq_some hfind
  obtain ⟨hf₁, hstack, hgrounded, u, hexp, hr⟩ :=
    runs_lines_expands hv he hmem (List.nil_append _).symm hbase hf₀ hr₀ hlines
  have hplace : c₁.sections[c.sections.size]? = some empty := hg.keeps Array.getElem?_push_size
  have hdname : d.compiled.name = empty.name := hcont.name
  have hfin : d.compiled.Finished ctx c₁.sections c₁.store := by
    have hfind' : ctx.table.find? d.compiled.name = some script := by rw [hdname, hname, hfind]
    refine ⟨.intro hfind' fun target htarget => ?_, script, u, hfind', ?_, hexp, hr⟩
    · obtain ⟨script', hs', line, hl, hn⟩ := htarget
      rw [hfind', Option.some.injEq] at hs'
      exact hgrounded line (hs' ▸ hl) hn
    · rw [hcont.alignment, hempty]
  obtain ⟨hf', hfin'⟩ := hf₁.settle hplace hscript hstack (hcont.runtimeFile.trans hscript) hdname
    hfin warnings
  have hdrop : c₁.stack.dropLast = c.stack := by rw [hstack, List.dropLast_concat]
  rw [hdrop]
  refine ⟨hf', rfl, d.compiled, ?_, hcont.runtimeFile.trans hscript, hdname.trans hname, hfin'⟩
  rw [Array.getElem?_setIfInBounds_self, if_pos (Array.getElem?_eq_some_iff.1 hplace).1]

/-- **Compiling a section**, to any depth, finishes it. -/
theorem expanding_compileWithin (depth : ℕ) : Expanding ctx (compileWithin ctx depth) := by
  induction depth with
  | zero =>
    intro name referrer c id c' h _
    simp only [compileWithin, runs_bind, runs_throw, and_false, exists_false] at h
  | succ depth ih =>
    intro name referrer c id c' h hf
    rcases runs_compileWithin h with ⟨rfl, hopen, s, hs, hr, rfl⟩ | ⟨hnew, script, hs, hrun⟩
    · exact ⟨hf, rfl, s, hs, hr, rfl, hf.finished hs hr hopen⟩
    · obtain rfl := SectionTable.find?_name hs
      exact runs_compileScript_expands (visits_compileWithin depth) ih hs hnew hf hrun

theorem faithful_start (s : Settings) : Faithful ctx (start s) := by
  refine ⟨⟨?_, ?_⟩, ?_, ?_, ?_⟩
  · intro _ b _ hb
    simp [start, Store.empty, Store.blob?] at hb
  · intro id hid
    simp [start, Store.empty, Store.size] at hid
  · intro i s hs
    simp [start] at hs
  · intro i j s t hs
    simp [start] at hs
  · intro i s hs
    simp [start] at hs

theorem faithful_compileAll {calls : List (String × Option Origin)} {u : Unit}
    (h : Runs (compileAll ctx calls) c u c') (hf : Faithful ctx c) :
    Faithful ctx c' ∧ c'.stack = c.stack := by
  unfold compileAll at h
  induction calls generalizing c with
  | nil =>
    obtain ⟨-, rfl⟩ := runs_pure.1 h
    exact ⟨hf, rfl⟩
  | cons call calls ih =>
    obtain ⟨_, c₁, h1, h2⟩ := runs_bind.1 h
    obtain ⟨id, c₂, h3, h4⟩ := runs_bind.1 h1
    obtain ⟨-, rfl⟩ := runs_pure.1 h4
    obtain ⟨hf₁, hstack, -⟩ := expanding_compileWithin _ h3 hf
    obtain ⟨hf', hstack'⟩ := ih h2 hf₁
    exact ⟨hf', hstack'.trans hstack⟩

end Compiler

/-! ## Programs -/

/-- All sections of a program are finished, all other sections are records of files, and blobs
    have contents of files that are shown so. -/
structure Program.Finished (ctx : CompileContext) (p : Program) : Prop where
  copies : p.store.Copies ctx.Holds
  finished : ∀ {i : ℕ} {s : Section}, p.sections[i]? = some s → s.runtimeFile = false →
    s.Finished ctx p.sections p.store
  record : ∀ {i : ℕ} {s : Section}, p.sections[i]? = some s → s.runtimeFile = true →
    ∃ filename, s = Section.record filename

/-- **A program is what the sections of the script expand to.** -/
theorem Compiler.Faithful.compile {ctx : CompileContext} {c : Compiler} {root : String}
    {p : Program} (hf : Faithful ctx c) (hstack : c.stack = [])
    (h : Compiler.compile ctx c root = .ok p) :
    p.Finished ctx ∧ ctx.table.Grounded root := by
  obtain ⟨id, c', hr, rfl⟩ := compile_eq_ok.1 h
  obtain ⟨hf', hstack', s, -, -, rfl, hfin⟩ := expanding_compileWithin _ hr hf
  have hnil : c'.stack = [] := hstack'.trans hstack
  refine ⟨⟨hf'.copies, fun hs hr => hf'.finished hs hr ?_, hf'.record⟩, hfin.grounded⟩
  rw [hnil]
  exact List.not_mem_nil

end LevelBundle
