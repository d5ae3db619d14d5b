/-
  LevelBundle — what compiling leaves in its store.

  Each `file` or `data` line makes one request that the store grants, and each section is
  compiled once.  So the counters of the store tell the number of those lines, and nothing
  in the store or among the sections has a place.

  * `fileLines t sections`: the `file` and `data` lines of some compiled sections.
  * `Compiler.Tally ctx c k`: the counters agree with the lines of the sections, of which `k`
    are still to come.  `tallies_compileWithin`: compiling a section, to any depth, keeps
    this.
  * `Program.Whole`: a program that has just been compiled (`compile_whole`).
-/
import LevelBundle.Proofs.Expanded
import LevelBundle.Proofs.Packing
import LevelBundle.Proofs.StoreInvariant

namespace LevelBundle

/-! ## File lines -/

/-- The number of lines of a section of the script that ask for a file. -/
def ScriptSection.fileLines (script : ScriptSection) : ℕ :=
  script.lines.countP fun line => Keyword.ofName? line.keyword == some .file

/-- The number of lines that ask for a file, of the section of the script that has been
    compiled to this one.  The record of a file has no lines. -/
def Section.fileLines (t : SectionTable) (s : Section) : ℕ :=
  if s.runtimeFile then 0 else ((t.find? s.name).map ScriptSection.fileLines).getD 0

/-- The number of lines that ask for a file, of some compiled sections. -/
def fileLines (t : SectionTable) (sections : Array Section) : ℕ :=
  (sections.toList.map (Section.fileLines t)).sum

section

variable {t : SectionTable} {sections : Array Section} {s u : Section} {i : ℕ}

theorem fileLines_push :
    fileLines t (sections.push s) = fileLines t sections + s.fileLines t := by
  simp [fileLines]

theorem fileLines_set (hi : sections[i]? = some u) (hr : s.runtimeFile = u.runtimeFile)
    (hn : s.name = u.name) : fileLines t (sections.setIfInBounds i s) = fileLines t sections := by
  have hsame : s.fileLines t = u.fileLines t := by
    rw [Section.fileLines, Section.fileLines, hr, hn]
  obtain ⟨hlt, hget⟩ := Array.getElem?_eq_some_iff.1 hi
  have hlt' : i < (sections.toList.map (Section.fileLines t)).length := by simpa using hlt
  have hmap : (sections.toList.map (Section.fileLines t))[i] = s.fileLines t := by
    rw [hsame, List.getElem_map, Array.getElem_toList, hget]
  rw [fileLines, fileLines, Array.toList_setIfInBounds, List.map_set, ← hmap,
    List.set_getElem_self]

end

/-! ## Places -/

/-- A request that is granted places nothing. -/
theorem Store.Outcome.unplaced {s s' : Store} {call : StoreCall} {id : BlobId}
    (h : s.Outcome call (.ok (some id)) s')
    (hs : ∀ {j b}, s.blob? j = some b → b.offset = none) {j : BlobId} {b : Blob}
    (hb : s'.blob? j = some b) : b.offset = none := by
  -- only the alignment of a blob is set
  have aligned {s : Store} {j t : BlobId} {a : Option UInt32} {b : Blob}
      (hs : ∀ {j b}, s.blob? j = some b → b.offset = none)
      (hb : (s.setAlignment t a).blob? j = some b) : b.offset = none := by
    rw [blob?_setAlignment] at hb
    split_ifs at hb
    · obtain ⟨b', hb', rfl⟩ := Option.map_eq_some_iff.1 hb
      exact hs (b := b') hb'
    · exact hs hb
  cases h with
  | found => exact aligned (aligned hs) hb
  | shared =>
    rw [blob?_withAlias] at hb
    split_ifs at hb
    · cases hb
      rfl
    · exact aligned hs hb
  | stored =>
    rw [blob?_withOwn] at hb
    split_ifs at hb
    · cases hb
      rfl
    · exact hs hb

namespace Compiler

variable {ctx : CompileContext} {c c' : Compiler} {d d' : Draft} {k : ℕ} {origin : Origin}

/-! ## Tallies -/

/-- The counters of the store agree with the lines of the sections, of which `k` that ask for
    a file are still to come, and nothing is placed. -/
structure Tally (ctx : CompileContext) (c : Compiler) (k : ℕ) : Prop where
  closed : c.store.Closed
  counters : ∃ n, c.store.Balanced n ∧ n + k = LevelBundle.fileLines ctx.table c.sections
  blobs : ∀ {id : BlobId} {b : Blob}, c.store.blob? id = some b → b.offset = none
  sections : ∀ {i : ℕ} {s : Section}, c.sections[i]? = some s → s.offset = none

theorem Tally.granted (h : c.Tally ctx (k + 1)) {call : StoreCall} {id : BlobId}
    (ho : c.store.Outcome call (.ok (some id)) c'.store) (hs : c'.sections = c.sections) :
    c'.Tally ctx k := by
  obtain ⟨n, hb, hn⟩ := h.counters
  refine ⟨ho.keeps.closed h.closed, ⟨n + 1, ho.balanced hb, ?_⟩, ho.unplaced h.blobs, ?_⟩
  · rw [hs]
    omega
  · rw [hs]
    exact h.sections

theorem Tally.push (h : c.Tally ctx k) {s : Section} (hs : s.offset = none)
    (stack : List String) : { c with sections := c.sections.push s, stack }.Tally ctx
      (k + s.fileLines ctx.table) := by
  obtain ⟨n, hb, hn⟩ := h.counters
  refine ⟨h.closed, ⟨n, hb, ?_⟩, h.blobs, fun hi => ?_⟩
  · rw [fileLines_push]
    omega
  · rcases getElem?_push hi with ⟨-, rfl⟩ | hi
    · exact hs
    · exact h.sections hi

theorem Tally.set (h : c.Tally ctx k) {i : ℕ} {s u : Section} (hi : c.sections[i]? = some u)
    (hr : s.runtimeFile = u.runtimeFile) (hn : s.name = u.name) (hs : s.offset = none)
    (stack : List String) (warnings : List Warning) :
    { c with sections := c.sections.setIfInBounds i s, stack, warnings }.Tally ctx k := by
  obtain ⟨n, hb, hk⟩ := h.counters
  refine ⟨h.closed, ⟨n, hb, ?_⟩, h.blobs, fun {j v} hj => ?_⟩
  · rw [hk, fileLines_set hi hr hn]
  · have hj : (c.sections.setIfInBounds i s)[j]? = some v := hj
    rw [getElem?_set_of_some hi] at hj
    split_ifs at hj
    · cases hj
      exact hs
    · exact h.sections hj

theorem Tally.notes (h : c.Tally ctx k) (warnings : List Warning) :
    { c with warnings }.Tally ctx k := ⟨h.closed, h.counters, h.blobs, h.sections⟩

/-! ## Lines -/

/-- What is expected of a way to have a section compiled. -/
def Tallies (ctx : CompileContext) (visit : Visit) : Prop :=
  ∀ {name referrer c id c' k}, Runs (visit name referrer) c id c' → c.Tally ctx k → c'.Tally ctx k

theorem RecordRuns.tally {filename : String} {id : SectionId} (h : RecordRuns ctx filename c id c')
    (ht : c.Tally ctx k) : c'.Tally ctx k := by
  cases h with
  | known => exact ht
  | added => exact ht.push (s := Section.record filename) rfl c.stack

/-- **A keyword line** makes one request if it asks for a file, and none otherwise. -/
theorem KeywordRuns.tally {visit : Visit} (hv : Tallies ctx visit) {line : ScriptLine}
    {keyword : Keyword} (h : KeywordRuns ctx visit line c d keyword c' d')
    (ht : c.Tally ctx (k + if keyword = .file then 1 else 0)) : c'.Tally ctx k := by
  cases h with
  | file _ _ _ _ hblob hadd =>
    obtain ⟨-, -, hs⟩ := hblob.honours ht.closed
    obtain ⟨call, ho⟩ := hblob.outcome
    obtain ⟨rfl, -⟩ := runs_push_eq hadd
    exact ht.granted ho hs
  | level _ _ hvisit hadd =>
    obtain ⟨rfl, -⟩ := runs_push_eq hadd
    exact hv hvisit ht
  | load _ _ hrecord hadd =>
    obtain ⟨rfl, -⟩ := runs_push_eq hadd
    exact hrecord.tally ht
  | binc _ _ _ _ hadd =>
    obtain ⟨rfl, -⟩ := runs_push_eq hadd
    exact ht.notes _
  | insert _ _ hvisit => exact hv hvisit ht
  | path => exact ht
  | string _ hadd | align _ _ hadd | pad _ hadd =>
    obtain ⟨rfl, -⟩ := runs_push_eq hadd
    exact ht
  | numbers hwidth _ hadd =>
    obtain ⟨rfl, -⟩ := runs_push_eq hadd
    rwa [if_neg (by rintro rfl; cases hwidth)] at ht

/-- **The lines of a section.** -/
theorem runs_lines_tally {visit : Visit} (hv : Tallies ctx visit) {lines : List ScriptLine}
    (h : Runs (lines.foldlM (compileLine ctx visit) d) c d' c')
    (ht : c.Tally ctx
      (k + lines.countP fun line => Keyword.ofName? line.keyword == some .file)) :
    c'.Tally ctx k := by
  induction lines generalizing c d with
  | nil =>
    obtain ⟨rfl, rfl⟩ := runs_pure.1 h
    exact ht
  | cons line lines ih =>
    rw [List.foldlM_cons, runs_bind] at h
    obtain ⟨d₁, c₁, h1, h2⟩ := h
    obtain ⟨keyword, hk, hrun⟩ := runs_compileLine_cases h1
    refine ih h2 (hrun.tally hv ?_)
    simpa [List.countP_cons, hk, Nat.add_assoc] using ht

/-! ## Sections -/

/-- **A section of the script** brings its lines, and all of them are compiled. -/
theorem runs_compileScript_tally {visit : Visit} (hg : Visits ctx visit) (hv : Tallies ctx visit)
    {script : ScriptSection} (hfind : ctx.table.find? script.name = some script) {id : SectionId}
    (h : Runs (compileScript ctx visit script) c id c') (ht : c.Tally ctx k) :
    c'.Tally ctx k := by
  obtain ⟨-, rfl, empty, d, c₁, warnings, hempty, hlines, rfl⟩ := runs_compileScript_iff h
  have hcount : empty.fileLines ctx.table = script.fileLines := by
    rw [Section.fileLines, hempty]
    simp [hfind]
  have hnone : empty.offset = none := by rw [hempty]
  have hbase : none = baseOf [] := rfl
  -- the place that is kept for the section is still there
  obtain ⟨hgrows, hcont, -⟩ := runs_lines_answers hg hlines hbase ht.closed
  have hplace : c₁.sections[c.sections.size]? = some empty := hgrows.keeps Array.getElem?_push_size
  have hpush := ht.push hnone (c.stack ++ [script.name])
  rw [hcount] at hpush
  have hdone := runs_lines_tally hv hlines hpush
  exact hdone.set hplace hcont.runtimeFile hcont.name (hcont.offset.trans hnone) _ warnings

/-- **Compiling a section**, to any depth. -/
theorem tallies_compileWithin (depth : ℕ) : Tallies ctx (compileWithin ctx depth) := by
  induction depth with
  | zero =>
    intro name referrer c id c' k h _
    simp only [compileWithin, runs_bind, runs_throw, and_false, exists_false] at h
  | succ depth ih =>
    intro name referrer c id c' k h ht
    rcases runs_compileWithin h with ⟨rfl, -⟩ | ⟨-, script, hs, hrun⟩
    · exact ht
    · have hname := SectionTable.find?_name hs
      exact runs_compileScript_tally (visits_compileWithin depth) ih (hname ▸ hs) hrun ht

theorem tally_start (s : Settings) : (start s).Tally ctx 0 := by
  refine ⟨Store.closed_empty _ _, ⟨0, ⟨rfl, rfl⟩, rfl⟩, fun {id b} hb => ?_, fun {i s} hs => ?_⟩
  · simp [start, Store.empty, Store.blob?] at hb
  · simp [start] at hs

end Compiler

/-! ## Programs -/

namespace Program

variable {ctx : CompileContext} {s : Settings} {root : String} {p : Program}

/-- What is true of a program that has just been compiled. -/
structure Whole (ctx : CompileContext) (p : Program) : Prop where
  /-- All that the root leads to is there. -/
  linked : p.Linked
  /-- The root leads to the canonical blobs of all blobs. -/
  blobs : ∀ {id : BlobId}, id.index < p.store.size → p.Leads (.blob (p.store.canonical id))
  /-- Every line that asks for a file has brought a canonical blob or a hit. -/
  balanced : p.store.Balanced (fileLines ctx.table p.sections)
  /-- Nothing is placed. -/
  unplaced : ∀ ref, p.offsetOf? ref = none

/-- What the parts of finished sections refer to is there. -/
theorem Finished.linked (h : p.Finished ctx) (hroot : p.Holds (.level p.root)) : p.Linked := by
  intro ref hr
  cases hr with
  | root => exact hroot
  | @step source target hsource ht =>
    cases source with
    | blob id => cases ht
    | level id =>
      obtain ⟨part, hpart, htarget⟩ := List.mem_filterMap.1 ht
      cases hs : p.sections[id.index]? with
      | none =>
        rw [sectionAt, Array.getD_eq_getD_getElem?, hs] at hpart
        cases hpart
      | some s =>
        rw [sectionAt_eq hs] at hpart
        cases hr : s.runtimeFile with
        | true =>
          obtain ⟨filename, rfl⟩ := h.record hs hr
          refine absurd hpart (Compiler.not_mem_record ?_)
          cases part <;> first | rfl | cases htarget
        | false =>
          obtain ⟨script, t, -, -, -, hreads⟩ := (h.finished hs hr).expands
          obtain ⟨phrase, -, hphrase⟩ := hreads.phrase_of_mem hpart
          cases part with
          | literal | align | pad => cases htarget
          | blob id' =>
            cases htarget
            have hc : p.store.Closed := h.copies.closed
            obtain ⟨_, hname, -⟩ := Part.reading?_blob.1 hphrase
            exact hc.canonical (Store.lt_of_name? hname)
          | level id' =>
            cases htarget
            obtain ⟨u, hu, -⟩ := Part.reading?_level.1 hphrase
            exact ⟨u, hu⟩
          | runtimeFile filename id' =>
            cases htarget
            obtain ⟨u, hu, -⟩ := Part.reading?_runtimeFile.1 hphrase
            exact ⟨u, hu⟩

/-- **A program that has just been compiled.** -/
theorem compile_whole (h : Compiler.compile ctx (Compiler.start s) root = .ok p) :
    p.Whole ctx := by
  obtain ⟨hfin, -⟩ := (Compiler.faithful_start s).compile rfl h
  have hans := compile_answers h
  obtain ⟨id, c, hr, rfl⟩ := Compiler.compile_eq_ok.1 h
  have ht : c.Tally ctx 0 := Compiler.tallies_compileWithin _ hr (Compiler.tally_start s)
  obtain ⟨-, -, root, hroot, -⟩ := Compiler.expanding_compileWithin _ hr (Compiler.faithful_start s)
  obtain ⟨n, hb, hn⟩ := ht.counters
  refine ⟨hfin.linked ⟨root, hroot⟩, hans.blobs, ?_, fun ref => ?_⟩
  · rw [Nat.add_zero] at hn
    exact hn ▸ hb
  · cases ref with
    | level id' =>
      cases hs : c.sections[id'.index]? with
      | none => simp [offsetOf?, sectionAt, Array.getD_eq_getD_getElem?, Compiler.program, hs]
      | some s =>
        have hs' : (c.program id).sections[id'.index]? = some s := hs
        rw [offsetOf?, sectionAt_eq hs']
        exact ht.sections hs
    | blob id' =>
      cases hb' : c.store.blob? id' with
      | none => rw [offsetOf?, Compiler.program, hb', Option.bind_none]
      | some b =>
        rw [offsetOf?, Compiler.program, hb', Option.bind_some]
        exact ht.blobs hb'

/-- **The root leads to the canonical blobs**, and to no other. -/
theorem Whole.leads_blob_iff (hp : p.Whole ctx) {id : BlobId} :
    p.Leads (.blob id) ↔ id ∈ p.store.canonicalIds := by
  constructor
  · intro h
    obtain ⟨b, bytes, hb, hst⟩ := hp.linked _ h
    exact Store.mem_canonicalIds.2 ⟨b, hb, Blob.isCanonical_iff.2 ⟨bytes, hst⟩⟩
  · intro h
    obtain ⟨b, hb, hcan⟩ := Store.mem_canonicalIds.1 h
    obtain ⟨bytes, hst⟩ := Blob.isCanonical_iff.1 hcan
    have hself : p.store.canonical id = id :=
      Store.canonical_of_owned (Store.storage?_eq_some.2 ⟨b, hb, hst⟩)
    exact hself ▸ hp.blobs (Store.blob?_lt hb)

end Program

end LevelBundle
