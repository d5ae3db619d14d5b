/-
  LevelBundle — compiled programs are sound.

  * What is put into a section keeps it sound (`runs_push`, `runs_splice`), and a blob or a
    record adds one item at most (`BlobRuns.advances`, `RecordRuns.advances`); what a line
    adds costs no more than the line takes to write (`KeywordRuns.advances`).
  * `visitOk_compileWithin`: compiling a section, to any depth, costs nothing
    beyond what was set aside for it.
  * `compile_sound`: a program that is compiled is sound, and its items can be
    counted in a word.
-/
import LevelBundle.Proofs.CompilerRuns
import LevelBundle.Proofs.CompilerSound
import LevelBundle.Proofs.Encoding

namespace LevelBundle

namespace Compiler

variable {ctx : CompileContext} {pad : UInt32} {c c' : Compiler} {n m : ℕ}

/-! ## Sections being compiled -/

/-- What is true of a section being compiled. -/
structure DraftOk (ctx : CompileContext) (pad : UInt32) (c : Compiler) (name : String)
    (d : Draft) : Prop where
  sound : d.compiled.Sound ctx.chunkSize pad
  parts : ∀ p ∈ d.compiled.parts, c.PartOk ctx p
  name : d.compiled.name = name
  script : d.compiled.runtimeFile = false

variable {name : String} {d d' : Draft} {p : Part} {origin : Origin}

theorem DraftOk.mono (h : Extends c c') (hd : DraftOk ctx pad c name d) :
    DraftOk ctx pad c' name d :=
  ⟨hd.sound, fun p hp => (hd.parts p hp).mono h, hd.name, hd.script⟩

theorem partOk_fit {s : Section} (h : c.PartOk ctx p) : c.PartOk ctx (s.fit p) := by
  cases p <;> exact h

/-- A part that is appended leaves the state alone. -/
theorem runs_push (hb : ctx.Bounded pad) (h : Runs (push ctx d p origin) c d' c')
    (hc : Sound ctx pad c) (hd : DraftOk ctx pad c name d) (hp : p.Small ctx.chunkSize)
    (hok : c.PartOk ctx p) : c' = c ∧ DraftOk ctx pad c name d' := by
  unfold push at h
  split at h
  · simp only [runs_throw] at h
  rename_i s hs
  simp only [runs_bind, runs_get] at h
  obtain ⟨_, _, ⟨rfl, rfl⟩, h⟩ := h
  split_ifs at h with hover
  · simp only [runs_bind, runs_throw, false_and, exists_false] at h
  obtain ⟨rfl, rfl⟩ := runs_pure.1 h
  rw [overflows, hc.padSize, decide_eq_true_eq] at hover
  obtain ⟨hsound, he⟩ := hd.sound.push hb.grain hp hs hover
  refine ⟨rfl, hsound, fun q hq => ?_, ?_, ?_⟩
  · rw [he] at hq
    rcases List.mem_append.1 hq with hq | hq
    · exact hd.parts q hq
    · rw [List.mem_singleton.1 hq]; exact partOk_fit hok
  · rw [he]; exact hd.name
  · rw [he]; exact hd.script

/-! ## Contents of files -/

theorem runs_request_of {α : Type} {act : StoreM α} {a : α} {store : Store}
    (h : Runs act c.store a store) : Runs (request act origin) c a { c with store } := by
  rw [request, runs_bind]
  refine ⟨c, c, runs_get.2 ⟨rfl, rfl⟩, ?_⟩
  rw [show (act.run c.store : Except StoreError α × Store) = (.ok a, store) from h]
  exact runs_bind.2 ⟨⟨⟩, _, runs_set.2 rfl, runs_pure.2 ⟨rfl, rfl⟩⟩

theorem fails_request_of {α : Type} {act : StoreM α} {e : StoreError} {store : Store}
    (h : Fails act c.store e store) :
    Fails (request act origin) c (.at (.store e) origin) { c with store } := by
  rw [request, fails_bind]
  refine Or.inr ⟨c, c, runs_get.2 ⟨rfl, rfl⟩, ?_⟩
  rw [show (act.run c.store : Except StoreError α × Store) = (.error e, store) from h]
  exact fails_bind.2 (Or.inr ⟨⟨⟩, _, runs_set.2 rfl, fails_throw.2 ⟨rfl, rfl⟩⟩)

/-- **The contents of a file** take at most one more blob. -/
theorem BlobRuns.advances (hb : ctx.Bounded pad) {path : Path} {a : Option UInt32}
    (ha : Alignment.Fits ctx.chunkSize a) {id : BlobId} (h : BlobRuns ctx path a c id c') :
    Advances ctx pad 1 c c' ∧ id.index < c'.store.size := by
  cases h with
  | known hfind =>
    obtain ⟨hg, hsize, hknown, -⟩ := Store.runs_find? hfind ha
    exact ⟨(advances_store hg (Nat.le_of_eq hsize)).mono (Nat.zero_le 1), hsize ▸ hknown _ rfl⟩
  | @taken bytes store warnings _ hread hroom hintern =>
    have hlt := hb.file_lt hread
    have hadv : Advances ctx pad 0 c { c with warnings } := advances_notes _ _
    rw [overflows, decide_eq_true_eq, Nat.min_eq_left (by omega), UInt32.not_lt] at hroom
    obtain ⟨hg, hsize, hid⟩ := Store.runs_intern hintern ha hlt hroom
    exact ⟨(hadv.trans (advances_store hg hsize)).mono (by omega), hid⟩

/-! ## Records of files -/

/-- **The record of a file** takes at most one more section. -/
theorem RecordRuns.advances (hb : ctx.Bounded pad) (hc : Sound ctx pad c) {filename : String}
    (hf : filename.utf8ByteSize < 2 ^ 30) {id : SectionId} (h : RecordRuns ctx filename c id c') :
    Advances ctx pad 1 c c' ∧ c'.sections[id.index]? = some (Section.record filename) := by
  cases h with
  | @known _ s hs hr hn =>
    refine ⟨(Advances.refl c).mono (Nat.zero_le 1), ?_⟩
    obtain ⟨f, rfl⟩ := hc.record hs hr
    have hname : "load:" ++ f = "load:" ++ filename := hn
    rw [hs, (String.append_right_inj _).1 hname]
  | added hnew hroom =>
    have hext := extends_push (c := c) (Section.record filename)
    rw [overflows, decide_eq_true_eq, hc.padSize] at hroom
    refine ⟨⟨fun _ => ?_, hext, hext.load_le (by simp only [Array.size_push]; omega)⟩,
      Array.getElem?_push_size⟩
    exact hc.push (Section.sound_record hb.grain hf hroom)
      (by rintro p hp; simp only [Section.record, Section.recordParts, List.mem_cons,
            List.not_mem_nil, or_false] at hp; rcases hp with rfl | rfl <;> trivial)
      fun _ => ⟨filename, rfl, hnew⟩

/-! ## Parts of other sections -/

/-- **The parts of another section** can be put at the end of this one. -/
theorem runs_splice (hb : ctx.Bounded pad) (hc : Sound ctx pad c) (hd : DraftOk ctx pad c name d)
    {id : SectionId} (h : Runs (splice ctx d id origin) c d' c') :
    c' = c ∧ DraftOk ctx pad c name d' := by
  simp only [splice, runs_bind, runs_get] at h
  obtain ⟨_, _, ⟨rfl, rfl⟩, h⟩ := h
  refine Runs.foldlM (P := fun d c₁ => c₁ = c ∧ DraftOk ctx pad c name d) h ⟨rfl, hd⟩ ?_
  rintro p hp d₁ c₁ d₂ c₂ ⟨rfl, hd₁⟩ h₁
  cases hs : c₁.sections[id.index]? with
  | none => rw [hs] at hp; cases hp
  | some s =>
    rw [hs] at hp
    exact runs_push hb h₁ hc hd₁ ((hc.sections hs).small p hp) (hc.parts hs p hp)

/-! ## Lines -/

/-- What is expected of a way to have a section compiled. -/
def VisitOk (ctx : CompileContext) (pad : UInt32) (visit : Visit) : Prop :=
  ∀ {name referrer c id c'}, Runs (visit name referrer) c id c' → Sound ctx pad c →
    Advances ctx pad 0 c c' ∧ c'.PartOk ctx (.level id)

/-- **A keyword line** costs no more than it takes to write. -/
theorem KeywordRuns.advances {visit : Visit} (hb : ctx.Bounded pad) (hv : VisitOk ctx pad visit)
    {script : ScriptSection} (hs : script ∈ ctx.table.sections) {line : ScriptLine}
    (hline : line ∈ script.lines) {keyword : Keyword}
    (hk : Keyword.ofName? line.keyword = some keyword)
    (h : KeywordRuns ctx visit line c d keyword c' d') (hc : Sound ctx pad c)
    (hd : DraftOk ctx pad c name d) :
    Advances ctx pad line.written c c' ∧ DraftOk ctx pad c' name d' := by
  have hw : line.written < 2 ^ 30 :=
    (ScriptLine.written_le hline).trans_le (Nat.le_of_lt
      (Nat.lt_of_le_of_lt (ScriptSection.written_le hs) hb.written_lt))
  have hchunk := hb.grain.chunk_le
  have stay : Advances ctx pad line.written c c := (Advances.refl c).mono (Nat.zero_le _)
  cases h with
  | file _ ht ha _ hblob hadd =>
    obtain ⟨hadv, hid⟩ := hblob.advances hb (fits_of_fileAlignment ha)
    obtain ⟨rfl, hd'⟩ := runs_push hb hadd (hadv.sound hc) (hd.mono hadv.ext) trivial hid
    exact ⟨hadv.mono ((ScriptLine.textAt_le ht).2.trans (line.writtenAt_le 0)), hd'⟩
  | level _ _ hvisit hadd =>
    obtain ⟨hadv, hid⟩ := hv hvisit hc
    obtain ⟨rfl, hd'⟩ := runs_push hb hadd (hadv.sound hc) (hd.mono hadv.ext) trivial hid
    exact ⟨hadv.mono (Nat.zero_le _), hd'⟩
  | @load filename id _ _ _ hn ht hrecord hadd =>
    obtain ⟨hle, hpos⟩ := ScriptLine.textAt_le ht
    have hle0 := line.writtenAt_le 0
    obtain ⟨hadv, hid⟩ := hrecord.advances hb hc (by omega)
    have hload : ctx.table.Loads filename := by
      obtain ⟨a, ha, htext⟩ := exists_argument hn ht
      exact ⟨script, hs, line, hline, hk, a, ha, htext⟩
    obtain ⟨rfl, hd'⟩ := runs_push (p := .runtimeFile filename id) hb hadd (hadv.sound hc)
      (hd.mono hadv.ext) trivial ⟨hid, hload⟩
    exact ⟨hadv.mono (by omega), hd'⟩
  | @string text _ _ ht hadd =>
    have hlen := ScriptLine.length_of_allText ht
    obtain ⟨rfl, hd'⟩ := runs_push hb hadd hc hd
      (show (Utf8.encode text).length < 2 ^ 31 by omega) trivial
    exact ⟨stay, hd'⟩
  | @binc _ _ bytes warnings _ _ _ _ _ hread hadd =>
    have hlt := hb.file_lt hread
    have hadv : Advances ctx pad 0 c { c with warnings } := advances_notes _ _
    obtain ⟨rfl, hd'⟩ := runs_push hb hadd (hadv.sound hc) (hd.mono hadv.ext)
      (show bytes.length < 2 ^ 31 by omega) trivial
    exact ⟨hadv.mono (Nat.zero_le _), hd'⟩
  | align _ ha hadd =>
    obtain ⟨rfl, hd'⟩ := runs_push hb hadd hc hd (checkAlignment_eq_ok ha).2 trivial
    exact ⟨stay, hd'⟩
  | @pad value _ _ hn hadd =>
    obtain ⟨-, hlow, hhigh⟩ := intAt_eq_ok hn
    have hle : UInt32.ofInt value ≤ ctx.chunkSize := by
      rw [UInt32.le_iff_toNat_le, UInt32.ofInt, UInt32.toNat_ofNat']
      omega
    obtain ⟨rfl, hd'⟩ := runs_push hb hadd hc hd (p := .pad (UInt32.ofInt value)) hle trivial
    exact ⟨stay, hd'⟩
  | path => exact ⟨stay, hd.sound, hd.parts, hd.name, hd.script⟩
  | insert _ _ hvisit hadd =>
    obtain ⟨hadv, -⟩ := hv hvisit hc
    obtain ⟨-, hd'⟩ := runs_splice hb (hadv.sound hc) (hd.mono hadv.ext) hadd
    exact ⟨hadv.mono (Nat.zero_le _), hd'⟩
  | @numbers _ _ bytes _ _ _ hn hadd =>
    have hlen := ScriptLine.length_of_allNumbers hn
    obtain ⟨rfl, hd'⟩ := runs_push hb hadd hc hd (show bytes.length < 2 ^ 31 by omega) trivial
    exact ⟨stay, hd'⟩

/-- The lines of a section. -/
theorem runs_lines {visit : Visit} (hb : ctx.Bounded pad) (hv : VisitOk ctx pad visit)
    {script : ScriptSection} (hs : script ∈ ctx.table.sections) {lines : List ScriptLine}
    (hl : ∀ line ∈ lines, line ∈ script.lines)
    (h : Runs (lines.foldlM (compileLine ctx visit) d) c d' c') (hc : Sound ctx pad c)
    (hd : DraftOk ctx pad c name d) :
    Advances ctx pad (lines.map ScriptLine.written).sum c c' ∧ DraftOk ctx pad c' name d' := by
  induction lines generalizing c d with
  | nil =>
    obtain ⟨rfl, rfl⟩ := runs_pure.1 h
    exact ⟨.refl _, hd⟩
  | cons line lines ih =>
    rw [List.foldlM_cons, runs_bind] at h
    obtain ⟨d₁, c₁, h1, h2⟩ := h
    obtain ⟨keyword, hk, hrun⟩ := runs_compileLine_cases h1
    obtain ⟨hadv, hd₁⟩ := hrun.advances hb hv hs (hl line (by simp)) hk hc hd
    obtain ⟨hadv', hd'⟩ := ih (fun l hmem => hl l (by simp [hmem])) h2 (hadv.sound hc) hd₁
    rw [List.map_cons, List.sum_cons]
    exact ⟨hadv.trans hadv', hd'⟩

/-! ## Sections -/

/-- **A section of the script** costs what was set aside for it. -/
theorem runs_compileScript {visit : Visit} (hb : ctx.Bounded pad) (hv : VisitOk ctx pad visit)
    {script : ScriptSection} (hs : script ∈ ctx.table.sections)
    (hnew : c.compiled? script.name = none) {id : SectionId}
    (h : Runs (compileScript ctx visit script) c id c') (hc : Sound ctx pad c) :
    Advances ctx pad 0 c c' ∧ c'.PartOk ctx (.level id) := by
  obtain ⟨ha, rfl, empty, d, c₁, warnings, hempty, hlines, rfl⟩ := runs_compileScript_iff h
  have hsound : empty.Sound ctx.chunkSize pad := by rw [hempty]; exact Section.sound_empty hb.grain ha
  have hname : empty.name = script.name := by rw [hempty]
  have hscript : empty.runtimeFile = false := by rw [hempty]
  have hparts : empty.parts = [] := by rw [hempty]
  -- the section takes its place
  have hext := extends_push (c := c) empty
  have hplace : (c.sections.push empty)[c.sections.size]? = some empty := Array.getElem?_push_size
  have hpay := hext.load_lt hs hnew (compiled?_isSome.2 ⟨_, _, hplace, hscript, hname⟩)
  have hpaid : load ctx { c with sections := c.sections.push empty } +
      (script.lines.map ScriptLine.written).sum ≤ load ctx c := by
    unfold ScriptSection.written at hpay
    simp only [load, Array.size_push]
    omega
  have hpush : Sound ctx pad { c with sections := c.sections.push empty } :=
    hc.push hsound (by rw [hparts]; exact nofun) (by rw [hscript]; exact nofun)
  have hnotes : Advances ctx pad 0 { c with sections := c.sections.push empty }
      { c with sections := c.sections.push empty, stack := c.stack ++ [script.name] } :=
    advances_notes _ _
  -- its lines are compiled
  obtain ⟨hlines, hd⟩ := runs_lines hb hv hs (fun _ h => h) hlines (hnotes.sound hpush)
    ⟨hsound, by rw [hparts]; exact nofun, hname, hscript⟩
  obtain ⟨s₁, hs₁, hs₁r, hs₁n⟩ := hlines.ext.script hplace hscript
  have hset : Advances ctx pad 0 c₁
      { c₁ with sections := c₁.sections.setIfInBounds c.sections.size d.compiled } :=
    advances_set hs₁ hs₁r hd.script (by rw [hd.name, hs₁n, hname]) hd.sound hd.parts
  have hall := (hnotes.trans hlines).trans (hset.trans
    (advances_notes c₁.stack.dropLast warnings))
  refine ⟨⟨fun _ => hall.sound hpush, hext.trans hall.ext, ?_⟩, d.compiled, ?_, hd.script⟩
  · refine hall.load_le.trans ?_
    omega
  · have hlt := (Array.getElem?_eq_some_iff.1 hs₁).1
    rw [Array.getElem?_setIfInBounds_self, if_pos hlt]

/-- **Compiling a section**, to any depth, costs nothing beyond what was set aside. -/
theorem visitOk_compileWithin (hb : ctx.Bounded pad) (depth : ℕ) :
    VisitOk ctx pad (compileWithin ctx depth) := by
  induction depth with
  | zero =>
    intro name referrer c id c' h _
    simp only [compileWithin, runs_bind, runs_throw, and_false, exists_false] at h
  | succ depth ih =>
    intro name referrer c id c' h hc
    rcases runs_compileWithin h with ⟨rfl, -, s, hs, hr, -⟩ | ⟨hnew, script, hs, hrun⟩
    · exact ⟨.refl _, s, hs, hr⟩
    · have hname := SectionTable.find?_name hs
      exact runs_compileScript hb ih (SectionTable.find?_mem hs) (hname ▸ hnew) hrun hc

end Compiler

/-! ## Programs -/

/-- What is true of a program that has been compiled. -/
structure Program.Sound (ctx : CompileContext) (pad : UInt32) (p : Program) : Prop where
  state : Compiler.Sound ctx pad { store := p.store, sections := p.sections }
  root : ∃ s, p.sections[p.root.index]? = some s ∧ s.runtimeFile = false
  count_lt : p.sections.size + p.store.size < 2 ^ 30

/-- What settings that pass their check are. -/
structure Settings.Valid (s : Settings) : Prop where
  grain : Grain s.pack.chunkSize s.padSize
  sector_words : 4 ∣ s.pack.sectorSize.toNat
  sector_le : s.pack.sectorSize.toNat ≤ s.pack.chunkSize.toNat
  passes : s.pack.maxLayoutPasses ≠ 0

theorem Settings.valid_of_validate {s : Settings} (h : s.validate = .ok ()) : s.Valid := by
  unfold validate at h
  split at h
  · cases h
  rename_i hf
  unfold fault? at hf
  rw [ite_eq_iff] at hf
  obtain ⟨-, hf⟩ | ⟨-, hf⟩ := hf
  · cases hf
  split at hf
  · cases hf
  rename_i a ha
  split_ifs at hf with hp hs hm
  rw [not_or, not_or, not_not, UInt32.not_lt] at hp
  rw [not_or, not_not, UInt32.not_lt] at hs
  obtain ⟨hp0, hp4, hpc⟩ := hp
  obtain ⟨h16, h30, h4⟩ := a.words
  rw [Addressing.ofChunkSize_eq_ok ha] at h16 h30 h4
  refine ⟨⟨h16, h30, h4, ?_, UInt32.le_iff_toNat_le.1 hpc, dvd_of_mod_eq_zero hp4⟩,
    dvd_of_mod_eq_zero hs.1, UInt32.le_iff_toNat_le.1 hs.2, hm⟩
  exact Nat.pos_of_ne_zero fun h => hp0 (UInt32.toNat_inj.1 h)

theorem Compiler.sound_start (ctx : CompileContext) (s : Settings) :
    Compiler.Sound ctx s.padSize (Compiler.start s) where
  store := by
    constructor <;> intro _ b <;> simp [start, Store.empty, Store.blob?]
  padSize := rfl
  sections h := by simp [start] at h
  parts h := by simp [start] at h
  record h := by simp [start] at h
  record_inj h := by simp [start] at h

theorem Compiler.load_start (ctx : CompileContext) (s : Settings) :
    (Compiler.start s).load ctx = ctx.table.written := by
  have key (script : ScriptSection) : (Compiler.start s).pending script = script.written := by
    simp [pending, compiled?, start]
  simp only [load, SectionTable.written, funext key]
  exact Nat.zero_add _

/-- Compiling some sections, one after the other. -/
def Compiler.compileAll (ctx : CompileContext) (calls : List (String × Option Origin)) :
    CompileM Unit :=
  calls.forM fun call => do
    let _ ← compileSection ctx call.1 call.2

theorem Compiler.advances_compileAll {ctx : CompileContext} {pad : UInt32} (hb : ctx.Bounded pad)
    {calls : List (String × Option Origin)} {c c' : Compiler} {u : Unit}
    (h : Runs (compileAll ctx calls) c u c') (hc : Sound ctx pad c) : Advances ctx pad 0 c c' := by
  unfold compileAll at h
  induction calls generalizing c with
  | nil =>
    obtain ⟨-, rfl⟩ := runs_pure.1 h
    exact .refl c
  | cons call calls ih =>
    obtain ⟨_, c₁, h1, h2⟩ := runs_bind.1 h
    obtain ⟨id, c₂, h3, h4⟩ := runs_bind.1 h1
    obtain ⟨-, rfl⟩ := runs_pure.1 h4
    have hadv := (visitOk_compileWithin hb _ h3 hc).1
    exact hadv.trans (ih h2 (hadv.sound hc))

theorem Compiler.compile_eq_ok {ctx : CompileContext} {c : Compiler} {root : String} {p : Program} :
    compile ctx c root = .ok p ↔
      ∃ id c', Runs (compileSection ctx root none) c id c' ∧ p = c'.program id := by
  unfold compile Runs
  rcases (compileSection ctx root none).run c with ⟨e | id, c'⟩
  · simp
  · constructor
    · rintro ⟨⟩
      exact ⟨id, c', rfl, rfl⟩
    · rintro ⟨_, _, ⟨⟩, rfl⟩
      rfl

theorem Compiler.compile_eq_error {ctx : CompileContext} {c : Compiler} {root : String}
    {e : BuildError} : compile ctx c root = .error e ↔
      ∃ c', Fails (compileSection ctx root none) c e c' := by
  unfold compile Fails
  rcases (compileSection ctx root none).run c with ⟨e' | id, c'⟩
  · simp
  · simp

/-- **A compiled program is sound.** -/
theorem Compiler.compile_sound {ctx : CompileContext} {s : Settings}
    (hb : ctx.Bounded s.padSize) {calls : List (String × Option Origin)} {c : Compiler} {u : Unit}
    (hcalls : Runs (compileAll ctx calls) (start s) u c) {root : String} {p : Program}
    (h : compile ctx c root = .ok p) : p.Sound ctx s.padSize := by
  have hbefore := advances_compileAll hb hcalls (sound_start ctx s)
  obtain ⟨id, c', hr, rfl⟩ := compile_eq_ok.1 h
  have hsound := hbefore.sound (sound_start ctx s)
  obtain ⟨hadv, hroot⟩ := visitOk_compileWithin hb _ hr hsound
  have hc := hadv.sound hsound
  have hnotes : Advances ctx s.padSize 0 c' { c' with stack := [], warnings := [] } :=
    advances_notes [] []
  refine ⟨hnotes.sound hc, hroot, ?_⟩
  have h1 := (hbefore.trans hadv).load_le
  rw [load_start] at h1
  have h2 := hb.written_lt
  have h3 : c'.sections.size + c'.store.size ≤ c'.load ctx := Nat.le_add_right _ _
  show c'.sections.size + c'.store.size < _
  omega

end LevelBundle
