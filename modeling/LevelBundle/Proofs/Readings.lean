/-
  LevelBundle — how compiled sections read.

  The parts of a section have numbers of blobs and sections.  They read as phrases where the
  store and the sections are looked up, and go on to read so while more is compiled.

  * `Store.Copies`: the blobs have contents of their names.
  * `Part.reading?`: a part, as it reads where something is known of blobs; `Part.phrase?`:
    as it reads where blobs have names.
  * `Section.Finished ctx sections store s`: the section reads as its lines expand.
  * `Compiler.Later`: a state that was reached from another one.  `Later.finished`: sections
    that were finished still are.
-/
import LevelBundle.Proofs.Answered
import LevelBundle.Proofs.Expansion
import LevelBundle.Proofs.Sharing

namespace LevelBundle

/-! ## Stores -/

namespace Store

/-- The name of a blob. -/
def name? (s : Store) (id : BlobId) : Option String := (s.blob? id).bind Blob.name

/-- The contents of a blob, if there is one. -/
def contents? (s : Store) (id : BlobId) : Option Bytes := (s.blob? id).map fun _ => s.bytes id

/-- Each blob has a name of its own, and contents of that name. -/
structure Copies (H : String → Bytes → Prop) (s : Store) : Prop where
  closed : s.Closed
  file : ∀ {id : BlobId}, id.index < s.size →
    ∃ name, s.named? name = some id ∧ H name (s.bytes id)

variable {H : String → Bytes → Prop} {s s' : Store} {id : BlobId} {name : String}
  {contents : Bytes} {a : Option UInt32} {chunk : UInt32}

theorem name?_of_named? (h : s.named? name = some id) : s.name? id = some name := by
  obtain ⟨i, hi, rfl⟩ := Option.map_eq_some_iff.1 h
  obtain ⟨hlt, hp, -⟩ := Array.findIdx?_eq_some_iff_getElem.1 hi
  rw [beq_iff_eq] at hp
  rw [name?, blob?, Array.getElem?_eq_getElem hlt]
  exact hp

theorem lt_of_name? (h : s.name? id = some name) : id.index < s.size := by
  obtain ⟨b, hb, -⟩ := Option.bind_eq_some_iff.1 h
  exact (Array.getElem?_eq_some_iff.1 hb).1

theorem Widens.name? (h : Widens s s') (hn : s.name? id = some name) : s'.name? id = some name := by
  obtain ⟨b, hb, hname⟩ := Option.bind_eq_some_iff.1 hn
  obtain ⟨a, hb', -⟩ := h.blob hb
  exact Option.bind_eq_some_iff.2 ⟨_, hb', hname⟩

/-- **A blob is found under its name**, and has contents of it. -/
theorem Copies.named? (h : Copies H s) (hn : s.name? id = some name) :
    s.named? name = some id ∧ H name (s.bytes id) := by
  obtain ⟨other, hother, hholds⟩ := h.file (lt_of_name? hn)
  rw [name?_of_named? hother, Option.some.injEq] at hn
  exact hn ▸ ⟨hother, hholds⟩

theorem Copies.widens (h : Copies H s) (hw : Widens s s')
    (hnew : ∀ id : BlobId, s.size ≤ id.index → id.index < s'.size →
      ∃ name, s'.named? name = some id ∧ H name (s'.bytes id)) :
    Copies H s' := by
  refine ⟨hw.closed h.closed, fun {id} hid => ?_⟩
  rcases Nat.lt_or_ge id.index s.size with hlt | hge
  · obtain ⟨name, hn, hholds⟩ := h.file hlt
    exact ⟨name, hw.named? hn, by rwa [hw.keeps.bytes h.closed hlt]⟩
  · exact hnew id hge hid

theorem Copies.add (h : Copies H s) (hn : s.named? name = none) (hholds : H name contents) :
    Copies H (s.add contents (some name) a) := by
  obtain ⟨hw, hh⟩ := @add_honours s contents name a hn
  obtain ⟨m, hadd⟩ := s.added contents (some name) a
  refine h.widens hw fun id hlow hhigh => ?_
  rw [size_add] at hhigh
  obtain rfl : id = ⟨s.size⟩ := by
    cases id
    exact congrArg _ (Nat.le_antisymm (Nat.le_of_lt_succ hhigh) hlow)
  exact ⟨name, hh.named, by rwa [bytes_of_owned hadd.owned]⟩

theorem runs_find?_copies {r : Option BlobId} (h : Copies H s) (ha : Alignment.Fits chunk a)
    (hr : Runs (find? name a) s r s') : Copies H s' := by
  obtain ⟨-, hsize, -, hnone⟩ := runs_find? hr ha
  rcases runs_find?_honours h.closed hr with ⟨rfl, -, -⟩ | ⟨id, -, hw, -⟩
  · rw [hnone rfl]
    exact h
  · exact h.widens hw fun id hlow hhigh => absurd (hsize ▸ hhigh) (Nat.not_lt.2 hlow)

theorem runs_intern_copies (h : Copies H s) (ha : Alignment.Fits chunk a)
    (hholds : H name contents) (hr : Runs (intern contents (some name) a) s id s') :
    Copies H s' := by
  rcases runs_intern_cases hr with ⟨n, ⟨⟩, hf⟩ | ⟨hn, -, rfl⟩
  · exact runs_find?_copies h ha hf
  · exact h.add (hn name rfl) hholds

end Store

/-! ## Readings -/

/-- A part, as it reads where sections are looked up and blobs are known by `of?`; nothing if
    it leads nowhere. -/
def Part.reading? {F : Type} (sections : Array Section) (of? : BlobId → Option F) :
    Part → Option (Phrase F)
  | .literal bytes => some (.literal bytes)
  | .blob id => (of? id).map .file
  | .level id => do
    let s ← sections[id.index]?
    if s.runtimeFile then none else some (.level s.name)
  | .runtimeFile filename id => do
    let s ← sections[id.index]?
    if s.runtimeFile && s.name == "load:" ++ filename then some (.load filename) else none
  | .align boundary size => some (.align boundary size)
  | .pad count => some (.pad count)

/-- A part, as it reads where blobs are known by their names. -/
abbrev Part.phrase? (sections : Array Section) (store : Store) : Part → Option (Phrase String) :=
  Part.reading? sections store.name?

section

variable {sections : Array Section} {store : Store} {F : Type} {of? : BlobId → Option F}
  {ph : Phrase F}

theorem Part.reading?_blob {id : BlobId} : (Part.blob id).reading? sections of? = some ph ↔
    ∃ f, of? id = some f ∧ ph = .file f := by
  simp only [reading?, Option.map_eq_some_iff, @eq_comm _ ph]

theorem Part.reading?_level {id : SectionId} : (Part.level id).reading? sections of? = some ph ↔
    ∃ s, sections[id.index]? = some s ∧ s.runtimeFile = false ∧ ph = .level s.name := by
  simp only [reading?, Option.bind_eq_bind, Option.bind_eq_some_iff]
  refine exists_congr fun s => and_congr_right fun _ => ?_
  split_ifs with h
  · simp [h]
  · simp [h, eq_comm]

theorem Part.reading?_runtimeFile {filename : String} {id : SectionId} :
    (Part.runtimeFile filename id).reading? sections of? = some ph ↔
      ∃ s, sections[id.index]? = some s ∧ s.runtimeFile = true ∧ s.name = "load:" ++ filename ∧
        ph = .load filename := by
  simp only [reading?, Option.bind_eq_bind, Option.bind_eq_some_iff]
  refine exists_congr fun s => and_congr_right fun _ => ?_
  split_ifs with h
  · rw [Bool.and_eq_true, beq_iff_eq] at h
    simp [h.1, h.2, eq_comm]
  · rw [Bool.and_eq_true, beq_iff_eq, not_and] at h
    simp only [false_iff]
    exact fun ⟨hr, hn, _⟩ => h hr hn

end

/-- A section reads as a passage. -/
structure Section.Reads (sections : Array Section) (store : Store) (s : Section)
    (t : Passage) : Prop where
  parts : s.parts.map (Part.phrase? sections store) = t.phrases.map some
  size : s.size = t.size

/-- A section reads as the lines of the script that have its name expand, and all that it
    leads to is defined. -/
structure Section.Finished (ctx : CompileContext) (sections : Array Section) (store : Store)
    (s : Section) : Prop where
  grounded : ctx.table.Grounded s.name
  expands : ∃ script t, ctx.table.find? s.name = some script ∧ s.alignment = script.alignment ∧
    Expands ctx none {} script.lines t ∧ s.Reads sections store t

section

variable {sections : Array Section} {store : Store} {s : Section} {d : Draft} {t : Passage}
  {p : Part} {ph : Phrase String}

theorem Section.Reads.phrase_of_mem (h : s.Reads sections store t) (hp : p ∈ s.parts) :
    ∃ ph ∈ t.phrases, p.phrase? sections store = some ph := by
  have hmem : p.phrase? sections store ∈ t.phrases.map some := h.parts ▸ List.mem_map_of_mem hp
  obtain ⟨ph, hph, he⟩ := List.mem_map.1 hmem
  exact ⟨ph, hph, he.symm⟩

/-- A part that is put into a section reads as the phrase that is put into its passage. -/
theorem Section.Reads.add (h : d.compiled.Reads sections store t)
    (hp : p.phrase? sections store = some ph) :
    (d.add p).compiled.Reads sections store (t.add ph) := by
  have hfit : (d.compiled.fit p).phrase? sections store = some (t.fit ph) ∧
      (d.compiled.fit p).size = (t.fit ph).size := by
    cases p with
    | align boundary size =>
      cases hp
      simp only [Section.fit, Passage.fit, h.size]
      exact ⟨rfl, rfl⟩
    | literal | pad => cases hp; exact ⟨rfl, rfl⟩
    | blob id =>
      obtain ⟨_, -, rfl⟩ := Part.reading?_blob.1 hp
      exact ⟨hp, rfl⟩
    | level id =>
      obtain ⟨_, -, -, rfl⟩ := Part.reading?_level.1 hp
      exact ⟨hp, rfl⟩
    | runtimeFile filename id =>
      obtain ⟨_, -, -, -, rfl⟩ := Part.reading?_runtimeFile.1 hp
      exact ⟨hp, rfl⟩
  refine ⟨?_, ?_⟩
  · simp only [Draft.add, Passage.add, List.map_append, List.map_cons, List.map_nil, h.parts, hfit.1]
  · simp only [Draft.add, Passage.add, h.size, hfit.2]

/-- So do the parts of another section. -/
theorem Section.Reads.foldl_add {parts : List Part} {phrases : List (Phrase String)}
    (h : d.compiled.Reads sections store t)
    (hp : parts.map (Part.phrase? sections store) = phrases.map some) :
    (parts.foldl Draft.add d).compiled.Reads sections store (phrases.foldl Passage.add t) := by
  induction parts generalizing d t phrases with
  | nil =>
    obtain rfl : phrases = [] := List.map_eq_nil_iff.1 hp.symm
    exact h
  | cons p parts ih =>
    cases phrases with
    | nil => cases hp
    | cons ph phrases =>
      obtain ⟨h1, h2⟩ := List.cons.inj hp
      rw [List.foldl_cons, List.foldl_cons]
      exact ih (h.add h1) h2

end

namespace Compiler

/-! ## Later states -/

/-- What is looked up in a state is found in a later one. -/
structure Later (c c' : Compiler) : Prop where
  store : c.store.Widens c'.store
  sections : ∀ {i : ℕ} {s : Section}, c.sections[i]? = some s →
    ∃ s', c'.sections[i]? = some s' ∧ s'.runtimeFile = s.runtimeFile ∧ s'.name = s.name

variable {ctx : CompileContext} {c c' : Compiler} {s : Section} {t : Passage}

theorem Grows.later {K : Part → Prop} (h : Grows ctx c c' K) : Later c c' :=
  ⟨h.store, fun hs => ⟨_, h.keeps hs, rfl, rfl⟩⟩

theorem Later.phrase? (h : Later c c') {p : Part} {ph : Phrase String}
    (hp : p.phrase? c.sections c.store = some ph) : p.phrase? c'.sections c'.store = some ph := by
  cases p with
  | literal | align | pad => exact hp
  | blob id =>
    rw [Part.reading?_blob] at hp ⊢
    obtain ⟨name, hn, rfl⟩ := hp
    exact ⟨name, h.store.name? hn, rfl⟩
  | level id =>
    rw [Part.reading?_level] at hp ⊢
    obtain ⟨s, hs, hr, rfl⟩ := hp
    obtain ⟨s', hs', hr', hn'⟩ := h.sections hs
    exact ⟨s', hs', hr'.trans hr, by rw [hn']⟩
  | runtimeFile filename id =>
    rw [Part.reading?_runtimeFile] at hp ⊢
    obtain ⟨s, hs, hr, hn, rfl⟩ := hp
    obtain ⟨s', hs', hr', hn'⟩ := h.sections hs
    exact ⟨s', hs', hr'.trans hr, hn'.trans hn, rfl⟩

theorem Later.reads (h : Later c c') (hr : s.Reads c.sections c.store t) :
    s.Reads c'.sections c'.store t := by
  refine ⟨?_, hr.size⟩
  rw [← hr.parts]
  refine List.map_congr_left fun p hp => ?_
  obtain ⟨ph, -, hph⟩ := hr.phrase_of_mem hp
  rw [hph, h.phrase? hph]

theorem Later.finished (h : Later c c') (hf : s.Finished ctx c.sections c.store) :
    s.Finished ctx c'.sections c'.store := by
  obtain ⟨script, t, hs, ha, he, hr⟩ := hf.expands
  exact ⟨hf.grounded, script, t, hs, ha, he, h.reads hr⟩

end Compiler

end LevelBundle
