/-
  LevelBundle — what the sections of a script expand to.

  A section is a text in its own right: its lines and the sections that it inserts say what
  its parts are, without a store, without numbers of sections, and without other sections
  being compiled before or after it.  Files stand for how their paths are shown and sections
  for their names.

  * `Phrase F`: a part, as it reads where `F` says what stands for a file; `Passage`: a row of
    phrases with its size.
  * `ScriptLine.entry?`: what a line adds.
  * `Expands ctx base t lines u`: the lines continue the passage `t` to the passage `u`,
    where `base` is the directory that a `path` line has set.
  * `Expands.unique`: there is one such passage.
  * `Expands.fitted`: every run of zeros up to a boundary ends where it should, however
    often the lines have been inserted elsewhere.
  * `Expands.names`: a section that is referred to is named by a line.
-/
import LevelBundle.Proofs.References

namespace LevelBundle

/-! ## Passages -/

/-- A part, as it reads. -/
inductive Phrase (F : Type) where
  /-- Bytes. -/
  | literal (bytes : Bytes)
  /-- A reference to a file. -/
  | file (of : F)
  /-- A reference to a section. -/
  | level (name : String)
  /-- A reference to a file that is loaded on demand. -/
  | load (filename : String)
  /-- Zeros up to a multiple of `boundary`. -/
  | align (boundary size : UInt32)
  /-- Zeros. -/
  | pad (count : UInt32)
  deriving DecidableEq, Repr

/-- The number of bytes of a phrase. -/
def Phrase.size {F : Type} : Phrase F → UInt32
  | literal bytes => bytes.length.toUInt32
  | file _ | level _ | load _ => wordSize
  | align _ size => size
  | pad count => count

/-- A part, as it reads if something else stands for a file. -/
def Phrase.map {F G : Type} (f : F → G) : Phrase F → Phrase G
  | literal bytes => .literal bytes
  | file of => .file (f of)
  | level name => .level name
  | load filename => .load filename
  | align boundary size => .align boundary size
  | pad count => .pad count

/-- A row of phrases, where files stand for how their paths are shown. -/
structure Passage where
  /-- The phrases. -/
  phrases : List (Phrase String) := []
  /-- The sum of the sizes of the phrases. -/
  size : UInt32 := 0
  deriving DecidableEq, Repr

namespace Passage

/-- The zeros that an alignment takes at the end of a passage. -/
def fit (t : Passage) : Phrase String → Phrase String
  | .align boundary _ => .align boundary (roundUp t.size boundary - t.size)
  | p => p

/-- A passage with one more phrase. -/
def add (t : Passage) (p : Phrase String) : Passage :=
  { phrases := t.phrases ++ [t.fit p], size := addSizes t.size (t.fit p).size }

/-- The size of a row of phrases. -/
def length (phrases : List (Phrase String)) : UInt32 := phrases.foldl (fun n p => addSizes n p.size) 0

/-- Every alignment ends at its boundary, measured from the start of the passage. -/
structure Fitted (t : Passage) : Prop where
  size : t.size = length t.phrases
  align : ∀ {l boundary n l'}, t.phrases = l ++ .align boundary n :: l' →
    n = roundUp (length l) boundary - length l

variable {t : Passage}

theorem fitted_empty : Fitted {} := by
  refine ⟨rfl, fun {l b n l'} h => ?_⟩
  simp at h

/-- **A phrase more keeps a passage fitted**: an alignment is worked out anew. -/
theorem Fitted.add (h : t.Fitted) (p : Phrase String) : (t.add p).Fitted := by
  refine ⟨?_, fun {l boundary n l'} he => ?_⟩
  · simp only [Passage.add, length, List.foldl_append, List.foldl_cons, List.foldl_nil]
    rw [h.size, length]
  · -- the alignment is one of the old phrases, or the new one at the end
    rcases List.eq_nil_or_concat l' with rfl | ⟨l'', q, rfl⟩
    · obtain ⟨rfl, hlast⟩ := List.append_inj' (show t.phrases ++ [t.fit p] = _ from he) rfl
      rw [← h.size]
      cases p with
      | align =>
        obtain ⟨rfl, rfl⟩ := Phrase.align.inj (List.singleton_inj.1 hlast)
        rfl
      | literal | file | level | load | pad => cases hlast
    · rw [List.concat_eq_append, ← List.cons_append, ← List.append_assoc] at he
      exact h.align (List.append_inj' he rfl).1

theorem Fitted.foldl_add (h : t.Fitted) (phrases : List (Phrase String)) :
    (phrases.foldl Passage.add t).Fitted := by
  induction phrases generalizing t with
  | nil => exact h
  | cons p phrases ih => exact ih (h.add p)

theorem level_mem_add {p : Phrase String} {name : String} :
    .level name ∈ (t.add p).phrases ↔ .level name ∈ t.phrases ∨ p = .level name := by
  rw [add, List.mem_append, List.mem_singleton]
  cases p <;> simp [fit, eq_comm]

theorem level_mem_foldl_add {phrases : List (Phrase String)} {name : String} :
    .level name ∈ (phrases.foldl add t).phrases ↔
      .level name ∈ t.phrases ∨ .level name ∈ phrases := by
  induction phrases generalizing t with
  | nil => simp
  | cons p phrases ih => rw [List.foldl_cons, ih, level_mem_add, List.mem_cons, or_assoc, eq_comm]

end Passage

/-! ## Lines -/

/-- What a line adds to its section. -/
inductive Entry where
  /-- A phrase. -/
  | phrase (p : Phrase String)
  /-- The directory for the lines that follow. -/
  | directory (dir : Path)
  /-- The phrases of another section. -/
  | insertion (target : String)

/-- What a line adds, where `base` is the directory that a `path` line has set. -/
def ScriptLine.entry? (ctx : CompileContext) (base : Option Path) (line : ScriptLine) :
    Option Entry :=
  match Keyword.ofName? line.keyword with
  | some .file => do
    let text ← (line.textAt 0).toOption
    let path ← (Compiler.resolve ctx base line.origin text).toOption
    return .phrase (.file path.text)
  | some .level => line.only?.map fun target => .phrase (.level target)
  | some .load => line.only?.map fun filename => .phrase (.load filename)
  | some .string => line.allText.toOption.map fun text => .phrase (.literal (Utf8.encode text))
  | some .binc => do
    let path ← (Compiler.resolve ctx base line.origin (← line.only?)).toOption
    let bytes ← (ctx.files.read path).toOption
    return .phrase (.literal bytes)
  | some .align =>
    (line.intAt 0 1 ctx.chunkSize.toNat).toOption.map fun n => .phrase (.align (UInt32.ofInt n) 0)
  | some .pad =>
    (line.intAt 0 0 ctx.chunkSize.toNat).toOption.map fun n => .phrase (.pad (UInt32.ofInt n))
  | some .path => line.directory?.map .directory
  | some .insert => line.only?.map .insertion
  | some keyword =>
    (line.allNumbers keyword ctx.order).toOption.map fun bytes => .phrase (.literal bytes)
  | none => none

/-- Lines continue a passage, from an empty one on for a section that is inserted. -/
inductive Expands (ctx : CompileContext) :
    Option Path → Passage → List ScriptLine → Passage → Prop
  | done {base : Option Path} {t : Passage} : Expands ctx base t [] t
  | phrase {base : Option Path} {t u : Passage} {line : ScriptLine} {rest : List ScriptLine}
    {p : Phrase String} : line.entry? ctx base = some (.phrase p) →
    Expands ctx base (t.add p) rest u → Expands ctx base t (line :: rest) u
  | directory {base : Option Path} {t u : Passage} {line : ScriptLine} {rest : List ScriptLine}
    {dir : Path} : line.entry? ctx base = some (.directory dir) →
    Expands ctx (some dir) t rest u → Expands ctx base t (line :: rest) u
  | insertion {base : Option Path} {t u v : Passage} {line : ScriptLine}
    {rest : List ScriptLine} {target : String} {script : ScriptSection} :
    line.entry? ctx base = some (.insertion target) → ctx.table.find? target = some script →
    Expands ctx none {} script.lines v → Expands ctx base (v.phrases.foldl Passage.add t) rest u →
    Expands ctx base t (line :: rest) u

namespace Expands

variable {ctx : CompileContext} {base : Option Path} {t u : Passage} {lines : List ScriptLine}

/-- **Lines expand to one passage.** -/
theorem unique {u' : Passage} (h : Expands ctx base t lines u) (h' : Expands ctx base t lines u') :
    u = u' := by
  induction h generalizing u' with
  | done => cases h'; rfl
  | phrase he _ ih =>
    cases h' with
    | phrase he' h' =>
      rw [he] at he'
      cases he'
      exact ih h'
    | directory he' _ => rw [he] at he'; cases he'
    | insertion he' _ _ _ => rw [he] at he'; cases he'
  | directory he _ ih =>
    cases h' with
    | phrase he' _ => rw [he] at he'; cases he'
    | directory he' h' =>
      rw [he] at he'
      cases he'
      exact ih h'
    | insertion he' _ _ _ => rw [he] at he'; cases he'
  | insertion he hs _ _ ihs ih =>
    cases h' with
    | phrase he' _ => rw [he] at he'; cases he'
    | directory he' _ => rw [he] at he'; cases he'
    | insertion he' hs' hv' h' =>
      rw [he] at he'
      cases he'
      rw [hs] at hs'
      cases hs'
      obtain rfl := ihs hv'
      exact ih h'

/-- **Alignments end where they should**, also those of sections that are inserted. -/
theorem fitted (h : Expands ctx base t lines u) (ht : t.Fitted) : u.Fitted := by
  induction h with
  | done => exact ht
  | phrase _ _ ih => exact ih (ht.add _)
  | directory _ _ ih => exact ih ht
  | insertion _ _ _ _ _ ih => exact ih (ht.foldl_add _)

end Expands

theorem ScriptLine.entry?_level {ctx : CompileContext} {base : Option Path} {line : ScriptLine}
    {target : String} (h : line.entry? ctx base = some (.phrase (.level target))) :
    line.Names .level target := by
  unfold entry? at h
  split at h <;> simp_all [Names, Option.bind_eq_some_iff]

theorem ScriptLine.entry?_insertion {ctx : CompileContext} {base : Option Path}
    {line : ScriptLine} {target : String} (h : line.entry? ctx base = some (.insertion target)) :
    line.Names .insert target := by
  unfold entry? at h
  split at h <;> simp_all [Names, Option.bind_eq_some_iff]

/-- **A section that is referred to** is named by a line of the section, or of one that is
    inserted. -/
theorem Expands.names {ctx : CompileContext} {base : Option Path} {t u : Passage}
    {lines : List ScriptLine} (h : Expands ctx base t lines u) {name target : String}
    {script : ScriptSection} (hs : ctx.table.find? name = some script)
    (hl : ∀ line ∈ lines, line ∈ script.lines) (hm : .level target ∈ u.phrases) :
    .level target ∈ t.phrases ∨ Relation.TransGen ctx.table.Names name target := by
  induction h generalizing name script with
  | done => exact Or.inl hm
  | phrase he _ ih =>
    have hline := hl _ (List.mem_cons_self)
    rcases ih hs (fun l hmem => hl l (List.mem_cons_of_mem _ hmem)) hm with ht | hr
    · rcases Passage.level_mem_add.1 ht with ht | rfl
      · exact Or.inl ht
      · exact Or.inr (.single ⟨script, hs, _, hline, Or.inl (ScriptLine.entry?_level he)⟩)
    · exact Or.inr hr
  | directory _ _ ih => exact ih hs (fun l hmem => hl l (List.mem_cons_of_mem _ hmem)) hm
  | @insertion _ _ _ _ line _ inner _ he hs' _ _ ihs ih =>
    have hnames : ctx.table.Names name inner :=
      ⟨script, hs, line, hl _ List.mem_cons_self, Or.inr (ScriptLine.entry?_insertion he)⟩
    rcases ih hs (fun l hmem => hl l (List.mem_cons_of_mem _ hmem)) hm with ht | hr
    · rcases Passage.level_mem_foldl_add.1 ht with ht | hv
      · exact Or.inl ht
      · rcases ihs hs' (fun _ h => h) hv with hnil | hr
        · cases hnil
        · exact Or.inr (.head hnames hr)
    · exact Or.inr hr

end LevelBundle
