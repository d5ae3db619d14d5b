/-
  LevelBundle — compiled sections are well formed.

  Sizes are computed in words and end at the greatest one, and an alignment is worked out
  when its part is appended, anew for each section that its line is inserted into.

  * `Section.WellFormed chunk pad s`: the size is the sum of the sizes of the parts,
    references lie on whole words, alignments end at the least boundary, and the section
    fits in a chunk, all in numbers that do not wrap.
  * `compile_wellFormed`: all sections of a program are well formed.
-/
import LevelBundle.Proofs.Expanded
import LevelBundle.Proofs.PackedFile
import Mathlib.Order.Bounds.Basic

namespace LevelBundle

/-! ## Least multiples -/

theorem isLeast_roundUp {v s : UInt32} (hs : 0 < s.toNat) (h : v.toNat + s.toNat ≤ 2 ^ 32) :
    IsLeast {m | s.toNat ∣ m ∧ v.toNat ≤ m} (roundUp v s).toNat :=
  ⟨⟨dvd_roundUp hs h, le_roundUp hs h⟩, fun _ hm => roundUp_le hs h hm.2 hm.1⟩

/-- A section that a bundle can hold. -/
structure Section.WellFormed (chunk pad : UInt32) (s : Section) : Prop where
  /-- The size is that of the parts. -/
  size : s.size.toNat = Part.total s.parts
  /-- References lie on whole words. -/
  reference : ∀ {l p l'}, s.parts = l ++ p :: l' → p.isReference = true → 4 ∣ Part.total l
  /-- An alignment ends at the least multiple of its boundary that is at least its start. -/
  align : ∀ {l boundary n l'}, s.parts = l ++ .align boundary n :: l' →
    IsLeast {m | boundary.toNat ∣ m ∧ Part.total l ≤ m} (Part.total l + n.toNat)
  /-- The size, rounded up to the granularity, is at most that of a chunk. -/
  fits : ∃ m, IsLeast {m | pad.toNat ∣ m ∧ s.size.toNat ≤ m} m ∧ m ≤ chunk.toNat

/-! ## Sizes of passages -/

section

variable {sections : Array Section} {store : Store} {chunk pad : UInt32} {s : Section}

theorem Part.size_of_phrase? {p : Part} {ph : Phrase String} (h : p.phrase? sections store = some ph) :
    p.size = ph.size := by
  cases p with
  | literal | align | pad => cases h; rfl
  | blob id =>
    obtain ⟨_, -, rfl⟩ := reading?_blob.1 h
    rfl
  | level id =>
    obtain ⟨_, -, -, rfl⟩ := reading?_level.1 h
    rfl
  | runtimeFile filename id =>
    obtain ⟨_, -, -, -, rfl⟩ := reading?_runtimeFile.1 h
    rfl

theorem Passage.toNat_foldl_addSizes {parts : List Part} {phrases : List (Phrase String)} {n : UInt32}
    (h : parts.map (Part.phrase? sections store) = phrases.map some)
    (hlt : n.toNat + Part.total parts < 2 ^ 32) :
    (phrases.foldl (fun n p => addSizes n p.size) n).toNat = n.toNat + Part.total parts := by
  induction parts generalizing n phrases with
  | nil =>
    obtain rfl : phrases = [] := List.map_eq_nil_iff.1 h.symm
    rfl
  | cons p parts ih =>
    cases phrases with
    | nil => cases h
    | cons ph phrases =>
      obtain ⟨hp, hrest⟩ := List.cons.inj h
      have htotal : Part.total (p :: parts) = p.size.toNat + Part.total parts := by
        simp [Part.total]
      have hsum : (addSizes n ph.size).toNat = n.toNat + p.size.toNat := by
        rw [← Part.size_of_phrase? hp, Section.addSizes_toNat (by omega)]
      rw [List.foldl_cons, ih hrest (by omega), hsum, htotal, Nat.add_assoc]

/-- **Phrases are as long as the parts that read so**, if no sum passes the greatest word. -/
theorem Passage.toNat_length {parts : List Part} {phrases : List (Phrase String)}
    (h : parts.map (Part.phrase? sections store) = phrases.map some)
    (hlt : Part.total parts < 2 ^ 32) : (length phrases).toNat = Part.total parts := by
  rw [length, toNat_foldl_addSizes h (by rwa [UInt32.toNat_zero, Nat.zero_add]), UInt32.toNat_zero,
    Nat.zero_add]

/-- **An alignment of a sound section ends at the least boundary**, if the section reads as a
    passage whose alignments end where they should. -/
theorem Section.Sound.align_isLeast (g : Grain chunk pad) (h : s.Sound chunk pad) {t : Passage}
    (hr : s.Reads sections store t) (ht : t.Fitted) {l l' : List Part} {boundary n : UInt32}
    (hparts : s.parts = l ++ .align boundary n :: l') :
    IsLeast {m | boundary.toNat ∣ m ∧ Part.total l ≤ m} (Part.total l + n.toNat) := by
  have hchunk := g.chunk_le
  have hsize := h.size_eq
  have hle := h.size_le
  have htotal : Part.total s.parts = Part.total l + (n.toNat + Part.total l') := by
    rw [hparts, Part.total_append]
    simp [Part.total, Part.size]
  obtain ⟨hvalid, hb⟩ := h.small (.align boundary n) (by simp [hparts])
  have hb := UInt32.le_iff_toNat_le.1 hb
  have hpos := Alignment.pos_of_valid hvalid
  -- the phrases before the alignment are as long as the parts before it
  have hsplit := hr.parts.symm
  rw [hparts, List.map_append, List.map_cons] at hsplit
  obtain ⟨l₁, rest, hphrases, hl, hrest⟩ := List.map_eq_append_iff.1 hsplit
  obtain ⟨ph, l₂, rfl, hph, -⟩ := List.map_eq_cons_iff.1 hrest
  cases hph
  have hw : (Passage.length l₁).toNat = Part.total l := Passage.toNat_length hl.symm (by omega)
  have hround : (Passage.length l₁).toNat + boundary.toNat ≤ 2 ^ 32 := by omega
  have hn := ht.align hphrases
  have hend : Part.total l + n.toNat = (roundUp (Passage.length l₁) boundary).toNat := by
    have hge := le_roundUp hpos hround
    rw [hn, UInt32.toNat_sub_of_le _ _ (UInt32.le_iff_toNat_le.2 hge), hw]
    omega
  rw [hend, ← hw]
  exact isLeast_roundUp hpos hround

/-- **A sound section is well formed** if its alignments end where they should. -/
theorem Section.Sound.wellFormed (g : Grain chunk pad) (h : s.Sound chunk pad)
    (halign : ∀ {l boundary n l'}, s.parts = l ++ .align boundary n :: l' →
      IsLeast {m | boundary.toNat ∣ m ∧ Part.total l ≤ m} (Part.total l + n.toNat)) :
    s.WellFormed chunk pad := by
  have hchunk := g.chunk_le
  have hpad := g.pad_le
  have hle := h.size_le
  exact ⟨h.size_eq, fun hparts hp => h.aligned _ _ _ hparts hp, halign,
    _, isLeast_roundUp g.pad_pos (by omega), UInt32.le_iff_toNat_le.1 h.fits⟩

end

/-! ## Programs -/

variable {s : Settings} {files : Files} {table : SectionTable} {p : Program}

theorem Program.Fresh.finished (h : p.Fresh s files table) :
    p.Finished (Compiler.context s table files) := by
  obtain ⟨calls, c, root, hcalls, hc⟩ := h.compiled
  obtain ⟨hf, hstack⟩ := Compiler.faithful_compileAll hcalls (Compiler.faithful_start s)
  exact (hf.compile hstack hc).1

/-- **All sections of a program are well formed.** -/
theorem compile_wellFormed (h : p.Fresh s files table) :
    ∀ sec ∈ p.sections, sec.WellFormed s.pack.chunkSize s.padSize := by
  intro sec hmem
  obtain ⟨i, hi⟩ := Array.getElem?_of_mem hmem
  obtain ⟨hbounded, hsound⟩ := h.sound
  have hsec : sec.Sound s.pack.chunkSize s.padSize := hsound.state.sections hi
  have g : Grain s.pack.chunkSize s.padSize := hbounded.grain
  refine hsec.wellFormed g fun {l boundary n l'} hparts => ?_
  cases hrt : sec.runtimeFile with
  | false =>
    obtain ⟨-, script, t, -, -, hexp, hreads⟩ := h.finished.finished hi hrt
    exact hsec.align_isLeast g hreads (hexp.fitted Passage.fitted_empty) hparts
  | true =>
    -- the record of a file has no alignment
    obtain ⟨filename, rfl⟩ := h.finished.record hi hrt
    have hpart : Part.align boundary n ∈ (Section.record filename).parts := by simp [hparts]
    simp [Section.record, Section.recordParts] at hpart

/-! ## An alignment that is inserted twice -/

namespace Demo

/-- An alignment takes one byte of the root, behind three others, and three in its own
    section. -/
def nested : String :=
  "[root]\nbyte 1\ninsert a\nload x\n[a]\nbyte 2\ninsert b\n[b]\nbyte 3\nalign 4\n"

/-- The script is the only file. -/
def nestedFiles : Files where
  isFile p := p == path
  read p := if p = path then .ok (Utf8.encode nested) else .error (.absent p)

theorem nested_buildable : Buildable settings nestedFiles path where
  valid := by decide +kernel
  script_lt {text} h := by
    have hread : nestedFiles.readText path = .ok nested := by decide +kernel
    rw [hread] at h
    cases h
    decide +kernel
  file_lt {p bytes} h := by
    simp only [nestedFiles] at h
    split_ifs at h
    cases h
    decide +kernel

/-- The sections of the script. -/
def nestedTable : SectionTable :=
  ((Reader.readPath settings.readOptions nestedFiles path).run {}).2.table

/-- What becomes of the alignment. -/
def nestedParts (p : Program) : List (List Part) :=
  p.sections.toList.map fun s => s.parts.filter fun
    | .align .. => true
    | _ => false

end Demo

/-- The sections of a script with nested `insert` lines. -/
theorem compile_wellFormed_demo : ∃ p, p.Fresh Demo.settings Demo.nestedFiles Demo.nestedTable ∧
    Demo.nestedParts p = [[.align 4 1], [.align 4 2], [.align 4 3], []] ∧
    ∀ sec ∈ p.sections, sec.WellFormed 64 4 := by
  have hok : ((Reader.readPath Demo.settings.readOptions Demo.nestedFiles Demo.path).run
      {}).1.toOption.isSome = true := by decide +kernel
  have hparts : ((Compiler.compile
      (Compiler.context Demo.settings Demo.nestedTable Demo.nestedFiles)
      (Compiler.start Demo.settings) "root").toOption.map Demo.nestedParts) =
        some [[.align 4 1], [.align 4 2], [.align 4 3], []] := by decide +kernel
  obtain ⟨u, hu⟩ := Option.isSome_iff_exists.1 hok
  obtain ⟨p, hp, hnested⟩ := Option.map_eq_some_iff.1 hparts
  have hfresh : p.Fresh Demo.settings Demo.nestedFiles Demo.nestedTable :=
    Program.fresh_of_path Demo.nested_buildable (Prod.ext (ok_of_toOption hu) rfl)
      (ok_of_toOption hp)
  exact ⟨p, hfresh, hnested, compile_wellFormed hfresh⟩

end LevelBundle
