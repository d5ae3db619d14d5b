/-
  LevelBundle — what appending parts keeps true of a section.

  * `Grain chunk pad`: a chunk size and a granularity that settings may have.
  * `Section.Sound chunk pad s`: the size is the sum of the sizes of the parts, the
    references lie on whole words, and the section fits in a chunk.
  * `Sound.push`: a part that is small enough keeps a section sound, provided that
    it still fits.  Sizes are computed in words and end at the greatest one, so
    the bound on the part is what keeps the check against the chunk honest.
-/
import LevelBundle.Program.Section
import LevelBundle.Proofs.Rounding
import LevelBundle.Proofs.StoreSound
import LevelBundle.Proofs.Written

namespace LevelBundle

/-- A chunk size and a granularity of sizes that go together. -/
structure Grain (chunk pad : UInt32) : Prop where
  le_chunk : 16 ≤ chunk.toNat
  chunk_le : chunk.toNat ≤ 2 ^ 30
  chunk_words : 4 ∣ chunk.toNat
  pad_pos : 0 < pad.toNat
  pad_le : pad.toNat ≤ chunk.toNat
  pad_words : 4 ∣ pad.toNat

/-- A part whose size does not wrap. -/
def Part.Small (chunk : UInt32) : Part → Prop
  | .literal bytes => bytes.length < 2 ^ 31
  | .align boundary _ => Alignment.valid boundary ∧ boundary ≤ chunk
  | .pad count => count ≤ chunk
  | .blob _ | .level _ | .runtimeFile _ _ => True

theorem Part.Small.length_literal {chunk : UInt32} {bytes : Bytes}
    (h : (Part.literal bytes).Small chunk) : bytes.length = (Part.literal bytes).size.toNat := by
  have h : bytes.length < 2 ^ 31 := h
  show bytes.length = bytes.length.toUInt32.toNat
  rw [toNat_toUInt32 (by omega)]

theorem Alignment.valid_cases {a : UInt32} (h : valid a = true) :
    a.toNat = 1 ∨ a.toNat = 2 ∨ (4 ≤ a.toNat ∧ 4 ∣ a.toNat) := by
  simp only [valid, Bool.and_eq_true, Bool.or_eq_true, beq_iff_eq, bne_iff_ne, ne_eq] at h
  obtain ⟨h0, (rfl | rfl) | h4⟩ := h
  · exact Or.inl rfl
  · exact Or.inr (Or.inl rfl)
  · have h4 : a.toNat % 4 = 0 := by rw [← UInt32.toNat_inj, UInt32.toNat_mod] at h4; exact h4
    have h0 : a.toNat ≠ 0 := fun h => h0 (UInt32.toNat_inj.1 h)
    exact Or.inr (Or.inr ⟨by omega, Nat.dvd_of_mod_eq_zero h4⟩)

theorem Alignment.pos_of_valid {a : UInt32} (h : valid a = true) : 0 < a.toNat := by
  rcases valid_cases h with h | h | h <;> omega

/-- The bytes of the parts in front of and in a row of parts. -/
def Part.total (parts : List Part) : ℕ := (parts.map fun p => p.size.toNat).sum

theorem Part.total_append (l l' : List Part) : total (l ++ l') = total l + total l' := by
  rw [total, List.map_append, List.sum_append]; rfl

/-! ## Offsets of parts -/

/-- The offset of a part is the size of the parts before it. -/
theorem mem_partOffsets {start : UInt32} {parts : List Part} {e : UInt32 × Part}
    (hs : start.toNat + Part.total parts < 2 ^ 32) :
    e ∈ partOffsets start parts ↔
      ∃ l l', parts = l ++ e.2 :: l' ∧ e.1.toNat = start.toNat + Part.total l := by
  induction parts generalizing start with
  | nil => simp [partOffsets]
  | cons p rest ih =>
    have ht : Part.total (p :: rest) = p.size.toNat + Part.total rest := by simp [Part.total]
    have hsum : (start + p.size).toNat = start.toNat + p.size.toNat := by
      rw [UInt32.toNat_add, Nat.mod_eq_of_lt]; omega
    rw [partOffsets, List.mem_cons, ih (by omega)]
    constructor
    · rintro (rfl | ⟨l, l', rfl, he⟩)
      · exact ⟨[], rest, rfl, by simp [Part.total]⟩
      · refine ⟨p :: l, l', rfl, ?_⟩
        rw [he, hsum, Part.total, Part.total, List.map_cons, List.sum_cons]; omega
    · rintro ⟨l, l', h, he⟩
      cases l with
      | nil =>
        simp only [List.nil_append, List.cons.injEq] at h
        obtain ⟨rfl, rfl⟩ := h
        refine Or.inl (Prod.ext (UInt32.toNat_inj.1 ?_) rfl)
        simpa [Part.total] using he
      | cons q l =>
        simp only [List.cons_append, List.cons.injEq] at h
        obtain ⟨rfl, rfl⟩ := h
        refine Or.inr ⟨l, l', rfl, ?_⟩
        rw [he, hsum, Part.total, Part.total, List.map_cons, List.sum_cons]; omega

namespace Section

/-- What is true of a section that nothing has been placed from. -/
structure Sound (chunk pad : UInt32) (s : Section) : Prop where
  /-- The size is that of the parts. -/
  size_eq : s.size.toNat = Part.total s.parts
  /-- No size has wrapped. -/
  small : ∀ p ∈ s.parts, p.Small chunk
  /-- References lie on whole words. -/
  aligned : ∀ l p l', s.parts = l ++ p :: l' → p.isReference = true → 4 ∣ Part.total l
  /-- The section fits in a chunk. -/
  size_le : s.size.toNat ≤ chunk.toNat
  /-- So does what is kept for it. -/
  fits : roundUp s.size pad ≤ chunk
  /-- The alignment can be honoured. -/
  alignment : Alignment.Fits chunk s.alignment
  /-- The section is not placed. -/
  unplaced : s.offset = none

variable {chunk pad : UInt32} {s s' : Section}

theorem Sound.mem_offsets (g : Grain chunk pad) (h : Sound chunk pad s) {e : UInt32 × Part} :
    e ∈ s.offsets ↔ ∃ l l', s.parts = l ++ e.2 :: l' ∧ e.1.toNat = Part.total l := by
  have h1 := h.size_eq; have h2 := h.size_le; have h3 := g.chunk_le
  rw [offsets, mem_partOffsets (by rw [UInt32.toNat_zero]; omega)]
  simp only [UInt32.toNat_zero, Nat.zero_add]

/-- An empty section is sound. -/
theorem sound_empty (g : Grain chunk pad) {name : String} {alignment : Option UInt32}
    {origin : Option Origin} (ha : Alignment.Fits chunk alignment) :
    Sound chunk pad { name, alignment, origin } where
  size_eq := rfl
  small := nofun
  aligned l p l' h := by simp at h
  size_le := Nat.zero_le _
  fits := by
    rw [roundUp_of_dvd g.pad_pos (Nat.dvd_zero _)]
    exact UInt32.le_iff_toNat_le.2 (Nat.zero_le _)
  alignment := ha
  unplaced := rfl

theorem addSizes_toNat {a b : UInt32} (h : a.toNat + b.toNat < 2 ^ 32) :
    (addSizes a b).toNat = a.toNat + b.toNat := by
  have hab : (a + b).toNat = a.toNat + b.toNat := by
    rw [UInt32.toNat_add, Nat.mod_eq_of_lt h]
  rw [addSizes, if_neg, hab]
  rw [UInt32.lt_iff_toNat_lt, hab]
  omega

/-- What a part adds to a section. -/
theorem Sound.size_fit (g : Grain chunk pad) (h : Sound chunk pad s) {p : Part}
    (hp : p.Small chunk) : (s.fit p).size.toNat < 2 ^ 31 ∧ (s.fit p).Small chunk ∧
      (s.fit p).isReference = p.isReference := by
  have hc := g.chunk_le
  cases p with
  | literal bytes =>
    have hl : bytes.length < 2 ^ 31 := hp
    refine ⟨?_, hp, rfl⟩
    show bytes.length.toUInt32.toNat < _
    rw [toNat_toUInt32 (by omega)]
    exact hl
  | blob | level | runtimeFile => exact ⟨(by decide : wordSize.toNat < 2 ^ 31), trivial, rfl⟩
  | align boundary size =>
    refine ⟨?_, hp, rfl⟩
    obtain ⟨hv, hb⟩ := hp
    have hb := UInt32.le_iff_toNat_le.1 hb
    have hs := h.size_le
    have h0 := Alignment.pos_of_valid hv
    have hlt := roundUp_lt (v := s.size) h0 (by omega)
    have hle := le_roundUp (v := s.size) h0 (by omega)
    show (roundUp s.size boundary - s.size).toNat < _
    rw [UInt32.toNat_sub_of_le _ _ (UInt32.le_iff_toNat_le.2 hle)]
    omega
  | pad count =>
    have hb := UInt32.le_iff_toNat_le.1 (show count ≤ chunk from hp)
    exact ⟨by show count.toNat < _; omega, hp, rfl⟩

/-- **A small part that still fits keeps a section sound.** -/
theorem Sound.push (g : Grain chunk pad) (h : Sound chunk pad s) {p : Part} (hp : p.Small chunk)
    (hs : s.push p = .ok s') (hfit : ¬ chunk < roundUp s'.size pad) :
    Sound chunk pad s' ∧ s' = { s with parts := s.parts ++ [s.fit p], size := s'.size } := by
  obtain ⟨hlt, hsmall, href⟩ := h.size_fit g hp
  have hc := g.chunk_le; have hpad := g.pad_le; have hle := h.size_le
  unfold Section.push at hs
  simp only at hs
  split_ifs at hs with hw
  cases hs
  have hsize : (addSizes s.size (s.fit p).size).toNat = s.size.toNat + (s.fit p).size.toNat :=
    addSizes_toNat (by omega)
  have htotal : Part.total (s.parts ++ [s.fit p]) = s.size.toNat + (s.fit p).size.toNat := by
    rw [Part.total_append, h.size_eq]; simp [Part.total]
  have hfit' : roundUp (addSizes s.size (s.fit p).size) pad ≤ chunk := UInt32.not_lt.1 hfit
  refine ⟨⟨hsize.trans htotal.symm, ?_, ?_, ?_, hfit', h.alignment, h.unplaced⟩, rfl⟩
  · intro q hq
    rcases List.mem_append.1 hq with hq | hq
    · exact h.small q hq
    · rw [List.mem_singleton.1 hq]; exact hsmall
  · intro l q l' he hq
    -- the part is one of the old ones, or the new one at the end
    have he : s.parts ++ [s.fit p] = l ++ q :: l' := he
    rcases List.eq_nil_or_concat l' with rfl | ⟨l'', q', rfl⟩
    · obtain ⟨rfl, hlast⟩ := List.append_inj' he rfl
      cases hlast
      rw [← h.size_eq]
      by_contra hn
      refine hw ⟨hq, fun h0 => hn ?_⟩
      rw [← UInt32.toNat_inj, UInt32.toNat_mod] at h0
      exact Nat.dvd_of_mod_eq_zero h0
    · rw [List.concat_eq_append, ← List.cons_append, ← List.append_assoc] at he
      exact h.aligned l q l'' (List.append_inj' he rfl).1 hq
  · have := le_roundUp (v := addSizes s.size (s.fit p).size) g.pad_pos (by omega)
    exact this.trans (UInt32.le_iff_toNat_le.1 hfit')

/-! ## Records -/

theorem size_record {filename : String} (h : filename.utf8ByteSize < 2 ^ 31) :
    (record filename).size.toNat = filename.utf8ByteSize + 5 := by
  have hl : (Utf8.encode filename ++ [0]).length = filename.utf8ByteSize + 1 := by
    rw [List.length_append, Utf8.length_encode]; rfl
  simp only [record, recordParts, List.map_cons, List.map_nil, List.foldr_cons, List.foldr_nil,
    Part.size, hl, UInt32.add_zero]
  rw [UInt32.toNat_add, toNat_toUInt32 (n := [_, _, _, _].length) (by decide),
    toNat_toUInt32 (by omega)]
  simp only [List.length_cons, List.length_nil]
  omega

/-- The record of a file is sound if it fits. -/
theorem sound_record (g : Grain chunk pad) {filename : String}
    (h : filename.utf8ByteSize < 2 ^ 30) (hfit : ¬ chunk < roundUp (record filename).size pad) :
    Sound chunk pad (record filename) := by
  have hc := g.chunk_le; have hpad := g.pad_le
  have hsize := size_record (show filename.utf8ByteSize < 2 ^ 31 by omega)
  have hfit' : roundUp (record filename).size pad ≤ chunk := UInt32.not_lt.1 hfit
  have hl : (Utf8.encode filename ++ [0]).length = filename.utf8ByteSize + 1 := by
    rw [List.length_append, Utf8.length_encode]; rfl
  refine ⟨?_, ?_, ?_, ?_, hfit', nofun, rfl⟩
  · rw [hsize]
    simp only [record, recordParts, Part.total, List.map_cons, List.map_nil, List.sum_cons,
      List.sum_nil, Part.size, hl]
    rw [toNat_toUInt32 (n := [_, _, _, _].length) (by decide), toNat_toUInt32 (by omega)]
    simp only [List.length_cons, List.length_nil]
    omega
  · intro p hp
    simp only [record, recordParts, List.mem_cons, List.not_mem_nil, or_false] at hp
    rcases hp with rfl | rfl
    · exact (by decide : 4 < 2 ^ 31)
    · show (Utf8.encode filename ++ [0]).length < _
      omega
  · intro l p l' he hp
    have : p ∈ (record filename).parts := by rw [he]; simp
    simp only [record, recordParts, List.mem_cons, List.not_mem_nil, or_false] at this
    rcases this with rfl | rfl <;> cases hp
  · have := le_roundUp (v := (record filename).size) g.pad_pos (by omega)
    exact this.trans (UInt32.le_iff_toNat_le.1 hfit')

end Section

end LevelBundle
