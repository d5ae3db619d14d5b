/-
  LevelBundle — positions and the places they name.

  * `Addressing.pack a block offset flags` is the word that `encode` writes;
    `encode_eq_ok` says when it does.
  * The offset takes `bits` bits, which is enough for every offset in a chunk, so
    the three parts of a word share no bit (`toNat_pack`) and `block_pack`,
    `offset_pack` and `flags_pack` give them back.
-/
import LevelBundle.Position
import LevelBundle.Proofs.WordBytes

namespace LevelBundle

/-! ## Bits of words -/

theorem shiftLeft_or {b low k : ℕ} (h : low < 2 ^ k) : (b * 2 ^ k) ||| low = b * 2 ^ k + low := by
  rw [← Nat.shiftLeft_eq, ← Nat.shiftLeft_add_eq_or_of_lt h]

theorem toNat_and_three (x : UInt32) : (x &&& 3).toNat = x.toNat % 4 := by
  rw [UInt32.toNat_and]
  exact Nat.and_two_pow_sub_one_eq_mod x.toNat 2

theorem toNat_and_not_three (x : UInt32) : (x &&& ~~~ 3).toNat = x.toNat / 4 * 4 := by
  have hx := x.toNat_lt
  have hand : (x &&& ~~~ 3).toNat = x.toNat &&& 4294967292 := UInt32.toNat_and x _
  have hmod : (x.toNat &&& 4294967292) % 2 ^ 2 = 0 := by
    rw [Nat.and_mod_two_pow]; exact Nat.and_zero _
  have hdiv : (x.toNat &&& 4294967292) / 2 ^ 2 = x.toNat / 2 ^ 2 := by
    rw [Nat.and_div_two_pow]
    exact (Nat.and_two_pow_sub_one_eq_mod _ 30).trans (Nat.mod_eq_of_lt (by omega))
  omega

theorem dvd_of_mod_eq_zero {x : UInt32} (h : x % 4 = 0) : 4 ∣ x.toNat := by
  rw [← UInt32.toNat_inj, UInt32.toNat_mod] at h
  exact Nat.dvd_of_mod_eq_zero h

theorem flags_iff {flags : UInt32} :
    flags &&& ~~~ Position.flagMask = 0 ↔ flags.toNat < 4 := by
  rw [← UInt32.toNat_inj, Position.flagMask, toNat_and_not_three, UInt32.toNat_zero]
  omega

theorem words_iff {offset : UInt32} : offset &&& Position.flagMask = 0 ↔ 4 ∣ offset.toNat := by
  rw [← UInt32.toNat_inj, Position.flagMask, toNat_and_three, UInt32.toNat_zero]
  omega

namespace Addressing

variable (a : Addressing)

/-! ## The split -/

/-- The number of bits of the offset. -/
def bits : ℕ := (a.chunkSize.toNat - 1).log2 + 1

theorem words : 16 ≤ a.chunkSize.toNat ∧ a.chunkSize.toNat ≤ 2 ^ 30 ∧ 4 ∣ a.chunkSize.toNat :=
  ⟨UInt32.le_iff_toNat_le.1 a.minChunkSize_le, UInt32.le_iff_toNat_le.1 a.le_maxChunkSize,
    dvd_of_mod_eq_zero a.whole_words⟩

theorem ofChunkSize_eq_ok {chunkSize : UInt32} {a : Addressing}
    (h : ofChunkSize chunkSize = .ok a) : a.chunkSize = chunkSize := by
  unfold ofChunkSize at h
  split_ifs at h
  cases h; rfl

/-- Every offset in a chunk fits its bits, and there are at most thirty. -/
theorem bits_spec : a.chunkSize.toNat ≤ 2 ^ a.bits ∧ 4 ≤ a.bits ∧ a.bits ≤ 30 := by
  obtain ⟨h16, h30, -⟩ := a.words
  have h0 : a.chunkSize.toNat - 1 ≠ 0 := by omega
  unfold bits
  refine ⟨?_, ?_, ?_⟩
  · have := Nat.lt_log2_self (n := a.chunkSize.toNat - 1)
    omega
  · have := (Nat.le_log2 (k := 3) h0).2 (by omega)
    omega
  · have := (Nat.log2_lt (k := 30) h0).2 (by omega)
    omega

theorem four_dvd : 4 ∣ 2 ^ a.bits := by
  have := a.bits_spec
  exact Nat.pow_dvd_pow 2 (show 2 ≤ a.bits by omega)

theorem toNat_offsetBits : a.offsetBits.toNat = a.bits := by
  have := a.bits_spec
  show (UInt32.ofNat a.bits).toNat = a.bits
  rw [UInt32.toNat_ofNat', Nat.mod_eq_of_lt (by omega)]

theorem toNat_maxBlocks : a.maxBlocks.toNat = 2 ^ (32 - a.bits) - 1 := by
  obtain ⟨-, h4, h30⟩ := a.bits_spec
  have hb : a.blockBits.toNat = 32 - a.bits := by
    rw [blockBits, UInt32.toNat_sub_of_le _ _ (by
      rw [UInt32.le_iff_toNat_le, toNat_offsetBits]; show _ ≤ 32; omega), toNat_offsetBits]
    rfl
  have hlt : 2 ^ (32 - a.bits) ≤ 2 ^ 28 := Nat.pow_le_pow_right (by omega) (by omega)
  rw [maxBlocks, hb, UInt32.toNat_ofNat']
  exact Nat.mod_eq_of_lt (show 2 ^ (32 - a.bits) - 1 < 2 ^ 32 by omega)

/-! ## Encoding -/

/-- The word that holds a block, an offset in it and flags. -/
def pack (block offset flags : UInt32) : Position := ⟨(block <<< a.offsetBits) ||| offset ||| flags⟩

/-- The position of the byte at `offset` from the start of the bundle. -/
def positionAt (offset flags : UInt32) : Position :=
  a.pack (offset / a.chunkSize) (offset % a.chunkSize) flags

/-- What can be encoded. -/
structure Encodes (block offset flags : UInt32) : Prop where
  flags_lt : flags.toNat < 4
  block_lt : block.toNat < a.maxBlocks.toNat
  offset_lt : offset.toNat < a.chunkSize.toNat
  offset_words : 4 ∣ offset.toNat

variable {a} {block offset flags : UInt32}

/-- **When a place has a position**, and which. -/
theorem encode_eq_ok {p : Position} :
    a.encode block offset flags = .ok p ↔ a.Encodes block offset flags ∧
      p = a.pack block offset flags := by
  unfold encode
  split_ifs with h1 h2 h3 h4
  · exact ⟨nofun, fun h => absurd (flags_iff.2 h.1.flags_lt) h1⟩
  · exact ⟨nofun, fun h => absurd h.1.block_lt (Nat.not_lt.2 (UInt32.le_iff_toNat_le.1 h2))⟩
  · exact ⟨nofun, fun h => absurd h.1.offset_lt (Nat.not_lt.2 (UInt32.le_iff_toNat_le.1 h3))⟩
  · exact ⟨nofun, fun h => absurd (words_iff.2 h.1.offset_words) h4⟩
  · rw [not_not] at h1 h4
    have hen : a.Encodes block offset flags :=
      ⟨flags_iff.1 h1, UInt32.lt_iff_toNat_lt.1 (UInt32.not_le.1 h2),
        UInt32.lt_iff_toNat_lt.1 (UInt32.not_le.1 h3), words_iff.1 h4⟩
    rw [Except.ok.injEq, eq_comm]
    exact ⟨fun h => ⟨hen, h⟩, fun h => h.2⟩

/-- **The three parts of a word share no bit.** -/
theorem toNat_pack (h : a.Encodes block offset flags) : (a.pack block offset flags).word.toNat =
    block.toNat * 2 ^ a.bits + offset.toNat + flags.toNat := by
  obtain ⟨hf, hb, ho, h4⟩ := h
  obtain ⟨hc, hb4, hb30⟩ := a.bits_spec
  rw [toNat_maxBlocks] at hb
  have hlt : block.toNat * 2 ^ a.bits < 2 ^ 32 :=
    calc block.toNat * 2 ^ a.bits < 2 ^ (32 - a.bits) * 2 ^ a.bits :=
        Nat.mul_lt_mul_of_pos_right (by omega) (Nat.two_pow_pos _)
      _ = 2 ^ 32 := by rw [← Nat.pow_add]; congr 1; omega
  have hshift : (block <<< a.offsetBits).toNat = block.toNat * 2 ^ a.bits := by
    rw [UInt32.toNat_shiftLeft, toNat_offsetBits, Nat.mod_eq_of_lt (by omega : a.bits < 32),
      Nat.shiftLeft_eq, Nat.mod_eq_of_lt hlt]
  obtain ⟨m, hm⟩ := Nat.dvd_add (Nat.dvd_mul_left_of_dvd a.four_dvd block.toNat) h4
  show (((block <<< a.offsetBits) ||| offset) ||| flags).toNat = _
  rw [UInt32.toNat_or, UInt32.toNat_or, hshift, shiftLeft_or (by omega), hm, Nat.mul_comm 4 m]
  exact shiftLeft_or (k := 2) hf

theorem offset_add_flags_lt (h : a.Encodes block offset flags) :
    offset.toNat + flags.toNat < 2 ^ a.bits := by
  obtain ⟨hf, -, ho, h4⟩ := h
  obtain ⟨-, -, hc4⟩ := a.words
  have := a.bits_spec.1
  omega

theorem toNat_block (a : Addressing) (p : Position) :
    (a.block p).toNat = p.word.toNat / 2 ^ a.bits := by
  have hb := a.bits_spec
  rw [Addressing.block, UInt32.toNat_shiftRight, toNat_offsetBits,
    Nat.mod_eq_of_lt (by omega : a.bits < 32), Nat.shiftRight_eq_div_pow]

/-- The bits below are read as the offset, without those of the flags. -/
theorem toNat_offset (a : Addressing) (p : Position) :
    (a.offset p).toNat = p.word.toNat % 2 ^ a.bits / 4 * 4 := by
  obtain ⟨-, h4, h30⟩ := a.bits_spec
  have hmask : ((1 : UInt32) <<< a.offsetBits - 1).toNat = 2 ^ a.bits - 1 := by
    have h1 : ((1 : UInt32) <<< a.offsetBits).toNat = 2 ^ a.bits := by
      rw [UInt32.toNat_shiftLeft, toNat_offsetBits, UInt32.toNat_one,
        Nat.mod_eq_of_lt (by omega : a.bits < 32), Nat.one_shiftLeft, Nat.mod_eq_of_lt]
      exact Nat.pow_lt_pow_right (by omega) (by omega)
    rw [UInt32.toNat_sub_of_le _ _ (by
      rw [UInt32.le_iff_toNat_le, h1]; exact Nat.one_le_two_pow), h1]
    rfl
  rw [Addressing.offset, Position.flagMask, toNat_and_not_three, UInt32.toNat_and, hmask,
    Nat.and_two_pow_sub_one_eq_mod]

theorem block_pack (h : a.Encodes block offset flags) :
    a.block (a.pack block offset flags) = block := by
  apply UInt32.toNat_inj.1
  rw [toNat_block, toNat_pack h, Nat.add_assoc, Nat.add_comm,
    Nat.add_mul_div_right _ _ (Nat.two_pow_pos _), Nat.div_eq_of_lt (offset_add_flags_lt h),
    Nat.zero_add]

theorem offset_pack (h : a.Encodes block offset flags) :
    a.offset (a.pack block offset flags) = offset := by
  have hf := h.flags_lt; have hw := h.offset_words
  apply UInt32.toNat_inj.1
  rw [toNat_offset, toNat_pack h, Nat.add_assoc, Nat.mul_add_mod',
    Nat.mod_eq_of_lt (offset_add_flags_lt h)]
  omega

theorem flags_pack (h : a.Encodes block offset flags) :
    (a.pack block offset flags).flags = flags := by
  have hf := h.flags_lt; have hw := h.offset_words
  have hb := Nat.dvd_mul_left_of_dvd a.four_dvd block.toNat
  apply UInt32.toNat_inj.1
  rw [Position.flags, Position.flagMask, toNat_and_three, toNat_pack h]
  omega

/-! ## Places from the start of the bundle -/

theorem encodeAbsolute_eq_ok {o : UInt32} {p : Position} :
    a.encodeAbsolute o flags = .ok p ↔
      a.Encodes (o / a.chunkSize) (o % a.chunkSize) flags ∧ p = a.positionAt o flags :=
  encode_eq_ok

/-- A place that has a position: a whole word of a block that can be named. -/
structure Reaches (a : Addressing) (o : UInt32) : Prop where
  block_lt : o.toNat / a.chunkSize.toNat < a.maxBlocks.toNat
  words : 4 ∣ o.toNat

variable {o : UInt32}

theorem Reaches.encodes (h : a.Reaches o) (hf : flags.toNat < 4) :
    a.Encodes (o / a.chunkSize) (o % a.chunkSize) flags := by
  obtain ⟨h16, -, hc4⟩ := a.words
  refine ⟨hf, ?_, ?_, ?_⟩
  · rw [UInt32.toNat_div]; exact h.block_lt
  · rw [UInt32.toNat_mod]; exact Nat.mod_lt _ (by omega)
  · rw [UInt32.toNat_mod]; exact (Nat.dvd_mod_iff hc4).2 h.words

theorem Encodes.reaches (h : a.Encodes (o / a.chunkSize) (o % a.chunkSize) flags) :
    a.Reaches o := by
  obtain ⟨-, -, hc4⟩ := a.words
  refine ⟨?_, ?_⟩
  · rw [← UInt32.toNat_div]; exact h.block_lt
  · rw [← Nat.dvd_mod_iff hc4, ← UInt32.toNat_mod]; exact h.offset_words

theorem block_positionAt (h : a.Reaches o) (hf : flags.toNat < 4) :
    (a.block (a.positionAt o flags)).toNat = o.toNat / a.chunkSize.toNat := by
  rw [positionAt, block_pack (h.encodes hf), UInt32.toNat_div]

theorem offset_positionAt (h : a.Reaches o) (hf : flags.toNat < 4) :
    (a.offset (a.positionAt o flags)).toNat = o.toNat % a.chunkSize.toNat := by
  rw [positionAt, offset_pack (h.encodes hf), UInt32.toNat_mod]

theorem flags_positionAt (h : a.Reaches o) (hf : flags.toNat < 4) :
    (a.positionAt o flags).flags = flags := flags_pack (h.encodes hf)

theorem positionAt_ne_zero (h : a.Reaches o) (hf : flags.toNat < 4) (h0 : 0 < flags.toNat) :
    (a.positionAt o flags).word ≠ 0 := fun hw => by
  have hp := toNat_pack (h.encodes hf)
  rw [show (a.pack (o / a.chunkSize) (o % a.chunkSize) flags).word = 0 from hw] at hp
  rw [UInt32.toNat_zero] at hp
  omega

end Addressing

/-! ## Flags -/

namespace Position

variable {p : Position}

theorem isUnresolved_iff : p.isUnresolved = true ↔ p.word.toNat % 2 = 1 := by
  have h1 : (p.word &&& unresolvedFlag).toNat = p.word.toNat % 2 := by
    rw [UInt32.toNat_and]; exact Nat.and_two_pow_sub_one_eq_mod _ 1
  rw [isUnresolved, bne_iff_ne, ne_eq, ← UInt32.toNat_inj, h1, UInt32.toNat_zero]
  omega

theorem isUnresolved_of_flags {f : UInt32} (h : p.flags = f) (hf : f.toNat % 2 = 1) :
    p.isUnresolved = true := by
  rw [isUnresolved_iff]
  have := congrArg UInt32.toNat h
  rw [flags, flagMask, toNat_and_three] at this
  omega

theorem isRuntimeFile_eq (p : Position) : p.isRuntimeFile = (p.flags &&& runtimeFlag != 0) := by
  rw [isRuntimeFile, flags, UInt32.and_assoc]; rfl

end Position

theorem Slot.ofWord_of_even {w : UInt32} (h : w.toNat % 2 = 0) : ofWord w = .resolved w := by
  rw [ofWord, if_neg]
  rw [Position.isUnresolved_iff]
  simp only
  omega

theorem Slot.ofWord_of_isUnresolved {p : Position} (h : p.isUnresolved = true) :
    ofWord p.word = .unresolved p := if_pos h

end LevelBundle
