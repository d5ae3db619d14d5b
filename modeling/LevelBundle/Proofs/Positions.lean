/-
  LevelBundle — positions are words with tags.

  A position holds a block, an offset and two flags, and gives back what it holds.  It can be
  told apart from what else stands in the words of a bundle: the filler of the chunk table,
  the null word that ends a table, and addresses.

  * `pack_ne_filler`, `encode_parts`: no position is the filler, and a word that names a place
    is the position of that place.
  * `Addressing.Faithful`: what positions keep, for every chunk size (`encode_faithful`).
-/
import LevelBundle.Proofs.Encoding

namespace LevelBundle

theorem Position.eq_of_word {p p' : Position} (h : p.word = p'.word) : p = p' :=
  congrArg Position.mk h

namespace Addressing

variable {a : Addressing} {block offset flags : UInt32}

theorem lt_chunkSize (a : Addressing) : 2 ^ (a.bits - 1) < a.chunkSize.toNat := by
  obtain ⟨h16, -, -⟩ := a.words
  have h0 : a.chunkSize.toNat - 1 ≠ 0 := by omega
  have hle := Nat.log2_self_le h0
  rw [bits, Nat.add_sub_cancel]
  omega

/-- **No position is the filler**, since no block has the index of all ones. -/
theorem pack_ne_filler (h : a.Encodes block offset flags) :
    (a.pack block offset flags).word ≠ chunkFiller := by
  intro hword
  have hblock := h.block_lt
  have hbits := a.bits_spec
  have hpow : 2 ^ (32 - a.bits) * 2 ^ a.bits = 2 ^ 32 := by
    rw [← Nat.pow_add]
    congr 1
    omega
  have hfiller : a.block ⟨chunkFiller⟩ = block := by rw [← block_pack h, ← hword]
  rw [← hfiller, toNat_block, toNat_maxBlocks] at hblock
  have hones : (2 ^ 32 - 1) / 2 ^ a.bits = 2 ^ (32 - a.bits) - 1 := by
    have hlt : 2 ^ a.bits ≤ 2 ^ 30 := Nat.pow_le_pow_right (by omega) hbits.2.2
    have hpos := Nat.two_pow_pos a.bits
    rw [Nat.div_eq_iff hpos, Nat.sub_mul, hpow]
    omega
  rw [show (Position.mk chunkFiller).word.toNat = 2 ^ 32 - 1 from rfl, hones] at hblock
  exact Nat.lt_irrefl _ hblock

/-- **A word that names a place** is the position of that place. -/
theorem encode_parts (a : Addressing) {p : Position} (hblock : a.block p < a.maxBlocks)
    (hoffset : a.offset p < a.chunkSize) : a.encode (a.block p) (a.offset p) p.flags = .ok p := by
  have hflags : p.flags.toNat = p.word.toNat % 4 := by
    rw [Position.flags, Position.flagMask, toNat_and_three]
  have hen : a.Encodes (a.block p) (a.offset p) p.flags := by
    refine ⟨by omega, UInt32.lt_iff_toNat_lt.1 hblock, UInt32.lt_iff_toNat_lt.1 hoffset, ?_⟩
    rw [toNat_offset]
    exact Nat.dvd_mul_left _ _
  refine encode_eq_ok.2 ⟨hen, ?_⟩
  apply Position.eq_of_word
  apply UInt32.toNat_inj.1
  -- the offset and the flags are the two parts of what is below the block
  have hlow := Nat.mod_mod_of_dvd p.word.toNat a.four_dvd
  have hdiv := Nat.div_add_mod' p.word.toNat (2 ^ a.bits)
  rw [toNat_pack hen, toNat_block, toNat_offset, hflags]
  omega

/-- What positions keep. -/
structure Faithful (a : Addressing) : Prop where
  /-- The offset has as many bits as it takes, and the block has the others. -/
  split : 2 ^ (a.offsetBits.toNat - 1) < a.chunkSize.toNat ∧
    a.chunkSize.toNat ≤ 2 ^ a.offsetBits.toNat ∧
    a.maxBlocks.toNat = 2 ^ (32 - a.offsetBits.toNat) - 1
  /-- There is a position for every whole word of a block that can be named, with any flags. -/
  encodes : ∀ block offset flags, (∃ p, a.encode block offset flags = .ok p) ↔
    flags.toNat < 4 ∧ block < a.maxBlocks ∧ offset < a.chunkSize ∧ 4 ∣ offset.toNat
  /-- It gives back the block, the offset and the flags. -/
  decodes : ∀ block offset flags p, a.encode block offset flags = .ok p →
    a.block p = block ∧ a.offset p = offset ∧ p.flags = flags
  /-- A word that names a place is the position of that place. -/
  encodes_parts : ∀ p, a.block p < a.maxBlocks → a.offset p < a.chunkSize →
    a.encode (a.block p) (a.offset p) p.flags = .ok p
  /-- It belongs to no other block, offset and flags. -/
  injective : ∀ block offset flags block' offset' flags' p p',
    a.encode block offset flags = .ok p → a.encode block' offset' flags' = .ok p' →
    p.word = p'.word → (block, offset, flags) = (block', offset', flags')
  /-- It is not the filler of the chunk table. -/
  apart : ∀ block offset flags p, a.encode block offset flags = .ok p → p.word ≠ chunkFiller
  /-- With the flag for it, it is not null, and a slot that holds it is still unresolved. -/
  unresolved : ∀ block offset flags p, a.encode block offset flags = .ok p →
    flags &&& Position.unresolvedFlag ≠ 0 → p.isNull = false ∧ Slot.ofWord p.word = .unresolved p
  /-- A place in the file has a position, which leads there. -/
  absolute : ∀ o flags, 4 ∣ o.toNat → o / a.chunkSize < a.maxBlocks → flags.toNat < 4 →
    ∃ p, a.encodeAbsolute o flags = .ok p ∧ p.flags = flags ∧
      (a.block p).toNat * a.chunkSize.toNat + (a.offset p).toNat = o.toNat

/-- **Positions are faithful**, for every chunk size that is admitted. -/
theorem encode_faithful {chunkSize : UInt32} {a : Addressing} (h : ofChunkSize chunkSize = .ok a) :
    a.chunkSize = chunkSize ∧ a.Faithful := by
  have decodes {block offset flags p} (hp : a.encode block offset flags = .ok p) :
      a.block p = block ∧ a.offset p = offset ∧ p.flags = flags := by
    obtain ⟨hen, rfl⟩ := encode_eq_ok.1 hp
    exact ⟨block_pack hen, offset_pack hen, flags_pack hen⟩
  refine ⟨ofChunkSize_eq_ok h, ?_, fun block offset flags => ?_, fun _ _ _ _ hp => decodes hp,
    fun _ hb ho => a.encode_parts hb ho,
    fun block offset flags block' offset' flags' p p' hp hp' hword => ?_, fun _ _ _ p hp => ?_,
    fun block offset flags p hp hf => ?_, fun o flags ho hb hf => ?_⟩
  · rw [toNat_offsetBits]
    exact ⟨a.lt_chunkSize, a.bits_spec.1, a.toNat_maxBlocks⟩
  · simp only [encode_eq_ok, exists_and_left, exists_eq, and_true]
    exact ⟨fun hen => ⟨hen.flags_lt, UInt32.lt_iff_toNat_lt.2 hen.block_lt,
        UInt32.lt_iff_toNat_lt.2 hen.offset_lt, hen.offset_words⟩,
      fun ⟨hf, hb, ho, hw⟩ =>
        ⟨hf, UInt32.lt_iff_toNat_lt.1 hb, UInt32.lt_iff_toNat_lt.1 ho, hw⟩⟩
  · obtain rfl := Position.eq_of_word hword
    obtain ⟨rfl, rfl, rfl⟩ := decodes hp
    obtain ⟨hb, ho, hf⟩ := decodes hp'
    rw [hb, ho, hf]
  · obtain ⟨hen, rfl⟩ := encode_eq_ok.1 hp
    exact pack_ne_filler hen
  · have hun : p.isUnresolved = true := by
      obtain ⟨-, -, rfl⟩ := decodes hp
      rw [Position.isUnresolved, bne_iff_ne]
      intro h0
      refine hf ?_
      rw [Position.flags, UInt32.and_assoc]
      exact h0
    refine ⟨?_, Slot.ofWord_of_isUnresolved hun⟩
    have hodd := Position.isUnresolved_iff.1 hun
    rw [Position.isNull, beq_eq_false_iff_ne]
    intro h0
    rw [h0] at hodd
    cases hodd
  · have hr : a.Reaches o := ⟨by rw [← UInt32.toNat_div]; exact UInt32.lt_iff_toNat_lt.1 hb, ho⟩
    refine ⟨_, encodeAbsolute_eq_ok.2 ⟨hr.encodes hf, rfl⟩, flags_positionAt hr hf, ?_⟩
    rw [block_positionAt hr hf, offset_positionAt hr hf]
    exact Nat.div_add_mod' _ _

/-- Chunks of 3000 bytes, and the last word of the last block that can be named. -/
theorem encode_faithful_uneven : ∃ a p, ofChunkSize 3000 = .ok a ∧
    a.encode 1048574 2996 3 = .ok p ∧ p.word = 0xFFFFEBB7 ∧ a.block p = 1048574 ∧
    a.offset p = 2996 ∧ Slot.ofWord p.word = .unresolved p ∧
    ¬ ∃ p, a.encode 1048575 2996 3 = .ok p := by
  have h : ofChunkSize 3000 = .ok ⟨3000, by decide, by decide, by decide⟩ := rfl
  obtain ⟨-, hf⟩ := encode_faithful h
  have hmax : (Addressing.mk 3000 (by decide) (by decide) (by decide)).maxBlocks = 1048575 := by
    decide +kernel
  obtain ⟨p, hp⟩ := (hf.encodes 1048574 2996 3).2
    ⟨by decide, hmax ▸ by decide, by decide, by decide⟩
  obtain ⟨hb, ho, -⟩ := hf.decodes _ _ _ p hp
  obtain ⟨-, hslot⟩ := hf.unresolved _ _ _ p hp (by decide)
  refine ⟨_, p, h, hp, ?_, hb, ho, hslot, fun hno => ?_⟩
  · obtain ⟨-, rfl⟩ := encode_eq_ok.1 hp
    decide +kernel
  · obtain ⟨-, hlt, -⟩ := (hf.encodes _ _ _).1 hno
    rw [hmax] at hlt
    exact absurd hlt (by decide)

end Addressing

end LevelBundle
