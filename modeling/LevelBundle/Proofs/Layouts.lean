/-
  LevelBundle — the geometry of a layout.

  Any items may be placed here, in any order, behind any header: a header may be larger than
  a chunk, an alignment may be larger than a chunk, and items may take no room.

  * `Layout.Touched`: the chunks that the header reaches into or that an item starts in.
  * `Layout.Sound`: the items lie apart from one another, each inside one chunk and aligned
    there, and the end, the slack and the number of chunks agree with where they lie.
  * `place_geometry`: the first item that is too large is named; if there is none, the layout
    is sound.
  * `place_miscounts`: the one case in which chunks are not counted.
-/
import LevelBundle.Proofs.Geometry
import LevelBundle.Proofs.Steps
import Mathlib.Order.Bounds.Basic

namespace LevelBundle

open Placement

/-- The offset of an item. -/
def Layout.offset (l : Layout) (i : ℕ) : ℕ := (l.offsets.getD i 0).toNat

/-- The chunks that the header reaches into or that an item starts in. -/
def Layout.Touched (l : Layout) (order : List ℕ) (header chunk : ℕ) : Set ℕ :=
  {b | b * chunk < header ∨ ∃ i ∈ order, l.offset i / chunk = b}

/-- With chunks of one byte, an item without bytes may start behind all that a word can
    count. -/
def Layout.Uncountable (l : Layout) (order : List ℕ) (chunk : ℕ) : Prop :=
  chunk = 1 ∧ ∃ i ∈ order, l.offset i = 2 ^ 32 - 1

/-- **What a layout says** of items that were placed in an order. -/
structure Layout.Sound (l : Layout) (items : Array Extent) (order : List ℕ)
    (header chunk : ℕ) : Prop where
  header_le : ∀ i ∈ order, header ≤ l.offset i
  inside : ∀ i ∈ order, l.offset i % chunk + (extent items i).padSize.toNat ≤ chunk
  aligned : ∀ i ∈ order, 1 < (extent items i).alignment.toNat →
    (extent items i).alignment.toNat ∣ l.offset i % chunk
  apart : ∀ i ∈ order, ∀ j ∈ order, i ≠ j →
    l.offset i + (extent items i).padSize.toNat ≤ l.offset j ∨
      l.offset j + (extent items j).padSize.toNat ≤ l.offset i
  stop_eq : l.stop = header + (order.map fun i => (extent items i).padSize.toNat).sum + l.slack
  stop_le : ¬ l.Uncountable order chunk → l.stop ≤ l.chunksUsed.toNat * chunk
  chunksUsed : ¬ l.Uncountable order chunk → 0 < header ∨ order ≠ [] →
    ∃ b, IsGreatest (l.Touched order header chunk) b ∧ l.chunksUsed.toNat = b + 1
  chunksUsed_nil : header = 0 → order = [] → l.chunksUsed = 1

variable {items : Array Extent} {order : List ℕ} {headerSize chunkSize : UInt32} {layout : Layout}

/-- The first item that is too large is named. -/
theorem place_eq_error {i : ℕ} : place items order headerSize chunkSize = .error ⟨i⟩ ↔
    ∃ before after, order = before ++ i :: after ∧ chunkSize < (extent items i).padSize ∧
      ∀ j ∈ before, (extent items j).padSize ≤ chunkSize := by
  have hfind : place items order headerSize chunkSize = .error ⟨i⟩ ↔
      order.find? (fun i => chunkSize < (extent items i).padSize) = some i := by
    unfold place
    split
    · rename_i j hj
      rw [hj]
      simp
    · rename_i hnone
      rw [hnone]
      simp
  rw [hfind, List.find?_eq_some_iff_append]
  constructor
  · rintro ⟨hlt, before, after, rfl, hbefore⟩
    refine ⟨before, after, rfl, by simpa using hlt, fun j hj => ?_⟩
    simpa using hbefore j hj
  · rintro ⟨before, after, rfl, hlt, hbefore⟩
    refine ⟨by simpa using hlt, before, after, rfl, fun j hj => ?_⟩
    simpa using hbefore j hj

theorem exists_place : (∃ layout, place items order headerSize chunkSize = .ok layout) ↔
    ∀ i ∈ order, (extent items i).padSize ≤ chunkSize := by
  constructor
  · rintro ⟨layout, h⟩ i hi
    exact UInt32.le_iff_toNat_le.2 ((place_eq_ok h).1 i hi)
  · intro hfits
    cases h : place items order headerSize chunkSize with
    | ok layout => exact ⟨layout, rfl⟩
    | error e =>
      obtain ⟨before, after, rfl, hlt, -⟩ := place_eq_error.1 h
      exact absurd (hfits _ (by simp)) (UInt32.not_le.2 hlt)

section

variable {chunk header : ℕ} {p : Progress} {placed : List (ℕ × ℕ)}
  (hl : Laid items chunk header p placed)
include hl

theorem offset_eq_of_laid (hoff : layout.offsets = p.offsets) (hcur : p.cursor < 2 ^ 32)
    {e : ℕ × ℕ} (he : e ∈ placed) : layout.offset e.1 = e.2 := by
  have hle := hl.below e he
  rw [Layout.offset, hoff, Array.getD_eq_getD_getElem?, hl.offsets e he, Option.getD_some,
    toNat_toUInt32 (by omega)]

/-- Then the chunks can be counted, but for those of one byte. -/
theorem lastBlock_lt_of_laid (hpos : 0 < chunk) (hheader : header < 2 ^ 32)
    (hcur : p.cursor < 2 ^ 32) (hno : ∀ e ∈ placed, ¬ (chunk = 1 ∧ e.2 = 2 ^ 32 - 1)) :
    p.lastBlock + 1 < 2 ^ 32 := by
  rcases hl.lastBlock_eq with hb | ⟨e, he, hb⟩
  · have := Nat.div_le_self (header - 1) chunk
    omega
  · have hle := hl.below e he
    rcases Nat.eq_or_lt_of_le (Nat.succ_le_of_lt hpos) with h1 | h2
    · -- chunks of one byte: the offset is the number of the chunk
      have hne : e.2 ≠ 2 ^ 32 - 1 := fun heq => hno e he ⟨h1.symm, heq⟩
      rw [← h1, Nat.div_one] at hb
      omega
    · have := Nat.div_le_div_left (show 2 ≤ chunk from h2) Nat.two_pos (a := e.2)
      omega

/-- The last chunk is the greatest one that the header reaches into or that an item starts in. -/
theorem isGreatest_lastBlock (hsome : 0 < header ∨ placed ≠ []) :
    IsGreatest {b | b * chunk < header ∨ ∃ e ∈ placed, e.2 / chunk = b} p.lastBlock := by
  refine ⟨?_, ?_⟩
  · rcases hl.lastBlock_eq with hb | ⟨e, he, hb⟩
    · rcases Nat.eq_zero_or_pos header with hzero | hheader
      · -- without a header, the first item starts in the first chunk
        obtain ⟨e, he⟩ := List.exists_mem_of_ne_nil placed (hsome.resolve_left (by omega))
        have hle := hl.block_le e he
        rw [hzero, Nat.zero_sub, Nat.zero_div] at hb
        rw [hb] at hle ⊢
        exact Or.inr ⟨e, he, Nat.le_zero.1 hle⟩
      · have hle := Nat.div_mul_le_self (header - 1) chunk
        rw [← hb] at hle
        exact Or.inl (by omega)
    · exact Or.inr ⟨e, he, hb.symm⟩
  · rintro b (hb | ⟨e, he, rfl⟩)
    · exact Nat.le_of_lt_succ (Nat.lt_of_mul_lt_mul_right
        (hb.trans_le (hl.header_le.trans hl.cursor_le)))
    · exact hl.block_le e he

end

/-- **A layout is sound** if it ends in front of `2 ^ 32`. -/
theorem sound_of_place (h : place items order headerSize chunkSize = .ok layout)
    (hpos : 0 < chunkSize.toNat) (hc : chunkSize.toNat ≤ 2 ^ 31) (hn : order.Nodup)
    (hlt : ∀ i ∈ order, i < items.size)
    (ha : ∀ i ∈ order, (extent items i).alignment.toNat ≤ 2 ^ 31) (hstop : layout.stop < 2 ^ 32) :
    layout.Sound items order headerSize.toNat chunkSize.toNat := by
  obtain ⟨hfits, p, rfl, hoff, hused, hslack, hend⟩ := place_eq_ok h
  obtain ⟨placed, hl, hperm⟩ := (laid_initial hpos).run hpos hc
    (fun i hi => ⟨hlt i hi, hfits i hi, ha i hi⟩) (by simpa using hn)
  generalize run items chunkSize.toNat (initial items chunkSize.toNat headerSize.toNat) order = p
    at hl hoff hused hslack hend
  replace hperm : (placed.map Prod.fst).Perm order := by simpa using hperm
  have hcur : p.cursor < 2 ^ 32 := hend ▸ hstop
  -- the places are those of the order, and their offsets are exact
  have hexact : ∀ e ∈ placed, layout.offset e.1 = e.2 := fun e he =>
    offset_eq_of_laid hl hoff hcur he
  have hplace : ∀ i ∈ order, (i, layout.offset i) ∈ placed := by
    intro i hi
    obtain ⟨e, he, rfl⟩ := List.mem_map.1 (hperm.mem_iff.2 hi)
    rw [hexact e he]
    exact he
  have hmem : ∀ e ∈ placed, e.1 ∈ order := fun e he =>
    hperm.mem_iff.1 (List.mem_map_of_mem he)
  have htouched : layout.Touched order headerSize.toNat chunkSize.toNat =
      {b | b * chunkSize.toNat < headerSize.toNat ∨ ∃ e ∈ placed, e.2 / chunkSize.toNat = b} := by
    refine Set.ext fun b => or_congr_right ⟨?_, ?_⟩
    · rintro ⟨i, hi, rfl⟩
      exact ⟨_, hplace i hi, rfl⟩
    · rintro ⟨e, he, rfl⟩
      exact ⟨e.1, hmem e he, by rw [hexact e he]⟩
  have hcount : ¬ layout.Uncountable order chunkSize.toNat →
      layout.chunksUsed.toNat = p.lastBlock + 1 := fun hno =>
    hused ▸ toNat_toUInt32 (lastBlock_lt_of_laid hl hpos headerSize.toNat_lt hcur
      fun e he ⟨h1, heq⟩ => hno ⟨h1, e.1, hmem e he, (hexact e he).trans heq⟩)
  constructor
  case header_le => exact fun i hi => hl.above _ (hplace i hi)
  case inside => exact fun i hi => (hl.stands _ (hplace i hi)).inside
  case aligned =>
    exact fun i hi h1 => (hl.stands _ (hplace i hi)).aligned.resolve_left (Nat.not_le.2 h1)
  case apart =>
    exact fun i hi j hj hij =>
      hl.apart_of_ne (hplace i hi) (hplace j hj) fun h => hij (congrArg Prod.fst h)
  case stop_eq =>
    have hsum := (hperm.map fun i => (extent items i).padSize.toNat).sum_eq
    rw [List.map_map] at hsum
    rw [hend, hslack, ← hsum]
    exact hl.cursor_eq
  case stop_le =>
    intro hno
    rw [hend, hcount hno]
    exact hl.cursor_le
  case chunksUsed =>
    refine fun hno hsome => ⟨p.lastBlock, htouched ▸ isGreatest_lastBlock hl ?_, hcount hno⟩
    refine hsome.imp_right fun hne hnil => hne ?_
    rw [hnil] at hperm
    exact hperm.symm.eq_nil
  case chunksUsed_nil =>
    intro hheader hnil
    subst hnil
    have hzero : p.lastBlock = 0 := by
      rcases hl.lastBlock_eq with hb | ⟨e, he, -⟩
      · rw [hb, hheader, Nat.zero_sub, Nat.zero_div]
      · exact absurd (hmem e he) List.not_mem_nil
    rw [← UInt32.toNat_inj, hcount (by simp [Layout.Uncountable]), hzero]
    rfl

/-- **The geometry of a layout.** -/
theorem place_geometry (hpos : 0 < chunkSize.toNat) (hc : chunkSize.toNat ≤ 2 ^ 31)
    (hn : order.Nodup) (hlt : ∀ i ∈ order, i < items.size)
    (ha : ∀ i ∈ order, (extent items i).alignment.toNat ≤ 2 ^ 31) :
    (∀ i, place items order headerSize chunkSize = .error ⟨i⟩ ↔
      ∃ before after, order = before ++ i :: after ∧ chunkSize < (extent items i).padSize ∧
        ∀ j ∈ before, (extent items j).padSize ≤ chunkSize) ∧
    ((∃ layout, place items order headerSize chunkSize = .ok layout) ↔
      ∀ i ∈ order, (extent items i).padSize ≤ chunkSize) ∧
    ∀ layout, place items order headerSize chunkSize = .ok layout → layout.stop < 2 ^ 32 →
      layout.Sound items order headerSize.toNat chunkSize.toNat :=
  ⟨fun _ => place_eq_error, exists_place, fun _ h => sound_of_place h hpos hc hn hlt ha⟩

/-- Items behind a header that is larger than a chunk of 64 bytes: one that takes a chunk, one
    without bytes, and two with alignments that do not divide the chunk. -/
def crowded : Array Extent := #[⟨40, 1⟩, ⟨20, 12⟩, ⟨0, 1⟩, ⟨20, 24⟩, ⟨64, 1⟩]

theorem place_geometry_crowded : [4, 0, 1, 2, 3].Nodup ∧
    (∀ i ∈ [4, 0, 1, 2, 3], i < crowded.size ∧ (extent crowded i).alignment.toNat ≤ 2 ^ 31) ∧
    (∀ i, place crowded [4, 0, 1, 2, 3] 70 64 ≠ .error ⟨i⟩) ∧
    ∃ layout, place crowded [4, 0, 1, 2, 3] 70 64 = .ok layout ∧
      [0, 1, 2, 3, 4].map layout.offset = [70, 192, 110, 216, 128] ∧ layout.slack = 22 ∧
      layout.stop = 236 ∧ layout.chunksUsed = 4 ∧ layout.Sound crowded [4, 0, 1, 2, 3] 70 64 := by
  have hn : [4, 0, 1, 2, 3].Nodup := by decide
  have hitems : ∀ i ∈ [4, 0, 1, 2, 3], i < crowded.size ∧
      (extent crowded i).alignment.toNat ≤ 2 ^ 31 ∧ (extent crowded i).padSize ≤ 64 := by decide
  have hrun : (place crowded [4, 0, 1, 2, 3] 70 64).toOption.map
      (fun l => ([0, 1, 2, 3, 4].map l.offset, l.slack, l.stop, l.chunksUsed)) =
      some ([70, 192, 110, 216, 128], 22, 236, 4) := by decide +kernel
  obtain ⟨-, hok, hsound⟩ := @place_geometry crowded [4, 0, 1, 2, 3] 70 64
    (by decide) (by decide) hn (fun i hi => (hitems i hi).1) fun i hi => (hitems i hi).2.1
  obtain ⟨layout, h⟩ := hok.2 fun i hi => (hitems i hi).2.2
  rw [h] at hrun
  simp only [Except.toOption, Option.map_some, Option.some.injEq, Prod.mk.injEq] at hrun
  obtain ⟨hoff, hslack, hstop, hused⟩ := hrun
  refine ⟨hn, fun i hi => ⟨(hitems i hi).1, (hitems i hi).2.1⟩, fun i he => ?_, layout, h, hoff,
    hslack, hstop, hused, hsound layout h (by omega)⟩
  rw [h] at he
  cases he

/-- **A layout may have more chunks than a word can count**: here the item starts in chunk
    `2 ^ 32 - 1`, and no chunk is counted. -/
theorem place_miscounts : ∃ layout, place #[⟨0, 1⟩] [0] 4294967295 1 = .ok layout ∧
    layout.stop = 2 ^ 32 - 1 ∧ ¬ layout.stop ≤ layout.chunksUsed.toNat * 1 ∧
    IsGreatest (layout.Touched [0] 4294967295 1) (2 ^ 32 - 1) ∧ layout.chunksUsed = 0 := by
  have hrun : (place #[⟨0, 1⟩] [0] 4294967295 1).toOption.map
      (fun l => (l.offset 0, l.stop, l.chunksUsed)) = some (2 ^ 32 - 1, 2 ^ 32 - 1, 0) := by
    decide +kernel
  obtain ⟨layout, h, hl⟩ := Option.map_eq_some_iff.1 hrun
  rw [Prod.mk.injEq, Prod.mk.injEq] at hl
  obtain ⟨hoff, hstop, hused⟩ := hl
  refine ⟨layout, ok_of_toOption h, hstop, ?_, ⟨Or.inr ⟨0, by simp, ?_⟩, ?_⟩, hused⟩
  · rw [hstop, hused]
    decide
  · rw [hoff, Nat.div_one]
  · rintro b (hb | ⟨i, hi, rfl⟩)
    · omega
    · rw [List.mem_singleton.1 hi, hoff, Nat.div_one]

end LevelBundle
