/-
  LevelBundle — where items are placed.

  * `Placement.Stands items chunk e`: an item at a place lies inside one chunk and
    keeps its alignment there.
  * `Placement.Laid items chunk header p placed`: the items placed so far, in the
    order of their placing, stand, lie one behind the other between the header
    and the cursor, and their places are the offsets noted.
  * `Laid.put` is what placing one item keeps true, `Laid.run` what placing all
    does, `place_laid` what a layout that is accepted says.
-/
import LevelBundle.Bundle.Placement
import LevelBundle.Proofs.Rounding
import LevelBundle.Proofs.SectionSound
import Mathlib.Data.List.Nodup
import Mathlib.Data.List.Pairwise

namespace LevelBundle

namespace Placement

/-- What is asked of an item so that it can be placed. -/
structure Admits (items : Array Extent) (chunk i : ℕ) : Prop where
  lt : i < items.size
  padSize_le : (extent items i).padSize.toNat ≤ chunk
  alignment_le : (extent items i).alignment.toNat ≤ 2 ^ 31

/-- The size of the item that was placed. -/
def room (items : Array Extent) (e : ℕ × ℕ) : ℕ := (extent items e.1).padSize.toNat

/-- A placed item lies inside one chunk and keeps its alignment there. -/
structure Stands (items : Array Extent) (chunk : ℕ) (e : ℕ × ℕ) : Prop where
  inside : e.2 % chunk + room items e ≤ chunk
  aligned : (extent items e.1).alignment.toNat ≤ 1 ∨
    (extent items e.1).alignment.toNat ∣ e.2 % chunk

/-- Whether everything is measured in words. -/
structure Words (items : Array Extent) (chunk header : ℕ) : Prop where
  chunk_words : 4 ∣ chunk
  header_words : 4 ∣ header
  padSize_words : ∀ i < items.size, 4 ∣ (extent items i).padSize.toNat
  alignment : ∀ i < items.size, Alignment.valid (extent items i).alignment = true

/-- What is true of the items placed so far. -/
structure Laid (items : Array Extent) (chunk header : ℕ) (p : Progress)
    (placed : List (ℕ × ℕ)) : Prop where
  size_eq : p.offsets.size = items.size
  offsets : ∀ e ∈ placed, p.offsets[e.1]? = some e.2.toUInt32
  stands : ∀ e ∈ placed, Stands items chunk e
  above : ∀ e ∈ placed, header ≤ e.2
  below : ∀ e ∈ placed, e.2 + room items e ≤ p.cursor
  apart : placed.Pairwise fun a b => a.2 + room items a ≤ b.2
  header_le : header ≤ p.cursor
  cursor_le : p.cursor ≤ (p.lastBlock + 1) * chunk
  block_le : ∀ e ∈ placed, e.2 / chunk ≤ p.lastBlock
  lastBlock_le : p.lastBlock ≤ (header - 1) / chunk + 2 * placed.length
  lastBlock_eq : p.lastBlock = (header - 1) / chunk ∨ ∃ e ∈ placed, p.lastBlock = e.2 / chunk
  cursor_eq : p.cursor = header + (placed.map (room items)).sum + p.slack
  words : Words items chunk header → 4 ∣ p.cursor ∧ ∀ e ∈ placed, 4 ∣ e.2

variable {items : Array Extent} {chunk header : ℕ} {p : Progress} {placed : List (ℕ × ℕ)}

/-! ## One item -/

theorem aligned_spec {o : ℕ} {a : UInt32} (h : o + a.toNat ≤ 2 ^ 32) (ho : o < 2 ^ 32) :
    o ≤ aligned o a ∧ (a.toNat ≤ 1 ∨ a.toNat ∣ aligned o a) := by
  unfold aligned
  split_ifs with ha
  · exact ⟨Nat.le_refl _, Or.inl (UInt32.le_iff_toNat_le.1 ha)⟩
  · rw [UInt32.le_iff_toNat_le, UInt32.toNat_one] at ha
    have ho' : o.toUInt32.toNat = o := toNat_toUInt32 ho
    have h1 := le_roundUp (v := o.toUInt32) (s := a) (by omega) (by omega)
    exact ⟨by omega, Or.inr (dvd_roundUp (by omega) (by omega))⟩

theorem dvd_aligned {o : ℕ} {a : UInt32} (h : o + a.toNat ≤ 2 ^ 32) (ho : o < 2 ^ 32)
    (ha : Alignment.valid a = true) (h4 : 4 ∣ o) : 4 ∣ aligned o a := by
  rcases Alignment.valid_cases ha with ha | ha | ⟨h4a, ha⟩
  · rw [aligned, if_pos (UInt32.le_iff_toNat_le.2 (by rw [ha, UInt32.toNat_one]))]
    exact h4
  · have ho' : o.toUInt32.toNat = o := toNat_toUInt32 ho
    rw [aligned, if_neg (by rw [UInt32.le_iff_toNat_le, ha, UInt32.toNat_one]; omega),
      roundUp_of_dvd (by omega) (by rw [ho', ha]; omega), ho']
    exact h4
  · exact ha.trans ((aligned_spec h ho).2.resolve_left (by omega))

/-- Where an item fits. -/
theorem fit?_eq_some {cursor : ℕ} {e : Extent} {place : ℕ} :
    fit? chunk cursor e = some place ↔
      place = cursor / chunk * chunk + aligned (cursor % chunk) e.alignment ∧
        place < (cursor / chunk + 1) * chunk ∧
        place + e.padSize.toNat ≤ (cursor / chunk + 1) * chunk := by
  have hsub : cursor - chunkStart chunk cursor = cursor % chunk := by
    have := Nat.div_add_mod' cursor chunk
    rw [chunkStart]
    omega
  have hnext : chunkStart chunk cursor + chunk = (cursor / chunk + 1) * chunk := by
    rw [chunkStart, Nat.add_mul, Nat.one_mul]
  simp only [fit?, hsub, hnext]
  split_ifs with hfit
  · rw [Option.some.injEq]
    constructor
    · rintro rfl
      exact ⟨rfl, hfit⟩
    · rintro ⟨rfl, -⟩
      rfl
  · simp only [false_iff]
    rintro ⟨rfl, hin⟩
    exact hfit hin

theorem fit?_spec {cursor : ℕ} {e : Extent} {place : ℕ} (hc : chunk ≤ 2 ^ 31)
    (hpos : 0 < chunk) (ha : e.alignment.toNat ≤ 2 ^ 31) (h : fit? chunk cursor e = some place) :
    cursor ≤ place ∧ place / chunk = cursor / chunk ∧
      place % chunk + e.padSize.toNat ≤ chunk ∧
      (e.alignment.toNat ≤ 1 ∨ e.alignment.toNat ∣ place % chunk) ∧
      place = cursor / chunk * chunk + aligned (cursor % chunk) e.alignment := by
  obtain ⟨rfl, hfit⟩ := fit?_eq_some.1 h
  rw [Nat.add_mul, Nat.one_mul] at hfit
  have hlt := Nat.mod_lt cursor hpos
  obtain ⟨hle, hal⟩ := aligned_spec (o := cursor % chunk) (a := e.alignment) (by omega) (by omega)
  have hd := Nat.div_add_mod' cursor chunk
  have hin : aligned (cursor % chunk) e.alignment < chunk := by omega
  have hmod : (cursor / chunk * chunk + aligned (cursor % chunk) e.alignment) % chunk =
      aligned (cursor % chunk) e.alignment := by
    rw [Nat.mul_add_mod', Nat.mod_eq_of_lt hin]
  refine ⟨by omega, ?_, ?_, ?_, rfl⟩
  · rw [Nat.add_comm, Nat.add_mul_div_right _ _ hpos, Nat.div_eq_of_lt hin, Nat.zero_add]
  · rw [hmod]; omega
  · rw [hmod]; exact hal

theorem pick?_spec {cursor i place : ℕ} {remaining rest : List ℕ}
    (h : pick? items chunk cursor remaining = some (i, place, rest)) :
    fit? chunk cursor (extent items i) = some place ∧ remaining.Perm (i :: rest) := by
  induction remaining generalizing rest with
  | nil => cases h
  | cons first others ih =>
    unfold pick? at h
    split at h
    · cases h
      exact ⟨‹_›, .refl _⟩
    · obtain ⟨⟨i', place', rest'⟩, hinner, heq⟩ := Option.map_eq_some_iff.1 h
      cases heq
      obtain ⟨hfit, hperm⟩ := ih hinner
      exact ⟨hfit, (hperm.cons first).trans (.swap _ _ _)⟩

/-- **What placing one item keeps true**, wherever the cursor stood in between. -/
theorem Laid.put (h : Laid items chunk header p placed) {q : Progress}
    (ho : q.offsets = p.offsets) (hb : q.lastBlock = p.lastBlock) {i place : ℕ}
    (hslack : q.slack + (place - q.cursor) = p.slack + (place - p.cursor)) (hi : i < items.size)
    (hnew : i ∉ placed.map Prod.fst) (hs : Stands items chunk (i, place))
    (hcur : p.cursor ≤ place) (hblock : place / chunk ≤ p.lastBlock + 2)
    (hw : Words items chunk header → 4 ∣ p.cursor → 4 ∣ place) :
    Laid items chunk header (q.put items chunk i place) (placed ++ [(i, place)]) := by
  have hstop : place + room items (i, place) ≤ (place / chunk + 1) * chunk := by
    have := Nat.div_add_mod' place chunk
    have := hs.inside
    rw [Nat.add_mul, Nat.one_mul]
    simp only at this
    omega
  have both {P : ℕ × ℕ → Prop} (h1 : ∀ e ∈ placed, P e) (h2 : P (i, place)) :
      ∀ e ∈ placed ++ [(i, place)], P e := by
    intro e he
    rcases List.mem_append.1 he with he | he
    · exact h1 e he
    · rw [List.mem_singleton.1 he]; exact h2
  simp only [Progress.put, ho, hb]
  refine ⟨?_, both (fun e he => ?_) ?_, both h.stands hs, both h.above (h.header_le.trans hcur),
    both (fun e he => (h.below e he).trans (hcur.trans (Nat.le_add_right _ _))) (Nat.le_refl _),
    ?_, h.header_le.trans (hcur.trans (Nat.le_add_right _ _)), ?_,
    both (fun e he => (h.block_le e he).trans (Nat.le_max_left _ _)) (Nat.le_max_right _ _), ?_,
    ?_, ?_, fun w => ?_⟩
  · rw [Array.size_setIfInBounds, h.size_eq]
  · rw [Array.getElem?_setIfInBounds_ne fun hie : i = e.1 => hnew (hie ▸ List.mem_map_of_mem he)]
    exact h.offsets e he
  · rw [Array.getElem?_setIfInBounds_self, if_pos (h.size_eq ▸ hi)]
  · refine List.pairwise_append.2 ⟨h.apart, List.pairwise_singleton _ _, fun a ha b hb => ?_⟩
    rw [List.mem_singleton.1 hb]
    exact (h.below a ha).trans hcur
  · exact hstop.trans (Nat.mul_le_mul_right _ (Nat.succ_le_succ (Nat.le_max_right _ _)))
  · have := h.lastBlock_le
    simp only [List.length_append, List.length_singleton]
    omega
  · rcases Nat.le_total p.lastBlock (place / chunk) with hle | hle
    · exact Or.inr ⟨(i, place), by simp, Nat.max_eq_right hle⟩
    · rw [Nat.max_eq_left hle]
      exact h.lastBlock_eq.imp_right fun ⟨e, he, hb⟩ => ⟨e, by simp [he], hb⟩
  · have := h.cursor_eq
    rw [List.map_append, List.sum_append, List.map_singleton, List.sum_singleton, hslack]
    simp only [room]
    omega
  · obtain ⟨w1, w2⟩ := h.words w
    exact ⟨Nat.dvd_add (hw w w1) (w.padSize_words i hi), both w2 (hw w w1)⟩

/-- The start of the next chunk suits every item. -/
theorem stands_skip {i : ℕ} (hi : Admits items chunk i) (hpos : 0 < chunk) :
    Stands items chunk (i, (p.skip chunk).cursor) ∧ p.cursor ≤ (p.skip chunk).cursor ∧
      (p.skip chunk).cursor / chunk = p.cursor / chunk + 1 ∧ chunk ∣ (p.skip chunk).cursor := by
  have he : (p.skip chunk).cursor = (p.cursor / chunk + 1) * chunk := by
    simp only [Progress.skip, chunkStart, Nat.add_mul, Nat.one_mul]
  have hd := Nat.div_add_mod' p.cursor chunk
  have hlt := Nat.mod_lt p.cursor hpos
  rw [he]
  refine ⟨⟨?_, Or.inr ?_⟩, ?_, Nat.mul_div_cancel _ hpos, Nat.dvd_mul_left _ _⟩
  · simp only [Nat.mul_mod_left, Nat.zero_add]
    exact hi.padSize_le
  · simp only [Nat.mul_mod_left]
    exact Nat.dvd_zero _
  · rw [Nat.add_mul, Nat.one_mul]; omega

/-! ## All items -/

/-- Nothing has been placed yet behind a header. -/
def initial (items : Array Extent) (chunk header : ℕ) : Progress :=
  { offsets := Array.replicate items.size 0, cursor := header, lastBlock := (header - 1) / chunk }

theorem run_nil (items : Array Extent) (chunk : ℕ) (p : Progress) : run items chunk p [] = p := by
  rw [run]
  rfl

theorem run_of_pick?_eq_some {i place : ℕ} {remaining rest : List ℕ}
    (h : pick? items chunk p.cursor remaining = some (i, place, rest)) :
    run items chunk p remaining = run items chunk (p.put items chunk i place) rest := by
  rw [run.eq_def items chunk p remaining]
  split
  · rename_i hpick
    cases h.symm.trans hpick
    rfl
  · rename_i hpick
    cases h.symm.trans hpick

theorem run_of_pick?_eq_none {i : ℕ} {rest : List ℕ}
    (h : pick? items chunk p.cursor (i :: rest) = none) :
    run items chunk p (i :: rest) =
      run items chunk ((p.skip chunk).put items chunk i (p.skip chunk).cursor) rest := by
  rw [run.eq_def items chunk p (i :: rest)]
  split
  · rename_i hpick
    cases h.symm.trans hpick
  · rfl

/-- **What placing all items does**: each is placed once. -/
theorem Laid.run {remaining : List ℕ} (h : Laid items chunk header p placed) (hpos : 0 < chunk)
    (hc : chunk ≤ 2 ^ 31) (hadm : ∀ i ∈ remaining, Admits items chunk i)
    (hnew : (placed.map Prod.fst ++ remaining).Nodup) :
    ∃ placed', Laid items chunk header (run items chunk p remaining) placed' ∧
      (placed'.map Prod.fst).Perm (placed.map Prod.fst ++ remaining) := by
  -- placing one of the remaining items moves it to those placed
  have move {i place : ℕ} {rest remaining : List ℕ} {placed : List (ℕ × ℕ)}
      (hperm : remaining.Perm (i :: rest)) :
      ((placed ++ [(i, place)]).map Prod.fst ++ rest).Perm (placed.map Prod.fst ++ remaining) := by
    rw [List.map_append, List.append_assoc]
    exact (hperm.symm.append_left _)
  induction p, remaining using run.induct items chunk generalizing placed with
  | case1 p remaining i place rest hpick ih =>
    obtain ⟨hfit, hperm⟩ := pick?_spec hpick
    have hi := hadm i (hperm.mem_iff.2 (by simp))
    obtain ⟨hcur, hblock, hin, hal, hplace⟩ := fit?_spec hc hpos hi.alignment_le hfit
    have hcle : p.cursor / chunk ≤ p.lastBlock + 1 :=
      Nat.div_le_of_le_mul (by rw [Nat.mul_comm]; exact h.cursor_le)
    have hnotin : i ∉ placed.map Prod.fst := fun hmem =>
      (List.nodup_append.1 hnew).2.2 i hmem i (hperm.mem_iff.2 (by simp)) rfl
    have hput := h.put (q := p) rfl rfl rfl hi.lt hnotin ⟨hin, hal⟩ hcur (by omega) fun w hw => by
      have hm := Nat.mod_lt p.cursor hpos
      have h4 : 4 ∣ p.cursor % chunk := (Nat.dvd_mod_iff w.chunk_words).2 hw
      rw [hplace]
      exact Nat.dvd_add (w.chunk_words.mul_left _)
        (dvd_aligned (by have := hi.alignment_le; omega) (by omega) (w.alignment i hi.lt) h4)
    obtain ⟨placed', hl, hp'⟩ := ih hput
      (fun j hj => hadm j (hperm.mem_iff.2 (List.mem_cons_of_mem _ hj)))
      ((move hperm).nodup_iff.2 hnew)
    rw [run_of_pick?_eq_some hpick]
    exact ⟨placed', hl, hp'.trans (move hperm)⟩
  | case2 p hpick =>
    rw [run_nil]
    exact ⟨placed, h, by simp⟩
  | case3 p i rest hpick skipped =>
    rename_i ih
    have hi := hadm i (by simp)
    obtain ⟨hs, hcur, hblock, hdvd⟩ := stands_skip (p := p) hi hpos
    have hcle : p.cursor / chunk ≤ p.lastBlock + 1 :=
      Nat.div_le_of_le_mul (by rw [Nat.mul_comm]; exact h.cursor_le)
    have hnotin : i ∉ placed.map Prod.fst := fun hmem =>
      (List.nodup_append.1 hnew).2.2 i hmem i (by simp) rfl
    have hput := h.put (q := p.skip chunk) rfl rfl (by simp [Progress.skip]) hi.lt hnotin hs hcur
      (by omega) fun w _ => w.chunk_words.trans hdvd
    obtain ⟨placed', hl, hp'⟩ := ih hput (fun j hj => hadm j (List.mem_cons_of_mem _ hj))
      ((move (.refl _)).nodup_iff.2 hnew)
    rw [run_of_pick?_eq_none hpick]
    exact ⟨placed', hl, hp'.trans (move (.refl _))⟩

theorem Laid.apart_of_ne (h : Laid items chunk header p placed) {a b : ℕ × ℕ} (ha : a ∈ placed)
    (hb : b ∈ placed) (hne : a ≠ b) :
    a.2 + room items a ≤ b.2 ∨ b.2 + room items b ≤ a.2 := by
  have hor : placed.Pairwise fun a b => a.2 + room items a ≤ b.2 ∨ b.2 + room items b ≤ a.2 :=
    h.apart.imp Or.inl
  have : Std.Symm fun a b : ℕ × ℕ => a.2 + room items a ≤ b.2 ∨ b.2 + room items b ≤ a.2 :=
    ⟨fun _ _ => Or.symm⟩
  exact hor.forall ha hb hne

theorem laid_initial (hpos : 0 < chunk) : Laid items chunk header (initial items chunk header) [] := by
  refine ⟨Array.size_replicate, nofun, nofun, nofun, nofun, .nil, Nat.le_refl _, ?_, nofun,
    Nat.le_refl _, Or.inl rfl, by simp [initial], fun w => ⟨w.header_words, nofun⟩⟩
  have := Nat.div_add_mod' (header - 1) chunk
  have := Nat.mod_lt (header - 1) hpos
  rw [Nat.add_mul, Nat.one_mul]
  simp only [initial]
  omega

theorem size_run (items : Array Extent) (chunk : ℕ) (p : Progress) (remaining : List ℕ) :
    (run items chunk p remaining).offsets.size = p.offsets.size := by
  induction p, remaining using run.induct items chunk with
  | case1 p remaining i place rest hpick ih =>
    rw [run_of_pick?_eq_some hpick, ih, Progress.put, Array.size_setIfInBounds]
  | case2 p hpick => rw [run_nil]
  | case3 p i rest hpick skipped ih =>
    rw [run_of_pick?_eq_none hpick, ih, Progress.put, Array.size_setIfInBounds]
    rfl

end Placement

open Placement

section

variable {items : Array Extent} {order : List ℕ} {headerSize chunkSize : UInt32} {layout : Layout}

/-- **Where a layout comes from**: no item is too large, and all of them are placed. -/
theorem place_eq_ok (h : place items order headerSize chunkSize = .ok layout) :
    (∀ i ∈ order, (extent items i).padSize.toNat ≤ chunkSize.toNat) ∧
      ∃ p, p = run items chunkSize.toNat (initial items chunkSize.toNat headerSize.toNat) order ∧
        layout.offsets = p.offsets ∧ layout.chunksUsed = (p.lastBlock + 1).toUInt32 ∧
          layout.slack = p.slack ∧ layout.stop = p.cursor := by
  unfold place at h
  split at h
  · cases h
  rename_i hfind
  cases h
  refine ⟨fun i hi => ?_, _, rfl, rfl, rfl, rfl, rfl⟩
  have := List.find?_eq_none.1 hfind i hi
  rw [decide_eq_true_eq, UInt32.not_lt] at this
  exact UInt32.le_iff_toNat_le.1 this

theorem size_of_place (h : place items order headerSize chunkSize = .ok layout) :
    layout.offsets.size = items.size := by
  obtain ⟨-, p, rfl, hoff, -⟩ := place_eq_ok h
  rw [hoff, size_run, initial, Array.size_replicate]

/-- **What a layout says**: every item is placed once, behind the header, inside a
    chunk that is counted, and no two items overlap. -/
theorem place_laid (h : place items order headerSize chunkSize = .ok layout)
    (hpos : 0 < chunkSize.toNat) (hc : chunkSize.toNat ≤ 2 ^ 31)
    (hheader : headerSize.toNat ≤ chunkSize.toNat) (horder : order.Nodup)
    (hlt : ∀ i ∈ order, i < items.size) (hlen : order.length < 2 ^ 30)
    (halign : ∀ i ∈ order, (extent items i).alignment.toNat ≤ 2 ^ 31) :
    ∃ (p : Progress) (placed : List (ℕ × ℕ)),
      p = run items chunkSize.toNat (initial items chunkSize.toNat headerSize.toNat) order ∧
      Laid items chunkSize.toNat headerSize.toNat p placed ∧
      (placed.map Prod.fst).Perm order ∧ layout.offsets = p.offsets ∧
      layout.chunksUsed.toNat = p.lastBlock + 1 ∧ layout.stop = p.cursor := by
  obtain ⟨hfits, p, rfl, hoff, hused, -, hstop⟩ := place_eq_ok h
  obtain ⟨placed, hl, hperm⟩ := (laid_initial hpos).run hpos hc
    (fun i hi => ⟨hlt i hi, hfits i hi, halign i hi⟩) (by simpa using horder)
  refine ⟨_, placed, rfl, hl, by simpa using hperm, hoff, ?_, hstop⟩
  have hle := hl.lastBlock_le
  have hlength : placed.length = order.length := by
    have := hperm.length_eq
    simpa using this
  have hblock : (headerSize.toNat - 1) / chunkSize.toNat ≤ 1 :=
    Nat.div_le_of_le_mul (by omega)
  rw [hused]
  exact toNat_toUInt32 (by omega)

end

end LevelBundle
