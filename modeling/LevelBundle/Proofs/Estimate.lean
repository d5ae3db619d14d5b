/-
  LevelBundle — how many chunks a layout takes.

  A layout is looked for in passes, the first of which starts from an estimate: the words in
  front and the items, without a gap.

  * `Placement.Filled chunk header p total`: items of the size `total` have been placed; they
    take that room behind the header, and no chunk has been left empty.
  * `Packer.layouts`: the layouts of the passes.  `settle_layouts`: what is answered comes
    from the last of them.
  * `estimate_le_layouts`: a layout takes no less than was estimated, whichever pass it is of.
-/
import LevelBundle.Proofs.Packing

namespace LevelBundle

namespace Placement

variable {items : Array Extent} {chunk header total : ℕ} {p q : Progress}

/-! ## Room -/

theorem le_aligned {o : ℕ} {a : UInt32} (ho : o < 2 ^ 31) : o ≤ aligned o a := by
  unfold aligned
  split_ifs with ha
  · exact Nat.le_refl _
  · rw [UInt32.le_iff_toNat_le, UInt32.toNat_one] at ha
    have hword : o.toUInt32.toNat = o := toNat_toUInt32 (by omega)
    have hmod := Nat.mod_le o a.toNat
    have hlt := Nat.mod_lt o (show 0 < a.toNat by omega)
    have hbound : o % a.toNat ≠ 0 → o - o % a.toNat + a.toNat < 2 ^ 32 := by
      intro _
      have ha' := a.toNat_lt
      rcases Nat.lt_or_ge o a.toNat with h | h
      · rw [Nat.mod_eq_of_lt h]
        omega
      · omega
    rw [toNat_roundUp_of_lt (by omega) (by rwa [hword]), hword]
    split_ifs <;> omega

theorem aligned_zero (a : UInt32) : aligned 0 a = 0 := by
  unfold aligned
  split_ifs with ha
  · rfl
  · rw [UInt32.le_iff_toNat_le, UInt32.toNat_one] at ha
    rw [roundUp_of_dvd (by omega) (Nat.dvd_zero _)]
    rfl

theorem fit?_of_dvd {cursor : ℕ} {e : Extent} (hpos : 0 < chunk) (hd : chunk ∣ cursor)
    (he : e.padSize.toNat ≤ chunk) : fit? chunk cursor e = some cursor := by
  rw [fit?_eq_some, Nat.mod_eq_zero_of_dvd hd, aligned_zero, Nat.add_mul, Nat.one_mul,
    Nat.div_mul_cancel hd]
  omega

theorem fit?_of_pick?_eq_none {cursor i : ℕ} {rest : List ℕ}
    (h : pick? items chunk cursor (i :: rest) = none) :
    fit? chunk cursor (extent items i) = none := by
  unfold pick? at h
  split at h
  · cases h
  · assumption

/-- Items of the size `total` have been placed, and every chunk up to the last is taken. -/
structure Filled (chunk header : ℕ) (p : Progress) (total : ℕ) : Prop where
  room : header + total ≤ p.cursor
  cursor_le : p.cursor ≤ (p.lastBlock + 1) * chunk
  block_le : p.lastBlock * chunk ≤ p.cursor
  taken : p.cursor ≤ (total + 1) * chunk

theorem Filled.next_le (h : Filled chunk header p total) (hpos : 0 < chunk)
    (hd : ¬ chunk ∣ p.cursor) : (p.cursor / chunk + 1) * chunk ≤ (total + 1) * chunk := by
  have hne : p.cursor ≠ (total + 1) * chunk := fun heq => hd ⟨total + 1, by rw [heq, Nat.mul_comm]⟩
  have hlt : p.cursor < (total + 1) * chunk := Nat.lt_of_le_of_ne h.taken hne
  exact Nat.mul_le_mul_right _ ((Nat.div_lt_iff_lt_mul hpos).2 hlt)

/-- **What placing one item keeps true.** -/
theorem Filled.put (h : Filled chunk header p total) (ho : q.lastBlock = p.lastBlock) {i place : ℕ}
    (hcur : p.cursor ≤ place)
    (hin : place + (extent items i).padSize.toNat ≤ (place / chunk + 1) * chunk)
    (htaken : place + (extent items i).padSize.toNat ≤
      (total + (extent items i).padSize.toNat + 1) * chunk) :
    Filled chunk header (q.put items chunk i place) (total + (extent items i).padSize.toNat) := by
  have hplace := Nat.div_mul_le_self place chunk
  have hroom := h.room
  have hblock := h.block_le
  simp only [Progress.put, ho]
  refine ⟨by simp only; omega, ?_, ?_, htaken⟩
  · exact hin.trans (Nat.mul_le_mul_right _ (Nat.succ_le_succ (Nat.le_max_right _ _)))
  · simp only
    rcases Nat.le_total p.lastBlock (place / chunk) with hle | hle
    · rw [Nat.max_eq_right hle]
      omega
    · rw [Nat.max_eq_left hle]
      omega

theorem Filled.put_fit (h : Filled chunk header p total) (hpos : 0 < chunk) (hc : chunk ≤ 2 ^ 30)
    {i place : ℕ} (hsize : (extent items i).padSize.toNat ≤ chunk)
    (hfit : fit? chunk p.cursor (extent items i) = some place) :
    Filled chunk header (p.put items chunk i place) (total + (extent items i).padSize.toNat) := by
  obtain ⟨hplace, hlt, hin⟩ := fit?_eq_some.1 hfit
  have hmod := Nat.mod_lt p.cursor hpos
  have hal := le_aligned (a := (extent items i).alignment)
    (show p.cursor % chunk < 2 ^ 31 by omega)
  have hdiv := Nat.div_add_mod' p.cursor chunk
  have hcur : p.cursor ≤ place := by omega
  have hchunk : place / chunk = p.cursor / chunk :=
    Nat.le_antisymm (Nat.le_of_lt_succ ((Nat.div_lt_iff_lt_mul hpos).2 hlt))
      (Nat.div_le_div_right hcur)
  have hsizes := Nat.le_mul_of_pos_right (extent items i).padSize.toNat hpos
  refine h.put rfl hcur (hchunk ▸ hin) ?_
  rw [Nat.add_right_comm, Nat.add_mul]
  -- on a border nothing lies in the chunk yet, and the item starts there
  by_cases hd : chunk ∣ p.cursor
  · have htaken := h.taken
    rw [fit?_of_dvd hpos hd hsize, Option.some.injEq] at hfit
    omega
  · have hnext := h.next_le hpos hd
    omega

theorem Filled.put_skip (h : Filled chunk header p total) (hpos : 0 < chunk) {i : ℕ}
    (hsize : (extent items i).padSize.toNat ≤ chunk)
    (hfit : fit? chunk p.cursor (extent items i) = none) :
    Filled chunk header ((p.skip chunk).put items chunk i (p.skip chunk).cursor)
      (total + (extent items i).padSize.toNat) := by
  -- the chunk of the cursor is not left empty: on a border the item would have fitted
  have hd : ¬ chunk ∣ p.cursor := fun hd => by
    rw [fit?_of_dvd hpos hd hsize] at hfit
    cases hfit
  have hplace : (p.skip chunk).cursor = (p.cursor / chunk + 1) * chunk := by
    simp only [Progress.skip, chunkStart, Nat.add_mul, Nat.one_mul]
  have hnext := h.next_le hpos hd
  have hdiv := Nat.div_add_mod' p.cursor chunk
  have hmod := Nat.mod_lt p.cursor hpos
  have hsizes := Nat.le_mul_of_pos_right (extent items i).padSize.toNat hpos
  refine h.put (q := p.skip chunk) rfl ?_ ?_ ?_
  · rw [hplace, Nat.add_mul, Nat.one_mul]
    omega
  · rw [hplace, Nat.mul_div_cancel _ hpos, Nat.add_mul (_ + 1), Nat.one_mul]
    omega
  · rw [hplace, Nat.add_right_comm, Nat.add_mul (_ + 1)]
    omega

/-- **What placing all items does**: they all take their room. -/
theorem Filled.run {remaining : List ℕ} (h : Filled chunk header p total) (hpos : 0 < chunk)
    (hc : chunk ≤ 2 ^ 30) (hsize : ∀ i ∈ remaining, (extent items i).padSize.toNat ≤ chunk) :
    Filled chunk header (run items chunk p remaining)
      (total + (remaining.map fun i => (extent items i).padSize.toNat).sum) := by
  induction p, remaining using run.induct items chunk generalizing total with
  | case1 p remaining i place rest hpick ih =>
    obtain ⟨hfit, hperm⟩ := pick?_spec hpick
    have hput := h.put_fit hpos hc (hsize i (hperm.mem_iff.2 (by simp))) hfit
    have hrest := ih hput fun j hj => hsize j (hperm.mem_iff.2 (List.mem_cons_of_mem _ hj))
    rw [run_of_pick?_eq_some hpick, (hperm.map _).sum_nat, List.map_cons, List.sum_cons,
      ← Nat.add_assoc]
    exact hrest
  | case2 p hpick =>
    rw [run_nil]
    exact h
  | case3 p i rest hpick skipped =>
    rename_i ih
    have hput := h.put_skip hpos (hsize i (by simp)) (fit?_of_pick?_eq_none hpick)
    have hrest := ih hput fun j hj => hsize j (List.mem_cons_of_mem _ hj)
    rw [run_of_pick?_eq_none hpick, List.map_cons, List.sum_cons, ← Nat.add_assoc]
    exact hrest

end Placement

open Placement

/-- **What a layout takes**: the words in front and the items have room in its chunks. -/
theorem room_of_place {items : Array Extent} {order : List ℕ} {headerSize chunkSize : UInt32}
    {layout : Layout} {total : ℕ} (h : place items order headerSize chunkSize = .ok layout)
    (hpos : 0 < chunkSize.toNat) (hc : chunkSize.toNat ≤ 2 ^ 30) (hheader : 0 < headerSize.toNat)
    (hle : headerSize.toNat ≤ chunkSize.toNat)
    (htotal : (order.map fun i => (extent items i).padSize.toNat).sum = total)
    (hbound : total + 2 < 2 ^ 32) :
    headerSize.toNat + total ≤ layout.chunksUsed.toNat * chunkSize.toNat := by
  obtain ⟨hfits, p, rfl, -, hused, -⟩ := place_eq_ok h
  have hzero : (headerSize.toNat - 1) / chunkSize.toNat = 0 := Nat.div_eq_of_lt (by omega)
  have hstart : Filled chunkSize.toNat headerSize.toNat
      (initial items chunkSize.toNat headerSize.toNat) 0 := by
    constructor <;> simp only [initial, hzero] <;> omega
  have hrun := hstart.run hpos hc hfits
  rw [Nat.zero_add, htotal] at hrun
  have hlast := Nat.le_of_mul_le_mul_right (hrun.block_le.trans hrun.taken) hpos
  rw [hused, toNat_toUInt32 (by omega)]
  exact hrun.room.trans hrun.cursor_le

namespace Packer

variable {k : Packer} {p : Program} {items : List Item} {fixups : ℕ}

/-! ## Estimates -/

/-- The sizes of all items. -/
def total (items : List Item) : ℕ := (items.map fun i => i.padSize.toNat).sum

theorem sum_order (k : Packer) (items : List Item) :
    ((k.order items).map fun i =>
      (extent (items.map Item.extent).toArray i).padSize.toNat).sum = total items := by
  rw [((k.order_perm items).map _).sum_nat, total]
  congr 1
  refine List.ext_getElem (by simp) fun i h1 h2 => ?_
  have hi : i < items.length := by simpa using h1
  simp [extent, hi, Item.extent]

theorem headerSize_mono {c d : UInt32} (h : c ≤ d) :
    k.headerSize c fixups ≤ k.headerSize d fixups := by
  have := UInt32.le_iff_toNat_le.1 h
  unfold headerSize
  omega

/-- **What is estimated**, in numbers. -/
theorem toNat_estimate (ht : total items = sectionTotal items + p.store.totalPadSize) :
    (k.estimate p items fixups).toNat = max 1 (min ((k.headerSize 1 fixups + total items +
      (k.options.chunkSize.toNat - 1)) / k.options.chunkSize.toNat) 4294967295) := by
  rw [estimate, ← ht]
  exact toNat_toUInt32 (by omega)

theorem one_le_estimate : 1 ≤ k.estimate p items fixups := by
  rw [UInt32.le_iff_toNat_le, estimate, toNat_toUInt32 (by omega)]
  exact Nat.le_max_left _ _

/-- Nothing is too large that is estimated to have room. -/
theorem total_lt (hk : k.Sane) (ht : total items = sectionTotal items + p.store.totalPadSize)
    (h : k.estimate p items fixups ≤ k.maxChunks) :
    k.headerSize 1 fixups + total items < 2 ^ 32 := by
  obtain ⟨-, hlt⟩ := capacity_spec hk h
  obtain ⟨h16, -, -⟩ := k.addressing.words
  rw [hk] at h16
  have hest : (k.estimate p items fixups).toNat = _ := toNat_estimate ht
  generalize k.headerSize 1 fixups + total items = room at hest ⊢
  generalize k.options.chunkSize.toNat = chunk at *
  generalize (k.estimate p items fixups).toNat = estimate at *
  -- an estimate that is cut off is larger than any number of chunks
  have hle : (room + (chunk - 1)) / chunk ≤ estimate := by
    by_contra hgt
    have : 4294967295 * 16 ≤ (estimate + 1) * chunk := Nat.mul_le_mul (by omega) h16
    omega
  have hroom := (Nat.div_le_iff_le_mul_add_pred (by omega)).1 hle
  rw [Nat.add_mul] at hlt
  rw [Nat.mul_comm] at hroom
  omega

/-- **A layout takes no less than was estimated.** -/
theorem estimate_le_chunksUsed (hk : k.Sane)
    (ht : total items = sectionTotal items + p.store.totalPadSize) {capacity : UInt32}
    {layout : Layout} (hest : k.estimate p items fixups ≤ capacity) (hcap : capacity ≤ k.maxChunks)
    (hheader : k.headerSize capacity fixups ≤ k.options.chunkSize.toNat)
    (h : LevelBundle.place (items.map Item.extent).toArray (k.order items)
      (k.headerSize capacity fixups).toUInt32 k.options.chunkSize = .ok layout) :
    k.estimate p items fixups ≤ layout.chunksUsed := by
  obtain ⟨h16, h30, -⟩ := k.addressing.words
  rw [hk] at h16 h30
  have hlt := total_lt hk ht (UInt32.le_trans hest hcap)
  have hfirst : k.headerSize 1 fixups ≤ k.headerSize capacity fixups :=
    headerSize_mono (UInt32.le_trans one_le_estimate hest)
  have h16' : 16 ≤ k.headerSize 1 fixups := by
    unfold headerSize
    rw [UInt32.toNat_one]
    omega
  have hword : (k.headerSize capacity fixups).toUInt32.toNat = k.headerSize capacity fixups :=
    toNat_toUInt32 (by omega)
  have hroom := room_of_place h (by omega) h30 (by omega) (by omega) (k.sum_order items) (by omega)
  rw [UInt32.le_iff_toNat_le, toNat_estimate ht]
  have hused : layout.chunksUsed.toNat ≠ 0 := fun h0 => by
    rw [h0, Nat.zero_mul] at hroom
    omega
  have hdiv : (k.headerSize 1 fixups + total items + (k.options.chunkSize.toNat - 1)) /
      k.options.chunkSize.toNat ≤ layout.chunksUsed.toNat := by
    rw [Nat.div_le_iff_le_mul_add_pred (by omega), Nat.mul_comm]
    omega
  omega

/-! ## Passes -/

/-- The layouts of the passes: each one but the last is too large for its header. -/
def layouts (k : Packer) (items : List Item) (fixups : ℕ) : ℕ → UInt32 → List Layout
  | 0, _ => []
  | left + 1, capacity =>
    if k.maxChunks < capacity ∨ k.options.chunkSize.toNat < k.headerSize capacity fixups then []
    else
      match LevelBundle.place (items.map Item.extent).toArray (k.order items)
        (k.headerSize capacity fixups).toUInt32 k.options.chunkSize with
      | .error _ => []
      | .ok layout =>
        layout :: if layout.chunksUsed ≤ capacity then []
          else k.layouts items fixups left layout.chunksUsed

/-- **What is answered** comes from the last pass, and the passes are counted. -/
theorem settle_layouts {left : ℕ} {passes capacity : UInt32} {s : Settled}
    (h : k.settle items fixups left passes capacity = .ok s)
    (hleft : passes.toNat + left < 2 ^ 32) :
    ∃ earlier, k.layouts items fixups left capacity = earlier ++ [s.layout] ∧
      s.passes.toNat = passes.toNat + (earlier.length + 1) ∧
      (earlier = [] → s.capacity = capacity) := by
  induction left generalizing passes capacity with
  | zero => cases h
  | succ left ih =>
    have hnext : (passes + 1).toNat = passes.toNat + 1 := by
      rw [UInt32.toNat_add, UInt32.toNat_one, Nat.mod_eq_of_lt (by omega)]
    simp only [settle] at h
    split_ifs at h with h1 h2
    split at h
    · cases h
    rename_i layout hl
    have hlayouts : k.layouts items fixups (left + 1) capacity =
        layout :: if layout.chunksUsed ≤ capacity then []
          else k.layouts items fixups left layout.chunksUsed := by
      rw [layouts, if_neg (not_or.2 ⟨h1, h2⟩), hl]
    split_ifs at h with hu
    · cases h
      exact ⟨[], by rw [hlayouts, if_pos hu]; rfl, hnext, fun _ => rfl⟩
    · obtain ⟨earlier, he, hp, -⟩ := ih h (by omega)
      refine ⟨layout :: earlier, ?_, ?_, fun h => absurd h (List.cons_ne_nil _ _)⟩
      · rw [hlayouts, if_neg hu, he, List.cons_append]
      · rw [hp, hnext, List.length_cons]
        omega

/-- **Every layout takes no less than was estimated**, whichever pass it is of. -/
theorem estimate_le_layouts (hk : k.Sane)
    (ht : total items = sectionTotal items + p.store.totalPadSize) {left : ℕ} {capacity : UInt32}
    (hest : k.estimate p items fixups ≤ capacity) :
    ∀ layout ∈ k.layouts items fixups left capacity,
      k.estimate p items fixups ≤ layout.chunksUsed := by
  -- a pass that is not the last asks for more chunks than it had, so none has had less than
  -- was estimated
  induction left generalizing capacity with
  | zero => nofun
  | succ left ih =>
    intro layout hmem
    rw [layouts] at hmem
    split_ifs at hmem with hc
    · cases hmem
    obtain ⟨hcap, hheader⟩ := not_or.1 hc
    split at hmem
    · cases hmem
    rename_i found hfound
    rcases List.mem_cons.1 hmem with rfl | hmem
    · exact estimate_le_chunksUsed hk ht hest (UInt32.not_lt.1 hcap) (Nat.not_lt.1 hheader) hfound
    · split_ifs at hmem with hu
      · cases hmem
      · exact ih (UInt32.le_trans hest (UInt32.le_of_lt (UInt32.not_le.1 hu))) layout hmem

end Packer

end LevelBundle
