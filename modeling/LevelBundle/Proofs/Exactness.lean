/-
  LevelBundle — layouts in exact arithmetic.

  Items are placed with numbers, but alignments are rounded in words and offsets end up in
  words.  Here no number is a word.

  * `roundedUp`: rounding; `toNat_roundUp_eq`: what is rounded in words is the same as long
    as it fits in a word.
  * `Placement.places`: the places of items; `exact_run`: placing goes through them.
  * `Packer.Exact`: a layout whose numbers are exact; `Accepts.exact`: every layout that is
    accepted.
-/
import LevelBundle.Proofs.BundleFile

namespace LevelBundle

/-- The least multiple of a step that is at least a number. -/
def roundedUp (n step : ℕ) : ℕ := (n + (step - 1)) / step * step

/-! ## Rounding -/

theorem roundedUp_eq {n step : ℕ} (h : 0 < step) :
    roundedUp n step = if n % step = 0 then n else n - n % step + step := by
  have hd := Nat.div_add_mod' n step
  have hlt := Nat.mod_lt n h
  unfold roundedUp
  split_ifs with hz
  · have hdiv : (n + (step - 1)) / step = n / step :=
      Nat.div_eq_of_lt_le (by omega) (by rw [Nat.add_one_mul]; omega)
    rw [hdiv]
    omega
  · have hdiv : (n + (step - 1)) / step = n / step + 1 :=
      Nat.div_eq_of_lt_le (by rw [Nat.add_one_mul]; omega)
        (by rw [Nat.add_one_mul, Nat.add_one_mul]; omega)
    rw [hdiv, Nat.add_one_mul]
    omega

/-- **Rounding does not wrap** as long as the result fits in a word. -/
theorem toNat_roundUp_eq {v s : UInt32} (hs : 0 < s.toNat)
    (h : roundedUp v.toNat s.toNat < 2 ^ 32) :
    (roundUp v s).toNat = roundedUp v.toNat s.toNat := by
  rw [roundedUp_eq hs] at h ⊢
  refine toNat_roundUp_of_lt hs fun hz => ?_
  rwa [if_neg hz] at h

theorem roundedUp_le {n step m : ℕ} (h : 0 < step) (hn : n ≤ m) (hm : step ∣ m) :
    roundedUp n step ≤ m := by
  obtain ⟨c, rfl⟩ := hm
  rw [roundedUp, Nat.mul_comm]
  refine Nat.mul_le_mul_left _ (Nat.le_of_lt_succ ?_)
  rw [Nat.div_lt_iff_lt_mul h, Nat.succ_mul, Nat.mul_comm c]
  omega

theorem roundedUp_lt (n : ℕ) {step : ℕ} (h : 0 < step) : roundedUp n step < n + step := by
  have := Nat.div_mul_le_self (n + (step - 1)) step
  unfold roundedUp
  omega

namespace Placement

variable {items : Array Extent} {chunk cursor : ℕ} {e : Extent}

/-! ## Exact places -/

/-- The place for an item at or behind the cursor, in the chunk of the cursor. -/
def placeFor (chunk cursor : ℕ) (e : Extent) : ℕ :=
  chunkStart chunk cursor +
    if e.alignment ≤ 1 then cursor - chunkStart chunk cursor
    else roundedUp (cursor - chunkStart chunk cursor) e.alignment.toNat

/-- An item fits between the cursor and the end of the chunk. -/
def Fits (chunk cursor : ℕ) (e : Extent) : Prop :=
  placeFor chunk cursor e < chunkStart chunk cursor + chunk ∧
    placeFor chunk cursor e + e.padSize.toNat ≤ chunkStart chunk cursor + chunk

instance (chunk cursor : ℕ) (e : Extent) : Decidable (Fits chunk cursor e) :=
  inferInstanceAs (Decidable (_ ∧ _))

/-- The first of the remaining items that fits. -/
def next? (items : Array Extent) (chunk cursor : ℕ) (remaining : List ℕ) : Option ℕ :=
  remaining.find? fun i => decide (Fits chunk cursor (extent items i))

/-- The places of items, in the order of their placing. -/
def places (items : Array Extent) (chunk cursor : ℕ) (remaining : List ℕ) : List (ℕ × ℕ) :=
  match _h : next? items chunk cursor remaining with
  | some i =>
    let place := placeFor chunk cursor (extent items i)
    (i, place) ::
      places items chunk (place + (extent items i).padSize.toNat) (remaining.erase i)
  | none =>
    match remaining with
    | [] => []
    | i :: rest =>
      let place := chunkStart chunk cursor + chunk
      (i, place) :: places items chunk (place + (extent items i).padSize.toNat) rest
termination_by remaining.length
decreasing_by
  · have hmem := List.mem_of_find?_eq_some _h
    have := List.length_pos_of_mem hmem
    rw [List.length_erase_of_mem hmem]
    omega
  · simp

theorem next?_spec {remaining : List ℕ} {i : ℕ} (h : next? items chunk cursor remaining = some i) :
    i ∈ remaining ∧ Fits chunk cursor (extent items i) :=
  ⟨List.mem_of_find?_eq_some h, of_decide_eq_true (List.find?_some (p := fun i => decide
    (Fits chunk cursor (extent items i))) h)⟩

/-- **A place is exact**, since it lies in a chunk. -/
theorem fit?_eq (hc : chunk ≤ 2 ^ 31) (hpos : 0 < chunk) (ha : e.alignment.toNat ≤ 2 ^ 31) :
    fit? chunk cursor e =
      if Fits chunk cursor e then some (placeFor chunk cursor e) else none := by
  have hlt : cursor - chunkStart chunk cursor < chunk := by
    have := Nat.div_add_mod' cursor chunk
    have := Nat.mod_lt cursor hpos
    rw [chunkStart]
    omega
  have haligned : chunkStart chunk cursor + aligned (cursor - chunkStart chunk cursor) e.alignment =
      placeFor chunk cursor e := by
    unfold aligned placeFor
    split_ifs with h1
    · rfl
    · rw [UInt32.le_iff_toNat_le, UInt32.toNat_one] at h1
      have hword : (cursor - chunkStart chunk cursor).toUInt32.toNat =
          cursor - chunkStart chunk cursor := toNat_toUInt32 (by omega)
      have hup := roundedUp_lt (cursor - chunkStart chunk cursor)
        (show 0 < e.alignment.toNat by omega)
      rw [toNat_roundUp_eq (by omega) (by rw [hword]; omega), hword]
  simp only [fit?, haligned]
  rfl

/-- The item that is placed next, and its place. -/
theorem pick?_eq (hc : chunk ≤ 2 ^ 31) (hpos : 0 < chunk) {remaining : List ℕ}
    (ha : ∀ i ∈ remaining, (extent items i).alignment.toNat ≤ 2 ^ 31) :
    pick? items chunk cursor remaining = (next? items chunk cursor remaining).map fun i =>
      (i, placeFor chunk cursor (extent items i), remaining.erase i) := by
  induction remaining with
  | nil => rfl
  | cons j rest ih =>
    rw [pick?, fit?_eq hc hpos (ha j (by simp)), next?, List.find?_cons]
    by_cases hj : Fits chunk cursor (extent items j)
    · simp [hj]
    · have hrest := ih fun i hi => ha i (by simp [hi])
      simp only [hj, if_false, decide_false, hrest, Option.map_map]
      refine Option.map_congr fun i hi => ?_
      have hne : j ≠ i := by
        rintro rfl
        exact hj (next?_spec hi).2
      simp [List.erase_cons_tail, hne]

/-- The chunk that the last of some items starts in. -/
def lastBlock (chunk : ℕ) (block : ℕ) (placed : List (ℕ × ℕ)) : ℕ :=
  placed.foldl (fun block e => max block (e.2 / chunk)) block

theorem le_lastBlock (chunk block : ℕ) (placed : List (ℕ × ℕ)) :
    block ≤ lastBlock chunk block placed ∧
      ∀ e ∈ placed, e.2 / chunk ≤ lastBlock chunk block placed := by
  induction placed generalizing block with
  | nil => exact ⟨Nat.le_refl _, nofun⟩
  | cons e placed ih =>
    obtain ⟨h1, h2⟩ := ih (max block (e.2 / chunk))
    refine ⟨(Nat.le_max_left _ _).trans h1, fun e' he => ?_⟩
    rcases List.mem_cons.1 he with rfl | he
    · exact (Nat.le_max_right _ _).trans h1
    · exact h2 e' he

/-! ## All places -/

variable {p : Progress}

theorem places_of_next {remaining : List ℕ} {i : ℕ} (h : next? items chunk cursor remaining = some i) :
    places items chunk cursor remaining = (i, placeFor chunk cursor (extent items i)) ::
      places items chunk (placeFor chunk cursor (extent items i) + (extent items i).padSize.toNat)
        (remaining.erase i) := by
  rw [places.eq_def items chunk cursor remaining]
  split
  · rename_i hnext
    cases h.symm.trans hnext
    rfl
  · rename_i hnext
    cases h.symm.trans hnext

theorem places_of_none {i : ℕ} {rest : List ℕ} (h : next? items chunk cursor (i :: rest) = none) :
    places items chunk cursor (i :: rest) = (i, chunkStart chunk cursor + chunk) ::
      places items chunk (chunkStart chunk cursor + chunk + (extent items i).padSize.toNat) rest := by
  rw [places.eq_def items chunk cursor (i :: rest)]
  split
  · rename_i hnext
    cases h.symm.trans hnext
  · rfl

theorem places_nil (items : Array Extent) (chunk cursor : ℕ) : places items chunk cursor [] = [] := by
  rw [places]
  rfl

/-- What a layout says of the exact places of its items. -/
structure Exact (items : Array Extent) (chunk : ℕ) (p q : Progress) (remaining : List ℕ)
    (placed : List (ℕ × ℕ)) : Prop where
  perm : (placed.map Prod.fst).Perm remaining
  lastBlock : q.lastBlock = lastBlock chunk p.lastBlock placed
  offsets : ∀ e ∈ placed, q.offsets[e.1]? = some e.2.toUInt32
  others : ∀ j ∉ remaining, q.offsets[j]? = p.offsets[j]?
  inside : ∀ e ∈ placed, e.2 % chunk + room items e ≤ chunk

/-- One more item in front of those that are placed exactly. -/
theorem Exact.cons {q : Progress} {i place : ℕ} {remaining rest : List ℕ} {placed : List (ℕ × ℕ)}
    {p' : Progress} (h : Exact items chunk (p'.put items chunk i place) q rest placed)
    (ho : p'.offsets = p.offsets) (hb : p'.lastBlock = p.lastBlock)
    (hperm : remaining.Perm (i :: rest)) (hn : remaining.Nodup) (hi : i < p.offsets.size)
    (hin : place % chunk + room items (i, place) ≤ chunk) :
    Exact items chunk p q remaining ((i, place) :: placed) := by
  have hnot : i ∉ rest := (List.nodup_cons.1 (hperm.nodup_iff.1 hn)).1
  refine ⟨(h.perm.cons i).trans hperm.symm, ?_, ?_, fun j hj => ?_, ?_⟩
  · rw [h.lastBlock, Progress.put, hb]
    rfl
  · rintro e (_ | ⟨_, he⟩)
    · rw [h.others i hnot, Progress.put, ho, Array.getElem?_setIfInBounds_self, if_pos hi]
    · exact h.offsets e he
  · rw [hperm.mem_iff, List.mem_cons, not_or] at hj
    rw [h.others j hj.2, Progress.put, ho, Array.getElem?_setIfInBounds_ne (Ne.symm hj.1)]
  · rintro e (_ | ⟨_, he⟩)
    · exact hin
    · exact h.inside e he

/-- **Every item is placed exactly**, but for the offsets of places that do not fit. -/
theorem exact_run (hc : chunk ≤ 2 ^ 31) (hpos : 0 < chunk) {remaining : List ℕ}
    (hn : remaining.Nodup) (hadm : ∀ i ∈ remaining, Admits items chunk i)
    (hsize : p.offsets.size = items.size) :
    Exact items chunk p (run items chunk p remaining) remaining
      (places items chunk p.cursor remaining) := by
  induction p, remaining using run.induct items chunk with
  | case1 p remaining i place rest hpick ih =>
    have hpick' := hpick
    rw [pick?_eq hc hpos fun i hi => (hadm i hi).alignment_le] at hpick
    obtain ⟨j, hnext, hj⟩ := Option.map_eq_some_iff.1 hpick
    cases hj
    obtain ⟨hmem, hfits⟩ := next?_spec hnext
    have hi := hadm i hmem
    have hfit : fit? chunk p.cursor (extent items i) = some (placeFor chunk p.cursor (extent items i)) := by
      rw [fit?_eq hc hpos hi.alignment_le, if_pos hfits]
    rw [run_of_pick?_eq_some hpick', places_of_next hnext]
    refine (ih (hn.erase i) (fun j hj => hadm j (List.mem_of_mem_erase hj))
      ((Array.size_setIfInBounds ..).trans hsize)).cons rfl rfl (List.perm_cons_erase hmem) hn
      (hsize ▸ hi.lt) (fit?_spec hc hpos hi.alignment_le hfit).2.2.1
  | case2 p hpick =>
    rw [run_nil, places_nil]
    exact ⟨.refl _, rfl, by simp, fun _ _ => rfl, by simp⟩
  | case3 p i rest hpick skipped ih =>
    have hi := hadm i (by simp)
    have hnone : next? items chunk p.cursor (i :: rest) = none := by
      have hpick := hpick
      rwa [pick?_eq hc hpos fun i hi => (hadm i hi).alignment_le, Option.map_eq_none_iff] at hpick
    rw [run_of_pick?_eq_none hpick, places_of_none hnone]
    exact (ih (List.nodup_cons.1 hn).2 (fun j hj => hadm j (List.mem_cons_of_mem _ hj))
      ((Array.size_setIfInBounds ..).trans hsize)).cons rfl rfl (.refl _) hn (hsize ▸ hi.lt)
      (stands_skip (p := p) hi hpos).1.inside

end Placement

open Placement

namespace Packer

variable {ctx : CompileContext} {pad : UInt32} {k : Packer} {p q : Program} {fixups : ℕ}
  {s : Settled}

/-- The exact places of items behind a header, in the order of their placing. -/
def places (k : Packer) (items : List Item) (header : ℕ) : List (ℕ × ℕ) :=
  Placement.places (items.map Item.extent).toArray k.options.chunkSize.toNat header (k.order items)

/-- **A layout without overflow**: its numbers are those that exact arithmetic gives, and each
    item ends in the chunks that are counted. -/
structure Exact (k : Packer) (items : List Item) (fixups : ℕ) (s : Settled) : Prop where
  /-- The chunks, and one more, can be named, and end below `2 ^ 32`. -/
  capacity : s.capacity.toNat < k.addressing.maxBlocks.toNat ∧
    (s.capacity.toNat + 1) * k.options.chunkSize.toNat < 2 ^ 32
  /-- The header is as large as it has to be. -/
  headerSize : s.headerSize.toNat = k.headerSize s.capacity fixups
  /-- There are chunks up to the last one that something starts in. -/
  chunksUsed : s.layout.chunksUsed.toNat =
    Placement.lastBlock k.options.chunkSize.toNat
      ((s.headerSize.toNat - 1) / k.options.chunkSize.toNat) (k.places items s.headerSize.toNat) + 1
  /-- Each offset is an exact place. -/
  offsets : ∀ (i : ℕ) (hi : i < items.length), ∃ o : UInt32, s.layout.offsets[i]? = some o ∧
    (i, o.toNat) ∈ k.places items s.headerSize.toNat ∧
    o.toNat + items[i].padSize.toNat ≤ s.capacity.toNat * k.options.chunkSize.toNat

/-- **An accepted layout has not overflown.** -/
theorem Accepts.exact (hk : k.Sane) (hp : p.Sound ctx pad) (g : Grain ctx.chunkSize pad)
    (hs : k.Accepts p.items fixups s) : Exact k p.items fixups s := by
  obtain ⟨h16, h30, -⟩ := k.addressing.words
  rw [hk] at h16 h30
  have hadm := hs.admits hp g
  have hperm := k.order_perm p.items
  have hn : (k.order p.items).Nodup := hperm.nodup_iff.2 List.nodup_range
  have hheader := hs.toNat_headerSize hk
  obtain ⟨pr, -, rfl, -, -, hoff, hused⟩ := hs.laid hk hp g
  have hexact := exact_run (p := initial (p.items.map Item.extent).toArray
    k.options.chunkSize.toNat s.headerSize.toNat) (by omega) (by omega) hn hadm
    Array.size_replicate
  have hlast : s.layout.chunksUsed.toNat = Placement.lastBlock k.options.chunkSize.toNat
      ((s.headerSize.toNat - 1) / k.options.chunkSize.toNat)
      (k.places p.items s.headerSize.toNat) + 1 :=
    hused.trans (congrArg (· + 1) hexact.lastBlock)
  refine ⟨capacity_spec hk hs.capacity_le, hheader, hlast, fun i hi => ?_⟩
  -- the place of the item
  have hmem : i ∈ (k.places p.items s.headerSize.toNat).map Prod.fst :=
    hexact.perm.mem_iff.2 (hperm.mem_iff.2 (List.mem_range.2 hi))
  obtain ⟨⟨j, o⟩, he, hj⟩ := List.mem_map.1 hmem
  obtain rfl : j = i := hj
  have hin : o % k.options.chunkSize.toNat +
    room (p.items.map Item.extent).toArray (j, o) ≤ k.options.chunkSize.toNat := hexact.inside _ he
  have hreach : j < p.reachable.length := by rwa [Program.items, List.length_map] at hi
  have hroom : room (p.items.map Item.extent).toArray (j, o) = p.items[j].padSize.toNat := by
    rw [room, extent_items p hreach]
    simp [Program.items, Item.extent]
  rw [hroom] at hin
  -- it lies in a chunk that is counted
  have hblock : o / k.options.chunkSize.toNat ≤ _ := (le_lastBlock k.options.chunkSize.toNat
    ((s.headerSize.toNat - 1) / k.options.chunkSize.toNat)
    (k.places p.items s.headerSize.toNat)).2 _ he
  have hchunks := UInt32.le_iff_toNat_le.1 hs.chunksUsed_le
  obtain ⟨-, hfile⟩ := capacity_spec hk hs.capacity_le
  have hd := Nat.div_add_mod' o k.options.chunkSize.toNat
  have hmul := Nat.mul_le_mul_right k.options.chunkSize.toNat
    (show o / k.options.chunkSize.toNat + 1 ≤ s.capacity.toNat by omega)
  rw [Nat.add_one_mul] at hmul hfile
  have hnat : o.toUInt32.toNat = o := toNat_toUInt32 (by omega)
  refine ⟨o.toUInt32, hoff ▸ hexact.offsets _ he, hnat.symm ▸ he, ?_⟩
  rw [hnat]
  omega

end Packer

end LevelBundle
