/-
  LevelBundle — first fit.

  Placing is greedy: at each step the first of the remaining items that fits behind the cursor
  is placed, and a chunk is left only when none of them does.  Since the cursor never goes
  back, an item that has not fitted in a chunk once does not fit there later.

  * `Placement.Refuses chunk t e`: an item has no room in a chunk from an offset on.
  * `Placement.exists_next`: all that placing one item can do.
  * `Placement.filled`: where the last of what lies in a chunk ends.
  * `pairwise_places`, `refuses_places`: the order of the places, and the ends of the chunks
    that are left.
  * `place_firstFit`: an item lies in front of those behind it in the order, or in a later
    chunk, and no item would have fitted at the end of a chunk in front of its own.
-/
import LevelBundle.Proofs.Exactness
import LevelBundle.Proofs.Layouts

namespace LevelBundle

namespace Placement

variable {items : Array Extent} {chunk cursor t k : ℕ} {e : Extent} {remaining : List ℕ}

/-! ## Room in a chunk -/

/-- An offset of a chunk, rounded up to the alignment of an item; an alignment of at most one
    asks for nothing. -/
def upTo (e : Extent) (t : ℕ) : ℕ :=
  if e.alignment ≤ 1 then t else roundedUp t e.alignment.toNat

/-- An item has no room in a chunk from an offset on: it would end behind the chunk, or start
    at its end. -/
def Refuses (chunk t : ℕ) (e : Extent) : Prop :=
  chunk < upTo e t + e.padSize.toNat ∨ upTo e t = chunk

theorem upTo_le {x : ℕ} (h : t ≤ x) (hx : e.alignment.toNat ≤ 1 ∨ e.alignment.toNat ∣ x) :
    upTo e t ≤ x := by
  unfold upTo
  split_ifs with h1
  · exact h
  · rw [UInt32.le_iff_toNat_le, UInt32.toNat_one] at h1
    exact roundedUp_le (by omega) h (hx.resolve_left h1)

theorem le_upTo (e : Extent) (t : ℕ) : t ≤ upTo e t := by
  unfold upTo
  split_ifs with h1
  · exact Nat.le_refl t
  · rw [UInt32.le_iff_toNat_le, UInt32.toNat_one] at h1
    have hmod := Nat.mod_lt t (show 0 < e.alignment.toNat by omega)
    rw [roundedUp_eq (by omega)]
    split_ifs <;> omega

theorem refuses_full (e : Extent) : Refuses chunk chunk e := by
  have := le_upTo e chunk
  unfold Refuses
  omega

/-- An item fits behind the cursor, or it has no room from there on. -/
theorem not_fits_iff : ¬ Fits chunk cursor e ↔ Refuses chunk (cursor % chunk) e := by
  have hsub : cursor - chunkStart chunk cursor = cursor % chunk := by
    have := Nat.div_add_mod' cursor chunk
    rw [chunkStart]
    omega
  have hplace : placeFor chunk cursor e = chunkStart chunk cursor + upTo e (cursor % chunk) := by
    rw [placeFor, hsub]
    rfl
  unfold Fits Refuses
  rw [hplace]
  omega

/-- **An item that stands behind a cursor** fits there, if it is in the chunk of the cursor. -/
theorem Stands.fits {p : ℕ × ℕ} (h : Stands items chunk p) (hpos : 0 < chunk) (hle : cursor ≤ p.2)
    (hblock : p.2 / chunk = cursor / chunk) : Fits chunk cursor (extent items p.1) := by
  by_contra hno
  have hd := Nat.div_add_mod' p.2 chunk
  have hd' := Nat.div_add_mod' cursor chunk
  have hin := h.inside
  have hlt := Nat.mod_lt p.2 hpos
  rw [hblock] at hd
  have hup : upTo (extent items p.1) (cursor % chunk) ≤ p.2 % chunk := upTo_le (by omega) h.aligned
  unfold room at hin
  rcases not_fits_iff.1 hno with h' | h' <;> omega

/-! ## The next item -/

/-- What placing an item does: those in front of it do not fit, it stands behind the cursor,
    and a chunk is left only when no item fits there. -/
structure Next (items : Array Extent) (chunk cursor : ℕ) (before : List ℕ) (i place : ℕ)
    (after : List ℕ) : Prop where
  refused : ∀ j ∈ before, ¬ Fits chunk cursor (extent items j)
  le : cursor ≤ place
  stands : Stands items chunk (i, place)
  block : place / chunk = cursor / chunk ∨ (before = [] ∧ place = (cursor / chunk + 1) * chunk ∧
    ∀ j ∈ i :: after, ¬ Fits chunk cursor (extent items j))
  places_eq : places items chunk cursor (before ++ i :: after) =
    (i, place) :: places items chunk (place + room items (i, place)) (before ++ after)
  run_eq : ∀ {p : Progress}, p.cursor = cursor → ∃ q : Progress,
    run items chunk p (before ++ i :: after) =
      run items chunk (q.put items chunk i place) (before ++ after)

/-- **All that placing one item can do.**  Both the exact places and the run of the placing go
    on with the others behind it. -/
theorem exists_next (cursor : ℕ) (hc : chunk ≤ 2 ^ 31) (hpos : 0 < chunk) (hne : remaining ≠ [])
    (hadm : ∀ i ∈ remaining, Admits items chunk i) :
    ∃ before i place after, remaining = before ++ i :: after ∧
      Next items chunk cursor before i place after := by
  have hpick : pick? items chunk cursor remaining = _ :=
    pick?_eq hc hpos fun i hi => (hadm i hi).alignment_le
  cases hnext : next? items chunk cursor remaining with
  | some i =>
    obtain ⟨hmem, hfits⟩ := next?_spec hnext
    have hi := hadm i hmem
    have hfit : fit? chunk cursor (extent items i) = some (placeFor chunk cursor (extent items i)) := by
      rw [fit?_eq hc hpos hi.alignment_le, if_pos hfits]
    obtain ⟨hle, hblock, hin, hal, -⟩ := fit?_spec hc hpos hi.alignment_le hfit
    obtain ⟨-, before, after, rfl, hbefore⟩ := List.find?_eq_some_iff_append.1 hnext
    have hrefused : ∀ j ∈ before, ¬ Fits chunk cursor (extent items j) := fun j hj => by
      simpa using hbefore j hj
    have herase : (before ++ i :: after).erase i = before ++ after := by
      rw [List.erase_append_right _ fun hm => hrefused i hm hfits, List.erase_cons_head]
    have hplaces := places_of_next hnext
    rw [herase] at hplaces
    rw [hnext, Option.map_some, herase] at hpick
    refine ⟨before, i, _, after, rfl, hrefused, hle, ⟨hin, hal⟩, Or.inl hblock, hplaces, ?_⟩
    rintro p rfl
    exact ⟨p, run_of_pick?_eq_some hpick⟩
  | none =>
    obtain ⟨i, after, rfl⟩ := List.exists_cons_of_ne_nil hne
    have hall : ∀ j ∈ i :: after, ¬ Fits chunk cursor (extent items j) := fun j hj => by
      simpa using List.find?_eq_none.1 hnext j hj
    have hplace : chunkStart chunk cursor + chunk = (cursor / chunk + 1) * chunk := by
      rw [chunkStart, Nat.add_one_mul]
    have hplaces := places_of_none hnext
    rw [hplace] at hplaces
    rw [hnext, Option.map_none] at hpick
    obtain ⟨hs, hle, -⟩ := stands_skip (p := { offsets := #[], cursor, lastBlock := 0 })
      (hadm i (by simp)) hpos
    simp only [Progress.skip, hplace] at hs hle
    refine ⟨[], i, _, after, rfl, fun j hj => absurd hj List.not_mem_nil, hle, hs,
      Or.inr ⟨rfl, rfl, hall⟩, hplaces, ?_⟩
    rintro p rfl
    exact ⟨p.skip chunk, hplace ▸ run_of_pick?_eq_none hpick⟩

theorem Next.stop_le {before after : List ℕ} {i place : ℕ}
    (h : Next items chunk cursor before i place after) :
    place + room items (i, place) ≤ (place / chunk + 1) * chunk := by
  have := h.stands.inside
  have := Nat.div_add_mod' place chunk
  rw [Nat.add_one_mul]
  simp only at *
  omega

/-- **Induction along the placing of items.** -/
@[elab_as_elim]
theorem places_induction {P : ℕ → List ℕ → Prop} (cursor : ℕ) (remaining : List ℕ)
    (hc : chunk ≤ 2 ^ 31) (hpos : 0 < chunk) (hadm : ∀ i ∈ remaining, Admits items chunk i)
    (nil : ∀ cursor, P cursor [])
    (next : ∀ {cursor before i place after}, Next items chunk cursor before i place after →
      (∀ j ∈ before ++ after, Admits items chunk j) →
      P (place + room items (i, place)) (before ++ after) → P cursor (before ++ i :: after)) :
    P cursor remaining := by
  induction hn : remaining.length generalizing cursor remaining with
  | zero =>
    obtain rfl := List.length_eq_zero_iff.1 hn
    exact nil cursor
  | succ n ih =>
    have hne : remaining ≠ [] := fun h => by simp [h] at hn
    obtain ⟨before, i, place, after, rfl, hnext⟩ := exists_next cursor hc hpos hne hadm
    have hrest : ∀ j ∈ before ++ after, Admits items chunk j := fun j hj =>
      hadm j (List.perm_middle.mem_iff.2 (List.mem_cons_of_mem i hj))
    refine next hnext hrest (ih _ _ hrest ?_)
    simp only [List.length_append, List.length_cons] at hn ⊢
    omega

/-- **Where items are placed**: each once, and each stands behind the cursor. -/
theorem places_spec (cursor : ℕ) (hc : chunk ≤ 2 ^ 31) (hpos : 0 < chunk)
    (hadm : ∀ i ∈ remaining, Admits items chunk i) :
    ((places items chunk cursor remaining).map Prod.fst).Perm remaining ∧
      ∀ p ∈ places items chunk cursor remaining, cursor ≤ p.2 ∧ Stands items chunk p := by
  refine places_induction cursor remaining hc hpos hadm (fun cursor => ?_) fun hnext _ ih => ?_
  · rw [places_nil]
    exact ⟨.refl _, nofun⟩
  · obtain ⟨hperm, hall⟩ := ih
    rw [hnext.places_eq]
    refine ⟨(hperm.cons _).trans List.perm_middle.symm, fun p hp => ?_⟩
    rcases List.mem_cons.1 hp with rfl | hp
    · exact ⟨hnext.le, hnext.stands⟩
    · obtain ⟨hle, hs⟩ := hall p hp
      exact ⟨(hnext.le.trans (Nat.le_add_right _ _)).trans hle, hs⟩

/-! ## The order of the places -/

/-- **An item lies in front of those behind it**, or in a later chunk. -/
theorem pairwise_places (hc : chunk ≤ 2 ^ 31) (hpos : 0 < chunk)
    (hadm : ∀ i ∈ remaining, Admits items chunk i) {offset : ℕ → ℕ}
    (ho : ∀ p ∈ places items chunk cursor remaining, offset p.1 = p.2) :
    remaining.Pairwise fun i j =>
      offset i ≤ offset j ∨ offset j / chunk < offset i / chunk := by
  revert ho
  refine places_induction cursor remaining hc hpos hadm (fun _ _ => .nil)
    fun {cursor before i place after} hnext hrest ih ho => ?_
  rw [hnext.places_eq, List.forall_mem_cons] at ho
  obtain ⟨hi, ho⟩ := ho
  simp only at hi
  obtain ⟨hperm, hall⟩ := places_spec (place + room items (i, place)) hc hpos hrest
  -- the others are placed behind this one
  have hother : ∀ j ∈ before ++ after, place ≤ offset j ∧ Stands items chunk (j, offset j) := by
    intro j hj
    obtain ⟨p, hp, rfl⟩ := List.mem_map.1 (hperm.mem_iff.2 hj)
    obtain ⟨hle, hs⟩ := hall p hp
    rw [ho p hp]
    exact ⟨(Nat.le_add_right _ _).trans hle, hs⟩
  obtain ⟨hbefore, hafter, hcross⟩ := List.pairwise_append.1 (ih ho)
  refine List.pairwise_append.2 ⟨hbefore, List.pairwise_cons.2 ⟨fun j hj => Or.inl ?_, hafter⟩,
    fun j hj j' hj' => ?_⟩
  · rw [hi]
    exact (hother j (List.mem_append_right _ hj)).1
  · rcases List.mem_cons.1 hj' with rfl | hj'
    · -- this one has been placed although the other comes first, so that did not fit
      obtain ⟨hle, hs⟩ := hother j (List.mem_append_left _ hj)
      rcases hnext.block with hblock | ⟨rfl, -⟩
      · have hne : offset j / chunk ≠ cursor / chunk := fun he =>
          hnext.refused j hj (hs.fits hpos (hnext.le.trans hle) he)
        have hmono := Nat.div_le_div_right (c := chunk) hle
        rw [hblock] at hmono
        rw [hi, hblock]
        exact Or.inr (Nat.lt_of_le_of_ne hmono hne.symm)
      · exact absurd hj List.not_mem_nil
    · exact hcross j hj j' hj'

/-! ## The ends of the chunks -/

/-- Where the last of what lies in a chunk ends, counted from its start: what is in front of
    the cursor, or one of the items that are placed.  It is zero if nothing lies there. -/
def filled (items : Array Extent) (chunk cursor k : ℕ) (placed : List (ℕ × ℕ)) : ℕ :=
  ((placed.filter fun p => p.2 / chunk = k).map fun p => p.2 % chunk + room items p).foldr max
    (cursor - k * chunk)

theorem filled_perm {placed placed' : List (ℕ × ℕ)} (h : placed.Perm placed') :
    filled items chunk cursor k placed = filled items chunk cursor k placed' :=
  ((h.filter _).map _).foldr_eq _

theorem foldr_max (a b : ℕ) (l : List ℕ) : l.foldr max (max a b) = max a (l.foldr max b) := by
  induction l with
  | nil => rfl
  | cons x l ih => rw [List.foldr_cons, ih, List.foldr_cons, Nat.max_left_comm]

theorem filled_of_lt {placed : List (ℕ × ℕ)} (h : ∀ p ∈ placed, k < p.2 / chunk) :
    filled items chunk cursor k placed = cursor - k * chunk := by
  have hnil : placed.filter (fun p => p.2 / chunk = k) = [] :=
    List.filter_eq_nil_iff.2 fun p hp => by
      have := h p hp
      simp only [decide_eq_true_eq]
      omega
  rw [filled, hnil]
  rfl

/-- The chunks from the one on in which an item is placed. -/
theorem Next.filled_cons {before after : List ℕ} {i place : ℕ}
    (h : Next items chunk cursor before i place after) {placed : List (ℕ × ℕ)}
    (hk : place / chunk ≤ k) :
    filled items chunk cursor k ((i, place) :: placed) =
      filled items chunk (place + room items (i, place)) k placed := by
  have hd := Nat.div_add_mod' place chunk
  have hstop := h.stop_le
  have hle := h.le
  unfold filled
  rcases Nat.eq_or_lt_of_le hk with rfl | hlt
  · have hend : max (place % chunk + room items (i, place)) (cursor - place / chunk * chunk) =
        place + room items (i, place) - place / chunk * chunk := by omega
    rw [List.filter_cons_of_pos (by simp), List.map_cons, List.foldr_cons, ← foldr_max, hend]
  · have hborder := Nat.mul_le_mul_right chunk (Nat.succ_le_of_lt hlt)
    have hne : ¬ place / chunk = k := Nat.ne_of_lt hlt
    rw [List.filter_cons_of_neg (by simpa using hne),
      show cursor - k * chunk = place + room items (i, place) - k * chunk by
        simp only [Nat.succ_eq_add_one] at hborder
        omega]

/-- **No item would have fitted** at the end of a chunk in front of its own. -/
theorem refuses_places (hc : chunk ≤ 2 ^ 31) (hpos : 0 < chunk)
    (hadm : ∀ i ∈ remaining, Admits items chunk i) (hk : cursor ≤ (k + 1) * chunk) :
    ∀ p ∈ places items chunk cursor remaining, k < p.2 / chunk →
      Refuses chunk (filled items chunk cursor k (places items chunk cursor remaining))
        (extent items p.1) := by
  revert hk
  refine places_induction cursor remaining hc hpos hadm (fun cursor _ => ?_)
    fun {cursor before i place after} hnext hrest ih hk p hp hlt => ?_
  · rw [places_nil]
    nofun
  rw [hnext.places_eq] at hp ⊢
  obtain ⟨hperm, hall⟩ := places_spec (place + room items (i, place)) hc hpos hrest
  rcases Nat.lt_or_ge k (place / chunk) with hgt | hle
  · -- nothing more is placed in the chunk
    have hplaced : ∀ p ∈ (i, place) :: places items chunk (place + room items (i, place))
        (before ++ after), k < p.2 / chunk := by
      rw [List.forall_mem_cons]
      exact ⟨hgt, fun p hp => hgt.trans_le
        (Nat.div_le_div_right ((Nat.le_add_right _ _).trans (hall p hp).1))⟩
    rw [filled_of_lt hplaced]
    have hd := Nat.div_add_mod' cursor chunk
    rcases Nat.eq_or_lt_of_le hk with rfl | hk
    · rw [Nat.add_one_mul, Nat.add_sub_cancel_left]
      exact refuses_full _
    · have hle := Nat.le_of_lt_succ ((Nat.div_lt_iff_lt_mul hpos).2 hk)
      rcases hnext.block with hblock | ⟨rfl, rfl, hnone⟩
      · omega
      · rw [Nat.mul_div_cancel _ hpos] at hgt
        obtain rfl : k = cursor / chunk := by omega
        have hmem : p.1 ∈ i :: after := by
          rcases List.mem_cons.1 hp with rfl | hp
          · exact List.mem_cons_self
          · exact List.mem_cons_of_mem _ (hperm.mem_iff.1 (List.mem_map_of_mem hp))
        rw [show cursor - cursor / chunk * chunk = cursor % chunk by omega]
        exact not_fits_iff.1 (hnone p.1 hmem)
  · -- the chunk is not in front of the one in which the item is placed
    rw [hnext.filled_cons hle]
    rcases List.mem_cons.1 hp with rfl | hp
    · exact absurd hlt (Nat.not_lt.2 hle)
    · exact ih (hnext.stop_le.trans (Nat.mul_le_mul_right _ (Nat.succ_le_succ hle))) p hp hlt

/-- Items are placed in front of the last cursor. -/
theorem places_le_cursor (hc : chunk ≤ 2 ^ 31) (hpos : 0 < chunk)
    (hadm : ∀ i ∈ remaining, Admits items chunk i) : ∀ p : Progress, p.cursor = cursor →
      cursor ≤ (run items chunk p remaining).cursor ∧
        ∀ e ∈ places items chunk cursor remaining, e.2 ≤ (run items chunk p remaining).cursor := by
  refine places_induction cursor remaining hc hpos hadm (fun cursor p hp => ?_)
    fun {cursor before i place after} hnext _ ih p hp => ?_
  · rw [run_nil, places_nil]
    exact ⟨Nat.le_of_eq hp.symm, nofun⟩
  · obtain ⟨q, hrun⟩ := hnext.run_eq hp
    obtain ⟨hle, hall⟩ := ih (q.put items chunk i place) rfl
    have hplace := (Nat.le_add_right place (room items (i, place))).trans hle
    rw [hnext.places_eq, hrun]
    exact ⟨hnext.le.trans hplace, List.forall_mem_cons.2 ⟨hplace, hall⟩⟩

end Placement

open Placement

/-! ## Layouts -/

/-- Where the last of what lies in a chunk of a layout ends, counted from its start: the header
    or one of the items.  It is zero if nothing lies there. -/
def Layout.fill (l : Layout) (items : Array Extent) (order : List ℕ) (header chunk k : ℕ) : ℕ :=
  filled items chunk header k (order.map fun i => (i, l.offset i))

/-- **A layout is first fit.** -/
structure Layout.FirstFit (l : Layout) (items : Array Extent) (order : List ℕ)
    (header chunk : ℕ) : Prop where
  /-- An item lies in front of those behind it in the order, or in a later chunk. -/
  ordered : order.Pairwise fun i j =>
    l.offset i ≤ l.offset j ∨ l.offset j / chunk < l.offset i / chunk
  /-- From the chunk on in which the header ends, no item has room at the end of a chunk in
      front of its own. -/
  refuses : ∀ k, (header - 1) / chunk ≤ k → ∀ i ∈ order, k < l.offset i / chunk →
    Refuses chunk (l.fill items order header chunk k) (extent items i)

variable {items : Array Extent} {order : List ℕ} {headerSize chunkSize : UInt32} {layout : Layout}

/-- **Every layout is first fit**, if it ends in front of `2 ^ 32`. -/
theorem place_firstFit (h : place items order headerSize chunkSize = .ok layout)
    (hpos : 0 < chunkSize.toNat) (hc : chunkSize.toNat ≤ 2 ^ 31) (hn : order.Nodup)
    (hlt : ∀ i ∈ order, i < items.size)
    (ha : ∀ i ∈ order, (extent items i).alignment.toNat ≤ 2 ^ 31) (hstop : layout.stop < 2 ^ 32) :
    layout.FirstFit items order headerSize.toNat chunkSize.toNat := by
  obtain ⟨hfits, p, rfl, hoff, -, -, hend⟩ := place_eq_ok h
  have hadm : ∀ i ∈ order, Admits items chunkSize.toNat i := fun i hi =>
    ⟨hlt i hi, hfits i hi, ha i hi⟩
  have hexact := exact_run (p := initial items chunkSize.toNat headerSize.toNat) hc hpos hn hadm
    Array.size_replicate
  obtain ⟨-, hle⟩ := places_le_cursor hc hpos hadm
    (initial items chunkSize.toNat headerSize.toNat) rfl
  have hoffset : ∀ e ∈ places items chunkSize.toNat headerSize.toNat order,
      layout.offset e.1 = e.2 := by
    intro e he
    have hle := hle e he
    rw [Layout.offset, hoff, Array.getD_eq_getD_getElem?, hexact.offsets e he, Option.getD_some,
      toNat_toUInt32 (by omega)]
  have hperm : (order.map fun i => (i, layout.offset i)).Perm
      (places items chunkSize.toNat headerSize.toNat order) := by
    have hsame : ((places items chunkSize.toNat headerSize.toNat order).map Prod.fst).map
        (fun i => (i, layout.offset i)) = places items chunkSize.toNat headerSize.toNat order := by
      rw [List.map_map]
      refine (List.map_congr_left (g := id) fun e he => ?_).trans (List.map_id _)
      exact Prod.ext rfl (hoffset e he)
    exact hsame ▸ (hexact.perm.map fun i => (i, layout.offset i)).symm
  refine ⟨pairwise_places hc hpos hadm hoffset, fun k hk i hi hlt => ?_⟩
  have hheader : headerSize.toNat ≤ (k + 1) * chunkSize.toNat := by
    have := (Nat.div_lt_iff_lt_mul hpos).1 (Nat.lt_succ_of_le hk)
    simp only [Nat.succ_eq_add_one] at this
    omega
  rw [Layout.fill, filled_perm hperm]
  exact refuses_places hc hpos hadm hheader (i, layout.offset i)
    (hperm.mem_iff.1 (List.mem_map_of_mem hi)) hlt

/-- The largest item comes first, and does not fit behind the header; of the others, one lies
    in front of it, and one would have fitted there but for its alignment. -/
theorem place_firstFit_crowded : ∃ layout, place crowded [4, 0, 1, 2, 3] 70 64 = .ok layout ∧
    [4, 0, 1, 2, 3].map layout.offset = [128, 70, 192, 110, 216] ∧
    layout.fill crowded [4, 0, 1, 2, 3] 70 64 1 = 46 ∧ upTo (extent crowded 1) 46 = 48 ∧
    layout.FirstFit crowded [4, 0, 1, 2, 3] 70 64 := by
  have hrun : (place crowded [4, 0, 1, 2, 3] 70 64).toOption.map
      (fun l => ([4, 0, 1, 2, 3].map l.offset, l.stop,
        l.fill crowded [4, 0, 1, 2, 3] 70 64 1)) =
      some ([128, 70, 192, 110, 216], 236, 46) := by decide +kernel
  obtain ⟨layout, h, hl⟩ := Option.map_eq_some_iff.1 hrun
  rw [Prod.mk.injEq, Prod.mk.injEq] at hl
  obtain ⟨hoff, hstop, hfill⟩ := hl
  have h := ok_of_toOption h
  exact ⟨layout, h, hoff, hfill, by decide, place_firstFit h (by decide) (by decide) (by decide)
    (by decide) (by decide) (by omega)⟩

end LevelBundle
