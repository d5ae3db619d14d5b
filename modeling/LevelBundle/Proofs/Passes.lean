/-
  LevelBundle — the passes of packing.

  The header has to have room for the chunks of the layout behind it, and each pass tries as
  many chunks as the layout of the pass in front of it has taken.  First fit may take more of
  them behind a larger header, or fewer; but a pass is followed by another only if it has
  taken more than it had, so the passes come to an end by themselves.

  * `Packer.Passes`: the passes with no limit to their number, and what they come to.  There
    is an end to them (`exists_passes`).
  * `Packer.logged`: `settle`, with the numbers of chunks that items are placed for.
  * `Passes.logged`: a limit cuts the passes off, and does nothing else.
  * `Program.pack_converges`: the numbers of chunks climb, the header is that of the last of
    them, and whatever a program is packed to, it is packed to with any limit that suffices.
-/
import LevelBundle.Proofs.PackOnce
import LevelBundle.Proofs.Placements

namespace LevelBundle

namespace Packer

variable {k : Packer} {items : List Item} {fixups n : ℕ} {passes capacity limit : UInt32}
  {cs : List UInt32} {answer : Except PackError Settled} {s : Settled}

/-! ## Passes without a limit -/

/-- The layout behind the header for some chunks. -/
def layoutFor (k : Packer) (items : List Item) (fixups : ℕ) (capacity : UInt32) :
    Except Oversized Layout :=
  LevelBundle.place (items.map Item.extent).toArray (k.order items)
    (k.headerSize capacity fixups).toUInt32 k.options.chunkSize

/-- What is said of an item that does not fit in a chunk. -/
def oversized (k : Packer) (items : List Item) (e : Oversized) : PackError :=
  let i? := items[e.index]?
  .oversizedItem ((i?.map fun i => s!"{i.kind.render} '{i.name}'").getD "")
    ((i?.map fun i => i.padSize.toNat).getD 0) k.options.chunkSize

/-- Some chunks are few enough, and their header is small enough, for items to be placed. -/
structure Admits (k : Packer) (fixups : ℕ) (capacity : UInt32) : Prop where
  capacity_le : capacity ≤ k.maxChunks
  header_le : k.headerSize capacity fixups ≤ k.options.chunkSize.toNat

/-- The passes from some chunks on, when `passes` have been made: the numbers of chunks that
    items are placed for, how many passes there are, and what they come to. -/
inductive Passes (k : Packer) (items : List Item) (fixups : ℕ) :
    UInt32 → UInt32 → List UInt32 → ℕ → Except PackError Settled → Prop
  /-- There are too many chunks. -/
  | crowded {passes capacity : UInt32} : k.maxChunks < capacity →
    Passes k items fixups passes capacity [] 1 (.error (.capacityExceeded capacity k.maxChunks))
  /-- The header does not fit in a chunk. -/
  | long {passes capacity : UInt32} : capacity ≤ k.maxChunks →
    k.options.chunkSize.toNat < k.headerSize capacity fixups →
    Passes k items fixups passes capacity [] 1
      (.error (.headerTooLarge (k.headerSize capacity fixups) k.options.chunkSize))
  /-- An item does not fit in a chunk. -/
  | oversized {passes capacity : UInt32} {e : Oversized} : k.Admits fixups capacity →
    k.layoutFor items fixups capacity = .error e →
    Passes k items fixups passes capacity [capacity] 1 (.error (k.oversized items e))
  /-- The layout takes no more chunks than it has. -/
  | settled {passes capacity : UInt32} {layout : Layout} : k.Admits fixups capacity →
    k.layoutFor items fixups capacity = .ok layout → layout.chunksUsed ≤ capacity →
    Passes k items fixups passes capacity [capacity] 1 (.ok
      { capacity, headerSize := (k.headerSize capacity fixups).toUInt32, layout
        passes := passes + 1 })
  /-- The layout takes more, and the next pass has as many. -/
  | again {passes capacity : UInt32} {layout : Layout} {cs : List UInt32} {n : ℕ}
    {answer : Except PackError Settled} : k.Admits fixups capacity →
    k.layoutFor items fixups capacity = .ok layout → capacity < layout.chunksUsed →
    Passes k items fixups (passes + 1) layout.chunksUsed cs n answer →
    Passes k items fixups passes capacity (capacity :: cs) (n + 1) answer

/-- **The passes come to an end.** -/
theorem exists_passes (k : Packer) (items : List Item) (fixups : ℕ) (passes capacity : UInt32) :
    ∃ cs n answer, k.Passes items fixups passes capacity cs n answer := by
  induction hn : k.maxChunks.toNat + 1 - capacity.toNat using Nat.strongRecOn
    generalizing passes capacity with
  | ind m ih =>
    by_cases hcap : k.maxChunks < capacity
    · exact ⟨_, _, _, .crowded hcap⟩
    by_cases hheader : k.options.chunkSize.toNat < k.headerSize capacity fixups
    · exact ⟨_, _, _, .long (UInt32.not_lt.1 hcap) hheader⟩
    have hadm : k.Admits fixups capacity := ⟨UInt32.not_lt.1 hcap, Nat.not_lt.1 hheader⟩
    cases hl : k.layoutFor items fixups capacity with
    | error e => exact ⟨_, _, _, .oversized hadm hl⟩
    | ok layout =>
      by_cases hu : layout.chunksUsed ≤ capacity
      · exact ⟨_, _, _, .settled hadm hl hu⟩
      · have hlt := UInt32.not_le.1 hu
        have hle := UInt32.le_iff_toNat_le.1 hadm.capacity_le
        have hlt' := UInt32.lt_iff_toNat_lt.1 hlt
        obtain ⟨cs, n, answer, hrest⟩ := ih _ (by omega) (passes + 1) layout.chunksUsed rfl
        exact ⟨_, _, _, .again hadm hl hlt hrest⟩

namespace Passes

/-- **The numbers of chunks climb**, up to the most that a bundle may have. -/
theorem climbs (h : k.Passes items fixups passes capacity cs n answer) :
    cs.Pairwise (· < ·) ∧ ∀ c ∈ cs, capacity ≤ c ∧ c ≤ k.maxChunks := by
  induction h with
  | crowded | long => exact ⟨.nil, nofun⟩
  | oversized hadm | settled hadm =>
    exact ⟨List.pairwise_singleton _ _,
      List.forall_mem_singleton.2 ⟨UInt32.le_refl _, hadm.capacity_le⟩⟩
  | again hadm _ hlt _ ih =>
    obtain ⟨hsorted, hall⟩ := ih
    have hle := UInt32.le_of_lt hlt
    exact ⟨List.pairwise_cons.2 ⟨fun c hc => UInt32.lt_of_lt_of_le hlt (hall c hc).1, hsorted⟩,
      List.forall_mem_cons.2 ⟨⟨UInt32.le_refl _, hadm.capacity_le⟩,
        fun c hc => ⟨UInt32.le_trans hle (hall c hc).1, (hall c hc).2⟩⟩⟩

/-- **There are no more passes** than numbers of chunks to be tried. -/
theorem length_le (h : k.Passes items fixups passes capacity cs n answer) :
    cs.length ≤ k.maxChunks.toNat + 1 - capacity.toNat := by
  induction h with
  | crowded | long => exact Nat.zero_le _
  | oversized hadm | settled hadm =>
    have := UInt32.le_iff_toNat_le.1 hadm.capacity_le
    rw [List.length_singleton]
    omega
  | again hadm _ hlt _ ih =>
    have := UInt32.le_iff_toNat_le.1 hadm.capacity_le
    have := UInt32.lt_iff_toNat_lt.1 hlt
    rw [List.length_cons]
    omega

theorem le_length (h : k.Passes items fixups passes capacity cs n answer) : n ≤ cs.length + 1 := by
  induction h with
  | crowded | long | oversized | settled => simp
  | again _ _ _ _ ih => simpa using ih

/-- **What is accepted** is the layout of the last pass, and the passes are counted. -/
theorem counted (h : k.Passes items fixups passes capacity cs n (.ok s)) :
    cs.getLast? = some s.capacity ∧ n = cs.length ∧
      (passes.toNat + n < 2 ^ 32 → s.passes.toNat = passes.toNat + n) := by
  generalize ha : (Except.ok s : Except PackError Settled) = answer at h
  induction h with
  | crowded | long | oversized => cases ha
  | settled =>
    cases ha
    refine ⟨rfl, rfl, fun hlt => ?_⟩
    rw [UInt32.toNat_add, UInt32.toNat_one, Nat.mod_eq_of_lt hlt]
  | @again passes capacity layout cs n answer hadm hl hlt hrest ih =>
    obtain ⟨hlast, hlen, hpasses⟩ := ih ha
    refine ⟨?_, by rw [List.length_cons, hlen], fun hlt => ?_⟩
    · rw [List.getLast?_cons, hlast, Option.getD_some]
    · have hnext : (passes + 1).toNat = passes.toNat + 1 := by
        rw [UInt32.toNat_add, UInt32.toNat_one, Nat.mod_eq_of_lt (by omega)]
      rw [hpasses (by omega), hnext]
      omega

theorem ne_cut (h : k.Passes items fixups passes capacity cs n answer) (limit : UInt32) :
    answer ≠ .error (.layoutDidNotConverge limit) := by
  induction h with
  | crowded | long | oversized | settled => nofun
  | again _ _ _ _ ih => exact ih

end Passes

/-! ## Passes with a limit -/

/-- The packer that makes no more than so many passes. -/
def limited (k : Packer) (limit : UInt32) : Packer :=
  { k with options := { k.options with maxLayoutPasses := limit } }

theorem ofOptions_limited {options : PackOptions} (h : ofOptions options = .ok k)
    (limit : UInt32) :
    ofOptions { options with maxLayoutPasses := limit } = .ok (k.limited limit) := by
  simp only [ofOptions, bind_eq_ok, mapError_eq_ok] at h ⊢
  obtain ⟨a, ha, h⟩ := h
  refine ⟨a, ha, ?_⟩
  split_ifs at h ⊢
  · simp only [bind_eq_ok, throw_ne_ok, false_and, exists_false] at h
  · obtain rfl := pure_eq_ok.1 h
    rfl

/-- The passes, of which `left` are left to be made, with the numbers of chunks that items
    are placed for. -/
def logged (k : Packer) (items : List Item) (fixups : ℕ) :
    ℕ → UInt32 → UInt32 → List UInt32 × Except PackError Settled
  | 0, _, _ => ([], .error (.layoutDidNotConverge k.options.maxLayoutPasses))
  | left + 1, passes, capacity =>
    let headerSize := k.headerSize capacity fixups
    if k.maxChunks < capacity then ([], .error (.capacityExceeded capacity k.maxChunks))
    else if k.options.chunkSize.toNat < headerSize then
      ([], .error (.headerTooLarge headerSize k.options.chunkSize))
    else
      match k.layoutFor items fixups capacity with
      | .error e => ([capacity], .error (k.oversized items e))
      | .ok layout =>
        if layout.chunksUsed ≤ capacity then
          ([capacity],
            .ok { capacity, headerSize := headerSize.toUInt32, layout, passes := passes + 1 })
        else
          let rest := k.logged items fixups left (passes + 1) layout.chunksUsed
          (capacity :: rest.1, rest.2)

/-- Nothing is changed by the log. -/
theorem logged_snd (k : Packer) (items : List Item) (fixups left : ℕ) (passes capacity : UInt32) :
    (k.logged items fixups left passes capacity).2 =
      k.settle items fixups left passes capacity := by
  induction left generalizing passes capacity with
  | zero => rfl
  | succ left ih =>
    rw [logged, settle]
    simp only [layoutFor]
    split_ifs
    · rfl
    · rfl
    · generalize LevelBundle.place _ _ _ _ = placed
      cases placed with
      | error e => rfl
      | ok layout =>
        simp only
        split_ifs
        · rfl
        · exact ih (passes + 1) layout.chunksUsed

theorem logged_crowded {left : ℕ} (h : k.maxChunks < capacity) :
    k.logged items fixups (left + 1) passes capacity =
      ([], .error (.capacityExceeded capacity k.maxChunks)) := if_pos h

theorem logged_long {left : ℕ} (hcap : capacity ≤ k.maxChunks)
    (h : k.options.chunkSize.toNat < k.headerSize capacity fixups) :
    k.logged items fixups (left + 1) passes capacity =
      ([], .error (.headerTooLarge (k.headerSize capacity fixups) k.options.chunkSize)) :=
  (if_neg (UInt32.not_lt.2 hcap)).trans (if_pos h)

theorem logged_error {left : ℕ} {e : Oversized} (h : k.Admits fixups capacity)
    (hl : k.layoutFor items fixups capacity = .error e) :
    k.logged items fixups (left + 1) passes capacity = ([capacity], .error (k.oversized items e)) := by
  rw [logged, if_neg (UInt32.not_lt.2 h.capacity_le)]
  simp only [if_neg (Nat.not_lt.2 h.header_le), hl]

theorem logged_ok {left : ℕ} {layout : Layout} (h : k.Admits fixups capacity)
    (hl : k.layoutFor items fixups capacity = .ok layout) :
    k.logged items fixups (left + 1) passes capacity =
      if layout.chunksUsed ≤ capacity then
        ([capacity], .ok
          { capacity, headerSize := (k.headerSize capacity fixups).toUInt32, layout
            passes := passes + 1 })
      else
        (capacity :: (k.logged items fixups left (passes + 1) layout.chunksUsed).1,
          (k.logged items fixups left (passes + 1) layout.chunksUsed).2) := by
  rw [logged, if_neg (UInt32.not_lt.2 h.capacity_le)]
  simp only [if_neg (Nat.not_lt.2 h.header_le), hl]

theorem Admits.limited (h : k.Admits fixups capacity) (limit : UInt32) :
    (k.limited limit).Admits fixups capacity := ⟨h.capacity_le, h.header_le⟩

/-- **A limit cuts the passes off**, and does nothing else. -/
theorem Passes.logged (h : k.Passes items fixups passes capacity cs n answer) (limit : UInt32)
    (left : ℕ) : (k.limited limit).logged items fixups left passes capacity =
      (cs.take left, if n ≤ left then answer else .error (.layoutDidNotConverge limit)) := by
  -- the packer with a limit places items as the one without does
  have hlayout (c : UInt32) :
      (k.limited limit).layoutFor items fixups c = k.layoutFor items fixups c := rfl
  induction h generalizing left with
  | crowded hcap =>
    cases left with
    | zero => rfl
    | succ left =>
      rw [logged_crowded (k := k.limited limit) hcap, if_pos (Nat.le_add_left 1 left), List.take_nil]
      rfl
  | long hcap hlong =>
    cases left with
    | zero => rfl
    | succ left =>
      rw [logged_long (k := k.limited limit) hcap hlong, if_pos (Nat.le_add_left 1 left),
        List.take_nil]
      rfl
  | oversized hadm hl =>
    cases left with
    | zero => rfl
    | succ left =>
      rw [logged_error (hadm.limited limit) ((hlayout _).trans hl),
        if_pos (Nat.le_add_left 1 left), List.take_succ_cons, List.take_nil]
      rfl
  | settled hadm hl hu =>
    cases left with
    | zero => rfl
    | succ left =>
      rw [logged_ok (hadm.limited limit) ((hlayout _).trans hl), if_pos hu,
        if_pos (Nat.le_add_left 1 left), List.take_succ_cons, List.take_nil]
      rfl
  | again hadm hl hlt hrest ih =>
    cases left with
    | zero => rfl
    | succ left =>
      rw [logged_ok (hadm.limited limit) ((hlayout _).trans hl), if_neg (UInt32.not_le.2 hlt),
        ih left, List.take_succ_cons]
      simp only [Nat.add_le_add_iff_right]

end Packer

namespace Program

open Packer

variable {p q : Program} {k : Packer} {options : PackOptions} {b : Bundle}

/-- The numbers of chunks that items are placed for, pass by pass. -/
def capacities (p : Program) (k : Packer) : List UInt32 :=
  (k.logged p.items (fixupCount p p.items) k.options.maxLayoutPasses.toNat 0 (p.estimated k)).1

/-- The numbers of chunks climb, up to the most that a bundle may have. -/
structure Climbs (k : Packer) (cs : List UInt32) : Prop where
  increasing : cs.Pairwise (· < ·)
  le_max : ∀ c ∈ cs, c ≤ k.maxChunks
  length_le : cs.length ≤ k.maxChunks.toNat

/-- What a bundle has come to, in the pass whose layout is set in its program. -/
structure Converged (k : Packer) (p q : Program) (layout : Layout) (b : Bundle) : Prop where
  committed : Runs (commit p.items layout) p ⟨⟩ q
  last : (p.capacities k).getLast? = some b.chunkCount
  placed : k.layoutFor p.items (fixupCount p p.items) b.chunkCount = .ok layout
  chunksUsed_le : layout.chunksUsed ≤ b.chunkCount
  headerSize : b.headerSize.toNat = k.headerSize b.chunkCount (fixupCount p p.items)
  passes : b.passes.toNat = (p.capacities k).length

/-- **With any limit that suffices** a program is packed to the same bundle, and with no other
    limit to any. -/
theorem pack_limited {n : ℕ} {cs : List UInt32} {s : Settled}
    (hk : Packer.ofOptions options = .ok k)
    (h : k.Passes p.items (fixupCount p p.items) 0 (p.estimated k) cs n (.ok s))
    (hcommit : Runs (commit p.items s.layout) p ⟨⟩ q) (hemit : k.emit q p.items s = .ok b)
    (limit : UInt32) : p.pack { options with maxLayoutPasses := limit } =
      if n ≤ limit.toNat then (.ok b, q) else (.error (.layoutDidNotConverge limit), p) := by
  have hk' := ofOptions_limited hk limit
  have hsettle := congrArg Prod.snd (h.logged limit limit.toNat)
  rw [logged_snd] at hsettle
  split_ifs at hsettle ⊢ with hn
  · exact pack_eq_ok.2 ⟨k.limited limit, s, hk', hsettle, hcommit, hemit⟩
  · obtain ⟨hanswer, hstep⟩ := answer_of_plan_error (k := k.limited limit) (p := p) hsettle
    unfold Program.pack
    rw [hk']
    exact Prod.ext hanswer hstep

/-- **The passes of packing converge**: the numbers of chunks climb, whatever the limit is, and
    the limit does nothing but cut the passes off, if it is as small as that. -/
theorem pack_converges (hk : Packer.ofOptions options = .ok k) (p : Program) :
    Climbs k (p.capacities k) ∧
    (k.maxChunks < options.maxLayoutPasses →
      ∀ limit, k.plan p ≠ .error (.layoutDidNotConverge limit)) ∧
    ∀ b q, p.pack options = (.ok b, q) →
      (∃ layout, Converged k p q layout b) ∧
      ∀ limit, p.pack { options with maxLayoutPasses := limit } =
        if b.passes ≤ limit then (.ok b, q) else (.error (.layoutDidNotConverge limit), p) := by
  obtain ⟨hsane, hopt⟩ := sane_of_ofOptions hk
  obtain ⟨cs, n, answer, h⟩ := exists_passes k p.items (fixupCount p p.items) 0 (p.estimated k)
  have hlogged : k.logged p.items (fixupCount p p.items) k.options.maxLayoutPasses.toNat 0
      (p.estimated k) = _ := h.logged k.options.maxLayoutPasses k.options.maxLayoutPasses.toNat
  have hcapacities : p.capacities k = cs.take k.options.maxLayoutPasses.toNat :=
    congrArg Prod.fst hlogged
  obtain ⟨hsorted, hall⟩ := h.climbs
  have hone : 1 ≤ (p.estimated k).toNat := UInt32.le_iff_toNat_le.1 one_le_estimate
  have hlength := h.length_le
  have hplan : k.plan p = _ := (logged_snd ..).symm.trans (congrArg Prod.snd hlogged)
  refine ⟨⟨?_, ?_, ?_⟩, fun hlimit limit => ?_, fun b q hpack => ?_⟩
  · exact hcapacities ▸ hsorted.sublist (List.take_sublist _ _)
  · rw [hcapacities]
    exact fun c hc => (hall c (List.mem_of_mem_take hc)).2
  · rw [hcapacities, List.length_take]
    omega
  · -- there are not as many passes as are allowed
    have hn := h.le_length
    rw [← hopt, UInt32.lt_iff_toNat_lt] at hlimit
    rw [hplan, if_pos (by omega)]
    exact h.ne_cut limit
  · obtain ⟨k', s, hk', hsettle, hcommit, hemit⟩ := pack_eq_ok.1 hpack
    obtain rfl : k = k' := Except.ok.inj (hk.symm.trans hk')
    obtain ⟨_, _, _, _, _, hstages⟩ := emit_stages hemit
    have hacc := settle_accepts hsettle
    have hsettle := hplan.symm.trans hsettle
    split_ifs at hsettle with hn
    subst hsettle
    obtain ⟨hlast, hcount, hpasses⟩ := h.counted
    have htake : p.capacities k = cs := hcapacities.trans (List.take_of_length_le (hcount ▸ hn))
    have hpasses : b.passes.toNat = n := by
      have := k.maxChunks.toNat_lt
      rw [hstages.passes, hpasses (by rw [UInt32.toNat_zero]; omega), UInt32.toNat_zero, Nat.zero_add]
    refine ⟨⟨s.layout, hcommit, ?_, ?_, ?_, ?_, ?_⟩, fun limit => ?_⟩
    · rw [htake, hstages.chunkCount, hlast]
    · rw [hstages.chunkCount, layoutFor, ← hacc.headerSize_eq]
      exact hacc.layout
    · exact hstages.chunkCount ▸ hacc.chunksUsed_le
    · rw [hstages.headerSize, hstages.chunkCount, hacc.toNat_headerSize hsane]
    · rw [hpasses, htake, hcount]
    · simp only [pack_limited hk h hcommit hemit limit, UInt32.le_iff_toNat_le, hpasses]

end Program

/-! ## A bundle that takes two passes -/

namespace Demo

/-- A root that refers to two sections, each of which takes most of a chunk. -/
def threeChunks : SectionTable where
  sections := [
    sectionOf "a" [line "level" [.str "b"], line "level" [.str "c"]],
    sectionOf "b" [line "pad" [.int 40]],
    sectionOf "c" [line "pad" [.int 40]]]

/-- What they compile to. -/
def threeChunks? : Option Program :=
  (Compiler.compile (Compiler.context {} threeChunks twoDirectories) (Compiler.start {})
    "a").toOption

end Demo

/-- Two chunks would do for the bytes, but not for the sections; one pass is too few. -/
theorem pack_converges_demo : ∃ p b q,
    Compiler.compile (Compiler.context {} Demo.threeChunks Demo.twoDirectories)
      (Compiler.start {}) "a" = .ok p ∧
    Packer.ofOptions Demo.wide.options = .ok Demo.wide ∧
    p.pack Demo.wide.options = (.ok b, q) ∧ p.capacities Demo.wide = [2, 3] ∧ b.passes = 2 ∧
    b.chunkCount = 3 ∧ p.pack { Demo.wide.options with maxLayoutPasses := 2 } = (.ok b, q) ∧
    p.pack { Demo.wide.options with maxLayoutPasses := 1 } =
      (.error (.layoutDidNotConverge 1), p) := by
  have hok : (Demo.threeChunks?.bind fun p =>
      (Prod.fst (p.pack Demo.wide.options)).toOption.map fun b => (b.passes, p.capacities Demo.wide)) =
        some (2, [2, 3]) := by
    simp only [Program.pack, Packer.pack, Packer.emit, Packer.slots, Demo.mergeSort_entries,
      Demo.mergeSort_slots]
    decide +kernel
  have hk : Packer.ofOptions Demo.wide.options = .ok Demo.wide := rfl
  obtain ⟨p, hp, hpacked⟩ := Option.bind_eq_some_iff.1 hok
  obtain ⟨b, hb, heq⟩ := Option.map_eq_some_iff.1 hpacked
  obtain ⟨hpasses, hcapacities⟩ := Prod.mk.inj heq
  have hpack : p.pack Demo.wide.options = (.ok b, (p.pack Demo.wide.options).2) :=
    Prod.ext (ok_of_toOption hb) rfl
  obtain ⟨⟨layout, hconverged⟩, hlimit⟩ := (Program.pack_converges hk p).2.2 b _ hpack
  have hlast := hconverged.last
  rw [hcapacities] at hlast
  refine ⟨p, b, _, ok_of_toOption hp, hk, hpack, hcapacities, hpasses,
    (Option.some.inj hlast).symm, ?_, ?_⟩
  · rw [hlimit 2, if_pos (UInt32.le_of_eq hpasses)]
  · rw [hlimit 1, if_neg (by rw [hpasses]; decide)]

end LevelBundle
