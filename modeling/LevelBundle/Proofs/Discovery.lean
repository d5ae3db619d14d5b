/-
  LevelBundle — what the root of a program leads to.

  * `Program.Leads p ref`: the root leads to a section or blob, over the references
    of parts.  `Program.Linked p`: all that it leads to is there.
  * `Linked.mem_reachable_iff`: the items that `discover` finds are those the root leads
    to; its fuel is enough because no item is found twice (`Linked.nodup_reachable`).
  * `Sound.item`: the size, the padded size and the alignment of an item are such
    that it can be placed in a chunk.
-/
import LevelBundle.Bundle.Item
import LevelBundle.Proofs.Compiling
import Mathlib.Data.List.Nodup
import Mathlib.Data.List.Perm.Subperm

namespace LevelBundle.Program

/-- The root leads to an item. -/
inductive Leads (p : Program) : ItemRef → Prop
  /-- To itself. -/
  | root : Leads p (.level p.root)
  /-- To what an item it leads to refers to. -/
  | step {ref target : ItemRef} : Leads p ref → target ∈ p.targets ref → Leads p target

/-- The section, or the canonical blob, is there. -/
def Holds (p : Program) : ItemRef → Prop
  | .level id => ∃ s, p.sections[id.index]? = some s
  | .blob id => ∃ b bytes, p.store.blob? id = some b ∧ b.storage = .owned bytes

/-- All that the root leads to is there. -/
def Linked (p : Program) : Prop := ∀ ref, p.Leads ref → p.Holds ref

variable {ctx : CompileContext} {pad : UInt32} {p : Program} {ref target : ItemRef}

theorem sectionAt_eq {id : SectionId} {s : Section} (h : p.sections[id.index]? = some s) :
    p.sectionAt id = s := by
  rw [sectionAt, Array.getD_eq_getD_getElem?, h, Option.getD_some]

theorem Sound.part (hp : p.Sound ctx pad) {id : SectionId} {q : Part}
    (hq : q ∈ (p.sectionAt id).parts) :
    Compiler.PartOk ctx { store := p.store, sections := p.sections } q := by
  cases hs : p.sections[id.index]? with
  | none =>
    rw [sectionAt, Array.getD_eq_getD_getElem?, hs] at hq
    cases hq
  | some s =>
    rw [sectionAt_eq hs] at hq
    exact hp.state.parts hs q hq

theorem Sound.canonical (hp : p.Sound ctx pad) {id : BlobId} (hid : id.index < p.store.size) :
    ∃ b bytes, p.store.blob? (p.store.canonical id) = some b ∧ b.storage = .owned bytes := by
  have hget : p.store.blob? id = some p.store.blobs[id.index] := Array.getElem?_eq_getElem hid
  unfold Store.canonical
  rw [hget, Option.map_some]
  cases hst : p.store.blobs[id.index].storage with
  | owned bytes => exact ⟨_, bytes, hget, hst⟩
  | aliasOf t => exact hp.state.store.target hget hst

theorem Sound.holds_target (hp : p.Sound ctx pad) (h : target ∈ p.targets ref) : p.Holds target := by
  cases ref with
  | blob id => cases h
  | level id =>
    obtain ⟨q, hq, ht⟩ := List.mem_filterMap.1 h
    have hok := hp.part hq
    cases q with
    | level id' => cases ht; exact hok.imp fun _ h => h.1
    | runtimeFile name id' => cases ht; exact ⟨_, hok.1⟩
    | blob id' => cases ht; exact hp.canonical hok
    | literal | align | pad => cases ht

theorem Sound.holds_root (hp : p.Sound ctx pad) : p.Holds (.level p.root) :=
  hp.root.imp fun _ h => h.1

theorem Sound.linked (hp : p.Sound ctx pad) : p.Linked := by
  intro ref h
  cases h with
  | root => exact hp.holds_root
  | step _ ht => exact hp.holds_target ht

theorem Sound.holds (hp : p.Sound ctx pad) (h : p.Leads ref) : p.Holds ref := hp.linked ref h

/-! ## Discovery -/

/-- Adding items adds each that is new, once. -/
theorem addNew_spec (found : Array ItemRef) (more : List ItemRef) :
    ∃ new, (addNew found more).toList = found.toList ++ new ∧ (∀ r ∈ new, r ∈ more) ∧
      (∀ r ∈ more, r ∈ addNew found more) ∧
      (found.toList.Nodup → (addNew found more).toList.Nodup) := by
  induction more generalizing found with
  | nil => exact ⟨[], (List.append_nil _).symm, nofun, nofun, id⟩
  | cons r more ih =>
    have hstep : addNew found (r :: more) =
        addNew (if found.contains r then found else found.push r) more := rfl
    obtain ⟨new, h1, h2, h3, h4⟩ := ih (if found.contains r then found else found.push r)
    rw [hstep]
    by_cases hr : found.contains r = true
    · rw [if_pos hr] at h1 h3 h4 ⊢
      refine ⟨new, h1, fun q hq => List.mem_cons_of_mem _ (h2 q hq), fun q hq => ?_, h4⟩
      rcases List.mem_cons.1 hq with rfl | hq
      · rw [← Array.mem_toList_iff, h1]
        exact List.mem_append_left _ (Array.mem_toList_iff.2 (Array.contains_iff_mem.1 hr))
      · exact h3 q hq
    · rw [if_neg hr] at h1 h3 h4 ⊢
      rw [Array.toList_push, List.append_assoc] at h1
      refine ⟨r :: new, h1, fun q hq => ?_, fun q hq => ?_, fun hn => h4 ?_⟩
      · rcases List.mem_cons.1 hq with rfl | hq
        · exact List.mem_cons_self
        · exact List.mem_cons_of_mem _ (h2 q hq)
      · rcases List.mem_cons.1 hq with rfl | hq
        · rw [← Array.mem_toList_iff, h1]; simp
        · exact h3 q hq
      · rw [Array.toList_push, List.nodup_append]
        refine ⟨hn, List.nodup_singleton r, fun a ha b hb hab => hr ?_⟩
        rw [List.mem_singleton.1 hb] at hab
        exact Array.contains_iff_mem.2 (hab ▸ Array.mem_toList_iff.1 ha)

/-- What is true of the items found when those before `next` have been followed. -/
structure Found (p : Program) (next : ℕ) (found : Array ItemRef) : Prop where
  root : found[0]? = some (.level p.root)
  nodup : found.toList.Nodup
  leads : ∀ r ∈ found, p.Leads r
  closed : ∀ i < next, ∀ r, found[i]? = some r → ∀ t ∈ p.targets r, t ∈ found

/-- Following one more item. -/
theorem Found.step {next : ℕ} {found : Array ItemRef} (h : Found p next found)
    (hr : found[next]? = some ref) : Found p (next + 1) (addNew found (p.targets ref)) := by
  obtain ⟨new, h1, h2, h3, h4⟩ := addNew_spec found (p.targets ref)
  have hold {r} (hr : r ∈ found) : r ∈ addNew found (p.targets ref) := by
    rw [← Array.mem_toList_iff, h1]
    exact List.mem_append_left _ (Array.mem_toList_iff.2 hr)
  have hlt := (Array.getElem?_eq_some_iff.1 hr).1
  have hroot := h.root
  rw [← Array.getElem?_toList] at hroot
  refine ⟨?_, h4 h.nodup, fun r hm => ?_, fun i hi r hget t ht => ?_⟩
  · rw [← Array.getElem?_toList, h1,
      List.getElem?_append_left (List.getElem?_eq_some_iff.1 hroot).1, hroot]
  · rw [← Array.mem_toList_iff, h1] at hm
    rcases List.mem_append.1 hm with hm | hm
    · exact h.leads r (Array.mem_toList_iff.1 hm)
    · exact .step (h.leads ref (Array.mem_of_getElem? hr)) (h2 r hm)
  · rw [← Array.getElem?_toList, h1, List.getElem?_append_left (by simpa using by omega),
      Array.getElem?_toList] at hget
    rcases Nat.lt_succ_iff_lt_or_eq.1 hi with hi | rfl
    · exact hold (h.closed i hi r hget t ht)
    · rw [hr] at hget; cases hget
      exact h3 t ht

/-- No more items are found than there are sections and blobs. -/
theorem Found.size_le (hp : p.Linked) {next : ℕ} {found : Array ItemRef}
    (h : Found p next found) : found.size ≤ p.sections.size + p.store.size := by
  -- the sections are numbered first, the blobs behind them
  let number : ItemRef → ℕ
    | .level id => id.index
    | .blob id => p.sections.size + id.index
  have hlt {r} (hr : r ∈ found) : (∃ id, r = .level id ∧ id.index < p.sections.size) ∨
      ∃ id, r = .blob id ∧ id.index < p.store.size := by
    have := hp r (h.leads r hr)
    cases r with
    | level id => exact Or.inl ⟨id, rfl, (Array.getElem?_eq_some_iff.1 this.choose_spec).1⟩
    | blob id =>
      obtain ⟨b, _, hb, -⟩ := this
      exact Or.inr ⟨id, rfl, Store.blob?_lt hb⟩
  have hinj : (found.toList.map number).Nodup := by
    refine List.Nodup.map_on (fun a ha b hb hab => ?_) h.nodup
    rcases hlt (Array.mem_toList_iff.1 ha) with ⟨⟨i⟩, rfl, hi⟩ | ⟨⟨i⟩, rfl, hi⟩ <;>
      rcases hlt (Array.mem_toList_iff.1 hb) with ⟨⟨j⟩, rfl, hj⟩ | ⟨⟨j⟩, rfl, hj⟩ <;>
      simp only [number] at hab hi hj
    · rw [hab]
    · omega
    · omega
    · rw [Nat.add_left_cancel hab]
  have hsub : found.toList.map number ⊆ List.range (p.sections.size + p.store.size) := by
    intro n hn
    obtain ⟨r, hr, rfl⟩ := List.mem_map.1 hn
    rw [List.mem_range]
    rcases hlt (Array.mem_toList_iff.1 hr) with ⟨⟨i⟩, rfl, hi⟩ | ⟨⟨i⟩, rfl, hi⟩ <;>
      simp only [number] at hi ⊢ <;> omega
  simpa using (hinj.subperm hsub).length_le

/-- Discovery ends when all items found have been followed. -/
theorem Found.discover (hp : p.Linked) {fuel next : ℕ} {found : Array ItemRef}
    (h : Found p next found) (hfuel : p.sections.size + p.store.size < fuel + next) :
    Found p (p.discover fuel next found).size (p.discover fuel next found) := by
  induction fuel generalizing next found with
  | zero =>
    have := h.size_le hp
    exact ⟨h.root, h.nodup, h.leads, fun i hi => h.closed i (by unfold Program.discover at hi; omega)⟩
  | succ fuel ih =>
    unfold Program.discover
    split
    · rename_i hnone
      have := Array.getElem?_eq_none_iff.1 hnone
      exact ⟨h.root, h.nodup, h.leads, fun i hi => h.closed i (by omega)⟩
    · rename_i ref hr
      exact ih (h.step hr) (by omega)

theorem Linked.found (hp : p.Linked) :
    ∃ found : Array ItemRef, p.reachable = found.toList ∧ Found p found.size found := by
  refine ⟨_, rfl, Found.discover hp ⟨by simp, by simp, ?_, nofun⟩ (by omega)⟩
  intro r hr
  rw [List.mem_toArray, List.mem_singleton] at hr
  exact hr ▸ .root

/-- **Every item is found once.** -/
theorem Linked.nodup_reachable (hp : p.Linked) : p.reachable.Nodup := by
  obtain ⟨found, he, h⟩ := hp.found
  exact he ▸ h.nodup

/-- **What is found is what the root leads to.** -/
theorem Linked.mem_reachable_iff (hp : p.Linked) : ref ∈ p.reachable ↔ p.Leads ref := by
  obtain ⟨found, he, h⟩ := hp.found
  rw [he, Array.mem_toList_iff]
  refine ⟨h.leads ref, fun hl => ?_⟩
  induction hl with
  | root => exact Array.mem_of_getElem? h.root
  | step _ ht ih =>
    obtain ⟨i, hi, hget⟩ := Array.mem_iff_getElem.1 ih
    exact h.closed i hi _ (hget ▸ Array.getElem?_eq_getElem hi) _ ht

theorem Linked.reachable_eq (hp : p.Linked) : ∃ rest, p.reachable = .level p.root :: rest := by
  obtain ⟨found, he, h⟩ := hp.found
  have hroot := h.root
  rw [← Array.getElem?_toList, ← he] at hroot
  cases hr : p.reachable with
  | nil => rw [hr] at hroot; cases hroot
  | cons r rest =>
    rw [hr, List.getElem?_cons_zero, Option.some.injEq] at hroot
    exact ⟨rest, by rw [hroot]⟩

theorem Sound.nodup_reachable (hp : p.Sound ctx pad) : p.reachable.Nodup := hp.linked.nodup_reachable

theorem Sound.mem_reachable_iff (hp : p.Sound ctx pad) : ref ∈ p.reachable ↔ p.Leads ref :=
  hp.linked.mem_reachable_iff

theorem Sound.length_reachable (hp : p.Sound ctx pad) : p.reachable.length < 2 ^ 30 := by
  obtain ⟨found, he, h⟩ := hp.linked.found
  rw [he, Array.length_toList]
  exact (h.size_le hp.linked).trans_lt hp.count_lt

/-! ## Items -/

theorem item_ref (p : Program) (ref : ItemRef) : (p.item ref).ref = ref := by
  cases ref <;> rfl

/-- What makes an item fit to be placed. -/
structure Fit (chunk : UInt32) (i : Item) : Prop where
  size_le : i.size.toNat ≤ i.padSize.toNat
  padSize_le : i.padSize.toNat ≤ chunk.toNat
  padSize_words : 4 ∣ i.padSize.toNat
  alignment : Alignment.valid i.alignment = true
  alignment_le : i.alignment.toNat ≤ chunk.toNat

theorem roundUp_pad (g : Grain ctx.chunkSize pad) {size : UInt32}
    (hs : size.toNat < 2 ^ 31) :
    size.toNat ≤ (roundUp size pad).toNat ∧ 4 ∣ (roundUp size pad).toNat := by
  have h1 := g.chunk_le; have h2 := g.pad_le
  exact ⟨le_roundUp g.pad_pos (by omega), g.pad_words.trans (dvd_roundUp g.pad_pos (by omega))⟩

theorem fits_getD (g : Grain ctx.chunkSize pad) {a : Option UInt32}
    (h : Alignment.Fits ctx.chunkSize a) :
    Alignment.valid (a.getD 1) = true ∧ (a.getD 1).toNat ≤ ctx.chunkSize.toNat := by
  cases a with
  | none =>
    have := g.le_chunk
    exact ⟨by decide, show (1 : UInt32).toNat ≤ _ by rw [UInt32.toNat_one]; omega⟩
  | some a => exact ⟨(h a rfl).1, UInt32.le_iff_toNat_le.1 (h a rfl).2⟩

/-- **An item of a sound program can be placed in a chunk.** -/
theorem Sound.fit (hp : p.Sound ctx pad) (g : Grain ctx.chunkSize pad) (h : p.Holds ref) :
    Fit ctx.chunkSize (p.item ref) := by
  have hc := g.chunk_le
  cases ref with
  | level id =>
    obtain ⟨s, hs⟩ := h
    have hsound := hp.state.sections hs
    have hpad : p.store.padSize = pad := hp.state.padSize
    have hle := hsound.size_le
    obtain ⟨h1, h2⟩ := roundUp_pad g (show s.size.toNat < 2 ^ 31 by omega)
    obtain ⟨h3, h4⟩ := fits_getD g hsound.alignment
    simp only [item, sectionAt_eq hs, hpad]
    exact ⟨h1, UInt32.le_iff_toNat_le.1 hsound.fits, h2, h3, h4⟩
  | blob id =>
    obtain ⟨b, bytes, hb, hst⟩ := h
    obtain ⟨hlen, hsize, hpadSize, hfits⟩ := hp.state.store.owned hb hst
    have hpad : p.store.padSize = pad := hp.state.padSize
    have hsz : b.size.toNat < 2 ^ 31 := by
      rw [hsize, toNat_toUInt32 (by omega)]; omega
    obtain ⟨h1, h2⟩ := roundUp_pad g hsz
    obtain ⟨h3, h4⟩ := fits_getD g (hp.state.store.alignment hb)
    have hround : roundUp b.size pad = b.padSize := by rw [hpadSize, ← hpad]
    rw [hround] at h1 h2
    simp only [item, Store.padSizeOf, Store.alignment?, hb, Option.map_some, Option.getD_some,
      Option.bind_some]
    exact ⟨h1, UInt32.le_iff_toNat_le.1 hfits, h2, h3, h4⟩

end LevelBundle.Program
