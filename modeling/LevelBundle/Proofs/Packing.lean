/-
  LevelBundle — what is true of a program once its items are placed.

  * `Packer.Accepts`: what `settle` says of the layout it answers.
  * `Program.Moved p q`: `q` is `p`, but for the offsets.
  * `runs_commit`: all items get the offsets of the layout, and no offset is
    changed once it is set.
  * `Packer.Laidout`: what emission and loading rely on; every item lies in one
    chunk of the bundle behind the header, and no two items overlap.
-/
import LevelBundle.Bundle.Packer
import LevelBundle.Proofs.Discovery
import LevelBundle.Proofs.Geometry

namespace LevelBundle

/-! ## Accepted layouts -/

namespace Packer

/-- What is true of a layout that is accepted. -/
structure Accepts (p : Packer) (items : List Item) (fixups : ℕ) (s : Settled) : Prop where
  capacity_le : s.capacity ≤ p.maxChunks
  headerSize_eq : s.headerSize = (p.headerSize s.capacity fixups).toUInt32
  headerSize_le : p.headerSize s.capacity fixups ≤ p.options.chunkSize.toNat
  layout : place (items.map Item.extent).toArray (p.order items) s.headerSize p.options.chunkSize =
    .ok s.layout
  chunksUsed_le : s.layout.chunksUsed ≤ s.capacity

theorem settle_accepts {p : Packer} {items : List Item} {fixups left : ℕ}
    {passes capacity : UInt32} {s : Settled}
    (h : p.settle items fixups left passes capacity = .ok s) : p.Accepts items fixups s := by
  induction left generalizing passes capacity with
  | zero => cases h
  | succ left ih =>
    simp only [settle] at h
    split_ifs at h with h1 h2
    split at h
    · cases h
    · rename_i layout hl
      split_ifs at h with hu
      · cases h
        exact ⟨UInt32.not_lt.1 h1, rfl, Nat.not_lt.1 h2, hl, hu⟩
      · exact ih h

theorem order_perm (p : Packer) (items : List Item) :
    (p.order items).Perm (List.range items.length) := by
  have hsnd : items.zipIdx.map Prod.snd = List.range items.length := by
    rw [List.zipIdx_map_snd, List.range_eq_range']
  unfold order
  simp only
  split_ifs
  · rw [hsnd]
  · rw [← hsnd]
    exact (List.mergeSort_perm _ _).map _

end Packer

/-! ## Setting offsets -/

namespace Program

/-- Where an item lies, once placed. -/
def offsetOf? (p : Program) : ItemRef → Option UInt32
  | .level id => (p.sectionAt id).offset
  | .blob id => (p.store.blob? id).bind Blob.offset

/-- Where an item lies; zero for one that is not placed. -/
def place (p : Program) (ref : ItemRef) : UInt32 := (p.offsetOf? ref).getD 0

/-- A program is another one, but for the offsets. -/
structure Moved (p q : Program) : Prop where
  root : q.root = p.root
  sections : ∀ i : ℕ, ∃ o, q.sections[i]? = p.sections[i]?.map fun s => { s with offset := o }
  blobs : ∀ id, ∃ o, q.store.blob? id = (p.store.blob? id).map fun b => { b with offset := o }

variable {p q r : Program}

theorem Moved.refl (p : Program) : Moved p p := by
  refine ⟨rfl, fun i => ?_, fun id => ?_⟩
  · rcases p.sections[i]? with _ | s
    · exact ⟨none, rfl⟩
    · exact ⟨s.offset, rfl⟩
  · rcases p.store.blob? id with _ | b
    · exact ⟨none, rfl⟩
    · exact ⟨b.offset, rfl⟩

theorem Moved.trans (h₁ : Moved p q) (h₂ : Moved q r) : Moved p r := by
  refine ⟨h₂.root.trans h₁.root, fun i => ?_, fun id => ?_⟩
  · obtain ⟨o, ho⟩ := h₁.sections i
    obtain ⟨o', ho'⟩ := h₂.sections i
    exact ⟨o', by rw [ho', ho, Option.map_map]; rfl⟩
  · obtain ⟨o, ho⟩ := h₁.blobs id
    obtain ⟨o', ho'⟩ := h₂.blobs id
    exact ⟨o', by rw [ho', ho, Option.map_map]; rfl⟩

theorem Moved.sectionAt (h : Moved p q) (id : SectionId) :
    ∃ o, q.sectionAt id = { p.sectionAt id with offset := o } := by
  obtain ⟨o, ho⟩ := h.sections id.index
  simp only [Program.sectionAt, Array.getD_eq_getD_getElem?, ho]
  rcases p.sections[id.index]? with _ | s
  · exact ⟨none, rfl⟩
  · exact ⟨o, rfl⟩

theorem Moved.parts (h : Moved p q) (id : SectionId) :
    (q.sectionAt id).parts = (p.sectionAt id).parts := by
  obtain ⟨o, ho⟩ := h.sectionAt id
  rw [ho]

theorem Moved.storage (h : Moved p q) (id : BlobId) :
    (q.store.blob? id).map Blob.storage = (p.store.blob? id).map Blob.storage := by
  obtain ⟨o, ho⟩ := h.blobs id
  rw [ho, Option.map_map]; rfl

theorem Moved.canonical (h : Moved p q) (id : BlobId) :
    q.store.canonical id = p.store.canonical id := by
  rw [Store.canonical, h.storage, Store.canonical]

theorem Moved.bytes (h : Moved p q) (id : BlobId) : q.store.bytes id = p.store.bytes id := by
  obtain ⟨o, ho⟩ := h.blobs (p.store.canonical id)
  rw [Store.bytes, h.canonical, ho, Option.map_map]; rfl

theorem Moved.targets (h : Moved p q) (ref : ItemRef) : q.targets ref = p.targets ref := by
  cases ref with
  | blob id => rfl
  | level id =>
    have ht : q.target? = p.target? := by
      funext part
      cases part <;> simp only [target?, h.canonical]
    simp only [Program.targets, h.parts, ht]

theorem Moved.leads (h : Moved p q) {ref : ItemRef} : q.Leads ref ↔ p.Leads ref := by
  constructor
  · intro hr
    induction hr with
    | root => exact h.root ▸ .root
    | step _ ht ih => exact .step ih (h.targets _ ▸ ht)
  · intro hr
    induction hr with
    | root => exact h.root ▸ .root
    | step _ ht ih => exact .step ih ((h.targets _).symm ▸ ht)

theorem Moved.holds (h : Moved p q) {ref : ItemRef} (hr : p.Holds ref) : q.Holds ref := by
  cases ref with
  | level id =>
    obtain ⟨s, hs⟩ := hr
    obtain ⟨o, ho⟩ := h.sections id.index
    exact ⟨_, by rw [ho, hs]; rfl⟩
  | blob id =>
    obtain ⟨b, bytes, hb, hst⟩ := hr
    obtain ⟨o, ho⟩ := h.blobs id
    exact ⟨{ b with offset := o }, bytes, by rw [ho, hb]; rfl, hst⟩

theorem Moved.linked (h : Moved p q) (hp : p.Linked) : q.Linked :=
  fun ref hr => h.holds (hp ref (h.leads.1 hr))

theorem canonical_eq {id : BlobId} (h : p.Holds (.blob id)) : p.store.canonical id = id := by
  obtain ⟨b, bytes, hb, hst⟩ := h
  simp only [Store.canonical, hb, Option.map_some, hst]

end Program

namespace Packer

variable {p q : Program}

/-- What setting the offset of an item does. -/
structure Assigned (p q : Program) (ref : ItemRef) (o : UInt32) : Prop where
  moved : p.Moved q
  before : p.offsetOf? ref = none
  after : q.offsetOf? ref = some o
  frame : ∀ ref', ref' ≠ ref → q.offsetOf? ref' = p.offsetOf? ref'

theorem getElem?_modify_eq {α : Type} (xs : Array α) (f : α → α) (i j : ℕ) :
    (xs.modify i f)[j]? = xs[j]?.map fun x => if i = j then f x else x := by
  rw [Array.getElem?_modify]
  split_ifs
  · rfl
  · exact Option.map_id'.symm

theorem assigned_section {id : SectionId} {o : UInt32} (hp : p.Holds (.level id))
    (hnone : (p.sectionAt id).offset = none) :
    Assigned p { p with
      sections := p.sections.modify id.index fun s => { s with offset := some o } }
      (.level id) o := by
  obtain ⟨s, hs⟩ := hp
  refine ⟨⟨rfl, fun j => ?_, (Program.Moved.refl p).blobs⟩, hnone, ?_, ?_⟩
  · simp only [getElem?_modify_eq]
    split_ifs
    · exact ⟨some o, rfl⟩
    · rw [Option.map_id']; exact (Program.Moved.refl p).sections j
  · simp only [Program.offsetOf?, Program.sectionAt, Array.getD_eq_getD_getElem?,
      getElem?_modify_eq, hs, if_true, Option.map_some, Option.getD_some]
  · rintro (j | id') hne
    · have hij : id.index ≠ j.index := fun h => hne (by cases j; cases id; cases h; rfl)
      simp only [Program.offsetOf?, Program.sectionAt, Array.getD_eq_getD_getElem?,
        getElem?_modify_eq, if_neg hij, Option.map_id']
    · rfl

theorem assigned_blob {id : BlobId} {o : UInt32} (hp : p.Holds (.blob id))
    (hnone : (p.store.blob? id).bind Blob.offset = none) :
    Assigned p { p with store := { p.store with
      blobs := p.store.blobs.modify id.index fun b => { b with offset := some o } } }
      (.blob id) o := by
  obtain ⟨b, bytes, hb, hst⟩ := hp
  refine ⟨⟨rfl, (Program.Moved.refl p).sections, fun j => ?_⟩, hnone, ?_, ?_⟩
  · simp only [Store.blob?, getElem?_modify_eq]
    split_ifs
    · exact ⟨some o, rfl⟩
    · rw [Option.map_id']; exact (Program.Moved.refl p).blobs j
  · have hb : p.store.blobs[id.index]? = some b := hb
    simp only [Program.offsetOf?, Store.blob?, getElem?_modify_eq, hb, if_true, Option.map_some,
      Option.bind_some]
  · rintro (id' | j) hne
    · rfl
    · have hij : id.index ≠ j.index := fun h => hne (by cases j; cases id; cases h; rfl)
      simp only [Program.offsetOf?, Store.blob?, getElem?_modify_eq, if_neg hij, Option.map_id']

/-- **Setting an offset** changes nothing else, and no offset that is set. -/
theorem runs_assign {i : Item} {o : UInt32} {u : Unit} (h : Runs (assign i o) p u q)
    (hi : p.Holds i.ref) : Assigned p q i.ref o := by
  simp only [assign, runs_bind, runs_get] at h
  obtain ⟨_, _, ⟨rfl, rfl⟩, h⟩ := h
  cases href : i.ref with
  | level id =>
    rw [href] at h hi
    simp only at h
    split_ifs at h with hsome
    · simp only [runs_bind, runs_throw, false_and, exists_false] at h
    rw [runs_set] at h
    subst h
    exact assigned_section hi (by simpa using hsome)
  | blob id =>
    rw [href] at h hi
    have hcan := Program.canonical_eq hi
    simp only at h
    split at h
    · rename_i u' store hr
      obtain ⟨hnone, rfl⟩ := Store.runs_assignOffset hr
      rw [runs_set] at h
      subst h
      rw [Store.offset?, hcan] at hnone
      rw [hcan]
      exact assigned_blob hi hnone
    · simp only [runs_throw] at h

/-- **All items get their offsets.** -/
theorem runs_commit {entries : List (Item × UInt32)} {u : Unit}
    (h : Runs (entries.forM fun e => assign e.1 e.2) p u q) (he : ∀ e ∈ entries, p.Holds e.1.ref) :
    p.Moved q ∧ (∀ e ∈ entries, q.offsetOf? e.1.ref = some e.2) ∧
      (∀ ref o, p.offsetOf? ref = some o → q.offsetOf? ref = some o) ∧
      ∀ ref, (∀ e ∈ entries, e.1.ref ≠ ref) → q.offsetOf? ref = p.offsetOf? ref := by
  induction entries generalizing p with
  | nil =>
    obtain ⟨-, rfl⟩ := runs_pure.1 h
    exact ⟨.refl _, nofun, fun _ _ h => h, fun _ _ => rfl⟩
  | cons e entries ih =>
    obtain ⟨_, p₁, h1, h2⟩ := runs_bind.1 h
    have ha := runs_assign h1 (he e (by simp))
    obtain ⟨hm, hoff, hold, hframe⟩ := ih h2 fun e' he' => ha.moved.holds (he e' (by simp [he']))
    refine ⟨ha.moved.trans hm, fun e' he' => ?_, fun ref o ho => hold ref o ?_, fun ref hne => ?_⟩
    · rcases List.mem_cons.1 he' with rfl | he'
      · exact hold _ _ ha.after
      · exact hoff e' he'
    · rw [ha.frame ref fun h => ?_]
      · exact ho
      · rw [h, ha.before] at ho; cases ho
    · rw [hframe ref fun e' he' => hne e' (by simp [he']),
        ha.frame ref fun h => hne e (by simp) h.symm]

/-- Nothing is placed in a program as it was compiled. -/
theorem offsetOf?_eq_none {ctx : CompileContext} {pad : UInt32} (hp : p.Sound ctx pad)
    (ref : ItemRef) : p.offsetOf? ref = none := by
  cases ref with
  | level id =>
    cases hs : p.sections[id.index]? with
    | none => simp [Program.offsetOf?, Program.sectionAt, Array.getD_eq_getD_getElem?, hs]
    | some s =>
      rw [Program.offsetOf?, Program.sectionAt_eq hs]
      exact (hp.state.sections hs).unplaced
  | blob id =>
    cases hb : p.store.blob? id with
    | none => rw [Program.offsetOf?, hb, Option.bind_none]
    | some b =>
      rw [Program.offsetOf?, hb, Option.bind_some]
      exact hp.state.store.unplaced hb

/-! ## Layouts -/

/-- Where an item lies: behind the header, on a whole word, in one chunk of the
    bundle, and aligned there. -/
structure Lies (chunk header capacity : UInt32) (i : Item) (o : UInt32) : Prop where
  header_le : header.toNat ≤ o.toNat
  words : 4 ∣ o.toNat
  block_lt : o.toNat / chunk.toNat < capacity.toNat
  inside : o.toNat % chunk.toNat + i.padSize.toNat ≤ chunk.toNat
  aligned : i.alignment.toNat ≤ 1 ∨ i.alignment.toNat ∣ o.toNat % chunk.toNat

/-- What is true of a program whose items have been placed. -/
structure Laidout (k : Packer) (p q : Program) (s : Settled) : Prop where
  moved : p.Moved q
  zip_eq : p.items.zip s.layout.offsets.toList = p.reachable.map fun ref => (p.item ref, q.place ref)
  placed : ∀ {ref}, p.Leads ref → q.offsetOf? ref = some (q.place ref)
  unplaced : ∀ {ref}, ¬ p.Leads ref → q.offsetOf? ref = none
  lies : ∀ {ref}, p.Leads ref →
    Lies k.options.chunkSize s.headerSize s.capacity (p.item ref) (q.place ref)
  apart : ∀ {ref ref'}, p.Leads ref → p.Leads ref' → ref ≠ ref' →
    (q.place ref).toNat + (p.item ref).padSize.toNat ≤ (q.place ref').toNat ∨
      (q.place ref').toNat + (p.item ref').padSize.toNat ≤ (q.place ref).toNat

/-- The chunk size of a packer is that of its positions. -/
def Sane (k : Packer) : Prop := k.addressing.chunkSize = k.options.chunkSize

theorem sane_of_ofOptions {options : PackOptions} {k : Packer} (h : ofOptions options = .ok k) :
    k.Sane ∧ k.options = options := by
  simp only [ofOptions, bind_eq_ok, mapError_eq_ok] at h
  obtain ⟨a, ha, h⟩ := h
  split_ifs at h
  · simp only [bind_eq_ok, throw_ne_ok, false_and, exists_false] at h
  · obtain rfl := pure_eq_ok.1 h
    exact ⟨Addressing.ofChunkSize_eq_ok ha, rfl⟩

/-- Every chunk, and one more, can be named, and the file stays below `2 ^ 32` bytes. -/
theorem capacity_spec {k : Packer} (hk : k.Sane) {capacity : UInt32} (h : capacity ≤ k.maxChunks) :
    capacity.toNat < k.addressing.maxBlocks.toNat ∧
      (capacity.toNat + 1) * k.options.chunkSize.toNat < 2 ^ 32 := by
  obtain ⟨h16, h30, h4⟩ := k.addressing.words
  have hb := k.addressing.bits_spec
  rw [hk] at h16 h30 h4
  have hmax : 3 ≤ k.addressing.maxBlocks.toNat := by
    have : 2 ^ 2 ≤ 2 ^ (32 - k.addressing.bits) := Nat.pow_le_pow_right (by omega) (by omega)
    rw [Addressing.toNat_maxBlocks]
    omega
  have hdiv : (0xFFFFFFFF / k.options.chunkSize).toNat = 4294967295 / k.options.chunkSize.toNat :=
    UInt32.toNat_div _ _
  have hq : 3 ≤ 4294967295 / k.options.chunkSize.toNat :=
    (Nat.le_div_iff_mul_le (by omega)).2 (by omega)
  have hle : capacity ≤ k.addressing.maxBlocks - 1 ∧
      capacity ≤ 0xFFFFFFFF / k.options.chunkSize - 1 := by
    have h : capacity ≤ if k.addressing.maxBlocks - 1 ≤ 0xFFFFFFFF / k.options.chunkSize - 1 then
        k.addressing.maxBlocks - 1 else 0xFFFFFFFF / k.options.chunkSize - 1 := h
    split_ifs at h with hc
    · exact ⟨h, UInt32.le_trans h hc⟩
    · exact ⟨UInt32.le_trans h (UInt32.le_of_lt (UInt32.not_le.1 hc)), h⟩
  have hone (x : UInt32) (hx : 1 ≤ x.toNat) : (x - 1).toNat = x.toNat - 1 :=
    UInt32.toNat_sub_of_le _ _ (UInt32.le_iff_toNat_le.2 hx)
  rw [UInt32.le_iff_toNat_le, UInt32.le_iff_toNat_le, hone _ (by omega), hone _ (by omega),
    hdiv] at hle
  have hmul : (capacity.toNat + 1) * k.options.chunkSize.toNat ≤ 4294967295 :=
    (Nat.le_div_iff_mul_le (by omega)).1 (by omega)
  omega

theorem four_dvd_headerSize (k : Packer) (chunks : UInt32) (fixups : ℕ) :
    4 ∣ k.headerSize chunks fixups := by
  unfold headerSize
  split_ifs <;> omega

variable {ctx : CompileContext} {pad : UInt32} {k : Packer} {fixups : ℕ} {s : Settled}

theorem extent_items (p : Program) {i : ℕ} (hi : i < p.reachable.length) :
    Placement.extent (p.items.map Item.extent).toArray i = (p.item p.reachable[i]).extent := by
  simp [Placement.extent, Program.items, hi]

theorem Accepts.toNat_headerSize (hk : k.Sane) {items : List Item}
    (hs : k.Accepts items fixups s) : s.headerSize.toNat = k.headerSize s.capacity fixups := by
  obtain ⟨-, h30, -⟩ := k.addressing.words
  rw [hk] at h30
  have := hs.headerSize_le
  rw [hs.headerSize_eq, toNat_toUInt32 (by omega)]

theorem fit_getElem (hp : p.Sound ctx pad) (g : Grain ctx.chunkSize pad) {i : ℕ}
    (hi : i < p.reachable.length) : Program.Fit ctx.chunkSize (p.item p.reachable[i]) :=
  hp.fit g (hp.holds (hp.mem_reachable_iff.1 (List.getElem_mem hi)))

theorem Accepts.admits (hp : p.Sound ctx pad) (g : Grain ctx.chunkSize pad)
    (hs : k.Accepts p.items fixups s) : ∀ i ∈ k.order p.items,
      Placement.Admits (p.items.map Item.extent).toArray k.options.chunkSize.toNat i := by
  intro i hi
  have h30 := g.chunk_le
  have hlt := (k.order_perm p.items).mem_iff.1 hi
  rw [List.mem_range, Program.items, List.length_map] at hlt
  refine ⟨by simpa [Program.items] using hlt, (place_eq_ok hs.layout).1 i hi, ?_⟩
  rw [extent_items p hlt]
  exact (fit_getElem hp g hlt).alignment_le.trans (by omega)

/-- Everything is measured in words. -/
theorem Accepts.words (hk : k.Sane) (hp : p.Sound ctx pad) (g : Grain ctx.chunkSize pad)
    (hs : k.Accepts p.items fixups s) : Placement.Words (p.items.map Item.extent).toArray
      k.options.chunkSize.toNat s.headerSize.toNat := by
  obtain ⟨-, -, h4⟩ := k.addressing.words
  rw [hk] at h4
  have lt {i : ℕ} (hi : i < (p.items.map Item.extent).toArray.size) : i < p.reachable.length := by
    simpa [Program.items] using hi
  refine ⟨h4, ?_, fun i hi => ?_, fun i hi => ?_⟩
  · rw [hs.toNat_headerSize hk]
    exact four_dvd_headerSize _ _ _
  · rw [extent_items p (lt hi)]
    exact (fit_getElem hp g (lt hi)).padSize_words
  · rw [extent_items p (lt hi)]
    exact (fit_getElem hp g (lt hi)).alignment

/-- **The items of an accepted layout** are laid out behind its header. -/
theorem Accepts.laid (hk : k.Sane) (hp : p.Sound ctx pad) (g : Grain ctx.chunkSize pad)
    (hs : k.Accepts p.items fixups s) :
    ∃ (pr : Placement.Progress) (placed : List (ℕ × ℕ)),
      pr = Placement.run (p.items.map Item.extent).toArray k.options.chunkSize.toNat
        (Placement.initial (p.items.map Item.extent).toArray k.options.chunkSize.toNat
          s.headerSize.toNat) (k.order p.items) ∧
      Placement.Laid (p.items.map Item.extent).toArray k.options.chunkSize.toNat
        s.headerSize.toNat pr placed ∧
      (placed.map Prod.fst).Perm (k.order p.items) ∧ s.layout.offsets = pr.offsets ∧
      s.layout.chunksUsed.toNat = pr.lastBlock + 1 := by
  obtain ⟨h16, h30, -⟩ := k.addressing.words
  rw [hk] at h16 h30
  have hadm := hs.admits hp g
  have hperm := k.order_perm p.items
  have hlen : (k.order p.items).length < 2 ^ 30 := by
    rw [hperm.length_eq, List.length_range, Program.items, List.length_map]
    exact hp.length_reachable
  have hheader : s.headerSize.toNat ≤ k.options.chunkSize.toNat :=
    (hs.toNat_headerSize hk).le.trans hs.headerSize_le
  obtain ⟨pr, placed, hpr, hl, hpm, hoff, hused, -⟩ := place_laid hs.layout (by omega) (by omega)
    hheader (hperm.nodup_iff.2 List.nodup_range) (fun i hi => (hadm i hi).lt) hlen
    fun i hi => (hadm i hi).alignment_le
  exact ⟨pr, placed, hpr, hl, hpm, hoff, hused⟩

/-- **What an accepted layout says** of the item with each index. -/
theorem Accepts.places (hk : k.Sane) (hp : p.Sound ctx pad) (g : Grain ctx.chunkSize pad)
    (hs : k.Accepts p.items fixups s) :
    s.layout.offsets.size = p.reachable.length ∧ ∃ f : ℕ → ℕ,
      (∀ i (hi : i < p.reachable.length),
        s.layout.offsets[i]? = some (f i).toUInt32 ∧ (f i).toUInt32.toNat = f i ∧
        Lies k.options.chunkSize s.headerSize s.capacity (p.item p.reachable[i])
          (f i).toUInt32) ∧
      ∀ i j (hi : i < p.reachable.length) (hj : j < p.reachable.length), i ≠ j →
        f i + (p.item p.reachable[i]).padSize.toNat ≤ f j ∨
          f j + (p.item p.reachable[j]).padSize.toNat ≤ f i := by
  have hitems : p.items.length = p.reachable.length := List.length_map ..
  obtain ⟨pr, placed, -, hl, hpm, hoff, hused⟩ := hs.laid hk hp g
  -- each item has its place
  have hplace (i : ℕ) : ∃ o, i < p.reachable.length → (i, o) ∈ placed := by
    by_cases hi : i < p.reachable.length
    · have hmem : i ∈ k.order p.items :=
        (k.order_perm p.items).mem_iff.2 (List.mem_range.2 (hitems ▸ hi))
      obtain ⟨⟨j, o⟩, hm, rfl⟩ := List.mem_map.1 (hpm.mem_iff.2 hmem)
      exact ⟨o, fun _ => hm⟩
    · exact ⟨0, fun h => absurd h hi⟩
  choose f hf using hplace
  have hroom (i : ℕ) (hi : i < p.reachable.length) (o : ℕ) :
      Placement.room (p.items.map Item.extent).toArray (i, o) =
        (p.item p.reachable[i]).padSize.toNat := by
    rw [Placement.room, extent_items p hi]; rfl
  refine ⟨by rw [hoff, hl.size_eq]; simp [hitems], f, fun i hi => ?_, fun i j hi hj hij => ?_⟩
  · have he := hf i hi
    have hst := hl.stands _ he
    -- it lies in a chunk that is counted, so its offset is a word
    have hblock : f i / k.options.chunkSize.toNat ≤ pr.lastBlock := hl.block_le _ he
    have hchunks := UInt32.le_iff_toNat_le.1 hs.chunksUsed_le
    have hlt : f i / k.options.chunkSize.toNat < s.capacity.toNat := by omega
    obtain ⟨-, hfile⟩ := capacity_spec hk hs.capacity_le
    obtain ⟨h16, -⟩ := k.addressing.words
    rw [hk] at h16
    have hbound := Nat.lt_mul_of_div_lt hlt (by omega)
    rw [Nat.add_mul, Nat.one_mul] at hfile
    have hnat : (f i).toUInt32.toNat = f i := toNat_toUInt32 (by omega)
    refine ⟨by rw [hoff]; exact hl.offsets _ he, hnat, ?_⟩
    constructor <;> simp only [hnat]
    case header_le => exact hl.above _ he
    case words => exact (hl.words (hs.words hk hp g)).2 _ he
    case block_lt => exact hlt
    case inside => exact hroom i hi (f i) ▸ hst.inside
    case aligned =>
      have hal := hst.aligned
      rw [extent_items p hi] at hal
      exact hal
  · have hne : ((i, f i) : ℕ × ℕ) ≠ (j, f j) := fun h => hij (congrArg Prod.fst h)
    simpa only [hroom i hi, hroom j hj] using hl.apart_of_ne (hf i hi) (hf j hj) hne

/-- **What an accepted layout says** of each item. -/
theorem Accepts.lies (hk : k.Sane) (hp : p.Sound ctx pad) (g : Grain ctx.chunkSize pad)
    (hs : k.Accepts p.items fixups s) :
    ∃ o : ItemRef → UInt32, s.layout.offsets.toList = p.reachable.map o ∧
      (∀ ref, p.Leads ref →
        Lies k.options.chunkSize s.headerSize s.capacity (p.item ref) (o ref)) ∧
      ∀ ref ref', p.Leads ref → p.Leads ref' → ref ≠ ref' →
        (o ref).toNat + (p.item ref).padSize.toNat ≤ (o ref').toNat ∨
          (o ref').toNat + (p.item ref').padSize.toNat ≤ (o ref).toNat := by
  obtain ⟨hsize, f, hf, hapart⟩ := hs.places hk hp g
  have hn := hp.nodup_reachable
  have index {ref} (h : p.Leads ref) : ∃ hi : p.reachable.idxOf ref < p.reachable.length,
      p.reachable[p.reachable.idxOf ref] = ref := by
    have hi := List.idxOf_lt_length_iff.2 (hp.mem_reachable_iff.2 h)
    exact ⟨hi, List.getElem_idxOf hi⟩
  refine ⟨fun ref => (f (p.reachable.idxOf ref)).toUInt32, ?_, fun ref h => ?_,
    fun ref ref' h h' hne => ?_⟩
  · refine List.ext_getElem (by simpa using hsize) fun i h1 h2 => ?_
    have hi : i < p.reachable.length := by simpa using h2
    have := (hf i hi).1
    rw [← Array.getElem?_toList, List.getElem?_eq_getElem h1, Option.some.injEq] at this
    rw [List.getElem_map, this, hn.idxOf_getElem i hi]
  · obtain ⟨hi, he⟩ := index h
    have := (hf _ hi).2.2
    rwa [he] at this
  · obtain ⟨hi, he⟩ := index h
    obtain ⟨hj, he'⟩ := index h'
    have := hapart _ _ hi hj fun h => hne (by rw [← he, ← he']; simp only [h])
    rw [he, he'] at this
    rw [(hf _ hi).2.1, (hf _ hj).2.1]
    exact this

/-- **A packed program is laid out.** -/
theorem laidout (hk : k.Sane) (hp : p.Sound ctx pad) (g : Grain ctx.chunkSize pad)
    (hs : k.Accepts p.items fixups s) {u : Unit}
    (hc : Runs (commit p.items s.layout) p u q) : Laidout k p q s := by
  obtain ⟨o, ho, hlies, hapart⟩ := hs.lies hk hp g
  have hzip : p.items.zip s.layout.offsets.toList = p.reachable.map fun ref =>
      (p.item ref, o ref) := by
    rw [ho, Program.items, List.zip_map']
  rw [commit, hzip] at hc
  obtain ⟨hm, hoff, -, hframe⟩ := runs_commit hc fun e he => by
    obtain ⟨ref, hr, rfl⟩ := List.mem_map.1 he
    rw [Program.item_ref]
    exact hp.holds (hp.mem_reachable_iff.1 hr)
  have hplaced {ref} (h : p.Leads ref) : q.offsetOf? ref = some (o ref) := by
    have := hoff _ (List.mem_map_of_mem (hp.mem_reachable_iff.2 h))
    rwa [Program.item_ref] at this
  have hplace {ref} (h : p.Leads ref) : q.place ref = o ref := by
    rw [Program.place, hplaced h, Option.getD_some]
  refine ⟨hm, ?_, fun h => by rw [hplaced h, hplace h], fun {ref} h => ?_,
    fun h => hplace h ▸ hlies _ h,
    fun h h' hne => by rw [hplace h, hplace h']; exact hapart _ _ h h' hne⟩
  · rw [hzip]
    exact List.map_congr_left fun ref hr => by rw [hplace (hp.mem_reachable_iff.1 hr)]
  · rw [hframe ref fun e he heq => ?_, offsetOf?_eq_none hp]
    obtain ⟨ref', hr, rfl⟩ := List.mem_map.1 he
    rw [Program.item_ref] at heq
    exact h (heq ▸ hp.mem_reachable_iff.1 hr)

end Packer

end LevelBundle
