/-
  LevelBundle — what is true of a store after any calls.

  * `Store.Consistent s log`: the links, the counters, the names, the alignments and the
    places of a store agree with one another and with what the calls in `log` were answered.
    `Consistent.step` is what one call does to that.
  * `Store.Stable s s'`: what a store says of its blobs and names does not change.
  * `store_consistent`: a store is consistent after any calls, and stable from then on.
-/
import LevelBundle.Proofs.StoreCalls
import Mathlib.Data.List.Induction
import Mathlib.Data.List.Nodup

namespace LevelBundle

@[simp] theorem StoreEntry.id?_eq_some {e : StoreEntry} {id : BlobId} :
    e.id? = some id ↔ e.answer = .ok (some id) := by
  unfold id?
  rcases e.answer with e | _ | id' <;> simp [Except.toOption]

namespace Blob

theorem isCanonical_iff {b : Blob} : b.isCanonical = true ↔ ∃ bytes, b.storage = .owned bytes := by
  unfold isCanonical
  cases b.storage <;> simp

end Blob

namespace Store

open LevelBundle.Alignment (Divides)

variable {s s' : Store} {c : StoreCall} {answer : Except StoreError (Option BlobId)}

/-! ## Canonical blobs -/

/-- The numbers of the members of a list with some property. -/
theorem filter_zipIdx {α : Type} (p : α → Bool) (l : List α) :
    (l.zipIdx.filter fun e => p e.1).map Prod.snd =
      (List.range l.length).filter fun i => l[i]?.any p := by
  induction l using List.reverseRecOn with
  | nil => rfl
  | append_singleton l b ih =>
    rw [List.zipIdx_append, List.filter_append, List.map_append, ih, List.length_append,
      List.length_singleton, List.range_succ, List.filter_append]
    congr 1
    · refine List.filter_congr fun i hi => ?_
      rw [List.getElem?_append_left (List.mem_range.1 hi)]
    · by_cases hp : p b = true <;> simp [hp]

theorem canonicalIds_eq (s : Store) : s.canonicalIds =
    ((List.range s.size).filter fun i => (s.blob? ⟨i⟩).any Blob.isCanonical).map BlobId.mk := by
  have h := filter_zipIdx Blob.isCanonical s.blobs.toList
  simp only [Array.getElem?_toList, Array.length_toList] at h
  rw [size]
  simp only [blob?]
  rw [← h, List.map_map]
  rfl

theorem mem_canonicalIds {id : BlobId} :
    id ∈ s.canonicalIds ↔ ∃ b, s.blob? id = some b ∧ b.isCanonical = true := by
  simp only [canonicalIds_eq, List.mem_map, List.mem_filter, List.mem_range, Option.any_eq_true]
  constructor
  · rintro ⟨i, ⟨-, b, hb, hc⟩, rfl⟩
    exact ⟨b, hb, hc⟩
  · rintro ⟨b, hb, hc⟩
    exact ⟨id.index, ⟨blob?_lt hb, b, hb, hc⟩, rfl⟩

theorem nodup_canonicalIds (s : Store) : s.canonicalIds.Nodup := by
  rw [canonicalIds_eq]
  refine List.Nodup.map (fun i j h => ?_) (List.nodup_range.filter _)
  cases h
  rfl

theorem Keeps.filter_range (h : Keeps s s') :
    ((List.range s.size).filter fun i => (s'.blob? ⟨i⟩).any Blob.isCanonical).map BlobId.mk =
      s.canonicalIds := by
  rw [canonicalIds_eq]
  congr 1
  refine List.filter_congr fun i hi => ?_
  have hid : (BlobId.mk i).index < s.size := List.mem_range.1 hi
  obtain ⟨b, a, o, hb, hb', -⟩ := h.old hid
  rw [hb, hb']
  rfl

theorem Keeps.canonicalIds_eq (h : Keeps s s') (hsize : s'.size = s.size) :
    s'.canonicalIds = s.canonicalIds := by
  rw [Store.canonicalIds_eq s', hsize, h.filter_range]

theorem Keeps.canonicalIds_succ (h : Keeps s s') (hsize : s'.size = s.size + 1) {b : Blob}
    (hb : s'.blob? ⟨s.size⟩ = some b) :
    s'.canonicalIds = s.canonicalIds ++ if b.isCanonical then [⟨s.size⟩] else [] := by
  rw [Store.canonicalIds_eq s', hsize, List.range_succ, List.filter_append, List.map_append,
    h.filter_range, List.filter_singleton, hb, Option.any_some]
  cases b.isCanonical <;> rfl

/-- The padded sizes of some blobs, taken together. -/
def paddedSize (s : Store) (ids : List BlobId) : ℕ := (ids.map fun id => (s.padSizeOf id).toNat).sum

theorem Keeps.paddedSize (h : Keeps s s') :
    s'.paddedSize s.canonicalIds = s.paddedSize s.canonicalIds := by
  unfold Store.paddedSize
  congr 1
  refine List.map_congr_left fun id hid => ?_
  obtain ⟨b, hb, -⟩ := mem_canonicalIds.1 hid
  rw [h.padSizeOf (blob?_lt hb)]

/-! ## Counters -/

/-- The counters of a store that has granted `n` requests. -/
structure Balanced (s : Store) (n : ℕ) : Prop where
  total : s.totalPadSize = s.paddedSize s.canonicalIds
  hits : s.dedupHits + s.canonicalIds.length = n

/-- **What a call does to the counters**: a request that is granted is counted once. -/
theorem Outcome.balanced (h : Outcome s c answer s') {n : ℕ} (hb : s.Balanced n) :
    s'.Balanced (n + if (StoreEntry.mk c answer).id?.isSome then 1 else 0) := by
  have hk := h.keeps
  have htotal := hb.total
  have hhits := hb.hits
  have hpad := hk.paddedSize
  -- no blob is added
  have same (hsize : s'.size = s.size) (ht : s'.totalPadSize = s.totalPadSize) {d : ℕ}
      (hd : s'.dedupHits = s.dedupHits + d) : s'.Balanced (n + d) := by
    have hids := hk.canonicalIds_eq hsize
    constructor
    · rw [ht, hids, hpad, htotal]
    · rw [hd, hids]
      omega
  cases h with
  | refused c e => exact hb
  | absent hn => exact hb
  | found hname hn ho hsh => exact same (size_merged ..) rfl rfl
  | placed hnone => exact same (size_placedAt ..) rfl rfl
  | @shared bytes name a m t b hn hd hb' hst hsize hm =>
    have hids := hk.canonicalIds_succ (size_withAlias ..) (by rw [blob?_withAlias, if_pos rfl])
    have halias : (aliasBlob t b.padSize bytes name a).isCanonical = false := rfl
    rw [halias, if_neg Bool.false_ne_true, List.append_nil] at hids
    constructor
    · rw [hids, hpad, ← htotal]
      rfl
    · rw [hids]
      show s.dedupHits + 1 + _ = n + 1
      omega
  | @stored bytes name a hash unique hn hd =>
    have hnew : (s.withOwn unique (s.ownBlob hash bytes name a)).blob? ⟨s.size⟩ =
        some (s.ownBlob hash bytes name a) := by rw [blob?_withOwn, if_pos rfl]
    have hids := hk.canonicalIds_succ (size_withOwn ..) hnew
    have hown : (s.ownBlob hash bytes name a).isCanonical = true := rfl
    rw [hown, if_pos rfl] at hids
    constructor
    · rw [hids, paddedSize, List.map_append, List.sum_append, ← paddedSize, hpad, ← htotal,
        List.map_singleton, List.sum_singleton, padSizeOf, hnew]
      rfl
    · rw [hids, List.length_append, List.length_singleton]
      show s.dedupHits + _ = n + 1
      omega

/-! ## Aliases -/

/-- Aliases lead to canonical blobs of the same size and the same padded size. -/
def Flat (s : Store) : Prop :=
  ∀ id b t, s.blob? id = some b → b.storage = .aliasOf t →
    ∃ c, s.blob? t = some c ∧ c.isCanonical = true ∧ c.size = b.size ∧ c.padSize = b.padSize

theorem Flat.closed (hf : s.Flat) : s.Closed := by
  intro id b t hb hst
  obtain ⟨c, hc, hcan, -⟩ := hf _ _ _ hb hst
  obtain ⟨bytes, hbytes⟩ := Blob.isCanonical_iff.1 hcan
  exact ⟨c, bytes, hc, hbytes⟩

/-- **Aliases stay as they are**, and a new one leads to a blob with the same contents. -/
theorem Outcome.flat (h : Outcome s c answer s') (hf : s.Flat) : s'.Flat := by
  intro id b t hb hst
  -- the blob that an alias leads to stays canonical
  have lead {u : Blob} (hu : s.blob? t = some u) (hcan : u.isCanonical = true)
      (hsize : u.size = b.size) (hpad : u.padSize = b.padSize) : ∃ u', s'.blob? t = some u' ∧
        u'.isCanonical = true ∧ u'.size = b.size ∧ u'.padSize = b.padSize := by
    obtain ⟨a, o, hu', -⟩ := h.keeps.blob hu
    exact ⟨_, hu', hcan, hsize, hpad⟩
  rcases h.old_or_fresh hb with ⟨b₀, a, o, hb₀, rfl⟩ | ⟨-, hfresh⟩
  · obtain ⟨u, hu, hcan, hsize, hpad⟩ := hf id b₀ t hb₀ hst
    exact lead hu hcan hsize hpad
  · cases hfresh with
    | @shared bytes name a t' u hu hust hsize =>
      cases hst
      refine lead hu (Blob.isCanonical_iff.2 ⟨bytes, hust⟩) ?_ rfl
      show u.size = bytes.length.toUInt32
      rw [← hsize]
      exact (UInt32.ofNat_toNat).symm
    | stored => cases hst

/-! ## Names -/

theorem named?_of_names_eq (h : s'.names = s.names) (name : String) :
    s'.named? name = s.named? name := by
  rw [named?_eq, named?_eq, h]

theorem named?_of_names_push {given : Option String} (h : s'.names = s.names.push given)
    (hnew : ∀ n, given = some n → s.named? n = none) (name : String) :
    s'.named? name = if given = some name then some ⟨s.size⟩ else s.named? name := by
  have hsize : s.names.size = s.size := Array.size_map
  rw [named?_eq, named?_eq, h, Array.findIdx?_push, hsize]
  by_cases hname : given = some name
  · have hnone := hnew name hname
    rw [named?_eq, Option.map_eq_none_iff] at hnone
    simp [hnone, hname]
  · simp [hname]

/-- The names of a store are those under which requests have been granted. -/
def Named (s : Store) (log : List StoreEntry) : Prop :=
  ∀ name id, s.named? name = some id ↔ ∃ e ∈ log, e.call.name? = some name ∧ e.id? = some id

theorem exists_mem_concat {log : List StoreEntry} {x : StoreEntry} {p : StoreEntry → Prop} :
    (∃ e ∈ log ++ [x], p e) ↔ (∃ e ∈ log, p e) ∨ p x := by
  simp [or_and_right, exists_or]

/-- **What a call does to the names.** -/
theorem Outcome.named (h : Outcome s c answer s') {log : List StoreEntry} (hn : s.Named log) :
    s'.Named (log ++ [⟨c, answer⟩]) := by
  intro name id
  rw [exists_mem_concat, ← hn name id, StoreEntry.id?_eq_some]
  have new {given : Option String} (hnames : s'.names = s.names.push given)
      (hnew : ∀ n, given = some n → s.named? n = none) : s'.named? name = some id ↔
        s.named? name = some id ∨ (given = some name ∧ some (⟨s.size⟩ : BlobId) = some id) := by
    rw [named?_of_names_push hnames hnew]
    by_cases hname : given = some name
    · simp [hname, hnew name hname]
    · simp [hname]
  cases h with
  | refused | absent => simp
  | placed hnone => simp [named?_of_names_eq (names_placedAt ..)]
  | @found c given id' own shared hname hgiven ho hsh =>
    rw [named?_of_names_eq (names_merged ..)]
    constructor
    · exact Or.inl
    · rintro (h | ⟨h1, h2⟩)
      · exact h
      · rw [hname] at h1
        cases h1
        cases h2
        exact hgiven
  | shared hnew hd hb hst hsize hm =>
    rw [new (names_withAlias ..) hnew]
    simp [StoreCall.name?, aliasBlob]
  | stored hnew hd =>
    rw [new (names_withOwn ..) hnew]
    simp [StoreCall.name?, ownBlob]

/-! ## Alignments -/

/-- A blob that was requested at an alignment is there, and its canonical blob honours it. -/
def Grants (s : Store) (e : StoreEntry) : Prop :=
  ∀ id, e.id? = some id →
    id.index < s.size ∧ Divides e.call.alignment? (s.alignment? (s.canonical id))

theorem Grants.mono {e : StoreEntry} (h : s.Grants e) (hk : Keeps s s') : s'.Grants e := by
  intro id hid
  obtain ⟨hlt, hd⟩ := h id hid
  refine ⟨hlt.trans_le hk.size_le, ?_⟩
  rw [hk.canonical hlt]
  exact hd.trans (hk.alignment? _)

/-- **A request that is granted** is honoured. -/
theorem Outcome.grants (h : Outcome s c answer s') (hc : s.Closed) : s'.Grants ⟨c, answer⟩ := by
  intro id hid
  rw [StoreEntry.id?_eq_some] at hid
  cases h with
  | refused | absent | placed => cases hid
  | @found c name id own shared hname hn ho hsh =>
    cases hid
    obtain ⟨-, hh⟩ := widened_honours ho hsh hc hn
    exact ⟨size_merged s id own shared ▸ named?_lt hn, hh.divides⟩
  | @shared bytes name a m t b hn hd hb hst hsize hm =>
    cases hid
    refine ⟨by rw [size_withAlias]; exact Nat.lt_succ_self _, ?_⟩
    rw [canonical_withAlias, Store.alignment?, blob?_withAlias, if_neg (Nat.ne_of_lt (blob?_lt hb)),
      blob?_setAlignment, if_pos rfl, hb]
    exact (Alignment.divides_merge hm).2
  | @stored bytes name a hash unique hn hd =>
    cases hid
    refine ⟨by rw [size_withOwn]; exact Nat.lt_succ_self _, ?_⟩
    rw [canonical_of_owned (storage?_withOwn ..), Store.alignment?, blob?_withOwn, if_pos rfl]
    exact .refl a

/-! ## Places -/

theorem Closed.canonical_canonical (hc : s.Closed) {id : BlobId} (hid : id.index < s.size) :
    s.canonical (s.canonical id) = s.canonical id := by
  obtain ⟨b, bytes, hb, hst⟩ := hc.canonical hid
  exact canonical_of_owned (storage?_eq_some.2 ⟨b, hb, hst⟩)

theorem canonical_placedAt (s : Store) (t j : BlobId) (o : UInt32) :
    (s.placedAt t o).canonical j = s.canonical j :=
  canonical_congr (congrFun (storage?_placedAt s t o) j)

theorem offset?_placedAt {id : BlobId} (hc : s.Closed) (hid : id.index < s.size) (o : UInt32)
    (j : BlobId) : (s.placedAt (s.canonical id) o).offset? j =
      if s.canonical j = s.canonical id then some o else s.offset? j := by
  rw [offset?, canonical_placedAt, blob?_placedAt]
  by_cases h : s.canonical j = s.canonical id
  · obtain ⟨b, bytes, hb, -⟩ := hc.canonical hid
    rw [if_pos h, if_pos h.symm, h, hb]
    rfl
  · rw [if_neg h, if_neg (Ne.symm h)]
    rfl

/-- Placing a blob sets the place of all blobs with the same canonical blob, once. -/
inductive PlacesOnce (s : Store) (id : BlobId) (o : UInt32) : Prop
  /-- The blob is not placed yet. -/
  | first : s.offset? id = none → s.answer (.assign id o) = .ok none →
    (∀ j, (s.step (.assign id o)).offset? j =
      if s.canonical j = s.canonical id then some o else s.offset? j) → PlacesOnce s id o
  /-- The blob is placed, and stays where it is. -/
  | again {o' : UInt32} : s.offset? id = some o' →
    s.answer (.assign id o) = .error (.offsetAlreadyAssigned (s.canonical id)) →
    s.step (.assign id o) = s → PlacesOnce s id o

/-- **A blob is placed once.** -/
theorem Closed.placesOnce (hc : s.Closed) {id : BlobId} (hid : id.index < s.size) (o : UInt32) :
    s.PlacesOnce id o := by
  cases ho : s.offset? id with
  | none =>
    have hrun : Runs (StoreCall.assign id o).act s none (s.placedAt (s.canonical id) o) := by
      have hbind : (s.blob? (s.canonical id)).bind Blob.offset = none := ho
      simp only [StoreCall.act, assignOffset, runs_bind, runs_get, runs_pure]
      refine ⟨⟨⟩, _, ⟨_, _, ⟨rfl, rfl⟩, ?_⟩, trivial, rfl⟩
      simp only [hbind]
      exact runs_set.2 rfl
    obtain ⟨hans, hstep⟩ := answer_of_runs hrun
    refine .first ho hans fun j => ?_
    rw [hstep, offset?_placedAt hc hid]
  | some o' =>
    have hfail : Fails (StoreCall.assign id o).act s
        (.offsetAlreadyAssigned (s.canonical id)) s := by
      have hbind : (s.blob? (s.canonical id)).bind Blob.offset = some o' := ho
      simp only [StoreCall.act, assignOffset, fails_bind, runs_get, fails_pure, and_false,
        exists_false, or_false, fails_get, false_or]
      refine ⟨_, _, ⟨rfl, rfl⟩, ?_⟩
      simp only [hbind]
      exact fails_throw.2 ⟨rfl, rfl⟩
    obtain ⟨hans, hstep⟩ := answer_of_fails hfail
    exact .again ho hans hstep

/-! ## Any calls -/

/-- What is true of a store and of the calls that have been made to it. -/
structure Consistent (s : Store) (log : List StoreEntry) : Prop where
  /-- Aliases lead to canonical blobs of the same size and the same padded size. -/
  flat : s.Flat
  /-- The total is that of the canonical blobs. -/
  total : s.totalPadSize = (s.canonicalIds.map fun id => (s.padSizeOf id).toNat).sum
  /-- Every request that was granted has brought a canonical blob or a hit. -/
  hits : s.dedupHits + s.canonicalIds.length = log.countP fun e => e.id?.isSome
  /-- A name stands for the blob that the requests under it were granted. -/
  named : ∀ name id, s.named? name = some id ↔
    ∃ e ∈ log, e.call.name? = some name ∧ e.id? = some id
  /-- A canonical blob honours every alignment that it was requested at. -/
  honoured : ∀ e ∈ log, s.Grants e
  /-- Canonical blob and aliases lie at one place. -/
  place : ∀ id, id.index < s.size → s.offset? (s.canonical id) = s.offset? id
  /-- That place is set once. -/
  once : ∀ id, id.index < s.size → ∀ o, s.PlacesOnce id o

/-- **A call keeps a store consistent.** -/
theorem Consistent.step {log : List StoreEntry} (h : s.Consistent log) (c : StoreCall) :
    (s.step c).Consistent (log ++ [⟨c, s.answer c⟩]) := by
  have ho := s.outcome c
  have hflat := ho.flat h.flat
  have hb := ho.balanced ⟨h.total, h.hits⟩
  refine ⟨hflat, hb.total, ?_, ho.named h.named, fun e he => ?_, fun id hid => ?_,
    fun id hid => Closed.placesOnce hflat.closed hid⟩
  · rw [hb.hits, List.countP_append, List.countP_singleton]
  · rcases List.mem_append.1 he with he | he
    · exact (h.honoured e he).mono ho.keeps
    · rw [List.mem_singleton.1 he]
      exact ho.grants h.flat.closed
  · rw [offset?, Closed.canonical_canonical hflat.closed hid]
    rfl

end Store

end LevelBundle
