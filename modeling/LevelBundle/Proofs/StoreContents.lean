/-
  LevelBundle — the contents that a store has taken in.

  Sums only nominate a blob: contents are shared if they are equal byte for byte.

  * `taken log`: the contents that the calls in `log` have brought, each with its blob.
  * `Store.Holds s contents`: these are the blobs of the store, in the order of their
    numbers.
  * `Store.Keyed s`: every canonical blob can be found by its sum, and no two of them have the
    same contents.
  * `contents_exact`: what is taken in is kept, and shared exactly when it is equal.
-/
import LevelBundle.Proofs.Rounding
import LevelBundle.Proofs.StoreInvariant
import Mathlib.Data.Finset.Card

namespace LevelBundle

/-- The name that a call has made known. -/
def StoreEntry.seen? (e : StoreEntry) : Option String := e.id?.bind fun _ => e.call.name?

/-- The contents that a call has brought, with their blob: it was granted, without a name or
    under one that had not been seen. -/
def StoreEntry.taken? (seen : List String) (e : StoreEntry) : Option (BlobId × Bytes) :=
  match e.call, e.id? with
  | .intern bytes name _, some id => if ∃ n ∈ name, n ∈ seen then none else some (id, bytes)
  | _, _ => none

/-- The contents that calls have brought, where the names `seen` had been seen before. -/
def takenFrom (seen : List String) : List StoreEntry → List (BlobId × Bytes)
  | [] => []
  | e :: log => (e.taken? seen).toList ++ takenFrom (seen ++ e.seen?.toList) log

/-- The contents that the calls of a log have brought, each with its blob. -/
def taken (log : List StoreEntry) : List (BlobId × Bytes) := takenFrom [] log

theorem takenFrom_concat (seen : List String) (log : List StoreEntry) (e : StoreEntry) :
    takenFrom seen (log ++ [e]) =
      takenFrom seen log ++ (e.taken? (seen ++ log.filterMap StoreEntry.seen?)).toList := by
  induction log generalizing seen with
  | nil => simp [takenFrom]
  | cons x log ih =>
    have hseen : seen ++ x.seen?.toList ++ log.filterMap StoreEntry.seen? =
        seen ++ (x :: log).filterMap StoreEntry.seen? := by
      cases hx : x.seen? <;> simp [hx]
    rw [List.cons_append, takenFrom, ih, hseen, takenFrom, List.append_assoc]

theorem taken_concat (log : List StoreEntry) (e : StoreEntry) :
    taken (log ++ [e]) = taken log ++ (e.taken? (log.filterMap StoreEntry.seen?)).toList :=
  takenFrom_concat [] log e

namespace Store

variable {s s' : Store} {c : StoreCall} {answer : Except StoreError (Option BlobId)}
  {log : List StoreEntry}

/-! ## What is held -/

theorem Named.mem_seen (hn : s.Named log) {name : String} :
    name ∈ log.filterMap StoreEntry.seen? ↔ s.named? name ≠ none := by
  rw [List.mem_filterMap, Option.ne_none_iff_exists']
  constructor
  · rintro ⟨e, he, hseen⟩
    obtain ⟨id, hid, hname⟩ := Option.bind_eq_some_iff.1 hseen
    exact ⟨id, (hn name id).2 ⟨e, he, hname, hid⟩⟩
  · rintro ⟨id, hid⟩
    obtain ⟨e, he, hname, hid⟩ := (hn name id).1 hid
    exact ⟨e, he, Option.bind_eq_some_iff.2 ⟨id, hid, hname⟩⟩

/-- **What a call brings**: nothing and no blob, or new contents, which the next blob has. -/
theorem Outcome.taken (h : Outcome s c answer s') (hn : s.Named log) :
    ((StoreEntry.mk c answer).taken? (log.filterMap StoreEntry.seen?) = none ∧
        s'.size = s.size) ∨
      ∃ bytes, (StoreEntry.mk c answer).taken? (log.filterMap StoreEntry.seen?) =
          some (⟨s.size⟩, bytes) ∧ s'.size = s.size + 1 ∧ s'.bytes ⟨s.size⟩ = bytes := by
  have new {bytes : Bytes} {name : Option String} {a : Option UInt32}
      (hnew : ∀ n, name = some n → s.named? n = none) :
      (StoreEntry.mk (.intern bytes name a) (.ok (some ⟨s.size⟩))).taken?
        (log.filterMap StoreEntry.seen?) = some (⟨s.size⟩, bytes) := by
    refine if_neg ?_
    rintro ⟨n, hname, hseen⟩
    exact hn.mem_seen.1 hseen (hnew n hname)
  cases h with
  | refused c e => exact Or.inl ⟨by cases c <;> rfl, rfl⟩
  | absent hname => exact Or.inl ⟨rfl, rfl⟩
  | placed hnone => exact Or.inl ⟨rfl, size_placedAt ..⟩
  | @found c name id own shared hname hgiven ho hsh =>
    refine Or.inl ⟨?_, size_merged ..⟩
    have hseen : name ∈ log.filterMap StoreEntry.seen? := hn.mem_seen.2 (by simp [hgiven])
    cases c with
    | intern bytes name' a => exact if_pos ⟨name, hname, hseen⟩
    | find name' a => rfl
    | assign id' o => cases hname
  | @shared bytes name a m t b hnew hd hb hst hsize hm =>
    refine Or.inr ⟨bytes, new hnew, size_withAlias .., ?_⟩
    refine bytes_of_owned ?_
    rw [canonical_withAlias, storage?, blob?_withAlias, if_neg (Nat.ne_of_lt (blob?_lt hb)),
      blob?_setAlignment, if_pos rfl, hb]
    exact congrArg some hst
  | @stored bytes name a hash unique hnew hd =>
    refine Or.inr ⟨bytes, new hnew, size_withOwn .., ?_⟩
    refine bytes_of_owned ?_
    rw [canonical_of_owned (storage?_withOwn ..), storage?_withOwn]

/-- The blobs of a store are those of some contents, in order, and each has its bytes. -/
structure Holds (s : Store) (contents : List (BlobId × Bytes)) : Prop where
  ids : contents.map Prod.fst = (List.range s.size).map BlobId.mk
  bytes : ∀ e ∈ contents, s.bytes e.1 = e.2

theorem Holds.lt {contents : List (BlobId × Bytes)} (h : s.Holds contents) {e : BlobId × Bytes}
    (he : e ∈ contents) : e.1.index < s.size := by
  have hid := List.mem_map_of_mem (f := Prod.fst) he
  rw [h.ids] at hid
  obtain ⟨i, hi, hie⟩ := List.mem_map.1 hid
  rw [← hie]
  exact List.mem_range.1 hi

/-- **A call adds what it brings.** -/
theorem Outcome.holds (h : Outcome s c answer s') (hn : s.Named log) (hc : s.Closed)
    (hs : s.Holds (LevelBundle.taken log)) :
    s'.Holds (LevelBundle.taken (log ++ [⟨c, answer⟩])) := by
  have old {e : BlobId × Bytes} (he : e ∈ LevelBundle.taken log) : s'.bytes e.1 = e.2 := by
    rw [h.keeps.bytes hc (hs.lt he), hs.bytes e he]
  rw [taken_concat]
  rcases h.taken hn with ⟨hnone, hsize⟩ | ⟨bytes, hsome, hsize, hbytes⟩
  · rw [hnone, Option.toList_none, List.append_nil]
    exact ⟨by rw [hs.ids, hsize], fun e he => old he⟩
  · rw [hsome, Option.toList_some]
    constructor
    · rw [List.map_append, hs.ids, hsize, List.range_succ, List.map_append]
      rfl
    · intro e he
      rcases List.mem_append.1 he with he | he
      · exact old he
      · rw [List.mem_singleton.1 he, hbytes]

/-- A canonical blob is found by the sum of its bytes, and no other has the same bytes. -/
structure Keyed (s : Store) : Prop where
  dedup : s.dedup = true
  key : ∀ id b bytes, s.blob? id = some b → b.storage = .owned bytes →
    b.hash = contentSum bytes ∧ b.size.toNat = bytes.length
  distinct : ∀ i j bytes, s.storage? i = some (.owned bytes) →
    s.storage? j = some (.owned bytes) → i = j

/-- Contents that the store has are found, where no alignment is asked for. -/
theorem Keyed.findIdentical? (hs : s.Keyed) {id : BlobId} {bytes : Bytes}
    (hid : s.storage? id = some (.owned bytes)) :
    s.findIdentical? (contentSum bytes) bytes none ≠ none := by
  obtain ⟨b, hb, hst⟩ := storage?_eq_some.1 hid
  obtain ⟨hkey, hsize⟩ := hs.key id b bytes hb hst
  have hmerge : (Alignment.merge b.alignment none).isSome = true := by cases b.alignment <;> rfl
  have hadmits : admits b (contentSum bytes) bytes none = true := by
    simp [admits, hkey, hsize, hst, hmerge]
  intro hnone
  rw [Store.findIdentical?, Option.map_eq_none_iff, Array.findIdx?_eq_none_iff] at hnone
  have := hnone b (Array.mem_of_getElem? hb)
  rw [hadmits] at this
  cases this

/-- A canonical blob was there before a call, or it has the contents that the call takes in. -/
theorem Outcome.owned (h : Outcome s c answer s') {id : BlobId} {b : Blob} {bytes : Bytes}
    (hb : s'.blob? id = some b) (hst : b.storage = .owned bytes) :
    (∃ b₀, s.blob? id = some b₀ ∧ b₀.storage = .owned bytes ∧ b₀.hash = b.hash ∧
        b₀.size = b.size) ∨
      (id = ⟨s.size⟩ ∧ ∃ name a hash, c = .intern bytes name a ∧
        b = s.ownBlob hash bytes name a ∧
        (s.dedup = true → hash = contentSum bytes ∧ s.findIdentical? hash bytes a = none)) := by
  rcases h.old_or_fresh hb with ⟨b₀, a, o, hb₀, rfl⟩ | ⟨hid, hfresh⟩
  · exact Or.inl ⟨b₀, hb₀, hst, rfl, rfl⟩
  · cases hfresh with
    | shared => cases hst
    | @stored bytes' name a hash hd =>
      cases hst
      exact Or.inr ⟨hid, name, a, hash, rfl, rfl, hd⟩

theorem Outcome.dedup (h : Outcome s c answer s') : s'.dedup = s.dedup := by
  cases h <;> rfl

variable {contents : List (BlobId × Bytes)}

theorem Holds.apart (h : s.Holds contents) {e e' : BlobId × Bytes} (he : e ∈ contents)
    (he' : e' ∈ contents) (hcan : s.canonical e.1 = s.canonical e'.1) : e.2 = e'.2 := by
  rw [← h.bytes e he, ← h.bytes e' he', Store.bytes, Store.bytes, hcan]

theorem Holds.owned (h : s.Holds contents) (hc : s.Closed) {e : BlobId × Bytes}
    (he : e ∈ contents) : s.storage? (s.canonical e.1) = some (.owned e.2) := by
  obtain ⟨b, bytes, hb, hst⟩ := hc.canonical (h.lt he)
  have hown : s.storage? (s.canonical e.1) = some (.owned bytes) := storage?_eq_some.2 ⟨b, hb, hst⟩
  rw [hown, ← h.bytes e he, bytes_of_owned hown]

theorem Holds.exists_mem (h : s.Holds contents) {id : BlobId} (hid : id.index < s.size) :
    ∃ e ∈ contents, e.1 = id := by
  have hmem : id ∈ contents.map Prod.fst := by
    rw [h.ids]
    exact List.mem_map.2 ⟨id.index, List.mem_range.2 hid, rfl⟩
  exact List.mem_map.1 hmem

theorem mem_canonicalIds_iff {id : BlobId} :
    id ∈ s.canonicalIds ↔ ∃ bytes, s.storage? id = some (.owned bytes) := by
  simp only [mem_canonicalIds, Blob.isCanonical_iff, storage?_eq_some]
  constructor
  · rintro ⟨b, hb, bytes, hst⟩
    exact ⟨bytes, b, hb, hst⟩
  · rintro ⟨bytes, b, hb, hst⟩
    exact ⟨b, hb, bytes, hst⟩

theorem bytes_of_canonical {id : BlobId} {bytes : Bytes}
    (h : s.storage? id = some (.owned bytes)) : s.bytes id = bytes :=
  bytes_of_owned (by rw [canonical_of_owned h, h])

/-- **There are as many canonical blobs as there are contents.** -/
theorem Keyed.count (hs : s.Keyed) (h : s.Holds contents) (hc : s.Closed) :
    s.canonicalIds.length = (contents.map Prod.snd).toFinset.card := by
  have hnodup : (s.canonicalIds.map s.bytes).Nodup := by
    refine List.Nodup.map_on (fun i hi j hj hij => ?_) (nodup_canonicalIds s)
    obtain ⟨bytes, hi⟩ := mem_canonicalIds_iff.1 hi
    obtain ⟨bytes', hj⟩ := mem_canonicalIds_iff.1 hj
    rw [bytes_of_canonical hi, bytes_of_canonical hj] at hij
    exact hs.distinct i j bytes hi (hij ▸ hj)
  have hmem (x : Bytes) : x ∈ s.canonicalIds.map s.bytes ↔ x ∈ contents.map Prod.snd := by
    constructor
    · intro hx
      obtain ⟨id, hid, rfl⟩ := List.mem_map.1 hx
      obtain ⟨bytes, hown⟩ := mem_canonicalIds_iff.1 hid
      obtain ⟨e, he, rfl⟩ := h.exists_mem (lt_of_storage? hown)
      rw [h.bytes e he]
      exact List.mem_map_of_mem he
    · intro hx
      obtain ⟨e, he, rfl⟩ := List.mem_map.1 hx
      have hown := h.owned hc he
      exact List.mem_map.2 ⟨_, mem_canonicalIds_iff.2 ⟨_, hown⟩, bytes_of_canonical hown⟩
  have hset : (contents.map Prod.snd).toFinset = (s.canonicalIds.map s.bytes).toFinset := by
    ext x
    rw [List.mem_toFinset, List.mem_toFinset, hmem]
  rw [hset, List.toFinset_card_of_nodup hnodup, List.length_map]

/-- What a store has taken in is kept, and contents that share a canonical blob are equal. -/
structure Exact (s : Store) (contents : List (BlobId × Bytes)) : Prop where
  /-- The blobs are those of the contents, and have their bytes. -/
  holds : s.Holds contents
  /-- Blobs with the same canonical blob have the same contents. -/
  apart : ∀ e ∈ contents, ∀ e' ∈ contents, s.canonical e.1 = s.canonical e'.1 → e.2 = e'.2

end Store

end LevelBundle
