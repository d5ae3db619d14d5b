/-
  LevelBundle — what every request keeps true of a store.

  * `Store.Sound chunk s`: a canonical blob has the size and the padded size of
    its bytes and fits in a chunk, an alias leads to a canonical blob, every
    alignment can be honoured in a chunk, and nothing is placed.
  * `Store.Extends s s'`: the blobs of `s` are those of `s'`, but for their
    alignments.
  * `runs_find?` and `runs_intern`: a request that is granted keeps the store sound
    and extends it, by at most one blob.
-/
import LevelBundle.Proofs.Steps
import LevelBundle.Store
import Mathlib.Order.Basic

namespace LevelBundle

/-- An alignment that can be honoured inside a chunk. -/
def Alignment.Fits (chunk : UInt32) (alignment : Option UInt32) : Prop :=
  ∀ a, alignment = some a → valid a ∧ a ≤ chunk

theorem Alignment.merge_cases {a b c : Option UInt32} (h : merge a b = some c) : c = a ∨ c = b := by
  match a, b with
  | none, _ => cases h; exact Or.inr rfl
  | some _, none => cases h; exact Or.inl rfl
  | some x, some y =>
    simp only [merge] at h
    split_ifs at h
    · cases h; exact Or.inl rfl
    · cases h; exact Or.inr rfl

theorem Alignment.Fits.merge {chunk : UInt32} {a b c : Option UInt32} (ha : Fits chunk a)
    (hb : Fits chunk b) (h : Alignment.merge a b = some c) : Fits chunk c := by
  rcases merge_cases h with rfl | rfl
  · exact ha
  · exact hb

namespace Store

/-- What is true of every blob of a store that nothing has been placed from. -/
structure Sound (chunk : UInt32) (s : Store) : Prop where
  /-- A canonical blob has the sizes of its bytes. -/
  owned : ∀ {id b bytes}, s.blob? id = some b → b.storage = .owned bytes →
    bytes.length < 2 ^ 30 ∧ b.size = bytes.length.toUInt32 ∧ b.padSize = roundUp b.size s.padSize ∧
      b.padSize ≤ chunk
  /-- An alias leads to a canonical blob. -/
  target : ∀ {id b t}, s.blob? id = some b → b.storage = .aliasOf t →
    ∃ c bytes, s.blob? t = some c ∧ c.storage = .owned bytes
  /-- Every alignment can be honoured. -/
  alignment : ∀ {id b}, s.blob? id = some b → Alignment.Fits chunk b.alignment
  /-- Nothing is placed. -/
  unplaced : ∀ {id b}, s.blob? id = some b → b.offset = none

/-- The blobs of a store are those of another, but for their alignments. -/
structure Extends (s s' : Store) : Prop where
  padSize : s'.padSize = s.padSize
  blob : ∀ {id b}, s.blob? id = some b → ∃ a, s'.blob? id = some { b with alignment := a }

theorem Extends.refl (s : Store) : Extends s s :=
  ⟨rfl, fun {_ b} h => ⟨b.alignment, h⟩⟩

theorem Extends.trans {s t u : Store} (h₁ : Extends s t) (h₂ : Extends t u) : Extends s u := by
  refine ⟨h₂.padSize.trans h₁.padSize, fun hb => ?_⟩
  obtain ⟨a, ha⟩ := h₁.blob hb
  obtain ⟨a', ha'⟩ := h₂.blob ha
  exact ⟨a', ha'⟩

theorem blob?_lt {s : Store} {id : BlobId} {b : Blob} (h : s.blob? id = some b) :
    id.index < s.size :=
  (Array.getElem?_eq_some_iff.1 h).1

theorem Extends.size_le {s s' : Store} (h : Extends s s') : s.size ≤ s'.size := by
  rcases Nat.eq_zero_or_pos s.size with h0 | h0
  · omega
  · have hlt : s.size - 1 < s.blobs.size := by unfold size at *; omega
    have hlast : s.blob? ⟨s.size - 1⟩ = some s.blobs[s.size - 1] := Array.getElem?_eq_getElem hlt
    obtain ⟨a, ha⟩ := h.blob hlast
    have := blob?_lt ha
    simp only at this
    omega

/-! ## Alignments -/

theorem blob?_setAlignment (s : Store) (id j : BlobId) (a : Option UInt32) :
    (s.setAlignment id a).blob? j =
      if id = j then (s.blob? j).map fun b => { b with alignment := a } else s.blob? j := by
  simp only [setAlignment, blob?, Array.getElem?_modify]
  by_cases h : id = j
  · rw [if_pos h, if_pos (congrArg _ h)]
  · rw [if_neg h, if_neg fun h' => h (by cases id; cases j; cases h'; rfl)]

theorem size_setAlignment (s : Store) (id : BlobId) (a : Option UInt32) :
    (s.setAlignment id a).size = s.size := Array.size_modify

theorem extends_setAlignment (s : Store) (id : BlobId) (a : Option UInt32) :
    Extends s (s.setAlignment id a) := by
  refine ⟨rfl, fun {j b} hb => ?_⟩
  rw [blob?_setAlignment, hb]
  split_ifs
  · exact ⟨a, rfl⟩
  · exact ⟨b.alignment, rfl⟩

variable {chunk : UInt32} {s s' : Store}

theorem Sound.setAlignment (hs : Sound chunk s) {id : BlobId} {a : Option UInt32}
    (ha : Alignment.Fits chunk a) : Sound chunk (s.setAlignment id a) := by
  -- every blob is one of `s`, but for its alignment
  have key {j b'} (h : (s.setAlignment id a).blob? j = some b') :
      ∃ b, s.blob? j = some b ∧ Alignment.Fits chunk b'.alignment ∧
        b' = { b with alignment := b'.alignment } := by
    rw [blob?_setAlignment] at h
    split_ifs at h
    · obtain ⟨b, hb, rfl⟩ := Option.map_eq_some_iff.1 h
      exact ⟨b, hb, ha, rfl⟩
    · exact ⟨b', h, hs.alignment h, rfl⟩
  constructor
  · intro j b' bytes h hst
    obtain ⟨b, hb, -, he⟩ := key h
    rw [he] at hst ⊢
    have := hs.owned hb hst
    exact this
  · intro j b' t h hst
    obtain ⟨b, hb, -, he⟩ := key h
    rw [he] at hst
    obtain ⟨c, bytes, hc, hct⟩ := hs.target hb hst
    obtain ⟨a', ha'⟩ := (extends_setAlignment s id a).blob hc
    exact ⟨_, bytes, ha', hct⟩
  · intro j b' h
    exact (key h).choose_spec.2.1
  · intro j b' h
    obtain ⟨b, hb, -, he⟩ := key h
    have := hs.unplaced hb
    rw [he]
    exact this

theorem Sound.alignment? (hs : Sound chunk s) (id : BlobId) :
    Alignment.Fits chunk (s.alignment? id) := by
  unfold Store.alignment?
  rcases h : s.blob? id with _ | b
  · exact fun a h => nomatch h
  · exact hs.alignment h

theorem Sound.congr (hs : Sound chunk s) (hb : s'.blobs = s.blobs) (hp : s'.padSize = s.padSize) :
    Sound chunk s' := by
  have e (id : BlobId) : s'.blob? id = s.blob? id := by rw [blob?, hb]; rfl
  exact ⟨fun h => hp ▸ hs.owned (e _ ▸ h), fun h hst => by
    simpa only [e] using hs.target (e _ ▸ h) hst, fun h => hs.alignment (e _ ▸ h),
    fun h => hs.unplaced (e _ ▸ h)⟩

theorem Extends.congr {t : Store} (h : Extends s t) (hb : s'.blobs = t.blobs)
    (hp : s'.padSize = t.padSize) : Extends s s' := by
  have e (id : BlobId) : s'.blob? id = t.blob? id := by rw [blob?, hb]; rfl
  exact ⟨hp.trans h.padSize, fun hb => by simpa only [e] using h.blob hb⟩

/-! ## Requests -/

theorem reconcile_eq_ok {id : BlobId} {name : String} {a : Option UInt32}
    (h : s.reconcile id name a = .ok s') :
    ∃ own shared, Alignment.merge (s.alignment? id) a = some own ∧
      Alignment.merge (s.alignment? (s.canonical id)) a = some shared ∧
      s' = (s.setAlignment id own).setAlignment (s.canonical id) shared := by
  simp only [reconcile, bind_eq_ok, pure_eq_ok] at h
  obtain ⟨own, ho, shared, hsh, rfl⟩ := h
  refine ⟨own, shared, ?_, ?_, rfl⟩
  · split at ho
    · cases ho; assumption
    · cases ho
  · split at hsh
    · cases hsh; assumption
    · cases hsh

theorem named?_lt {name : String} {id : BlobId} (h : s.named? name = some id) :
    id.index < s.size := by
  obtain ⟨i, hi, rfl⟩ := Option.map_eq_some_iff.1 h
  exact (Array.findIdx?_eq_some_iff_getElem.1 hi).1

/-- What a granted request leaves behind. -/
structure Granted (chunk : UInt32) (s s' : Store) : Prop where
  sound : Sound chunk s → Sound chunk s'
  ext : Extends s s'

theorem Granted.refl (s : Store) : Granted chunk s s := ⟨id, .refl s⟩

theorem Granted.trans {t : Store} (h₁ : Granted chunk s s') (h₂ : Granted chunk s' t) :
    Granted chunk s t :=
  ⟨h₂.sound ∘ h₁.sound, h₁.ext.trans h₂.ext⟩

/-- **What a lookup does** that is granted. -/
theorem runs_find?_cases {name : String} {a : Option UInt32} {r : Option BlobId}
    (h : Runs (find? name a) s r s') :
    (r = none ∧ s.named? name = none ∧ s' = s) ∨
      ∃ id own shared, r = some id ∧ s.named? name = some id ∧
        Alignment.merge (s.alignment? id) a = some own ∧
        Alignment.merge (s.alignment? (s.canonical id)) a = some shared ∧
        s' = ((s.setAlignment id own).setAlignment (s.canonical id) shared).countHit := by
  simp only [find?, runs_bind, runs_get] at h
  obtain ⟨_, _, ⟨rfl, rfl⟩, h⟩ := h
  split at h
  · rename_i hn
    obtain ⟨rfl, rfl⟩ := runs_pure.1 h
    exact Or.inl ⟨rfl, hn, rfl⟩
  · rename_i id hn
    simp only [runs_bind, runs_lift, runs_set, runs_pure] at h
    obtain ⟨m, _, ⟨hm, rfl⟩, _, _, rfl, rfl, rfl⟩ := h
    obtain ⟨own, shared, ho, hsh, rfl⟩ := reconcile_eq_ok hm
    exact Or.inr ⟨id, own, shared, rfl, hn, ho, hsh, rfl⟩

/-- **A name that is found keeps the store sound.** -/
theorem runs_find? {name : String} {a : Option UInt32} {r : Option BlobId}
    (h : Runs (find? name a) s r s') (ha : Alignment.Fits chunk a) :
    Granted chunk s s' ∧ s'.size = s.size ∧ (∀ id, r = some id → id.index < s.size) ∧
      (r = none → s' = s) := by
  rcases runs_find?_cases h with ⟨rfl, -, rfl⟩ | ⟨id, own, shared, rfl, hn, ho, hsh, rfl⟩
  · exact ⟨.refl _, rfl, nofun, fun _ => rfl⟩
  · refine ⟨⟨fun hs => ?_, ?_⟩, ?_, ?_, nofun⟩
    · exact ((hs.setAlignment ((hs.alignment? id).merge ha ho)).setAlignment
        ((hs.alignment? _).merge ha hsh)).congr rfl rfl
    · exact ((extends_setAlignment s id own).trans (extends_setAlignment _ _ shared)).congr rfl rfl
    · exact (size_setAlignment _ _ _).trans (size_setAlignment _ _ _)
    · rintro id' h
      cases h
      exact named?_lt hn

/-! ## New contents -/

theorem blob?_push (s : Store) (b : Blob) (j : BlobId) :
    ({ s with blobs := s.blobs.push b } : Store).blob? j =
      if j.index = s.size then some b else s.blob? j := by
  exact Array.getElem?_push

/-- Adding a blob to a sound store keeps it sound if the blob is. -/
theorem Sound.push (hs : Sound chunk s) {b : Blob} (ha : Alignment.Fits chunk b.alignment)
    (hu : b.offset = none)
    (ho : ∀ bytes, b.storage = .owned bytes → bytes.length < 2 ^ 30 ∧
      b.size = bytes.length.toUInt32 ∧ b.padSize = roundUp b.size s.padSize ∧ b.padSize ≤ chunk)
    (ht : ∀ t, b.storage = .aliasOf t → ∃ c bytes, s.blob? t = some c ∧ c.storage = .owned bytes) :
    Sound chunk { s with blobs := s.blobs.push b } := by
  have key {j b'} (h : ({ s with blobs := s.blobs.push b } : Store).blob? j = some b') :
      b' = b ∨ s.blob? j = some b' := by
    rw [blob?_push] at h
    split_ifs at h
    · cases h; exact Or.inl rfl
    · exact Or.inr h
  have old {j c} (h : s.blob? j = some c) :
      ({ s with blobs := s.blobs.push b } : Store).blob? j = some c := by
    rw [blob?_push, if_neg (Nat.ne_of_lt (blob?_lt h)), h]
  constructor
  · intro j b' bytes h hst
    rcases key h with rfl | h
    exacts [ho bytes hst, hs.owned h hst]
  · intro j b' t h hst
    have : ∃ c bytes, s.blob? t = some c ∧ c.storage = .owned bytes := by
      rcases key h with rfl | h
      exacts [ht t hst, hs.target h hst]
    obtain ⟨c, bytes, hc, hct⟩ := this
    exact ⟨c, bytes, old hc, hct⟩
  · intro j b' h
    rcases key h with rfl | h
    exacts [ha, hs.alignment h]
  · intro j b' h
    rcases key h with rfl | h
    exacts [hu, hs.unplaced h]

theorem extends_push (s : Store) (b : Blob) : Extends s { s with blobs := s.blobs.push b } := by
  refine ⟨rfl, fun {j c} h => ⟨c.alignment, ?_⟩⟩
  rw [blob?_push, if_neg (Nat.ne_of_lt (blob?_lt h)), h]

theorem findIdentical?_spec {hash : UInt32} {bytes : Bytes} {a : Option UInt32} {t : BlobId}
    (h : s.findIdentical? hash bytes a = some t) :
    ∃ b, s.blob? t = some b ∧ b.storage = .owned bytes ∧ b.size.toNat = bytes.length ∧
      (Alignment.merge b.alignment a).isSome := by
  obtain ⟨i, hi, rfl⟩ := Option.map_eq_some_iff.1 h
  obtain ⟨hlt, hp, -⟩ := Array.findIdx?_eq_some_iff_getElem.1 hi
  simp only [admits, Bool.and_eq_true, beq_iff_eq] at hp
  exact ⟨_, Array.getElem?_eq_getElem hlt, hp.1.2, hp.1.1.2, hp.2⟩

section
variable {bytes : Bytes} {name : Option String} {a : Option UInt32} {hash : UInt32}

theorem granted_addAlias {t : BlobId} (ha : Alignment.Fits chunk a)
    (ht : s.findIdentical? hash bytes a = some t) :
    Granted chunk s (s.addAlias t hash bytes name a) := by
  obtain ⟨b, hb, hst, -, hm⟩ := findIdentical?_spec ht
  obtain ⟨m, hm⟩ := Option.isSome_iff_exists.1 hm
  have hal : s.alignment? t = b.alignment := by rw [Store.alignment?, hb]; rfl
  have hmerged : (Alignment.merge (s.alignment? t) a).getD (s.alignment? t) = m := by
    rw [hal, hm]; rfl
  refine ⟨fun hs => ?_, ?_⟩
  · have hs' : (s.setAlignment t m).Sound chunk :=
      hs.setAlignment ((hs.alignment hb).merge ha hm)
    obtain ⟨a', ha'⟩ := (extends_setAlignment s t m).blob hb
    have hpush := hs'.push (b := ⟨name, bytes.length.toUInt32,
      (s.setAlignment t m).padSizeOf t, a, hash, .aliasOf t, none⟩) ha rfl nofun
      (by rintro _ ⟨⟩; exact ⟨_, bytes, ha', hst⟩)
    rw [addAlias, hmerged]
    exact hpush.congr rfl rfl
  · rw [addAlias, hmerged]
    exact ((extends_setAlignment s t m).trans (extends_push _ _)).congr rfl rfl

theorem granted_addCanonical (ha : Alignment.Fits chunk a) (hl : bytes.length < 2 ^ 30)
    (hp : roundUp bytes.length.toUInt32 s.padSize ≤ chunk) :
    Granted chunk s (s.addCanonical hash bytes name a) := by
  refine ⟨fun hs => ?_, (extends_push s _).congr rfl rfl⟩
  have hpush := hs.push (b := ⟨name, bytes.length.toUInt32,
    roundUp bytes.length.toUInt32 s.padSize, a, hash, .owned bytes, none⟩) ha rfl
    (by rintro _ ⟨⟩; exact ⟨hl, rfl, rfl, hp⟩) nofun
  exact hpush.congr rfl rfl

theorem nextHash_spec (chunk : UInt32) (s : Store) (bytes : Bytes) :
    (s.nextHash bytes).2.size = s.size ∧ Granted chunk s (s.nextHash bytes).2 := by
  unfold nextHash
  split
  · exact ⟨rfl, .refl s⟩
  · exact ⟨rfl, fun hs => hs.congr rfl rfl, (Extends.refl s).congr rfl rfl⟩

theorem size_add : (s.add bytes name a).size = s.size + 1 := by
  have hn := (nextHash_spec 0 s bytes).1
  rcases hh : s.nextHash bytes with ⟨hash, t⟩
  rw [hh] at hn
  simp only [add, hh]
  split
  · exact (Array.size_push _).trans (congrArg (· + 1) ((size_setAlignment _ _ _).trans hn))
  · exact (Array.size_push _).trans (congrArg (· + 1) hn)

theorem granted_add (ha : Alignment.Fits chunk a) (hl : bytes.length < 2 ^ 30)
    (hp : roundUp bytes.length.toUInt32 s.padSize ≤ chunk) :
    Granted chunk s (s.add bytes name a) := by
  have hn := (nextHash_spec chunk s bytes).2
  rcases hh : s.nextHash bytes with ⟨hash, t⟩
  rw [hh] at hn
  refine hn.trans ?_
  simp only [add, hh]
  split
  · rename_i target ht
    split at ht
    · exact granted_addAlias ha ht
    · cases ht
  · exact granted_addCanonical ha hl (hn.ext.padSize ▸ hp)

/-- What is done with contents once the name of their file has been looked up. -/
def take (bytes : Bytes) (name : Option String) (a : Option UInt32) :
    Option BlobId → StoreM BlobId
  | some id => pure id
  | none => do
    let s ← get
    set (s.add bytes name a)
    return ⟨s.size⟩

/-- Taking contents in is a lookup, if their file has a name, and what is done then. -/
theorem intern_eq (bytes : Bytes) (name : Option String) (a : Option UInt32) :
    intern bytes name a =
      if a.all Alignment.valid then
        (match name with
          | some name => find? name a
          | none => pure none) >>= take bytes name a
      else
        throw (.invalidAlignment (a.getD 0)) := by
  cases a with
  | none => cases name <;> rfl
  | some n =>
    rw [intern, Option.all_some, Option.getD_some]
    split_ifs
    · cases name <;> rfl
    · rfl

/-- **What taking contents in does**: the name of their file is known, or they are added. -/
theorem runs_intern_cases {id : BlobId} (h : Runs (intern bytes name a) s id s') :
    (∃ n, name = some n ∧ Runs (find? n a) s (some id) s') ∨
      ((∀ n, name = some n → s.named? n = none) ∧ id = ⟨s.size⟩ ∧ s' = s.add bytes name a) := by
  have added {t : Store} (h : Runs (take bytes name a none) t id s') :
      id = ⟨t.size⟩ ∧ s' = t.add bytes name a := by
    simp only [take, runs_bind, runs_get, runs_set, runs_pure] at h
    obtain ⟨_, _, ⟨rfl, rfl⟩, _, _, rfl, rfl, rfl⟩ := h
    exact ⟨rfl, rfl⟩
  rw [intern_eq] at h
  split_ifs at h
  · obtain ⟨known, t, h1, h2⟩ := runs_bind.1 h
    cases name with
    | none =>
      obtain ⟨rfl, rfl⟩ := runs_pure.1 h1
      refine Or.inr ⟨?_, added h2⟩
      rintro _ ⟨⟩
    | some n =>
      cases known with
      | some id' =>
        obtain ⟨rfl, rfl⟩ := runs_pure.1 h2
        exact Or.inl ⟨n, rfl, h1⟩
      | none =>
        rcases runs_find?_cases h1 with ⟨-, hn, rfl⟩ | ⟨_, _, _, hr, -⟩
        · refine Or.inr ⟨?_, added h2⟩
          rintro _ ⟨⟩
          exact hn
        · cases hr
  · exact absurd h runs_throw

/-- **Contents that are taken in keep the store sound.** -/
theorem runs_intern {id : BlobId} (h : Runs (intern bytes name a) s id s')
    (ha : Alignment.Fits chunk a) (hl : bytes.length < 2 ^ 30)
    (hp : roundUp bytes.length.toUInt32 s.padSize ≤ chunk) :
    Granted chunk s s' ∧ s'.size ≤ s.size + 1 ∧ id.index < s'.size := by
  rcases runs_intern_cases h with ⟨n, rfl, hf⟩ | ⟨-, rfl, rfl⟩
  · obtain ⟨hg, hsize, hid, -⟩ := runs_find? hf ha
    exact ⟨hg, by omega, hsize ▸ hid id rfl⟩
  · rw [size_add]
    exact ⟨granted_add ha hl hp, Nat.le_refl _, Nat.lt_succ_self _⟩

end

/-- **What placing a blob does**: it is placed that was not. -/
theorem runs_assignOffset {id : BlobId} {o : UInt32} {u : Unit}
    (h : Runs (assignOffset id o) s u s') : s.offset? id = none ∧ s' = { s with
      blobs := s.blobs.modify (s.canonical id).index fun b => { b with offset := some o } } := by
  simp only [assignOffset, runs_bind, runs_get] at h
  obtain ⟨_, _, ⟨rfl, rfl⟩, h⟩ := h
  split at h
  · exact absurd h runs_throw
  · rename_i hnone
    exact ⟨hnone, (runs_set.1 h).symm⟩

end Store

end LevelBundle
