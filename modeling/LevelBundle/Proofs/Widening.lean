/-
  LevelBundle — the alignments that files have been asked for.

  A file may be asked for many times, and files with equal contents share a canonical
  blob, which is the one that is placed.  A request that is granted widens the alignment
  of that blob, and no alignment is ever narrowed.

  * `Alignment.Divides a b`: a place that honours `b` honours `a`.
  * `Store.Widens s s'`: the blobs of `s` are those of `s'`, but for alignments that have
    been widened; names stand for the blobs that they stood for.
  * `Store.Honours s name a id`: a name stands for a blob whose canonical blob honours an
    alignment.  `Honours.mono`: it does so from then on.
  * `widened_honours` and `add_honours`: what is asked for is honoured, by a blob that
    is there and by a new one.
-/
import LevelBundle.Proofs.StoreSound

namespace LevelBundle

/-- A place that honours the second alignment honours the first. -/
def Alignment.Divides (a b : Option UInt32) : Prop :=
  ∀ x, a = some x → ∃ y, b = some y ∧ x.toNat ∣ y.toNat

namespace Alignment

theorem Divides.refl (a : Option UInt32) : Divides a a := fun x h => ⟨x, h, dvd_rfl⟩

theorem divides_none (a : Option UInt32) : Divides none a := by
  intro x hx
  cases hx

theorem Divides.trans {a b c : Option UInt32} (h₁ : Divides a b) (h₂ : Divides b c) :
    Divides a c := by
  intro x hx
  obtain ⟨y, hy, hxy⟩ := h₁ x hx
  obtain ⟨z, hz, hyz⟩ := h₂ y hy
  exact ⟨z, hz, hxy.trans hyz⟩

theorem divides_some {x y : UInt32} : Divides (some x) (some y) ↔ x.toNat ∣ y.toNat := by
  simp [Divides]

theorem mod_eq_zero_iff {x y : UInt32} : x % y = 0 ↔ y.toNat ∣ x.toNat := by
  rw [← UInt32.toNat_inj, UInt32.toNat_mod, UInt32.toNat_zero, Nat.dvd_iff_mod_eq_zero]

/-- **A merged request honours both.** -/
theorem divides_merge {a b c : Option UInt32} (h : merge a b = some c) :
    Divides a c ∧ Divides b c := by
  match a, b with
  | none, _ => cases h; exact ⟨divides_none _, .refl _⟩
  | some _, none => cases h; exact ⟨.refl _, divides_none _⟩
  | some x, some y =>
    simp only [merge, mod_eq_zero_iff] at h
    split_ifs at h with h1 h2
    · cases h; exact ⟨.refl _, divides_some.2 h1⟩
    · cases h; exact ⟨divides_some.2 h2, .refl _⟩

theorem merge_eq_none {a b : Option UInt32} (h : merge a b = none) :
    ∃ x y, a = some x ∧ b = some y ∧ ¬ x.toNat ∣ y.toNat ∧ ¬ y.toNat ∣ x.toNat := by
  match a, b with
  | none, _ => cases h
  | some _, none => cases h
  | some x, some y =>
    simp only [merge, mod_eq_zero_iff] at h
    split_ifs at h with h1 h2
    exact ⟨x, y, rfl, rfl, h2, h1⟩

end Alignment

namespace Store

open LevelBundle.Alignment (Divides)

/-- The names of the blobs. -/
def names (s : Store) : Array (Option String) := s.blobs.map Blob.name

/-- Where the bytes of a blob are. -/
def storage? (s : Store) (id : BlobId) : Option Storage := (s.blob? id).map Blob.storage

/-- Every alias leads to a canonical blob. -/
def Closed (s : Store) : Prop :=
  ∀ {id b t}, s.blob? id = some b → b.storage = .aliasOf t →
    ∃ c bytes, s.blob? t = some c ∧ c.storage = .owned bytes

/-- The blobs of a store are those of another, but for alignments that have been widened. -/
structure Widens (s s' : Store) : Prop where
  closed : s.Closed → s'.Closed
  blob : ∀ {id b}, s.blob? id = some b →
    ∃ a, s'.blob? id = some { b with alignment := a } ∧ Divides b.alignment a

/-- A name stands for a blob whose canonical blob honours an alignment. -/
structure Honours (s : Store) (name : String) (a : Option UInt32) (id : BlobId) : Prop where
  named : s.named? name = some id
  divides : Divides a (s.alignment? (s.canonical id))

variable {s s' s'' : Store}

/-! ## Stores with the same blobs -/

theorem blob?_congr (h : s'.blobs = s.blobs) (id : BlobId) : s'.blob? id = s.blob? id := by
  rw [blob?, h]; rfl

theorem storage?_eq_some {id : BlobId} {st : Storage} :
    s.storage? id = some st ↔ ∃ b, s.blob? id = some b ∧ b.storage = st := Option.map_eq_some_iff

/-- Whether a store is closed is a matter of where the bytes of its blobs are. -/
theorem Closed.congr (hc : s.Closed) (h : s'.storage? = s.storage?) : s'.Closed := by
  intro id b t hb hst
  have hid : s.storage? id = some (.aliasOf t) := by
    rw [← h, storage?_eq_some]
    exact ⟨b, hb, hst⟩
  obtain ⟨b₀, hb₀, hst₀⟩ := storage?_eq_some.1 hid
  obtain ⟨c, bytes, hcb, hct⟩ := hc hb₀ hst₀
  have ht : s'.storage? t = some (.owned bytes) := by
    rw [h, storage?_eq_some]
    exact ⟨c, hcb, hct⟩
  obtain ⟨c', hc', hct'⟩ := storage?_eq_some.1 ht
  exact ⟨c', bytes, hc', hct'⟩

theorem named?_eq (s : Store) (name : String) :
    s.named? name = (s.names.findIdx? (· == some name)).map BlobId.mk := by
  rw [names, Array.findIdx?_map]
  rfl

theorem exists_blob {id : BlobId} (h : id.index < s.size) : ∃ b, s.blob? id = some b :=
  ⟨_, Array.getElem?_eq_getElem h⟩

/-! ## Where bytes are -/

section
variable {id j : BlobId}

theorem canonical_congr (h : s'.storage? id = s.storage? id) : s'.canonical id = s.canonical id := by
  rw [storage?, storage?] at h
  rw [canonical, canonical, h]

theorem lt_of_storage? {st : Storage} (h : s.storage? id = some st) : id.index < s.size := by
  obtain ⟨b, hb, -⟩ := Option.map_eq_some_iff.1 h
  exact blob?_lt hb

theorem storage?_eq_none_iff : s.storage? id = none ↔ s.size ≤ id.index := by
  rw [storage?, Option.map_eq_none_iff]
  exact Array.getElem?_eq_none_iff

theorem next_eq_none (s : Store) : s.storage? ⟨s.size⟩ = none ∧ s.alignment? ⟨s.size⟩ = none := by
  have hb : s.blob? ⟨s.size⟩ = none := Array.getElem?_eq_none_iff.2 (Nat.le_refl s.size)
  rw [storage?, Store.alignment?, hb]
  exact ⟨rfl, rfl⟩

theorem canonical_of_none (h : s.storage? id = none) : s.canonical id = id := by
  rw [storage?] at h
  rw [canonical, h]

theorem canonical_of_owned {bytes : Bytes} (h : s.storage? id = some (.owned bytes)) :
    s.canonical id = id := by
  rw [storage?] at h
  rw [canonical, h]

theorem canonical_of_alias (h : s.storage? id = some (.aliasOf j)) : s.canonical id = j := by
  rw [storage?] at h
  rw [canonical, h]

theorem bytes_of_owned {bytes : Bytes} (h : s.storage? (s.canonical id) = some (.owned bytes)) :
    s.bytes id = bytes := by
  obtain ⟨b, hb, hst⟩ := Option.map_eq_some_iff.1 h
  rw [Store.bytes, hb, Option.map_some, Option.getD_some, Blob.ownBytes, hst]

theorem bytes_of_none (h : s.storage? id = none) : s.bytes id = [] := by
  rw [Store.bytes, canonical_of_none h, Option.map_eq_none_iff.1 h]
  rfl

theorem storage?_of_lt (h : id.index < s.size) : ∃ st, s.storage? id = some st := by
  obtain ⟨b, hb⟩ := exists_blob h
  exact ⟨b.storage, by rw [storage?, hb]; rfl⟩

end

/-! ## Widening -/

theorem Widens.refl (s : Store) : Widens s s := ⟨id, fun {_ b} h => ⟨b.alignment, h, .refl _⟩⟩

theorem Widens.trans (h₁ : Widens s s') (h₂ : Widens s' s'') : Widens s s'' := by
  refine ⟨h₂.closed ∘ h₁.closed, fun hb => ?_⟩
  obtain ⟨a, ha, hd⟩ := h₁.blob hb
  obtain ⟨a', ha', hd'⟩ := h₂.blob ha
  exact ⟨a', ha', hd.trans hd'⟩

theorem Widens.congr (h : Widens s s') (hb : s''.blobs = s'.blobs) : Widens s s'' := by
  have e := blob?_congr hb
  exact ⟨fun hc {_ _ _} h1 h2 => by simpa only [e] using h.closed hc (e _ ▸ h1) h2,
    fun h1 => by simpa only [e] using h.blob h1⟩

/-- A name stands for the same blob as long as the blobs up to that one keep their names. -/
theorem named?_of_names (h : ∀ {id b}, s.blob? id = some b → ∃ b', s'.blob? id = some b' ∧
    b'.name = b.name) {name : String} {id : BlobId} (hn : s.named? name = some id) :
    s'.named? name = some id := by
  obtain ⟨i, hi, rfl⟩ := Option.map_eq_some_iff.1 hn
  obtain ⟨hlt, hp, hfirst⟩ := Array.findIdx?_eq_some_iff_getElem.1 hi
  have key (j : ℕ) (hj : j < s.blobs.size) :
      ∃ h' : j < s'.blobs.size, s'.blobs[j].name = s.blobs[j].name := by
    obtain ⟨b', hb', hname⟩ := h (show s.blob? ⟨j⟩ = some s.blobs[j] from
      Array.getElem?_eq_getElem hj)
    obtain ⟨h', he⟩ := Array.getElem?_eq_some_iff.1 hb'
    exact ⟨h', by rw [he, hname]⟩
  obtain ⟨hlt', hname⟩ := key i hlt
  refine Option.map_eq_some_iff.2 ⟨i, Array.findIdx?_eq_some_iff_getElem.2 ⟨hlt', ?_, ?_⟩, rfl⟩
  · rwa [hname]
  · intro j hj
    obtain ⟨h', hname⟩ := key j (hj.trans hlt)
    have hne := hfirst j hj
    rwa [← hname] at hne

theorem Widens.named? (h : Widens s s') {name : String} {id : BlobId}
    (hn : s.named? name = some id) : s'.named? name = some id := by
  refine named?_of_names (fun hb => ?_) hn
  obtain ⟨a, ha, -⟩ := h.blob hb
  exact ⟨_, ha, rfl⟩

theorem Widens.canonical (h : Widens s s') {id : BlobId} (hid : id.index < s.size) :
    s'.canonical id = s.canonical id := by
  obtain ⟨b, hb⟩ := exists_blob hid
  obtain ⟨a, ha, -⟩ := h.blob hb
  rw [Store.canonical, Store.canonical, hb, ha]
  rfl

theorem Widens.alignment? (h : Widens s s') (id : BlobId) :
    Divides (s.alignment? id) (s'.alignment? id) := by
  cases hb : s.blob? id with
  | none =>
    rw [Store.alignment?, hb]
    exact Alignment.divides_none _
  | some b =>
    obtain ⟨a, ha, hd⟩ := h.blob hb
    rw [Store.alignment?, Store.alignment?, hb, ha]
    exact hd

/-- **What is honoured stays honoured.** -/
theorem Honours.mono (h : Widens s s') {name : String} {a : Option UInt32} {id : BlobId}
    (hn : Honours s name a id) : Honours s' name a id := by
  refine ⟨h.named? hn.named, ?_⟩
  rw [h.canonical (named?_lt hn.named)]
  exact hn.divides.trans (h.alignment? _)

/-! ## Requests for a blob that is there -/

theorem names_setAlignment (s : Store) (id : BlobId) (a : Option UInt32) :
    (s.setAlignment id a).names = s.names := by
  refine Array.ext_getElem? fun i => ?_
  simp only [names, setAlignment, Array.getElem?_map, Array.getElem?_modify]
  split_ifs
  · cases s.blobs[i]? <;> rfl
  · rfl

theorem alignment?_setAlignment (s : Store) (id j : BlobId) (a : Option UInt32) :
    (s.setAlignment id a).alignment? j =
      if id = j then (s.blob? j).bind fun _ => a else s.alignment? j := by
  rw [Store.alignment?, blob?_setAlignment]
  split_ifs
  · cases s.blob? j <;> rfl
  · rfl

theorem storage?_setAlignment (s : Store) (id : BlobId) (a : Option UInt32) :
    (s.setAlignment id a).storage? = s.storage? := by
  funext j
  rw [storage?, storage?, blob?_setAlignment]
  split_ifs
  · cases s.blob? j <;> rfl
  · rfl

theorem widens_setAlignment {id : BlobId} {a : Option UInt32} (h : Divides (s.alignment? id) a) :
    Widens s (s.setAlignment id a) := by
  refine ⟨fun hc => Closed.congr hc (storage?_setAlignment s id a), fun {j b} hb => ?_⟩
  · rw [blob?_setAlignment, hb]
    split_ifs with hj
    · subst hj
      rw [Store.alignment?, hb] at h
      exact ⟨a, rfl, h⟩
    · exact ⟨b.alignment, rfl, .refl _⟩

theorem Closed.canonical (hc : s.Closed) {id : BlobId} (hid : id.index < s.size) :
    ∃ b bytes, s.blob? (s.canonical id) = some b ∧ b.storage = .owned bytes := by
  obtain ⟨b, hb⟩ := exists_blob hid
  rw [Store.canonical, hb, Option.map_some]
  cases hst : b.storage with
  | owned bytes => exact ⟨b, bytes, hb, hst⟩
  | aliasOf t => exact hc hb hst

section
variable {id : BlobId} {a own shared : Option UInt32}
  (ho : Alignment.merge (s.alignment? id) a = some own)
  (hsh : Alignment.merge (s.alignment? (s.canonical id)) a = some shared)
include ho hsh

/-- Merging a request into a blob and its canonical blob widens their alignments. -/
theorem widens_merged :
    Widens s ((s.setAlignment id own).setAlignment (s.canonical id) shared) := by
  have h1 : Widens s (s.setAlignment id own) := widens_setAlignment (Alignment.divides_merge ho).1
  refine h1.trans (widens_setAlignment ?_)
  rw [alignment?_setAlignment]
  split_ifs with he
  · -- the blob is its own canonical blob, so both merges are the same
    rw [← he, ho, Option.some.injEq] at hsh
    cases s.blob? (s.canonical id)
    · exact Alignment.divides_none _
    · exact hsh ▸ .refl _
  · exact (Alignment.divides_merge hsh).1

/-- **A request for a blob that is there** is honoured. -/
theorem widened_honours {name : String} (hc : s.Closed) (hn : s.named? name = some id) :
    Widens s ((s.setAlignment id own).setAlignment (s.canonical id) shared) ∧
      Honours ((s.setAlignment id own).setAlignment (s.canonical id) shared) name a id := by
  have h1 : Widens s (s.setAlignment id own) := widens_setAlignment (Alignment.divides_merge ho).1
  have h2 := widens_merged ho hsh
  refine ⟨h2, h2.named? hn, ?_⟩
  have hid := named?_lt hn
  obtain ⟨b, bytes, hb, -⟩ := hc.canonical hid
  obtain ⟨y, hy, -⟩ := h1.blob hb
  rw [h2.canonical hid, alignment?_setAlignment, if_pos rfl, hy]
  exact (Alignment.divides_merge hsh).2

end

/-! ## Requests for new contents -/

theorem widens_push (s : Store) {b : Blob} (h : ∀ t, b.storage = .aliasOf t →
    ∃ c bytes, s.blob? t = some c ∧ c.storage = .owned bytes) :
    Widens s { s with blobs := s.blobs.push b } := by
  have old {j c} (hj : s.blob? j = some c) :
      ({ s with blobs := s.blobs.push b } : Store).blob? j = some c := by
    rw [blob?_push, if_neg (Nat.ne_of_lt (blob?_lt hj)), hj]
  refine ⟨fun hc {j b' t} hb' hst => ?_, fun {j c} hj => ⟨c.alignment, old hj, .refl _⟩⟩
  have : ∃ c bytes, s.blob? t = some c ∧ c.storage = .owned bytes := by
    rw [blob?_push] at hb'
    split_ifs at hb'
    · cases hb'; exact h t hst
    · exact hc hb' hst
  obtain ⟨c, bytes, hc, hct⟩ := this
  exact ⟨c, bytes, old hc, hct⟩

/-- **What adding contents does**: a new blob is an alias of a canonical blob with the same
    contents, whose alignment is widened, or canonical. -/
theorem add_blobs (s : Store) (bytes : Bytes) (name : Option String) (a : Option UInt32) :
    (s.add bytes name a).padSize = s.padSize ∧ (s.add bytes name a).dedup = s.dedup ∧
    ∃ b : Blob, b.name = name ∧ b.alignment = a ∧
      ((∃ t c m, s.dedup = true ∧ s.blob? t = some c ∧ c.storage = .owned bytes ∧
          Alignment.merge (s.alignment? t) a = some m ∧ b.storage = .aliasOf t ∧
          (s.add bytes name a).blobs = (s.setAlignment t m).blobs.push b) ∨
        (b.storage = .owned bytes ∧ (s.add bytes name a).blobs = s.blobs.push b)) := by
  -- taking a key leaves the blobs alone
  have hn : (s.nextHash bytes).2.blobs = s.blobs ∧ (s.nextHash bytes).2.padSize = s.padSize ∧
      (s.nextHash bytes).2.dedup = s.dedup := by
    unfold nextHash
    split <;> exact ⟨rfl, rfl, rfl⟩
  rcases hh : s.nextHash bytes with ⟨hash, u⟩
  rw [hh] at hn
  obtain ⟨hb, hp, hd⟩ := hn
  simp only [add, hh]
  split
  · rename_i t ht
    split_ifs at ht with hdedup
    obtain ⟨c, hc, hst, -, hm⟩ := findIdentical?_spec ht
    obtain ⟨m, hm⟩ := Option.isSome_iff_exists.1 hm
    have hal : u.alignment? t = c.alignment := by rw [Store.alignment?, hc]; rfl
    have hmerged : (Alignment.merge (u.alignment? t) a).getD (u.alignment? t) = m := by
      rw [hal, hm]; rfl
    rw [addAlias, hmerged]
    refine ⟨hp, hd, ⟨name, bytes.length.toUInt32, (u.setAlignment t m).padSizeOf t, a, hash,
      .aliasOf t, none⟩, rfl, rfl, Or.inl ⟨t, c, m, hd ▸ hdedup, by rw [← blob?_congr hb, hc], hst,
        ?_, rfl, ?_⟩⟩
    · rwa [Store.alignment?, ← blob?_congr hb, hc]
    · show (u.blobs.modify _ _).push _ = _
      rw [hb]; rfl
  · refine ⟨hp, hd, ⟨name, bytes.length.toUInt32, roundUp bytes.length.toUInt32 u.padSize, a, hash,
      .owned bytes, none⟩, rfl, rfl, Or.inr ⟨rfl, ?_⟩⟩
    show u.blobs.push _ = _
    rw [hb]

section
variable {b : Blob} (he : s'.blobs = s.blobs.push b)
include he

theorem blob?_pushed (j : BlobId) :
    s'.blob? j = if j.index = s.size then some b else s.blob? j := by
  rw [blob?, he]
  exact Array.getElem?_push

theorem named?_pushed {name : String} (hnew : s.named? name = none) (hb : b.name = some name) :
    s'.named? name = some ⟨s.size⟩ := by
  rw [Store.named?, Option.map_eq_none_iff] at hnew
  rw [Store.named?, he, Array.findIdx?_push, hnew, hb]
  simp [Store.size]

end

/-- **A request for new contents** is honoured. -/
theorem add_honours {bytes : Bytes} {name : String} {a : Option UInt32}
    (hn : s.named? name = none) :
    Widens s (s.add bytes (some name) a) ∧ Honours (s.add bytes (some name) a) name a ⟨s.size⟩ := by
  obtain ⟨-, -, b, hname, hal, ⟨t, c, m, -, hc, hst, hm, hb, he⟩ | ⟨hb, he⟩⟩ :=
    s.add_blobs bytes (some name) a
  · have h1 : Widens s (s.setAlignment t m) := widens_setAlignment (Alignment.divides_merge hm).1
    have hsize := size_setAlignment s t m
    have ht : (s.setAlignment t m).blob? t = some { c with alignment := m } := by
      rw [blob?_setAlignment, if_pos rfl, hc]; rfl
    have hnew := blob?_pushed he ⟨s.size⟩
    rw [hsize, if_pos rfl] at hnew
    refine ⟨(h1.trans (widens_push _ ?_)).congr he, ?_, ?_⟩
    · rw [hb]; rintro _ ⟨⟩; exact ⟨_, bytes, ht, hst⟩
    · rw [named?_pushed he (by rwa [named?_eq, names_setAlignment, ← named?_eq]) hname, hsize]
    · rw [canonical, hnew, Option.map_some, hb]
      simp only
      rw [Store.alignment?, blob?_pushed he, if_neg (Nat.ne_of_lt (blob?_lt ht)), ht]
      exact (Alignment.divides_merge hm).2
  · have hnew := blob?_pushed he ⟨s.size⟩
    rw [if_pos rfl] at hnew
    have hnot (t : BlobId) : b.storage ≠ .aliasOf t := by
      rw [hb]
      exact Storage.noConfusion
    refine ⟨(widens_push s fun t ht => absurd ht (hnot t)).congr he, named?_pushed he hn hname, ?_⟩
    rw [canonical, hnew, Option.map_some, hb]
    simp only
    rw [Store.alignment?, hnew, Option.bind_some, hal]
    exact .refl a

/-! ## Requests -/

variable {name : String} {a : Option UInt32}

theorem runs_find?_honours {r : Option BlobId} (hc : s.Closed) (h : Runs (find? name a) s r s') :
    (r = none ∧ s.named? name = none ∧ s' = s) ∨
      ∃ id, r = some id ∧ Widens s s' ∧ Honours s' name a id := by
  rcases runs_find?_cases h with h | ⟨id, own, shared, rfl, hn, ho, hsh, rfl⟩
  · exact Or.inl h
  · obtain ⟨hw, hh⟩ := widened_honours ho hsh hc hn
    have hcount (t : Store) : Widens t t.countHit := (Widens.refl t).congr rfl
    exact Or.inr ⟨id, rfl, hw.trans (hcount _), hh.mono (hcount _)⟩

/-- **A request that is granted** is honoured. -/
theorem runs_intern_honours {bytes : Bytes} {id : BlobId} (hc : s.Closed)
    (h : Runs (intern bytes (some name) a) s id s') : Widens s s' ∧ Honours s' name a id := by
  rcases runs_intern_cases h with ⟨n, ⟨⟩, hf⟩ | ⟨hn, rfl, rfl⟩
  · rcases runs_find?_honours hc hf with ⟨hr, -⟩ | ⟨_, ⟨⟩, hw, hh⟩
    · cases hr
    · exact ⟨hw, hh⟩
  · exact add_honours (hn name rfl)

end Store

end LevelBundle
