/-
  LevelBundle — stores that share equal contents, and stores that do not.

  The same requests are made to two stores, of which only the second shares equal contents.
  Both number their blobs alike and have the same contents under each number.  They differ
  in alignments: in the second store a canonical blob has to honour what is asked of any
  file with its contents.

  * `Aligned S T c`: the alignments `T` of the second store are those `S` of the first,
    brought together at the canonical blobs `c`.  `Aligned.update`: one request more.
  * `Requested` and `Added`: what a request does to one store.
  * `Twin A H s t`: the store `s`, which shares nothing, and the store `t` have been asked
    for the same names, at alignments in `A` and with contents in `H`.
  * `Conflict A H e`: two names with the same contents have been asked for at alignments of
    which neither divides the other.
  * `Twin.reconcile` and `Twin.add`: a request that `s` grants, `t` grants, or it finds a
    conflict.
-/
import LevelBundle.Proofs.Widening
import Mathlib.Logic.Function.Basic

namespace LevelBundle

namespace Store

open LevelBundle.Alignment (Divides)

/-! ## Alignments -/

/-- Alignments `S` of files by themselves, and alignments `T` of stored contents, where the
    canonical blob of each blob is given by `c`. -/
structure Aligned (S T : BlobId → Option UInt32) (c : BlobId → BlobId) : Prop where
  /-- The canonical blob of a blob is canonical. -/
  idem : ∀ j, c (c j) = c j
  /-- An alias keeps to the alignment of its own file. -/
  own : ∀ {j}, c j ≠ j → T j = S j
  /-- A canonical blob honours the alignments of all its files. -/
  absorbs : ∀ j, Divides (S j) (T (c j))
  /-- Its alignment is that of one of them. -/
  attained : ∀ {j x}, c j = j → T j = some x → ∃ i, c i = j ∧ S i = some x

variable {S T : BlobId → Option UInt32} {c c' : BlobId → BlobId} {id : BlobId}
  {a own m : Option UInt32}

theorem merge_eq_of_divides {b : Option UInt32} {x : UInt32} (h : Alignment.merge b (some x) = some own)
    (hd : Divides b (some x)) : own = some x := by
  rcases Alignment.merge_cases h with rfl | rfl
  · obtain ⟨y, rfl, hxy⟩ := (Alignment.divides_merge h).2 x rfl
    obtain ⟨z, hz, hyz⟩ := hd y rfl
    cases hz
    rw [UInt32.toNat_inj.1 (Nat.dvd_antisymm hyz hxy)]
  · rfl

/-- The blob `id` is asked for: it is there already, or it is new and gets a canonical blob. -/
structure Asked (S : BlobId → Option UInt32) (c c' : BlobId → BlobId) (id : BlobId) : Prop where
  other : ∀ {j}, j ≠ id → c' j = c j
  idem : c' (c' id) = c' id
  known : c' id = c id ∨ (S id = none ∧ ∀ {j}, c j = id → j = id)

section Asked

variable (h : Aligned S T c) (hq : Asked S c c' id)
include h hq

theorem Asked.canonical {j : BlobId} (hj : j ≠ id) (hji : c j = id) : c' id = id := by
  rcases hq.known with hsame | ⟨-, hnew⟩
  · rw [hsame, ← hji, h.idem]
  · exact absurd (hnew hji) hj

theorem Asked.absorbs : Divides (S id) (T (c' id)) := by
  rcases hq.known with hsame | ⟨hnone, -⟩
  · rw [hsame]
    exact h.absorbs id
  · rw [hnone]
    exact Alignment.divides_none _

theorem Asked.idem_all (j : BlobId) : c' (c' j) = c' j := by
  by_cases hji : j = id
  · rw [hji, hq.idem]
  · rw [hq.other hji]
    by_cases hci : c j = id
    · rw [hci, hq.canonical h hji hci]
    · rw [hq.other hci, h.idem]

/-- The alignment of a canonical blob is that of one of its files. -/
theorem Asked.attained {x : UInt32} (hx : T (c' id) = some x) :
    ∃ i, c' i = c' id ∧ S i = some x := by
  have hc : c (c' id) = c' id := by
    by_cases hk : c' id = id
    · rcases hq.known with hsame | ⟨hnone, -⟩
      · rw [hsame, h.idem]
      · by_contra hne
        rw [hk] at hne hx
        rw [h.own hne, hnone] at hx
        cases hx
    · rw [← hq.other hk, hq.idem]
  obtain ⟨i, hi, hSi⟩ := h.attained hc hx
  by_cases hii : i = id
  · exact ⟨i, by rw [hii], hSi⟩
  · exact ⟨i, by rw [hq.other hii, hi], hSi⟩

variable (ho : Alignment.merge (S id) a = some own) (hm : Alignment.merge (T (c' id)) a = some m)
include ho hm

theorem Asked.update_absorbs (j : BlobId) : Divides (Function.update S id own j)
    (Function.update (Function.update T id own) (c' id) m (c' j)) := by
  obtain ⟨hTm, ham⟩ := Alignment.divides_merge hm
  by_cases hji : j = id
  · rw [hji, Function.update_self, Function.update_self]
    rcases Alignment.merge_cases ho with rfl | rfl
    · exact (hq.absorbs h).trans hTm
    · exact ham
  · rw [Function.update_of_ne hji, hq.other hji]
    by_cases hk : c j = c' id
    · rw [hk, Function.update_self]
      exact (hk ▸ h.absorbs j).trans hTm
    · have hci : c j ≠ id := fun hci => hk (by rw [hq.canonical h hji hci, hci])
      rw [Function.update_of_ne hk, Function.update_of_ne hci]
      exact h.absorbs j

theorem Asked.update_attained_self {x : UInt32} (hx : m = some x) :
    ∃ i, c' i = c' id ∧ Function.update S id own i = some x := by
  subst hx
  -- the alignment is the old one of the canonical blob, or the one that is asked for
  rcases Alignment.merge_cases hm with hTx | rfl
  · obtain ⟨i, hi, hSi⟩ := hq.attained h hTx.symm
    by_cases hii : i = id
    · rw [← hii, hSi, hTx, hm, Option.some.injEq] at ho
      exact ⟨id, rfl, by rw [Function.update_self, ← ho]⟩
    · exact ⟨i, hi, by rw [Function.update_of_ne hii, hSi]⟩
  · refine ⟨id, rfl, ?_⟩
    rw [Function.update_self]
    exact merge_eq_of_divides ho ((hq.absorbs h).trans (Alignment.divides_merge hm).1)

/-- **One request more.** -/
theorem Aligned.update : Aligned (Function.update S id own)
    (Function.update (Function.update T id own) (c' id) m) c' := by
  refine ⟨hq.idem_all h, ?_, hq.update_absorbs h ho hm, ?_⟩
  · intro j hj
    by_cases hji : j = id
    · rw [hji] at hj ⊢
      rw [Function.update_of_ne (Ne.symm hj), Function.update_self, Function.update_self]
    · have hjk : j ≠ c' id := fun hjk => hj (by rw [hjk, hq.idem])
      rw [Function.update_of_ne hjk, Function.update_of_ne hji, Function.update_of_ne hji]
      exact h.own (hq.other hji ▸ hj)
  · intro j x hj hx
    by_cases hjk : j = c' id
    · rw [hjk, Function.update_self] at hx
      rw [hjk]
      exact hq.update_attained_self h ho hm hx
    · have hji : j ≠ id := fun hji => hjk (by rw [← hji, hj])
      rw [Function.update_of_ne hjk, Function.update_of_ne hji] at hx
      obtain ⟨i, hi, hSi⟩ := h.attained (hq.other hji ▸ hj) hx
      have hii : i ≠ id := by
        rintro rfl
        rcases hq.known with hsame | ⟨hnone, -⟩
        · exact hjk (hsame.trans hi).symm
        · rw [hnone] at hSi
          cases hSi
      exact ⟨i, by rw [hq.other hii, hi], by rw [Function.update_of_ne hii, hSi]⟩

end Asked

/-! ## Views of a store -/

variable {s s' t t' : Store} {j : BlobId} {name : String}

theorem storage?_of_alignment {x : UInt32} (h : s.alignment? id = some x) :
    ∃ st, s.storage? id = some st := by
  obtain ⟨b, hb, -⟩ := Option.bind_eq_some_iff.1 h
  exact ⟨b.storage, by rw [storage?, hb]; rfl⟩

theorem named?_inj {name' : String} (h : s.named? name = some id) (h' : s.named? name' = some id) :
    name = name' := by
  obtain ⟨i, hi, rfl⟩ := Option.map_eq_some_iff.1 h
  obtain ⟨i', hi', he⟩ := Option.map_eq_some_iff.1 h'
  obtain rfl : i' = i := congrArg BlobId.index he
  obtain ⟨_, hp, -⟩ := Array.findIdx?_eq_some_iff_getElem.1 hi
  obtain ⟨_, hp', -⟩ := Array.findIdx?_eq_some_iff_getElem.1 hi'
  rw [beq_iff_eq] at hp hp'
  rw [hp, Option.some.injEq] at hp'
  exact hp'

section SetAlignment

variable (s : Store) (id : BlobId) (a : Option UInt32)

theorem alignment?_setAlignment_eq {id : BlobId} (h : id.index < s.size) :
    (s.setAlignment id a).alignment? = Function.update s.alignment? id a := by
  funext j
  rw [alignment?_setAlignment, Function.update_apply]
  obtain ⟨b, hb⟩ := exists_blob h
  by_cases hj : j = id
  · rw [if_pos hj.symm, if_pos hj, hj, hb]; rfl
  · rw [if_neg (Ne.symm hj), if_neg hj]

end SetAlignment

section Pushed

variable {b : Blob} (he : s'.blobs = s.blobs.push b)
include he

theorem names_pushed : s'.names = s.names.push b.name := by
  rw [names, he, Array.map_push]; rfl

theorem storage?_pushed : s'.storage? = Function.update s.storage? ⟨s.size⟩ (some b.storage) := by
  funext j
  rw [storage?, blob?_pushed he, Function.update_apply]
  by_cases hj : j = ⟨s.size⟩
  · rw [if_pos hj, if_pos (congrArg BlobId.index hj)]; rfl
  · rw [if_neg hj, if_neg fun h => hj (by cases j; cases h; rfl)]; rfl

theorem alignment?_pushed : s'.alignment? = Function.update s.alignment? ⟨s.size⟩ b.alignment := by
  funext j
  rw [Store.alignment?, blob?_pushed he, Function.update_apply]
  by_cases hj : j = ⟨s.size⟩
  · rw [if_pos hj, if_pos (congrArg BlobId.index hj)]; rfl
  · rw [if_neg hj, if_neg fun h => hj (by cases j; cases h; rfl)]; rfl

end Pushed

section Reconcile

variable {a own m : Option UInt32}

theorem reconcile_of_merge (ho : Alignment.merge (s.alignment? id) a = some own)
    (hm : Alignment.merge (s.alignment? (s.canonical id)) a = some m) :
    s.reconcile id name a =
      .ok ((s.setAlignment id own).setAlignment (s.canonical id) m) := by
  simp only [reconcile, ho, hm]
  rfl

theorem reconcile_of_conflict
    (ho : s.canonical id ≠ id → Alignment.merge (s.alignment? id) a = some own)
    (hm : Alignment.merge (s.alignment? (s.canonical id)) a = none) : s.reconcile id name a =
      .error (.alignmentConflict name ((s.alignment? (s.canonical id)).getD 1) (a.getD 1)) := by
  by_cases hid : s.canonical id = id
  · rw [hid] at hm ⊢
    simp only [reconcile, hm]
    rfl
  · simp only [reconcile, ho hid, hm]
    rfl

end Reconcile

/-! ## Requests, one store at a time -/

/-- What a store is like after a request for the blob `id`, which it has. -/
structure Requested (s : Store) (id : BlobId) (own m : Option UInt32) (s' : Store) : Prop where
  padSize : s'.padSize = s.padSize
  dedup : s'.dedup = s.dedup
  names : s'.names = s.names
  storage : s'.storage? = s.storage?
  alignment : s'.alignment? =
    Function.update (Function.update s.alignment? id own) (s.canonical id) m

theorem requested (own m : Option UInt32) (h : id.index < s.size)
    (hc : (s.canonical id).index < s.size) :
    Requested s id own m ((s.setAlignment id own).setAlignment (s.canonical id) m) := by
  refine ⟨rfl, rfl, ?_, ?_, ?_⟩
  · rw [names_setAlignment, names_setAlignment]
  · rw [storage?_setAlignment, storage?_setAlignment]
  · rw [alignment?_setAlignment_eq _ _ (by rwa [size_setAlignment]), alignment?_setAlignment_eq _ _ h]

theorem Requested.canonical {own m : Option UInt32} (h : Requested s id own m s') :
    s'.canonical = s.canonical := by
  funext j
  exact canonical_congr (congrFun h.storage j)

theorem Requested.named? {own m : Option UInt32} (h : Requested s id own m s') (name : String) :
    s'.named? name = s.named? name := by
  rw [named?_eq, named?_eq, h.names]

/-- What a store with new contents under the number `id` is like. -/
structure Added (s : Store) (bytes : Bytes) (name : Option String) (a m : Option UInt32)
    (id : BlobId) (s' : Store) : Prop where
  padSize : s'.padSize = s.padSize
  dedup : s'.dedup = s.dedup
  names : s'.names = s.names.push name
  storage : ∀ {j}, j ≠ id → s'.storage? j = s.storage? j
  owned : s'.storage? (s'.canonical id) = some (.owned bytes)
  alignment : s'.alignment? =
    Function.update (Function.update s.alignment? id a) (s'.canonical id) m
  merged : Alignment.merge (s.alignment? (s'.canonical id)) a = some m
  apart : s.dedup = false → s'.canonical id = id

/-- **New contents** are kept in a blob of their own, or in one that has them already. -/
theorem added (s : Store) (bytes : Bytes) (name : Option String) (a : Option UInt32) :
    ∃ m, Added s bytes name a m ⟨s.size⟩ (s.add bytes name a) := by
  obtain ⟨hpad, hdedup, b, rfl, rfl, hb⟩ := s.add_blobs bytes name a
  generalize s.add bytes b.name b.alignment = s' at *
  have hnew := s.next_eq_none
  rcases hb with ⟨u, c, m, hd, hc, hst, hm, hb, he⟩ | ⟨hb, he⟩
  · have hst' := storage?_pushed he
    have hal := alignment?_pushed he
    have hu : s.storage? u = some (.owned bytes) := by rw [storage?, hc, Option.map_some, hst]
    have hne : u ≠ ⟨s.size⟩ := by
      rintro rfl
      rw [hnew.1] at hu
      cases hu
    rw [size_setAlignment, storage?_setAlignment, hb] at hst'
    rw [size_setAlignment, alignment?_setAlignment_eq _ _ (lt_of_storage? hu),
      Function.update_comm hne] at hal
    have hcan : s'.canonical ⟨s.size⟩ = u := canonical_of_alias (by rw [hst', Function.update_self])
    refine ⟨m, hpad, hdedup, ?_, fun hj => by rw [hst', Function.update_of_ne hj], ?_,
      by rw [hal, hcan], by rw [hcan, hm], fun hf => ?_⟩
    · rw [names_pushed he, names_setAlignment]
    · rw [hcan, hst', Function.update_of_ne hne, hu]
    · rw [hd] at hf
      cases hf
  · have hst' := storage?_pushed he
    have hal := alignment?_pushed he
    have hown : s'.storage? ⟨s.size⟩ = some (.owned bytes) := by
      rw [hst', Function.update_self, hb]
    have hcan := canonical_of_owned hown
    exact ⟨b.alignment, hpad, hdedup, names_pushed he,
      fun hj => by rw [hst', Function.update_of_ne hj], by rw [hcan, hown],
      by rw [hal, hcan, Function.update_idem], by rw [hcan, hnew.2]; rfl, fun _ => hcan⟩

theorem Added.alignment_apart {bytes : Bytes} {name : Option String} {a m : Option UInt32}
    (h : Added s bytes name a m id s') (hd : s.dedup = false) (hnew : s.alignment? id = none) :
    s'.alignment? = Function.update s.alignment? id a := by
  have hcan := h.apart hd
  have hm := h.merged
  rw [hcan, hnew] at hm
  cases hm
  rw [h.alignment, hcan, Function.update_idem]

/-! ## Two stores -/

/-- Two stores that have been asked for the same names; the first shares nothing. -/
structure Twin (A : String → UInt32 → Prop) (H : String → Bytes → Prop) (s t : Store) : Prop where
  apart : s.dedup = false
  padSize : t.padSize = s.padSize
  names : t.names = s.names
  /-- A blob of the first store has contents of its name. -/
  file : ∀ {id st}, s.storage? id = some st → ∃ name bytes, s.named? name = some id ∧
    st = .owned bytes ∧ H name bytes
  /-- Its alignment is one that its name has been asked for at. -/
  asked : ∀ {id name x}, s.named? name = some id → s.alignment? id = some x → A name x
  /-- The canonical blob of the second store has the same contents. -/
  shared : ∀ {id bytes}, s.storage? id = some (.owned bytes) →
    t.storage? (t.canonical id) = some (.owned bytes)
  aligned : Aligned s.alignment? t.alignment? t.canonical

/-- A request that cannot be granted because of another name with the same contents. -/
def Conflict (A : String → UInt32 → Prop) (H : String → Bytes → Prop) (e : StoreError) : Prop :=
  ∃ name other bytes x y, e = .alignmentConflict name x y ∧ other ≠ name ∧
    H name bytes ∧ H other bytes ∧ A other x ∧ A name y ∧ ¬ x.toNat ∣ y.toNat ∧ ¬ y.toNat ∣ x.toNat

variable {A : String → UInt32 → Prop} {H : String → Bytes → Prop}

theorem twin_empty (padSize : UInt32) :
    Twin A H (.empty padSize false) (.empty padSize true) := by
  have hblob (id : BlobId) (dedup : Bool) : (Store.empty padSize dedup).blob? id = none := by
    simp [Store.empty, Store.blob?]
  have hal (id : BlobId) (dedup : Bool) : (Store.empty padSize dedup).alignment? id = none := by
    rw [Store.alignment?, hblob]; rfl
  have hcan (id : BlobId) : (Store.empty padSize true).canonical id = id := by
    rw [canonical, hblob]; rfl
  have haligned : Aligned (Store.empty padSize false).alignment?
      (Store.empty padSize true).alignment? (Store.empty padSize true).canonical := by
    refine ⟨fun j => by rw [hcan], fun {j} hj => absurd (hcan j) hj, ?_, ?_⟩
    · intro j
      rw [hal]
      exact Alignment.divides_none _
    · intro j x _ hx
      rw [hal] at hx
      cases hx
  refine ⟨rfl, rfl, rfl, ?_, ?_, ?_, haligned⟩
  · intro id st hst
    rw [storage?, hblob] at hst
    cases hst
  · intro id name x _ hx
    rw [hal] at hx
    cases hx
  · intro id bytes hst
    rw [storage?, hblob] at hst
    cases hst

namespace Twin

variable (h : Twin A H s t)
include h

theorem named?_eq (name : String) : t.named? name = s.named? name := by
  rw [Store.named?_eq, Store.named?_eq, h.names]

theorem size_eq : t.size = s.size := by
  have hsize := congrArg Array.size h.names
  rwa [Store.names, Store.names, Array.size_map, Array.size_map] at hsize

theorem canonical_eq (id : BlobId) : s.canonical id = id := by
  cases hst : s.storage? id with
  | none => exact canonical_of_none hst
  | some st =>
    obtain ⟨name, bytes, -, rfl, -⟩ := h.file hst
    exact canonical_of_owned hst

/-- **The contents are the same.** -/
theorem bytes_eq (id : BlobId) : t.bytes id = s.bytes id := by
  cases hst : s.storage? id with
  | none =>
    -- there is no such blob in either store
    have ht := hst
    rw [storage?_eq_none_iff, ← h.size_eq, ← storage?_eq_none_iff] at ht
    rw [bytes_of_none hst, bytes_of_none ht]
  | some st =>
    obtain ⟨name, bytes, -, rfl, -⟩ := h.file hst
    rw [bytes_of_owned (h.shared hst), bytes_of_owned (by rwa [h.canonical_eq])]

theorem file_of_named (hn : s.named? name = some id) : ∃ bytes,
    s.storage? id = some (.owned bytes) ∧ H name bytes := by
  obtain ⟨st, hst⟩ := storage?_of_lt (named?_lt hn)
  obtain ⟨name', bytes, hn', rfl, hread⟩ := h.file hst
  rw [named?_inj hn hn']
  exact ⟨bytes, hst, hread⟩

/-! ## Requests -/

/-- **A request that cannot be granted** finds a name that has the same contents. -/
theorem conflict (hn : s.named? name = some id) {a own : Option UInt32}
    (ha : ∀ x, a = some x → A name x) (ho : Alignment.merge (s.alignment? id) a = some own)
    (hm : Alignment.merge (t.alignment? (t.canonical id)) a = none) :
    ∃ e, t.reconcile id name a = .error e ∧ Conflict A H e := by
  obtain ⟨x, y, hx, rfl, hxy, hyx⟩ := Alignment.merge_eq_none hm
  refine ⟨_, reconcile_of_conflict (fun hid => by rwa [h.aligned.own hid]) hm, ?_⟩
  obtain ⟨i, hi, hix⟩ := h.aligned.attained (h.aligned.idem id) hx
  obtain ⟨st, hst⟩ := storage?_of_alignment hix
  obtain ⟨other, bytes, hother, rfl, hread⟩ := h.file hst
  obtain ⟨bytes', hid, hread'⟩ := h.file_of_named hn
  -- both names have the contents of one canonical blob
  have hsame : bytes' = bytes := by
    have h1 := h.shared hst
    have h2 := h.shared hid
    rw [hi, h2] at h1
    cases h1
    rfl
  refine ⟨name, other, bytes, x, y, by rw [hx]; rfl, ?_, hsame ▸ hread', hread, h.asked hother hix,
    ha y rfl, hxy, hyx⟩
  -- the name itself was granted what it asks for
  rintro rfl
  rw [hn, Option.some.injEq] at hother
  rw [hother, hix, ← hx, hm] at ho
  cases ho

theorem merge_own {a own m : Option UInt32} (ho : Alignment.merge (s.alignment? id) a = some own)
    (hm : Alignment.merge (t.alignment? (t.canonical id)) a = some m) :
    ∃ own', Alignment.merge (t.alignment? id) a = some own' ∧
      Function.update (Function.update t.alignment? id own') (t.canonical id) m =
        Function.update (Function.update t.alignment? id own) (t.canonical id) m := by
  by_cases hcan : t.canonical id = id
  · -- a canonical blob has one alignment, which is set last
    refine ⟨m, hcan ▸ hm, ?_⟩
    rw [hcan, Function.update_idem, Function.update_idem]
  · exact ⟨own, by rwa [h.aligned.own hcan], rfl⟩

theorem widened (hn : s.named? name = some id) {a own m : Option UInt32}
    (ha : ∀ x, a = some x → A name x) (ho : Alignment.merge (s.alignment? id) a = some own)
    (hm : Alignment.merge (t.alignment? (t.canonical id)) a = some m)
    (hs : Requested s id own own s') (ht : Requested t id own m t') : Twin A H s' t' := by
  have hS : s'.alignment? = Function.update s.alignment? id own := by
    rw [hs.alignment, h.canonical_eq, Function.update_idem]
  refine ⟨by rw [hs.dedup, h.apart], by rw [hs.padSize, ht.padSize, h.padSize],
    by rw [hs.names, ht.names, h.names], ?_, ?_, ?_, ?_⟩
  · intro j st hst
    rw [hs.storage] at hst
    simpa only [hs.named?] using h.file hst
  · intro j other x hj hx
    rw [hs.named?] at hj
    rw [hS, Function.update_apply] at hx
    split_ifs at hx with hji
    · subst hji hx
      obtain rfl := named?_inj hn hj
      rcases Alignment.merge_cases ho with hx | rfl
      · exact h.asked hn hx.symm
      · exact ha x rfl
    · exact h.asked hj hx
  · intro j bytes hst
    rw [hs.storage] at hst
    rw [ht.canonical, ht.storage]
    exact h.shared hst
  · rw [hS, ht.alignment, ht.canonical]
    exact h.aligned.update ⟨fun _ => rfl, h.aligned.idem id, Or.inl rfl⟩ ho hm

/-- **A request for a blob that is there.** -/
theorem reconcile (hn : s.named? name = some id) {a : Option UInt32}
    (ha : ∀ x, a = some x → A name x) (hs : s.reconcile id name a = .ok s') :
    (∃ t', t.reconcile id name a = .ok t' ∧ Twin A H s' t') ∨
      ∃ e, t.reconcile id name a = .error e ∧ Conflict A H e := by
  obtain ⟨own, own', ho, ho', rfl⟩ := reconcile_eq_ok hs
  rw [h.canonical_eq, ho, Option.some.injEq] at ho'
  subst ho'
  cases hm : Alignment.merge (t.alignment? (t.canonical id)) a with
  | none => exact Or.inr (h.conflict hn ha ho hm)
  | some m =>
    obtain ⟨own', ho', he⟩ := h.merge_own ho hm
    have hid := named?_lt hn
    obtain ⟨bytes, hbytes, -⟩ := h.file_of_named hn
    have hs' := requested own own hid (by rwa [h.canonical_eq])
    have ht' := requested own' m (h.size_eq ▸ hid) (lt_of_storage? (h.shared hbytes))
    refine Or.inl ⟨_, reconcile_of_merge ho' hm, h.widened hn ha ho hm hs' ?_⟩
    exact { ht' with alignment := ht'.alignment.trans he }

theorem eq_next_of_canonical {j : BlobId} (hj : t.canonical j = ⟨s.size⟩) : j = ⟨s.size⟩ := by
  cases hst : s.storage? j with
  | none =>
    rw [storage?_eq_none_iff, ← h.size_eq, ← storage?_eq_none_iff] at hst
    rwa [canonical_of_none hst] at hj
  | some st =>
    obtain ⟨-, bytes, -, rfl, -⟩ := h.file hst
    have hshared := h.shared hst
    rw [hj, ← h.size_eq, t.next_eq_none.1] at hshared
    cases hshared

/-- **A request for new contents.** -/
theorem add (hn : s.named? name = none) {a : Option UInt32} (ha : ∀ x, a = some x → A name x)
    {bytes : Bytes} (hread : H name bytes) :
    Twin A H (s.add bytes (some name) a) (t.add bytes (some name) a) := by
  obtain ⟨hw, hnamed, -⟩ := @add_honours s bytes name a hn
  obtain ⟨ms, hs⟩ := s.added bytes (some name) a
  obtain ⟨m, ht⟩ := t.added bytes (some name) a
  rw [h.size_eq] at ht
  generalize s.add bytes (some name) a = s' at *
  generalize t.add bytes (some name) a = t' at *
  obtain ⟨-, hnone⟩ := s.next_eq_none
  have hfresh {j : BlobId} : t.canonical j = ⟨s.size⟩ → j = ⟨s.size⟩ := h.eq_next_of_canonical
  generalize (⟨s.size⟩ : BlobId) = id at *
  have hS := hs.alignment_apart h.apart hnone
  have hown := hs.apart h.apart ▸ hs.owned
  have hold {j : BlobId} (hj : j ≠ id) : t'.canonical j = t.canonical j :=
    canonical_congr (ht.storage hj)
  refine ⟨by rw [hs.dedup, h.apart], by rw [hs.padSize, ht.padSize, h.padSize],
    by rw [hs.names, ht.names, h.names], ?_, ?_, ?_, ?_⟩
  · intro j st hst
    by_cases hji : j = id
    · subst hji
      rw [hown] at hst
      cases hst
      exact ⟨name, bytes, hnamed, rfl, hread⟩
    · rw [hs.storage hji] at hst
      obtain ⟨other, bytes', hother, rfl, hread'⟩ := h.file hst
      exact ⟨other, bytes', hw.named? hother, rfl, hread'⟩
  · intro j other x hj hx
    rw [hS, Function.update_apply] at hx
    split_ifs at hx with hji
    · subst hji
      obtain rfl := named?_inj hnamed hj
      exact ha x hx
    · obtain ⟨st, hst⟩ := storage?_of_alignment hx
      obtain ⟨other', -, hother, -⟩ := h.file hst
      obtain rfl := named?_inj (hw.named? hother) hj
      exact h.asked hother hx
  · intro j bytes' hst
    by_cases hji : j = id
    · subst hji
      rw [hown] at hst
      cases hst
      exact ht.owned
    · rw [hs.storage hji] at hst
      rw [hold hji, ht.storage fun he => hji (hfresh he)]
      exact h.shared hst
  · rw [hS, ht.alignment]
    have hasked : Asked s.alignment? t.canonical t'.canonical id :=
      ⟨hold, canonical_of_owned ht.owned, Or.inr ⟨hnone, hfresh⟩⟩
    exact h.aligned.update hasked (by rw [hnone]; rfl) ht.merged

end Twin

end Store

end LevelBundle
