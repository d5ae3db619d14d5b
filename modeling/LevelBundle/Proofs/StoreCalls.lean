/-
  LevelBundle — the calls made to a store.

  Contents are taken in, found again by the names of their files and placed, in any order.

  * `StoreCall`: a call.  `Store.after` is what a list of calls leaves, and `Store.log` what
    the calls are answered.
  * `Outcome s c answer s'`: all that a call can do, in six cases (`Store.outcome`).
  * `Store.Keeps s s'`: the blobs of `s` are those of `s'`, but for alignments that have been
    widened and places that have been set.  Every call keeps a store (`Store.keeps_after`).
  * `Store.Fresh s c b`: a blob that a call adds.  Any other was there before
    (`Outcome.old_or_fresh`).
-/
import LevelBundle.Proofs.Widening

namespace LevelBundle

/-- A call to a store. -/
inductive StoreCall where
  /-- Contents are taken in. -/
  | intern (bytes : Bytes) (name : Option String) (alignment : Option UInt32)
  /-- A blob is looked up by the name of its file. -/
  | find (name : String) (alignment : Option UInt32)
  /-- The canonical blob of a blob is placed. -/
  | assign (id : BlobId) (offset : UInt32)
  deriving DecidableEq, Repr

namespace StoreCall

/-- The name of the file that a call is about. -/
def name? : StoreCall → Option String
  | intern _ name _ => name
  | find name _ => some name
  | assign _ _ => none

/-- The alignment that a call asks for. -/
def alignment? : StoreCall → Option UInt32
  | intern _ _ alignment | find _ alignment => alignment
  | assign _ _ => none

/-- What is done for a call.  It answers the blob that was asked for, if there is one. -/
def act : StoreCall → StoreM (Option BlobId)
  | intern bytes name alignment => do return some (← Store.intern bytes name alignment)
  | find name alignment => Store.find? name alignment
  | assign id offset => do
    Store.assignOffset id offset
    return none

end StoreCall

/-- A call, and what it was answered. -/
structure StoreEntry where
  /-- The call. -/
  call : StoreCall
  /-- The answer. -/
  answer : Except StoreError (Option BlobId)

/-- The blob that a request was granted. -/
def StoreEntry.id? (e : StoreEntry) : Option BlobId := e.answer.toOption.join

namespace Store

/-- What a call is answered. -/
def answer (s : Store) (c : StoreCall) : Except StoreError (Option BlobId) :=
  @Prod.fst (Except StoreError (Option BlobId)) Store (c.act.run s)

/-- What a call leaves. -/
def step (s : Store) (c : StoreCall) : Store :=
  @Prod.snd (Except StoreError (Option BlobId)) Store (c.act.run s)

/-- What a list of calls leaves. -/
def after (s : Store) (calls : List StoreCall) : Store := calls.foldl step s

/-- The calls of a list, with their answers. -/
def log (s : Store) : List StoreCall → List StoreEntry
  | [] => []
  | c :: calls => ⟨c, s.answer c⟩ :: (s.step c).log calls

variable {s s' s'' : Store} {c : StoreCall}

@[simp] theorem after_nil (s : Store) : s.after [] = s := rfl

@[simp] theorem after_append (s : Store) (calls more : List StoreCall) :
    s.after (calls ++ more) = (s.after calls).after more := List.foldl_append

/-- A request for a blob that is there: an alignment is merged into it and into its canonical
    blob. -/
def merged (s : Store) (id : BlobId) (own shared : Option UInt32) : Store :=
  ((s.setAlignment id own).setAlignment (s.canonical id) shared).countHit

/-- The new blob `b` is an alias of `t`, whose alignment is now `m`. -/
def withAlias (s : Store) (t : BlobId) (m : Option UInt32) (b : Blob) : Store :=
  countHit { s.setAlignment t m with blobs := (s.setAlignment t m).blobs.push b }

/-- The new blob `b` is canonical, and the next key is `unique`. -/
def withOwn (s : Store) (unique : UInt32) (b : Blob) : Store :=
  { s with
    blobs := s.blobs.push b, nextUnique := unique
    totalPadSize := s.totalPadSize + b.padSize.toNat }

/-- The blob `t` lies at `o`. -/
def placedAt (s : Store) (t : BlobId) (o : UInt32) : Store :=
  { s with blobs := s.blobs.modify t.index fun b => { b with offset := some o } }

section
variable (s : Store) (id t : BlobId) (own shared m : Option UInt32) (b : Blob) (unique o : UInt32)

theorem size_merged : (s.merged id own shared).size = s.size :=
  (size_setAlignment _ _ _).trans (size_setAlignment _ _ _)

theorem size_withAlias : (s.withAlias t m b).size = s.size + 1 :=
  (Array.size_push _).trans (congrArg (· + 1) (size_setAlignment s t m))

theorem size_withOwn : (s.withOwn unique b).size = s.size + 1 := Array.size_push _

theorem size_placedAt : (s.placedAt t o).size = s.size := Array.size_modify

theorem names_merged : (s.merged id own shared).names = s.names :=
  (names_setAlignment _ _ _).trans (names_setAlignment _ _ _)

theorem names_withAlias : (s.withAlias t m b).names = s.names.push b.name := by
  rw [← names_setAlignment s t m]
  exact Array.map_push

theorem names_withOwn : (s.withOwn unique b).names = s.names.push b.name := Array.map_push

theorem names_placedAt : (s.placedAt t o).names = s.names := by
  refine Array.ext_getElem? fun i => ?_
  simp only [names, placedAt, Array.getElem?_map, Array.getElem?_modify]
  split_ifs
  · cases s.blobs[i]? <;> rfl
  · rfl

theorem blob?_withAlias (j : BlobId) : (s.withAlias t m b).blob? j =
    if j.index = s.size then some b else (s.setAlignment t m).blob? j := by
  rw [← size_setAlignment s t m]
  exact blob?_pushed rfl j

theorem blob?_withOwn (j : BlobId) :
    (s.withOwn unique b).blob? j = if j.index = s.size then some b else s.blob? j :=
  blob?_pushed rfl j

theorem blob?_placedAt (j : BlobId) : (s.placedAt t o).blob? j =
    if t = j then (s.blob? j).map fun b => { b with offset := some o } else s.blob? j := by
  simp only [placedAt, blob?, Array.getElem?_modify]
  by_cases h : t = j
  · rw [if_pos h, if_pos (congrArg _ h)]
  · rw [if_neg h, if_neg fun h' => h (by cases t; cases j; cases h'; rfl)]

theorem storage?_placedAt : (s.placedAt t o).storage? = s.storage? := by
  funext j
  rw [storage?, storage?, blob?_placedAt]
  split_ifs
  · cases s.blob? j <;> rfl
  · rfl

end

/-! ## What a call can do -/

/-- The blob for new contents that are kept for themselves. -/
def ownBlob (s : Store) (hash : UInt32) (bytes : Bytes) (name : Option String)
    (alignment : Option UInt32) : Blob :=
  let size := bytes.length.toUInt32
  { name, size, padSize := roundUp size s.padSize, alignment, hash, storage := .owned bytes }

/-- The blob for new contents that the blob `t` has already. -/
def aliasBlob (t : BlobId) (padSize : UInt32) (bytes : Bytes) (name : Option String)
    (alignment : Option UInt32) : Blob :=
  { name, size := bytes.length.toUInt32, padSize, alignment, hash := contentSum bytes
    storage := .aliasOf t }

section
variable (s : Store) (hash unique : UInt32) (bytes : Bytes) (name : Option String)
  (a m : Option UInt32) (t : BlobId) (pad : UInt32)

theorem canonical_withAlias :
    (s.withAlias t m (aliasBlob t pad bytes name a)).canonical ⟨s.size⟩ = t := by
  refine canonical_of_alias (storage?_eq_some.2 ⟨aliasBlob t pad bytes name a, ?_, rfl⟩)
  rw [blob?_withAlias, if_pos rfl]

theorem storage?_withOwn :
    (s.withOwn unique (s.ownBlob hash bytes name a)).storage? ⟨s.size⟩ = some (.owned bytes) := by
  refine storage?_eq_some.2 ⟨s.ownBlob hash bytes name a, ?_, rfl⟩
  rw [blob?_withOwn, if_pos rfl]

end

/-- All that a call can do. -/
inductive Outcome (s : Store) : StoreCall → Except StoreError (Option BlobId) → Store → Prop
  /-- A call that is refused changes nothing. -/
  | refused (c : StoreCall) (e : StoreError) : Outcome s c (.error e) s
  /-- There is no blob with the name. -/
  | absent {name : String} {a : Option UInt32} : s.named? name = none →
    Outcome s (.find name a) (.ok none) s
  /-- The name stands for a blob, and the alignment is merged into it. -/
  | found {c : StoreCall} {name : String} {id : BlobId} {own shared : Option UInt32} :
    c.name? = some name → s.named? name = some id →
    Alignment.merge (s.alignment? id) c.alignment? = some own →
    Alignment.merge (s.alignment? (s.canonical id)) c.alignment? = some shared →
    Outcome s c (.ok (some id)) (s.merged id own shared)
  /-- A canonical blob has the contents, and the alignment is merged into it. -/
  | shared {bytes : Bytes} {name : Option String} {a m : Option UInt32} {t : BlobId} {b : Blob} :
    (∀ n, name = some n → s.named? n = none) → s.dedup = true → s.blob? t = some b →
    b.storage = .owned bytes → b.size.toNat = bytes.length →
    Alignment.merge (s.alignment? t) a = some m →
    Outcome s (.intern bytes name a) (.ok (some ⟨s.size⟩))
      (s.withAlias t m (aliasBlob t b.padSize bytes name a))
  /-- The contents are kept for themselves. -/
  | stored {bytes : Bytes} {name : Option String} {a : Option UInt32} {hash unique : UInt32} :
    (∀ n, name = some n → s.named? n = none) →
    (s.dedup = true → hash = contentSum bytes ∧ s.findIdentical? hash bytes a = none) →
    Outcome s (.intern bytes name a) (.ok (some ⟨s.size⟩))
      (s.withOwn unique (s.ownBlob hash bytes name a))
  /-- A blob is placed that was not. -/
  | placed {id : BlobId} {o : UInt32} : s.offset? id = none →
    Outcome s (.assign id o) (.ok none) (s.placedAt (s.canonical id) o)

section
variable {name : Option String} {bytes : Bytes} {a : Option UInt32} {e : StoreError}

theorem fails_find?_iff {name : String} : Fails (find? name a) s e s' ↔
    s' = s ∧ ∃ id, s.named? name = some id ∧ s.reconcile id name a = .error e := by
  simp only [find?, fails_bind, fails_get, false_or, runs_get]
  constructor
  · rintro ⟨_, _, ⟨rfl, rfl⟩, h⟩
    split at h
    · exact absurd h fails_pure
    · rename_i id hn
      simp only [fails_bind, fails_lift, fails_set, fails_pure, runs_lift, runs_set, or_false,
        and_false, exists_false] at h
      exact ⟨h.2.symm, id, hn, h.1⟩
  · rintro ⟨rfl, id, hn, hc⟩
    refine ⟨_, _, ⟨rfl, rfl⟩, ?_⟩
    simp only [hn, hc, fails_bind, fails_lift, and_self, true_or]

/-- Contents are refused with the name of their file, if their alignment can be honoured. -/
theorem fails_intern_iff (ha : a.all Alignment.valid = true) :
    Fails (intern bytes name a) s e s' ↔ ∃ n, name = some n ∧ Fails (find? n a) s e s' := by
  have hnot {known : Option BlobId} {t : Store} : ¬ Fails (take bytes name a known) t e s' := by
    cases known <;>
      simp only [take, fails_bind, fails_get, fails_set, fails_pure, and_false, exists_false,
        or_self, not_false_eq_true]
  rw [intern_eq, if_pos ha]
  simp only [fails_bind, hnot, and_false, exists_false, or_false]
  cases name with
  | none => simp only [fails_pure, reduceCtorEq, false_and, exists_false]
  | some n => simp only [Option.some.injEq, exists_eq_left']

theorem fails_intern_invalid (ha : ¬ a.all Alignment.valid = true) :
    Fails (intern bytes name a) s e s' ↔ StoreError.invalidAlignment (a.getD 0) = e ∧ s = s' := by
  rw [intern_eq, if_neg ha, fails_throw]

theorem fails_assignOffset_iff {id : BlobId} {o : UInt32} : Fails (assignOffset id o) s e s' ↔
    s' = s ∧ (s.offset? id).isSome ∧ e = .offsetAlreadyAssigned (s.canonical id) := by
  have hoffset : (s.blob? (s.canonical id)).bind Blob.offset = s.offset? id := rfl
  simp only [assignOffset, fails_bind, fails_get, false_or, runs_get]
  cases ho : s.offset? id with
  | none =>
    simp only [Option.isSome_none, Bool.false_eq_true, false_and, and_false, iff_false]
    rintro ⟨_, _, ⟨rfl, rfl⟩, h⟩
    rw [hoffset, ho] at h
    exact fails_set h
  | some o' =>
    simp only [Option.isSome_some, true_and]
    constructor
    · rintro ⟨_, _, ⟨rfl, rfl⟩, h⟩
      rw [hoffset, ho] at h
      obtain ⟨rfl, rfl⟩ := fails_throw.1 h
      exact ⟨rfl, rfl⟩
    · rintro ⟨rfl, rfl⟩
      refine ⟨_, _, ⟨rfl, rfl⟩, ?_⟩
      rw [hoffset, ho]
      exact fails_throw.2 ⟨rfl, rfl⟩

theorem fails_intern (h : Fails (intern bytes name a) s e s') : s' = s := by
  by_cases ha : a.all Alignment.valid = true
  · obtain ⟨n, -, hf⟩ := (fails_intern_iff ha).1 h
    exact (fails_find?_iff.1 hf).1
  · exact ((fails_intern_invalid ha).1 h).2.symm

/-- Contents that are added are kept for themselves, or another blob has them. -/
theorem outcome_add (hn : ∀ n, name = some n → s.named? n = none) :
    Outcome s (.intern bytes name a) (.ok (some ⟨s.size⟩)) (s.add bytes name a) := by
  by_cases hd : s.dedup = true
  · cases ht : s.findIdentical? (contentSum bytes) bytes a with
    | none =>
      have hadd : s.add bytes name a = s.addCanonical (contentSum bytes) bytes name a := by
        simp [add, nextHash, hd, ht]
      rw [hadd]
      exact .stored hn fun _ => ⟨rfl, ht⟩
    | some t =>
      have hadd : s.add bytes name a = s.addAlias t (contentSum bytes) bytes name a := by
        simp [add, nextHash, hd, ht]
      obtain ⟨b, hb, hst, hsize, hm⟩ := findIdentical?_spec ht
      obtain ⟨m, hm⟩ := Option.isSome_iff_exists.1 hm
      have hal : Alignment.merge (s.alignment? t) a = some m := by
        rw [Store.alignment?, hb, Option.bind_some, hm]
      have hpad : (s.setAlignment t m).padSizeOf t = b.padSize := by
        rw [padSizeOf, blob?_setAlignment, if_pos rfl, hb]
        rfl
      rw [hadd, addAlias, hal, Option.getD_some, hpad]
      exact .shared hn hd hb hst hsize hal
  · have hadd : s.add bytes name a =
        ({ s with nextUnique := s.nextUnique + 1 } : Store).addCanonical s.nextUnique bytes name a := by
      simp [add, nextHash, hd]
    rw [hadd]
    exact .stored hn fun h => absurd h hd

end

/-- **What a call does.** -/
theorem outcome (s : Store) (c : StoreCall) : Outcome s c (s.answer c) (s.step c) := by
  have hrun : c.act.run s = (s.answer c, s.step c) := rfl
  cases hr : s.answer c with
  | error e =>
    have h : Fails c.act s e (s.step c) := by rw [Fails, hrun, hr]
    have hsame : s.step c = s := by
      cases c with
      | intern bytes name a =>
        simp only [StoreCall.act, fails_bind, fails_pure, and_false, exists_false, or_false] at h
        exact fails_intern h
      | find name a => exact (fails_find?_iff.1 h).1
      | assign id o =>
        simp only [StoreCall.act, fails_bind, fails_pure, and_false, exists_false, or_false] at h
        exact (fails_assignOffset_iff.1 h).1
    rw [hsame]
    exact .refused c e
  | ok r =>
    have h : Runs c.act s r (s.step c) := by rw [Runs, hrun, hr]
    -- a lookup by a name, also one in front of contents that are taken in
    have found {name : String} {r : Option BlobId} (hc : c.name? = some name)
        (hf : Runs (find? name c.alignment?) s r (s.step c)) :
        (r = none ∧ s.named? name = none ∧ s.step c = s) ∨ Outcome s c (.ok r) (s.step c) := by
      rcases runs_find?_cases hf with h | ⟨id, own, shared, rfl, hn, ho, hsh, he⟩
      · exact Or.inl h
      · rw [he]
        exact Or.inr (.found hc hn ho hsh)
    cases c with
    | intern bytes name a =>
      simp only [StoreCall.act, runs_bind, runs_pure] at h
      obtain ⟨id, _, h, rfl, rfl⟩ := h
      rcases runs_intern_cases h with ⟨n, rfl, hf⟩ | ⟨hn, rfl, he⟩
      · rcases found rfl hf with ⟨hr, -⟩ | ho
        · cases hr
        · exact ho
      · rw [he]
        exact outcome_add hn
    | find name a =>
      rcases found rfl h with ⟨rfl, hn, he⟩ | ho
      · rw [he]
        exact .absent hn
      · exact ho
    | assign id o =>
      simp only [StoreCall.act, runs_bind, runs_pure] at h
      obtain ⟨_, _, h, rfl, rfl⟩ := h
      obtain ⟨hnone, he⟩ := runs_assignOffset h
      rw [he]
      exact .placed hnone

theorem answer_of_runs {r : Option BlobId} (h : Runs c.act s r s') :
    s.answer c = .ok r ∧ s.step c = s' := ⟨congrArg Prod.fst h, congrArg Prod.snd h⟩

theorem answer_of_fails {e : StoreError} (h : Fails c.act s e s') :
    s.answer c = .error e ∧ s.step c = s' := ⟨congrArg Prod.fst h, congrArg Prod.snd h⟩

theorem outcome_of_runs {r : Option BlobId} (h : Runs c.act s r s') : Outcome s c (.ok r) s' := by
  obtain ⟨hanswer, hstep⟩ := answer_of_runs h
  rw [← hanswer, ← hstep]
  exact s.outcome c

theorem Outcome.eq_of_new {id j : BlobId} (h : Outcome s c (.ok (some id)) s')
    (hj : s.size ≤ j.index) (hlt : j.index < s'.size) : j = id := by
  have last (hn : j.index < s.size + 1) : j = ⟨s.size⟩ := by
    cases j
    exact congrArg BlobId.mk (Nat.le_antisymm (Nat.le_of_lt_succ hn) hj)
  cases h with
  | found => exact absurd (size_merged .. ▸ hlt) (Nat.not_lt.2 hj)
  | shared => exact last (size_withAlias .. ▸ hlt)
  | stored => exact last (size_withOwn .. ▸ hlt)

/-! ## What no call changes -/

open LevelBundle.Alignment (Divides)

/-- The blobs of a store are those of another, but for alignments that have been widened and
    places that have been set. -/
structure Keeps (s s' : Store) : Prop where
  closed : s.Closed → s'.Closed
  blob : ∀ {id b}, s.blob? id = some b → ∃ a o,
    s'.blob? id = some { b with alignment := a, offset := o } ∧ Divides b.alignment a ∧
      ∀ x, b.offset = some x → o = some x

theorem Keeps.refl (s : Store) : Keeps s s :=
  ⟨id, fun {_ b} h => ⟨b.alignment, b.offset, h, .refl _, fun _ h => h⟩⟩

theorem Keeps.trans (h₁ : Keeps s s') (h₂ : Keeps s' s'') : Keeps s s'' := by
  refine ⟨h₂.closed ∘ h₁.closed, fun hb => ?_⟩
  obtain ⟨a, o, hb', hd, ho⟩ := h₁.blob hb
  obtain ⟨a', o', hb'', hd', ho'⟩ := h₂.blob hb'
  exact ⟨a', o', hb'', hd.trans hd', fun x hx => ho' x (ho x hx)⟩

theorem Widens.keeps (h : Widens s s') : Keeps s s' := by
  refine ⟨h.closed, fun {id b} hb => ?_⟩
  obtain ⟨a, hb', hd⟩ := h.blob hb
  exact ⟨a, b.offset, hb', hd, fun _ hx => hx⟩

namespace Keeps

variable (h : Keeps s s') {id : BlobId}
include h

theorem size_le : s.size ≤ s'.size := by
  by_contra hlt
  have hid : (BlobId.mk s'.size).index < s.size := Nat.not_le.1 hlt
  obtain ⟨b, hb⟩ := exists_blob hid
  obtain ⟨a, o, hb', -⟩ := h.blob hb
  exact Nat.lt_irrefl _ (blob?_lt hb')

theorem old (hid : id.index < s.size) : ∃ b a o, s.blob? id = some b ∧
    s'.blob? id = some { b with alignment := a, offset := o } ∧ Divides b.alignment a := by
  obtain ⟨b, hb⟩ := exists_blob hid
  obtain ⟨a, o, hb', hd, -⟩ := h.blob hb
  exact ⟨b, a, o, hb, hb', hd⟩

theorem canonical (hid : id.index < s.size) : s'.canonical id = s.canonical id := by
  obtain ⟨b, a, o, hb, hb', -⟩ := h.old hid
  rw [Store.canonical, Store.canonical, hb, hb']
  rfl

theorem padSizeOf (hid : id.index < s.size) : s'.padSizeOf id = s.padSizeOf id := by
  obtain ⟨b, a, o, hb, hb', -⟩ := h.old hid
  rw [Store.padSizeOf, Store.padSizeOf, hb, hb']
  rfl

theorem bytes (hc : s.Closed) (hid : id.index < s.size) : s'.bytes id = s.bytes id := by
  obtain ⟨b, _, hb, -⟩ := hc.canonical hid
  obtain ⟨a, o, hb', -⟩ := h.blob hb
  rw [Store.bytes, Store.bytes, h.canonical hid, hb, hb']
  rfl

theorem alignment? (id : BlobId) : Divides (s.alignment? id) (s'.alignment? id) := by
  by_cases hid : id.index < s.size
  · obtain ⟨b, a, o, hb, hb', hd⟩ := h.old hid
    rw [Store.alignment?, Store.alignment?, hb, hb']
    exact hd
  · have hnone : s.blob? id = none := Array.getElem?_eq_none_iff.2 (Nat.not_lt.1 hid)
    rw [Store.alignment?, hnone]
    exact Alignment.divides_none _

theorem named? {name : String} (hn : s.named? name = some id) : s'.named? name = some id := by
  refine named?_of_names (fun hb => ?_) hn
  obtain ⟨a, o, hb', -⟩ := h.blob hb
  exact ⟨_, hb', rfl⟩

theorem offset? {o : UInt32} (ho : s.offset? id = some o) : s'.offset? id = some o := by
  have hid : id.index < s.size := by
    by_contra hid
    have hnone : s.blob? id = none := Array.getElem?_eq_none_iff.2 (Nat.not_lt.1 hid)
    rw [Store.offset?, Store.canonical, hnone] at ho
    simp [hnone] at ho
  rw [Store.offset?] at ho ⊢
  rw [h.canonical hid]
  obtain ⟨b, hb, hbo⟩ := Option.bind_eq_some_iff.1 ho
  obtain ⟨a, o', hb', -, ho'⟩ := h.blob hb
  rw [hb', Option.bind_some, ho' o hbo]

end Keeps

theorem keeps_placedAt {t : BlobId} {o : UInt32} (hnone : (s.blob? t).bind Blob.offset = none) :
    Keeps s (s.placedAt t o) := by
  refine ⟨fun hc => Closed.congr hc (storage?_placedAt s t o), fun {j b} hb => ?_⟩
  rw [blob?_placedAt, hb]
  split_ifs with htj
  · rw [htj, hb, Option.bind_some] at hnone
    exact ⟨b.alignment, some o, rfl, .refl _, by simp [hnone]⟩
  · exact ⟨b.alignment, b.offset, rfl, .refl _, fun _ hx => hx⟩

/-- **A call keeps a store.** -/
theorem Outcome.keeps {answer : Except StoreError (Option BlobId)} (h : Outcome s c answer s') :
    Keeps s s' := by
  cases h with
  | refused | absent => exact .refl s
  | found hname hn ho hsh =>
    refine Widens.keeps (Widens.congr (widens_merged ho hsh) ?_)
    rfl
  | @shared bytes name a m t b hn hd hb hst hsize hm =>
    have h1 : Widens s (s.setAlignment t m) := widens_setAlignment (Alignment.divides_merge hm).1
    obtain ⟨a', hb', -⟩ := h1.blob hb
    have h2 := widens_push (s.setAlignment t m) (b := aliasBlob t b.padSize bytes name a) (by
      rintro _ ⟨⟩
      exact ⟨_, bytes, hb', hst⟩)
    refine Widens.keeps (Widens.congr (h1.trans h2) ?_)
    rfl
  | @stored bytes name a hash unique hn hd =>
    have h1 := widens_push s (b := s.ownBlob hash bytes name a) (by
      intro t ht
      cases ht)
    refine Widens.keeps (Widens.congr h1 ?_)
    rfl
  | placed hnone => exact keeps_placedAt hnone

/-- A new blob for the contents that a call takes in. -/
inductive Fresh (s : Store) : StoreCall → Blob → Prop
  /-- An alias of a canonical blob with the same contents. -/
  | shared {bytes : Bytes} {name : Option String} {a : Option UInt32} {t : BlobId} {u : Blob} :
    s.blob? t = some u → u.storage = .owned bytes → u.size.toNat = bytes.length →
    Fresh s (.intern bytes name a) (aliasBlob t u.padSize bytes name a)
  /-- A canonical blob. -/
  | stored {bytes : Bytes} {name : Option String} {a : Option UInt32} {hash : UInt32} :
    (s.dedup = true → hash = contentSum bytes ∧ s.findIdentical? hash bytes a = none) →
    Fresh s (.intern bytes name a) (s.ownBlob hash bytes name a)

/-- **A blob that is there after a call** was there before, or is the new one. -/
theorem Outcome.old_or_fresh {answer : Except StoreError (Option BlobId)}
    (h : Outcome s c answer s') {id : BlobId} {b : Blob} (hb : s'.blob? id = some b) :
    (∃ b₀ a o, s.blob? id = some b₀ ∧ b = { b₀ with alignment := a, offset := o }) ∨
      (id = ⟨s.size⟩ ∧ Fresh s c b) := by
  have old (hid : id.index < s.size) : ∃ b₀ a o, s.blob? id = some b₀ ∧
      b = { b₀ with alignment := a, offset := o } := by
    obtain ⟨b₀, a, o, hb₀, hsame, -⟩ := h.keeps.old hid
    exact ⟨b₀, a, o, hb₀, Option.some.inj (hb.symm.trans hsame)⟩
  have hlt := blob?_lt hb
  cases h with
  | refused | absent => exact Or.inl (old hlt)
  | found hname hn ho hsh => exact Or.inl (old (size_merged .. ▸ hlt))
  | placed hnone => exact Or.inl (old (size_placedAt .. ▸ hlt))
  | @shared bytes name a m t u hn hd hu hst hsize hm =>
    rw [size_withAlias] at hlt
    rcases Nat.lt_succ_iff_lt_or_eq.1 hlt with hid | hid
    · exact Or.inl (old hid)
    · rw [blob?_withAlias, if_pos hid, Option.some.injEq] at hb
      exact Or.inr ⟨congrArg BlobId.mk hid, hb ▸ .shared hu hst hsize⟩
  | @stored bytes name a hash unique hn hd =>
    rw [size_withOwn] at hlt
    rcases Nat.lt_succ_iff_lt_or_eq.1 hlt with hid | hid
    · exact Or.inl (old hid)
    · rw [blob?_withOwn, if_pos hid, Option.some.injEq] at hb
      exact Or.inr ⟨congrArg BlobId.mk hid, hb ▸ .stored hd⟩

theorem closed_empty (padSize : UInt32) (dedup : Bool) : (empty padSize dedup).Closed := by
  intro id b t hb
  simp [empty, blob?] at hb

end Store

end LevelBundle
