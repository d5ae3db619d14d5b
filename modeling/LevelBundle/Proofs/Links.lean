/-
  LevelBundle — the references of a bundle in memory.

  * `Fronted`: the words in front of a file, as a loader relies on them.
  * `Linked`: what it relies on in a file with a fixup table: the words in front, the table,
    the slots with their positions, and the records with their names.
  * `Stage`: how far resolving has come: the chunk table is filled up to an entry, some
    records hold an address, the slots of some references hold theirs, and the start
    word may.
  * `Stage.patches`: the words written by then.  The lemmas say what each place holds
    and how each of the four kinds of writing moves the stage on.
-/
import LevelBundle.Proofs.Overlay
import Mathlib.Data.List.Nodup

namespace LevelBundle

/-- A reference of a bundle: the slot it lies in, and the place it refers to. -/
structure Link where
  /-- The offset of the slot. -/
  slot : UInt32
  /-- The offset of what it refers to. -/
  target : UInt32
  /-- Whether that is the record of a file loaded on demand. -/
  runtime : Bool
  deriving DecidableEq

/-- The flags of the position in the slot. -/
def Link.flags (l : Link) : UInt32 :=
  if l.runtime then Position.unresolvedFlag ||| Position.runtimeFlag else Position.unresolvedFlag

/-- The places that resolving writes to, besides the words in front: the slots and the
    records of files loaded on demand. -/
def Written (links : List Link) (x : ℕ) : Prop :=
  ∃ l ∈ links, x = l.slot.toNat ∨ l.runtime = true ∧ x = l.target.toNat

/-- A place with a position, in a file with this many chunks. -/
structure Inside (a : Addressing) (chunks : ℕ) (o : UInt32) : Prop where
  reaches : a.Reaches o
  block_lt : o.toNat / a.chunkSize.toNat < chunks

/-- A record of a file loaded on demand that has not been loaded: a zero word, then the
    name and a zero byte, where nothing else is written. -/
structure Recorded (a : Addressing) (order : ByteOrder) (f : ℕ → UInt8) (links : List Link)
    (record : UInt32) (name : String) (bytes : Bytes) : Prop where
  word : order.wordOf f record.toNat = 0
  decode : Utf8.decode? bytes = some name
  nonzero : ∀ b ∈ bytes, b ≠ 0
  inside : record.toNat % a.chunkSize.toNat + 4 + bytes.length < a.chunkSize.toNat
  name_bytes : ∀ j (h : j < bytes.length), f (record.toNat + 4 + j) = bytes[j]
  name_end : f (record.toNat + 4 + bytes.length) = 0
  free : ∀ j ≤ bytes.length, ¬ Written links ((record.toNat + 4 + j) / 4 * 4)

/-- The words in front of a file with `count` entries in its chunk table, as a loader relies on
    them: slots and records lie behind them. -/
structure Fronted (a : Addressing) (order : ByteOrder) (f : ℕ → UInt8) (chunks count : ℕ)
    (root : UInt32) (links : List Link) : Prop where
  count_le : count ≤ chunks
  header_le : 4 * (count + 3) ≤ a.chunkSize.toNat
  filler : ∀ i < count, order.wordOf f (4 * i) = chunkFiller
  filler_end : order.wordOf f (4 * count) = 0
  start : order.wordOf f (4 * (count + 1)) =
    (a.positionAt root Position.unresolvedFlag).word
  root_inside : Inside a chunks root
  header_le_written : ∀ x, Written links x → 4 * (count + 3) ≤ x

/-- What a loader relies on in a file with a fixup table. -/
structure Linked (a : Addressing) (order : ByteOrder) (f : ℕ → UInt8) (chunks count : ℕ)
    (root table : UInt32) (links : List Link) (name : UInt32 → String) : Prop
    extends Fronted a order f chunks count root links where
  table_word : order.wordOf f (4 * (count + 2)) =
    (a.positionAt table Position.unresolvedFlag).word
  table_inside : Inside a chunks table
  header_le_table : 4 * (count + 3) ≤ table.toNat
  table_le : table.toNat % a.chunkSize.toNat + 4 * (links.length + 1) ≤ a.chunkSize.toNat
  row : ∀ i (h : i < links.length), order.wordOf f (table.toNat + 4 * i) =
    (a.positionAt links[i].slot Position.unresolvedFlag).word
  row_end : order.wordOf f (table.toNat + 4 * links.length) = 0
  slot_inside : ∀ l ∈ links, Inside a chunks l.slot
  target_inside : ∀ l ∈ links, Inside a chunks l.target
  slot_word : ∀ l ∈ links, order.wordOf f l.slot.toNat = (a.positionAt l.target l.flags).word
  recorded : ∀ l ∈ links, l.runtime = true →
    ∃ bytes, Recorded a order f links l.target (name l.target) bytes
  nodup : (links.map Link.slot).Nodup
  apart : ∀ l ∈ links, ∀ l' ∈ links, l'.runtime = true → l.slot ≠ l'.target
  table_free : ∀ x, Written links x →
    x < table.toNat ∨ table.toNat + 4 * (links.length + 1) ≤ x

/-- How far resolving has come. -/
structure Stage where
  /-- The number of entries of the chunk table that hold addresses. -/
  filled : ℕ := 0
  /-- The records that hold an address, and which. -/
  answers : List (UInt32 × UInt32) := []
  /-- The references whose slots hold addresses. -/
  done : List Link := []
  /-- The address in the start word, if it holds one. -/
  root : Option UInt32 := none

/-- The address that the record at an offset holds. -/
def answerAt (answers : List (UInt32 × UInt32)) (x : ℕ) : Option UInt32 :=
  (answers.find? fun e => e.1.toNat == x).map Prod.snd

/-- The address that belongs into the slot of a reference. -/
def Link.value (a : Addressing) (bases : List UInt32) (answers : List (UInt32 × UInt32))
    (l : Link) : UInt32 :=
  if l.runtime then (answerAt answers l.target.toNat).getD 0 else addressOf a bases l.target

/-- The words written by then to slots and records. -/
def Stage.behind (a : Addressing) (bases : List UInt32) (st : Stage) (x : ℕ) : Option UInt32 :=
  match st.done.find? fun l => l.slot.toNat == x with
  | some l => some (l.value a bases st.answers)
  | none => answerAt st.answers x

/-- The words written by then. -/
def Stage.patches (a : Addressing) (bases : List UInt32) (count : ℕ) (st : Stage) : Patches :=
  fun x =>
    if x % 4 = 0 ∧ x < 4 * st.filled then some (bases.getD (x / 4) 0)
    else if x = 4 * (count + 1) then st.root
    else st.behind a bases x

/-- What is true of every stage. -/
structure Stage.Ok (links : List Link) (count : ℕ) (st : Stage) : Prop where
  filled_le : st.filled ≤ count
  done_prefix : ∃ rest, links = st.done ++ rest
  answered : ∀ e ∈ st.answers, ∃ l ∈ links, l.runtime = true ∧ l.target = e.1
  ready : ∀ l ∈ st.done, l.runtime = true → (answerAt st.answers l.target.toNat).isSome = true
  valid : ∀ e ∈ st.answers, e.2.toNat ≠ 0 ∧ e.2.toNat % 2 = 0

/-! ## Answers -/

theorem answerAt_append_of_some {answers more : List (UInt32 × UInt32)} {x : ℕ}
    (h : (answerAt answers x).isSome = true) : answerAt (answers ++ more) x = answerAt answers x := by
  unfold answerAt at h ⊢
  rw [Option.isSome_map] at h
  rw [List.find?_append, Option.or_of_isSome h]

theorem answerAt_append_of_none {answers more : List (UInt32 × UInt32)} {x : ℕ}
    (h : answerAt answers x = none) : answerAt (answers ++ more) x = answerAt more x := by
  unfold answerAt at h ⊢
  rw [Option.map_eq_none_iff] at h
  rw [List.find?_append, h, Option.none_or]

theorem answerAt_eq_some {answers : List (UInt32 × UInt32)} {x : ℕ} {v : UInt32}
    (h : answerAt answers x = some v) : ∃ e ∈ answers, e.1.toNat = x ∧ e.2 = v := by
  unfold answerAt at h
  obtain ⟨e, he, rfl⟩ := Option.map_eq_some_iff.1 h
  exact ⟨e, List.mem_of_find?_eq_some he, by simpa using List.find?_some he, rfl⟩

theorem answerAt_single (r v : UInt32) (x : ℕ) :
    answerAt [(r, v)] x = if x = r.toNat then some v else none := by
  unfold answerAt
  by_cases h : x = r.toNat
  · subst h; simp
  · have hne : ¬ r.toNat = x := fun h' => h h'.symm
    simp [h, hne]

/-! ## What each place holds -/

variable {a : Addressing} {order : ByteOrder} {f : ℕ → UInt8} {chunks count : ℕ}
  {root table : UInt32} {links : List Link} {name : UInt32 → String} {bases : List UInt32}
  {st : Stage}

/-- Nothing is written but to slots and records. -/
theorem behind_of_not_written (ho : st.Ok links count) {x : ℕ} (hx : ¬ Written links x) :
    st.behind a bases x = none := by
  unfold Stage.behind
  split
  · rename_i l hf
    obtain ⟨rest, hlinks⟩ := ho.done_prefix
    have hmem : l ∈ links := hlinks ▸ List.mem_append_left _ (List.mem_of_find?_eq_some hf)
    have hslot : l.slot.toNat = x := by simpa using List.find?_some hf
    exact absurd ⟨l, hmem, Or.inl hslot.symm⟩ hx
  · cases he : answerAt st.answers x with
    | none => rfl
    | some v =>
      obtain ⟨e, hm, hex, -⟩ := answerAt_eq_some he
      obtain ⟨l, hmem, hr, ht⟩ := ho.answered e hm
      exact absurd ⟨l, hmem, Or.inr ⟨hr, by rw [ht, hex]⟩⟩ hx

theorem patches_behind (ho : st.Ok links count) {x : ℕ} (hge : 4 * (count + 2) ≤ x) :
    st.patches a bases count x = st.behind a bases x := by
  have hfilled := ho.filled_le
  unfold Stage.patches
  rw [if_neg (by omega), if_neg (by omega)]

theorem Fronted.patches_front (hl : Fronted a order f chunks count root links)
    (ho : st.Ok links count) {i : ℕ} (hi : i < count + 3) (hne : i ≠ count + 1) :
    st.patches a bases count (4 * i) = if i < st.filled then some (bases.getD i 0) else none := by
  have hfree : ¬ Written links (4 * i) := fun h => by
    have := hl.header_le_written _ h
    omega
  unfold Stage.patches
  by_cases h : i < st.filled
  · rw [if_pos (by omega), if_pos h, Nat.mul_div_cancel_left _ (by omega)]
  · rw [if_neg (by omega), if_neg h, if_neg (by omega), behind_of_not_written ho hfree]

section

variable (hl : Linked a order f chunks count root table links name) (ho : st.Ok links count)
include hl ho

namespace Linked

theorem patches_row {i : ℕ} (hi : i ≤ links.length) :
    st.patches a bases count (table.toNat + 4 * i) = none := by
  have hle := hl.header_le_table
  rw [patches_behind ho (by omega)]
  refine behind_of_not_written ho fun h => ?_
  have := hl.table_free _ h
  omega

/-- A slot that has been written. -/
theorem patches_done {l : Link} (hm : l ∈ st.done) :
    st.patches a bases count l.slot.toNat = some (l.value a bases st.answers) := by
  obtain ⟨rest, hlinks⟩ := ho.done_prefix
  have hmem : l ∈ links := hlinks ▸ List.mem_append_left _ hm
  have hge := hl.header_le_written _ ⟨l, hmem, Or.inl rfl⟩
  rw [patches_behind ho (by omega), Stage.behind]
  have hnodup : (st.done.map Link.slot).Nodup := by
    have := hl.nodup
    rw [hlinks, List.map_append] at this
    exact (List.nodup_append.1 this).1
  have hfind : st.done.find? (fun l' => l'.slot.toNat == l.slot.toNat) = some l := by
    cases hf : st.done.find? (fun l' => l'.slot.toNat == l.slot.toNat) with
    | none => exact absurd (List.find?_eq_none.1 hf l hm) (by simp)
    | some l' =>
      have hslot : l'.slot.toNat = l.slot.toNat := by simpa using List.find?_some hf
      rw [List.inj_on_of_nodup_map hnodup (List.mem_of_find?_eq_some hf) hm
        (UInt32.toNat_inj.1 hslot)]
  rw [hfind]

omit ho in
theorem find?_todo {l : Link} {rest : List Link} (hlinks : links = st.done ++ l :: rest) :
    st.done.find? (fun l' => l'.slot.toNat == l.slot.toNat) = none := by
  refine List.find?_eq_none.2 fun l' hm he => ?_
  have hn := hl.nodup
  rw [hlinks, List.map_append, List.map_cons, List.nodup_append] at hn
  refine hn.2.2 _ (List.mem_map_of_mem hm) l.slot List.mem_cons_self ?_
  exact UInt32.toNat_inj.1 (by simpa using he)

/-- A slot that has not been written. -/
theorem patches_todo {l : Link} {rest : List Link} (hlinks : links = st.done ++ l :: rest) :
    st.patches a bases count l.slot.toNat = none := by
  have hmem : l ∈ links := by rw [hlinks]; simp
  have hge := hl.header_le_written _ ⟨l, hmem, Or.inl rfl⟩
  rw [patches_behind ho (by omega), Stage.behind, hl.find?_todo hlinks]
  cases he : answerAt st.answers l.slot.toNat with
  | none => rfl
  | some v =>
    obtain ⟨e, hm, hex, -⟩ := answerAt_eq_some he
    obtain ⟨l', hmem', hr, ht⟩ := ho.answered e hm
    exact absurd (UInt32.toNat_inj.1 (by rw [ht, hex])) (hl.apart l hmem l' hmem' hr)

theorem find?_record {l : Link} (hmem : l ∈ links) (hr : l.runtime = true) :
    st.done.find? (fun l' => l'.slot.toNat == l.target.toNat) = none := by
  obtain ⟨rest, hlinks⟩ := ho.done_prefix
  refine List.find?_eq_none.2 fun l' hm he => ?_
  refine hl.apart l' (hlinks ▸ List.mem_append_left _ hm) l hmem hr ?_
  exact UInt32.toNat_inj.1 (by simpa using he)

theorem patches_record {l : Link} (hmem : l ∈ links) (hr : l.runtime = true) :
    st.patches a bases count l.target.toNat = answerAt st.answers l.target.toNat := by
  have hge := hl.header_le_written _ ⟨l, hmem, Or.inr ⟨hr, rfl⟩⟩
  rw [patches_behind ho (by omega), Stage.behind, hl.find?_record ho hmem hr]

end Linked

end

theorem patches_start (ho : st.Ok links count) :
    st.patches a bases count (4 * (count + 1)) = st.root := by
  have hfilled := ho.filled_le
  unfold Stage.patches
  rw [if_neg (by omega), if_pos rfl]

/-! ## Moving on -/

/-- Writing an address into an entry of the chunk table. -/
theorem update_entry {i : ℕ} (hi : i ≤ st.filled) :
    Function.update (st.patches a bases count) (4 * i) (some (bases.getD i 0)) =
      { st with filled := max st.filled (i + 1) }.patches a bases count := by
  funext x
  by_cases hx : x = 4 * i
  · subst hx
    rw [Function.update_self, Stage.patches, if_pos (by simp only; omega),
      Nat.mul_div_cancel_left _ (by omega)]
  · rw [Function.update_of_ne hx]
    unfold Stage.patches
    have hiff : (x % 4 = 0 ∧ x < 4 * max st.filled (i + 1)) ↔ x % 4 = 0 ∧ x < 4 * st.filled := by
      omega
    simp only [hiff]
    rfl

theorem update_start (ho : st.Ok links count) (v : UInt32) :
    Function.update (st.patches a bases count) (4 * (count + 1)) (some v) =
      { st with root := some v }.patches a bases count := by
  have hfilled := ho.filled_le
  funext x
  by_cases hx : x = 4 * (count + 1)
  · subst hx
    rw [Function.update_self, Stage.patches, if_neg (by simp only; omega), if_pos rfl]
  · rw [Function.update_of_ne hx, Stage.patches, Stage.patches, if_neg hx, if_neg hx]
    rfl

theorem patches_congr {st' : Stage} (hf : st.filled = st'.filled) (hr : st.root = st'.root)
    {x : ℕ} (h : st.behind a bases x = st'.behind a bases x) :
    st.patches a bases count x = st'.patches a bases count x := by
  rw [Stage.patches, Stage.patches, hf, hr, h]

section

variable (hl : Linked a order f chunks count root table links name) (ho : st.Ok links count)
include hl ho

/-- Writing a slot. -/
theorem Linked.update_slot {l : Link} {rest : List Link} (hlinks : links = st.done ++ l :: rest) :
    Function.update (st.patches a bases count) l.slot.toNat
        (some (l.value a bases st.answers)) =
      { st with done := st.done ++ [l] }.patches a bases count := by
  have hmem : l ∈ links := by rw [hlinks]; simp
  have hge := hl.header_le_written _ ⟨l, hmem, Or.inl rfl⟩
  have hfilled := ho.filled_le
  funext x
  by_cases hx : x = l.slot.toNat
  · subst hx
    rw [Function.update_self, Stage.patches, if_neg (by simp only; omega),
      if_neg (by omega), Stage.behind, List.find?_append, hl.find?_todo hlinks, Option.none_or,
      List.find?_cons_of_pos (by simp)]
  · rw [Function.update_of_ne hx]
    refine patches_congr (by rfl) (by rfl) ?_
    rw [Stage.behind, Stage.behind, List.find?_append, List.find?_cons_of_neg (by
      simpa using fun h => hx h.symm), List.find?_nil, Option.or_none]

/-- Writing the first word of a record. -/
theorem Linked.update_record {l : Link} (hmem : l ∈ links) (hr : l.runtime = true)
    (hnone : answerAt st.answers l.target.toNat = none) (v : UInt32) :
    Function.update (st.patches a bases count) l.target.toNat (some v) =
      { st with answers := st.answers ++ [(l.target, v)] }.patches a bases count := by
  have hge := hl.header_le_written _ ⟨l, hmem, Or.inr ⟨hr, rfl⟩⟩
  have hfilled := ho.filled_le
  funext x
  by_cases hx : x = l.target.toNat
  · subst hx
    rw [Function.update_self, Stage.patches, if_neg (by simp only; omega),
      if_neg (by omega), Stage.behind]
    simp only
    rw [hl.find?_record ho hmem hr, answerAt_append_of_none hnone, answerAt_single, if_pos rfl]
  · rw [Function.update_of_ne hx]
    refine patches_congr (by rfl) (by rfl) ?_
    unfold Stage.behind
    cases hf : st.done.find? fun l => l.slot.toNat == x with
    | some l' =>
      simp only [Link.value]
      by_cases hr' : l'.runtime = true
      · rw [if_pos hr', if_pos hr', answerAt_append_of_some
          (ho.ready l' (List.mem_of_find?_eq_some hf) hr')]
      · rw [if_neg hr', if_neg hr']
    | none =>
      simp only
      cases he : answerAt st.answers x with
      | some v' => rw [answerAt_append_of_some (by rw [he]; rfl), he]
      | none => rw [answerAt_append_of_none he, answerAt_single, if_neg hx]

end

end LevelBundle
