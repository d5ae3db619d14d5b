/-
  LevelBundle — reading and writing any memory.

  * `Memory.getD_setWord`: writing a word changes the bytes of one region.
  * `read_write_self`, `read_write_of_ne`: a word that is read after another was written;
    words at multiples of four are the same or apart.
  * `locate_eq_ok`, `address_eq_ok`, `chunkEntries_eq_ok`, `ofMemory_eq_ok`: when each of
    these succeeds, and what it answers.
  * `runs_ask`, `runs_change`, `runs_askHost`: the three ways in which a call touches its
    loader and its host.
-/
import LevelBundle.Memory.Loader
import LevelBundle.Proofs.Encoding
import LevelBundle.Proofs.Rounding
import LevelBundle.Proofs.Steps

namespace LevelBundle

variable {σ : Type}

namespace Memory

variable {m : Memory} {order : ByteOrder} {block offset i : ℕ} {v : UInt32}

theorem lt_size_of_lt_sizeAt (h : offset < m.sizeAt block) : block < m.size := by
  by_contra hge
  rw [sizeAt, Array.getD_eq_getD_getElem?, Array.getElem?_eq_none (Nat.not_lt.1 hge)] at h
  exact absurd h (Nat.not_lt_zero _)

@[simp] theorem size_setWord : (m.setWord order block offset v).size = m.size :=
  Array.size_modify

/-- **What writing a word changes**: the bytes of one region. -/
theorem getD_setWord (h : offset + 4 ≤ m.sizeAt block) (i : ℕ) :
    (m.setWord order block offset v).getD i default =
      if block = i then
        ⟨m.baseAt i, order.setWordAt (m.getD i default).bytes offset v⟩
      else m.getD i default := by
  have hlt : block < m.size := lt_size_of_lt_sizeAt (show offset < m.sizeAt block by omega)
  rw [setWord, Array.getD_eq_getD_getElem?, Array.getElem?_modify]
  split_ifs with hi
  · subst hi
    rw [Array.getElem?_eq_getElem hlt, baseAt, Array.getD_eq_getD_getElem?,
      Array.getElem?_eq_getElem hlt]
    rfl
  · rw [Array.getD_eq_getD_getElem?]

theorem baseAt_setWord (h : offset + 4 ≤ m.sizeAt block) :
    (m.setWord order block offset v).baseAt i = m.baseAt i := by
  rw [baseAt, getD_setWord h]
  split_ifs <;> rfl

theorem sizeAt_setWord (h : offset + 4 ≤ m.sizeAt block) :
    (m.setWord order block offset v).sizeAt i = m.sizeAt i := by
  rw [sizeAt, getD_setWord h]
  split_ifs
  · exact ByteOrder.size_setWordAt
  · rfl

end Memory

namespace Loader

/-! ## Words -/

section

variable {l l' : Loader} {block offset block' offset' : ℕ} {v w : UInt32}

theorem read_eq_ok : l.read block offset = .ok w ↔ l.memory.word? l.order block offset = some w := by
  unfold read
  cases l.memory.word? l.order block offset <;> simp

theorem le_sizeAt_of_read (h : l.read block offset = .ok w) : offset + 4 ≤ l.memory.sizeAt block := by
  rw [read_eq_ok, Memory.word?, ByteOrder.wordAt?] at h
  split_ifs at h with hle
  exact hle

theorem write_eq_ok : l.write block offset v = .ok l' ↔ offset + 4 ≤ l.memory.sizeAt block ∧
    l' = { l with memory := l.memory.setWord l.order block offset v } := by
  unfold write
  split_ifs with h
  · simp only [h, Except.ok.injEq, true_and, eq_comm]
  · simp only [h, false_and]

/-- **The word that was written** is read back. -/
theorem read_write_self (h : l.write block offset v = .ok l') : l'.read block offset = .ok v := by
  obtain ⟨hle, rfl⟩ := write_eq_ok.1 h
  rw [read_eq_ok, Memory.word?, Memory.getD_setWord hle, if_pos rfl]
  exact ByteOrder.wordAt?_setWordAt hle

/-- **Another word** is what it was. -/
theorem read_write_of_ne (h : l.write block offset v = .ok l') (h4 : 4 ∣ offset)
    (h4' : 4 ∣ offset') (hne : ¬ (block' = block ∧ offset' = offset)) :
    l'.read block' offset' = .ok w ↔ l.read block' offset' = .ok w := by
  obtain ⟨hle, rfl⟩ := write_eq_ok.1 h
  rw [read_eq_ok, read_eq_ok, Memory.word?, Memory.getD_setWord hle]
  split_ifs with hb
  · subst hb
    have hapart : offset' + 4 ≤ offset ∨ offset + 4 ≤ offset' := by omega
    rw [ByteOrder.wordAt?_setWordAt_of_disjoint hapart, Memory.word?]
  · rw [Memory.word?]

end

/-! ## Places -/

section

variable {l : Loader} {p : Position} {block offset n : ℕ} {v : UInt32}

/-- **The place that a position names**, if the memory holds it. -/
theorem locate_eq_ok : l.locate p = .ok (block, offset) ↔
    block = (l.addressing.block p).toNat ∧ offset = (l.addressing.offset p).toNat ∧
      block < l.memory.size ∧ offset < l.memory.sizeAt block := by
  simp only [locate]
  constructor
  · intro h
    split_ifs at h with hb ho
    cases h
    exact ⟨rfl, rfl, Nat.not_le.1 hb, Nat.not_le.1 ho⟩
  · rintro ⟨rfl, rfl, hb, ho⟩
    rw [if_neg (Nat.not_le.2 hb), if_neg (Nat.not_le.2 ho)]

theorem four_dvd_of_locate (h : l.locate p = .ok (block, offset)) : 4 ∣ offset := by
  obtain ⟨-, rfl, -⟩ := locate_eq_ok.1 h
  rw [Addressing.offset, Position.flagMask, toNat_and_not_three]
  exact ⟨_, Nat.mul_comm _ _⟩

/-- Each region lies at an address that a loader accepts. -/
def Usable (l : Loader) : Prop :=
  ∀ i < l.memory.size, 0 < (l.memory.baseAt i).toNat ∧ 4 ∣ (l.memory.baseAt i).toNat ∧
    (l.memory.baseAt i).toNat + l.memory.sizeAt i ≤ 2 ^ 32

/-- **The address of a place** is the sum of the region's and the offset. -/
theorem address_eq_ok (hu : l.Usable) (h : l.address p = .ok v) :
    l.locate p = .ok ((l.addressing.block p).toNat, (l.addressing.offset p).toNat) ∧
      v.toNat = (l.memory.baseAt (l.addressing.block p).toNat).toNat +
        (l.addressing.offset p).toNat ∧ v ≠ 0 ∧ v.toNat % 2 = 0 := by
  rw [address, bind_eq_ok] at h
  obtain ⟨⟨block, offset⟩, hl, h⟩ := h
  have h4 := four_dvd_of_locate hl
  obtain ⟨rfl, rfl, hb, ho⟩ := locate_eq_ok.1 hl
  obtain ⟨hpos, hwords, -⟩ := hu _ hb
  simp only at h
  split_ifs at h with hlt
  · rw [pure_eq_ok] at h
    have hv : v.toNat = (l.memory.baseAt (l.addressing.block p).toNat).toNat +
        (l.addressing.offset p).toNat := by rw [← h, toNat_toUInt32 hlt]
    refine ⟨hl, hv, fun h0 => ?_, by omega⟩
    rw [h0, UInt32.toNat_zero] at hv
    omega

/-- The entries of a chunk table, from one on. -/
theorem countEntries_eq_ok {index left : ℕ} : l.countEntries index left = .ok n ↔
    index ≤ n ∧ n < index + left ∧ l.read 0 (4 * n) = .ok 0 ∧
      ∀ i, index ≤ i → i < n → ∃ w, l.read 0 (4 * i) = .ok w ∧ w ≠ 0 := by
  induction left generalizing index with
  | zero => exact ⟨nofun, fun h => by omega⟩
  | succ left ih =>
    rw [countEntries, bind_eq_ok]
    constructor
    · rintro ⟨w, hw, h⟩
      split_ifs at h with h0
      · rw [pure_eq_ok] at h
        subst h
        exact ⟨Nat.le_refl _, by omega, by rw [hw, h0], fun i h1 h2 => by omega⟩
      · obtain ⟨hle, hlt, hend, hall⟩ := ih.1 h
        refine ⟨by omega, by omega, hend, fun i h1 h2 => ?_⟩
        rcases Nat.eq_or_lt_of_le h1 with rfl | h1
        · exact ⟨w, hw, h0⟩
        · exact hall i h1 h2
    · rintro ⟨hle, hlt, hend, hall⟩
      rcases Nat.eq_or_lt_of_le hle with rfl | hlt'
      · exact ⟨0, hend, by rw [if_pos rfl]; rfl⟩
      · obtain ⟨w, hw, h0⟩ := hall index (Nat.le_refl _) hlt'
        refine ⟨w, hw, ?_⟩
        rw [if_neg h0]
        exact ih.2 ⟨hlt', by omega, hend, fun i h1 h2 => hall i (by omega) h2⟩

/-- **The chunk table** of a memory: words that are not null, up to one that is. -/
theorem chunkEntries_eq_ok : l.chunkEntries = .ok n ↔
    l.read 0 (4 * n) = .ok 0 ∧ ∀ i < n, ∃ w, l.read 0 (4 * i) = .ok w ∧ w ≠ 0 := by
  rw [chunkEntries, countEntries_eq_ok]
  constructor
  · rintro ⟨-, -, hend, hall⟩
    exact ⟨hend, fun i hi => hall i (Nat.zero_le _) hi⟩
  · rintro ⟨hend, hall⟩
    have := le_sizeAt_of_read hend
    exact ⟨Nat.zero_le _, by omega, hend, fun i _ hi => hall i hi⟩

/-- **A loader that is accepted** has some regions, at addresses that it accepts. -/
theorem ofMemory_eq_ok {memory : Memory} {chunkSize : UInt32} {order : ByteOrder}
    (h : ofMemory memory chunkSize order = .ok l) :
    l.memory = memory ∧ l.order = order ∧ l.addressing.chunkSize = chunkSize ∧ l.Usable := by
  rw [ofMemory, bind_eq_ok] at h
  obtain ⟨a, ha, h⟩ := h
  rw [mapError_eq_ok] at ha
  rw [check_eq_ok] at h
  obtain ⟨-, h⟩ := h
  split at h
  · cases h
  rename_i hnone
  rw [pure_eq_ok] at h
  subst h
  refine ⟨rfl, rfl, Addressing.ofChunkSize_eq_ok ha, fun i hi => ?_⟩
  have hmem : (memory[i], i) ∈ memory.toList.zipIdx := by
    rw [List.mem_zipIdx_iff_getElem?, Array.getElem?_toList]
    exact Array.getElem?_eq_getElem hi
  have hgetD : memory.getD i default = memory[i] := by
    rw [Array.getD_eq_getD_getElem?, Array.getElem?_eq_getElem hi, Option.getD_some]
  have husable := List.find?_eq_none.1 hnone _ hmem
  simp only [Bool.not_eq_true', Bool.not_eq_false, Region.usable, Bool.and_eq_true, bne_iff_ne,
    ne_eq, beq_iff_eq, decide_eq_true_eq] at husable
  obtain ⟨⟨h0, h4⟩, hle⟩ := husable
  simp only [Memory.baseAt, Memory.sizeAt, hgetD]
  exact ⟨Nat.pos_of_ne_zero fun h => h0 (UInt32.toNat_inj.1 h), dvd_of_mod_eq_zero h4, hle⟩

end

/-! ## Steps -/

section

variable {s t : Hosted σ} {α : Type} {v : α}

theorem runs_ask {question : Loader → Except LoadError α} :
    Runs (ask question) s v t ↔ question s.loader = .ok v ∧ s = t := by
  simp only [ask, runs_bind, runs_get]
  constructor
  · rintro ⟨_, _, ⟨rfl, rfl⟩, h⟩
    split at h
    · rename_i hq
      obtain ⟨rfl, rfl⟩ := runs_pure.1 h
      exact ⟨hq, rfl⟩
    · exact absurd h runs_throw
  · rintro ⟨hq, rfl⟩
    refine ⟨s, s, ⟨rfl, rfl⟩, ?_⟩
    rw [hq]
    exact runs_pure.2 ⟨rfl, rfl⟩

theorem runs_change {act : Loader → Except LoadError Loader} {u : Unit} :
    Runs (change act) s u t ↔ ∃ l, act s.loader = .ok l ∧ t = ⟨l, s.host⟩ := by
  simp only [change, runs_bind, runs_get]
  constructor
  · rintro ⟨_, _, ⟨rfl, rfl⟩, h⟩
    split at h
    · rename_i l hl
      exact ⟨l, hl, (runs_set.1 h).symm⟩
    · exact absurd h runs_throw
  · rintro ⟨l, hl, rfl⟩
    refine ⟨s, s, ⟨rfl, rfl⟩, ?_⟩
    rw [hl]
    exact runs_set.2 rfl

theorem runs_askHost {host : FileHost σ} {name : String} {a : UInt32} :
    Runs (askHost host name) s a t ↔
      ∃ h, (host name).run s.host = (.ok a, h) ∧ t = ⟨s.loader, h⟩ := by
  simp only [askHost, runs_bind, runs_get]
  constructor
  · rintro ⟨_, _, ⟨rfl, rfl⟩, h⟩
    rcases hr : (host name).run s.host with ⟨_ | b, h'⟩
    all_goals
      rw [hr] at h
      obtain ⟨_, _, hset, h⟩ := runs_bind.1 h
      obtain rfl := runs_set.1 hset
    · exact absurd h runs_throw
    · obtain ⟨rfl, rfl⟩ := runs_pure.1 h
      exact ⟨h', rfl, rfl⟩
  · rintro ⟨h, hr, rfl⟩
    refine ⟨s, s, ⟨rfl, rfl⟩, ?_⟩
    rw [hr]
    exact runs_bind.2 ⟨⟨⟩, _, runs_set.2 rfl, runs_pure.2 ⟨rfl, rfl⟩⟩

end

end Loader

end LevelBundle
