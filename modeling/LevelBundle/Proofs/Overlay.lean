/-
  LevelBundle — the memory of a loader, as one file.

  The regions of a loader hold one file, cut into chunks.  `Loader.overlaid a order bases f w`
  is the loader whose regions hold the file `f`, with the words `w` written over it;
  all words lie at multiples of four, so two of them never overlap.

  * `read_over`, `write_over`: reading and writing words by their offsets in the file.
  * `locate_over`, `address_over`: the positions of a packed file.
  * `recordName_over`: reading a name that no word was written over.
-/
import LevelBundle.Memory.Loader
import LevelBundle.Proofs.Encoding
import LevelBundle.Proofs.Rounding

namespace LevelBundle

/-- The words written over a file, by their offsets. -/
abbrev Patches := ℕ → Option UInt32

namespace ByteOrder

/-- A file with words written over it. -/
def overlay (order : ByteOrder) (f : ℕ → UInt8) (w : Patches) (k : ℕ) : UInt8 :=
  match w (k / 4 * 4) with
  | some word => (order.wordBytes word).getD (k % 4) 0
  | none => f k

/-- The word at an offset of a file. -/
def wordOf (order : ByteOrder) (f : ℕ → UInt8) (x : ℕ) : UInt32 :=
  order.word (f x) (f (x + 1)) (f (x + 2)) (f (x + 3))

variable {order : ByteOrder} {f : ℕ → UInt8} {w : Patches} {x : ℕ}

theorem overlay_of_none {k : ℕ} (h : w (k / 4 * 4) = none) : order.overlay f w k = f k := by
  rw [overlay, h]

theorem overlay_of_some {v : UInt32} {j : ℕ} (hx : 4 ∣ x) (hj : j < 4) (h : w x = some v) :
    order.overlay f w (x + j) = (order.wordBytes v).getD j 0 := by
  rw [overlay, show (x + j) / 4 * 4 = x by omega, h, show (x + j) % 4 = j by omega]

/-- **The word at an offset**: the last one written there, or that of the file. -/
theorem wordOf_overlay (hx : 4 ∣ x) :
    order.wordOf (order.overlay f w) x = (w x).getD (order.wordOf f x) := by
  cases h : w x with
  | none =>
    have key (j : ℕ) (hj : j < 4) : order.overlay f w (x + j) = f (x + j) :=
      overlay_of_none (by rw [show (x + j) / 4 * 4 = x by omega]; exact h)
    simp only [wordOf, Option.getD_none, key 1 (by omega), key 2 (by omega), key 3 (by omega),
      show order.overlay f w x = f x from key 0 (by omega)]
  | some v =>
    obtain ⟨b₀, b₁, b₂, b₃, hb, hv⟩ := wordBytes_eq order v
    have key (j : ℕ) (hj : j < 4) : order.overlay f w (x + j) = (order.wordBytes v).getD j 0 :=
      overlay_of_some hx hj h
    have h0 := key 0 (by omega); have h1 := key 1 (by omega)
    have h2 := key 2 (by omega); have h3 := key 3 (by omega)
    rw [hb] at h0 h1 h2 h3
    rw [Nat.add_zero] at h0
    rw [Option.getD_some, wordOf, h0, h1, h2, h3]
    exact hv

end ByteOrder

/-! ## Regions -/

/-- The chunk with an index of a file. -/
def chunkAt (f : ℕ → UInt8) (size index : ℕ) : Array UInt8 :=
  Array.ofFn fun j : Fin size => f (index * size + j)

@[simp] theorem size_chunkAt (f : ℕ → UInt8) (size index : ℕ) :
    (chunkAt f size index).size = size := Array.size_ofFn

theorem getElem?_chunkAt {f : ℕ → UInt8} {size index j : ℕ} (hj : j < size) :
    (chunkAt f size index)[j]? = some (f (index * size + j)) := by
  rw [Array.getElem?_eq_getElem (by simpa using hj)]
  simp [chunkAt]

theorem wordAt?_chunkAt (order : ByteOrder) (f : ℕ → UInt8) {size index offset : ℕ}
    (h : offset + 4 ≤ size) : order.wordAt? (chunkAt f size index) offset =
      some (order.wordOf f (index * size + offset)) := by
  rw [ByteOrder.wordAt?, dif_pos (by simpa using h)]
  simp only [chunkAt, Array.getElem_ofFn, ByteOrder.wordOf, Nat.add_assoc]

theorem div_of_word {size k : ℕ} (hs : 4 ∣ size) : k / 4 * 4 / size = k / size := by
  obtain ⟨m, rfl⟩ := hs
  rw [← Nat.div_div_eq_div_mul, ← Nat.div_div_eq_div_mul, Nat.mul_div_cancel _ (by omega)]

/-- Writing a word changes one chunk. -/
theorem chunkAt_update {order : ByteOrder} {f : ℕ → UInt8} {w : Patches} {size x : ℕ}
    (hs : 4 ∣ size) (hx : 4 ∣ x) (hin : x % size + 4 ≤ size) (v : UInt32) (index : ℕ) :
    chunkAt (order.overlay f (Function.update w x (some v))) size index =
      if index = x / size then
        order.setWordAt (chunkAt (order.overlay f w) size index) (x % size) v
      else chunkAt (order.overlay f w) size index := by
  have hd := Nat.div_add_mod' x size
  refine Array.ext_getElem? fun j => ?_
  rcases Nat.lt_or_ge j size with hj | hj
  swap
  · rw [Array.getElem?_eq_none (by simpa using hj), Array.getElem?_eq_none (by
      split_ifs <;> simpa using hj)]
  have hk : (index * size + j) / size = index := by
    rw [Nat.add_comm, Nat.add_mul_div_right _ _ (by omega), Nat.div_eq_of_lt hj, Nat.zero_add]
  rw [getElem?_chunkAt hj]
  by_cases hi : index = x / size
  · subst hi
    rw [if_pos rfl, ByteOrder.getElem?_setWordAt (by simpa using hin)]
    by_cases hw : x % size ≤ j ∧ j < x % size + 4
    · obtain ⟨n, rfl⟩ := Nat.exists_eq_add_of_le hw.1
      rw [if_pos hw, ← Nat.add_assoc, hd, ByteOrder.overlay_of_some hx (by omega)
        (Function.update_self ..), Nat.add_sub_cancel_left, List.getD_eq_getElem?_getD,
        List.getElem?_eq_getElem (by rw [ByteOrder.length_wordBytes]; omega), Option.getD_some]
    · have hne : (x / size * size + j) / 4 * 4 ≠ x := by omega
      rw [if_neg hw, getElem?_chunkAt hj, ByteOrder.overlay, Function.update_of_ne hne]
      rfl
  · have hne : (index * size + j) / 4 * 4 ≠ x := fun h => hi (by
      rw [← h, div_of_word hs, hk])
    rw [if_neg hi, getElem?_chunkAt hj, ByteOrder.overlay, Function.update_of_ne hne]
    rfl

/-- The regions that hold a file, each at its address. -/
def Memory.holding (bases : List UInt32) (size : ℕ) (f : ℕ → UInt8) : Memory :=
  (bases.zipIdx.map fun e => Region.mk e.1 (chunkAt f size e.2)).toArray

namespace Memory

variable {bases : List UInt32} {size : ℕ} {f : ℕ → UInt8} {i : ℕ}

@[simp] theorem size_holding : (holding bases size f).size = bases.length := by
  simp [holding]

theorem getElem?_holding :
    (holding bases size f)[i]? = bases[i]?.map fun base => ⟨base, chunkAt f size i⟩ := by
  simp [holding, List.getElem?_zipIdx, Function.comp_def]

theorem getD_holding (h : i < bases.length) :
    (holding bases size f).getD i default = ⟨bases.getD i 0, chunkAt f size i⟩ := by
  rw [Array.getD_eq_getD_getElem?, getElem?_holding, List.getD_eq_getElem?_getD,
    List.getElem?_eq_getElem h]
  rfl

theorem baseAt_holding : (holding bases size f).baseAt i = bases.getD i 0 := by
  rw [baseAt, Array.getD_eq_getD_getElem?, getElem?_holding, List.getD_eq_getElem?_getD]
  cases bases[i]? <;> rfl

theorem sizeAt_holding (h : i < bases.length) : (holding bases size f).sizeAt i = size := by
  rw [sizeAt, getD_holding h, size_chunkAt]

end Memory

/-! ## Loaders -/

/-- The loader whose regions hold a file with words written over it. -/
def Loader.overlaid (a : Addressing) (order : ByteOrder) (bases : List UInt32) (f : ℕ → UInt8)
    (w : Patches) : Loader :=
  { memory := .holding bases a.chunkSize.toNat (order.overlay f w), addressing := a, order }

/-- The address of the byte at an offset of the file. -/
def addressOf (a : Addressing) (bases : List UInt32) (o : UInt32) : UInt32 :=
  bases.getD (o.toNat / a.chunkSize.toNat) 0 + o % a.chunkSize

/-- What makes the address of a chunk one that a loader accepts. -/
structure Usable (a : Addressing) (base : UInt32) : Prop where
  pos : 0 < base.toNat
  words : 4 ∣ base.toNat
  stop_le : base.toNat + a.chunkSize.toNat ≤ 2 ^ 32

theorem Usable.getD {a : Addressing} {bases : List UInt32} (hu : ∀ base ∈ bases, Usable a base)
    {i : ℕ} (hi : i < bases.length) : Usable a (bases.getD i 0) := by
  rw [List.getD_eq_getElem?_getD, List.getElem?_eq_getElem hi]
  exact hu _ (List.getElem_mem hi)

namespace Loader

variable {a : Addressing} {order : ByteOrder} {bases : List UInt32} {f : ℕ → UInt8} {w : Patches}
  {x : ℕ}

theorem word_in_chunk (a : Addressing) (hx : 4 ∣ x) :
    x % a.chunkSize.toNat + 4 ≤ a.chunkSize.toNat := by
  obtain ⟨h16, -, h4⟩ := a.words
  have hlt := Nat.mod_lt x (show 0 < a.chunkSize.toNat by omega)
  have hm := (Nat.dvd_mod_iff h4).2 hx
  omega

/-- **Reading a word.** -/
theorem read_over (hx : 4 ∣ x) (hb : x / a.chunkSize.toNat < bases.length) :
    (overlaid a order bases f w).read (x / a.chunkSize.toNat) (x % a.chunkSize.toNat) =
      .ok ((w x).getD (order.wordOf f x)) := by
  have hword : (overlaid a order bases f w).memory.word? order (x / a.chunkSize.toNat)
      (x % a.chunkSize.toNat) = some ((w x).getD (order.wordOf f x)) := by
    rw [overlaid, Memory.word?, Memory.getD_holding hb, wordAt?_chunkAt _ _ (word_in_chunk a hx),
      Nat.div_add_mod', ByteOrder.wordOf_overlay hx]
  rw [read]
  show (match (overlaid a order bases f w).memory.word? order _ _ with
    | some word => _ | none => _) = _
  rw [hword]

/-- **Writing a word.** -/
theorem write_over (hx : 4 ∣ x) (hb : x / a.chunkSize.toNat < bases.length) (v : UInt32) :
    (overlaid a order bases f w).write (x / a.chunkSize.toNat) (x % a.chunkSize.toNat) v =
      .ok (overlaid a order bases f (Function.update w x (some v))) := by
  have hin := word_in_chunk a hx
  have hsize : (overlaid a order bases f w).memory.sizeAt (x / a.chunkSize.toNat) =
      a.chunkSize.toNat := Memory.sizeAt_holding hb
  rw [write, if_pos (by rw [hsize]; exact hin)]
  suffices h : (overlaid a order bases f w).memory.setWord order (x / a.chunkSize.toNat)
      (x % a.chunkSize.toNat) v =
      (overlaid a order bases f (Function.update w x (some v))).memory by
    rw [overlaid, overlaid] at *
    exact congrArg (fun m => Except.ok (Loader.mk m a order)) h
  refine Array.ext_getElem? fun i => ?_
  rw [Memory.setWord, Array.getElem?_modify, overlaid, overlaid, Memory.getElem?_holding,
    Memory.getElem?_holding]
  simp only [chunkAt_update a.words.2.2 hx hin v i]
  by_cases hi : x / a.chunkSize.toNat = i
  · rw [if_pos hi, Option.map_map]
    simp only [if_pos hi.symm]
    rfl
  · rw [if_neg hi]
    simp only [if_neg (Ne.symm hi)]

variable {o flags : UInt32}

/-- **The place that a position names.** -/
theorem locate_over (h : a.Reaches o) (hf : flags.toNat < 4)
    (hb : o.toNat / a.chunkSize.toNat < bases.length) :
    (overlaid a order bases f w).locate (a.positionAt o flags) =
      .ok (o.toNat / a.chunkSize.toNat, o.toNat % a.chunkSize.toNat) := by
  have hpos := a.words.1
  have hlt := Nat.mod_lt o.toNat (show 0 < a.chunkSize.toNat by omega)
  have hblock : ((overlaid a order bases f w).addressing.block (a.positionAt o flags)).toNat =
    o.toNat / a.chunkSize.toNat := Addressing.block_positionAt h hf
  have hoffset : ((overlaid a order bases f w).addressing.offset (a.positionAt o flags)).toNat =
    o.toNat % a.chunkSize.toNat := Addressing.offset_positionAt h hf
  have hsize : (overlaid a order bases f w).memory.size = bases.length := Memory.size_holding
  have hsizeAt : (overlaid a order bases f w).memory.sizeAt (o.toNat / a.chunkSize.toNat) =
    a.chunkSize.toNat := Memory.sizeAt_holding hb
  simp only [locate, hblock, hoffset, hsize, hsizeAt]
  rw [if_neg (by omega), if_neg (by omega)]

theorem toNat_addressOf (h : Usable a (bases.getD (o.toNat / a.chunkSize.toNat) 0)) :
    (addressOf a bases o).toNat =
      (bases.getD (o.toNat / a.chunkSize.toNat) 0).toNat + o.toNat % a.chunkSize.toNat := by
  have hlt := Nat.mod_lt o.toNat (show 0 < a.chunkSize.toNat by have := a.words.1; omega)
  have := h.stop_le
  rw [addressOf, UInt32.toNat_add, UInt32.toNat_mod, Nat.mod_eq_of_lt (by omega)]

/-- **The address that a position stands for.** -/
theorem address_over (h : a.Reaches o) (hf : flags.toNat < 4)
    (hb : o.toNat / a.chunkSize.toNat < bases.length)
    (hu : Usable a (bases.getD (o.toNat / a.chunkSize.toNat) 0)) :
    (overlaid a order bases f w).address (a.positionAt o flags) = .ok (addressOf a bases o) := by
  have hsum := toNat_addressOf hu
  have hlt := Nat.mod_lt o.toNat (show 0 < a.chunkSize.toNat by have := a.words.1; omega)
  have hstop := hu.stop_le
  have hbase : (overlaid a order bases f w).memory.baseAt (o.toNat / a.chunkSize.toNat) =
    bases.getD (o.toNat / a.chunkSize.toNat) 0 := Memory.baseAt_holding
  rw [address, locate_over h hf hb]
  show (if (Memory.baseAt _ _).toNat + _ < 4294967296 then _ else _) = _
  rw [hbase, if_pos (by omega)]
  refine congrArg Except.ok (UInt32.toNat_inj.1 ?_)
  rw [toNat_toUInt32 (by omega), hsum]

theorem addressOf_even (h : a.Reaches o)
    (hu : Usable a (bases.getD (o.toNat / a.chunkSize.toNat) 0)) :
    (addressOf a bases o).toNat ≠ 0 ∧ (addressOf a bases o).toNat % 2 = 0 := by
  have hsum := toNat_addressOf hu
  have hm := (Nat.dvd_mod_iff a.words.2.2).2 h.words
  have hpos := hu.pos; have hwords := hu.words
  omega

/-- **A name** is read up to its zero byte. -/
theorem recordName_over {name : String} {bytes : Bytes} {record : Position}
    (hb : x / a.chunkSize.toNat < bases.length) (hd : Utf8.decode? bytes = some name)
    (hne : ∀ b ∈ bytes, b ≠ 0) (hin : x % a.chunkSize.toNat + bytes.length < a.chunkSize.toNat)
    (hbytes : ∀ j (h : j < bytes.length), order.overlay f w (x + j) = bytes[j])
    (hzero : order.overlay f w (x + bytes.length) = 0) :
    (overlaid a order bases f w).recordName (x / a.chunkSize.toNat) (x % a.chunkSize.toNat) record =
      .ok name := by
  have hdiv := Nat.div_add_mod' x a.chunkSize.toNat
  let chunk := chunkAt (order.overlay f w) a.chunkSize.toNat (x / a.chunkSize.toNat)
  have hget (j : ℕ) (hj : x % a.chunkSize.toNat + j < a.chunkSize.toNat) :
      (chunk.toList.drop (x % a.chunkSize.toNat))[j]? = some (order.overlay f w (x + j)) := by
    rw [List.getElem?_drop, Array.getElem?_toList, getElem?_chunkAt hj, ← Nat.add_assoc, hdiv]
  have hlen : (chunk.toList.drop (x % a.chunkSize.toNat)).length =
      a.chunkSize.toNat - x % a.chunkSize.toNat := by
    rw [List.length_drop, Array.length_toList, size_chunkAt]
  obtain ⟨rest, htail⟩ : ∃ rest, chunk.toList.drop (x % a.chunkSize.toNat) = bytes ++ 0 :: rest := by
    refine ⟨(chunk.toList.drop (x % a.chunkSize.toNat)).drop (bytes.length + 1), ?_⟩
    refine List.ext_getElem? fun j => ?_
    rcases Nat.lt_trichotomy j bytes.length with hj | rfl | hj
    · rw [List.getElem?_append_left hj, hget j (by omega), hbytes j hj,
        List.getElem?_eq_getElem hj]
    · rw [List.getElem?_append_right (Nat.le_refl _), hget _ hin, hzero, Nat.sub_self]
      rfl
    · obtain ⟨m, rfl⟩ := Nat.exists_eq_add_of_lt hj
      rw [List.getElem?_append_right (by omega), show bytes.length + m + 1 - bytes.length = m + 1
        by omega, List.getElem?_cons_succ]
      conv_rhs => rw [List.getElem?_drop]
      congr 1
      omega
  have hname : (chunk.toList.drop (x % a.chunkSize.toNat)).takeWhile (· ≠ 0) = bytes := by
    rw [htail, List.takeWhile_append_of_pos fun b hb => by simpa using hne b hb,
      List.takeWhile_cons_of_neg (by simp), List.append_nil]
  have hregion : (overlaid a order bases f w).memory.getD (x / a.chunkSize.toNat) default =
      ⟨bases.getD (x / a.chunkSize.toNat) 0, chunk⟩ := Memory.getD_holding hb
  simp only [recordName, hregion, hname, hlen, hd]
  rw [if_neg (by omega)]

end Loader

end LevelBundle
