/-
  LevelBundle — the chunks of a file in memory.

  * `fileOf bytes`: a file, with zeros behind it.
  * `Cursor.Faces`: a row of words comes next at a cursor; `Faces.countFillers`: the
    entries of a chunk table are counted.
  * `Image.ofBytes_row`: an image holds the chunks of the file, as many as the chunk table
    has entries and the file has bytes.
  * `Image.loader_of`, `Image.exists_loader`: a loader for an image is one over the file;
    it comes about exactly at addresses that can be used.
-/
import LevelBundle.Bundle.Report
import LevelBundle.Memory.Image
import LevelBundle.Proofs.Overlay
import LevelBundle.Proofs.Steps
import LevelBundle.Proofs.Writing

namespace LevelBundle

/-- The bytes of a file, and zeros behind them. -/
def fileOf (bytes : Bytes) (k : ℕ) : UInt8 := bytes.getD k 0

/-! ## Words of a file -/

namespace ByteOrder

variable {order : ByteOrder} {f : ℕ → UInt8} {x : ℕ} {w : UInt32}

theorem wordOf_eq (h : ∀ j < 4, some (f (x + j)) = (order.wordBytes w)[j]?) :
    order.wordOf f x = w := by
  obtain ⟨b₀, b₁, b₂, b₃, hb, hw⟩ := wordBytes_eq order w
  rw [hb] at h
  have h0 := h 0 (by omega); have h1 := h 1 (by omega)
  have h2 := h 2 (by omega); have h3 := h 3 (by omega)
  simp only [Nat.add_zero, List.getElem?_cons_zero, List.getElem?_cons_succ,
    Option.some.injEq] at h0 h1 h2 h3
  rw [wordOf, h0, h1, h2, h3, hw]

theorem wordAt?_eq_wordOf {data : Array UInt8} (h : x + 4 ≤ data.size) :
    order.wordAt? data x = some (order.wordOf (fileOf data.toList) x) := by
  have key (i : ℕ) (hi : i < data.size) : fileOf data.toList i = data[i] := by
    rw [fileOf, List.getD_eq_getElem?_getD, Array.getElem?_toList, Array.getElem?_eq_getElem hi,
      Option.getD_some]
  rw [wordAt?, dif_pos h, wordOf, key x (by omega), key (x + 1) (by omega),
    key (x + 2) (by omega), key (x + 3) (by omega)]

variable (order) in
/-- The words of a row that stands in a file. -/
theorem wordOf_row {l r : Bytes} {ws : List UInt32} {i : ℕ} (h : ws[i]? = some w) :
    order.wordOf (fileOf (l ++ order.rowBytes ws ++ r)) (l.length + 4 * i) = w := by
  have hi := (List.getElem?_eq_some_iff.1 h).1
  refine wordOf_eq fun j hj => ?_
  have hlen := order.length_rowBytes ws
  have hget := order.getElem?_rowBytes h hj
  have hin : 4 * i + j < (order.rowBytes ws).length := by omega
  rw [fileOf, List.getD_eq_getElem?_getD, List.append_assoc,
    List.getElem?_append_right (by omega), List.getElem?_append_left (by omega),
    show l.length + 4 * i + j - l.length = 4 * i + j by omega, hget]
  rw [List.getElem?_eq_getElem hin] at hget
  rw [← hget, Option.getD_some]

end ByteOrder

/-! ## Rows of words at a cursor -/

namespace Cursor

/-- The words `ws` come next at the cursor. -/
def Faces (c : Cursor) (ws : List UInt32) : Prop :=
  ∃ l r, c.data.toList = l ++ c.order.rowBytes ws ++ r ∧ c.pos = l.length

variable {c : Cursor} {w : UInt32} {ws ws' : List UInt32}

theorem Faces.left (h : c.Faces (ws ++ ws')) : c.Faces ws := by
  obtain ⟨l, r, hd, hp⟩ := h
  refine ⟨l, c.order.rowBytes ws' ++ r, ?_, hp⟩
  rw [hd, ByteOrder.rowBytes_append]
  simp only [List.append_assoc]

theorem Faces.drop (h : c.Faces (ws ++ ws')) : (c.seek (c.pos + 4 * ws.length)).Faces ws' := by
  obtain ⟨l, r, hd, hp⟩ := h
  refine ⟨l ++ c.order.rowBytes ws, r, ?_, ?_⟩
  · show c.data.toList = l ++ c.order.rowBytes ws ++ c.order.rowBytes ws' ++ r
    rw [hd, ByteOrder.rowBytes_append]
    simp only [List.append_assoc]
  · rw [List.length_append, ByteOrder.length_rowBytes, ← hp]
    rfl

/-- The first word of a row. -/
theorem Faces.peek? (h : c.Faces (w :: ws)) : c.peek? = some w := by
  obtain ⟨l, r, hd, hp⟩ := h
  have hlen := c.order.length_wordBytes w
  have hsize : c.pos + 4 ≤ c.data.size := by
    rw [← Array.length_toList, hd, hp]
    simp only [List.length_append, ByteOrder.rowBytes_cons, hlen]
    omega
  refine ByteOrder.wordAt?_eq_some hsize fun j hj => ?_
  rw [← Array.getElem?_toList, hd, hp, List.append_assoc, List.getElem?_append_right (by omega),
    Nat.add_sub_cancel_left, ByteOrder.rowBytes_cons, List.append_assoc,
    List.getElem?_append_left (by omega)]

theorem Faces.skipWord (h : c.Faces (w :: ws)) : c.skipWord.Faces ws :=
  @Faces.drop c [w] ws h

theorem Faces.readWord (h : c.Faces (w :: ws)) : c.readWord = .ok (w, c.skipWord) := by
  rw [Cursor.readWord, h.peek?]

theorem countFillers_eq (c : Cursor) (count : UInt32) :
    c.countFillers count = match c.peek? with
      | none => (.error .missingChunkTerminator, c)
      | some word =>
        if word = 0 then (.ok count, c.skipWord)
        else if word ≠ chunkFiller then (.error (.badChunkEntry count word), c.skipWord)
        else c.skipWord.countFillers (count + 1) := by
  rw [countFillers]
  split <;> rename_i h <;> rw [h]

/-- **A row of fillers** with a zero word behind it is counted. -/
theorem Faces.countFillers {n : ℕ} {count : UInt32}
    (h : c.Faces (List.replicate n chunkFiller ++ [0])) :
    c.countFillers count = (.ok (count + n.toUInt32), c.seek (c.pos + 4 * (n + 1))) := by
  induction n generalizing c count with
  | zero =>
    rw [countFillers_eq, h.peek?, show (0 : ℕ).toUInt32 = 0 from rfl, UInt32.add_zero]
    rfl
  | succ n ih =>
    rw [List.replicate_succ, List.cons_append] at h
    have hcount : count + 1 + n.toUInt32 = count + (n + 1).toUInt32 := by
      rw [UInt32.add_assoc]
      congr 1
      refine UInt32.toNat_inj.1 ?_
      simp [UInt32.toNat_add, Nat.add_comm]
    have hpos : c.pos + 4 + 4 * (n + 1) = c.pos + 4 * (n + 1 + 1) := by omega
    rw [countFillers_eq, h.peek?]
    simp only
    rw [if_neg (by decide), if_neg (by simp), ih h.skipWord, hcount, ← hpos]
    rfl

theorem chunkTable_of_row {data : Array UInt8} {order : ByteOrder} {listed : UInt32}
    (h : Faces { data, order } (List.replicate listed.toNat chunkFiller ++ [0])) :
    chunkTable { data, order } = (.ok listed, { data, order, pos := 4 * (listed.toNat + 1) }) := by
  have hcount : 0 + listed.toNat.toUInt32 = listed := by
    rw [UInt32.zero_add]; exact UInt32.ofNat_toNat
  refine Eq.trans h.countFillers ?_
  rw [hcount]
  simp only [seek, Nat.zero_add]

end Cursor

/-- Reading a fixup table, by the word that comes next. -/
theorem Report.readFixups_eq (a : Addressing) (table : ℕ) (c : Cursor) :
    readFixups a table c = match c.peek? with
      | none => .error (.missingFixupTerminator table)
      | some word =>
        if word = 0 then .ok ([], c.skipWord)
        else if Position.isUnresolved ⟨word⟩ then
          match readFixups a table c.skipWord with
          | .ok (entries, rest) => .ok (a.place ⟨word⟩ :: entries, rest)
          | .error e => .error e
        else .error (.notAPosition c.pos word) := by
  rw [readFixups]
  split
  · rename_i hnone
    rw [hnone]
  · rename_i w hw
    generalize c.peek? = word at hw ⊢
    subst hw
    rfl

/-! ## Images -/

namespace Image

/-- The chunk with an index is that of the file, and zeros behind it. -/
theorem chunkOf_eq (bytes : Array UInt8) (size index : ℕ) :
    chunkOf bytes size index = chunkAt (fileOf bytes.toList) size index := by
  have hlen : (bytes.extract (index * size) (index * size + size)).size =
      min (index * size + size) bytes.size - index * size := Array.size_extract
  have hsize : (chunkOf bytes size index).size = size := by
    simp only [chunkOf, Array.size_append, Array.size_replicate]
    omega
  refine Array.ext_getElem? fun j => ?_
  rcases Nat.lt_or_ge j size with hj | hj
  · rw [getElem?_chunkAt hj, chunkOf, fileOf, List.getD_eq_getElem?_getD, Array.getElem?_toList]
    rcases Nat.lt_or_ge (index * size + j) bytes.size with hin | hout
    · rw [Array.getElem?_append_left (by omega), Array.getElem?_extract, if_pos (by omega),
        Array.getElem?_eq_getElem hin, Option.getD_some]
    · rw [Array.getElem?_append_right (by omega), Array.getElem?_replicate, if_pos (by omega),
        Array.getElem?_eq_none hout, Option.getD_none]
  · rw [Array.getElem?_eq_none (by rw [hsize]; exact hj),
      Array.getElem?_eq_none (by rw [size_chunkAt]; exact hj)]

/-- The number of chunks of a file, with this many entries in its chunk table. -/
def chunksOf (size length listed : ℕ) : ℕ := max listed ((length + size - 1) / size)

theorem le_chunksOf (size length listed : ℕ) : listed ≤ chunksOf size length listed :=
  Nat.le_max_left ..

theorem div_lt_chunksOf {size length listed x : ℕ} (hs : 0 < size) (hx : x < length) :
    x / size < chunksOf size length listed := by
  refine Nat.lt_of_lt_of_le ?_ (Nat.le_max_right ..)
  rw [Nat.lt_iff_add_one_le, ← Nat.add_div_right x hs]
  exact Nat.div_le_div_right (by omega)

/-- The image of a file. -/
def of (bytes : Array UInt8) (chunkSize : UInt32) (order : ByteOrder) (listed : ℕ) : Image where
  chunks := ((List.range (chunksOf chunkSize.toNat bytes.size listed)).map
    (chunkAt (fileOf bytes.toList) chunkSize.toNat)).toArray
  chunkSize := chunkSize
  order := order

variable {a : Addressing} {bytes : Array UInt8} {order : ByteOrder}

theorem ofChunkSize_chunkSize (a : Addressing) : Addressing.ofChunkSize a.chunkSize = .ok a :=
  dif_pos ⟨a.minChunkSize_le, a.le_maxChunkSize, a.whole_words⟩

/-- **The image of a file** holds its chunks. -/
theorem ofBytes_row {listed : UInt32} {r : Bytes}
    (hb : bytes.toList = order.rowBytes (List.replicate listed.toNat chunkFiller ++ [0]) ++ r) :
    ofBytes bytes a.chunkSize order = .ok (of bytes a.chunkSize order listed.toNat) := by
  rw [ofBytes, ofChunkSize_chunkSize, Cursor.chunkTable_of_row ⟨[], r, hb, rfl⟩]
  show Except.ok _ = _
  simp only [of, chunksOf, funext (chunkOf_eq bytes a.chunkSize.toNat)]

/-- The chunks of a file, each at its address. -/
theorem memory_of {bases : List UInt32} {listed : ℕ} {m : Memory}
    (h : (of bytes a.chunkSize order listed).memory bases = .ok m) :
    bases.length = chunksOf a.chunkSize.toNat bytes.size listed ∧
      m = .holding bases a.chunkSize.toNat (fileOf bytes.toList) := by
  have hcount : (of bytes a.chunkSize order listed).chunkCount =
      chunksOf a.chunkSize.toNat bytes.size listed := by
    simp [chunkCount, of]
  rw [memory, hcount] at h
  split_ifs at h with hlen
  rw [ne_eq, not_not] at hlen
  refine ⟨hlen, ?_⟩
  cases h
  refine congrArg List.toArray (List.ext_getElem ?_ fun i h1 h2 => ?_)
  · simp [of, hlen]
  · simp [of]

/-- A region can be used if its address can. -/
theorem usable_iff {base : UInt32} {chunk : Array UInt8} (hs : chunk.size = a.chunkSize.toNat) :
    (Region.mk base chunk).usable = true ↔ Usable a base := by
  simp only [Region.usable, Bool.and_eq_true, bne_iff_ne, ne_eq, beq_iff_eq, decide_eq_true_eq,
    hs]
  constructor
  · rintro ⟨⟨h0, h4⟩, hle⟩
    have h0 : base.toNat ≠ 0 := fun h => h0 (UInt32.toNat_inj.1 h)
    exact ⟨by omega, dvd_of_mod_eq_zero h4, hle⟩
  · rintro ⟨hpos, h4, hle⟩
    refine ⟨⟨?_, UInt32.toNat_inj.1 ?_⟩, hle⟩
    · rintro rfl
      exact absurd hpos (by decide)
    · rw [UInt32.toNat_mod]
      exact Nat.mod_eq_zero_of_dvd h4

/-- **The loader for the image of a file**, at addresses that are accepted. -/
theorem loader_of {bases : List UInt32} {listed : ℕ} {l : Loader}
    (h : (of bytes a.chunkSize order listed).loader bases = .ok l) :
    bases.length = chunksOf a.chunkSize.toNat bytes.size listed ∧
      (∀ base ∈ bases, Usable a base) ∧
      l = .overlaid a order bases (fileOf bytes.toList) fun _ => none := by
  rw [loader, bind_eq_ok] at h
  obtain ⟨m, hm, h⟩ := h
  obtain ⟨hlen, rfl⟩ := memory_of hm
  rw [Loader.ofMemory, show (of bytes a.chunkSize order listed).chunkSize = a.chunkSize from rfl,
    ofChunkSize_chunkSize] at h
  simp only [Except.mapError, bind_eq_ok, Except.ok.injEq] at h
  obtain ⟨_, rfl, h⟩ := h
  split_ifs at h
  · simp only [bind_eq_ok, throw_ne_ok, false_and, exists_false] at h
  split at h
  · cases h
  rename_i hfind
  refine ⟨hlen, fun base hb => ?_, ?_⟩
  · obtain ⟨i, hi, rfl⟩ := List.getElem_of_mem hb
    have hmem : (Region.mk bases[i] (chunkAt (fileOf bytes.toList) a.chunkSize.toNat i), i) ∈
        (Memory.holding bases a.chunkSize.toNat (fileOf bytes.toList)).toList.zipIdx := by
      rw [List.mem_zipIdx_iff_getElem?, Array.getElem?_toList, Memory.getElem?_holding,
        List.getElem?_eq_getElem hi]
      rfl
    have := List.find?_eq_none.1 hfind _ hmem
    exact (usable_iff (size_chunkAt ..)).1 (by simpa using this)
  · rw [pure_eq_ok] at h
    rw [← h, Loader.overlaid]
    have hover : order.overlay (fileOf bytes.toList) (fun _ => none) = fileOf bytes.toList :=
      funext fun k => ByteOrder.overlay_of_none rfl
    rw [hover]
    rfl

/-- **Such addresses are accepted.** -/
theorem exists_loader {bases : List UInt32} {listed : ℕ}
    (hlen : bases.length = chunksOf a.chunkSize.toNat bytes.size listed) (hne : 0 < bases.length)
    (hu : ∀ base ∈ bases, Usable a base) :
    ∃ l, (of bytes a.chunkSize order listed).loader bases = .ok l := by
  have hcount : (of bytes a.chunkSize order listed).chunkCount =
      chunksOf a.chunkSize.toNat bytes.size listed := by
    simp [chunkCount, of]
  obtain ⟨m, hm⟩ : ∃ m, (of bytes a.chunkSize order listed).memory bases = .ok m := by
    rw [memory, hcount, if_neg (by rw [hlen]; exact not_not.2 rfl)]
    exact ⟨_, rfl⟩
  obtain ⟨-, rfl⟩ := memory_of hm
  have hempty : ¬ (Memory.holding bases a.chunkSize.toNat (fileOf bytes.toList)).isEmpty = true := by
    rw [Array.isEmpty_iff_size_eq_zero, Memory.size_holding]
    omega
  have hfind : (Memory.holding bases a.chunkSize.toNat (fileOf bytes.toList)).toList.zipIdx.find?
      (fun entry => !entry.1.usable) = none := by
    refine List.find?_eq_none.2 fun e he => ?_
    rw [List.mem_zipIdx_iff_getElem?, Array.getElem?_toList, Memory.getElem?_holding] at he
    obtain ⟨base, hbase, hregion⟩ := Option.map_eq_some_iff.1 he
    rw [← hregion, (usable_iff (size_chunkAt ..)).2 (hu base (List.mem_of_getElem? hbase))]
    decide
  refine ⟨⟨.holding bases a.chunkSize.toNat (fileOf bytes.toList), a, order⟩, ?_⟩
  rw [loader, bind_eq_ok]
  refine ⟨_, hm, ?_⟩
  rw [Loader.ofMemory, show (of bytes a.chunkSize order listed).chunkSize = a.chunkSize from rfl,
    ofChunkSize_chunkSize]
  refine check_eq_ok.2 ⟨hempty, ?_⟩
  rw [hfind]
  rfl

end Image

end LevelBundle
