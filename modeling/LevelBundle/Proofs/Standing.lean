/-
  LevelBundle — what stands where in the file of a bundle.

  * `Filed`: a program that is laid out, with the file that it was written to.
  * `wordOf_front`: the words in front.
  * `byte_content`, `wordOf_slot`: the contents of the items, and the positions in them.
  * `Filed.table`: the fixup table lies in a chunk of the image, and apart from all
    items.
-/
import LevelBundle.Proofs.BundleFile
import LevelBundle.Proofs.Chunks

namespace LevelBundle

/-- A program that is laid out, with the file that it was written to. -/
structure Filed (ctx : CompileContext) (pad : UInt32) (k : Packer) (p q : Program) (s : Settled)
    (b : Bundle) (refs : List UInt32) : Prop where
  sound : p.Sound ctx pad
  grain : Grain ctx.chunkSize pad
  sane : k.Sane
  accepts : k.Accepts p.items (Packer.fixupCount p p.items) s
  laidout : Packer.Laidout k p q s
  chunkCount : b.chunkCount = s.capacity
  headerSize : b.headerSize = s.headerSize
  file : ∃ placed body gap border, b.File k p q refs placed body gap border

/-- Where the fixup table lies in memory. -/
structure TableLies (k : Packer) (p q : Program) (b : Bundle) (refs : List UInt32) (t : UInt32) :
    Prop where
  reaches : k.addressing.Reaches t
  block_lt : t.toNat / k.addressing.chunkSize.toNat <
    Image.chunksOf k.addressing.chunkSize.toNat b.bytes.size b.chunkCount.toNat
  inside : t.toNat % k.addressing.chunkSize.toNat + 4 * (refs.length + 1) ≤
    k.addressing.chunkSize.toNat
  header_le : 4 * (b.chunkCount.toNat + 3) ≤ t.toNat
  apart : ∀ {ref}, p.Leads ref → t.toNat + 4 * (refs.length + 1) ≤ (q.place ref).toNat ∨
    (q.place ref).toNat + (p.item ref).padSize.toNat ≤ t.toNat
  row : ∀ {i w}, (tableRow k.addressing refs)[i]? = some w →
    k.options.order.wordOf (fileOf b.bytes.toList) (t.toNat + 4 * i) = w

namespace Filed

variable {ctx : CompileContext} {pad : UInt32} {k : Packer} {p q : Program} {s : Settled}
  {b : Bundle} {refs : List UInt32} (h : Filed ctx pad k p q s b refs)
include h

theorem chunkSize_eq : b.chunkSize = k.addressing.chunkSize := by
  obtain ⟨placed, body, gap, border, hf⟩ := h.file
  exact hf.chunkSize.trans h.sane.symm

/-! ## The words in front -/

theorem front_prefix : ∃ r, b.bytes.toList = k.options.order.rowBytes
    (headerRow b.chunkCount b.start (b.tablePosition k.addressing)) ++ r := by
  obtain ⟨placed, body, gap, border, hf⟩ := h.file
  rw [hf.bytes, Bundle.headerBytes, ByteOrder.rowBytes_append]
  simp only [List.append_assoc]
  exact ⟨_, rfl⟩

theorem wordOf_front {i : ℕ} {w : UInt32}
    (hw : (headerRow b.chunkCount b.start (b.tablePosition k.addressing))[i]? = some w) :
    k.options.order.wordOf (fileOf b.bytes.toList) (4 * i) = w := by
  obtain ⟨r, hr⟩ := h.front_prefix
  have := ByteOrder.wordOf_row k.options.order (l := []) (r := r) hw
  rwa [List.nil_append, ← hr, List.length_nil, Nat.zero_add] at this

theorem chunk_table : ∃ r, b.bytes.toList = k.options.order.rowBytes
    (List.replicate b.chunkCount.toNat chunkFiller ++ [0]) ++ r := by
  obtain ⟨r, hr⟩ := h.front_prefix
  refine ⟨k.options.order.rowBytes [b.start.word, (b.tablePosition k.addressing).word] ++ r, ?_⟩
  rw [hr, ← List.append_assoc, ← ByteOrder.rowBytes_append, headerRow, List.append_assoc]
  rfl

/-! ## Items -/

theorem mem_placed {ref : ItemRef} (hr : p.Leads ref) {placed : List (Item × UInt32)}
    {body : Bytes} {gap border : ℕ} (hf : b.File k p q refs placed body gap border) :
    (p.item ref, q.place ref) ∈ placed :=
  hf.perm.mem_iff.2 (List.mem_map_of_mem (h.sound.mem_reachable_iff.2 hr))

/-- **The contents of an item** stand at its place. -/
theorem byte_content {ref : ItemRef} (hr : p.Leads ref) {j : ℕ}
    (hj : j < (q.contents k.addressing k.options.order ref).length) :
    some (fileOf b.bytes.toList ((q.place ref).toNat + j)) =
      (q.contents k.addressing k.options.order ref)[j]? := by
  obtain ⟨placed, body, gap, border, hf⟩ := h.file
  have he := h.mem_placed hr hf
  have hc := hf.covers.content _ he j (by rwa [Program.item_ref])
  rw [Program.item_ref] at hc
  have hget : b.bytes.toList[(q.place ref).toNat + j]? =
      (q.contents k.addressing k.options.order ref)[j]? := by
    rw [List.getElem?_eq_getElem hj] at hc ⊢
    obtain ⟨hlt, -⟩ := List.getElem?_eq_some_iff.1 hc
    rw [hf.bytes, List.append_assoc, List.getElem?_append_left hlt]
    exact hc
  rw [fileOf, List.getD_eq_getElem?_getD, hget, List.getElem?_eq_getElem hj, Option.getD_some]

theorem length_contents {ref : ItemRef} (hr : p.Leads ref) :
    (q.contents k.addressing k.options.order ref).length = (p.item ref).size.toNat ∧
      (p.item ref).size.toNat ≤ (p.item ref).padSize.toNat :=
  ⟨h.sound.length_contents h.laidout.moved (h.sound.holds hr),
    (h.sound.fit h.grain (h.sound.holds hr)).size_le⟩

theorem header_le {ref : ItemRef} (hr : p.Leads ref) :
    4 * (b.chunkCount.toNat + 3) ≤ (q.place ref).toNat := by
  have h1 := (h.laidout.lies hr).header_le
  have h2 := h.accepts.toNat_headerSize h.sane
  have h3 := Packer.le_headerSize k s.capacity (Packer.fixupCount p p.items)
  rw [h.chunkCount]
  omega

/-! ## The fixup table -/

/-- The bytes of the fixup table stand where the bundle says. -/
theorem table_bytes {t : UInt32} (ht : b.fixupTable = some t) : ∃ l r, b.bytes.toList =
    l ++ k.options.order.rowBytes (tableRow k.addressing refs) ++ r ∧ t.toNat = l.length := by
  obtain ⟨placed, body, gap, border, hf⟩ := h.file
  have htable := hf.table
  have hbytes := hf.bytes
  rw [ht] at htable
  cases htable with
  | front hfront hpos =>
    refine ⟨k.options.order.rowBytes (headerRow b.chunkCount b.start
      (b.tablePosition k.addressing)), body ++ List.replicate gap 0, ?_, ?_⟩
    · rw [hbytes, Bundle.headerBytes, if_pos hfront, if_neg (by rw [hfront]; decide),
        ByteOrder.rowBytes_append, ByteOrder.rowBytes_nil, List.append_nil]
      simp only [List.append_assoc, Nat.add_zero]
    · rw [ByteOrder.length_rowBytes, length_headerRow, hpos]
  | tail htail hpos =>
    rw [if_pos htail] at hbytes
    refine ⟨_, [], by rw [List.append_nil]; exact hbytes, ?_⟩
    rw [List.length_append, List.length_replicate, hpos]
    omega

theorem wordOf_table {t : UInt32} (ht : b.fixupTable = some t) {i : ℕ} {w : UInt32}
    (hw : (tableRow k.addressing refs)[i]? = some w) :
    k.options.order.wordOf (fileOf b.bytes.toList) (t.toNat + 4 * i) = w := by
  obtain ⟨l, r, hb, hl⟩ := h.table_bytes ht
  rw [hb, hl]
  exact ByteOrder.wordOf_row _ hw

/-- **The fixup table.** -/
theorem table (hne : k.options.fixups ≠ .absent) :
    ∃ t, b.fixupTable = some t ∧ TableLies k p q b refs t := by
  obtain ⟨placed, body, gap, border, hf⟩ := h.file
  have hpos : 0 < k.addressing.chunkSize.toNat := by have := k.addressing.words.1; omega
  have hsane : k.addressing.chunkSize = k.options.chunkSize := h.sane
  have hstop {ref} (hr : p.Leads ref) : (q.place ref).toNat + (p.item ref).padSize.toNat ≤
      (b.headerBytes k refs ++ body).length := hf.covers.stop_le _ (h.mem_placed hr hf)
  have htable := hf.table
  generalize hopt : b.fixupTable = o at htable ⊢
  cases htable with
  | absent habs => exact absurd habs hne
  | @front t hfront ht hreach =>
    have hlen : b.headerSize.toNat = t.toNat + 4 * (refs.length + 1) := by
      rw [hf.headerSize, Bundle.headerBytes, if_pos hfront, ByteOrder.length_rowBytes,
        List.length_append, length_headerRow, length_tableRow, ht]
      omega
    have hle : b.headerSize.toNat ≤ k.addressing.chunkSize.toNat := by
      rw [h.headerSize, h.accepts.toNat_headerSize h.sane, hsane]
      exact h.accepts.headerSize_le
    have hblock := (h.laidout.lies .root).block_lt
    refine ⟨t, rfl, hreach, ?_, ?_, by omega, fun {ref} hr => ?_, fun {i w} hw => ?_⟩
    · rw [Nat.div_eq_of_lt (by omega)]
      refine Nat.lt_of_lt_of_le ?_ (Image.le_chunksOf ..)
      rw [h.chunkCount]
      exact Nat.zero_lt_of_lt hblock
    · rw [Nat.mod_eq_of_lt (by omega)]
      omega
    · have := (h.laidout.lies hr).header_le
      rw [← h.headerSize] at this
      exact Or.inl (by omega)
    · exact h.wordOf_table hopt hw
  | @tail t htail ht hreach hblock hin =>
    have hbytes := hf.bytes
    rw [if_pos htail] at hbytes
    have hlen : (b.headerBytes k refs ++ body ++ List.replicate (gap + Packer.borderZeros
        ((b.headerBytes k refs ++ body).length + gap) k.options.chunkSize.toNat
          (4 * (refs.length + 1))) 0).length = t.toNat := by
      rw [List.length_append, List.length_replicate]
      omega
    have hsize : b.bytes.size = t.toNat + 4 * (refs.length + 1) := by
      rw [← Array.length_toList, hbytes, List.length_append, hlen, ByteOrder.length_rowBytes,
        length_tableRow]
    refine ⟨t, rfl, hreach, Image.div_lt_chunksOf hpos (by omega), by rw [hsane]; exact hin, ?_,
      fun {ref} hr => ?_, fun {i w} hw => ?_⟩
    · have := h.header_le .root
      have := hstop .root
      omega
    · have := hstop hr
      exact Or.inr (by omega)
    · exact h.wordOf_table hopt hw

end Filed

end LevelBundle
