/-
  LevelBundle — what is written into a buffer.

  A buffer stands for the list of its bytes (`Buffer.contents`).  Every operation
  but `patch` appends to it; the lemmas say what, so nothing behind this module
  looks at arrays.

  * `Buffer.Extends b bytes b'`: `b'` is `b` with `bytes` behind it.
  * `extends_padTo`: zeros up to an offset, as long as offsets do not wrap.
  * `contents_patch`: a word in place of the four bytes at an offset.
-/
import LevelBundle.Bundle.Buffer
import LevelBundle.Proofs.Rounding
import LevelBundle.Proofs.SectionSound
import LevelBundle.Proofs.WordBytes

namespace LevelBundle

/-- The bytes of a row of words. -/
def ByteOrder.rowBytes (order : ByteOrder) (words : List UInt32) : Bytes :=
  words.flatMap order.wordBytes

@[simp] theorem ByteOrder.rowBytes_nil (order : ByteOrder) : order.rowBytes [] = [] := rfl

@[simp] theorem ByteOrder.rowBytes_cons (order : ByteOrder) (w : UInt32) (ws : List UInt32) :
    order.rowBytes (w :: ws) = order.wordBytes w ++ order.rowBytes ws := rfl

theorem ByteOrder.rowBytes_append (order : ByteOrder) (ws ws' : List UInt32) :
    order.rowBytes (ws ++ ws') = order.rowBytes ws ++ order.rowBytes ws' := List.flatMap_append

@[simp] theorem ByteOrder.length_rowBytes (order : ByteOrder) (ws : List UInt32) :
    (order.rowBytes ws).length = 4 * ws.length := by
  induction ws with
  | nil => rfl
  | cons w ws ih =>
    rw [rowBytes_cons, List.length_append, length_wordBytes, ih, List.length_cons]; omega

/-- The bytes of the word with an index stand four times as far. -/
theorem ByteOrder.getElem?_rowBytes (order : ByteOrder) {ws : List UInt32} {i : ℕ} {w : UInt32}
    (h : ws[i]? = some w) {j : ℕ} (hj : j < 4) :
    (order.rowBytes ws)[4 * i + j]? = (order.wordBytes w)[j]? := by
  induction ws generalizing i with
  | nil => cases h
  | cons v ws ih =>
    have hl := order.length_wordBytes v
    cases i with
    | zero =>
      cases h
      rw [rowBytes_cons, Nat.mul_zero, Nat.zero_add, List.getElem?_append_left (by omega)]
    | succ i =>
      rw [rowBytes_cons, List.getElem?_append_right (by omega), hl,
        show 4 * (i + 1) + j - 4 = 4 * i + j by omega]
      exact ih h

namespace Buffer

variable {b b' b'' : Buffer} {bytes bytes' : Bytes}

/-- The bytes of a buffer. -/
def contents (b : Buffer) : Bytes := b.bytes.toList

/-- A buffer is another one with some bytes behind it. -/
structure Extends (b : Buffer) (bytes : Bytes) (b' : Buffer) : Prop where
  order : b'.order = b.order
  contents : b'.contents = b.contents ++ bytes

theorem size_eq (b : Buffer) : b.bytes.size = b.contents.length := Array.length_toList.symm

theorem toNat_offset (h : b.contents.length < 2 ^ 32) : b.offset.toNat = b.contents.length := by
  rw [offset, size_eq, toNat_toUInt32 h]

theorem Extends.refl (b : Buffer) : Extends b [] b := ⟨rfl, (List.append_nil _).symm⟩

theorem Extends.trans (h₁ : Extends b bytes b') (h₂ : Extends b' bytes' b'') :
    Extends b (bytes ++ bytes') b'' :=
  ⟨h₂.order.trans h₁.order, by rw [h₂.contents, h₁.contents, List.append_assoc]⟩

theorem extends_append (b : Buffer) (bytes : Bytes) : Extends b bytes (b.append bytes) :=
  ⟨rfl, by simp [append, Buffer.contents]⟩

theorem extends_pushWord (b : Buffer) (w : UInt32) :
    Extends b (b.order.wordBytes w) (b.pushWord w) := b.extends_append _

theorem extends_fill (b : Buffer) (byte : UInt8) (count : UInt32) :
    Extends b (List.replicate count.toNat byte) (b.fill byte count) := b.extends_append _

/-- **Zeros up to an offset**; past it there are none. -/
theorem extends_padTo (h : b.contents.length < 2 ^ 32) (target : UInt32) :
    Extends b (List.replicate (target.toNat - b.contents.length) 0) (b.padTo target) := by
  have hgap : (b.gap target).toNat = target.toNat - b.contents.length := by
    have ho := toNat_offset h
    unfold gap
    split_ifs with hle
    · rw [UInt32.le_iff_toNat_le] at hle
      rw [UInt32.toNat_zero]; omega
    · rw [UInt32.toNat_sub_of_le _ _ (UInt32.le_of_lt (UInt32.not_le.1 hle)), ho]
  rw [← hgap]
  exact b.extends_fill 0 _

theorem length_padTo (h : b.contents.length < 2 ^ 32) (target : UInt32) :
    (b.padTo target).contents.length = max b.contents.length target.toNat := by
  rw [(extends_padTo h target).contents, List.length_append, List.length_replicate]
  omega

theorem extends_foldl (b : Buffer) (words : List UInt32) :
    Extends b (b.order.rowBytes words) (words.foldl pushWord b) := by
  induction words generalizing b with
  | nil => exact .refl b
  | cons w words ih => exact (b.extends_pushWord w).trans (ih (b.pushWord w))

/-- **A word in place of another.** -/
theorem contents_patch {l old r : Bytes} (h : b.contents = l ++ old ++ r) (ho : old.length = 4)
    {offset : UInt32} (hl : offset.toNat = l.length) (w : UInt32) :
    (b.patch offset w).contents = l ++ b.order.wordBytes w ++ r := by
  have hb : b.bytes.toList = l ++ old ++ r := h
  have hw := b.order.length_wordBytes w
  have hsize : offset.toNat + 4 ≤ b.bytes.size := by
    rw [← Array.length_toList, hb]
    simp only [List.length_append]
    omega
  refine List.ext_getElem? fun k => ?_
  show (b.order.setWordAt b.bytes offset.toNat w).toList[k]? = _
  rw [Array.getElem?_toList, ByteOrder.getElem?_setWordAt hsize, hl]
  split_ifs with hk
  · rw [List.append_assoc, List.getElem?_append_right hk.1, List.getElem?_append_left (by omega)]
  · rw [← Array.getElem?_toList, hb]
    rcases Nat.lt_or_ge k l.length with hlt | hge
    · rw [List.append_assoc, List.append_assoc, List.getElem?_append_left hlt,
        List.getElem?_append_left hlt]
    · rw [List.getElem?_append_right (by rw [List.length_append]; omega),
        List.getElem?_append_right (by rw [List.length_append]; omega),
        List.length_append, List.length_append, ho, hw]

end Buffer

end LevelBundle
