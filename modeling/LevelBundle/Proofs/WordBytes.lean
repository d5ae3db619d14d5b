/-
  LevelBundle — words and the bytes they are written in.

  * `word_of_wordBytes`: reading the four bytes of a word gives the word back, in
    either order.
  * `wordAt?_eq_some`: the word at a place of some data is the one whose bytes
    stand there.
  * `getElem?_setWordAt` and `wordAt?_setWordAt_of_disjoint`: writing a word
    changes its four bytes and no other.
-/
import LevelBundle.Word
import Mathlib.Algebra.Order.Ring.Nat
import Mathlib.Tactic.Common

namespace LevelBundle

theorem or_shiftLeft_byte {low b k : ℕ} (hl : low < 2 ^ k) (hb : b < 2 ^ 8) (hk : k ≤ 24) :
    low ||| b <<< k % 2 ^ 32 = low + b * 2 ^ k := by
  have hpow : 2 ^ k ≤ 2 ^ 24 := Nat.pow_le_pow_right (by omega) hk
  have hlt : b * 2 ^ k < 2 ^ 32 :=
    calc b * 2 ^ k < 2 ^ 8 * 2 ^ k := Nat.mul_lt_mul_of_pos_right hb (Nat.two_pow_pos k)
      _ ≤ 2 ^ 8 * 2 ^ 24 := Nat.mul_le_mul_left _ hpow
  rw [Nat.mod_eq_of_lt (by rwa [Nat.shiftLeft_eq]), Nat.or_comm,
    ← Nat.shiftLeft_add_eq_or_of_lt hl, Nat.shiftLeft_eq, Nat.add_comm]

namespace ByteOrder

theorem word_little_bytes (w : UInt32) :
    word .little w.toUInt8 (w >>> 8).toUInt8 (w >>> 16).toUInt8 (w >>> 24).toUInt8 = w := by
  have hw := w.toNat_lt
  apply UInt32.toNat_inj.1
  simp only [word, UInt32.toNat_or, UInt32.toNat_shiftLeft, UInt8.toNat_toUInt32,
    UInt32.toNat_toUInt8, UInt32.toNat_shiftRight, UInt32.reduceToNat, Nat.reduceMod,
    Nat.shiftRight_eq_div_pow]
  rw [or_shiftLeft_byte (k := 8), or_shiftLeft_byte (k := 16), or_shiftLeft_byte (k := 24)] <;>
    omega

theorem word_arrange (order : ByteOrder) {a b c d a' b' c' d' : UInt8}
    (h : order.arrange [a, b, c, d] = [a', b', c', d']) :
    order.word a' b' c' d' = word .little a b c d := by
  cases order <;> simp only [arrange, List.reverse_cons, List.reverse_nil, List.nil_append,
    List.cons_append, List.cons.injEq, and_true] at h <;> obtain ⟨rfl, rfl, rfl, rfl⟩ := h <;> rfl

/-- **The bytes of a word read as the word.** -/
theorem word_of_wordBytes {order : ByteOrder} {w : UInt32} {a b c d : UInt8}
    (h : order.wordBytes w = [a, b, c, d]) : order.word a b c d = w := by
  rw [word_arrange order h, word_little_bytes]

theorem wordBytes_eq (order : ByteOrder) (w : UInt32) :
    ∃ a b c d, order.wordBytes w = [a, b, c, d] ∧ order.word a b c d = w := by
  match h : order.wordBytes w, length_wordBytes order w with
  | [a, b, c, d], _ => exact ⟨a, b, c, d, rfl, word_of_wordBytes h⟩

/-! ## Words of some data -/

variable {order : ByteOrder} {data : Array UInt8} {pos : ℕ} {w : UInt32}

/-- The word at a place depends on the four bytes from there on. -/
theorem wordAt?_congr {data' : Array UInt8} (hs : data.size = data'.size)
    (h : ∀ k, pos ≤ k → k < pos + 4 → data[k]? = data'[k]?) :
    order.wordAt? data pos = order.wordAt? data' pos := by
  unfold wordAt?
  by_cases hp : pos + 4 ≤ data.size
  · have key (k : ℕ) (h1 : pos ≤ k) (h2 : k < pos + 4) :
        data[k] = data'[k] := by
      have := h k h1 h2
      rwa [Array.getElem?_eq_getElem (by omega), Array.getElem?_eq_getElem (by omega),
        Option.some.injEq] at this
    rw [dif_pos hp, dif_pos (hs ▸ hp), key pos (by omega) (by omega), key (pos + 1) (by omega)
      (by omega), key (pos + 2) (by omega) (by omega), key (pos + 3) (by omega) (by omega)]
  · rw [dif_neg hp, dif_neg (hs ▸ hp)]

/-- The word whose bytes stand at a place is the word there. -/
theorem wordAt?_eq_some (hp : pos + 4 ≤ data.size)
    (h : ∀ j, j < 4 → data[pos + j]? = (order.wordBytes w)[j]?) :
    order.wordAt? data pos = some w := by
  obtain ⟨a, b, c, d, hb, hw⟩ := wordBytes_eq order w
  rw [hb] at h
  have key (j : ℕ) (hj : j < 4) : some data[pos + j] = [a, b, c, d][j]? := by
    rw [← h j hj, Array.getElem?_eq_getElem]
  have h0 := key 0 (by omega); have h1 := key 1 (by omega)
  have h2 := key 2 (by omega); have h3 := key 3 (by omega)
  simp only [Nat.add_zero, List.getElem?_cons_zero, List.getElem?_cons_succ,
    Option.some.injEq] at h0 h1 h2 h3
  rw [wordAt?, dif_pos hp, h0, h1, h2, h3, hw]

/-! ## Writing words -/

theorem setWordAt_eq (order : ByteOrder) (data : Array UInt8) (pos : ℕ) (w : UInt32) :
    ∃ a b c d, order.wordBytes w = [a, b, c, d] ∧ order.setWordAt data pos w =
      (((data.setIfInBounds pos a).setIfInBounds (pos + 1) b).setIfInBounds (pos + 2)
        c).setIfInBounds (pos + 3) d := by
  obtain ⟨a, b, c, d, hb, -⟩ := wordBytes_eq order w
  exact ⟨a, b, c, d, hb, by rw [setWordAt, hb]; rfl⟩

@[simp] theorem size_setWordAt : (order.setWordAt data pos w).size = data.size := by
  obtain ⟨a, b, c, d, -, h⟩ := setWordAt_eq order data pos w
  rw [h]; simp only [Array.size_setIfInBounds]

/-- **What writing a word changes**: its four bytes. -/
theorem getElem?_setWordAt (hp : pos + 4 ≤ data.size) (k : ℕ) :
    (order.setWordAt data pos w)[k]? =
      if pos ≤ k ∧ k < pos + 4 then (order.wordBytes w)[k - pos]? else data[k]? := by
  obtain ⟨a, b, c, d, hb, h⟩ := setWordAt_eq order data pos w
  rw [h, hb]
  simp only [Array.getElem?_setIfInBounds, Array.size_setIfInBounds]
  rcases Nat.lt_or_ge k pos with hk | hk
  · simp only [show ¬ pos + 3 = k by omega, show ¬ pos + 2 = k by omega,
      show ¬ pos + 1 = k by omega, show ¬ pos = k by omega, show ¬ pos ≤ k by omega, if_false,
      false_and]
  obtain ⟨j, rfl⟩ := Nat.exists_eq_add_of_le hk
  match j with
  | 0 | 1 | 2 | 3 => simp; omega
  | j + 4 => simp

theorem wordAt?_setWordAt (hp : pos + 4 ≤ data.size) :
    order.wordAt? (order.setWordAt data pos w) pos = some w := by
  refine wordAt?_eq_some (by simpa using hp) fun j hj => ?_
  rw [getElem?_setWordAt hp, if_pos (by omega), Nat.add_sub_cancel_left]

theorem wordAt?_setWordAt_of_disjoint {at' : ℕ} (h : at' + 4 ≤ pos ∨ pos + 4 ≤ at') :
    order.wordAt? (order.setWordAt data pos w) at' = order.wordAt? data at' := by
  obtain ⟨a, b, c, d, -, he⟩ := setWordAt_eq order data pos w
  refine wordAt?_congr size_setWordAt fun k h1 h2 => ?_
  rw [he]
  simp only [Array.getElem?_setIfInBounds, Array.size_setIfInBounds,
    show ¬ pos + 3 = k by omega, show ¬ pos + 2 = k by omega, show ¬ pos + 1 = k by omega,
    show ¬ pos = k by omega, if_false]

end ByteOrder

end LevelBundle
