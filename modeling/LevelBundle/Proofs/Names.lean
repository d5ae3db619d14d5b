/-
  LevelBundle — the names in records.

  A record ends its name with a zero byte, so a loader reads the name up to the first
  zero byte there is.

  * `upToZero`: a text up to its first zero character.
  * `encode_zero`: this is what stands before the first zero byte.
-/
import LevelBundle.Text.Utf8
import Mathlib.Data.List.TakeWhile

namespace LevelBundle

/-- A text up to its first zero character. -/
def upToZero (text : String) : String :=
  String.ofList (text.toList.takeWhile (· ≠ '\x00'))

theorem not_mem_upToZero (text : String) : '\x00' ∉ (upToZero text).toList := by
  rw [upToZero, String.toList_ofList]
  exact fun hm => absurd (List.mem_takeWhile_imp hm) (by decide)

theorem upToZero_eq_self_iff {text : String} : upToZero text = text ↔ '\x00' ∉ text.toList := by
  rw [upToZero, ← String.toList_inj, String.toList_ofList, List.takeWhile_eq_self_iff]
  simp only [ne_eq, decide_not, Bool.not_eq_eq_eq_not, Bool.not_true, decide_eq_false_iff_not]
  exact ⟨fun h hm => h _ hm rfl, fun h c hm hc => h (hc ▸ hm)⟩

namespace Utf8

theorem encode_ofList (l : List Char) :
    encode (String.ofList l) = l.flatMap String.utf8EncodeChar := by
  rw [encode, String.toUTF8_eq_toByteArray, String.toByteArray_ofList, List.utf8Encode]
  simp

theorem encode_eq (text : String) : encode text = text.toList.flatMap String.utf8EncodeChar := by
  rw [← encode_ofList, String.ofList_toList]

theorem decode?_encode (text : String) : decode? (encode text) = some text := by
  have h : (⟨(encode text).toArray⟩ : ByteArray) = text.toByteArray := by
    rw [encode, String.toUTF8_eq_toByteArray]
  rw [decode?, h, String.fromUTF8?, dif_pos text.isValidUTF8]
  rfl

/-- A byte below `0x80` is a character by itself, and stands in no other. -/
theorem eq_ofNat_of_mem {c : Char} {b : UInt8} (hb : b ∈ String.utf8EncodeChar c)
    (hlt : b.toNat < 128) : c = Char.ofNat b.toNat := by
  have key {n : ℕ} (h : b = UInt8.ofNat n) : b.toNat = n % 256 := by
    rw [h]
    exact UInt8.toNat_ofNat'
  suffices hval : c.toNat = b.toNat by rw [← hval, Char.ofNat_toNat]
  simp only [String.utf8EncodeChar] at hb
  split_ifs at hb <;> simp only [List.mem_cons, List.not_mem_nil, or_false] at hb
  · have := key hb
    change c.val.toNat = _
    omega
  · rcases hb with h | h <;> have := key h <;> omega
  · rcases hb with h | h | h <;> have := key h <;> omega
  · rcases hb with h | h | h | h <;> have := key h <;> omega

/-- **The bytes before the first zero byte** are those of the text up to its first zero
    character. -/
theorem encode_zero (text : String) : (∀ b ∈ encode (upToZero text), b ≠ 0) ∧
    ∃ rest, encode text ++ [0] = encode (upToZero text) ++ 0 :: rest := by
  rw [upToZero, encode_ofList, encode_eq]
  constructor
  · intro b hb
    obtain ⟨c, hc, hb⟩ := List.mem_flatMap.1 hb
    have hne : c ≠ '\x00' := by simpa using List.mem_takeWhile_imp hc
    rintro rfl
    exact hne (eq_ofNat_of_mem hb (by decide))
  · induction text.toList with
    | nil => exact ⟨[], rfl⟩
    | cons c l ih =>
      by_cases hc : c = '\x00'
      · subst hc
        refine ⟨l.flatMap String.utf8EncodeChar ++ [0], ?_⟩
        rw [List.takeWhile_cons_of_neg (by simp), List.flatMap_cons]
        rfl
      · obtain ⟨rest, hrest⟩ := ih
        refine ⟨rest, ?_⟩
        rw [List.takeWhile_cons_of_pos (by simpa using hc), List.flatMap_cons, List.flatMap_cons,
          List.append_assoc, hrest, List.append_assoc]

end Utf8

end LevelBundle
