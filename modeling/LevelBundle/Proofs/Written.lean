/-
  LevelBundle — how many bytes a script takes to write.

  `SectionTable.written` is a lower bound of the number of bytes of any script
  that reads as the table: an argument counts with what sets it apart from its
  neighbours, a section with one byte for its header.  What a line adds to its
  section is bounded by what the line takes to write (`length_of_allText`,
  `length_of_allNumbers`), so no size computed in words can wrap as long as the
  script is not too long.
-/
import LevelBundle.Script.Arguments
import LevelBundle.Proofs.Steps
import Mathlib.Algebra.BigOperators.Ring.List
import Mathlib.Algebra.Order.BigOperators.Group.List
import Mathlib.Algebra.Order.Ring.Nat

namespace LevelBundle

/-- The bytes it takes at least to write an argument and to set it apart: a
    number one and a separator or a sign, a quoted text its two quotes, one of
    which may stand for the separator after it. -/
def Argument.written : Argument → ℕ
  | int _ | float _ => 2
  | str text => text.utf8ByteSize + 1
  | word text => max 1 text.utf8ByteSize

/-- The bytes it takes at least to write the arguments of a line. -/
def ScriptLine.written (l : ScriptLine) : ℕ := (l.arguments.map Argument.written).sum

/-- The bytes it takes at least to write a section. -/
def ScriptSection.written (s : ScriptSection) : ℕ := 1 + (s.lines.map ScriptLine.written).sum

/-- The bytes it takes at least to write the sections of a table. -/
def SectionTable.written (t : SectionTable) : ℕ := (t.sections.map ScriptSection.written).sum

theorem ScriptLine.written_le {l : ScriptLine} {s : ScriptSection} (h : l ∈ s.lines) :
    l.written < s.written := by
  have := List.single_le_sum (fun _ _ => Nat.zero_le _) _ (List.mem_map_of_mem (f := written) h)
  unfold ScriptSection.written
  omega

theorem ScriptSection.written_le {s : ScriptSection} {t : SectionTable} (h : s ∈ t.sections) :
    s.written ≤ t.written :=
  List.single_le_sum (fun _ _ => Nat.zero_le _) _ (List.mem_map_of_mem (f := written) h)

theorem Utf8.length_encode (text : String) : (Utf8.encode text).length = text.utf8ByteSize := by
  rw [Utf8.encode, String.toUTF8_eq_toByteArray]; rfl

theorem Argument.written_of_text? {a : Argument} {text : String} (h : a.text? = some text) :
    text.utf8ByteSize ≤ a.written ∧ 1 ≤ a.written := by
  cases a with
  | str s => cases h; exact ⟨Nat.le_succ _, Nat.le_add_left _ _⟩
  | word s => cases h; exact ⟨Nat.le_max_right _ _, Nat.le_max_left _ _⟩
  | int | float => cases h

theorem sum_le_of_forall₂ {α β : Type} {w : α → ℕ} {g : β → ℕ} {l : List α} {l' : List β}
    (h : List.Forall₂ (fun a b => g b ≤ w a) l l') : (l'.map g).sum ≤ (l.map w).sum := by
  induction h with
  | nil => exact le_rfl
  | cons h _ ih => rw [List.map_cons, List.map_cons, List.sum_cons, List.sum_cons]; omega

namespace ScriptLine

variable {l : ScriptLine}

/-- The bytes it takes to write the argument with an index. -/
def writtenAt (l : ScriptLine) (index : ℕ) : ℕ := (l.arguments[index]?.map Argument.written).getD 0

theorem sum_writtenAt (l : ScriptLine) :
    ((List.range l.arguments.length).map l.writtenAt).sum = l.written := by
  unfold written
  congr 1
  refine List.ext_getElem (by simp) fun i h1 h2 => ?_
  have hi : i < l.arguments.length := by simpa using h1
  simp [writtenAt, List.getElem?_eq_getElem hi]

theorem writtenAt_le (l : ScriptLine) (i : ℕ) : l.writtenAt i ≤ l.written := by
  unfold writtenAt
  rcases h : l.arguments[i]? with _ | a
  · exact Nat.zero_le _
  · exact List.single_le_sum (fun _ _ => Nat.zero_le _) _
      (List.mem_map_of_mem (List.mem_of_getElem? h))

theorem textAt_eq_ok {i : ℕ} {text : String} (h : l.textAt i = .ok text) :
    ∃ a, l.arguments[i]? = some a ∧ a.text? = some text := by
  unfold textAt at h
  split at h
  · rename_i text' ht
    cases h
    exact Option.bind_eq_some_iff.1 ht
  · cases h

theorem textAt_le {i : ℕ} {text : String} (h : l.textAt i = .ok text) :
    text.utf8ByteSize ≤ l.writtenAt i ∧ 1 ≤ l.writtenAt i := by
  obtain ⟨a, ha, ht⟩ := textAt_eq_ok h
  simpa only [writtenAt, ha, Option.map_some, Option.getD_some] using
    Argument.written_of_text? ht

theorem utf8ByteSize_join (texts : List String) :
    (String.join texts).utf8ByteSize = (texts.map String.utf8ByteSize).sum := by
  induction texts with
  | nil => rfl
  | cons t ts ih =>
    rw [String.join_cons, String.utf8ByteSize_append, ih, List.map_cons, List.sum_cons]

theorem length_of_allText {text : String} (h : l.allText = .ok text) :
    (Utf8.encode text).length ≤ l.written := by
  simp only [allText, bind_eq_ok, pure_eq_ok, mapM_eq_ok] at h
  obtain ⟨-, -, texts, ht, rfl⟩ := h
  rw [Utf8.length_encode, utf8ByteSize_join, ← sum_writtenAt]
  exact sum_le_of_forall₂ (ht.imp fun _ _ h => (textAt_le h).1)

theorem length_integerBytes (order : ByteOrder) (width : UInt32) (value : ℤ) :
    (integerBytes order width value).length ≤ 4 := by
  simp only [integerBytes]
  split_ifs
  · exact (by decide : 1 ≤ 4)
  · rw [ByteOrder.length_halfBytes]; decide
  · rw [ByteOrder.length_wordBytes]

theorem numberBytes_le {keyword : Keyword} {order : ByteOrder} {i : ℕ} {bs : Bytes}
    (h : l.numberBytes keyword order i = .ok bs) : bs.length ≤ 2 * l.writtenAt i := by
  unfold numberBytes at h
  split at h
  · simp only [bind_eq_ok, pure_eq_ok, intAt] at h
    obtain ⟨v, hv, rfl⟩ := h
    split at hv
    · cases hv
    · rename_i v' hi
      obtain ⟨a, ha, hai⟩ := Option.bind_eq_some_iff.1 hi
      have hw : l.writtenAt i = 2 := by
        rw [writtenAt, ha]
        cases a <;> first | rfl | cases hai
      rw [hw]
      exact length_integerBytes _ _ _
  · split at h
    · rename_i v hi
      obtain ⟨a, ha, hai⟩ := Option.bind_eq_some_iff.1 hi
      have hw : l.writtenAt i = 2 := by
        rw [writtenAt, ha]
        cases a <;> first | rfl | cases hai
      cases h
      rw [hw, ByteOrder.length_wordBytes]
    · cases h

theorem length_of_allNumbers {keyword : Keyword} {order : ByteOrder} {bs : Bytes}
    (h : l.allNumbers keyword order = .ok bs) : bs.length ≤ 2 * l.written := by
  simp only [allNumbers, bind_eq_ok, pure_eq_ok, mapM_eq_ok] at h
  obtain ⟨-, -, numbers, hn, rfl⟩ := h
  have hsum := sum_le_of_forall₂ (w := fun i => 2 * l.writtenAt i) (g := List.length)
    (hn.imp fun _ _ h => numberBytes_le h)
  rw [List.length_flatten, ← sum_writtenAt]
  rwa [List.sum_map_mul_left] at hsum

end ScriptLine

end LevelBundle
