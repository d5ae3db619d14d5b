/-
  LevelBundle — how tokens are written.

  A word is written as it is, an integer in decimal, and a text in quotes with escapes.
  `Reads cs ts` says that the characters `cs` are read as the tokens `ts`.

  * `BareWord`: the texts that need no quotes.
  * `quoted`: a text in quotes.  No line feed and no dollar sign is in it.
  * `Reads.word`, `Reads.quoted`, `Reads.int`: what is written is read as it was meant, if what
    follows it cannot belong to it.
-/
import LevelBundle.Script.Lexer
import Mathlib.Data.Int.Order.Basic
import Mathlib.Data.List.Basic
import Mathlib.Tactic.IntervalCases

namespace LevelBundle.Lexer

variable {c : Char} {cs rest : List Char} {t : Token} {ts : List Token}

/-! ## Characters -/

/-- The characters that no word or number holds. -/
def marks : List Char :=
  [' ', '\t', '\r', '\x0c', '\n', '#', ';', '[', ']', ',', '=', '"', '$']

def digits : List Char := ['0', '1', '2', '3', '4', '5', '6', '7', '8', '9']

theorem mem_digits (h : isDigit c = true) : c ∈ digits := by
  simp only [isDigit, Bool.and_eq_true, decide_eq_true_eq, Char.le_def,
    UInt32.le_iff_toNat_le] at h
  have hlow : 48 ≤ c.toNat := h.1
  have hhigh : c.toNat ≤ 57 := h.2
  rw [← Char.ofNat_toNat c]
  interval_cases c.toNat <;> decide

theorem isWordChar_of_startsWord (h : startsWord c = true) : isWordChar c = true := by
  simp [isWordChar, h]

theorem isWordChar_of_isDigit (h : isDigit c = true) : isWordChar c = true := by
  simp [isWordChar, h]

theorem not_mem_marks (h : isWordChar c = true) : c ∉ marks := by
  intro hmem
  have hmarks : marks.all (fun c => !isWordChar c) = true := by decide
  have hc := List.all_eq_true.1 hmarks c hmem
  rw [h] at hc
  cases hc

theorem digit_only (h : isDigit c = true) :
    startsWord c = false ∧ c ≠ '.' ∧ c ≠ '-' ∧ c ≠ 'x' ∧ c ≠ 'X' := by
  have hdigits : digits.all (fun c => !startsWord c && c != '.' && c != '-' && c != 'x' && c != 'X')
      = true := by decide
  have hc := List.all_eq_true.1 hdigits c (mem_digits h)
  simp only [Bool.and_eq_true, Bool.not_eq_true', bne_iff_ne] at hc
  obtain ⟨⟨⟨⟨hword, hpoint⟩, hminus⟩, hlow⟩, hhigh⟩ := hc
  exact ⟨hword, hpoint, hminus, hlow, hhigh⟩

/-! ## Reading -/

/-- The characters are read as these tokens. -/
def Reads (cs : List Char) (ts : List Token) : Prop :=
  ∀ start, ∃ lexemes, tokenizeFrom start cs = .ok lexemes ∧ lexemes.map Lexeme.token = ts

theorem Reads.nil : Reads [] [] := by
  intro start
  exact ⟨[], by rw [tokenizeFrom], rfl⟩

/-- A token, and then the rest. -/
theorem Reads.of_scan (hr : Reads rest ts) (h : scan c (cs ++ rest) = .token t (cs.length + 1)) :
    Reads (c :: (cs ++ rest)) (t :: ts) := by
  intro start
  obtain ⟨lexemes, hlexemes, hts⟩ :=
    hr (start + byteLength ((c :: (cs ++ rest)).take (cs.length + 1)))
  refine ⟨⟨t, start, start + byteLength ((c :: (cs ++ rest)).take (cs.length + 1))⟩ :: lexemes,
    ?_, ?_⟩
  · rw [tokenizeFrom, h]
    simp only [Nat.add_sub_cancel, List.drop_left, hlexemes]
    rfl
  · rw [List.map_cons, hts]

theorem Reads.blank (hr : Reads rest ts) : Reads (' ' :: rest) ts := by
  intro start
  obtain ⟨lexemes, hlexemes, hts⟩ := hr (start + byteLength ((' ' :: rest).take 1))
  refine ⟨lexemes, ?_, hts⟩
  have hscan : scan ' ' rest = .skip 1 := by
    simp [scan, isBlank]
  rw [tokenizeFrom, hscan]
  exact hlexemes

theorem Reads.single (hr : Reads rest ts) (h : scan c rest = .token t 1) :
    Reads (c :: rest) (t :: ts) := by
  rw [← List.nil_append rest] at h ⊢
  exact hr.of_scan h

/-- Nothing follows that could belong to a word or a number. -/
def Stops (rest : List Char) : Prop := ∀ c ∈ rest.head?, isWordChar c = false

theorem Stops.takeWhile (h : Stops rest) {p : Char → Bool}
    (hp : ∀ c, p c = true → isWordChar c = true) (hcs : ∀ c ∈ cs, p c = true) :
    (cs ++ rest).takeWhile p = cs ∧ (cs ++ rest).dropWhile p = rest := by
  have hrest : rest.takeWhile p = [] ∧ rest.dropWhile p = rest := by
    cases rest with
    | nil => exact ⟨rfl, rfl⟩
    | cons c rest =>
      have hc : p c = false := by
        by_contra hc
        have hstop := h c rfl
        rw [hp c (by simpa using hc)] at hstop
        cases hstop
      simp [hc]
  rw [List.takeWhile_append_of_pos hcs, List.dropWhile_append_of_pos hcs, hrest.1, hrest.2,
    List.append_nil]
  exact ⟨rfl, rfl⟩

/-! ## Words -/

/-- A text that needs no quotes. -/
structure BareWord where
  /-- The first character. -/
  first : Char
  /-- The others. -/
  others : List Char
  first_ok : startsWord first = true
  others_ok : ∀ c ∈ others, isWordChar c = true

namespace BareWord

def chars (w : BareWord) : List Char := w.first :: w.others

def text (w : BareWord) : String := String.ofList w.chars

theorem isWordChar_of_mem (w : BareWord) (h : c ∈ w.chars) : isWordChar c = true := by
  rcases List.mem_cons.1 h with rfl | h
  · exact isWordChar_of_startsWord w.first_ok
  · exact w.others_ok c h

end BareWord

theorem Reads.word (w : BareWord) (hr : Reads rest ts) (hstop : Stops rest) :
    Reads (w.chars ++ rest) (.word w.text :: ts) := by
  refine hr.of_scan ?_
  have hmarks := not_mem_marks (isWordChar_of_startsWord w.first_ok)
  simp only [marks, List.mem_cons, List.not_mem_nil, or_false, not_or] at hmarks
  have htail : (w.others ++ rest).takeWhile isWordChar = w.others :=
    (hstop.takeWhile (fun _ h => h) w.others_ok).1
  simp [scan, isBlank, startsComment, hmarks, w.first_ok, htail, BareWord.text, BareWord.chars,
    Nat.add_comm]

/-! ## Texts in quotes -/

/-- A character inside quotes.  A dollar sign is written as an escape since it may start a
    reference, which is replaced before the tokens are read. -/
def escapeChar (c : Char) : List Char :=
  if c = '\\' then ['\\', '\\']
  else if c = '"' then ['\\', '"']
  else if c = '\n' then ['\\', 'n']
  else if c = '$' then ['\\', 'x', '2', '4']
  else [c]

def escaped (cs : List Char) : List Char := cs.flatMap escapeChar

def quoted (s : String) : List Char := '"' :: (escaped s.toList ++ ['"'])

theorem not_mem_escaped (h : c ∈ escaped cs) : c ≠ '\n' ∧ c ≠ '$' := by
  obtain ⟨d, -, hd⟩ := List.mem_flatMap.1 h
  have hplain {l : List Char} (hl : l.all (fun c => c != '\n' && c != '$') = true) (hc : c ∈ l) :
      c ≠ '\n' ∧ c ≠ '$' := by
    simpa using List.all_eq_true.1 hl c hc
  unfold escapeChar at hd
  split_ifs at hd with h₁ h₂ h₃ h₄
  · exact hplain (by decide) hd
  · exact hplain (by decide) hd
  · exact hplain (by decide) hd
  · exact hplain (by decide) hd
  · rw [List.mem_singleton.1 hd]
    exact ⟨h₃, h₄⟩

theorem scanText_escaped (cs rest : List Char) :
    scanText (escaped cs ++ '"' :: rest) = ((escaped cs).length, true) := by
  induction cs with
  | nil => simp [escaped, scanText]
  | cons c cs ih =>
    simp only [escaped, List.flatMap_cons, List.append_assoc] at *
    by_cases h₁ : c = '\\'
    · simp [h₁, escapeChar, scanText, ih]
    by_cases h₂ : c = '"'
    · simp [h₂, escapeChar, scanText, ih]
    by_cases h₃ : c = '\n'
    · simp [h₃, escapeChar, scanText, ih]
    by_cases h₄ : c = '$'
    · simp [h₄, escapeChar, scanText, ih]
    simp [escapeChar, h₁, h₂, h₃, h₄, scanText, ih]

theorem unescape_escaped (cs : List Char) : unescape (escaped cs) = some cs := by
  induction cs with
  | nil => rfl
  | cons c cs ih =>
    simp only [escaped, List.flatMap_cons] at *
    by_cases h₁ : c = '\\'
    · simp [h₁, escapeChar, unescape, ih]
    by_cases h₂ : c = '"'
    · simp [h₂, escapeChar, unescape, ih]
    by_cases h₃ : c = '\n'
    · simp [h₃, escapeChar, unescape, ih]
    by_cases h₄ : c = '$'
    · simp [h₄, escapeChar, unescape, ih]
      decide
    simp [escapeChar, h₁, h₂, h₃, h₄, unescape, ih]

theorem Reads.quoted (s : String) (hr : Reads rest ts) :
    Reads (quoted s ++ rest) (.str s :: ts) := by
  refine hr.of_scan ?_
  have htext := scanText_escaped s.toList rest
  simp [scan, isBlank, startsComment, startsWord, htext, unescape_escaped]

/-! ## Integers -/

/-- An integer in decimal. -/
def decimal (n : ℤ) : List Char := (toString n).toList

theorem decimal_of_nonneg {n : ℤ} (h : 0 ≤ n) : decimal n = Nat.toDigits 10 n.natAbs := by
  have hn : n.toNat = n.natAbs := by omega
  rw [decimal, Int.toString_eq_repr, Int.repr_eq_if, if_pos h, Nat.repr_eq_ofList_toDigits,
    String.toList_ofList, hn]

theorem decimal_of_neg {n : ℤ} (h : n < 0) : decimal n = '-' :: Nat.toDigits 10 n.natAbs := by
  have hn : (-n).toNat = n.natAbs := by omega
  rw [decimal, Int.toString_eq_repr, Int.repr_eq_if, if_neg (not_le.2 h),
    Nat.repr_eq_ofList_toDigits, String.toList_append, hn, String.toList_ofList,
    String.toList_ofList]
  rfl

theorem isDigit_of_mem_toDigits {n : ℕ} (h : c ∈ Nat.toDigits 10 n) : isDigit c = true := by
  have hdigit := Nat.isDigit_of_mem_toDigits (by decide) (by decide) h
  simpa [isDigit, Char.isDigit, Char.le_def] using hdigit

theorem spelled_toDigits (n : ℕ) : spelled 10 (Nat.toDigits 10 n) = n := by
  have hspelled : spelled 10 (Nat.toDigits 10 n) = Nat.ofDigitChars 10 (Nat.toDigits 10 n) 0 := by
    refine List.foldl_ext _ _ 0 ?_
    intro m d hd
    rw [digitValue, if_pos (isDigit_of_mem_toDigits hd)]
  rw [hspelled, Nat.ofDigitChars_toDigits (by decide) (by decide)]

theorem scanDecimal_toDigits (negative : Bool) (n : ℕ) (hstop : Stops rest) :
    scanDecimal negative (Nat.toDigits 10 n ++ rest) =
      some (intToken? negative n (if negative then Nat.pow 2 63 else Nat.pow 2 63 - 1),
        (Nat.toDigits 10 n).length) := by
  have hdigits : ∀ c ∈ Nat.toDigits 10 n, isDigit c = true := fun c hc =>
    isDigit_of_mem_toDigits hc
  obtain ⟨htake, hdrop⟩ := hstop.takeWhile (fun _ h => isWordChar_of_isDigit h) hdigits
  have hne : (Nat.toDigits 10 n).isEmpty = false := by
    simp [Nat.toDigits_ne_nil]
  unfold scanDecimal
  simp only [htake, hdrop, hne, spelled_toDigits, Bool.false_eq_true, ↓reduceIte]
  split
  · -- a point would belong to a word
    have hpoint := hstop '.' rfl
    cases hpoint
  · rfl

theorem scanMagnitude_eq {negative : Bool} (h : ∀ x ∈ cs.head?, x ≠ 'x' ∧ x ≠ 'X') :
    scanMagnitude negative (c :: cs) = scanDecimal negative (c :: cs) := by
  unfold scanMagnitude
  split
  · rename_i x rest heq
    obtain ⟨rfl, rfl⟩ := List.cons.inj heq
    obtain ⟨hlow, hhigh⟩ := h x rfl
    simp [hlow, hhigh]
  · rfl

theorem scanNumber_of_ne {d : Char} {cs : List Char} (h : d ≠ '-') :
    scanNumber (d :: cs) = scanMagnitude false (d :: cs) := by
  unfold scanNumber
  split
  · rename_i heq
    exact absurd (List.cons.inj heq).1 h
  · rfl

theorem scanMagnitude_toDigits (negative : Bool) (n : ℕ) (hstop : Stops rest) :
    scanMagnitude negative (Nat.toDigits 10 n ++ rest) =
      some (intToken? negative n (if negative then Nat.pow 2 63 else Nat.pow 2 63 - 1),
        (Nat.toDigits 10 n).length) := by
  rw [← scanDecimal_toDigits negative n hstop]
  have hdigits : ∀ c ∈ Nat.toDigits 10 n, isDigit c = true := fun c hc =>
    isDigit_of_mem_toDigits hc
  cases hn : Nat.toDigits 10 n with
  | nil => exact absurd hn Nat.toDigits_ne_nil
  | cons d ds =>
    rw [hn] at hdigits
    refine scanMagnitude_eq ?_
    intro x hx
    cases ds with
    | nil =>
      have hword : isWordChar x = false := hstop x hx
      constructor
      · rintro rfl
        cases hword
      · rintro rfl
        cases hword
    | cons d' ds =>
      cases hx
      exact (digit_only (hdigits x (by simp))).2.2.2

/-- An integer of 64 bits is read as it was meant. -/
theorem Reads.int {n : ℤ} (hlow : -2 ^ 63 ≤ n) (hhigh : n < 2 ^ 63) (hr : Reads rest ts)
    (hstop : Stops rest) : Reads (decimal n ++ rest) (.int n :: ts) := by
  by_cases hn : n < 0
  · have hfits : n.natAbs ≤ Nat.pow 2 63 := by
      show n.natAbs ≤ 2 ^ 63
      omega
    rw [decimal_of_neg hn]
    refine hr.of_scan ?_
    simp [scan, isBlank, startsComment, startsWord, scanNumber, scanMagnitude_toDigits _ _ hstop,
      intToken?, hfits, abs_of_neg hn]
  · have hfits : n.natAbs ≤ Nat.pow 2 63 - 1 := by
      show n.natAbs ≤ 2 ^ 63 - 1
      omega
    have hpos : (n.natAbs : ℤ) = n := by omega
    rw [decimal_of_nonneg (not_lt.1 hn)]
    have hscan := scanMagnitude_toDigits false n.natAbs hstop
    have hdigits : ∀ c ∈ Nat.toDigits 10 n.natAbs, isDigit c = true := fun c hc =>
      isDigit_of_mem_toDigits hc
    cases hd : Nat.toDigits 10 n.natAbs with
    | nil => exact absurd hd Nat.toDigits_ne_nil
    | cons d ds =>
      rw [hd] at hscan hdigits
      have hdigit := hdigits d List.mem_cons_self
      have hmarks := not_mem_marks (isWordChar_of_isDigit hdigit)
      simp only [marks, List.mem_cons, List.not_mem_nil, or_false, not_or] at hmarks
      obtain ⟨hword, -, hminus, -⟩ := digit_only hdigit
      refine hr.of_scan ?_
      rw [List.cons_append] at hscan
      simp [scan, isBlank, startsComment, hmarks, hword, scanNumber_of_ne hminus, hscan, intToken?,
        hfits, hpos]

theorem isWordChar_of_mem_decimal {n : ℤ} (h : c ∈ decimal n) : isWordChar c = true := by
  by_cases hn : n < 0
  · rw [decimal_of_neg hn] at h
    rcases List.mem_cons.1 h with rfl | h
    · decide
    · exact isWordChar_of_isDigit (isDigit_of_mem_toDigits h)
  · rw [decimal_of_nonneg (not_lt.1 hn)] at h
    exact isWordChar_of_isDigit (isDigit_of_mem_toDigits h)

end LevelBundle.Lexer
