/-
  LevelBundle — the tokens of a line, and what is between them.

  * `Lexed start cs lexemes`: the characters are blanks and texts of tokens, and at last maybe a
    comment.  No text of a token could be longer.
  * `lexed_of_tokenizeFrom`: this is how a line is read.
  * `tokenize_lossless`: nothing of a line is lost but blanks and a comment, and each token can be
    read again from its own text.
-/
import LevelBundle.Proofs.ScriptSize
import LevelBundle.Proofs.TokenForms

namespace LevelBundle.Lexer

variable {c : Char} {cs rest text : List Char} {r : Option Token} {t : Token} {n start : ℕ}
  {lexemes : List Lexeme} {l : Lexeme}

/-! ## Reading a line -/

/-- No text that goes on with what follows has the form of a token. -/
def Longest (text rest : List Char) : Prop :=
  ∀ longer r, longer <+: text ++ rest → Spells longer r → longer.length ≤ text.length

/-- Characters of a line from an offset on, and the tokens that they hold. -/
inductive Lexed : ℕ → List Char → List Lexeme → Prop
  /-- The line ends. -/
  | stop {start : ℕ} : Lexed start [] []
  /-- A blank. -/
  | blank {start : ℕ} {c : Char} {cs : List Char} {lexemes : List Lexeme} : isBlank c = true →
    Lexed (start + c.utf8Size) cs lexemes → Lexed start (c :: cs) lexemes
  /-- A comment, up to the end of the line. -/
  | comment {start : ℕ} {c : Char} {cs : List Char} : startsComment c = true → '\n' ∉ cs →
    Lexed start (c :: cs) []
  /-- A token. -/
  | token {start : ℕ} {text rest : List Char} {t : Token} {lexemes : List Lexeme} :
    Spells text (some t) → Longest text rest → Lexed (start + byteLength text) rest lexemes →
    Lexed start (text ++ rest) (⟨t, start, start + byteLength text⟩ :: lexemes)

theorem skip_of_scan (h : scan c rest = .skip n) : (isBlank c = true ∧ n = 1) ∨
    (startsComment c = true ∧ n = 1 + (rest.takeWhile (· ≠ '\n')).length) := by
  unfold scan at h
  split_ifs at h with hblank hcomment hleft hright hcomma hequals hword hquote
  · cases h
    exact Or.inl ⟨hblank, rfl⟩
  · cases h
    exact Or.inr ⟨hcomment, rfl⟩
  · split at h
    · cases h
    · split at h <;> cases h
  · split at h <;> cases h

/-- A token that is read takes the longest text that has a form. -/
theorem longest_of_scan (h : scan c rest = .token t n) {after : List Char}
    (hsplit : c :: rest = text ++ after) (hlength : text.length = n) : Longest text after := by
  rintro longer r ⟨more, hmore⟩ hspells
  obtain ⟨d, ds, rfl, r', m, hscan, hle, -, -⟩ := hspells.scan more
  have hcons : c :: rest = d :: (ds ++ more) := hsplit.trans hmore.symm
  obtain ⟨rfl, rfl⟩ := List.cons.inj hcons
  rw [h] at hscan
  cases r' with
  | none => cases hscan
  | some t' =>
    cases hscan
    omega

theorem tokenizeFrom_break : tokenizeFrom start ('\n' :: rest) ≠ .ok lexemes := by
  intro h
  rw [tokenizeFrom] at h
  cases h

/-- **A line is read** as blanks, tokens and a comment. -/
theorem lexed_of_tokenizeFrom (h : tokenizeFrom start cs = .ok lexemes) :
    Lexed start cs lexemes := by
  fun_induction tokenizeFrom start cs generalizing lexemes with
  | case1 =>
    cases h
    exact .stop
  | case2 =>
    rename_i start c rest _ n hscan ih
    rcases skip_of_scan hscan with ⟨hblank, rfl⟩ | ⟨hcomment, rfl⟩
    · exact .blank hblank (ih h)
    · -- nothing can stand behind a comment but a line feed, and that is no token
      have hsplit := List.takeWhile_append_dropWhile (p := (· ≠ '\n')) (l := rest)
      have hfront : '\n' ∉ rest.takeWhile (· ≠ '\n') := fun hmem => by
        simpa using List.mem_takeWhile_imp hmem
      have hback := List.head?_dropWhile_not (· ≠ '\n') rest
      generalize rest.takeWhile (· ≠ '\n') = front at *
      generalize rest.dropWhile (· ≠ '\n') = back at *
      subst hsplit
      rw [Nat.add_sub_cancel_left, List.drop_left] at h
      cases back with
      | nil =>
        rw [tokenizeFrom] at h
        cases h
        exact .comment hcomment (by rwa [List.append_nil])
      | cons d back =>
        obtain rfl : d = '\n' := by simpa using hback
        exact absurd h tokenizeFrom_break
  | case3 =>
    rename_i start c rest _ t n hscan ih
    obtain ⟨text, after, hsplit, hlength, hspells⟩ := spells_of_scan hscan
    obtain ⟨tail, htail, heq⟩ := bind_eq_ok.1 h
    cases heq
    have hlongest := longest_of_scan hscan hsplit hlength
    obtain ⟨d, ds, rfl⟩ := List.exists_cons_of_ne_nil hspells.ne_nil
    have hcons : c :: rest = d :: (ds ++ after) := hsplit
    obtain ⟨rfl, rfl⟩ := List.cons.inj hcons
    have hrest := ih htail
    have hn : n - 1 = ds.length := by
      rw [← hlength]
      rfl
    have htake : (c :: (ds ++ after)).take n = c :: ds := by
      rw [← hlength]
      exact List.take_left
    rw [hn, List.drop_left] at hrest
    change Lexed (start + byteLength ((c :: (ds ++ after)).take n)) after tail at hrest
    show Lexed start (c :: ds ++ after)
      (⟨t, start, start + byteLength ((c :: (ds ++ after)).take n)⟩ :: tail)
    rw [htake] at hrest ⊢
    exact .token hspells hlongest hrest
  | case4 => cases h

/-! ## Spans -/

theorem byteLength_pos (h : cs ≠ []) : 0 < byteLength cs :=
  lt_of_lt_of_le (List.length_pos_of_ne_nil h) (length_le_byteLength cs)

theorem Lexed.bounds (h : Lexed start cs lexemes) (hl : l ∈ lexemes) :
    start ≤ l.start ∧ l.start < l.stop := by
  induction h with
  | stop | comment => cases hl
  | blank _ _ ih =>
    have := ih hl
    omega
  | token hspells _ _ ih =>
    have := byteLength_pos hspells.ne_nil
    rcases List.mem_cons.1 hl with rfl | hl
    · simp only
      omega
    · have := ih hl
      omega

/-- **The tokens are apart**, one behind the other. -/
theorem Lexed.pairwise (h : Lexed start cs lexemes) :
    lexemes.Pairwise fun a b => a.start < b.start ∧ a.stop ≤ b.start := by
  induction h with
  | stop | comment => exact .nil
  | blank _ _ ih => exact ih
  | token hspells _ hrest ih =>
    refine List.pairwise_cons.2 ⟨fun b hb => ?_, ih⟩
    have := byteLength_pos hspells.ne_nil
    have := hrest.bounds hb
    simp only
    omega

/-- The span of a token is that of some characters, behind some others. -/
structure Spans (l : Lexeme) (before text : List Char) : Prop where
  start : l.start = byteLength before
  stop : l.stop = byteLength (before ++ text)

/-- **Each token has a text.** -/
theorem Lexed.exists_text (h : Lexed start cs lexemes) (hl : l ∈ lexemes) {front : List Char}
    (hstart : start = byteLength front) :
    ∃ before text after, front ++ cs = before ++ text ++ after ∧ Spans l before text ∧
      Spells text (some l.token) ∧ Longest text after := by
  induction h generalizing front with
  | stop | comment => cases hl
  | @blank start c cs lexemes _ _ ih =>
    have hnext : start + c.utf8Size = byteLength (front ++ [c]) := by
      rw [byteLength_append, hstart]
      rfl
    obtain ⟨before, text, after, hsplit, hrest⟩ := ih hl hnext
    exact ⟨before, text, after, by rw [← hsplit, List.append_assoc]; rfl, hrest⟩
  | @token start text rest t lexemes hspells hlongest _ ih =>
    have hnext : start + byteLength text = byteLength (front ++ text) := by
      rw [byteLength_append, hstart]
    rcases List.mem_cons.1 hl with rfl | hl
    · exact ⟨front, text, rest, (List.append_assoc ..).symm, ⟨hstart, hnext⟩, hspells, hlongest⟩
    · obtain ⟨before, text', after, hsplit, hrest⟩ := ih hl hnext
      exact ⟨before, text', after, by rw [← hsplit, List.append_assoc], hrest⟩

/-- A comment up to the end of the line, or nothing. -/
def IsComment (cs : List Char) : Prop :=
  cs = [] ∨ ∃ c body, cs = c :: body ∧ startsComment c = true ∧ '\n' ∉ body

/-- **What belongs to no token** is a blank, or the comment at the end. -/
theorem Lexed.exists_comment (h : Lexed start cs lexemes) :
    ∃ body comment, cs = body ++ comment ∧ IsComment comment ∧
      (∀ l ∈ lexemes, l.stop ≤ start + byteLength body) ∧
      ∀ before c after, body = before ++ c :: after →
        (∀ l ∈ lexemes, ¬ (l.start ≤ start + byteLength before ∧
          start + byteLength before < l.stop)) → isBlank c = true := by
  induction h with
  | stop =>
    exact ⟨[], [], rfl, Or.inl rfl, nofun, fun before c after h => by simp at h⟩
  | @comment start c cs hc hbreak =>
    exact ⟨[], c :: cs, rfl, Or.inr ⟨c, cs, rfl, hc, hbreak⟩, nofun,
      fun before c after h => by simp at h⟩
  | @blank start c cs lexemes hblank _ ih =>
    obtain ⟨body, comment, rfl, hcomment, hstop, hgap⟩ := ih
    refine ⟨c :: body, comment, rfl, hcomment, fun l hl => ?_, fun before d after hbody hout => ?_⟩
    · have := hstop l hl
      rw [byteLength_cons]
      omega
    · cases before with
      | nil => rwa [(List.cons.inj hbody).1] at hblank
      | cons b before =>
        obtain ⟨rfl, htail⟩ := List.cons.inj hbody
        refine hgap before d after htail fun l hl hin => hout l hl ?_
        rw [byteLength_cons]
        omega
  | @token start text rest t lexemes hspells hlongest hrest ih =>
    obtain ⟨body, comment, rfl, hcomment, hstop, hgap⟩ := ih
    refine ⟨text ++ body, comment, by rw [List.append_assoc], hcomment, fun l hl => ?_,
      fun before d after hbody hout => ?_⟩
    · rw [byteLength_append]
      rcases List.mem_cons.1 hl with rfl | hl
      · simp only
        omega
      · have := hstop l hl
        omega
    · -- inside the text of the token, or behind it
      have behind {skipped : List Char} (hbefore : before = text ++ skipped)
          (htail : body = skipped ++ d :: after) : isBlank d = true := by
        refine hgap skipped d after htail fun l hl hin => hout l (List.mem_cons_of_mem _ hl) ?_
        rw [hbefore, byteLength_append]
        omega
      rcases List.append_eq_append_iff.1 hbody with ⟨skipped, hbefore, htail⟩ | ⟨inner, htext, htail⟩
      · exact behind hbefore htail
      · cases inner with
        | nil =>
          have hbefore : before = text ++ [] := by rw [htext, List.append_nil, List.append_nil]
          exact behind hbefore htail.symm
        | cons b inner =>
          have := b.utf8Size_pos
          refine absurd ⟨Nat.le_add_right _ _, ?_⟩ (hout _ List.mem_cons_self)
          simp only [htext, byteLength_append, byteLength_cons]
          omega

/-! ## Lines -/

theorem Spells.tokenize (h : Spells text (some t)) :
    Lexer.tokenize (String.ofList text) = .ok [⟨t, 0, byteLength text⟩] := by
  obtain ⟨c, cs, rfl, r, n, hscan, hle, hle', htell⟩ := h.scan []
  obtain rfl : n = (c :: cs).length := by
    rw [List.append_nil] at hle'
    omega
  rw [htell rfl, List.append_nil] at hscan
  rw [Lexer.tokenize, String.toList_ofList, tokenizeFrom, hscan]
  simp [Found.piece, tokenizeFrom]

/-- What is read of a line, and what is not. -/
structure Lossless (line : List Char) (lexemes : List Lexeme) : Prop where
  /-- Each token takes some of the bytes of the line. -/
  inside : ∀ l ∈ lexemes, l.start < l.stop ∧ l.stop ≤ byteLength line
  /-- The tokens are in order, and apart. -/
  apart : lexemes.Pairwise fun a b => a.start < b.start ∧ a.stop ≤ b.start
  /-- A character that belongs to no token is a blank, or to the comment behind them all. -/
  gaps : ∃ body comment, line = body ++ comment ∧ IsComment comment ∧
    (∀ l ∈ lexemes, l.stop ≤ byteLength body) ∧
    ∀ before c after, body = before ++ c :: after →
      (∀ l ∈ lexemes, ¬ (l.start ≤ byteLength before ∧ byteLength before < l.stop)) →
        isBlank c = true
  /-- Each token has a text that tells it, that could not be longer, and that is read as this
      token if it stands alone. -/
  texts : ∀ l ∈ lexemes, ∃ before text after, line = before ++ text ++ after ∧
    Spans l before text ∧ Spells text (some l.token) ∧ Longest text after ∧
    tokenize (String.ofList text) = .ok [⟨l.token, 0, byteLength text⟩]

/-- **The tokens of a line lose nothing of it** but blanks and a comment. -/
theorem tokenize_lossless {line : String} {lexemes : List Lexeme}
    (h : tokenize line = .ok lexemes) : Lossless line.toList lexemes := by
  have hlexed := lexed_of_tokenizeFrom h
  have hstart : 0 = byteLength [] := rfl
  obtain ⟨body, comment, hline, hcomment, hstop, hgap⟩ := hlexed.exists_comment
  simp only [Nat.zero_add] at hstop hgap
  refine ⟨fun l hl => ⟨(hlexed.bounds hl).2, ?_⟩, hlexed.pairwise,
    ⟨body, comment, hline, hcomment, hstop, hgap⟩, fun l hl => ?_⟩
  · have := hstop l hl
    rw [hline, byteLength_append]
    omega
  · obtain ⟨before, text, after, hsplit, hspans, hspells, hlongest⟩ :=
      hlexed.exists_text hl hstart
    exact ⟨before, text, after, hsplit, hspans, hspells, hlongest, hspells.tokenize⟩

/-- A line whose tokens run into each other. -/
def Demo.mixedLine : String := "12ab0x1g 0x1g,1..5 -2.5e1e\"#;\";\"c\""

/-- Its tokens. -/
def Demo.mixedLexemes : List Lexeme :=
  [⟨.int 12, 0, 2⟩, ⟨.word "ab0x1g", 2, 8⟩, ⟨.int 1, 9, 12⟩, ⟨.word "g", 12, 13⟩,
    ⟨.comma, 13, 14⟩, ⟨.int 1, 14, 15⟩, ⟨.word "..5", 15, 18⟩,
    ⟨.float (Binary64.ofDecimal true 25 0), 19, 25⟩, ⟨.word "e", 25, 26⟩, ⟨.str "#;", 26, 30⟩]

/-- A comment starts behind the last of them, and not inside the text in quotes. -/
theorem tokenize_lossless_demo : tokenize Demo.mixedLine = .ok Demo.mixedLexemes ∧
    Lossless Demo.mixedLine.toList Demo.mixedLexemes := by
  have h : tokenize Demo.mixedLine = .ok Demo.mixedLexemes := by decide +kernel
  exact ⟨h, tokenize_lossless h⟩

end LevelBundle.Lexer
