/-
  LevelBundle — how long a script is.

  * `expandedSize d text`: the bytes of the lines of a script text once the
    references in them are expanded.
  * `tokenize_written`: the arguments on a line take no more to write than the line
    has bytes.  A number takes two bytes with what sets it apart, and the first on a
    line has nothing before it; `credit` makes up for that.  `Enough` says so of one
    token, with a lemma for each kind of token.
  * `written_readTexts`: no script reads as a table that takes more to write.
-/
import LevelBundle.Proofs.Written
import LevelBundle.Script.Reader

namespace LevelBundle

/-- The bytes it takes at least to write a token and to set it apart, if it is an
    argument. -/
def Token.written (t : Token) : ℕ := ((Argument.ofToken? t).map Argument.written).getD 0

/-! ## Bytes of characters -/

theorem byteLength_append (cs ds : List Char) :
    byteLength (cs ++ ds) = byteLength cs + byteLength ds := by
  show ((cs ++ ds).map Char.utf8Size).sum = (cs.map Char.utf8Size).sum + (ds.map Char.utf8Size).sum
  rw [List.map_append, List.sum_append]

theorem byteLength_cons (c : Char) (cs : List Char) :
    byteLength (c :: cs) = c.utf8Size + byteLength cs := rfl

theorem length_le_byteLength (cs : List Char) : cs.length ≤ byteLength cs := by
  induction cs with
  | nil => exact Nat.zero_le _
  | cons c cs ih =>
    have := c.utf8Size_pos
    rw [List.length_cons, byteLength_cons]
    omega

theorem byteLength_take_add_drop (n : ℕ) (cs : List Char) :
    byteLength (cs.take n) + byteLength (cs.drop n) = byteLength cs := by
  rw [← byteLength_append, List.take_append_drop]

theorem le_byteLength_take {n : ℕ} {cs : List Char} (h : n ≤ cs.length) :
    n ≤ byteLength (cs.take n) := by
  have := length_le_byteLength (cs.take n)
  rw [List.length_take] at this
  omega

theorem utf8ByteSize_ofList (cs : List Char) : (String.ofList cs).utf8ByteSize = byteLength cs := by
  induction cs with
  | nil => rfl
  | cons c cs ih =>
    rw [byteLength_cons, ← ih, ← List.singleton_append, String.ofList_append,
      String.utf8ByteSize_append, ← String.singleton_eq_ofList, String.utf8ByteSize_singleton]

namespace Lexer

/-- One for a line that starts with a digit. -/
def credit : List Char → ℕ
  | c :: _ => if isDigit c then 1 else 0
  | [] => 0

theorem credit_le (cs : List Char) : credit cs ≤ 1 := by
  unfold credit
  split
  · split_ifs <;> omega
  · omega

theorem credit_drop_takeWhile {p : Char → Bool} (hp : ∀ c, isDigit c = true → p c = true)
    (cs : List Char) : credit (cs.drop (cs.takeWhile p).length) = 0 := by
  induction cs with
  | nil => rfl
  | cons c cs ih =>
    by_cases hc : p c = true
    · rw [List.takeWhile_cons_of_pos hc, List.length_cons, List.drop_succ_cons]
      exact ih
    · rw [List.takeWhile_cons_of_neg hc, List.length_nil, List.drop_zero, credit,
        if_neg fun hd => hc (hp c hd)]

/-! ## Numbers -/

/-- What is known of the number that a scan finds. -/
structure Numeric (body : List Char) (token : Token) (n : ℕ) : Prop where
  number : (∃ v, token = .int v) ∨ ∃ v, token = .float v
  length_le : n ≤ body.length
  digit : credit body = 1
  apart : credit (body.drop n) + 2 ≤ n + 1

theorem credit_of_takeWhile {body : List Char} (h : (body.takeWhile isDigit).isEmpty = false) :
    credit body = 1 ∧ 1 ≤ (body.takeWhile isDigit).length := by
  cases body with
  | nil => cases h
  | cons c cs =>
    by_cases hc : isDigit c = true
    · rw [credit, if_pos hc, List.takeWhile_cons_of_pos hc, List.length_cons]
      exact ⟨rfl, Nat.le_add_left _ _⟩
    · rw [List.takeWhile_cons_of_neg hc] at h
      cases h

theorem intToken?_eq_some {negative : Bool} {magnitude limit : ℕ} {token : Token}
    (h : intToken? negative magnitude limit = some token) : ∃ v, token = .int v := by
  unfold intToken? at h
  split_ifs at h <;> cases h <;> exact ⟨_, rfl⟩

theorem length_takeWhile_le (p : Char → Bool) (cs : List Char) :
    (cs.takeWhile p).length ≤ cs.length := (List.takeWhile_sublist p).length_le

theorem scanExponent_le (cs : List Char) : (scanExponent cs).2 ≤ cs.length := by
  unfold scanExponent
  split
  · rename_i e rest
    simp only
    split_ifs
    · split <;> simp only [List.length_cons] <;> have := length_takeWhile_le isDigit <;> grind
    · exact Nat.zero_le _
  · exact le_rfl

theorem scanDecimal_spec {negative : Bool} {body : List Char} {token : Token} {n : ℕ}
    (h : scanDecimal negative body = some (some token, n)) : Numeric body token n := by
  simp only [scanDecimal] at h
  generalize (if negative = true then 2 ^ 63 else 2 ^ 63 - 1) = limit at h
  by_cases hw : (body.takeWhile isDigit).isEmpty = true
  · rw [if_pos hw] at h; cases h
  rw [if_neg hw] at h
  rw [Bool.not_eq_true] at hw
  obtain ⟨hcredit, hone⟩ := credit_of_takeWhile hw
  have hlen := length_takeWhile_le isDigit body
  have hzero := credit_drop_takeWhile (p := isDigit) (fun _ h => h) body
  have integer (h : some (intToken? negative (spelled 10 (body.takeWhile isDigit)) limit,
      (body.takeWhile isDigit).length) = some (some token, n)) : Numeric body token n := by
    rw [Option.some.injEq, Prod.mk.injEq] at h
    obtain ⟨hv, rfl⟩ := h
    exact ⟨Or.inl (intToken?_eq_some hv), hlen, hcredit, by rw [hzero]; omega⟩
  split at h
  · rename_i rest hrest
    by_cases hp : (rest.takeWhile isDigit).isEmpty = true
    · rw [if_pos hp] at h
      exact integer h
    rw [if_neg hp, Option.some.injEq, Prod.mk.injEq, Option.some.injEq] at h
    obtain ⟨rfl, rfl⟩ := h
    rw [Bool.not_eq_true] at hp
    have hplaces := (credit_of_takeWhile hp).2
    have hsum : (body.takeWhile isDigit).length + (body.dropWhile isDigit).length = body.length := by
      rw [← List.length_append, List.takeWhile_append_dropWhile]
    have hsum' : (rest.takeWhile isDigit).length + (rest.dropWhile isDigit).length = rest.length := by
      rw [← List.length_append, List.takeWhile_append_dropWhile]
    have hexp := scanExponent_le (rest.dropWhile isDigit)
    rw [hrest, List.length_cons] at hsum
    exact ⟨Or.inr ⟨_, rfl⟩, by omega, hcredit, by
      have := credit_le (body.drop ((body.takeWhile isDigit).length + 1 +
        (rest.takeWhile isDigit).length + (scanExponent (rest.dropWhile isDigit)).2))
      omega⟩
  · exact integer h

theorem scanMagnitude_spec {negative : Bool} {body : List Char} {token : Token} {n : ℕ}
    (h : scanMagnitude negative body = some (some token, n)) : Numeric body token n := by
  unfold scanMagnitude at h
  split at h
  · rename_i x rest
    simp only at h
    split_ifs at h with hx
    · rw [Option.some.injEq, Prod.mk.injEq] at h
      obtain ⟨hv, rfl⟩ := h
      have hlen := length_takeWhile_le isHexDigit rest
      have hne : (rest.takeWhile isHexDigit).length ≠ 0 := fun h0 => by
        rw [List.length_eq_zero_iff.1 h0] at hx
        simp at hx
      refine ⟨Or.inl (intToken?_eq_some hv), ?_, rfl, ?_⟩
      · simp only [List.length_cons]; omega
      · have := credit_le (('0' :: x :: rest).drop (2 + (rest.takeWhile isHexDigit).length))
        omega
    · exact scanDecimal_spec h
  · exact scanDecimal_spec h

/-- **A number takes two bytes** with what sets it apart from a number after it. -/
theorem scanNumber_spec {cs : List Char} {token : Token} {n : ℕ}
    (h : scanNumber cs = some (some token, n)) :
    ((∃ v, token = .int v) ∨ ∃ v, token = .float v) ∧ n ≤ cs.length ∧ 1 ≤ n ∧
      credit (cs.drop n) + 2 ≤ n + credit cs := by
  unfold scanNumber at h
  split at h
  · rename_i body
    obtain ⟨⟨token', m⟩, hm, he⟩ := Option.map_eq_some_iff.1 h
    rw [Prod.mk.injEq] at he
    obtain ⟨rfl, rfl⟩ := he
    obtain ⟨hnum, hlen, -, hapart⟩ := scanMagnitude_spec hm
    have hzero : credit ('-' :: body) = 0 := rfl
    exact ⟨hnum, Nat.succ_le_succ hlen, by omega, by
      rw [hzero, List.drop_succ_cons]; omega⟩
  · obtain ⟨hnum, hlen, hdigit, hapart⟩ := scanMagnitude_spec h
    exact ⟨hnum, hlen, by omega, by omega⟩

/-! ## Texts -/

/-- Escapes stand for no more bytes than they are written in. -/
theorem unescape_le {cs text : List Char} (h : unescape cs = some text) :
    byteLength text ≤ byteLength cs := by
  fun_induction unescape cs generalizing text with
  | case1 => cases h; exact le_rfl
  | case2 rest ih | case3 rest ih | case4 rest ih | case5 rest ih | case6 rest ih
  | case7 rest ih =>
    obtain ⟨text', ht, rfl⟩ := Option.map_eq_some_iff.1 h
    have := ih ht
    show 1 + byteLength text' ≤ 1 + (1 + byteLength rest)
    omega
  | case8 hi lo rest hx ih =>
    obtain ⟨text', ht, rfl⟩ := Option.map_eq_some_iff.1 h
    have := ih ht
    have := (Char.ofNat (16 * digitValue hi + digitValue lo)).utf8Size_le_four
    have := hi.utf8Size_pos; have := lo.utf8Size_pos
    show _ + byteLength text' ≤ 1 + (1 + (hi.utf8Size + (lo.utf8Size + byteLength rest)))
    omega
  | case9 | case10 => cases h
  | case11 =>
    rename_i ih
    obtain ⟨text', ht, rfl⟩ := Option.map_eq_some_iff.1 h
    exact Nat.add_le_add_left (ih ht) _

/-- A text that is closed has room for its closing quote. -/
theorem scanText_lt {cs : List Char} {n : ℕ} (h : scanText cs = (n, true)) : n < cs.length := by
  fun_induction scanText cs generalizing n with
  | case1 | case2 | case3 | case6 => cases h
  | case5 => cases h; exact Nat.succ_pos _
  | case4 =>
    rename_i hm ih
    cases h
    exact Nat.add_lt_add_right (ih hm) 2
  | case7 =>
    rename_i hm ih
    cases h
    exact Nat.add_lt_add_right (ih hm) 1

/-! ## Lines -/

/-- The first `n` characters of a line are enough to write a token that they spell. -/
structure Enough (cs : List Char) (token : Token) (n : ℕ) : Prop where
  one_le : 1 ≤ n
  written_le : token.written + credit (cs.drop n) ≤ byteLength (cs.take n) + credit cs

theorem enough_sign (c : Char) (rest : List Char) {token : Token} (h : token.written = 0) :
    Enough (c :: rest) token 1 where
  one_le := le_rfl
  written_le := by
    have := c.utf8Size_pos
    have := credit_le ((c :: rest).drop 1)
    rw [h, List.take_succ_cons, List.take_zero, byteLength_cons]
    omega

theorem written_word (cs : List Char) :
    (Token.word (String.ofList cs)).written = max 1 (byteLength cs) := by
  rw [← utf8ByteSize_ofList cs]; rfl

theorem written_str (cs : List Char) :
    (Token.str (String.ofList cs)).written = byteLength cs + 1 := by
  rw [← utf8ByteSize_ofList cs]; rfl

/-- A word goes on over digits, so none is behind it. -/
theorem enough_word (c : Char) (rest : List Char) :
    Enough (c :: rest) (.word (String.ofList (c :: rest.takeWhile isWordChar)))
      (1 + (rest.takeWhile isWordChar).length) where
  one_le := Nat.le_add_right _ _
  written_le := by
    have := c.utf8Size_pos
    have hzero := credit_drop_takeWhile (p := isWordChar)
      (fun c hd => by simp [isWordChar, hd]) rest
    have htake : rest.take (rest.takeWhile isWordChar).length = rest.takeWhile isWordChar :=
      (List.prefix_iff_eq_take.1 (List.takeWhile_prefix _)).symm
    rw [written_word, Nat.add_comm 1, List.drop_succ_cons, List.take_succ_cons, htake, hzero,
      byteLength_cons]
    omega

/-- The quotes of a text make up for the zero behind it and for a digit. -/
theorem enough_str (c : Char) {rest text : List Char} {m : ℕ} (hm : scanText rest = (m, true))
    (hu : unescape (rest.take m) = some text) :
    Enough (c :: rest) (.str (String.ofList text)) (m + 2) where
  one_le := Nat.le_add_left _ _
  written_le := by
    have hlt := scanText_lt hm
    have hle := unescape_le hu
    have := credit_le ((c :: rest).drop (m + 2))
    have := c.utf8Size_pos
    have := (rest[m]).utf8Size_pos
    rw [written_str, List.take_succ_cons, byteLength_cons, List.take_succ_eq_append_getElem hlt,
      byteLength_append, byteLength_cons]
    omega

theorem enough_number {cs : List Char} {token : Token} {n : ℕ}
    (h : scanNumber cs = some (some token, n)) : Enough cs token n := by
  obtain ⟨hnum, hlen, hone, hapart⟩ := scanNumber_spec h
  have hwritten : token.written = 2 := by
    rcases hnum with ⟨v, rfl⟩ | ⟨v, rfl⟩ <;> rfl
  have := le_byteLength_take hlen
  exact ⟨hone, by omega⟩

/-- **A token that comes first on a line** is spelled in characters that are enough for it. -/
theorem enough_of_scan {c : Char} {rest : List Char} {token : Token} {n : ℕ}
    (h : scan c rest = .token token n) : Enough (c :: rest) token n := by
  unfold scan at h
  split_ifs at h with _ _ h1 h2 h3 h4 hword htext
  · cases h; exact enough_sign c rest rfl
  · cases h; exact enough_sign c rest rfl
  · cases h; exact enough_sign c rest rfl
  · cases h; exact enough_sign c rest rfl
  · cases h; exact enough_word c rest
  · split at h
    · cases h
    rename_i m hm
    split at h
    · rename_i text hu
      cases h
      exact enough_str c hm hu
    · cases h
  · split at h
    · rename_i token' m hm
      cases h
      exact enough_number hm
    · cases h
    · cases h

theorem scan_skip {c : Char} {rest : List Char} {n : ℕ} (h : scan c rest = .skip n) : 1 ≤ n := by
  unfold scan at h
  split_ifs at h
  · cases h; exact le_rfl
  · cases h; exact Nat.le_add_right _ _
  · split at h
    · cases h
    · split at h <;> cases h
  · split at h <;> cases h

/-- **The arguments on a line take no more to write than it has bytes.** -/
theorem tokenize_written {start : ℕ} {cs : List Char} {lexemes : List Lexeme}
    (h : tokenizeFrom start cs = .ok lexemes) :
    (lexemes.map fun l => l.token.written).sum ≤ byteLength cs + credit cs := by
  have drop_pred {c : Char} {rest : List Char} {n : ℕ} (hn : 1 ≤ n) :
      rest.drop (n - 1) = (c :: rest).drop n := by
    obtain ⟨m, rfl⟩ := Nat.exists_eq_add_of_le' hn
    rw [List.drop_succ_cons, Nat.add_sub_cancel]
  fun_induction tokenizeFrom start cs generalizing lexemes with
  | case1 => cases h; exact Nat.zero_le _
  | case2 =>
    rename_i start c rest _ n hs ih
    have hn := scan_skip hs
    have hrest := ih h
    have hsplit := byteLength_take_add_drop n (c :: rest)
    have hc := c.utf8Size_pos
    have htake : c.utf8Size ≤ byteLength ((c :: rest).take n) := by
      obtain ⟨m, rfl⟩ := Nat.exists_eq_add_of_le' hn
      exact Nat.le_add_right _ _
    rw [drop_pred (c := c) hn] at hrest
    have := credit_le ((c :: rest).drop n)
    omega
  | case3 =>
    rename_i start c rest _ token n hs ih
    obtain ⟨hn, hle⟩ := enough_of_scan hs
    simp only [bind_eq_ok, pure_eq_ok] at h
    obtain ⟨lexemes', h1, rfl⟩ := h
    have hrest := ih h1
    have hsplit := byteLength_take_add_drop n (c :: rest)
    rw [drop_pred (c := c) hn] at hrest
    rw [List.map_cons, List.sum_cons]
    simp only
    omega
  | case4 => cases h

end Lexer

/-! ## Statements -/

/-- Arguments take as much to write as their tokens. -/
theorem Argument.written_ofTokens {tokens : List Token} {arguments : List Argument}
    (h : ofTokens tokens = .ok arguments) :
    (arguments.map written).sum ≤ (tokens.map Token.written).sum := by
  fun_induction ofTokens tokens generalizing arguments with
  | case1 => cases h; exact le_rfl
  | case2 rest ih => exact (ih h).trans (Nat.le_add_left _ _)
  | case3 => cases h
  | case4 token rest _ argument ha ih =>
    simp only [bind_eq_ok, pure_eq_ok] at h
    obtain ⟨arguments', h1, rfl⟩ := h
    have ht : token.written = argument.written := by rw [Token.written, ha]; rfl
    rw [List.map_cons, List.map_cons, List.sum_cons, List.sum_cons, ht]
    exact Nat.add_le_add_left (ih h1) _

/-- The bytes it takes at least to write a statement: a header one byte. -/
def Statement.written : Statement → ℕ
  | .empty => 0
  | .header _ _ => 1
  | .line _ arguments => (arguments.map Argument.written).sum

/-- A statement takes no more to write than its line has bytes. -/
theorem Statement.written_ofTokens {inside : Bool} {cs : List Char} {start : ℕ}
    {lexemes : List Lexeme} {st : Statement} (hl : Lexer.tokenizeFrom start cs = .ok lexemes)
    (h : ofTokens inside (lexemes.map Lexeme.token) = .ok st) : st.written ≤ byteLength cs := by
  have hle := Lexer.tokenize_written hl
  have hcredit := Lexer.credit_le cs
  have hsum : (lexemes.map fun l => l.token.written).sum =
      ((lexemes.map Lexeme.token).map Token.written).sum := by rw [List.map_map]; rfl
  rw [hsum] at hle
  generalize htokens : lexemes.map Lexeme.token = tokens at h hle
  unfold ofTokens at h
  split at h
  · cases h; exact Nat.zero_le _
  · rename_i rest
    have hheader : st.written = 1 := by
      unfold ofHeader at h
      split at h
      · simp only [bind_eq_ok, pure_eq_ok] at h
        obtain ⟨_, -, rfl⟩ := h; rfl
      · simp only [bind_eq_ok, pure_eq_ok] at h
        obtain ⟨_, -, rfl⟩ := h; rfl
      · cases h
    have hne : cs ≠ [] := by
      rintro rfl
      rw [Lexer.tokenizeFrom] at hl
      cases hl
      cases htokens
    rw [hheader]
    exact (List.length_pos_iff.2 hne).trans_le (length_le_byteLength cs)
  · rename_i keyword rest
    split_ifs at h
    simp only [bind_eq_ok, pure_eq_ok] at h
    obtain ⟨arguments, ha, rfl⟩ := h
    have hargs := Argument.written_ofTokens ha
    have hword : 1 ≤ (Token.word keyword).written := Nat.le_max_left _ _
    rw [List.map_cons, List.sum_cons] at hle
    show (arguments.map Argument.written).sum ≤ _
    omega
  · cases h

/-! ## Scripts -/

/-- The bytes of a line once the references in it are expanded. -/
def Definitions.expandedLength (d : Definitions) (line : List Char) : ℕ :=
  match d.expand line with
  | .ok expanded => byteLength expanded
  | .error _ => 0

/-- The bytes of a script text once the references in it are expanded, line endings
    left out. -/
def Definitions.expandedSize (d : Definitions) (text : String) : ℕ :=
  ((SourceLine.ofText text).map fun l => d.expandedLength l.text).sum

namespace Reader

variable {options : ReadOptions} {reader reader' : Reader}

/-- What a table and the section that is being read take to write. -/
def pending (reader : Reader) (current : Option ScriptSection) : ℕ :=
  reader.table.written + (current.map ScriptSection.written).getD 0

theorem runs_commit {s : ScriptSection} {u : Unit} (h : Runs (commit options s) reader u reader') :
    reader'.table.written ≤ reader.table.written + s.written := by
  simp only [commit, runs_bind, runs_get] at h
  obtain ⟨_, _, ⟨rfl, rfl⟩, h⟩ := h
  split at h
  · simp only [runs_throw] at h
  · rename_i table warning hi
    rw [runs_set] at h
    subst h
    unfold SectionTable.insert at hi
    split_ifs at hi
    · split at hi
      · cases hi
      · cases hi; exact Nat.le_add_right _ _
    · cases hi
      simp [SectionTable.written]

theorem statement_written {inside : Bool} {line : List Char} {st : Statement}
    (h : statement options inside line = .ok st) :
    st.written ≤ options.definitions.expandedLength line := by
  simp only [statement, bind_eq_ok] at h
  obtain ⟨expanded, he, h⟩ := h
  rw [Definitions.expandedLength, he]
  split at h
  · simp only [throw_ne_ok] at h
  · rename_i lexemes hl
    exact Statement.written_ofTokens hl h

/-- **A line adds at most its bytes.** -/
theorem runs_readLine {current next : Option ScriptSection} {origin : Origin} {line : List Char}
    (h : Runs (readLine options current origin line) reader next reader') :
    reader'.pending next ≤ reader.pending current + options.definitions.expandedLength line := by
  unfold readLine at h
  split at h
  · simp only [runs_throw] at h
  · obtain ⟨rfl, rfl⟩ := runs_pure.1 h
    exact Nat.le_add_right _ _
  · rename_i name alignment hst
    have hle : 1 ≤ options.definitions.expandedLength line := statement_written hst
    have header (origin : Origin) :
        (ScriptSection.mk name alignment origin []).written = 1 := rfl
    split at h
    · simp only [runs_bind, runs_pure] at h
      obtain ⟨_, _, hc, rfl, rfl⟩ := h
      have := runs_commit hc
      simp only [pending, Option.map_some, Option.getD_some, header]
      omega
    · obtain ⟨rfl, rfl⟩ := runs_pure.1 h
      simp only [pending, Option.map_some, Option.getD_some, header, Option.map_none,
        Option.getD_none]
      omega
  · rename_i keyword arguments hst
    have hle := statement_written hst
    obtain ⟨rfl, rfl⟩ := runs_pure.1 h
    rcases current with _ | s
    · exact Nat.le_add_right _ _
    · have hadd (origin : Origin) :
          (ScriptSection.written { s with lines := s.lines ++ [⟨keyword, arguments, origin⟩] }) =
            s.written + (Statement.line keyword arguments).written := by
        simp [ScriptSection.written, ScriptLine.written, Statement.written, Nat.add_assoc]
      simp only [pending, Option.map_some, Option.getD_some, hadd]
      omega

theorem runs_readLines {file : ℕ} {path : Path} {lines : List SourceLine}
    {current : Option ScriptSection} {u : Unit}
    (h : Runs (readLines options file path current lines) reader u reader') :
    reader'.table.written ≤ reader.pending current +
      (lines.map fun l => options.definitions.expandedLength l.text).sum := by
  induction lines generalizing current reader with
  | nil =>
    rcases current with _ | s
    · obtain ⟨-, rfl⟩ := runs_pure.1 h
      exact le_rfl
    · exact runs_commit h
  | cons l rest ih =>
    rw [readLines, runs_bind] at h
    obtain ⟨next, reader₁, h1, h2⟩ := h
    have hline := runs_readLine h1
    have hrest := ih h2
    rw [List.map_cons, List.sum_cons]
    omega

/-- **A text adds at most its bytes**, once expanded. -/
theorem runs_readText {path : Path} {text : String} {u : Unit}
    (h : Runs (readText options path text) reader u reader') :
    reader'.table.written ≤ reader.table.written + options.definitions.expandedSize text := by
  simp only [readText, runs_bind, runs_get, runs_set] at h
  obtain ⟨_, _, ⟨rfl, rfl⟩, _, _, rfl, h⟩ := h
  exact runs_readLines h

/-- **What several texts read as takes no more to write than they have bytes.** -/
theorem written_readTexts {texts : List (Path × String)} {u : Unit}
    (h : Runs (texts.forM fun t => readText options t.1 t.2) reader u reader') :
    reader'.table.written ≤ reader.table.written +
      (texts.map fun t => options.definitions.expandedSize t.2).sum := by
  induction texts generalizing reader with
  | nil =>
    obtain ⟨-, rfl⟩ := runs_pure.1 h
    exact Nat.le_add_right _ _
  | cons t texts ih =>
    obtain ⟨_, reader₁, h1, h2⟩ := runs_bind.1 h
    have htext := runs_readText h1
    have hrest := ih h2
    rw [List.map_cons, List.sum_cons]
    omega

end Reader

end LevelBundle
