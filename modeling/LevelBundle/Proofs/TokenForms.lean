/-
  LevelBundle — the forms of tokens.

  The text of a token has one of a few forms, and tells which token it is.  It tells none if an
  integer does not fit 64 bits, or a text in quotes has a wrong escape.

  * `Spells cs r`: the characters have a form, and tell `r`.
  * `spells_of_scan`: a token is read from a text of its own.
  * `Uncut text rest r`: a scan takes all of the text, whatever follows; if it takes no more, it
    tells `r`.  `Spells.scan`: this is so of every text that has a form.
-/
import LevelBundle.Proofs.TokenText
import Mathlib.Data.List.TakeWhile

namespace LevelBundle.Lexer

variable {c : Char} {cs rest body : List Char} {r : Option Token} {t : Token} {negative : Bool}
  {n : ℕ} {e : ℤ}

/-! ## Forms -/

/-- At least one character, and all of a class. -/
structure Row (p : Char → Bool) (cs : List Char) : Prop where
  nonempty : cs ≠ []
  all : ∀ c ∈ cs, p c = true

/-- The sign of a number. -/
def sign (negative : Bool) : List Char := if negative then ['-'] else []

/-- The signs of an exponent. -/
def exponentSigns : List (List Char × ℤ) := [([], 1), (['+'], 1), (['-'], -1)]

/-- The greatest magnitude of a decimal integer. -/
def greatest (negative : Bool) : ℕ := if negative then Nat.pow 2 63 else Nat.pow 2 63 - 1

/-- An exponent, with its value. -/
inductive Exponent : List Char → ℤ → Prop
  /-- There is none. -/
  | absent : Exponent [] 0
  /-- `e`, a sign and digits. -/
  | present {e : Char} {mark ds : List Char} {s : ℤ} : e = 'e' ∨ e = 'E' →
    (mark, s) ∈ exponentSigns → Row isDigit ds → Exponent (e :: (mark ++ ds)) (s * spelled 10 ds)

/-- A number behind its sign. -/
inductive Magnitude (negative : Bool) : List Char → Option Token → Prop
  /-- Decimal digits. -/
  | decimal {ds : List Char} : Row isDigit ds →
    Magnitude negative ds (intToken? negative (spelled 10 ds) (greatest negative))
  /-- `0x` and hexadecimal digits. -/
  | hexadecimal {x : Char} {ds : List Char} : x = 'x' ∨ x = 'X' → Row isHexDigit ds →
    Magnitude negative ('0' :: x :: ds) (intToken? negative (spelled 16 ds) (Nat.pow 2 63 - 1))
  /-- A fraction, with an exponent or without. -/
  | fraction {whole places exponent : List Char} {e : ℤ} : Row isDigit whole →
    Row isDigit places → Exponent exponent e →
    Magnitude negative (whole ++ '.' :: (places ++ exponent)) (some (.float
      (Binary64.ofDecimal negative (spelled 10 (whole ++ places)) (e - places.length))))

/-- What stands between quotes: a backslash takes the next character with it. -/
inductive Inner : List Char → Prop
  /-- Nothing. -/
  | nil : Inner []
  /-- A character that ends nothing. -/
  | plain {c : Char} {cs : List Char} : c ≠ '"' → c ≠ '\\' → c ≠ '\n' → Inner cs →
    Inner (c :: cs)
  /-- A backslash and a character. -/
  | escape {c : Char} {cs : List Char} : c ≠ '\n' → Inner cs → Inner ('\\' :: c :: cs)

/-- The characters have the form of a token, and tell which one it is, or none. -/
inductive Spells : List Char → Option Token → Prop
  /-- `[` -/
  | leftBracket : Spells ['['] (some .leftBracket)
  /-- `]` -/
  | rightBracket : Spells [']'] (some .rightBracket)
  /-- `,` -/
  | comma : Spells [','] (some .comma)
  /-- `=` -/
  | equals : Spells ['='] (some .equals)
  /-- A bare word. -/
  | word (w : BareWord) : Spells w.chars (some (.word w.text))
  /-- A text in quotes. -/
  | text {body : List Char} : Inner body →
    Spells ('"' :: (body ++ ['"'])) ((unescape body).map fun s => .str (String.ofList s))
  /-- A number. -/
  | number {negative : Bool} {cs : List Char} {r : Option Token} : Magnitude negative cs r →
    Spells (sign negative ++ cs) r

/-! ## Rows -/

theorem row_takeWhile {p : Char → Bool} (h : body.takeWhile p ≠ []) : Row p (body.takeWhile p) :=
  ⟨h, fun _ hc => List.mem_takeWhile_imp hc⟩

theorem Row.takeWhile {p : Char → Bool} (h : Row p cs) (rest : List Char) :
    (cs ++ rest).takeWhile p = cs ++ rest.takeWhile p :=
  List.takeWhile_append_of_pos h.all

theorem Row.takeWhile_ne_nil {p : Char → Bool} (h : Row p cs) (rest : List Char) :
    (cs ++ rest).takeWhile p ≠ [] := by
  rw [h.takeWhile]
  exact List.append_ne_nil_of_left_ne_nil h.nonempty _

/-! ## Exponents -/

/-- What follows `e` starts with one of the signs. -/
theorem exists_exponentSign (rest : List Char) : ∃ mark s body, rest = mark ++ body ∧
    (mark, s) ∈ exponentSigns ∧ (mark = [] → ∀ x ∈ body.head?, x ≠ '-' ∧ x ≠ '+') := by
  by_cases hminus : rest.head? = some '-'
  · obtain ⟨body, rfl⟩ := List.head?_eq_some_iff.1 hminus
    exact ⟨['-'], -1, body, rfl, by simp [exponentSigns], nofun⟩
  by_cases hplus : rest.head? = some '+'
  · obtain ⟨body, rfl⟩ := List.head?_eq_some_iff.1 hplus
    exact ⟨['+'], 1, body, rfl, by simp [exponentSigns], nofun⟩
  refine ⟨[], 1, rest, rfl, by simp [exponentSigns], fun _ x hx => ⟨?_, ?_⟩⟩
  · rintro rfl
    exact hminus hx
  · rintro rfl
    exact hplus hx

theorem scanExponent_eq {mark : List Char} {s : ℤ} (hmark : (mark, s) ∈ exponentSigns)
    (hbody : mark = [] → ∀ x ∈ body.head?, x ≠ '-' ∧ x ≠ '+') :
    scanExponent (c :: (mark ++ body)) =
      if (c = 'e' || c = 'E') && !(body.takeWhile isDigit).isEmpty then
        (s * spelled 10 (body.takeWhile isDigit),
          1 + mark.length + (body.takeWhile isDigit).length)
      else (0, 0) := by
  simp only [exponentSigns, List.mem_cons, Prod.mk.injEq, List.not_mem_nil, or_false] at hmark
  obtain ⟨rfl, rfl⟩ | ⟨rfl, rfl⟩ | ⟨rfl, rfl⟩ := hmark
  · cases body with
    | nil => rfl
    | cons x body =>
      obtain ⟨hminus, hplus⟩ := hbody rfl x rfl
      simp only [List.nil_append, scanExponent]
      split
      · rename_i heq
        exact absurd (List.cons.inj heq).1 hminus
      · rename_i heq
        exact absurd (List.cons.inj heq).1 hplus
      · rfl
  · rfl
  · rfl

/-- What a scan takes as an exponent is one. -/
theorem exponent_scanExponent (cs : List Char) : ∃ text after, cs = text ++ after ∧
    text.length = (scanExponent cs).2 ∧ Exponent text (scanExponent cs).1 := by
  cases cs with
  | nil => exact ⟨[], [], rfl, rfl, .absent⟩
  | cons c rest =>
    obtain ⟨mark, s, body, rfl, hmark, hbody⟩ := exists_exponentSign rest
    rw [scanExponent_eq hmark hbody]
    split_ifs with h
    · simp only [Bool.and_eq_true, Bool.or_eq_true, decide_eq_true_eq, Bool.not_eq_true',
        List.isEmpty_eq_false_iff] at h
      refine ⟨c :: (mark ++ body.takeWhile isDigit), body.dropWhile isDigit, ?_, ?_, ?_⟩
      · rw [List.cons_append, List.append_assoc, List.takeWhile_append_dropWhile]
      · simp only [List.length_cons, List.length_append]
        omega
      · exact .present h.1 hmark (row_takeWhile h.2)
    · exact ⟨[], c :: (mark ++ body), rfl, rfl, .absent⟩

/-- **An exponent is not cut short.** -/
theorem Exponent.scan {text : List Char} (h : Exponent text e) (rest : List Char) :
    text.length ≤ (scanExponent (text ++ rest)).2 ∧
      ((scanExponent (text ++ rest)).2 = text.length → (scanExponent (text ++ rest)).1 = e) := by
  cases h with
  | absent =>
    refine ⟨Nat.zero_le _, fun hnull => ?_⟩
    obtain ⟨text, after, -, hlength, hexponent⟩ := exponent_scanExponent ([] ++ rest)
    rw [hnull, List.length_nil, List.length_eq_zero_iff] at hlength
    generalize (scanExponent ([] ++ rest)).1 = e at hexponent
    subst hlength
    cases hexponent
    rfl
  | @present c mark ds s hc hmark hds =>
    have hbody : mark = [] → ∀ x ∈ (ds ++ rest).head?, x ≠ '-' ∧ x ≠ '+' := by
      intro _ x hx
      rw [List.head?_append_of_ne_nil _ hds.nonempty] at hx
      have hdigit := hds.all x (List.mem_of_mem_head? hx)
      constructor
      · rintro rfl
        cases hdigit
      · rintro rfl
        cases hdigit
    have htake := hds.takeWhile_ne_nil rest
    rw [List.cons_append, List.append_assoc, scanExponent_eq hmark hbody, if_pos (by simp [hc, htake]),
      hds.takeWhile]
    simp only [List.length_append, List.length_cons]
    refine ⟨by omega, fun hlength => ?_⟩
    have hmore : rest.takeWhile isDigit = [] := List.length_eq_zero_iff.1 (by omega)
    rw [hmore, List.append_nil]

theorem Exponent.dropWhile {text : List Char} (h : Exponent text e) (rest : List Char) :
    ∃ rest', (text ++ rest).dropWhile isDigit = text ++ rest' := by
  cases h with
  | absent => exact ⟨rest.dropWhile isDigit, rfl⟩
  | present he =>
    obtain rfl | rfl := he
    · exact ⟨rest, rfl⟩
    · exact ⟨rest, rfl⟩

/-! ## Numbers -/

/-- The scan takes at least these characters; if it takes no more, it tells `r`. -/
def Takes (found : Option Found) (cs : List Char) (r : Option Token) : Prop :=
  ∃ r' n, found = some (r', n) ∧ cs.length ≤ n ∧ (n = cs.length → r' = r)

/-- **Behind its digits** a number goes on with a point and digits, or ends. -/
theorem scanDecimal_cases (negative : Bool) (h : body.takeWhile isDigit ≠ []) :
    ((∀ after, body = body.takeWhile isDigit ++ '.' :: after → after.takeWhile isDigit = []) ∧
      scanDecimal negative body = some (intToken? negative (spelled 10 (body.takeWhile isDigit))
        (greatest negative), (body.takeWhile isDigit).length)) ∨
    ∃ after, body = body.takeWhile isDigit ++ '.' :: after ∧ after.takeWhile isDigit ≠ [] ∧
      scanDecimal negative body = some (some (.float (Binary64.ofDecimal negative
        (spelled 10 (body.takeWhile isDigit ++ after.takeWhile isDigit))
        ((scanExponent (after.dropWhile isDigit)).1 - (after.takeWhile isDigit).length))),
        (body.takeWhile isDigit).length + 1 + (after.takeWhile isDigit).length +
          (scanExponent (after.dropWhile isDigit)).2) := by
  have hsplit := List.takeWhile_append_dropWhile (p := isDigit) (l := body)
  have hne : (body.takeWhile isDigit).isEmpty = false := by simpa using h
  have hgreatest : (if negative then Nat.pow 2 63 else Nat.pow 2 63 - 1) = greatest negative := rfl
  unfold scanDecimal
  simp only [hne, Bool.false_eq_true, if_false, hgreatest]
  generalize body.dropWhile isDigit = rest at hsplit
  split
  · rename_i after
    by_cases hafter : after.takeWhile isDigit = []
    · rw [if_pos (by rw [hafter]; rfl)]
      refine Or.inl ⟨fun after' heq => ?_, rfl⟩
      have hcons := List.append_cancel_left (hsplit.trans heq)
      rwa [(List.cons.inj hcons).2] at hafter
    · rw [if_neg (by rwa [List.isEmpty_iff])]
      exact Or.inr ⟨after, hsplit.symm, hafter, rfl⟩
  · rename_i hpoint
    exact Or.inl ⟨fun after heq => absurd (List.append_cancel_left (hsplit.trans heq)) (hpoint after),
      rfl⟩

theorem magnitude_of_scanDecimal (h : scanDecimal negative body = some (r, n)) :
    ∃ text after, body = text ++ after ∧ text.length = n ∧ Magnitude negative text r := by
  by_cases hwhole : body.takeWhile isDigit = []
  · simp [scanDecimal, hwhole] at h
  obtain ⟨-, heq⟩ | ⟨rest, hsplit, hplaces, heq⟩ := scanDecimal_cases negative hwhole
  · rw [heq] at h
    cases h
    exact ⟨_, _, (List.takeWhile_append_dropWhile (p := isDigit)).symm, rfl,
      .decimal (row_takeWhile hwhole)⟩
  · rw [heq] at h
    cases h
    obtain ⟨exponent, after, hrest, hlength, hexponent⟩ :=
      exponent_scanExponent (rest.dropWhile isDigit)
    refine ⟨body.takeWhile isDigit ++ '.' :: (rest.takeWhile isDigit ++ exponent), after, ?_, ?_,
      .fraction (row_takeWhile hwhole) (row_takeWhile hplaces) hexponent⟩
    · rw [List.append_assoc, List.cons_append, List.append_assoc, ← hrest,
        List.takeWhile_append_dropWhile]
      exact hsplit
    · simp only [List.length_append, List.length_cons, hlength]
      omega

/-- **What a scan takes as a number** has the form of one. -/
theorem magnitude_of_scan (h : scanMagnitude negative body = some (r, n)) :
    ∃ text after, body = text ++ after ∧ text.length = n ∧ Magnitude negative text r := by
  unfold scanMagnitude at h
  split at h
  · rename_i x rest
    simp only at h
    split_ifs at h with hx
    · cases h
      simp only [Bool.and_eq_true, Bool.or_eq_true, decide_eq_true_eq, Bool.not_eq_true',
        List.isEmpty_eq_false_iff] at hx
      refine ⟨'0' :: x :: rest.takeWhile isHexDigit, rest.dropWhile isHexDigit, ?_, ?_,
        .hexadecimal hx.1 (row_takeWhile hx.2)⟩
      · rw [List.cons_append, List.cons_append, List.takeWhile_append_dropWhile]
      · simp only [List.length_cons]
        omega
    · exact magnitude_of_scanDecimal h
  · exact magnitude_of_scanDecimal h

theorem Row.scanDecimal (h : Row isDigit cs) (rest : List Char) :
    Takes (scanDecimal negative (cs ++ rest)) cs
      (intToken? negative (spelled 10 cs) (greatest negative)) := by
  obtain ⟨-, heq⟩ | ⟨after, -, -, heq⟩ :=
    scanDecimal_cases negative (h.takeWhile_ne_nil rest)
  · rw [h.takeWhile] at heq
    refine ⟨_, _, heq, by simp, fun hlength => ?_⟩
    have hmore : rest.takeWhile isDigit = [] := by simpa using hlength
    rw [hmore, List.append_nil]
  · rw [h.takeWhile] at heq
    refine ⟨_, _, heq, ?_, fun hlength => ?_⟩
    · simp only [List.length_append]
      omega
    · simp only [List.length_append] at hlength
      omega

theorem scanDecimal_fraction {whole places exponent : List Char} (hwhole : Row isDigit whole)
    (hplaces : Row isDigit places) (hexponent : Exponent exponent e) (rest : List Char) :
    Takes (scanDecimal negative (whole ++ '.' :: (places ++ exponent) ++ rest))
      (whole ++ '.' :: (places ++ exponent)) (some (.float (Binary64.ofDecimal negative
        (spelled 10 (whole ++ places)) (e - places.length)))) := by
  rw [List.append_assoc, List.cons_append, List.append_assoc]
  have htake : (whole ++ '.' :: (places ++ (exponent ++ rest))).takeWhile isDigit = whole := by
    rw [hwhole.takeWhile]
    exact List.append_nil whole
  obtain ⟨hnone, -⟩ | ⟨after, hafter, -, heq⟩ := scanDecimal_cases negative
    (hwhole.takeWhile_ne_nil ('.' :: (places ++ (exponent ++ rest))))
  · rw [htake] at hnone
    exact absurd (hnone _ rfl) (hplaces.takeWhile_ne_nil _)
  rw [htake] at hafter heq
  obtain rfl := (List.cons.inj (List.append_cancel_left hafter)).2
  obtain ⟨rest', hdrop⟩ := hexponent.dropWhile rest
  obtain ⟨hlength, hvalue⟩ := hexponent.scan rest'
  rw [hplaces.takeWhile, List.dropWhile_append_of_pos hplaces.all, hdrop] at heq
  refine ⟨_, _, heq, ?_, fun hn => ?_⟩
  · simp only [List.length_append, List.length_cons]
    omega
  · simp only [List.length_append, List.length_cons] at hn
    have hmore : (exponent ++ rest).takeWhile isDigit = [] :=
      List.length_eq_zero_iff.1 (by omega)
    rw [hvalue (by omega), hmore, List.append_nil]

/-- **A number is not cut short.** -/
theorem Magnitude.scan (h : Magnitude negative cs r) (rest : List Char) :
    Takes (scanMagnitude negative (cs ++ rest)) cs r := by
  cases h with
  | decimal hds =>
    unfold scanMagnitude
    split
    · rename_i x after heq
      simp only
      split_ifs with hx
      · -- an `x` is no digit, so that the zero stands alone
        have hone : cs = ['0'] := by
          cases cs with
          | nil => exact absurd rfl hds.nonempty
          | cons d ds =>
            cases ds with
            | nil => rw [(List.cons.inj heq).1]
            | cons y ds =>
              have hy : y = x := (List.cons.inj (List.cons.inj heq).2).1
              have hdigit := digit_only (hds.all y (by simp))
              simp [← hy, hdigit.2.2.2] at hx
        subst hone
        refine ⟨_, _, rfl, ?_, fun hlength => ?_⟩
        · rw [List.length_singleton]
          omega
        · rw [List.length_singleton] at hlength
          omega
      · exact hds.scanDecimal rest
    · exact hds.scanDecimal rest
  | @hexadecimal x ds hx hds =>
    have hne := hds.takeWhile_ne_nil rest
    simp only [List.cons_append, scanMagnitude]
    rw [if_pos (by simp [hx, hne]), hds.takeWhile]
    refine ⟨_, _, rfl, by simp; omega, fun hlength => ?_⟩
    have hmore : rest.takeWhile isHexDigit = [] := by
      simp only [List.length_append, List.length_cons] at hlength
      exact List.length_eq_zero_iff.1 (by omega)
    rw [hmore, List.append_nil]
  | @fraction whole places exponent e hwhole hplaces hexponent =>
    have heq : scanMagnitude negative (whole ++ '.' :: (places ++ exponent) ++ rest) =
        scanDecimal negative (whole ++ '.' :: (places ++ exponent) ++ rest) := by
      cases whole with
      | nil => exact absurd rfl hwhole.nonempty
      | cons d ds =>
        refine scanMagnitude_eq fun x hx => ?_
        cases ds with
        | nil =>
          cases hx
          decide
        | cons y ds =>
          cases hx
          exact (digit_only (hwhole.all x (by simp))).2.2.2
    rw [heq]
    exact scanDecimal_fraction hwhole hplaces hexponent rest

/-- A number starts with a digit. -/
theorem Magnitude.exists_digit (h : Magnitude negative cs r) :
    ∃ d ds, cs = d :: ds ∧ isDigit d = true := by
  have row {ds : List Char} (hds : Row isDigit ds) (rest : List Char) :
      ∃ d ds', ds ++ rest = d :: ds' ∧ isDigit d = true := by
    cases ds with
    | nil => exact absurd rfl hds.nonempty
    | cons d ds => exact ⟨d, ds ++ rest, rfl, hds.all d List.mem_cons_self⟩
  cases h with
  | decimal hds => exact List.append_nil cs ▸ row hds []
  | hexadecimal => exact ⟨'0', _, rfl, rfl⟩
  | fraction hwhole => exact row hwhole _

theorem scanNumber_sign (h : Magnitude negative cs r) (rest : List Char) :
    scanNumber (sign negative ++ cs ++ rest) = (scanMagnitude negative (cs ++ rest)).map
      fun found => (found.1, found.2 + (sign negative).length) := by
  cases negative with
  | true => rfl
  | false =>
    obtain ⟨d, ds, rfl, hdigit⟩ := h.exists_digit
    have hminus := (digit_only hdigit).2.2.1
    show scanNumber (d :: (ds ++ rest)) = (scanMagnitude false (d :: (ds ++ rest))).map id
    rw [Option.map_id_fun, id, scanNumber_of_ne hminus]

/-! ## Texts in quotes -/

theorem Inner.scanText (h : Inner body) (rest : List Char) :
    scanText (body ++ '"' :: rest) = (body.length, true) := by
  induction h with
  | nil => simp [Lexer.scanText]
  | plain hquote hback hbreak _ ih => simp [Lexer.scanText, hquote, hback, hbreak, ih]
  | escape hbreak _ ih => simp [Lexer.scanText, hbreak, ih]

theorem inner_of_scanText (h : scanText cs = (n, true)) :
    ∃ body after, cs = body ++ '"' :: after ∧ body.length = n ∧ Inner body := by
  fun_induction scanText cs generalizing n with
  | case1 => cases h
  | case2 => cases h
  | case3 => cases h
  | case4 c rest hbreak m closed heq ih =>
    cases h
    obtain ⟨body, after, rfl, rfl, hbody⟩ := ih heq
    exact ⟨'\\' :: c :: body, after, rfl, rfl, .escape hbreak hbody⟩
  | case5 rest hback =>
    cases h
    exact ⟨[], rest, rfl, rfl, .nil⟩
  | case6 => cases h
  | case7 c rest hback hslash hquote hbreak m closed heq ih =>
    cases h
    obtain ⟨body, after, rfl, rfl, hbody⟩ := ih heq
    refine ⟨c :: body, after, rfl, rfl, .plain hquote (fun hc => ?_) hbreak hbody⟩
    -- a backslash would have taken what follows it
    obtain ⟨d, ds, hcons⟩ := List.exists_cons_of_ne_nil (List.append_ne_nil_of_right_ne_nil body
      (List.cons_ne_nil '"' after))
    exact hslash d ds hc hcons

/-! ## Tokens -/

/-- What a scan of a token or of one at fault gives. -/
def Found.piece : Found → Piece
  | (some t, n) => .token t n
  | (none, n) => .fault n

/-- What starts like a number is scanned as one. -/
theorem scan_number (hc : c = '-' ∨ isDigit c = true) :
    scan c rest = ((scanNumber (c :: rest)).map Found.piece).getD (.fault 1) := by
  have hword : startsWord c = false := by
    rcases hc with rfl | hc
    · rfl
    · exact (digit_only hc).1
  have hmarks : c ∉ marks := by
    rcases hc with rfl | hc
    · decide
    · exact not_mem_marks (isWordChar_of_isDigit hc)
  simp only [marks, List.mem_cons, List.not_mem_nil, or_false, not_or] at hmarks
  simp only [scan, isBlank, startsComment, hmarks, hword, decide_false, Bool.or_false,
    Bool.false_eq_true, if_false]
  rcases scanNumber (c :: rest) with _ | ⟨_ | t, n⟩ <;> rfl

theorem Spells.ne_nil (h : Spells cs r) : cs ≠ [] := by
  cases h with
  | word w => exact List.cons_ne_nil _ _
  | number hm =>
    obtain ⟨d, ds, rfl, -⟩ := hm.exists_digit
    simp
  | _ => exact List.cons_ne_nil _ _

theorem spells_of_scanNumber (h : scanNumber cs = some (r, n)) :
    ∃ text after, cs = text ++ after ∧ text.length = n ∧ Spells text r := by
  unfold scanNumber at h
  split at h
  · rename_i body
    obtain ⟨⟨r', m⟩, hscan, heq⟩ := Option.map_eq_some_iff.1 h
    cases heq
    obtain ⟨text, after, rfl, rfl, hm⟩ := magnitude_of_scan hscan
    exact ⟨_, after, rfl, rfl, .number hm⟩
  · obtain ⟨text, after, rfl, rfl, hm⟩ := magnitude_of_scan h
    exact ⟨text, after, rfl, rfl, .number hm⟩

/-- **A token is read from a text of its own**, which has the form of it. -/
theorem spells_of_scan (h : scan c rest = .token t n) :
    ∃ text after, c :: rest = text ++ after ∧ text.length = n ∧ Spells text (some t) := by
  unfold scan at h
  split_ifs at h with hblank hcomment hleft hright hcomma hequals hword hquote
  · cases h
    exact ⟨[c], rest, rfl, rfl, hleft ▸ .leftBracket⟩
  · cases h
    exact ⟨[c], rest, rfl, rfl, hright ▸ .rightBracket⟩
  · cases h
    exact ⟨[c], rest, rfl, rfl, hcomma ▸ .comma⟩
  · cases h
    exact ⟨[c], rest, rfl, rfl, hequals ▸ .equals⟩
  · cases h
    refine ⟨c :: rest.takeWhile isWordChar, rest.dropWhile isWordChar, ?_, ?_,
      .word ⟨c, rest.takeWhile isWordChar, hword, fun _ hd => List.mem_takeWhile_imp hd⟩⟩
    · rw [List.cons_append, List.takeWhile_append_dropWhile]
    · rw [List.length_cons, Nat.add_comm]
  · split at h
    · cases h
    rename_i m hscan
    obtain ⟨body, after, rfl, rfl, hbody⟩ := inner_of_scanText hscan
    rw [List.take_left] at h
    have hspells := Spells.text hbody
    split at h
    · rename_i s hs
      cases h
      rw [hs] at hspells
      exact ⟨_, after, by simp [hquote], by simp, hspells⟩
    · cases h
  · split at h
    · rename_i t' m hscan
      cases h
      exact spells_of_scanNumber hscan
    · cases h
    · cases h

/-! ## Scans -/

/-- A scan of a text takes all of it, whatever follows.  If it takes no more, it tells `r`. -/
def Uncut (text rest : List Char) (r : Option Token) : Prop :=
  ∃ c cs, text = c :: cs ∧ ∃ r' n, scan c (cs ++ rest) = Found.piece (r', n) ∧
    text.length ≤ n ∧ n ≤ (text ++ rest).length ∧ (n = text.length → r' = r)

theorem uncut_single (h : scan c rest = .token t 1) : Uncut [c] rest (some t) :=
  ⟨c, [], rfl, some t, 1, h, Nat.le_refl 1, Nat.le_add_left 1 rest.length, fun _ => rfl⟩

theorem uncut_word (w : BareWord) (rest : List Char) :
    Uncut w.chars rest (some (.word w.text)) := by
  have hmarks := not_mem_marks (isWordChar_of_startsWord w.first_ok)
  simp only [marks, List.mem_cons, List.not_mem_nil, or_false, not_or] at hmarks
  have hscan : scan w.first (w.others ++ rest) =
      .token (.word (String.ofList (w.first :: (w.others ++ rest.takeWhile isWordChar))))
        (1 + (w.others ++ rest.takeWhile isWordChar).length) := by
    simp [scan, isBlank, startsComment, hmarks, w.first_ok,
      List.takeWhile_append_of_pos w.others_ok]
  have hle := (List.takeWhile_prefix isWordChar (l := rest)).length_le
  have hlength : w.chars.length = w.others.length + 1 := rfl
  refine ⟨_, _, rfl, some _, _, hscan, ?_, ?_, fun hn => ?_⟩
  · rw [List.length_append]
    omega
  · rw [List.length_append, List.length_append]
    omega
  · rw [List.length_append] at hn
    have hmore : rest.takeWhile isWordChar = [] := List.length_eq_zero_iff.1 (by omega)
    rw [hmore, List.append_nil]
    rfl

theorem Inner.uncut (h : Inner body) (rest : List Char) :
    Uncut ('"' :: (body ++ ['"'])) rest
      ((unescape body).map fun s => .str (String.ofList s)) := by
  have hscan : scan '"' (body ++ '"' :: rest) =
      Found.piece ((unescape body).map fun s => .str (String.ofList s), body.length + 2) := by
    have htext := h.scanText rest
    have htake : (body ++ '"' :: rest).take body.length = body := List.take_left
    cases hescapes : unescape body with
    | none =>
      simp [scan, isBlank, startsComment, startsWord, htext, htake, hescapes, Found.piece]
    | some s =>
      simp [scan, isBlank, startsComment, startsWord, htext, htake, hescapes, Found.piece]
  refine ⟨_, _, rfl, _, body.length + 2, ?_, by simp, by simp, fun _ => rfl⟩
  rwa [List.append_assoc, List.singleton_append]

theorem Magnitude.uncut (h : Magnitude negative cs r) (rest : List Char) :
    Uncut (sign negative ++ cs) rest r := by
  obtain ⟨r', n, hscan, hle, htell⟩ := h.scan rest
  obtain ⟨taken, after, hsplit, rfl, -⟩ := magnitude_of_scan hscan
  have hlength := congrArg List.length hsplit
  rw [List.length_append, List.length_append] at hlength
  obtain ⟨c, cs', hcons, hc⟩ : ∃ c cs', sign negative ++ cs = c :: cs' ∧
      (c = '-' ∨ isDigit c = true) := by
    cases negative with
    | true => exact ⟨'-', cs, rfl, Or.inl rfl⟩
    | false =>
      obtain ⟨d, ds, rfl, hdigit⟩ := h.exists_digit
      exact ⟨d, ds, rfl, Or.inr hdigit⟩
  refine ⟨c, cs', hcons, r', taken.length + (sign negative).length, ?_, ?_, ?_,
    fun hn => htell ?_⟩
  · rw [scan_number hc, ← List.cons_append, ← hcons, scanNumber_sign h, hscan]
    rfl
  · rw [List.length_append]
    omega
  · rw [List.length_append, List.length_append]
    omega
  · rw [List.length_append] at hn
    omega

/-- **A token is not cut short**, whatever follows its text.  If nothing more is taken, it is
    read as its text tells. -/
theorem Spells.scan {text : List Char} (h : Spells text r) (rest : List Char) :
    Uncut text rest r := by
  cases h with
  | leftBracket => exact uncut_single rfl
  | rightBracket => exact uncut_single rfl
  | comma => exact uncut_single rfl
  | equals => exact uncut_single rfl
  | word w => exact uncut_word w rest
  | text hbody => exact hbody.uncut rest
  | number hm => exact hm.uncut rest

end LevelBundle.Lexer
