/-
  LevelBundle — lines with references are templates.

  A line is a row of references, each behind a text of its own, and an ending: a text, or a
  reference that is never closed behind one.  No line is two such rows, so that what a line
  expands to can be told from its row.

  * `Text.Trimmed cs inner`: a text without the blanks at its ends; `trimmed_trimChars`.
  * `Definitions.Template`: such a row; `existsUnique_template`: every line is one of them.
  * `Template.expansion d t`: the row with its values, or the first error.
  * `expand_template`: this is what the line expands to.  Values are not looked at again,
    whatever is in them and behind them.
-/
import LevelBundle.Script.Definitions
import Mathlib.Data.List.DropRight
import Mathlib.Data.List.Infix
import Mathlib.Logic.ExistsUnique

namespace LevelBundle

/-! ## Blanks at the ends -/

namespace Text

/-- A text is another one without the blanks at its ends. -/
structure Trimmed (cs inner : List Char) : Prop where
  /-- Only blanks are left out. -/
  blank : ∃ front back, cs = front ++ inner ++ back ∧ (∀ c ∈ front, isBlank c = true) ∧
    ∀ c ∈ back, isBlank c = true
  /-- It starts with no blank. -/
  head : ∀ c ∈ inner.head?, isBlank c = false
  /-- It ends with no blank. -/
  last : ∀ c ∈ inner.getLast?, isBlank c = false

theorem trimmed_trimChars (cs : List Char) : Trimmed cs (trimChars cs) := by
  have hfront := List.takeWhile_append_dropWhile (p := isBlank) (l := cs)
  have hhead := List.head?_dropWhile_not isBlank cs
  rw [trimChars]
  generalize cs.dropWhile isBlank = body at hfront hhead
  have hback := List.takeWhile_append_dropWhile (p := isBlank) (l := body.reverse)
  have hlast := List.head?_dropWhile_not isBlank body.reverse
  have hbody : body = dropEndWhile isBlank body ++ (body.reverse.takeWhile isBlank).reverse := by
    rw [dropEndWhile, ← List.reverse_append, hback, List.reverse_reverse]
  refine ⟨⟨cs.takeWhile isBlank, (body.reverse.takeWhile isBlank).reverse, ?_, ?_, ?_⟩, ?_, ?_⟩
  · rw [List.append_assoc, ← hbody, hfront]
  · exact fun c hc => List.mem_takeWhile_imp hc
  · exact fun c hc => List.mem_takeWhile_imp (List.mem_reverse.1 hc)
  · intro c hc
    have hc' : body.head? = some c := by
      rw [hbody, List.head?_append, hc]
      rfl
    rw [hc'] at hhead
    exact hhead
  · intro c hc
    rw [dropEndWhile, List.getLast?_reverse] at hc
    rw [hc] at hlast
    exact hlast

end Text

namespace Definitions

/-! ## Templates -/

/-- What a reference starts with. -/
def opener : List Char := ['$', '(']

/-- A text that holds the start of no reference. -/
def Plain (cs : List Char) : Prop := ¬ opener <:+: cs

instance (cs : List Char) : Decidable (Plain cs) := inferInstanceAs (Decidable (¬ opener <:+: cs))

/-- A reference, with the text in front of it. -/
structure Reference where
  /-- The text in front. -/
  before : List Char
  /-- The text of the reference. -/
  inside : List Char
  /-- No reference starts in front of it. -/
  plain : Plain before
  /-- It ends where it is first closed. -/
  closed : ')' ∉ inside

/-- What follows the last reference of a line. -/
inductive Ending where
  /-- A text. -/
  | text (cs : List Char) (plain : Plain cs)
  /-- A text, and a reference that is never closed. -/
  | torn (before inside : List Char) (plain : Plain before) (closed : ')' ∉ inside)

/-- A line: references, and what follows them. -/
structure Template where
  /-- The references, with the texts in front of them. -/
  references : List Reference
  /-- What follows them. -/
  ending : Ending

/-- A reference as it is spelled, with the text in front of it. -/
def Reference.chars (r : Reference) : List Char := r.before ++ opener ++ r.inside ++ [')']

/-- The ending of a line as it is spelled. -/
def Ending.chars : Ending → List Char
  | text cs _ => cs
  | torn before inside _ _ => before ++ opener ++ inside

/-- A line as it is spelled. -/
def Template.chars (t : Template) : List Char :=
  t.references.flatMap Reference.chars ++ t.ending.chars

/-- The name that a reference stands for. -/
def Reference.name (r : Reference) : String := String.ofList (Text.trimChars r.inside)

/-- The value of a reference, behind the text in front of it. -/
def Reference.filled (d : Definitions) (r : Reference) : List Char :=
  r.before ++ ((d.find? r.name).getD "").toList

/-- The first of the names that a line refers to without a definition. -/
def Template.undefined? (d : Definitions) (t : Template) : Option String :=
  (t.references.map Reference.name).find? fun name => (d.find? name).isNone

/-- What a line expands to. -/
def Template.expansion (d : Definitions) (t : Template) : Except BuildError.Kind (List Char) :=
  match t.undefined? d, t.ending with
  | some name, _ => .error (.undefinedVariable name)
  | none, .text cs _ => .ok (t.references.flatMap (Reference.filled d) ++ cs)
  | none, .torn _ _ _ _ => .error (.malformedLine .unterminatedReference)

/-! ## One way to read a line -/

variable {before before' inside inside' rest rest' : List Char}

theorem Plain.of_cons {c : Char} {cs : List Char} (h : Plain (c :: cs)) : Plain cs :=
  fun hin => h (hin.trans (List.suffix_cons c cs).isInfix)

/-- Where a reference starts at once, there is no text in front of it. -/
theorem Plain.eq_nil (h : Plain before) (he : opener ++ rest = before ++ opener ++ rest') :
    before = [] := by
  match before with
  | [] => rfl
  | [c] =>
    simp only [opener, List.nil_append, List.cons_append, List.cons.injEq] at he
    exact absurd he.2.1 (by decide)
  | c :: c' :: cs =>
    simp only [opener, List.nil_append, List.cons_append, List.cons.injEq] at he
    obtain ⟨rfl, rfl, -⟩ := he
    exact absurd (List.prefix_append opener cs).isInfix h

/-- **The first reference** of a line starts where the text in front of it ends. -/
theorem Plain.eq_of_opener (h : Plain before) (h' : Plain before')
    (he : before ++ opener ++ rest = before' ++ opener ++ rest') :
    before = before' ∧ rest = rest' := by
  induction before generalizing before' with
  | nil =>
    obtain rfl := h'.eq_nil he
    exact ⟨rfl, List.append_cancel_left he⟩
  | cons c cs ih =>
    cases before' with
    | nil => exact absurd (h.eq_nil he.symm) (List.cons_ne_nil c cs)
    | cons c' cs' =>
      simp only [List.cons_append, List.cons.injEq] at he
      obtain ⟨rfl, he⟩ := he
      obtain ⟨rfl, hrest⟩ := ih h.of_cons h'.of_cons he
      exact ⟨rfl, hrest⟩

/-- **The text of a reference** ends where the reference is first closed. -/
theorem eq_of_closed (h : ')' ∉ inside) (h' : ')' ∉ inside')
    (he : inside ++ ')' :: rest = inside' ++ ')' :: rest') : inside = inside' ∧ rest = rest' := by
  induction inside generalizing inside' with
  | nil =>
    cases inside' with
    | nil => exact ⟨rfl, (List.cons.inj he).2⟩
    | cons c cs => exact absurd (List.mem_cons.2 (Or.inl (List.cons.inj he).1)) h'
  | cons c cs ih =>
    cases inside' with
    | nil => exact absurd (List.mem_cons.2 (Or.inl (List.cons.inj he).1.symm)) h
    | cons c' cs' =>
      simp only [List.cons_append, List.cons.injEq] at he
      obtain ⟨rfl, he⟩ := he
      obtain ⟨rfl, hrest⟩ :=
        ih (List.not_mem_of_not_mem_cons h) (List.not_mem_of_not_mem_cons h') he
      exact ⟨rfl, hrest⟩

/-- A line that is no plain text holds a first reference. -/
theorem exists_before {line : List Char} (h : ¬ Plain line) :
    ∃ before rest, line = before ++ opener ++ rest ∧ Plain before := by
  induction line with
  | nil => exact absurd (fun hin => by simp [opener] at hin) h
  | cons c cs ih =>
    by_cases hhead : opener <+: c :: cs
    · obtain ⟨rest, hrest⟩ := hhead
      exact ⟨[], rest, hrest.symm, fun hin => by simp [opener] at hin⟩
    · have hcs : ¬ Plain cs := fun hcs => h fun hin =>
        (List.infix_cons_iff.1 hin).elim hhead hcs
      obtain ⟨before, rest, rfl, hbefore⟩ := ih hcs
      refine ⟨c :: before, rest, rfl, fun hin => ?_⟩
      rcases List.infix_cons_iff.1 hin with hpre | hin
      · refine hhead (hpre.trans ?_)
        rw [List.append_assoc]
        exact List.prefix_append (c :: before) (opener ++ rest)
      · exact hbefore hin

theorem Template.chars_cons (r : Reference) (rs : List Reference) (e : Ending) :
    Template.chars ⟨r :: rs, e⟩ =
      r.before ++ opener ++ (r.inside ++ ')' :: Template.chars ⟨rs, e⟩) := by
  simp only [chars, Reference.chars, List.flatMap_cons, List.append_assoc, List.cons_append,
    List.nil_append]

/-- **Every line is a template.** -/
theorem exists_template (line : List Char) : ∃ t : Template, t.chars = line := by
  induction hn : line.length using Nat.strongRecOn generalizing line with
  | ind n ih =>
    by_cases hplain : Plain line
    · exact ⟨⟨[], .text line hplain⟩, rfl⟩
    · obtain ⟨before, after, rfl, hbefore⟩ := exists_before hplain
      by_cases hclosed : ')' ∈ after
      · -- the first reference is closed, and what is behind it is shorter
        obtain ⟨inside, rest, rfl, hinside⟩ := List.eq_append_cons_of_mem hclosed
        obtain ⟨⟨rs, e⟩, ht⟩ := ih rest.length (by
          simp only [← hn, List.length_append, List.length_cons]; omega) rest rfl
        refine ⟨⟨⟨before, inside, hbefore, hinside⟩ :: rs, e⟩, ?_⟩
        rw [Template.chars_cons, ht]
      · exact ⟨⟨[], .torn before after hbefore hclosed⟩, rfl⟩

/-- An ending is not read as a reference. -/
theorem Ending.chars_ne (e : Ending) (r : Reference) (cs : List Char) :
    e.chars ≠ r.before ++ opener ++ (r.inside ++ ')' :: cs) := by
  intro he
  cases e with
  | text text hplain =>
    refine hplain ?_
    rw [show text = _ from he]
    exact ⟨r.before, _, rfl⟩
  | torn before inside hplain hclosed =>
    obtain ⟨-, hinside⟩ := hplain.eq_of_opener r.plain he
    refine hclosed ?_
    rw [hinside]
    exact List.mem_append_right _ List.mem_cons_self

theorem Ending.eq_of_chars {e e' : Ending} (he : e.chars = e'.chars) : e = e' := by
  cases e with
  | text cs hplain =>
    cases e' with
    | text cs' hplain' =>
      obtain rfl : cs = cs' := he
      rfl
    | torn before inside hplain' hclosed =>
      exact absurd ⟨before, inside, he.symm⟩ hplain
  | torn before inside hplain hclosed =>
    cases e' with
    | text cs hplain' => exact absurd ⟨before, inside, he⟩ hplain'
    | torn before' inside' hplain' hclosed' =>
      obtain ⟨rfl, rfl⟩ := hplain.eq_of_opener hplain' he
      rfl

/-- **No line is two templates.** -/
theorem Template.eq_of_chars {t t' : Template} (he : t.chars = t'.chars) : t = t' := by
  obtain ⟨rs, e⟩ := t
  obtain ⟨rs', e'⟩ := t'
  induction rs generalizing rs' with
  | nil =>
    cases rs' with
    | nil =>
      obtain rfl := Ending.eq_of_chars he
      rfl
    | cons r rs' =>
      rw [chars_cons] at he
      exact absurd he (e.chars_ne r _)
  | cons r rs ih =>
    cases rs' with
    | nil =>
      rw [chars_cons] at he
      exact absurd he.symm (e'.chars_ne r _)
    | cons r' rs' =>
      rw [chars_cons, chars_cons] at he
      obtain ⟨hbefore, hrest⟩ := r.plain.eq_of_opener r'.plain he
      obtain ⟨hinside, hrest⟩ := eq_of_closed r.closed r'.closed hrest
      obtain ⟨rfl, rfl⟩ := Template.mk.inj (ih rs' hrest)
      obtain rfl : r = r' := by
        cases r
        cases r'
        cases hbefore
        cases hinside
        rfl
      rfl

theorem existsUnique_template (line : List Char) : ∃! t : Template, t.chars = line := by
  obtain ⟨t, ht⟩ := exists_template line
  exact ⟨t, ht, fun t' ht' => Template.eq_of_chars (ht'.trans ht.symm)⟩

/-! ## Expanding -/

variable (d : Definitions)

theorem expandFrom_cons {c : Char} {cs : List Char} (h : ¬ opener <+: c :: cs) :
    d.expandFrom none (c :: cs) = (d.expandFrom none cs).map (c :: ·) := by
  rw [expandFrom]
  · cases d.expandFrom none cs <;> rfl
  · rintro rest rfl rfl
    exact h (List.prefix_append opener rest)

theorem expandFrom_opener (rest : List Char) :
    d.expandFrom none (opener ++ rest) = d.expandFrom (some []) rest := by
  rw [opener, List.cons_append, List.cons_append, List.nil_append, expandFrom]

/-- The text in front of a reference is kept. -/
theorem expandFrom_before (h : Plain before) (rest : List Char) :
    d.expandFrom none (before ++ opener ++ rest) =
      (d.expandFrom (some []) rest).map (before ++ ·) := by
  induction before with
  | nil =>
    rw [List.nil_append, expandFrom_opener]
    cases d.expandFrom (some []) rest <;> rfl
  | cons c cs ih =>
    have hhead : ¬ opener <+: c :: (cs ++ opener ++ rest) := by
      rintro ⟨after, hafter⟩
      have hcons : opener ++ after = (c :: cs) ++ opener ++ rest := hafter
      exact absurd (h.eq_nil hcons) (List.cons_ne_nil c cs)
    rw [List.cons_append, List.cons_append, expandFrom_cons d hhead, ih h.of_cons]
    cases d.expandFrom (some []) rest <;> rfl

theorem expandFrom_text {cs : List Char} (h : Plain cs) : d.expandFrom none cs = .ok cs := by
  induction cs with
  | nil => rw [expandFrom]
  | cons c cs ih =>
    rw [expandFrom_cons d fun hpre => h hpre.isInfix, ih h.of_cons]
    rfl

/-- A reference stands for the value of its whole text. -/
theorem expandFrom_closed (h : ')' ∉ inside) (name rest : List Char) :
    d.expandFrom (some name) (inside ++ ')' :: rest) = do
      let value ← d.value (name ++ inside)
      let tail ← d.expandFrom none rest
      return value ++ tail := by
  induction inside generalizing name with
  | nil => rw [List.nil_append, expandFrom, if_pos rfl, List.append_nil]
  | cons c cs ih =>
    have hc : c ≠ ')' := fun hc => h (hc ▸ List.mem_cons_self)
    rw [List.cons_append, expandFrom, if_neg hc, ih (List.not_mem_of_not_mem_cons h),
      List.append_assoc, List.singleton_append]

theorem expandFrom_torn (h : ')' ∉ inside) (name : List Char) :
    d.expandFrom (some name) inside = .error (.malformedLine .unterminatedReference) := by
  induction inside generalizing name with
  | nil => rw [expandFrom]
  | cons c cs ih =>
    have hc : c ≠ ')' := fun hc => h (hc ▸ List.mem_cons_self)
    rw [expandFrom, if_neg hc, ih (List.not_mem_of_not_mem_cons h)]

theorem value_inside (r : Reference) : d.value r.inside =
    (d.find? r.name).elim (.error (.undefinedVariable r.name)) fun value => .ok value.toList := by
  rw [value, Reference.name]
  cases d.find? (String.ofList (Text.trimChars r.inside)) <;> rfl

/-- **A reference is replaced by its value**, and what is behind it is expanded by itself. -/
theorem expandFrom_reference (r : Reference) (rest : List Char) :
    d.expandFrom none (r.before ++ opener ++ (r.inside ++ ')' :: rest)) =
      if (d.find? r.name).isNone then .error (.undefinedVariable r.name)
      else (d.expandFrom none rest).map (r.filled d ++ ·) := by
  rw [expandFrom_before d r.plain, expandFrom_closed d r.closed, List.nil_append, value_inside,
    Reference.filled]
  cases d.find? r.name with
  | none => rfl
  | some value =>
    cases d.expandFrom none rest with
    | error e => rfl
    | ok tail => exact congrArg Except.ok (List.append_assoc r.before value.toList tail).symm

theorem expand_ending (e : Ending) : d.expandFrom none e.chars = Template.expansion d ⟨[], e⟩ := by
  cases e with
  | text cs hplain => exact expandFrom_text d hplain
  | torn before inside hplain hclosed =>
    rw [Ending.chars, expandFrom_before d hplain, expandFrom_torn d hclosed]
    rfl

theorem Template.expansion_cons (r : Reference) (rs : List Reference) (e : Ending) :
    Template.expansion d ⟨r :: rs, e⟩ =
      if (d.find? r.name).isNone then .error (.undefinedVariable r.name)
      else (Template.expansion d ⟨rs, e⟩).map (r.filled d ++ ·) := by
  simp only [expansion, undefined?, List.map_cons, List.find?_cons]
  split_ifs with h
  · rw [h]
  · rw [Bool.not_eq_true] at h
    rw [h]
    cases (rs.map Reference.name).find? fun name => (d.find? name).isNone with
    | some name => rfl
    | none =>
      cases e with
      | text cs hplain => simp only [List.flatMap_cons, List.append_assoc]; rfl
      | torn before inside hplain hclosed => rfl

/-- **Lines are expanded once, from left to right.**  Every line is one template, and it
    expands to the texts of that template with the values between them, to an error for the first
    name that has none, or else to one for a reference that is never closed.  Blanks at the
    ends of a name do not count. -/
theorem expand_template (line : List Char) :
    (∃! t : Template, t.chars = line) ∧
      ∀ t : Template, t.chars = line → d.expand line = t.expansion d ∧
        ∀ r ∈ t.references, Text.Trimmed r.inside r.name.toList := by
  refine ⟨existsUnique_template line, ?_⟩
  rintro ⟨rs, e⟩ rfl
  constructor
  · rw [expand]
    induction rs with
    | nil => exact expand_ending d e
    | cons r rs ih => rw [Template.chars_cons, expandFrom_reference, Template.expansion_cons, ih]
  · intro r hr
    rw [Reference.name, String.toList_ofList]
    exact Text.trimmed_trimChars r.inside

/-- A value that is a dollar sign, and one that is spelled like a reference. -/
def Demo.values : Definitions := ⟨[("X", "$"), ("Y", "$(X)")]⟩

/-- The line `a$$( X )(Y)$(Y)b`. -/
def Demo.dollars : Template where
  references :=
    [⟨['a', '$'], [' ', 'X', ' '], by decide, by decide⟩,
      ⟨['(', 'Y', ')'], ['Y'], by decide, by decide⟩]
  ending := .text ['b'] (by decide)

/-- The line `$(Z)$(X`. -/
def Demo.unclosed : Template where
  references := [⟨[], ['Z'], by decide, by decide⟩]
  ending := .torn [] ['X'] (by decide) (by decide)

/-- The first value makes a reference with what follows it, and the second is one; neither is
    replaced again.  A name without a value comes before a reference that is never closed. -/
theorem expand_template_demo :
    Demo.dollars.chars = "a$$( X )(Y)$(Y)b".toList ∧
      Demo.values.expand "a$$( X )(Y)$(Y)b".toList = .ok "a$$(Y)$(X)b".toList ∧
      Text.Trimmed [' ', 'X', ' '] "X".toList ∧
      Demo.values.expand "$(Z)$(X".toList = .error (.undefinedVariable "Z") := by
  have hchars : Demo.dollars.chars = "a$$( X )(Y)$(Y)b".toList := by decide +kernel
  obtain ⟨hexpand, htrimmed⟩ := (expand_template Demo.values _).2 Demo.dollars hchars
  have hX := htrimmed _ List.mem_cons_self
  obtain ⟨hundefined, -⟩ := (expand_template Demo.values _).2 Demo.unclosed rfl
  exact ⟨hchars, hexpand, hX, hundefined⟩

end Definitions

end LevelBundle
