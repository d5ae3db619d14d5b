/-
  LevelBundle — scripts are read as they were written.

  Any sections can be written as a script: a header in brackets with the name in quotes, and
  under it each keyword with its arguments, one line each.

  * `WrittenLine`, `WrittenSection`: what can be written, and `WrittenSection.script`: how.
  * `statement_chars`: each line is read as what it says.
  * `lines_script`: the lines of a script are those that were written.
  * `readText_script`: a script is read as the sections that were written, without an error.
-/
import LevelBundle.Proofs.SourceLines
import LevelBundle.Proofs.TokenText
import LevelBundle.Proofs.WholeSections

namespace LevelBundle

open Lexer

/-! ## Scripts -/

/-- An argument as it is written. -/
inductive WrittenArgument where
  | int (n : Int64)
  | str (s : String)
  | word (w : BareWord)

namespace WrittenArgument

def chars : WrittenArgument → List Char
  | int n => decimal n.toInt
  | str s => quoted s
  | word w => w.chars

def token : WrittenArgument → Token
  | int n => .int n.toInt
  | str s => .str s
  | word w => .word w.text

def argument : WrittenArgument → Argument
  | int n => .int n.toInt
  | str s => .str s
  | word w => .word w.text

end WrittenArgument

/-- A line as it is written. -/
inductive WrittenLine where
  | header (name : String) (alignment : Option { a : UInt32 // Alignment.valid a = true })
  | line (keyword : BareWord) (arguments : List WrittenArgument)

namespace WrittenLine

/-- `align=N` -/
def alignChars (a : UInt32) : List Char := ['a', 'l', 'i', 'g', 'n', '='] ++ decimal a.toNat

def chars : WrittenLine → List Char
  | header name none => '[' :: (quoted name ++ [']'])
  | header name (some a) => '[' :: (quoted name ++ ' ' :: (alignChars a ++ [']']))
  | line keyword arguments => keyword.chars ++ arguments.flatMap fun a => ' ' :: a.chars

/-- What a line says; keywords do not mind their case. -/
def statement : WrittenLine → Statement
  | header name alignment => .header name (alignment.map Subtype.val)
  | line keyword arguments =>
    .line keyword.text.toLower (arguments.map WrittenArgument.argument)

end WrittenLine

/-- A section as it is written. -/
structure WrittenSection where
  /-- The name. -/
  name : String
  /-- The alignment, if it has one. -/
  alignment : Option { a : UInt32 // Alignment.valid a = true }
  /-- The keywords with their arguments. -/
  lines : List (BareWord × List WrittenArgument)

namespace WrittenSection

def rows (w : WrittenSection) : List WrittenLine :=
  .header w.name w.alignment :: w.lines.map fun l => .line l.1 l.2

/-- The text of some sections, line by line. -/
def script (ws : List WrittenSection) : String :=
  String.ofList ((ws.flatMap rows).flatMap fun l => l.chars ++ ['\n'])

/-- What a section says. -/
def content (w : WrittenSection) : String × Option UInt32 × List (String × List Argument) :=
  (w.name, w.alignment.map Subtype.val, w.lines.map fun l =>
    (l.1.text.toLower, l.2.map WrittenArgument.argument))

end WrittenSection

/-- What a section says, wherever it stands. -/
def ScriptSection.content (s : ScriptSection) :
    String × Option UInt32 × List (String × List Argument) :=
  (s.name, s.alignment, s.lines.map fun l => (l.keyword, l.arguments))

/-! ## Tokens -/

theorem WrittenArgument.reads {rest : List Char} {ts : List Token} (a : WrittenArgument)
    (hr : Reads rest ts) (hstop : Stops rest) : Reads (a.chars ++ rest) (a.token :: ts) := by
  cases a with
  | int n => exact hr.int n.le_toInt n.toInt_lt hstop
  | str s => exact hr.quoted s
  | word w => exact hr.word w hstop

theorem stops_arguments (arguments : List WrittenArgument) :
    Stops (arguments.flatMap fun a => ' ' :: a.chars) := by
  cases arguments with
  | nil => exact nofun
  | cons a arguments =>
    rintro _ ⟨⟩
    decide

theorem reads_arguments (arguments : List WrittenArgument) :
    Reads (arguments.flatMap fun a => ' ' :: a.chars) (arguments.map WrittenArgument.token) := by
  induction arguments with
  | nil => exact .nil
  | cons a arguments ih =>
    rw [List.flatMap_cons, List.map_cons]
    exact (a.reads ih (stops_arguments arguments)).blank

theorem ofTokens_arguments (arguments : List WrittenArgument) :
    Argument.ofTokens (arguments.map WrittenArgument.token) =
      .ok (arguments.map WrittenArgument.argument) := by
  induction arguments with
  | nil => rfl
  | cons a arguments ih => cases a <;> simp [WrittenArgument.token, Argument.ofTokens, ih,
      Argument.ofToken?, WrittenArgument.argument]

theorem alignmentOf?_toNat (a : { a : UInt32 // Alignment.valid a = true }) :
    Statement.alignmentOf? (a.1.toNat : ℤ) = some a.1 := by
  have hlt := a.1.toNat_lt
  have hword : (a.1.toNat : ℤ).toNat.toUInt32 = a.1 := by simp
  rw [Statement.alignmentOf?, hword, if_pos ⟨by omega, by omega, a.2⟩]

/-- The word `align`. -/
def alignWord : BareWord := ⟨'a', ['l', 'i', 'g', 'n'], by decide, by simp [isWordChar, startsWord]⟩

theorem reads_bracket : Reads [']'] [.rightBracket] := Reads.nil.single rfl

theorem WrittenLine.reads_header (name : String)
    (alignment : Option { a : UInt32 // Alignment.valid a = true }) :
    ∃ ts, Reads (header name alignment).chars ts ∧
      ∀ inside, Statement.ofTokens inside ts = .ok (header name alignment).statement := by
  cases alignment with
  | none => exact ⟨_, (reads_bracket.quoted name).single rfl, fun _ => rfl⟩
  | some a =>
    have hnumber : Reads (decimal a.1.toNat ++ [']']) [.int a.1.toNat, .rightBracket] := by
      have hlt := a.1.toNat_lt
      exact reads_bracket.int (by omega) (by omega) (by rintro _ ⟨⟩; decide)
    have halign : Reads (alignChars a ++ [']'])
        [.word alignWord.text, .equals, .int a.1.toNat, .rightBracket] :=
      Reads.word alignWord (hnumber.single rfl) (by rintro _ ⟨⟩; decide)
    have hlower : alignWord.text.toLower = "align" := by decide +kernel
    have hend : Statement.headerEnd none
        [.word alignWord.text, .equals, .int a.1.toNat, .rightBracket] = .ok (some a.1) := by
      rw [Statement.headerEnd, if_pos hlower]
      simp only [alignmentOf?_toNat]
      rfl
    refine ⟨_, (halign.blank.quoted name).single rfl, fun inside => ?_⟩
    simp only [Statement.ofTokens, Statement.ofHeader, hend]
    rfl

theorem WrittenLine.reads_line (keyword : BareWord) (arguments : List WrittenArgument) :
    ∃ ts, Reads (line keyword arguments).chars ts ∧
      Statement.ofTokens true ts = .ok (line keyword arguments).statement := by
  refine ⟨_, (reads_arguments arguments).word keyword (stops_arguments arguments), ?_⟩
  simp [Statement.ofTokens, ofTokens_arguments, statement]

/-! ## Characters of a line -/

theorem plain_of_isWordChar {c : Char} (h : isWordChar c = true) : c ≠ '\n' ∧ c ≠ '$' := by
  have hmarks := not_mem_marks h
  simp only [marks, List.mem_cons, not_or] at hmarks
  exact ⟨hmarks.2.2.2.2.1, by simp [hmarks]⟩

theorem plain_quoted {s : String} : ∀ c ∈ quoted s, c ≠ '\n' ∧ c ≠ '$' := by
  intro c hc
  simp only [quoted, List.mem_cons, List.mem_append, List.not_mem_nil, or_false] at hc
  rcases hc with rfl | hc | rfl
  · decide
  · exact not_mem_escaped hc
  · decide

theorem WrittenArgument.plain_chars (a : WrittenArgument) : ∀ c ∈ a.chars, c ≠ '\n' ∧ c ≠ '$' := by
  cases a with
  | int n => exact fun c hc => plain_of_isWordChar (isWordChar_of_mem_decimal hc)
  | str s => exact plain_quoted
  | word w => exact fun c hc => plain_of_isWordChar (w.isWordChar_of_mem hc)

theorem plain_arguments (arguments : List WrittenArgument) :
    ∀ c ∈ arguments.flatMap (fun a => ' ' :: a.chars), c ≠ '\n' ∧ c ≠ '$' := by
  intro c hc
  obtain ⟨a, -, hc⟩ := List.mem_flatMap.1 hc
  rcases List.mem_cons.1 hc with rfl | hc
  · decide
  · exact a.plain_chars c hc

/-- No line feed is in a line, and nothing that could be replaced. -/
theorem WrittenLine.plain_chars (l : WrittenLine) : ∀ c ∈ l.chars, c ≠ '\n' ∧ c ≠ '$' := by
  intro c hc
  rcases l with ⟨name, _ | a⟩ | ⟨keyword, arguments⟩
  · simp only [chars, List.mem_cons, List.mem_append, List.not_mem_nil, or_false] at hc
    rcases hc with rfl | hc | rfl
    · decide
    · exact plain_quoted c hc
    · decide
  · simp only [chars, alignChars, List.mem_cons, List.mem_append, List.not_mem_nil, or_false] at hc
    rcases hc with rfl | hc | rfl | (hc | hc) | rfl
    · decide
    · exact plain_quoted c hc
    · decide
    · rcases hc with rfl | rfl | rfl | rfl | rfl | rfl <;> decide
    · exact plain_of_isWordChar (isWordChar_of_mem_decimal hc)
    · decide
  · rcases List.mem_append.1 hc with hc | hc
    · exact plain_of_isWordChar (keyword.isWordChar_of_mem hc)
    · exact plain_arguments arguments c hc

/-- The last character is no line ending. -/
def Closed (cs : List Char) : Prop := ∃ front c, cs = front ++ [c] ∧ SourceLine.isBreak c = false

theorem Closed.append {cs : List Char} (h : Closed cs) (front : List Char) :
    Closed (front ++ cs) := by
  obtain ⟨front', c, rfl, hc⟩ := h
  exact ⟨front ++ front', c, (List.append_assoc _ _ _).symm, hc⟩

theorem closed_of_isWordChar {cs : List Char} (hne : cs ≠ [])
    (h : ∀ c ∈ cs, isWordChar c = true) : Closed cs := by
  refine ⟨cs.dropLast, cs.getLast hne, (List.dropLast_append_getLast hne).symm, ?_⟩
  have hmarks := not_mem_marks (h _ (List.getLast_mem hne))
  simp only [marks, List.mem_cons, not_or] at hmarks
  simp [SourceLine.isBreak, hmarks]

theorem WrittenArgument.closed_chars (a : WrittenArgument) : Closed a.chars := by
  cases a with
  | int n =>
    refine closed_of_isWordChar ?_ fun c hc => isWordChar_of_mem_decimal hc
    by_cases hn : n.toInt < 0
    · simp [chars, decimal_of_neg hn]
    · simp [chars, decimal_of_nonneg (not_lt.1 hn), Nat.toDigits_ne_nil]
  | str s => exact ⟨'"' :: escaped s.toList, '"', rfl, by decide⟩
  | word w => exact closed_of_isWordChar (List.cons_ne_nil _ _) fun c hc => w.isWordChar_of_mem hc

theorem closed_arguments {cs : List Char} (h : Closed cs) (arguments : List WrittenArgument) :
    Closed (cs ++ arguments.flatMap fun a => ' ' :: a.chars) := by
  induction arguments generalizing cs with
  | nil => simpa using h
  | cons a arguments ih =>
    have hcons : cs ++ (a :: arguments).flatMap (fun a => ' ' :: a.chars) =
        (cs ++ ' ' :: a.chars) ++ arguments.flatMap fun a => ' ' :: a.chars := by
      simp
    rw [hcons]
    refine ih ?_
    rw [← List.singleton_append, ← List.append_assoc]
    exact a.closed_chars.append _

theorem WrittenLine.closed_chars (l : WrittenLine) : Closed l.chars := by
  rcases l with ⟨name, _ | a⟩ | ⟨keyword, arguments⟩
  · exact ⟨'[' :: quoted name, ']', rfl, by decide⟩
  · refine ⟨'[' :: (quoted name ++ ' ' :: alignChars a), ']', ?_, by decide⟩
    simp [chars]
  · exact closed_arguments (closed_of_isWordChar (List.cons_ne_nil _ _)
      fun c hc => keyword.isWordChar_of_mem hc) arguments

/-! ## Lines -/

theorem Definitions.expandFrom_plain (d : Definitions) {cs : List Char} (h : ∀ c ∈ cs, c ≠ '$') :
    d.expandFrom none cs = .ok cs := by
  induction cs with
  | nil => rw [expandFrom]
  | cons c cs ih =>
    obtain ⟨hc, hcs⟩ := List.forall_mem_cons.1 h
    rw [expandFrom, ih hcs]
    · rfl
    · rintro rest rfl
      exact absurd rfl hc

/-- **A line is read as what it says**, inside a section. -/
theorem statement_chars (options : ReadOptions) (l : WrittenLine) :
    Reader.statement options true l.chars = .ok l.statement ∧
      (l.statement.isHeader = true →
        ∀ inside, Reader.statement options inside l.chars = .ok l.statement) := by
  have hplain : options.definitions.expand l.chars = .ok l.chars :=
    options.definitions.expandFrom_plain fun c hc => (l.plain_chars c hc).2
  have hread {inside ts} (hr : Reads l.chars ts)
      (hst : Statement.ofTokens inside ts = .ok l.statement) :
      Reader.statement options inside l.chars = .ok l.statement := by
    obtain ⟨lexemes, hlexemes, rfl⟩ := hr 0
    rw [Reader.statement, hplain, bind_eq_ok]
    refine ⟨l.chars, rfl, ?_⟩
    rw [hlexemes]
    exact hst
  cases l with
  | header name alignment =>
    obtain ⟨ts, hr, hst⟩ := WrittenLine.reads_header name alignment
    exact ⟨hread hr (hst true), fun _ inside => hread hr (hst inside)⟩
  | line keyword arguments =>
    obtain ⟨ts, hr, hst⟩ := WrittenLine.reads_line keyword arguments
    exact ⟨hread hr hst, fun h => by cases h⟩

/-- **The lines of a script** are those that were written. -/
theorem lines_script {ls : List (List Char)} (h : ∀ l ∈ ls, '\n' ∉ l ∧ Closed l)
    (number : UInt32) (start : ℕ) : (SourceLine.ofPieces number start
      (SourceLine.pieces (ls.flatMap fun l => l ++ ['\n']))).map SourceLine.text = ls := by
  induction ls generalizing number start with
  | nil => rfl
  | cons l ls ih =>
    obtain ⟨⟨hl, front, c, rfl, hc⟩, hls⟩ := List.forall_mem_cons.1 h
    have hcut : ((front ++ [c]) :: ls).flatMap (fun l => l ++ ['\n']) =
        (front ++ [c]) ++ '\n' :: ls.flatMap fun l => l ++ ['\n'] := by
      simp
    have hdrop : Text.dropEndWhile SourceLine.isBreak (front ++ [c] ++ ['\n']) = front ++ [c] := by
      rw [SourceLine.dropEndWhile_concat, if_pos (by decide), SourceLine.dropEndWhile_concat, hc,
        if_neg Bool.false_ne_true]
    rw [hcut, SourceLine.pieces_break hl, SourceLine.ofPieces, List.map_cons, ih hls]
    exact congrArg (· :: ls) hdrop

/-! ## Sections -/

namespace Reader

variable {lines : List (Origin × Statement)} {known : List String} {ss : List ScriptSection}

/-- Inside a section, or from a header on, lines are read as what they say. -/
theorem ofLines_written (options : ReadOptions) (file : ℕ) (path : Path) (inside : Bool)
    {ls : List SourceLine} {rows : List WrittenLine}
    (h : ls.map SourceLine.text = rows.map WrittenLine.chars)
    (hinside : ∀ l ∈ rows.head?, inside = true ∨ l.statement.isHeader = true) :
    (Text.ofLines options file path inside ls).error = none ∧
      (Text.ofLines options file path inside ls).lines.map Prod.snd =
        rows.map WrittenLine.statement := by
  induction ls generalizing rows inside with
  | nil =>
    cases rows with
    | nil => exact ⟨rfl, rfl⟩
    | cons row rows => cases h
  | cons l ls ih =>
    cases rows with
    | nil => cases h
    | cons row rows =>
      obtain ⟨hrow, hrows⟩ := List.cons.inj h
      have hst : statement options inside l.text = .ok row.statement := by
        rw [hrow]
        rcases hinside row rfl with rfl | hheader
        · exact (statement_chars options row).1
        · exact (statement_chars options row).2 hheader inside
      have hnext : (inside || row.statement.isHeader) = true := by
        rcases hinside row rfl with rfl | hheader
        · rfl
        · simp [hheader]
      obtain ⟨herror, hlines⟩ := ih (inside || row.statement.isHeader) hrows
        fun _ _ => Or.inl hnext
      rw [Text.ofLines, hst]
      exact ⟨herror, congrArg (row.statement :: ·) hlines⟩

theorem head?_rows (ws : List WrittenSection) :
    ∀ l ∈ (ws.flatMap WrittenSection.rows).head?, l.statement.isHeader = true := by
  cases ws with
  | nil => exact nofun
  | cons w ws =>
    rintro _ ⟨⟩
    rfl

/-- In front of the next header, the keyword lines are those of the section. -/
theorem content_body {ws : List WrittenSection}
    (ls : List (BareWord × List WrittenArgument))
    (h : lines.map Prod.snd = (ls.map fun l => WrittenLine.line l.1 l.2).map WrittenLine.statement ++
      (ws.flatMap WrittenSection.rows).map WrittenLine.statement) :
    ((Text.body lines).map fun l => (l.keyword, l.arguments)) =
        (ls.map fun l => (l.1.text.toLower, l.2.map WrittenArgument.argument)) ∧
      ∃ rest, Text.cut lines = Text.cut rest ∧
        rest.map Prod.snd = (ws.flatMap WrittenSection.rows).map WrittenLine.statement := by
  induction ls generalizing lines with
  | nil =>
    refine ⟨?_, lines, rfl, h⟩
    cases ws with
    | nil =>
      obtain rfl := List.map_eq_nil_iff.1 h
      rfl
    | cons w ws =>
      obtain ⟨⟨o, st⟩, lines, rfl, rfl, -⟩ := List.map_eq_cons_iff.1 h
      rfl
  | cons l ls ih =>
    obtain ⟨⟨o, st⟩, lines, rfl, rfl, hlines⟩ := List.map_eq_cons_iff.1 h
    obtain ⟨hbody, rest, hcut, hrest⟩ := ih hlines
    exact ⟨congrArg (_ :: ·) hbody, rest, hcut, hrest⟩

theorem content_cut {ws : List WrittenSection}
    (h : lines.map Prod.snd = (ws.flatMap WrittenSection.rows).map WrittenLine.statement) :
    (Text.cut lines).map ScriptSection.content = ws.map WrittenSection.content := by
  induction ws generalizing lines with
  | nil =>
    obtain rfl := List.map_eq_nil_iff.1 h
    rfl
  | cons w ws ih =>
    rw [List.flatMap_cons, List.map_append] at h
    obtain ⟨⟨o, st⟩, lines, rfl, rfl, hlines⟩ := List.map_eq_cons_iff.1 h
    obtain ⟨hbody, rest, hcut, hrest⟩ := content_body w.lines hlines
    have hsection : ScriptSection.content
        { name := w.name, alignment := w.alignment.map Subtype.val, origin := o,
          lines := Text.body lines } = w.content := by
      rw [ScriptSection.content, WrittenSection.content, hbody]
    show ScriptSection.content _ :: (Text.cut lines).map ScriptSection.content = _
    rw [hcut, ih hrest, List.map_cons]
    exact congrArg (· :: _) hsection

/-- Definitions of new names are all kept. -/
theorem keeps_of_nodup (policy : DuplicatePolicy) (known : List String) (hnodup : (ss.map ScriptSection.name).Nodup)
    (hnew : ∀ s ∈ ss, s.name ∉ known) :
    firsts known ss = ss ∧ repeats known ss = [] ∧ reached policy known ss = ss := by
  induction ss generalizing known with
  | nil => exact ⟨rfl, rfl, rfl⟩
  | cons s ss ih =>
    obtain ⟨hs, hnew⟩ := List.forall_mem_cons.1 hnew
    obtain ⟨hname, hnodup⟩ := List.nodup_cons.1 hnodup
    obtain ⟨hfirsts, hrepeats, hreached⟩ := ih (known ++ [s.name]) hnodup (by
      intro s' hs' hmem
      rcases List.mem_append.1 hmem with hmem | hmem
      · exact hnew s' hs' hmem
      · exact hname (List.mem_map.2 ⟨s', hs', List.mem_singleton.1 hmem⟩))
    simp [firsts, repeats, reached, hs, hfirsts, hrepeats, hreached]

/-- What is heard of a script. -/
theorem heard_script (options : ReadOptions) (r : Reader) (path : Path) (ws : List WrittenSection) :
    (r.heard options path (WrittenSection.script ws)).error = none ∧
      (r.heard options path (WrittenSection.script ws)).whole.map ScriptSection.content =
        ws.map WrittenSection.content := by
  have hlines : (SourceLine.ofText (WrittenSection.script ws)).map SourceLine.text =
      (ws.flatMap WrittenSection.rows).map WrittenLine.chars := by
    have hflat : (ws.flatMap WrittenSection.rows).flatMap (fun l => l.chars ++ ['\n']) =
        ((ws.flatMap WrittenSection.rows).map WrittenLine.chars).flatMap fun cs => cs ++ ['\n'] := by
      rw [List.flatMap_map]
    rw [SourceLine.ofText, WrittenSection.script, String.toList_ofList, hflat]
    refine lines_script ?_ 1 0
    intro cs hcs
    obtain ⟨l, -, rfl⟩ := List.mem_map.1 hcs
    exact ⟨fun hmem => (l.plain_chars _ hmem).1 rfl, l.closed_chars⟩
  obtain ⟨herror, hsaid⟩ := ofLines_written options r.sources.size path.normalize false hlines
    fun l hl => Or.inr (head?_rows ws l hl)
  refine ⟨herror, ?_⟩
  rw [Text.whole, show (r.heard options path _).error = none from herror]
  exact content_cut hsaid

end Reader

/-- **A script is read as it was written.** -/
theorem readText_script (options : ReadOptions) (path : Path) (ws : List WrittenSection)
    (r : Reader) (hnodup : (ws.map WrittenSection.name).Nodup)
    (hnew : ∀ w ∈ ws, w.name ∉ r.table.names) :
    ∃ read : List ScriptSection,
      read.map ScriptSection.content = ws.map WrittenSection.content ∧
        Runs (Reader.readText options path (WrittenSection.script ws)) r ()
          { table := ⟨r.table.sections ++ read⟩, warnings := r.warnings
            sources := r.sources.add path.normalize.text (WrittenSection.script ws) } := by
  obtain ⟨herror, hcontent⟩ := Reader.heard_script options r path ws
  generalize hread : (r.heard options path (WrittenSection.script ws)).whole = read at hcontent
  have hnames : read.map ScriptSection.name = ws.map WrittenSection.name := by
    have hmap := congrArg (List.map Prod.fst) hcontent
    rwa [List.map_map, List.map_map] at hmap
  have hfresh : ∀ s ∈ read, s.name ∉ r.table.names := by
    intro s hs
    have hmem : s.name ∈ ws.map WrittenSection.name := hnames ▸ List.mem_map_of_mem hs
    obtain ⟨w, hw, hname⟩ := List.mem_map.1 hmem
    exact hname ▸ hnew w hw
  obtain ⟨hfirsts, hrepeats, hreached⟩ :=
    Reader.keeps_of_nodup options.policy r.table.names (hnames ▸ hnodup) hfresh
  refine ⟨read, hcontent, ?_⟩
  have hrefusal : Reader.refusal? options.policy r.table.names read = none := by
    cases hp : options.policy <;> simp [Reader.refusal?, hrepeats]
  have hleft : Reader.leftOut options.policy r.table.names read = [] := by
    cases hp : options.policy <;> simp [Reader.leftOut, hrepeats]
  rw [Runs]
  refine (Reader.call_eq options path (WrittenSection.script ws) r).trans ?_
  rw [Reader.withSections]
  simp only [hread, hrefusal, herror, hreached, hfirsts, hleft, List.append_nil]
  rfl

namespace Demo

/-- Two sections, with names and texts that mean something outside of quotes. -/
def awkward : List WrittenSection := [
  { name := "a]\n# b", alignment := some ⟨16, by decide⟩
    lines := [(⟨'L', ['o', 'n', 'g'], by decide, by simp [isWordChar, startsWord]⟩,
      [.int (-9223372036854775808), .str "$(X) \\ \"", .word ⟨'.', ['-'], by decide, by simp [isWordChar]⟩])] },
  { name := "", alignment := none, lines := [] }]

example : WrittenSection.script awkward =
    "[\"a]\\n# b\" align=16]\nLong -9223372036854775808 \"\\x24(X) \\\\ \\\"\" .-\n[\"\"]\n" := by
  decide +kernel

end Demo

/-- The two sections are read from the script, and nothing else. -/
theorem readText_script_demo : (Demo.awkward.map WrittenSection.name).Nodup ∧
    ∃ read : List ScriptSection,
      read.map ScriptSection.content =
        [("a]\n# b", some 16, [("long", [.int (-9223372036854775808), .str "$(X) \\ \"",
          .word ".-"])]), ("", none, [])] ∧
      ∃ sources, Runs (Reader.readText {} (.ofText "main.lvs")
        (WrittenSection.script Demo.awkward)) {} () { table := ⟨read⟩, sources } := by
  have hnodup : (Demo.awkward.map WrittenSection.name).Nodup := by decide
  obtain ⟨read, hcontent, hruns⟩ :=
    readText_script {} (.ofText "main.lvs") Demo.awkward {} hnodup fun _ _ => List.not_mem_nil
  refine ⟨hnodup, read, hcontent.trans ?_, _, hruns⟩
  decide +kernel

end LevelBundle
