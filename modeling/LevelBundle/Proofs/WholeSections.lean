/-
  LevelBundle — sections are read whole, and the first definition of a name stays.

  A section that is being read is held back until the next header, so that an error at any
  line may lose it.  What a text says is told here without a reader: its lines up to the first
  that cannot be read, cut at the headers.

  * `Reader.Text`: the lines of a text that are heard, with what they say, and the error of
    the first that cannot be read.  `Text.sections`: each header with its keyword lines;
    `Text.whole`: those of them that have an end.
  * `firsts`, `repeats`: the definitions whose names are new, and those whose names are taken.
    `reached`: the definitions that are put into the table, or refused.
  * `readLines_eq`: reading lines puts the whole sections into the table, one after the other.
  * `Reader.Commits`: what one call does; `sections_after`: what any calls do.
-/
import LevelBundle.Proofs.Steps
import LevelBundle.Script.Reader

namespace LevelBundle

/-- The names of the sections, in the order of their definition. -/
def SectionTable.names (t : SectionTable) : List String := t.sections.map ScriptSection.name

def Statement.isHeader : Statement → Bool
  | header _ _ => true
  | _ => false

namespace Reader

/-! ## Texts -/

/-- What is heard of a text. -/
structure Text where
  /-- What the lines say that can be read. -/
  lines : List (Origin × Statement) := []
  /-- The error of the line behind them. -/
  error : Option BuildError := none

namespace Text

/-- The lines of a text up to the first that cannot be read; `inside` says whether there has
    been a header. -/
def ofLines (options : ReadOptions) (file : ℕ) (path : Path) :
    Bool → List SourceLine → Text
  | _, [] => {}
  | inside, l :: rest =>
    match statement options inside l.text with
    | .error kind => { error := some (.at kind (l.origin file path)) }
    | .ok st =>
      let text := ofLines options file path (inside || st.isHeader) rest
      { text with lines := (l.origin file path, st) :: text.lines }

/-- The keyword lines in front of the next header. -/
def body : List (Origin × Statement) → List ScriptLine
  | (origin, .line keyword arguments) :: rest => { keyword, arguments, origin } :: body rest
  | (_, .empty) :: rest => body rest
  | _ => []

/-- Each header with the keyword lines in front of the next one. -/
def cut : List (Origin × Statement) → List ScriptSection
  | (origin, .header name alignment) :: rest =>
    { name, alignment, origin, lines := body rest } :: cut rest
  | _ :: rest => cut rest
  | [] => []

def sections (t : Text) : List ScriptSection := cut t.lines

/-- The sections that have an end: a header behind them, or the end of the text. -/
def whole (t : Text) : List ScriptSection :=
  if t.error.isSome then t.sections.dropLast else t.sections

end Text

/-- The text that a call reads. -/
def heard (options : ReadOptions) (r : Reader) (path : Path) (text : String) : Text :=
  .ofLines options r.sources.size path.normalize false (SourceLine.ofText text)

/-! ## Definitions -/

/-- The definitions whose names are new; the names `known` are taken. -/
def firsts (known : List String) : List ScriptSection → List ScriptSection
  | [] => []
  | s :: rest =>
    if s.name ∈ known then firsts known rest else s :: firsts (known ++ [s.name]) rest

/-- The definitions whose names are taken. -/
def repeats (known : List String) : List ScriptSection → List ScriptSection
  | [] => []
  | s :: rest =>
    if s.name ∈ known then s :: repeats known rest else repeats (known ++ [s.name]) rest

/-- The definitions that are put into the table or refused: nothing is read behind an error. -/
def reached (policy : DuplicatePolicy) (known : List String) :
    List ScriptSection → List ScriptSection
  | [] => []
  | s :: rest =>
    if s.name ∈ known then
      match policy with
      | .error => [s]
      | .ignore => s :: reached policy known rest
    else s :: reached policy (known ++ [s.name]) rest

def duplicateError (s : ScriptSection) : BuildError := .at (.duplicateSection s.name) s.origin

def duplicateWarning (s : ScriptSection) : Warning :=
  { kind := .duplicateIgnored s.name, origin := some s.origin }

/-- The error of the first definition that is refused. -/
def refusal? (policy : DuplicatePolicy) (known : List String) (ss : List ScriptSection) :
    Option BuildError :=
  match policy with
  | .error => (repeats known ss).head?.map duplicateError
  | .ignore => none

/-- The warnings of the definitions that are left out. -/
def leftOut (policy : DuplicatePolicy) (known : List String) (ss : List ScriptSection) :
    List Warning :=
  match policy with
  | .error => []
  | .ignore => (repeats known ss).map duplicateWarning

/-- An answer that fails if there is an error. -/
def answer : Option BuildError → Except BuildError Unit
  | some e => .error e
  | none => .ok ()

variable {options : ReadOptions} {r : Reader} {file : ℕ} {path : Path} {s : ScriptSection}
  {known : List String} {ss : List ScriptSection}

theorem whole_sublist (t : Text) : t.whole.Sublist t.sections := by
  by_cases he : t.error.isSome
  · rw [Text.whole, if_pos he]
    exact List.dropLast_sublist _
  · rw [Text.whole, if_neg he]

theorem firsts_sublist (known : List String) (ss : List ScriptSection) :
    (firsts known ss).Sublist ss := by
  fun_induction firsts known ss with
  | case1 => exact .slnil
  | case2 known s rest hs ih => exact ih.cons s
  | case3 known s rest hs ih => exact ih.cons_cons s

theorem repeats_sublist (known : List String) (ss : List ScriptSection) :
    (repeats known ss).Sublist ss := by
  fun_induction repeats known ss with
  | case1 => exact .slnil
  | case2 known s rest hs ih => exact ih.cons_cons s
  | case3 known s rest hs ih => exact ih.cons s

theorem reached_sublist (policy : DuplicatePolicy) (known : List String)
    (ss : List ScriptSection) : (reached policy known ss).Sublist ss := by
  fun_induction reached policy known ss with
  | case1 => exact .slnil
  | case2 known s rest hs => exact (List.nil_sublist rest).cons_cons s
  | case3 known s rest hs hp ih => exact hp ▸ ih.cons_cons s
  | case4 known s rest hs ih => exact ih.cons_cons s

/-! ## Reading lines -/

namespace Text

/-- The sections of a text behind the beginning of the section `current`. -/
def sectionsWith (current : Option ScriptSection) (t : Text) : List ScriptSection :=
  match current with
  | some s => { s with lines := s.lines ++ body t.lines } :: t.sections
  | none => t.sections

def wholeWith (current : Option ScriptSection) (t : Text) : List ScriptSection :=
  if t.error.isSome then (t.sectionsWith current).dropLast else t.sectionsWith current

/-- A line in front of a text. -/
def push (origin : Origin) (st : Statement) (t : Text) : Text :=
  { t with lines := (origin, st) :: t.lines }

variable {origin : Origin} {t : Text} {current : Option ScriptSection} {name keyword : String}
  {alignment : Option UInt32} {arguments : List Argument}

theorem wholeWith_empty : (push origin .empty t).wholeWith current = t.wholeWith current := by
  cases current <;> rfl

theorem wholeWith_header_none :
    (push origin (.header name alignment) t).wholeWith none =
      t.wholeWith (some { name, alignment, origin }) := rfl

theorem wholeWith_header_some :
    (push origin (.header name alignment) t).wholeWith (some s) =
      s :: t.wholeWith (some { name, alignment, origin }) := by
  by_cases h : t.error.isSome
  · simp [wholeWith, sectionsWith, push, body, sections, cut, h]
  · simp [wholeWith, sectionsWith, push, body, sections, cut, h]

theorem wholeWith_line :
    (push origin (.line keyword arguments) t).wholeWith current =
      t.wholeWith (current.map fun s =>
        { s with lines := s.lines ++ [{ keyword, arguments, origin }] }) := by
  cases current with
  | none => rfl
  | some s => simp [wholeWith, sectionsWith, push, body, sections, cut]

end Text

/-- **Reading lines** puts the whole sections into the table; then comes the error of the line
    that cannot be read. -/
theorem readLines_eq (current : Option ScriptSection) (lines : List SourceLine) :
    readLines options file path current lines =
      forM ((Text.ofLines options file path current.isSome lines).wholeWith current)
          (commit options) >>= fun _ =>
        liftM (answer (Text.ofLines options file path current.isSome lines).error) := by
  induction lines generalizing current with
  | nil =>
    cases current with
    | none => rfl
    | some s =>
      have hwhole : (Text.ofLines options file path true []).wholeWith (some s) = [s] := by
        simp [Text.ofLines, Text.wholeWith, Text.sectionsWith, Text.body, Text.sections, Text.cut]
      rw [Option.isSome_some, hwhole]
      simp [readLines, Text.ofLines, answer]
      exact (bind_pure _).symm
  | cons l rest ih =>
    rw [readLines, readLine]
    cases hst : statement options current.isSome l.text with
    | error kind =>
      have htext : Text.ofLines options file path current.isSome (l :: rest) =
          { error := some (.at kind (l.origin file path)) } := by
        simp [Text.ofLines, hst]
      have hwhole : (Text.ofLines options file path current.isSome (l :: rest)).wholeWith current
          = [] := by
        rw [htext]
        cases current <;> rfl
      rw [hwhole, htext]
      rfl
    | ok st =>
      have htext : Text.ofLines options file path current.isSome (l :: rest) =
          (Text.ofLines options file path (current.isSome || st.isHeader) rest).push
            (l.origin file path) st := by
        simp [Text.ofLines, hst, Text.push]
      rw [htext]
      cases st with
      | empty =>
        simp only [pure_bind, ih, Text.wholeWith_empty, Statement.isHeader, Bool.or_false]
        rfl
      | header name alignment =>
        cases current with
        | none =>
          simp only [pure_bind, ih, Text.wholeWith_header_none]
          rfl
        | some s =>
          simp only [bind_assoc, pure_bind, ih, Text.wholeWith_header_some]
          exact (bind_assoc (commit options s) _ _).symm
      | line keyword arguments =>
        simp only [pure_bind, ih, Text.wholeWith_line, Statement.isHeader, Bool.or_false,
          Option.isSome_map]
        rfl

/-! ## Putting sections into the table -/

theorem contains_iff {t : SectionTable} {name : String} :
    t.contains name = true ↔ name ∈ t.names := by
  simp [SectionTable.contains, SectionTable.find?, SectionTable.names]

theorem run_commit (s : ScriptSection) (r : Reader) :
    ((commit options s).run r : Except BuildError Unit × Reader) =
      if s.name ∈ r.table.names then
        match options.policy with
        | .error => (.error (duplicateError s), r)
        | .ignore => (.ok (), { r with warnings := r.warnings ++ [duplicateWarning s] })
      else (.ok (), { r with table := ⟨r.table.sections ++ [s]⟩ }) := by
  rw [commit, run_bind_ok (run_get r)]
  by_cases h : s.name ∈ r.table.names
  · have hc : r.table.contains s.name = true := contains_iff.2 h
    cases hp : options.policy with
    | error => simp only [SectionTable.insert, hc, h, ↓reduceIte]; rfl
    | ignore => simp only [SectionTable.insert, hc, h, ↓reduceIte]; rfl
  · have hc : ¬ r.table.contains s.name = true := fun hc => h (contains_iff.1 hc)
    simp [SectionTable.insert, hc, h, run_set]

/-- What the sections `ss` do to a reader when they are put into its table. -/
def withSections (policy : DuplicatePolicy) (ss : List ScriptSection) (r : Reader) : Reader :=
  { r with
    table := ⟨r.table.sections ++ firsts r.table.names (reached policy r.table.names ss)⟩
    warnings := r.warnings ++ leftOut policy r.table.names ss }

theorem run_commits (ss : List ScriptSection) (r : Reader) :
    ((forM ss (commit options)).run r : Except BuildError Unit × Reader) =
      (answer (refusal? options.policy r.table.names ss), r.withSections options.policy ss) := by
  induction ss generalizing r with
  | nil =>
    cases hp : options.policy <;>
      simp [withSections, refusal?, leftOut, reached, firsts, repeats, answer] <;> rfl
  | cons s ss ih =>
    rw [List.forM_cons, run_bind, run_commit]
    by_cases h : s.name ∈ r.table.names
    · cases hp : options.policy with
      | error =>
        simp [h, withSections, refusal?, leftOut, reached, firsts, repeats, answer]
      | ignore =>
        simp [h, ih, hp, withSections, refusal?, leftOut, reached, firsts, repeats]
    · have hn : (SectionTable.mk (r.table.sections ++ [s])).names = r.table.names ++ [s.name] := by
        simp [SectionTable.names]
      cases hp : options.policy <;>
        simp [h, ih, hp, hn, withSections, refusal?, leftOut, reached, firsts, repeats]

/-! ## Calls -/

/-- What a call answers, and the reader that it leaves. -/
def call (options : ReadOptions) (path : Path) (text : String) (r : Reader) :
    Except BuildError Unit × Reader :=
  (readText options path text).run r

/-- A call registers its text and puts the whole sections into the table; then comes the error of
    the line that cannot be read. -/
theorem call_eq (options : ReadOptions) (path : Path) (text : String) (r : Reader) :
    r.call options path text =
      (answer ((refusal? options.policy r.table.names (r.heard options path text).whole).or
          (r.heard options path text).error),
        ({ r with sources := r.sources.add path.normalize.text text }).withSections options.policy
          (r.heard options path text).whole) := by
  have hlines : readLines options r.sources.size path.normalize none (SourceLine.ofText text) =
      forM (r.heard options path text).whole (commit options) >>= fun _ =>
        liftM (answer (r.heard options path text).error) := readLines_eq none _
  rw [call, readText, run_bind_ok (run_get r), run_bind_ok (run_set r _), hlines, run_bind,
    run_commits]
  cases refusal? options.policy r.table.names (r.heard options path text).whole with
  | none => exact run_lift _ _
  | some e => rfl

/-- The reader after some calls, whether they fail or not. -/
def after (options : ReadOptions) : List (Path × String) → Reader → Reader
  | [], r => r
  | (path, text) :: rest, r => after options rest (r.call options path text).2

/-- The definitions that some calls put into the table, or refuse. -/
def definitionsOf (options : ReadOptions) : List (Path × String) → Reader → List ScriptSection
  | [], _ => []
  | (path, text) :: rest, r =>
    reached options.policy r.table.names (r.heard options path text).whole ++
      definitionsOf options rest (r.call options path text).2

theorem after_append (before later : List (Path × String)) (r : Reader) :
    after options (before ++ later) r = after options later (after options before r) := by
  induction before generalizing r with
  | nil => rfl
  | cons call before ih => exact ih _

theorem table_call (options : ReadOptions) (path : Path) (text : String) (r : Reader) :
    (r.call options path text).2.table.sections =
      r.table.sections ++ firsts r.table.names
        (reached options.policy r.table.names (r.heard options path text).whole) := by
  rw [call_eq]
  rfl

/-! ## First definitions -/

theorem firsts_append (known : List String) (ss ss' : List ScriptSection) :
    firsts known (ss ++ ss') =
      firsts known ss ++ firsts (known ++ (firsts known ss).map ScriptSection.name) ss' := by
  induction ss generalizing known with
  | nil => simp [firsts]
  | cons s ss ih =>
    by_cases h : s.name ∈ known
    · simp [firsts, h, ih]
    · simp [firsts, h, ih]

theorem name_not_mem_of_mem_firsts (h : s ∈ firsts known ss) : s.name ∉ known := by
  induction ss generalizing known with
  | nil => cases h
  | cons s' ss ih =>
    by_cases hs : s'.name ∈ known
    · rw [firsts, if_pos hs] at h
      exact ih h
    · rw [firsts, if_neg hs, List.mem_cons] at h
      rcases h with rfl | h
      · exact hs
      · intro hk
        exact ih h (List.mem_append_left _ hk)

theorem nodup_firsts (known : List String) (ss : List ScriptSection) :
    ((firsts known ss).map ScriptSection.name).Nodup := by
  induction ss generalizing known with
  | nil => exact List.nodup_nil
  | cons s ss ih =>
    by_cases h : s.name ∈ known
    · simpa [firsts, h] using ih known
    · rw [firsts, if_neg h, List.map_cons, List.nodup_cons]
      refine ⟨?_, ih _⟩
      intro hs
      obtain ⟨s', hs', hname⟩ := List.mem_map.1 hs
      exact name_not_mem_of_mem_firsts hs' (by simp [hname])

/-- Of the definitions of a new name, the first one is among the first definitions. -/
theorem find?_firsts {name : String} (hname : name ∉ known) (ss : List ScriptSection) :
    (firsts known ss).find? (fun s => s.name == name) = ss.find? fun s => s.name == name := by
  induction ss generalizing known with
  | nil => rfl
  | cons s ss ih =>
    by_cases h : s.name ∈ known
    · have hne : s.name ≠ name := fun hs => hname (hs ▸ h)
      simp [firsts, h, hne, ih hname]
    · by_cases hs : s.name = name
      · simp [firsts, hs, hname]
      · have hk : name ∉ known ++ [s.name] := by
          simp [hname, Ne.symm hs]
        simp [firsts, h, hs, ih hk]

theorem sections_after (texts : List (Path × String)) (r : Reader) :
    (after options texts r).table.sections =
      r.table.sections ++ firsts r.table.names (definitionsOf options texts r) := by
  induction texts generalizing r with
  | nil => simp [after, definitionsOf, firsts]
  | cons call texts ih =>
    obtain ⟨path, text⟩ := call
    have htable := table_call options path text r
    rw [after, ih, definitionsOf, firsts_append, ← List.append_assoc, ← htable]
    simp [SectionTable.names, htable]

/-- What one call does to a reader. -/
structure Commits (options : ReadOptions) (path : Path) (text : String) (r : Reader) : Prop where
  /-- The first definition that is refused is the error; if none is, the first line that cannot be
      read is. -/
  answer : (r.call options path text).1 =
    answer ((refusal? options.policy r.table.names (r.heard options path text).whole).or
      (r.heard options path text).error)
  /-- The whole sections are put into the table in their order, up to the first that is refused,
      and those whose names are taken are left out. -/
  sections : (r.call options path text).2.table.sections = r.table.sections ++
    firsts r.table.names
      (reached options.policy r.table.names (r.heard options path text).whole)
  /-- There is one warning for each definition that is left out. -/
  warnings : (r.call options path text).2.warnings = r.warnings ++
    leftOut options.policy r.table.names (r.heard options path text).whole
  /-- The text is registered. -/
  sources : (r.call options path text).2.sources = r.sources.add path.normalize.text text

/-- **Sections are read whole, and the first definition of a name stays.** -/
theorem calls_keep_first (options : ReadOptions) (sources : SourceMap)
    (texts : List (Path × String)) :
    let final := after options texts { sources }
    final.table.sections = firsts [] (definitionsOf options texts { sources }) ∧
      final.table.names.Nodup ∧
      (∀ name, final.table.find? name =
        (definitionsOf options texts { sources }).find? fun s => s.name == name) ∧
      ∀ before path text later, texts = before ++ (path, text) :: later →
        let r := after options before { sources }
        Commits options path text r ∧ final = after options later (r.call options path text).2 ∧
          (r.call options path text).2.table.sections <+: final.table.sections := by
  intro final
  have hsections : final.table.sections = firsts [] (definitionsOf options texts { sources }) :=
    sections_after texts { sources }
  refine ⟨hsections, ?_, ?_, ?_⟩
  · rw [SectionTable.names, hsections]
    exact nodup_firsts _ _
  · intro name
    rw [SectionTable.find?, hsections]
    exact find?_firsts List.not_mem_nil _
  · rintro before path text later rfl r
    have hfinal : final = after options later (r.call options path text).2 :=
      after_append before _ _
    refine ⟨⟨?_, ?_, ?_, ?_⟩, hfinal, ?_⟩
    · rw [call_eq]
    · exact table_call options path text r
    · rw [call_eq]
      rfl
    · rw [call_eq]
      rfl
    · rw [hfinal, sections_after]
      exact List.prefix_append _ _

/-- A text whose last line cannot be read. -/
def torn : String := "[a]\nbyte 1\n[b]\nbyte 2\n?\n"

/-- Behind it comes one that defines its sections again. -/
def tornTexts : List (Path × String) := [(.ofText "a.lvs", torn), (.ofText "b.lvs", "[b]\n[a]\n")]

/-- The section that has no end is lost; the other one stays as it was first defined. -/
theorem calls_keep_first_torn :
    let options : ReadOptions := { policy := .ignore }
    let final := after options tornTexts {}
    final.table.names.Nodup ∧
      final.table.sections.map (fun s => (s.name, s.origin.file, s.lines.length)) =
        [("a", 0, 1), ("b", 1, 0)] ∧
      final.warnings = [{ kind := .duplicateIgnored "a", origin := some ⟨1, .ofText "b.lvs", 2, 4, 7⟩ }] ∧
      (∃ e, (call options (.ofText "a.lvs") torn {}).1 = .error e) ∧
      (call options (.ofText "a.lvs") torn {}).2.table.names = ["a"] := by
  intro options final
  obtain ⟨-, hnodup, -, hcalls⟩ := calls_keep_first options {} tornTexts
  obtain ⟨hcommits, -⟩ := hcalls [] _ _ _ rfl
  have herror : (heard options {} (.ofText "a.lvs") torn).error.isSome = true := by decide +kernel
  obtain ⟨e, he⟩ := Option.isSome_iff_exists.1 herror
  have hnames : (firsts [] (reached .ignore [] (heard options {} (.ofText "a.lvs") torn).whole)).map
      ScriptSection.name = ["a"] := by
    decide +kernel
  refine ⟨hnodup, by decide +kernel, by decide +kernel, ⟨e, hcommits.answer.trans ?_⟩, ?_⟩
  · show answer (heard options {} (.ofText "a.lvs") torn).error = _
    rw [he]
    rfl
  · exact (congrArg (List.map ScriptSection.name) hcommits.sections).trans hnames

end Reader

end LevelBundle
