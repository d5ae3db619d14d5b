/-
  LevelBundle — every message is about a line of the script.

  What reading and compiling say about a script they say about one of its lines: a section
  keeps the origin of its header, and errors and warnings carry the origin of the line that is
  to blame.

  * `Cites`: a section, a warning or an error names a line of which something is known.
  * `Reader.Cited`, `Compiler.Cited`: all that has been kept so far does.
  * `Compiler.Citing`: a step of compiling keeps this, and its errors name such a line too.
    `visitCites_compileWithin`: so does compiling a section, unless nobody asked for it.
  * `diagnostics_cited`: after any texts and any calls, all origins show a line of a text.
-/
import LevelBundle.Proofs.Leftovers
import LevelBundle.Proofs.SourceLines
import LevelBundle.Proofs.WholeSections

namespace LevelBundle

variable {P : Origin → Prop}

/-- The header and the lines of a section come from such lines. -/
def ScriptSection.Cites (P : Origin → Prop) (s : ScriptSection) : Prop :=
  P s.origin ∧ ∀ l ∈ s.lines, P l.origin

def Warning.Cites (P : Origin → Prop) (w : Warning) : Prop := ∃ o, w.origin = some o ∧ P o

def BuildError.Cites (P : Origin → Prop) (e : BuildError) : Prop := ∃ o, e.origin = some o ∧ P o

theorem BuildError.Cites.at {o : Origin} (kind : BuildError.Kind) (h : P o) :
    (BuildError.at kind o).Cites P := ⟨o, rfl, h⟩

/-! ## Reading -/

namespace Reader

variable {options : ReadOptions} {file : ℕ} {path : Path} {inside : Bool}
  {lines : List (Origin × Statement)} {known : List String} {policy : DuplicatePolicy}
  {s : ScriptSection} {ss : List ScriptSection} {r : Reader}

/-- What is kept names lines of the registered texts. -/
structure Cited (r : Reader) : Prop where
  sections : ∀ s ∈ r.table.sections, s.Cites r.sources.Shows
  warnings : ∀ w ∈ r.warnings, w.Cites r.sources.Shows

theorem cites_ofLines (options : ReadOptions) (inside : Bool) {ls : List SourceLine} (h : ∀ l ∈ ls, P (l.origin file path)) :
    (∀ p ∈ (Text.ofLines options file path inside ls).lines, P p.1) ∧
      ∀ e ∈ (Text.ofLines options file path inside ls).error, e.Cites P := by
  induction ls generalizing inside with
  | nil =>
    refine ⟨fun p hp => absurd hp List.not_mem_nil, ?_⟩
    intro e he
    cases he
  | cons l ls ih =>
    have hl := h l List.mem_cons_self
    rw [Text.ofLines]
    cases hst : statement options inside l.text with
    | error kind =>
      refine ⟨fun p hp => absurd hp List.not_mem_nil, ?_⟩
      intro e he
      cases he
      exact .at kind hl
    | ok st =>
      obtain ⟨hlines, herror⟩ := ih (inside || st.isHeader) fun l' hl' =>
        h l' (List.mem_cons_of_mem _ hl')
      refine ⟨?_, herror⟩
      rintro p hp
      rcases List.mem_cons.1 hp with rfl | hp
      · exact hl
      · exact hlines p hp

theorem cites_body (h : ∀ p ∈ lines, P p.1) : ∀ l ∈ Text.body lines, P l.origin := by
  induction lines with
  | nil => exact nofun
  | cons p lines ih =>
    obtain ⟨hp, hlines⟩ := List.forall_mem_cons.1 h
    obtain ⟨o, st⟩ := p
    cases st with
    | empty => exact ih hlines
    | header name alignment => exact nofun
    | line keyword arguments => exact List.forall_mem_cons.2 ⟨hp, ih hlines⟩

theorem cites_cut (h : ∀ p ∈ lines, P p.1) : ∀ s ∈ Text.cut lines, s.Cites P := by
  induction lines with
  | nil => exact nofun
  | cons p lines ih =>
    obtain ⟨hp, hlines⟩ := List.forall_mem_cons.1 h
    obtain ⟨o, st⟩ := p
    cases st with
    | empty => exact ih hlines
    | header name alignment => exact List.forall_mem_cons.2 ⟨⟨hp, cites_body hlines⟩, ih hlines⟩
    | line keyword arguments => exact ih hlines

theorem cites_leftOut (h : ∀ s ∈ ss, s.Cites P) : ∀ w ∈ leftOut policy known ss, w.Cites P := by
  cases policy with
  | error => exact nofun
  | ignore =>
    intro w hw
    obtain ⟨s, hs, rfl⟩ := List.mem_map.1 hw
    exact ⟨s.origin, rfl, (h s ((repeats_sublist _ _).subset hs)).1⟩

theorem cites_refusal? (h : ∀ s ∈ ss, s.Cites P) : ∀ e ∈ refusal? policy known ss, e.Cites P := by
  cases policy with
  | error =>
    intro e he
    obtain ⟨s, hs, rfl⟩ := Option.mem_map.1 he
    exact .at _ (h s ((repeats_sublist _ _).subset (List.mem_of_mem_head? hs))).1
  | ignore => exact nofun

theorem ScriptSection.Cites.add {m : SourceMap} (h : s.Cites m.Shows) (name text : String) :
    s.Cites (m.add name text).Shows :=
  ⟨h.1.add name text, fun l hl => (h.2 l hl).add name text⟩

/-- **A call** keeps lines of registered texts, and its error names one. -/
theorem cited_call (h : r.Cited) (options : ReadOptions) (path : Path) (text : String) :
    (r.call options path text).2.Cited ∧
      ∀ e, (r.call options path text).1 = .error e →
        e.Cites (r.call options path text).2.sources.Shows := by
  let sources := r.sources.add path.normalize.text text
  have hadded : sources.sources[r.sources.size]? = some ⟨path.normalize.text, text⟩ :=
    Array.getElem?_push_size
  obtain ⟨hlines, herror⟩ := cites_ofLines options false fun l hl =>
    SourceLine.shows_of_mem_ofText hadded hl
  have hwhole : ∀ s ∈ (r.heard options path text).whole, s.Cites sources.Shows := fun s hs =>
    cites_cut hlines s ((whole_sublist _).subset hs)
  rw [call_eq]
  refine ⟨⟨?_, ?_⟩, ?_⟩
  · intro s hs
    rcases List.mem_append.1 hs with hs | hs
    · exact ScriptSection.Cites.add (h.sections s hs) _ _
    · exact hwhole s ((reached_sublist _ _ _).subset ((firsts_sublist _ _).subset hs))
  · intro w hw
    rcases List.mem_append.1 hw with hw | hw
    · obtain ⟨o, ho, hshows⟩ := h.warnings w hw
      exact ⟨o, ho, hshows.add _ _⟩
    · exact cites_leftOut hwhole w hw
  · intro e he
    cases hr : refusal? options.policy r.table.names (r.heard options path text).whole with
    | some e' =>
      rw [hr] at he
      cases he
      exact cites_refusal? hwhole _ hr
    | none =>
      rw [hr, Option.none_or] at he
      cases ht : (r.heard options path text).error with
      | none =>
        rw [ht] at he
        cases he
      | some e' =>
        rw [ht] at he
        cases he
        exact herror _ ht

/-- **After any calls**, what is kept names lines of the registered texts. -/
theorem cited_after (texts : List (Path × String)) (h : r.Cited) : (after options texts r).Cited := by
  induction texts generalizing r with
  | nil => exact h
  | cons call texts ih => exact ih (cited_call h options call.1 call.2).1

theorem shows_after (texts : List (Path × String)) {o : Origin} (h : r.sources.Shows o) :
    (after options texts r).sources.Shows o := by
  induction texts generalizing r with
  | nil => exact h
  | cons call texts ih =>
    refine ih ?_
    rw [call_eq]
    exact h.add _ _

end Reader

/-! ## Compiling -/

namespace Compiler

variable {ctx : CompileContext} {c c' : Compiler} {origin : Origin} {line : ScriptLine}
  {α β γ : Type}

/-- What is kept names such lines. -/
structure Cited (P : Origin → Prop) (c : Compiler) : Prop where
  sections : ∀ s ∈ c.sections, ∀ o, s.origin = some o → P o
  warnings : ∀ w ∈ c.warnings, w.Cites P

theorem cited_start (s : Settings) : (start s).Cited P := ⟨nofun, nofun⟩

theorem Cited.push (h : c.Cited P) {s : Section} (hs : ∀ o, s.origin = some o → P o)
    (stack : List String) : Cited P { c with sections := c.sections.push s, stack } := by
  refine ⟨?_, h.warnings⟩
  intro s' hs'
  rcases Array.mem_push.1 hs' with hs' | rfl
  · exact h.sections s' hs'
  · exact hs

theorem Cited.set (h : c.Cited P) {s : Section} (hs : ∀ o, s.origin = some o → P o) (i : ℕ) :
    Cited P { c with sections := c.sections.setIfInBounds i s } := by
  refine ⟨?_, h.warnings⟩
  intro s' hs'
  rcases Array.mem_or_eq_of_mem_setIfInBounds hs' with hs' | rfl
  · exact h.sections s' hs'
  · exact hs

theorem Cited.warn (h : c.Cited P) (kind : Warning.Kind) (ho : P origin) :
    Cited P { c with warnings := c.warnings ++ [{ kind, origin := some origin }] } := by
  refine ⟨h.sections, ?_⟩
  intro w hw
  rcases List.mem_append.1 hw with hw | hw
  · exact h.warnings w hw
  · exact ⟨origin, by rw [List.mem_singleton.1 hw], ho⟩

/-- A step keeps only what names such lines, and so do its errors; its answers satisfy `R`. -/
structure Citing (P : Origin → Prop) (x : CompileM α) (R : α → Prop) : Prop where
  runs : ∀ {c a c'}, c.Cited P → Runs x c a c' → c'.Cited P ∧ R a
  fails : ∀ {c e c'}, c.Cited P → Fails x c e c' → c'.Cited P ∧ e.Cites P

namespace Citing

variable {x : CompileM α} {R : α → Prop} {S : β → Prop}

theorem pure {a : α} (ha : R a) : Citing P (Pure.pure a : CompileM α) R := by
  constructor
  · intro c b c' hc h
    obtain ⟨rfl, rfl⟩ := runs_pure.1 h
    exact ⟨hc, ha⟩
  · intro c e c' _ h
    exact absurd h fails_pure

theorem throw {kind : BuildError.Kind} (h : P origin) :
    Citing P (MonadExcept.throw (.at kind origin) : CompileM α) R := by
  constructor
  · intro c b c' _ h
    exact absurd h runs_throw
  · intro c e c' hc hf
    obtain ⟨rfl, rfl⟩ := fails_throw.1 hf
    exact ⟨hc, .at kind h⟩

theorem get : Citing P (MonadState.get : CompileM Compiler) (Cited P) := by
  constructor
  · intro c b c' hc h
    obtain ⟨rfl, rfl⟩ := runs_get.1 h
    exact ⟨hc, hc⟩
  · intro c e c' _ h
    exact absurd h fails_get

theorem set {u : Compiler} (hu : u.Cited P) :
    Citing P (MonadStateOf.set u : CompileM PUnit) fun _ => True := by
  constructor
  · intro c b c' _ h
    obtain rfl := runs_set.1 h
    exact ⟨hu, trivial⟩
  · intro c e c' _ h
    exact absurd h fails_set

theorem modify {f : Compiler → Compiler} (hf : ∀ c, c.Cited P → (f c).Cited P) :
    Citing P (modify f : CompileM PUnit) fun _ => True := by
  constructor
  · intro c b c' hc h
    obtain rfl := runs_modify.1 h
    exact ⟨hf c hc, trivial⟩
  · intro c e c' _ h
    exact absurd h fails_modify

theorem lift {y : Except BuildError α} (hy : Plain origin y) (h : P origin) :
    Citing P (liftM y : CompileM α) fun _ => True := by
  constructor
  · intro c b c' hc hr
    obtain ⟨-, rfl⟩ := runs_lift.1 hr
    exact ⟨hc, trivial⟩
  · intro c e c' hc hf
    obtain ⟨he, rfl⟩ := fails_lift.1 hf
    exact ⟨hc, origin, hy.blames he, h⟩

/-- **Two steps, one after the other.** -/
theorem bind {f : α → CompileM β} (h : Citing P x R) (hf : ∀ a, R a → Citing P (f a) S) :
    Citing P (x >>= f) S := by
  constructor
  · intro c b c' hc hr
    obtain ⟨a, c₁, h1, h2⟩ := runs_bind.1 hr
    obtain ⟨hc₁, ha⟩ := h.runs hc h1
    exact (hf a ha).runs hc₁ h2
  · intro c e c' hc hr
    rcases fails_bind.1 hr with hr | ⟨a, c₁, h1, h2⟩
    · exact h.fails hc hr
    · obtain ⟨hc₁, ha⟩ := h.runs hc h1
      exact (hf a ha).fails hc₁ h2

theorem weaken {R' : α → Prop} (h : Citing P x R) (hR : ∀ a, R a → R' a) : Citing P x R' := by
  refine ⟨?_, h.fails⟩
  intro c a c' hc hr
  exact (h.runs hc hr).imp_right (hR a)

/-- **A list of steps** with an invariant. -/
theorem foldlM {f : β → γ → CompileM β} {l : List γ}
    (h : ∀ a ∈ l, ∀ b, S b → Citing P (f b a) S) {b : β} (hb : S b) :
    Citing P (l.foldlM f b) S := by
  induction l generalizing b with
  | nil => exact .pure hb
  | cons a l ih =>
    rw [List.foldlM_cons]
    refine (h a List.mem_cons_self b hb).bind ?_
    intro b' hb'
    exact ih (fun a' ha => h a' (List.mem_cons_of_mem _ ha)) hb'

end Citing

/-! ## Lines -/

theorem citing_warn (h : P origin) (kind : Warning.Kind) :
    Citing P (warn kind origin) fun _ => True :=
  .modify fun _ hc => hc.warn kind h

theorem origin_push {s s' : Section} {p : Part} (h : s.push p = .ok s') : s'.origin = s.origin := by
  unfold Section.push at h
  simp only at h
  split_ifs at h
  cases h
  rfl

/-- The section being compiled keeps its header. -/
def Draft.Keeps (d d' : Draft) : Prop := d'.compiled.origin = d.compiled.origin

theorem citing_push (h : P origin) (d : Draft) (p : Part) :
    Citing P (push ctx d p origin) (Draft.Keeps d) := by
  unfold push
  split
  · exact .throw h
  · rename_i compiled hpush
    refine Citing.get.bind fun c _ => ?_
    have hkeeps : Draft.Keeps d { d with compiled } := origin_push hpush
    split_ifs
    · exact (Citing.throw (R := fun _ => True) h).bind fun _ _ => .pure hkeeps
    · exact .pure hkeeps

theorem citing_readContents (h : P origin) (file : Path) :
    Citing P (readContents ctx file origin) fun _ => True := by
  unfold readContents
  split
  · exact .throw h
  · split_ifs
    · exact (citing_warn h _).bind fun _ _ => .pure trivial
    · exact .pure trivial

theorem citing_request (h : P origin) (act : StoreM α) :
    Citing P (request act origin) fun _ => True := by
  constructor
  · intro c a c' hc hr
    obtain ⟨store, -, rfl⟩ := runs_request hr
    exact ⟨⟨hc.sections, hc.warnings⟩, trivial⟩
  · intro c e c' hc hf
    obtain ⟨cause, store, rfl, rfl⟩ := fails_request hf
    exact ⟨⟨hc.sections, hc.warnings⟩, .at _ h⟩

theorem citing_fileBlob (h : P origin) (base : Option Path) (text : String) (a : Option UInt32) :
    Citing P (fileBlob ctx base text a origin) fun _ => True := by
  unfold fileBlob
  refine (Citing.lift (plain_resolve base text) h).bind fun file _ => ?_
  refine (citing_request h _).bind fun known _ => ?_
  split
  · exact .pure trivial
  · refine (citing_readContents h file).bind fun bytes _ => Citing.get.bind fun c _ => ?_
    split_ifs
    · exact (Citing.throw (R := fun _ => True) h).bind fun _ _ => citing_request h _
    · exact citing_request h _

theorem citing_fileRecord (h : P origin) (filename : String) :
    Citing P (fileRecord ctx filename origin) fun _ => True := by
  unfold fileRecord
  refine Citing.get.bind fun c hc => ?_
  split
  · exact .pure trivial
  · have hrecord : Cited P { c with sections := c.sections.push (Section.record filename) } :=
      hc.push (fun _ ho => by cases ho) c.stack
    dsimp only
    split_ifs
    · exact (Citing.throw (R := fun _ => True) h).bind fun _ _ =>
        (Citing.set hrecord).bind fun _ _ => .pure trivial
    · exact (Citing.set hrecord).bind fun _ _ => .pure trivial

theorem citing_splice (h : P origin) (d : Draft) (id : SectionId) :
    Citing P (splice ctx d id origin) (Draft.Keeps d) := by
  unfold splice
  refine Citing.get.bind fun c _ => Citing.foldlM ?_ rfl
  intro p _ d' hd'
  refine (citing_push h d' p).weaken ?_
  intro d'' hd''
  exact hd''.trans hd'

/-- **A keyword line** is to blame for its errors. -/
theorem citing_compileKeyword {visit : Visit} (h : P line.origin)
    (hv : ∀ name, Citing P (visit name (some line.origin)) fun _ => True) (d : Draft)
    (keyword : Keyword) : Citing P (compileKeyword ctx visit d line keyword) (Draft.Keeps d) := by
  have harguments (least : ℕ) (most : Option ℕ) : Citing P
      (liftM (line.expectArguments least most) : CompileM Unit) fun _ => True :=
    .lift (line.plain_expectArguments least most) h
  have htext (i : ℕ) : Citing P (liftM (line.textAt i) : CompileM String) fun _ => True :=
    .lift (line.plain_textAt i) h
  have hint (i : ℕ) (low high : ℤ) : Citing P (liftM (line.intAt i low high) : CompileM ℤ)
      fun _ => True :=
    .lift (line.plain_intAt i low high) h
  cases keyword with
  | file =>
    refine (harguments _ _).bind fun _ _ => (htext _).bind fun _ _ => ?_
    refine (Citing.lift (plain_fileAlignment line) h).bind fun _ _ => ?_
    exact (citing_fileBlob h _ _ _).bind fun _ _ => citing_push h d _
  | level =>
    refine (harguments _ _).bind fun _ _ => (htext _).bind fun target _ => ?_
    exact (hv target).bind fun _ _ => citing_push h d _
  | load =>
    refine (harguments _ _).bind fun _ _ => (htext _).bind fun filename _ => ?_
    exact (citing_fileRecord h filename).bind fun _ _ => citing_push h d _
  | string =>
    exact (Citing.lift line.plain_allText h).bind fun _ _ => citing_push h d _
  | binc =>
    refine (harguments _ _).bind fun _ _ => (htext _).bind fun _ _ => ?_
    refine (Citing.lift (plain_resolve _ _) h).bind fun file _ => ?_
    refine (citing_readContents h file).bind fun bytes _ => ?_
    split_ifs
    · exact (Citing.throw (R := fun _ => True) h).bind fun _ _ => citing_push h d _
    · exact citing_push h d _
  | align =>
    refine (harguments _ _).bind fun _ _ => (hint _ _ _).bind fun _ _ => ?_
    exact (Citing.lift (plain_checkAlignment _ _) h).bind fun _ _ => citing_push h d _
  | pad =>
    refine (harguments _ _).bind fun _ _ => (hint _ _ _).bind fun _ _ => ?_
    exact citing_push h d _
  | path =>
    exact (harguments _ _).bind fun _ _ => (htext _).bind fun _ _ => .pure rfl
  | insert =>
    refine (harguments _ _).bind fun _ _ => (htext _).bind fun target _ => ?_
    refine Citing.get.bind fun c _ => ?_
    have hrest : Citing P (visit target (some line.origin) >>= fun id =>
        splice ctx d id line.origin) (Draft.Keeps d) :=
      (hv target).bind fun id _ => citing_splice h d id
    split_ifs
    · exact (Citing.throw (R := fun _ => True) h).bind fun _ _ => hrest
    · exact hrest
  | long | word | byte | float =>
    exact (Citing.lift (line.plain_allNumbers _ _) h).bind fun _ _ => citing_push h d _

theorem citing_compileLine {visit : Visit} (h : P line.origin)
    (hv : ∀ name, Citing P (visit name (some line.origin)) fun _ => True) (d : Draft) :
    Citing P (compileLine ctx visit d line) (Draft.Keeps d) := by
  unfold compileLine
  split
  · exact citing_compileKeyword h hv d _
  · exact .throw h

/-! ## Sections -/

/-- What is expected of a way to have a section compiled for a line. -/
def VisitCites (P : Origin → Prop) (visit : Visit) : Prop :=
  ∀ name o, P o → Citing P (visit name (some o)) fun _ => True

/-- **A section** whose header and lines are such lines. -/
theorem citing_compileScript {visit : Visit} (hv : VisitCites P visit) {script : ScriptSection}
    (hs : script.Cites P) : Citing P (compileScript ctx visit script) fun _ => True := by
  have hheader : ∀ o, some script.origin = some o → P o := by
    rintro _ ⟨⟩
    exact hs.1
  have hbody : Citing P (compileBody ctx visit script) fun _ => True := by
    refine Citing.get.bind fun c _ => ?_
    refine (Citing.modify fun c hc => hc.push hheader _).bind fun _ _ => ?_
    refine (Citing.foldlM (S := fun d => d.compiled.origin = some script.origin) ?_ rfl).bind
      fun d hd => ?_
    · intro l hl d hd
      refine (citing_compileLine (hs.2 l hl) (fun name => hv name _ (hs.2 l hl)) d).weaken ?_
      intro d' hd'
      exact hd'.trans hd
    have hleave : Citing P (modify fun c₁ : Compiler =>
        { c₁ with stack := c₁.stack.dropLast }) fun _ => True :=
      .modify fun c₁ hc₁ => ⟨hc₁.sections, hc₁.warnings⟩
    refine hleave.bind fun _ _ => ?_
    have hdone : Citing P (modify fun c₁ : Compiler =>
        { c₁ with sections := c₁.sections.setIfInBounds c.sections.size d.compiled })
          fun _ => True :=
      .modify fun c₁ hc₁ => hc₁.set (hd ▸ hheader) _
    split_ifs
    · exact (citing_warn hs.1 _).bind fun _ _ => hdone.bind fun _ _ => .pure trivial
    · exact hdone.bind fun _ _ => .pure trivial
  rw [compileScript_eq]
  split
  · exact (Citing.lift (plain_checkAlignment _ _) hs.1).bind fun _ _ => hbody
  · exact hbody

/-- **Compiling a section for a line.** -/
theorem visitCites_compileWithin (ht : ∀ s ∈ ctx.table.sections, s.Cites P) (depth : ℕ) :
    VisitCites P (compileWithin ctx depth) := by
  induction depth with
  | zero =>
    intro name o ho
    refine Citing.get.bind fun c _ => ?_
    exact Citing.throw ho
  | succ depth ih =>
    intro name o ho
    constructor
    · intro c id c' hc hr
      rcases runs_compileWithin hr with ⟨rfl, -⟩ | ⟨-, script, hs, hrun⟩
      · exact ⟨hc, trivial⟩
      · exact (citing_compileScript ih (ht script (SectionTable.find?_mem hs))).runs hc hrun
    · intro c e c' hc hf
      rcases fails_compileWithin hf with ⟨rfl, ⟨-, rfl⟩ | ⟨-, rfl⟩⟩ | ⟨-, script, hs, hfail⟩
      · exact ⟨hc, o, rfl, ho⟩
      · exact ⟨hc, o, rfl, ho⟩
      · exact (citing_compileScript ih (ht script (SectionTable.find?_mem hs))).fails hc hfail

/-! ## Calls -/

theorem citing_script (ht : ∀ s ∈ ctx.table.sections, s.Cites P) {name : String}
    {script : ScriptSection} (hs : ctx.table.find? name = some script) :
    Citing P (compileScript ctx (compileWithin ctx ctx.table.size) script) fun _ => True :=
  citing_compileScript (visitCites_compileWithin ht _) (ht script (SectionTable.find?_mem hs))

theorem Cited.runs_compileSection (hc : c.Cited P) (ht : ∀ s ∈ ctx.table.sections, s.Cites P)
    {name : String} {referrer : Option Origin} {id : SectionId}
    (h : Runs (compileSection ctx name referrer) c id c') : c'.Cited P := by
  rcases runs_compileWithin h with ⟨rfl, -⟩ | ⟨-, script, hs, hrun⟩
  · exact hc
  · exact ((citing_script ht hs).runs hc hrun).1

/-- **A call that fails** keeps such lines, and its error names one unless it was asked for on no
    line. -/
theorem Cited.fails_compileSection (hc : c.Cited P) (ht : ∀ s ∈ ctx.table.sections, s.Cites P)
    {name : String} {referrer : Option Origin} (hr : ∀ o, referrer = some o → P o)
    {e : BuildError} (h : Fails (compileSection ctx name referrer) c e c') :
    c'.Cited P ∧ (e.Cites P ∨ referrer = none ∧
      (ctx.table.find? name = none ∧ e = { kind := .unresolvable .namedSection name } ∨
        name ∈ c.stack ∧ e = { kind := .cyclicSection (c.cycle name) })) := by
  rcases fails_compileWithin h with ⟨rfl, hbare⟩ | ⟨-, script, hs, hfail⟩
  · refine ⟨hc, ?_⟩
    cases referrer with
    | none => exact Or.inr ⟨rfl, hbare⟩
    | some o =>
      rcases hbare with ⟨-, rfl⟩ | ⟨-, rfl⟩
      · exact Or.inl ⟨o, rfl, hr o rfl⟩
      · exact Or.inl ⟨o, rfl, hr o rfl⟩
  · obtain ⟨hc', he⟩ := (citing_script ht hs).fails hc hfail
    exact ⟨hc', Or.inl he⟩

theorem cited_after {calls : List (String × Option Origin)}
    (ht : ∀ s ∈ ctx.table.sections, s.Cites P)
    (hcalls : ∀ call ∈ calls, ∀ o, call.2 = some o → P o) (hc : c.Cited P) :
    (after ctx calls c).Cited P := by
  induction calls generalizing c with
  | nil => exact hc
  | cons call calls ih =>
    obtain ⟨hcall, hcalls⟩ := List.forall_mem_cons.1 hcalls
    refine ih hcalls ?_
    show Cited P ((compileSection ctx call.1 call.2).run c :
      Except BuildError SectionId × Compiler).2
    rcases h : ((compileSection ctx call.1 call.2).run c : Except BuildError SectionId × Compiler)
      with ⟨e | id, c'⟩
    · exact (hc.fails_compileSection ht hcall h).1
    · exact hc.runs_compileSection ht h

/-- An error about no line: the section is not there, or a failed call has left it. -/
def Bare (ctx : CompileContext) (c : Compiler) (calls : List (String × Option Origin))
    (name : String) (e : BuildError) : Prop :=
  ctx.table.find? name = none ∧ e = { kind := .unresolvable .namedSection name } ∨
    Left ctx c calls name ∧ e = { kind := .cyclicSection ((after ctx calls c).cycle name) }

end Compiler

open Compiler

/-- **Messages are about lines.**  After any texts and any calls, the origins of all sections,
    lines, warnings and errors show a line of a text, by the bytes it takes and by its number, which
    is counted in words.  Only a section that was asked for on no line
    can fail without one: if it is not in the table, or if a call that failed has left it on the
    stack; and then it always does. -/
theorem diagnostics_cited (options : ReadOptions) (sources : SourceMap)
    (texts : List (Path × String)) (s : Settings) (files : Files) :
    let r := Reader.after options texts { sources }
    let ctx := Compiler.context s r.table files
    (r.Cited ∧ ∀ before path text later, texts = before ++ (path, text) :: later →
      ∀ e, ((Reader.after options before { sources }).call options path text).1 = .error e →
        e.Cites r.sources.Shows) ∧
      ∀ calls, (∀ call ∈ calls, ∀ o, call.2 = some o → r.sources.Shows o) →
        let c := Compiler.after ctx calls (start s)
        c.Cited r.sources.Shows ∧
          (∀ name referrer e c', (∀ o, referrer = some o → r.sources.Shows o) →
            Fails (compileSection ctx name referrer) c e c' →
              e.Cites r.sources.Shows ∨ referrer = none ∧ Bare ctx (start s) calls name e) ∧
          ∀ root, (∀ p, Compiler.compile ctx c root = .ok p →
              (∀ sec ∈ p.sections, ∀ o, sec.origin = some o → r.sources.Shows o) ∧
                ∀ w ∈ p.warnings, w.Cites r.sources.Shows) ∧
            (∀ e, Compiler.compile ctx c root = .error e →
              e.Cites r.sources.Shows ∨ Bare ctx (start s) calls root e) ∧
            (root ∈ c.stack → Compiler.compile ctx c root =
              .error { kind := .cyclicSection (c.cycle root) }) := by
  intro r ctx
  have hcited : r.Cited := Reader.cited_after texts ⟨nofun, nofun⟩
  refine ⟨⟨hcited, ?_⟩, ?_⟩
  · rintro before path text later rfl e he
    have hbefore : (Reader.after options before { sources }).Cited :=
      Reader.cited_after before ⟨nofun, nofun⟩
    obtain ⟨o, ho, hshows⟩ := (Reader.cited_call hbefore options path text).2 e he
    refine ⟨o, ho, ?_⟩
    show (Reader.after options (before ++ (path, text) :: later) { sources }).sources.Shows o
    rw [Reader.after_append]
    exact Reader.shows_after later hshows
  · intro calls hcalls c
    obtain ⟨hopened, hleft⟩ := opened_start ctx s calls
    have ht : ∀ s ∈ ctx.table.sections, s.Cites r.sources.Shows := hcited.sections
    have hc : c.Cited r.sources.Shows := cited_after ht hcalls (cited_start s)
    have hcall {name referrer e c'} (hr : ∀ o, referrer = some o → r.sources.Shows o)
        (hf : Fails (compileSection ctx name referrer) c e c') :
        e.Cites r.sources.Shows ∨ referrer = none ∧ Bare ctx (start s) calls name e := by
      refine (hc.fails_compileSection ht hr hf).2.imp_right ?_
      rintro ⟨hnone, ⟨hfind, rfl⟩ | ⟨hopen, rfl⟩⟩
      · exact ⟨hnone, Or.inl ⟨hfind, rfl⟩⟩
      · exact ⟨hnone, Or.inr ⟨hleft name hopen, rfl⟩⟩
    refine ⟨hc, fun name referrer e c' => hcall, fun root => ⟨?_, ?_, ?_⟩⟩
    · intro p hp
      obtain ⟨id, c', hrun, rfl⟩ := compile_eq_ok.1 hp
      have hc' := hc.runs_compileSection ht hrun
      exact ⟨hc'.sections, hc'.warnings⟩
    · intro e he
      obtain ⟨c', hf⟩ := compile_eq_error.1 he
      have hnone : ∀ o, (none : Option Origin) = some o → r.sources.Shows o := by
        intro o ho
        cases ho
      exact (hcall hnone hf).imp_right And.right
    · intro hopen
      exact compile_eq_error.2 ⟨c, fails_of_mem_stack hopen (hopened root hopen) none⟩

/-! ## A text that fails, and a call that is made again -/

namespace Demo

/-- A line in front of the first header, and a line that no keyword starts. -/
def bogusTexts : List (Path × String) :=
  [(.ofText "early.lvs", "bogus 1\n"), (.ofText "main.lvs", "[root]\nbogus 1\n")]

def bogusContext : CompileContext :=
  Compiler.context {} (Reader.after {} bogusTexts {}).table twoDirectories

/-- The call for the root has failed. -/
def bogusLeft : Compiler := after bogusContext [("root", none)] (start {})

end Demo

/-- The error of the first text names a line.  The error of the second call names none, since the
    first call has left the section. -/
theorem diagnostics_cited_demo :
    (∃ e, (Reader.call {} (.ofText "early.lvs") "bogus 1\n" {}).1 = .error e ∧
      e.Cites (Reader.after {} Demo.bogusTexts {}).sources.Shows) ∧
      Left Demo.bogusContext (start {}) [("root", none)] "root" ∧
      Compiler.compile Demo.bogusContext Demo.bogusLeft "root" =
        .error { kind := .cyclicSection ["root", "root"] } := by
  obtain ⟨⟨-, htexts⟩, hcalls⟩ := diagnostics_cited {} {} Demo.bogusTexts {} Demo.twoDirectories
  obtain ⟨-, -, hcompile⟩ := hcalls [("root", none)] (by simp)
  obtain ⟨-, herror, hstack⟩ := hcompile "root"
  have hopen : Demo.bogusLeft.stack = ["root"] := by decide +kernel
  have hcycle : Demo.bogusLeft.cycle "root" = ["root", "root"] := by
    rw [cycle, hopen]
    decide
  have hmem : "root" ∈ Demo.bogusLeft.stack := by
    rw [hopen]
    exact List.mem_singleton_self _
  have hfails : Compiler.compile Demo.bogusContext Demo.bogusLeft "root" =
      .error { kind := .cyclicSection (Demo.bogusLeft.cycle "root") } := hstack hmem
  have hleft : Left Demo.bogusContext (start {}) [("root", none)] "root" := by
    rcases herror _ hfails with ⟨o, ho, -⟩ | ⟨-, he⟩ | ⟨hleft, -⟩
    · cases ho
    · cases he
    · exact hleft
  refine ⟨?_, hleft, hcycle ▸ hfails⟩
  have hearly : (Reader.call {} (.ofText "early.lvs") "bogus 1\n" {}).1.toOption.isNone = true := by
    decide +kernel
  cases he : (Reader.call {} (.ofText "early.lvs") "bogus 1\n" {}).1 with
  | error e => exact ⟨e, rfl, htexts [] _ _ _ rfl e he⟩
  | ok u =>
    rw [he] at hearly
    cases hearly

end LevelBundle
