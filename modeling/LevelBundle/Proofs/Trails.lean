/-
  LevelBundle — the sections being compiled, also when compiling fails.

  The names on the stack are a trail: a line of each names the next.  A section that is
  done takes its name off the stack.  A failure leaves the stack as it is, so that names
  that earlier failures have left may lie under the trail.

  * `Compiler.Tracked`: the stack is such a trail on top of some other names, and fewer
    than `depth` sections of the script have no place yet.
  * `Compiler.Stuck`: what a failure leaves.  An error about a cycle is about a section on
    the stack, which a line of the last section of the trail names.
  * `Compiler.Tracks`: a step that keeps the stack and the sections, or gets stuck.
    `visiting_compileWithin`: compiling a section does so.
-/
import LevelBundle.Proofs.Plain
import LevelBundle.Proofs.References
import Mathlib.Data.List.Chain

namespace LevelBundle

namespace Compiler

variable {ctx : CompileContext} {depth : ℕ} {left path : List String} {c c' c'' : Compiler}
  {e : BuildError} {origin : Origin}

/-! ## Sections without a place -/

/-- The number of sections of the script that are neither compiled nor being compiled. -/
def unvisited (ctx : CompileContext) (c : Compiler) : ℕ :=
  (ctx.table.sections.filter fun s => (c.compiled? s.name).isNone).length

/-- The stack is the same, and sections keep their places and names. -/
structure Still (c c' : Compiler) : Prop where
  stack : c'.stack = c.stack
  sections : ∀ {i : ℕ} {s : Section}, c.sections[i]? = some s →
    ∃ s', c'.sections[i]? = some s' ∧ s'.runtimeFile = s.runtimeFile ∧ s'.name = s.name

theorem Still.refl (c : Compiler) : Still c c := ⟨rfl, fun hs => ⟨_, hs, rfl, rfl⟩⟩

theorem Still.trans (h₁ : Still c c') (h₂ : Still c' c'') : Still c c'' := by
  refine ⟨h₂.stack.trans h₁.stack, fun hs => ?_⟩
  obtain ⟨s', hs', hr', hn'⟩ := h₁.sections hs
  obtain ⟨s'', hs'', hr'', hn''⟩ := h₂.sections hs'
  exact ⟨s'', hs'', hr''.trans hr', hn''.trans hn'⟩

theorem still_of_sections (hs : c'.stack = c.stack) (h : c'.sections = c.sections) : Still c c' :=
  ⟨hs, fun {_ s} hi => ⟨s, h ▸ hi, rfl, rfl⟩⟩

theorem Still.compiled (h : Still c c') {name : String} (hn : (c.compiled? name).isSome) :
    (c'.compiled? name).isSome := by
  obtain ⟨i, s, hs, hr, rfl⟩ := compiled?_isSome.1 hn
  obtain ⟨s', hs', hr', hn'⟩ := h.sections hs
  exact compiled?_isSome.2 ⟨i, s', hs', hr'.trans hr, hn'⟩

theorem compiled?_push {s : Section} {name : String} (h : (c.compiled? name).isSome) :
    (({ c with sections := c.sections.push s } : Compiler).compiled? name).isSome :=
  (extends_push s).compiled? h

theorem unvisited_le_size (ctx : CompileContext) (c : Compiler) :
    c.unvisited ctx ≤ ctx.table.size := List.length_filter_le _ _

theorem isNone_of_isNone (h : ∀ {name}, (c.compiled? name).isSome → (c'.compiled? name).isSome)
    {name : String} (hn : (c'.compiled? name).isNone) : (c.compiled? name).isNone := by
  rw [Option.isNone_iff_eq_none, ← Option.not_isSome_iff_eq_none] at hn ⊢
  exact fun hsome => hn (h hsome)

theorem unvisited_le (h : ∀ {name}, (c.compiled? name).isSome → (c'.compiled? name).isSome) :
    c'.unvisited ctx ≤ c.unvisited ctx := by
  refine List.Sublist.length_le ?_
  exact List.monotone_filter_right _ fun s hs => isNone_of_isNone h hs

/-- **A section that gets its place** is no longer without one. -/
theorem unvisited_lt {s : ScriptSection} (hs : s ∈ ctx.table.sections)
    (h : ∀ {name}, (c.compiled? name).isSome → (c'.compiled? name).isSome)
    (hold : c.compiled? s.name = none) (hnew : (c'.compiled? s.name).isSome) :
    c'.unvisited ctx < c.unvisited ctx := by
  -- those without a place later are without one now
  have hfilter : ctx.table.sections.filter (fun s => (c'.compiled? s.name).isNone) =
      (ctx.table.sections.filter fun s => (c.compiled? s.name).isNone).filter
        fun s => (c'.compiled? s.name).isNone := by
    rw [List.filter_filter]
    refine List.filter_congr fun s _ => ?_
    by_cases hs : (c'.compiled? s.name).isNone
    · rw [hs, isNone_of_isNone h hs]
      rfl
    · rw [Bool.not_eq_true] at hs
      rw [hs]
      rfl
  unfold unvisited
  rw [hfilter, List.length_filter_lt_length_iff_exists]
  refine ⟨s, List.mem_filter.2 ⟨hs, by rw [hold]; rfl⟩, ?_⟩
  rw [Bool.not_eq_true, ← Bool.not_eq_true', Option.not_isNone, hnew]

/-! ## Trails -/

/-- The stack is a trail `path` on top of the names `left`. -/
structure Tracked (ctx : CompileContext) (depth : ℕ) (left path : List String) (c : Compiler) :
    Prop where
  stack : c.stack = left ++ path
  names : path.IsChain ctx.table.Names
  opened : ∀ name ∈ c.stack, (c.compiled? name).isSome
  below : c.unvisited ctx < depth

/-- A line leads from the end of a trail to a section on the stack. -/
structure Closes (ctx : CompileContext) (trail : List String) (c : Compiler) (e : BuildError)
    (target : String) : Prop where
  opened : target ∈ c.stack
  names : (trail ++ [target]).IsChain ctx.table.Names
  kind : e.kind = .cyclicSection (c.cycle target) ∨
    e.kind = .cyclicInsert target ∧ ∃ name, trail.getLast? = some name ∧
      ctx.table.Inserts name target

/-- What a failure leaves of a trail that has come to `path`. -/
structure Stuck (ctx : CompileContext) (left path : List String) (e : BuildError)
    (c : Compiler) : Prop where
  opened : ∀ name ∈ c.stack, (c.compiled? name).isSome
  trail : ∃ trail, path <+: trail ∧ c.stack = left ++ trail ∧ trail.IsChain ctx.table.Names ∧
    (e.kind.isCyclic = true → ∃ target, Closes ctx trail c e target)

theorem Tracked.still (h : Tracked ctx depth left path c) (hs : Still c c') :
    Tracked ctx depth left path c' := by
  refine ⟨hs.stack.trans h.stack, h.names, fun name hname => ?_,
    (unvisited_le hs.compiled).trans_lt h.below⟩
  exact hs.compiled (h.opened name (hs.stack ▸ hname))

theorem Tracked.stuck (h : Tracked ctx depth left path c) (he : e.kind.isCyclic = false) :
    Stuck ctx left path e c := by
  refine ⟨h.opened, path, List.prefix_rfl, h.stack, h.names, fun hcyclic => ?_⟩
  rw [he] at hcyclic
  cases hcyclic

theorem Stuck.shorten {name : String} (h : Stuck ctx left (path ++ [name]) e c) :
    Stuck ctx left path e c := by
  obtain ⟨trail, hprefix, hrest⟩ := h.trail
  exact ⟨h.opened, trail, (List.prefix_append _ _).trans hprefix, hrest⟩

/-- A step keeps the stack and the names of the sections, or gets stuck. -/
structure Tracks (ctx : CompileContext) (depth : ℕ) (left path : List String) {α : Type}
    (x : CompileM α) : Prop where
  runs : ∀ {c a c'}, Tracked ctx depth left path c → Runs x c a c' → Still c c'
  fails : ∀ {c e c'}, Tracked ctx depth left path c → Fails x c e c' → Stuck ctx left path e c'

namespace Tracks

variable {α β γ : Type} {x : CompileM α}

theorem pure {a : α} : Tracks ctx depth left path (Pure.pure a : CompileM α) := by
  constructor
  · intro c b c' _ h
    obtain ⟨-, rfl⟩ := runs_pure.1 h
    exact .refl c
  · intro c e c' _ h
    exact absurd h fails_pure

theorem throw (he : e.kind.isCyclic = false) :
    Tracks ctx depth left path (MonadExcept.throw e : CompileM α) := by
  constructor
  · intro c b c' _ h
    exact absurd h runs_throw
  · intro c e' c' hc h
    obtain ⟨rfl, rfl⟩ := fails_throw.1 h
    exact hc.stuck he

theorem get : Tracks ctx depth left path (MonadState.get : CompileM Compiler) := by
  constructor
  · intro c b c' _ h
    obtain ⟨-, rfl⟩ := runs_get.1 h
    exact .refl c
  · intro c e c' _ h
    exact absurd h fails_get

theorem lift {y : Except BuildError α} (hy : Plain origin y) :
    Tracks ctx depth left path (liftM y : CompileM α) := by
  constructor
  · intro c b c' _ h
    obtain ⟨-, rfl⟩ := runs_lift.1 h
    exact .refl c
  · intro c e c' hc h
    obtain ⟨he, rfl⟩ := fails_lift.1 h
    exact hc.stuck (hy.acyclic he)

/-- **Two steps, one after the other.** -/
theorem bind {f : α → CompileM β} (h : Tracks ctx depth left path x)
    (hf : ∀ a, Tracks ctx depth left path (f a)) : Tracks ctx depth left path (x >>= f) := by
  constructor
  · intro c b c' hc hr
    obtain ⟨a, c₁, h1, h2⟩ := runs_bind.1 hr
    have hs := h.runs hc h1
    exact hs.trans ((hf a).runs (hc.still hs) h2)
  · intro c e c' hc hr
    rcases fails_bind.1 hr with hr | ⟨a, c₁, h1, h2⟩
    · exact h.fails hc hr
    · exact (hf a).fails (hc.still (h.runs hc h1)) h2

/-- What is computed without the state. -/
theorem bind_lift {y : Except BuildError α} {f : α → CompileM β} (hy : Plain origin y)
    (hf : ∀ a, y = .ok a → Tracks ctx depth left path (f a)) :
    Tracks ctx depth left path (liftM y >>= f) := by
  constructor
  · intro c b c' hc hr
    obtain ⟨a, c₁, h1, h2⟩ := runs_bind.1 hr
    obtain ⟨ha, rfl⟩ := runs_lift.1 h1
    exact (hf a ha).runs hc h2
  · intro c e c' hc hr
    rcases fails_bind.1 hr with hr | ⟨a, c₁, h1, h2⟩
    · exact (lift hy).fails hc hr
    · obtain ⟨ha, rfl⟩ := runs_lift.1 h1
      exact (hf a ha).fails hc h2

/-- **A list of steps.** -/
theorem foldlM {f : β → γ → CompileM β} {l : List γ}
    (h : ∀ a ∈ l, ∀ b, Tracks ctx depth left path (f b a)) (b : β) :
    Tracks ctx depth left path (l.foldlM f b) := by
  induction l generalizing b with
  | nil => exact .pure
  | cons a l ih =>
    rw [List.foldlM_cons]
    refine (h a List.mem_cons_self b).bind fun b' => ih ?_ b'
    intro a' ha
    exact h a' (List.mem_cons_of_mem _ ha)

end Tracks

/-! ## Lines -/

theorem tracks_warn (kind : Warning.Kind) : Tracks ctx depth left path (warn kind origin) := by
  constructor
  · intro c a c' _ h
    obtain rfl := runs_modify.1 h
    exact still_of_sections rfl rfl
  · intro c e c' _ h
    exact absurd h fails_modify

theorem tracks_push (d : Draft) (p : Part) : Tracks ctx depth left path (push ctx d p origin) := by
  unfold push
  split
  · rename_i kind hk
    refine .throw ?_
    -- only a reference is refused here
    unfold Section.push at hk
    simp only at hk
    split_ifs at hk
    cases hk
    rfl
  · refine Tracks.get.bind fun c => ?_
    split_ifs
    · exact (Tracks.throw rfl).bind fun _ => .pure
    · exact .pure

theorem tracks_readContents (file : Path) :
    Tracks ctx depth left path (readContents ctx file origin) := by
  unfold readContents
  split
  · exact .throw rfl
  · split_ifs
    · exact (tracks_warn _).bind fun _ => .pure
    · exact .pure

theorem fails_request {α : Type} {act : StoreM α} (h : Fails (request act origin) c e c') :
    ∃ cause store, e = .at (.store cause) origin ∧ c' = { c with store } := by
  simp only [request, fails_bind, fails_get, false_or, runs_get] at h
  obtain ⟨_, _, ⟨rfl, rfl⟩, h⟩ := h
  rcases hr : (act.run c.store : Except StoreError α × Store) with ⟨answer, store⟩
  rw [hr] at h
  simp only [fails_bind, fails_set, false_or, runs_set] at h
  obtain ⟨_, _, rfl, h⟩ := h
  cases answer with
  | ok a => exact absurd h fails_pure
  | error cause =>
    obtain ⟨rfl, rfl⟩ := fails_throw.1 h
    exact ⟨cause, store, rfl, rfl⟩

theorem tracks_request {α : Type} (act : StoreM α) :
    Tracks ctx depth left path (request act origin) := by
  constructor
  · intro c a c' _ h
    obtain ⟨store, -, rfl⟩ := runs_request h
    exact still_of_sections rfl rfl
  · intro c e c' hc h
    obtain ⟨cause, store, rfl, rfl⟩ := fails_request h
    have hstill : Still c { c with store } := still_of_sections rfl rfl
    exact (hc.still hstill).stuck rfl

theorem tracks_fileBlob (base : Option Path) (text : String) (a : Option UInt32) :
    Tracks ctx depth left path (fileBlob ctx base text a origin) := by
  unfold fileBlob
  refine (Tracks.lift (plain_resolve base text)).bind fun file => ?_
  refine (tracks_request _).bind fun known => ?_
  split
  · exact .pure
  · refine (tracks_readContents file).bind fun bytes => Tracks.get.bind fun c => ?_
    split_ifs
    · exact (Tracks.throw rfl).bind fun _ => tracks_request _
    · exact tracks_request _

theorem tracks_fileRecord (filename : String) :
    Tracks ctx depth left path (fileRecord ctx filename origin) := by
  constructor
  · intro c id c' _ h
    cases runs_fileRecord_cases h with
    | known => exact .refl c
    | added => exact ⟨rfl, fun {i s} hs => ⟨s, getElem?_push_of_some hs, rfl, rfl⟩⟩
  · intro c e c' hc h
    simp only [fileRecord, fails_bind, fails_get, false_or, runs_get] at h
    obtain ⟨_, _, ⟨rfl, rfl⟩, h⟩ := h
    split at h
    · exact absurd h fails_pure
    · split_ifs at h
      · simp only [fails_bind, fails_throw, runs_throw, false_and, exists_false, or_false] at h
        obtain ⟨rfl, rfl⟩ := h
        exact hc.stuck rfl
      · simp only [fails_bind, fails_set, fails_pure, and_false, exists_false, or_false] at h

/-- A section is refused before it is entered, perhaps because it is on the stack. -/
structure Refused (c : Compiler) (name : String) (e : BuildError) (c' : Compiler) : Prop where
  state : c' = c
  kind : e.kind.isCyclic = true → name ∈ c.stack ∧ e.kind = .cyclicSection (c.cycle name)

theorem Refused.plain {name : String} (he : e.kind.isCyclic = false) : Refused c name e c := by
  refine ⟨rfl, fun hcyclic => ?_⟩
  rw [he] at hcyclic
  cases hcyclic

/-- What is expected of a way to have a section compiled, which the end of a trail names. -/
structure Visiting (ctx : CompileContext) (depth : ℕ) (visit : Visit) : Prop where
  runs : ∀ {left path name referrer c id c'}, Tracked ctx depth left path c →
    (path ++ [name]).IsChain ctx.table.Names → Runs (visit name referrer) c id c' → Still c c'
  fails : ∀ {left path name referrer c e c'}, Tracked ctx depth left path c →
    (path ++ [name]).IsChain ctx.table.Names → Fails (visit name referrer) c e c' →
      Refused c name e c' ∨ Stuck ctx left (path ++ [name]) e c'

theorem Visiting.tracks {visit : Visit} (hv : Visiting ctx depth visit) {name : String}
    {referrer : Option Origin} (hpath : (path ++ [name]).IsChain ctx.table.Names) :
    Tracks ctx depth left path (visit name referrer) := by
  refine ⟨fun hc hr => hv.runs hc hpath hr, fun {c e c'} hc hf => ?_⟩
  rcases hv.fails hc hpath hf with ⟨rfl, hrefused⟩ | hstuck
  · refine ⟨hc.opened, path, List.prefix_rfl, hc.stack, hc.names, fun hcyclic => ?_⟩
    obtain ⟨hopen, hkind⟩ := hrefused hcyclic
    exact ⟨name, hopen, hpath, Or.inl hkind⟩
  · exact hstuck.shorten

theorem isChain_concat {t : SectionTable} {name target : String} (hpath : path.IsChain t.Names)
    (hlast : path.getLast? = some name) (hn : t.Names name target) :
    (path ++ [target]).IsChain t.Names := by
  refine List.isChain_append.2 ⟨hpath, .singleton _, fun x hx y hy => ?_⟩
  cases hlast.symm.trans hx
  cases hy
  exact hn

/-- A section that is inserted, unless it is being compiled. -/
theorem tracks_insert {visit : Visit} (hv : Visiting ctx depth visit) {name target : String}
    (hpath : path.IsChain ctx.table.Names) (hlast : path.getLast? = some name)
    (hi : ctx.table.Inserts name target) {k : SectionId → CompileM Draft}
    (hk : ∀ id, Tracks ctx depth left path (k id)) :
    Tracks ctx depth left path (do
      if (← get).stack.contains target then throw (.at (.cyclicInsert target) origin)
      let id ← visit target (some origin)
      k id) := by
  have hchain := isChain_concat hpath hlast hi.names
  have hrest : Tracks ctx depth left path (visit target (some origin) >>= k) :=
    (hv.tracks hchain).bind hk
  constructor
  · intro c d c' hc h
    obtain ⟨_, _, h1, h2⟩ := runs_bind.1 h
    obtain ⟨rfl, rfl⟩ := runs_get.1 h1
    split_ifs at h2
    · simp only [runs_bind, runs_throw, false_and, exists_false] at h2
    · exact hrest.runs hc h2
  · intro c e c' hc h
    rcases fails_bind.1 h with h | ⟨_, _, h1, h2⟩
    · exact absurd h fails_get
    obtain ⟨rfl, rfl⟩ := runs_get.1 h1
    split_ifs at h2 with hopen
    · simp only [fails_bind, fails_throw, runs_throw, false_and, exists_false, or_false] at h2
      obtain ⟨rfl, rfl⟩ := h2
      refine ⟨hc.opened, path, List.prefix_rfl, hc.stack, hc.names, fun _ => ?_⟩
      exact ⟨target, List.contains_iff_mem.1 hopen, hchain, Or.inr ⟨rfl, name, hlast, hi⟩⟩
    · exact hrest.fails hc h2

/-- **A keyword line** of the last section of a trail. -/
theorem tracks_compileKeyword {visit : Visit} (hv : Visiting ctx depth visit)
    {script : ScriptSection} {line : ScriptLine} {keyword : Keyword} (d : Draft)
    (hs : ctx.table.find? script.name = some script) (hl : line ∈ script.lines)
    (hk : Keyword.ofName? line.keyword = some keyword) (hpath : path.IsChain ctx.table.Names)
    (hlast : path.getLast? = some script.name) :
    Tracks ctx depth left path (compileKeyword ctx visit d line keyword) := by
  cases keyword with
  | file =>
    refine .bind_lift (line.plain_expectArguments _ _) fun _ _ => ?_
    refine .bind_lift (line.plain_textAt _) fun _ _ => ?_
    refine .bind_lift (plain_fileAlignment line) fun _ _ => ?_
    exact (tracks_fileBlob _ _ _).bind fun _ => tracks_push _ _
  | level =>
    refine .bind_lift (line.plain_expectArguments _ _) fun _ hn => ?_
    refine .bind_lift (line.plain_textAt _) fun target ht => ?_
    have hnames := SectionTable.names_of_level hs hl hk hn ht
    exact (hv.tracks (isChain_concat hpath hlast hnames)).bind fun _ => tracks_push _ _
  | load =>
    refine .bind_lift (line.plain_expectArguments _ _) fun _ _ => ?_
    refine .bind_lift (line.plain_textAt _) fun _ _ => ?_
    exact (tracks_fileRecord _).bind fun _ => tracks_push _ _
  | string => exact .bind_lift line.plain_allText fun _ _ => tracks_push _ _
  | binc =>
    refine .bind_lift (line.plain_expectArguments _ _) fun _ _ => ?_
    refine .bind_lift (line.plain_textAt _) fun _ _ => ?_
    refine .bind_lift (plain_resolve _ _) fun file _ => ?_
    refine (tracks_readContents file).bind fun bytes => ?_
    split_ifs
    · exact (Tracks.throw rfl).bind fun _ => tracks_push _ _
    · exact tracks_push _ _
  | align =>
    refine .bind_lift (line.plain_expectArguments _ _) fun _ _ => ?_
    refine .bind_lift (line.plain_intAt _ _ _) fun _ _ => ?_
    exact .bind_lift (plain_checkAlignment _ _) fun _ _ => tracks_push _ _
  | pad =>
    refine .bind_lift (line.plain_expectArguments _ _) fun _ _ => ?_
    exact .bind_lift (line.plain_intAt _ _ _) fun _ _ => tracks_push _ _
  | path =>
    refine .bind_lift (line.plain_expectArguments _ _) fun _ _ => ?_
    exact .bind_lift (line.plain_textAt _) fun _ _ => .pure
  | insert =>
    refine .bind_lift (line.plain_expectArguments _ _) fun _ hn => ?_
    refine .bind_lift (line.plain_textAt _) fun target ht => ?_
    have hinserts := SectionTable.inserts_of_insert hs hl hk hn ht
    refine tracks_insert hv hpath hlast hinserts fun id => ?_
    exact Tracks.get.bind fun _ => .foldlM (fun _ _ _ => tracks_push _ _) d
  | long | word | byte | float =>
    exact .bind_lift (line.plain_allNumbers _ _) fun _ _ => tracks_push _ _

theorem tracks_compileLine {visit : Visit} (hv : Visiting ctx depth visit) {script : ScriptSection}
    {line : ScriptLine} (hs : ctx.table.find? script.name = some script) (hl : line ∈ script.lines)
    (d : Draft) (hpath : (path ++ [script.name]).IsChain ctx.table.Names) :
    Tracks ctx depth left (path ++ [script.name]) (compileLine ctx visit d line) := by
  unfold compileLine
  split
  · rename_i keyword hk
    exact tracks_compileKeyword hv d hs hl hk hpath List.getLast?_concat
  · exact .throw rfl

/-- **The lines of a section** at the end of a trail. -/
theorem tracks_lines {visit : Visit} (hv : Visiting ctx depth visit) {script : ScriptSection}
    (hs : ctx.table.find? script.name = some script) (d : Draft)
    (hpath : (path ++ [script.name]).IsChain ctx.table.Names) :
    Tracks ctx depth left (path ++ [script.name])
      (script.lines.foldlM (compileLine ctx visit) d) :=
  .foldlM (fun _ hl d => tracks_compileLine hv hs hl d hpath) d

/-! ## Sections -/

theorem Tracked.enter (h : Tracked ctx (depth + 1) left path c) {script : ScriptSection}
    (hs : ctx.table.find? script.name = some script) (hnew : c.compiled? script.name = none)
    (hpath : (path ++ [script.name]).IsChain ctx.table.Names) {empty : Section}
    (hempty : empty.name = script.name) (hscript : empty.runtimeFile = false) :
    Tracked ctx depth left (path ++ [script.name])
      { c with sections := c.sections.push empty, stack := c.stack ++ [script.name] } := by
  have hplace : (({ c with
      sections := c.sections.push empty, stack := c.stack ++ [script.name] } : Compiler).compiled?
        script.name).isSome :=
    compiled?_isSome.2 ⟨_, empty, Array.getElem?_push_size, hscript, hempty⟩
  refine ⟨?_, hpath, fun name hname => ?_, ?_⟩
  · rw [h.stack, List.append_assoc]
  · rcases List.mem_append.1 hname with hname | hname
    · exact compiled?_push (h.opened name hname)
    · rw [List.mem_singleton.1 hname]
      exact hplace
  · have hlt := unvisited_lt (SectionTable.find?_mem hs) compiled?_push hnew hplace
    exact hlt.trans_le (Nat.le_of_lt_succ h.below)

/-- Compiling a section fails where one of its lines does. -/
theorem fails_compileScript {visit : Visit} {script : ScriptSection}
    (h : Fails (compileScript ctx visit script) c e c') :
    (e.kind.isCyclic = false ∧ c' = c) ∨ ∃ empty : Section,
      empty.name = script.name ∧ empty.runtimeFile = false ∧
        Fails (script.lines.foldlM (compileLine ctx visit) { compiled := empty })
          { c with sections := c.sections.push empty, stack := c.stack ++ [script.name] } e c' := by
  have hbody : (e.kind.isCyclic = false ∧ c' = c) ∨ Fails (compileBody ctx visit script) c e c' := by
    rw [compileScript_eq] at h
    split at h
    · rcases fails_bind.1 h with h | ⟨_, _, h1, h2⟩
      · obtain ⟨he, rfl⟩ := fails_lift.1 h
        exact Or.inl ⟨(plain_checkAlignment _ _).acyclic he, rfl⟩
      · obtain ⟨-, rfl⟩ := runs_lift.1 h1
        exact Or.inr h2
    · exact Or.inr h
  refine hbody.imp_right fun h => ?_
  simp only [compileBody, fails_bind, fails_get, fails_modify, false_or, runs_get, runs_modify] at h
  obtain ⟨_, _, ⟨rfl, rfl⟩, _, _, rfl, hlines | ⟨d, c₁, -, _, _, -, h⟩⟩ := h
  · exact ⟨_, rfl, rfl, hlines⟩
  · split_ifs at h <;>
      simp only [warn, fails_bind, fails_modify, fails_pure, and_false, exists_false, or_false] at h

/-- **A section that fails** is refused before it is entered, or is on the trail. -/
theorem Tracked.fails_compileScript {visit : Visit} (h : Tracked ctx (depth + 1) left path c)
    (hv : Visiting ctx depth visit) {script : ScriptSection}
    (hs : ctx.table.find? script.name = some script) (hnew : c.compiled? script.name = none)
    (hpath : (path ++ [script.name]).IsChain ctx.table.Names)
    (hf : Fails (compileScript ctx visit script) c e c') :
    (e.kind.isCyclic = false ∧ c' = c) ∨ Stuck ctx left (path ++ [script.name]) e c' := by
  refine (Compiler.fails_compileScript hf).imp_right ?_
  rintro ⟨empty, hempty, hscript, hlines⟩
  exact (tracks_lines hv hs _ hpath).fails (h.enter hs hnew hpath hempty hscript) hlines

/-- **A section that is done** is off the stack. -/
theorem Tracked.runs_compileScript {visit : Visit} (h : Tracked ctx (depth + 1) left path c)
    (hv : Visiting ctx depth visit) {script : ScriptSection}
    (hs : ctx.table.find? script.name = some script) (hnew : c.compiled? script.name = none)
    (hpath : (path ++ [script.name]).IsChain ctx.table.Names) {id : SectionId}
    (hr : Runs (compileScript ctx visit script) c id c') : Still c c' := by
  obtain ⟨-, -, empty, d, c₁, warnings, hempty, hlines, rfl⟩ := runs_compileScript_iff hr
  have hname : empty.name = script.name := by rw [hempty]
  have hscript : empty.runtimeFile = false := by rw [hempty]
  have hstill := (tracks_lines hv hs _ hpath).runs (h.enter hs hnew hpath hname hscript) hlines
  refine ⟨?_, fun {j s} hj => ?_⟩
  · show c₁.stack.dropLast = c.stack
    rw [hstill.stack, List.dropLast_concat]
  · -- the place of the section is a new one
    have hlt := (Array.getElem?_eq_some_iff.1 hj).1
    obtain ⟨s', hs', hr', hn'⟩ := hstill.sections (getElem?_push_of_some hj)
    refine ⟨s', ?_, hr', hn'⟩
    show (c₁.sections.setIfInBounds c.sections.size d.compiled)[j]? = some s'
    rw [Array.getElem?_setIfInBounds_ne (by omega), hs']

/-- **Compiling a section** keeps the stack, or is refused, or gets stuck on a trail that
    leads to the section. -/
theorem visiting_compileWithin (depth : ℕ) : Visiting ctx depth (compileWithin ctx depth) := by
  induction depth with
  | zero =>
    constructor
    · intro left path name referrer c id c' h
      exact absurd h.below (Nat.not_lt_zero _)
    · intro left path name referrer c e c' h
      exact absurd h.below (Nat.not_lt_zero _)
  | succ depth ih =>
    constructor
    · intro left path name referrer c id c' h hpath hr
      rcases runs_compileWithin hr with ⟨rfl, -⟩ | ⟨hnew, script, hs, hrun⟩
      · exact .refl _
      · obtain rfl := SectionTable.find?_name hs
        exact h.runs_compileScript ih hs hnew hpath hrun
    · intro left path name referrer c e c' h hpath hf
      rcases fails_compileWithin hf with ⟨rfl, ⟨-, rfl⟩ | ⟨hopen, rfl⟩⟩ | ⟨hnew, script, hs, hfail⟩
      · exact Or.inl (.plain rfl)
      · exact Or.inl ⟨rfl, fun _ => ⟨hopen, rfl⟩⟩
      · obtain rfl := SectionTable.find?_name hs
        refine (h.fails_compileScript ih hs hnew hpath hfail).imp_left ?_
        rintro ⟨he, rfl⟩
        exact .plain he

end Compiler

end LevelBundle
