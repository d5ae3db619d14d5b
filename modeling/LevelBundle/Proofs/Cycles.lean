/-
  LevelBundle — cycles are found, and only cycles.

  * `Program.Acyclic`: all that the root leads to is defined, nothing leads back to itself,
    and references lead to sections that are done.
  * `BuildError.Kind.Traced`: an error about a cycle shows one.
  * `compile_decides`: a compiler that has compiled nothing comes to an end, with a program
    without cycles or with an error that says the truth.
-/
import LevelBundle.Proofs.Depth
import LevelBundle.Proofs.Independence
import LevelBundle.Proofs.Linking

namespace LevelBundle

/-! ## Chains of names -/

section

variable {R : String → String → Prop} {a b : String} {l : List String}

theorem transGen_of_isChain (h : (a :: l ++ [b]).IsChain R) : Relation.TransGen R a b := by
  cases l with
  | nil => exact .single (List.isChain_pair.1 h)
  | cons x l =>
    obtain ⟨hfirst, hrest⟩ := List.isChain_cons_cons.1 h
    exact .head' hfirst
      (List.relationReflTransGen_of_exists_isChain_cons (l ++ [b]) hrest (by simp))

theorem reflTransGen_of_isChain (h : (a :: l).IsChain R) (hb : b ∈ a :: l) :
    Relation.ReflTransGen R a b :=
  h.induction (Relation.ReflTransGen R a ·) _ (fun _ _ hstep hx => hx.tail hstep)
    (fun _ => .refl) b hb

theorem dropWhile_eq_cons (h : a ∈ l) : ∃ rest, l.dropWhile (· != a) = a :: rest := by
  induction l with
  | nil => cases h
  | cons x l ih =>
    by_cases hx : x = a
    · subst hx
      exact ⟨l, List.dropWhile_cons_of_neg (by simp)⟩
    · rw [List.dropWhile_cons_of_pos (by simpa using hx)]
      exact ih ((List.mem_cons.1 h).resolve_left (Ne.symm hx))

end

/-! ## Errors that show a cycle -/

/-- A chain of sections, each of which names the next, that goes back to the first. -/
structure SectionTable.Round (t : SectionTable) (chain : List String) : Prop where
  names : chain.IsChain t.Names
  closed : ∃ name rest, chain = name :: rest ++ [name]

/-- An error about a cycle shows one that `root` leads to. -/
def BuildError.Kind.Traced (t : SectionTable) (root : String) : BuildError.Kind → Prop
  | .cyclicSection chain => t.Round chain ∧ ∀ name ∈ chain, t.Reaches root name
  | .cyclicInsert target => t.Reaches root target ∧ ∃ name, t.Reaches target name ∧
    t.Inserts name target
  | _ => True

variable {ctx : CompileContext} {root : String}

/-- **A trail that is closed** on itself. -/
theorem Compiler.Closes.traced {trail : List String} {c : Compiler} {e : BuildError}
    {target : String} (h : Closes ctx trail c e target) (hroot : [root] <+: trail)
    (hstack : c.stack = trail) : e.kind.Traced ctx.table root := by
  have hopen : target ∈ trail := hstack ▸ h.opened
  have hreach {name : String} (hname : name ∈ trail ++ [target]) : ctx.table.Reaches root name := by
    obtain ⟨rest, rfl⟩ := hroot
    exact reflTransGen_of_isChain h.names hname
  rcases h.kind with hkind | ⟨hkind, name, hlast, hinserts⟩
  · rw [hkind]
    obtain ⟨rest, hrest⟩ := dropWhile_eq_cons hopen
    have hsuffix : target :: rest ++ [target] <:+ trail ++ [target] := by
      obtain ⟨before, hbefore⟩ := List.dropWhile_suffix (· != target)
      exact ⟨before, by rw [← hrest, ← List.append_assoc, hbefore]⟩
    show ctx.table.Round (c.cycle target) ∧ _
    rw [cycle, hstack, hrest]
    exact ⟨⟨h.names.suffix hsuffix, target, rest, rfl⟩, fun name hname =>
      hreach (hsuffix.subset hname)⟩
  · rw [hkind]
    refine ⟨hreach (List.mem_append_left _ hopen), name, ?_, hinserts⟩
    -- the trail from the section on
    obtain ⟨before, rest, rfl⟩ := List.append_of_mem hopen
    have hchain : (target :: rest).IsChain ctx.table.Names :=
      h.names.left_of_append.right_of_append
    refine reflTransGen_of_isChain hchain ?_
    rw [List.getLast?_append_cons] at hlast
    exact List.mem_of_getLast? hlast

/-! ## Programs without cycles -/

/-- A section refers to another. -/
def Program.Refers (p : Program) (i j : ℕ) : Prop :=
  ∃ s, p.sections[i]? = some s ∧ Part.level ⟨j⟩ ∈ s.parts

/-- A program without cycles, whose references lead to sections that are done. -/
structure Program.Acyclic (ctx : CompileContext) (root : String) (p : Program) : Prop where
  /-- All that the root leads to is defined. -/
  defined : ∀ {name}, ctx.table.Reaches root name → ∃ script, ctx.table.find? name = some script
  /-- None of it leads back to itself. -/
  acyclic : ∀ {name}, ctx.table.Reaches root name → ¬ ctx.table.Loops name
  /-- Every section is done: its parts read as its lines say. -/
  finished : p.Finished ctx
  /-- A reference to a section leads to one that is done, and which lines lead to. -/
  level : ∀ {i : ℕ} {s : Section} {id}, p.sections[i]? = some s → .level id ∈ s.parts →
    ∃ target, p.sections[id.index]? = some target ∧ target.runtimeFile = false ∧
      target.Finished ctx p.sections p.store ∧ Relation.TransGen ctx.table.Names s.name target.name
  /-- A reference to a record leads to that of its file. -/
  load : ∀ {i : ℕ} {s : Section} {filename id}, p.sections[i]? = some s →
    .runtimeFile filename id ∈ s.parts → p.sections[id.index]? = some (Section.record filename)
  /-- No reference leads round. -/
  refers : ∀ i, ¬ Relation.TransGen p.Refers i i

section

variable {p : Program} {s : Section} {i : ℕ}

theorem Program.Finished.reads_of_mem (h : p.Finished ctx) (hs : p.sections[i]? = some s)
    {part : Part} (hp : part ∈ s.parts) (href : part.isReference = true) :
    s.runtimeFile = false ∧ s.Finished ctx p.sections p.store := by
  have hscript : s.runtimeFile = false := by
    by_contra hr
    obtain ⟨filename, rfl⟩ := h.record hs (by simpa using hr)
    exact Compiler.not_mem_record href hp
  exact ⟨hscript, h.finished hs hscript⟩

theorem Program.Finished.level (h : p.Finished ctx) (hs : p.sections[i]? = some s) {id : SectionId}
    (hp : .level id ∈ s.parts) : ∃ target, p.sections[id.index]? = some target ∧
      target.runtimeFile = false ∧ target.Finished ctx p.sections p.store ∧
        Relation.TransGen ctx.table.Names s.name target.name := by
  obtain ⟨-, script, t, hfind, -, hexp, hreads⟩ := (h.reads_of_mem hs hp rfl).2
  obtain ⟨ph, hph, hphrase⟩ := hreads.phrase_of_mem hp
  obtain ⟨target, htarget, hscript, rfl⟩ := Part.reading?_level.1 hphrase
  refine ⟨target, htarget, hscript, h.finished htarget hscript, ?_⟩
  exact (hexp.names hfind (fun _ hl => hl) hph).resolve_left List.not_mem_nil

theorem Program.Finished.load (h : p.Finished ctx) (hs : p.sections[i]? = some s)
    {filename : String} {id : SectionId} (hp : .runtimeFile filename id ∈ s.parts) :
    p.sections[id.index]? = some (Section.record filename) := by
  obtain ⟨-, script, t, -, -, -, hreads⟩ := (h.reads_of_mem hs hp rfl).2
  obtain ⟨ph, -, hphrase⟩ := hreads.phrase_of_mem hp
  obtain ⟨record, hrecord, hr, hname, -⟩ := Part.reading?_runtimeFile.1 hphrase
  obtain ⟨filename', rfl⟩ := h.record hrecord hr
  -- a record has the name of its file
  have hname : "load:" ++ filename' = "load:" ++ filename := hname
  rw [String.append_right_inj] at hname
  rw [hrecord, hname]

/-- References lead where names do. -/
theorem Program.Finished.transGen (h : p.Finished ctx) {j : ℕ}
    (hrefers : Relation.TransGen p.Refers i j) (hs : p.sections[i]? = some s) :
    ∃ target, p.sections[j]? = some target ∧
      Relation.TransGen ctx.table.Names s.name target.name := by
  induction hrefers with
  | single hstep =>
    obtain ⟨s', hs', hp⟩ := hstep
    cases hs.symm.trans hs'
    obtain ⟨target, htarget, -, -, hnames⟩ := h.level hs hp
    exact ⟨target, htarget, hnames⟩
  | tail _ hstep ih =>
    obtain ⟨middle, hmiddle, hnames⟩ := ih
    obtain ⟨s', hs', hp⟩ := hstep
    cases hmiddle.symm.trans hs'
    obtain ⟨target, htarget, -, -, hnames'⟩ := h.level hmiddle hp
    exact ⟨target, htarget, hnames.trans hnames'⟩

/-- **A finished program has no cycles.** -/
theorem Program.Finished.acyclic (h : p.Finished ctx) (hroot : ctx.table.Grounded root) :
    p.Acyclic ctx root := by
  refine ⟨fun hr => (hroot.reaches hr).defined, fun hr => (hroot.reaches hr).acyclic, h,
    fun hs hp => h.level hs hp, fun hs hp => h.load hs hp, fun i hround => ?_⟩
  obtain ⟨_, ⟨s, hs, hp⟩, -⟩ := Relation.TransGen.head'_iff.1 hround
  obtain ⟨target, htarget, hloop⟩ := h.transGen hround hs
  cases hs.symm.trans htarget
  exact (h.reads_of_mem hs hp rfl).2.grounded.acyclic hloop

end

/-! ## A compiler that has compiled nothing -/

/-- What is to be said of the cycles that a root leads to. -/
def Compiler.Decides (ctx : CompileContext) (root : String) : Except BuildError Program → Prop
  | .ok p => p.Acyclic ctx root
  | .error e => e.kind.Traced ctx.table root

theorem BuildError.Kind.traced_of_not_cyclic {kind : BuildError.Kind}
    (h : kind.isCyclic = false) : kind.Traced ctx.table root := by
  cases kind with
  | cyclicSection | cyclicInsert => cases h
  | _ => trivial

theorem Compiler.tracked_start {depth : ℕ} (s : Settings) (h : ctx.table.size < depth) :
    Tracked ctx depth [] [] (start s) :=
  ⟨rfl, .nil, nofun, (unvisited_le_size ctx _).trans_lt h⟩

/-- **Compiling comes to an end, and finds a cycle if there is one**: a depth that passes the
    number of sections is not used up, a program has no cycles, and an error about a cycle
    shows one. -/
theorem compile_decides (ctx : CompileContext) (s : Settings) (root : String) :
    (∀ depth, ctx.table.size < depth →
      (Compiler.compileWithin ctx depth root none).run (Compiler.start s) =
        (Compiler.compileSection ctx root none).run (Compiler.start s)) ∧
      Compiler.Decides ctx root (Compiler.compile ctx (Compiler.start s) root) := by
  have hchain : ([] ++ [root]).IsChain ctx.table.Names := .singleton root
  constructor
  · intro depth hdepth
    obtain ⟨more, rfl⟩ := Nat.exists_eq_add_of_lt hdepth
    rw [Nat.add_right_comm]
    have htracked := Compiler.tracked_start s (Nat.lt_succ_self ctx.table.size)
    exact ((Compiler.sameVisits_compileWithin _ more hchain).run htracked).symm
  · cases hc : Compiler.compile ctx (Compiler.start s) root with
    | ok p =>
      obtain ⟨hfinished, hroot⟩ := (Compiler.faithful_start s).compile rfl hc
      exact hfinished.acyclic hroot
    | error e =>
      obtain ⟨c', hf⟩ := Compiler.compile_eq_error.1 hc
      cases hcyclic : e.kind.isCyclic with
      | false => exact BuildError.Kind.traced_of_not_cyclic hcyclic
      | true =>
        rcases (Compiler.visiting_compileWithin _).fails
          (Compiler.tracked_start s (Nat.lt_succ_self _)) hchain hf with hrefused | hstuck
        · obtain ⟨hopen, -⟩ := hrefused.kind hcyclic
          cases hopen
        · obtain ⟨trail, hprefix, hstack, -, hcloses⟩ := hstuck.trail
          obtain ⟨target, hcloses⟩ := hcloses hcyclic
          exact hcloses.traced hprefix hstack

/-! ## Two sections that refer to each other -/

/-- The section `a` leads to the two, `b` and `c`. -/
def Demo.round : SectionTable where
  sections := [
    sectionOf "a" [line "level" [.str "b"]],
    sectionOf "b" [line "byte" [.int 1], line "align" [.int 4], line "level" [.str "c"]],
    sectionOf "c" [line "insert" [.str "d"], line "level" [.str "b"]],
    sectionOf "d" [line "long" [.int 1]]]

/-- The chain of the error goes from the first of the two back to it. -/
theorem compile_decides_demo : ∃ e, Compiler.compile
    (Compiler.context {} Demo.round Demo.twoDirectories) (Compiler.start {}) "a" = .error e ∧
      e.kind = .cyclicSection ["b", "c", "b"] ∧ Demo.round.Round ["b", "c", "b"] := by
  have hkind : (match Compiler.compile (Compiler.context {} Demo.round Demo.twoDirectories)
      (Compiler.start {}) "a" with
    | .ok _ => false
    | .error e => e.kind == .cyclicSection ["b", "c", "b"]) = true := by decide +kernel
  have hdecides := (compile_decides (Compiler.context {} Demo.round Demo.twoDirectories) {} "a").2
  split at hkind
  · cases hkind
  rename_i e he
  rw [beq_iff_eq] at hkind
  rw [he, Compiler.Decides, hkind] at hdecides
  exact ⟨e, he, hkind, hdecides.1⟩

end LevelBundle
