/-
  LevelBundle — what failed calls leave.

  A call that fails leaves the sections that it was compiling on the stack, where later
  calls take them for sections being compiled.

  * `Compiler.after`: the state after some calls, whether they answered or failed.
  * `Compiler.Left`: a section that a failed call has left on the stack.
  * `compileSection_cyclic`: an error about a cycle means that the section leads to a cycle,
    or that it leads to a section that an earlier call has left, and a call for such a
    section always gives one.
-/
import LevelBundle.Proofs.Cycles

namespace LevelBundle

namespace Compiler

/-- The state after some calls, one after the other, whether they answer or fail. -/
def after (ctx : CompileContext) (calls : List (String × Option Origin)) (c : Compiler) :
    Compiler :=
  calls.foldl (fun c call => ((compileSection ctx call.1 call.2).run c).2) c

variable {ctx : CompileContext} {c c' : Compiler} {calls : List (String × Option Origin)}
  {name : String} {referrer : Option Origin} {e : BuildError}

theorem after_concat (call : String × Option Origin) : after ctx (calls ++ [call]) c =
    ((compileSection ctx call.1 call.2).run (after ctx calls c)).2 := by
  rw [after, List.foldl_append]
  rfl

/-- A call fails, and the section that it is for leads to one that it leaves on the stack. -/
def Left (ctx : CompileContext) (c : Compiler) (calls : List (String × Option Origin))
    (name : String) : Prop :=
  ∃ before call later, calls = before ++ call :: later ∧ ctx.table.Reaches call.1 name ∧
    ∃ e c', Fails (compileSection ctx call.1 call.2) (after ctx before c) e c' ∧ name ∈ c'.stack

theorem Left.concat (h : Left ctx c calls name) (call : String × Option Origin) :
    Left ctx c (calls ++ [call]) name := by
  obtain ⟨before, failed, later, rfl, hrest⟩ := h
  exact ⟨before, failed, later ++ [call], by rw [List.append_assoc]; rfl, hrest⟩

/-! ## One call -/

theorem tracked_of_opened (h : ∀ name ∈ c.stack, (c.compiled? name).isSome) :
    Tracked ctx (ctx.table.size + 1) c.stack [] c :=
  ⟨(List.append_nil _).symm, .nil, h, Nat.lt_succ_of_le (unvisited_le_size ctx c)⟩

theorem runs_compileSection (h : ∀ name ∈ c.stack, (c.compiled? name).isSome) {id : SectionId}
    (hr : Runs (compileSection ctx name referrer) c id c') : Still c c' :=
  (visiting_compileWithin _).runs (tracked_of_opened h) (.singleton name) hr

/-- **A call that fails** leaves a trail from its section on. -/
theorem fails_compileSection (h : ∀ name ∈ c.stack, (c.compiled? name).isSome)
    (hf : Fails (compileSection ctx name referrer) c e c') :
    Refused c name e c' ∨ Stuck ctx c.stack [name] e c' :=
  (visiting_compileWithin _).fails (tracked_of_opened h) (.singleton name) hf

/-- The sections on a trail are those that its first section leads to. -/
theorem Stuck.reaches {left : List String} (h : Stuck ctx left [name] e c') :
    ∃ trail, c'.stack = left ++ trail ∧ (∀ n ∈ trail, ctx.table.Reaches name n) ∧
      (e.kind.isCyclic = true → ∃ target ∈ c'.stack, ctx.table.Reaches name target ∧
        (target ∈ trail → ctx.table.Loops target)) := by
  obtain ⟨trail, ⟨rest, rfl⟩, hstack, hnames, hcloses⟩ := h.trail
  refine ⟨_, hstack, fun n hn => reflTransGen_of_isChain hnames hn, fun hcyclic => ?_⟩
  obtain ⟨target, hcloses⟩ := hcloses hcyclic
  refine ⟨target, hcloses.opened, reflTransGen_of_isChain hcloses.names (by simp), fun hmem => ?_⟩
  obtain ⟨before, after, hsplit⟩ := List.append_of_mem hmem
  have hchain := hcloses.names
  rw [hsplit, List.append_assoc] at hchain
  exact transGen_of_isChain hchain.right_of_append

/-! ## Many calls -/

/-- Sections on the stack have a place, and failed calls have left them there. -/
structure Opened (ctx : CompileContext) (c : Compiler) (calls : List (String × Option Origin)) :
    Prop where
  opened : ∀ name ∈ (after ctx calls c).stack, ((after ctx calls c).compiled? name).isSome
  left : ∀ name ∈ (after ctx calls c).stack, Left ctx c calls name

theorem Opened.concat (h : Opened ctx c calls) (call : String × Option Origin) :
    Opened ctx c (calls ++ [call]) := by
  have hafter : after ctx (calls ++ [call]) c = _ := after_concat call
  rcases hr : ((compileSection ctx call.1 call.2).run (after ctx calls c) :
    Except BuildError SectionId × Compiler) with ⟨e | id, c'⟩
  · rw [hr] at hafter
    have hf : Fails (compileSection ctx call.1 call.2) (after ctx calls c) e c' := hr
    rcases fails_compileSection h.opened hf with hrefused | hstuck
    · rw [hrefused.state] at hafter
      exact ⟨hafter ▸ h.opened, hafter ▸ fun name hn => (h.left name hn).concat call⟩
    · obtain ⟨trail, hstack, hreaches, -⟩ := hstuck.reaches
      refine ⟨hafter ▸ hstuck.opened, hafter ▸ fun name hn => ?_⟩
      rcases List.mem_append.1 (hstack ▸ hn) with hold | hnew
      · exact (h.left name hold).concat call
      · exact ⟨calls, call, [], rfl, hreaches name hnew, e, c', hf, hn⟩
  · rw [hr] at hafter
    have hstill := runs_compileSection h.opened hr
    refine ⟨hafter ▸ fun name hn => ?_, hafter ▸ fun name hn => ?_⟩
    · exact hstill.compiled (h.opened name (hstill.stack ▸ hn))
    · exact (h.left name (hstill.stack ▸ hn)).concat call

theorem opened_start (ctx : CompileContext) (s : Settings)
    (calls : List (String × Option Origin)) : Opened ctx (start s) calls := by
  induction calls using List.reverseRecOn with
  | nil => exact ⟨nofun, nofun⟩
  | append_singleton calls call ih => exact ih.concat call

theorem fails_of_mem_stack (hopen : name ∈ c.stack) (hplace : (c.compiled? name).isSome)
    (referrer : Option Origin) : Fails (compileSection ctx name referrer) c
      { kind := .cyclicSection (c.cycle name), origin := referrer } c := by
  obtain ⟨id, hid⟩ := Option.isSome_iff_exists.1 hplace
  rw [compileSection, compileWithin, fails_bind]
  refine Or.inr ⟨c, c, runs_get.2 ⟨rfl, rfl⟩, ?_⟩
  simp only [hid, List.contains_iff_mem.2 hopen, if_true]
  exact fails_bind.2 (Or.inl (fails_throw.2 ⟨rfl, rfl⟩))

end Compiler

open Compiler

/-- **An error about a cycle, after any calls**: the section leads to a cycle, or to a section
    that an earlier call has left on the stack when it failed.  A section that has been left
    gives the error each time, whether it leads to a cycle or not. -/
theorem compileSection_cyclic (ctx : CompileContext) (s : Settings)
    (calls : List (String × Option Origin)) :
    (∀ name referrer e c', Fails (compileSection ctx name referrer) (after ctx calls (start s)) e c' →
      e.kind.isCyclic = true → (∃ n, ctx.table.Reaches name n ∧ ctx.table.Loops n) ∨
        ∃ n ∈ (after ctx calls (start s)).stack, ctx.table.Reaches name n) ∧
      ∀ n ∈ (after ctx calls (start s)).stack, Left ctx (start s) calls n ∧ ∀ referrer,
        Fails (compileSection ctx n referrer) (after ctx calls (start s))
          { kind := .cyclicSection ((after ctx calls (start s)).cycle n), origin := referrer }
          (after ctx calls (start s)) := by
  obtain ⟨hopened, hleft⟩ := opened_start ctx s calls
  refine ⟨fun name referrer e c' hf hcyclic => ?_, fun n hn => ⟨hleft n hn, fun referrer =>
    fails_of_mem_stack hn (hopened n hn) referrer⟩⟩
  rcases fails_compileSection hopened hf with hrefused | hstuck
  · obtain ⟨hopen, -⟩ := hrefused.kind hcyclic
    exact Or.inr ⟨name, hopen, .refl⟩
  · obtain ⟨trail, hstack, -, hcloses⟩ := hstuck.reaches
    obtain ⟨target, hopen, hreaches, hloops⟩ := hcloses hcyclic
    rcases List.mem_append.1 (hstack ▸ hopen) with hold | hnew
    · exact Or.inr ⟨target, hold, hreaches⟩
    · exact Or.inl ⟨target, hreaches, hloops hnew⟩

/-! ## A call that is made twice -/

namespace Demo

/-- A section with a line that no keyword starts. -/
def bogus : SectionTable where
  sections := [sectionOf "a" [line "bogus" [.int 1]]]

theorem bogus_names {name target : String} : ¬ bogus.Names name target := by
  rintro ⟨script, hs, l, hl, hn⟩
  have hkeyword : Keyword.ofName? l.keyword = none := by
    rw [List.mem_singleton.1 (SectionTable.find?_mem hs)] at hl
    rw [List.mem_singleton.1 hl]
    decide
  rcases hn with ⟨hk, -⟩ | ⟨hk, -⟩ <;>
  · rw [hkeyword] at hk
    cases hk

end Demo

/-- The second call for a section without references says that it refers to itself. -/
theorem compileSection_cyclic_demo : ∃ ctx : CompileContext, ctx.table = Demo.bogus ∧
    ¬ ctx.table.Loops "a" ∧ (after ctx [("a", none)] (start {})).stack = ["a"] ∧
      Fails (compileSection ctx "a" none) (after ctx [("a", none)] (start {}))
        { kind := .cyclicSection ["a", "a"] } (after ctx [("a", none)] (start {})) := by
  let ctx := Compiler.context {} Demo.bogus Demo.twoDirectories
  have hstack : (after ctx [("a", none)] (start {})).stack = ["a"] := by decide +kernel
  have hcycle : (after ctx [("a", none)] (start {})).cycle "a" = ["a", "a"] := by
    rw [cycle, hstack]
    decide
  have hfails := ((compileSection_cyclic ctx {} [("a", none)]).2 "a" (by simp [hstack])).2 none
  rw [hcycle] at hfails
  refine ⟨ctx, rfl, fun hloop => ?_, hstack, hfails⟩
  obtain ⟨_, hnames, -⟩ := Relation.TransGen.head'_iff.1 hloop
  exact Demo.bogus_names hnames

end LevelBundle
