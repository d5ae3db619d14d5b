/-
  LevelBundle — compiling comes to an end.

  A section is entered while it has no place, and entering it gives it one.  So sections are
  entered at most as deep as there are sections, and a bound on the depth that passes their
  number is never met: a greater one gives the same answer, or the same error, and the same
  state.
-/
import LevelBundle.Proofs.Trails

namespace LevelBundle.Compiler

variable {ctx : CompileContext} {depth : ℕ} {left path : List String} {c : Compiler}

/-- Two steps do the same in the states of a trail. -/
structure Same (ctx : CompileContext) (depth : ℕ) (left path : List String) {α : Type}
    (x y : CompileM α) : Prop where
  run : ∀ {c}, Tracked ctx depth left path c → x.run c = y.run c

namespace Same

variable {α β γ : Type} {x y : CompileM α}

theorem refl : Same ctx depth left path x x := ⟨fun _ => rfl⟩

/-- **Two steps, one after the other.** -/
theorem bind {f g : α → CompileM β} (h : Same ctx depth left path x y)
    (hx : Tracks ctx depth left path x) (hf : ∀ a, Same ctx depth left path (f a) (g a)) :
    Same ctx depth left path (x >>= f) (y >>= g) := by
  constructor
  intro c hc
  rw [run_bind, run_bind, ← h.run hc]
  rcases hr : (x.run c : Except BuildError α × Compiler) with ⟨e | a, c'⟩
  · rfl
  · exact (hf a).run (hc.still (hx.runs hc hr))

theorem bind_lift {z : Except BuildError α} {f g : α → CompileM β}
    (hf : ∀ a, z = .ok a → Same ctx depth left path (f a) (g a)) :
    Same ctx depth left path (liftM z >>= f) (liftM z >>= g) := by
  constructor
  intro c hc
  rw [run_bind, run_bind, run_lift]
  cases z with
  | error e => rfl
  | ok a => exact (hf a rfl).run hc

theorem throw_bind {e : BuildError} {f g : α → CompileM β} :
    Same ctx depth left path (throw e >>= f) (throw e >>= g) := ⟨fun _ => rfl⟩

/-- **A list of steps.** -/
theorem foldlM {f g : β → γ → CompileM β} {l : List γ}
    (h : ∀ a ∈ l, ∀ b, Same ctx depth left path (f b a) (g b a))
    (hf : ∀ a ∈ l, ∀ b, Tracks ctx depth left path (f b a)) (b : β) :
    Same ctx depth left path (l.foldlM f b) (l.foldlM g b) := by
  induction l generalizing b with
  | nil => exact refl
  | cons a l ih =>
    rw [List.foldlM_cons, List.foldlM_cons]
    refine (h a List.mem_cons_self b).bind (hf a List.mem_cons_self b) fun b' => ih ?_ ?_ b'
    · intro a' ha
      exact h a' (List.mem_cons_of_mem _ ha)
    · intro a' ha
      exact hf a' (List.mem_cons_of_mem _ ha)

end Same

/-- Two ways to have a section compiled do the same at the end of a trail. -/
def SameVisits (ctx : CompileContext) (depth : ℕ) (visit visit' : Visit) : Prop :=
  ∀ {left path name referrer}, (path ++ [name]).IsChain ctx.table.Names →
    Same ctx depth left path (visit name referrer) (visit' name referrer)

section

variable {visit visit' : Visit} {script : ScriptSection}

/-- **A keyword line** uses nothing else of a way to have sections compiled. -/
theorem same_compileKeyword (hv : Visiting ctx depth visit) (h : SameVisits ctx depth visit visit')
    {line : ScriptLine} {keyword : Keyword} (d : Draft)
    (hs : ctx.table.find? script.name = some script) (hl : line ∈ script.lines)
    (hk : Keyword.ofName? line.keyword = some keyword) (hpath : path.IsChain ctx.table.Names)
    (hlast : path.getLast? = some script.name) :
    Same ctx depth left path (compileKeyword ctx visit d line keyword)
      (compileKeyword ctx visit' d line keyword) := by
  cases keyword with
  | level =>
    refine .bind_lift fun _ hn => .bind_lift fun target ht => ?_
    have hnames := SectionTable.names_of_level hs hl hk hn ht
    have hchain := isChain_concat hpath hlast hnames
    exact (h hchain).bind (hv.tracks hchain) fun _ => .refl
  | insert =>
    refine .bind_lift fun _ hn => .bind_lift fun target ht => ?_
    have hinserts := SectionTable.inserts_of_insert hs hl hk hn ht
    have hchain := isChain_concat hpath hlast hinserts.names
    refine Same.refl.bind .get fun c => ?_
    split_ifs
    · exact .throw_bind
    · exact (h hchain).bind (hv.tracks hchain) fun _ => .refl
  | file | load | string | binc | align | pad | path | long | word | byte | float => exact .refl

theorem same_lines (hv : Visiting ctx depth visit) (h : SameVisits ctx depth visit visit')
    (hs : ctx.table.find? script.name = some script) (d : Draft)
    (hpath : (path ++ [script.name]).IsChain ctx.table.Names) :
    Same ctx depth left (path ++ [script.name])
      (script.lines.foldlM (compileLine ctx visit) d)
      (script.lines.foldlM (compileLine ctx visit') d) := by
  refine .foldlM (fun line hl d => ?_) (fun line hl d => tracks_compileLine hv hs hl d hpath) d
  unfold compileLine
  split
  · rename_i keyword hk
    exact same_compileKeyword hv h d hs hl hk hpath List.getLast?_concat
  · exact .refl

/-- **A section** that has no place. -/
theorem Tracked.same_compileScript (hc : Tracked ctx (depth + 1) left path c)
    (hv : Visiting ctx depth visit) (h : SameVisits ctx depth visit visit')
    (hs : ctx.table.find? script.name = some script) (hnew : c.compiled? script.name = none)
    (hpath : (path ++ [script.name]).IsChain ctx.table.Names) :
    (compileScript ctx visit script).run c = (compileScript ctx visit' script).run c := by
  have hbody : (compileBody ctx visit script).run c = (compileBody ctx visit' script).run c := by
    unfold compileBody
    simp only [run_bind, run_get, run_modify]
    rw [(same_lines hv h hs _ hpath).run (hc.enter hs hnew hpath rfl rfl)]
  rw [compileScript_eq, compileScript_eq]
  split
  · rename_i a _
    rw [run_bind, run_bind, run_lift]
    cases checkAlignment ctx "align" a script.origin with
    | error e => rfl
    | ok a => exact hbody
  · exact hbody

end

/-- **A greater depth** changes nothing, if it is greater than the number of sections that
    have no place. -/
theorem sameVisits_compileWithin (depth more : ℕ) :
    SameVisits ctx depth (compileWithin ctx depth) (compileWithin ctx (depth + more)) := by
  induction depth with
  | zero =>
    intro left path name referrer _
    constructor
    intro c hc
    exact absurd hc.below (Nat.not_lt_zero _)
  | succ depth ih =>
    intro left path name referrer hpath
    constructor
    intro c hc
    rw [Nat.succ_add, compileWithin, compileWithin]
    simp only [run_bind, run_get]
    split
    · rfl
    · rename_i hnew
      split
      · rfl
      · rename_i script hs
        obtain rfl := SectionTable.find?_name hs
        exact hc.same_compileScript (visiting_compileWithin depth) ih hs hnew hpath

end LevelBundle.Compiler
