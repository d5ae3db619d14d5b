/-
  LevelBundle — compiling for either order of bytes.

  A script is compiled twice, with different orders of bytes.  The order decides the bytes of
  numbers, and nothing else: how many there are, the errors and all that is looked up is the
  same, so that the two runs go through states of the same shape.

  * `CompileContext.ordered`, `Settings.ordered`: the same with another order of bytes.
  * `Compiler.Parallel R x y`: two steps fail with the same error, or answer what is related
    by `R`; they keep states of the same shape.
  * `parallel_compileWithin`: so it goes for a section, to any depth.
  * `compile_ordered`: the two programs, or the error.
-/
import LevelBundle.Proofs.Compiling
import LevelBundle.Proofs.Shapes
import LevelBundle.Proofs.Together

namespace LevelBundle

/-- The same options with another order of bytes. -/
def PackOptions.ordered (options : PackOptions) (order : ByteOrder) : PackOptions :=
  { options with order }

/-- The same settings with another order of bytes. -/
def Settings.ordered (s : Settings) (order : ByteOrder) : Settings :=
  { s with pack := s.pack.ordered order }

/-- The same context with another order of bytes. -/
def CompileContext.ordered (ctx : CompileContext) (order : ByteOrder) : CompileContext :=
  { ctx with order }

@[simp] theorem CompileContext.table_ordered (ctx : CompileContext) (order : ByteOrder) :
    (ctx.ordered order).table = ctx.table := rfl

/-! ## Numbers -/

section

variable {o o' : ByteOrder}

theorem length_halfBytes_eq (o o' : ByteOrder) (v v' : UInt16) :
    (o.halfBytes v).length = (o'.halfBytes v').length := by
  rw [ByteOrder.length_halfBytes, ByteOrder.length_halfBytes]

theorem length_wordBytes_eq (o o' : ByteOrder) (v v' : UInt32) :
    (o.wordBytes v).length = (o'.wordBytes v').length := by
  rw [ByteOrder.length_wordBytes, ByteOrder.length_wordBytes]

theorem ScriptLine.matches_numberBytes (line : ScriptLine) (keyword : Keyword) (i : ℕ) :
    Matches (fun bytes bytes' => bytes.length = bytes'.length) (line.numberBytes keyword o i)
      (line.numberBytes keyword o' i) := by
  unfold numberBytes
  split
  · refine (Matches.refl (R := Eq) _ fun _ _ => rfl).bind ?_
    rintro value _ rfl
    refine .ok ?_
    simp only [integerBytes]
    split_ifs
    · rfl
    · exact length_halfBytes_eq ..
    · exact length_wordBytes_eq ..
  · split
    · exact .ok (length_wordBytes_eq ..)
    · exact .error _

/-- **The numbers of a line** take as many bytes in either order. -/
theorem ScriptLine.matches_allNumbers (line : ScriptLine) (keyword : Keyword) :
    Matches (fun bytes bytes' => bytes.length = bytes'.length) (line.allNumbers keyword o)
      (line.allNumbers keyword o') := by
  unfold allNumbers
  refine (Matches.refl (R := fun _ _ => True) _ fun _ _ => trivial).bind fun _ => ?_
  refine (Matches.mapM fun i _ => line.matches_numberBytes keyword i).bind fun {ls ls'} hall => ?_
  refine .ok ?_
  induction hall with
  | nil => rfl
  | cons h _ ih => rw [List.flatten_cons, List.flatten_cons, List.length_append,
      List.length_append, h, ih]

end

/-! ## Sections -/

namespace Section

variable {s t : Section} {a b : Part}

theorem shape_fit (hs : s.shape = t.shape) (h : a.shape = b.shape) :
    (s.fit a).shape = (t.fit b).shape := by
  have hsize : s.size = t.size := (shape_eq_iff.1 hs).2.2.1
  cases a <;> cases b <;> first | exact h | cases h
  simp only [fit, hsize]

/-- **Appending parts** of the same shape to sections of the same shape. -/
theorem matches_push (hs : s.shape = t.shape) (h : a.shape = b.shape) :
    Matches (fun s t => s.shape = t.shape) (s.push a) (t.push b) := by
  have hfit := shape_fit hs h
  obtain ⟨hname, hparts, hsize, halign, horigin, hrecord, hoffset⟩ := shape_eq_iff.1 hs
  simp only [push, Part.isReference_congr hfit, hname, hsize]
  split_ifs
  · exact .error _
  · refine .ok (shape_eq_iff.2 ⟨rfl, ?_, ?_, halign, horigin, hrecord, hoffset⟩)
    · rw [List.map_append, List.map_append, hparts, List.map_singleton, List.map_singleton, hfit]
    · rw [Part.size_congr hfit]

end Section

/-! ## States -/

/-- Two sections being compiled differ in the bytes of literals only. -/
structure Draft.SameShape (d d' : Draft) : Prop where
  compiled : d.compiled.shape = d'.compiled.shape
  base : d.base = d'.base

namespace Compiler

/-- Two states of compiling differ in the bytes of literals only. -/
structure SameShape (c d : Compiler) : Prop where
  store : c.store = d.store
  sections : c.sections.map Section.shape = d.sections.map Section.shape
  stack : c.stack = d.stack
  warnings : c.warnings = d.warnings

/-- Two steps fail with the same error, or give answers that are related by `R`; they keep
    states of the same shape. -/
abbrev Parallel {α α' : Type} (R : α → α' → Prop) (x : CompileM α) (y : CompileM α') : Prop :=
  Together SameShape x y fun a a' c d => R a a' ∧ SameShape c d

variable {c d : Compiler}

namespace SameShape

variable (h : SameShape c d)
include h

theorem size : c.sections.size = d.sections.size := by
  have hsize := congrArg Array.size h.sections
  rwa [Array.size_map, Array.size_map] at hsize

theorem findIdx? {f : Section → Bool} (hf : ∀ s, f s.shape = f s) :
    c.sections.findIdx? f = d.sections.findIdx? f := by
  have hmap (sections : Array Section) :
      (sections.map Section.shape).findIdx? f = sections.findIdx? f := by
    rw [Array.findIdx?_map]
    exact congrArg (sections.findIdx? ·) (funext hf)
  rw [← hmap, h.sections, hmap]

theorem record? (filename : String) : c.record? filename = d.record? filename :=
  congrArg (Option.map SectionId.mk) (h.findIdx? fun _ => rfl)

theorem compiled? (name : String) : c.compiled? name = d.compiled? name :=
  congrArg (Option.map SectionId.mk) (h.findIdx? fun _ => rfl)

theorem parts (id : SectionId) :
    ((c.sections[id.index]?.map Section.parts).getD []).map Part.shape =
      ((d.sections[id.index]?.map Section.parts).getD []).map Part.shape := by
  have hmap (sections : Array Section) :
      ((sections[id.index]?.map Section.parts).getD []).map Part.shape =
        ((sections.map Section.shape)[id.index]?.map Section.parts).getD [] := by
    rw [Array.getElem?_map]
    cases sections[id.index]? <;> rfl
  rw [hmap, h.sections, ← hmap]

theorem overflows (ctx : CompileContext) (o o' : ByteOrder) (size : UInt32) :
    c.overflows (ctx.ordered o) size = d.overflows (ctx.ordered o') size := by
  rw [Compiler.overflows, Compiler.overflows, h.store]
  rfl

end SameShape

variable {ctx : CompileContext} {o o' : ByteOrder} {origin : Origin} {draft draft' : Draft}

/-! ## Steps -/

theorem parallel_modify {f g : Compiler → Compiler}
    (h : ∀ {c d}, SameShape c d → SameShape (f c) (g d)) :
    Parallel Eq (modify f : CompileM PUnit) (modify g) :=
  Together.mono (.modify h) id fun h => ⟨rfl, h⟩

theorem parallel_set (h : SameShape c d) : Parallel Eq (set c : CompileM PUnit) (set d) :=
  Together.mono (.set fun _ => h) id fun h => ⟨rfl, h⟩

theorem parallel_warn (kind : Warning.Kind) : Parallel Eq (warn kind origin) (warn kind origin) :=
  parallel_modify fun h => ⟨h.store, h.sections, h.stack, congrArg (· ++ _) h.warnings⟩

theorem parallel_request {α : Type} {act : StoreM α} :
    Parallel Eq (request act origin) (request act origin) := by
  refine .look fun {c d} h => ?_
  rw [h.store]
  rcases act.run d.store with ⟨_ | _, store⟩
  all_goals
    have hset : SameShape { c with store } { d with store } :=
      ⟨rfl, h.sections, h.stack, h.warnings⟩
    refine (parallel_set hset).bind_of fun _ => ?_
  · exact .throw
  · exact .pure fun h => ⟨rfl, h⟩

theorem parallel_overflows {α α' : Type} {R : α → α' → Prop} {size size' : UInt32}
    (hsize : size = size') {x y : CompileM α} {x' y' : CompileM α'} (hx : Parallel R x x')
    (hy : Parallel R y y') : Parallel R
      (do if (← get).overflows (ctx.ordered o) size then x else y)
      (do if (← get).overflows (ctx.ordered o') size' then x' else y') := by
  refine .look fun {c d} h => ?_
  rw [h.overflows ctx o o', hsize]
  split_ifs
  · exact hx
  · exact hy

theorem parallel_push {a a' : Part} (hd : draft.SameShape draft') (h : a.shape = a'.shape) :
    Parallel Draft.SameShape (push (ctx.ordered o) draft a origin)
      (push (ctx.ordered o') draft' a' origin) := by
  have hpush := Section.matches_push hd.compiled h
  unfold push
  generalize draft.compiled.push a = x at hpush ⊢
  generalize draft'.compiled.push a' = y at hpush ⊢
  cases hpush with
  | error => exact .throw
  | ok hs =>
    obtain ⟨hname, -, hsize, -⟩ := Section.shape_eq_iff.1 hs
    refine parallel_overflows hsize ?_ (.pure fun h => ⟨⟨hs, hd.base⟩, h⟩)
    rw [hname, hsize]
    exact .throw_bind

theorem parallel_readContents (path : Path) : Parallel Eq
    (readContents (ctx.ordered o) path origin) (readContents (ctx.ordered o') path origin) := by
  show Parallel Eq (readContents (ctx.ordered o) path origin) (readContents (ctx.ordered o) path origin)
  unfold readContents
  split
  · exact .throw
  · split_ifs
    · exact (parallel_warn _).bind_of fun _ => .pure fun h => ⟨rfl, h⟩
    · exact .pure fun h => ⟨rfl, h⟩

/-- **The contents of a file**, which a line asks for. -/
theorem parallel_fileBlob (base : Option Path) (text : String) (a : Option UInt32) : Parallel Eq
    (fileBlob (ctx.ordered o) base text a origin) (fileBlob (ctx.ordered o') base text a origin) := by
  refine .bind_same fun path _ => parallel_request.bind_of ?_
  rintro known _ rfl
  cases known with
  | some id => exact .pure fun h => ⟨rfl, h⟩
  | none =>
    refine (parallel_readContents path).bind_of ?_
    rintro bytes _ rfl
    exact parallel_overflows rfl .throw_bind parallel_request

theorem parallel_fileRecord (filename : String) : Parallel Eq
    (fileRecord (ctx.ordered o) filename origin) (fileRecord (ctx.ordered o') filename origin) := by
  refine .look fun {c d} h => ?_
  rw [h.record?, h.size]
  cases d.record? filename with
  | some id => exact .pure fun h => ⟨rfl, h⟩
  | none =>
    simp only [h.overflows ctx o o']
    split_ifs
    · exact .throw_bind
    · have hset : SameShape { c with sections := c.sections.push (.record filename) }
          { d with sections := d.sections.push (.record filename) } := by
        refine ⟨h.store, ?_, h.stack, h.warnings⟩
        rw [Array.map_push, Array.map_push, h.sections]
      exact (parallel_set hset).bind_of fun _ => .pure fun h => ⟨rfl, h⟩

theorem parallel_splice (hd : draft.SameShape draft') (id : SectionId) : Parallel Draft.SameShape
    (splice (ctx.ordered o) draft id origin) (splice (ctx.ordered o') draft' id origin) := by
  refine .look fun {c d} h => ?_
  exact .foldlM (Part.forall₂_shape (h.parts id)) (fun ha hd => parallel_push hd ha) hd

/-! ## Lines -/

/-- **A keyword line.** -/
theorem parallel_compileKeyword {visit visit' : Visit}
    (hv : ∀ name referrer, Parallel Eq (visit name referrer) (visit' name referrer))
    (hd : draft.SameShape draft') (line : ScriptLine) (keyword : Keyword) :
    Parallel Draft.SameShape (compileKeyword (ctx.ordered o) visit draft line keyword)
      (compileKeyword (ctx.ordered o') visit' draft' line keyword) := by
  cases keyword with
  | file =>
    refine .bind_same fun _ _ => .bind_same fun text _ => .bind_same fun a _ => ?_
    rw [hd.base]
    refine (parallel_fileBlob draft'.base text a).bind_of ?_
    rintro id _ rfl
    exact parallel_push hd rfl
  | level =>
    refine .bind_same fun _ _ => .bind_same fun text _ => (hv text _).bind_of ?_
    rintro id _ rfl
    exact parallel_push hd rfl
  | load =>
    refine .bind_same fun _ _ => .bind_same fun text _ => (parallel_fileRecord text).bind_of ?_
    rintro id _ rfl
    exact parallel_push hd rfl
  | string => exact .bind_same fun text _ => parallel_push hd rfl
  | binc =>
    refine .bind_same fun _ _ => .bind_same fun text _ => ?_
    rw [hd.base]
    refine .bind_same fun path _ => (parallel_readContents path).bind_of ?_
    rintro bytes _ rfl
    obtain ⟨hname, -, hsize, -⟩ := Section.shape_eq_iff.1 hd.compiled
    rw [hname, hsize]
    show Parallel _ (if ctx.chunkSize.toNat < bytes.length then _ else _)
      (if ctx.chunkSize.toNat < bytes.length then _ else _)
    split_ifs
    · exact .throw_bind
    · exact parallel_push hd rfl
  | align =>
    refine .bind_same fun _ _ => .bind_same fun value _ => .bind_same fun boundary _ => ?_
    exact parallel_push hd rfl
  | pad => exact .bind_same fun _ _ => .bind_same fun count _ => parallel_push hd rfl
  | path =>
    refine .bind_same fun _ _ => .bind_same fun text _ => .pure fun h => ⟨⟨hd.compiled, rfl⟩, h⟩
  | insert =>
    refine .bind_same fun _ _ => .bind_same fun text _ => .look fun {c d} h => ?_
    rw [h.stack]
    split_ifs
    · exact .throw_bind
    · refine (hv text _).bind_of ?_
      rintro id _ rfl
      exact parallel_splice hd id
  | long | word | byte | float =>
    refine .bind_lift (line.matches_allNumbers _) fun h => ?_
    exact parallel_push hd (Part.shape_literal h)

theorem parallel_compileLine {visit visit' : Visit}
    (hv : ∀ name referrer, Parallel Eq (visit name referrer) (visit' name referrer))
    (hd : draft.SameShape draft') (line : ScriptLine) : Parallel Draft.SameShape
      (compileLine (ctx.ordered o) visit draft line)
      (compileLine (ctx.ordered o') visit' draft' line) := by
  unfold compileLine
  split
  · exact parallel_compileKeyword hv hd line _
  · exact .throw

/-! ## Sections of the script -/

theorem parallel_enter (name : String) (empty : Section) :
    Parallel Eq
      (modify fun c => { c with sections := c.sections.push empty, stack := c.stack ++ [name] })
      (modify fun c => { c with sections := c.sections.push empty, stack := c.stack ++ [name] }) := by
  refine parallel_modify fun {c d} h => ⟨h.store, ?_, ?_, h.warnings⟩
  · simp only [Array.map_push, h.sections]
  · simp only [h.stack]

theorem parallel_leave : Parallel Eq (modify fun c => { c with stack := c.stack.dropLast })
    (modify fun c => { c with stack := c.stack.dropLast }) :=
  parallel_modify fun h => ⟨h.store, h.sections, congrArg List.dropLast h.stack, h.warnings⟩

theorem parallel_settle (i : ℕ) {s t : Section} (hs : s.shape = t.shape) :
    Parallel Eq (modify fun c => { c with sections := c.sections.setIfInBounds i s })
      (modify fun c => { c with sections := c.sections.setIfInBounds i t }) := by
  refine parallel_modify fun {c d} h => ⟨h.store, ?_, h.stack, h.warnings⟩
  simp only [Array.map_setIfInBounds, h.sections, hs]

theorem parallel_compileBody {visit visit' : Visit}
    (hv : ∀ name referrer, Parallel Eq (visit name referrer) (visit' name referrer))
    (script : ScriptSection) : Parallel Eq (compileBody (ctx.ordered o) visit script)
      (compileBody (ctx.ordered o') visit' script) := by
  refine .look fun {c d} h => ?_
  rw [h.size]
  refine (parallel_enter _ _).bind_of fun _ => ?_
  have hlines := List.forall₂_same.2 fun (line : ScriptLine) (_ : line ∈ script.lines) => Eq.refl line
  refine .bind_of (.foldlM (W := Draft.SameShape) hlines ?_ ⟨rfl, rfl⟩) ?_
  · rintro line _ draft draft' rfl hd
    exact parallel_compileLine hv hd line
  intro draft draft' hd
  refine parallel_leave.bind_of fun _ => ?_
  have hsettle : Parallel Eq
      (do
        modify fun c' => { c' with sections := c'.sections.setIfInBounds d.sections.size draft.compiled }
        return (⟨d.sections.size⟩ : SectionId))
      (do
        modify fun c' => { c' with sections := c'.sections.setIfInBounds d.sections.size draft'.compiled }
        return (⟨d.sections.size⟩ : SectionId)) :=
    (parallel_settle _ hd.compiled).bind_of fun _ => .pure fun h => ⟨rfl, h⟩
  rw [(Section.shape_eq_iff.1 hd.compiled).2.2.1]
  split_ifs
  · exact (parallel_warn _).bind_of fun _ => hsettle
  · exact hsettle

theorem parallel_compileScript {visit visit' : Visit}
    (hv : ∀ name referrer, Parallel Eq (visit name referrer) (visit' name referrer))
    (script : ScriptSection) : Parallel Eq (compileScript (ctx.ordered o) visit script)
      (compileScript (ctx.ordered o') visit' script) := by
  rw [compileScript_eq, compileScript_eq]
  split
  · exact .bind_same fun _ _ => parallel_compileBody hv script
  · exact parallel_compileBody hv script

/-- **A section**, to any depth. -/
theorem parallel_compileWithin (depth : ℕ) (name : String) (referrer : Option Origin) :
    Parallel Eq (compileWithin (ctx.ordered o) depth name referrer)
      (compileWithin (ctx.ordered o') depth name referrer) := by
  induction depth generalizing name referrer with
  | zero =>
    refine .look fun {c d} h => ?_
    rw [cycle, cycle, h.stack]
    exact .throw
  | succ depth ih =>
    refine .look fun {c d} h => ?_
    rw [h.compiled?, h.stack, cycle, cycle, h.stack]
    split
    · split_ifs
      · exact .throw_bind
      · exact .pure fun h => ⟨rfl, h⟩
    · simp only [CompileContext.table_ordered]
      split
      · exact .throw
      · exact parallel_compileScript ih _

end Compiler

/-! ## Programs -/

/-- **The order of bytes decides the bytes of numbers** in a program, and nothing else: a
    script compiles to programs of the same shape in either order, or to the same error. -/
theorem compile_ordered (ctx : CompileContext) (c : Compiler) (root : String) (o o' : ByteOrder) :
    Matches Program.SameShape (Compiler.compile (ctx.ordered o) c root)
      (Compiler.compile (ctx.ordered o') c root) := by
  have hrun := (@Compiler.parallel_compileWithin ctx o o' (ctx.table.size + 1) root none).run
    (s := c) (t := c) ⟨rfl, rfl, rfl, rfl⟩
  have hcompile (order : ByteOrder) : Compiler.compile (ctx.ordered order) c root =
      (outcome (Compiler.compileWithin (ctx.ordered order) (ctx.table.size + 1) root none) c).map
        fun r => r.2.program r.1 := by
    rw [Compiler.compile, Compiler.compileSection, CompileContext.table_ordered, outcome]
    rcases (Compiler.compileWithin (ctx.ordered order) (ctx.table.size + 1) root none).run c with
      ⟨_ | _, _⟩ <;> rfl
  rw [hcompile, hcompile]
  exact hrun.map fun h => ⟨h.1, h.2.store, h.2.sections, h.2.warnings⟩

end LevelBundle
