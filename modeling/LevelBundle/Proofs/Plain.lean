/-
  LevelBundle — errors about the arguments of a line.

  What is wrong with the arguments of a line can be told from the line and the files.  Each
  such error names the line, and none is about a section that leads back to itself.
-/
import LevelBundle.Program.Compiler
import LevelBundle.Proofs.Steps

namespace LevelBundle

/-- An error about a section that leads back to itself. -/
def BuildError.Kind.isCyclic : BuildError.Kind → Bool
  | .cyclicSection _ | .cyclicInsert _ => true
  | _ => false

/-- A computation whose errors name the line at fault and are not about a cycle. -/
structure Plain (origin : Origin) {α : Type} (x : Except BuildError α) : Prop where
  acyclic : ∀ {e}, x = .error e → e.kind.isCyclic = false
  blames : ∀ {e}, x = .error e → e.origin = some origin

namespace Plain

variable {α β : Type} {origin : Origin}

theorem ok {a : α} : Plain origin (.ok a) := ⟨nofun, nofun⟩

theorem error {kind : BuildError.Kind} (h : kind.isCyclic = false) :
    Plain origin (.error (.at kind origin) : Except _ α) := by
  constructor
  · rintro _ ⟨⟩
    exact h
  · rintro _ ⟨⟩
    rfl

theorem bind {x : Except BuildError α} {f : α → Except BuildError β} (h : Plain origin x)
    (hf : ∀ a, Plain origin (f a)) : Plain origin (x >>= f) := by
  constructor
  · intro e he
    rcases bind_eq_error.1 he with he | ⟨a, -, he⟩
    · exact h.acyclic he
    · exact (hf a).acyclic he
  · intro e he
    rcases bind_eq_error.1 he with he | ⟨a, -, he⟩
    · exact h.blames he
    · exact (hf a).blames he

theorem mapM {f : α → Except BuildError β} (h : ∀ a, Plain origin (f a)) :
    ∀ l : List α, Plain origin (l.mapM f)
  | [] => ok
  | a :: l => by
    rw [List.mapM_cons]
    exact (h a).bind fun _ => (mapM h l).bind fun _ => ok

end Plain

namespace ScriptLine

variable (line : ScriptLine)

theorem plain_expectArguments (least : ℕ) (most : Option ℕ) :
    Plain line.origin (line.expectArguments least most) := by
  unfold expectArguments
  simp only
  split_ifs
  · exact .error rfl
  split
  · split_ifs
    · exact .error rfl
    · exact .ok
  · exact .ok

theorem plain_textAt (i : ℕ) : Plain line.origin (line.textAt i) := by
  unfold textAt
  split
  · exact .ok
  · exact .error rfl

theorem plain_intAt (i : ℕ) (low high : ℤ) : Plain line.origin (line.intAt i low high) := by
  unfold intAt
  split
  · exact .error rfl
  split_ifs
  · exact .error rfl
  · exact .ok

theorem plain_allText : Plain line.origin line.allText :=
  (line.plain_expectArguments 1 none).bind fun _ => (Plain.mapM line.plain_textAt _).bind
    fun _ => .ok

theorem plain_allNumbers (keyword : Keyword) (order : ByteOrder) :
    Plain line.origin (line.allNumbers keyword order) := by
  have key (i : ℕ) : Plain line.origin (line.numberBytes keyword order i) := by
    unfold numberBytes
    split
    · exact (line.plain_intAt i _ _).bind fun _ => .ok
    · split
      · exact .ok
      · exact .error rfl
  exact (line.plain_expectArguments 1 none).bind fun _ => (Plain.mapM key _).bind fun _ => .ok

end ScriptLine

namespace Compiler

variable {ctx : CompileContext} {origin : Origin}

theorem plain_checkAlignment (keyword : String) (a : UInt32) :
    Plain origin (checkAlignment ctx keyword a origin) := by
  unfold checkAlignment
  split_ifs
  · exact .error rfl
  · exact .ok
  · exact .error rfl

theorem plain_fileAlignment (line : ScriptLine) : Plain line.origin (fileAlignment ctx line) := by
  unfold fileAlignment
  split_ifs
  · exact .ok
  · exact (line.plain_intAt 1 1 _).bind fun _ => (plain_checkAlignment _ _).bind fun _ => .ok

theorem plain_resolve (base : Option Path) (text : String) :
    Plain origin (resolve ctx base origin text) := by
  unfold resolve
  split
  · exact .ok
  · exact .error rfl

end Compiler

end LevelBundle
