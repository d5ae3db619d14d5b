/-
  LevelBundle — the sections that sections name.

  A `level` line refers to another section, and an `insert` line takes in its parts.  Both
  name a section, which has to be compiled first.

  * `SectionTable.Names t n m`: a line of the section `n` names the section `m`, and
    `SectionTable.Inserts t n m`: an `insert` line does.
  * `SectionTable.Reaches t n m`: such lines lead from `n` to `m`.
  * `SectionTable.Grounded t n`: the section `n` is defined, and the sections that it names
    are grounded.  Nothing undefined and no cycle can be reached from it
    (`Grounded.defined`, `Grounded.acyclic`).
-/
import LevelBundle.Proofs.FileLines
import Mathlib.Logic.Relation

namespace LevelBundle

/-- The text of the only argument of a line. -/
def ScriptLine.only? (line : ScriptLine) : Option String :=
  match line.arguments with
  | [a] => a.text?
  | _ => none

/-- A line with this keyword names a section. -/
def ScriptLine.Names (line : ScriptLine) (keyword : Keyword) (target : String) : Prop :=
  Keyword.ofName? line.keyword = some keyword ∧ line.only? = some target

theorem ScriptLine.only?_eq {line : ScriptLine} {text : String} {u : Unit}
    (hn : line.expectArguments 1 (some 1) = .ok u) (ht : line.textAt 0 = .ok text) :
    line.only? = some text := by
  obtain ⟨a, ha, htext⟩ := Compiler.exists_argument hn ht
  rw [only?, ha]
  exact htext

namespace SectionTable

/-- A line of a section refers to another section or takes in its parts. -/
def Names (t : SectionTable) (name target : String) : Prop :=
  ∃ script, t.find? name = some script ∧
    ∃ line ∈ script.lines, line.Names .level target ∨ line.Names .insert target

/-- A line of a section takes in the parts of another section. -/
def Inserts (t : SectionTable) (name target : String) : Prop :=
  ∃ script, t.find? name = some script ∧ ∃ line ∈ script.lines, line.Names .insert target

/-- Lines lead from a section to another, or to itself. -/
def Reaches (t : SectionTable) : String → String → Prop := Relation.ReflTransGen t.Names

/-- Lines lead from a section back to it. -/
def Loops (t : SectionTable) (name : String) : Prop := Relation.TransGen t.Names name name

/-- A section is defined, and so is all that it leads to, which has an end. -/
inductive Grounded (t : SectionTable) : String → Prop
  | intro {name : String} {script : ScriptSection} : t.find? name = some script →
    (∀ target, t.Names name target → Grounded t target) → Grounded t name

variable {t : SectionTable} {name target : String}

theorem Inserts.names (h : t.Inserts name target) : t.Names name target := by
  obtain ⟨script, hs, line, hl, hn⟩ := h
  exact ⟨script, hs, line, hl, Or.inr hn⟩

theorem names_of_level {script : ScriptSection} {line : ScriptLine} {u : Unit}
    (hs : t.find? script.name = some script) (hl : line ∈ script.lines)
    (hk : Keyword.ofName? line.keyword = some .level) (hn : line.expectArguments 1 (some 1) = .ok u)
    (ht : line.textAt 0 = .ok target) : t.Names script.name target :=
  ⟨script, hs, line, hl, Or.inl ⟨hk, ScriptLine.only?_eq hn ht⟩⟩

theorem inserts_of_insert {script : ScriptSection} {line : ScriptLine} {u : Unit}
    (hs : t.find? script.name = some script) (hl : line ∈ script.lines)
    (hk : Keyword.ofName? line.keyword = some .insert)
    (hn : line.expectArguments 1 (some 1) = .ok u) (ht : line.textAt 0 = .ok target) :
    t.Inserts script.name target :=
  ⟨script, hs, line, hl, hk, ScriptLine.only?_eq hn ht⟩

/-! ## Grounded sections -/

theorem Grounded.defined (h : t.Grounded name) : ∃ script, t.find? name = some script := by
  cases h with
  | intro hs _ => exact ⟨_, hs⟩

theorem Grounded.names (h : t.Grounded name) (hn : t.Names name target) : t.Grounded target := by
  cases h with
  | intro _ hall => exact hall target hn

theorem Grounded.reaches (h : t.Grounded name) (hr : t.Reaches name target) :
    t.Grounded target := by
  induction hr with
  | refl => exact h
  | tail _ hn ih => exact ih.names hn

/-- **A grounded section does not lead back to itself.** -/
theorem Grounded.acyclic (h : t.Grounded name) : ¬ t.Loops name := by
  induction h with
  | intro _ _ ih =>
    intro hloop
    -- the first section on the way round has a cycle as well
    obtain ⟨next, hn, hback⟩ := Relation.TransGen.head'_iff.1 hloop
    exact ih next hn (.tail' hback hn)

end SectionTable

end LevelBundle
