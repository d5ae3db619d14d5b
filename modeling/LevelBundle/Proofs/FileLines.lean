/-
  LevelBundle — the lines that ask for files.

  A `file` or `data` line names a file, perhaps with an alignment.  The name is looked up
  from the directory of the last `path` line before it in the section, or else from that
  of the script, and then from where files are searched.

  * `baseOf`: the directory that some lines leave set.
  * `ScriptSection.Asks ctx script path a`: a line of the section asks for the file at
    `path` with the alignment `a`.
  * `CompileContext.Refers ctx path`: a line of the script refers to the file at `path`;
    `CompileContext.Holds ctx name bytes`: there is one that is shown as `name` and has the
    contents `bytes`.
  * `base_compileLine`: this is the directory that compiling keeps.
  * `fileAlignment_eq_ok`: this is the alignment that compiling reads.
-/
import LevelBundle.Proofs.Compiling

namespace LevelBundle

/-- The directory that a `path` line sets. -/
def ScriptLine.directory? (line : ScriptLine) : Option Path :=
  match Keyword.ofName? line.keyword, line.arguments with
  | some .path, [target] =>
    target.text?.map fun text => (line.origin.directory.join (.ofText text)).normalize
  | _, _ => none

/-- The directory that some lines leave set: that of the last `path` line. -/
def baseOf (lines : List ScriptLine) : Option Path :=
  lines.foldl (fun base line => line.directory?.or base) none

/-- A line asks for a file, with an alignment, where some lines stand before it. -/
structure ScriptLine.Asks (ctx : CompileContext) (before : List ScriptLine) (line : ScriptLine)
    (path : Path) (a : ℕ) : Prop where
  keyword : Keyword.ofName? line.keyword = some .file
  arguments : ∃ target number text, line.arguments = [target, number] ∧
    target.text? = some text ∧ number.int? = some (a : ℤ) ∧
    Compiler.resolve ctx (baseOf before) line.origin text = .ok path

/-- A line of a section asks for a file, with an alignment. -/
def ScriptSection.Asks (ctx : CompileContext) (script : ScriptSection) (path : Path) (a : ℕ) :
    Prop :=
  ∃ before line after, script.lines = before ++ line :: after ∧ line.Asks ctx before path a

/-- A line of the script asks for a file, with an alignment. -/
def CompileContext.Asks (ctx : CompileContext) (path : Path) (a : ℕ) : Prop :=
  ∃ script ∈ ctx.table.sections, script.Asks ctx path a

/-- A line refers to a file, where some lines stand before it. -/
structure ScriptLine.Refers (ctx : CompileContext) (before : List ScriptLine) (line : ScriptLine)
    (path : Path) : Prop where
  keyword : Keyword.ofName? line.keyword = some .file
  path : ∃ text, line.textAt 0 = .ok text ∧
    Compiler.resolve ctx (baseOf before) line.origin text = .ok path

/-- A line of the script refers to a file. -/
def CompileContext.Refers (ctx : CompileContext) (path : Path) : Prop :=
  ∃ script ∈ ctx.table.sections, ∃ before line after, script.lines = before ++ line :: after ∧
    line.Refers ctx before path

/-- Of the files that lines of the script refer to and that are shown under a name, one has these
    contents. -/
def CompileContext.Holds (ctx : CompileContext) (name : String) (bytes : Bytes) : Prop :=
  ∃ path, path.text = name ∧ ctx.Refers path ∧ ctx.files.read path = .ok bytes

theorem baseOf_append (lines : List ScriptLine) (line : ScriptLine) :
    baseOf (lines ++ [line]) = line.directory?.or (baseOf lines) := by
  rw [baseOf, List.foldl_append]
  rfl

theorem ScriptLine.directory?_eq_none {line : ScriptLine} {keyword : Keyword}
    (hk : Keyword.ofName? line.keyword = some keyword) (h : keyword ≠ .path) :
    line.directory? = none := by
  rw [directory?, hk]
  split
  · simp_all
  · rfl

theorem ScriptLine.directory?_eq_some {line : ScriptLine} {dir : String} {u : Unit}
    (hk : Keyword.ofName? line.keyword = some .path) (hn : line.expectArguments 1 (some 1) = .ok u)
    (ht : line.textAt 0 = .ok dir) :
    line.directory? = some (line.origin.directory.join (.ofText dir)).normalize := by
  obtain ⟨a, ha, htext⟩ := Compiler.exists_argument hn ht
  rw [directory?, hk, ha]
  simp only [htext, Option.map_some]

namespace Compiler

variable {ctx : CompileContext} {c c' : Compiler} {d d' : Draft}

/-! ## Lines -/

theorem base_foldl_add (parts : List Part) (d : Draft) : (parts.foldl Draft.add d).base = d.base := by
  induction parts generalizing d with
  | nil => rfl
  | cons p parts ih => exact ih (d.add p)

/-- **Compiling keeps the directory** that the lines so far leave set. -/
theorem base_compileLine {visit : Visit} {line : ScriptLine}
    (h : Runs (compileLine ctx visit d line) c d' c') : d'.base = line.directory?.or d.base := by
  obtain ⟨keyword, hk, hrun⟩ := runs_compileLine_cases h
  -- all lines but a `path` line add parts, if anything
  have key {p : Part} {c c' : Compiler} (hne : keyword ≠ .path)
      (h : Runs (push ctx d p line.origin) c d' c') : d'.base = line.directory?.or d.base := by
    obtain ⟨-, rfl⟩ := runs_push_eq h
    rw [ScriptLine.directory?_eq_none hk hne]
    rfl
  cases hrun with
  | path hn ht =>
    rw [ScriptLine.directory?_eq_some hk hn ht]
    rfl
  | insert _ _ _ hadd =>
    obtain ⟨-, rfl⟩ := runs_splice_eq hadd
    rw [base_foldl_add, ScriptLine.directory?_eq_none hk (by decide)]
    rfl
  | numbers hwidth _ hadd => exact key (by rintro rfl; cases hwidth) hadd
  | file _ _ _ _ _ hadd | level _ _ _ hadd | load _ _ _ hadd | string _ hadd
  | binc _ _ _ _ hadd | align _ _ hadd | pad _ hadd => exact key (by decide) hadd

/-- **The alignment of a file line** is the second argument. -/
theorem fileAlignment_eq_ok {line : ScriptLine} {r : Option UInt32}
    (hn : line.arguments.length ≤ 2) (h : fileAlignment ctx line = .ok r) {a : ℕ} :
    (∃ target number, line.arguments = [target, number] ∧ number.int? = some (a : ℤ)) ↔
      ∃ x, r = some x ∧ x.toNat = a := by
  unfold fileAlignment at h
  split_ifs at h with hlt
  · obtain rfl := pure_eq_ok.1 h
    constructor
    · rintro ⟨target, number, harg, -⟩
      rw [harg] at hlt
      exact absurd hlt (by simp)
    · rintro ⟨x, hx, -⟩
      cases hx
  · simp only [bind_eq_ok, pure_eq_ok] at h
    obtain ⟨value, hv, b, hb, rfl⟩ := h
    obtain ⟨hget, hlow, hhigh⟩ := intAt_eq_ok hv
    obtain ⟨rfl, -, -⟩ := checkAlignment_eq_ok hb
    obtain ⟨target, number, harg⟩ := List.length_eq_two.1 (show line.arguments.length = 2 by omega)
    have hnumber : number.int? = some value := by simpa [harg] using hget
    have hword : ((UInt32.ofInt value).toNat : ℤ) = value := by
      have := ctx.chunkSize.toNat_lt
      rw [UInt32.ofInt, UInt32.toNat_ofNat']
      omega
    constructor
    · rintro ⟨target', number', harg', hint⟩
      rw [harg'] at harg
      cases harg
      rw [hnumber, Option.some.injEq] at hint
      exact ⟨_, rfl, by omega⟩
    · rintro ⟨x, hx, rfl⟩
      cases hx
      exact ⟨target, number, harg, by rw [hnumber, hword]⟩

end Compiler

end LevelBundle
