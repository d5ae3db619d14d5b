/-
  LevelBundle — the lines of a text.

  * `lines_induction`: a text is cut after its first line feed, and the rest is a text again.
  * `Origin.Selects`: an origin tells which line of a text it is about, by its number and by
    the bytes it takes; `SourceMap.Shows`: the text is one of those registered.
  * `Selects.line_eq_iff`: the number is that of the line unless `2 ^ 32 - 1` lines or more stand
    before it.
  * `shows_of_mem_ofText`: the origins of the lines of a registered text are shown.
-/
import LevelBundle.Proofs.ScriptSize
import Mathlib.Data.List.DropRight

namespace LevelBundle

namespace SourceLine

variable {b cs before : List Char}

/-! ## Cutting a text -/

theorem pieces_break (hb : '\n' ∉ b) (rest : List Char) :
    pieces (b ++ '\n' :: rest) = (b ++ ['\n']) :: pieces rest := by
  induction b with
  | nil => rfl
  | cons c b ih =>
    simp only [List.mem_cons, not_or] at hb
    obtain ⟨hc, hb⟩ := hb
    simp [pieces, Ne.symm hc, ih hb]

theorem pieces_last (hb : '\n' ∉ b) (hne : b ≠ []) : pieces b = [b] := by
  induction b with
  | nil => exact absurd rfl hne
  | cons c b ih =>
    simp only [List.mem_cons, not_or] at hb
    obtain ⟨hc, hb⟩ := hb
    cases b with
    | nil => simp [pieces, Ne.symm hc]
    | cons d b => rw [pieces, if_neg (Ne.symm hc), ih hb (List.cons_ne_nil d b)]

/-- **Line by line.**  A text is empty, or a line without an end, or a line and a text. -/
@[elab_as_elim] theorem lines_induction {motive : List Char → Prop} (nil : motive [])
    (last : ∀ b, '\n' ∉ b → b ≠ [] → motive b)
    (line : ∀ b rest, '\n' ∉ b → motive rest → motive (b ++ '\n' :: rest)) (cs : List Char) :
    motive cs := by
  induction hn : cs.length using Nat.strong_induction_on generalizing cs with
  | _ n ih =>
    by_cases hmem : '\n' ∈ cs
    · obtain ⟨b, rest, rfl, hb⟩ := List.eq_append_cons_of_mem hmem
      refine line b rest hb (ih rest.length ?_ rest rfl)
      rw [← hn, List.length_append, List.length_cons]
      omega
    · by_cases hne : cs = []
      · exact hne ▸ nil
      · exact last cs hmem hne

/-! ## Line endings -/

/-- The line endings that are left out of a line. -/
def isBreak (c : Char) : Bool := c = '\n' || c = '\r'

theorem dropEndWhile_concat (p : Char → Bool) (cs : List Char) (c : Char) :
    Text.dropEndWhile p (cs ++ [c]) = if p c then Text.dropEndWhile p cs else cs ++ [c] :=
  List.rdropWhile_concat p cs c

/-- Without its line feed, a line is a text and carriage returns. -/
theorem eq_append_returns (hb : '\n' ∉ b) : ∃ text n, b = text ++ List.replicate n '\r' ∧
    text.getLast? ≠ some '\r' ∧ Text.dropEndWhile isBreak b = text := by
  induction b using List.reverseRecOn with
  | nil => exact ⟨[], 0, rfl, nofun, rfl⟩
  | append_singleton b c ih =>
    simp only [List.mem_append, List.mem_singleton, not_or] at hb
    by_cases hc : c = '\r'
    · obtain ⟨text, n, hsplit, hlast, htext⟩ := ih hb.1
      refine ⟨text, n + 1, ?_, hlast, ?_⟩
      · rw [hsplit, List.append_assoc, List.replicate_succ', hc]
      · rw [dropEndWhile_concat, if_pos (by simp [isBreak, hc]), htext]
    · refine ⟨b ++ [c], 0, (List.append_nil _).symm, ?_, ?_⟩
      · simp [hc]
      · rw [dropEndWhile_concat, if_neg (by simp [isBreak, hc, Ne.symm hb.2])]

end SourceLine

/-! ## The line of an origin -/

/-- An origin is about the text `line` between two others; behind it there is a line ending, which
    only the end of the whole may lack.  Its number is counted in words. -/
structure Origin.Selects (o : Origin) (before line ending after : List Char) : Prop where
  start : o.start = byteLength before
  stop : o.stop = byteLength (before ++ line)
  number : o.line.toNat = (before.count '\n' + 1) % 2 ^ 32
  opens : before = [] ∨ before.getLast? = some '\n'
  whole : '\n' ∉ line ∧ line.getLast? ≠ some '\r'
  ends : (∃ n, ending = List.replicate n '\r' ++ ['\n']) ∨
    after = [] ∧ ∃ n, ending = List.replicate n '\r'
  nonempty : line ++ ending ≠ []

/-- **The number of a line** is right unless the count has passed the greatest word. -/
theorem Origin.Selects.line_eq_iff {o : Origin} {before line ending after : List Char}
    (h : o.Selects before line ending after) :
    o.line.toNat = before.count '\n' + 1 ↔ before.count '\n' + 1 < 2 ^ 32 := by
  rw [h.number]
  exact Nat.mod_eq_iff_lt (by decide)

/-- An origin is about a line of a registered text. -/
def SourceMap.Shows (m : SourceMap) (o : Origin) : Prop :=
  ∃ source, m.sources[o.file]? = some source ∧ source.name = o.path.text ∧
    ∃ before line ending after, source.text.toList = before ++ line ++ ending ++ after ∧
      o.Selects before line ending after

namespace SourceLine

variable {b cs before : List Char} {l : SourceLine} {file : ℕ} {path : Path}

theorem selects_of_mem_ofPieces (file : ℕ) (path : Path)
    (hbefore : before = [] ∨ before.getLast? = some '\n')
    (h : l ∈ ofPieces (before.count '\n' + 1).toUInt32 (byteLength before) (pieces cs)) :
    ∃ front line ending after, before ++ cs = front ++ line ++ ending ++ after ∧
      (l.origin file path).Selects front line ending after := by
  induction cs using lines_induction generalizing before with
  | nil => cases h
  | last b hb hne =>
    obtain ⟨text, n, hsplit, hlast, htext⟩ := eq_append_returns hb
    rw [pieces_last hb hne, ofPieces, ofPieces, List.mem_singleton] at h
    have hwhole : '\n' ∉ text := fun hmem => hb (hsplit ▸ List.mem_append_left _ hmem)
    refine ⟨before, text, List.replicate n '\r', [], by simp [hsplit], ?_⟩
    subst h
    refine ⟨rfl, ?_, UInt32.toNat_ofNat', hbefore, ⟨hwhole, hlast⟩, Or.inr ⟨rfl, n, rfl⟩, hsplit ▸ hne⟩
    rw [byteLength_append, ← htext]
    rfl
  | line b rest hb ih =>
    rw [pieces_break hb, ofPieces, List.mem_cons] at h
    rcases h with rfl | h
    · obtain ⟨text, n, hsplit, hlast, htext⟩ := eq_append_returns hb
      have hwhole : '\n' ∉ text := fun hmem => hb (hsplit ▸ List.mem_append_left _ hmem)
      have hdrop : Text.dropEndWhile isBreak (b ++ ['\n']) = text := by
        rw [dropEndWhile_concat, if_pos (by decide), htext]
      refine ⟨before, text, List.replicate n '\r' ++ ['\n'], rest, by simp [hsplit], ?_⟩
      refine ⟨rfl, ?_, UInt32.toNat_ofNat', hbefore, ⟨hwhole, hlast⟩, Or.inl ⟨n, rfl⟩, by simp⟩
      rw [byteLength_append, ← hdrop]
      rfl
    · -- the rest of the text begins behind the line feed
      have hcount : (before ++ b ++ ['\n']).count '\n' = before.count '\n' + 1 := by
        simp [List.count_eq_zero_of_not_mem hb]
      have hlength : byteLength (before ++ b ++ ['\n']) =
          byteLength before + byteLength (b ++ ['\n']) := by
        rw [List.append_assoc, byteLength_append]
      have hnext : (before.count '\n' + 1).toUInt32 + 1 = (before.count '\n' + 1 + 1).toUInt32 :=
        (UInt32.ofNat_add _ _).symm
      rw [hnext, ← hcount, ← hlength] at h
      obtain ⟨front, line, ending, after, heq, hs⟩ := ih (Or.inr List.getLast?_concat) h
      refine ⟨front, line, ending, after, ?_, hs⟩
      rw [← heq]
      simp

/-- **The origin of a line** is about that line of its text. -/
theorem shows_of_mem_ofText {m : SourceMap} {text : String}
    (hm : m.sources[file]? = some ⟨path.text, text⟩) (h : l ∈ ofText text) :
    m.Shows (l.origin file path) := by
  obtain ⟨front, line, ending, after, htext, hs⟩ :=
    selects_of_mem_ofPieces file path (Or.inl rfl) h
  exact ⟨_, hm, rfl, front, line, ending, after, htext, hs⟩

end SourceLine

theorem SourceMap.Shows.add {m : SourceMap} {o : Origin} (h : m.Shows o) (name text : String) :
    (m.add name text).Shows o := by
  obtain ⟨source, hsource, hrest⟩ := h
  refine ⟨source, ?_, hrest⟩
  have hlt := (Array.getElem?_eq_some_iff.1 hsource).1
  rw [SourceMap.add, Array.getElem?_push_lt hlt, ← hsource, Array.getElem?_eq_getElem hlt]

end LevelBundle
