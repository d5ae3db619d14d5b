/-
  LevelBundle — paths that are text.

  A path is shown as text.  A path that is text is shown as it is, so no two of them look the
  same.  A text is cut at separators into texts, so all files that a script refers to are named
  by text if the script itself and the directories where files are searched are.

  * `Utf8.lossy_encode`: text is shown as it is.
  * `Path.IsText`: a path is text; `text_ofText`, `IsText.text_inj`: it is told by how it is
    shown.
  * `IsText.normalize`, `IsText.join`, `IsText.directory`: the paths made from it are text.
  * `CompileContext.Textual`: scripts and directories are named by text; `Textual.refers`: so
    are the files that lines refer to.
-/
import LevelBundle.Proofs.FileLines
import LevelBundle.Proofs.Names
import LevelBundle.Proofs.Paths
import Mathlib.Data.List.Induction

namespace LevelBundle

namespace Utf8

variable {as bs : Bytes}

/-! ## Showing text -/

theorem char?_append (c : Char) (rest : Bytes) :
    char? (String.utf8EncodeChar c ++ rest) = some c := by
  have hlen : (String.utf8EncodeChar c).length ≤ 4 := by
    rw [String.length_utf8EncodeChar]
    exact c.utf8Size_le_four
  have htake : (String.utf8EncodeChar c ++ rest).take 4 =
      String.utf8EncodeChar c ++ rest.take (4 - (String.utf8EncodeChar c).length) := by
    rw [List.take_append, List.take_of_length_le hlen]
  have hbytes (after : Bytes) : (⟨(String.utf8EncodeChar c ++ after).toArray⟩ : ByteArray) =
      [c].utf8Encode ++ ⟨after.toArray⟩ := by
    ext1
    simp [List.utf8Encode]
  rw [char?, htake, hbytes, List.utf8DecodeChar?_utf8Encode_singleton_append]

theorem lossyFrom_length (as bs : Bytes) : lossyFrom as.length (as ++ bs) = lossyFrom 0 bs := by
  induction as with
  | nil => rfl
  | cons a as ih => rw [List.length_cons, List.cons_append, lossyFrom, ih]

theorem lossyFrom_append (c : Char) (rest : Bytes) :
    lossyFrom 0 (String.utf8EncodeChar c ++ rest) = c :: lossyFrom 0 rest := by
  have hchar := char?_append c rest
  have hlen : (String.utf8EncodeChar c).length = c.utf8Size := String.length_utf8EncodeChar c
  have hpos := c.utf8Size_pos
  cases hc : String.utf8EncodeChar c with
  | nil =>
    rw [hc, List.length_nil] at hlen
    omega
  | cons b tail =>
    rw [hc, List.cons_append] at hchar
    rw [hc, List.length_cons] at hlen
    rw [List.cons_append, lossyFrom]
    simp only [hchar]
    rw [← hlen, Nat.add_sub_cancel, lossyFrom_length]

/-- **Text is shown as it is.** -/
theorem lossy_encode (text : String) : lossy (encode text) = text := by
  have hchars (cs : List Char) : lossyFrom 0 (cs.flatMap String.utf8EncodeChar) = cs := by
    induction cs with
    | nil => rfl
    | cons c cs ih => rw [List.flatMap_cons, lossyFrom_append, ih]
  rw [lossy, encode_eq, hchars, String.ofList_toList]

/-! ## Bytes that are text -/

/-- Bytes that are text. -/
def IsText (bytes : Bytes) : Prop := ∃ text, encode text = bytes

theorem isText_flatMap (cs : List Char) : IsText (cs.flatMap String.utf8EncodeChar) :=
  ⟨String.ofList cs, encode_ofList cs⟩

theorem IsText.append (ha : IsText as) (hb : IsText bs) : IsText (as ++ bs) := by
  obtain ⟨a, rfl⟩ := ha
  obtain ⟨b, rfl⟩ := hb
  exact ⟨a ++ b, by rw [encode_eq, String.toList_append, List.flatMap_append, encode_eq, encode_eq]⟩

end Utf8

namespace Path

open Utf8 (IsText)

variable {p q : Path} {pieces : List Bytes}

/-! ## The pieces of a text -/

theorem segments_append_of_not_mem {as : Bytes} (h : separator ∉ as) (bs : Bytes) :
    ∃ first rest, segments bs = first :: rest ∧ segments (as ++ bs) = (as ++ first) :: rest := by
  induction as with
  | nil =>
    have hne := segments_eq_splitOn bs ▸ List.splitOn_ne_nil separator bs
    obtain ⟨first, rest, hs⟩ := List.exists_cons_of_ne_nil hne
    exact ⟨first, rest, hs, hs⟩
  | cons a as ih =>
    obtain ⟨ha, has⟩ := not_or.1 (mt List.mem_cons.2 h)
    obtain ⟨first, rest, hs, happend⟩ := ih has
    refine ⟨first, rest, hs, ?_⟩
    rw [List.cons_append, segments, if_neg (Ne.symm ha), happend]
    rfl

/-- **A text is cut into texts.** -/
theorem isText_of_mem_segments {bs : Bytes} (h : IsText bs) {piece : Bytes}
    (hp : piece ∈ segments bs) : IsText piece := by
  obtain ⟨text, rfl⟩ := h
  rw [Utf8.encode_eq] at hp
  generalize text.toList = cs at hp
  induction cs generalizing piece with
  | nil =>
    rw [List.mem_singleton.1 hp]
    exact Utf8.isText_flatMap []
  | cons c cs ih =>
    rw [List.flatMap_cons] at hp
    by_cases hc : c = '/'
    · subst hc
      rcases List.mem_cons.1 (show piece ∈ [] :: segments _ from hp) with rfl | hp
      · exact Utf8.isText_flatMap []
      · exact ih hp
    · have hnot : separator ∉ String.utf8EncodeChar c := fun hmem =>
        hc (Utf8.eq_ofNat_of_mem hmem (by decide))
      obtain ⟨first, rest, hs, happend⟩ :=
        segments_append_of_not_mem hnot (cs.flatMap String.utf8EncodeChar)
      rw [hs] at ih
      rw [happend, List.mem_cons] at hp
      rcases hp with rfl | hp
      · have hchar := Utf8.isText_flatMap [c]
        rw [List.flatMap_singleton] at hchar
        exact hchar.append (ih List.mem_cons_self)
      · exact ih (List.mem_cons_of_mem _ hp)

theorem isText_intercalate (h : ∀ piece ∈ pieces, IsText piece) :
    IsText ([separator].intercalate pieces) := by
  induction pieces with
  | nil => exact Utf8.isText_flatMap []
  | cons piece pieces ih =>
    obtain ⟨hpiece, hpieces⟩ := List.forall_mem_cons.1 h
    cases pieces with
    | nil => simpa [List.intercalate] using hpiece
    | cons next rest =>
      have hslash : IsText [separator] := Utf8.isText_flatMap ['/']
      have hall : [separator].intercalate (piece :: next :: rest) =
          piece ++ ([separator] ++ [separator].intercalate (next :: rest)) := by
        simp [List.intercalate]
      rw [hall]
      exact hpiece.append (hslash.append (ih hpieces))

theorem mem_of_mem_trimPieces {piece : Bytes} (h : piece ∈ trimPieces pieces) : piece ∈ pieces := by
  cases pieces with
  | nil => exact h
  | cons first rest =>
    refine (List.mem_cons.1 h).elim (fun hp => hp ▸ List.mem_cons_self) fun hp => ?_
    rw [List.mem_reverse] at hp
    exact List.mem_cons_of_mem _ (List.mem_reverse.1 (List.dropWhile_subset _ hp))

/-! ## Paths that are text -/

/-- A path that is text. -/
protected def IsText (p : Path) : Prop := Utf8.IsText p.bytes

theorem isText_ofText (text : String) : (ofText text).IsText := ⟨text, rfl⟩

/-- A path that a text spells is shown as the text. -/
theorem text_ofText (text : String) : (ofText text).text = text := Utf8.lossy_encode text

/-- **A path that is text is told by how it is shown.** -/
theorem IsText.text_inj (hp : p.IsText) (hq : q.IsText) (h : p.text = q.text) : p = q := by
  obtain ⟨s, hs⟩ := hp
  obtain ⟨t, ht⟩ := hq
  obtain rfl : p = ofText s := congrArg Path.mk hs.symm
  obtain rfl : q = ofText t := congrArg Path.mk ht.symm
  rw [text_ofText, text_ofText] at h
  rw [h]

theorem isText_ofPieces (h : ∀ piece ∈ pieces, IsText piece) : (ofPieces pieces).IsText := by
  rw [ofPieces]
  split_ifs
  · exact Utf8.isText_flatMap ['/']
  · exact isText_intercalate h

theorem IsText.join (hp : p.IsText) (hq : q.IsText) : (p.join q).IsText := by
  rw [Path.join]
  split_ifs
  · exact hq
  · exact hp.append hq
  · have hslash : IsText [separator] := Utf8.isText_flatMap ['/']
    exact hp.append (hslash.append hq)

theorem IsText.directory (h : p.IsText) : p.directory.IsText := by
  have hpieces (piece : Bytes) (hp : piece ∈ trimPieces (segments p.bytes)) : IsText piece :=
    isText_of_mem_segments h (mem_of_mem_trimPieces hp)
  have hempty : Path.IsText ⟨[]⟩ := Utf8.isText_flatMap []
  rw [Path.directory, parent?]
  split
  · exact hempty
  · exact hempty
  · exact hempty
  · refine isText_ofPieces fun piece hp => hpieces piece ?_
    exact List.dropLast_subset _ (mem_of_mem_trimPieces hp)

/-- The names on the way to a location are parts of the path that leads there. -/
theorem mem_names_foldl {parts : List Component} {loc : Location} {name : Bytes}
    (h : name ∈ (parts.foldl Location.step loc).names) : name ∈ loc.names ∨ .name name ∈ parts := by
  induction parts generalizing loc with
  | nil => exact Or.inl h
  | cons part parts ih =>
    rcases ih h with hname | hname
    · cases part with
      | root => cases hname
      | current => exact Or.inl hname
      | parent =>
        rw [Location.step] at hname
        split_ifs at hname
        · exact Or.inl (List.dropLast_subset _ hname)
        · exact Or.inl hname
        · exact Or.inl hname
      | name last =>
        rcases List.mem_append.1 hname with hname | hname
        · exact Or.inl hname
        · exact Or.inr (List.mem_singleton.1 hname ▸ List.mem_cons_self)
    · exact Or.inr (List.mem_cons_of_mem _ hname)

theorem IsText.normalize (h : p.IsText) : p.normalize.IsText := by
  have hnames (name : Bytes) (hname : name ∈ p.location.names) : IsText name := by
    rw [location_eq] at hname
    rcases mem_names_foldl hname with hname | hname
    · cases hname
    · obtain ⟨piece, hpiece, hread⟩ := List.mem_filterMap.1 hname
      rw [componentOf?] at hread
      split_ifs at hread
      · cases hread
      · cases hread
        exact isText_of_mem_segments h hpiece
  have hdots : IsText [dot, dot] := Utf8.isText_flatMap ['.', '.']
  have htail : IsText p.location.tail := by
    refine isText_intercalate fun piece hp => ?_
    rcases List.mem_append.1 hp with hp | hp
    · exact List.eq_of_mem_replicate hp ▸ hdots
    · exact hnames piece hp
  have hslash : IsText [separator] := Utf8.isText_flatMap ['/']
  rw [Path.normalize, Path.IsText, Location.bytes_path]
  split_ifs
  · exact hslash.append htail
  · exact htail

end Path

/-! ## Scripts that are named by text -/

/-- The scripts that sections stand in, and the directories where files are searched, are named
    by text. -/
structure CompileContext.Textual (ctx : CompileContext) : Prop where
  search : ∀ dir ∈ ctx.search, dir.IsText
  scripts : ∀ script ∈ ctx.table.sections, ∀ line ∈ script.lines, line.origin.path.IsText

theorem isText_baseOf {lines : List ScriptLine} (h : ∀ line ∈ lines, line.origin.path.IsText)
    {dir : Path} (hdir : baseOf lines = some dir) : dir.IsText := by
  induction lines using List.reverseRecOn with
  | nil => cases hdir
  | append_singleton lines line ih =>
    rw [baseOf_append, Option.or_eq_some_iff] at hdir
    rcases hdir with hdir | ⟨-, hdir⟩
    · have horigin := h line (by simp)
      rw [ScriptLine.directory?] at hdir
      split at hdir
      · obtain ⟨text, -, rfl⟩ := Option.map_eq_some_iff.1 hdir
        exact (horigin.directory.join (Path.isText_ofText text)).normalize
      · cases hdir
    · exact ih (fun l hl => h l (List.mem_append_left _ hl)) hdir

/-- **The files that lines refer to** are named by text as well. -/
theorem CompileContext.Textual.refers {ctx : CompileContext} (h : ctx.Textual) {path : Path}
    (hr : ctx.Refers path) : path.IsText := by
  obtain ⟨script, hs, before, line, after, hlines, -, text, -, hpath⟩ := hr
  have horigin (l : ScriptLine) (hl : l ∈ before ++ line :: after) : l.origin.path.IsText :=
    h.scripts script hs l (hlines ▸ hl)
  have htext := Path.isText_ofText text
  have hbase : ((baseOf before).getD line.origin.directory).IsText := by
    cases hb : baseOf before with
    | none => exact (horigin line (by simp)).directory
    | some dir => exact isText_baseOf (fun l hl => horigin l (List.mem_append_left _ hl)) hb
  rw [Compiler.resolve] at hpath
  split at hpath
  · rename_i found hfound
    cases hpath
    have hmem := List.mem_of_find?_eq_some hfound
    rw [Compiler.candidates] at hmem
    split_ifs at hmem
    · rw [List.mem_singleton.1 hmem]
      exact htext.normalize
    · obtain ⟨dir, hdir, rfl⟩ := List.mem_map.1 hmem
      refine Path.IsText.normalize (Path.IsText.join ?_ htext)
      rcases List.mem_cons.1 hdir with rfl | hdir
      · exact hbase
      · exact h.search dir hdir
  · cases hpath

end LevelBundle
