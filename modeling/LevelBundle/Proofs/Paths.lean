/-
  LevelBundle — one spelling for each location.

  Where a path leads is worked out part by part, so that a path behind a directory goes on
  from where the directory leads.  The shortest path to a location leads there again.

  * `Path.inner`: the parts of a path but for a mark in front of them; `location_eq`: they tell
    where it leads.
  * `Location.Clean`: what a location that a path leads to is like; `Location.parts`: the parts
    of the shortest path to it (`components_path`, `location_path`).
  * `location_join`: a path behind a directory goes on from where the directory leads.
  * `normalize_lexical`: a location has one spelling, and what is kept under it, or looked for
    from it, is found however it is spelled.
-/
import LevelBundle.Program.Compiler
import Mathlib.Data.List.Basic
import Mathlib.Tactic.Common

namespace LevelBundle

namespace Path

/-! ## Pieces -/

theorem segments_eq_splitOn (bs : Bytes) : segments bs = bs.splitOn separator := by
  induction bs with
  | nil => rfl
  | cons c cs ih =>
    rw [segments, ih, List.splitOn_cons_eq_if_modifyHead]
    by_cases hc : c = separator
    · rw [if_pos hc, if_pos (beq_iff_eq.2 hc)]
    · rw [if_neg hc, if_neg fun h => hc (beq_iff_eq.1 h)]
      cases hs : cs.splitOn separator with
      | nil => exact absurd hs (List.splitOn_ne_nil _ _)
      | cons piece rest => rfl

theorem segments_append (as bs : Bytes) :
    segments (as ++ separator :: bs) = segments as ++ segments bs := by
  simp only [segments_eq_splitOn, List.splitOn_append_cons_self]

theorem not_mem_of_mem_segments {cs piece : Bytes} (h : piece ∈ segments cs) :
    separator ∉ piece := by
  induction cs generalizing piece with
  | nil =>
    rw [segments, List.mem_singleton] at h
    exact h ▸ List.not_mem_nil
  | cons c cs ih =>
    rw [segments] at h
    split_ifs at h with hc
    · rcases List.mem_cons.1 h with rfl | h
      · exact List.not_mem_nil
      · exact ih h
    · have hne := segments_eq_splitOn cs ▸ List.splitOn_ne_nil separator cs
      obtain ⟨first, rest, hs⟩ := List.exists_cons_of_ne_nil hne
      rw [hs] at h ih
      rcases List.mem_cons.1 h with rfl | h
      · exact List.not_mem_cons_of_ne_of_not_mem (Ne.symm hc) (ih List.mem_cons_self)
      · exact ih (List.mem_cons_of_mem _ h)

/-- Bytes that are the name of a part. -/
structure IsName (name : Bytes) : Prop where
  unbroken : separator ∉ name
  reads : componentOf? name = some (.name name)

theorem componentOf?_cases {piece : Bytes} {part : Component}
    (h : componentOf? piece = some part) (hs : separator ∉ piece) :
    part = .parent ∨ ∃ name, part = .name name ∧ IsName name := by
  have hread := h
  rw [componentOf?] at h
  split_ifs at h
  · cases h
    exact Or.inl rfl
  · cases h
    exact Or.inr ⟨piece, rfl, hs, hread⟩

/-! ## Parts -/

/-- The parts of a path but for a mark in front of them. -/
def inner (p : Path) : List Component := (segments p.bytes).filterMap componentOf?

theorem inner_cases {p : Path} {part : Component} (h : part ∈ p.inner) :
    part = .parent ∨ ∃ name, part = .name name ∧ IsName name := by
  obtain ⟨piece, hpiece, hpart⟩ := List.mem_filterMap.1 h
  exact componentOf?_cases hpart (not_mem_of_mem_segments hpiece)

/-- **Where a path leads** is told by its parts, from the root or not. -/
theorem location_eq (p : Path) :
    p.location = p.inner.foldl Location.step { absolute := p.isAbsolute } := by
  rw [location, components]
  show List.foldl _ _ (if p.isAbsolute then .root :: p.inner
    else if (segments p.bytes).head? = some [dot] then .current :: p.inner else p.inner) = _
  cases p.isAbsolute with
  | true => rfl
  | false =>
    rw [if_neg Bool.false_ne_true]
    split_ifs <;> rfl

end Path

namespace Location

open LevelBundle.Path (IsName componentOf? dot segments separator)

/-! ## Locations -/

/-- A location that a path can lead to. -/
structure Clean (loc : Location) : Prop where
  /-- Its names are names. -/
  names : ∀ name ∈ loc.names, IsName name
  /-- There is nothing above the root. -/
  ups : loc.absolute = true → loc.ups = 0

theorem absolute_foldl {parts : List Component} (h : Component.root ∉ parts) (loc : Location) :
    (parts.foldl step loc).absolute = loc.absolute := by
  induction parts generalizing loc with
  | nil => rfl
  | cons part parts ih =>
    rw [List.foldl_cons, ih (List.not_mem_of_not_mem_cons h)]
    cases part with
    | root => exact absurd List.mem_cons_self h
    | current => rfl
    | parent =>
      rw [step]
      split_ifs <;> rfl
    | name => rfl

/-- **Going on by a part** leads from a location to a location. -/
theorem Clean.step {loc : Location} (h : loc.Clean) {part : Component}
    (hpart : part = .parent ∨ ∃ name, part = .name name ∧ IsName name) : (loc.step part).Clean := by
  rcases hpart with rfl | ⟨last, rfl, hlast⟩
  · rw [Location.step]
    split_ifs with hnames habsolute
    · exact ⟨fun name hname => h.names name (List.dropLast_subset _ hname), h.ups⟩
    · exact h
    · exact ⟨h.names, fun ha => absurd ha habsolute⟩
  · refine ⟨fun name hname => ?_, h.ups⟩
    rcases List.mem_append.1 hname with hname | hname
    · exact h.names name hname
    · exact List.mem_singleton.1 hname ▸ hlast

theorem Clean.foldl {parts : List Component} {loc : Location} (h : loc.Clean)
    (hparts : ∀ part ∈ parts, part = .parent ∨ ∃ name, part = .name name ∧ IsName name) :
    (parts.foldl Location.step loc).Clean := by
  induction parts generalizing loc with
  | nil => exact h
  | cons part parts ih =>
    obtain ⟨hpart, hparts⟩ := List.forall_mem_cons.1 hparts
    exact ih (h.step hpart) hparts

theorem clean_location (p : Path) : p.location.Clean := by
  rw [Path.location_eq]
  exact Clean.foldl ⟨fun name hname => absurd hname List.not_mem_nil, fun _ => rfl⟩
    fun part hpart => Path.inner_cases hpart

theorem absolute_location (p : Path) : p.location.absolute = p.isAbsolute := by
  rw [Path.location_eq, absolute_foldl]
  intro hroot
  rcases Path.inner_cases hroot with h | ⟨name, h, -⟩ <;> cases h

/-- The parts of the shortest path to a location, but for a root in front of them. -/
def innerParts (loc : Location) : List Component :=
  List.replicate loc.ups .parent ++ loc.names.map .name

/-- The parts of the shortest path to a location. -/
def parts (loc : Location) : List Component :=
  (if loc.absolute then [.root] else []) ++ loc.innerParts

theorem foldl_parents (n ups : ℕ) :
    (List.replicate n Component.parent).foldl step { ups } = { ups := ups + n } := by
  induction n generalizing ups with
  | zero => rfl
  | succ n ih =>
    have hstep : step { ups } .parent = { ups := ups + 1 } := rfl
    rw [List.replicate_succ, List.foldl_cons, hstep, ih, Nat.add_assoc, Nat.add_comm 1 n]

theorem foldl_names (loc : Location) (names : List Bytes) :
    (names.map Component.name).foldl step loc = { loc with names := loc.names ++ names } := by
  induction names generalizing loc with
  | nil => rw [List.append_nil]; rfl
  | cons name names ih =>
    rw [List.map_cons, List.foldl_cons, ih]
    simp only [step, List.append_assoc, List.singleton_append]

theorem Clean.foldl_innerParts {loc : Location} (h : loc.Clean) :
    loc.innerParts.foldl Location.step { absolute := loc.absolute } = loc := by
  obtain ⟨absolute, ups, names⟩ := loc
  rw [innerParts, List.foldl_append, foldl_names]
  cases absolute with
  | true =>
    obtain rfl : ups = 0 := h.ups rfl
    rfl
  | false => rw [foldl_parents, Nat.zero_add]; rfl

/-! ## The spelling of a location -/

/-- The pieces of the shortest path to a location, but for a root in front of them. -/
def pieces (loc : Location) : List Bytes := List.replicate loc.ups [dot, dot] ++ loc.names

/-- The bytes of the shortest path, but for a root in front of them. -/
def tail (loc : Location) : Bytes := [separator].intercalate loc.pieces

theorem bytes_path (loc : Location) :
    loc.path.bytes = if loc.absolute then separator :: loc.tail else loc.tail := by
  rw [path]
  split_ifs <;> rfl

variable {loc : Location}

theorem Clean.piece (h : loc.Clean) {piece : Bytes} (hp : piece ∈ loc.pieces) :
    separator ∉ piece ∧ componentOf? piece ≠ none := by
  rcases List.mem_append.1 hp with hp | hp
  · rw [List.eq_of_mem_replicate hp]
    decide
  · have hname := h.names piece hp
    refine ⟨hname.unbroken, ?_⟩
    rw [hname.reads]
    exact Option.some_ne_none _

theorem Clean.filterMap_pieces (h : loc.Clean) :
    loc.pieces.filterMap componentOf? = loc.innerParts := by
  have hups : (List.replicate loc.ups [dot, dot]).filterMap componentOf? =
      List.replicate loc.ups .parent := List.filterMap_replicate_of_some rfl
  have hnames : loc.names.filterMap componentOf? = loc.names.map .name := by
    rw [← List.filterMap_eq_map]
    exact List.filterMap_congr fun name hname => (h.names name hname).reads
  rw [pieces, innerParts, List.filterMap_append, hups, hnames]

theorem Clean.segments_tail (h : loc.Clean) :
    segments loc.tail = [[]] ∧ loc.pieces = [] ∨
      segments loc.tail = loc.pieces ∧ loc.pieces ≠ [] := by
  by_cases hp : loc.pieces = []
  · refine Or.inl ⟨?_, hp⟩
    rw [tail, hp]
    rfl
  · refine Or.inr ⟨?_, hp⟩
    rw [Path.segments_eq_splitOn, tail]
    exact List.splitOn_intercalate _ (fun piece hpiece => (h.piece hpiece).1) hp

theorem Clean.filterMap_tail (h : loc.Clean) :
    (segments loc.tail).filterMap componentOf? = loc.innerParts := by
  rcases h.segments_tail with ⟨hs, hp⟩ | ⟨hs, -⟩
  · rw [hs, ← h.filterMap_pieces, hp]
    rfl
  · rw [hs, h.filterMap_pieces]

/-- The tail of the shortest path starts with no separator, and with no `.` part. -/
theorem Clean.head_tail (h : loc.Clean) :
    loc.tail.head? ≠ some separator ∧ (segments loc.tail).head? ≠ some [dot] := by
  rcases h.segments_tail with ⟨hs, hp⟩ | ⟨hs, hp⟩
  · rw [hs, tail, hp]
    decide
  · obtain ⟨piece, rest, hpieces⟩ := List.exists_cons_of_ne_nil hp
    obtain ⟨hslash, hsome⟩ := h.piece (hpieces ▸ List.mem_cons_self)
    rw [hs, tail, hpieces]
    constructor
    · -- the first piece is not empty
      cases piece with
      | nil => exact absurd rfl hsome
      | cons c cs =>
        have hhead : ([separator].intercalate ((c :: cs) :: rest)).head? = some c := by
          cases rest <;> simp [List.intercalate]
        rw [hhead]
        exact fun heq => hslash (Option.some.inj heq ▸ List.mem_cons_self)
    · rintro heq
      exact hsome (by rw [Option.some.inj heq]; rfl)

theorem Clean.isAbsolute_path (h : loc.Clean) : loc.path.isAbsolute = loc.absolute := by
  rw [Path.isAbsolute, bytes_path]
  cases loc.absolute with
  | true => rfl
  | false => exact beq_eq_false_iff_ne.2 h.head_tail.1

theorem Clean.inner_path (h : loc.Clean) : loc.path.inner = loc.innerParts := by
  rw [Path.inner, bytes_path]
  split_ifs with ha
  · rw [← List.nil_append (separator :: loc.tail), Path.segments_append, List.filterMap_append,
      h.filterMap_tail]
    rfl
  · exact h.filterMap_tail

/-- **The parts of the shortest path to a location.** -/
theorem Clean.components_path (h : loc.Clean) : loc.path.components = loc.parts := by
  rw [Path.components]
  show (if loc.path.isAbsolute then .root :: loc.path.inner
    else if (segments loc.path.bytes).head? = some [dot] then .current :: loc.path.inner
    else loc.path.inner) = _
  rw [h.isAbsolute_path, h.inner_path, parts, bytes_path]
  cases loc.absolute with
  | true => rfl
  | false =>
    simp only [Bool.false_eq_true, if_false]
    rw [if_neg h.head_tail.2]
    rfl

/-- **The shortest path to a location leads there.** -/
theorem Clean.location_path (h : loc.Clean) : loc.path.location = loc := by
  rw [Path.location_eq, h.isAbsolute_path, h.inner_path, h.foldl_innerParts]

end Location

namespace Path

variable {a b : Path}

/-! ## Paths behind a directory -/

theorem bytes_join (hb : b.isAbsolute = false) (ha : a.bytes.isEmpty = false) :
    ∃ front, (a.join b).bytes = front ++ separator :: b.bytes ∧
      (a.bytes = front ∨ a.bytes = front ++ [separator]) := by
  rw [join, hb, ha, Bool.or_false, if_neg Bool.false_ne_true]
  split_ifs with hlast
  · obtain ⟨front, hfront⟩ := List.getLast?_eq_some_iff.1 hlast
    refine ⟨front, ?_, Or.inr hfront⟩
    rw [hfront, List.append_assoc, List.singleton_append]
  · exact ⟨a.bytes, rfl, Or.inl rfl⟩

theorem inner_join (hb : b.isAbsolute = false) (ha : a.bytes.isEmpty = false) :
    (a.join b).inner = a.inner ++ b.inner := by
  obtain ⟨front, hjoin, hfront⟩ := bytes_join hb ha
  have hinner : a.inner = (segments front).filterMap componentOf? := by
    rcases hfront with hfront | hfront
    · rw [inner, hfront]
    · rw [inner, hfront, segments_append, List.filterMap_append]
      exact List.append_nil _
  rw [inner, hjoin, segments_append, List.filterMap_append, ← hinner]
  rfl

theorem isAbsolute_join (hb : b.isAbsolute = false) (ha : a.bytes.isEmpty = false) :
    (a.join b).isAbsolute = a.isAbsolute := by
  obtain ⟨front, hjoin, hfront⟩ := bytes_join hb ha
  rw [isAbsolute, isAbsolute, hjoin]
  rcases hfront with hfront | hfront
  · have hne : front ≠ [] := by
      rintro rfl
      rw [hfront] at ha
      cases ha
    obtain ⟨c, cs, rfl⟩ := List.exists_cons_of_ne_nil hne
    rw [hfront]
    rfl
  · rw [hfront]
    cases front <;> rfl

/-- **A path behind a directory** goes on from where the directory leads. -/
theorem location_join (hb : b.isAbsolute = false) :
    (a.join b).location = b.inner.foldl Location.step a.location := by
  cases ha : a.bytes.isEmpty with
  | true =>
    have hjoin : a.join b = b := by rw [join, ha, Bool.or_true, if_pos rfl]
    have hempty : a.bytes = [] := List.isEmpty_iff.1 ha
    have hlocation : a.location = {} := by
      cases a
      cases hempty
      rfl
    rw [hjoin, location_eq, hb, hlocation]
  | false =>
    rw [location_eq (a.join b), isAbsolute_join hb ha, inner_join hb ha, List.foldl_append,
      ← location_eq]

/-! ## One spelling -/

theorem location_normalize (a : Path) : a.normalize.location = a.location :=
  (Location.clean_location a).location_path

/-- **One spelling for each location.** -/
theorem normalize_eq_iff {a a' : Path} : a.normalize = a'.normalize ↔ a.location = a'.location := by
  constructor
  · intro h
    rw [← location_normalize a, h, location_normalize]
  · intro h
    rw [normalize, h, normalize]

theorem normalize_normalize (a : Path) : a.normalize.normalize = a.normalize :=
  normalize_eq_iff.2 (location_normalize a)

theorem normalize_join (hb : b.isAbsolute = false) :
    (a.normalize.join b).normalize = (a.join b).normalize := by
  rw [normalize_eq_iff, location_join hb, location_join hb, location_normalize]

/-- Where a path may lead does not depend on how the directories are spelled. -/
theorem candidates_normalize (ctx : CompileContext) (a : Path) (o : Origin) (b : Path) :
    Compiler.candidates { ctx with search := ctx.search.map normalize } (some a.normalize) o b =
      Compiler.candidates ctx (some a) o b := by
  unfold Compiler.candidates
  split_ifs with hb
  · rfl
  · rw [Bool.not_eq_true] at hb
    have hsearch : (ctx.search.map normalize).map (fun dir => (dir.join b).normalize) =
        ctx.search.map fun dir => (dir.join b).normalize := by
      rw [List.map_map]
      exact List.map_congr_left fun dir _ => normalize_join hb
    simp only [Option.getD_some, List.map_cons, hsearch, normalize_join hb]

/-- What the spelling of a path, and of a directory in front of one, has to do with where it
    leads. -/
structure Lexical (a b : Path) : Prop where
  /-- A path that is spelled in the shortest way is spelled so again. -/
  idempotent : a.normalize.normalize = a.normalize
  /-- Paths that lead to one place are spelled alike. -/
  one : ∀ a' : Path, a.normalize = a'.normalize ↔ a.location = a'.location
  /-- There is no `.` part in the spelling, and `..` parts are in front, and not behind the
      root. -/
  shape : ∃ (ups : ℕ) (names : List Bytes),
    a.normalize.components = (if a.isAbsolute then [.root] else []) ++
      List.replicate ups .parent ++ names.map .name ∧ (a.isAbsolute = true → ups = 0)
  /-- A path behind a directory is spelled alike however the directory is. -/
  join : (a.join b).normalize = (a.normalize.join b).normalize
  /-- So a file is kept, and found, under one path. -/
  table : ∀ (t : FileTable) bytes, t.insert (a.join b) bytes = t.insert (a.normalize.join b) bytes ∧
    t.find? (a.join b) = t.find? (a.normalize.join b)
  /-- It is looked for in the same places, however the directories are spelled. -/
  candidates : ∀ (ctx : CompileContext) o, Compiler.candidates ctx (some a) o b =
    Compiler.candidates { ctx with search := ctx.search.map normalize } (some a.normalize) o b
  /-- Its contents are interned under one name, if a line can spell it. -/
  blob : ∀ text, b = .ofText text → ∀ (ctx : CompileContext) alignment o,
    Compiler.fileBlob ctx (some a) text alignment o =
      Compiler.fileBlob { ctx with search := ctx.search.map normalize } (some a.normalize) text
        alignment o

/-- **Paths that lead to one place are one**, and a path behind a directory leads where it does
    from any spelling of the directory. -/
theorem normalize_lexical (a b : Path) (hb : b.isAbsolute = false) : Lexical a b := by
  have hjoin := normalize_join (a := a) hb
  refine ⟨normalize_normalize a, fun a' => normalize_eq_iff, ?_, hjoin.symm,
    fun t bytes => ⟨?_, ?_⟩, fun ctx o => (candidates_normalize ctx a o b).symm,
    fun text htext ctx alignment o => ?_⟩
  · have hclean := Location.clean_location a
    refine ⟨a.location.ups, a.location.names, ?_, fun ha => hclean.ups ?_⟩
    · rw [List.append_assoc, ← Location.absolute_location]
      exact hclean.components_path
    · rw [Location.absolute_location, ha]
  · rw [FileTable.insert, FileTable.insert, hjoin]
  · rw [FileTable.find?, FileTable.find?, hjoin]
  · have hresolve : Compiler.resolve { ctx with search := ctx.search.map normalize }
        (some a.normalize) o text = Compiler.resolve ctx (some a) o text := by
      rw [Compiler.resolve, Compiler.resolve, candidates_normalize]
    rw [Compiler.fileBlob, Compiler.fileBlob, hresolve]
    rfl

/-- A directory with detours, and the path to a file beside it. -/
theorem normalize_lexical_demo : (ofText "../b.bin").isAbsolute = false ∧
    (ofText ".//x/../../y/./z/").normalize = ofText "../y/z" ∧
    (ofText "../y/z").normalize = ofText "../y/z" ∧
    ((ofText ".//x/../../y/./z/").join (ofText "../b.bin")).normalize = ofText "../y/b.bin" := by
  have hb : (ofText "../b.bin").isAbsolute = false := by decide +kernel
  have h := normalize_lexical (ofText ".//x/../../y/./z/") (ofText "../b.bin") hb
  have hnormalize : (ofText ".//x/../../y/./z/").normalize = ofText "../y/z" := by decide +kernel
  refine ⟨hb, hnormalize, ?_, ?_⟩
  · rw [← hnormalize, h.idempotent]
  · rw [h.join, hnormalize]
    decide +kernel

end Path

end LevelBundle
