/-
  LevelBundle — the values of `long` lines.

  A `long` line writes integers of four bytes, whose order is that of the bundle.  What they
  are is said by the script alone, and so is the part of a section that holds them.

  * `ScriptLine.longs`: the values of a line.
  * `SectionTable.Longs table lines ns`: what the lines of a section say of its parts, one by
    one: the values of a part that a `long` line has written, and nothing of the others.
    `Longs.unique`: this is one list.
  * `Program.Finished.longs`: a section of a program has these parts.
  * `Program.IsLong table p q id w o`: a value of a `long` line, with its place in a bundle.
-/
import LevelBundle.Proofs.Expanded
import LevelBundle.Proofs.Shapes

namespace LevelBundle

/-! ## Lines -/

/-- The values of a line, as words. -/
def ScriptLine.longs (line : ScriptLine) : List UInt32 :=
  line.arguments.filterMap fun a => a.int?.map UInt32.ofInt

theorem ScriptLine.numberBytes_long {line : ScriptLine} {order : ByteOrder} {i : ℕ} {bytes : Bytes}
    (h : line.numberBytes .long order i = .ok bytes) : ∃ a v, line.arguments[i]? = some a ∧
      a.int?.map UInt32.ofInt = some v ∧ bytes = order.wordBytes v := by
  simp only [numberBytes, Keyword.intRange?, bind_eq_ok, pure_eq_ok, intAt] at h
  obtain ⟨n, hn, rfl⟩ := h
  split at hn
  · cases hn
  rename_i m hm
  obtain ⟨a, ha, hint⟩ := Option.bind_eq_some_iff.1 hm
  split_ifs at hn
  cases hn
  exact ⟨a, UInt32.ofInt n, ha, by rw [hint, Option.map_some], rfl⟩

/-- **The bytes of a `long` line** are those of its values. -/
theorem ScriptLine.allNumbers_long {line : ScriptLine} {order : ByteOrder} {bytes : Bytes}
    (h : line.allNumbers .long order = .ok bytes) : bytes = order.rowBytes line.longs := by
  simp only [allNumbers, bind_eq_ok, pure_eq_ok, mapM_eq_ok] at h
  obtain ⟨-, -, numbers, hnumbers, rfl⟩ := h
  have hall : List.Forall₂ (fun a bytes => ∃ v, a.int?.map UInt32.ofInt = some v ∧
      bytes = order.wordBytes v) line.arguments numbers := by
    rw [List.forall₂_iff_get] at hnumbers ⊢
    refine ⟨by simpa using hnumbers.1, fun i hi hi' => ?_⟩
    have hget := hnumbers.2 i (by simpa using hi) hi'
    rw [List.get_eq_getElem, List.getElem_range] at hget
    obtain ⟨a, v, ha, hv, hbytes⟩ := numberBytes_long hget
    obtain ⟨_, rfl⟩ := List.getElem?_eq_some_iff.1 ha
    exact ⟨v, hv, hbytes⟩
  clear hnumbers
  unfold longs
  generalize line.arguments = arguments at hall ⊢
  induction hall with
  | nil => rfl
  | cons h _ ih =>
    obtain ⟨v, hv, rfl⟩ := h
    simp only [List.filterMap_cons, hv, List.flatten_cons, ByteOrder.rowBytes_cons, ih]

/-! ## Sections -/

/-- What lines say of the parts that they expand to, one by one: the values of a part that a
    `long` line writes, and nothing of the others. -/
inductive SectionTable.Longs (table : SectionTable) :
    List ScriptLine → List (Option (List UInt32)) → Prop
  /-- No line. -/
  | done : table.Longs [] []
  /-- A line that writes a part. -/
  | part {line : ScriptLine} {rest : List ScriptLine} {ns : List (Option (List UInt32))}
    {keyword : Keyword} : Keyword.ofName? line.keyword = some keyword → keyword ≠ .path →
    keyword ≠ .insert → table.Longs rest ns →
    table.Longs (line :: rest) ((if keyword = .long then some line.longs else none) :: ns)
  /-- A line that sets a directory. -/
  | path {line : ScriptLine} {rest : List ScriptLine} {ns : List (Option (List UInt32))} :
    Keyword.ofName? line.keyword = some .path → table.Longs rest ns → table.Longs (line :: rest) ns
  /-- A line that takes in the parts of another section. -/
  | insert {line : ScriptLine} {rest : List ScriptLine} {target : String} {script : ScriptSection}
    {inner ns : List (Option (List UInt32))} : line.Names .insert target →
    table.find? target = some script → table.Longs script.lines inner → table.Longs rest ns →
    table.Longs (line :: rest) (inner ++ ns)

/-- **The lines say one thing** of their parts. -/
theorem SectionTable.Longs.unique {table : SectionTable} {lines : List ScriptLine}
    {ns ns' : List (Option (List UInt32))} (h : table.Longs lines ns) (h' : table.Longs lines ns') :
    ns = ns' := by
  induction h generalizing ns' with
  | done => cases h'; rfl
  | part hk hpath hinsert _ ih =>
    cases h' with
    | part hk' _ _ h' =>
      obtain rfl := Option.some.inj (hk.symm.trans hk')
      rw [ih h']
    | path hk' _ => exact absurd (Option.some.inj (hk.symm.trans hk')) hpath
    | insert hn _ _ _ => exact absurd (Option.some.inj (hk.symm.trans hn.1)) hinsert
  | path hk _ ih =>
    cases h' with
    | part hk' hpath _ _ => exact absurd (Option.some.inj (hk'.symm.trans hk)) hpath
    | path _ h' => exact ih h'
    | insert hn _ _ _ => cases hk.symm.trans hn.1
  | insert hn hs _ _ ihs ih =>
    cases h' with
    | part hk' _ hinsert _ => exact absurd (Option.some.inj (hk'.symm.trans hn.1)) hinsert
    | path hk' _ => cases hk'.symm.trans hn.1
    | insert hn' hs' h₁ h₂ =>
      obtain rfl := Option.some.inj (hn.2.symm.trans hn'.2)
      obtain rfl := Option.some.inj (hs.symm.trans hs')
      rw [ihs h₁, ih h₂]

/-- A phrase holds the values that are said of it. -/
def Phrase.Spells (order : ByteOrder) (n : Option (List UInt32)) (ph : Phrase String) : Prop :=
  ∀ ws, n = some ws → ph = .literal (order.rowBytes ws)

theorem Phrase.Spells.fit {order : ByteOrder} {n : Option (List UInt32)} {ph : Phrase String}
    (h : ph.Spells order n) (t : Passage) : (t.fit ph).Spells order n := by
  intro ws hn
  rw [h ws hn]
  rfl

/-- A line that writes a part: a `long` line writes its values. -/
theorem ScriptLine.entry?_phrase {ctx : CompileContext} {base : Option Path} {line : ScriptLine}
    {ph : Phrase String} (h : line.entry? ctx base = some (.phrase ph)) :
    ∃ keyword, Keyword.ofName? line.keyword = some keyword ∧ keyword ≠ .path ∧ keyword ≠ .insert ∧
      ph.Spells ctx.order (if keyword = .long then some line.longs else none) := by
  cases hk : Keyword.ofName? line.keyword with
  | none =>
    rw [ScriptLine.entry?, hk] at h
    cases h
  | some keyword =>
    rw [ScriptLine.entry?, hk] at h
    refine ⟨keyword, rfl, ?_, ?_, ?_⟩
    · rintro rfl
      simp at h
    · rintro rfl
      simp at h
    · intro ws hws
      split_ifs at hws with hlong
      subst hlong
      cases hws
      obtain ⟨bytes, hbytes, hph⟩ := Option.map_eq_some_iff.1 h
      cases hph
      rw [allNumbers_long (ok_of_toOption hbytes)]

theorem ScriptLine.entry?_directory {ctx : CompileContext} {base : Option Path} {line : ScriptLine}
    {dir : Path} (h : line.entry? ctx base = some (.directory dir)) :
    Keyword.ofName? line.keyword = some .path := by
  unfold entry? at h
  split at h <;> simp_all [Option.bind_eq_some_iff]

variable {ctx : CompileContext} {base : Option Path} {t u : Passage} {lines : List ScriptLine}
  {ns : List (Option (List UInt32))}

theorem Passage.exists_foldl_add {order : ByteOrder} {phrases : List (Phrase String)}
    (h : List.Forall₂ (fun n ph => Phrase.Spells order n ph) ns phrases) (t : Passage) :
    ∃ added, (phrases.foldl Passage.add t).phrases = t.phrases ++ added ∧
      List.Forall₂ (fun n ph => Phrase.Spells order n ph) ns added := by
  induction h generalizing t with
  | nil => exact ⟨[], (List.append_nil _).symm, .nil⟩
  | @cons n ph ns phrases hspells _ ih =>
    obtain ⟨added, hadded, hall⟩ := ih (t.add ph)
    refine ⟨t.fit ph :: added, ?_, .cons (hspells.fit t) hall⟩
    rw [List.foldl_cons, hadded, Passage.add, List.append_assoc, List.singleton_append]

/-- **Lines that expand to a passage** say what they write. -/
theorem Expands.longs (h : Expands ctx base t lines u) : ∃ ns added, ctx.table.Longs lines ns ∧
    u.phrases = t.phrases ++ added ∧
      List.Forall₂ (fun n ph => Phrase.Spells ctx.order n ph) ns added := by
  induction h with
  | done => exact ⟨[], [], .done, (List.append_nil _).symm, .nil⟩
  | @phrase base t u line rest ph he _ ih =>
    obtain ⟨ns, added, hlongs, hadded, hall⟩ := ih
    obtain ⟨keyword, hk, hpath, hinsert, hspells⟩ := ScriptLine.entry?_phrase he
    refine ⟨_, t.fit ph :: added, .part hk hpath hinsert hlongs, ?_, .cons (hspells.fit t) hall⟩
    rw [hadded, Passage.add, List.append_assoc, List.singleton_append]
  | directory he _ ih =>
    obtain ⟨ns, added, hlongs, hadded, hall⟩ := ih
    exact ⟨ns, added, .path (ScriptLine.entry?_directory he) hlongs, hadded, hall⟩
  | @insertion base t u v line rest target script he hs _ _ ihs ih =>
    obtain ⟨inner, phrases, hinner, hphrases, hspells⟩ := ihs
    obtain ⟨ns, added, hlongs, hadded, hall⟩ := ih
    rw [List.nil_append] at hphrases
    obtain ⟨front, hfront, hfall⟩ := Passage.exists_foldl_add (hphrases ▸ hspells) t
    refine ⟨inner ++ ns, front ++ added, .insert (ScriptLine.entry?_insertion he) hs hinner hlongs,
      ?_, List.rel_append hfall hall⟩
    rw [hadded, hfront, List.append_assoc]

/-! ## Programs -/

/-- A part holds the values that are said of it. -/
def Part.Spells (order : ByteOrder) (n : Option (List UInt32)) (part : Part) : Prop :=
  ∀ ws, n = some ws → part = .literal (order.rowBytes ws)

theorem Part.eq_literal {sections : Array Section} {store : Store} {part : Part} {bytes : Bytes}
    (h : part.phrase? sections store = some (.literal bytes)) : part = .literal bytes := by
  cases part with
  | literal => cases h; rfl
  | align | pad => cases h
  | blob =>
    obtain ⟨_, -, h⟩ := Part.reading?_blob.1 h
    cases h
  | level =>
    obtain ⟨_, -, -, h⟩ := Part.reading?_level.1 h
    cases h
  | runtimeFile =>
    obtain ⟨_, -, -, -, h⟩ := Part.reading?_runtimeFile.1 h
    cases h

namespace Program

variable {p q p' q' : Program} {table : SectionTable} {id : SectionId} {w : UInt32} {o : ℕ}

/-- **The sections of a program** hold the values of their `long` lines. -/
theorem Finished.longs (h : p.Finished ctx) {i : ℕ} {s : Section} (hs : p.sections[i]? = some s)
    (hr : s.runtimeFile = false) : ∃ script ns, ctx.table.find? s.name = some script ∧
      ctx.table.Longs script.lines ns ∧ List.Forall₂ (Part.Spells ctx.order) ns s.parts := by
  obtain ⟨script, t, hfind, -, hexpands, hreads⟩ := (h.finished hs hr).expands
  obtain ⟨ns, phrases, hlongs, hphrases, hspells⟩ := hexpands.longs
  rw [List.nil_append] at hphrases
  refine ⟨script, ns, hfind, hlongs, ?_⟩
  have hall : List.Forall₂ (fun n ph => ∀ ws, n = some ws →
      ph = some (.literal (ctx.order.rowBytes ws))) ns (t.phrases.map some) := by
    rw [hphrases, List.forall₂_map_right_iff]
    exact hspells.imp fun _ _ h ws hws => congrArg some (h ws hws)
  rw [← hreads.parts, List.forall₂_map_right_iff] at hall
  exact hall.imp fun _ _ h ws hws => Part.eq_literal (h ws hws)

/-- A value `w` of a `long` line, in a section that the root leads to, lies at the offset `o` of
    the bundle. -/
structure IsLong (table : SectionTable) (p q : Program) (id : SectionId) (w : UInt32) (o : ℕ) :
    Prop where
  leads : p.Leads (.level id)
  script : (p.sectionAt id).runtimeFile = false
  value : ∃ script ns i ws j, table.find? (p.sectionAt id).name = some script ∧
    table.Longs script.lines ns ∧ ns[i]? = some (some ws) ∧ ws[j]? = some w ∧
    o = (q.place (.level id)).toNat + Part.total ((p.sectionAt id).parts.take i) + 4 * j

/-- **A value of a `long` line** stands in a literal. -/
theorem IsLong.exists_literal (h : IsLong ctx.table p q id w o) (hp : p.Finished ctx)
    (hs : p.Holds (.level id)) : ∃ l ws l' j,
      (p.sectionAt id).parts = l ++ .literal (ctx.order.rowBytes ws) :: l' ∧ ws[j]? = some w ∧
        o = (q.place (.level id)).toNat + Part.total l + 4 * j := by
  obtain ⟨s, hs⟩ := hs
  obtain ⟨-, hr, script, ns, i, ws, j, hfind, hlongs, hi, hj, rfl⟩ := h
  rw [sectionAt_eq hs] at hr hfind ⊢
  obtain ⟨script', ns', hfind', hlongs', hall⟩ := hp.longs hs hr
  rw [hfind, Option.some.injEq] at hfind'
  subst hfind'
  obtain rfl := hlongs.unique hlongs'
  obtain ⟨hlt, hget⟩ := List.getElem?_eq_some_iff.1 hi
  have hlt' : i < s.parts.length := hall.length_eq ▸ hlt
  have hpart : s.parts[i] = .literal (ctx.order.rowBytes ws) := hall.get hlt hlt' ws hget
  refine ⟨s.parts.take i, ws, s.parts.drop (i + 1), j, ?_, hj, rfl⟩
  rw [← hpart, ← List.drop_eq_getElem_cons hlt', List.take_append_drop]

theorem SameShape.isLong (hp : SameShape p p') (hq : SameShape q q') (h : IsLong table p q id w o) :
    IsLong table p' q' id w o := by
  obtain ⟨hname, hparts, -, -, -, hrecord, -⟩ := Section.shape_eq_iff.1 (hp.sectionAt id)
  obtain ⟨hleads, hr, script, ns, i, ws, j, hfind, hlongs, hi, hj, rfl⟩ := h
  refine ⟨hp.leads hleads, hrecord ▸ hr, script, ns, i, ws, j, hname ▸ hfind, hlongs, hi, hj, ?_⟩
  have htotal : Part.total ((p.sectionAt id).parts.take i) =
      Part.total ((p'.sectionAt id).parts.take i) :=
    Part.total_congr (by rw [List.map_take, List.map_take, hparts])
  rw [hq.place, htotal]

end Program

end LevelBundle
