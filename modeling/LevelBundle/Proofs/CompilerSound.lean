/-
  LevelBundle — what compiling keeps true.

  * `Compiler.Sound ctx pad c`: the store and every section are sound, every part
    refers to what is there, and the records of files are told apart by their
    names.
  * `Compiler.Extends c c'`: records stay as they are, other sections keep their
    names, and the store is extended.
  * `Compiler.load ctx c`: the sections and blobs so far and what the sections
    that have not been compiled take to write.  It bounds the number of items.
  * `Compiler.Advances ctx pad n c c'`: a step keeps the state sound, extends it,
    and raises the load by `n` at most.
-/
import LevelBundle.Proofs.SectionSound
import LevelBundle.Program.Compiler

namespace LevelBundle

/-- Some line of a script asks for a file to be loaded on demand. -/
def SectionTable.Loads (t : SectionTable) (filename : String) : Prop :=
  ∃ s ∈ t.sections, ∃ l ∈ s.lines, Keyword.ofName? l.keyword = some .load ∧
    ∃ a, l.arguments = [a] ∧ a.text? = some filename

/-- What is asked of a script and of files, so that no size wraps. -/
structure CompileContext.Bounded (ctx : CompileContext) (pad : UInt32) : Prop where
  grain : Grain ctx.chunkSize pad
  written_lt : ctx.table.written < 2 ^ 30
  file_lt : ∀ {path bytes}, ctx.files.read path = .ok bytes → bytes.length < 2 ^ 30

namespace SectionTable

variable {t : SectionTable} {name : String} {script : ScriptSection}

theorem find?_name (h : t.find? name = some script) : script.name = name := by
  have hname := List.find?_some h
  rwa [beq_iff_eq] at hname

theorem find?_mem (h : t.find? name = some script) : script ∈ t.sections :=
  List.mem_of_find?_eq_some h

end SectionTable

namespace Compiler

/-! ## States -/

/-- What a part refers to is there. -/
def PartOk (ctx : CompileContext) (c : Compiler) : Part → Prop
  | .blob id => id.index < c.store.size
  | .level id => ∃ s, c.sections[id.index]? = some s ∧ s.runtimeFile = false
  | .runtimeFile filename id =>
    c.sections[id.index]? = some (Section.record filename) ∧ ctx.table.Loads filename
  | .literal _ | .align _ _ | .pad _ => True

/-- What is true of every state of compiling. -/
structure Sound (ctx : CompileContext) (pad : UInt32) (c : Compiler) : Prop where
  store : c.store.Sound ctx.chunkSize
  padSize : c.store.padSize = pad
  sections : ∀ {i : ℕ} {s : Section}, c.sections[i]? = some s → s.Sound ctx.chunkSize pad
  parts : ∀ {i : ℕ} {s : Section}, c.sections[i]? = some s → ∀ p ∈ s.parts, c.PartOk ctx p
  record : ∀ {i : ℕ} {s : Section}, c.sections[i]? = some s → s.runtimeFile = true →
    ∃ filename, s = Section.record filename
  record_inj : ∀ {i j : ℕ} {filename}, c.sections[i]? = some (Section.record filename) →
    c.sections[j]? = some (Section.record filename) → i = j

/-- What of a state stays as it is. -/
structure Extends (c c' : Compiler) : Prop where
  store : c.store.Extends c'.store
  record : ∀ {i : ℕ} {s : Section}, c.sections[i]? = some s → s.runtimeFile = true → c'.sections[i]? = some s
  script : ∀ {i : ℕ} {s : Section}, c.sections[i]? = some s → s.runtimeFile = false →
    ∃ s', c'.sections[i]? = some s' ∧ s'.runtimeFile = false ∧ s'.name = s.name

/-- What a section that has not been compiled takes to write. -/
def pending (c : Compiler) (s : ScriptSection) : ℕ :=
  if (c.compiled? s.name).isSome then 0 else s.written

/-- The sections and blobs so far, and what those still to come take to write. -/
def load (ctx : CompileContext) (c : Compiler) : ℕ :=
  c.sections.size + c.store.size + (ctx.table.sections.map c.pending).sum

/-- A step of compiling that costs at most `n`. -/
structure Advances (ctx : CompileContext) (pad : UInt32) (n : ℕ) (c c' : Compiler) : Prop where
  sound : Sound ctx pad c → Sound ctx pad c'
  ext : Extends c c'
  load_le : c'.load ctx ≤ c.load ctx + n

variable {ctx : CompileContext} {pad : UInt32} {c c' c'' : Compiler} {n m : ℕ}

theorem Extends.refl (c : Compiler) : Extends c c :=
  ⟨.refl _, fun h _ => h, fun {_ s} h hr => ⟨s, h, hr, rfl⟩⟩

theorem Extends.trans (h₁ : Extends c c') (h₂ : Extends c' c'') : Extends c c'' := by
  refine ⟨h₁.store.trans h₂.store, fun h hr => h₂.record (h₁.record h hr) hr, fun h hr => ?_⟩
  obtain ⟨s', h', hr', hn'⟩ := h₁.script h hr
  obtain ⟨s'', h'', hr'', hn''⟩ := h₂.script h' hr'
  exact ⟨s'', h'', hr'', hn''.trans hn'⟩

theorem Advances.refl (c : Compiler) : Advances ctx pad 0 c c := ⟨id, .refl c, Nat.le_refl _⟩

theorem Advances.trans (h₁ : Advances ctx pad n c c') (h₂ : Advances ctx pad m c' c'') :
    Advances ctx pad (n + m) c c'' := by
  refine ⟨h₂.sound ∘ h₁.sound, h₁.ext.trans h₂.ext, ?_⟩
  have := h₁.load_le; have := h₂.load_le
  omega

theorem Advances.mono (h : Advances ctx pad n c c') (hn : n ≤ m) : Advances ctx pad m c c' :=
  ⟨h.sound, h.ext, h.load_le.trans (Nat.add_le_add_left hn _)⟩

theorem PartOk.mono (h : Extends c c') {p : Part} (hp : c.PartOk ctx p) : c'.PartOk ctx p := by
  cases p with
  | blob id => exact Nat.lt_of_lt_of_le hp h.store.size_le
  | level id =>
    obtain ⟨s, hs, hr⟩ := hp
    obtain ⟨s', hs', hr', -⟩ := h.script hs hr
    exact ⟨s', hs', hr'⟩
  | runtimeFile filename id => exact ⟨h.record hp.1 rfl, hp.2⟩
  | literal | align | pad => trivial

/-! ## The load -/

theorem compiled?_isSome {name : String} : (c.compiled? name).isSome ↔
    ∃ (i : ℕ) (s : Section), c.sections[i]? = some s ∧ s.runtimeFile = false ∧ s.name = name := by
  simp only [compiled?, Option.isSome_map, Array.findIdx?_isSome, Array.any_eq_true,
    Bool.and_eq_true, Bool.not_eq_true', beq_iff_eq]
  constructor
  · rintro ⟨i, hi, hr, hn⟩
    exact ⟨i, _, Array.getElem?_eq_getElem hi, hr, hn⟩
  · rintro ⟨i, s, hs, hr, hn⟩
    obtain ⟨hi, rfl⟩ := Array.getElem?_eq_some_iff.1 hs
    exact ⟨i, hi, hr, hn⟩

theorem Extends.compiled? (h : Extends c c') {name : String}
    (hn : (c.compiled? name).isSome) : (c'.compiled? name).isSome := by
  obtain ⟨i, s, hs, hr, rfl⟩ := compiled?_isSome.1 hn
  obtain ⟨s', hs', hr', hn'⟩ := h.script hs hr
  exact compiled?_isSome.2 ⟨i, s', hs', hr', hn'⟩

theorem Extends.pending_le (h : Extends c c') (s : ScriptSection) : c'.pending s ≤ c.pending s := by
  unfold pending
  split_ifs with h1 h2
  · exact Nat.zero_le _
  · exact Nat.zero_le _
  · exact absurd (h.compiled? ‹_›) h1
  · exact Nat.le_refl _

theorem Extends.load_le (h : Extends c c')
    (hn : c'.sections.size + c'.store.size ≤ c.sections.size + c.store.size + n) :
    c'.load ctx ≤ c.load ctx + n := by
  have : (ctx.table.sections.map c'.pending).sum ≤ (ctx.table.sections.map c.pending).sum :=
    List.sum_le_sum fun s _ => h.pending_le s
  unfold load
  omega

/-- Compiling a section pays for it. -/
theorem Extends.load_lt (h : Extends c c') {s : ScriptSection} (hs : s ∈ ctx.table.sections)
    (hc : c.compiled? s.name = none) (hc' : (c'.compiled? s.name).isSome) :
    (ctx.table.sections.map c'.pending).sum + s.written ≤
      (ctx.table.sections.map c.pending).sum := by
  obtain ⟨l, l', hl⟩ := List.append_of_mem hs
  have h1 : (l.map c'.pending).sum ≤ (l.map c.pending).sum :=
    List.sum_le_sum fun s _ => h.pending_le s
  have h2 : (l'.map c'.pending).sum ≤ (l'.map c.pending).sum :=
    List.sum_le_sum fun s _ => h.pending_le s
  have h3 : c.pending s = s.written := by simp [pending, hc]
  have h4 : c'.pending s = 0 := by simp [pending, hc']
  simp only [hl, List.map_append, List.map_cons, List.sum_append, List.sum_cons, h3, h4]
  omega

/-! ## Changes of a state -/

theorem advances_store {store : Store} (hg : Store.Granted ctx.chunkSize c.store store)
    (hn : store.size ≤ c.store.size + n) : Advances ctx pad n c { c with store } := by
  have hext : Extends c { c with store } :=
    ⟨hg.ext, fun h _ => h, fun {_ s} h hr => ⟨s, h, hr, rfl⟩⟩
  refine ⟨fun hs => ?_, hext, hext.load_le (by simp only; omega)⟩
  exact ⟨hg.sound hs.store, hg.ext.padSize.trans hs.padSize, hs.sections,
    fun h p hp => (hs.parts h p hp).mono hext, hs.record, hs.record_inj⟩

theorem advances_notes (stack : List String) (warnings : List Warning) :
    Advances ctx pad 0 c { c with stack, warnings } := by
  have hext : Extends c { c with stack, warnings } :=
    ⟨.refl _, fun h _ => h, fun {_ s} h hr => ⟨s, h, hr, rfl⟩⟩
  exact ⟨fun hs => ⟨hs.store, hs.padSize, hs.sections, fun h p hp => (hs.parts h p hp).mono hext,
    hs.record, hs.record_inj⟩, hext, hext.load_le (Nat.le_refl _)⟩

theorem getElem?_push {sections : Array Section} {s t : Section} {i : ℕ}
    (h : (sections.push s)[i]? = some t) :
    (i = sections.size ∧ t = s) ∨ sections[i]? = some t := by
  rw [Array.getElem?_push] at h
  split_ifs at h with hi
  · exact Or.inl ⟨hi, by cases h; rfl⟩
  · exact Or.inr h

theorem getElem?_push_of_some {sections : Array Section} {s t : Section} {i : ℕ}
    (h : sections[i]? = some t) : (sections.push s)[i]? = some t := by
  obtain ⟨hi, -⟩ := Array.getElem?_eq_some_iff.1 h
  rw [Array.getElem?_push, if_neg (by omega), h]

theorem extends_push (s : Section) : Extends c { c with sections := c.sections.push s } :=
  ⟨.refl _, fun h _ => getElem?_push_of_some h,
    fun {_ t} h hr => ⟨t, getElem?_push_of_some h, hr, rfl⟩⟩

/-- A new section: one without parts, or the record of a file that has none. -/
theorem Sound.push (hc : Sound ctx pad c) {s : Section} (hs : s.Sound ctx.chunkSize pad)
    (hp : ∀ p ∈ s.parts, c.PartOk ctx p)
    (hr : s.runtimeFile = true → ∃ filename, s = Section.record filename ∧
      c.record? filename = none) :
    Sound ctx pad { c with sections := c.sections.push s } := by
  have hext := extends_push (c := c) s
  -- a record that is there is found by its name
  have hnew {i : ℕ} {filename} (hi : c.sections[i]? = some (Section.record filename))
      (hrec : s = Section.record filename) : False := by
    obtain ⟨f, he, hnone⟩ := hr (hrec ▸ rfl)
    simp only [record?, Option.map_eq_none_iff, Array.findIdx?_eq_none_iff] at hnone
    have := hnone _ (Array.mem_of_getElem? hi)
    have hname : (Section.record filename).name = (Section.record f).name := by rw [← hrec, ← he]
    simp only [Bool.and_eq_false_imp, beq_eq_false_iff_ne, ne_eq] at this
    exact this rfl hname
  refine ⟨hc.store, hc.padSize, fun h => ?_, fun h p hp' => ?_, fun h hr' => ?_, fun h h' => ?_⟩
  · rcases getElem?_push h with ⟨-, rfl⟩ | h
    · exact hs
    · exact hc.sections h
  · rcases getElem?_push h with ⟨-, rfl⟩ | h
    · exact (hp p hp').mono hext
    · exact (hc.parts h p hp').mono hext
  · rcases getElem?_push h with ⟨-, rfl⟩ | h
    · exact (hr hr').imp fun _ h => h.1
    · exact hc.record h hr'
  · rcases getElem?_push h with ⟨rfl, e⟩ | h <;> rcases getElem?_push h' with ⟨rfl, e'⟩ | h'
    · rfl
    · exact (hnew h' e.symm).elim
    · exact (hnew h e'.symm).elim
    · exact hc.record_inj h h'

theorem getElem?_set_of_some {sections : Array Section} {i : ℕ} {s t : Section}
    (h : sections[i]? = some t) (j : ℕ) :
    (sections.setIfInBounds i s)[j]? = if i = j then some s else sections[j]? := by
  have hlt := (Array.getElem?_eq_some_iff.1 h).1
  rw [Array.getElem?_setIfInBounds]
  split_ifs <;> rfl

/-- A section of the script in place of the one kept for it. -/
theorem advances_set {i : ℕ} {s t : Section} (hi : c.sections[i]? = some t)
    (ht : t.runtimeFile = false) (hr : s.runtimeFile = false) (hn : s.name = t.name)
    (hs : s.Sound ctx.chunkSize pad) (hp : ∀ p ∈ s.parts, c.PartOk ctx p) :
    Advances ctx pad 0 c { c with sections := c.sections.setIfInBounds i s } := by
  have get (j : ℕ) : (c.sections.setIfInBounds i s)[j]? =
      if i = j then some s else c.sections[j]? := getElem?_set_of_some hi j
  have hext : Extends c { c with sections := c.sections.setIfInBounds i s } := by
    refine ⟨.refl _, fun {j u} h hu => ?_, fun {j u} h hu => ?_⟩
    · simp only [get]
      split_ifs with hij
      · subst hij; rw [hi] at h; cases h; rw [ht] at hu; cases hu
      · exact h
    · simp only [get]
      split_ifs with hij
      · subst hij; rw [hi] at h; cases h; exact ⟨s, rfl, hr, hn⟩
      · exact ⟨u, h, hu, rfl⟩
  have old {j : ℕ} {u : Section} (h : (c.sections.setIfInBounds i s)[j]? = some u) :
      u = s ∨ c.sections[j]? = some u := by
    rw [get] at h
    split_ifs at h
    · cases h; exact Or.inl rfl
    · exact Or.inr h
  refine ⟨fun hc => ⟨hc.store, hc.padSize, fun h => ?_, fun h p hp' => ?_, fun h hu => ?_,
    fun h h' => ?_⟩, hext, hext.load_le (by simp)⟩
  · rcases old h with rfl | h
    · exact hs
    · exact hc.sections h
  · rcases old h with rfl | h
    · exact (hp p hp').mono hext
    · exact (hc.parts h p hp').mono hext
  · rcases old h with rfl | h
    · rw [hr] at hu; cases hu
    · exact hc.record h hu
  · rcases old h with rfl | h
    · cases hr
    · rcases old h' with rfl | h'
      · cases hr
      · exact hc.record_inj h h'

end Compiler

end LevelBundle
