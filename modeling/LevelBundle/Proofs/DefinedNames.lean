/-
  LevelBundle — which definitions can be referred to.

  Settings that pass their check define no empty name and none that closes a reference.  The
  blanks at the ends of a name are not looked at, although a reference leaves them out.

  * `Definitions.spelled name`: the reference that spells a name as it is.
  * `isDefineName_of_validate`: what the check makes sure of.
  * `expand_spelled`: such a reference stands for the name without its blanks.
  * `expand_accepted`: a definition can be referred to exactly if no blank stands at an end of
    its name; then the reference that spells the name gives the value.
-/
import LevelBundle.Proofs.Templates
import LevelBundle.Settings

namespace LevelBundle

theorem Text.trimChars_eq_self {cs : List Char} (h : Trimmed cs cs) : trimChars cs = cs := by
  -- with nothing to drop, each of the two ends stays
  have drop {l : List Char} (hl : ∀ c ∈ l.head?, isBlank c = false) : l.dropWhile isBlank = l := by
    cases l with
    | nil => rfl
    | cons c l => rw [List.dropWhile_cons_of_neg (by simp [hl c rfl])]
  have hlast : ∀ c ∈ cs.reverse.head?, isBlank c = false := by
    rw [List.head?_reverse]
    exact h.last
  rw [trimChars, drop h.head, dropEndWhile, drop hlast, List.reverse_reverse]

theorem Text.trimmed_self {cs : List Char} (hhead : ∀ c ∈ cs.head?, isBlank c = false)
    (hlast : ∀ c ∈ cs.getLast?, isBlank c = false) : Trimmed cs cs :=
  ⟨⟨[], [], by simp, by simp, by simp⟩, hhead, hlast⟩

theorem Definitions.find?_sortedNames_eq_none {d : Definitions} {p : String → Bool} :
    d.sortedNames.find? p = none ↔ ∀ entry ∈ d.entries, p entry.1 = false := by
  simp only [sortedNames, List.find?_eq_none, List.mem_mergeSort, List.forall_mem_map,
    Bool.not_eq_true]

/-- What the check of settings makes sure of: references can name the definitions. -/
theorem Settings.isDefineName_of_validate {s : Settings} (hs : s.validate = .ok ())
    {name value : String} (h : s.definitions.find? name = some value) :
    isDefineName name = true := by
  obtain ⟨front, back, hentries, -⟩ := List.lookup_eq_some_iff.1 h
  have hmem : (name, value) ∈ s.definitions.entries := by
    rw [hentries]
    exact List.mem_append_right _ List.mem_cons_self
  unfold validate at hs
  split at hs
  · cases hs
  rename_i hfault
  unfold fault? at hfault
  rw [ite_eq_iff] at hfault
  obtain ⟨-, hfault⟩ | ⟨-, hfault⟩ := hfault
  · cases hfault
  split at hfault
  · cases hfault
  split_ifs at hfault
  rw [Option.map_eq_none_iff, Definitions.find?_sortedNames_eq_none] at hfault
  simpa using hfault _ hmem

namespace Definitions

/-- The reference that spells a name as it is. -/
def spelled (name : String) : List Char := opener ++ (name.toList ++ [')'])

variable {d : Definitions} {name : String}

/-- **A reference that spells a name** stands for the name without the blanks at its ends. -/
theorem expand_spelled (hclosed : ')' ∉ name.toList) :
    d.expand (spelled name) =
      (d.find? (String.ofList (Text.trimChars name.toList))).elim
        (.error (.undefinedVariable (String.ofList (Text.trimChars name.toList))))
        fun value => .ok value.toList := by
  have href := expandFrom_reference d ⟨[], name.toList, by decide, hclosed⟩ []
  rw [List.nil_append] at href
  rw [expand, spelled, href, Reference.name, Reference.filled]
  cases hfind : d.find? (String.ofList (Text.trimChars name.toList)) with
  | none => rfl
  | some value =>
    rw [expandFrom]
    simp [Except.map, Reference.name, hfind]

theorem Reference.trimmed_name (r : Reference) :
    Text.Trimmed r.name.toList r.name.toList := by
  have h := Text.trimmed_trimChars r.inside
  rw [Reference.name, String.toList_ofList]
  exact Text.trimmed_self h.head h.last

/-- **Which definitions can be referred to**, if the settings pass their check.  If no blank
    stands at an end of the name, the reference that spells it gives the value.  If one does,
    no reference stands for the name; the one that spells it stands for the name without the
    blanks, and gives the value of that, or an error if it has none. -/
theorem expand_accepted {s : Settings} (hs : s.validate = .ok ()) {name value : String}
    (h : s.definitions.find? name = some value) :
    (Text.Trimmed name.toList name.toList →
      s.definitions.expand (spelled name) = .ok value.toList) ∧
    (¬ Text.Trimmed name.toList name.toList →
      (∀ r : Reference, r.name ≠ name) ∧
      ∃ inner : String, inner ≠ name ∧ Text.Trimmed name.toList inner.toList ∧
        s.definitions.expand (spelled name) =
          (s.definitions.find? inner).elim (.error (.undefinedVariable inner))
            fun other => .ok other.toList) := by
  have hname := Settings.isDefineName_of_validate hs h
  simp only [Settings.isDefineName, Bool.and_eq_true, Bool.not_eq_true',
    List.contains_eq_mem, decide_eq_false_iff_not] at hname
  have hexpand := expand_spelled (d := s.definitions) hname.2
  constructor
  · intro ht
    rw [hexpand, Text.trimChars_eq_self ht, String.ofList_toList, h]
    rfl
  · intro ht
    have hinner := Text.trimmed_trimChars name.toList
    refine ⟨?_, String.ofList (Text.trimChars name.toList), ?_, ?_, hexpand⟩
    · rintro r rfl
      exact ht r.trimmed_name
    · intro he
      refine ht ?_
      rw [← he, String.toList_ofList]
      exact Text.trimmed_self hinner.head hinner.last
    · rwa [String.toList_ofList]

/-- Settings that define a name with a blank inside, and one with a blank in front. -/
def Demo.blanks : Settings := { definitions := ⟨[("A B", "1"), (" X", "2")]⟩ }

/-- Both pass the check.  The reference to the first gives its value; nothing refers to the
    second, and what spells it stands for a name that has no value. -/
theorem expand_accepted_demo :
    Demo.blanks.validate = .ok () ∧
      Demo.blanks.definitions.find? "A B" = some "1" ∧
      Demo.blanks.definitions.expand (spelled "A B") = .ok ['1'] ∧
      Demo.blanks.definitions.find? " X" = some "2" ∧
      (∀ r : Reference, r.name ≠ " X") ∧
      Demo.blanks.definitions.expand (spelled " X") = .error (.undefinedVariable "X") := by
  have hnames : (Demo.blanks.definitions.sortedNames.find?
      fun name => !Settings.isDefineName name) = none :=
    find?_sortedNames_eq_none.2 (by decide +kernel)
  have hs : Demo.blanks.validate = .ok () := by
    rw [Settings.validate, Settings.fault?, hnames]
    decide +kernel
  have hfirst : Demo.blanks.definitions.find? "A B" = some "1" := by decide +kernel
  have hsecond : Demo.blanks.definitions.find? " X" = some "2" := by decide +kernel
  have hinside : Text.Trimmed "A B".toList "A B".toList := by
    rw [show "A B".toList = ['A', ' ', 'B'] by decide +kernel]
    refine Text.trimmed_self ?_ ?_ <;> (rintro c ⟨⟩; decide)
  have hfront : ¬ Text.Trimmed " X".toList " X".toList := fun h =>
    absurd (h.head ' ' (by decide +kernel)) (by decide +kernel)
  obtain ⟨hunnamed, -⟩ := (expand_accepted hs hsecond).2 hfront
  exact ⟨hs, hfirst, (expand_accepted hs hfirst).1 hinside, hsecond, hunnamed, by decide +kernel⟩

end Definitions

end LevelBundle
