/-
  LevelBundle — the calls that a store refuses.

  A request is merged into two blobs, the one that its name stands for and the canonical blob
  of that one, and either may refuse it.  Both are asked before either is changed.

  * `Store.Refuses s c e`: why a store refuses a call (`answer_eq_error_iff`).
  * `Store.refused_unchanged`: a call that is refused changes nothing, after any calls.
  * `Store.granted s calls`: the calls of a list that are granted.  The others might as well
    not have been made (`after_granted`, `log_granted`).
-/
import LevelBundle.Proofs.Sharing
import LevelBundle.Proofs.StoreCalls

namespace LevelBundle

namespace Alignment

/-- Two alignments of which neither divides the other. -/
structure Clash (a b : Option UInt32) (x y : UInt32) : Prop where
  left : a = some x
  right : b = some y
  not_dvd : ¬ x.toNat ∣ y.toNat
  not_dvd' : ¬ y.toNat ∣ x.toNat

theorem merge_eq_none_iff {a b : Option UInt32} : merge a b = none ↔ ∃ x y, Clash a b x y := by
  constructor
  · intro h
    obtain ⟨x, y, ha, hb, hxy, hyx⟩ := merge_eq_none h
    exact ⟨x, y, ha, hb, hxy, hyx⟩
  · rintro ⟨x, y, rfl, rfl, hxy, hyx⟩
    simp only [merge, mod_eq_zero_iff, if_neg hyx, if_neg hxy]

end Alignment

/-- A call asks for an alignment that can be honoured.  Only contents that are taken in are
    checked for that. -/
def StoreCall.Valid : StoreCall → Prop
  | .intern _ _ alignment => alignment.all Alignment.valid = true
  | _ => True

namespace Store

open LevelBundle.Alignment (Clash)

variable {s s' : Store} {c : StoreCall} {e : StoreError}

/-! ## Why a call is refused -/

/-- A blob refuses a request under a name, for itself or for its canonical blob. -/
inductive Conflicts (s : Store) (id : BlobId) (name : String) (a : Option UInt32) :
    StoreError → Prop
  /-- It has been asked for at another alignment. -/
  | own {x y : UInt32} : Clash (s.alignment? id) a x y →
    Conflicts s id name a (.alignmentConflict name x y)
  /-- It would do, but not its canonical blob. -/
  | shared {own : Option UInt32} {x y : UInt32} : Alignment.merge (s.alignment? id) a = some own →
    Clash (s.alignment? (s.canonical id)) a x y →
    Conflicts s id name a (.alignmentConflict name x y)

/-- Why a store refuses a call. -/
inductive Refuses (s : Store) : StoreCall → StoreError → Prop
  /-- The alignment cannot be honoured. -/
  | invalid {bytes : Bytes} {name : Option String} {n : UInt32} : Alignment.valid n = false →
    Refuses s (.intern bytes name (some n)) (.invalidAlignment n)
  /-- The name stands for a blob that refuses the alignment. -/
  | conflict {c : StoreCall} {name : String} {id : BlobId} {e : StoreError} : c.Valid →
    c.name? = some name → s.named? name = some id → s.Conflicts id name c.alignment? e →
    Refuses s c e
  /-- The blob is placed already. -/
  | placed {id : BlobId} {o o' : UInt32} : s.offset? id = some o' →
    Refuses s (.assign id o) (.offsetAlreadyAssigned (s.canonical id))

section
variable {id : BlobId} {name : String} {a : Option UInt32}

theorem reconcile_eq_error_iff : s.reconcile id name a = .error e ↔ s.Conflicts id name a e := by
  have hconflict {o : Option UInt32} {x y : UInt32} (h : Clash o a x y) :
      StoreError.alignmentConflict name (o.getD 1) (a.getD 1) = .alignmentConflict name x y := by
    rw [h.left, h.right, Option.getD_some, Option.getD_some]
  cases ho : Alignment.merge (s.alignment? id) a with
  | none =>
    obtain ⟨x, y, hc⟩ := Alignment.merge_eq_none_iff.1 ho
    have hr : s.reconcile id name a = .error (.alignmentConflict name x y) := by
      simp only [reconcile, ho, hconflict hc]
      rfl
    rw [hr, Except.error.injEq]
    constructor
    · rintro rfl
      exact .own hc
    · rintro (hc' | ⟨ho', -⟩)
      · rw [← hconflict hc, ← hconflict hc']
      · rw [ho] at ho'
        cases ho'
  | some own =>
    have hown {x y : UInt32} (hc : Clash (s.alignment? id) a x y) : False := by
      rw [Alignment.merge_eq_none_iff.2 ⟨x, y, hc⟩] at ho
      cases ho
    cases hm : Alignment.merge (s.alignment? (s.canonical id)) a with
    | none =>
      obtain ⟨x, y, hc⟩ := Alignment.merge_eq_none_iff.1 hm
      rw [reconcile_of_conflict (fun _ => ho) hm, hconflict hc, Except.error.injEq]
      constructor
      · rintro rfl
        exact .shared ho hc
      · rintro (hc' | ⟨-, hc'⟩)
        · exact (hown hc').elim
        · rw [← hconflict hc, ← hconflict hc']
    | some m =>
      rw [reconcile_of_merge ho hm]
      constructor
      · intro hok
        cases hok
      · rintro (hc | ⟨-, hc⟩)
        · exact (hown hc).elim
        · rw [Alignment.merge_eq_none_iff.2 ⟨_, _, hc⟩] at hm
          cases hm

end

/-- **What a call does** that is refused. -/
theorem step_of_error (h : s.answer c = .error e) : s.step c = s := by
  have ho := s.outcome c
  rw [h] at ho
  generalize s.step c = s' at ho
  cases ho
  rfl

theorem answer_eq_error_iff_fails : s.answer c = .error e ↔ Fails c.act s e s := by
  refine ⟨fun h => ?_, fun h => (answer_of_fails h).1⟩
  have hrun : c.act.run s = (s.answer c, s.step c) := rfl
  rw [Fails, hrun, h, step_of_error h]

/-- **A call is refused** for one of these reasons, and for no other. -/
theorem answer_eq_error_iff : s.answer c = .error e ↔ s.Refuses c e := by
  rw [answer_eq_error_iff_fails]
  constructor
  · intro h
    cases c with
    | intern bytes name a =>
      simp only [StoreCall.act, fails_bind, fails_pure, and_false, exists_false, or_false] at h
      by_cases ha : a.all Alignment.valid = true
      · obtain ⟨n, rfl, hf⟩ := (fails_intern_iff ha).1 h
        obtain ⟨-, id, hn, hr⟩ := fails_find?_iff.1 hf
        exact .conflict ha rfl hn (reconcile_eq_error_iff.1 hr)
      · obtain ⟨rfl, -⟩ := (fails_intern_invalid ha).1 h
        cases a with
        | none => exact absurd rfl ha
        | some n => exact .invalid (Bool.not_eq_true _ ▸ ha)
    | find name a =>
      obtain ⟨-, id, hn, hr⟩ := fails_find?_iff.1 h
      exact .conflict trivial rfl hn (reconcile_eq_error_iff.1 hr)
    | assign id o =>
      simp only [StoreCall.act, fails_bind, fails_pure, and_false, exists_false, or_false] at h
      obtain ⟨-, ho, rfl⟩ := fails_assignOffset_iff.1 h
      obtain ⟨o', ho⟩ := Option.isSome_iff_exists.1 ho
      exact .placed ho
  · rintro (hn | ⟨hvalid, hname, hn, hc⟩ | ho)
    · have ha (n : UInt32) (hn : Alignment.valid n = false) :
          ¬ (some n).all Alignment.valid = true := by
        rw [Option.all_some, hn]
        exact Bool.false_ne_true
      exact fails_bind.2 (Or.inl ((fails_intern_invalid (ha _ hn)).2 ⟨rfl, rfl⟩))
    · have hf := fails_find?_iff.2 ⟨rfl, _, hn, reconcile_eq_error_iff.2 hc⟩
      cases c with
      | intern bytes name a =>
        exact fails_bind.2 (Or.inl ((fails_intern_iff hvalid).2 ⟨_, hname, hf⟩))
      | find name a =>
        cases hname
        exact hf
      | assign id o => cases hname
    · exact fails_bind.2 (Or.inl (fails_assignOffset_iff.2
        ⟨rfl, Option.isSome_iff_exists.2 ⟨_, ho⟩, rfl⟩))

/-- **A call that is refused changes nothing**, after any calls. -/
theorem refused_unchanged {padSize : UInt32} {dedup : Bool} {calls : List StoreCall}
    (h : ((empty padSize dedup).after calls).answer c = .error e) :
    ((empty padSize dedup).after calls).step c = (empty padSize dedup).after calls ∧
      ((empty padSize dedup).after calls).Refuses c e :=
  ⟨step_of_error h, answer_eq_error_iff.1 h⟩

/-- A file that `"b"` shares with `"a"`, which has been asked for at 12. -/
def Demo.pinned : List StoreCall :=
  [.intern [1, 2, 3, 4] (some "a") (some 12), .intern [1, 2, 3, 4] (some "b") (some 4)]

/-- The alias would be widened to 8, but its canonical blob cannot be. -/
theorem refused_unchanged_pinned :
    ((empty 4 true).after Demo.pinned).answer (.find "b" (some 8)) =
      .error (.alignmentConflict "b" 12 8) ∧
    ((empty 4 true).after Demo.pinned).alignment? ⟨1⟩ = some 4 ∧
    ((empty 4 true).after Demo.pinned).step (.find "b" (some 8)) = (empty 4 true).after Demo.pinned := by
  have h : ((empty 4 true).after Demo.pinned).answer (.find "b" (some 8)) =
      .error (.alignmentConflict "b" 12 8) := by decide +kernel
  exact ⟨h, by decide +kernel, (refused_unchanged h).1⟩

/-! ## Calls that might as well not have been made -/

/-- The calls of a list that are granted. -/
def granted (s : Store) : List StoreCall → List StoreCall
  | [] => []
  | c :: calls => if (s.answer c).isOk then c :: (s.step c).granted calls else s.granted calls

theorem step_of_not_ok (h : ¬ (s.answer c).isOk = true) : s.step c = s := by
  cases ha : s.answer c with
  | ok r => exact absurd (by rw [ha]; rfl) h
  | error e => exact step_of_error ha

/-- **The calls that are refused** have no effect on the store. -/
theorem after_granted (s : Store) (calls : List StoreCall) :
    s.after (s.granted calls) = s.after calls := by
  induction calls generalizing s with
  | nil => rfl
  | cons c calls ih =>
    have hafter (calls : List StoreCall) : s.after (c :: calls) = (s.step c).after calls := rfl
    rw [granted, hafter]
    split_ifs with h
    · rw [hafter, ih]
    · rw [step_of_not_ok h, ih]

/-- **The calls that are refused** have no effect on what the others are answered. -/
theorem log_granted (s : Store) (calls : List StoreCall) :
    s.log (s.granted calls) = (s.log calls).filter fun e => e.answer.isOk := by
  induction calls generalizing s with
  | nil => rfl
  | cons c calls ih =>
    simp only [granted, log, List.filter_cons]
    split_ifs with h
    · rw [log, ih]
    · rw [step_of_not_ok h, ih]

end Store

end LevelBundle
