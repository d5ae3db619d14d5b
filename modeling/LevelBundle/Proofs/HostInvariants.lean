/-
  LevelBundle — what a host keeps, a call keeps.

  Whatever the memory holds, a call does nothing to its host but ask for names.  What holds of the
  host at first, and still holds when it has been asked for a name, holds of it after the call.

  * `Serves host Q`: the host keeps `Q`, and answers no address that a loader refuses.
  * `Keeps Q P x`: a step keeps `Q` of its host, and its answers have `P`; it does not fail for an
    address that is refused.
  * `keeps_init`: a call does so if its host serves.
-/
import LevelBundle.Proofs.Confinement

namespace LevelBundle

variable {σ α β : Type}

/-- A host keeps a property whatever it is asked for, and answers no address that a loader
    refuses. -/
def FileHost.Serves (host : FileHost σ) (Q : σ → Prop) : Prop :=
  ∀ name g, Q g → Q ((host name).run g).2 ∧
    ∀ v, ((host name).run g).1 = .ok v → ¬ (v = 0 ∨ v % 2 ≠ 0)

namespace Loader

/-! ## Questions -/

section

variable {l : Loader} {name : String} {v : UInt32}

theorem read_ne_badAddress (block offset : ℕ) : l.read block offset ≠ .error (.badAddress name v) := by
  unfold read
  split <;> simp [outside]

theorem write_ne_badAddress (block offset : ℕ) (w : UInt32) :
    l.write block offset w ≠ .error (.badAddress name v) := by
  unfold write
  split_ifs <;> simp [outside]

theorem locate_ne_badAddress (p : Position) : l.locate p ≠ .error (.badAddress name v) := by
  simp only [locate]
  split_ifs <;> simp [outside]

theorem address_ne_badAddress (p : Position) : l.address p ≠ .error (.badAddress name v) := by
  intro h
  rw [address, bind_eq_error] at h
  rcases h with h | ⟨⟨block, offset⟩, -, h⟩
  · exact locate_ne_badAddress p h
  · simp only at h
    split_ifs at h
    · cases h
    · simp [outside] at h

theorem recordName_ne_badAddress (block offset : ℕ) (record : Position) :
    l.recordName block offset record ≠ .error (.badAddress name v) := by
  simp only [recordName]
  split_ifs
  · simp
  · split <;> simp

theorem chunkEntries_ne_badAddress : l.chunkEntries ≠ .error (.badAddress name v) := by
  have key (left : ℕ) : ∀ index, l.countEntries index left ≠ .error (.badAddress name v) := by
    induction left with
    | zero => exact fun _ => nofun
    | succ left ih =>
      intro index h
      rw [countEntries, bind_eq_error] at h
      rcases h with h | ⟨w, -, h⟩
      · exact read_ne_badAddress _ _ h
      · split_ifs at h
        · cases h
        · exact ih _ h
  exact key _ 0

end

/-! ## Steps -/

/-- A step keeps a property of its host; its answers have another, and it does not fail for an
    address that is refused. -/
def Keeps (Q : σ → Prop) (P : α → Prop) (x : LoadM σ α) : Prop :=
  ∀ s r t, @Eq (Except LoadError α × Hosted σ) (x.run s) (r, t) → Q s.host →
    Q t.host ∧ (∀ a, r = .ok a → P a) ∧ ∀ name v, r ≠ .error (.badAddress name v)

namespace Keeps

variable {Q : σ → Prop} {P : α → Prop} {P' : β → Prop} {x : LoadM σ α} {e : LoadError}

theorem pure {a : α} (h : P a) : Keeps Q P (Pure.pure a) := by
  intro s r t hrun hs
  cases hrun
  refine ⟨hs, ?_, nofun⟩
  rintro _ ⟨⟩
  exact h

theorem throw (h : ∀ name v, e ≠ .badAddress name v) :
    Keeps Q P (MonadExcept.throw e : LoadM σ α) := by
  intro s r t hrun hs
  cases hrun
  refine ⟨hs, nofun, ?_⟩
  rintro name v ⟨⟩
  exact h name v rfl

theorem bind {f : α → LoadM σ β} (h : Keeps Q P x) (hf : ∀ a, P a → Keeps Q P' (f a)) :
    Keeps Q P' (x >>= f) := by
  intro s r t hrun hs
  rcases hx : x.run s with ⟨e | a, u⟩
  · rw [run_bind_error hx] at hrun
    cases hrun
    obtain ⟨hu, -, hgood⟩ := h s _ _ hx hs
    refine ⟨hu, nofun, ?_⟩
    rintro name v ⟨⟩
    exact hgood name v rfl
  · rw [run_bind_ok hx] at hrun
    obtain ⟨hu, ha, -⟩ := h s _ _ hx hs
    exact hf a (ha a rfl) u r t hrun hu

theorem ask {question : Loader → Except LoadError α}
    (h : ∀ l name v, question l ≠ .error (.badAddress name v)) :
    Keeps Q (fun _ => True) (Loader.ask question) := by
  intro s r t hrun hs
  rw [run_question] at hrun
  cases hrun
  exact ⟨hs, fun _ _ => trivial, h s.loader⟩

theorem change {act : Loader → Except LoadError Loader}
    (h : ∀ l name v, act l ≠ .error (.badAddress name v)) :
    Keeps Q (fun _ => True) (Loader.change act) := by
  intro s r t hrun hs
  cases r with
  | ok u =>
    obtain ⟨l, -, rfl⟩ := runs_change.1 hrun
    exact ⟨hs, fun _ _ => trivial, nofun⟩
  | error e =>
    obtain ⟨he, rfl⟩ := fails_change.1 hrun
    refine ⟨hs, fun _ _ => trivial, ?_⟩
    rintro name v ⟨⟩
    exact h s.loader name v he

/-- A request to a host that serves. -/
theorem askHost {host : FileHost σ} (h : host.Serves Q) (name : String) :
    Keeps Q (fun v => ¬ (v = 0 ∨ v % 2 ≠ 0)) (Loader.askHost host name) := by
  rintro ⟨l, g⟩ r t hrun hs
  obtain ⟨hkept, hanswer⟩ := h name g hs
  rw [run_askHost] at hrun
  rcases hg : (host name).run g with ⟨_ | v, g'⟩
  all_goals
    rw [hg] at hrun hkept hanswer
    cases hrun
  · exact ⟨hkept, nofun, nofun⟩
  · refine ⟨hkept, ?_, nofun⟩
    rintro _ ⟨⟩
    exact hanswer v rfl

theorem look {f : Hosted σ → LoadM σ α} (h : ∀ s, Keeps Q P (f s)) : Keeps Q P (get >>= f) :=
  fun s r t hrun hs => h s s r t hrun hs

theorem check {c : Prop} [Decidable c] {f : PUnit → LoadM σ α}
    (he : c → ∀ name v, e ≠ .badAddress name v) (h : Keeps Q P x) :
    Keeps Q P (if c then MonadExcept.throw e >>= f else x) := by
  split_ifs with hc
  · exact .bind (P := fun _ => False) (.throw (he hc)) fun _ => False.elim
  · exact h

theorem forM {f : α → LoadM σ Unit} (h : ∀ a, Keeps Q (fun _ => True) (f a)) (l : List α) :
    Keeps Q (fun _ => True) (l.forM f) := by
  induction l with
  | nil => exact .pure trivial
  | cons a l ih =>
    rw [List.forM_eq_forM, List.forM_cons]
    exact .bind (h a) fun _ _ => ih

end Keeps

section

variable {host : FileHost σ} {Q : σ → Prop} (h : host.Serves Q)
include h

theorem keeps_runtimeFile (p : Position) : Keeps Q (fun _ => True) (runtimeFile host p) := by
  refine .bind (.ask fun _ _ _ => locate_ne_badAddress p) fun ⟨block, offset⟩ _ => ?_
  refine .bind (.ask fun _ _ _ => read_ne_badAddress block offset) fun cached _ => ?_
  split_ifs
  · exact .pure trivial
  · refine .bind (.ask fun _ _ _ => recordName_ne_badAddress block (offset + 4) p) fun name _ => ?_
    refine .bind (.askHost h name) fun address hgood => ?_
    exact .check (fun hbad => absurd hbad hgood) (.bind
      (.change fun _ _ _ => write_ne_badAddress block offset address) fun _ _ => .pure trivial)

theorem keeps_target (p : Position) : Keeps Q (fun _ => True) (target host p) := by
  unfold target
  split_ifs
  · exact keeps_runtimeFile h p
  · exact .bind (.ask fun _ _ _ => address_ne_badAddress p) fun _ _ => .pure trivial

theorem keeps_resolveSlot (entry : Position) :
    Keeps Q (fun _ => True) (resolveSlot host entry) := by
  refine .bind (.ask fun _ _ _ => locate_ne_badAddress entry) fun ⟨block, offset⟩ _ => ?_
  refine .bind (.ask fun _ _ _ => read_ne_badAddress block offset) fun w _ => ?_
  cases Slot.ofWord w with
  | resolved _ => exact .pure trivial
  | unresolved p =>
    refine .bind (keeps_target h p) fun found _ => ?_
    exact .bind (.change fun _ _ _ => write_ne_badAddress block offset _) fun _ _ => .pure trivial

theorem keeps_resolveSlots (table : Position) (block left offset : ℕ) (done : ℕ × ℕ) :
    Keeps Q (fun _ => True) (resolveSlots host table block left offset done) := by
  induction left generalizing offset done with
  | zero => exact .throw fun _ _ => nofun
  | succ left ih =>
    refine .bind (.ask fun _ _ _ => read_ne_badAddress block offset) fun entry _ => ?_
    split_ifs
    · exact .pure trivial
    · exact .bind (keeps_resolveSlot h ⟨entry⟩) fun _ _ => ih _ _

theorem keeps_resolveTable (table : Position) :
    Keeps Q (fun _ => True) (resolveTable host table) := by
  unfold resolveTable
  split_ifs
  · exact .pure trivial
  · exact .bind (.ask fun _ _ _ => locate_ne_badAddress table) fun ⟨block, offset⟩ _ =>
      .look fun _ => keeps_resolveSlots h table block _ offset (0, 0)

omit h in
theorem keeps_fillEntry (i : ℕ) : Keeps Q (fun _ => True) (fillEntry i) := by
  refine .bind (.ask fun _ _ _ => read_ne_badAddress 0 (4 * i)) fun value _ => .look fun _ => ?_
  exact .check (fun _ _ _ => nofun) (.change fun _ _ _ => write_ne_badAddress 0 (4 * i) _)

/-- **A call keeps what its host keeps**, and does not fail for an address that is refused. -/
theorem keeps_init : Keeps Q (fun _ => True) (init host) := by
  refine .bind (.ask fun _ _ _ => chunkEntries_ne_badAddress) fun entries _ => .look fun _ => ?_
  refine .check (fun _ _ _ => nofun) ?_
  refine .bind (.ask fun _ _ _ => read_ne_badAddress 0 _) fun start _ => ?_
  refine .bind (.ask fun _ _ _ => read_ne_badAddress 0 _) fun table _ => ?_
  cases Slot.ofWord start with
  | resolved root => exact .check (fun _ _ _ => nofun) (.pure trivial)
  | unresolved p =>
    refine .bind (.forM keeps_fillEntry _) fun _ _ => ?_
    refine .bind (keeps_resolveTable h ⟨table⟩) fun _ _ => ?_
    refine .bind (.ask fun _ _ _ => address_ne_badAddress p) fun root _ => ?_
    exact .bind (.change fun _ _ _ => write_ne_badAddress 0 _ root) fun _ _ => .pure trivial

end

end Loader

end LevelBundle
