/-
  LevelBundle — steps that may fail and keep their state.

  Reading, compiling, packing and resolving are all written as steps over a
  state: a step answers or fails, and what it has changed before stays.
  `Runs x s a t` says that the step `x` answers `a` from the state `s` and leaves
  `t`, and `Fails x s e t` that it fails with `e`.  The lemmas below take a run of a
  composed step apart, and `Runs.foldlM` carries an invariant along a list of steps.
-/
import LevelBundle.Word
import Mathlib.Algebra.Order.Ring.Nat
import Mathlib.Data.List.Forall2
import Mathlib.Tactic.Common

namespace LevelBundle

variable {ε σ α β : Type}

/-! ## Answers that may fail -/

@[simp] theorem bind_eq_ok {x : Except ε α} {f : α → Except ε β} {b : β} :
    x >>= f = .ok b ↔ ∃ a, x = .ok a ∧ f a = .ok b := by
  constructor
  · intro h
    cases x with
    | error e => cases h
    | ok a => exact ⟨a, rfl, h⟩
  · rintro ⟨a, rfl, h⟩
    exact h

@[simp] theorem pure_eq_ok {a b : α} : (pure a : Except ε α) = .ok b ↔ a = b :=
  ⟨fun h => by cases h; rfl, fun h => h ▸ rfl⟩

@[simp] theorem throw_ne_ok {e : ε} {a : α} : ¬ (throw e : Except ε α) = .ok a := nofun

@[simp] theorem mapError_eq_ok {ε' : Type} {f : ε → ε'} {x : Except ε α} {a : α} :
    x.mapError f = .ok a ↔ x = .ok a := by
  cases x <;> simp [Except.mapError]

theorem ok_of_toOption {x : Except ε α} {a : α} (h : x.toOption = some a) : x = .ok a := by
  cases x <;> cases h
  rfl

theorem check_eq_ok {c : Prop} [Decidable c] {e : ε} {f : PUnit → Except ε α}
    {x : Except ε α} {a : α} : (if c then throw e >>= f else x) = .ok a ↔ ¬ c ∧ x = .ok a := by
  split_ifs with h
  · simp only [bind_eq_ok, throw_ne_ok, false_and, exists_false, h, not_true_eq_false]
  · simp only [h, not_false_eq_true, true_and]

theorem mapM_eq_ok {f : α → Except ε β} : ∀ {l : List α} {bs : List β},
    l.mapM f = .ok bs ↔ List.Forall₂ (fun a b => f a = .ok b) l bs
  | [], bs => by
    rw [List.mapM_nil, pure_eq_ok, List.forall₂_nil_left_iff, eq_comm]
  | a :: l, bs => by
    simp only [List.mapM_cons, bind_eq_ok, pure_eq_ok, mapM_eq_ok, List.forall₂_cons_left_iff]
    constructor
    · rintro ⟨b, h1, bs', h2, rfl⟩; exact ⟨b, bs', h1, h2, rfl⟩
    · rintro ⟨b, bs', h1, h2, rfl⟩; exact ⟨b, h1, bs', h2, rfl⟩

/-! ## Failures -/

@[simp] theorem bind_eq_error {x : Except ε α} {f : α → Except ε β} {e : ε} :
    x >>= f = .error e ↔ x = .error e ∨ ∃ a, x = .ok a ∧ f a = .error e := by
  cases x with
  | error e' => simp [bind, Except.bind]
  | ok a => simp [bind, Except.bind]

@[simp] theorem pure_ne_error {a : α} {e : ε} : ¬ (pure a : Except ε α) = .error e := nofun

@[simp] theorem throw_eq_error {e e' : ε} : (throw e : Except ε α) = .error e' ↔ e = e' :=
  ⟨fun h => by cases h; rfl, fun h => h ▸ rfl⟩

theorem check_eq_error {c : Prop} [Decidable c] {e e' : ε} {f : PUnit → Except ε α}
    {x : Except ε α} : (if c then throw e >>= f else x) = .error e' ↔
      (c ∧ e = e') ∨ (¬ c ∧ x = .error e') := by
  split_ifs with h <;> simp [h]

/-- A step fails on a list when it fails on a member. -/
theorem mapM_eq_error {f : α → Except ε β} {l : List α} {e : ε} (h : l.mapM f = .error e) :
    ∃ a ∈ l, f a = .error e := by
  induction l with
  | nil => cases h
  | cons a l ih =>
    rw [List.mapM_cons, bind_eq_error] at h
    rcases h with h | ⟨b, -, h⟩
    · exact ⟨a, by simp, h⟩
    · simp only [bind_eq_error, pure_ne_error, and_false, exists_false, or_false] at h
      obtain ⟨a', ha', h⟩ := ih h
      exact ⟨a', by simp [ha'], h⟩

theorem foldlM_eq_error {γ : Type} {f : β → γ → Except ε β} {l : List γ} {d : β} {e : ε}
    (h : l.foldlM f d = .error e) : ∃ c ∈ l, ∃ d', f d' c = .error e := by
  induction l generalizing d with
  | nil => cases h
  | cons c l ih =>
    rw [List.foldlM_cons, bind_eq_error] at h
    rcases h with h | ⟨d₁, -, h⟩
    · exact ⟨c, by simp, d, h⟩
    · obtain ⟨c', hc', h⟩ := ih h
      exact ⟨c', by simp [hc'], h⟩

theorem mapM_ok {f : α → Except ε β} {l : List α} (h : ∀ a ∈ l, ∃ b, f a = .ok b) :
    ∃ bs, l.mapM f = .ok bs := by
  induction l with
  | nil => exact ⟨[], rfl⟩
  | cons a l ih =>
    obtain ⟨b, hb⟩ := h a (by simp)
    obtain ⟨bs, hbs⟩ := ih fun a' ha => h a' (by simp [ha])
    exact ⟨b :: bs, by simp [List.mapM_cons, hb, hbs]⟩

theorem foldlM_ok {γ : Type} {f : β → γ → Except ε β} {l : List γ}
    (h : ∀ c ∈ l, ∀ d, ∃ d', f d c = .ok d') (d : β) : ∃ d', l.foldlM f d = .ok d' := by
  induction l generalizing d with
  | nil => exact ⟨d, rfl⟩
  | cons c l ih =>
    obtain ⟨d₁, h1⟩ := h c (by simp) d
    obtain ⟨d', h2⟩ := ih (fun c' hc => h c' (by simp [hc])) d₁
    exact ⟨d', by rw [List.foldlM_cons, bind_eq_ok]; exact ⟨d₁, h1, h2⟩⟩

/-! ## What a composed step does -/

theorem run_bind (x : ExceptT ε (StateM σ) α) (f : α → ExceptT ε (StateM σ) β) (s : σ) :
    ((x >>= f).run s : Except ε β × σ) = match (x.run s : Except ε α × σ) with
      | (.ok a, t) => (f a).run t
      | (.error e, t) => (.error e, t) := by
  show (ExceptT.bind x f).run s = _
  simp only [ExceptT.bind, ExceptT.run, ExceptT.mk]
  show (StateT.bind x _) s = _
  simp only [StateT.bind]
  show (match x s with | (a, s) => _) = _
  rcases x s with ⟨_ | _, _⟩ <;> rfl

theorem run_bind_ok {x : ExceptT ε (StateM σ) α} {f : α → ExceptT ε (StateM σ) β} {s t : σ} {a : α}
    (h : @Eq (Except ε α × σ) (x.run s) (.ok a, t)) :
    ((x >>= f).run s : Except ε β × σ) = (f a).run t := by
  rw [run_bind, h]

theorem run_bind_error {x : ExceptT ε (StateM σ) α} {f : α → ExceptT ε (StateM σ) β} {s t : σ}
    {e : ε} (h : @Eq (Except ε α × σ) (x.run s) (.error e, t)) :
    ((x >>= f).run s : Except ε β × σ) = (.error e, t) := by
  rw [run_bind, h]

theorem run_pure (a : α) (s : σ) :
    ((pure a : ExceptT ε (StateM σ) α).run s : Except ε α × σ) = (.ok a, s) := rfl

theorem run_throw (e : ε) (s : σ) :
    ((throw e : ExceptT ε (StateM σ) α).run s : Except ε α × σ) = (.error e, s) := rfl

theorem run_get (s : σ) :
    ((get : ExceptT ε (StateM σ) σ).run s : Except ε σ × σ) = (.ok s, s) := rfl

theorem run_set (s t : σ) :
    ((set t : ExceptT ε (StateM σ) PUnit).run s : Except ε PUnit × σ) = (.ok ⟨⟩, t) := rfl

theorem run_modify (f : σ → σ) (s : σ) :
    ((modify f : ExceptT ε (StateM σ) PUnit).run s : Except ε PUnit × σ) = (.ok ⟨⟩, f s) := rfl

theorem run_lift (e : Except ε α) (s : σ) :
    ((liftM e : ExceptT ε (StateM σ) α).run s : Except ε α × σ) = (e, s) := by
  cases e <;> rfl

/-! ## Runs -/

/-- The step `x` answers `a` from the state `s` and leaves the state `t`. -/
def Runs (x : ExceptT ε (StateM σ) α) (s : σ) (a : α) (t : σ) : Prop :=
  @Eq (Except ε α × σ) (x.run s) (.ok a, t)

variable {s t : σ} {a b : α}

@[simp] theorem runs_pure : Runs (pure a : ExceptT ε (StateM σ) α) s b t ↔ a = b ∧ s = t := by
  simp only [Runs, run_pure, Prod.mk.injEq, Except.ok.injEq]

@[simp] theorem runs_throw {e : ε} : ¬ Runs (throw e : ExceptT ε (StateM σ) α) s a t := by
  simp only [Runs, run_throw, Prod.mk.injEq, reduceCtorEq, false_and, not_false_eq_true]

@[simp] theorem runs_get {u : σ} :
    Runs (get : ExceptT ε (StateM σ) σ) s u t ↔ s = u ∧ s = t := by
  simp only [Runs, run_get, Prod.mk.injEq, Except.ok.injEq]

@[simp] theorem runs_set {u : σ} {x : PUnit} :
    Runs (set u : ExceptT ε (StateM σ) PUnit) s x t ↔ u = t := by
  simp only [Runs, run_set, Prod.mk.injEq, true_and]

@[simp] theorem runs_modify {f : σ → σ} {x : PUnit} :
    Runs (modify f : ExceptT ε (StateM σ) PUnit) s x t ↔ f s = t := by
  simp only [Runs, run_modify, Prod.mk.injEq, true_and]

@[simp] theorem runs_lift {e : Except ε α} :
    Runs (liftM e : ExceptT ε (StateM σ) α) s a t ↔ e = .ok a ∧ s = t := by
  simp only [Runs, run_lift, Prod.mk.injEq]

@[simp] theorem runs_bind {x : ExceptT ε (StateM σ) α} {f : α → ExceptT ε (StateM σ) β} {b : β} :
    Runs (x >>= f) s b t ↔ ∃ a u, Runs x s a u ∧ Runs (f a) u b t := by
  unfold Runs
  rw [run_bind]
  rcases h : x.run s with ⟨e | a, u⟩
  · simp only [Prod.mk.injEq, reduceCtorEq, false_and, exists_false]
  · constructor
    · exact fun h' => ⟨a, u, rfl, h'⟩
    · rintro ⟨a', u', h1, h2⟩
      cases h1; exact h2

/-! ## Runs that fail -/

/-- The step `x` fails with `e` from the state `s` and leaves the state `t`. -/
def Fails (x : ExceptT ε (StateM σ) α) (s : σ) (e : ε) (t : σ) : Prop :=
  @Eq (Except ε α × σ) (x.run s) (.error e, t)

variable {e e' : ε}

@[simp] theorem fails_pure : ¬ Fails (pure a : ExceptT ε (StateM σ) α) s e t := by
  simp only [Fails, run_pure, Prod.mk.injEq, reduceCtorEq, false_and, not_false_eq_true]

@[simp] theorem fails_throw :
    Fails (throw e : ExceptT ε (StateM σ) α) s e' t ↔ e = e' ∧ s = t := by
  simp only [Fails, run_throw, Prod.mk.injEq, Except.error.injEq]

@[simp] theorem fails_get : ¬ Fails (get : ExceptT ε (StateM σ) σ) s e t := by
  simp only [Fails, run_get, Prod.mk.injEq, reduceCtorEq, false_and, not_false_eq_true]

@[simp] theorem fails_set {u : σ} : ¬ Fails (set u : ExceptT ε (StateM σ) PUnit) s e t := by
  simp only [Fails, run_set, Prod.mk.injEq, reduceCtorEq, false_and, not_false_eq_true]

@[simp] theorem fails_modify {f : σ → σ} :
    ¬ Fails (modify f : ExceptT ε (StateM σ) PUnit) s e t := by
  simp only [Fails, run_modify, Prod.mk.injEq, reduceCtorEq, false_and, not_false_eq_true]

@[simp] theorem fails_lift {x : Except ε α} :
    Fails (liftM x : ExceptT ε (StateM σ) α) s e t ↔ x = .error e ∧ s = t := by
  simp only [Fails, run_lift, Prod.mk.injEq]

/-- A composed step fails in its first half, or in its second. -/
@[simp] theorem fails_bind {x : ExceptT ε (StateM σ) α} {f : α → ExceptT ε (StateM σ) β} :
    Fails (x >>= f) s e t ↔ Fails x s e t ∨ ∃ a u, Runs x s a u ∧ Fails (f a) u e t := by
  unfold Fails Runs
  rw [run_bind]
  rcases h : x.run s with ⟨e' | a, u⟩
  · simp
  · constructor
    · exact fun h' => Or.inr ⟨a, u, rfl, h'⟩
    · rintro (h' | ⟨a', u', h1, h2⟩)
      · cases h'
      · cases h1; exact h2

/-! ## Lists of steps -/

/-- **An invariant along a list of steps.** -/
theorem Runs.foldlM {γ : Type} {f : β → γ → ExceptT ε (StateM σ) β} {P : β → σ → Prop}
    {l : List γ} {d d' : β} (h : Runs (l.foldlM f d) s d' t) (h0 : P d s)
    (hstep : ∀ c ∈ l, ∀ d s d' t, P d s → Runs (f d c) s d' t → P d' t) : P d' t := by
  induction l generalizing d s with
  | nil =>
    obtain ⟨rfl, rfl⟩ := runs_pure.1 h
    exact h0
  | cons c l ih =>
    rw [List.foldlM_cons, runs_bind] at h
    obtain ⟨d₁, s₁, h1, h2⟩ := h
    exact ih h2 (hstep c (by simp) d s d₁ s₁ h0 h1) fun c' hc' => hstep c' (by simp [hc'])

end LevelBundle
