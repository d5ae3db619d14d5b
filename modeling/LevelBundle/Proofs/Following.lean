/-
  LevelBundle — two runs, one after the other's model.

  `Follows E P x y Q` compares a step `x` with a step `y` that starts from a related
  state: whatever `x` answers, `y` answers too and leaves a state related to that of `x`,
  or `y` fails with an error in `E`.  Nothing is asked where `x` fails.
-/
import LevelBundle.Proofs.Steps

namespace LevelBundle

variable {ε σ α β γ : Type}

/-- From states in `P`, the step `y` answers what `x` answers and leaves states in `Q`, or
    it fails with an error in `E`. -/
structure Follows (E : ε → Prop) (P : σ → σ → Prop) (x y : ExceptT ε (StateM σ) α)
    (Q : α → σ → σ → Prop) : Prop where
  run : ∀ {s t a s'}, P s t → Runs x s a s' →
    (∃ t', Runs y t a t' ∧ Q a s' t') ∨ ∃ e t', Fails y t e t' ∧ E e

namespace Follows

variable {E : ε → Prop} {P P' : σ → σ → Prop} {x y : ExceptT ε (StateM σ) α}
  {Q Q' : α → σ → σ → Prop} {R : β → σ → σ → Prop}

theorem mono (h : Follows E P x y Q) (hP : ∀ {s t}, P' s t → P s t)
    (hQ : ∀ {a s t}, Q a s t → Q' a s t) : Follows E P' x y Q' := by
  constructor
  intro s t a s' hst hx
  rcases h.run (hP hst) hx with ⟨t', hy, hq⟩ | hfail
  · exact Or.inl ⟨t', hy, hQ hq⟩
  · exact Or.inr hfail

theorem answered (h : Follows E P x y Q) :
    Follows E P x y fun a s t => Q a s t ∧ ∃ s₀, Runs x s₀ a s := by
  constructor
  intro s t a s' hst hx
  rcases h.run hst hx with ⟨t', hy, hq⟩ | hfail
  · exact Or.inl ⟨t', hy, hq, s, hx⟩
  · exact Or.inr hfail

theorem of (h : ∀ {s t}, P s t → Follows E P x y Q) : Follows E P x y Q :=
  ⟨fun hst hx => (h hst).run hst hx⟩

theorem pure {a : α} (h : ∀ {s t}, P s t → Q a s t) : Follows E P (Pure.pure a) (Pure.pure a) Q := by
  constructor
  intro s t b s' hst hx
  obtain ⟨rfl, rfl⟩ := runs_pure.1 hx
  exact Or.inl ⟨t, runs_pure.2 ⟨rfl, rfl⟩, h hst⟩

theorem throw {e : ε} : Follows E P (throw e) y Q :=
  ⟨fun _ hx => absurd hx runs_throw⟩

theorem modify {f g : σ → σ} (h : ∀ {s t}, P s t → P' (f s) (g t)) :
    Follows E P (modify f) (modify g) fun _ => P' := by
  constructor
  intro s t a s' hst hx
  obtain rfl := runs_modify.1 hx
  exact Or.inl ⟨g t, runs_modify.2 rfl, h hst⟩

theorem set {u v : σ} (h : ∀ {s t}, P s t → P' u v) :
    Follows E P (set u) (set v) fun _ => P' := by
  constructor
  intro s t a s' hst hx
  obtain rfl := runs_set.1 hx
  exact Or.inl ⟨v, runs_set.2 rfl, h hst⟩

/-- **Two steps, one after the other.** -/
theorem bind {f g : α → ExceptT ε (StateM σ) β} (h : Follows E P x y Q)
    (hf : ∀ a, Follows E (Q a) (f a) (g a) R) : Follows E P (x >>= f) (y >>= g) R := by
  constructor
  intro s t b s' hst hx
  obtain ⟨a, s₁, h1, h2⟩ := runs_bind.1 hx
  rcases h.run hst h1 with ⟨t₁, hy, hq⟩ | ⟨e, t₁, hy, he⟩
  · rcases (hf a).run hq h2 with ⟨t', hg, hr⟩ | ⟨e, t', hg, he⟩
    · exact Or.inl ⟨t', runs_bind.2 ⟨a, t₁, hy, hg⟩, hr⟩
    · exact Or.inr ⟨e, t', fails_bind.2 (Or.inr ⟨a, t₁, hy, hg⟩), he⟩
  · exact Or.inr ⟨e, t₁, fails_bind.2 (Or.inl hy), he⟩

theorem get {f g : σ → ExceptT ε (StateM σ) α}
    (h : ∀ {s t}, P s t → Follows E (fun s' t' => s' = s ∧ t' = t) (f s) (g t) Q) :
    Follows E P (MonadState.get >>= f) (MonadState.get >>= g) Q := by
  constructor
  intro s t a s' hst hx
  obtain ⟨_, _, h1, h2⟩ := runs_bind.1 hx
  obtain ⟨rfl, rfl⟩ := runs_get.1 h1
  rcases (h hst).run ⟨rfl, rfl⟩ h2 with ⟨t', hg, hq⟩ | ⟨e, t', hg, he⟩
  · exact Or.inl ⟨t', runs_bind.2 ⟨t, t, runs_get.2 ⟨rfl, rfl⟩, hg⟩, hq⟩
  · exact Or.inr ⟨e, t', fails_bind.2 (Or.inr ⟨t, t, runs_get.2 ⟨rfl, rfl⟩, hg⟩), he⟩

theorem look {f g : σ → ExceptT ε (StateM σ) α} (h : ∀ {s t}, P s t → Follows E P (f s) (g t) Q) :
    Follows E P (MonadState.get >>= f) (MonadState.get >>= g) Q := by
  refine get fun {s t} hst => (h hst).mono ?_ fun hq => hq
  rintro _ _ ⟨rfl, rfl⟩
  exact hst

theorem throw_bind {e : ε} {f : α → ExceptT ε (StateM σ) β} {y : ExceptT ε (StateM σ) β} :
    Follows E P (MonadExcept.throw e >>= f) y R := by
  constructor
  intro s t b s' _ hx
  obtain ⟨_, _, h1, -⟩ := runs_bind.1 hx
  exact absurd h1 runs_throw

/-- What is computed without the state. -/
theorem bind_lift {x : Except ε α} {f g : α → ExceptT ε (StateM σ) β}
    (h : ∀ a, x = .ok a → Follows E P (f a) (g a) R) :
    Follows E P (liftM x >>= f) (liftM x >>= g) R := by
  constructor
  intro s t b s' hst hx
  obtain ⟨a, _, h1, h2⟩ := runs_bind.1 hx
  obtain ⟨ha, rfl⟩ := runs_lift.1 h1
  have hy : Runs (liftM x) t a t := runs_lift.2 ⟨ha, rfl⟩
  rcases (h a ha).run hst h2 with ⟨t', hg, hr⟩ | ⟨e, t', hg, he⟩
  · exact Or.inl ⟨t', runs_bind.2 ⟨a, t, hy, hg⟩, hr⟩
  · exact Or.inr ⟨e, t', fails_bind.2 (Or.inr ⟨a, t, hy, hg⟩), he⟩

/-- **A list of steps.** -/
theorem foldlM {f : β → γ → ExceptT ε (StateM σ) β} {l : List γ}
    (h : ∀ c ∈ l, ∀ d, Follows E P (f d c) (f d c) fun _ => P) (d : β) :
    Follows E P (l.foldlM f d) (l.foldlM f d) fun _ => P := by
  induction l generalizing d with
  | nil => exact .pure fun h => h
  | cons c l ih =>
    rw [List.foldlM_cons]
    refine (h c (by simp) d).bind fun d' => ih ?_ d'
    intro c' hc
    exact h c' (by simp [hc])

end Follows

end LevelBundle
