/-
  LevelBundle — two runs, side by side.

  * `Matches R x y`: two answers are the same error, or both are there and related by `R`.
  * `Together P x y Q`: from states related by `P`, two steps fail with the same error, or
    what they answer and the states that they leave are related by `Q`.

  The two steps may answer different things and go through different states, so that each
  lemma has a relation for what was answered before.
-/
import LevelBundle.Proofs.Steps

namespace LevelBundle

variable {ε σ α α' β β' γ γ' : Type}

/-! ## Answers -/

/-- Two answers are the same error, or both are there and related. -/
inductive Matches (R : α → α' → Prop) : Except ε α → Except ε α' → Prop
  /-- Both are there. -/
  | ok {a : α} {a' : α'} : R a a' → Matches R (.ok a) (.ok a')
  /-- Both are this error. -/
  | error (e : ε) : Matches R (.error e) (.error e)

namespace Matches

variable {R : α → α' → Prop} {Q : β → β' → Prop} {V : γ → γ' → Prop} {x : Except ε α}
  {x' : Except ε α'}

theorem refl {R : α → α → Prop} (x : Except ε α) (h : ∀ a, x = .ok a → R a a) : Matches R x x := by
  cases x with
  | error e => exact .error e
  | ok a => exact .ok (h a rfl)

theorem mono {R' : α → α' → Prop} (h : Matches R x x') (hR : ∀ {a a'}, R a a' → R' a a') :
    Matches R' x x' := by
  cases h with
  | ok h => exact .ok (hR h)
  | error e => exact .error e

theorem of_ok {a : α} (h : Matches R (.ok a) x') : ∃ a', x' = .ok a' ∧ R a a' := by
  cases h with
  | ok h => exact ⟨_, rfl, h⟩

theorem of_error {e : ε} (h : Matches R (.error e) x') : x' = .error e := by
  cases h with
  | error => rfl

theorem with_eq (h : Matches R x x') :
    Matches (fun a a' => R a a' ∧ x = .ok a ∧ x' = .ok a') x x' := by
  cases h with
  | ok h => exact .ok ⟨h, rfl, rfl⟩
  | error e => exact .error e

/-- **Two answers, and what comes of them.** -/
theorem bind {f : α → Except ε β} {f' : α' → Except ε β'} (h : Matches R x x')
    (hf : ∀ {a a'}, R a a' → Matches Q (f a) (f' a')) : Matches Q (x >>= f) (x' >>= f') := by
  cases h with
  | ok h => exact hf h
  | error e => exact .error e

theorem bind_same {f : α → Except ε β} {f' : α → Except ε β'}
    (h : ∀ a, x = .ok a → Matches Q (f a) (f' a)) : Matches Q (x >>= f) (x >>= f') := by
  cases x with
  | ok a => exact h a rfl
  | error e => exact .error e

theorem ite {c : Prop} [Decidable c] {y : Except ε α} {y' : Except ε α'} (hx : c → Matches R x x')
    (hy : ¬ c → Matches R y y') : Matches R (if c then x else y) (if c then x' else y') := by
  split_ifs with h
  · exact hx h
  · exact hy h

theorem check {c : Prop} [Decidable c] {e : ε} {f : PUnit → Except ε α} {f' : PUnit → Except ε α'}
    (h : ¬ c → Matches R x x') :
    Matches R (if c then throw e >>= f else x) (if c then throw e >>= f' else x') :=
  .ite (fun _ => .error e) h

theorem ite_bind {c : Prop} [Decidable c] {y : Except ε α} {y' : Except ε α'} {f : α → Except ε β}
    {f' : α' → Except ε β'} (hx : c → Matches R x x') (hy : ¬ c → Matches R y y')
    (hf : ∀ {a a'}, R a a' → Matches Q (f a) (f' a')) :
    Matches Q (if c then x >>= f else y >>= f) (if c then x' >>= f' else y' >>= f') :=
  .ite (fun h => (hx h).bind hf) fun h => (hy h).bind hf

theorem map {f : α → β} {f' : α' → β'} (h : Matches R x x')
    (hf : ∀ {a a'}, R a a' → Q (f a) (f' a')) : Matches Q (x.map f) (x'.map f') := by
  cases h with
  | ok h => exact .ok (hf h)
  | error e => exact .error e

/-- **Two loops** over lists whose members are related. -/
theorem foldlM {f : β → γ → Except ε β} {f' : β' → γ' → Except ε β'} {l : List γ} {l' : List γ'}
    (hl : List.Forall₂ V l l')
    (hf : ∀ {c c' b b'}, V c c' → Q b b' → Matches Q (f b c) (f' b' c')) {b : β} {b' : β'}
    (hb : Q b b') : Matches Q (l.foldlM f b) (l'.foldlM f' b') := by
  induction hl generalizing b b' with
  | nil => exact .ok hb
  | cons hc _ ih =>
    rw [List.foldlM_cons, List.foldlM_cons]
    exact (hf hc hb).bind fun hb' => ih hb'

theorem mapM {f : γ → Except ε β} {f' : γ → Except ε β'} {l : List γ}
    (hf : ∀ c ∈ l, Matches Q (f c) (f' c)) : Matches (List.Forall₂ Q) (l.mapM f) (l.mapM f') := by
  induction l with
  | nil => exact .ok .nil
  | cons c l ih =>
    rw [List.mapM_cons, List.mapM_cons]
    refine (hf c (by simp)).bind fun hb => (ih fun c' hc => hf c' (by simp [hc])).bind fun hbs => ?_
    exact .ok (.cons hb hbs)

end Matches

/-! ## Steps -/

/-- What a step answers, with the state that it leaves, unless it fails. -/
def outcome (x : ExceptT ε (StateM σ) α) (s : σ) : Except ε (α × σ) :=
  match (x.run s : Except ε α × σ) with
  | (.ok a, t) => .ok (a, t)
  | (.error e, _) => .error e

theorem outcome_eq_ok {x : ExceptT ε (StateM σ) α} {s t : σ} {a : α} :
    outcome x s = .ok (a, t) ↔ Runs x s a t := by
  unfold outcome Runs
  rcases (x.run s : Except ε α × σ) with ⟨_ | _, _⟩ <;> simp

theorem outcome_eq_error {x : ExceptT ε (StateM σ) α} {s : σ} {e : ε} :
    outcome x s = .error e ↔ ∃ t, Fails x s e t := by
  unfold outcome Fails
  rcases (x.run s : Except ε α × σ) with ⟨_ | _, _⟩ <;> simp

theorem outcome_bind (x : ExceptT ε (StateM σ) α) (f : α → ExceptT ε (StateM σ) β) (s : σ) :
    outcome (x >>= f) s = outcome x s >>= fun r => outcome (f r.1) r.2 := by
  unfold outcome
  rw [run_bind]
  rcases (x.run s : Except ε α × σ) with ⟨_ | _, _⟩ <;> rfl

/-- From states in `P`, two steps fail with the same error, or their answers and the states
    that they leave are in `Q`. -/
structure Together (P : σ → σ → Prop) (x : ExceptT ε (StateM σ) α) (y : ExceptT ε (StateM σ) α')
    (Q : α → α' → σ → σ → Prop) : Prop where
  run : ∀ {s t}, P s t → Matches (fun r r' => Q r.1 r'.1 r.2 r'.2) (outcome x s) (outcome y t)

namespace Together

variable {P P' : σ → σ → Prop} {x : ExceptT ε (StateM σ) α} {y : ExceptT ε (StateM σ) α'}
  {Q Q' : α → α' → σ → σ → Prop} {R : β → β' → σ → σ → Prop}

theorem mono (h : Together P x y Q) (hP : ∀ {s t}, P' s t → P s t)
    (hQ : ∀ {a a' s t}, Q a a' s t → Q' a a' s t) : Together P' x y Q' :=
  ⟨fun hst => (h.run (hP hst)).mono hQ⟩

theorem pure {a : α} {a' : α'} (h : ∀ {s t}, P s t → Q a a' s t) :
    Together P (Pure.pure a : ExceptT ε (StateM σ) α) (Pure.pure a' : ExceptT ε (StateM σ) α') Q :=
  ⟨fun hst => .ok (h hst)⟩

theorem throw {e : ε} : Together P (throw e : ExceptT ε (StateM σ) α)
    (throw e : ExceptT ε (StateM σ) α') Q :=
  ⟨fun _ => .error e⟩

theorem modify {f g : σ → σ} (h : ∀ {s t}, P s t → P' (f s) (g t)) :
    Together P (modify f : ExceptT ε (StateM σ) PUnit) (modify g) fun _ _ => P' :=
  ⟨fun hst => .ok (h hst)⟩

theorem set {u v : σ} (h : ∀ {s t}, P s t → P' u v) :
    Together P (set u : ExceptT ε (StateM σ) PUnit) (set v) fun _ _ => P' :=
  ⟨fun hst => .ok (h hst)⟩

/-- **Two steps each, one after the other.** -/
theorem bind {f : α → ExceptT ε (StateM σ) β} {g : α' → ExceptT ε (StateM σ) β'}
    (h : Together P x y Q) (hf : ∀ a a', Together (Q a a') (f a) (g a') R) :
    Together P (x >>= f) (y >>= g) R := by
  constructor
  intro s t hst
  rw [outcome_bind, outcome_bind]
  exact (h.run hst).bind fun hq => (hf _ _).run hq

theorem bind_of {V : α → α' → Prop} {f : α → ExceptT ε (StateM σ) β} {g : α' → ExceptT ε (StateM σ) β'}
    (h : Together P x y fun a a' s t => V a a' ∧ P' s t)
    (hf : ∀ {a a'}, V a a' → Together P' (f a) (g a') R) : Together P (x >>= f) (y >>= g) R :=
  h.bind fun _ _ => ⟨fun hst => (hf hst.1).run hst.2⟩

theorem get {f : σ → ExceptT ε (StateM σ) α} {g : σ → ExceptT ε (StateM σ) α'}
    (h : ∀ {s t}, P s t → Together (fun s' t' => s' = s ∧ t' = t) (f s) (g t) Q) :
    Together P (MonadState.get >>= f) (MonadState.get >>= g) Q := by
  constructor
  intro s t hst
  rw [outcome_bind, outcome_bind]
  exact (h hst).run ⟨rfl, rfl⟩

theorem look {f : σ → ExceptT ε (StateM σ) α} {g : σ → ExceptT ε (StateM σ) α'}
    (h : ∀ {s t}, P s t → Together P (f s) (g t) Q) :
    Together P (MonadState.get >>= f) (MonadState.get >>= g) Q := by
  refine get fun {s t} hst => (h hst).mono ?_ id
  rintro _ _ ⟨rfl, rfl⟩
  exact hst

theorem throw_bind {e : ε} {f : α → ExceptT ε (StateM σ) β} {g : α' → ExceptT ε (StateM σ) β'} :
    Together P (MonadExcept.throw e >>= f) (MonadExcept.throw e >>= g) R :=
  throw.bind (Q := fun _ _ _ _ => False) fun _ _ => ⟨False.elim⟩

theorem lift {V : α → α' → Prop} {x : Except ε α} {y : Except ε α'} (h : Matches V x y) :
    Together P (liftM x : ExceptT ε (StateM σ) α) (liftM y : ExceptT ε (StateM σ) α')
      fun a a' s t => V a a' ∧ P s t := by
  constructor
  intro s t hst
  cases h with
  | ok hv => exact .ok ⟨hv, hst⟩
  | error e => exact .error e

theorem bind_lift {V : α → α' → Prop} {x : Except ε α} {y : Except ε α'}
    {f : α → ExceptT ε (StateM σ) β} {g : α' → ExceptT ε (StateM σ) β'} (h : Matches V x y)
    (hf : ∀ {a a'}, V a a' → Together P (f a) (g a') R) :
    Together P (liftM x >>= f) (liftM y >>= g) R :=
  (lift h).bind_of hf

theorem bind_same {x : Except ε α} {f : α → ExceptT ε (StateM σ) β} {g : α → ExceptT ε (StateM σ) β'}
    (h : ∀ a, x = .ok a → Together P (f a) (g a) R) :
    Together P (liftM x >>= f) (liftM x >>= g) R := by
  refine bind_lift (V := fun a a' => a = a' ∧ x = .ok a) (.refl x fun a ha => ⟨rfl, ha⟩) ?_
  rintro a _ ⟨rfl, ha⟩
  exact h a ha

/-- **Two loops** over lists whose members are related, with related drafts. -/
theorem foldlM {V : γ → γ' → Prop} {W : β → β' → Prop} {f : β → γ → ExceptT ε (StateM σ) β}
    {g : β' → γ' → ExceptT ε (StateM σ) β'} {l : List γ} {l' : List γ'} (hl : List.Forall₂ V l l')
    (h : ∀ {c c' d d'}, V c c' → W d d' →
      Together P (f d c) (g d' c') fun d d' s t => W d d' ∧ P s t) {d : β} {d' : β'}
    (hd : W d d') : Together P (l.foldlM f d) (l'.foldlM g d') fun d d' s t => W d d' ∧ P s t := by
  induction hl generalizing d d' with
  | nil => exact .pure fun hst => ⟨hd, hst⟩
  | cons hc _ ih =>
    rw [List.foldlM_cons, List.foldlM_cons]
    exact (h hc hd).bind_of ih

end Together

end LevelBundle
