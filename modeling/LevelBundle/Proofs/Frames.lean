/-
  LevelBundle — what a call touches, whatever comes of it.

  A call that fails leaves what it has written.  Each step is taken apart into what it does
  before it fails, and what it does if it does not.

  * `Leaves x s t`: the step `x` succeeds or fails, and leaves the state `t`.
  * `fails_resolveSlot`: a slot that cannot be resolved leaves the memory as it was.
  * `Touches s t`: the words of a memory settle, and a null word gives way to an address that
    the host has answered; `touches_init`: this is so of every call.
  * `Meets host block offset s e`: the walk of a fixup table comes to an entry; `Reads host s e`:
    a call does so.
  * `kept_start`: the start word is as it was after a call that fails, unless an entry names it.
-/
import LevelBundle.Proofs.Requests
import LevelBundle.Proofs.Settling

namespace LevelBundle

/-- A step succeeds or fails, and this is the state that it leaves. -/
def Leaves {ε σ α : Type} (x : ExceptT ε (StateM σ) α) (s t : σ) : Prop :=
  (∃ a, Runs x s a t) ∨ ∃ e, Fails x s e t

theorem leaves_bind {ε σ α β : Type} {x : ExceptT ε (StateM σ) α} {f : α → ExceptT ε (StateM σ) β}
    {s t : σ} (h : Leaves (x >>= f) s t) :
    (∃ e, Fails x s e t) ∨ ∃ a u, Runs x s a u ∧ Leaves (f a) u t := by
  rcases h with ⟨b, h⟩ | ⟨e, h⟩
  · obtain ⟨a, u, hx, hf⟩ := runs_bind.1 h
    exact Or.inr ⟨a, u, hx, Or.inl ⟨b, hf⟩⟩
  · rcases fails_bind.1 h with hx | ⟨a, u, hx, hf⟩
    · exact Or.inl ⟨e, hx⟩
    · exact Or.inr ⟨a, u, hx, Or.inr ⟨e, hf⟩⟩

variable {σ : Type}

namespace Loader

/-! ## Steps that fail -/

section

variable {host : FileHost σ} {s t : Hosted σ} {p entry : Position} {e : LoadError} {i : ℕ}

theorem fails_ask {α : Type} {question : Loader → Except LoadError α} :
    Fails (ask question) s e t ↔ question s.loader = .error e ∧ s = t := by
  simp only [ask, fails_bind, fails_get, runs_get, false_or]
  constructor
  · rintro ⟨_, _, ⟨rfl, rfl⟩, h⟩
    split at h
    · exact absurd h fails_pure
    · rename_i e' hq
      obtain ⟨rfl, rfl⟩ := fails_throw.1 h
      exact ⟨hq, rfl⟩
  · rintro ⟨hq, rfl⟩
    refine ⟨s, s, ⟨rfl, rfl⟩, ?_⟩
    rw [hq]
    exact fails_throw.2 ⟨rfl, rfl⟩

theorem fails_ask_bind {α β : Type} {question : Loader → Except LoadError α} {f : α → LoadM σ β} :
    Fails (ask question >>= f) s e t ↔ (question s.loader = .error e ∧ s = t) ∨
      ∃ a, question s.loader = .ok a ∧ Fails (f a) s e t := by
  rw [fails_bind, fails_ask]
  simp only [runs_ask]
  constructor
  · rintro (h | ⟨a, _, ⟨ha, rfl⟩, h⟩)
    · exact Or.inl h
    · exact Or.inr ⟨a, ha, h⟩
  · rintro (h | ⟨a, ha, h⟩)
    · exact Or.inl h
    · exact Or.inr ⟨a, s, ⟨ha, rfl⟩, h⟩

theorem fails_check {α : Type} {c : Prop} [Decidable c] {e' : LoadError} {f : PUnit → LoadM σ α}
    {x : LoadM σ α} : Fails (if c then throw e' >>= f else x) s e t ↔
      (c ∧ e' = e ∧ s = t) ∨ (¬ c ∧ Fails x s e t) := by
  split_ifs with h <;> simp [h]

theorem fails_change {act : Loader → Except LoadError Loader} :
    Fails (change act) s e t ↔ act s.loader = .error e ∧ s = t := by
  simp only [change, fails_bind, fails_get, runs_get, false_or]
  constructor
  · rintro ⟨_, _, ⟨rfl, rfl⟩, h⟩
    split at h
    · exact absurd h fails_set
    · rename_i e' hq
      obtain ⟨rfl, rfl⟩ := fails_throw.1 h
      exact ⟨hq, rfl⟩
  · rintro ⟨hq, rfl⟩
    refine ⟨s, s, ⟨rfl, rfl⟩, ?_⟩
    rw [hq]
    exact fails_throw.2 ⟨rfl, rfl⟩

/-- The memory is as it was, and the host has been asked for a file, or not. -/
structure Asked (host : FileHost σ) (s t : Hosted σ) : Prop where
  loader : t.loader = s.loader
  host : t.host = s.host ∨ ∃ name r, (host name).run s.host = (r, t.host)

theorem Asked.refl (host : FileHost σ) (s : Hosted σ) : Asked host s s := ⟨rfl, Or.inl rfl⟩

theorem fails_askHost {name : String} (h : Fails (askHost host name) s e t) : Asked host s t := by
  simp only [askHost, fails_bind, fails_get, runs_get, false_or] at h
  obtain ⟨_, _, ⟨rfl, rfl⟩, h⟩ := h
  rcases hr : (host name).run s.host with ⟨r, g⟩
  rw [hr] at h
  simp only [fails_bind, fails_set, runs_set, false_or] at h
  obtain ⟨_, _, rfl, h⟩ := h
  cases r with
  | ok v => exact absurd h fails_pure
  | error cause =>
    obtain ⟨-, rfl⟩ := fails_throw.1 h
    exact ⟨rfl, Or.inr ⟨name, _, hr⟩⟩

/-- **A file that cannot be loaded** leaves the memory as it was. -/
theorem fails_runtimeFile (h : Fails (runtimeFile host p) s e t) : Asked host s t := by
  unfold runtimeFile at h
  rcases fails_ask_bind.1 h with ⟨-, rfl⟩ | ⟨⟨block, offset⟩, -, h⟩
  · exact .refl host s
  rcases fails_ask_bind.1 h with ⟨-, rfl⟩ | ⟨cached, -, h⟩
  · exact .refl host s
  split_ifs at h with hc
  · exact absurd h fails_pure
  rcases fails_ask_bind.1 h with ⟨-, rfl⟩ | ⟨name, -, h⟩
  · exact .refl host s
  rcases fails_bind.1 h with h | ⟨address, _, hask, h⟩
  · exact fails_askHost h
  obtain ⟨g, hg, rfl⟩ := runs_askHost.1 hask
  have hasked : Asked host s ⟨s.loader, g⟩ := ⟨rfl, Or.inr ⟨name, _, hg⟩⟩
  rcases fails_check.1 h with ⟨-, -, rfl⟩ | ⟨-, h⟩
  · exact hasked
  rcases fails_bind.1 h with h | ⟨_, _, -, h⟩
  · obtain ⟨-, rfl⟩ := fails_change.1 h
    exact hasked
  · exact absurd h fails_pure

theorem fails_target (h : Fails (target host p) s e t) : Asked host s t := by
  unfold target at h
  split_ifs at h
  · exact fails_runtimeFile h
  · rcases fails_ask_bind.1 h with ⟨-, rfl⟩ | ⟨_, -, h⟩
    · exact .refl host s
    · exact absurd h fails_pure

theorem settles_target {v : UInt32} {asked : Bool} (hu : s.loader.Usable)
    (h : Runs (target host p) s (v, asked) t) : Settles (fun _ _ _ => True) s.loader t.loader := by
  obtain ⟨h0, ⟨-, rfl⟩ | ⟨-, h2, -, _, _, _, _, l, hl, hr, -, hw, rfl⟩⟩ := runs_target hu h
  · exact .refl _
  · exact settles_write (four_dvd_of_locate hl) hr (.filled h0 h2 trivial) hw

/-- **A slot that cannot be resolved** leaves the memory as it was. -/
theorem fails_resolveSlot (hu : s.loader.Usable) (h : Fails (resolveSlot host entry) s e t) :
    Asked host s t := by
  unfold resolveSlot at h
  rcases fails_ask_bind.1 h with ⟨-, rfl⟩ | ⟨⟨block, offset⟩, -, h⟩
  · exact .refl host s
  rcases fails_ask_bind.1 h with ⟨-, rfl⟩ | ⟨w, hr, h⟩
  · exact .refl host s
  split at h
  · exact absurd h fails_pure
  rcases fails_bind.1 h with h | ⟨⟨v, asked⟩, u, htarget, h⟩
  · exact fails_target h
  rcases fails_bind.1 h with h | ⟨_, _, -, h⟩
  · -- the slot has been read, so that it can be written
    obtain ⟨hw, -⟩ := fails_change.1 h
    rw [write, if_pos ((settles_target hu htarget).sizeAt block ▸ le_sizeAt_of_read hr)] at hw
    cases hw
  · exact absurd h fails_pure

theorem fails_fillEntry (h : Fails (fillEntry i : LoadM σ Unit) s e t) : t = s := by
  unfold fillEntry at h
  rcases fails_ask_bind.1 h with ⟨-, rfl⟩ | ⟨value, -, h⟩
  · rfl
  simp only [fails_bind, fails_get, runs_get, false_or] at h
  obtain ⟨_, _, ⟨rfl, rfl⟩, h⟩ := h
  rcases fails_check.1 h with ⟨-, -, rfl⟩ | ⟨-, h⟩
  · rfl
  · exact (fails_change.1 h).2.symm

/-- **Induction along the walk of a fixup table**, back from the state that it leaves: the walk
    stops there, or at a slot that cannot be resolved, or a slot is resolved and it goes on. -/
@[elab_as_elim]
theorem walk_induction {P : ℕ → Hosted σ → Prop} {table : Position} {block left offset : ℕ}
    {done : ℕ × ℕ} (h : Leaves (resolveSlots host table block left offset done) s t)
    (stops : ∀ offset, P offset t)
    (fails : ∀ {offset s entry e}, s.loader.read block offset = .ok entry → entry ≠ 0 →
      Fails (resolveSlot host ⟨entry⟩) s e t → P offset s)
    (step : ∀ {offset s entry n k u}, s.loader.read block offset = .ok entry → entry ≠ 0 →
      Runs (resolveSlot host ⟨entry⟩) s (n, k) u → P (offset + 4) u → P offset s) : P offset s := by
  induction left generalizing s offset done with
  | zero =>
    rcases h with ⟨_, h⟩ | ⟨_, h⟩
    · exact absurd h runs_throw
    · exact (fails_throw.1 h).2 ▸ stops offset
  | succ left ih =>
    rw [resolveSlots] at h
    rcases leaves_bind h with ⟨_, h⟩ | ⟨entry, _, hread, h⟩
    · exact (fails_ask.1 h).2 ▸ stops offset
    obtain ⟨hr, rfl⟩ := runs_ask.1 hread
    split_ifs at h with h0
    · rcases h with ⟨_, h⟩ | ⟨_, h⟩
      · exact (runs_pure.1 h).2 ▸ stops offset
      · exact absurd h fails_pure
    · rcases leaves_bind h with ⟨_, h⟩ | ⟨⟨n, k⟩, u, hslot, h⟩
      · exact fails hr h0 h
      · exact step hr h0 hslot (ih h)

/-- **What the fixup table leaves**: there is none, or it is walked. -/
theorem leaves_resolveTable {table : Position} (h : Leaves (resolveTable host table) s t) :
    t = s ∨ (table.isNull = false ∧ ∃ block offset, s.loader.locate table = .ok (block, offset) ∧
      Leaves (resolveSlots host table block ((s.loader.memory.sizeAt block - offset) / 4) offset
        (0, 0)) s t) := by
  unfold resolveTable at h
  split_ifs at h with hnull
  · rcases h with ⟨_, h⟩ | ⟨_, h⟩
    · exact Or.inl (runs_pure.1 h).2.symm
    · exact absurd h fails_pure
  rcases leaves_bind h with ⟨_, h⟩ | ⟨⟨block, offset⟩, _, hlocate, h⟩
  · exact Or.inl (fails_ask.1 h).2.symm
  obtain ⟨hl, rfl⟩ := runs_ask.1 hlocate
  rcases leaves_bind h with ⟨_, h⟩ | ⟨_, _, hget, h⟩
  · exact absurd h fails_get
  obtain ⟨rfl, rfl⟩ := runs_get.1 hget
  exact Or.inr ⟨Bool.eq_false_iff.2 hnull, block, offset, hl, h⟩

/-- **What the filling of the chunk table leaves**: the memory settles, and nothing but the
    chunk table has changed. -/
theorem leaves_fill {R : ℕ → ℕ → UInt32 → Prop} {indices : List ℕ} (hu : s.loader.Usable)
    (hlt : ∀ i ∈ indices, i < s.loader.memory.size) (h : Leaves (indices.forM fillEntry) s t) :
    Settles R s.loader t.loader ∧ t.host = s.host ∧
      ∀ {block offset w}, 4 ∣ offset → (block = 0 → ∀ i ∈ indices, offset ≠ 4 * i) →
        s.loader.read block offset = .ok w → t.loader.read block offset = .ok w := by
  induction indices generalizing s with
  | nil =>
    rcases h with ⟨_, h⟩ | ⟨_, h⟩
    · obtain ⟨-, rfl⟩ := runs_pure.1 h
      exact ⟨.refl _, rfl, fun _ _ hw => hw⟩
    · exact absurd h fails_pure
  | cons i indices ih =>
    rw [List.forM_eq_forM, List.forM_cons] at h
    rcases leaves_bind h with ⟨_, h⟩ | ⟨_, s₁, hfirst, h⟩
    · rw [fails_fillEntry h]
      exact ⟨.refl _, rfl, fun _ _ hw => hw⟩
    obtain ⟨hset, -, -, -, l, hw, rfl⟩ :=
      settles_fillEntry (R := R) hu (hlt i List.mem_cons_self) hfirst
    obtain ⟨hrest, hhost, hkept⟩ := ih (s := ⟨l, s.host⟩) (hset.usable hu)
      (fun j hj => hset.size ▸ hlt j (List.mem_cons_of_mem i hj)) h
    refine ⟨hset.trans hrest, hhost, fun h4 hne hr => ?_⟩
    refine hkept h4 (fun h0 j hj => hne h0 j (List.mem_cons_of_mem i hj)) ?_
    refine (read_write_of_ne hw (Nat.dvd_mul_right ..) h4 ?_).2 hr
    rintro ⟨h0, hi⟩
    exact hne h0 i List.mem_cons_self hi

/-- **A call that fails** leaves the memory as it was, or has begun to fill the chunk table
    for a bundle that is not resolved. -/
theorem fails_init (h : Fails (init host) s e t) : t = s ∨ ∃ entries start table,
    s.loader.chunkEntries = .ok entries ∧ entries ≤ s.loader.memory.size ∧
      s.loader.read 0 (4 * (entries + 1)) = .ok start ∧
      s.loader.read 0 (4 * (entries + 1) + 4) = .ok table ∧ start.toNat % 2 = 1 ∧
      (Fails ((List.range entries).forM fillEntry) s e t ∨ ∃ s₁,
        Runs ((List.range entries).forM fillEntry) s ⟨⟩ s₁ ∧
          Leaves (resolveTable host ⟨table⟩) s₁ t) := by
  unfold init at h
  rcases fails_ask_bind.1 h with ⟨-, rfl⟩ | ⟨entries, hn, h⟩
  · exact Or.inl rfl
  simp only [fails_bind, fails_get, runs_get, false_or] at h
  obtain ⟨_, _, ⟨rfl, rfl⟩, h⟩ := h
  rcases fails_check.1 h with ⟨-, -, rfl⟩ | ⟨hlong, h⟩
  · exact Or.inl rfl
  rcases fails_ask_bind.1 h with ⟨-, rfl⟩ | ⟨start, hs, h⟩
  · exact Or.inl rfl
  rcases fails_ask_bind.1 h with ⟨-, rfl⟩ | ⟨table, ht, h⟩
  · exact Or.inl rfl
  split at h
  · rcases fails_check.1 h with ⟨-, -, rfl⟩ | ⟨-, h⟩
    · exact Or.inl rfl
    · exact absurd h fails_pure
  rename_i p hp
  obtain ⟨rfl, hodd⟩ := slot_unresolved hp
  refine Or.inr ⟨entries, start, table, hn, Nat.not_lt.1 hlong, hs, ht, hodd, ?_⟩
  rcases fails_bind.1 h with h | ⟨_, s₁, hfill, h⟩
  · exact Or.inl h
  refine Or.inr ⟨s₁, hfill, ?_⟩
  rcases fails_bind.1 h with h | ⟨⟨n, k⟩, s₂, htable, h⟩
  · exact Or.inr ⟨e, h⟩
  · -- what fails behind the table changes nothing
    refine Or.inl ⟨(n, k), ?_⟩
    rcases fails_ask_bind.1 h with ⟨-, rfl⟩ | ⟨root, -, h⟩
    · exact htable
    rcases fails_bind.1 h with h | ⟨_, _, -, h⟩
    · obtain ⟨-, rfl⟩ := fails_change.1 h
      exact htable
    · exact absurd h fails_pure

end

/-! ## What becomes of words -/

/-- What a call may do whose host keeps a list of its requests: words settle, and a null word
    gives way to an address that has been answered. -/
structure Touches (s t : Hosted (σ × List Request)) : Prop where
  settles : Settles (fun _ _ v => v ∈ addresses t.host.2) s.loader t.loader
  log : ∃ new, t.host.2 = s.host.2 ++ new

section

variable {host : FileHost σ} {s t u : Hosted (σ × List Request)} {p entry : Position}

theorem Touches.refl (s : Hosted (σ × List Request)) : Touches s s :=
  ⟨.refl _, [], (List.append_nil _).symm⟩

theorem Touches.trans (h : Touches s t) (h' : Touches t u) : Touches s u := by
  obtain ⟨new, hnew⟩ := h.log
  obtain ⟨new', hnew'⟩ := h'.log
  refine ⟨(h.settles.mono fun hv => ?_).trans h'.settles, new ++ new', ?_⟩
  · rw [hnew', addresses_append]
    exact List.mem_append_left _ hv
  · rw [hnew', hnew, List.append_assoc]

theorem log_eq_of_run {name : String} {h g : σ × List Request} {r : Except String UInt32}
    (hr : (host.logged name).run h = (r, g)) : g.2 = h.2 ++ [(name, r)] := by
  rw [host.run_logged, Prod.mk.injEq] at hr
  obtain ⟨rfl, rfl⟩ := hr
  rfl

theorem mem_addresses {name : String} {v : UInt32} {log : List Request} (h0 : v ≠ 0)
    (h2 : v.toNat % 2 = 0) : v ∈ addresses (log ++ [(name, .ok v)]) := by
  have hmod : v % 2 = 0 := UInt32.toNat_inj.1 (by rw [UInt32.toNat_mod]; exact h2)
  rw [addresses_append]
  refine List.mem_append_right _ (List.mem_filterMap.2 ⟨_, List.mem_singleton_self _, ?_⟩)
  simp only [Request.address?, if_neg (not_or.2 ⟨h0, not_not.2 hmod⟩)]

theorem Asked.touches (h : Asked host.logged s t) : Touches s t := by
  obtain ⟨hl, hh⟩ := h
  refine ⟨hl ▸ .refl _, ?_⟩
  rcases hh with hh | ⟨name, r, hr⟩
  · exact ⟨[], by rw [hh, List.append_nil]⟩
  · exact ⟨_, log_eq_of_run hr⟩

/-- **A slot is resolved.** -/
theorem touches_resolveSlot {n k : ℕ} (hu : s.loader.Usable)
    (h : Runs (resolveSlot host.logged entry) s (n, k) t) : Touches s t := by
  refine ⟨(settles_slot hu h fun _ p _ _ {_ _} _ {name v} hr h0 h2 => ?_).1, ?_⟩
  · rw [log_eq_of_run hr]
    exact mem_addresses h0 h2
  · obtain ⟨_, _, w, -, -, ⟨-, -, -, rfl⟩ | ⟨-, -, v, asked, u, l, htarget, -, -, rfl⟩⟩ :=
      runs_resolveSlot h
    · exact (Touches.refl t).log
    · obtain ⟨-, ⟨-, rfl⟩ | ⟨-, -, -, _, _, name, g, _, -, -, hg, -, rfl⟩⟩ := runs_target hu htarget
      · exact ⟨[], (List.append_nil _).symm⟩
      · exact ⟨_, log_eq_of_run hg⟩

/-- **The fixup table is walked**, and not always to its end. -/
theorem touches_resolveSlots {table : Position} {block left offset : ℕ} {done : ℕ × ℕ}
    (h : Leaves (resolveSlots host.logged table block left offset done) s t)
    (hu : s.loader.Usable) : Touches s t := by
  revert hu
  refine walk_induction h (fun _ _ => .refl t) (fun _ _ hslot hu => ?_) fun _ _ hslot ih hu => ?_
  · exact (fails_resolveSlot hu hslot).touches
  · have hset := touches_resolveSlot hu hslot
    exact hset.trans (ih (hset.settles.usable hu))

/-- **What a call does to any memory**, whatever comes of it. -/
theorem touches_init (hu : s.loader.Usable) (h : Leaves (init host.logged) s t) : Touches s t := by
  have fill {entries : ℕ} (hle : entries ≤ s.loader.memory.size) {s₁ : Hosted (σ × List Request)}
      (hfill : Leaves ((List.range entries).forM fillEntry) s s₁) : Touches s s₁ := by
    obtain ⟨hset, hhost, -⟩ := leaves_fill hu
      (fun i hi => Nat.lt_of_lt_of_le (List.mem_range.1 hi) hle) hfill
    exact ⟨hset, [], by rw [hhost, List.append_nil]⟩
  have walk {table : Position} {s₁ s₂ : Hosted (σ × List Request)} (h₁ : Touches s s₁)
      (htable : Leaves (resolveTable host.logged table) s₁ s₂) : Touches s s₂ := by
    rcases leaves_resolveTable htable with rfl | ⟨-, block, offset, -, h⟩
    · exact h₁
    · exact h₁.trans (touches_resolveSlots h (h₁.settles.usable hu))
  rcases h with ⟨o, h⟩ | ⟨e, h⟩
  · obtain ⟨entries, start, table, -, hle, hs, -, ⟨-, -, -, rfl⟩ |
      ⟨hodd, s₁, s₂, l, hfill, htable, hroot, hw, -, rfl⟩⟩ := runs_init h
    · exact .refl t
    · have h₂ := walk (fill hle (Or.inl ⟨_, hfill⟩)) (Or.inl ⟨_, htable⟩)
      obtain ⟨-, -, h0, -⟩ := address_eq_ok (h₂.settles.usable hu) hroot
      exact ⟨h₂.settles.write (Nat.dvd_mul_right ..) hs (.resolved hodd h0) hw, h₂.log⟩
  · rcases fails_init h with rfl | ⟨entries, start, table, -, hle, -, -, -, hfill |
      ⟨s₁, hfill, htable⟩⟩
    · exact .refl t
    · exact fill hle (Or.inr ⟨e, hfill⟩)
    · exact walk (fill hle (Or.inl ⟨_, hfill⟩)) htable

end

/-! ## The entries that are read -/

/-- The walk of a fixup table, from an offset on, comes to an entry. -/
inductive Meets (host : FileHost σ) (block : ℕ) : ℕ → Hosted σ → Position → Prop
  /-- It is the next one. -/
  | here {offset : ℕ} {s : Hosted σ} {entry : UInt32} : s.loader.read block offset = .ok entry →
    entry ≠ 0 → Meets host block offset s ⟨entry⟩
  /-- The slot of the next one is resolved, and the walk goes on. -/
  | later {offset n k : ℕ} {s t : Hosted σ} {entry : UInt32} {e : Position} :
    s.loader.read block offset = .ok entry → entry ≠ 0 →
    Runs (resolveSlot host ⟨entry⟩) s (n, k) t → Meets host block (offset + 4) t e →
    Meets host block offset s e

/-- A call reads an entry of the fixup table. -/
def Reads (host : FileHost σ) (s : Hosted σ) (e : Position) : Prop :=
  ∃ entries start table s₁ block offset, s.loader.chunkEntries = .ok entries ∧
    entries ≤ s.loader.memory.size ∧ s.loader.read 0 (4 * (entries + 1)) = .ok start ∧
    start.toNat % 2 = 1 ∧ s.loader.read 0 (4 * (entries + 1) + 4) = .ok table ∧
    Position.isNull ⟨table⟩ = false ∧
    Runs ((List.range entries).forM fillEntry) s ⟨⟩ s₁ ∧
    s₁.loader.locate ⟨table⟩ = .ok (block, offset) ∧ Meets host block offset s₁ e

section

variable {host : FileHost σ} {s t : Hosted σ} {table entry e : Position} {w : UInt32}
  {block offset block' offset' left : ℕ} {done : ℕ × ℕ}

/-- A word that is not null is as it was, unless the entry names it. -/
theorem kept_resolveSlot {n k : ℕ} (hu : s.loader.Usable)
    (h : Runs (resolveSlot host entry) s (n, k) t) (h4 : 4 ∣ offset)
    (hw : s.loader.read block offset = .ok w) (h0 : w ≠ 0)
    (hne : s.loader.locate entry ≠ .ok (block, offset)) :
    t.loader.read block offset = .ok w := by
  obtain ⟨block', offset', w', hl, hr, ⟨-, -, -, rfl⟩ |
    ⟨hodd, -, v, asked, u, l, htarget, -, hwrite, rfl⟩⟩ := runs_resolveSlot h
  · exact hw
  have hslot : ¬ (block = block' ∧ offset = offset') := by
    rintro ⟨rfl, rfl⟩
    exact hne hl
  refine (read_write_of_ne hwrite (four_dvd_of_locate hl) h4 hslot).2 ?_
  obtain ⟨-, ⟨-, rfl⟩ | ⟨-, -, -, block₁, offset₁, _, _, l₁, hl₁, hr₁, -, hw₁, rfl⟩⟩ :=
    runs_target hu htarget
  · exact hw
  · -- the record held no address, and the word is not null
    refine (read_write_of_ne hw₁ (four_dvd_of_locate hl₁) h4 ?_).2 hw
    rintro ⟨rfl, rfl⟩
    rw [hw, Except.ok.injEq] at hr₁
    exact h0 hr₁

/-- **A word that is not null** is as it was after a walk, unless an entry names it. -/
theorem kept_resolveSlots (h : Leaves (resolveSlots host table block left offset done) s t)
    (hu : s.loader.Usable) (h4 : 4 ∣ offset') (hw : s.loader.read block' offset' = .ok w)
    (h0 : w ≠ 0)
    (hne : ∀ e, Meets host block offset s e → s.loader.locate e ≠ .ok (block', offset')) :
    t.loader.read block' offset' = .ok w := by
  revert hu hw hne
  refine walk_induction h (fun _ _ hw _ => hw) (fun _ _ hslot hu hw _ => ?_)
    fun hr hentry hslot ih hu hw hne => ?_
  · rw [(fails_resolveSlot hu hslot).loader]
    exact hw
  · have hset := settles_of_resolveSlot hu hslot
    refine ih (hset.usable hu) (kept_resolveSlot hu hslot h4 hw h0 (hne _ (.here hr hentry)))
      fun e he hl => hne e (.later hr hentry hslot he) (hset.locate.1 hl)

/-- **The start word** is as it was after a call that fails, unless an entry names it. -/
theorem kept_start {cause : LoadError} {entries : ℕ} (hu : s.loader.Usable)
    (h : Fails (init host) s cause t) (hn : s.loader.chunkEntries = .ok entries)
    (hw : s.loader.read 0 (4 * (entries + 1)) = .ok w)
    (hne : ∀ e, Reads host s e → s.loader.locate e ≠ .ok (0, 4 * (entries + 1))) :
    t.loader.read 0 (4 * (entries + 1)) = .ok w := by
  rcases fails_init h with rfl | ⟨entries', start, table, hn', hle, hs, ht, hodd, hrest⟩
  · exact hw
  obtain rfl : entries' = entries := Except.ok.inj (hn'.symm.trans hn)
  obtain rfl : start = w := Except.ok.inj (hs.symm.trans hw)
  have h0 : start ≠ 0 := fun h0 => by
    rw [h0] at hodd
    exact absurd hodd (by decide)
  have fill {s₁ : Hosted σ} (hfill : Leaves ((List.range entries').forM fillEntry) s s₁) :
      Settles (fun _ _ _ => True) s.loader s₁.loader ∧
        s₁.loader.read 0 (4 * (entries' + 1)) = .ok start := by
    obtain ⟨hset, -, hkept⟩ := leaves_fill (R := fun _ _ _ => True) hu
      (fun i hi => Nat.lt_of_lt_of_le (List.mem_range.1 hi) hle) hfill
    exact ⟨hset, hkept (Nat.dvd_mul_right ..) (fun _ i hi => by
      have := List.mem_range.1 hi
      omega) hw⟩
  rcases hrest with hfill | ⟨s₁, hfill, htable⟩
  · exact (fill (Or.inr ⟨cause, hfill⟩)).2
  · obtain ⟨hset, hs₁⟩ := fill (Or.inl ⟨_, hfill⟩)
    rcases leaves_resolveTable htable with rfl | ⟨hnull, block, offset, hl, hwalk⟩
    · exact hs₁
    · refine kept_resolveSlots hwalk (hset.usable hu) (Nat.dvd_mul_right ..) hs₁ h0 fun e he hl' => ?_
      have hreads : Reads host s e :=
        ⟨_, start, table, s₁, block, offset, hn, hle, hs, hodd, ht, hnull, hfill, hl, he⟩
      exact hne e hreads (hset.locate.1 hl')

end

end Loader

end LevelBundle
