/-
  LevelBundle — what resolving may touch.

  The memory may hold anything, and the host may answer anything.

  * `Mirrors x y`: a step whose host keeps a list of its requests does what the step does
    without the list; `mirrors_init`: this is so of resolving.
  * `requests host s`: what a call asks the host for.
  * `Confined log l l'`: words that are even and not null stay, and a null word gives way to
    an address only that has been answered.
  * `init_confined`: a call passes all its guards, and what it leaves is confined; if it
    fails, the start word is as it was or an entry of the fixup table names it.
-/
import LevelBundle.Proofs.Guarded
import LevelBundle.Proofs.Idempotence

namespace LevelBundle

variable {σ α β : Type}

/-- The state without the list of requests. -/
def Hosted.plain (s : Hosted (σ × List Request)) : Hosted σ := ⟨s.loader, s.host.1⟩

namespace Loader

/-! ## Hosts that keep a list -/

/-- A step whose host keeps a list of its requests does what another one does without. -/
def Mirrors (x : LoadM (σ × List Request) α) (y : LoadM σ α) : Prop :=
  ∀ s r t, @Eq (Except LoadError α × Hosted (σ × List Request)) (x.run s) (r, t) →
    @Eq (Except LoadError α × Hosted σ) (y.run s.plain) (r, t.plain)

namespace Mirrors

variable {x : LoadM (σ × List Request) α} {y : LoadM σ α}

theorem pure (a : α) : Mirrors (σ := σ) (Pure.pure a) (Pure.pure a) := by
  intro s r t h
  cases h
  rfl

theorem throw (e : LoadError) :
    Mirrors (σ := σ) (α := α) (MonadExcept.throw e) (MonadExcept.throw e) := by
  intro s r t h
  cases h
  rfl

theorem bind {f : α → LoadM (σ × List Request) β} {g : α → LoadM σ β} (h : Mirrors x y)
    (hf : ∀ a, Mirrors (f a) (g a)) : Mirrors (x >>= f) (y >>= g) := by
  intro s r t hrun
  rcases hx : x.run s with ⟨e | a, u⟩
  · rw [run_bind_error hx] at hrun
    cases hrun
    exact run_bind_error (h s _ _ hx)
  · rw [run_bind_ok hx] at hrun
    rw [run_bind_ok (h s _ _ hx)]
    exact hf a u r t hrun

theorem ask (question : Loader → Except LoadError α) :
    Mirrors (σ := σ) (Loader.ask question) (Loader.ask question) := by
  intro s r t h
  rw [run_question] at h ⊢
  cases h
  rfl

theorem change (act : Loader → Except LoadError Loader) :
    Mirrors (σ := σ) (Loader.change act) (Loader.change act) := by
  intro s r t h
  cases r with
  | ok u =>
    obtain ⟨l, hl, rfl⟩ := runs_change.1 h
    exact runs_change.2 ⟨l, hl, rfl⟩
  | error e =>
    obtain ⟨he, rfl⟩ := fails_change.1 h
    exact fails_change.2 ⟨he, rfl⟩

theorem askHost (host : FileHost σ) (name : String) :
    Mirrors (Loader.askHost host.logged name) (Loader.askHost host name) := by
  rintro ⟨l, g, log⟩ r t h
  rw [run_askHost, host.run_logged] at h
  refine (run_askHost host name).trans ?_
  rcases hrun : (host name).run g with ⟨_ | v, g'⟩
  all_goals
    rw [hrun] at h
    cases h
    rfl

theorem look {f : Hosted (σ × List Request) → LoadM (σ × List Request) α}
    {g : Hosted σ → LoadM σ α} (h : ∀ s, Mirrors (f s) (g s.plain)) :
    Mirrors (get >>= f) (get >>= g) :=
  fun s r t hrun => h s s r t hrun

theorem check {c : Prop} [Decidable c] {e : LoadError} {f : PUnit → LoadM (σ × List Request) α}
    {g : PUnit → LoadM σ α} (h : Mirrors x y) :
    Mirrors (if c then MonadExcept.throw e >>= f else x)
      (if c then MonadExcept.throw e >>= g else y) := by
  split_ifs
  · intro s r t hrun
    cases hrun
    rfl
  · exact h

theorem forM {f : α → LoadM (σ × List Request) Unit} {g : α → LoadM σ Unit}
    (h : ∀ a, Mirrors (f a) (g a)) (l : List α) : Mirrors (l.forM f) (l.forM g) := by
  induction l with
  | nil => exact pure _
  | cons a l ih =>
    rw [List.forM_eq_forM, List.forM_cons, List.forM_eq_forM, List.forM_cons]
    exact bind (h a) fun _ => ih

end Mirrors

section

variable (host : FileHost σ)

theorem mirrors_runtimeFile (p : Position) :
    Mirrors (runtimeFile host.logged p) (runtimeFile host p) := by
  refine .bind (.ask _) fun ⟨block, offset⟩ => .bind (.ask _) fun cached => ?_
  split_ifs
  · exact .pure _
  · exact .bind (.ask _) fun name => .bind (.askHost host name) fun address =>
      .check (.bind (.change _) fun _ => .pure _)

theorem mirrors_target (p : Position) : Mirrors (target host.logged p) (target host p) := by
  unfold target
  split_ifs
  · exact mirrors_runtimeFile host p
  · exact .bind (.ask _) fun _ => .pure _

theorem mirrors_resolveSlot (entry : Position) :
    Mirrors (resolveSlot host.logged entry) (resolveSlot host entry) := by
  refine .bind (.ask _) fun ⟨block, offset⟩ => .bind (.ask _) fun w => ?_
  cases Slot.ofWord w with
  | resolved _ => exact .pure _
  | unresolved p =>
    exact .bind (mirrors_target host p) fun _ => .bind (.change _) fun _ => .pure _

theorem mirrors_resolveSlots (table : Position) (block left offset : ℕ) (done : ℕ × ℕ) :
    Mirrors (resolveSlots host.logged table block left offset done)
      (resolveSlots host table block left offset done) := by
  induction left generalizing offset done with
  | zero => exact .throw _
  | succ left ih =>
    refine .bind (.ask _) fun entry => ?_
    split_ifs
    · exact .pure _
    · exact .bind (mirrors_resolveSlot host ⟨entry⟩) fun _ => ih _ _

theorem mirrors_fillEntry (i : ℕ) : Mirrors (σ := σ) (fillEntry i) (fillEntry i) :=
  .bind (.ask _) fun _ => .look fun _ => .check (.change _)

theorem mirrors_resolveTable (table : Position) :
    Mirrors (resolveTable host.logged table) (resolveTable host table) := by
  unfold resolveTable
  split_ifs
  · exact .pure _
  · exact .bind (.ask _) fun ⟨block, offset⟩ => .look fun _ =>
      mirrors_resolveSlots host table block _ offset (0, 0)

/-- **A call whose host keeps a list** does what it does without. -/
theorem mirrors_init : Mirrors (init host.logged) (init host) := by
  refine .bind (.ask _) fun entries => .look fun _ => .check ?_
  refine .bind (.ask _) fun start => .bind (.ask _) fun table => ?_
  cases Slot.ofWord start with
  | resolved root => exact .check (.pure _)
  | unresolved p =>
    refine .bind (.forM mirrors_fillEntry _) fun _ => ?_
    refine .bind (mirrors_resolveTable host ⟨table⟩) fun _ => ?_
    exact .bind (.ask _) fun root => .bind (.change _) fun _ => .pure _

end

/-! ## Confinement -/

/-- What a call asks the host for. -/
def requests (host : FileHost σ) (s : Hosted σ) : List Request :=
  ((init host.logged).run ⟨s.loader, s.host, []⟩).2.host.2

/-- What a call may do to the memory if it asks the host for some files. -/
structure Confined (log : List Request) (l l' : Loader) : Prop where
  /-- There are as many regions. -/
  size : l'.memory.size = l.memory.size
  /-- They lie where they were. -/
  baseAt : ∀ block, l'.memory.baseAt block = l.memory.baseAt block
  /-- They have the size that they had. -/
  sizeAt : ∀ block, l'.memory.sizeAt block = l.memory.sizeAt block
  /-- A word that is even and not null stays. -/
  even : ∀ {block offset w}, 4 ∣ offset → l.read block offset = .ok w → w ≠ 0 →
    w.toNat % 2 = 0 → l'.read block offset = .ok w
  /-- A null word stays, or gives way to an address that has been answered. -/
  null : ∀ {block offset w}, 4 ∣ offset → l.read block offset = .ok 0 →
    l'.read block offset = .ok w → w ≠ 0 → w.toNat % 2 = 0 ∧ ∃ name, (name, .ok w) ∈ log

theorem Touches.confined {s t : Hosted (σ × List Request)} (h : Touches s t) :
    Confined t.host.2 s.loader t.loader where
  size := h.settles.size
  baseAt := h.settles.baseAt
  sizeAt := h.settles.sizeAt
  even h4 hw h0 h2 := h.settles.read_even h4 hw h0 h2
  null h4 hw hw' h0 := by
    obtain ⟨w'', hw'', hb⟩ := h.settles.word h4 hw
    obtain rfl := Except.ok.inj (hw''.symm.trans hw')
    cases hb with
    | kept => exact absurd rfl h0
    | resolved hodd => exact absurd hodd (by decide)
    | filled _ h2 hmem => exact ⟨h2, exists_mem_of_mem_addresses hmem⟩

/-- **A call touches only what it may**, on any memory and for any host.  It passes all its
    guards, and comes to an outcome or an error.  Words that are even and not null stay, and
    null words give way only to addresses that the host has answered in this call.  If the
    call fails, the start word is as it was, or an entry of the fixup table names it. -/
theorem init_confined {memory : Memory} {chunkSize : UInt32} {order : ByteOrder} {l : Loader}
    (hl : ofMemory memory chunkSize order = .ok l) (hsize : ∀ r ∈ memory, r.bytes.size < 2 ^ 31)
    (host : FileHost σ) (h : σ) : ∃ r t,
    @Eq (Except LoadError LoadOutcome × Hosted σ) ((init host).run ⟨l, h⟩) (r, t) ∧
      @Eq (Option (Except LoadError LoadOutcome × Hosted σ)) ((Guarded.init host).run ⟨l, h⟩)
        (some (r, t)) ∧
      Confined (requests host ⟨l, h⟩) l t.loader ∧
      ∀ e, r = .error e → ∀ {entries w}, l.chunkEntries = .ok entries →
        l.read 0 (4 * (entries + 1)) = .ok w → t.loader.read 0 (4 * (entries + 1)) ≠ .ok w →
          ∃ entry, Reads host ⟨l, h⟩ entry ∧ l.locate entry = .ok (0, 4 * (entries + 1)) := by
  have ht := tight_ofMemory hl hsize
  rcases hlogged : (init host.logged).run ⟨l, h, []⟩ with ⟨r, t⟩
  have hrun := mirrors_init host ⟨l, h, []⟩ r t hlogged
  have htouches : Touches ⟨l, h, []⟩ t := by
    refine touches_init ht.usable (?_ : Leaves (init host.logged) _ _)
    cases r with
    | ok o => exact Or.inl ⟨o, hlogged⟩
    | error e => exact Or.inr ⟨e, hlogged⟩
  refine ⟨r, t.plain, hrun, (agrees_init ht).trans (congrArg some hrun), ?_, ?_⟩
  · rw [requests, hlogged]
    exact htouches.confined
  · rintro e rfl entries w hn hw hchanged
    by_contra hnone
    exact hchanged (kept_start ht.usable hrun hn hw fun entry hreads hl => hnone ⟨entry, hreads, hl⟩)

/-! ## A call that fails behind the start word -/

namespace Demo

/-- A memory whose fixup table lists the chunk table, the start word, a reference to the
    record of a file, and a place that is not there. -/
def torn : Memory :=
  #[⟨4096, (ByteOrder.little.rowBytes
    [chunkFiller, 0, 33, 17, 1, 9, 37, 65, 0, 43, 0, 97]).toArray⟩]

/-- A loader for it. -/
def tornLoader : Loader := { crossedLoader with memory := torn }

theorem torn_run : ((init anywhere).run ⟨tornLoader, ()⟩).1 = .error (.blockOutOfRange ⟨65⟩ 1 1) ∧
    ((init anywhere).run ⟨tornLoader, ()⟩).2.loader.read 0 8 = .ok 4128 ∧
    ((init anywhere).run ⟨tornLoader, ()⟩).2.loader.read 0 40 = .ok 65536 := by decide +kernel

theorem torn_words : tornLoader.chunkEntries = .ok 1 ∧ tornLoader.read 0 8 = .ok 33 ∧
    tornLoader.read 0 40 = .ok 0 := by decide +kernel

end Demo

/-- The start word has been resolved, and a record filled, when the call fails. -/
theorem init_confined_torn : ∃ l r t, ofMemory Demo.torn 48 .little = .ok l ∧
    (∀ r ∈ Demo.torn, r.bytes.size < 2 ^ 31) ∧
    @Eq (Option (Except LoadError LoadOutcome × Hosted Unit))
      ((Guarded.init Demo.anywhere).run ⟨l, ()⟩) (some (r, t)) ∧
    r = .error (.blockOutOfRange ⟨65⟩ 1 1) ∧
    Confined (requests Demo.anywhere ⟨l, ()⟩) l t.loader ∧
    l.read 0 40 = .ok 0 ∧ t.loader.read 0 40 = .ok 65536 ∧
    (∃ name, (name, .ok 65536) ∈ requests Demo.anywhere ⟨l, ()⟩) ∧
    l.read 0 8 = .ok 33 ∧ t.loader.read 0 8 = .ok 4128 ∧
    ∃ entry, Reads Demo.anywhere ⟨l, ()⟩ entry ∧ l.locate entry = .ok (0, 8) := by
  have hl : ofMemory Demo.torn 48 .little = .ok Demo.tornLoader := by rfl
  have hsize : ∀ r ∈ Demo.torn, r.bytes.size < 2 ^ 31 := by decide +kernel
  obtain ⟨r, t, hrun, hguarded, hconfined, hstart⟩ := init_confined hl hsize Demo.anywhere ()
  obtain ⟨he, hstart', hrecord'⟩ := Demo.torn_run
  obtain ⟨hn, hw, hrecord⟩ := Demo.torn_words
  rw [hrun] at he hstart' hrecord'
  refine ⟨_, r, t, hl, hsize, hguarded, he, hconfined, hrecord, hrecord', ?_, hw, hstart', ?_⟩
  · exact (hconfined.null (by decide) hrecord hrecord' (by decide)).2
  · refine hstart _ he hn hw ?_
    rw [hstart']
    decide

end Loader

end LevelBundle
