/-
  LevelBundle — resolving with guarded accesses.

  A region is looked up by its index, and offsets are words.  Here the same steps are taken
  with guards: they come to nothing at a region that is not there, and where an offset does
  not fit in a word.

  * `GuardM`: steps that may come to nothing.
  * `Guarded.init`: resolving a bundle, guarded.
  * `Agrees x y s`: from the state `s` the step `x` passes all its guards and does what `y` does.
  * `agrees_init`: this is so of resolving, if regions are smaller than `2 ^ 31` bytes.
-/
import LevelBundle.Proofs.Frames

namespace LevelBundle

/-- A step of resolving that may come to nothing. -/
abbrev GuardM (σ : Type) := ExceptT LoadError (StateT (Hosted σ) Option)

namespace Loader

variable {σ α β : Type}

namespace Guarded

/-- Nothing. -/
def nothing : GuardM σ α := ExceptT.mk fun _ => none

/-- A step that needs no guard. -/
def step (x : LoadM σ α) : GuardM σ α := ExceptT.mk fun s => some (x.run s)

/-- A number that has to fit in a word. -/
def number (n : ℕ) : GuardM σ ℕ := if n < 2 ^ 32 then pure n else nothing

/-- A region that has to be there. -/
def region (block : ℕ) : GuardM σ Region := do
  match (← get).loader.memory[block]? with
  | some r => return r
  | none => nothing

/-- The word at an offset of a region. -/
def read (block offset : ℕ) : GuardM σ UInt32 := do
  let r ← region block
  match (← get).loader.order.wordAt? r.bytes offset with
  | some word => return word
  | none => throw (.offsetOutOfRange block offset r.bytes.size)

/-- Writes a word at an offset of a region. -/
def write (block offset : ℕ) (word : UInt32) : GuardM σ Unit := do
  let r ← region block
  if offset + 4 ≤ r.bytes.size then
    modify fun s => { s with loader :=
      { s.loader with memory := s.loader.memory.setWord s.loader.order block offset word } }
  else throw (.offsetOutOfRange block offset r.bytes.size)

/-- The address that a position stands for. -/
def address (p : Position) : GuardM σ UInt32 := do
  let (block, offset) ← step (ask (·.locate p))
  let r ← region block
  if r.base.toNat + offset < 2 ^ 32 then return (r.base.toNat + offset).toUInt32
  else throw (.offsetOutOfRange block offset r.bytes.size)

/-- Counts the entries of the chunk table from number `index` on; `left` words are left in
    the region. -/
def countEntries (index : ℕ) : ℕ → GuardM σ ℕ
  | 0 => do
    let _ ← number (4 * index + 4)
    throw .missingChunkTerminator
  | left + 1 => do
    let _ ← number (4 * index + 4)
    if (← read 0 (4 * index)) = 0 then return index
    countEntries (index + 1) left

/-- The number of entries of the chunk table. -/
def chunkEntries : GuardM σ ℕ := do
  let size ← number (← region 0).bytes.size
  countEntries 0 (size / 4)

/-- The address of a file that is loaded on demand, and whether the host was asked. -/
def runtimeFile (host : FileHost σ) (record : Position) : GuardM σ (UInt32 × Bool) := do
  let (block, offset) ← step (ask (·.locate record))
  let cached ← read block offset
  if cached ≠ 0 then return (cached, false)
  let behind ← number (offset + 4)
  let _ ← region block
  let name ← step (ask (·.recordName block behind record))
  let address ← step (askHost host name)
  if address = 0 ∨ address % 2 ≠ 0 then throw (.badAddress name address)
  write block offset address
  return (address, true)

/-- The address for a slot that holds a position, and whether the host was asked for it. -/
def target (host : FileHost σ) (p : Position) : GuardM σ (UInt32 × Bool) := do
  if p.isRuntimeFile then runtimeFile host p
  else return (← address p, false)

/-- Resolves the slot that an entry of the fixup table names. -/
def resolveSlot (host : FileHost σ) (entry : Position) : GuardM σ (ℕ × ℕ) := do
  let (block, offset) ← step (ask (·.locate entry))
  match Slot.ofWord (← read block offset) with
  | .resolved _ => return (0, 0)
  | .unresolved p =>
    let (address, asked) ← target host p
    write block offset address
    return (1, if asked then 1 else 0)

/-- Resolves the slots of the fixup table from `offset` on; `left` words are left in the
    region. -/
def resolveSlots (host : FileHost σ) (table : Position) (block : ℕ) :
    ℕ → ℕ → ℕ × ℕ → GuardM σ (ℕ × ℕ)
  | 0, offset, _ => do
    let _ ← number (offset + 4)
    throw (.missingFixupTerminator table)
  | left + 1, offset, done => do
    let next ← number (offset + 4)
    let entry ← read block offset
    if entry = 0 then return done
    let (applied, loads) ← resolveSlot host ⟨entry⟩
    resolveSlots host table block left next (done.1 + applied, done.2 + loads)

/-- Writes the address of a chunk into the chunk table. -/
def fillEntry (index : ℕ) : GuardM σ Unit := do
  let offset ← number (4 * index)
  let value ← read 0 offset
  let base := (← region index).base
  if value ≠ chunkFiller ∧ value ≠ base then throw (.badChunkEntry index value)
  write 0 offset base

/-- Resolves the slots that the fixup table lists, if there is one. -/
def resolveTable (host : FileHost σ) (table : Position) : GuardM σ (ℕ × ℕ) := do
  if table.isNull then return (0, 0)
  let (block, offset) ← step (ask (·.locate table))
  let size ← number (← region block).bytes.size
  resolveSlots host table block ((size - offset) / 4) offset (0, 0)

/-- Resolves the bundle, or reports the root of a resolved one. -/
def init (host : FileHost σ) : GuardM σ LoadOutcome := do
  let entries ← chunkEntries
  let regions := (← get).loader.memory.size
  if regions < entries then throw (.chunkTableTooLong entries regions)
  let startOffset ← number (4 * (entries + 1))
  let startWord ← read 0 startOffset
  let tableWord ← read 0 (← number (startOffset + 4))
  match Slot.ofWord startWord with
  | .resolved root =>
    if root = 0 then throw .nullStart
    return { root, alreadyResolved := true }
  | .unresolved start =>
    (List.range entries).forM fillEntry
    let (fixupsApplied, runtimeLoads) ← resolveTable host ⟨tableWord⟩
    let root ← address start
    write 0 startOffset root
    return { root, fixupsApplied, runtimeLoads }

end Guarded

/-! ## Agreement -/

/-- From a state, a step passes all its guards and does what another one does. -/
def Agrees (x : GuardM σ α) (y : LoadM σ α) (s : Hosted σ) : Prop :=
  @Eq (Option (Except LoadError α × Hosted σ)) (x.run s) (some (y.run s))

section

variable {x : GuardM σ α} {y : LoadM σ α} {s : Hosted σ} {a : α}

theorem run_guarded_bind (x : GuardM σ α) (f : α → GuardM σ β) (s : Hosted σ) :
    ((x >>= f).run s : Option (Except LoadError β × Hosted σ)) =
      (x.run s : Option (Except LoadError α × Hosted σ)).bind fun r =>
        match r with
        | (.ok a, t) => (f a).run t
        | (.error e, t) => some (.error e, t) := by
  show (ExceptT.bind x f).run s = _
  simp only [ExceptT.bind, ExceptT.run, ExceptT.mk]
  show (x s).bind _ = _
  rcases x s with _ | ⟨_ | _, _⟩ <;> rfl

theorem Agrees.step : Agrees (Guarded.step y) y s := rfl

theorem Agrees.pure : Agrees (Pure.pure a) (Pure.pure a) s := rfl

theorem Agrees.throw {e : LoadError} : Agrees (α := α) (MonadExcept.throw e) (MonadExcept.throw e) s :=
  rfl

theorem Agrees.bind {f : α → GuardM σ β} {g : α → LoadM σ β} (h : Agrees x y s)
    (hf : ∀ a t, Runs y s a t → Agrees (f a) (g a) t) : Agrees (x >>= f) (y >>= g) s := by
  unfold Agrees Runs at *
  rw [run_guarded_bind, h, Option.bind_some, run_bind]
  rcases hy : y.run s with ⟨e | a, t⟩
  · rfl
  · exact hf a t hy

theorem Agrees.guard {f : α → GuardM σ β} {z : LoadM σ β} (h : Agrees x (Pure.pure a) s)
    (hf : Agrees (f a) z s) : Agrees (x >>= f) z s := by
  unfold Agrees at *
  rw [run_guarded_bind, h, Option.bind_some, run_pure]
  exact hf

theorem Agrees.look {g : Hosted σ → LoadM σ α} (h : Agrees x (g s) s) :
    Agrees x (get >>= g) s :=
  h

theorem Agrees.check {c : Prop} [Decidable c] {e : LoadError} {f : PUnit → GuardM σ α}
    {g : PUnit → LoadM σ α} (h : ¬ c → Agrees x y s) :
    Agrees (if c then MonadExcept.throw e >>= f else x)
      (if c then MonadExcept.throw e >>= g else y) s := by
  split_ifs with hc
  · rfl
  · exact h hc

theorem run_question {question : Loader → Except LoadError α} :
    ((ask question).run s : Except LoadError α × Hosted σ) = (question s.loader, s) := by
  unfold ask
  rw [run_bind_ok (run_get s)]
  cases question s.loader <;> rfl

theorem Agrees.ask {f : α → GuardM σ β} {q : Loader → Except LoadError α}
    {r : α → Loader → Except LoadError β} (h : Agrees x (Loader.ask q) s)
    (hf : ∀ a, q s.loader = .ok a → Agrees (f a) (Loader.ask (r a)) s) :
    Agrees (x >>= f) (Loader.ask fun l => q l >>= fun a => r a l) s := by
  unfold Agrees at *
  rw [run_question] at h ⊢
  rw [run_guarded_bind, h, Option.bind_some]
  rcases hq : q s.loader with e | a
  · rfl
  · exact (hf a hq).trans (congrArg some run_question)

theorem Agrees.answer {f : α → GuardM σ β} {g : α → LoadM σ β} {q : Loader → Except LoadError α}
    (h : Agrees x (Loader.ask q) s) (hf : ∀ a, q s.loader = .ok a → Agrees (f a) (g a) s) :
    Agrees (x >>= f) (Loader.ask q >>= g) s :=
  h.bind fun a _ hrun => by
    obtain ⟨ha, rfl⟩ := runs_ask.1 hrun
    exact hf a ha

end

/-! ## Guards that are passed -/

/-- A loader for some regions that are smaller than `2 ^ 31` bytes. -/
structure Tight (l : Loader) : Prop where
  usable : l.Usable
  nonempty : 0 < l.memory.size
  sizeAt : ∀ block, l.memory.sizeAt block < 2 ^ 31

theorem Settles.tight {R : ℕ → ℕ → UInt32 → Prop} {l l' : Loader} (h : Settles R l l')
    (ht : l.Tight) : l'.Tight :=
  ⟨h.usable ht.usable, h.size ▸ ht.nonempty, fun block => h.sizeAt block ▸ ht.sizeAt block⟩

theorem size_pos_of_ofMemory {memory : Memory} {chunkSize : UInt32} {order : ByteOrder}
    {l : Loader} (hl : ofMemory memory chunkSize order = .ok l) : 0 < memory.size := by
  rw [ofMemory, bind_eq_ok] at hl
  obtain ⟨_, -, hl⟩ := hl
  exact Array.size_pos_iff.2 fun h => (check_eq_ok.1 hl).1 (Array.isEmpty_iff.2 h)

theorem tight_ofMemory {memory : Memory} {chunkSize : UInt32} {order : ByteOrder} {l : Loader}
    (hl : ofMemory memory chunkSize order = .ok l) (hsize : ∀ r ∈ memory, r.bytes.size < 2 ^ 31) :
    l.Tight := by
  have hpos := size_pos_of_ofMemory hl
  obtain ⟨rfl, -, -, hu⟩ := ofMemory_eq_ok hl
  refine ⟨hu, hpos, fun block => ?_⟩
  rw [Memory.sizeAt, Array.getD_eq_getD_getElem?]
  rcases h : l.memory[block]? with _ | r
  · exact Nat.two_pow_pos 31
  · exact hsize r (Array.mem_of_getElem? h)

section

variable {host : FileHost σ} {s : Hosted σ} {p entry table : Position} {block offset n : ℕ}
  {v : UInt32}

theorem agrees_number (h : n < 2 ^ 32) : Agrees (Guarded.number n) (pure n) s := by
  rw [Guarded.number, if_pos h]
  exact .pure

/-- **A region that is there.** -/
theorem agrees_region (h : block < s.loader.memory.size) :
    Agrees (Guarded.region block) (pure (s.loader.memory.getD block default)) s := by
  have hr : s.loader.memory[block]? = some (s.loader.memory.getD block default) := by
    rw [Array.getD_eq_getD_getElem?, Array.getElem?_eq_getElem h, Option.getD_some]
  refine .guard (a := s) rfl ?_
  rw [hr]
  exact .pure

theorem agrees_read (h : block < s.loader.memory.size) :
    Agrees (Guarded.read block offset) (ask (·.read block offset)) s := by
  refine .guard (agrees_region h) (.guard rfl (.look ?_))
  simp only [Loader.read, Memory.word?]
  cases s.loader.order.wordAt? (s.loader.memory.getD block default).bytes offset with
  | none => exact .throw
  | some w => exact .pure

theorem agrees_write (h : block < s.loader.memory.size) :
    Agrees (Guarded.write block offset v) (change (·.write block offset v)) s := by
  refine .guard (agrees_region h) ?_
  by_cases hle : offset + 4 ≤ (s.loader.memory.getD block default).bytes.size
  · rw [if_pos hle]
    exact congrArg some (runs_change.2 ⟨_, write_eq_ok.2 ⟨hle, rfl⟩, rfl⟩).symm
  · rw [if_neg hle]
    exact congrArg some (fails_change.2 ⟨if_neg hle, rfl⟩).symm

theorem agrees_address : Agrees (Guarded.address p) (ask (·.address p)) s := by
  refine .ask .step fun ⟨block, offset⟩ hl => ?_
  obtain ⟨-, -, hb, -⟩ := locate_eq_ok.1 hl
  refine .guard (agrees_region hb) ?_
  by_cases hlt : (s.loader.memory.getD block default).base.toNat + offset < 2 ^ 32
  · rw [if_pos hlt]
    exact congrArg some (runs_ask.2 ⟨if_pos hlt, rfl⟩).symm
  · rw [if_neg hlt]
    exact congrArg some (fails_ask.2 ⟨if_neg hlt, rfl⟩).symm

theorem agrees_countEntries {index left : ℕ} (ht : s.loader.Tight)
    (h : 4 * index + 4 * left ≤ s.loader.memory.sizeAt 0) :
    Agrees (Guarded.countEntries index left) (ask (·.countEntries index left)) s := by
  have hsize := ht.sizeAt 0
  induction left generalizing index with
  | zero => exact .guard (agrees_number (by omega)) rfl
  | succ left ih =>
    refine .guard (agrees_number (by omega)) (.ask (agrees_read ht.nonempty) fun w _ => ?_)
    split_ifs with h0
    · rfl
    · exact ih (by omega)

theorem agrees_chunkEntries (ht : s.loader.Tight) :
    Agrees Guarded.chunkEntries (ask (·.chunkEntries)) s := by
  refine .guard (agrees_region ht.nonempty) (.guard (agrees_number ?_) ?_)
  · exact lt_trans (ht.sizeAt 0) (by decide)
  · have hwords := Nat.mul_div_le (s.loader.memory.sizeAt 0) 4
    exact agrees_countEntries ht (by rwa [Nat.mul_zero, Nat.zero_add])

/-! ## Resolving with its guards -/

theorem agrees_runtimeFile (ht : s.loader.Tight) :
    Agrees (Guarded.runtimeFile host p) (runtimeFile host p) s := by
  refine .answer .step fun ⟨block, offset⟩ hl => ?_
  obtain ⟨-, -, hb, ho⟩ := locate_eq_ok.1 hl
  have hsize := ht.sizeAt block
  refine .answer (agrees_read hb) fun cached _ => ?_
  split_ifs
  · exact .pure
  refine .guard (agrees_number (by omega)) (.guard (agrees_region hb) (.answer .step fun name _ => ?_))
  refine .bind .step fun address t hask => .check fun _ => ?_
  obtain ⟨g, -, rfl⟩ := runs_askHost.1 hask
  exact .bind (agrees_write hb) fun _ _ _ => .pure

theorem agrees_target (ht : s.loader.Tight) : Agrees (Guarded.target host p) (target host p) s := by
  unfold Guarded.target target
  split_ifs
  · exact agrees_runtimeFile ht
  · exact .answer agrees_address fun _ _ => .pure

theorem agrees_resolveSlot (ht : s.loader.Tight) :
    Agrees (Guarded.resolveSlot host entry) (resolveSlot host entry) s := by
  refine .answer .step fun ⟨block, offset⟩ hl => ?_
  obtain ⟨-, -, hb, -⟩ := locate_eq_ok.1 hl
  refine .answer (agrees_read hb) fun w _ => ?_
  cases Slot.ofWord w with
  | resolved _ => exact .pure
  | unresolved q =>
    refine .bind (agrees_target ht) fun ⟨v, asked⟩ t htarget => ?_
    have hset := settles_target ht.usable htarget
    exact .bind (agrees_write (hset.size ▸ hb)) fun _ _ _ => .pure

theorem agrees_resolveSlots {left : ℕ} {done : ℕ × ℕ} (ht : s.loader.Tight)
    (hb : block < s.loader.memory.size) (h : offset + 4 * left ≤ s.loader.memory.sizeAt block) :
    Agrees (Guarded.resolveSlots host table block left offset done)
      (resolveSlots host table block left offset done) s := by
  have hsize := ht.sizeAt block
  induction left generalizing s offset done with
  | zero => exact .guard (agrees_number (by omega)) .throw
  | succ left ih =>
    refine .guard (agrees_number (by omega)) (.answer (agrees_read hb) fun entry _ => ?_)
    split_ifs
    · exact .pure
    refine .bind (agrees_resolveSlot ht) fun ⟨n, k⟩ t hslot => ?_
    have hset := settles_of_resolveSlot ht.usable hslot
    refine ih (hset.tight ht) (hset.size ▸ hb) ?_ (hset.sizeAt block ▸ hsize)
    rw [hset.sizeAt]
    omega

theorem agrees_fillEntry {i : ℕ} (ht : s.loader.Tight) (hi : i < s.loader.memory.size)
    (hlt : 4 * i < 2 ^ 32) : Agrees (Guarded.fillEntry i) (fillEntry i) s := by
  refine .guard (agrees_number hlt) (.answer (agrees_read ht.nonempty) fun value _ => ?_)
  exact .guard (agrees_region hi) (.look (.check fun _ => agrees_write ht.nonempty))

theorem agrees_fill {indices : List ℕ} (ht : s.loader.Tight)
    (hlt : ∀ i ∈ indices, i < s.loader.memory.size ∧ 4 * i < 2 ^ 32) :
    Agrees (indices.forM Guarded.fillEntry) (indices.forM fillEntry) s := by
  induction indices generalizing s with
  | nil => exact .pure
  | cons i indices ih =>
    rw [List.forM_eq_forM, List.forM_cons, List.forM_eq_forM, List.forM_cons]
    obtain ⟨hi, hi4⟩ := hlt i List.mem_cons_self
    refine .bind (agrees_fillEntry ht hi hi4) fun _ t hfirst => ?_
    obtain ⟨hset, -⟩ := settles_fillEntry (R := fun _ _ _ => True) ht.usable hi hfirst
    exact ih (hset.tight ht) fun j hj => hset.size ▸ hlt j (List.mem_cons_of_mem i hj)

theorem agrees_resolveTable (ht : s.loader.Tight) :
    Agrees (Guarded.resolveTable host table) (resolveTable host table) s := by
  unfold Guarded.resolveTable resolveTable
  split_ifs
  · exact .pure
  refine .answer .step fun ⟨block, offset⟩ hl => ?_
  obtain ⟨-, -, hb, ho⟩ := locate_eq_ok.1 hl
  refine .guard (agrees_region hb) (.guard (agrees_number ?_) (.look ?_))
  · exact lt_trans (ht.sizeAt block) (by decide)
  · have hwords : offset + 4 * ((s.loader.memory.sizeAt block - offset) / 4) ≤
        s.loader.memory.sizeAt block := by omega
    exact agrees_resolveSlots ht hb hwords

/-- **A call passes all its guards**, and does what it does without them. -/
theorem agrees_init (ht : s.loader.Tight) : Agrees (Guarded.init host) (init host) s := by
  refine .answer (agrees_chunkEntries ht) fun entries hn => ?_
  refine .guard rfl (.look (.check fun hlong => ?_))
  -- the null word that ends the chunk table lies inside the region
  have hend := le_sizeAt_of_read (chunkEntries_eq_ok.1 hn).1
  have hsize := ht.sizeAt 0
  refine .guard (agrees_number (by omega)) (.answer (agrees_read ht.nonempty) fun start _ => ?_)
  refine .guard (agrees_number (by omega)) (.answer (agrees_read ht.nonempty) fun table _ => ?_)
  cases Slot.ofWord start with
  | resolved root => exact .check fun _ => .pure
  | unresolved p =>
    have hlt : ∀ i ∈ List.range entries, i < s.loader.memory.size ∧ 4 * i < 2 ^ 32 := by
      intro i hi
      have := List.mem_range.1 hi
      omega
    refine .bind (agrees_fill ht hlt) fun _ s₁ hfill => ?_
    have ht₁ : s₁.loader.Tight :=
      (settles_fill (R := fun _ _ _ => True) ht.usable (fun i hi => (hlt i hi).1) hfill).1.tight ht
    refine .bind (agrees_resolveTable ht₁) fun ⟨n, k⟩ s₂ htable => ?_
    refine .answer agrees_address fun root _ => ?_
    have ht₂ : s₂.loader.Tight := (settles_of_resolveTable ht₁.usable htable).tight ht₁
    exact .bind (agrees_write ht₂.nonempty) fun _ _ _ => .pure

end

end Loader

end LevelBundle
