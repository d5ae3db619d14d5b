/-
  LevelBundle — what resolving does to any memory.

  The memory need not be a bundle: entries of the fixup table may name the chunk table,
  the header, the fixup table itself or one another's slots.

  * `Becomes R w w'`: what may become of a word: an odd one gives way to one that is not
    null; one that is even and not null stays; a null one stays, or gives way to an even
    one that `R` admits.
  * `Settles R l l'`: this is so for all words of a memory, and nothing else changes.
  * `runs_runtimeFile`, `runs_target`, `runs_resolveSlot`, `runs_init`: all that each step
    can do.
  * `settles_fill`, `settles_resolveSlots`: the filling of the chunk table and the walk of
    the fixup table settle the memory; `metFrom` lists the positions that the walk meets.
-/
import LevelBundle.Proofs.Regions

namespace LevelBundle

variable {σ : Type}

namespace Loader

/-! ## Words that settle -/

/-- What may become of a word; `R` says what may be put in the place of a null word. -/
inductive Becomes (R : UInt32 → Prop) : UInt32 → UInt32 → Prop
  /-- It stays. -/
  | kept (w : UInt32) : Becomes R w w
  /-- A position gives way to an address. -/
  | resolved {w w' : UInt32} : w.toNat % 2 = 1 → w' ≠ 0 → Becomes R w w'
  /-- A null word gives way to an address. -/
  | filled {w' : UInt32} : w' ≠ 0 → w'.toNat % 2 = 0 → R w' → Becomes R 0 w'

section

variable {R : UInt32 → Prop} {w w' w'' : UInt32}

/-- **A word that is even and not null** stays. -/
theorem Becomes.eq_of_even (h : Becomes R w w') (h0 : w ≠ 0) (h2 : w.toNat % 2 = 0) : w' = w := by
  cases h with
  | kept => rfl
  | resolved hodd => omega
  | filled => exact absurd rfl h0

theorem Becomes.ne_zero (h : Becomes R w w') (h0 : w ≠ 0) : w' ≠ 0 := by
  cases h with
  | kept => exact h0
  | resolved _ h' => exact h'
  | filled => exact absurd rfl h0

/-- **A null word** stays, if there is nothing to take its place. -/
theorem Becomes.eq_zero (h : Becomes R 0 w') (hR : ¬ R w') : w' = 0 := by
  cases h with
  | kept => rfl
  | resolved hodd => exact absurd hodd (by decide)
  | filled _ _ hw => exact absurd hw hR

theorem Becomes.mono {R' : UInt32 → Prop} (h : Becomes R w w') (hR : ∀ {v}, R v → R' v) :
    Becomes R' w w' := by
  cases h with
  | kept => exact .kept w
  | resolved hodd h0 => exact .resolved hodd h0
  | filled h0 h2 h => exact .filled h0 h2 (hR h)

theorem Becomes.trans (h : Becomes R w w') (h' : Becomes R w' w'') : Becomes R w w'' := by
  cases h with
  | kept => exact h'
  | resolved hodd h0 => exact .resolved hodd (h'.ne_zero h0)
  | filled h0 h2 hR =>
    rw [h'.eq_of_even h0 h2]
    exact .filled h0 h2 hR

end

/-- What resolving does to a memory: its words settle, and nothing else changes. -/
structure Settles (R : ℕ → ℕ → UInt32 → Prop) (l l' : Loader) : Prop where
  addressing : l'.addressing = l.addressing
  size : l'.memory.size = l.memory.size
  sizeAt : ∀ i, l'.memory.sizeAt i = l.memory.sizeAt i
  baseAt : ∀ i, l'.memory.baseAt i = l.memory.baseAt i
  word : ∀ {block offset w}, 4 ∣ offset → l.read block offset = .ok w →
    ∃ w', l'.read block offset = .ok w' ∧ Becomes (R block offset) w w'

section

variable {R : ℕ → ℕ → UInt32 → Prop} {l l' l'' : Loader} {block offset n : ℕ} {w v : UInt32}

theorem Settles.refl (l : Loader) : Settles R l l :=
  ⟨rfl, rfl, fun _ => rfl, fun _ => rfl, fun {_ _ w} _ hw => ⟨w, hw, .kept w⟩⟩

theorem Settles.trans (h : Settles R l l') (h' : Settles R l' l'') : Settles R l l'' where
  addressing := h'.addressing.trans h.addressing
  size := h'.size.trans h.size
  sizeAt i := (h'.sizeAt i).trans (h.sizeAt i)
  baseAt i := (h'.baseAt i).trans (h.baseAt i)
  word h4 hw := by
    obtain ⟨w', hw', hb⟩ := h.word h4 hw
    obtain ⟨w'', hw'', hb'⟩ := h'.word h4 hw'
    exact ⟨w'', hw'', hb.trans hb'⟩

theorem Settles.usable (h : Settles R l l') (hu : l.Usable) : l'.Usable := by
  intro i hi
  rw [h.size] at hi
  rw [h.baseAt, h.sizeAt]
  exact hu i hi

theorem Settles.locate (h : Settles R l l') {p : Position} {place : ℕ × ℕ} :
    l'.locate p = .ok place ↔ l.locate p = .ok place := by
  rw [locate_eq_ok, locate_eq_ok, h.addressing, h.size, h.sizeAt]

theorem Settles.read_even (h : Settles R l l') (h4 : 4 ∣ offset) (hw : l.read block offset = .ok w)
    (h0 : w ≠ 0) (h2 : w.toNat % 2 = 0) : l'.read block offset = .ok w := by
  obtain ⟨w', hw', hb⟩ := h.word h4 hw
  rw [hw', hb.eq_of_even h0 h2]

theorem Settles.read_zero (h : Settles R l l') (h4 : 4 ∣ offset) (hw : l.read block offset = .ok 0)
    (hR : ∀ v, ¬ R block offset v) : l'.read block offset = .ok 0 := by
  obtain ⟨w', hw', hb⟩ := h.word h4 hw
  rw [hw', hb.eq_zero (hR w')]

/-- **The chunk table** keeps its length, if nothing takes the place of its end. -/
theorem Settles.chunkEntries (h : Settles R l l') (hn : l.chunkEntries = .ok n)
    (hR : ∀ v, ¬ R 0 (4 * n) v) : l'.chunkEntries = .ok n := by
  rw [chunkEntries_eq_ok] at hn ⊢
  refine ⟨h.read_zero (Nat.dvd_mul_right ..) hn.1 hR, fun i hi => ?_⟩
  obtain ⟨w, hw, h0⟩ := hn.2 i hi
  obtain ⟨w', hw', hb⟩ := h.word (Nat.dvd_mul_right ..) hw
  exact ⟨w', hw', hb.ne_zero h0⟩

theorem Settles.mono {R' : ℕ → ℕ → UInt32 → Prop} (h : Settles R l l')
    (hR : ∀ {block offset v}, R block offset v → R' block offset v) : Settles R' l l' where
  addressing := h.addressing
  size := h.size
  sizeAt := h.sizeAt
  baseAt := h.baseAt
  word h4 hw := by
    obtain ⟨w', hw', hb⟩ := h.word h4 hw
    exact ⟨w', hw', hb.mono hR⟩

/-- **Writing a word** that may take the place of the one that was there at first. -/
theorem Settles.write (h : Settles R l l') (h4 : 4 ∣ offset) (hw : l.read block offset = .ok w)
    (hb : Becomes (R block offset) w v) (hwrite : l'.write block offset v = .ok l'') :
    Settles R l l'' := by
  obtain ⟨hle, he⟩ := write_eq_ok.1 hwrite
  refine ⟨?_, ?_, fun i => ?_, fun i => ?_, fun {block' offset' w'} h4' hw' => ?_⟩
  · rw [he]
    exact h.addressing
  · rw [he]
    exact Memory.size_setWord.trans h.size
  · rw [he]
    exact (Memory.sizeAt_setWord hle).trans (h.sizeAt i)
  · rw [he]
    exact (Memory.baseAt_setWord hle).trans (h.baseAt i)
  · by_cases hsame : block' = block ∧ offset' = offset
    · obtain ⟨rfl, rfl⟩ := hsame
      rw [hw, Except.ok.injEq] at hw'
      exact ⟨v, read_write_self hwrite, hw' ▸ hb⟩
    · obtain ⟨w'', hw'', hb'⟩ := h.word h4' hw'
      exact ⟨w'', (read_write_of_ne hwrite h4 h4' hsame).2 hw'', hb'⟩

/-- **Writing a word** that may take the place of the one before. -/
theorem settles_write (h4 : 4 ∣ offset) (hw : l.read block offset = .ok w)
    (hb : Becomes (R block offset) w v) (h : l.write block offset v = .ok l') : Settles R l l' :=
  (Settles.refl l).write h4 hw hb h

end

/-! ## What each step can do -/

section

variable {host : FileHost σ} {s t : Hosted σ} {p entry : Position} {v : UInt32} {asked : Bool}
  {n k : ℕ}

theorem slot_resolved {w a : UInt32} (h : Slot.ofWord w = .resolved a) :
    a = w ∧ w.toNat % 2 = 0 := by
  unfold Slot.ofWord at h
  split_ifs at h with hodd
  cases h
  exact ⟨rfl, Nat.mod_two_ne_one.1 (mt Position.isUnresolved_iff.2 hodd)⟩

theorem slot_unresolved {w : UInt32} (h : Slot.ofWord w = .unresolved p) :
    p = ⟨w⟩ ∧ w.toNat % 2 = 1 := by
  unfold Slot.ofWord at h
  split_ifs at h with hodd
  cases h
  exact ⟨rfl, Position.isUnresolved_iff.1 hodd⟩

/-- **A record** holds an address, or is given the one that the host answers. -/
theorem runs_runtimeFile (h : Runs (runtimeFile host p) s (v, asked) t) :
    ∃ block offset, s.loader.locate p = .ok (block, offset) ∧
      ((asked = false ∧ v ≠ 0 ∧ s.loader.read block offset = .ok v ∧ t = s) ∨
        (asked = true ∧ v ≠ 0 ∧ v.toNat % 2 = 0 ∧ s.loader.read block offset = .ok 0 ∧
          ∃ name g l, (host name).run s.host = (.ok v, g) ∧
            s.loader.write block offset v = .ok l ∧ t = ⟨l, g⟩)) := by
  simp only [runtimeFile, runs_bind, runs_ask] at h
  obtain ⟨⟨block, offset⟩, _, ⟨hl, rfl⟩, cached, _, ⟨hr, rfl⟩, h⟩ := h
  refine ⟨block, offset, hl, ?_⟩
  split_ifs at h with hc
  · obtain ⟨he, rfl⟩ := runs_pure.1 h
    cases he
    exact Or.inl ⟨rfl, hc, hr, rfl⟩
  · simp only [runs_bind, runs_ask, runs_askHost] at h
    obtain ⟨name, _, ⟨-, rfl⟩, address, _, ⟨g, hg, rfl⟩, h⟩ := h
    split_ifs at h with ha
    · obtain ⟨_, _, h, -⟩ := runs_bind.1 h
      exact absurd h runs_throw
    · obtain ⟨_, _, h1, h2⟩ := runs_bind.1 h
      obtain ⟨l, hw, rfl⟩ := runs_change.1 h1
      obtain ⟨he, rfl⟩ := runs_pure.1 h2
      cases he
      rw [not_or, not_not] at ha
      have h2 := congrArg UInt32.toNat ha.2
      rw [UInt32.toNat_mod] at h2
      rw [ne_eq, not_not] at hc
      exact Or.inr ⟨rfl, ha.1, h2, hc ▸ hr, name, g, l, hg, hw, rfl⟩

/-- **The address for a slot** is not null; if the host was asked, a record that held none
    has been given it. -/
theorem runs_target (hu : s.loader.Usable) (h : Runs (target host p) s (v, asked) t) : v ≠ 0 ∧
    ((asked = false ∧ t = s) ∨ (asked = true ∧ v.toNat % 2 = 0 ∧ p.isRuntimeFile = true ∧
      ∃ block offset name g l, s.loader.locate p = .ok (block, offset) ∧
        s.loader.read block offset = .ok 0 ∧ (host name).run s.host = (.ok v, g) ∧
          s.loader.write block offset v = .ok l ∧ t = ⟨l, g⟩)) := by
  unfold target at h
  split_ifs at h with hp
  · obtain ⟨block, offset, hl, hcase⟩ := runs_runtimeFile h
    rcases hcase with ⟨ha, h0, -, rfl⟩ | ⟨ha, h0, h2, hr, name, g, l, hg, hw, rfl⟩
    · exact ⟨h0, Or.inl ⟨ha, rfl⟩⟩
    · exact ⟨h0, Or.inr ⟨ha, h2, hp, block, offset, name, g, l, hl, hr, hg, hw, rfl⟩⟩
  · simp only [runs_bind, runs_ask] at h
    obtain ⟨address, _, ⟨ha, rfl⟩, h⟩ := h
    obtain ⟨he, rfl⟩ := runs_pure.1 h
    cases he
    exact ⟨(address_eq_ok hu ha).2.2.1, Or.inl ⟨rfl, rfl⟩⟩

/-- **A slot** holds an address already, or the position in it gives way to one. -/
theorem runs_resolveSlot (h : Runs (resolveSlot host entry) s (n, k) t) :
    ∃ block offset w, s.loader.locate entry = .ok (block, offset) ∧
      s.loader.read block offset = .ok w ∧
      ((w.toNat % 2 = 0 ∧ n = 0 ∧ k = 0 ∧ t = s) ∨
        (w.toNat % 2 = 1 ∧ n = 1 ∧ ∃ v asked u l, Runs (target host ⟨w⟩) s (v, asked) u ∧
          k = (if asked then 1 else 0) ∧ u.loader.write block offset v = .ok l ∧
            t = ⟨l, u.host⟩)) := by
  simp only [resolveSlot, runs_bind, runs_ask] at h
  obtain ⟨⟨block, offset⟩, _, ⟨hl, rfl⟩, w, _, ⟨hr, rfl⟩, h⟩ := h
  refine ⟨block, offset, w, hl, hr, ?_⟩
  split at h
  · rename_i hw
    obtain ⟨he, rfl⟩ := runs_pure.1 h
    cases he
    exact Or.inl ⟨(slot_resolved hw).2, rfl, rfl, rfl⟩
  · rename_i q hw
    obtain ⟨rfl, hodd⟩ := slot_unresolved hw
    simp only [runs_bind, runs_change] at h
    obtain ⟨⟨v, asked⟩, u, ht, _, _, ⟨l, hwr, rfl⟩, h⟩ := h
    obtain ⟨he, rfl⟩ := runs_pure.1 h
    cases he
    exact Or.inr ⟨hodd, rfl, v, asked, u, l, ht, rfl, hwr, rfl⟩

/-- **A call** finds the bundle resolved, or resolves it: it fills the chunk table, walks
    the fixup table and writes the start word. -/
theorem runs_init {o : LoadOutcome} (h : Runs (init host) s o t) :
    ∃ entries start table, s.loader.chunkEntries = .ok entries ∧
      entries ≤ s.loader.memory.size ∧ s.loader.read 0 (4 * (entries + 1)) = .ok start ∧
      s.loader.read 0 (4 * (entries + 1) + 4) = .ok table ∧
      ((start.toNat % 2 = 0 ∧ start ≠ 0 ∧ o = { root := start, alreadyResolved := true } ∧
          t = s) ∨
        (start.toNat % 2 = 1 ∧ ∃ s₁ s₂ l, Runs ((List.range entries).forM fillEntry) s ⟨⟩ s₁ ∧
          Runs (resolveTable host ⟨table⟩) s₁ (o.fixupsApplied, o.runtimeLoads) s₂ ∧
          s₂.loader.address ⟨start⟩ = .ok o.root ∧
          s₂.loader.write 0 (4 * (entries + 1)) o.root = .ok l ∧
          o.alreadyResolved = false ∧ t = ⟨l, s₂.host⟩)) := by
  simp only [init, runs_bind, runs_ask, runs_get] at h
  obtain ⟨entries, _, ⟨hn, rfl⟩, _, _, ⟨rfl, rfl⟩, h⟩ := h
  split_ifs at h with hlong
  · obtain ⟨_, _, h, -⟩ := runs_bind.1 h
    exact absurd h runs_throw
  simp only [runs_bind, runs_ask] at h
  obtain ⟨start, _, ⟨hs, rfl⟩, table, _, ⟨ht, rfl⟩, h⟩ := h
  refine ⟨entries, start, table, hn, Nat.not_lt.1 hlong, hs, ht, ?_⟩
  split at h
  · rename_i root hroot
    obtain ⟨rfl, heven⟩ := slot_resolved hroot
    split_ifs at h with h0
    · obtain ⟨_, _, h, -⟩ := runs_bind.1 h
      exact absurd h runs_throw
    · obtain ⟨rfl, rfl⟩ := runs_pure.1 h
      exact Or.inl ⟨heven, h0, rfl, rfl⟩
  · rename_i q hq
    obtain ⟨rfl, hodd⟩ := slot_unresolved hq
    simp only [runs_bind, runs_ask, runs_change] at h
    obtain ⟨_, s₁, hfill, ⟨applied, loads⟩, s₂, htable, root, _, ⟨ha, rfl⟩, _, _, ⟨l, hw, rfl⟩, h⟩ := h
    obtain ⟨rfl, rfl⟩ := runs_pure.1 h
    exact Or.inr ⟨hodd, s₁, s₂, l, hfill, htable, ha, hw, rfl, rfl⟩

/-- **A bundle that is resolved** is reported, and nothing is done. -/
theorem run_init_resolved {l : Loader} {entries : ℕ} {root table : UInt32}
    (hn : l.chunkEntries = .ok entries) (hle : entries ≤ l.memory.size)
    (hroot : l.read 0 (4 * (entries + 1)) = .ok root)
    (htable : l.read 0 (4 * (entries + 1) + 4) = .ok table)
    (h2 : root.toNat % 2 = 0) (h0 : root ≠ 0) (host : FileHost σ) (g : σ) :
    Runs (init host) ⟨l, g⟩ { root, alreadyResolved := true } ⟨l, g⟩ := by
  have hslot : Slot.ofWord root = .resolved root := Slot.ofWord_of_even h2
  simp only [init, runs_bind, runs_ask, runs_get]
  refine ⟨entries, _, ⟨hn, rfl⟩, _, _, ⟨rfl, rfl⟩, ?_⟩
  rw [if_neg (Nat.not_lt.2 hle)]
  simp only [runs_bind, runs_ask]
  refine ⟨root, _, ⟨hroot, rfl⟩, table, _, ⟨htable, rfl⟩, ?_⟩
  rw [hslot]
  simp only [if_neg h0]
  exact runs_pure.2 ⟨rfl, rfl⟩

end

/-! ## Filling the chunk table -/

section

variable {R : ℕ → ℕ → UInt32 → Prop} {s t : Hosted σ} {u : Unit} {i : ℕ}

theorem runs_fillEntry (h : Runs (fillEntry i) s u t) : ∃ value l,
    s.loader.read 0 (4 * i) = .ok value ∧
      (value = chunkFiller ∨ value = s.loader.memory.baseAt i) ∧
      s.loader.write 0 (4 * i) (s.loader.memory.baseAt i) = .ok l ∧ t = ⟨l, s.host⟩ := by
  simp only [fillEntry, runs_bind, runs_ask, runs_get] at h
  obtain ⟨value, _, ⟨hv, rfl⟩, _, _, ⟨rfl, rfl⟩, h⟩ := h
  split_ifs at h with hbad
  · obtain ⟨_, _, h, -⟩ := runs_bind.1 h
    exact absurd h runs_throw
  · obtain ⟨l, hw, rfl⟩ := runs_change.1 h
    rw [not_and_or, not_not, not_not] at hbad
    exact ⟨value, l, hv, hbad, hw, rfl⟩

/-- **An entry of the chunk table** is filled with the address of its region. -/
theorem settles_fillEntry (hu : s.loader.Usable) (hi : i < s.loader.memory.size)
    (h : Runs (fillEntry i) s u t) : Settles R s.loader t.loader ∧ t.host = s.host ∧
      s.loader.memory.baseAt i ≠ 0 ∧ (s.loader.memory.baseAt i).toNat % 2 = 0 ∧
      ∃ l, s.loader.write 0 (4 * i) (s.loader.memory.baseAt i) = .ok l ∧ t = ⟨l, s.host⟩ := by
  obtain ⟨value, l, hv, hvalue, hw, rfl⟩ := runs_fillEntry h
  obtain ⟨hpos, hwords, -⟩ := hu i hi
  have h0 : s.loader.memory.baseAt i ≠ 0 := fun h0 => by
    rw [h0] at hpos
    exact absurd hpos (Nat.lt_irrefl 0)
  have hb : Becomes (R 0 (4 * i)) value (s.loader.memory.baseAt i) := by
    rcases hvalue with rfl | rfl
    · exact .resolved (by decide) h0
    · exact .kept _
  exact ⟨settles_write (Nat.dvd_mul_right ..) hv hb hw, rfl, h0, by omega, l, hw, rfl⟩

/-- **The chunk table is filled** with the addresses of the regions, and the memory settles. -/
theorem settles_fill (hu : s.loader.Usable) {indices : List ℕ}
    (hlt : ∀ i ∈ indices, i < s.loader.memory.size) (h : Runs (indices.forM fillEntry) s u t) :
    Settles R s.loader t.loader ∧ t.host = s.host ∧
      ∀ i ∈ indices, t.loader.read 0 (4 * i) = .ok (s.loader.memory.baseAt i) := by
  induction indices generalizing s with
  | nil =>
    obtain ⟨-, rfl⟩ := runs_pure.1 h
    exact ⟨.refl _, rfl, fun i hi => absurd hi List.not_mem_nil⟩
  | cons i indices ih =>
    rw [List.forM_eq_forM, List.forM_cons, runs_bind] at h
    obtain ⟨_, s₁, h1, h2⟩ := h
    obtain ⟨hset, -, h0, h2', l, hw, rfl⟩ :=
      settles_fillEntry (R := R) hu (hlt i List.mem_cons_self) h1
    obtain ⟨hrest, hhost, hall⟩ := ih (s := ⟨l, s.host⟩) (hset.usable hu)
      (fun j hj => hset.size ▸ hlt j (List.mem_cons_of_mem i hj)) h2
    refine ⟨hset.trans hrest, hhost, fun j hj => ?_⟩
    rcases List.mem_cons.1 hj with rfl | hj
    · exact hrest.read_even (Nat.dvd_mul_right ..) (read_write_self hw) h0 h2'
    · rw [hall j hj, hset.baseAt]

end

/-! ## Walking the fixup table -/

/-- The position in the slot that an entry of the fixup table names, if it holds one. -/
def positionIn? (l : Loader) (entry : Position) : Option Position := do
  let (block, offset) ← (l.locate entry).toOption
  match Slot.ofWord (← (l.read block offset).toOption) with
  | .unresolved p => some p
  | .resolved _ => none

/-- The positions that a walk of the fixup table meets in the slots, in order, from
    `offset` on; `left` words are left in the region. -/
def metFrom (host : FileHost σ) (block : ℕ) : ℕ → ℕ → Hosted σ → List Position
  | 0, _, _ => []
  | left + 1, offset, s =>
    match s.loader.read block offset with
    | .error _ => []
    | .ok entry =>
      if entry = 0 then []
      else
        (s.loader.positionIn? ⟨entry⟩).toList ++
          metFrom host block left (offset + 4) ((resolveSlot host ⟨entry⟩).run s).2

/-- The positions that the walk of a fixup table meets. -/
def metIn (host : FileHost σ) (table : Position) (s : Hosted σ) : List Position :=
  if table.isNull then []
  else match s.loader.locate table with
    | .error _ => []
    | .ok (block, offset) =>
      metFrom host block ((s.loader.memory.sizeAt block - offset) / 4) offset s

section

variable {R : ℕ → ℕ → UInt32 → Prop} {host : FileHost σ} {s t : Hosted σ} {table entry : Position}
  {block left offset n k : ℕ} {done done' : ℕ × ℕ}

/-- **A slot is resolved**, and the memory settles; a record that is loaded for it is the
    one that the position in the slot names, and gets the address that the host answers. -/
theorem settles_slot (hu : s.loader.Usable) (h : Runs (resolveSlot host entry) s (n, k) t)
    (hR : k ≠ 0 → ∀ p ∈ (s.loader.positionIn? entry).toList, p.isRuntimeFile = true →
      ∀ {block offset}, s.loader.locate p = .ok (block, offset) → ∀ {name v},
        (host name).run s.host = (.ok v, t.host) → v ≠ 0 → v.toNat % 2 = 0 → R block offset v) :
    Settles R s.loader t.loader ∧ n = (s.loader.positionIn? entry).toList.length := by
  obtain ⟨block, offset, w, hl, hr, hcase⟩ := runs_resolveSlot h
  have h4 := four_dvd_of_locate hl
  have hin : s.loader.positionIn? entry = match Slot.ofWord w with
      | .unresolved p => some p
      | .resolved _ => none := by
    rw [positionIn?, hl]
    show (s.loader.read block offset).toOption.bind _ = _
    rw [hr]
    rfl
  rcases hcase with ⟨heven, rfl, -, rfl⟩ | ⟨hodd, rfl, v, asked, u, l, ht, rfl, hw, rfl⟩
  · rw [hin, Slot.ofWord_of_even heven]
    exact ⟨.refl _, rfl⟩
  have hslot : Slot.ofWord w = .unresolved ⟨w⟩ :=
    Slot.ofWord_of_isUnresolved (Position.isUnresolved_iff.2 hodd)
  rw [hslot] at hin
  rw [hin] at hR ⊢
  refine ⟨?_, rfl⟩
  obtain ⟨h0, ⟨-, rfl⟩ | ⟨rfl, h2, hp, block', offset', name, g, l', hl', hr', hg, hw', rfl⟩⟩ :=
    runs_target hu ht
  · exact settles_write h4 hr (.resolved hodd h0) hw
  · -- the record is null and the slot is odd, so the slot is as it was
    have hne : ¬ (block = block' ∧ offset = offset') := by
      rintro ⟨rfl, rfl⟩
      rw [hr, Except.ok.injEq] at hr'
      rw [hr'] at hodd
      exact absurd hodd (by decide)
    have h4' := four_dvd_of_locate hl'
    have hset : Settles R s.loader l' := settles_write h4' hr'
      (.filled h0 h2 (hR (by decide) ⟨w⟩ (by simp) hp hl' hg h0 h2)) hw'
    exact hset.trans (settles_write h4 ((read_write_of_ne hw' h4' h4 hne).2 hr)
      (.resolved hodd h0) hw)

theorem settles_resolveSlot (hu : s.loader.Usable) (h : Runs (resolveSlot host entry) s (n, k) t)
    (hR : k ≠ 0 → ∀ p ∈ (s.loader.positionIn? entry).toList, p.isRuntimeFile = true →
      ∀ {block offset}, s.loader.locate p = .ok (block, offset) → ∀ v, R block offset v) :
    Settles R s.loader t.loader ∧ n = (s.loader.positionIn? entry).toList.length :=
  settles_slot hu h fun hk p hp hrun {_ _} hl {_ v} _ _ _ => hR hk p hp hrun hl v

theorem settles_of_resolveSlot (hu : s.loader.Usable)
    (h : Runs (resolveSlot host entry) s (n, k) t) :
    Settles (fun _ _ _ => True) s.loader t.loader :=
  (settles_resolveSlot hu h fun _ _ _ _ _ _ _ _ => trivial).1

theorem runs_resolveSlots (h : Runs (resolveSlots host table block (left + 1) offset done) s done' t) :
    ∃ entry, s.loader.read block offset = .ok entry ∧ ((entry = 0 ∧ done' = done ∧ t = s) ∨
      (entry ≠ 0 ∧ ∃ n k u, Runs (resolveSlot host ⟨entry⟩) s (n, k) u ∧
        Runs (resolveSlots host table block left (offset + 4) (done.1 + n, done.2 + k)) u done' t)) := by
  simp only [resolveSlots, runs_bind, runs_ask] at h
  obtain ⟨entry, _, ⟨hr, rfl⟩, h⟩ := h
  refine ⟨entry, hr, ?_⟩
  split_ifs at h with h0
  · obtain ⟨rfl, rfl⟩ := runs_pure.1 h
    exact Or.inl ⟨h0, rfl, rfl⟩
  · obtain ⟨⟨n, k⟩, u, h1, h2⟩ := runs_bind.1 h
    exact Or.inr ⟨h0, n, k, u, h1, h2⟩

theorem loads_le_of_resolveSlots
    (h : Runs (resolveSlots host table block left offset done) s done' t) : done.2 ≤ done'.2 := by
  induction left generalizing s offset done with
  | zero =>
    rw [resolveSlots] at h
    exact absurd h runs_throw
  | succ left ih =>
    obtain ⟨entry, -, ⟨-, rfl, -⟩ | ⟨-, n, k, u, -, h2⟩⟩ := runs_resolveSlots h
    · exact Nat.le_refl _
    · exact (Nat.le_add_right ..).trans (ih h2)

/-- **The fixup table is walked**, and the memory settles: the slots that are counted are
    those in which a position is met, and the records that are loaded are named by these. -/
theorem settles_resolveSlots (hu : s.loader.Usable)
    (h : Runs (resolveSlots host table block left offset done) s done' t)
    (hR : done.2 ≠ done'.2 → ∀ p ∈ metFrom host block left offset s, p.isRuntimeFile = true →
      ∀ {block offset}, s.loader.locate p = .ok (block, offset) → ∀ v, R block offset v) :
    Settles R s.loader t.loader ∧
      done'.1 = done.1 + (metFrom host block left offset s).length := by
  induction left generalizing R s offset done with
  | zero =>
    rw [resolveSlots] at h
    exact absurd h runs_throw
  | succ left ih =>
    obtain ⟨entry, hr, hcase⟩ := runs_resolveSlots h
    rcases hcase with ⟨rfl, rfl, rfl⟩ | ⟨h0, n, k, u, h1, h2⟩
    · rw [metFrom, hr]
      exact ⟨.refl _, rfl⟩
    have hmet : metFrom host block (left + 1) offset s =
        (s.loader.positionIn? ⟨entry⟩).toList ++ metFrom host block left (offset + 4) u := by
      rw [metFrom, hr]
      simp only [if_neg h0]
      rw [show (resolveSlot host ⟨entry⟩).run s = (.ok (n, k), u) from h1]
    rw [hmet] at hR ⊢
    have hle := loads_le_of_resolveSlots h2
    simp only at hle
    obtain ⟨hset, hn⟩ := settles_resolveSlot hu h1 fun hk p hp =>
      hR (by omega) p (List.mem_append_left _ hp)
    obtain ⟨hrest, hcount⟩ := ih (hset.usable hu) h2 fun hk p hp hrun {_ _} hl =>
      hR (by simp only at hk; omega) p (List.mem_append_right _ hp) hrun (hset.locate.1 hl)
    refine ⟨hset.trans hrest, ?_⟩
    rw [hcount, List.length_append, hn]
    omega

theorem runs_resolveTable (h : Runs (resolveTable host table) s (n, k) t) :
    (table.isNull = true ∧ n = 0 ∧ k = 0 ∧ t = s) ∨ (table.isNull = false ∧ ∃ block offset,
      s.loader.locate table = .ok (block, offset) ∧
        Runs (resolveSlots host table block ((s.loader.memory.sizeAt block - offset) / 4) offset
          (0, 0)) s (n, k) t) := by
  unfold resolveTable at h
  split_ifs at h with hnull
  · obtain ⟨he, rfl⟩ := runs_pure.1 h
    cases he
    exact Or.inl ⟨hnull, rfl, rfl, rfl⟩
  · simp only [runs_bind, runs_ask, runs_get] at h
    obtain ⟨⟨block, offset⟩, _, ⟨hl, rfl⟩, _, _, ⟨rfl, rfl⟩, h⟩ := h
    exact Or.inr ⟨Bool.eq_false_iff.2 hnull, block, offset, hl, h⟩

/-- **The fixup table**, if there is one, is walked from its place to the end of the region. -/
theorem settles_resolveTable (hu : s.loader.Usable)
    (h : Runs (resolveTable host table) s (n, k) t)
    (hR : k ≠ 0 → ∀ p ∈ metIn host table s, p.isRuntimeFile = true →
      ∀ {block offset}, s.loader.locate p = .ok (block, offset) → ∀ v, R block offset v) :
    Settles R s.loader t.loader ∧ n = (metIn host table s).length := by
  unfold metIn at hR ⊢
  rcases runs_resolveTable h with ⟨hnull, rfl, rfl, rfl⟩ | ⟨hnull, block, offset, hl, hrun⟩
  · rw [if_pos hnull]
    exact ⟨.refl _, rfl⟩
  · simp only [hnull, Bool.false_eq_true, if_false, hl] at hR ⊢
    obtain ⟨hset, hn⟩ := settles_resolveSlots hu hrun fun hk => hR (Ne.symm hk)
    exact ⟨hset, hn.trans (Nat.zero_add _)⟩

theorem settles_of_resolveTable (hu : s.loader.Usable)
    (h : Runs (resolveTable host table) s (n, k) t) :
    Settles (fun _ _ _ => True) s.loader t.loader :=
  (settles_resolveTable hu h fun _ _ _ _ _ _ _ _ => trivial).1

end

end Loader

end LevelBundle
