/-
  LevelBundle — a report and a loader agree on every file.

  Any bytes may be a file here.  A report reads it as it lies on disk, a loader in chunks
  that are filled up with zeros, and the loader changes words while it walks.

  * `Cursor.countFillers_eq_ok`, `Report.readFixups_eq_ok`, `Report.decode_eq_ok`: what a
    file has to hold for a report to come about.
  * `Loader.HoldsFile`: the memory holds the words of the file; `HoldsFile.entries_eq`: the
    chunk table is counted alike.
  * `applied_le`: a walk without requests ends at a null word that the table had before.
  * `decode_agrees`: the chunk table, the root and the number of fixups, read both ways.
-/
import LevelBundle.Proofs.Chunks
import LevelBundle.Proofs.Requests
import LevelBundle.Proofs.Settling

namespace LevelBundle

variable {σ : Type}

/-! ## Reading a file -/

namespace Cursor

/-- **A chunk table that is counted** is a row of fillers, with a zero word behind it. -/
theorem countFillers_eq_ok {c c' : Cursor} {count total : UInt32}
    (h : c.countFillers count = (.ok total, c')) : ∃ n : ℕ, total = count + n.toUInt32 ∧
      c' = c.seek (c.pos + 4 * (n + 1)) ∧
      (∀ i < n, c.order.wordAt? c.data (c.pos + 4 * i) = some chunkFiller) ∧
      c.order.wordAt? c.data (c.pos + 4 * n) = some 0 := by
  induction c, count using countFillers.induct generalizing total c' with
  | case1 c count hnone =>
    rw [countFillers_eq, hnone] at h
    cases h
  | case2 c count hzero =>
    rw [countFillers_eq, hzero] at h
    cases h
    exact ⟨0, by simp, rfl, fun i hi => absurd hi (Nat.not_lt_zero i), hzero⟩
  | case3 c count w hw h0 hbad =>
    rw [countFillers_eq, hw] at h
    simp only [if_neg h0, if_pos hbad, Prod.mk.injEq, reduceCtorEq, false_and] at h
  | case4 c count w hw h0 hfill ih =>
    rw [countFillers_eq, hw] at h
    simp only [if_neg h0, if_neg hfill] at h
    obtain ⟨n, rfl, rfl, hall, hend⟩ := ih h
    have hpos (i : ℕ) : c.skipWord.pos + 4 * i = c.pos + 4 * (i + 1) := by
      show c.pos + 4 + 4 * i = _
      omega
    refine ⟨n + 1, ?_, ?_, fun i hi => ?_, ?_⟩
    · rw [UInt32.add_assoc]
      congr 1
      refine UInt32.toNat_inj.1 ?_
      simp [UInt32.toNat_add, Nat.add_comm]
    · rw [hpos]
      rfl
    · cases i with
      | zero => rw [← not_not.1 hfill]; exact hw
      | succ i => rw [← hpos]; exact hall i (Nat.lt_of_succ_lt_succ hi)
    · rw [← hpos]
      exact hend

theorem readWord_eq_ok {c c' : Cursor} {w : UInt32} (h : c.readWord = .ok (w, c')) :
    c.order.wordAt? c.data c.pos = some w ∧ c' = c.skipWord := by
  unfold readWord at h
  split at h
  · rename_i w' hw
    cases h
    exact ⟨hw, rfl⟩
  · cases h

end Cursor

namespace Report

/-- **A fixup table that is read** ends with a zero word behind its entries. -/
theorem readFixups_eq_ok {a : Addressing} {table : ℕ} {c c' : Cursor} {places : List Place}
    (h : readFixups a table c = .ok (places, c')) :
    c.order.wordAt? c.data (c.pos + 4 * places.length) = some 0 := by
  induction places generalizing c with
  | nil =>
    rw [readFixups_eq] at h
    split at h
    · cases h
    rename_i w hw
    split_ifs at h with h0
    · rw [h0] at hw
      exact hw
    · split at h <;> cases h
  | cons place places ih =>
    rw [readFixups_eq] at h
    split at h
    · cases h
    rename_i w hw
    split_ifs at h with h0
    · cases h
    · split at h
      · rename_i entries rest hrest
        cases h
        have hend := ih hrest
        have hpos : c.skipWord.pos + 4 * places.length = c.pos + 4 * (places.length + 1) := by
          show c.pos + 4 + 4 * places.length = _
          omega
        rwa [hpos] at hend
      · cases h

/-- **A report** comes about from a file that starts with a chunk table, an unresolved
    start position and the position of a fixup table, which a zero word ends. -/
theorem decode_eq_ok {data : Array UInt8} {chunkSize : UInt32} {order : ByteOrder} {r : Report}
    (h : decode data chunkSize order = .ok r) : ∃ (a : Addressing) (n : ℕ) (start table : UInt32),
      Addressing.ofChunkSize chunkSize = .ok a ∧ r.chunkCount = n.toUInt32 ∧
      (∀ i < n, order.wordAt? data (4 * i) = some chunkFiller) ∧
      order.wordAt? data (4 * n) = some 0 ∧
      order.wordAt? data (4 * (n + 1)) = some start ∧ start.toNat % 2 = 1 ∧
      r.start = a.place ⟨start⟩ ∧
      order.wordAt? data (4 * (n + 1) + 4) = some table ∧
      (table = 0 ∧ r.fixups = [] ∨ table ≠ 0 ∧
        order.wordAt? data (a.fileOffset ⟨table⟩ + 4 * r.fixups.length) = some 0) := by
  rw [decode, bind_eq_ok] at h
  obtain ⟨a, ha, h⟩ := h
  rw [mapError_eq_ok] at ha
  rcases hc : Cursor.chunkTable { data, order } with ⟨count, c⟩
  rw [hc] at h
  simp only [bind_eq_ok] at h
  obtain ⟨total, rfl, ⟨start, c₁⟩, hs, h⟩ := h
  obtain ⟨n, rfl, rfl, hall, hend⟩ := Cursor.countFillers_eq_ok hc
  simp only [Cursor.seek, Nat.zero_add] at hall hend hs
  obtain ⟨hstart, rfl⟩ := Cursor.readWord_eq_ok hs
  split_ifs at h with hodd
  rotate_left
  · simp only [bind_eq_ok, throw_ne_ok, false_and, exists_false] at h
  simp only [bind_eq_ok] at h
  obtain ⟨⟨table, c₂⟩, ht, h⟩ := h
  obtain ⟨htable, rfl⟩ := Cursor.readWord_eq_ok ht
  refine ⟨a, n, start, table, ha, ?_⟩
  simp only at h
  by_cases hnull : Position.isNull ⟨table⟩ = true
  · rw [if_pos hnull, pure_eq_ok] at h
    subst h
    exact ⟨UInt32.zero_add _, hall, hend, hstart, Position.isUnresolved_iff.1 hodd, rfl, htable,
      Or.inl ⟨beq_iff_eq.1 hnull, rfl⟩⟩
  · rw [if_neg hnull, bind_eq_ok] at h
    obtain ⟨⟨fixups, c₃⟩, hf, h⟩ := h
    rw [pure_eq_ok] at h
    subst h
    exact ⟨UInt32.zero_add _, hall, hend, hstart, Position.isUnresolved_iff.1 hodd, rfl, htable,
      Or.inr ⟨fun h0 => hnull (beq_iff_eq.2 h0), readFixups_eq_ok hf⟩⟩

end Report

/-! ## A file in memory -/

/-- **An image** holds the chunks of the file, as many as the chunk table lists, at least. -/
theorem Image.ofBytes_eq_ok {a : Addressing} {bytes : Array UInt8} {order : ByteOrder}
    {image : Image} (h : ofBytes bytes a.chunkSize order = .ok image) :
    ∃ listed, image = of bytes a.chunkSize order listed := by
  rw [ofBytes, ofChunkSize_chunkSize] at h
  simp only [Except.mapError, bind_eq_ok, pure_eq_ok] at h
  obtain ⟨_, -, listed, -, rfl⟩ := h
  refine ⟨listed.toNat, ?_⟩
  simp only [of, chunksOf, funext (chunkOf_eq bytes a.chunkSize.toNat)]

namespace Loader

/-- The regions of a loader hold the chunks of a file. -/
structure HoldsFile (a : Addressing) (order : ByteOrder) (bases : List UInt32)
    (data : Array UInt8) (l : Loader) : Prop where
  addressing : l.addressing = a
  usable : l.Usable
  size : l.memory.size = bases.length
  sizeAt : ∀ {i}, i < bases.length → l.memory.sizeAt i = a.chunkSize.toNat
  baseAt : ∀ i, l.memory.baseAt i = bases.getD i 0
  word : ∀ {block offset w}, block < bases.length → 4 ∣ offset → offset + 4 ≤ a.chunkSize.toNat →
    order.wordAt? data (block * a.chunkSize.toNat + offset) = some w → l.read block offset = .ok w

section

variable {a : Addressing} {order : ByteOrder} {bases : List UInt32} {data : Array UInt8}
  {l : Loader} {n entries : ℕ}

/-- **A loader for an image** holds the file. -/
theorem holdsFile {image : Image} (himage : Image.ofBytes data a.chunkSize order = .ok image)
    (hl : image.loader bases = .ok l) : l.HoldsFile a order bases data := by
  obtain ⟨listed, rfl⟩ := Image.ofBytes_eq_ok himage
  obtain ⟨-, hu, rfl⟩ := Image.loader_of hl
  obtain ⟨hpos, -, hdvd⟩ := a.words
  refine ⟨rfl, fun i hi => ?_, Memory.size_holding, Memory.sizeAt_holding,
    fun _ => Memory.baseAt_holding, fun {block offset w} hb h4 hin hw => ?_⟩
  · have hlt : i < bases.length := by rwa [overlaid, Memory.size_holding] at hi
    have hbase := LevelBundle.Usable.getD hu hlt
    rw [overlaid, Memory.baseAt_holding, Memory.sizeAt_holding hlt]
    exact ⟨hbase.pos, hbase.words, hbase.stop_le⟩
  · have hle : block * a.chunkSize.toNat + offset + 4 ≤ data.size := by
      rw [ByteOrder.wordAt?] at hw
      split_ifs at hw with hle
      exact hle
    have hdiv : (block * a.chunkSize.toNat + offset) / a.chunkSize.toNat = block := by
      rw [Nat.add_comm, Nat.add_mul_div_right _ _ (by omega), Nat.div_eq_of_lt (by omega),
        Nat.zero_add]
    have hmod : (block * a.chunkSize.toNat + offset) % a.chunkSize.toNat = offset := by
      rw [Nat.add_comm, Nat.add_mul_mod_self_right, Nat.mod_eq_of_lt (by omega)]
    have hread := @read_over a order bases (fileOf data.toList) (fun _ => none)
      (block * a.chunkSize.toNat + offset) (Dvd.dvd.add (Dvd.dvd.mul_left hdvd block) h4)
      (by rwa [hdiv])
    rw [ByteOrder.wordAt?_eq_wordOf hle, Option.some.injEq] at hw
    rwa [hdiv, hmod, Option.getD_none, hw] at hread

theorem HoldsFile.inside (hf : l.HoldsFile a order bases data) {block offset : ℕ} {w : UInt32}
    (h : l.read block offset = .ok w) :
    block < bases.length ∧ offset + 4 ≤ a.chunkSize.toNat := by
  have hle := le_sizeAt_of_read h
  have hlt := Memory.lt_size_of_lt_sizeAt (show offset < l.memory.sizeAt block by omega)
  rw [hf.size] at hlt
  exact ⟨hlt, hf.sizeAt hlt ▸ hle⟩

theorem HoldsFile.word_eq (hf : l.HoldsFile a order bases data) {x : ℕ} {v w : UInt32}
    (h4 : 4 ∣ x) (hr : l.read 0 x = .ok v) (hw : order.wordAt? data x = some w) : v = w := by
  obtain ⟨hb, hin⟩ := hf.inside hr
  have hread : l.read 0 x = .ok w := hf.word hb h4 hin (by rwa [Nat.zero_mul, Nat.zero_add])
  exact Except.ok.inj (hr.symm.trans hread)

/-- **The chunk table**, counted in the file and in memory. -/
theorem HoldsFile.entries_eq (hf : l.HoldsFile a order bases data)
    (hall : ∀ i < n, order.wordAt? data (4 * i) = some chunkFiller)
    (hend : order.wordAt? data (4 * n) = some 0) (hn : l.chunkEntries = .ok entries) :
    entries = n := by
  obtain ⟨hzero, hnonzero⟩ := chunkEntries_eq_ok.1 hn
  rcases Nat.lt_trichotomy entries n with hlt | heq | hgt
  · exact absurd (hf.word_eq (Nat.dvd_mul_right ..) hzero (hall entries hlt)) (by decide)
  · exact heq
  · obtain ⟨w, hw, h0⟩ := hnonzero n hgt
    exact absurd (hf.word_eq (Nat.dvd_mul_right ..) hw hend) h0

theorem HoldsFile.read_filled (hf : l.HoldsFile a order bases data)
    {R : ℕ → ℕ → UInt32 → Prop} {l₁ l₂ : Loader} (hset : Settles R l₁ l₂) {i : ℕ}
    (hi : i < l.memory.size) (hread : l₁.read 0 (4 * i) = .ok (l.memory.baseAt i)) :
    l₂.read 0 (4 * i) = .ok (bases.getD i 0) := by
  obtain ⟨hpos, hwords, -⟩ := hf.usable i hi
  have h0 : l.memory.baseAt i ≠ 0 := fun h0 => by
    rw [h0] at hpos
    exact absurd hpos (Nat.lt_irrefl 0)
  rw [← hf.baseAt]
  exact hset.read_even (Nat.dvd_mul_right ..) hread h0 (by omega)

end

/-! ## A walk without requests -/

section

variable {host : FileHost σ} {table entry : Position} {block left offset n k m : ℕ}
  {done done' : ℕ × ℕ}

/-- A walk meets at most one position for each word that is left in the region. -/
theorem length_metFrom_le (s : Hosted σ) : (metFrom host block left offset s).length ≤ left := by
  induction left generalizing offset s with
  | zero => exact Nat.le_refl 0
  | succ left ih =>
    rw [metFrom]
    split
    · exact Nat.zero_le _
    · split_ifs
      · exact Nat.zero_le _
      · rw [List.length_append, Nat.add_comm]
        refine Nat.add_le_add (ih _) ?_
        cases s.loader.positionIn? _
        · exact Nat.zero_le 1
        · exact Nat.le_refl 1

/-- **A walk in which no file is loaded** ends at a null word that the table had before. -/
theorem applied_le {s t : Hosted σ} (hu : s.loader.Usable)
    (h : Runs (resolveSlots host table block left offset done) s done' t)
    (hloads : done'.2 = done.2) (h4 : 4 ∣ offset)
    (hend : s.loader.read block (offset + 4 * m) = .ok 0) : done'.1 ≤ done.1 + m := by
  induction left generalizing s offset done m with
  | zero =>
    rw [resolveSlots] at h
    exact absurd h runs_throw
  | succ left ih =>
    obtain ⟨entry, hr, ⟨-, rfl, -⟩ | ⟨h0, n, k, u, h1, h2⟩⟩ := runs_resolveSlots h
    · exact Nat.le_add_right ..
    have hle := loads_le_of_resolveSlots h2
    simp only [hloads] at hle
    obtain rfl : k = 0 := by omega
    obtain ⟨hset, -⟩ := settles_resolveSlot (R := fun _ _ _ => False) hu h1
      fun hk => absurd rfl hk
    have hn : n ≤ 1 := by
      obtain ⟨_, _, _, -, -, ⟨-, rfl, -⟩ | ⟨-, rfl, -⟩⟩ := runs_resolveSlot h1 <;> omega
    cases m with
    | zero =>
      rw [Nat.mul_zero, Nat.add_zero, hr, Except.ok.injEq] at hend
      exact absurd hend h0
    | succ m =>
      have hend' : u.loader.read block (offset + 4 + 4 * m) = .ok 0 := by
        rw [show offset + 4 + 4 * m = offset + 4 * (m + 1) by omega]
        exact hset.read_zero (by omega) hend fun _ hv => hv
      have := ih (hset.usable hu) h2 hloads (by omega) hend'
      simp only at this
      omega

variable {s t : Hosted (σ × List Request)}

/-- Each file that is loaded for a slot has been asked for. -/
theorem requests_resolveSlot (hu : s.loader.Usable)
    (h : Runs (resolveSlot host.logged entry) s (n, k) t) :
    s.host.2.length + k ≤ t.host.2.length := by
  obtain ⟨_, _, w, -, -, ⟨-, -, rfl, rfl⟩ | ⟨-, -, v, asked, u, l, ht, rfl, -, rfl⟩⟩ :=
    runs_resolveSlot h
  · exact Nat.le_refl _
  obtain ⟨-, ⟨rfl, rfl⟩ | ⟨rfl, -, -, _, _, name, g, l', -, -, hrun, -, rfl⟩⟩ := runs_target hu ht
  · exact Nat.le_refl _
  · have hlog : s.host.2 ++ [(name, ((host name).run s.host.1).1)] = g.2 :=
      congrArg (fun r => r.2.2) hrun
    rw [← hlog, List.length_append]
    exact Nat.le_refl _

theorem requests_resolveSlots (hu : s.loader.Usable)
    (h : Runs (resolveSlots host.logged table block left offset done) s done' t) :
    s.host.2.length + done'.2 ≤ t.host.2.length + done.2 := by
  induction left generalizing s offset done with
  | zero =>
    rw [resolveSlots] at h
    exact absurd h runs_throw
  | succ left ih =>
    obtain ⟨entry, -, ⟨-, rfl, rfl⟩ | ⟨-, n, k, u, h1, h2⟩⟩ := runs_resolveSlots h
    · exact Nat.le_refl _
    have hfirst := requests_resolveSlot hu h1
    have hrest := ih ((settles_of_resolveSlot hu h1).usable hu) h2
    simp only at hrest
    omega

end

/-! ## A report and a loader -/

section

variable {a : Addressing} {order : ByteOrder} {bases : List UInt32} {data : Array UInt8}
  {l : Loader} {m n : ℕ} {table : UInt32} {host : FileHost σ} {o : LoadOutcome}
  {s t : Hosted (σ × List Request)}

/-- **The fixup table**, walked after the memory has settled.  If no file was asked for, no
    more slots are resolved than there are words in front of the null word in the file. -/
theorem HoldsFile.applied_le (hf : l.HoldsFile a order bases data)
    (hset : Settles (fun _ _ _ => False) l s.loader)
    (hend : order.wordAt? data (a.fileOffset ⟨table⟩ + 4 * m) = some 0)
    (h : Runs (resolveTable host.logged ⟨table⟩) s (o.fixupsApplied, o.runtimeLoads) t)
    (hlog : t.host.2 = []) : o.fixupsApplied ≤ m := by
  have hu := hset.usable hf.usable
  rcases runs_resolveTable h with ⟨-, hzero, -⟩ | ⟨-, block, offset, hl, hwalk⟩
  · rw [hzero]
    exact Nat.zero_le m
  have hrequests := requests_resolveSlots hu hwalk
  rw [hlog] at hrequests
  have hloads : o.runtimeLoads = 0 := by
    simp only [List.length_nil] at hrequests
    omega
  have h4 := four_dvd_of_locate hl
  obtain ⟨hb, ho, hlt, -⟩ := locate_eq_ok.1 (hset.locate.1 hl)
  rw [hf.addressing] at hb ho
  rw [hf.size] at hlt
  rcases Nat.lt_or_ge a.chunkSize.toNat (offset + 4 * m + 4) with hout | hin
  · -- the region ends in front of that word
    have hcount := (settles_resolveSlots (R := fun _ _ _ => True) hu hwalk
      fun _ _ _ _ _ _ _ _ => trivial).2
    have hle : (metFrom host.logged block ((s.loader.memory.sizeAt block - offset) / 4) offset
      s).length ≤ _ := length_metFrom_le s
    rw [hset.sizeAt, hf.sizeAt hlt] at hle hcount
    simp only [Nat.zero_add] at hcount
    omega
  · have hread : l.read block (offset + 4 * m) = .ok 0 := by
      refine hf.word hlt (by omega) hin ?_
      rwa [Addressing.fileOffset, ← hb, ← ho, Nat.add_assoc] at hend
    have := Loader.applied_le hu hwalk hloads h4
      (hset.read_zero (by omega) hread fun _ hv => hv)
    rwa [Nat.zero_add] at this

end

/-- **A report and a loader agree.**  Whatever the bytes of a file are: if a report on it
    comes about and the first call of a loader for its image succeeds, the call finds the
    bundle unresolved, with as many entries in the chunk table as the report says; it
    fills these with the addresses of the chunks, and answers the address of the place
    that the report says of the root.  If no file was asked for, it resolves no more slots
    than the report lists fixups. -/
theorem decode_agrees {data : Array UInt8} {chunkSize : UInt32} {order : ByteOrder} {r : Report}
    {image : Image} {bases : List UInt32} {l : Loader} {host : FileHost σ} {h : σ}
    {o : LoadOutcome} {t : Hosted (σ × List Request)}
    (hdecode : Report.decode data chunkSize order = .ok r)
    (himage : Image.ofBytes data chunkSize order = .ok image)
    (hload : image.loader bases = .ok l) (hrun : Runs (init host.logged) ⟨l, h, []⟩ o t) :
    o.alreadyResolved = false ∧ l.chunkEntries = .ok r.chunkCount.toNat ∧
      (∀ i < r.chunkCount.toNat, i < bases.length ∧
        t.loader.read 0 (4 * i) = .ok (bases.getD i 0)) ∧
      r.start.block.toNat < bases.length ∧
      o.root.toNat = (bases.getD r.start.block.toNat 0).toNat + r.start.offset.toNat ∧
      (t.host.2 = [] → o.fixupsApplied ≤ r.fixups.length) := by
  obtain ⟨a, n, start, table, ha, hcount, hall, hend, hstart, hodd, hplace, htable, hfixups⟩ :=
    Report.decode_eq_ok hdecode
  obtain rfl := Addressing.ofChunkSize_eq_ok ha
  have hf := holdsFile himage hload
  -- both read the same words in front
  obtain ⟨entries, start', table', hn, hle, hs, ht, hcase⟩ := runs_init hrun
  obtain rfl := hf.entries_eq hall hend hn
  obtain rfl := hf.word_eq (Nat.dvd_mul_right ..) hs hstart
  obtain rfl := hf.word_eq (by omega) ht htable
  have hentries : r.chunkCount.toNat = entries := by
    have hin := (hf.inside ht).2
    have := a.words.2.1
    rw [hcount, toNat_toUInt32 (by omega)]
  rw [hentries]
  rcases hcase with ⟨heven, -⟩ | ⟨-, s₁, s₂, l', hfill, hresolve, hroot, hw, hfalse, rfl⟩
  · omega
  -- the memory settles
  have hlt (i : ℕ) (hi : i ∈ List.range entries) : i < l.memory.size :=
    Nat.lt_of_lt_of_le (List.mem_range.1 hi) hle
  obtain ⟨hset₁, hhost, hfilled⟩ := settles_fill (R := fun _ _ _ => False) hf.usable hlt hfill
  have hset₂ := settles_of_resolveTable (hset₁.usable hf.usable) hresolve
  have hset : Settles (fun _ _ _ => True) l s₂.loader :=
    (settles_fill hf.usable hlt hfill).1.trans hset₂
  obtain ⟨hlocate, hsum, -, -⟩ := address_eq_ok (hset.usable hf.usable) hroot
  obtain ⟨-, -, hblock, -⟩ := locate_eq_ok.1 (hset.locate.1 hlocate)
  rw [hset.addressing, hf.addressing] at hblock hsum
  rw [hf.size] at hblock
  rw [hset.baseAt, hf.baseAt] at hsum
  refine ⟨hfalse, hn, fun i hi => ?_, ?_, ?_, fun hlog => ?_⟩
  · have hmem := hlt i (List.mem_range.2 hi)
    have hread := hf.read_filled hset₂ hmem (hfilled i (List.mem_range.2 hi))
    exact ⟨hf.size ▸ hmem,
      (read_write_of_ne hw (Nat.dvd_mul_right ..) (Nat.dvd_mul_right ..) (by omega)).2 hread⟩
  · rw [hplace]
    exact hblock
  · rw [hplace]
    exact hsum
  · rcases hfixups with ⟨rfl, hnil⟩ | ⟨-, hzero⟩
    · rcases runs_resolveTable hresolve with ⟨-, hnone, -⟩ | ⟨hnull, -⟩
      · rw [hnone]
        exact Nat.zero_le _
      · cases hnull
    · exact hf.applied_le hset₁ hzero hresolve hlog

/-! ## A table that lists the words in front -/

namespace Demo

/-- A file whose fixup table lists the chunk table, the start word and the table word. -/
def frontal : Array UInt8 :=
  (ByteOrder.little.rowBytes [chunkFiller, 0, 33, 17, 1, 9, 13, 0, 0, 41, 0, 97]).toArray

/-- A host without files. -/
def nowhere : FileHost Unit := fun _ => pure (.ok 0)

/-- What a report says of it: the chunks, the place of the root and the number of fixups. -/
def frontalReport : Option (UInt32 × UInt32 × UInt32 × ℕ) :=
  (Report.decode frontal 64 .little).toOption.map fun r =>
    (r.chunkCount, r.start.block, r.start.offset, r.fixups.length)

/-- A loader for it. -/
def frontalLoader : Option Loader := do
  let image ← (Image.ofBytes frontal 64 .little).toOption
  (image.loader [4096]).toOption

/-- What a call of the loader answers, and how many files it asks for. -/
def frontalRun : Option (LoadOutcome × ℕ) := do
  let l ← frontalLoader
  let answer := (init nowhere.logged).run ⟨l, (), []⟩
  answer.1.toOption.map fun o => (o, answer.2.host.2.length)

theorem frontal_report : frontalReport = some (1, 0, 32, 3) := by decide +kernel

theorem frontal_run : frontalRun = some ({ root := 4128, fixupsApplied := 2 }, 0) := by
  decide +kernel

end Demo

/-- The slot in the chunk table is listed as a fixup, but it is filled when the walk comes. -/
theorem decode_agrees_frontal : ∃ r image l o t,
    Report.decode Demo.frontal 64 .little = .ok r ∧
    Image.ofBytes Demo.frontal 64 .little = .ok image ∧ image.loader [4096] = .ok l ∧
    Runs (init Demo.nowhere.logged) ⟨l, (), []⟩ o t ∧ r.chunkCount = 1 ∧ r.start.offset = 32 ∧
    r.fixups.length = 3 ∧ o.fixupsApplied = 2 ∧
    (o.alreadyResolved = false ∧ l.chunkEntries = .ok r.chunkCount.toNat ∧
      (∀ i < r.chunkCount.toNat, i < [(4096 : UInt32)].length ∧
        t.loader.read 0 (4 * i) = .ok ([(4096 : UInt32)].getD i 0)) ∧
      r.start.block.toNat < [(4096 : UInt32)].length ∧
      o.root.toNat = ([(4096 : UInt32)].getD r.start.block.toNat 0).toNat + r.start.offset.toNat ∧
      (t.host.2 = [] → o.fixupsApplied ≤ r.fixups.length)) := by
  obtain ⟨r, hr, hr'⟩ := Option.map_eq_some_iff.1 Demo.frontal_report
  obtain ⟨l, hl, hrun⟩ := Option.bind_eq_some_iff.1 Demo.frontal_run
  obtain ⟨image, himage, hload⟩ := Option.bind_eq_some_iff.1 hl
  obtain ⟨o, ho, ho'⟩ := Option.map_eq_some_iff.1 hrun
  rcases hs : (init Demo.nowhere.logged).run ⟨l, (), []⟩ with ⟨_ | _, t⟩
  · rw [hs] at ho
    cases ho
  rw [hs] at ho
  obtain rfl := Option.some.inj ho
  simp only [Prod.mk.injEq] at hr' ho'
  exact ⟨r, image, l, _, t, ok_of_toOption hr, ok_of_toOption himage, ok_of_toOption hload, hs,
    hr'.1, hr'.2.2.1, hr'.2.2.2, by rw [ho'.1],
    decode_agrees (ok_of_toOption hr) (ok_of_toOption himage) (ok_of_toOption hload) hs⟩

end Loader

end LevelBundle
