/-
  LevelBundle — a bundle is resolved once.

  * `met host s`: the positions that a call meets in the slots of the fixup table.
  * `Loader.IsResolved l root`: the header of a memory says that the bundle is resolved;
    `calls_resolved`: then calls only report the root.
  * `settles_init`: what a call does to any memory, and that it leaves the bundle resolved.
  * `init_idempotent`: after a call that succeeds, all others do nothing, whatever the
    memory holds.
-/
import LevelBundle.Proofs.Resuming
import LevelBundle.Proofs.Settling
import LevelBundle.Proofs.Writing

namespace LevelBundle

variable {σ : Type}

namespace Loader

/-- The positions that a call meets in the slots of the fixup table, in order. -/
def met (host : FileHost σ) (s : Hosted σ) : List Position :=
  match s.loader.chunkEntries with
  | .error _ => []
  | .ok entries =>
    match s.loader.read 0 (4 * (entries + 1)), s.loader.read 0 (4 * (entries + 1) + 4) with
    | .ok start, .ok table =>
      match Slot.ofWord start with
      | .resolved _ => []
      | .unresolved _ => metIn host ⟨table⟩ (((List.range entries).forM fillEntry).run s).2
    | _, _ => []

/-- The header of a bundle in memory says that it is resolved, with its root at an address. -/
structure IsResolved (l : Loader) (root : UInt32) : Prop where
  even : root.toNat % 2 = 0
  ne_zero : root ≠ 0
  header : ∃ entries table, l.chunkEntries = .ok entries ∧ entries ≤ l.memory.size ∧
    l.read 0 (4 * (entries + 1)) = .ok root ∧ l.read 0 (4 * (entries + 1) + 4) = .ok table

/-- **Calls for a resolved bundle** report the root, and nothing is done. -/
theorem calls_resolved {l : Loader} {root : UInt32} (hl : l.IsResolved root)
    (hosts : List (FileHost σ)) (g : σ) :
    calls hosts ⟨l, g⟩ =
      (hosts.map fun _ => .ok { root, alreadyResolved := true }, ⟨l, g⟩) := by
  obtain ⟨entries, table, hn, hle, hroot, htable⟩ := hl.header
  induction hosts with
  | nil => rfl
  | cons host hosts ih =>
    have hrun := run_init_resolved hn hle hroot htable hl.even hl.ne_zero host g
    rw [calls, show (init host).run ⟨l, g⟩ = _ from hrun]
    simp only [ih, List.map_cons]

section

variable {R : ℕ → ℕ → UInt32 → Prop} {host : FileHost σ} {s t : Hosted σ} {o : LoadOutcome}

/-- **What a call does to any memory.**  If it succeeds, the bundle is resolved, unless a
    file was loaded into the word that ends the chunk table. -/
theorem settles_init (hu : s.loader.Usable) (h : Runs (init host) s o t)
    (hR : ∀ p ∈ met host s, p.isRuntimeFile = true → ∀ {entries}, s.loader.chunkEntries = .ok entries →
      s.loader.locate p ≠ .ok (0, 4 * entries)) :
    t.loader.IsResolved o.root ∧ o.fixupsApplied = (met host s).length := by
  obtain ⟨entries, start, table, hn, hle, hs, ht, hcase⟩ := runs_init h
  rcases hcase with ⟨h2, h0, rfl, rfl⟩ | ⟨h2, s₁, s₂, l, hfill, htable, hroot, hw, -, rfl⟩
  · have hmet : met host t = [] := by simp only [met, hn, hs, ht, Slot.ofWord_of_even h2]
    rw [hmet]
    exact ⟨⟨h2, h0, entries, table, hn, hle, hs, ht⟩, rfl⟩
  have hslot : Slot.ofWord start = .unresolved ⟨start⟩ :=
    Slot.ofWord_of_isUnresolved (Position.isUnresolved_iff.2 h2)
  have hmet : met host s = metIn host ⟨table⟩ s₁ := by
    simp only [met, hn, hs, ht, hslot]
    rw [show ((List.range entries).forM fillEntry).run s = (.ok ⟨⟩, s₁) from hfill]
  rw [hmet] at hR ⊢
  -- no file is loaded into the word that ends the chunk table
  obtain ⟨hset₁, -, -⟩ := settles_fill (R := fun block offset _ => ¬ (block = 0 ∧ offset = 4 * entries))
    hu (fun i hi => Nat.lt_of_lt_of_le (List.mem_range.1 hi) hle) hfill
  obtain ⟨hset₂, hcount⟩ := settles_resolveTable
    (R := fun block offset _ => ¬ (block = 0 ∧ offset = 4 * entries)) (hset₁.usable hu) htable
    fun _ p hp hrun {_ _} hl _ hplace =>
      hR p hp hrun hn (by rw [← hplace.1, ← hplace.2]; exact hset₁.locate.1 hl)
  have hset := hset₁.trans hset₂
  refine ⟨?_, hcount⟩
  -- the start word lies behind the chunk table and its end
  obtain ⟨-, -, h0, heven⟩ := address_eq_ok (hset.usable hu) hroot
  have hother {i : ℕ} {w : UInt32} (hi : i ≤ entries) :
      l.read 0 (4 * i) = .ok w ↔ s₂.loader.read 0 (4 * i) = .ok w :=
    read_write_of_ne hw (Nat.dvd_mul_right ..) (Nat.dvd_mul_right ..) (by omega)
  have hn₂ := hset.chunkEntries hn fun v hv => hv ⟨rfl, rfl⟩
  have hsize : l.memory.size = s.loader.memory.size := by
    obtain ⟨-, rfl⟩ := write_eq_ok.1 hw
    exact Memory.size_setWord.trans hset.size
  obtain ⟨table', ht'⟩ : ∃ w, l.read 0 (4 * (entries + 1) + 4) = .ok w := by
    obtain ⟨w, hw', -⟩ := hset.word (by omega) ht
    exact ⟨w, (read_write_of_ne hw (Nat.dvd_mul_right ..) (by omega) (by omega)).2 hw'⟩
  refine ⟨heven, h0, entries, table', ?_, hsize ▸ hle, read_write_self hw, ht'⟩
  rw [chunkEntries_eq_ok] at hn₂ ⊢
  refine ⟨(hother (Nat.le_refl _)).2 hn₂.1, fun i hi => ?_⟩
  obtain ⟨w, hw', hw0⟩ := hn₂.2 i hi
  exact ⟨w, (hother (Nat.le_of_lt hi)).2 hw', hw0⟩

end

/-- **A bundle is resolved once.**  Whatever the memory holds, if a call succeeds and meets
    no position of a file on demand whose record is the word that ends the chunk table, all
    calls that follow report the same root; they resolve nothing, ask no host for a file
    and change no byte. -/
theorem init_idempotent {memory : Memory} {chunkSize : UInt32} {order : ByteOrder} {l : Loader}
    (hl : ofMemory memory chunkSize order = .ok l) {host : FileHost σ} {h : σ} {o : LoadOutcome}
    {s : Hosted σ} (hrun : Runs (init host) ⟨l, h⟩ o s)
    (hend : ∀ p ∈ met host ⟨l, h⟩, p.isRuntimeFile = true → ∀ {entries},
      l.chunkEntries = .ok entries → l.locate p ≠ .ok (0, 4 * entries)) :
    o.fixupsApplied = (met host ⟨l, h⟩).length ∧
      ∀ {τ : Type} (hosts : List (FileHost τ)) (g : τ) (log : List Request),
        calls (hosts.map FileHost.logged) ⟨s.loader, g, log⟩ =
          (hosts.map fun _ => .ok { root := o.root, fixupsApplied := 0, runtimeLoads := 0
                                    alreadyResolved := true }, ⟨s.loader, g, log⟩) := by
  obtain ⟨-, -, -, hu⟩ := ofMemory_eq_ok hl
  obtain ⟨hresolved, hcount⟩ := settles_init (s := ⟨l, h⟩) hu hrun hend
  refine ⟨hcount, fun {τ} hosts g log => ?_⟩
  rw [calls_resolved hresolved, List.map_map]
  rfl

/-! ## Tables that refer to themselves -/

namespace Demo

/-- A memory whose fixup table lists the chunk table, the start word and a reference to the
    record of a file. -/
def crossed : Memory :=
  #[⟨4096, (ByteOrder.little.rowBytes
    [chunkFiller, 0, 33, 17, 1, 9, 37, 0, 0, 43, 0, 97]).toArray⟩]

/-- A loader for it. -/
def crossedLoader : Loader := ⟨crossed, ⟨48, by decide, by decide, by decide⟩, .little⟩

/-- A host that has one address for all files. -/
def anywhere : FileHost Unit := fun _ => pure (.ok 65536)

theorem crossed_run : ((init anywhere).run ⟨crossedLoader, ()⟩).1.toOption =
    some { root := 4128, fixupsApplied := 2, runtimeLoads := 1 } := by decide +kernel

theorem crossed_met : met anywhere ⟨crossedLoader, ()⟩ = [⟨33⟩, ⟨43⟩] := by decide +kernel

theorem crossed_places : crossedLoader.chunkEntries.toOption = some 1 ∧
    (crossedLoader.locate ⟨43⟩).toOption = some (0, 40) := by decide +kernel

end Demo

/-- The start word is resolved twice in the first call, and then no more. -/
theorem init_idempotent_crossed : ∃ l o s, ofMemory Demo.crossed 48 .little = .ok l ∧
    Runs (init Demo.anywhere) ⟨l, ()⟩ o s ∧ o.root = 4128 ∧ o.runtimeLoads = 1 ∧
    (∀ p ∈ met Demo.anywhere ⟨l, ()⟩, p.isRuntimeFile = true → ∀ {entries},
      l.chunkEntries = .ok entries → l.locate p ≠ .ok (0, 4 * entries)) ∧
    o.fixupsApplied = (met Demo.anywhere ⟨l, ()⟩).length ∧
    calls [Demo.anywhere.logged] ⟨s.loader, (), []⟩ =
      ([.ok { root := o.root, alreadyResolved := true }], ⟨s.loader, (), []⟩) := by
  have hl : ofMemory Demo.crossed 48 .little = .ok Demo.crossedLoader := by rfl
  have hfirst := Demo.crossed_run
  rcases hr : (init Demo.anywhere).run ⟨Demo.crossedLoader, ()⟩ with ⟨_ | o, s⟩
  · rw [hr] at hfirst
    cases hfirst
  rw [hr] at hfirst
  obtain rfl := Option.some.inj hfirst
  have hend : ∀ p ∈ met Demo.anywhere ⟨Demo.crossedLoader, ()⟩, p.isRuntimeFile = true →
      ∀ {entries}, Demo.crossedLoader.chunkEntries = .ok entries →
        Demo.crossedLoader.locate p ≠ .ok (0, 4 * entries) := by
    intro p hp hruntime entries hn
    rw [Demo.crossed_met] at hp
    rcases List.mem_pair.1 hp with rfl | rfl
    · exact absurd hruntime (by decide)
    · rw [ok_of_toOption Demo.crossed_places.1] at hn
      cases hn
      rw [ok_of_toOption Demo.crossed_places.2]
      simp
  obtain ⟨hcount, hlater⟩ := init_idempotent hl hr hend
  exact ⟨_, _, s, hl, hr, rfl, rfl, hend, hcount, hlater [Demo.anywhere] () []⟩

end Loader

end LevelBundle
