/-
  LevelBundle — what a call of a loader does.

  * `Stage.advance`: the stage that resolving comes to when the host has given some
    answers for the records that are pending.
  * `Fronted.run_init_front`, `Fronted.run_init_ok`: a call fills in the chunk table, resolves
    the slots and writes the start word, also if there is no fixup table.
  * `run_resolveSlots_row`, `run_resolveSlots`: one row of the fixup table, and the walk
    of it: the slots that are done are passed over; the others are resolved as the host
    answers.
  * `run_init`: a call from any stage: it ends with the first answer that is no address,
    or with the start word.
-/
import LevelBundle.Proofs.Resolving
import Mathlib.Data.List.TakeWhile

namespace LevelBundle

variable {σ : Type}

/-- The stage after the host has given some answers for the records that the references
    ahead need: slots are resolved up to the first whose address is not known. -/
def Stage.advance (st : Stage) (rest : List Link) (vs : List UInt32) : Stage :=
  let answers := st.answers ++ (pending (st.answers.map Prod.fst) rest).zip vs
  { st with answers, done := st.done ++ rest.takeWhile (·.known answers) }

section

variable {st : Stage} {l : Link}

theorem Link.known_append {answers more : List (UInt32 × UInt32)} (hk : l.known answers = true) :
    l.known (answers ++ more) = true := by
  rw [known_iff] at hk ⊢
  rw [List.map_append, List.mem_append]
  tauto

theorem Stage.advance_nil (st : Stage) (vs : List UInt32) : st.advance [] vs = st := by
  simp [advance, pending]

theorem Stage.advance_known (rest : List Link) (hk : l.known st.answers = true) :
    pending (st.answers.map Prod.fst) (l :: rest) = pending (st.answers.map Prod.fst) rest ∧
      ∀ vs, st.advance (l :: rest) vs = { st with done := st.done ++ [l] }.advance rest vs := by
  have hp : pending (st.answers.map Prod.fst) (l :: rest) =
      pending (st.answers.map Prod.fst) rest := by
    rw [pending, if_neg (Link.known_iff.1 hk)]
  refine ⟨hp, fun vs => ?_⟩
  simp only [advance, hp, List.takeWhile_cons_of_pos (Link.known_append hk), List.append_assoc,
    List.singleton_append]

/-- A reference whose record has not been loaded. -/
theorem Stage.advance_unknown (rest : List Link) (hk : l.known st.answers = false) :
    pending (st.answers.map Prod.fst) (l :: rest) =
        l.target :: pending (st.answers.map Prod.fst ++ [l.target]) rest ∧
      st.advance (l :: rest) [] = st ∧ ∀ v vs, st.advance (l :: rest) (v :: vs) =
        { st with answers := st.answers ++ [(l.target, v)], done := st.done ++ [l] }.advance
          rest vs := by
  have hnot : ¬ l.known st.answers = true := by rw [hk]; decide
  have hc : l.runtime = true ∧ l.target ∉ st.answers.map Prod.fst :=
    not_not.1 (mt Link.known_iff.2 hnot)
  have hp : pending (st.answers.map Prod.fst) (l :: rest) =
      l.target :: pending (st.answers.map Prod.fst ++ [l.target]) rest := by
    rw [pending, if_pos hc]
  refine ⟨hp, ?_, fun v vs => ?_⟩
  · simp only [advance, hp, List.zip_nil_right, List.append_nil,
      List.takeWhile_cons_of_neg hnot]
  · have hk' : l.known (st.answers ++ [(l.target, v)]) = true := by
      rw [Link.known_iff, List.map_append, List.mem_append]
      simp
    simp only [advance, hp, List.zip_cons_cons, List.map_append, List.map_cons, List.map_nil]
    rw [List.append_cons st.answers, List.takeWhile_cons_of_pos (Link.known_append hk'),
      List.append_cons st.done]

end

/-- Every answer of a host that counts is an even address. -/
theorem FileHost.answers_even {host : FileHost σ} {names : List String} {h h' : σ}
    {vs : List UInt32} {e : Option LoadError} (ha : host.answers names h = (vs, e, h')) :
    ∀ v ∈ vs, v.toNat ≠ 0 ∧ v.toNat % 2 = 0 := by
  induction names generalizing h vs with
  | nil =>
    rw [answers, Prod.mk.injEq] at ha
    obtain ⟨rfl, -⟩ := ha
    exact fun v hv => absurd hv List.not_mem_nil
  | cons name names ih =>
    rw [answers] at ha
    rcases hv : host.answer name h with ⟨_ | v, h₁⟩
    · rw [hv, Prod.mk.injEq] at ha
      obtain ⟨rfl, -⟩ := ha
      exact fun v hv => absurd hv List.not_mem_nil
    · rw [hv] at ha
      rcases hrest : host.answers names h₁ with ⟨vs', e', h₂⟩
      simp only [hrest, Prod.mk.injEq] at ha
      obtain ⟨rfl, rfl, rfl⟩ := ha
      exact List.forall_mem_cons.2 ⟨FileHost.answer_even hv, ih hrest⟩

/-- A host that stops at no name answers each. -/
theorem FileHost.length_answers {host : FileHost σ} {names : List String} {h h' : σ}
    {vs : List UInt32} (ha : host.answers names h = (vs, none, h')) :
    vs.length = names.length := by
  induction names generalizing h vs with
  | nil =>
    rw [answers, Prod.mk.injEq] at ha
    rw [← ha.1]
    rfl
  | cons name names ih =>
    rw [answers] at ha
    rcases hv : host.answer name h with ⟨_ | v, h₁⟩
    · rw [hv] at ha
      cases ha
    · rw [hv] at ha
      rcases hrest : host.answers names h₁ with ⟨vs', e', h₂⟩
      simp only [hrest, Prod.mk.injEq] at ha
      obtain ⟨rfl, rfl, rfl⟩ := ha
      exact congrArg (· + 1) (ih hrest)

/-- The records that are pending are those of references. -/
theorem mem_pending {known : List UInt32} {rest : List Link} {r : UInt32}
    (h : r ∈ pending known rest) : ∃ l ∈ rest, l.runtime = true ∧ l.target = r := by
  induction rest generalizing known with
  | nil => exact absurd h List.not_mem_nil
  | cons l rest ih =>
    rw [pending] at h
    split_ifs at h with hc
    · rcases List.mem_cons.1 h with rfl | h
      · exact ⟨l, List.mem_cons_self, hc.1, rfl⟩
      · obtain ⟨l', hm, hl'⟩ := ih h
        exact ⟨l', List.mem_cons_of_mem _ hm, hl'⟩
    · obtain ⟨l', hm, hl'⟩ := ih h
      exact ⟨l', List.mem_cons_of_mem _ hm, hl'⟩

theorem Stage.Ok.advance {links rest : List Link} {count : ℕ} {st : Stage}
    (ho : st.Ok links count) (hlinks : links = st.done ++ rest) {vs : List UInt32}
    (hvs : ∀ v ∈ vs, v.toNat ≠ 0 ∧ v.toNat % 2 = 0) : (st.advance rest vs).Ok links count where
  filled_le := ho.filled_le
  done_prefix := by
    refine ⟨rest.dropWhile (·.known (st.advance rest vs).answers), ?_⟩
    rw [hlinks, Stage.advance]
    simp only [List.append_assoc, List.takeWhile_append_dropWhile]
  answered e he := by
    rcases List.mem_append.1 he with he | he
    · exact ho.answered e he
    · obtain ⟨l, hm, hr, ht⟩ := mem_pending (List.of_mem_zip he).1
      exact ⟨l, hlinks ▸ List.mem_append_right _ hm, hr, ht⟩
  ready l hm hr := by
    rcases List.mem_append.1 hm with hm | hm
    · rw [Stage.advance, answerAt_append_of_some (ho.ready l hm hr)]
      exact ho.ready l hm hr
    · have hk := List.mem_takeWhile_imp hm
      rwa [Link.known, hr, Bool.not_true, Bool.false_or] at hk
  valid e he := by
    rcases List.mem_append.1 he with he | he
    · exact ho.valid e he
    · exact hvs _ (List.of_mem_zip he).2

/-! ## The words in front -/

section

variable {a : Addressing} {order : ByteOrder} {f : ℕ → UInt8} {count : ℕ} {root : UInt32}
  {links : List Link} {bases : List UInt32} {host : FileHost σ}
  (hl : Fronted a order f bases.length count root links)
include hl

namespace Fronted

variable (bases) in
theorem read_front (st : Stage) {i : ℕ} (hi : i < count + 3) :
    (st.loader a order bases f count).read 0 (4 * i) =
      .ok ((st.patches a bases count (4 * i)).getD (order.wordOf f (4 * i))) := by
  have hlt : 4 * i < a.chunkSize.toNat := by have := hl.header_le; omega
  have hb : 0 < bases.length := Nat.zero_lt_of_lt hl.root_inside.block_lt
  have hread := st.read a order bases f count (Nat.dvd_mul_right 4 i)
    (by rw [Nat.div_eq_of_lt hlt]; exact hb)
  rwa [Nat.div_eq_of_lt hlt, Nat.mod_eq_of_lt hlt] at hread

variable (bases) in
theorem write_front (st : Stage) {i : ℕ} (hi : i < count + 3) (v : UInt32) :
    (st.loader a order bases f count).write 0 (4 * i) v =
      .ok (.overlaid a order bases f
        (Function.update (st.patches a bases count) (4 * i) (some v))) := by
  have hlt : 4 * i < a.chunkSize.toNat := by have := hl.header_le; omega
  have hb : 0 < bases.length := Nat.zero_lt_of_lt hl.root_inside.block_lt
  have hwrite := @Loader.write_over a order bases f (st.patches a bases count) (4 * i)
    (Nat.dvd_mul_right 4 i) (by rw [Nat.div_eq_of_lt hlt]; exact hb) v
  rwa [Nat.div_eq_of_lt hlt, Nat.mod_eq_of_lt hlt] at hwrite

variable (bases) in
theorem read_start {st : Stage} (ho : st.Ok links count) :
    (st.loader a order bases f count).read 0 (4 * (count + 1)) =
      .ok (st.root.getD (a.positionAt root Position.unresolvedFlag).word) := by
  have hread := hl.read_front bases st (show count + 1 < count + 3 by omega)
  rwa [patches_start ho, hl.start] at hread

variable (bases) in
theorem read_table {st : Stage} (ho : st.Ok links count) :
    (st.loader a order bases f count).read 0 (4 * (count + 1) + 4) =
      .ok (order.wordOf f (4 * (count + 2))) := by
  have hread := hl.read_front bases st (show count + 2 < count + 3 by omega)
  have hfilled := ho.filled_le
  rwa [hl.patches_front ho (by omega) (by omega), if_neg (by omega), Option.getD_none] at hread

/-- Filling in one entry of the chunk table. -/
theorem run_fillEntry {st : Stage} (ho : st.Ok links count) {i : ℕ} (hi : i < count)
    (hle : i ≤ st.filled) (h : σ) :
    @Eq (Except LoadError Unit × Hosted σ)
      ((Loader.fillEntry i).run ⟨st.loader a order bases f count, h⟩)
      (.ok ⟨⟩, ⟨{ st with filled := max st.filled (i + 1) }.loader a order bases f count, h⟩) := by
  have hread := hl.read_front bases st (show i < count + 3 by omega)
  rw [hl.patches_front ho (by omega) (by omega), hl.filler i hi] at hread
  have hbase : (st.loader a order bases f count).memory.baseAt i = bases.getD i 0 :=
    Memory.baseAt_holding
  have hwrite := hl.write_front bases st (show i < count + 3 by omega) (bases.getD i 0)
  rw [update_entry hle] at hwrite
  rw [Loader.fillEntry, run_bind_ok (Loader.run_ask hread), run_bind_ok (run_get _)]
  simp only [hbase]
  rw [if_neg (by split_ifs <;> simp)]
  exact Loader.run_change hwrite

/-- Filling in the entries. -/
theorem run_fillEntries {st : Stage} (ho : st.Ok links count) (h : σ) {n : ℕ} (hn : n ≤ count) :
    @Eq (Except LoadError PUnit × Hosted σ)
      (((List.range n).forM Loader.fillEntry).run ⟨st.loader a order bases f count, h⟩)
      (.ok ⟨⟩, ⟨{ st with filled := max st.filled n }.loader a order bases f count, h⟩) := by
  induction n with
  | zero => rw [List.range_zero, Nat.max_zero]; rfl
  | succ n ih =>
    have ho' : { st with filled := max st.filled n }.Ok links count :=
      { ho with filled_le := by have := ho.filled_le; simp only; omega }
    have hfill := hl.run_fillEntry ho' (show n < count by omega) (Nat.le_max_right ..) h
    have hmax : max (max st.filled n) (n + 1) = max st.filled (n + 1) := by omega
    simp only [hmax] at hfill
    rw [List.forM_eq_forM] at ih ⊢
    rw [List.range_succ, List.forM_append, run_bind_ok (ih (by omega))]
    show ((Loader.fillEntry n >>= fun _ => pure ⟨⟩).run _ : Except LoadError PUnit × Hosted σ) = _
    rw [run_bind_ok hfill]
    rfl

variable (hu : ∀ base ∈ bases, Usable a base)
include hu

/-- The entries of the chunk table are counted up to its zero word. -/
theorem countEntries {st : Stage} (ho : st.Ok links count) {i left : ℕ} (hi : i ≤ count)
    (hleft : count < i + left) :
    (st.loader a order bases f count).countEntries i left = .ok count := by
  obtain ⟨k, hk⟩ := Nat.exists_eq_add_of_le hi
  have hfilled := ho.filled_le
  induction k generalizing i left with
  | zero =>
    obtain ⟨left, rfl⟩ := Nat.exists_eq_succ_of_ne_zero (show left ≠ 0 by omega)
    obtain rfl : i = count := by omega
    have hread := hl.read_front bases st (show i < i + 3 by omega)
    rw [hl.patches_front ho (by omega) (by omega), if_neg (by omega), Option.getD_none,
      hl.filler_end] at hread
    rw [Loader.countEntries, hread]
    rfl
  | succ k ih =>
    obtain ⟨left, rfl⟩ := Nat.exists_eq_succ_of_ne_zero (show left ≠ 0 by omega)
    have hread := hl.read_front bases st (show i < count + 3 by omega)
    rw [hl.patches_front ho (by omega) (by omega), hl.filler i (by omega)] at hread
    have hne : (if i < st.filled then some (bases.getD i 0) else none).getD chunkFiller ≠ 0 := by
      split_ifs
      · have hb : i < bases.length := by have := hl.count_le; omega
        have hpos := (Usable.getD hu hb).pos
        rw [Option.getD_some]
        intro h0
        rw [h0] at hpos
        exact absurd hpos (by decide)
      · rw [Option.getD_none]; decide
    rw [Loader.countEntries, hread]
    show (if _ = (0 : UInt32) then _ else _) = _
    rw [if_neg hne]
    exact ih (by omega) (by omega) (by omega)

theorem chunkEntries {st : Stage} (ho : st.Ok links count) :
    (st.loader a order bases f count).chunkEntries = .ok count := by
  have hsize : (st.loader a order bases f count).memory.sizeAt 0 = a.chunkSize.toNat :=
    Memory.sizeAt_holding (Nat.zero_lt_of_lt hl.root_inside.block_lt)
  have hle := hl.header_le
  rw [Loader.chunkEntries, hsize]
  exact hl.countEntries hu ho (Nat.zero_le _) (by omega)

variable (host) in
/-- A call fills in the chunk table, resolves the slots, and then writes the start word. -/
theorem run_init_front {st : Stage} (ho : st.Ok links count) (hroot : st.root = none) (h : σ) :
    @Eq (Except LoadError LoadOutcome × Hosted σ)
      ((Loader.init host).run ⟨st.loader a order bases f count, h⟩)
      ((do
        let done ← Loader.resolveTable host ⟨order.wordOf f (4 * (count + 2))⟩
        let address ← Loader.ask (·.address (a.positionAt root Position.unresolvedFlag))
        Loader.change (·.write 0 (4 * (count + 1)) address)
        return { root := address, fixupsApplied := done.1, runtimeLoads := done.2 } :
          LoadM σ LoadOutcome).run
            ⟨{ st with filled := count }.loader a order bases f count, h⟩) := by
  have hstart := hl.read_start bases ho
  rw [hroot, Option.getD_none] at hstart
  have hslot : Slot.ofWord (a.positionAt root Position.unresolvedFlag).word =
      .unresolved (a.positionAt root Position.unresolvedFlag) :=
    Slot.ofWord_of_isUnresolved (Position.isUnresolved_of_flags
      (Addressing.flags_positionAt hl.root_inside.reaches (by decide)) (by decide))
  have hsize : (st.loader a order bases f count).memory.size = bases.length :=
    Memory.size_holding
  have hfill := hl.run_fillEntries ho h (Nat.le_refl count)
  rw [Nat.max_eq_right ho.filled_le] at hfill
  rw [Loader.init, run_bind_ok (Loader.run_ask (hl.chunkEntries hu ho)), run_bind_ok (run_get _)]
  simp only [hsize]
  rw [if_neg (by have := hl.count_le; omega), run_bind_ok (Loader.run_ask hstart),
    run_bind_ok (Loader.run_ask (hl.read_table bases ho)), hslot]
  simp only
  rw [run_bind_ok hfill]

/-- When the slots are resolved, the start word is written. -/
theorem run_init_ok {st st' : Stage} (ho : st.Ok links count) (hroot : st.root = none)
    (ho' : st'.Ok links count) {applied loads : ℕ} {h h' : σ}
    (htable : @Eq (Except LoadError (ℕ × ℕ) × Hosted σ)
      ((Loader.resolveTable host ⟨order.wordOf f (4 * (count + 2))⟩).run
        ⟨{ st with filled := count }.loader a order bases f count, h⟩)
      (.ok (applied, loads), ⟨st'.loader a order bases f count, h'⟩)) :
    @Eq (Except LoadError LoadOutcome × Hosted σ)
      ((Loader.init host).run ⟨st.loader a order bases f count, h⟩)
      (.ok { root := addressOf a bases root, fixupsApplied := applied, runtimeLoads := loads },
        ⟨{ st' with root := some (addressOf a bases root) }.loader a order bases f count, h'⟩) := by
  obtain ⟨hreach, hblock⟩ := hl.root_inside
  have haddr (w : Patches) : (Loader.overlaid a order bases f w).address
      (a.positionAt root Position.unresolvedFlag) = .ok (addressOf a bases root) :=
    Loader.address_over hreach (by decide) hblock (Usable.getD hu hblock)
  have hwrite := hl.write_front bases st' (show count + 1 < count + 3 by omega)
    (addressOf a bases root)
  rw [update_start ho'] at hwrite
  rw [hl.run_init_front host hu ho hroot, run_bind_ok htable,
    run_bind_ok (Loader.run_ask (haddr _)), run_bind_ok (Loader.run_change hwrite)]
  rfl

theorem run_init_error {st : Stage} (ho : st.Ok links count) (hroot : st.root = none)
    {e : LoadError} {h : σ} {s : Hosted σ}
    (htable : @Eq (Except LoadError (ℕ × ℕ) × Hosted σ)
      ((Loader.resolveTable host ⟨order.wordOf f (4 * (count + 2))⟩).run
        ⟨{ st with filled := count }.loader a order bases f count, h⟩) (.error e, s)) :
    @Eq (Except LoadError LoadOutcome × Hosted σ)
      ((Loader.init host).run ⟨st.loader a order bases f count, h⟩) (.error e, s) := by
  rw [hl.run_init_front host hu ho hroot, run_bind_error htable]

variable (host) in
/-- **Without a fixup table** there is nothing to resolve but the words in front. -/
theorem run_init_null (hnull : order.wordOf f (4 * (count + 2)) = 0) {st : Stage}
    (ho : st.Ok links count) (hroot : st.root = none) (h : σ) :
    @Eq (Except LoadError LoadOutcome × Hosted σ)
      ((Loader.init host).run ⟨st.loader a order bases f count, h⟩)
      (.ok { root := addressOf a bases root },
        ⟨{ st with filled := count, root := some (addressOf a bases root) }.loader a order bases f
          count, h⟩) := by
  have ho' : { st with filled := count }.Ok links count := { ho with filled_le := Nat.le_refl _ }
  refine hl.run_init_ok hu ho hroot ho' ?_
  rw [hnull]
  rfl

variable (host) in
/-- **A call from a stage that has the start word** reads it. -/
theorem run_init_done {st : Stage} (ho : st.Ok links count)
    (hroot : st.root = some (addressOf a bases root)) (h : σ) :
    @Eq (Except LoadError LoadOutcome × Hosted σ)
      ((Loader.init host).run ⟨st.loader a order bases f count, h⟩)
      (.ok { root := addressOf a bases root, alreadyResolved := true },
        ⟨st.loader a order bases f count, h⟩) := by
  have hstart := hl.read_start bases ho
  rw [hroot, Option.getD_some] at hstart
  obtain ⟨hreach, hblock⟩ := hl.root_inside
  have hsize : (st.loader a order bases f count).memory.size = bases.length :=
    Memory.size_holding
  obtain ⟨hne, heven⟩ := Loader.addressOf_even hreach (Usable.getD hu hblock)
  have hne' : addressOf a bases root ≠ 0 := fun h0 => hne (by rw [h0]; rfl)
  rw [Loader.init, run_bind_ok (Loader.run_ask (hl.chunkEntries hu ho)), run_bind_ok (run_get _)]
  simp only [hsize]
  rw [if_neg (by have := hl.count_le; omega), run_bind_ok (Loader.run_ask hstart),
    run_bind_ok (Loader.run_ask (hl.read_table bases ho)), Slot.ofWord_of_even heven]
  simp only [if_neg hne']
  rfl

end Fronted

end

/-! ## The fixup table -/

section

variable {a : Addressing} {order : ByteOrder} {f : ℕ → UInt8} {count : ℕ} {root table : UInt32}
  {links : List Link} {name : UInt32 → String} {bases : List UInt32} {h : σ} {host : FileHost σ}
  (hl : Linked a order f bases.length count root table links name)
  (hu : ∀ base ∈ bases, Usable a base)
include hl

namespace Linked

variable (bases) in
/-- A word of the fixup table. -/
theorem read_row {st : Stage} (ho : st.Ok links count) {i : ℕ} (hi : i ≤ links.length) :
    (st.loader a order bases f count).read (table.toNat / a.chunkSize.toNat)
        (table.toNat % a.chunkSize.toNat + 4 * i) =
      .ok (order.wordOf f (table.toNat + 4 * i)) := by
  obtain ⟨hreach, hblock⟩ := hl.table_inside
  have hle := hl.table_le
  have hd := Nat.div_add_mod' table.toNat a.chunkSize.toNat
  have hw := hreach.words
  have hdiv : (table.toNat + 4 * i) / a.chunkSize.toNat = table.toNat / a.chunkSize.toNat := by
    refine Nat.div_eq_of_lt_le (by omega) ?_
    rw [Nat.add_one_mul (table.toNat / a.chunkSize.toNat)]
    omega
  have hmod : (table.toNat + 4 * i) % a.chunkSize.toNat =
      table.toNat % a.chunkSize.toNat + 4 * i := by
    have := Nat.div_add_mod' (table.toNat + 4 * i) a.chunkSize.toNat
    rw [hdiv] at this
    omega
  have hread := st.read a order bases f count (show 4 ∣ table.toNat + 4 * i by omega)
    (by rw [hdiv]; exact hblock)
  rwa [hl.patches_row ho hi, Option.getD_none, hdiv, hmod] at hread

variable (host) in
/-- The walk of the table ends at its zero word, with the numbers that it has come to. -/
theorem run_resolveSlots_end {st : Stage} (ho : st.Ok links count) (left : ℕ) (p : Position)
    (done : ℕ × ℕ) (h : σ) :
    @Eq (Except LoadError (ℕ × ℕ) × Hosted σ)
      ((Loader.resolveSlots host p (table.toNat / a.chunkSize.toNat) (left + 1)
        (table.toNat % a.chunkSize.toNat + 4 * links.length) done).run
          ⟨st.loader a order bases f count, h⟩)
      (.ok done, ⟨st.loader a order bases f count, h⟩) := by
  have hrow := hl.read_row bases ho (Nat.le_refl links.length)
  rw [hl.row_end] at hrow
  rw [Loader.resolveSlots, run_bind_ok (Loader.run_ask hrow), if_pos rfl]
  rfl

variable (host) in
/-- A row of the table: its slot is resolved, and the walk goes on with the next row. -/
theorem run_resolveSlots_row {st : Stage} (ho : st.Ok links count) {i : ℕ} (hi : i < links.length)
    (left : ℕ) (p : Position) (applied loads : ℕ) (h : σ) :
    @Eq (Except LoadError (ℕ × ℕ) × Hosted σ)
      ((Loader.resolveSlots host p (table.toNat / a.chunkSize.toNat) (left + 1)
        (table.toNat % a.chunkSize.toNat + 4 * i) (applied, loads)).run
          ⟨st.loader a order bases f count, h⟩)
      ((do
        let more ← Loader.resolveSlot host (a.positionAt links[i].slot Position.unresolvedFlag)
        Loader.resolveSlots host p (table.toNat / a.chunkSize.toNat) left
          (table.toNat % a.chunkSize.toNat + 4 * (i + 1)) (applied + more.1, loads + more.2) :
          LoadM σ (ℕ × ℕ)).run ⟨st.loader a order bases f count, h⟩) := by
  have hrow := hl.read_row bases ho (Nat.le_of_lt hi)
  rw [hl.row i hi] at hrow
  have hreach := (hl.slot_inside links[i] (List.getElem_mem hi)).reaches
  have hne : (a.positionAt links[i].slot Position.unresolvedFlag).word ≠ 0 :=
    Addressing.positionAt_ne_zero hreach (by decide) (by decide)
  rw [Loader.resolveSlots, run_bind_ok (Loader.run_ask hrow), if_neg hne, Nat.mul_succ,
    ← Nat.add_assoc]

include hu

/-- **The slots that are not done**, from the first on. -/
theorem run_resolveSlots_todo (rest : List Link) {st : Stage} (ho : st.Ok links count)
    (hlinks : links = st.done ++ rest) {left : ℕ} (hleft : rest.length < left)
    (p : Position) (applied loads : ℕ) (h : σ) :
    @Eq (Except LoadError (ℕ × ℕ) × Hosted σ)
      ((Loader.resolveSlots host p (table.toNat / a.chunkSize.toNat) left
        (table.toNat % a.chunkSize.toNat + 4 * st.done.length) (applied, loads)).run
          ⟨st.loader a order bases f count, h⟩)
      (match host.answers ((pending (st.answers.map Prod.fst) rest).map name) h with
        | (vs, none, h') => (.ok (applied + rest.length, loads + vs.length),
            ⟨(st.advance rest vs).loader a order bases f count, h'⟩)
        | (vs, some e, h') =>
            (.error e, ⟨(st.advance rest vs).loader a order bases f count, h'⟩)) := by
  induction rest generalizing st left applied loads h with
  | nil =>
    obtain ⟨left, rfl⟩ := Nat.exists_eq_succ_of_ne_zero (Nat.ne_of_gt hleft)
    have hdone : st.done.length = links.length := by rw [hlinks, List.append_nil]
    rw [hdone, hl.run_resolveSlots_end host ho]
    simp only [pending, List.map_nil, FileHost.answers, Stage.advance_nil]
    rfl
  | cons l rest ih =>
    obtain ⟨left, rfl⟩ := Nat.exists_eq_succ_of_ne_zero (Nat.ne_of_gt (Nat.zero_lt_of_lt hleft))
    have hlen : st.done.length < links.length := by rw [hlinks]; simp
    have hget : links[st.done.length] = l := by simp [hlinks]
    have hnext : links = (st.done ++ [l]) ++ rest := by rw [hlinks]; simp
    have hsucc : st.done.length + 1 = (st.done ++ [l]).length := by simp
    have hleft' : rest.length < left := by simpa using hleft
    rw [hl.run_resolveSlots_row host ho hlen, hget]
    cases hk : l.known st.answers with
    | true =>
      obtain ⟨hp, hadv⟩ := Stage.advance_known rest hk
      rw [run_bind_ok (hl.run_resolveSlot_known ho hu hlinks hk), hsucc,
        ih (ho.slot hlinks hk) hnext hleft', hp]
      rcases host.answers ((pending (st.answers.map Prod.fst) rest).map name) h with
        ⟨vs, _ | e, h'⟩
      · simp only [hadv, List.length_cons, Nat.add_zero, Nat.add_assoc, Nat.add_comm 1]
      · simp only [hadv]
    | false =>
      obtain ⟨hp, hstop, hadv⟩ := Stage.advance_unknown rest hk
      have hslot := hl.run_resolveSlot_unknown h host ho hlinks hk
      have hmem : l ∈ links := by rw [hlinks]; simp
      have hr : l.runtime = true := by
        rw [Link.known, Bool.or_eq_false_iff, Bool.not_eq_false'] at hk
        exact hk.1
      rw [hp, List.map_cons, FileHost.answers]
      rcases hans : host.answer (name l.target) h with ⟨e | v, h'⟩
      · rw [hans] at hslot
        rw [run_bind_error hslot]
        simp only [hstop]
      · rw [hans] at hslot
        have hk' : l.known (st.answers ++ [(l.target, v)]) = true := by
          rw [Link.known_iff, List.map_append, List.mem_append]
          simp
        have ho' := (ho.answer hmem hr (FileHost.answer_even hans)).slot hlinks hk'
        have hkeys : (st.answers ++ [(l.target, v)]).map Prod.fst =
            st.answers.map Prod.fst ++ [l.target] := by simp
        have hrest := ih ho' hnext hleft' (applied + 1) (loads + 1) h'
        simp only [hkeys] at hrest
        rw [run_bind_ok hslot, hsucc, hrest]
        simp only
        rcases host.answers ((pending (st.answers.map Prod.fst ++ [l.target]) rest).map name) h' with
          ⟨vs, _ | e, h''⟩
        · simp only [hadv, List.length_cons, Nat.add_assoc, Nat.add_comm 1]
        · simp only [hadv]

/-- **The fixup table**: the slots that are done are passed over. -/
theorem run_resolveSlots {rest : List Link} {st : Stage} (ho : st.Ok links count)
    (hlinks : links = st.done ++ rest) {i left : ℕ} (hi : i ≤ st.done.length)
    (hleft : links.length < i + left) (p : Position) (h : σ) :
    @Eq (Except LoadError (ℕ × ℕ) × Hosted σ)
      ((Loader.resolveSlots host p (table.toNat / a.chunkSize.toNat) left
        (table.toNat % a.chunkSize.toNat + 4 * i) (0, 0)).run ⟨st.loader a order bases f count, h⟩)
      (match host.answers ((pending (st.answers.map Prod.fst) rest).map name) h with
        | (vs, none, h') => (.ok (rest.length, vs.length),
            ⟨(st.advance rest vs).loader a order bases f count, h'⟩)
        | (vs, some e, h') =>
            (.error e, ⟨(st.advance rest vs).loader a order bases f count, h'⟩)) := by
  obtain ⟨k, hk⟩ := Nat.exists_eq_add_of_le hi
  have hlen : links.length = st.done.length + rest.length := by rw [hlinks, List.length_append]
  induction k generalizing i left with
  | zero =>
    rw [Nat.add_zero] at hk
    rw [← hk, hl.run_resolveSlots_todo hu rest ho hlinks (by omega)]
    simp only [Nat.zero_add]
  | succ k ih =>
    obtain ⟨left, rfl⟩ := Nat.exists_eq_succ_of_ne_zero (show left ≠ 0 by omega)
    have hmem : links[i] ∈ st.done := by
      simp only [hlinks, List.getElem_append_left (show i < st.done.length by omega)]
      exact List.getElem_mem _
    rw [hl.run_resolveSlots_row host ho (by omega), run_bind_ok (hl.run_resolveSlot_done ho hu hmem)]
    exact ih (by omega) (by omega) (by omega)

variable (host) in
/-- The table and the slots that it lists. -/
theorem run_resolveTable {rest : List Link} {st : Stage} (ho : st.Ok links count)
    (hlinks : links = st.done ++ rest) (h : σ) :
    @Eq (Except LoadError (ℕ × ℕ) × Hosted σ)
      ((Loader.resolveTable host (a.positionAt table Position.unresolvedFlag)).run
        ⟨st.loader a order bases f count, h⟩)
      (match host.answers ((pending (st.answers.map Prod.fst) rest).map name) h with
        | (vs, none, h') => (.ok (rest.length, vs.length),
            ⟨(st.advance rest vs).loader a order bases f count, h'⟩)
        | (vs, some e, h') =>
            (.error e, ⟨(st.advance rest vs).loader a order bases f count, h'⟩)) := by
  obtain ⟨hreach, hblock⟩ := hl.table_inside
  have hnull : (a.positionAt table Position.unresolvedFlag).isNull = false :=
    beq_eq_false_iff_ne.2 (Addressing.positionAt_ne_zero hreach (by decide) (by decide))
  have hsize : (st.loader a order bases f count).memory.sizeAt
      (table.toNat / a.chunkSize.toNat) = a.chunkSize.toNat := Memory.sizeAt_holding hblock
  have hle := hl.table_le
  rw [Loader.resolveTable, if_neg (by rw [hnull]; decide),
    run_bind_ok (Loader.run_ask (Loader.locate_over hreach (by decide) hblock)),
    run_bind_ok (run_get _)]
  simp only [hsize]
  exact hl.run_resolveSlots hu ho hlinks (Nat.zero_le _) (by omega) _ h

/-! ## Calls -/

variable (host) in
/-- **A call from a stage that lacks the start word.** -/
theorem run_init {rest : List Link} {st : Stage} (ho : st.Ok links count)
    (hlinks : links = st.done ++ rest) (hroot : st.root = none) (h : σ) :
    @Eq (Except LoadError LoadOutcome × Hosted σ)
      ((Loader.init host).run ⟨st.loader a order bases f count, h⟩)
      (match host.answers ((pending (st.answers.map Prod.fst) rest).map name) h with
        | (vs, none, h') =>
          (.ok { root := addressOf a bases root, fixupsApplied := rest.length,
                 runtimeLoads := vs.length },
            ⟨{ st.advance rest vs with filled := count, root := some (addressOf a bases root) }.loader
              a order bases f count, h'⟩)
        | (vs, some e, h') =>
          (.error e, ⟨{ st.advance rest vs with filled := count }.loader a order bases f count, h'⟩)) := by
  have ho₁ : { st with filled := count }.Ok links count := { ho with filled_le := Nat.le_refl _ }
  have htab := hl.run_resolveTable host hu ho₁ hlinks h
  have htable : (⟨order.wordOf f (4 * (count + 2))⟩ : Position) =
      a.positionAt table Position.unresolvedFlag := congrArg Position.mk hl.table_word
  rw [← htable] at htab
  rcases hans : host.answers ((pending (st.answers.map Prod.fst) rest).map name) h with
    ⟨vs, _ | e, h'⟩
  · simp only [hans] at htab
    have ho₂ : (Stage.advance { st with filled := count } rest vs).Ok links count := by
      refine ho₁.advance hlinks fun v hv => ?_
      exact FileHost.answers_even (by rw [hans]) v hv
    exact hl.run_init_ok hu ho hroot ho₂ htab
  · simp only [hans] at htab
    exact hl.run_init_error hu ho hroot htab

end Linked

end

end LevelBundle
