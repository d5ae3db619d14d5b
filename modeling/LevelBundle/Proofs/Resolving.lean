/-
  LevelBundle — resolving, stage by stage.

  * `FileHost.answers`: what a host answers when it is asked for some names one after
    the other, up to the first answer that is no address.
  * `pending`: the records that the slots ahead need and that hold no address yet, in
    the order in which the slots come, each once.
  * `run_resolveSlot_done`, `run_resolveSlot_known`, `run_resolveSlot_unknown`: what
    becomes of one slot.
-/
import LevelBundle.Proofs.Links
import LevelBundle.Proofs.Steps

namespace LevelBundle

variable {σ : Type}

/-! ## Hosts -/

/-- What a host answers for a name, where only an address that can be used counts. -/
def FileHost.answer (host : FileHost σ) (name : String) (h : σ) : Except LoadError UInt32 × σ :=
  match (host name).run h with
  | (.ok v, h') => if v = 0 ∨ v % 2 ≠ 0 then (.error (.badAddress name v), h') else (.ok v, h')
  | (.error cause, h') => (.error (.callback name cause), h')

/-- What a host answers for some names, one after the other, up to the first error. -/
def FileHost.answers (host : FileHost σ) : List String → σ → List UInt32 × Option LoadError × σ
  | [], h => ([], none, h)
  | name :: names, h =>
    match host.answer name h with
    | (.error e, h') => ([], some e, h')
    | (.ok v, h') =>
      let (vs, e, h'') := host.answers names h'
      (v :: vs, e, h'')

theorem FileHost.answer_even {host : FileHost σ} {name : String} {h h' : σ} {v : UInt32}
    (hv : host.answer name h = (.ok v, h')) : v.toNat ≠ 0 ∧ v.toNat % 2 = 0 := by
  unfold answer at hv
  split at hv
  · split_ifs at hv with hc
    · cases hv
    rw [Prod.mk.injEq, Except.ok.injEq] at hv
    obtain ⟨rfl, rfl⟩ := hv
    rw [not_or, not_not] at hc
    refine ⟨fun h0 => hc.1 (UInt32.toNat_inj.1 h0), ?_⟩
    have := congrArg UInt32.toNat hc.2
    rwa [UInt32.toNat_mod] at this
  · cases hv

/-- The records that some references need and that are not known, each once. -/
def pending : List UInt32 → List Link → List UInt32
  | _, [] => []
  | known, l :: rest =>
    if l.runtime = true ∧ l.target ∉ known then l.target :: pending (known ++ [l.target]) rest
    else pending known rest

/-- Whether the address for a slot is known. -/
def Link.known (answers : List (UInt32 × UInt32)) (l : Link) : Bool :=
  !l.runtime || (answerAt answers l.target.toNat).isSome

theorem isSome_answerAt {answers : List (UInt32 × UInt32)} {r : UInt32} :
    (answerAt answers r.toNat).isSome = true ↔ r ∈ answers.map Prod.fst := by
  unfold answerAt
  rw [Option.isSome_map, List.find?_isSome, List.mem_map]
  simp only [beq_iff_eq, UInt32.toNat_inj]

theorem Link.known_iff {answers : List (UInt32 × UInt32)} {l : Link} :
    l.known answers = true ↔ ¬ (l.runtime = true ∧ l.target ∉ answers.map Prod.fst) := by
  rw [Link.known, Bool.or_eq_true, isSome_answerAt, Bool.not_eq_true', not_and, not_not]
  cases l.runtime <;> simp

theorem Link.flags_lt (l : Link) : l.flags.toNat < 4 := by
  unfold flags
  split_ifs <;> decide

theorem Link.flags_odd (l : Link) : l.flags.toNat % 2 = 1 := by
  unfold flags
  split_ifs <;> decide

/-- One more record holds its address. -/
theorem Stage.Ok.answer {links : List Link} {count : ℕ} {st : Stage} (ho : st.Ok links count)
    {l : Link} (hmem : l ∈ links) (hr : l.runtime = true) {v : UInt32}
    (hv : v.toNat ≠ 0 ∧ v.toNat % 2 = 0) :
    { st with answers := st.answers ++ [(l.target, v)] }.Ok links count where
  filled_le := ho.filled_le
  done_prefix := ho.done_prefix
  answered e he := by
    rcases List.mem_append.1 he with he | he
    · exact ho.answered e he
    · rw [List.mem_singleton.1 he]
      exact ⟨l, hmem, hr, rfl⟩
  ready l' hm hr' := by
    rw [answerAt_append_of_some (ho.ready l' hm hr')]
    exact ho.ready l' hm hr'
  valid e he := by
    rcases List.mem_append.1 he with he | he
    · exact ho.valid e he
    · rw [List.mem_singleton.1 he]
      exact hv

/-- One more slot holds its address. -/
theorem Stage.Ok.slot {links : List Link} {count : ℕ} {st : Stage} (ho : st.Ok links count)
    {l : Link} {rest : List Link} (hlinks : links = st.done ++ l :: rest)
    (hk : l.known st.answers = true) : { st with done := st.done ++ [l] }.Ok links count where
  filled_le := ho.filled_le
  done_prefix := ⟨rest, by rw [hlinks]; simp⟩
  answered := ho.answered
  ready l' hm hr := by
    rcases List.mem_append.1 hm with hm | hm
    · exact ho.ready l' hm hr
    · rw [List.mem_singleton.1 hm] at hr ⊢
      rwa [Link.known, hr, Bool.not_true, Bool.false_or] at hk
  valid := ho.valid

/-! ## Steps of a loader -/

namespace Loader

variable {l l' : Loader} {h : σ} {α : Type}

theorem run_ask {question : Loader → Except LoadError α} {v : α} (hq : question l = .ok v) :
    @Eq (Except LoadError α × Hosted σ) ((ask question).run ⟨l, h⟩) (.ok v, ⟨l, h⟩) := by
  rw [ask, run_bind_ok (run_get _)]
  simp only [hq]
  rfl

theorem run_change {act : Loader → Except LoadError Loader} (ha : act l = .ok l') :
    @Eq (Except LoadError Unit × Hosted σ) ((change act).run ⟨l, h⟩) (.ok ⟨⟩, ⟨l', h⟩) := by
  rw [change, run_bind_ok (run_get _)]
  simp only [ha]
  rfl

theorem run_askHost (host : FileHost σ) (name : String) :
    @Eq (Except LoadError UInt32 × Hosted σ) ((askHost host name).run ⟨l, h⟩)
      (match (host name).run h with
        | (.ok v, h') => (.ok v, ⟨l, h'⟩)
        | (.error cause, h') => (.error (.callback name cause), ⟨l, h'⟩)) := by
  rw [askHost, run_bind_ok (run_get _)]
  rcases (host name).run h with ⟨_ | _, h'⟩ <;> rfl

end Loader

/-- The loader at a stage. -/
def Stage.loader (a : Addressing) (order : ByteOrder) (bases : List UInt32) (f : ℕ → UInt8)
    (count : ℕ) (st : Stage) : Loader := .overlaid a order bases f (st.patches a bases count)

theorem Stage.read (a : Addressing) (order : ByteOrder) (bases : List UInt32) (f : ℕ → UInt8)
    (count : ℕ) (st : Stage) {x : ℕ} (hx : 4 ∣ x) (hb : x / a.chunkSize.toNat < bases.length) :
    (st.loader a order bases f count).read (x / a.chunkSize.toNat) (x % a.chunkSize.toNat) =
      .ok ((st.patches a bases count x).getD (order.wordOf f x)) :=
  Loader.read_over hx hb

section

variable {a : Addressing} {order : ByteOrder} {f : ℕ → UInt8} {count : ℕ} {root table : UInt32}
  {links : List Link} {name : UInt32 → String} {bases : List UInt32} {st : Stage} {h : σ}
  {host : FileHost σ}
  (hl : Linked a order f bases.length count root table links name) (ho : st.Ok links count)
include hl ho

namespace Linked

/-- The name in a record is what it was, whatever has been written. -/
theorem recordName {l : Link} (hmem : l ∈ links) (hr : l.runtime = true) (record : Position) :
    (st.loader a order bases f count).recordName (l.target.toNat / a.chunkSize.toNat)
      (l.target.toNat % a.chunkSize.toNat + 4) record = .ok (name l.target) := by
  obtain ⟨bytes, hrec⟩ := hl.recorded l hmem hr
  have hge := hl.header_le_written _ ⟨l, hmem, Or.inr ⟨hr, rfl⟩⟩
  have hin := hrec.inside
  have hd := Nat.div_add_mod' l.target.toNat a.chunkSize.toNat
  have hdiv : (l.target.toNat + 4) / a.chunkSize.toNat = l.target.toNat / a.chunkSize.toNat := by
    refine Nat.div_eq_of_lt_le (by omega) ?_
    rw [Nat.succ_mul]
    omega
  have hmod : (l.target.toNat + 4) % a.chunkSize.toNat = l.target.toNat % a.chunkSize.toNat + 4 := by
    have := Nat.div_add_mod' (l.target.toNat + 4) a.chunkSize.toNat
    rw [hdiv] at this
    omega
  have hfree (j : ℕ) (hj : j ≤ bytes.length) :
      order.overlay f (st.patches a bases count) (l.target.toNat + 4 + j) =
        f (l.target.toNat + 4 + j) := by
    refine ByteOrder.overlay_of_none ?_
    rw [patches_behind ho (by omega), behind_of_not_written ho (hrec.free j hj)]
  rw [← hdiv, ← hmod]
  refine Loader.recordName_over ?_ hrec.decode hrec.nonzero (by omega) (fun j hj => ?_) ?_
  · rw [hdiv]; exact (hl.target_inside l hmem).block_lt
  · rw [hfree j (by omega), hrec.name_bytes j hj]
  · rw [hfree _ (Nat.le_refl _), hrec.name_end]

/-- The record of a file that holds its address. -/
theorem run_runtimeFile_known {l : Link} (hmem : l ∈ links) (hr : l.runtime = true) {v : UInt32}
    (hv : answerAt st.answers l.target.toNat = some v) :
    @Eq (Except LoadError (UInt32 × Bool) × Hosted σ)
      ((Loader.runtimeFile host (a.positionAt l.target l.flags)).run
        ⟨st.loader a order bases f count, h⟩)
      (.ok (v, false), ⟨st.loader a order bases f count, h⟩) := by
  obtain ⟨hreach, hblock⟩ := hl.target_inside l hmem
  have hread := st.read a order bases f count hreach.words hblock
  rw [hl.patches_record ho hmem hr, hv, Option.getD_some] at hread
  obtain ⟨e, he, -, rfl⟩ := answerAt_eq_some hv
  have hne : e.2 ≠ 0 := fun h0 => (ho.valid e he).1 (by rw [h0]; rfl)
  rw [Loader.runtimeFile, run_bind_ok (Loader.run_ask (Loader.locate_over hreach l.flags_lt hblock)),
    run_bind_ok (Loader.run_ask hread)]
  simp only [if_pos hne]
  rfl

/-- The record of a file that has not been loaded: the host is asked for it. -/
theorem run_runtimeFile_unknown {l : Link} (hmem : l ∈ links) (hr : l.runtime = true)
    (hnone : answerAt st.answers l.target.toNat = none) :
    @Eq (Except LoadError (UInt32 × Bool) × Hosted σ)
      ((Loader.runtimeFile host (a.positionAt l.target l.flags)).run
        ⟨st.loader a order bases f count, h⟩)
      (match host.answer (name l.target) h with
        | (.ok v, h') => (.ok (v, true),
            ⟨{ st with answers := st.answers ++ [(l.target, v)] }.loader a order bases f count, h'⟩)
        | (.error e, h') => (.error e, ⟨st.loader a order bases f count, h'⟩)) := by
  obtain ⟨hreach, hblock⟩ := hl.target_inside l hmem
  obtain ⟨bytes, hrec⟩ := hl.recorded l hmem hr
  have hread := st.read a order bases f count hreach.words hblock
  rw [hl.patches_record ho hmem hr, hnone, Option.getD_none, hrec.word] at hread
  have hname := hl.recordName ho hmem hr (a.positionAt l.target l.flags)
  have hwrite (v : UInt32) : (st.loader a order bases f count).write
      (l.target.toNat / a.chunkSize.toNat) (l.target.toNat % a.chunkSize.toNat) v =
      .ok ({ st with answers := st.answers ++ [(l.target, v)] }.loader a order bases f count) := by
    rw [Stage.loader, Loader.write_over hreach.words hblock,
      hl.update_record ho hmem hr hnone]
    rfl
  rw [Loader.runtimeFile, run_bind_ok (Loader.run_ask (Loader.locate_over hreach l.flags_lt hblock)),
    run_bind_ok (Loader.run_ask hread)]
  simp only [ne_eq, not_true_eq_false, if_false]
  rw [run_bind_ok (Loader.run_ask hname)]
  have hask := Loader.run_askHost (l := st.loader a order bases f count) (h := h) host (name l.target)
  unfold FileHost.answer
  rcases hans : (host (name l.target)).run h with ⟨cause | v, h'⟩
  · rw [hans] at hask
    rw [run_bind_error hask]
  · rw [hans] at hask
    rw [run_bind_ok hask]
    simp only
    split_ifs with hc
    · rfl
    · rw [run_bind_ok (Loader.run_change (hwrite v))]
      rfl

variable (hu : ∀ base ∈ bases, Usable a base)
include hu

/-- The address for a slot, if it is known. -/
theorem run_target_known {l : Link} (hmem : l ∈ links) (hk : l.known st.answers = true) :
    @Eq (Except LoadError (UInt32 × Bool) × Hosted σ)
      ((Loader.target host (a.positionAt l.target l.flags)).run
        ⟨st.loader a order bases f count, h⟩)
      (.ok (l.value a bases st.answers, false), ⟨st.loader a order bases f count, h⟩) := by
  obtain ⟨hreach, hblock⟩ := hl.target_inside l hmem
  have hflags := Addressing.flags_positionAt hreach l.flags_lt
  unfold Loader.target
  rw [Position.isRuntimeFile_eq, hflags]
  by_cases hr : l.runtime = true
  · obtain ⟨v, hv⟩ : ∃ v, answerAt st.answers l.target.toNat = some v := by
      rw [Link.known, hr, Bool.not_true, Bool.false_or] at hk
      exact Option.isSome_iff_exists.1 hk
    have hf : (l.flags &&& Position.runtimeFlag != 0) = true := by
      rw [Link.flags, if_pos hr]; decide
    rw [if_pos hf, hl.run_runtimeFile_known ho hmem hr hv, Link.value, if_pos hr, hv]
    rfl
  · have hf : ¬ (l.flags &&& Position.runtimeFlag != 0) = true := by
      rw [Link.flags, if_neg hr]; decide
    have hbase : Usable a (bases.getD (l.target.toNat / a.chunkSize.toNat) 0) :=
      Usable.getD hu hblock
    rw [if_neg hf, run_bind_ok (Loader.run_ask (Loader.address_over hreach l.flags_lt hblock hbase)),
      Link.value, if_neg hr]
    rfl

omit hu in
variable (bases h host) in
/-- The address for a slot, if the host has to be asked for it. -/
theorem run_target_unknown {l : Link} (hmem : l ∈ links) (hk : l.known st.answers = false) :
    @Eq (Except LoadError (UInt32 × Bool) × Hosted σ)
      ((Loader.target host (a.positionAt l.target l.flags)).run
        ⟨st.loader a order bases f count, h⟩)
      (match host.answer (name l.target) h with
        | (.ok v, h') => (.ok (v, true),
            ⟨{ st with answers := st.answers ++ [(l.target, v)] }.loader a order bases f count, h'⟩)
        | (.error e, h') => (.error e, ⟨st.loader a order bases f count, h'⟩)) := by
  obtain ⟨hreach, hblock⟩ := hl.target_inside l hmem
  have hflags := Addressing.flags_positionAt hreach l.flags_lt
  rw [Link.known, Bool.or_eq_false_iff, Bool.not_eq_false'] at hk
  obtain ⟨hr, hnone⟩ := hk
  rw [Option.isSome_eq_false_iff, Option.isNone_iff_eq_none] at hnone
  have hf : (l.flags &&& Position.runtimeFlag != 0) = true := by
    rw [Link.flags, if_pos hr]; decide
  unfold Loader.target
  rw [Position.isRuntimeFile_eq, hflags, if_pos hf]
  exact hl.run_runtimeFile_unknown ho hmem hr hnone

/-! ## Slots -/

/-- The address in a slot that is done is even. -/
theorem value_even {l : Link} (hm : l ∈ st.done) : (l.value a bases st.answers).toNat % 2 = 0 := by
  obtain ⟨rest, hlinks⟩ := ho.done_prefix
  obtain ⟨hreach, hblock⟩ := hl.target_inside l (hlinks ▸ List.mem_append_left _ hm)
  unfold Link.value
  by_cases hr : l.runtime = true
  · obtain ⟨v, hv⟩ := Option.isSome_iff_exists.1 (ho.ready l hm hr)
    obtain ⟨e, he, -, rfl⟩ := answerAt_eq_some hv
    rw [if_pos hr, hv]
    exact (ho.valid e he).2
  · have hbase : Usable a (bases.getD (l.target.toNat / a.chunkSize.toNat) 0) :=
      Usable.getD hu hblock
    rw [if_neg hr]
    exact (Loader.addressOf_even hreach hbase).2

/-- A slot that is done is passed over. -/
theorem run_resolveSlot_done {l : Link} (hm : l ∈ st.done) :
    @Eq (Except LoadError (ℕ × ℕ) × Hosted σ)
      ((Loader.resolveSlot host (a.positionAt l.slot Position.unresolvedFlag)).run
        ⟨st.loader a order bases f count, h⟩)
      (.ok (0, 0), ⟨st.loader a order bases f count, h⟩) := by
  obtain ⟨rest, hlinks⟩ := ho.done_prefix
  obtain ⟨hreach, hblock⟩ := hl.slot_inside l (hlinks ▸ List.mem_append_left _ hm)
  have hread := st.read a order bases f count hreach.words hblock
  rw [hl.patches_done ho hm, Option.getD_some] at hread
  rw [Loader.resolveSlot,
    run_bind_ok (Loader.run_ask (Loader.locate_over hreach (by decide) hblock)),
    run_bind_ok (Loader.run_ask hread), Slot.ofWord_of_even (hl.value_even ho hu hm)]
  rfl

omit hu in
variable (bases) in
/-- What a slot that is not done holds. -/
theorem read_todo {l : Link} {rest : List Link} (hlinks : links = st.done ++ l :: rest) :
    (st.loader a order bases f count).locate (a.positionAt l.slot Position.unresolvedFlag) =
        .ok (l.slot.toNat / a.chunkSize.toNat, l.slot.toNat % a.chunkSize.toNat) ∧
      (st.loader a order bases f count).read (l.slot.toNat / a.chunkSize.toNat)
        (l.slot.toNat % a.chunkSize.toNat) = .ok (a.positionAt l.target l.flags).word ∧
      Slot.ofWord (a.positionAt l.target l.flags).word =
        .unresolved (a.positionAt l.target l.flags) := by
  have hmem : l ∈ links := by rw [hlinks]; simp
  obtain ⟨hreach, hblock⟩ := hl.slot_inside l hmem
  have hread := st.read a order bases f count hreach.words hblock
  rw [hl.patches_todo ho hlinks, Option.getD_none, hl.slot_word l hmem] at hread
  refine ⟨Loader.locate_over hreach (by decide) hblock, hread, Slot.ofWord_of_isUnresolved ?_⟩
  exact Position.isUnresolved_of_flags
    (Addressing.flags_positionAt (hl.target_inside l hmem).reaches l.flags_lt) l.flags_odd

omit hu in
variable (bases) in
theorem write_slot {l : Link} {rest : List Link} (hlinks : links = st.done ++ l :: rest) :
    (st.loader a order bases f count).write (l.slot.toNat / a.chunkSize.toNat)
        (l.slot.toNat % a.chunkSize.toNat) (l.value a bases st.answers) =
      .ok ({ st with done := st.done ++ [l] }.loader a order bases f count) := by
  obtain ⟨hreach, hblock⟩ := hl.slot_inside l (by rw [hlinks]; simp)
  rw [Stage.loader, Loader.write_over hreach.words hblock, hl.update_slot ho hlinks]
  rfl

/-- A slot whose address is known is written. -/
theorem run_resolveSlot_known {l : Link} {rest : List Link} (hlinks : links = st.done ++ l :: rest)
    (hk : l.known st.answers = true) :
    @Eq (Except LoadError (ℕ × ℕ) × Hosted σ)
      ((Loader.resolveSlot host (a.positionAt l.slot Position.unresolvedFlag)).run
        ⟨st.loader a order bases f count, h⟩)
      (.ok (1, 0), ⟨{ st with done := st.done ++ [l] }.loader a order bases f count, h⟩) := by
  obtain ⟨hlocate, hread, hslot⟩ := hl.read_todo bases ho hlinks
  rw [Loader.resolveSlot, run_bind_ok (Loader.run_ask hlocate),
    run_bind_ok (Loader.run_ask hread), hslot]
  simp only
  rw [run_bind_ok (hl.run_target_known ho hu (by rw [hlinks]; simp) hk)]
  simp only
  rw [run_bind_ok (Loader.run_change (hl.write_slot bases ho hlinks))]
  rfl

omit hu in
variable (h host) in
/-- A slot whose record has not been loaded: the host is asked first. -/
theorem run_resolveSlot_unknown {l : Link} {rest : List Link}
    (hlinks : links = st.done ++ l :: rest) (hk : l.known st.answers = false) :
    @Eq (Except LoadError (ℕ × ℕ) × Hosted σ)
      ((Loader.resolveSlot host (a.positionAt l.slot Position.unresolvedFlag)).run
        ⟨st.loader a order bases f count, h⟩)
      (match host.answer (name l.target) h with
        | (.ok v, h') => (.ok (1, 1), ⟨{ st with
            answers := st.answers ++ [(l.target, v)], done := st.done ++ [l] }.loader
              a order bases f count, h'⟩)
        | (.error e, h') => (.error e, ⟨st.loader a order bases f count, h'⟩)) := by
  have hmem : l ∈ links := by rw [hlinks]; simp
  obtain ⟨hlocate, hread, hslot⟩ := hl.read_todo bases ho hlinks
  have htarget := hl.run_target_unknown bases h host ho hmem hk
  rw [Link.known, Bool.or_eq_false_iff, Bool.not_eq_false'] at hk
  obtain ⟨hr, hnone⟩ := hk
  rw [Option.isSome_eq_false_iff, Option.isNone_iff_eq_none] at hnone
  rw [Loader.resolveSlot, run_bind_ok (Loader.run_ask hlocate),
    run_bind_ok (Loader.run_ask hread), hslot]
  simp only
  rcases hans : host.answer (name l.target) h with ⟨e | v, h'⟩
  · rw [hans] at htarget
    rw [run_bind_error htarget]
  · rw [hans] at htarget
    rw [run_bind_ok htarget]
    have ho' := ho.answer hmem hr (FileHost.answer_even hans)
    have hwrite := hl.write_slot bases ho' hlinks
    have hvalue : l.value a bases (st.answers ++ [(l.target, v)]) = v := by
      rw [Link.value, if_pos hr, answerAt_append_of_none hnone, answerAt_single, if_pos rfl]
      rfl
    rw [hvalue] at hwrite
    simp only
    rw [run_bind_ok (Loader.run_change hwrite)]
    rfl

end Linked

end

end LevelBundle
