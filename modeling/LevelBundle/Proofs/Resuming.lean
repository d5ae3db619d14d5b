/-
  LevelBundle — calls of a loader, one after the other.

  * `Stage.advance_advance`: a call goes on where the one before stopped.
  * `Stage.Open`: every stage that calls come to is one of these, as long as the start
    word is not resolved: it depends on the answers that have been given so far.
  * `run_init_open`: what a call does from there.
  * `Linked.calls`: what calls do, one after the other, whatever the hosts answer.
-/
import LevelBundle.Proofs.Calls
import LevelBundle.Proofs.Requests

namespace LevelBundle

/-! ## Records that are pending -/

variable {known : List UInt32} {rest : List Link} {answers : List (UInt32 × UInt32)}

/-- Once the first of the records that are pending are known, the others are pending for
    the references from the first on whose address is not known. -/
theorem pending_dropWhile {m : ℕ} (hkeys : answers.map Prod.fst =
    known ++ (pending known rest).take m) :
    pending (answers.map Prod.fst) (rest.dropWhile (·.known answers)) =
      (pending known rest).drop m := by
  induction rest generalizing known m with
  | nil => rw [List.dropWhile_nil, pending, pending, List.drop_nil]
  | cons l rest ih =>
    by_cases hc : l.runtime = true ∧ l.target ∉ known
    · rw [pending, if_pos hc] at hkeys ⊢
      cases m with
      | zero =>
        rw [List.take_zero, List.append_nil] at hkeys
        have hk : ¬ l.known answers = true := by
          rw [Link.known_iff, hkeys, not_not]
          exact hc
        rw [List.dropWhile_cons_of_neg hk, hkeys, pending, if_pos hc, List.drop_zero]
      | succ m =>
        rw [List.take_succ_cons, List.append_cons] at hkeys
        have hk : l.known answers = true := by
          rw [Link.known_iff, hkeys]
          simp
        rw [List.dropWhile_cons_of_pos hk, List.drop_succ_cons]
        exact ih hkeys
    · rw [pending, if_neg hc] at hkeys ⊢
      have hk : l.known answers = true := by
        rw [Link.known_iff, hkeys, List.mem_append]
        tauto
      rw [List.dropWhile_cons_of_pos hk]
      exact ih hkeys

/-- A record is known or pending. -/
theorem mem_or_mem_pending {l : Link} (hm : l ∈ rest) (hr : l.runtime = true) :
    l.target ∈ known ∨ l.target ∈ pending known rest := by
  induction rest generalizing known with
  | nil => exact absurd hm List.not_mem_nil
  | cons l' rest ih =>
    rw [pending]
    split_ifs with hc
    · rcases List.mem_cons.1 hm with rfl | hm
      · exact Or.inr List.mem_cons_self
      · rcases @ih (known ++ [l'.target]) hm with h | h
        · rcases List.mem_append.1 h with h | h
          · exact Or.inl h
          · exact Or.inr (List.mem_singleton.1 h ▸ List.mem_cons_self)
        · exact Or.inr (List.mem_cons_of_mem _ h)
    · rcases List.mem_cons.1 hm with rfl | hm
      · tauto
      · exact ih hm

/-- No record is pending twice. -/
theorem nodup_pending : (pending known rest).Nodup ∧ ∀ r ∈ pending known rest, r ∉ known := by
  induction rest generalizing known with
  | nil => exact ⟨List.nodup_nil, nofun⟩
  | cons l rest ih =>
    rw [pending]
    split_ifs with hc
    · obtain ⟨hn, hd⟩ := @ih (known ++ [l.target])
      refine ⟨List.nodup_cons.2 ⟨fun hm => hd _ hm (by simp), hn⟩, fun r hr => ?_⟩
      rcases List.mem_cons.1 hr with rfl | hr
      · exact hc.2
      · exact fun hk => hd r hr (List.mem_append_left _ hk)
    · exact ih

/-! ## Stages -/

namespace Stage

variable {st : Stage} {vs ws : List UInt32}

theorem keys_advance (h : vs.length ≤ (pending (st.answers.map Prod.fst) rest).length) :
    (st.advance rest vs).answers.map Prod.fst = st.answers.map Prod.fst ++
      (pending (st.answers.map Prod.fst) rest).take vs.length := by
  simp only [advance, List.map_append]
  congr 1
  refine List.ext_getElem (by simp [h]) fun i h1 h2 => ?_
  simp

theorem zip_append_right {α β : Type} (l : List α) (vs ws : List β) :
    l.zip (vs ++ ws) = l.zip vs ++ (l.drop vs.length).zip ws := by
  induction vs generalizing l with
  | nil => simp
  | cons v vs ih => cases l <;> simp [ih]

theorem takeWhile_append_takeWhile {α : Type} {t t' : α → Bool} (h : ∀ x, t x = true → t' x = true)
    (l : List α) : l.takeWhile t ++ (l.dropWhile t).takeWhile t' = l.takeWhile t' := by
  induction l with
  | nil => rfl
  | cons x l ih =>
    by_cases hx : t x = true
    · rw [List.takeWhile_cons_of_pos hx, List.dropWhile_cons_of_pos hx,
        List.takeWhile_cons_of_pos (h x hx), List.cons_append, ih]
    · rw [List.takeWhile_cons_of_neg hx, List.dropWhile_cons_of_neg hx, List.nil_append]

/-- **A call goes on where the one before stopped.** -/
theorem advance_advance (h : vs.length ≤ (pending (st.answers.map Prod.fst) rest).length) :
    (st.advance rest vs).advance
        (rest.dropWhile (·.known (st.advance rest vs).answers)) ws = st.advance rest (vs ++ ws) := by
  have hp := pending_dropWhile (keys_advance h)
  have hanswers : (st.advance rest vs).answers ++
      (pending ((st.advance rest vs).answers.map Prod.fst)
        (rest.dropWhile (·.known (st.advance rest vs).answers))).zip ws =
      (st.advance rest (vs ++ ws)).answers := by
    rw [hp, advance, advance, zip_append_right, List.append_assoc]
  have hdone : (st.advance rest vs).done ++
      (rest.dropWhile (·.known (st.advance rest vs).answers)).takeWhile
        (·.known (st.advance rest (vs ++ ws)).answers) = (st.advance rest (vs ++ ws)).done := by
    show st.done ++ rest.takeWhile (·.known (st.advance rest vs).answers) ++ _ =
      st.done ++ rest.takeWhile (·.known (st.advance rest (vs ++ ws)).answers)
    rw [List.append_assoc, takeWhile_append_takeWhile]
    intro l hl
    rw [← hanswers]
    exact Link.known_append hl
  conv_lhs => rw [advance]
  simp only [hanswers, hdone]
  rfl

theorem done_advance (h : vs.length = (pending (st.answers.map Prod.fst) rest).length) :
    (st.advance rest vs).done = st.done ++ rest := by
  have hkeys := keys_advance (Nat.le_of_eq h)
  rw [h, List.take_length] at hkeys
  refine congrArg (st.done ++ ·) ?_
  refine List.takeWhile_eq_self_iff.2 fun l hm => Link.known_iff.2 fun hc => hc.2 ?_
  show l.target ∈ (st.advance rest vs).answers.map Prod.fst
  rw [hkeys, List.mem_append]
  exact mem_or_mem_pending hm hc.1

/-- The stage after these answers have been given. -/
def after (links : List Link) (count : ℕ) (vs : List UInt32) (root : Option UInt32) : Stage :=
  { ({} : Stage).advance links vs with filled := count, root }

/-- The stages that lack the start word. -/
inductive Open (links : List Link) (count : ℕ) : List UInt32 → Stage → Prop
  /-- No call has been made. -/
  | first : Open links count [] {}
  /-- Calls have been made, and these answers given. -/
  | later (vs : List UInt32) : Open links count vs (after links count vs none)

variable {links : List Link} {count : ℕ} {r : Option UInt32}

theorem ok_empty (links : List Link) (count : ℕ) : ({} : Stage).Ok links count :=
  ⟨Nat.zero_le _, ⟨links, rfl⟩, nofun, nofun, nofun⟩

theorem ok_after (hvs : ∀ v ∈ vs, v.toNat ≠ 0 ∧ v.toNat % 2 = 0) :
    (after links count vs r).Ok links count :=
  { (ok_empty links count).advance rfl hvs with filled_le := Nat.le_refl _ }

theorem Open.ok (h : Open links count vs st) (hvs : ∀ v ∈ vs, v.toNat ≠ 0 ∧ v.toNat % 2 = 0) :
    st.Ok links count := by
  cases h with
  | first => exact ok_empty links count
  | later => exact ok_after hvs

theorem Open.root (h : Open links count vs st) : st.root = none := by
  cases h <;> rfl

theorem done_after (h : vs.length = (pending [] links).length) :
    (after links count vs r).done = links := done_advance h

variable (r) in
theorem advance_after (h : vs.length ≤ (pending [] links).length) (r' : Option UInt32) :
    { (after links count vs r).advance
      (links.dropWhile (·.known (after links count vs r).answers)) ws with
        filled := count, root := r' } = after links count (vs ++ ws) r' := by
  have h := @advance_advance links {} vs ws h
  exact congrArg (fun st : Stage => { st with filled := count, root := r' }) h

end Stage

/-! ## Calls -/

variable {σ : Type}

/-- The start word of a bundle in memory. -/
def Loader.startWord (l : Loader) : Except LoadError UInt32 := do
  let entries ← l.chunkEntries
  l.read 0 (4 * (entries + 1))

/-- Calls, one after the other, each with its own host, and what comes of each. -/
def Loader.calls : List (FileHost σ) → Hosted σ →
    List (Except LoadError LoadOutcome) × Hosted σ
  | [], s => ([], s)
  | host :: hosts, s =>
    match (init host).run s with
    | (result, s') => (result :: (calls hosts s').1, (calls hosts s').2)

/-- What is true of a loader and a host that keeps a list, after some calls. -/
structure Reached (a : Addressing) (order : ByteOrder) (bases : List UInt32) (f : ℕ → UInt8)
    (count : ℕ) (root : UInt32) (links : List Link) (name : UInt32 → String)
    (s : Hosted (σ × List Request)) : Prop where
  served : Served ((pending [] links).map name) s.host.2
  stage : ∃ st, s.loader = Stage.loader a order bases f count st ∧
    (Stage.Open links count (addresses s.host.2) st ∨
      st = Stage.after links count (addresses s.host.2) (some (addressOf a bases root)) ∧
        (addresses s.host.2).length = (pending [] links).length)

section

variable {a : Addressing} {order : ByteOrder} {f : ℕ → UInt8} {count : ℕ} {root table : UInt32}
  {links : List Link} {name : UInt32 → String} {bases : List UInt32}

theorem reached_first (h : σ) :
    Reached a order bases f count root links name ⟨({} : Stage).loader a order bases f count, h, []⟩ :=
  ⟨.stop _, {}, rfl, Or.inl .first⟩

variable (hl : Linked a order f bases.length count root table links name)
  (hu : ∀ base ∈ bases, Usable a base)
include hl hu

namespace Linked

theorem startWord {st : Stage} (ho : st.Ok links count) :
    (st.loader a order bases f count).startWord =
      .ok (st.root.getD (a.positionAt root Position.unresolvedFlag).word) := by
  rw [Loader.startWord, hl.chunkEntries hu ho]
  exact hl.read_start bases ho

/-- **A call that finds the start word unresolved.** -/
theorem run_init_open {vs : List UInt32} {st : Stage} (hs : Stage.Open links count vs st)
    (hvs : ∀ v ∈ vs, v.toNat ≠ 0 ∧ v.toNat % 2 = 0) (hlen : vs.length ≤ (pending [] links).length)
    (host : FileHost σ) (h : σ) :
    @Eq (Except LoadError LoadOutcome × Hosted σ)
      ((Loader.init host).run ⟨st.loader a order bases f count, h⟩)
      (match host.answers (((pending [] links).drop vs.length).map name) h with
        | (ws, none, h') =>
          (.ok { root := addressOf a bases root, fixupsApplied := links.length - st.done.length,
                 runtimeLoads := ws.length },
            ⟨(Stage.after links count (vs ++ ws) (some (addressOf a bases root))).loader
              a order bases f count, h'⟩)
        | (ws, some e, h') =>
          (.error e, ⟨(Stage.after links count (vs ++ ws) none).loader a order bases f count, h'⟩)) := by
  cases hs with
  | first => exact hl.run_init host hu (Stage.ok_empty links count) rfl rfl h
  | later vs =>
    have hcut : links = (Stage.after links count vs none).done ++
        links.dropWhile (·.known (Stage.after links count vs none).answers) :=
      List.takeWhile_append_dropWhile.symm
    have hcount := congrArg List.length hcut
    have hpending : pending ((Stage.after links count vs none).answers.map Prod.fst)
        (links.dropWhile (·.known (Stage.after links count vs none).answers)) =
          (pending [] links).drop vs.length :=
      pending_dropWhile (@Stage.keys_advance links {} vs hlen)
    have hrun := hl.run_init host hu (Stage.ok_after hvs) hcut rfl h
    rw [hpending] at hrun
    rw [hrun]
    rw [List.length_append] at hcount
    rcases host.answers (((pending [] links).drop vs.length).map name) h with ⟨ws, _ | e, h'⟩
    · simp only
      rw [← Stage.advance_after none hlen (some (addressOf a bases root)), hcount,
        Nat.add_sub_cancel_left]
    · simp only
      rw [← Stage.advance_after none hlen none]
      rfl

/-- **What one call does**, whatever has been done before. -/
theorem call {s s' : Hosted (σ × List Request)} (hs : Reached a order bases f count root links name s)
    {host : FileHost σ} {result : Except LoadError LoadOutcome}
    (h : @Eq (Except LoadError LoadOutcome × Hosted (σ × List Request))
      ((Loader.init host.logged).run s) (result, s')) :
    Reached a order bases f count root links name s' ∧
      (∀ e, result = .error e → s'.loader.startWord =
        .ok (a.positionAt root Position.unresolvedFlag).word) ∧
      ∃ new, s'.host.2 = s.host.2 ++ new ∧ ((∀ r ∈ new, r.address?.isSome = true) →
        (∃ o, result = .ok o ∧ o.root = addressOf a bases root) ∧
        (addresses s'.host.2).length = (pending [] links).length ∧
        s'.loader = (Stage.after links count (addresses s'.host.2)
          (some (addressOf a bases root))).loader a order bases f count) := by
  obtain ⟨loader, g, log⟩ := s
  obtain ⟨hserved, st, hloader, hst⟩ := hs
  simp only at hserved hloader hst
  subst hloader
  have heven : ∀ v ∈ addresses log, v.toNat ≠ 0 ∧ v.toNat % 2 = 0 := fun v => addresses_even
  have hlen : (addresses log).length ≤ (pending [] links).length := by
    simpa using hserved.length_le
  rcases hst with hopen | ⟨rfl, hall⟩
  · -- the start word is not resolved: the host is asked for the records that are pending
    obtain ⟨new, hnew, hmore, hws, hnone, hcount⟩ :=
      host.answers_logged (((pending [] links).drop (addresses log).length).map name) g log
    have hrun := hl.run_init_open hu hopen heven hlen host.logged (g, log)
    rw [List.map_drop] at hmore
    have hserved' := hserved.append hmore
    rcases hans : host.answers (((pending [] links).drop (addresses log).length).map name) g with
      ⟨ws, _ | e, g'⟩
    · simp only [hans] at hnew hws hnone hcount
      subst hws
      have hvalid := hnone.1 trivial
      have hlen' : (addresses log ++ addresses new).length = (pending [] links).length := by
        rw [List.length_append, length_addresses hvalid, hcount trivial, List.length_map,
          List.length_drop]
        omega
      rw [h, hnew] at hrun
      simp only [Prod.mk.injEq] at hrun
      obtain ⟨rfl, rfl⟩ := hrun
      rw [← addresses_append] at hlen' ⊢
      exact ⟨⟨hserved', _, rfl, Or.inr ⟨rfl, hlen'⟩⟩, nofun, new, rfl,
        fun _ => ⟨⟨_, rfl, rfl⟩, hlen', rfl⟩⟩
    · simp only [hans, reduceCtorEq, false_iff] at hnew hws hnone
      subst hws
      rw [h, hnew] at hrun
      simp only [Prod.mk.injEq] at hrun
      obtain ⟨rfl, rfl⟩ := hrun
      rw [← addresses_append]
      exact ⟨⟨hserved', _, rfl, Or.inl (.later _)⟩,
        fun _ _ => hl.startWord hu (Stage.ok_after fun v => addresses_even), new, rfl,
        fun hvalid => absurd hvalid hnone⟩
  · -- it is: nothing is asked for
    have hrun := hl.run_init_done host.logged hu (Stage.ok_after heven) rfl (g, log)
    rw [h] at hrun
    simp only [Prod.mk.injEq] at hrun
    obtain ⟨rfl, rfl⟩ := hrun
    exact ⟨⟨hserved, _, rfl, Or.inr ⟨rfl, hall⟩⟩, nofun, [], (List.append_nil _).symm,
      fun _ => ⟨⟨_, rfl, rfl⟩, hall, rfl⟩⟩

/-- **What calls do**, one after the other. -/
theorem calls (hosts : List (FileHost σ)) {s : Hosted (σ × List Request)}
    (hs : Reached a order bases f count root links name s) :
    Reached a order bases f count root links name
      (Loader.calls (hosts.map FileHost.logged) s).2 := by
  induction hosts generalizing s with
  | nil => exact hs
  | cons host hosts ih =>
    rw [List.map_cons, Loader.calls]
    rcases hrun : (Loader.init host.logged).run s with ⟨result, s'⟩
    exact ih (hl.call hu hs hrun).1

end Linked

end

end LevelBundle
