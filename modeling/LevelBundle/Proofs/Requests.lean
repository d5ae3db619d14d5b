/-
  LevelBundle — what a host is asked for.

  * `FileHost.logged`: a host that keeps a list of its requests.
  * `Served names log`: each name is asked for until an address is answered, then the
    next; no name is asked for after that.
  * `answers_logged`: this is how a loader asks for some names.
-/
import LevelBundle.Proofs.Resolving

namespace LevelBundle

/-- A request: the name of a file, and what the host answers. -/
abbrev Request := String × Except String UInt32

/-- The address that is answered, if it can be used. -/
def Request.address? (r : Request) : Option UInt32 :=
  match r.2 with
  | .ok v => if v = 0 ∨ v % 2 ≠ 0 then none else some v
  | .error _ => none

/-- The addresses that have been answered. -/
def addresses (log : List Request) : List UInt32 := log.filterMap Request.address?

/-- A host that keeps a list of its requests. -/
def FileHost.logged {σ : Type} (host : FileHost σ) : FileHost (σ × List Request) := fun name => do
  let s ← get
  let (answer, h) := (host name).run s.1
  set (h, s.2 ++ [(name, answer)])
  return answer

/-- Requests for some names: each is asked for until an address is answered that can be
    used, then the next. -/
inductive Served : List String → List Request → Prop
  /-- No more requests. -/
  | stop (names : List String) : Served names []
  /-- No address is answered. -/
  | again {names : List String} {r : Request} {log : List Request} : r.address? = none →
    Served (r.1 :: names) log → Served (r.1 :: names) (r :: log)
  /-- An address is answered. -/
  | next {names : List String} {r : Request} {log : List Request} {v : UInt32} :
    r.address? = some v → Served names log → Served (r.1 :: names) (r :: log)

/-! ## Requests -/

section

variable {names : List String} {log new : List Request}

theorem addresses_append (log new : List Request) :
    addresses (log ++ new) = addresses log ++ addresses new := List.filterMap_append

/-- Every address that has been answered can be used. -/
theorem addresses_even {v : UInt32} (h : v ∈ addresses log) : v.toNat ≠ 0 ∧ v.toNat % 2 = 0 := by
  obtain ⟨⟨name, r⟩, -, hr⟩ := List.mem_filterMap.1 h
  unfold Request.address? at hr
  split at hr
  · split_ifs at hr with hc
    rw [Option.some.injEq] at hr
    subst hr
    rw [not_or, not_not] at hc
    refine ⟨fun h0 => hc.1 (UInt32.toNat_inj.1 h0), ?_⟩
    have := congrArg UInt32.toNat hc.2
    rwa [UInt32.toNat_mod] at this
  · cases hr

theorem exists_mem_of_mem_addresses {v : UInt32} (h : v ∈ addresses log) :
    ∃ name, (name, .ok v) ∈ log := by
  obtain ⟨⟨name, r⟩, hm, hr⟩ := List.mem_filterMap.1 h
  unfold Request.address? at hr
  split at hr
  · rename_i w hw
    split_ifs at hr
    cases hr
    exact ⟨name, hw ▸ hm⟩
  · cases hr

theorem Served.length_le (h : Served names log) : (addresses log).length ≤ names.length := by
  induction h with
  | stop names => exact Nat.zero_le _
  | again hr _ ih => rwa [addresses, List.filterMap_cons_none hr]
  | next hr _ ih =>
    rw [addresses, List.filterMap_cons_some hr, List.length_cons, List.length_cons]
    exact Nat.succ_le_succ ih

theorem length_addresses (h : ∀ r ∈ log, r.address?.isSome = true) :
    (addresses log).length = log.length := by
  induction log with
  | nil => rfl
  | cons r log ih =>
    rw [List.forall_mem_cons] at h
    obtain ⟨v, hv⟩ := Option.isSome_iff_exists.1 h.1
    rw [addresses, List.filterMap_cons_some hv, List.length_cons, List.length_cons]
    exact congrArg (· + 1) (ih h.2)

theorem Served.append (h : Served names log)
    (hn : Served (names.drop (addresses log).length) new) : Served names (log ++ new) := by
  induction h with
  | stop names => exact hn
  | again hr _ ih =>
    rw [addresses, List.filterMap_cons_none hr] at hn
    exact .again hr (ih hn)
  | next hr _ ih =>
    rw [addresses, List.filterMap_cons_some hr, List.length_cons, List.drop_succ_cons] at hn
    exact .next hr (ih hn)

/-- If every request has been answered with an address, each of the first names has been
    asked for once. -/
theorem Served.names_eq (h : Served names log) (hall : ∀ r ∈ log, r.address?.isSome = true) :
    log.map Prod.fst = names.take log.length := by
  induction h with
  | stop names => rw [List.length_nil, List.take_zero, List.map_nil]
  | again hr _ _ =>
    have := hall _ List.mem_cons_self
    rw [hr] at this
    cases this
  | next _ _ ih =>
    rw [List.map_cons, List.length_cons, List.take_succ_cons,
      ih fun r hm => hall r (List.mem_cons_of_mem _ hm)]

end

/-! ## Hosts that keep a list -/

variable {σ : Type} (host : FileHost σ)

theorem FileHost.run_logged (name : String) (h : σ) (log : List Request) :
    (host.logged name).run (h, log) = (((host name).run h).1,
      (((host name).run h).2, log ++ [(name, ((host name).run h).1)])) := rfl

/-- What a host that keeps a list answers. -/
theorem FileHost.answer_logged (name : String) (h : σ) (log : List Request) :
    ∃ r : Request, r.1 = name ∧
      host.logged.answer name (h, log) =
        ((host.answer name h).1, ((host.answer name h).2, log ++ [r])) ∧
      ∀ v, r.address? = some v ↔ (host.answer name h).1 = .ok v := by
  refine ⟨(name, ((host name).run h).1), rfl, ?_, fun v => ?_⟩
  · unfold answer
    rw [run_logged]
    rcases (host name).run h with ⟨_ | w, h'⟩
    · rfl
    · simp only
      split_ifs <;> rfl
  · unfold answer Request.address?
    rcases (host name).run h with ⟨_ | w, h'⟩
    · exact ⟨nofun, nofun⟩
    · simp only
      split_ifs
      · exact ⟨nofun, nofun⟩
      · simp only [Option.some.injEq, Except.ok.injEq]

/-- **How a loader asks for some names.** -/
theorem FileHost.answers_logged (names : List String) (h : σ) (log : List Request) :
    ∃ new, host.logged.answers names (h, log) = ((host.answers names h).1,
        (host.answers names h).2.1, ((host.answers names h).2.2, log ++ new)) ∧
      Served names new ∧ addresses new = (host.answers names h).1 ∧
      ((host.answers names h).2.1 = none ↔ ∀ r ∈ new, r.address?.isSome = true) ∧
      ((host.answers names h).2.1 = none → new.length = names.length) := by
  induction names generalizing h log with
  | nil =>
    refine ⟨[], ?_, .stop [], rfl, ?_, fun _ => rfl⟩
    · rw [answers, answers, List.append_nil]
    · simp [answers]
  | cons name names ih =>
    obtain ⟨r, rfl, hlogged, hr⟩ := host.answer_logged name h log
    rw [answers, hlogged, answers]
    rcases hans : host.answer r.1 h with ⟨e | v, h'⟩
    · have hnone : r.address? = none := by
        rw [Option.eq_none_iff_forall_ne_some]
        intro v hv
        rw [hr, hans] at hv
        cases hv
      exact ⟨[r], rfl, .again hnone (.stop _), by simp [addresses, hnone], by simp [hnone],
        fun he => by cases he⟩
    · have hsome : r.address? = some v := (hr v).2 (by rw [hans])
      obtain ⟨new, h1, h2, h3, h4, h5⟩ := ih h' (log ++ [r])
      refine ⟨r :: new, ?_, .next hsome h2, ?_, ?_, fun he => ?_⟩
      · simp only [h1, List.append_assoc, List.singleton_append]
      · rw [addresses, List.filterMap_cons_some hsome]
        exact congrArg (v :: ·) h3
      · rw [List.forall_mem_cons, hsome]
        simpa using h4
      · rw [List.length_cons, List.length_cons, h5 he]

end LevelBundle
