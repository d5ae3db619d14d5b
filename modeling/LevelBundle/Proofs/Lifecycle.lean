/-
  LevelBundle — a bundle from its script to memory.

  * `build_load`: a build that succeeds can be loaded at any addresses that are accepted,
    and then everything that the root leads to is held with its references resolved.
  * `build_calls`: calls that fail lose nothing and ask for nothing twice; the first call
    that is not refused an address leaves what one call would have left.
  * `build_requests`: each file is asked for once, by its name up to the first zero
    character.
-/
import LevelBundle.Proofs.Mounted

namespace LevelBundle

variable {σ : Type}

/-! ## Hosts -/

/-- A host that answers every name with an address that can be used. -/
def FileHost.Complete (host : FileHost σ) : Prop :=
  ∀ name h, ∃ v h', (host name).run h = (.ok v, h') ∧ v ≠ 0 ∧ v % 2 = 0

/-- Such a host answers all names that it is asked for. -/
theorem FileHost.Complete.answers {host : FileHost σ} (hc : host.Complete) (names : List String)
    (h : σ) : ∃ vs h', host.answers names h = (vs, none, h') := by
  induction names generalizing h with
  | nil => exact ⟨[], h, rfl⟩
  | cons name names ih =>
    obtain ⟨v, h₁, hrun, h0, h2⟩ := hc name h
    obtain ⟨vs, h₂, hans⟩ := ih h₁
    have hv : host.answer name h = (.ok v, h₁) := by
      rw [FileHost.answer, hrun]
      exact if_neg (by rw [not_or, not_not]; exact ⟨h0, h2⟩)
    refine ⟨v :: vs, h₂, ?_⟩
    rw [FileHost.answers, hv]
    simp only [hans]

/-- The addresses that some records hold. -/
theorem map_answerAt_zip {rs vs : List UInt32} (hn : rs.Nodup) (hlen : vs.length = rs.length) :
    rs.map (fun r => answerAt (rs.zip vs) r.toNat) = vs.map some := by
  induction rs generalizing vs with
  | nil => rw [List.length_eq_zero_iff.1 hlen, List.map_nil, List.map_nil]
  | cons r rs ih =>
    obtain ⟨hr, hn⟩ := List.nodup_cons.1 hn
    cases vs with
    | nil => cases hlen
    | cons v vs =>
      rw [List.zip_cons_cons, List.map_cons, List.map_cons, ← ih hn (Nat.succ_inj.1 hlen)]
      congr 1
      · simp [answerAt]
      · refine List.map_congr_left fun r' hr' => ?_
        have hne : ¬ r.toNat = r'.toNat := fun he => hr (UInt32.toNat_inj.1 he ▸ hr')
        simp [answerAt, hne]

/-- The addresses that have been answered for some records. -/
theorem exists_answer {ids : List SectionId} {place : SectionId → UInt32} {vs : List UInt32}
    (hn : (ids.map place).Nodup) (hlen : vs.length = ids.length) :
    ∃ answer : SectionId → UInt32, ids.map answer = vs ∧
      ∀ id ∈ ids, answerAt ((ids.map place).zip vs) (place id).toNat = some (answer id) := by
  have hall := map_answerAt_zip hn (by rw [hlen, List.length_map])
  rw [List.map_map] at hall
  refine ⟨fun id => (answerAt ((ids.map place).zip vs) (place id).toNat).getD 0, ?_,
    fun id hid => ?_⟩
  · calc ids.map (fun id => (answerAt ((ids.map place).zip vs) (place id).toNat).getD 0)
      _ = (vs.map some).map (·.getD 0) := by rw [← hall, List.map_map]; rfl
      _ = vs := by simp
  · have hmem := List.mem_map_of_mem (f := (fun r => answerAt ((ids.map place).zip vs) r.toNat) ∘
      place) hid
    rw [hall] at hmem
    obtain ⟨v, -, hv⟩ := List.mem_map.1 hmem
    have hv : answerAt ((ids.map place).zip vs) (place id).toNat = some v := hv.symm
    simp only [hv, Option.getD_some]

/-! ## Resolved bundles -/

/-- A bundle in memory with its references resolved. -/
structure Resolved (b : Bundle) (order : ByteOrder) (bases : List UInt32) (p q : Program)
    (answer : SectionId → UInt32) (l : Loader) : Prop where
  /-- The chunks have the size that the bundle says. -/
  chunkSize : l.addressing.chunkSize = b.chunkSize
  /-- They lie at their addresses. -/
  base : ∀ i, l.memory.baseAt i = bases.getD i 0
  /-- What the root leads to is placed, and held there with its references resolved. -/
  holds : ∀ {ref}, p.Leads ref → ∃ o, q.offsetOf? ref = some o ∧
    l.Holds o.toNat (p.loaded order (fun ref => b.address bases (q.place ref)) answer ref)

namespace Mounted

variable {k : Packer} {p q : Program} {b : Bundle} {refs : List UInt32} {links : List Link}
  {records : List (SectionId × String)} {bases : List UInt32} {l : Loader}
  (hm : Mounted k p q b refs links records bases l)
include hm

theorem addressOf_eq (o : UInt32) : addressOf k.addressing bases o = b.address bases o := by
  rw [addressOf, Bundle.address, hm.chunkSize]

theorem length_links : links.length = b.fixupCount := by
  rw [hm.fixupCount, ← hm.slots, List.length_map]

theorem length_pending : (pending [] links).length = records.length := by
  rw [hm.places, List.length_map]

/-- **When all answers have been given**, the bundle is resolved. -/
theorem resolved {vs : List UInt32} (hlen : vs.length = records.length)
    (hvs : ∀ v ∈ vs, v.toNat ≠ 0 ∧ v.toNat % 2 = 0) {r : Option UInt32} :
    ∃ answer : SectionId → UInt32, records.map (fun e => answer e.1) = vs ∧
      Resolved b k.options.order bases p q answer
        ((Stage.after links b.chunkCount.toNat vs r).loader k.addressing k.options.order bases
          (fileOf b.bytes.toList) b.chunkCount.toNat) := by
  obtain ⟨ctx, pad, s, hf⟩ := hm.filed
  obtain ⟨t, name, hl, -⟩ := hm.linked
  have hplaces : pending [] links = (records.map Prod.fst).map fun id => q.place (.level id) := by
    rw [hm.places, List.map_map]
    rfl
  have hpending : vs.length = (pending [] links).length := by rw [hlen, hm.length_pending]
  obtain ⟨answer, hmap, hanswer⟩ := exists_answer (hplaces ▸ nodup_pending.1)
    (show vs.length = (records.map Prod.fst).length by rwa [List.length_map])
  rw [← hplaces] at hanswer
  refine ⟨answer, by rwa [List.map_map] at hmap, hm.chunkSize.symm, fun i => Memory.baseAt_holding,
    fun {ref} hr => ⟨q.place ref, hf.laidout.placed hr, ?_⟩⟩
  have hloaded := hf.holds_loaded hm.slots hm.refers hm.length hl (Stage.ok_after hvs)
    (@Stage.done_after vs links b.chunkCount.toNat r hpending) (fun {id filename} hr hs =>
      hanswer id (List.mem_map_of_mem (hm.asked.mem_iff.2 ⟨hr, hs⟩))) hr
  simpa only [hm.addressOf_eq] using hloaded

/-- **The first call**, if the host answers all names. -/
theorem run_init_first {host : FileHost σ} {h h' : σ} {vs : List UInt32}
    (hans : host.answers (records.map fun e => upToZero e.2) h = (vs, none, h')) :
    @Eq (Except LoadError LoadOutcome × Hosted σ) ((Loader.init host).run ⟨l, h⟩)
      (.ok { root := b.address bases (q.place (.level p.root)), fixupsApplied := b.fixupCount,
             runtimeLoads := records.length },
        ⟨(Stage.after links b.chunkCount.toNat vs
          (some (b.address bases (q.place (.level p.root))))).loader k.addressing k.options.order
            bases (fileOf b.bytes.toList) b.chunkCount.toNat, h'⟩) := by
  obtain ⟨t, name, hl, hname⟩ := hm.linked
  have hlen := FileHost.length_answers hans
  rw [List.length_map] at hlen
  have hrun := hl.run_init_open hm.usable .first nofun (Nat.zero_le _) host h
  rw [List.length_nil, List.drop_zero, hname, hans] at hrun
  rw [hm.loader, hrun]
  simp only [List.length_nil, Nat.sub_zero, hm.length_links, hm.addressOf_eq, hlen, List.nil_append]

end Mounted

/-! ## From a script to memory -/

section

variable {s : Settings} {files : Files} {script : Path} {b : Bundle} {stats : BuildStats}

/-- **Building, then loading.**  For every list of addresses that a loader accepts and every
    host that answers all names, the first call succeeds; it applies all fixups, answers
    the address of the root, and leaves the bundle resolved. -/
theorem build_load (hs : Buildable s files script) (hfix : s.pack.fixups ≠ .absent)
    (hbuild : (build s files script).result = .ok (b, stats)) :
    ∃ image table p q, Image.ofBytes b.bytes b.chunkSize s.pack.order = .ok image ∧
      Built s files script table p q b ∧ ∀ {bases l}, image.loader bases = .ok l →
        ∀ {σ : Type} {host : FileHost σ}, host.Complete → ∀ h : σ,
          ∃ records answer l' h', p.Records records ∧
            host.answers (records.map fun e => upToZero e.2) h =
              (records.map fun e => answer e.1, none, h') ∧
            @Eq (Except LoadError LoadOutcome × Hosted σ) ((Loader.init host).run ⟨l, h⟩)
              (.ok { root := b.address bases (q.place (.level p.root))
                     fixupsApplied := b.fixupCount
                     runtimeLoads := records.length
                     alreadyResolved := false }, ⟨l', h'⟩) ∧
            Resolved b s.pack.order bases p q answer l' := by
  obtain ⟨table, p, q, hbuilt⟩ := build_eq_ok hbuild
  obtain ⟨image, k, refs, links, records, himage, hopt, hrecords, hmounted⟩ := hbuilt.image hs hfix
  refine ⟨image, table, p, q, himage, hbuilt, fun {bases l} hl {σ host} hc h => ?_⟩
  have hm := hmounted hl
  obtain ⟨vs, h', hans⟩ := hc.answers (records.map fun e => upToZero e.2) h
  have hlen := FileHost.length_answers hans
  rw [List.length_map] at hlen
  obtain ⟨answer, hanswer, hresolved⟩ := hm.resolved hlen (FileHost.answers_even hans)
  rw [hopt] at hresolved
  exact ⟨records, answer, _, h', hrecords, by rw [hanswer, hans], by rw [hm.run_init_first hans, hopt],
    hresolved⟩

/-- **Calls that fail can be resumed.**  After any calls, one more call keeps the order of
    the requests, in which no record is asked for again once it has an address.  If it
    fails, the start word is what it was in the file.  If none of its requests is refused
    an address, it succeeds, and the bundle is what one call would have made of it for a
    host that answers these addresses at once. -/
theorem build_calls (hs : Buildable s files script) (hfix : s.pack.fixups ≠ .absent)
    (hbuild : (build s files script).result = .ok (b, stats)) :
    ∃ image table p q records, Image.ofBytes b.bytes b.chunkSize s.pack.order = .ok image ∧
      Built s files script table p q b ∧ p.Records records ∧
      ∀ {bases l}, image.loader bases = .ok l →
        ∀ {σ : Type} (hosts : List (FileHost σ)) (host : FileHost σ) (h : σ) {results s₁ result s₂},
          Loader.calls (hosts.map FileHost.logged) ⟨l, h, []⟩ = (results, s₁) →
          @Eq (Except LoadError LoadOutcome × Hosted (σ × List Request))
            ((Loader.init host.logged).run s₁) (result, s₂) →
          Served (records.map fun e => upToZero e.2) s₂.host.2 ∧
          (∀ e, result = .error e → s₂.loader.startWord = .ok b.start.word ∧
            Slot.ofWord b.start.word = .unresolved b.start) ∧
          ∃ new, s₂.host.2 = s₁.host.2 ++ new ∧ ((∀ r ∈ new, r.address?.isSome = true) →
            ∃ o, result = .ok o ∧ (addresses s₂.host.2).length = records.length ∧
              ∀ {τ : Type} (once : FileHost τ) (g g' : τ),
                once.answers (records.map fun e => upToZero e.2) g =
                  (addresses s₂.host.2, none, g') →
                @Eq (Except LoadError LoadOutcome × Hosted τ) ((Loader.init once).run ⟨l, g⟩)
                  (.ok { root := o.root, fixupsApplied := b.fixupCount
                         runtimeLoads := records.length }, ⟨s₂.loader, g'⟩)) := by
  obtain ⟨table, p, q, hbuilt⟩ := build_eq_ok hbuild
  obtain ⟨image, k, refs, links, records, himage, -, hrecords, hmounted⟩ := hbuilt.image hs hfix
  refine ⟨image, table, p, q, records, himage, hbuilt, hrecords,
    fun {bases l} hl {σ} hosts host h {results s₁ result s₂} hcalls hinit => ?_⟩
  have hm := hmounted hl
  obtain ⟨t, name, hlinked, hname⟩ := hm.linked
  have hreached := hlinked.calls hm.usable hosts (hm.loader ▸ reached_first h)
  rw [hcalls] at hreached
  obtain ⟨hreached', herror, new, hnew, hvalid⟩ := hlinked.call hm.usable hreached hinit
  refine ⟨hname ▸ hreached'.served, fun e he => ?_, new, hnew, fun hall => ?_⟩
  · rw [hm.start]
    exact ⟨herror e he, Slot.ofWord_of_isUnresolved (Position.isUnresolved_of_flags
      (Addressing.flags_positionAt hlinked.root_inside.reaches (by decide)) (by decide))⟩
  · obtain ⟨⟨o, ho, hroot⟩, hlen, hloader⟩ := hvalid hall
    refine ⟨o, ho, hlen.trans hm.length_pending, fun {τ} once g g' hans => ?_⟩
    rw [hm.run_init_first hans, hloader, hroot, hm.addressOf_eq]

/-- **What a host is asked for.**  The first call, if it succeeds, asks once for each file
    that a section refers to, in the name up to the first zero character.  These are the
    names of the files just if there is no such character in any. -/
theorem build_requests (hs : Buildable s files script) (hfix : s.pack.fixups ≠ .absent)
    (hbuild : (build s files script).result = .ok (b, stats)) :
    ∃ image table p q names, Image.ofBytes b.bytes b.chunkSize s.pack.order = .ok image ∧
      Built s files script table p q b ∧ List.Nodup names ∧
      (∀ filename, filename ∈ names ↔ ∃ id record, p.Leads (.level id) ∧
        Part.runtimeFile filename record ∈ (p.sectionAt id).parts) ∧
      (∀ filename ∈ names, table.Loads filename) ∧
      ∀ {bases l}, image.loader bases = .ok l →
        ∀ {σ : Type} (host : FileHost σ) (h : σ) {outcome s'},
          @Eq (Except LoadError LoadOutcome × Hosted (σ × List Request))
            ((Loader.init host.logged).run ⟨l, h, []⟩) (.ok outcome, s') →
          s'.host.2.map Prod.fst = names.map upToZero ∧
            ((s'.host.2.map Prod.fst).Perm names ↔
              ∀ filename ∈ names, '\x00' ∉ filename.toList) := by
  obtain ⟨table, p, q, hbuilt⟩ := build_eq_ok hbuild
  obtain ⟨image, k, refs, links, records, himage, -, hrecords, hmounted⟩ := hbuilt.image hs hfix
  obtain ⟨-, hsound⟩ := (hbuilt.fresh hs).sound
  have hfiles {filename : String} : filename ∈ records.map Prod.snd ↔ _ :=
    hrecords.mem_files hsound
  refine ⟨image, table, p, q, records.map Prod.snd, himage, hbuilt, hrecords.nodup_files hsound,
    fun filename => hfiles, fun filename hm => ?_, fun {bases l} hl {σ} host h {outcome s'} hinit => ?_⟩
  · obtain ⟨id, record, -, hpart⟩ := hfiles.1 hm
    exact (hsound.part hpart).2
  have hm := hmounted hl
  obtain ⟨t, name, hlinked, hname⟩ := hm.linked
  have hnames : s'.host.2.map Prod.fst = (records.map Prod.snd).map upToZero := by
    have hrun := hlinked.run_init_open hm.usable .first nofun (Nat.zero_le _) host.logged (h, [])
    obtain ⟨new, hnew, hserved, -, hnone, hcount⟩ :=
      host.answers_logged (records.map fun e => upToZero e.2) h []
    rw [← hm.loader, hinit, List.length_nil, List.drop_zero, hname, hnew] at hrun
    rcases hans : host.answers (records.map fun e => upToZero e.2) h with ⟨ws, _ | e, g'⟩
    · simp only [hans] at hrun hnone hcount
      simp only [Prod.mk.injEq] at hrun
      rw [hrun.2]
      simp only [List.nil_append]
      rw [hserved.names_eq (hnone.1 trivial), hcount trivial,
        List.take_length, List.map_map]
      rfl
    · rw [hans] at hrun
      cases hrun
  refine ⟨hnames, ?_⟩
  rw [hnames]
  constructor
  · intro hperm filename hf
    obtain ⟨text, -, rfl⟩ := List.mem_map.1 (hperm.mem_iff.2 hf)
    exact not_mem_upToZero text
  · intro hnone
    have hsame : (records.map Prod.snd).map upToZero = records.map Prod.snd :=
      (List.map_congr_left fun filename hf => upToZero_eq_self_iff.2 (hnone filename hf)).trans
        (List.map_id _)
    rw [hsame]

end

/-! ## A small bundle in memory -/

namespace Demo

/-- A host that has one address for all files. -/
def host : FileHost Unit := fun _ => pure (.ok 65536)

/-- A host that has no files. -/
def refusing : FileHost Unit := fun name => pure (.error ("no file " ++ name))

theorem host_complete : host.Complete := fun _ _ => ⟨65536, (), rfl, by decide, by decide⟩

theorem host_answers (names : List String) :
    host.answers names () = (names.map fun _ => 65536, none, ()) := by
  induction names with
  | nil => rfl
  | cons name names ih =>
    have hv : host.answer name () = (.ok 65536, ()) := rfl
    rw [FileHost.answers, hv]
    simp only [ih, List.map_cons]

/-- The bundle in memory. -/
def loader? : Option Loader := do
  let (b, _) ← (build settings files path).result.toOption
  let image ← (Image.ofBytes b.bytes b.chunkSize settings.pack.order).toOption
  (image.loader [4096]).toOption

/-- Which of some calls succeed, and their requests. -/
def trace (hosts : List (FileHost Unit)) : List Bool × List Request :=
  match loader? with
  | some l =>
    let (results, s) := Loader.calls (hosts.map FileHost.logged) ⟨l, (), []⟩
    (results.map Except.isOk, s.host.2)
  | none => ([], [])

theorem trace_eq : trace [host] = ([true], [("a", .ok 65536)]) ∧
    trace [refusing] = ([false], [("a", .error "no file a")]) ∧
    trace [refusing, host] = ([false, true], [("a", .error "no file a"), ("a", .ok 65536)]) := by
  simp only [trace, loader?, build, Program.pack, Packer.pack, Packer.emit, mergeSort_entries]
  decide +kernel

/-- The bundle is built, and put in memory. -/
theorem exists_loader : ∃ b stats image l, (build settings files path).result = .ok (b, stats) ∧
    Image.ofBytes b.bytes b.chunkSize settings.pack.order = .ok image ∧
      image.loader [4096] = .ok l ∧ loader? = some l := by
  have hr := trace_eq.1
  unfold trace at hr
  rcases hl : loader? with _ | l
  · rw [hl] at hr
    cases hr
  have hstages := hl
  obtain ⟨⟨b, stats⟩, hb, hstages⟩ := Option.bind_eq_some_iff.1 hstages
  obtain ⟨image, hi, hl'⟩ := Option.bind_eq_some_iff.1 hstages
  exact ⟨b, stats, image, l, ok_of_toOption hb, ok_of_toOption hi, ok_of_toOption hl', rfl⟩

end Demo

/-- A small bundle, loaded. -/
theorem build_load_demo : ∃ b stats image l outcome s',
    (build Demo.settings Demo.files Demo.path).result = .ok (b, stats) ∧
      Image.ofBytes b.bytes b.chunkSize .little = .ok image ∧ image.loader [4096] = .ok l ∧
      @Eq (Except LoadError LoadOutcome × Hosted Unit) ((Loader.init Demo.host).run ⟨l, ()⟩)
        (.ok outcome, s') ∧ outcome.fixupsApplied = b.fixupCount ∧
      ∃ p q answer, Resolved b .little [4096] p q answer s'.loader := by
  obtain ⟨b, stats, image, l, hb, hi, hl, -⟩ := Demo.exists_loader
  obtain ⟨image', table, p, q, hi', -, hload⟩ := build_load Demo.buildable (by decide) hb
  obtain rfl : image = image' := Except.ok.inj (hi.symm.trans hi')
  obtain ⟨records, answer, l', h', -, -, hrun, hresolved⟩ := hload hl Demo.host_complete ()
  exact ⟨b, stats, image, l, _, _, hb, hi, hl, hrun, rfl, p, q, answer, hresolved⟩

/-- A small bundle, loaded in two calls. -/
theorem build_calls_demo : ∃ b stats image l outcome s',
    (build Demo.settings Demo.files Demo.path).result = .ok (b, stats) ∧
      Image.ofBytes b.bytes b.chunkSize .little = .ok image ∧ image.loader [4096] = .ok l ∧
      (∃ e s₁, @Eq (Except LoadError LoadOutcome × Hosted (Unit × List Request))
          ((Loader.init Demo.refusing.logged).run ⟨l, (), []⟩) (.error e, s₁) ∧
        s₁.loader.startWord = .ok b.start.word ∧
        @Eq (Except LoadError LoadOutcome × Hosted (Unit × List Request))
          ((Loader.init Demo.host.logged).run s₁) (.ok outcome, s')) ∧
      @Eq (Except LoadError LoadOutcome × Hosted Unit) ((Loader.init Demo.host).run ⟨l, ()⟩)
        (.ok { root := outcome.root, fixupsApplied := b.fixupCount, runtimeLoads := 1 },
          ⟨s'.loader, ()⟩) := by
  obtain ⟨b, stats, image, l, hb, hi, hl, hloader⟩ := Demo.exists_loader
  obtain ⟨image', table, p, q, records, hi', -, -, hcalls⟩ :=
    build_calls Demo.buildable (by decide) hb
  obtain rfl : image = image' := Except.ok.inj (hi.symm.trans hi')
  obtain ⟨-, hfirst, hboth⟩ := Demo.trace_eq
  simp only [Demo.trace, hloader] at hfirst hboth
  rcases h₁ : (Loader.init Demo.refusing.logged).run ⟨l, (), []⟩ with ⟨_ | o, s₁⟩
  rotate_left
  · simp only [List.map_cons, List.map_nil, Loader.calls, h₁] at hfirst
    cases hfirst
  rename_i e
  rcases h₂ : (Loader.init Demo.host.logged).run s₁ with ⟨_ | o, s₂⟩
  · simp only [List.map_cons, List.map_nil, Loader.calls, h₁, h₂] at hboth
    cases hboth
  simp only [List.map_cons, List.map_nil, Loader.calls, h₁, h₂, Prod.mk.injEq] at hfirst hboth
  obtain ⟨-, hstart, -⟩ := hcalls hl [] Demo.refusing () rfl h₁
  have hone : Loader.calls ([Demo.refusing].map FileHost.logged) ⟨l, (), []⟩ = ([.error e], s₁) := by
    simp only [List.map_cons, List.map_nil, Loader.calls, h₁]
  obtain ⟨-, -, new, hnew, hagain⟩ := hcalls hl [Demo.refusing] Demo.host () hone h₂
  obtain rfl : [("a", .ok 65536)] = new := by
    rw [hfirst.2, hboth.2] at hnew
    exact (List.cons.inj hnew).2
  obtain ⟨o', ho, hlen, hfresh⟩ := hagain (by decide)
  cases ho
  rw [hboth.2] at hlen hfresh
  have hlen : 1 = records.length := hlen
  have hrun := hfresh Demo.host () () (by
    rw [Demo.host_answers, List.map_map]
    obtain ⟨record, rfl⟩ := List.length_eq_one_iff.1 hlen.symm
    rfl)
  rw [← hlen] at hrun
  exact ⟨b, stats, image, l, o, s₂, hb, hi, hl, ⟨e, s₁, h₁, (hstart e rfl).1, h₂⟩, hrun⟩

/-- The requests for a small bundle: the name of its file ends with the zero character. -/
theorem build_requests_demo : ∃ b stats image l outcome s', ∃ names : List String,
    (build Demo.settings Demo.files Demo.path).result = .ok (b, stats) ∧
      Image.ofBytes b.bytes b.chunkSize .little = .ok image ∧ image.loader [4096] = .ok l ∧
      @Eq (Except LoadError LoadOutcome × Hosted (Unit × List Request))
        ((Loader.init Demo.host.logged).run ⟨l, (), []⟩) (.ok outcome, s') ∧
      s'.host.2.map Prod.fst = ["a"] ∧ names.map upToZero = ["a"] := by
  obtain ⟨b, stats, image, l, hb, hi, hl, hloader⟩ := Demo.exists_loader
  obtain ⟨image', table, p, q, names, hi', -, -, -, -, hfirst⟩ :=
    build_requests Demo.buildable (by decide) hb
  obtain rfl : image = image' := Except.ok.inj (hi.symm.trans hi')
  have htrace := Demo.trace_eq.1
  simp only [Demo.trace, hloader] at htrace
  rcases h₁ : (Loader.init Demo.host.logged).run ⟨l, (), []⟩ with ⟨_ | o, s₁⟩
  · simp only [List.map_cons, List.map_nil, Loader.calls, h₁] at htrace
    cases htrace
  simp only [List.map_cons, List.map_nil, Loader.calls, h₁, Prod.mk.injEq] at htrace
  have hnames := (hfirst hl Demo.host () h₁).1
  rw [htrace.2] at hnames
  exact ⟨b, stats, image, l, o, s₁, names, hb, hi, hl, h₁, by rw [htrace.2]; rfl, hnames.symm⟩

end LevelBundle
