/-
  LevelBundle — the order of bytes, from a script to memory.

  * `build_result`: what comes of a build, stage by stage.
  * `matches_build`: two builds that differ in the order of bytes fail with the same error, or
    make bundles that are alike.
  * `build_ordered`: such bundles are reported alike, and loaded alike: the same root, and the
    same words in the slots of references and for the values of `long` lines.
-/
import LevelBundle.Proofs.Lifecycle
import LevelBundle.Proofs.OrderedLoading

namespace LevelBundle

variable {s : Settings} {files : Files} {script : Path}

/-! ## Builds -/

/-- **What comes of a build**, stage by stage. -/
theorem build_result (s : Settings) (files : Files) (script : Path) :
    (build s files script).result =
      outcome (Reader.readPath s.readOptions files script) {} >>= fun r =>
        Compiler.compile (Compiler.context s r.2.table files) (Compiler.start s) s.root >>= fun p =>
          (p.pack s.pack).1.mapError (fun e => { kind := .pack e }) >>= fun b =>
            pure (b, BuildStats.of p b) := by
  unfold build outcome
  rcases (Reader.readPath s.readOptions files script).run {} with ⟨_ | _, reader⟩
  · rfl
  simp only [bind, Except.bind]
  cases Compiler.compile (Compiler.context s reader.table files) (Compiler.start s) s.root with
  | error => rfl
  | ok p =>
    simp only
    rcases p.pack s.pack with ⟨_ | _, _⟩ <;> rfl

/-- Two builds that differ in the order of bytes: the programs are of the same shape, and the
    bundles are alike. -/
structure Settings.SameBuild (s : Settings) (files : Files) (script : Path) (o o' : ByteOrder)
    (b b' : Bundle) (table : SectionTable) (p q p' q' : Program) : Prop where
  built : Built (s.ordered o) files script table p q b
  built' : Built (s.ordered o') files script table p' q' b'
  compiled : p.SameShape p'
  packed : q.SameShape q'
  alike : b.Alike b'

/-- **Two builds** that differ in the order of bytes. -/
theorem matches_build (s : Settings) (files : Files) (script : Path) (o o' : ByteOrder) :
    Matches (fun r r' => r.2 = r'.2 ∧ ∃ table p q p' q',
      s.SameBuild files script o o' r.1 r'.1 table p q p' q')
        (build (s.ordered o) files script).result (build (s.ordered o') files script).result := by
  rw [build_result, build_result]
  refine .bind_same (x := outcome (Reader.readPath s.readOptions files script) {})
    fun ⟨_, reader⟩ hread => ?_
  have hreader : ∃ r, Runs (Reader.readPath s.readOptions files script) {} ⟨⟩ r ∧
      r.table = reader.table := ⟨reader, outcome_eq_ok.1 hread, rfl⟩
  refine (compile_ordered (Compiler.context s reader.table files) (Compiler.start s) s.root
    o o').with_eq.bind fun {p p'} ⟨hshape, hp, hp'⟩ => ?_
  rcases pack_ordered hshape s.pack o o' with
    ⟨e, hfails, hfails'⟩ | ⟨b, b', q, q', hpack, hpack', halike, hshape'⟩
  · show Matches _ ((p.pack (s.pack.ordered o)).1.mapError _ >>= _)
      ((p'.pack (s.pack.ordered o')).1.mapError _ >>= _)
    rw [hfails, hfails']
    exact .error _
  · show Matches _ ((p.pack (s.pack.ordered o)).1.mapError _ >>= _)
      ((p'.pack (s.pack.ordered o')).1.mapError _ >>= _)
    rw [hpack, hpack']
    refine .ok ⟨?_, reader.table, p, q, p', q', ⟨hreader, hp, hpack⟩, ⟨hreader, hp', hpack'⟩,
      hshape, hshape', halike⟩
    simp only [BuildStats.of, hshape.store, halike.placements, halike.slack, halike.chunkCount,
      halike.size]

theorem Buildable.ordered (hs : Buildable s files script) (order : ByteOrder) :
    Buildable (s.ordered order) files script :=
  ⟨hs.valid, hs.script_lt, hs.file_lt⟩

theorem Addressing.eq_of_chunkSize {a a' : Addressing} (h : a.chunkSize = a'.chunkSize) :
    a = a' := by
  cases a
  cases a'
  cases h
  rfl

namespace Settings.SameBuild

variable {o o' : ByteOrder} {b b' : Bundle} {table : SectionTable} {p q p' q' : Program}
  (h : s.SameBuild files script o o' b b' table p q p' q') (hs : Buildable s files script)
include h hs

/-- The two files hold twins. -/
theorem twins : ∃ k k' l l' refs refs', k.options = s.pack.ordered o ∧
    k'.options = s.pack.ordered o' ∧
    Filed ((Compiler.context s table files).ordered o) s.padSize k p q l b refs ∧
    Filed ((Compiler.context s table files).ordered o') s.padSize k' p' q' l' b' refs' ∧
    Twins k k' p q p' q' b b' := by
  obtain ⟨k, l, refs, hopt, hf⟩ := (h.built.fresh (hs.ordered o)).filed h.built.packed
  obtain ⟨k', l', refs', hopt', hf'⟩ := (h.built'.fresh (hs.ordered o')).filed h.built'.packed
  have hchunk : k.addressing.chunkSize = k'.addressing.chunkSize := by
    rw [show k.addressing.chunkSize = k.options.chunkSize from hf.sane, hopt,
      show k'.addressing.chunkSize = k'.options.chunkSize from hf'.sane, hopt']
    rfl
  exact ⟨k, k', l, l', refs, refs', hopt, hopt', hf, hf', Addressing.eq_of_chunkSize hchunk,
    by rw [hopt, hopt']; rfl, h.compiled, h.packed, h.alike⟩

/-- **The reports**, each in its own order, are the same but for the checksum. -/
theorem report : ∃ r, Report.decode b.bytes b.chunkSize o = .ok r ∧
    Report.decode b'.bytes b'.chunkSize o' = .ok { r with crc32 := Checksum.crc32 b'.bytes } := by
  obtain ⟨k, k', _, _, _, _, hopt, hopt', hf, hf', ht⟩ := h.twins hs
  have hr := ht.report hf hf'
  rwa [← hf.chunkSize_eq, ← hf'.chunkSize_eq, hopt, hopt'] at hr

/-- **The images** can be put at the same addresses, and the first calls come to the same. -/
theorem images : ∃ image image', Image.ofBytes b.bytes b.chunkSize o = .ok image ∧
    Image.ofBytes b'.bytes b'.chunkSize o' = .ok image' ∧
    ∀ {bases l}, image.loader bases = .ok l → ∃ l', image'.loader bases = .ok l' ∧
      SameCalls table p q l l' := by
  obtain ⟨k, k', _, _, _, _, hopt, hopt', hf, hf', ht⟩ := h.twins hs
  have horder : k.options.order = o := congrArg PackOptions.order hopt
  have horder' : k'.options.order = o' := congrArg PackOptions.order hopt'
  obtain ⟨hp, -⟩ := (Compiler.faithful_start (s.ordered o)).compile rfl h.built.compiled
  obtain ⟨hp', -⟩ := (Compiler.faithful_start (s.ordered o')).compile rfl h.built'.compiled
  obtain ⟨_, hrow⟩ := hf.chunk_table
  obtain ⟨_, hrow'⟩ := hf'.chunk_table
  have himage := Image.ofBytes_row (a := k.addressing) hrow
  have himage' := Image.ofBytes_row (a := k'.addressing) hrow'
  rw [← hf.chunkSize_eq, horder] at himage
  rw [← hf'.chunkSize_eq, horder'] at himage'
  refine ⟨_, _, himage, himage', fun {bases l} hl => ?_⟩
  have hload := @Twins.load _ _ _ _ _ _ _ _ _ _ _ _ _ _ _ _ ht hf hf' bases hp hp' horder.symm
    horder'.symm rfl l
  rw [horder, horder', ← hf.chunkSize_eq, ← hf'.chunkSize_eq] at hload
  exact hload hl

end Settings.SameBuild

/-- **The order of bytes decides the order of bytes**, and nothing else.  For every script, two
    builds that differ in the order of bytes fail with the same error, or make bundles that
    differ in their bytes only.  Where the settings are valid and no text is too long, the reports
    on the two, each in its own order, are the same but for the checksum.  The addresses that a
    loader for the one accepts are then accepted for the other; if the hosts give the same
    addresses, the first calls come to the same, and then the word in each slot of a reference,
    and each value of a `long` line, is read as the same in both. -/
theorem build_ordered (s : Settings) (files : Files) (script : Path) (o o' : ByteOrder) :
    (∃ e, (build (s.ordered o) files script).result = .error e ∧
      (build (s.ordered o') files script).result = .error e) ∨
    ∃ b b' stats table p q p' q',
      (build (s.ordered o) files script).result = .ok (b, stats) ∧
      (build (s.ordered o') files script).result = .ok (b', stats) ∧
      s.SameBuild files script o o' b b' table p q p' q' ∧
      (Buildable s files script →
        (∃ r, Report.decode b.bytes b.chunkSize o = .ok r ∧
          Report.decode b'.bytes b'.chunkSize o' =
            .ok { r with crc32 := Checksum.crc32 b'.bytes }) ∧
        ∃ image image', Image.ofBytes b.bytes b.chunkSize o = .ok image ∧
          Image.ofBytes b'.bytes b'.chunkSize o' = .ok image' ∧
          ∀ {bases l}, image.loader bases = .ok l → ∃ l', image'.loader bases = .ok l' ∧
            SameCalls table p q l l') := by
  have hmatches := matches_build s files script o o'
  cases hresult : (build (s.ordered o) files script).result with
  | error e =>
    rw [hresult] at hmatches
    exact Or.inl ⟨e, rfl, hmatches.of_error⟩
  | ok r =>
    rw [hresult] at hmatches
    obtain ⟨⟨b', _⟩, hresult', rfl, table, p, q, p', q', hsame⟩ := hmatches.of_ok
    exact Or.inr ⟨r.1, b', r.2, table, p, q, p', q', rfl, hresult', hsame,
      fun hs => ⟨hsame.report hs, hsame.images hs⟩⟩

/-! ## A number in either order -/

namespace Demo

/-- A script that refers to a file, and writes a number. -/
def numbered : String := "[root]\nload \"x\"\nlong 258\n"

/-- The script is the only file. -/
def numberedFiles : Files where
  isFile p := p == path
  read p := if p = path then .ok (Utf8.encode numbered) else .error (.absent p)

theorem numbered_buildable : Buildable settings numberedFiles path where
  valid := by decide +kernel
  script_lt {text} h := by
    have hread : numberedFiles.readText path = .ok numbered := by decide +kernel
    rw [hread] at h
    cases h
    decide +kernel
  file_lt {p bytes} h := by
    simp only [numberedFiles] at h
    split_ifs at h
    cases h
    decide +kernel

/-- The section of the script. -/
def numberedSource : ScriptSection where
  name := "root"
  alignment := none
  origin := ⟨0, path, 1, 0, 6⟩
  lines := [⟨"load", [.str "x"], ⟨0, path, 2, 7, 15⟩⟩, ⟨"long", [.int 258], ⟨0, path, 3, 16, 24⟩⟩]

theorem read_numbered : ((Reader.readPath settings.readOptions numberedFiles path).run {}).2.table =
    ⟨[numberedSource]⟩ := by decide +kernel

theorem numbered_longs (table : SectionTable) :
    table.Longs numberedSource.lines [none, some [258]] :=
  @SectionTable.Longs.part _ _ _ _ .load rfl nofun nofun
    (@SectionTable.Longs.part _ _ _ _ .long rfl nofun nofun .done)

/-- The bundle in memory, and what a call comes to. -/
def numbered? : Option (Loader × LoadOutcome) := do
  let (b, _) ← (build settings numberedFiles path).result.toOption
  let image ← (Image.ofBytes b.bytes b.chunkSize .little).toOption
  let l ← (image.loader [4096]).toOption
  let outcome ← ((Loader.init host).run ⟨l, ()⟩ : Except LoadError LoadOutcome × _).1.toOption
  pure (l, outcome)

theorem exists_numbered : ∃ b stats image l outcome s,
    (build settings numberedFiles path).result = .ok (b, stats) ∧
      Image.ofBytes b.bytes b.chunkSize .little = .ok image ∧ image.loader [4096] = .ok l ∧
      @Eq (Except LoadError LoadOutcome × Hosted Unit) ((Loader.init host).run ⟨l, ()⟩)
        (.ok outcome, s) ∧ outcome.root = 4112 ∧ outcome.fixupsApplied = 1 := by
  have hroot : numbered?.map (fun r => (r.2.root, r.2.fixupsApplied)) = some (4112, 1) := by
    simp only [numbered?, build, Program.pack, Packer.pack, Packer.emit, mergeSort_entries]
    decide +kernel
  obtain ⟨⟨l, outcome⟩, hr, houtcome⟩ := Option.map_eq_some_iff.1 hroot
  obtain ⟨⟨b, stats⟩, hb, hr⟩ := Option.bind_eq_some_iff.1 hr
  obtain ⟨image, hi, hr⟩ := Option.bind_eq_some_iff.1 hr
  obtain ⟨l', hl, hr⟩ := Option.bind_eq_some_iff.1 hr
  obtain ⟨outcome', ho, hr⟩ := Option.bind_eq_some_iff.1 hr
  cases hr
  obtain ⟨hroot, hfixups⟩ := Prod.mk.inj houtcome
  exact ⟨b, stats, image, l, outcome, _, ok_of_toOption hb, ok_of_toOption hi, ok_of_toOption hl,
    Prod.ext (ok_of_toOption ho) rfl, hroot, hfixups⟩

/-- The root is the only section, and its second part is the number. -/
theorem numbered_isLong {table : SectionTable} {p q : Program} {b : Bundle}
    (h : Built settings numberedFiles path table p q b) : ∃ o, p.IsLong table q p.root 258 o := by
  obtain ⟨-, hsound⟩ := (h.fresh numbered_buildable).sound
  obtain ⟨sec, hsec, hrt⟩ := hsound.root
  obtain ⟨hp, -⟩ := (Compiler.faithful_start settings).compile rfl h.compiled
  obtain ⟨source, -, hfind, -, -⟩ := hp.longs hsec hrt
  have hfind : table.find? sec.name = some source := hfind
  obtain ⟨reader, hread, rfl⟩ := h.read
  have htable : reader.table = ⟨[numberedSource]⟩ := by
    rw [← read_numbered]
    exact congrArg (fun r => r.2.table) hread.symm
  have hmem := List.mem_of_find?_eq_some hfind
  rw [htable, List.mem_singleton] at hmem
  subst hmem
  exact ⟨_, .root, by rw [Program.sectionAt_eq hsec, hrt], numberedSource, [none, some [258]], 1,
    [258], 0, by rw [Program.sectionAt_eq hsec, hfind], numbered_longs _, rfl, rfl, rfl⟩

end Demo

/-- A number is written in either order, and read as the same. -/
theorem build_ordered_demo : ∃ b b' stats image image' l l' outcome s s' o,
    (build (Demo.settings.ordered .little) Demo.numberedFiles Demo.path).result = .ok (b, stats) ∧
      (build (Demo.settings.ordered .big) Demo.numberedFiles Demo.path).result = .ok (b', stats) ∧
      Image.ofBytes b.bytes b.chunkSize .little = .ok image ∧
      Image.ofBytes b'.bytes b'.chunkSize .big = .ok image' ∧
      image.loader [4096] = .ok l ∧ image'.loader [4096] = .ok l' ∧
      @Eq (Except LoadError LoadOutcome × Hosted Unit) ((Loader.init Demo.host).run ⟨l, ()⟩)
        (.ok outcome, s) ∧
      @Eq (Except LoadError LoadOutcome × Hosted Unit) ((Loader.init Demo.host).run ⟨l', ()⟩)
        (.ok outcome, s') ∧
      outcome.root = 4112 ∧ s.loader.readAt o = .ok 258 ∧ s'.loader.readAt o = .ok 258 := by
  obtain ⟨b, stats, image, l, outcome, s, hb, hi, hl, hrun, hroot, -⟩ := Demo.exists_numbered
  have hlittle : Demo.settings.ordered .little = Demo.settings := rfl
  rcases build_ordered Demo.settings Demo.numberedFiles Demo.path .little .big with ⟨e, he, -⟩ |
    ⟨b₁, b', stats₁, table, p, q, p', q', hb₁, hb', hsame, hrest⟩
  · rw [hlittle, hb] at he
    cases he
  rw [hlittle, hb] at hb₁
  cases hb₁
  obtain ⟨-, image₁, image', hi₁, hi', hload⟩ := hrest Demo.numbered_buildable
  rw [hi] at hi₁
  cases hi₁
  obtain ⟨l', hl', hcalls⟩ := hload hl
  obtain ⟨result, result', s₁, s', hrun₁, hrun', heq, hwords⟩ :=
    @hcalls Unit Unit Demo.host Demo.host () () fun _ => ⟨rfl, Iff.rfl⟩
  rw [hrun] at hrun₁
  cases hrun₁
  obtain rfl := ok_of_toOption heq.symm
  obtain ⟨o, hlong⟩ := Demo.numbered_isLong hsame.built
  exact ⟨b, b', stats, image, image', l, l', outcome, s, s', o, hb, hb', hi, hi', hl, hl', hrun,
    hrun', hroot, hwords.long hlong⟩

end LevelBundle
