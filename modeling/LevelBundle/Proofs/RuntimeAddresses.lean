/-
  LevelBundle — the addresses of files that are loaded on demand.

  The host of a run lays the files out as they are asked for, over two calls and whatever their
  sizes are.

  * `RuntimeFiles.LaidOut`: the files that have been answered an address lie one behind the
    other, and the next address behind them.  `LaidOut.add` is one answer.
  * `LaidOut.init`: a call leaves them so, and the loader refuses none of the addresses.
  * `LoadOptions.Accepted`: the loader accepts the addresses of the chunks.
  * `load_apart`: what is so of the addresses in such a run.
-/
import LevelBundle.CommandLine.Plan
import LevelBundle.Proofs.Agreement
import LevelBundle.Proofs.HostInvariants

namespace LevelBundle

/-- The address that is answered, and the name it is answered for. -/
def Request.answer? (r : Request) : Option (String × UInt32) := r.2.toOption.map fun v => (r.1, v)

/-- The address behind a file.  A file without contents takes one address as well. -/
def RuntimeLoad.stop (l : RuntimeLoad) : ℕ := l.address.toNat + max l.size 1

namespace RuntimeFiles

/-! ## One file behind the other -/

/-- The files lie behind `start`, in the order of the requests that were answered. -/
structure LaidOut (sizeOf : String → Except ReadFailure ℕ) (start : ℕ) (log : List Request)
    (files : RuntimeFiles) : Prop where
  /-- They are the files that have been answered an address. -/
  answers : log.filterMap Request.answer? = files.loads.map fun l => (l.name, l.address)
  /-- Each has the size that the host is told. -/
  size : ∀ l ∈ files.loads, sizeOf l.name = .ok l.size
  /-- Each starts at a whole word. -/
  words : ∀ l ∈ files.loads, 4 ∣ l.address.toNat
  /-- None lies before the start. -/
  above : ∀ l ∈ files.loads, start ≤ l.address.toNat
  /-- All end before the next address. -/
  below : ∀ l ∈ files.loads, l.stop ≤ files.next.toNat
  /-- They end inside the address space. -/
  inside : ∀ l ∈ files.loads, l.stop < 2 ^ 32
  /-- No two share an address. -/
  apart : files.loads.Pairwise fun l l' => l.stop ≤ l'.address.toNat
  /-- The next address is as far from the start as there is room set aside. -/
  next_eq : files.next.toNat = start + (files.loads.map fun l => room l.size).sum

variable {sizeOf : String → Except ReadFailure ℕ} {start size : ℕ} {log : List Request}
  {files more : RuntimeFiles} {name : String}

theorem room_spec (size : ℕ) : max size 1 ≤ room size ∧ 4 ∣ room size := by
  unfold room
  omega

theorem add?_eq_some (h : files.add? name size = some more) :
    more.next.toNat = files.next.toNat + room size ∧
      more.loads = files.loads ++ [⟨name, files.next, size⟩] := by
  simp only [add?] at h
  split_ifs at h with hlt
  cases h
  exact ⟨toNat_toUInt32 hlt, rfl⟩

/-- What the host does if it is asked for a file. -/
theorem run_host (sizeOf : String → Except ReadFailure ℕ) (name : String)
    (files : RuntimeFiles) : (host sizeOf name).run files = match sizeOf name with
      | .error cause => (.error cause.message, { files with failure := some cause })
      | .ok size => match files.add? name size with
        | some more => (.ok files.next, more)
        | none => (.error s!"no address space left for '{name}'", files) := by
  simp only [host, StateT.run_bind, StateT.run_get, pure_bind]
  cases sizeOf name with
  | error cause => rfl
  | ok size =>
    simp only
    cases files.add? name size <;> rfl

namespace LaidOut

theorem nil (h : start < 2 ^ 32) : LaidOut sizeOf start [] { next := start.toUInt32 } where
  answers := rfl
  size := nofun
  words := nofun
  above := nofun
  below := nofun
  inside := nofun
  apart := .nil
  next_eq := toNat_toUInt32 h

theorem start_le (h : LaidOut sizeOf start log files) : start ≤ files.next.toNat := by
  rw [h.next_eq]
  exact Nat.le_add_right ..

theorem next_words (h : LaidOut sizeOf start log files) (h4 : 4 ∣ start) :
    4 ∣ files.next.toNat := by
  rw [h.next_eq]
  refine Nat.dvd_add h4 (List.dvd_sum fun n hn => ?_)
  obtain ⟨l, -, rfl⟩ := List.mem_map.1 hn
  exact (room_spec l.size).2

theorem refuse (h : LaidOut sizeOf start log files) (cause : String) (hnext : more.next = files.next)
    (hloads : more.loads = files.loads) :
    LaidOut sizeOf start (log ++ [(name, .error cause)]) more := by
  obtain ⟨next, loads, failure⟩ := more
  obtain rfl : next = files.next := hnext
  obtain rfl : loads = files.loads := hloads
  refine ⟨?_, h.size, h.words, h.above, h.below, h.inside, h.apart, h.next_eq⟩
  rw [List.filterMap_append, h.answers]
  exact List.append_nil _

/-- **A request that is answered** puts the file behind the others. -/
theorem add (h : LaidOut sizeOf start log files) (h4 : 4 ∣ start) (hsize : sizeOf name = .ok size)
    (hadd : files.add? name size = some more) :
    LaidOut sizeOf start (log ++ [(name, .ok files.next)]) more := by
  obtain ⟨hnext, hloads⟩ := add?_eq_some hadd
  obtain ⟨hroom, -⟩ := room_spec size
  have hend : (RuntimeLoad.mk name files.next size).stop ≤ more.next.toNat := by
    rw [hnext]
    exact Nat.add_le_add_left hroom _
  -- what holds of each file, and of the one that is put behind them
  have hall {P : RuntimeLoad → Prop} (hold : ∀ l ∈ files.loads, P l)
      (hnew : P ⟨name, files.next, size⟩) : ∀ l ∈ more.loads, P l := by
    intro l hl
    rw [hloads, List.mem_append, List.mem_singleton] at hl
    rcases hl with hl | rfl
    · exact hold l hl
    · exact hnew
  refine ⟨?_, hall h.size hsize, hall h.words (h.next_words h4), hall h.above h.start_le,
    hall (fun l hl => ?_) hend, hall h.inside (Nat.lt_of_le_of_lt hend more.next.toNat_lt), ?_, ?_⟩
  · rw [List.filterMap_append, h.answers, hloads, List.map_append]
    rfl
  · rw [hnext]
    exact Nat.le_add_right_of_le (h.below l hl)
  · rw [hloads, List.pairwise_append]
    refine ⟨h.apart, List.pairwise_singleton _ _, fun l hl l' hl' => ?_⟩
    rw [List.mem_singleton.1 hl']
    exact h.below l hl
  · rw [hnext, hloads, List.map_append, List.sum_append, h.next_eq, Nat.add_assoc]
    rfl

theorem next_usable (h : LaidOut sizeOf start log files) (h4 : 4 ∣ start) (hpos : 0 < start) :
    ¬ (files.next = 0 ∨ files.next % 2 ≠ 0) := by
  have hle := h.start_le
  have hwords := h.next_words h4
  rintro (h0 | h2)
  · rw [h0, UInt32.toNat_zero] at hle
    omega
  · refine h2 (UInt32.toNat_inj.1 ?_)
    rw [UInt32.toNat_mod]
    exact Nat.mod_eq_zero_of_dvd (Nat.dvd_trans (by decide) hwords)

end LaidOut

/-! ## Calls -/

/-- **The host lays the files out** for as long as it is asked. -/
theorem serves_host (h4 : 4 ∣ start) (hpos : 0 < start) (log : List Request) :
    (host sizeOf).logged.Serves fun s => LaidOut sizeOf start (log ++ s.2) s.1 := by
  rintro name ⟨files, new⟩ (h : LaidOut sizeOf start (log ++ new) files)
  rw [FileHost.run_logged, run_host]
  rcases hsize : sizeOf name with cause | size
  · refine ⟨?_, nofun⟩
    simp only [← List.append_assoc]
    exact h.refuse cause.message rfl rfl
  simp only
  rcases hadd : files.add? name size with _ | more
  · refine ⟨?_, nofun⟩
    simp only [← List.append_assoc]
    exact h.refuse _ rfl rfl
  · refine ⟨?_, ?_⟩
    · simp only [← List.append_assoc]
      exact h.add h4 hsize hadd
    · rintro _ ⟨⟩
      exact h.next_usable h4 hpos

/-- **A call** leaves the files laid out, with those it has asked for behind the others.  It
    does not fail for an address that is refused. -/
theorem LaidOut.init {s : Hosted RuntimeFiles} (h : LaidOut sizeOf start log s.host)
    (h4 : 4 ∣ start) (hpos : 0 < start) :
    LaidOut sizeOf start (log ++ Loader.requests (host sizeOf) s)
        ((Loader.init (host sizeOf)).run s).2.host ∧
      ∀ name v, ((Loader.init (host sizeOf)).run s).1 ≠ .error (.badAddress name v) := by
  rcases hrun : (Loader.init (host sizeOf).logged).run ⟨s.loader, s.host, []⟩ with ⟨r, t⟩
  have hplain : (Loader.init (host sizeOf)).run s = (r, t.plain) :=
    Loader.mirrors_init (host sizeOf) _ r t hrun
  have hlog : LaidOut sizeOf start (log ++ []) s.host := by rwa [List.append_nil]
  obtain ⟨hlaid, -, hgood⟩ := Loader.keeps_init (serves_host h4 hpos log) _ r t hrun hlog
  rw [hplain, Loader.requests, hrun]
  exact ⟨hlaid, hgood⟩

end RuntimeFiles

/-! ## Chunks -/

namespace Image

variable {i : Image} {base : UInt32}

/-- **The addresses of the chunks do not wrap** if the chunks end inside the address space. -/
theorem toNat_contiguousBases (h : base.toNat + i.chunkCount * i.chunkSize.toNat < 2 ^ 32) :
    (i.contiguousBases base).map UInt32.toNat =
      (List.range i.chunkCount).map fun index => base.toNat + index * i.chunkSize.toNat := by
  rw [contiguousBases, List.map_map]
  refine List.map_congr_left fun index hindex => ?_
  have hle : index * i.chunkSize.toNat ≤ i.chunkCount * i.chunkSize.toNat :=
    Nat.mul_le_mul_right _ (List.mem_range.1 hindex).le
  show (base + index.toUInt32 * i.chunkSize).toNat = _
  rw [UInt32.toNat_add, UInt32.toNat_mul, Nat.toUInt32_eq, UInt32.toNat_ofNat', Nat.mod_mul_mod,
    Nat.add_mod_mod]
  exact Nat.mod_eq_of_lt (by omega)

theorem exists_of_ofBytes {bytes : Array UInt8} {chunkSize : UInt32} {order : ByteOrder}
    (h : ofBytes bytes chunkSize order = .ok i) : ∃ (a : Addressing) (listed : ℕ),
      a.chunkSize = chunkSize ∧ i = of bytes a.chunkSize order listed := by
  obtain ⟨a, ha⟩ : ∃ a, Addressing.ofChunkSize chunkSize = .ok a := by
    rw [ofBytes, bind_eq_ok] at h
    obtain ⟨a, ha, -⟩ := h
    exact ⟨a, mapError_eq_ok.1 ha⟩
  obtain rfl := Addressing.ofChunkSize_eq_ok ha
  obtain ⟨listed, hi⟩ := ofBytes_eq_ok h
  exact ⟨a, listed, rfl, hi⟩

theorem chunkCount_pos {bases : List UInt32} {l : Loader} (h : i.loader bases = .ok l) :
    0 < i.chunkCount := by
  rw [loader, bind_eq_ok] at h
  obtain ⟨m, hm, h⟩ := h
  have hpos := Loader.size_pos_of_ofMemory h
  rw [memory] at hm
  split_ifs at hm with hlen
  cases hm
  rw [List.size_toArray, List.length_map, List.length_zip, Array.length_toList] at hpos
  exact (lt_min_iff.1 hpos).1

theorem base_mem_contiguousBases (h : 0 < i.chunkCount) : base ∈ i.contiguousBases base := by
  refine List.mem_map.2 ⟨0, List.mem_range.2 h, ?_⟩
  show base + 0 * i.chunkSize = base
  rw [UInt32.zero_mul, UInt32.add_zero]

end Image

/-! ## Runs -/

namespace LoadOptions

variable (o : LoadOptions) (files : Files)

/-- The chunk size of the bundle. -/
def chunkBytes : UInt32 := o.chunkSize.getD ({} : PackOptions).chunkSize

/-- The order of the bytes of its words. -/
def byteOrder : ByteOrder := o.order.getD ({} : PackOptions).order

/-- The address of its first chunk. -/
def firstBase : UInt32 := o.base.getD 0x10000

/-- The address behind its chunks. -/
def stop (image : Image) : ℕ := o.firstBase.toNat + image.chunkCount * o.chunkBytes.toNat

/-- The host of a run. -/
def host : FileHost RuntimeFiles := RuntimeFiles.host (o.sizeOf files)

/-- The bundle in memory, and no file loaded yet. -/
def before (image : Image) (loader : Loader) : Hosted RuntimeFiles :=
  ⟨loader, { next := (o.stop image).toUInt32 }⟩

/-- What the first call comes to, and what it leaves. -/
def first (image : Image) (loader : Loader) : Except LoadError LoadOutcome × Hosted RuntimeFiles :=
  (Loader.init (o.host files)).run (o.before image loader)

/-- What the second call comes to, and what it leaves. -/
def second (image : Image) (loader : Loader) :
    Except LoadError LoadOutcome × Hosted RuntimeFiles :=
  (Loader.init (o.host files)).run (o.first files image loader).2

/-- A run in which the loader accepts the addresses of the chunks. -/
structure Accepted (bundle : Path) (image : Image) (loader : Loader) : Prop where
  /-- The image is that of the bundle. -/
  split : ∃ bytes, files.readBundle bundle = .ok bytes ∧
    Image.ofBytes bytes o.chunkBytes o.byteOrder = .ok image
  /-- The chunks end inside the address space. -/
  room : o.stop image < 2 ^ 32
  /-- The loader accepts the chunks one behind the other. -/
  loader_eq : image.loader (image.contiguousBases o.firstBase) = .ok loader

variable {o files} {bundle : Path} {image : Image} {loader : Loader}

namespace Accepted

variable (h : o.Accepted files bundle image loader)
include h

theorem resolve_eq : o.resolve files bundle image o.firstBase (o.before image loader).host = (do
    let outcome ← (o.first files image loader).1.mapError
      (.unresolved bundle · (o.first files image loader).2.host.failure)
    let again ← (o.second files image loader).1.mapError .loader
    unless again.alreadyResolved && again.root == outcome.root do
      throw .unsettled
    return (outcome, (o.second files image loader).2.host.loads)) := by
  rw [resolve, h.loader_eq]
  rfl

/-- Such a run ends as its two calls do. -/
theorem plan_eq : o.plan files bundle = (do
    let (outcome, loads) ← o.resolve files bundle image o.firstBase (o.before image loader).host
    return { output := outcome.listing bundle image.chunkCount o.firstBase loads }) := by
  obtain ⟨bytes, hread, hsplit⟩ := h.split
  have hroom : ¬ 4294967296 ≤ o.stop image := Nat.not_le.2 h.room
  rw [plan, hread]
  show (do
    let image ← (Image.ofBytes bytes o.chunkBytes o.byteOrder).mapError _
    _ : Except CommandError Plan) = _
  rw [hsplit]
  show (if 4294967296 ≤ o.stop image then _ else _ : Except CommandError Plan) = _
  rw [if_neg hroom]
  rfl

/-- What such a run prints. -/
theorem output_eq {p : Plan} (hp : o.plan files bundle = .ok p) : ∃ outcome,
    (o.first files image loader).1 = .ok outcome ∧
    p.output = outcome.listing bundle image.chunkCount o.firstBase
      (o.second files image loader).2.host.loads := by
  rw [h.plan_eq, h.resolve_eq] at hp
  simp only [bind_eq_ok, mapError_eq_ok] at hp
  obtain ⟨_, ⟨outcome, hfirst, again, -, hcalls⟩, hp⟩ := hp
  split_ifs at hcalls
  · cases hcalls
    cases hp
    exact ⟨outcome, hfirst, rfl⟩
  · simp only [bind_eq_ok, throw_ne_ok, false_and, exists_false] at hcalls

theorem stop_spec : image.chunkSize = o.chunkBytes ∧ 4 ∣ o.stop image ∧ 0 < o.stop image := by
  obtain ⟨bytes, -, hsplit⟩ := h.split
  obtain ⟨a, listed, hsize, rfl⟩ := Image.exists_of_ofBytes hsplit
  obtain ⟨-, hu, -⟩ := Image.loader_of h.loader_eq
  have hbase := hu _ (Image.base_mem_contiguousBases (Image.chunkCount_pos h.loader_eq))
  have hwords := a.words.2.2
  rw [hsize] at hwords
  exact ⟨hsize, Nat.dvd_add hbase.words (hwords.mul_left _), Nat.add_pos_left hbase.pos _⟩

end Accepted

/-- What the calls of a run give the files that are loaded on demand. -/
structure Apart (o : LoadOptions) (files : Files) (bundle : Path) (image : Image)
    (loader : Loader) : Prop where
  /-- The chunks lie one behind the other, and no address of one wraps. -/
  chunks : (image.contiguousBases o.firstBase).map UInt32.toNat =
    (List.range image.chunkCount).map fun index =>
      o.firstBase.toNat + index * o.chunkBytes.toNat
  /-- The files that the first call has asked for lie behind them. -/
  first : (o.first files image loader).2.host.LaidOut (o.sizeOf files) (o.stop image)
    (Loader.requests (o.host files) (o.before image loader))
  /-- Those that the second call has asked for lie behind these. -/
  second : (o.second files image loader).2.host.LaidOut (o.sizeOf files) (o.stop image)
    (Loader.requests (o.host files) (o.before image loader) ++
      Loader.requests (o.host files) (o.first files image loader).2)
  /-- The loader refuses no address. -/
  usable : ∀ name v, (o.first files image loader).1 ≠ .error (.badAddress name v) ∧
    (o.second files image loader).1 ≠ .error (.badAddress name v)
  /-- They are the addresses that are printed. -/
  printed : ∀ p, o.plan files bundle = .ok p → ∃ outcome,
    (o.first files image loader).1 = .ok outcome ∧
    p.output = outcome.listing bundle image.chunkCount o.firstBase
      (o.second files image loader).2.host.loads

/-- **Files that are loaded on demand stay apart**, in every run in which the loader accepts the
    addresses of the chunks. -/
theorem load_apart (h : o.Accepted files bundle image loader) :
    o.Apart files bundle image loader := by
  obtain ⟨hsize, h4, hpos⟩ := h.stop_spec
  have hroom := h.room
  have hbefore : (o.before image loader).host.LaidOut (o.sizeOf files) (o.stop image) [] :=
    .nil hroom
  obtain ⟨hfirst, hgood⟩ := hbefore.init h4 hpos
  obtain ⟨hsecond, hgood'⟩ := hfirst.init h4 hpos
  refine ⟨?_, hfirst, hsecond, fun name v => ⟨hgood name v, hgood' name v⟩, fun p => h.output_eq⟩
  rw [stop, ← hsize] at hroom
  rw [Image.toNat_contiguousBases hroom, hsize]

/-! ## A run with two files -/

namespace Demo

/-- A bundle with one chunk.  Its fixup table lists two slots, for the files `a` and `b`. -/
def pairBundle : Bytes :=
  ByteOrder.little.rowBytes [chunkFiller, 0, 33, 17, 33, 37, 0, 0, 43, 51, 0, 97, 0, 98]

/-- The bundle, and a directory with the two files: one of five bytes, and one without contents. -/
def pairFiles : Files where
  isFile _ := true
  read path :=
    if path.text = "pair.lvl" then .ok pairBundle
    else if path.text = "files/a" then .ok [1, 2, 3, 4, 5]
    else if path.text = "files/b" then .ok []
    else .error .noSuchFile

/-- Options that name the directory. -/
def pairOptions : LoadOptions where
  chunkSize := some 56
  order := some .little
  files := some (.ofText "files")

/-- Chunks of 56 bytes. -/
def pairAddressing : Addressing := ⟨56, by decide, by decide, by decide⟩

/-- The chunk of the bundle. -/
def pairImage : Image := .of pairBundle.toArray 56 .little 1

/-- The chunk in memory. -/
def pairLoader : Loader where
  memory := #[⟨65536, chunkAt (fileOf pairBundle) 56 0⟩]
  addressing := pairAddressing
  order := .little

theorem pair_accepted :
    pairOptions.Accepted pairFiles (.ofText "pair.lvl") pairImage pairLoader where
  split := by
    have hrow : pairBundle = ByteOrder.little.rowBytes
        (List.replicate (1 : UInt32).toNat chunkFiller ++ [0]) ++ pairBundle.drop 8 := rfl
    exact ⟨pairBundle.toArray, rfl, Image.ofBytes_row (a := pairAddressing) hrow⟩
  room := by decide
  loader_eq := by rfl

end Demo

/-- The second file lies behind the first, whose five bytes take two words. -/
theorem load_apart_pair :
    Demo.pairOptions.Accepted Demo.pairFiles (.ofText "pair.lvl") Demo.pairImage Demo.pairLoader ∧
    Demo.pairOptions.Apart Demo.pairFiles (.ofText "pair.lvl") Demo.pairImage Demo.pairLoader ∧
    (Demo.pairOptions.plan Demo.pairFiles (.ofText "pair.lvl")).toOption.isSome = true ∧
    (Demo.pairOptions.second Demo.pairFiles Demo.pairImage Demo.pairLoader).2.host.loads =
      [⟨"a", 65592, 5⟩, ⟨"b", 65600, 0⟩] :=
  ⟨Demo.pair_accepted, load_apart Demo.pair_accepted, by decide +kernel, by decide +kernel⟩

end LoadOptions

end LevelBundle
