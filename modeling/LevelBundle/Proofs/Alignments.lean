/-
  LevelBundle — every alignment that is asked for is honoured.

  * `build_alignments`: in a bundle that has been built, the contents of a file lie at a
    multiple, from the start of their chunk, of every alignment that a compiled line has
    asked for, and so does a section for its header.
-/
import LevelBundle.Proofs.Answered
import LevelBundle.Proofs.PackedFile

namespace LevelBundle

theorem Packer.Lies.dvd {chunk header capacity : UInt32} {i : Item} {o : UInt32}
    (h : Lies chunk header capacity i o) (hv : Alignment.valid i.alignment = true) {a : ℕ}
    (ha : a ∣ i.alignment.toNat) : a ∣ o.toNat % chunk.toNat := by
  have hpos := Alignment.pos_of_valid hv
  rcases h.aligned with h1 | hd
  · rw [show i.alignment.toNat = 1 by omega, Nat.dvd_one] at ha
    exact ha ▸ one_dvd _
  · exact ha.trans hd

variable {s : Settings} {files : Files} {script : Path} {b : Bundle} {stats : BuildStats}

/-- **Every alignment is honoured.**  A line of a compiled section that asks for a file with
    an alignment refers to a blob whose contents lie at a multiple of it in their chunk,
    whatever else is asked of the file or of equal contents.  A section that is placed lies
    at a multiple of the alignment in its header. -/
theorem build_alignments (hs : Buildable s files script)
    (hbuild : (build s files script).result = .ok (b, stats)) :
    ∃ table p q, Built s files script table p q b ∧
      (∀ {ref}, p.Leads ref ↔ ∃ o, q.offsetOf? ref = some o) ∧
      ∀ {i : ℕ} {sec : Section}, p.sections[i]? = some sec → sec.runtimeFile = false →
        ∃ source, table.find? sec.name = some source ∧
          (∀ {path a}, source.Asks (Compiler.context s table files) path a →
            ∃ id o, .blob id ∈ sec.parts ∧ p.store.named? path.text = some id ∧
              q.store.offset? id = some o ∧ a ∣ o.toNat % s.pack.chunkSize.toNat) ∧
          ∀ {n o}, source.alignment = some n → q.offsetOf? (.level ⟨i⟩) = some o →
            n.toNat ∣ o.toNat % s.pack.chunkSize.toNat := by
  obtain ⟨table, p, q, hbuilt⟩ := build_eq_ok hbuild
  have hfresh := hbuilt.fresh hs
  obtain ⟨hb, hp⟩ := hfresh.sound
  obtain ⟨k, l, hpacked⟩ := hfresh.packed hbuilt.packed
  have hans := Program.compile_answers hbuilt.compiled
  have hlaid := hpacked.laidout
  have hopt : k.options.chunkSize = s.pack.chunkSize := by rw [hpacked.options]
  -- an item that is placed keeps to its alignment
  have key {ref : ItemRef} (hr : p.Leads ref) {a : ℕ} (ha : a ∣ (p.item ref).alignment.toNat) :
      a ∣ (q.place ref).toNat % s.pack.chunkSize.toNat := by
    rw [← hopt]
    exact (hlaid.lies hr).dvd (hp.fit hb.grain (hp.holds hr)).alignment ha
  have hplaced {ref : ItemRef} : p.Leads ref ↔ ∃ o, q.offsetOf? ref = some o := by
    constructor
    · intro hr
      exact ⟨_, hlaid.placed hr⟩
    · rintro ⟨o, ho⟩
      by_contra hr
      rw [hlaid.unplaced hr] at ho
      cases ho
  refine ⟨table, p, q, hbuilt, hplaced, fun {i sec} hsec hrt => ?_⟩
  obtain ⟨source, hfind, hanswers⟩ := hans.lines hsec hrt
  refine ⟨source, hfind, fun {path a} hask => ?_, fun {n o} hn ho => ?_⟩
  · obtain ⟨id, x, hid, rfl, hnamed, hdiv⟩ := hanswers.files hask
    obtain ⟨y, hy, hxy⟩ := hdiv x rfl
    have hr : p.Leads (.blob (p.store.canonical id)) := hans.leads hsec hid rfl
    refine ⟨id, q.place (.blob (p.store.canonical id)), hid, hnamed, ?_, key hr ?_⟩
    · rw [Store.offset?, hlaid.moved.canonical]
      exact hlaid.placed hr
    · rwa [Program.item, hy]
  · have hr := hplaced.2 ⟨o, ho⟩
    have ho' : q.place (.level ⟨i⟩) = o := by
      rw [Program.place, ho]; rfl
    rw [← ho']
    refine key hr ?_
    rw [Program.item, Program.sectionAt_eq hsec, hanswers.alignment, hn]
    exact dvd_rfl

/-! ## Two files with equal contents -/

namespace Demo

/-- Settings with chunks of 96 bytes. -/
def odd : Settings := { pack := { chunkSize := 96, sectorSize := 8, pinnedOrder := true } }

/-- A script that asks for two files, one of them twice. -/
def twice : String := "[root align=8]\nlong 1\ndata \"a\" 4\nfile \"b\" 12\nfile \"a\" 2\n"

/-- The script, and two files with equal contents. -/
def twins : Files where
  isFile p := p == path || p == .ofText "a" || p == .ofText "b"
  read p := if p = path then .ok (Utf8.encode twice)
    else if p = .ofText "a" ∨ p = .ofText "b" then .ok [1, 2, 3, 4] else .error (.absent p)

/-- The section of the script. -/
def source : ScriptSection where
  name := "root"
  alignment := some 8
  origin := ⟨0, path, 1, 0, 14⟩
  lines := [⟨"long", [.int 1], ⟨0, path, 2, 15, 21⟩⟩, ⟨"data", [.str "a", .int 4], ⟨0, path, 3, 22, 32⟩⟩,
    ⟨"file", [.str "b", .int 12], ⟨0, path, 4, 33, 44⟩⟩, ⟨"file", [.str "a", .int 2], ⟨0, path, 5, 45, 55⟩⟩]

theorem twins_buildable : Buildable odd twins path where
  valid := by decide +kernel
  script_lt {text} h := by
    have hread : twins.readText path = .ok twice := by decide +kernel
    rw [hread] at h
    cases h
    decide +kernel
  file_lt {p bytes} h := by
    simp only [twins] at h
    split_ifs at h <;> cases h <;> decide +kernel

theorem read_twins :
    ((Reader.readPath odd.readOptions twins path).run {}).2.table = ⟨[source]⟩ := by decide +kernel

theorem source_asks :
    source.Asks (Compiler.context odd ⟨[source]⟩ twins) (.ofText "b") 12 :=
  ⟨source.lines.take 2, _, source.lines.drop 3, rfl, rfl, _, _, "b", rfl, rfl, rfl, rfl⟩

theorem mergeSort_slots (l : List UInt32) : (l.mergeSort fun a b => a ≤ b) =
    if l.Pairwise (· ≤ ·) then l else l.mergeSort fun a b => !!decide (a ≤ b) := by
  split_ifs with h
  · exact List.mergeSort_of_pairwise (by simpa using h)
  · simp

end Demo

/-- The second file shares the contents of the first, which lie where its line wants them. -/
theorem build_alignments_demo : ∃ b stats table p q id o,
    (build Demo.odd Demo.twins Demo.path).result = .ok (b, stats) ∧
      Built Demo.odd Demo.twins Demo.path table p q b ∧ p.store.named? "b" = some id ∧
        q.store.offset? id = some o ∧ 12 ∣ o.toNat % 96 := by
  have hok : (build Demo.odd Demo.twins Demo.path).result.toOption.isSome = true := by
    simp only [build, Program.pack, Packer.pack, Packer.emit, Packer.slots,
      Demo.mergeSort_entries, Demo.mergeSort_slots]
    decide +kernel
  obtain ⟨⟨b, stats⟩, hb⟩ := Option.isSome_iff_exists.1 hok
  have hbuild := ok_of_toOption hb
  obtain ⟨table, p, q, hbuilt, -, hall⟩ := build_alignments Demo.twins_buildable hbuild
  obtain ⟨reader, hread, rfl⟩ := hbuilt.read
  have htable : reader.table = ⟨[Demo.source]⟩ := by rw [← Demo.read_twins, hread]
  -- the root is the only section
  obtain ⟨-, hp⟩ := (hbuilt.fresh Demo.twins_buildable).sound
  obtain ⟨sec, hsec, hrt⟩ := hp.root
  obtain ⟨source, hfind, hfiles, -⟩ := hall hsec hrt
  have hmem := List.mem_of_find?_eq_some hfind
  rw [htable, List.mem_singleton] at hmem
  obtain ⟨id, o, -, hid, ho, hdvd⟩ := hfiles (hmem ▸ htable ▸ Demo.source_asks)
  exact ⟨b, stats, _, p, q, id, o, hbuild, hbuilt, hid, ho, hdvd⟩

end LevelBundle
