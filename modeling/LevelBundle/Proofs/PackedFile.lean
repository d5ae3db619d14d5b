/-
  LevelBundle — the file that a build writes.

  * `Program.Fresh`: a program as it was compiled, from texts and files that are not
    too long.
  * `pack_eq_ok`: packing chooses a layout, sets the offsets, and writes the file.
  * `pack_file`: the file of a packed program is determined by the layout, byte for
    byte.
  * `Built`: the stages of a build, which packs a fresh program.
-/
import LevelBundle.Build
import LevelBundle.Proofs.ScriptSize
import LevelBundle.Proofs.Standing

namespace LevelBundle

/-! ## Fresh programs -/

/-- A program as it was compiled under some settings that pass their check, from
    script texts of less than `2 ^ 30` bytes once they are expanded, and from files of
    less than `2 ^ 30` bytes each. -/
structure Program.Fresh (s : Settings) (files : Files) (table : SectionTable) (p : Program) :
    Prop where
  /-- The settings pass their check. -/
  valid : s.validate = .ok ()
  /-- No file is too long. -/
  file_lt : ∀ {path bytes}, files.read path = .ok bytes → bytes.length < 2 ^ 30
  /-- The texts are not too long, and the sections are what they hold. -/
  read : ∃ (texts : List (Path × String)) (reader : Reader),
    Runs (texts.forM fun t => Reader.readText s.readOptions t.1 t.2) {} ⟨⟩ reader ∧
      (texts.map fun t => s.definitions.expandedSize t.2).sum < 2 ^ 30 ∧ reader.table = table
  /-- The program is what the sections compile to, some of them perhaps before the root. -/
  compiled : ∃ calls c root,
    Runs (Compiler.compileAll (Compiler.context s table files) calls) (Compiler.start s) ⟨⟩ c ∧
      Compiler.compile (Compiler.context s table files) c root = .ok p

section

variable {s : Settings} {files : Files} {table : SectionTable} {p q : Program} {b : Bundle}

/-- **A fresh program is sound.** -/
theorem Program.Fresh.sound (h : p.Fresh s files table) :
    (Compiler.context s table files).Bounded s.padSize ∧
      p.Sound (Compiler.context s table files) s.padSize := by
  obtain ⟨texts, reader, hread, hlt, rfl⟩ := h.read
  obtain ⟨calls, c, root, hcalls, hc⟩ := h.compiled
  have hb : (Compiler.context s reader.table files).Bounded s.padSize := by
    refine ⟨(Settings.valid_of_validate h.valid).grain, ?_, h.file_lt⟩
    have hle := Reader.written_readTexts hread
    have h0 : ({} : Reader).table.written = 0 := rfl
    have hdef : s.readOptions.definitions = s.definitions := rfl
    rw [h0, hdef, Nat.zero_add] at hle
    exact hle.trans_lt hlt
  exact ⟨hb, Compiler.compile_sound hb hcalls hc⟩

/-! ## Packing -/

/-- **Packing, step by step.** -/
theorem pack_eq_ok {options : PackOptions} : p.pack options = (.ok b, q) ↔
    ∃ k l, Packer.ofOptions options = .ok k ∧
      k.settle p.items (Packer.fixupCount p p.items) k.options.maxLayoutPasses.toNat 0
        (k.estimate p p.items (Packer.fixupCount p p.items)) = .ok l ∧
      Runs (Packer.commit p.items l.layout) p ⟨⟩ q ∧ k.emit q p.items l = .ok b := by
  unfold Program.pack
  cases hk : Packer.ofOptions options with
  | error e => simp only [Prod.mk.injEq, reduceCtorEq, false_and, exists_false]
  | ok k =>
    show Runs k.pack p b q ↔ _
    simp only [Packer.pack, runs_bind, runs_get, runs_lift]
    constructor
    · rintro ⟨_, _, ⟨rfl, rfl⟩, l, _, ⟨hl, rfl⟩, _, _, hc, _, _, ⟨rfl, rfl⟩, he, rfl⟩
      exact ⟨k, l, rfl, hl, hc, he⟩
    · rintro ⟨_, l, hk, hl, hc, he⟩
      cases hk
      exact ⟨_, _, ⟨rfl, rfl⟩, l, _, ⟨hl, rfl⟩, _, _, hc, _, _, ⟨rfl, rfl⟩, he, rfl⟩

/-- What is known of a packed program. -/
structure Packed (s : Settings) (k : Packer) (p q : Program) (l : Settled) (b : Bundle) :
    Prop where
  sane : k.Sane
  options : k.options = s.pack
  sector_le : k.options.sectorSize.toNat ≤ k.options.chunkSize.toNat
  accepts : k.Accepts p.items (Packer.fixupCount p p.items) l
  laidout : Packer.Laidout k p q l
  emit : k.emit q p.items l = .ok b

theorem Program.Fresh.packed (h : p.Fresh s files table) (hp : p.pack s.pack = (.ok b, q)) :
    ∃ k l, Packed s k p q l b := by
  obtain ⟨hb, hsound⟩ := h.sound
  obtain ⟨k, l, hk, hl, hc, he⟩ := pack_eq_ok.1 hp
  obtain ⟨hsane, hopt⟩ := Packer.sane_of_ofOptions hk
  have hacc := Packer.settle_accepts hl
  exact ⟨k, l, hsane, hopt, by rw [hopt]; exact (Settings.valid_of_validate h.valid).sector_le,
    hacc, Packer.laidout hsane hsound hb.grain hacc hc, he⟩

theorem Program.Fresh.filed (h : p.Fresh s files table) (hp : p.pack s.pack = (.ok b, q)) :
    ∃ k l refs, k.options = s.pack ∧
      Filed (Compiler.context s table files) s.padSize k p q l b refs := by
  obtain ⟨hb, hsound⟩ := h.sound
  obtain ⟨k, l, hpacked⟩ := h.packed hp
  obtain ⟨refs, body, gap, border, hcount, hheader, hfile⟩ := Packer.emit_file hsound hb.grain
    hpacked.sane hpacked.laidout hpacked.accepts hpacked.sector_le hpacked.emit
  exact ⟨k, l, refs, hpacked.options, hsound, hb.grain, hpacked.sane, hpacked.accepts,
    hpacked.laidout, hcount, hheader, _, _, _, _, hfile⟩

/-- **The file of a packed program is determined by the layout**, byte for byte. -/
theorem pack_file (h : p.Fresh s files table) (hp : p.pack s.pack = (.ok b, q)) :
    ∃ k refs placed body gap border, k.options = s.pack ∧ k.addressing.chunkSize = b.chunkSize ∧
      b.File k p q refs placed body gap border := by
  obtain ⟨hb, hsound⟩ := h.sound
  obtain ⟨k, l, hpacked⟩ := h.packed hp
  obtain ⟨refs, body, gap, border, -, -, hfile⟩ := Packer.emit_file hsound hb.grain hpacked.sane
    hpacked.laidout hpacked.accepts hpacked.sector_le hpacked.emit
  exact ⟨k, refs, _, body, gap, border, hpacked.options, by rw [hfile.chunkSize]; exact hpacked.sane,
    hfile⟩

/-! ## Builds -/

/-- What is asked of a build: the settings pass their check, and neither the script, once
    it is expanded, nor a file has `2 ^ 30` bytes. -/
structure Buildable (s : Settings) (files : Files) (script : Path) : Prop where
  valid : s.validate = .ok ()
  script_lt : ∀ {text}, files.readText script = .ok text → s.definitions.expandedSize text < 2 ^ 30
  file_lt : ∀ {path bytes}, files.read path = .ok bytes → bytes.length < 2 ^ 30

/-- The stages of a build: the sections that are read, the program `p` that they are
    compiled to, and the same program `q` once it is packed. -/
structure Built (s : Settings) (files : Files) (script : Path) (table : SectionTable)
    (p q : Program) (b : Bundle) : Prop where
  read : ∃ reader, Runs (Reader.readPath s.readOptions files script) {} ⟨⟩ reader ∧
    reader.table = table
  compiled : Compiler.compile (Compiler.context s table files) (Compiler.start s) s.root = .ok p
  packed : p.pack s.pack = (.ok b, q)

variable {script : Path}

/-- **A build**, stage by stage. -/
theorem build_eq_ok {stats : BuildStats} (h : (build s files script).result = .ok (b, stats)) :
    ∃ table p q, Built s files script table p q b := by
  unfold build at h
  rcases hr : (Reader.readPath s.readOptions files script).run {} with ⟨e | u, reader⟩
  · simp only [hr, reduceCtorEq] at h
  simp only [hr] at h
  split at h
  · cases h
  rename_i p hc
  split at h
  · cases h
  rename_i q hp
  cases h
  exact ⟨reader.table, p, q, ⟨reader, hr, rfl⟩, hc, hp⟩

/-- What the sections of a script are compiled to is fresh. -/
theorem Program.fresh_of_path (hs : Buildable s files script) {reader : Reader} {u : Unit}
    (hread : Runs (Reader.readPath s.readOptions files script) {} u reader)
    (hc : Compiler.compile (Compiler.context s reader.table files) (Compiler.start s) s.root =
      .ok p) : p.Fresh s files reader.table := by
  unfold Reader.readPath at hread
  split at hread
  · simp only [runs_throw] at hread
  rename_i text ht
  exact ⟨hs.valid, hs.file_lt, ⟨[(script, text)], reader, runs_bind.2 ⟨_, _, hread,
    runs_pure.2 ⟨rfl, rfl⟩⟩, by simpa using hs.script_lt ht, rfl⟩,
    [], _, s.root, runs_pure.2 ⟨rfl, rfl⟩, hc⟩

/-- **A build packs a fresh program.** -/
theorem Built.fresh (h : Built s files script table p q b) (hs : Buildable s files script) :
    p.Fresh s files table := by
  obtain ⟨⟨reader, hread, rfl⟩, hc, -⟩ := h
  exact Program.fresh_of_path hs hread hc

end

/-! ## A small bundle -/

namespace Demo

/-- Settings with small chunks and the fixup table at the end. -/
def settings : Settings :=
  { pack := { chunkSize := 64, fixups := .tail, sectorSize := 8, pinnedOrder := true } }

/-- A script that loads a file on demand. -/
def script : String := "[root]\nload \"a\\0b\"\n"

/-- The path of the script. -/
def path : Path := .ofText "main.lvs"

/-- The script is the only file. -/
def files : Files where
  isFile p := p == path
  read p := if p = path then .ok (Utf8.encode script) else .error (.absent p)

theorem buildable : Buildable settings files path where
  valid := by decide +kernel
  script_lt {text} h := by
    have hread : files.readText path = .ok script := by decide +kernel
    rw [hread] at h
    cases h
    decide +kernel
  file_lt {p bytes} h := by
    simp only [files] at h
    split_ifs at h
    cases h
    decide +kernel

theorem mergeSort_entries (l : List (Item × UInt32)) : (l.mergeSort fun a b => a.2 ≤ b.2) =
    if l.Pairwise (fun a b => a.2 ≤ b.2) then l
    else l.mergeSort fun a b => !!decide (a.2 ≤ b.2) := by
  split_ifs with h
  · exact List.mergeSort_of_pairwise (by simpa using h)
  · simp

theorem build_ok : ∃ b stats, (build settings files path).result = .ok (b, stats) := by
  have h : (build settings files path).result.toOption.isSome = true := by
    simp only [build, Program.pack, Packer.pack, Packer.emit, mergeSort_entries]
    decide +kernel
  obtain ⟨⟨b, stats⟩, hb⟩ := Option.isSome_iff_exists.1 h
  exact ⟨b, stats, ok_of_toOption hb⟩

end Demo

/-- The file of a small bundle. -/
theorem pack_file_demo : ∃ table p q b k refs placed body gap border,
    Program.Fresh Demo.settings Demo.files table p ∧
      p.pack Demo.settings.pack = (.ok b, q) ∧ k.options = Demo.settings.pack ∧
      b.File k p q refs placed body gap border := by
  obtain ⟨b, stats, hb⟩ := Demo.build_ok
  obtain ⟨table, p, q, hbuilt⟩ := build_eq_ok hb
  have hfresh := hbuilt.fresh Demo.buildable
  obtain ⟨k, refs, placed, body, gap, border, hopt, -, hfile⟩ := pack_file hfresh hbuilt.packed
  exact ⟨table, p, q, b, k, refs, placed, body, gap, border, hfresh, hbuilt.packed, hopt, hfile⟩

end LevelBundle
