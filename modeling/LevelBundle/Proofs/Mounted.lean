/-
  LevelBundle — built bundles in memory.

  * `Built.image`: the file of a build is split into chunks, and every loader for these
    holds a bundle that can be resolved.
  * `Mounted`: what is known of such a loader: the links of the bundle, in the order of
    their slots, and the records that they need.
-/
import LevelBundle.Proofs.Loaded
import LevelBundle.Proofs.PackedFile

namespace LevelBundle

/-- The address that an offset of a bundle has in memory. -/
def Bundle.address (b : Bundle) (bases : List UInt32) (o : UInt32) : UInt32 :=
  bases.getD (o.toNat / b.chunkSize.toNat) 0 + o % b.chunkSize

/-- A bundle as it was built, in memory. -/
structure Mounted (k : Packer) (p q : Program) (b : Bundle) (refs : List UInt32)
    (links : List Link) (records : List (SectionId × String)) (bases : List UInt32) (l : Loader) :
    Prop where
  filed : ∃ ctx pad s, Filed ctx pad k p q s b refs
  chunkSize : b.chunkSize = k.addressing.chunkSize
  start : b.start = k.addressing.positionAt (q.place (.level p.root)) Position.unresolvedFlag
  fixupCount : b.fixupCount = refs.length
  slots : links.map Link.slot = refs
  refers : ∀ l ∈ links, ∃ id part ref, Refers p q l id part ref
  asked : p.Records records
  places : pending [] links = records.map fun e => q.place (.level e.1)
  linked : ∃ t name, Linked k.addressing k.options.order (fileOf b.bytes.toList) bases.length
    b.chunkCount.toNat (q.place (.level p.root)) t links name ∧
      (pending [] links).map name = records.map fun e => upToZero e.2
  length : bases.length =
    Image.chunksOf k.addressing.chunkSize.toNat b.bytes.size b.chunkCount.toNat
  usable : ∀ base ∈ bases, Usable k.addressing base
  loader : l = ({} : Stage).loader k.addressing k.options.order bases (fileOf b.bytes.toList)
    b.chunkCount.toNat

theorem Stage.patches_empty (a : Addressing) (bases : List UInt32) (count : ℕ) :
    ({} : Stage).patches a bases count = fun _ => none := by
  funext x
  unfold patches
  rw [if_neg (show ¬ (x % 4 = 0 ∧ x < 4 * 0) by omega)]
  split_ifs <;> rfl

variable {s : Settings} {files : Files} {script : Path} {table : SectionTable} {p q : Program}
  {b : Bundle}

/-- **The image of a build** can be put in memory and resolved. -/
theorem Built.image (h : Built s files script table p q b) (hs : Buildable s files script)
    (hfix : s.pack.fixups ≠ .absent) : ∃ image k refs links records,
      Image.ofBytes b.bytes b.chunkSize s.pack.order = .ok image ∧ k.options = s.pack ∧
        p.Records records ∧ ∀ {bases l}, image.loader bases = .ok l →
          Mounted k p q b refs links records bases l := by
  obtain ⟨k, l, refs, hopt, hf⟩ := (h.fresh hs).filed h.packed
  obtain ⟨placed, body, gap, border, hfile⟩ := hf.file
  have hchunk := hf.chunkSize_eq
  obtain ⟨links, hslots, hlinks⟩ := hf.exists_links
  obtain ⟨records, hrecords, hplaces⟩ := hf.exists_records hslots hlinks
  obtain ⟨name, hname⟩ := hf.exists_name
  obtain ⟨t, ht, hlies⟩ := hf.table (by rwa [hopt])
  obtain ⟨r, hrow⟩ := hf.chunk_table
  have himage := Image.ofBytes_row (a := k.addressing) hrow
  rw [← hchunk, hopt] at himage
  refine ⟨_, k, refs, links, records, himage, hopt, hrecords, fun {bases l} hl => ?_⟩
  rw [hchunk, ← hopt] at hl
  obtain ⟨hlength, husable, rfl⟩ := Image.loader_of hl
  have hlinked := hf.linked hlinks hslots hname ht hlies
  rw [← hlength] at hlinked
  exact {
    filed := ⟨_, _, _, hf⟩, chunkSize := hchunk, start := hfile.start
    fixupCount := hfile.fixupCount, slots := hslots, refers := hlinks, asked := hrecords
    places := hplaces, length := hlength, usable := husable
    linked := ⟨t, name, hlinked, by
      rw [hplaces, List.map_map]
      exact List.map_congr_left fun e he => hname (hrecords.mem_iff.1 he).1 (hrecords.mem_iff.1 he).2⟩
    loader := by rw [Stage.loader, Stage.patches_empty] }

end LevelBundle
