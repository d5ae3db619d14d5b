/-
  LevelBundle — loading for either order of bytes.

  A loader reads words in the order of the bundle and writes them in this order, so that it
  comes to the same stage in two bundles whose words are the same.

  * `Wired k p q refs links name`: what a loader finds in a bundle, with or without a fixup
    table.  `Filed.run_init`: what the first call does.
  * `Filed.readAt_slot`, `Filed.readAt_long`: the words that are read from slots, and from the
    values of `long` lines, at every stage.
  * `Twins`: two bundles of programs of the same shape.  `Twins.wired`, `Twins.report`: they
    have the same references, and say the same.  `Twins.run_init`, `Twins.sameWords`: loaders
    come to the same stage in them, and read the same words there.  `Twins.load`: so it is for
    all addresses that are accepted.
-/
import LevelBundle.Proofs.LongLines
import LevelBundle.Proofs.Mounted
import LevelBundle.Proofs.OrderedPacking
import LevelBundle.Proofs.Reporting
import Mathlib.Data.List.Sort

namespace LevelBundle

variable {σ τ : Type}

/-! ## One bundle -/

/-- What a loader finds in a bundle: the references whose slots the fixup table lists, if there
    is one, and the names in the records. -/
structure Wired (k : Packer) (p q : Program) (refs : List UInt32) (links : List Link)
    (name : UInt32 → String) : Prop where
  slots : links.map Link.slot = if k.options.fixups = .absent then [] else refs
  refers : ∀ l ∈ links, ∃ id part ref, Refers p q l id part ref
  name : ∀ {id : SectionId} {filename : String}, p.Leads (.level id) →
    p.sections[id.index]? = some (Section.record filename) →
      name (q.place (.level id)) = upToZero filename

namespace Filed

variable {ctx : CompileContext} {pad : UInt32} {k : Packer} {p q : Program} {s : Settled}
  {b : Bundle} {refs : List UInt32} (h : Filed ctx pad k p q s b refs)
include h

theorem exists_wired : ∃ links name, Wired k p q refs links name := by
  obtain ⟨name, hname⟩ := h.exists_name
  by_cases habs : k.options.fixups = .absent
  · exact ⟨[], name, by rw [if_pos habs, List.map_nil], nofun, hname⟩
  · obtain ⟨links, hslots, hlinks⟩ := h.exists_links
    exact ⟨links, name, by rw [if_neg habs, hslots], hlinks, hname⟩

theorem mod_add_four_le {ref : ItemRef} (hr : p.Leads ref) {x : ℕ}
    (hx : x + 4 ≤ (p.item ref).size.toNat) :
    ((q.place ref).toNat + x) % k.addressing.chunkSize.toNat + 4 ≤
      k.addressing.chunkSize.toNat := by
  have hsane : k.addressing.chunkSize = k.options.chunkSize := h.sane
  have hin := (h.laidout.lies hr).inside
  have hpad := (h.length_contents hr).2
  rw [← hsane] at hin
  rw [← Nat.mod_add_mod, Nat.mod_eq_of_lt (by omega)]
  omega

variable {links : List Link} {name : UInt32 → String} (hw : Wired k p q refs links name)
  {bases : List UInt32} (hlength : bases.length =
    Image.chunksOf k.addressing.chunkSize.toNat b.bytes.size b.chunkCount.toNat)
include hw hlength

/-- **The first call**, with or without a fixup table. -/
theorem run_init (hu : ∀ base ∈ bases, Usable k.addressing base) {host : FileHost σ} {g g' : σ}
    {vs : List UInt32} {e : Option LoadError}
    (hans : host.answers ((pending [] links).map name) g = (vs, e, g')) :
    @Eq (Except LoadError LoadOutcome × Hosted σ)
      ((Loader.init host).run ⟨({} : Stage).loader k.addressing k.options.order bases
        (fileOf b.bytes.toList) b.chunkCount.toNat, g⟩)
      (e.elim
        (.ok { root := addressOf k.addressing bases (q.place (.level p.root))
               fixupsApplied := links.length, runtimeLoads := vs.length }) .error,
        ⟨(Stage.after links b.chunkCount.toNat vs (e.elim (some (addressOf k.addressing bases
          (q.place (.level p.root)))) fun _ => none)).loader k.addressing k.options.order bases
            (fileOf b.bytes.toList) b.chunkCount.toNat, g'⟩) := by
  by_cases habs : k.options.fixups = .absent
  · obtain ⟨hnone, -, -⟩ := h.report_absent habs
    have hnil := hw.slots
    rw [if_pos habs, List.map_eq_nil_iff] at hnil
    subst hnil
    have hnull : k.options.order.wordOf (fileOf b.bytes.toList) (4 * (b.chunkCount.toNat + 2)) =
        0 := by
      refine h.wordOf_front ((headerRow_end _ _ _ 2).trans ?_)
      rw [Bundle.tablePosition, hnone]
      rfl
    have hfront := h.fronted hw.refers
    rw [← hlength] at hfront
    cases hans
    exact hfront.run_init_null host hu hnull (Stage.ok_empty [] _) rfl g
  · obtain ⟨t, ht, hlies⟩ := h.table habs
    have hlinked := h.linked hw.refers (hw.slots.trans (if_neg habs)) hw.name ht hlies
    rw [← hlength] at hlinked
    have hrun := hlinked.run_init_open hu .first (fun _ hv => absurd hv List.not_mem_nil)
      (Nat.zero_le _) host g
    rw [List.length_nil, List.drop_zero, hans] at hrun
    cases e with
    | none => exact hrun
    | some e => exact hrun

variable {st : Stage} (ho : st.Ok links b.chunkCount.toNat)

omit hw in
/-- **The word in a slot**: what was written to it, or the position that it was packed with. -/
theorem readAt_slot {id : SectionId} {part : Part} {ref : ItemRef} {o : UInt32}
    (hslot : p.IsSlot q id part ref o) :
    (st.loader k.addressing k.options.order bases (fileOf b.bytes.toList)
      b.chunkCount.toNat).readAt o.toNat =
        .ok ((st.patches k.addressing bases b.chunkCount.toNat o.toNat).getD
          (k.addressing.positionAt (q.place ref) part.flags).word) := by
  have hin := h.inside_slot hslot
  have hread := st.read k.addressing k.options.order bases (fileOf b.bytes.toList)
    b.chunkCount.toNat hin.reaches.words (by rw [hlength]; exact hin.block_lt)
  rw [h.wordOf_slot hslot] at hread
  exact hread

include ho in
/-- **A value of a `long` line** is read as it was written in the script. -/
theorem readAt_long (hp : p.Finished ctx) (horder : ctx.order = k.options.order) {id : SectionId}
    {w : UInt32} {o : ℕ} (hlong : p.IsLong ctx.table q id w o) :
    (st.loader k.addressing k.options.order bases (fileOf b.bytes.toList)
      b.chunkCount.toNat).readAt o = .ok w := by
  obtain ⟨l, ws, l', j, hparts, hj, rfl⟩ := hlong.exists_literal hp (h.sound.holds hlong.leads)
  have hholds := h.holds_plain hw.refers hlength ho hlong.leads hlong.script hparts rfl
  have hbytes : q.partBytes k.addressing k.options.order (.literal (ctx.order.rowBytes ws)) =
      k.options.order.rowBytes ws := by rw [horder]; rfl
  rw [hbytes] at hholds
  refine Loader.readAt_of_holds (Loader.holds_row hholds hj) ?_
  have hi := (List.getElem?_eq_some_iff.1 hj).1
  have hsmall := (h.laidout.section h.sound hlong.leads).1.small
  have hlen : (q.partBytes k.addressing k.options.order (.literal (ctx.order.rowBytes ws))).length =
      _ := Program.length_partBytes (hsmall _ (by rw [hparts]; simp))
  rw [hbytes, ByteOrder.length_rowBytes] at hlen
  have hstop := h.stop_part_le hlong.leads hparts
  rw [Nat.add_assoc]
  exact h.mod_add_four_le hlong.leads (by omega)

end Filed

/-! ## Two bundles -/

/-- Two bundles of programs of the same shape, packed in the same way but for the order of
    bytes. -/
structure Twins (k k' : Packer) (p q p' q' : Program) (b b' : Bundle) : Prop where
  addressing : k.addressing = k'.addressing
  fixups : k.options.fixups = k'.options.fixups
  compiled : p.SameShape p'
  packed : q.SameShape q'
  alike : b.Alike b'

/-- The words in the slots of references, and those of `long` lines, are the same in two bundles
    in memory. -/
structure SameWords (table : SectionTable) (p q : Program) (l l' : Loader) : Prop where
  slot : ∀ {id : SectionId} {part : Part} {ref : ItemRef} {o : UInt32}, p.IsSlot q id part ref o →
    ∃ w, l.readAt o.toNat = .ok w ∧ l'.readAt o.toNat = .ok w
  long : ∀ {id : SectionId} {w : UInt32} {o : ℕ}, p.IsLong table q id w o →
    l.readAt o = .ok w ∧ l'.readAt o = .ok w

/-- Two hosts give the same addresses, and go on to do so up to the same name. -/
def FileHost.SameAddresses (host : FileHost σ) (g : σ) (host' : FileHost τ) (g' : τ) : Prop :=
  ∀ names, (host.answers names g).1 = (host'.answers names g').1 ∧
    ((host.answers names g).2.1 = none ↔ (host'.answers names g').2.1 = none)

/-- The first calls of two loaders come to the same, if the hosts give the same addresses. -/
def SameCalls (table : SectionTable) (p q : Program) (l l' : Loader) : Prop :=
  ∀ {σ τ : Type} {host : FileHost σ} {host' : FileHost τ} {g : σ} {g' : τ},
    host.SameAddresses g host' g' → ∃ result result' s s',
      @Eq (Except LoadError LoadOutcome × Hosted σ) ((Loader.init host).run ⟨l, g⟩) (result, s) ∧
      @Eq (Except LoadError LoadOutcome × Hosted τ) ((Loader.init host').run ⟨l', g'⟩)
        (result', s') ∧
      result.toOption = result'.toOption ∧ SameWords table p q s.loader s'.loader

theorem Packer.Slots.unique {p q p' q' : Program} {l l' : List UInt32} (h : Packer.Slots p q l)
    (h' : Packer.Slots p' q' l') (hp : p.SameShape p') (hq : q.SameShape q') : l = l' := by
  have : Std.Irrefl fun o o' : UInt32 => o.toNat < o'.toNat := ⟨fun _ => Nat.lt_irrefl _⟩
  refine h.increasing.eq_of_mem_iff h'.increasing fun o => ?_
  rw [h.mem_iff, h'.mem_iff]
  simp only [hp.isSlot_iff hq]

namespace Twins

variable {ctx ctx' : CompileContext} {pad pad' : UInt32} {k k' : Packer} {p q p' q' : Program}
  {s s' : Settled} {b b' : Bundle} {refs refs' : List UInt32} (ht : Twins k k' p q p' q' b b')
  (h : Filed ctx pad k p q s b refs) (h' : Filed ctx' pad' k' p' q' s' b' refs')
include ht h h'

/-- **The slots** are the same. -/
theorem refs_eq : refs = refs' := by
  obtain ⟨_, _, _, _, hf⟩ := h.file
  obtain ⟨_, _, _, _, hf'⟩ := h'.file
  exact hf.slots.unique hf'.slots ht.compiled ht.packed

omit h' in
theorem record {id : SectionId} {filename : String}
    (hs : p'.sections[id.index]? = some (Section.record filename)) :
    p.sections[id.index]? = some (Section.record filename) := by
  have hget := ht.compiled.getElem? id.index
  rw [hs, Option.map_some] at hget
  obtain ⟨t, htget, hshape⟩ := Option.map_eq_some_iff.1 hget
  obtain ⟨hname, -, -, -, -, hrecord, -⟩ := Section.shape_eq_iff.1 hshape
  obtain ⟨filename', rfl⟩ := h.sound.state.record htget hrecord
  obtain rfl : filename' = filename := (String.append_right_inj _).1 hname
  exact htget

/-- **The references** are the same, and so are the names in the records. -/
theorem wired {links : List Link} {name : UInt32 → String} (hw : Wired k p q refs links name) :
    Wired k' p' q' refs' links name := by
  refine ⟨?_, fun l hl => ?_, fun hr hs => ?_⟩
  · rw [hw.slots, ht.refs_eq h h', ht.fixups]
  · obtain ⟨id, part, ref, hslot, htarget, hruntime⟩ := hw.refers l hl
    exact ⟨id, part, ref, ht.compiled.isSlot ht.packed hslot, htarget.trans (ht.packed.place ref),
      hruntime⟩
  · rw [← ht.packed.place]
    exact hw.name (ht.compiled.symm.leads hr) (ht.record h hs)

/-- **The reports** are the same but for the checksum. -/
theorem report : ∃ r, Report.decode b.bytes k.addressing.chunkSize k.options.order = .ok r ∧
    Report.decode b'.bytes k'.addressing.chunkSize k'.options.order =
      .ok { r with crc32 := Checksum.crc32 b'.bytes } := by
  have hfront : Report.front k'.addressing b'.bytes b'.chunkCount b'.start =
      { Report.front k.addressing b.bytes b.chunkCount b.start with
        crc32 := Checksum.crc32 b'.bytes } := by
    simp only [Report.front, ht.addressing, ht.alike.size, ht.alike.chunkCount, ht.alike.start]
  by_cases habs : k.options.fixups = .absent
  · obtain ⟨-, -, hr⟩ := h.report_absent habs
    obtain ⟨-, -, hr'⟩ := h'.report_absent (ht.fixups ▸ habs)
    exact ⟨_, hr, by rw [hr', hfront]⟩
  · obtain ⟨t, hb, -, hr⟩ := h.report_table habs
    obtain ⟨t', hb', -, hr'⟩ := h'.report_table (ht.fixups ▸ habs)
    have htable := ht.alike.fixupTable
    rw [hb, hb', Option.some.injEq] at htable
    subst htable
    refine ⟨_, hr, ?_⟩
    rw [hr', hfront, ht.refs_eq h h', ht.addressing, ht.alike.chunkCount]

omit h h' in
theorem chunksOf_eq : Image.chunksOf k.addressing.chunkSize.toNat b.bytes.size b.chunkCount.toNat =
    Image.chunksOf k'.addressing.chunkSize.toNat b'.bytes.size b'.chunkCount.toNat := by
  rw [ht.addressing, ht.alike.size, ht.alike.chunkCount]

variable {links : List Link} {name : UInt32 → String} (hw : Wired k p q refs links name)
  {bases : List UInt32} (hlength : bases.length =
    Image.chunksOf k.addressing.chunkSize.toNat b.bytes.size b.chunkCount.toNat)
include hw hlength

/-- **The words are the same** at every stage. -/
theorem sameWords {st : Stage} (ho : st.Ok links b.chunkCount.toNat) (hp : p.Finished ctx)
    (hp' : p'.Finished ctx') (horder : ctx.order = k.options.order)
    (horder' : ctx'.order = k'.options.order) (htable : ctx.table = ctx'.table) :
    SameWords ctx.table p q
      (st.loader k.addressing k.options.order bases (fileOf b.bytes.toList) b.chunkCount.toNat)
      (st.loader k'.addressing k'.options.order bases (fileOf b'.bytes.toList)
        b'.chunkCount.toNat) := by
  have hw' := ht.wired h h' hw
  have hlength' := hlength.trans ht.chunksOf_eq
  refine ⟨fun hslot => ⟨_, h.readAt_slot hlength hslot, ?_⟩, fun hlong => ⟨?_, ?_⟩⟩
  · rw [h'.readAt_slot hlength' (ht.compiled.isSlot ht.packed hslot), ht.addressing,
      ht.alike.chunkCount, ht.packed.place]
  · exact h.readAt_long hw hlength ho hp horder hlong
  · have hlong' := ht.compiled.isLong ht.packed hlong
    rw [htable] at hlong'
    exact h'.readAt_long hw' hlength' (ht.alike.chunkCount ▸ ho) hp' horder' hlong'

/-- **The first calls** come to the same stage, if the hosts give the same addresses. -/
theorem run_init (hu : ∀ base ∈ bases, Usable k.addressing base) {host : FileHost σ}
    {host' : FileHost τ} {g : σ} {g' : τ} (hsame : host.SameAddresses g host' g') :
    ∃ (st : Stage) (result result' : Except LoadError LoadOutcome) (g₁ : σ) (g₁' : τ),
      st.Ok links b.chunkCount.toNat ∧
      @Eq (Except LoadError LoadOutcome × Hosted σ)
        ((Loader.init host).run ⟨({} : Stage).loader k.addressing k.options.order bases
          (fileOf b.bytes.toList) b.chunkCount.toNat, g⟩)
        (result, ⟨st.loader k.addressing k.options.order bases (fileOf b.bytes.toList)
          b.chunkCount.toNat, g₁⟩) ∧
      @Eq (Except LoadError LoadOutcome × Hosted τ)
        ((Loader.init host').run ⟨({} : Stage).loader k'.addressing k'.options.order bases
          (fileOf b'.bytes.toList) b'.chunkCount.toNat, g'⟩)
        (result', ⟨st.loader k'.addressing k'.options.order bases (fileOf b'.bytes.toList)
          b'.chunkCount.toNat, g₁'⟩) ∧
      result.toOption = result'.toOption := by
  have hw' := ht.wired h h' hw
  have hlength' := hlength.trans ht.chunksOf_eq
  have hroot : q.place (.level p.root) = q'.place (.level p'.root) := by
    rw [ht.packed.place, ht.compiled.root]
  obtain ⟨hvs, hnone⟩ := hsame ((pending [] links).map name)
  rcases hans : host.answers ((pending [] links).map name) g with ⟨vs, e, g₁⟩
  rcases hans' : host'.answers ((pending [] links).map name) g' with ⟨vs', e', g₁'⟩
  rw [hans, hans'] at hvs hnone
  obtain rfl : vs = vs' := hvs
  have hrun := h.run_init hw hlength hu hans
  have hrun' := h'.run_init hw' hlength' (ht.addressing ▸ hu) hans'
  rw [← hroot, ← ht.addressing, ← ht.alike.chunkCount] at hrun'
  rw [← ht.addressing, ← ht.alike.chunkCount]
  have hok (r : Option UInt32) : (Stage.after links b.chunkCount.toNat vs r).Ok links
      b.chunkCount.toNat := Stage.ok_after (FileHost.answers_even hans)
  -- both hosts answer all names, or both stop at the same one
  cases e with
  | none =>
    obtain rfl : e' = none := hnone.1 rfl
    exact ⟨_, _, _, _, _, hok _, hrun, hrun', rfl⟩
  | some e =>
    cases e' with
    | none => exact absurd (hnone.2 rfl) nofun
    | some e' => exact ⟨_, _, _, _, _, hok _, hrun, hrun', rfl⟩

omit hw hlength in
/-- **Loading.**  The addresses that are accepted for one bundle are accepted for the other, and
    the first calls come to the same. -/
theorem load (hp : p.Finished ctx) (hp' : p'.Finished ctx') (horder : ctx.order = k.options.order)
    (horder' : ctx'.order = k'.options.order) (htable : ctx.table = ctx'.table) {l : Loader}
    (hl : (Image.of b.bytes k.addressing.chunkSize k.options.order b.chunkCount.toNat).loader bases =
      .ok l) :
    ∃ l', (Image.of b'.bytes k'.addressing.chunkSize k'.options.order
      b'.chunkCount.toNat).loader bases = .ok l' ∧ SameCalls ctx.table p q l l' := by
  obtain ⟨links, name, hw⟩ := h.exists_wired
  obtain ⟨hlength, hu, rfl⟩ := Image.loader_of hl
  have hne : 0 < bases.length := by
    rw [hlength]
    exact Nat.zero_lt_of_lt (h.inside_place .root).block_lt
  obtain ⟨l', hl'⟩ := @Image.exists_loader k'.addressing b'.bytes k'.options.order bases
    b'.chunkCount.toNat (hlength.trans ht.chunksOf_eq) hne (ht.addressing ▸ hu)
  refine ⟨l', hl', fun {σ τ host host' g g'} hsame => ?_⟩
  obtain ⟨-, -, rfl⟩ := Image.loader_of hl'
  obtain ⟨st, result, result', g₁, g₁', ho, hrun, hrun', heq⟩ :=
    ht.run_init h h' hw hlength hu hsame
  rw [Stage.loader, Stage.patches_empty] at hrun hrun'
  exact ⟨result, result', _, _, hrun, hrun', heq,
    ht.sameWords h h' hw hlength ho hp hp' horder horder' htable⟩

end Twins

end LevelBundle
