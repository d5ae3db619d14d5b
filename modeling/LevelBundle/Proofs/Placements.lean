/-
  LevelBundle — what a bundle places.

  A bundle holds what the root of a program leads to, and the store of the program holds
  nothing else.

  * `Program.LinksTo p id target`: a section refers to another one, or to the record of a
    file, in one of its parts.
  * `Whole.reachable_perm`: what is placed is the sections that the root leads to over such
    references, and the canonical blobs of the store.
  * `Whole.total_items`: so their size is what the estimate takes it to be.
  * `Program.Places`: what a bundle places.  `pack_places`: each section and each canonical
    blob is placed once, and no layout that is tried takes less than was estimated.
-/
import LevelBundle.Proofs.Alignments
import LevelBundle.Proofs.Estimate
import LevelBundle.Proofs.PackOnce

namespace LevelBundle

/-- The section that is meant, if it is one. -/
def ItemRef.level? : ItemRef → Option SectionId
  | .level id => some id
  | .blob _ => none

/-- The blob that is meant, if it is one. -/
def ItemRef.blob? : ItemRef → Option BlobId
  | .level _ => none
  | .blob id => some id

namespace Program

variable {ctx : CompileContext} {p q : Program} {k : Packer} {s : Settled} {b : Bundle}
  {id target : SectionId}

/-! ## References -/

/-- A section refers to another one, or to the record of a file, in one of its parts. -/
def LinksTo (p : Program) (id target : SectionId) : Prop :=
  ∃ part ∈ (p.sectionAt id).parts, part = .level target ∨ ∃ name, part = .runtimeFile name target

theorem linksTo_iff : p.LinksTo id target ↔ .level target ∈ p.targets (.level id) := by
  simp only [targets, List.mem_filterMap, LinksTo]
  constructor
  · rintro ⟨part, hpart, rfl | ⟨name, rfl⟩⟩
    · exact ⟨_, hpart, rfl⟩
    · exact ⟨_, hpart, rfl⟩
  · rintro ⟨part, hpart, ht⟩
    refine ⟨part, hpart, ?_⟩
    cases part with
    | level id' =>
      cases ht
      exact Or.inl rfl
    | runtimeFile name id' =>
      cases ht
      exact Or.inr ⟨name, rfl⟩
    | blob | literal | align | pad => cases ht

/-- **The sections that the root leads to** are those it refers to, over any number of
    sections. -/
theorem leads_level_iff :
    p.Leads (.level id) ↔ Relation.ReflTransGen p.LinksTo p.root id := by
  constructor
  · intro h
    generalize href : ItemRef.level id = ref at h
    induction h generalizing id with
    | root =>
      cases href
      exact .refl
    | @step source _ _ ht ih =>
      subst href
      -- a blob refers to nothing
      cases source with
      | level id' => exact (ih rfl).tail (linksTo_iff.2 ht)
      | blob id' => cases ht
  · intro h
    induction h with
    | refl => exact .root
    | tail _ hstep ih => exact .step ih (linksTo_iff.1 hstep)

/-- The sections that are placed, in the order in which they are found. -/
def placedSections (p : Program) : List SectionId := p.reachable.filterMap ItemRef.level?

theorem mem_placedSections : id ∈ p.placedSections ↔ .level id ∈ p.reachable := by
  rw [placedSections, List.mem_filterMap]
  constructor
  · rintro ⟨ref, hmem, href⟩
    cases ref with
    | level id' =>
      cases href
      exact hmem
    | blob id' => cases href
  · exact fun h => ⟨_, h, rfl⟩

theorem Linked.nodup_placedSections (hp : p.Linked) : p.placedSections.Nodup := by
  refine hp.nodup_reachable.filterMap fun ref ref' id h h' => ?_
  cases ref with
  | blob => cases h
  | level =>
    cases ref' with
    | blob => cases h'
    | level =>
      cases h
      cases h'
      rfl

/-- **What is placed**: the sections that the root leads to, and the canonical blobs. -/
theorem Whole.reachable_perm (hp : p.Whole ctx) : p.reachable.Perm
    (p.placedSections.map .level ++ p.store.canonicalIds.map .blob) := by
  refine (List.perm_ext_iff_of_nodup hp.linked.nodup_reachable ?_).2 fun ref => ?_
  · refine List.nodup_append.2 ⟨hp.linked.nodup_placedSections.map fun _ _ h => ItemRef.level.inj h,
      (Store.nodup_canonicalIds _).map fun _ _ h => ItemRef.blob.inj h, ?_⟩
    rintro _ h _ h' rfl
    obtain ⟨id, -, hid⟩ := List.mem_map.1 h
    obtain ⟨id', -, hid'⟩ := List.mem_map.1 h'
    cases hid.trans hid'.symm
  · cases ref with
    | level id => simp [mem_placedSections]
    | blob id => simp [hp.linked.mem_reachable_iff, hp.leads_blob_iff]

theorem Whole.placedBlobs_perm (hp : p.Whole ctx) :
    (p.reachable.filterMap ItemRef.blob?).Perm p.store.canonicalIds := by
  have hperm := hp.reachable_perm.filterMap ItemRef.blob?
  have hlevels : ∀ ids : List SectionId, (ids.map ItemRef.level).filterMap ItemRef.blob? = [] := by
    intro ids
    simp [List.filterMap_map, Function.comp_def, ItemRef.blob?]
  have hblobs : ∀ ids : List BlobId, (ids.map ItemRef.blob).filterMap ItemRef.blob? = ids := by
    intro ids
    simp [List.filterMap_map, Function.comp_def, ItemRef.blob?]
  rwa [List.filterMap_append, hlevels, hblobs, List.nil_append] at hperm

/-- The size of some items is that of the sections and of the blobs among them. -/
theorem total_map_item (p : Program) (refs : List ItemRef) :
    Packer.total (refs.map p.item) = Packer.sectionTotal (refs.map p.item) +
      p.store.paddedSize (refs.filterMap ItemRef.blob?) := by
  induction refs with
  | nil => rfl
  | cons ref refs ih =>
    simp only [Packer.total, Packer.sectionTotal, Store.paddedSize, List.map_cons, List.sum_cons,
      List.foldr_cons, item_ref] at ih ⊢
    cases ref with
    | level id =>
      simp only [List.filterMap_cons, ItemRef.blob?]
      omega
    | blob id =>
      have hpad : (p.item (.blob id)).padSize = p.store.padSizeOf id := rfl
      simp only [List.filterMap_cons, ItemRef.blob?, List.map_cons, List.sum_cons, hpad]
      omega

/-- **The size of all items** is what the estimate takes it to be. -/
theorem Whole.total_items (hp : p.Whole ctx) :
    Packer.total p.items = Packer.sectionTotal p.items + p.store.totalPadSize := by
  rw [hp.balanced.total, items, total_map_item]
  congr 1
  exact (hp.placedBlobs_perm.map _).sum_nat

/-! ## Placements -/

/-- The entry for an item in a bundle, once the program `p` is placed as `q`. -/
def placedItem (p q : Program) (ref : ItemRef) : PlacedItem :=
  ⟨q.place ref, (p.item ref).size, (p.item ref).padSize, (p.item ref).kind, (p.item ref).name⟩

theorem Placed.offsets_eq {l : Layout} (h : p.Placed l q) :
    l.offsets.toList = p.reachable.map q.place := by
  calc l.offsets.toList
    _ = (l.offsets.toList.map some).map fun o => o.getD 0 := by simp
    _ = (p.reachable.map q.offsetOf?).map fun o => o.getD 0 := by rw [h.offsets]
    _ = p.reachable.map q.place := by rw [List.map_map]; rfl

/-- **What a bundle places**, if it is written from a layout. -/
theorem Placed.placements_perm (h : p.Placed s.layout q) (he : k.emit q p.items s = .ok b) :
    b.placements.Perm (p.reachable.map (p.placedItem q)) := by
  obtain ⟨_, _, _, _, _, hstages⟩ := Packer.emit_stages he
  have hzip : p.items.zip s.layout.offsets.toList = p.reachable.map fun ref =>
      (p.item ref, q.place ref) := by
    rw [h.offsets_eq, items, List.zip_map']
  rw [hstages.placements, Packer.inOrder, hzip]
  refine ((List.mergeSort_perm _ _).map _).trans ?_
  rw [List.map_map]
  rfl

/-- What a bundle places: the sections `ids` that the root leads to and the canonical blobs of
    the store, each once and at its offset of a layout, and nothing else.  So the figures of a
    build count what is placed, and every line that asks for a file is counted. -/
structure Places (ctx : CompileContext) (p q : Program) (layout : Layout) (b : Bundle)
    (ids : List SectionId) : Prop where
  placed : p.Placed layout q
  sections : ∀ id, id ∈ ids ↔ Relation.ReflTransGen p.LinksTo p.root id
  there : ∀ id ∈ ids, ∃ sec, p.sections[id.index]? = some sec
  nodup_sections : ids.Nodup
  nodup_blobs : p.store.canonicalIds.Nodup
  placements : b.placements.Perm (ids.map (fun id => p.placedItem q (.level id)) ++
    p.store.canonicalIds.map fun id => p.placedItem q (.blob id))
  blobs : (BuildStats.of p b).blobs = b.placements.countP fun i => i.kind == .blob
  lines : (BuildStats.of p b).dedupHits + (BuildStats.of p b).blobs = fileLines ctx.table p.sections

theorem Whole.places (hp : p.Whole ctx) (h : p.Placed s.layout q)
    (he : k.emit q p.items s = .ok b) : p.Places ctx q s.layout b p.placedSections := by
  have hperm := h.placements_perm he
  have hall := hperm.trans (hp.reachable_perm.map _)
  rw [List.map_append, List.map_map, List.map_map] at hall
  refine ⟨h, fun id => ?_, fun id hid => ?_, hp.linked.nodup_placedSections,
    Store.nodup_canonicalIds _, hall, ?_, hp.balanced.hits⟩
  · rw [mem_placedSections, hp.linked.mem_reachable_iff, leads_level_iff]
  · exact hp.linked _ (hp.linked.mem_reachable_iff.1 (mem_placedSections.1 hid))
  · -- no section is counted, and every blob is
    have hlevels : (p.placedSections.map (p.placedItem q ∘ .level)).countP
        (fun i => i.kind == .blob) = 0 := by
      rw [List.countP_eq_zero]
      intro i hi
      obtain ⟨id, -, rfl⟩ := List.mem_map.1 hi
      simp only [Function.comp_def, placedItem, item]
      split_ifs <;> decide
    have hblobs : (p.store.canonicalIds.map (p.placedItem q ∘ .blob)).countP
        (fun i => i.kind == .blob) = p.store.canonicalIds.length := by
      rw [List.countP_map]
      exact List.countP_eq_length.2 fun _ _ => rfl
    rw [hall.countP_eq, List.countP_append, hlevels, hblobs, Nat.zero_add]
    rfl

/-! ## Passes -/

/-- The first estimate of the number of chunks. -/
def estimated (p : Program) (k : Packer) : UInt32 :=
  k.estimate p p.items (Packer.fixupCount p p.items)

/-- The layouts that are tried, pass by pass. -/
def tried (p : Program) (k : Packer) : List Layout :=
  k.layouts p.items (Packer.fixupCount p p.items) k.options.maxLayoutPasses.toNat (p.estimated k)

/-- **A bundle places what is reachable**: the sections that the root leads to and the
    canonical blobs, each once.  The layout is that of the last pass, and no pass has taken
    less than was estimated; so nothing is left over of an estimate that fits at once. -/
theorem pack_places {st : Settings} {root : String} {options : PackOptions}
    (h : Compiler.compile ctx (Compiler.start st) root = .ok p)
    (hpack : p.pack options = (.ok b, q)) :
    ∃ k ids earlier layout, Packer.ofOptions options = .ok k ∧ p.Places ctx q layout b ids ∧
      p.tried k = earlier ++ [layout] ∧ b.passes.toNat = (p.tried k).length ∧
      (∀ l ∈ p.tried k, p.estimated k ≤ l.chunksUsed) ∧
      (b.passes = 1 → b.chunkCount = layout.chunksUsed) := by
  have hp := compile_whole h
  obtain ⟨k, s, hk, hsettle, hcommit, hemit⟩ := pack_eq_ok.1 hpack
  obtain ⟨hsane, -⟩ := Packer.sane_of_ofOptions hk
  obtain ⟨q', hcommit', hplaced⟩ := hp.linked.placed (k := k) hp.unplaced hsettle
  obtain rfl : q' = q := (Prod.mk.inj (hcommit'.symm.trans hcommit)).2
  obtain ⟨_, _, _, _, _, hstages⟩ := Packer.emit_stages hemit
  have hleft := k.options.maxLayoutPasses.toNat_lt
  obtain ⟨earlier, htried, hpasses, hfirst⟩ := Packer.settle_layouts hsettle (by simpa using hleft)
  have hest : ∀ l ∈ p.tried k, p.estimated k ≤ l.chunksUsed :=
    Packer.estimate_le_layouts hsane hp.total_items (UInt32.le_refl _)
  have hlayouts : p.tried k = earlier ++ [s.layout] := htried
  have hcount : b.passes.toNat = earlier.length + 1 := by
    rw [hstages.passes, hpasses]
    simp
  refine ⟨k, p.placedSections, earlier, s.layout, hk, hp.places hplaced hemit, hlayouts, ?_, hest,
    fun hone => ?_⟩
  · rw [hcount, hlayouts, List.length_append, List.length_singleton]
  · -- the first pass has had the estimate, and its layout takes no less
    rw [hone, UInt32.toNat_one] at hcount
    have hcap := hfirst (List.length_eq_zero_iff.1 (by omega))
    have hused := (Packer.settle_accepts hsettle).chunksUsed_le
    have hle := hest s.layout (hlayouts ▸ List.mem_append_right _ (List.mem_singleton_self _))
    rw [hstages.chunkCount]
    exact UInt32.le_antisymm (hcap ▸ hle) hused

end Program

/-! ## A bundle of two sections -/

/-- A program that is packed in one pass. -/
theorem pack_places_demo : ∃ p q b k ids layout,
    Compiler.compile (Compiler.context Demo.searching Demo.twoRoots Demo.twoDirectories)
        (Compiler.start Demo.searching) "a" = .ok p ∧
      p.pack Demo.settings.pack = (.ok b, q) ∧ b.passes = 1 ∧
      p.Places (Compiler.context Demo.searching Demo.twoRoots Demo.twoDirectories) q layout b ids ∧
      p.estimated k ≤ layout.chunksUsed ∧ b.chunkCount = layout.chunksUsed := by
  have hok : ((Demo.program? "a").bind fun p =>
      (Prod.fst (p.pack Demo.settings.pack)).toOption.map Bundle.passes) = some 1 := by
    simp only [Program.pack, Packer.pack, Packer.emit, Packer.slots, Demo.mergeSort_entries,
      Demo.mergeSort_slots]
    decide +kernel
  obtain ⟨p, hp, hpacked⟩ := Option.bind_eq_some_iff.1 hok
  obtain ⟨b, hb, hpasses⟩ := Option.map_eq_some_iff.1 hpacked
  have hcompiled := ok_of_toOption hp
  have hpack : p.pack Demo.settings.pack = (.ok b, (p.pack Demo.settings.pack).2) :=
    Prod.ext (ok_of_toOption hb) rfl
  obtain ⟨k, ids, earlier, layout, -, hplaces, htried, -, hest, hone⟩ :=
    Program.pack_places hcompiled hpack
  exact ⟨p, _, b, k, ids, layout, hcompiled, hpack, hpasses, hplaces,
    hest layout (htried ▸ List.mem_append_right _ (List.mem_singleton_self _)), hone hpasses⟩

end LevelBundle
