/-
  LevelBundle — packing for either order of bytes.

  Two programs of the same shape are packed with different orders of bytes.  The layout is
  looked for without the bytes of literals, and a word takes four bytes in either order, so
  that the two files grow alike.

  * `Buffer.SameSize b b'`: two buffers hold as many bytes.
  * `Bundle.Alike b b'`: two bundles differ in their bytes only, and not in how many these are.
  * `Packer.matches_emit`: writing the file fails with the same error, or writes as many bytes.
  * `pack_ordered`: so it goes for packing, and the programs that are left are of the same
    shape.
-/
import LevelBundle.Proofs.OrderedCompiling
import LevelBundle.Proofs.PackOnce

namespace LevelBundle

/-! ## Buffers -/

namespace Buffer

variable {b b' : Buffer}

/-- Two buffers hold as many bytes. -/
def SameSize (b b' : Buffer) : Prop := b.bytes.size = b'.bytes.size

namespace SameSize

variable (h : b.SameSize b')
include h

theorem offset : b.offset = b'.offset := congrArg Nat.toUInt32 h

theorem gap (target : UInt32) : b.gap target = b'.gap target := by
  rw [Buffer.gap, Buffer.gap, h.offset]

theorem nextBoundary (boundary : UInt32) : b.nextBoundary boundary = b'.nextBoundary boundary := by
  rw [Buffer.nextBoundary, Buffer.nextBoundary, h.offset]

theorem append {bytes bytes' : Bytes} (hlen : bytes.length = bytes'.length) :
    (b.append bytes).SameSize (b'.append bytes') := by
  have hsize : b.contents.length = b'.contents.length := by rwa [← size_eq, ← size_eq]
  rw [SameSize, size_eq, size_eq, (extends_append b bytes).contents,
    (extends_append b' bytes').contents, List.length_append, List.length_append, hsize, hlen]

theorem pushWord (w w' : UInt32) : (b.pushWord w).SameSize (b'.pushWord w') :=
  h.append (length_wordBytes_eq ..)

theorem fill (byte : UInt8) (count : UInt32) : (b.fill byte count).SameSize (b'.fill byte count) :=
  h.append rfl

theorem padTo (target : UInt32) : (b.padTo target).SameSize (b'.padTo target) := by
  rw [Buffer.padTo, Buffer.padTo, h.gap]
  exact h.fill 0 _

theorem patch (offset w w' : UInt32) : (b.patch offset w).SameSize (b'.patch offset w') := by
  rw [SameSize, Buffer.patch, Buffer.patch, ByteOrder.size_setWordAt, ByteOrder.size_setWordAt]
  exact h

theorem foldl_pushWord (words : List UInt32) :
    (words.foldl Buffer.pushWord b).SameSize (words.foldl Buffer.pushWord b') := by
  induction words generalizing b b' with
  | nil => exact h
  | cons w words ih => exact ih (h.pushWord w w)

end SameSize

end Buffer

/-! ## Bundles -/

/-- Two bundles differ in their bytes only, and not in how many these are. -/
structure Bundle.Alike (b b' : Bundle) : Prop where
  size : b.bytes.size = b'.bytes.size
  chunkSize : b.chunkSize = b'.chunkSize
  chunkCount : b.chunkCount = b'.chunkCount
  headerSize : b.headerSize = b'.headerSize
  fixupCount : b.fixupCount = b'.fixupCount
  fixupTable : b.fixupTable = b'.fixupTable
  start : b.start = b'.start
  placements : b.placements = b'.placements
  slack : b.slack = b'.slack
  passes : b.passes = b'.passes

namespace Packer

/-- The same packer with another order of bytes. -/
def ordered (k : Packer) (order : ByteOrder) : Packer :=
  { k with options := k.options.ordered order }

@[simp] theorem ordered_chunkSize (k : Packer) (order : ByteOrder) :
    (k.ordered order).options.chunkSize = k.options.chunkSize := rfl

@[simp] theorem ordered_sectorSize (k : Packer) (order : ByteOrder) :
    (k.ordered order).options.sectorSize = k.options.sectorSize := rfl

@[simp] theorem ordered_fixups (k : Packer) (order : ByteOrder) :
    (k.ordered order).options.fixups = k.options.fixups := rfl

theorem matches_ofOptions (options : PackOptions) (o o' : ByteOrder) :
    Matches (fun k k' => ∃ m : Packer, k = m.ordered o ∧ k' = m.ordered o')
      (ofOptions (options.ordered o)) (ofOptions (options.ordered o')) := by
  refine .bind_same fun addressing _ => ?_
  show Matches _ (if options.chunkSize < options.sectorSize then _ else _)
    (if options.chunkSize < options.sectorSize then _ else _)
  split_ifs
  · exact .error _
  · exact .ok ⟨⟨options, addressing⟩, rfl, rfl⟩

variable {k : Packer} {o o' : ByteOrder} {p p' : Program} {b b' : Buffer}

/-! ## Layouts -/

theorem settle_ordered (k : Packer) (order : ByteOrder) (items : List Item) (fixups left : ℕ)
    (passes capacity : UInt32) : (k.ordered order).settle items fixups left passes capacity =
      k.settle items fixups left passes capacity := by
  induction left generalizing passes capacity with
  | zero => rfl
  | succ left ih =>
    rw [settle, settle]
    simp only [ih]
    rfl

/-- **The layout** is the same. -/
theorem plan_ordered (h : p.SameShape p') : (k.ordered o).plan p = (k.ordered o').plan p' := by
  have hestimate (items : List Item) (fixups : ℕ) :
      (k.ordered o).estimate p items fixups = (k.ordered o').estimate p' items fixups := by
    rw [estimate, estimate, h.store]
    rfl
  simp only [plan, settle_ordered, hestimate, h.items, h.fixupCount]
  rfl

/-! ## Offsets -/

theorem map_modify {α β : Type} (g : α → β) {f : α → α} (f' : β → β) (hf : ∀ a, g (f a) = f' (g a))
    (xs : Array α) (j : ℕ) : (xs.modify j f).map g = (xs.map g).modify j f' := by
  refine Array.ext_getElem? fun i => ?_
  simp only [Array.getElem?_map, Array.getElem?_modify]
  split_ifs
  · simp only [Option.map_map, Function.comp_def, hf]
  · rfl

theorem together_assign (i : Item) (offset : UInt32) :
    Together Program.SameShape (assign i offset) (assign i offset) fun _ _ => Program.SameShape := by
  refine .look fun {p p'} h => ?_
  split
  · rename_i id _
    have hset (offset : Option UInt32) :
        Program.SameShape
          { p with sections := p.sections.modify id.index fun s => { s with offset } }
          { p' with sections := p'.sections.modify id.index fun s => { s with offset } } := by
      refine ⟨h.root, h.store, ?_, h.warnings⟩
      rw [map_modify Section.shape (fun s => { s with offset }) fun _ => rfl,
        map_modify Section.shape (fun s => { s with offset }) fun _ => rfl, h.sections]
    rw [(Section.shape_eq_iff.1 (h.sectionAt id)).2.2.2.2.2.2]
    split_ifs
    · exact .throw_bind
    · exact .set fun _ => hset _
  · rename_i id _
    rw [h.store]
    rcases (Store.assignOffset id offset).run p'.store with ⟨_ | _, store⟩
    · exact .throw
    · exact .set fun _ => ⟨h.root, rfl, h.sections, h.warnings⟩

/-- **Setting the offsets** keeps the shape. -/
theorem together_commit (items : List Item) (layout : Layout) :
    Together Program.SameShape (commit items layout) (commit items layout)
      fun _ _ => Program.SameShape := by
  unfold commit
  generalize items.zip layout.offsets.toList = entries
  induction entries with
  | nil => exact .pure id
  | cons e entries ih => exact (together_assign e.1 e.2).bind fun _ _ => ih

/-! ## Writing -/

theorem matches_emitPart (hp : p.SameShape p') {a a' : Part} (ha : a.shape = a'.shape)
    (hb : b.SameSize b') : Matches Buffer.SameSize ((k.ordered o).emitPart p b a)
      ((k.ordered o').emitPart p' b' a') := by
  have position (flags : UInt32) {x x' : Except PackError UInt32} (hx : x = x') :
      Matches Buffer.SameSize
        (x >>= fun offset => k.position offset flags >>= fun w => pure (b.pushPosition w))
        (x' >>= fun offset => k.position offset flags >>= fun w => pure (b'.pushPosition w)) := by
    subst hx
    refine .bind_same fun offset _ => .bind_same fun w _ => .ok (hb.pushWord _ _)
  rcases Part.eq_or_literal ha with rfl | ⟨bytes, bytes', rfl, rfl, hlen⟩
  · cases a with
    | blob id => exact position _ (hp.blobOffset id)
    | level id | runtimeFile name id => exact position _ (hp.sectionOffset id)
    | literal => exact .ok (hb.append rfl)
    | align | pad => exact .ok (hb.fill 0 _)
  · exact .ok (hb.append hlen)

theorem matches_emitItem (hp : p.SameShape p') (hb : b.SameSize b') (i : Item) :
    Matches Buffer.SameSize ((k.ordered o).emitItem p b i) ((k.ordered o').emitItem p' b' i) := by
  unfold emitItem
  split
  · rename_i id _
    exact .foldlM (Part.forall₂_shape (hp.parts id)) (fun ha hb => matches_emitPart hp ha hb) hb
  · rw [hp.store]
    exact .ok (hb.append rfl)

theorem matches_emitItems (hp : p.SameShape p') (hb : b.SameSize b')
    (placed : List (Item × UInt32)) : Matches Buffer.SameSize ((k.ordered o).emitItems p b placed)
      ((k.ordered o').emitItems p' b' placed) := by
  have hsame := List.forall₂_same.2 fun (e : Item × UInt32) (_ : e ∈ placed) => Eq.refl e
  refine .foldlM hsame ?_ hb
  rintro e _ b b' rfl hb
  exact (matches_emitItem hp (hb.padTo e.2) e.1).bind fun hb => .ok (hb.padTo _)

/-- **The fixup table** takes as many bytes. -/
theorem matches_emitFixups (hb : b.SameSize b') (tableWord : UInt32) (slots : List UInt32) :
    Matches Buffer.SameSize ((k.ordered o).emitFixups b tableWord slots)
      ((k.ordered o').emitFixups b' tableWord slots) := by
  unfold emitFixups
  rw [hb.offset]
  refine .bind_same (x := k.position b'.offset Position.unresolvedFlag) fun pointer _ => ?_
  have hsame := List.forall₂_same.2 fun (slot : UInt32) (_ : slot ∈ slots) => Eq.refl slot
  refine (Matches.foldlM hsame ?_ (hb.patch tableWord _ _)).bind fun hb => .ok (hb.pushWord _ _)
  rintro slot _ b b' rfl hb
  exact .bind_same (x := k.position slot Position.unresolvedFlag) fun w _ => .ok (hb.pushWord _ _)

theorem sameSize_emitHeader (k : Packer) (o o' : ByteOrder) (capacity : UInt32) (start : Position) :
    ((k.ordered o).emitHeader capacity start).SameSize
      ((k.ordered o').emitHeader capacity start) := by
  have hempty : (Buffer.empty o).SameSize (Buffer.empty o') := rfl
  exact (((hempty.foldl_pushWord _).pushWord _ _).pushWord _ _).pushWord _ _

theorem matches_emitTail (hb : b.SameSize b') (capacity tableWord : UInt32) (slots : List UInt32) :
    Matches (fun r r' => r.1.SameSize r'.1 ∧ r.2 = r'.2)
      ((k.ordered o).emitTail b capacity tableWord slots)
      ((k.ordered o').emitTail b' capacity tableWord slots) := by
  have hsector := hb.padTo (b'.nextBoundary k.options.sectorSize)
  have hborder (border : UInt32) := hsector.padTo border
  unfold emitTail
  simp only [hb.gap, hb.nextBoundary, ordered_chunkSize, ordered_sectorSize, ordered_fixups,
    hsector.offset, hsector.gap, (hborder _).offset]
  refine .ite (fun _ => .ok ⟨hsector, rfl⟩) fun _ => .check fun _ => .check fun _ => ?_
  exact (matches_emitFixups (hborder _) tableWord slots).bind fun hb => .ok ⟨hb, rfl⟩

/-- **Writing the file** fails with the same error in either order, or writes as many bytes. -/
theorem matches_emit (hp : p.SameShape p') (items : List Item) (s : Settled) :
    Matches Bundle.Alike ((k.ordered o).emit p items s) ((k.ordered o').emit p' items s) := by
  unfold emit
  rw [hp.root, hp.sectionOffset, hp.slots]
  refine .bind_same fun rootOffset _ => .bind_same (x := k.position rootOffset _) fun start _ =>
    .bind_same fun slots _ => ?_
  have hheader := sameSize_emitHeader k o o' s.capacity start
  simp only [hheader.offset, ordered_chunkSize, ordered_fixups]
  refine .ite_bind (fun _ => matches_emitFixups hheader _ slots) (fun _ => .ok hheader)
    fun {header header'} h => ?_
  rw [h.offset]
  refine .check fun _ => (matches_emitItems hp h _).bind fun {body body'} hbody => ?_
  rw [hbody.offset]
  refine (matches_emitTail hbody s.capacity _ slots).bind ?_
  rintro ⟨file, added, table⟩ ⟨file', _⟩ ⟨hfile, rfl⟩
  simp only [show file.bytes.size = file'.bytes.size from hfile]
  exact .check fun _ => .ok ⟨hfile, rfl, rfl, rfl, rfl, rfl, rfl, rfl, rfl, rfl⟩

/-! ## Packing -/

theorem together_pack (k : Packer) (o o' : ByteOrder) : Together Program.SameShape
    (k.ordered o).pack (k.ordered o').pack fun b b' q q' => b.Alike b' ∧ q.SameShape q' := by
  refine .look fun {p p'} h => ?_
  show Together _ (liftM ((k.ordered o).plan p) >>= _) (liftM ((k.ordered o').plan p') >>= _) _
  rw [plan_ordered h, h.items]
  refine .bind_same fun s _ => (together_commit p'.items s.layout).bind fun _ _ => ?_
  exact .look fun h => .lift (matches_emit h p'.items s)

end Packer

/-- **Packing for either order**: the same error, or bundles that are alike and programs of the
    same shape. -/
theorem pack_ordered {p p' : Program} (h : p.SameShape p') (options : PackOptions)
    (o o' : ByteOrder) :
    (∃ e, (p.pack (options.ordered o)).1 = .error e ∧ (p'.pack (options.ordered o')).1 = .error e) ∨
      ∃ b b' q q', p.pack (options.ordered o) = (.ok b, q) ∧
        p'.pack (options.ordered o') = (.ok b', q') ∧ b.Alike b' ∧ q.SameShape q' := by
  have hoptions := Packer.matches_ofOptions options o o'
  unfold Program.pack
  generalize Packer.ofOptions (options.ordered o) = x at hoptions ⊢
  generalize Packer.ofOptions (options.ordered o') = x' at hoptions ⊢
  cases hoptions with
  | error e => exact Or.inl ⟨e, rfl, rfl⟩
  | ok hm =>
    obtain ⟨k, rfl, rfl⟩ := hm
    have hpack := (Packer.together_pack k o o').run h
    cases hx : outcome (k.ordered o).pack p with
    | error e =>
      rw [hx] at hpack
      obtain ⟨_, hfails⟩ := outcome_eq_error.1 hx
      obtain ⟨_, hfails'⟩ := outcome_eq_error.1 hpack.of_error
      exact Or.inl ⟨e, congrArg Prod.fst hfails, congrArg Prod.fst hfails'⟩
    | ok r =>
      rw [hx] at hpack
      obtain ⟨r', hx', halike, hshape⟩ := hpack.of_ok
      exact Or.inr ⟨r.1, r'.1, r.2, r'.2, outcome_eq_ok.1 hx, outcome_eq_ok.1 hx', halike, hshape⟩

end LevelBundle
