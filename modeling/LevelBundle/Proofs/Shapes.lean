/-
  LevelBundle — programs of the same shape.

  Two programs have the same shape if they differ in the bytes of literals only, and not in
  how many these are.  A literal is not looked at before it is written, so that neither the
  items, nor what the root leads to, nor the places of the references depend on it.

  * `Part.shape`, `Section.shape`: a part and a section without the bytes of literals.
  * `Program.SameShape p q`: two programs of the same shape; `SameShape.items`,
    `SameShape.leads`, `SameShape.isSlot`: what they have in common.
-/
import LevelBundle.Proofs.Slots

namespace LevelBundle

/-! ## Parts -/

namespace Part

/-- A part, with zeros for the bytes of a literal. -/
def shape : Part → Part
  | literal bytes => literal (List.replicate bytes.length 0)
  | p => p

variable {a b : Part}

@[simp] theorem size_shape (a : Part) : a.shape.size = a.size := by
  cases a with
  | literal bytes => simp only [shape, size, List.length_replicate]
  | _ => rfl

@[simp] theorem isReference_shape (a : Part) : a.shape.isReference = a.isReference := by
  cases a <;> rfl

@[simp] theorem target?_shape (p : Program) (a : Part) : p.target? a.shape = p.target? a := by
  cases a <;> rfl

theorem size_congr (h : a.shape = b.shape) : a.size = b.size := by
  rw [← size_shape, h, size_shape]

theorem isReference_congr (h : a.shape = b.shape) : a.isReference = b.isReference := by
  rw [← isReference_shape, h, isReference_shape]

theorem eq_or_literal (h : a.shape = b.shape) : a = b ∨ ∃ bytes bytes',
    a = literal bytes ∧ b = literal bytes' ∧ bytes.length = bytes'.length := by
  cases a with
  | literal bytes =>
    cases b with
    | literal bytes' =>
      refine Or.inr ⟨bytes, bytes', rfl, rfl, ?_⟩
      simpa only [List.length_replicate] using congrArg List.length (literal.inj h)
    | _ => cases h
  | _ => cases b <;> first | exact Or.inl h | cases h

theorem eq_of_shape (h : a.shape = b.shape) (ha : a.isReference = true) : a = b := by
  rcases eq_or_literal h with h | ⟨_, _, rfl, -, -⟩
  · exact h
  · cases ha

theorem shape_literal {bytes bytes' : Bytes} (h : bytes.length = bytes'.length) :
    (literal bytes).shape = (literal bytes').shape := by
  rw [shape, shape, h]

variable {l l' : List Part}

theorem forall₂_shape (h : l.map shape = l'.map shape) :
    List.Forall₂ (fun a b => a.shape = b.shape) l l' := by
  have hall : List.Forall₂ Eq (l.map shape) (l'.map shape) := List.forall₂_eq_eq_eq ▸ h
  exact List.forall₂_map_left_iff.1 (List.forall₂_map_right_iff.1 hall)

theorem total_congr (h : l.map shape = l'.map shape) : total l = total l' := by
  have hsize := congrArg (List.map fun a : Part => a.size.toNat) h
  simp only [List.map_map, Function.comp_def, size_shape] at hsize
  rw [total, total, hsize]

theorem exists_split (h : l.map shape = l'.map shape) {m n : List Part} (hl : l = m ++ a :: n) :
    ∃ m' b n', l' = m' ++ b :: n' ∧ m.map shape = m'.map shape ∧ a.shape = b.shape := by
  subst hl
  rw [List.map_append, List.map_cons] at h
  obtain ⟨m', rest, rfl, hm, hrest⟩ := List.map_eq_append_iff.1 h.symm
  obtain ⟨b, n', rfl, hb, -⟩ := List.map_eq_cons_iff.1 hrest
  exact ⟨m', b, n', rfl, hm.symm, hb.symm⟩

/-- The offsets of references do not depend on literals. -/
theorem references_congr (h : l.map shape = l'.map shape) (start : UInt32) :
    ((partOffsets start l).filter fun e => e.2.isReference).map Prod.fst =
      ((partOffsets start l').filter fun e => e.2.isReference).map Prod.fst := by
  induction forall₂_shape h generalizing start with
  | nil => rfl
  | @cons a b l l' hab hl ih =>
    have htail := ih (List.cons.inj h).2 (start + b.size)
    rw [partOffsets, partOffsets, List.filter_cons, List.filter_cons, isReference_congr hab,
      size_congr hab]
    split_ifs
    · rw [List.map_cons, List.map_cons, htail]
    · exact htail

end Part

/-! ## Sections -/

/-- A section, with zeros for the bytes of literals. -/
def Section.shape (s : Section) : Section := { s with parts := s.parts.map Part.shape }

namespace Section

variable {s t : Section}

theorem shape_eq_iff : s.shape = t.shape ↔ s.name = t.name ∧
    s.parts.map Part.shape = t.parts.map Part.shape ∧ s.size = t.size ∧
      s.alignment = t.alignment ∧ s.origin = t.origin ∧ s.runtimeFile = t.runtimeFile ∧
        s.offset = t.offset := by
  cases s
  cases t
  simp only [shape, mk.injEq]

theorem parts_shape (h : s.shape = t.shape) : s.parts.map Part.shape = t.parts.map Part.shape :=
  congrArg Section.parts h

theorem referenceCount_congr (h : s.shape = t.shape) : s.referenceCount = t.referenceCount := by
  have hcount := congrArg (List.countP Part.isReference) (parts_shape h)
  simp only [List.countP_map, Function.comp_def, Part.isReference_shape] at hcount
  exact hcount

end Section

/-! ## Programs -/

namespace Program

/-- Two programs differ in the bytes of literals only. -/
structure SameShape (p q : Program) : Prop where
  root : p.root = q.root
  store : p.store = q.store
  sections : p.sections.map Section.shape = q.sections.map Section.shape
  warnings : p.warnings = q.warnings

variable {p q p' q' : Program} {ref : ItemRef} {id : SectionId}

theorem SameShape.symm (h : SameShape p p') : SameShape p' p :=
  ⟨h.root.symm, h.store.symm, h.sections.symm, h.warnings.symm⟩

namespace SameShape

variable (h : SameShape p p')
include h

theorem size : p.sections.size = p'.sections.size := by
  have hsize := congrArg Array.size h.sections
  rwa [Array.size_map, Array.size_map] at hsize

theorem getElem? (i : ℕ) : p.sections[i]?.map Section.shape = p'.sections[i]?.map Section.shape := by
  rw [← Array.getElem?_map, h.sections, Array.getElem?_map]

theorem sectionAt (id : SectionId) : (p.sectionAt id).shape = (p'.sectionAt id).shape := by
  have hget := h.getElem? id.index
  simp only [Program.sectionAt, Array.getD_eq_getD_getElem?]
  rw [← Option.getD_map (f := Section.shape), hget, Option.getD_map]

theorem parts (id : SectionId) :
    (p.sectionAt id).parts.map Part.shape = (p'.sectionAt id).parts.map Part.shape :=
  Section.parts_shape (h.sectionAt id)

theorem target? (a : Part) : p.target? a = p'.target? a := by
  cases a <;> simp only [Program.target?, h.store]

theorem targets (ref : ItemRef) : p.targets ref = p'.targets ref := by
  cases ref with
  | blob => rfl
  | level id =>
    have hmap := congrArg (List.filterMap p.target?) (h.parts id)
    simp only [List.filterMap_map, Function.comp_def, Part.target?_shape] at hmap
    rw [Program.targets, Program.targets, hmap, funext h.target?]

/-- **What the root leads to** is the same. -/
theorem leads (hr : p.Leads ref) : p'.Leads ref := by
  induction hr with
  | root => exact h.root ▸ .root
  | step _ ht ih => exact .step ih (h.targets _ ▸ ht)

theorem item (ref : ItemRef) : p.item ref = p'.item ref := by
  cases ref with
  | level id =>
    obtain ⟨hname, -, hsize, halign, -, hrecord, -⟩ := Section.shape_eq_iff.1 (h.sectionAt id)
    simp only [Program.item, hname, hsize, halign, hrecord, h.store]
  | blob id => simp only [Program.item, h.store]

/-- **The items** are the same. -/
theorem items : p.items = p'.items := by
  have hdiscover (fuel next : ℕ) (found : Array ItemRef) :
      p.discover fuel next found = p'.discover fuel next found := by
    induction fuel generalizing next found with
    | zero => rfl
    | succ fuel ih => simp only [discover, h.targets, ih]
  rw [Program.items, Program.items, reachable, reachable, hdiscover, h.size, h.store, h.root,
    funext h.item]

theorem fixupCount (items : List Item) :
    Packer.fixupCount p items = Packer.fixupCount p' items := by
  simp only [Packer.fixupCount, fun id => Section.referenceCount_congr (h.sectionAt id)]

theorem sectionOffset (id : SectionId) :
    Packer.sectionOffset p id = Packer.sectionOffset p' id := by
  obtain ⟨hname, -, -, -, -, -, hoffset⟩ := Section.shape_eq_iff.1 (h.sectionAt id)
  simp only [Packer.sectionOffset, hname, hoffset]

theorem blobOffset (id : BlobId) : Packer.blobOffset p id = Packer.blobOffset p' id := by
  rw [Packer.blobOffset, Packer.blobOffset, h.store]

theorem offsetOf? (ref : ItemRef) : p.offsetOf? ref = p'.offsetOf? ref := by
  cases ref with
  | level id => exact (Section.shape_eq_iff.1 (h.sectionAt id)).2.2.2.2.2.2
  | blob id => rw [Program.offsetOf?, Program.offsetOf?, h.store]

theorem place (ref : ItemRef) : p.place ref = p'.place ref := by
  rw [Program.place, Program.place, h.offsetOf?]

/-- The slots that are listed are the same. -/
theorem slots (items : List Item) : Packer.slots p items = Packer.slots p' items := by
  unfold Packer.slots
  refine congrArg (· >>= _) (congrArg (List.mapM · items) (funext fun i => ?_))
  cases i.ref with
  | blob => rfl
  | level id =>
    have hrefs := Part.references_congr (h.parts id) 0
    simp only [h.sectionOffset]
    refine congrArg (_ >>= ·) (funext fun base => congrArg Except.ok ?_)
    have hmap := congrArg (List.map (base + ·)) hrefs
    rwa [List.map_map, List.map_map] at hmap

end SameShape

/-- **The slots of references** are the same. -/
theorem SameShape.isSlot (hp : SameShape p p') (hq : SameShape q q') {part : Part} {o : UInt32}
    (h : p.IsSlot q id part ref o) : p'.IsSlot q' id part ref o := by
  obtain ⟨l, l', hparts, ho⟩ := h.parts
  obtain ⟨m, part', m', hparts', hm, hpart⟩ := Part.exists_split (hp.parts id) hparts
  obtain rfl := Part.eq_of_shape hpart (isReference_iff.2 ⟨ref, h.target⟩)
  refine ⟨hp.leads h.leads, hp.target? part ▸ h.target, m, m', hparts', ?_⟩
  rw [ho, hq.place, Part.total_congr hm]

theorem SameShape.isSlot_iff (hp : SameShape p p') (hq : SameShape q q') {part : Part}
    {o : UInt32} : p.IsSlot q id part ref o ↔ p'.IsSlot q' id part ref o :=
  ⟨hp.isSlot hq, hp.symm.isSlot hq.symm⟩

end Program

end LevelBundle
