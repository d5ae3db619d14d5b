/-
  LevelBundle — packing a program more than once.

  Packing looks for a layout, sets the offsets, and writes the file.  Any packers may be
  asked, one after the other.

  * `Packer.plan k p`: the layout that is looked for.  Without one a call changes nothing
    (`answer_of_plan_error`).
  * `PackError.Unsettled`: the reasons for which there is none.  No later stage gives one of
    them (`Emits`).
  * `Program.Placed p l q`: `q` is `p` with the offsets of the layout `l`.
  * `Program.Fixed q`: no call changes `q` any more, and none is answered a bundle.
  * `pack_once`: a compiled program stays as it is until a layout is accepted, which sets all
    offsets for good.
-/
import LevelBundle.Proofs.Counting
import LevelBundle.Proofs.Independence
import LevelBundle.Proofs.Refusals

namespace LevelBundle

/-- A reason for which no layout is accepted. -/
inductive PackError.Unsettled : PackError → Prop
  /-- The estimate of the header did not settle. -/
  | layoutDidNotConverge (passes : UInt32) : Unsettled (.layoutDidNotConverge passes)
  /-- There are more chunks than positions can name. -/
  | capacityExceeded (chunks max : UInt32) : Unsettled (.capacityExceeded chunks max)
  /-- The header does not fit in a chunk. -/
  | headerTooLarge (headerSize : ℕ) (chunkSize : UInt32) :
    Unsettled (.headerTooLarge headerSize chunkSize)
  /-- An item does not fit in a chunk. -/
  | oversizedItem (what : String) (size : ℕ) (chunkSize : UInt32) :
    Unsettled (.oversizedItem what size chunkSize)

namespace Packer

variable {k : Packer} {p q : Program} {s : Settled} {e : PackError}

/-! ## Calls -/

/-- The layout for a program. -/
def plan (k : Packer) (p : Program) : Except PackError Settled :=
  k.settle p.items (fixupCount p p.items) k.options.maxLayoutPasses.toNat 0
    (k.estimate p p.items (fixupCount p p.items))

/-- What a call is answered. -/
def answer (k : Packer) (p : Program) : Except PackError Bundle :=
  @Prod.fst (Except PackError Bundle) Program (k.pack.run p)

end Packer

namespace Program

variable {p q : Program} {k : Packer}

/-- What a call leaves. -/
def step (p : Program) (k : Packer) : Program :=
  @Prod.snd (Except PackError Bundle) Program (k.pack.run p)

/-- What a list of calls leaves. -/
def after (p : Program) (ks : List Packer) : Program := ks.foldl step p

@[simp] theorem after_nil (p : Program) : p.after [] = p := rfl

@[simp] theorem after_append (p : Program) (ks more : List Packer) :
    p.after (ks ++ more) = (p.after ks).after more := List.foldl_append

@[simp] theorem after_cons (p : Program) (k : Packer) (ks : List Packer) :
    p.after (k :: ks) = (p.step k).after ks := rfl

end Program

namespace Packer

variable {k : Packer} {p q : Program} {s : Settled} {e : PackError}

theorem answer_of_runs {b : Bundle} (h : Runs k.pack p b q) : k.answer p = .ok b ∧ p.step k = q :=
  ⟨congrArg Prod.fst h, congrArg Prod.snd h⟩

theorem answer_of_fails (h : Fails k.pack p e q) : k.answer p = .error e ∧ p.step k = q :=
  ⟨congrArg Prod.fst h, congrArg Prod.snd h⟩

/-- **Without a layout** nothing is changed. -/
theorem answer_of_plan_error (h : k.plan p = .error e) : k.answer p = .error e ∧ p.step k = p := by
  refine answer_of_fails ?_
  simp only [pack, fails_bind, fails_get, runs_get, fails_lift, false_or]
  exact ⟨p, p, ⟨rfl, rfl⟩, Or.inl ⟨h, rfl⟩⟩

/-- **With a layout** the offsets are set and the file is written. -/
theorem answer_of_commit (h : k.plan p = .ok s) (hc : Runs (commit p.items s.layout) p ⟨⟩ q) :
    k.answer p = k.emit q p.items s ∧ p.step k = q := by
  cases he : k.emit q p.items s with
  | ok b =>
    refine answer_of_runs ?_
    simp only [pack, runs_bind, runs_get, runs_lift]
    exact ⟨p, p, ⟨rfl, rfl⟩, s, p, ⟨h, rfl⟩, ⟨⟩, q, hc, q, q, ⟨rfl, rfl⟩, he, rfl⟩
  | error e =>
    refine answer_of_fails ?_
    simp only [pack, fails_bind, runs_get, runs_lift, fails_lift]
    exact Or.inr ⟨p, p, ⟨rfl, rfl⟩, Or.inr ⟨s, p, ⟨h, rfl⟩, Or.inr ⟨⟨⟩, q, hc,
      Or.inr ⟨q, q, ⟨rfl, rfl⟩, he, rfl⟩⟩⟩⟩

theorem answer_of_commit_fails (h : k.plan p = .ok s) (hc : Fails (commit p.items s.layout) p e q) :
    k.answer p = .error e ∧ p.step k = q := by
  refine answer_of_fails ?_
  simp only [pack, fails_bind, runs_get, runs_lift]
  exact Or.inr ⟨p, p, ⟨rfl, rfl⟩, Or.inr ⟨s, p, ⟨h, rfl⟩, Or.inl hc⟩⟩

/-! ## Layouts -/

/-- **No layout is accepted** for one of four reasons. -/
theorem settle_unsettled {items : List Item} {fixups left : ℕ} {passes capacity : UInt32}
    (h : k.settle items fixups left passes capacity = .error e) : e.Unsettled := by
  obtain ⟨_, rfl⟩ | ⟨_, _, rfl⟩ | ⟨_, _, rfl⟩ | ⟨_, _, _, rfl, -⟩ := settle_error_cases h
  · exact .layoutDidNotConverge _
  · exact .capacityExceeded _ _
  · exact .headerTooLarge _ _
  · exact .oversizedItem _ _ _

/-- A step behind the layout: it is not refused for one of those reasons. -/
def Emits {α : Type} (x : Except PackError α) : Prop := ∀ e, x = .error e → ¬ e.Unsettled

namespace Emits

variable {α β : Type}

theorem error (h : ¬ e.Unsettled) : Emits (.error e : Except PackError α) := by
  rintro _ ⟨⟩
  exact h

theorem ok (a : α) : Emits (.ok a : Except PackError α) := nofun

theorem pure (a : α) : Emits (Pure.pure a : Except PackError α) := ok a

theorem bind {x : Except PackError α} {f : α → Except PackError β} (hx : Emits x)
    (hf : ∀ a, Emits (f a)) : Emits (x >>= f) := by
  intro e h
  rcases bind_eq_error.1 h with h | ⟨a, -, h⟩
  · exact hx e h
  · exact hf a e h

theorem check {c : Prop} [Decidable c] {f : PUnit → Except PackError α} {x : Except PackError α}
    (h : ¬ e.Unsettled) (hx : Emits x) : Emits (if c then throw e >>= f else x) := by
  intro e' h'
  rcases check_eq_error.1 h' with ⟨-, rfl⟩ | ⟨-, h'⟩
  · exact h
  · exact hx e' h'

theorem foldlM {f : β → α → Except PackError β} (h : ∀ a b, Emits (f b a)) (l : List α) (b : β) :
    Emits (l.foldlM f b) := by
  intro e he
  obtain ⟨a, -, b', h'⟩ := foldlM_eq_error he
  exact h a b' e h'

theorem mapM {f : α → Except PackError β} (h : ∀ a, Emits (f a)) (l : List α) :
    Emits (l.mapM f) := by
  intro e he
  obtain ⟨a, -, h'⟩ := mapM_eq_error he
  exact h a e h'

end Emits

theorem emits_position (k : Packer) (o flags : UInt32) : Emits (k.position o flags) := by
  intro e h
  unfold position at h
  cases hx : k.addressing.encodeAbsolute o flags with
  | ok a => rw [hx] at h; cases h
  | error c =>
    rw [hx] at h
    cases h
    exact nofun

theorem emits_sectionOffset (q : Program) (id : SectionId) : Emits (sectionOffset q id) := by
  unfold sectionOffset
  simp only
  split
  · exact .ok _
  · exact .error nofun

theorem emits_blobOffset (q : Program) (id : BlobId) : Emits (blobOffset q id) := by
  unfold blobOffset
  split
  · exact .ok _
  · exact .error nofun

theorem emits_item (k : Packer) (q : Program) (b : Buffer) (i : Item) :
    Emits (k.emitItem q b i) := by
  have part (b : Buffer) (part : Part) : Emits (k.emitPart q b part) := by
    cases part with
    | literal | align | pad => exact .ok _
    | blob id =>
      exact .bind (emits_blobOffset q id) fun o => .bind (emits_position k o _) fun _ => .pure _
    | level id | runtimeFile name id =>
      exact .bind (emits_sectionOffset q id) fun o => .bind (emits_position k o _) fun _ => .pure _
  unfold emitItem
  split
  · exact .foldlM (fun p b => part b p) _ _
  · exact .ok _

theorem emits_items (k : Packer) (q : Program) (b : Buffer) (placed : List (Item × UInt32)) :
    Emits (k.emitItems q b placed) := by
  unfold emitItems
  refine .foldlM (fun (e : Item × UInt32) b => ?_) _ _
  exact .bind (emits_item k q _ e.1) fun _ => .pure _

theorem emits_slots (q : Program) (items : List Item) : Emits (slots q items) := by
  refine .bind (.mapM (fun i => ?_) _) fun _ => .pure _
  split
  · exact .bind (emits_sectionOffset q _) fun _ => .pure _
  · exact .pure _

theorem emits_fixups (k : Packer) (b : Buffer) (tableWord : UInt32) (slots : List UInt32) :
    Emits (k.emitFixups b tableWord slots) :=
  .bind (emits_position k _ _) fun _ =>
    .bind (.foldlM (fun slot _ => .bind (emits_position k slot _) fun _ => .pure _) _ _)
      fun _ => .pure _

theorem emits_tail (k : Packer) (b : Buffer) (capacity tableWord : UInt32) (slots : List UInt32) :
    Emits (k.emitTail b capacity tableWord slots) := by
  unfold emitTail
  simp only
  split
  · exact .pure _
  · exact .check nofun (.check nofun (.bind (emits_fixups k _ _ _) fun _ => .pure _))

/-- **Writing the file** is not refused for one of those reasons. -/
theorem emits_emit (k : Packer) (q : Program) (items : List Item) (s : Settled) :
    Emits (k.emit q items s) := by
  refine .bind (emits_sectionOffset q _) fun o => .bind (emits_position k o _) fun start =>
    .bind (emits_slots q items) fun refs => ?_
  simp only
  split
  · refine .bind (emits_fixups k _ _ _) fun header => .check nofun ?_
    exact .bind (emits_items k q _ _) fun b => .bind (emits_tail k b _ _ _) fun _ =>
      .check nofun (.pure _)
  · refine .check nofun ?_
    exact .bind (emits_items k q _ _) fun b => .bind (emits_tail k b _ _ _) fun _ =>
      .check nofun (.pure _)

/-! ## Offsets -/

/-- Setting offsets keeps the granularity of sizes. -/
theorem commit_padSize {items : List Item} {layout : Layout} {u : Unit}
    (h : Runs (commit items layout) p u q) : q.store.padSize = p.store.padSize := by
  unfold commit at h
  generalize items.zip layout.offsets.toList = entries at h
  induction entries generalizing p with
  | nil =>
    obtain ⟨-, rfl⟩ := runs_pure.1 h
    rfl
  | cons e entries ih =>
    obtain ⟨_, p₁, h1, h2⟩ := runs_bind.1 h
    refine (ih h2).trans ?_
    simp only [assign, runs_bind, runs_get] at h1
    obtain ⟨_, _, ⟨rfl, rfl⟩, h1⟩ := h1
    split at h1
    · split_ifs at h1
      · simp only [runs_bind, runs_throw, false_and, exists_false] at h1
      · rw [runs_set] at h1
        rw [← h1]
    · split at h1
      · rename_i hr
        obtain ⟨-, rfl⟩ := Store.runs_assignOffset hr
        rw [runs_set] at h1
        rw [← h1]
      · simp only [runs_throw] at h1

theorem assign_fails {i : Item} {id : SectionId} {o o' : UInt32} (hi : i.ref = .level id)
    (ho : q.offsetOf? (.level id) = some o') :
    Fails (assign i o) q (.offsetAlreadyAssigned i.name) q := by
  have hsome : (q.sectionAt id).offset.isSome = true := by
    rw [show (q.sectionAt id).offset = some o' from ho]
    rfl
  simp only [assign, fails_bind, runs_get, hi]
  refine Or.inr ⟨q, q, ⟨rfl, rfl⟩, ?_⟩
  rw [if_pos hsome, fails_bind]
  exact Or.inl (fails_throw.2 ⟨rfl, rfl⟩)

end Packer

namespace Program

variable {ctx : CompileContext} {p q : Program} {k : Packer} {s : Settled} {o : UInt32}
  {l : Layout}

/-- A program with the offsets of a layout: each item has the offset that the layout has for
    it, and nothing else has one. -/
structure Placed (p : Program) (l : Layout) (q : Program) : Prop where
  moved : p.Moved q
  offsets : p.reachable.map q.offsetOf? = l.offsets.toList.map some
  others : ∀ ref ∉ p.reachable, q.offsetOf? ref = none

/-- **An accepted layout** is set in one go. -/
theorem Linked.placed (hp : p.Linked) (hnone : ∀ ref, p.offsetOf? ref = none)
    (h : k.plan p = .ok s) :
    ∃ q, Runs (Packer.commit p.items s.layout) p ⟨⟩ q ∧ p.Placed s.layout q := by
  have hsize : s.layout.offsets.size = p.reachable.length := by
    rw [size_of_place (Packer.settle_accepts h).layout]
    simp [items]
  have hrefs : (p.items.zip s.layout.offsets.toList).map (fun e => e.1.ref) = p.reachable := by
    have hfst : (p.items.zip s.layout.offsets.toList).map Prod.fst = p.items :=
      List.map_fst_zip (by simp [items, hsize])
    calc (p.items.zip s.layout.offsets.toList).map (fun e => e.1.ref)
      _ = ((p.items.zip s.layout.offsets.toList).map Prod.fst).map Item.ref := by
        rw [List.map_map]
        rfl
      _ = p.reachable := by rw [hfst, items, List.map_map]; simp [Function.comp_def, item_ref]
  have hmem {e : Item × UInt32} (he : e ∈ p.items.zip s.layout.offsets.toList) :
      e.1.ref ∈ p.reachable :=
    hrefs ▸ List.mem_map_of_mem (f := fun e : Item × UInt32 => e.1.ref) he
  have hold {e : Item × UInt32} (he : e ∈ p.items.zip s.layout.offsets.toList) :
      p.Holds e.1.ref := hp _ (hp.mem_reachable_iff.1 (hmem he))
  obtain ⟨q, hq⟩ := Packer.commit_runs (fun e he => ⟨hold he, hnone e.1.ref⟩)
    (hrefs.symm ▸ hp.nodup_reachable)
  obtain ⟨hmoved, hoff, -, hframe⟩ := Packer.runs_commit hq fun e he => hold he
  refine ⟨q, hq, hmoved, ?_, fun ref href => ?_⟩
  · calc p.reachable.map q.offsetOf?
      _ = (p.items.zip s.layout.offsets.toList).map (fun e => q.offsetOf? e.1.ref) := by
        rw [← hrefs, List.map_map]; rfl
      _ = (p.items.zip s.layout.offsets.toList).map (fun e => some e.2) :=
        List.map_congr_left hoff
      _ = ((p.items.zip s.layout.offsets.toList).map Prod.snd).map some := by rw [List.map_map]; rfl
      _ = s.layout.offsets.toList.map some := by
        rw [List.map_snd_zip (by simp [items, hsize])]
  · rw [hframe ref fun e he heq => href (heq ▸ hmem he), hnone]

/-- **A call to a program that nothing has been done to**: no layout is accepted and nothing
    is changed, or one is and its offsets are set. -/
theorem Whole.call (hp : p.Whole ctx) (k : Packer) :
    (∃ e, k.plan p = .error e ∧ k.answer p = .error e ∧ e.Unsettled ∧ p.step k = p) ∨
      ∃ s, k.plan p = .ok s ∧ p.Placed s.layout (p.step k) ∧ Packer.Emits (k.answer p) := by
  cases h : k.plan p with
  | error e =>
    obtain ⟨hanswer, hstep⟩ := Packer.answer_of_plan_error h
    exact Or.inl ⟨e, rfl, hanswer, Packer.settle_unsettled h, hstep⟩
  | ok s =>
    obtain ⟨q, hq, hplaced⟩ := hp.linked.placed hp.unplaced h
    obtain ⟨hanswer, hstep⟩ := Packer.answer_of_commit h hq
    refine Or.inr ⟨s, rfl, hstep.symm ▸ hplaced, ?_⟩
    rw [hanswer]
    exact Packer.emits_emit k q p.items s

/-! ## The same items -/

theorem size_eq_of_isSome {α β : Type} {xs : Array α} {ys : Array β}
    (h : ∀ i : ℕ, ys[i]?.isSome = xs[i]?.isSome) : ys.size = xs.size := by
  refine Nat.le_antisymm ?_ ?_ <;> refine Nat.le_of_not_lt fun hlt => ?_
  · have := h xs.size
    simp [hlt] at this
  · have := h ys.size
    simp [hlt] at this

/-- The items of a program do not depend on the offsets. -/
theorem Moved.items (h : Moved p q) (hpad : q.store.padSize = p.store.padSize) :
    q.items = p.items := by
  have hdiscover (fuel next : ℕ) (found : Array ItemRef) :
      q.discover fuel next found = p.discover fuel next found := by
    induction fuel generalizing next found with
    | zero => rfl
    | succ fuel ih =>
      simp only [discover, h.targets, ih]
  have hsections : q.sections.size = p.sections.size := size_eq_of_isSome fun i => by
    obtain ⟨o, ho⟩ := h.sections i
    rw [ho, Option.isSome_map]
  have hstore : q.store.size = p.store.size := size_eq_of_isSome fun i => by
    obtain ⟨o, ho⟩ := h.blobs ⟨i⟩
    rw [Store.blob?, Store.blob?] at ho
    rw [ho, Option.isSome_map]
  have hitem (ref : ItemRef) : q.item ref = p.item ref := by
    cases ref with
    | level id =>
      obtain ⟨o, ho⟩ := h.sectionAt id
      simp only [item, ho, hpad]
    | blob id =>
      obtain ⟨o, ho⟩ := h.blobs id
      simp only [item, Store.padSizeOf, Store.alignment?, ho]
      cases p.store.blob? id <;> rfl
  rw [Program.items, Program.items, reachable, reachable, hdiscover, hsections, hstore, h.root,
    funext hitem]

theorem Moved.fixupCount (h : Moved p q) (items : List Item) :
    Packer.fixupCount q items = Packer.fixupCount p items := by
  simp only [Packer.fixupCount, Section.referenceCount, h.parts]

/-! ## After a layout -/

/-- What every further call is answered: no layout is accepted, or one is, and the offsets are
    set already.  No call changes the program. -/
structure Fixed (q : Program) : Prop where
  after : ∀ ks, q.after ks = q
  call : ∀ k : Packer, (∃ e, k.plan q = .error e ∧ k.answer q = .error e ∧ e.Unsettled) ∨
    ∃ s, k.plan q = .ok s ∧
      k.answer q = .error (.offsetAlreadyAssigned (q.sectionAt q.root).name)

/-- **No layout is set** once the root is placed. -/
theorem Linked.commit_fails (hq : q.Linked) (ho : q.offsetOf? (.level q.root) = some o)
    (h : k.plan q = .ok s) : Fails (Packer.commit q.items s.layout) q
      (.offsetAlreadyAssigned (q.sectionAt q.root).name) q := by
  -- the root is the first item, and it has an offset in the layout
  obtain ⟨rest, hrest⟩ := hq.reachable_eq
  have hitems : q.items = q.item (.level q.root) :: rest.map q.item := by
    rw [items, hrest, List.map_cons]
  have hsize : s.layout.offsets.toList.length = rest.length + 1 := by
    rw [Array.length_toList, size_of_place (Packer.settle_accepts h).layout, hitems]
    simp
  obtain ⟨o', offsets, hoffsets⟩ := List.exists_cons_of_length_eq_add_one hsize
  rw [Packer.commit, hitems, hoffsets, List.zip_cons_cons]
  exact fails_bind.2 (Or.inl (Packer.assign_fails rfl ho))

/-- **A call to a program whose root is placed** stops at the root. -/
theorem Linked.call (hq : q.Linked) (ho : q.offsetOf? (.level q.root) = some o) (k : Packer) :
    q.step k = q ∧ ((∃ e, k.plan q = .error e ∧ k.answer q = .error e ∧ e.Unsettled) ∨
      ∃ s, k.plan q = .ok s ∧
        k.answer q = .error (.offsetAlreadyAssigned (q.sectionAt q.root).name)) := by
  cases h : k.plan q with
  | error e =>
    obtain ⟨hanswer, hstep⟩ := Packer.answer_of_plan_error h
    exact ⟨hstep, Or.inl ⟨e, rfl, hanswer, Packer.settle_unsettled h⟩⟩
  | ok s =>
    obtain ⟨hanswer, hstep⟩ := Packer.answer_of_commit_fails h (hq.commit_fails ho h)
    exact ⟨hstep, Or.inr ⟨s, rfl, hanswer⟩⟩

theorem Linked.fixed (hq : q.Linked) (ho : q.offsetOf? (.level q.root) = some o) : q.Fixed := by
  refine ⟨fun ks => ?_, fun k => (hq.call ho k).2⟩
  induction ks with
  | nil => rfl
  | cons k ks ih => rw [after_cons, (hq.call ho k).1, ih]

theorem Placed.root (h : p.Placed l q) (hp : p.Linked) :
    ∃ o, q.offsetOf? (.level q.root) = some o := by
  have hmem : .level p.root ∈ p.reachable := hp.mem_reachable_iff.2 .root
  have hoff : q.offsetOf? (.level p.root) ∈ l.offsets.toList.map some :=
    h.offsets ▸ List.mem_map_of_mem hmem
  obtain ⟨o, -, ho⟩ := List.mem_map.1 hoff
  exact ⟨o, h.moved.root ▸ ho.symm⟩

theorem Placed.fixed (h : p.Placed l q) (hp : p.Linked) : q.Fixed := by
  obtain ⟨o, ho⟩ := h.root hp
  exact (h.moved.linked hp).fixed ho

/-! ## Any calls -/

/-- **What any calls leave** of a program that nothing is placed in: the program as it was, or
    the same program with the offsets of a layout. -/
theorem Linked.after (hp : p.Linked) (hnone : ∀ ref, p.offsetOf? ref = none) (ks : List Packer) :
    p.after ks = p ∨
      ∃ l, p.Placed l (p.after ks) ∧ (p.after ks).store.padSize = p.store.padSize := by
  induction ks with
  | nil => exact Or.inl rfl
  | cons k ks ih =>
    rw [after_cons]
    cases h : k.plan p with
    | error e =>
      rw [(Packer.answer_of_plan_error h).2]
      exact ih
    | ok s =>
      obtain ⟨q, hq, hplaced⟩ := hp.placed hnone h
      rw [(Packer.answer_of_commit h hq).2, (hplaced.fixed hp).after]
      exact Or.inr ⟨s.layout, hplaced, Packer.commit_padSize hq⟩

/-- Calls that are refused, one after the other, for want of a layout. -/
inductive Refused : Program → List Packer → Prop
  /-- No call. -/
  | nil {p : Program} : Refused p []
  /-- A call that is refused, and others after it. -/
  | cons {p : Program} {k : Packer} {ks : List Packer} {e : PackError} :
    k.answer p = .error e → e.Unsettled → Refused (p.step k) ks → Refused p (k :: ks)

/-- **Calls that are refused** change nothing. -/
theorem Whole.refused (hp : p.Whole ctx) {ks : List Packer} (hks : p.Refused ks) :
    p.after ks = p := by
  induction ks with
  | nil => rfl
  | cons k ks ih =>
    cases hks with
    | cons hanswer he hrest =>
      rcases hp.call k with ⟨-, -, -, -, hstep⟩ | ⟨s, -, -, hemits⟩
      · rw [hstep] at hrest
        rw [after_cons, hstep, ih hrest]
      · exact absurd he (hemits _ hanswer)

/-- **A program is placed once, and in one go.**  As long as calls are refused for want of a
    layout it stays as it was compiled.  The first call whose layout is accepted sets the
    offsets of all sections that are placed and of all canonical blobs to those of the layout.
    From then on no call changes anything, and each one whose layout is accepted is told that
    the offsets are set. -/
theorem pack_once {st : Settings} {root : String}
    (h : Compiler.compile ctx (Compiler.start st) root = .ok p) {ks : List Packer}
    (hks : p.Refused ks) :
    p.after ks = p ∧ (∀ ref, p.offsetOf? ref = none) ∧
      (∀ id ∈ p.store.canonicalIds, .blob id ∈ p.reachable) ∧
      ∀ k : Packer, (∃ e, k.plan p = .error e ∧ k.answer p = .error e ∧ e.Unsettled) ∨
        ∃ s q, k.plan p = .ok s ∧ Packer.Emits (k.answer p) ∧
          (∀ more, p.after (ks ++ k :: more) = q) ∧ p.Placed s.layout q ∧ q.Fixed := by
  have hp := compile_whole h
  have hsame := hp.refused hks
  refine ⟨hsame, hp.unplaced, fun id hid => ?_, fun k => ?_⟩
  · exact hp.linked.mem_reachable_iff.2 (hp.leads_blob_iff.2 hid)
  · rcases hp.call k with ⟨e, hplan, hanswer, he, -⟩ | ⟨s, hplan, hplaced, hemits⟩
    · exact Or.inl ⟨e, hplan, hanswer, he⟩
    · have hfixed := hplaced.fixed hp.linked
      refine Or.inr ⟨s, p.step k, hplan, hemits, fun more => ?_, hplaced, hfixed⟩
      rw [after_append, hsame, after_cons, hfixed.after]

end Program

/-! ## Two calls -/

namespace Demo

/-- A packer with chunks that have no room for the header. -/
def tight : Packer := ⟨{ chunkSize := 16 }, ⟨16, by decide, by decide, by decide⟩⟩

/-- A packer that keeps the order of the items. -/
def wide : Packer :=
  ⟨{ chunkSize := 64, pinnedOrder := true }, ⟨64, by decide, by decide, by decide⟩⟩

end Demo

/-- A program that one packer refuses, and the next one places. -/
theorem pack_once_demo : ∃ p s q, Compiler.compile (Compiler.context Demo.searching Demo.twoRoots
      Demo.twoDirectories) (Compiler.start Demo.searching) "a" = .ok p ∧ p.Refused [Demo.tight] ∧
    Demo.wide.plan p = .ok s ∧ (∀ more, p.after (Demo.tight :: Demo.wide :: more) = q) ∧
      p.Placed s.layout q ∧ q.Fixed := by
  have hok : ((Demo.program? "a").map fun p =>
      ((Demo.tight.plan p).isOk, (Demo.wide.plan p).isOk)) = some (false, true) := by decide +kernel
  obtain ⟨p, hp, hplans⟩ := Option.map_eq_some_iff.1 hok
  obtain ⟨htight, hwide⟩ := Prod.mk.inj hplans
  have hcompiled := ok_of_toOption hp
  have hrefused : p.Refused [Demo.tight] := by
    cases h : Demo.tight.plan p with
    | error e =>
      exact .cons (Packer.answer_of_plan_error h).1 (Packer.settle_unsettled h) .nil
    | ok s =>
      rw [h] at htight
      cases htight
  obtain ⟨-, -, -, hcall⟩ := Program.pack_once hcompiled hrefused
  rcases hcall Demo.wide with ⟨e, hplan, -⟩ | ⟨s, q, hplan, -, hafter, hplaced, hfixed⟩
  · rw [hplan] at hwide
    cases hwide
  · exact ⟨p, s, q, hcompiled, hrefused, hplan, hafter, hplaced, hfixed⟩

end LevelBundle
