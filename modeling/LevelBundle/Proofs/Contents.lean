/-
  LevelBundle — what is written for items.

  * `Program.contents q a order ref`: the bytes of an item of a placed program,
    where references are positions.
  * `emitItem_extends`: an item is written as its contents.
  * `Covers head entries contents bytes`: behind `head`, the contents of the
    entries stand at their offsets, and zeros everywhere else.
  * `emitItems_covers`: this is what is written, since the entries are sorted and
    do not overlap.  An entry that takes no bytes may share its offset.
-/
import LevelBundle.Proofs.Packing
import LevelBundle.Proofs.Writing

namespace LevelBundle

/-! ## Contents -/

/-- The flags of the position of a reference. -/
def Part.flags : Part → UInt32
  | .runtimeFile _ _ => Position.unresolvedFlag ||| Position.runtimeFlag
  | _ => Position.unresolvedFlag

theorem Part.flags_lt (part : Part) : part.flags.toNat < 4 := by
  cases part <;> simp only [flags] <;> decide

theorem Part.flags_odd (part : Part) : part.flags.toNat % 2 = 1 := by
  cases part <;> simp only [flags] <;> decide

namespace Program

/-- The bytes of a part, where a reference is the position of its target. -/
def partBytes (q : Program) (a : Addressing) (order : ByteOrder) (part : Part) : Bytes :=
  match part with
  | .literal bytes => bytes
  | .align _ size | .pad size => List.replicate size.toNat 0
  | .blob id =>
    order.wordBytes (a.positionAt (q.place (.blob (q.store.canonical id))) part.flags).word
  | .level id | .runtimeFile _ id =>
    order.wordBytes (a.positionAt (q.place (.level id)) part.flags).word

/-- The bytes of an item. -/
def contents (q : Program) (a : Addressing) (order : ByteOrder) : ItemRef → Bytes
  | .level id => (q.sectionAt id).parts.flatMap (q.partBytes a order)
  | .blob id => q.store.bytes id

variable {ctx : CompileContext} {pad : UInt32} {p q : Program} {a : Addressing} {order : ByteOrder}

theorem partBytes_of_target {part : Part} {ref : ItemRef} (h : q.target? part = some ref) :
    q.partBytes a order part = order.wordBytes (a.positionAt (q.place ref) part.flags).word := by
  cases part <;> cases h <;> rfl

theorem length_partBytes {chunk : UInt32} {part : Part} (h : part.Small chunk) :
    (q.partBytes a order part).length = part.size.toNat := by
  cases part with
  | literal bytes => exact h.length_literal
  | align | pad => exact List.length_replicate
  | blob | level | runtimeFile => exact order.length_wordBytes _

theorem length_flatMap_partBytes {chunk : UInt32} {parts : List Part}
    (h : ∀ part ∈ parts, part.Small chunk) :
    (parts.flatMap (q.partBytes a order)).length = Part.total parts := by
  rw [List.length_flatMap, Part.total]
  congr 1
  exact List.map_congr_left fun part hm => length_partBytes (h part hm)

/-- **An item takes as many bytes as it says.** -/
theorem Sound.length_contents (hp : p.Sound ctx pad) (hm : p.Moved q) {ref : ItemRef}
    (h : p.Holds ref) : (q.contents a order ref).length = (p.item ref).size.toNat := by
  cases ref with
  | level id =>
    obtain ⟨s, hs⟩ := h
    have hsound := hp.state.sections hs
    simp only [contents, hm.parts, item, sectionAt_eq hs]
    rw [length_flatMap_partBytes hsound.small, hsound.size_eq]
  | blob id =>
    have hcan := canonical_eq h
    obtain ⟨b, bytes, hb, hst⟩ := h
    obtain ⟨hlen, hsize, -, -⟩ := hp.state.store.owned hb hst
    have hown : b.ownBytes = bytes := by rw [Blob.ownBytes, hst]
    have hbytes : p.store.bytes id = bytes := by rw [Store.bytes, hcan, hb]; exact hown
    simp only [contents, item, hb, Option.map_some, Option.getD_some, hsize]
    rw [hm.bytes, hbytes, toNat_toUInt32 (by omega)]

end Program

/-! ## Writing items -/

namespace Packer

variable {k : Packer} {q : Program} {b b' : Buffer}

theorem position_eq_ok {o flags : UInt32} {pos : Position} (h : k.position o flags = .ok pos) :
    k.addressing.Encodes (o / k.addressing.chunkSize) (o % k.addressing.chunkSize) flags ∧
      pos = k.addressing.positionAt o flags := by
  rw [position, mapError_eq_ok] at h
  exact Addressing.encodeAbsolute_eq_ok.1 h

theorem sectionOffset_eq_ok {id : SectionId} {o : UInt32} (h : sectionOffset q id = .ok o) :
    q.offsetOf? (.level id) = some o := by
  simp only [sectionOffset] at h
  split at h
  · rename_i ho
    cases h; exact ho
  · cases h

theorem blobOffset_eq_ok {id : BlobId} {o : UInt32} (h : blobOffset q id = .ok o) :
    q.offsetOf? (.blob (q.store.canonical id)) = some o := by
  simp only [blobOffset] at h
  split at h
  · rename_i ho
    cases h; exact ho
  · cases h

theorem place_eq {ref : ItemRef} {o : UInt32} (h : q.offsetOf? ref = some o) : q.place ref = o := by
  rw [Program.place, h, Option.getD_some]

/-- A step that is written as some bytes, for each member of a list. -/
theorem foldlM_extends {α ε : Type} {f : Buffer → α → Except ε Buffer} {g : α → Bytes}
    {order : ByteOrder} {l : List α}
    (hf : ∀ x ∈ l, ∀ b b', b.order = order → f b x = .ok b' → b.Extends (g x) b')
    (hb : b.order = order) (h : l.foldlM f b = .ok b') : b.Extends (l.flatMap g) b' := by
  induction l generalizing b with
  | nil =>
    obtain rfl := pure_eq_ok.1 h
    exact .refl b
  | cons x l ih =>
    rw [List.foldlM_cons, bind_eq_ok] at h
    obtain ⟨b₁, h1, h2⟩ := h
    have hx := hf x (by simp) b b₁ hb h1
    exact hx.trans (ih (fun y hy => hf y (by simp [hy])) (hx.order.trans hb) h2)

/-- **A part is written as its bytes.** -/
theorem emitPart_extends {part : Part} (h : k.emitPart q b part = .ok b') :
    b.Extends (q.partBytes k.addressing b.order part) b' := by
  cases part with
  | literal bytes => cases h; exact b.extends_append _
  | align _ size | pad size => cases h; exact b.extends_fill 0 _
  | blob id =>
    simp only [emitPart, bind_eq_ok, pure_eq_ok] at h
    obtain ⟨o, ho, pos, hpos, rfl⟩ := h
    obtain ⟨-, rfl⟩ := position_eq_ok hpos
    rw [Program.partBytes, place_eq (blobOffset_eq_ok ho)]
    exact b.extends_pushWord _
  | level id | runtimeFile _ id =>
    simp only [emitPart, bind_eq_ok, pure_eq_ok] at h
    obtain ⟨o, ho, pos, hpos, rfl⟩ := h
    obtain ⟨-, rfl⟩ := position_eq_ok hpos
    rw [Program.partBytes, place_eq (sectionOffset_eq_ok ho)]
    exact b.extends_pushWord _

/-- **An item is written as its contents.** -/
theorem emitItem_extends {i : Item} (h : k.emitItem q b i = .ok b') :
    b.Extends (q.contents k.addressing b.order i.ref) b' := by
  unfold emitItem at h
  cases hr : i.ref with
  | level id =>
    rw [hr] at h
    exact foldlM_extends (fun part _ b₁ b₂ hb h => by rw [← hb]; exact emitPart_extends h) rfl h
  | blob id =>
    rw [hr] at h
    cases h; exact b.extends_append _

end Packer

/-! ## Placed items -/

/-- The offset after an item that is placed. -/
def stopOf (e : Item × UInt32) : ℕ := e.2.toNat + e.1.padSize.toNat

/-- Behind `head`, the contents of the entries stand at their offsets, and zeros
    everywhere else up to the end of the last. -/
structure Covers (head : Bytes) (entries : List (Item × UInt32)) (contents : ItemRef → Bytes)
    (bytes : Bytes) : Prop where
  head_prefix : ∃ body, bytes = head ++ body
  stop_le : ∀ e ∈ entries, stopOf e ≤ bytes.length
  length_eq : bytes.length = head.length ∨ ∃ e ∈ entries, bytes.length = stopOf e
  content : ∀ e ∈ entries, ∀ j < (contents e.1.ref).length,
    bytes[e.2.toNat + j]? = (contents e.1.ref)[j]?
  zero : ∀ x, head.length ≤ x → x < bytes.length →
    (∀ e ∈ entries, ¬ (e.2.toNat ≤ x ∧ x < e.2.toNat + (contents e.1.ref).length)) →
    bytes[x]? = some 0

theorem Covers.nil (head : Bytes) (contents : ItemRef → Bytes) : Covers head [] contents head :=
  ⟨⟨[], (List.append_nil _).symm⟩, nofun, Or.inl rfl, nofun,
    fun _ h1 h2 => absurd h2 (Nat.not_lt.2 h1)⟩

/-- **One more entry**, which lies behind the others or takes no bytes. -/
theorem Covers.step {head bytes : Bytes} {entries : List (Item × UInt32)}
    {contents : ItemRef → Bytes} (h : Covers head entries contents bytes) {e : Item × UInt32}
    (hsize : (contents e.1.ref).length ≤ e.1.padSize.toNat) (hhead : head.length ≤ e.2.toNat)
    (hstop : 0 < e.1.padSize.toNat → ∀ e' ∈ entries, stopOf e' ≤ e.2.toNat) {bytes' : Bytes}
    (hb : bytes' = bytes ++ (List.replicate (e.2.toNat - bytes.length) 0 ++
      (contents e.1.ref ++ List.replicate (stopOf e -
        (max bytes.length e.2.toNat + (contents e.1.ref).length)) 0))) :
    Covers head (entries ++ [e]) contents bytes' := by
  -- where bytes are written, the buffer has not gone past the offset
  have hle : 0 < e.1.padSize.toNat → bytes.length ≤ e.2.toNat := fun hpos => by
    rcases h.length_eq with hl | ⟨e', he', hl⟩
    · omega
    · rw [hl]; exact hstop hpos e' he'
  have hlen : bytes'.length = max bytes.length (stopOf e) := by
    rw [hb]
    simp only [List.length_append, List.length_replicate, stopOf]
    rcases Nat.eq_zero_or_pos e.1.padSize.toNat with h0 | hpos
    · omega
    · have := hle hpos; omega
  have hold {x : ℕ} (hx : x < bytes.length) : bytes'[x]? = bytes[x]? := by
    rw [hb, List.getElem?_append_left hx]
  have hcontent (j : ℕ) (hj : j < (contents e.1.ref).length) :
      bytes'[e.2.toNat + j]? = (contents e.1.ref)[j]? := by
    have := hle (by omega)
    rw [hb, List.getElem?_append_right (by omega),
      List.getElem?_append_right (by rw [List.length_replicate]; omega), List.length_replicate,
      List.getElem?_append_left (by omega)]
    congr 1
    omega
  refine ⟨?_, fun e' he' => ?_, ?_, fun e' he' j hj => ?_, fun x h1 h2 hx => ?_⟩
  · obtain ⟨body, hbody⟩ := h.head_prefix
    rw [hb, hbody, List.append_assoc]
    exact ⟨_, rfl⟩
  · rcases List.mem_append.1 he' with he' | he'
    · exact (h.stop_le e' he').trans (by omega)
    · rw [List.mem_singleton.1 he', hlen]; exact Nat.le_max_right _ _
  · rcases Nat.le_total bytes.length (stopOf e) with hmax | hmax
    · exact Or.inr ⟨e, by simp, by omega⟩
    · rcases h.length_eq with hl | ⟨e', he', hl⟩
      · exact Or.inl (by omega)
      · exact Or.inr ⟨e', by simp [he'], by omega⟩
  · rcases List.mem_append.1 he' with he' | he'
    · have hj' := h.content e' he' j hj
      have hlt : e'.2.toNat + j < bytes.length := by
        by_contra hge
        rw [List.getElem?_eq_none (Nat.not_lt.1 hge), List.getElem?_eq_getElem hj] at hj'
        cases hj'
      rw [hold hlt, hj']
    · rw [List.mem_singleton.1 he'] at hj ⊢
      exact hcontent j hj
  · have hnew := hx e (by simp)
    rcases Nat.lt_or_ge x bytes.length with hlt | hge
    · rw [hold hlt]
      exact h.zero x h1 hlt fun e' he' => hx e' (by simp [he'])
    -- what is written beside the contents is zero
    rw [hb, List.getElem?_append_right hge]
    rcases Nat.lt_or_ge x e.2.toNat with hlt | hge'
    · rw [List.getElem?_append_left (by rw [List.length_replicate]; omega),
        List.getElem?_replicate, if_pos (by omega)]
    · rw [List.getElem?_append_right (by rw [List.length_replicate]; omega),
        List.length_replicate, List.getElem?_append_right (by omega), List.getElem?_replicate,
        if_pos (by omega)]

/-- Entries that come one after the other in the file and do not overlap. -/
def Apart (e e' : Item × UInt32) : Prop :=
  e.2.toNat ≤ e'.2.toNat ∧ (stopOf e ≤ e'.2.toNat ∨ stopOf e' ≤ e.2.toNat)

/-- What is asked of entries so that they can be written behind `head`. -/
structure Writable (head : Bytes) (contents : ItemRef → Bytes) (e : Item × UInt32) : Prop where
  size_le : (contents e.1.ref).length ≤ e.1.padSize.toNat
  head_le : head.length ≤ e.2.toNat
  stop_lt : stopOf e < 2 ^ 32

namespace Packer

/-- One item, with zeros before and behind it. -/
theorem emitEntry_extends {k : Packer} {q : Program} {order : ByteOrder} {b b' : Buffer}
    {e : Item × UInt32} (ho : b.order = order) (hlen : b.contents.length < 2 ^ 32)
    (hsize : (q.contents k.addressing order e.1.ref).length ≤ e.1.padSize.toNat)
    (hstop : stopOf e < 2 ^ 32)
    (hle : 0 < e.1.padSize.toNat → b.contents.length ≤ e.2.toNat)
    (h : (do
      let b ← k.emitItem q (b.padTo e.2) e.1
      return b.padTo (e.2 + e.1.padSize) : Except PackError Buffer) = .ok b') :
    b.Extends (List.replicate (e.2.toNat - b.contents.length) 0 ++
      (q.contents k.addressing order e.1.ref ++ List.replicate (stopOf e -
        (max b.contents.length e.2.toNat + (q.contents k.addressing order e.1.ref).length)) 0))
      b' := by
  simp only [bind_eq_ok, pure_eq_ok] at h
  obtain ⟨b₂, h2, rfl⟩ := h
  have h1 := Buffer.extends_padTo hlen e.2
  have hi := emitItem_extends h2
  rw [h1.order, ho] at hi
  have hlen2 : b₂.contents.length = max b.contents.length e.2.toNat +
      (q.contents k.addressing order e.1.ref).length := by
    rw [hi.contents, List.length_append, Buffer.length_padTo hlen]
  have hsum : (e.2 + e.1.padSize).toNat = stopOf e := by
    rw [UInt32.toNat_add]; exact Nat.mod_eq_of_lt hstop
  have hlt : b₂.contents.length < 2 ^ 32 := by
    rw [hlen2]
    unfold stopOf at hstop
    rcases Nat.eq_zero_or_pos e.1.padSize.toNat with h0 | hpos
    · omega
    · have := hle hpos; omega
  have h3 := Buffer.extends_padTo hlt (e.2 + e.1.padSize)
  rw [hsum, hlen2] at h3
  exact h1.trans (hi.trans h3)

/-- **All items stand at their offsets**, with zeros between them. -/
theorem emitItems_covers {k : Packer} {q : Program} {order : ByteOrder} {head : Bytes}
    {entries done : List (Item × UInt32)} {b b' : Buffer} (ho : b.order = order)
    (h : k.emitItems q b entries = .ok b')
    (hc : Covers head done (q.contents k.addressing order) b.contents)
    (hhead : head.length < 2 ^ 32)
    (hw : ∀ e ∈ done ++ entries, Writable head (q.contents k.addressing order) e)
    (hap : (done ++ entries).Pairwise Apart) :
    b'.order = order ∧
      Covers head (done ++ entries) (q.contents k.addressing order) b'.contents := by
  induction entries generalizing done b with
  | nil =>
    obtain rfl := pure_eq_ok.1 h
    rw [List.append_nil]
    exact ⟨ho, hc⟩
  | cons e entries ih =>
    rw [emitItems, List.foldlM_cons, bind_eq_ok] at h
    obtain ⟨b₁, h1, h2⟩ := h
    obtain ⟨hsize, hle, hstop⟩ := hw e (by simp)
    have hlen : b.contents.length < 2 ^ 32 := by
      rcases hc.length_eq with hl | ⟨e', he', hl⟩
      · omega
      · rw [hl]; exact (hw e' (by simp [he'])).stop_lt
    -- an entry that takes bytes lies behind all that come before it
    have hbehind : 0 < e.1.padSize.toNat → ∀ e' ∈ done, stopOf e' ≤ e.2.toNat := by
      intro hpos e' he'
      obtain ⟨h1, h2⟩ := (List.pairwise_append.1 hap).2.2 e' he' e (by simp)
      unfold stopOf at h2 ⊢
      omega
    have hb : 0 < e.1.padSize.toNat → b.contents.length ≤ e.2.toNat := fun hpos => by
      rcases hc.length_eq with hl | ⟨e', he', hl⟩
      · omega
      · rw [hl]; exact hbehind hpos e' he'
    have hext := emitEntry_extends ho hlen hsize hstop hb h1
    have hstep := hc.step hsize hle hbehind hext.contents
    have hassoc : done ++ e :: entries = (done ++ [e]) ++ entries := by simp
    rw [hassoc] at hw hap ⊢
    exact ih (hext.order.trans ho) h2 hstep hw hap

end Packer

end LevelBundle
