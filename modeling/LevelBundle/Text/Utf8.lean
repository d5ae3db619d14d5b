/-
  LevelBundle — text in bytes.

  Files and records hold text as UTF-8.  `Utf8.encode` and `Utf8.decode?` go
  between the two.  Where bytes are no text, `Utf8.fault` says where the first
  bad sequence starts and how many bytes of it could have started a character
  (`none` if the bytes just end too early).  `Utf8.lossy` shows any bytes as text,
  with one mark in the place of each bad sequence.
-/

namespace LevelBundle.Utf8

/-- The bytes of a text. -/
def encode (text : String) : List UInt8 := text.toUTF8.data.toList

/-- The text of some bytes, if they are one. -/
def decode? (bytes : List UInt8) : Option String := String.fromUTF8? ⟨bytes.toArray⟩

/-- Whether a byte continues a character. -/
def isTail (b : UInt8) : Bool := 0x80 ≤ b && b ≤ 0xBF

/-- How many bytes a character has whose first byte is `b`; zero for none. -/
def width (b : UInt8) : Nat :=
  if b ≤ 0x7F then 1
  else if 0xC2 ≤ b && b ≤ 0xDF then 2
  else if 0xE0 ≤ b && b ≤ 0xEF then 3
  else if 0xF0 ≤ b && b ≤ 0xF4 then 4
  else 0

/-- Whether `c` may follow the first byte `b` of a character: some first bytes
    admit a part of the tail range, which leaves out long spellings, surrogates
    and what lies past the last character. -/
def isSecond (b c : UInt8) : Bool :=
  if b = 0xE0 then 0xA0 ≤ c && c ≤ 0xBF
  else if b = 0xED then 0x80 ≤ c && c ≤ 0x9F
  else if b = 0xF0 then 0x90 ≤ c && c ≤ 0xBF
  else if b = 0xF4 then 0x80 ≤ c && c ≤ 0x8F
  else isTail c

/-- Why bytes are no text. -/
structure Fault where
  /-- Where the first bad sequence starts. -/
  index : Nat
  /-- How many bytes it has; `none` if the bytes end inside a character. -/
  length? : Option Nat
  deriving DecidableEq, Repr

/-- The wording of a fault. -/
def Fault.message (f : Fault) : String :=
  match f.length? with
  | some n => s!"invalid utf-8 sequence of {n} bytes from index {f.index}"
  | none => s!"incomplete utf-8 byte sequence from index {f.index}"

/-- How the sequence at the start of `bytes` goes wrong: `none` for a whole
    character, else the length of a fault. -/
def firstFault? : List UInt8 → Option (Option Nat)
  | [] => none
  | b :: tail =>
    let rec continues : Nat → Nat → List UInt8 → Option (Option Nat)
      | 0, _, _ => none
      | _ + 1, _, [] => some none
      | missing + 1, seen, c :: cs =>
        if (if seen = 1 then isSecond b c else isTail c) then continues missing (seen + 1) cs
        else some (some seen)
    match width b with
    | 0 => some (some 1)
    | n + 1 => continues n 1 tail

/-- The first fault of `bytes`, the first of which has the index `index`.
    `skip` bytes belong to a character already found whole. -/
def faultFrom (index skip : Nat) : List UInt8 → Option Fault
  | [] => none
  | b :: tail =>
    match skip with
    | skip + 1 => faultFrom (index + 1) skip tail
    | 0 =>
      match firstFault? (b :: tail) with
      | some length? => some ⟨index, length?⟩
      | none => faultFrom (index + 1) (width b - 1) tail

/-- The first fault of some bytes. -/
def fault (bytes : List UInt8) : Fault := (faultFrom 0 0 bytes).getD ⟨bytes.length, none⟩

/-- The character at the start of some bytes, if there is a whole one. -/
def char? (bytes : List UInt8) : Option Char :=
  ByteArray.utf8DecodeChar? ⟨(bytes.take 4).toArray⟩ 0

/-- The mark for bytes that are no character. -/
def mark : Char := '\ufffd'

/-- Bytes as characters, with one mark for each bad sequence.  `skip` bytes belong
    to what has been shown already. -/
def lossyFrom (skip : Nat) : List UInt8 → List Char
  | [] => []
  | b :: tail =>
    match skip with
    | skip + 1 => lossyFrom skip tail
    | 0 =>
      match char? (b :: tail) with
      | some c => c :: lossyFrom (c.utf8Size - 1) tail
      | none =>
        match firstFault? (b :: tail) with
        | some (some n) => mark :: lossyFrom (n - 1) tail
        | _ => [mark]

/-- Bytes as text, with one mark for each bad sequence.  Different bytes may look
    the same. -/
def lossy (bytes : List UInt8) : String := String.ofList (lossyFrom 0 bytes)

end LevelBundle.Utf8
