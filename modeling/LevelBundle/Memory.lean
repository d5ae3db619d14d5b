/-
  LevelBundle — bundles in memory.

  In memory a bundle is a row of regions, one for each chunk, each at an address
  of its own.  Words are read and written by the index of a region and an offset
  in it, or read by their address.
-/
import LevelBundle.Bundle.Cursor

namespace LevelBundle

/-- A chunk in memory. -/
structure Region where
  /-- The address of its first byte. -/
  base : UInt32
  /-- Its bytes. -/
  bytes : Array UInt8
  deriving DecidableEq, Repr, Inhabited

/-- The regions of a bundle, by the index of their chunk. -/
abbrev Memory := Array Region

namespace Region

/-- Whether a loader can use a region: its address is a whole word, not null, and
    the region ends inside the address space. -/
def usable (r : Region) : Bool :=
  r.base != 0 && r.base % wordSize == 0 && r.base.toNat + r.bytes.size ≤ 4294967296

/-- The word at an address, if the region holds all of it. -/
def wordAt? (r : Region) (order : ByteOrder) (address : UInt32) : Option UInt32 :=
  if r.base ≤ address then order.wordAt? r.bytes (address.toNat - r.base.toNat) else none

end Region

namespace Memory

/-- The number of bytes of a region. -/
def sizeAt (m : Memory) (block : Nat) : Nat := (m.getD block default).bytes.size

/-- The address of a region. -/
def baseAt (m : Memory) (block : Nat) : UInt32 := (m.getD block default).base

/-- The word at an offset of a region. -/
def word? (m : Memory) (order : ByteOrder) (block offset : Nat) : Option UInt32 :=
  order.wordAt? (m.getD block default).bytes offset

/-- Writes a word at an offset of a region. -/
def setWord (m : Memory) (order : ByteOrder) (block offset : Nat) (word : UInt32) : Memory :=
  m.modify block fun r => { r with bytes := order.setWordAt r.bytes offset word }

/-- The word at an address, in the first region that holds it. -/
def wordAt? (m : Memory) (order : ByteOrder) (address : UInt32) : Option UInt32 :=
  m.toList.findSome? fun r => r.wordAt? order address

end Memory

end LevelBundle
