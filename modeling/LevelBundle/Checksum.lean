/-
  LevelBundle — the checksum of a file.

  `crc32` is the cyclic redundancy check of IEEE 802.3: the remainder of the
  message, as a polynomial over the two-element field with the lowest bit of a
  byte first, by the polynomial whose reversed coefficients are `0xEDB88320`;
  the register starts and ends complemented.
-/

namespace LevelBundle.Checksum

/-- The coefficients of the divisor, lowest power in the highest bit. -/
def polynomial : UInt32 := 0xEDB88320

/-- One step of the division. -/
def shift (register : UInt32) : UInt32 :=
  if register &&& 1 = 1 then (register >>> 1) ^^^ polynomial else register >>> 1

/-- Takes one byte into the register: eight steps of the division. -/
def absorb (register : UInt32) (byte : UInt8) : UInt32 :=
  (List.range 8).foldl (fun r _ => shift r) (register ^^^ byte.toUInt32)

/-- The check of a whole message. -/
def crc32 (data : Array UInt8) : UInt32 :=
  ~~~ data.foldl absorb 0xFFFFFFFF

end LevelBundle.Checksum
