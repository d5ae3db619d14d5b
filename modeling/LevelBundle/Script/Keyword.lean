/-
  LevelBundle — the keywords that start a script line.
-/
import LevelBundle.Word

namespace LevelBundle

/-- What a script line adds to its section. -/
inductive Keyword where
  /-- `file`, `data`: a reference to the contents of a file, stored once. -/
  | file
  /-- `level`, `pntr`: a reference to another section. -/
  | level
  /-- `load`: a reference to a file that is loaded on demand. -/
  | load
  /-- `long`: integers of four bytes. -/
  | long
  /-- `word`: integers of two bytes. -/
  | word
  /-- `byte`: integers of one byte. -/
  | byte
  /-- `float`: binary32 numbers. -/
  | float
  /-- `string`: the bytes of texts. -/
  | string
  /-- `binc`: the contents of a file, in place. -/
  | binc
  /-- `align`: zeros up to a boundary. -/
  | align
  /-- `pad`: zeros. -/
  | pad
  /-- `path`: the directory of the file lines that follow in the section. -/
  | path
  /-- `insert`: the parts of another section, in place. -/
  | insert
  deriving DecidableEq, Repr

namespace Keyword

/-- Reads a lower-case keyword. -/
def ofName? : String → Option Keyword
  | "file" | "data" => some file
  | "level" | "pntr" => some level
  | "load" => some load
  | "long" => some long
  | "word" => some word
  | "byte" => some byte
  | "float" => some float
  | "string" => some string
  | "binc" => some binc
  | "align" => some align
  | "pad" => some pad
  | "path" => some path
  | "insert" => some insert
  | _ => none

/-- The width in bytes of one number, for the keywords that take numbers. -/
def elementWidth? : Keyword → Option UInt32
  | long | float => some 4
  | word => some 2
  | byte => some 1
  | _ => none

/-- The integers a keyword takes: from the least signed to the greatest
    unsigned number of its width. -/
def intRange? : Keyword → Option (Int × Int)
  | long => some (-2147483648, 4294967295)
  | word => some (-32768, 65535)
  | byte => some (-128, 255)
  | _ => none

end Keyword

end LevelBundle
