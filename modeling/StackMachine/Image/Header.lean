import StackMachine.Bytes.Word

/-!
# The header of a program image

An image starts with twelve bytes: a marker of four bytes, the version of the format
and the number of sections. The section table follows them.

* `Header.encode`, `Header.decode?`: a header as bytes and back;
* `Header.tableEnd`: where the section table ends.
-/

namespace StackMachine

open Bytes

/-- The marker of images: `VELA`. -/
def imageMagic : List UInt8 := [0x56, 0x45, 0x4C, 0x41]

/-- The highest version of the format that can be loaded. -/
def imageVersion : UInt32 := 1

/-- The number of bytes of a header. -/
def headerSize : Nat := 12

/-- The number of bytes of an entry of the section table. -/
def sectionEntrySize : Nat := 12

/-- The header of an image. The marker has four bytes. -/
structure Header where
  magic : List UInt8 := imageMagic
  version : UInt32 := imageVersion
  sectionCount : UInt32 := 0
deriving DecidableEq, Inhabited

namespace Header

/-- The bytes of a header. -/
def encode (h : Header) : List UInt8 :=
  h.magic ++ word 4 h.version.toNat ++ word 4 h.sectionCount.toNat

/-- The header that `bs` starts with; `none` if `bs` is too short for one. -/
def decode? (bs : List UInt8) : Option Header :=
  if (bs.take headerSize).length = headerSize then
    some
      { magic := slice bs 0 4
        version := UInt32.ofNat (wordValue (slice bs 4 4))
        sectionCount := UInt32.ofNat (wordValue (slice bs 8 4)) }
  else none

/-- Whether the marker is the one of images. -/
def hasMagic (h : Header) : Bool :=
  h.magic == imageMagic

/-- Whether the version can be loaded. Older versions can. -/
def isSupported (h : Header) : Bool :=
  h.version ≤ imageVersion

/-- The offset of the end of the section table. -/
def tableEnd (h : Header) : Nat :=
  headerSize + h.sectionCount.toNat * sectionEntrySize

end Header

end StackMachine
