import MicroJava.Code.Basic

/-!
# Images

An image is what the machine loads: a signature, the sizes of code and global
data, the address of the entry point, and the code.
-/

namespace MicroJava

/-- A compiled program. -/
structure Image where
  /-- The code of all methods. -/
  code : Code
  /-- The number of global words: variables and dispatch tables. -/
  dataSize : Nat
  /-- The code address of the entry point. -/
  entry : Nat
deriving Inhabited

namespace Image

/-- The bytes by which images are recognised. -/
def signature : List UInt8 := [77, 74]

/-- The number of bytes before the code. -/
def headerSize : Nat := 14

/-- The bytes before the code. -/
def header (image : Image) : List UInt8 :=
  signature ++ BigEndian.encode 4 image.code.size ++
    BigEndian.encode 4 image.dataSize ++ BigEndian.encode 4 image.entry

/-- The bytes of an image. -/
def toBytes (image : Image) : List UInt8 := image.header ++ image.code.bytes.toList

/-- What a buffer with room for so many bytes holds after the image is written to it. -/
def written (image : Image) (room : Nat) : List UInt8 := image.toBytes.take room

/-- Whether a buffer with room for so many bytes holds the whole image. -/
def fits (image : Image) (room : Nat) : Bool := image.toBytes.length ≤ room

end Image
end MicroJava
