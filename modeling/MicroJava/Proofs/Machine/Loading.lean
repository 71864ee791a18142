import Mathlib.Algebra.Group.Nat.Defs
import Mathlib.Tactic.Common
import MicroJava.Image

/-!
# Loading images

The machine reads an image from the front of a list of bytes.  Writing an image and loading it
gives its parts back, no two different images are written alike, and what is cut short cannot
be loaded.
-/

namespace MicroJava
namespace Image

open List

/-- What the machine learns from an image. -/
structure Payload where
  code : List UInt8
  dataSize : Nat
  entry : Nat
deriving DecidableEq, Repr

/-- The part of an image that is written. -/
def payload (image : Image) : Payload := ⟨image.code.bytes.toList, image.dataSize, image.entry⟩

/-- The numbers of the header have room in their four bytes. -/
structure IsAddressable (image : Image) : Prop where
  /-- The size of the code. -/
  code : image.code.size < 2 ^ 32
  /-- The number of global words. -/
  dataSize : image.dataSize < 2 ^ 32
  /-- The address of the entry point. -/
  entry : image.entry < 2 ^ 32

/-! ## The reader -/

/-- A reader takes bytes from the front of a list, or fails. -/
abbrev Reader := StateT (List UInt8) Option

namespace Reader

/-- Take so many bytes. -/
def take (count : Nat) : Reader (List UInt8) := fun bytes =>
  if count ≤ bytes.length then some (bytes.take count, bytes.drop count) else none

/-- Take a number of four bytes. -/
def number : Reader Nat := do return BigEndian.decode (← take 4)

/-- Take an image. -/
def image : Reader Payload := do
  let mark ← take signature.length
  guard (mark = signature)
  let size ← number
  let dataSize ← number
  let entry ← number
  let code ← take size
  return { code, dataSize, entry }

/-! ## What is written is read back -/

theorem take_append {count : Nat} {bytes : List UInt8} (length : bytes.length = count)
    (more : List UInt8) :
    take count (bytes ++ more) = some (bytes, more) := by
  subst length
  simp [take]

theorem bind_of_eq_some {α β : Type} {first : Reader α} {next : α → Reader β}
    {bytes rest : List UInt8} {value : α} (read : first bytes = some (value, rest)) :
    (first >>= next) bytes = next value rest := by
  change (first bytes).bind _ = _
  rw [read]
  rfl

theorem number_append {value : Nat} (small : value < 2 ^ 32) (more : List UInt8) :
    number (BigEndian.encode 4 value ++ more) = some (value, more) := by
  rw [number, bind_of_eq_some (take_append (BigEndian.length_encode 4 value) more),
    BigEndian.decode_encode_of_lt small]
  rfl

theorem image_toBytes_append {image : Image} (fits : image.IsAddressable) (more : List UInt8) :
    Reader.image (image.toBytes ++ more) = some (image.payload, more) := by
  have written : image.toBytes ++ more = signature ++ (BigEndian.encode 4 image.code.size ++
      (BigEndian.encode 4 image.dataSize ++ (BigEndian.encode 4 image.entry ++
        (image.code.bytes.toList ++ more)))) := by
    simp only [toBytes, header, append_assoc]
  have size : image.code.bytes.toList.length = image.code.size := Array.length_toList
  rw [written, Reader.image, bind_of_eq_some (take_append rfl _), guard, if_pos rfl,
    bind_of_eq_some rfl, bind_of_eq_some (number_append fits.code _),
    bind_of_eq_some (number_append fits.dataSize _), bind_of_eq_some (number_append fits.entry _),
    bind_of_eq_some (take_append size _)]
  rfl

/-! ## Longer inputs -/

/-- A reader does not look at what it leaves. -/
def IsLocal {α : Type} (reader : Reader α) : Prop :=
  ∀ bytes more value rest, reader bytes = some (value, rest) →
    reader (bytes ++ more) = some (value, rest ++ more)

namespace IsLocal

variable {α β : Type}

theorem pure (value : α) : IsLocal (Pure.pure value : Reader α) := by
  intro bytes more result rest read
  cases read
  rfl

theorem bind {first : Reader α} {next : α → Reader β} (isLocal : IsLocal first)
    (isLocalNext : ∀ value, IsLocal (next value)) :
    IsLocal (first >>= next) := by
  intro bytes more result rest read
  obtain ⟨⟨value, between⟩, firstRead, nextRead⟩ := Option.bind_eq_some_iff.mp read
  change (first (bytes ++ more)).bind _ = _
  rw [isLocal _ _ _ _ firstRead, Option.bind_some]
  exact isLocalNext value _ _ _ _ nextRead

end IsLocal

theorem isLocal_take (count : Nat) : IsLocal (take count) := by
  intro bytes more value rest read
  rw [take] at read
  split_ifs at read with enough
  cases read
  rw [take, if_pos (by rw [length_append]; omega), take_append_of_le_length enough,
    drop_append_of_le_length enough]

theorem isLocal_guard (kept : Prop) [Decidable kept] : IsLocal (guard kept) := by
  rw [guard]
  split_ifs
  · exact .pure ()
  · exact nofun

theorem isLocal_number : IsLocal number := .bind (isLocal_take 4) fun _ => .pure _

theorem isLocal_image : IsLocal image :=
  .bind (isLocal_take _) fun _ => .bind (isLocal_guard _) fun _ => .bind isLocal_number fun _ =>
    .bind isLocal_number fun _ => .bind isLocal_number fun _ => .bind (isLocal_take _) fun _ =>
      .pure _

end Reader

/-! ## Images as containers -/

theorem payload_eq_of_toBytes_eq {image other : Image} (fits : image.IsAddressable)
    (otherFits : other.IsAddressable) (same : image.toBytes = other.toBytes) :
    image.payload = other.payload := by
  have read := Reader.image_toBytes_append fits []
  rw [same, Reader.image_toBytes_append otherFits []] at read
  exact (Prod.ext_iff.mp (Option.some.inj read)).1.symm

theorem image_eq_none_of_append {image : Image} {bytes lost : List UInt8}
    (fits : image.IsAddressable) (cut : bytes ++ lost = image.toBytes) (isLost : lost ≠ []) :
    Reader.image bytes = none := by
  rw [Option.eq_none_iff_forall_ne_some]
  rintro ⟨payload, rest⟩ read
  have whole := Reader.isLocal_image bytes lost payload rest read
  rw [cut, ← append_nil image.toBytes, Reader.image_toBytes_append fits] at whole
  have nothing : [] = rest ++ lost := (Prod.ext_iff.mp (Option.some.inj whole)).2
  exact isLost (append_eq_nil_iff.mp nothing.symm).2

/-- Reading an image consumes all of its bytes and gives its parts back; images that are written
alike have the same parts; and no proper part from the front of an image can be read. -/
theorem toBytes_isFaithful (image : Image) (fits : image.IsAddressable) :
    Reader.image image.toBytes = some (image.payload, []) ∧
      (∀ other : Image, other.IsAddressable → other.toBytes = image.toBytes →
        other.payload = image.payload) ∧
      ∀ bytes, bytes <+: image.toBytes → bytes ≠ image.toBytes → Reader.image bytes = none := by
  refine ⟨?_, fun other otherFits same => payload_eq_of_toBytes_eq otherFits fits same, ?_⟩
  · simpa only [append_nil] using Reader.image_toBytes_append fits []
  · rintro bytes ⟨lost, cut⟩ proper
    refine image_eq_none_of_append fits cut ?_
    rintro rfl
    exact proper (by rw [← cut, append_nil])

/-- An image whose code is itself an image, with as much data as there can be. -/
def nested : Image := ⟨Code.empty.push 1 (toBytes ⟨.empty, 3, 7⟩), 2 ^ 32 - 1, 14⟩

theorem nested_isFaithful :
    nested.IsAddressable ∧
      Reader.image nested.toBytes =
        some (⟨[77, 74, 0, 0, 0, 0, 0, 0, 0, 3, 0, 0, 0, 7], 2 ^ 32 - 1, 14⟩, []) ∧
      (∀ other : Image, other.IsAddressable → other.toBytes = nested.toBytes →
        other.payload = nested.payload) ∧
      Reader.image (nested.toBytes.take 27) = none := by
  have fits : nested.IsAddressable := ⟨by decide, by decide, by decide⟩
  obtain ⟨read, injective, cut⟩ := toBytes_isFaithful nested fits
  exact ⟨fits, read, injective, cut _ (List.take_prefix 27 _) (by decide)⟩

end Image
end MicroJava
