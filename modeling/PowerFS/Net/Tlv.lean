import PowerFS.Errno
import Mathlib.Algebra.Group.Nat.Defs

namespace PowerFS.Net

/-! The decoder of `powerfs_tlv.c`: `field_id` (1 byte), `length` (4 bytes, big endian), then
`length` bytes of value; integers inside a value are little endian. -/

/-- `struct powerfs_tlv_dec`. -/
structure TlvDec where
  buf : List UInt8
  pos : Nat
  deriving DecidableEq, Repr

/-- The little endian number in a run of bytes. -/
def leNat : List UInt8 → Nat
  | [] => 0
  | b :: bs => b.toNat + 256 * leNat bs

/-- `le32_to_cpup`. -/
def le32 (bs : List UInt8) : UInt32 := UInt32.ofNat (leNat (bs.take 4))

/-- `le64_to_cpup`. -/
def le64 (bs : List UInt8) : UInt64 := UInt64.ofNat (leNat (bs.take 8))

namespace TlvDec

/-- `powerfs_tlv_dec_init`. -/
def init (buf : List UInt8) : TlvDec := ⟨buf, 0⟩

/-- The length of the field header at `pos`. -/
def lengthAt (d : TlvDec) (pos : Nat) : Nat :=
  (d.buf.getD pos 0).toNat * 2 ^ 24 + (d.buf.getD (pos + 1) 0).toNat * 2 ^ 16
    + (d.buf.getD (pos + 2) 0).toNat * 2 ^ 8 + (d.buf.getD (pos + 3) 0).toNat

/-- `powerfs_tlv_dec_next`: the id and length of the next field. The position moves past the
header also when the field then turns out to be cut off. -/
def next (d : TlvDec) : Except Errno (UInt8 × Nat) × TlvDec :=
  if d.buf.length < d.pos + 5 then (.error .enoent, d)
  else
    let length := d.lengthAt (d.pos + 1)
    let d' : TlvDec := { d with pos := d.pos + 5 }
    if d.buf.length < d'.pos + length then (.error .einval, d')
    else (.ok (d.buf.getD d.pos 0, length), d')

/-- The loop shared by the four `find` functions, from the decoder's position on: the offset
and length of the first value with the wanted id, and length when `want` gives one. -/
def findLoop (field : UInt8) (want : Option Nat) : Nat → TlvDec → Option (Nat × Nat)
  | 0, _ => none
  | fuel + 1, d =>
    if d.pos < d.buf.length then
      match d.next with
      | (.error _, _) => none
      | (.ok (cur, len), d') =>
        if cur = field ∧ (want = none ∨ want = some len) then some (d'.pos, len)
        else findLoop field want fuel { d' with pos := d'.pos + len }
    else none

/-- The search of a whole buffer. Every round moves the position by at least a header, so
`length` rounds are enough. -/
def find (d : TlvDec) (field : UInt8) (want : Option Nat) : Option (Nat × Nat) :=
  findLoop field want d.buf.length { d with pos := 0 }

/-- The bytes of a value found at `(start, len)`. -/
def value (d : TlvDec) (r : Nat × Nat) : List UInt8 := (d.buf.drop r.1).take r.2

/-- `powerfs_tlv_dec_find_raw`. -/
def findRaw (d : TlvDec) (field : UInt8) : Option (List UInt8) :=
  (d.find field none).map d.value

/-- `powerfs_tlv_dec_find_u8`. -/
def findU8 (d : TlvDec) (field : UInt8) : Option UInt8 :=
  (d.find field (some 1)).map fun r => d.buf.getD r.1 0

/-- `powerfs_tlv_dec_find_u32`. -/
def findU32 (d : TlvDec) (field : UInt8) : Option UInt32 :=
  (d.find field (some 4)).map fun r => le32 (d.value r)

/-- `powerfs_tlv_dec_find_u64`. -/
def findU64 (d : TlvDec) (field : UInt8) : Option UInt64 :=
  (d.find field (some 8)).map fun r => le64 (d.value r)

/-- `powerfs_tlv_dec_string` into a buffer of `maxLen` bytes: only the field at the position is looked
at. -/
def decString (d : TlvDec) (field : UInt8) (maxLen : Nat) : Except Errno (List UInt8) :=
  if d.buf.length < d.pos + 5 then .error .enoent
  else
    let length := d.lengthAt (d.pos + 1)
    if d.buf.length < d.pos + 5 + length ∨ d.buf.getD d.pos 0 ≠ field then .error .enoent
    else if maxLen ≤ length then .error .e2big
    else .ok (d.value (d.pos + 5, length))

end TlvDec

end PowerFS.Net
