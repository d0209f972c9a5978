import PowerFS.Net.Tlv

namespace PowerFS.Net

/-! The encoding of a byte string as a field, `powerfs_tlv_enc_bytes`. -/

/-- A length as four bytes, big endian. -/
def be32 (n : Nat) : List UInt8 :=
  [UInt8.ofNat (n / 2 ^ 24), UInt8.ofNat (n / 2 ^ 16), UInt8.ofNat (n / 2 ^ 8), UInt8.ofNat n]

def tlvField (field : UInt8) (v : List UInt8) : List UInt8 := field :: (be32 v.length ++ v)

/-- `POWERFS_NET_MAX_TLV`. -/
def maxTlv : Nat := 65535

/-- What `powerfs_tlv_enc_bytes` adds to a buffer that has the room. -/
def encBytes (field : UInt8) (v : List UInt8) : Except Errno (List UInt8) :=
  if maxTlv < v.length then .error .e2big else .ok (tlvField field v)

@[simp] theorem length_tlvField (field : UInt8) (v : List UInt8) :
    (tlvField field v).length = v.length + 5 := by
  simp [tlvField, be32]

theorem lengthAt_tlvField (field : UInt8) {v : List UInt8} (h : v.length < 2 ^ 32) :
    TlvDec.lengthAt ⟨tlvField field v, 0⟩ 1 = v.length := by
  simp only [TlvDec.lengthAt, tlvField, be32, List.cons_append, List.getD_cons_succ,
    List.getD_cons_zero, UInt8.toNat_ofNat']
  omega

theorem next_tlvField (field : UInt8) {v : List UInt8} (h : v.length < 2 ^ 32) :
    TlvDec.next ⟨tlvField field v, 0⟩ = (.ok (field, v.length), ⟨tlvField field v, 5⟩) := by
  have hlen := lengthAt_tlvField field h
  have hsize := length_tlvField field v
  unfold TlvDec.next
  split
  · next hshort =>
    simp only at hshort
    omega
  · simp only [hlen]
    split
    · next hcut => omega
    · rfl

theorem findLoop_of_next {d d' : TlvDec} {field : UInt8} {len : Nat}
    (hpos : d.pos < d.buf.length) (hnext : d.next = (.ok (field, len), d')) (fuel : Nat) :
    TlvDec.findLoop field none (fuel + 1) d = some (d'.pos, len) := by
  unfold TlvDec.findLoop
  rw [if_pos hpos, hnext]
  simp

theorem findRaw_tlvField (field : UInt8) {v : List UInt8} (h : v.length < 2 ^ 32) :
    (TlvDec.init (tlvField field v)).findRaw field = some v := by
  have hfind : (TlvDec.init (tlvField field v)).find field none = some (5, v.length) := by
    have hloop := findLoop_of_next (by simp) (next_tlvField field h) (v.length + 4)
    rwa [← length_tlvField field v] at hloop
  rw [TlvDec.findRaw, hfind]
  simp [TlvDec.value, TlvDec.init, tlvField, be32]

end PowerFS.Net
