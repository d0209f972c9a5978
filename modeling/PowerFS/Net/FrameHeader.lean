import PowerFS.Lib.CrcBurst
import PowerFS.Net.Receive
import PowerFS.Net.TlvRoundTrip

namespace PowerFS.Net

/-! The frame header: its encoding with every argument, and the errors that its checksum finds. Bits
are numbered as the checksum takes them, bit `i` of byte `j` (the lowest is bit 0) being number
`8 * j + i`. -/

/-- `crc32c_table`, as `powerfs_crc32c_init_table` fills it. -/
def crc32cTable (i : BitVec 32) : BitVec 32 := (Crc.shift crc32cPoly)^[8] i

/-- `powerfs_crc32c_append`. -/
def crc32cAppend (crc : BitVec 32) (data : List UInt8) : BitVec 32 :=
  ~~~ data.foldl (fun state b =>
    crc32cTable ((state ^^^ b.toBitVec.setWidth 32) &&& 0xFF#32) ^^^ state >>> 8) (~~~ crc)

/-- The arguments of `powerfs_net_frame_hdr_encode`. -/
structure HdrArgs where
  msgType : UInt16
  flags : UInt8
  seq : UInt32
  status : UInt16
  bodyLen : UInt32
  dataLen : UInt32
  routeHash : UInt8
  deriving DecidableEq

/-- The members of `struct powerfs_net_frame_hdr` before the checksum: `POWERFS_NET_MAGIC`,
`POWERFS_NET_VERSION` and `POWERFS_NET_PROTOCOL_VER` are constants. -/
def HdrArgs.members (a : HdrArgs) : List (List UInt8) :=
  [[0x50, 0x46, 0x53, 0x4e], [0x01], [a.flags], leBytes 4 a.seq.toNat, leBytes 2 a.msgType.toNat,
    leBytes 2 a.status.toNat, leBytes 4 a.dataLen.toNat, leBytes 4 a.bodyLen.toNat, [a.routeHash],
    [0x01]]

/-- `powerfs_net_frame_hdr_encode`. -/
def frameHdrEncode (a : HdrArgs) : List UInt8 :=
  (a.members ++ [leBytes 4 (crc32cAppend 0#32 a.members.flatten).toNat]).flatten

/-- The header that the receiver is to see. -/
def HdrArgs.decoded (a : HdrArgs) : FrameHdr where
  flags := a.flags
  seq := a.seq.toNat
  msgType := a.msgType.toNat
  status := a.status.toNat
  dataLen := a.dataLen.toNat
  bodyLen := a.bodyLen.toNat
  routeHash := a.routeHash
  protocolVer := 0x01

theorem crc32cAppend_zero (data : List UInt8) : crc32cAppend 0#32 data = crc32c data := by
  have hindex : ∀ x : BitVec 32, x &&& 0xFF#32 = (x.setWidth 8).setWidth 32 := by
    intro x
    apply BitVec.eq_of_toNat_eq
    simp only [BitVec.toNat_and, BitVec.toNat_setWidth, BitVec.toNat_ofNat]
    rw [show 0xFF % 2 ^ 32 = 2 ^ 8 - 1 from rfl, Nat.and_two_pow_sub_one_eq_mod]
    omega
  have hstep : (fun (state : BitVec 32) (b : UInt8) =>
      crc32cTable ((state ^^^ b.toBitVec.setWidth 32) &&& 0xFF#32) ^^^ state >>> 8) =
      Crc.feed crc32cPoly := by
    funext state b
    rw [Crc.feed_eq_table, hindex, crc32cTable]
  rw [crc32cAppend, hstep, crc32c, Crc.run, BitVec.not_zero, BitVec.xor_allOnes]

/-- The same bytes for numbers that agree in `width` bytes. -/
theorem leBytes_mod (width n : Nat) : leBytes width (n % 256 ^ width) = leBytes width n := by
  induction width generalizing n with
  | zero => rfl
  | succ width ih =>
    have hlow : UInt8.ofNat (n % 256 ^ (width + 1)) = UInt8.ofNat n := by
      rw [← UInt8.toNat_inj, UInt8.toNat_ofNat', UInt8.toNat_ofNat', Nat.pow_succ',
        Nat.mod_mul_right_mod]
    rw [leBytes_succ, leBytes_succ, hlow, Nat.pow_succ', Nat.mod_mul_right_div_self, ih]

/-- The header of a request: `POWERFS_NET_FLAG_REQUEST`, status 0 and the lengths of body and
data. -/
def Frame.hdrArgs (f : Frame) : HdrArgs where
  msgType := f.msgType
  flags := 0x01
  seq := f.seq
  status := 0
  bodyLen := UInt32.ofNat f.body.length
  dataLen := UInt32.ofNat (f.body.length + f.data.length)
  routeHash := f.routeHash

theorem hdrEncode_eq (f : Frame) : hdrEncode f = frameHdrEncode f.hdrArgs := by
  have hlen : ∀ n, leBytes 4 (UInt32.ofNat n).toNat = leBytes 4 n := by
    intro n
    exact leBytes_mod 4 n
  have hfields : hdrFields f = f.hdrArgs.members.flatten := by
    simp only [HdrArgs.members, Frame.hdrArgs, hlen]
    simp [hdrFields, hdrStart]
  rw [hdrEncode, frameHdrEncode, crc32cAppend_zero, hfields, List.flatten_append,
    List.flatten_singleton]

theorem getD_of_slice {buf : List UInt8} {off : Nat} {b : UInt8} (h : slice buf off 1 = [b]) :
    buf.getD off 0 = b := by
  have hget : (slice buf off 1)[0]? = some b := by rw [h]; rfl
  rw [slice, List.getElem?_take_of_lt (by decide), List.getElem?_drop] at hget
  rw [List.getD_eq_getElem?_getD, ← Nat.add_zero off, hget]
  rfl

theorem length_members (a : HdrArgs) : a.members.flatten.length = 24 := by
  simp [HdrArgs.members, length_leBytes]

theorem length_frameHdrEncode (a : HdrArgs) : (frameHdrEncode a).length = hdrSize := by
  rw [frameHdrEncode, List.flatten_append, List.length_append, length_members]
  simp [length_leBytes, hdrSize]

theorem hdrDecode_frameHdrEncode (a : HdrArgs) :
    hdrDecode (frameHdrEncode a) = some a.decoded := by
  have hcrc : slice (frameHdrEncode a) 0 24 = a.members.flatten := by
    exact List.take_left' (length_members a)
  have hsum : leNat (slice (frameHdrEncode a) 24 4) = (crc32c a.members.flatten).toNat := by
    have hslice : slice (frameHdrEncode a) 24 4 =
        leBytes 4 (crc32cAppend 0#32 a.members.flatten).toNat :=
      slice_flatten 10 rfl (length_members a) (length_leBytes _ _)
    rw [hslice, crc32cAppend_zero, leNat_leBytes_of_lt (BitVec.isLt _)]
  have hmagic : slice (frameHdrEncode a) 0 4 = [0x50, 0x46, 0x53, 0x4e] :=
    slice_flatten 0 rfl rfl rfl
  have hversion : slice (frameHdrEncode a) 4 1 = [0x01] := slice_flatten 1 rfl rfl rfl
  have hflags : slice (frameHdrEncode a) 5 1 = [a.flags] := slice_flatten 2 rfl rfl rfl
  have hseq : slice (frameHdrEncode a) 6 4 = leBytes 4 a.seq.toNat :=
    slice_flatten 3 rfl rfl (length_leBytes _ _)
  have hmsgType : slice (frameHdrEncode a) 10 2 = leBytes 2 a.msgType.toNat :=
    slice_flatten 4 rfl (by simp [HdrArgs.members, length_leBytes]) (length_leBytes _ _)
  have hstatus : slice (frameHdrEncode a) 12 2 = leBytes 2 a.status.toNat :=
    slice_flatten 5 rfl (by simp [HdrArgs.members, length_leBytes]) (length_leBytes _ _)
  have hdataLen : slice (frameHdrEncode a) 14 4 = leBytes 4 a.dataLen.toNat :=
    slice_flatten 6 rfl (by simp [HdrArgs.members, length_leBytes]) (length_leBytes _ _)
  have hbodyLen : slice (frameHdrEncode a) 18 4 = leBytes 4 a.bodyLen.toNat :=
    slice_flatten 7 rfl (by simp [HdrArgs.members, length_leBytes]) (length_leBytes _ _)
  have hrouteHash : slice (frameHdrEncode a) 22 1 = [a.routeHash] :=
    slice_flatten 8 rfl (by simp [HdrArgs.members, length_leBytes]) rfl
  have hprotocolVer : slice (frameHdrEncode a) 23 1 = [0x01] :=
    slice_flatten 9 rfl (by simp [HdrArgs.members, length_leBytes]) rfl
  rw [hdrDecode, length_frameHdrEncode, if_neg (Nat.lt_irrefl _), hmagic, if_neg (by decide),
    hversion, if_neg (by decide), hcrc, hsum, if_neg (not_not.mpr rfl), hseq, hmsgType, hstatus,
    hdataLen, hbodyLen, leNat_leBytes_of_lt a.seq.toNat_lt, leNat_leBytes_of_lt a.msgType.toNat_lt,
    leNat_leBytes_of_lt a.status.toNat_lt, leNat_leBytes_of_lt a.dataLen.toNat_lt,
    leNat_leBytes_of_lt a.bodyLen.toNat_lt]
  rfl

theorem testBit_leNat (bytes : List UInt8) (i : Nat) :
    (leNat bytes).testBit i = Crc.bitAt bytes i := by
  induction bytes generalizing i with
  | nil => simp [leNat, Crc.bitAt]
  | cons b bytes ih =>
    rw [leNat, Nat.add_comm, Nat.testBit_two_pow_mul_add _ b.toNat_lt]
    split
    · next hi =>
      rw [Crc.bitAt, Nat.div_eq_of_lt hi, Nat.mod_eq_of_lt hi]
      rfl
    · next hi =>
      obtain ⟨j, rfl⟩ : ∃ j, i = j + 8 := ⟨i - 8, by omega⟩
      rw [Nat.add_sub_cancel, ih, Crc.bitAt, Crc.bitAt, Nat.add_mod_right,
        Nat.add_div_right _ (by decide), List.getD_cons_succ]

theorem run_of_hdrDecode {buf : List UInt8} (hlen : buf.length = hdrSize)
    (h : hdrDecode buf ≠ none) :
    Crc.run crc32cPoly (BitVec.allOnes 32) buf =
      (Crc.shift crc32cPoly)^[32] (BitVec.allOnes 32) := by
  have hsum : leNat (slice buf 24 4) = (crc32c (slice buf 0 24)).toNat := by
    by_contra hne
    refine h ?_
    rw [hdrDecode]
    split <;> [rfl; split <;> [rfl; split <;> rfl]]
  have hsplit : buf = slice buf 0 24 ++ slice buf 24 4 := by
    rw [slice, slice, List.drop_zero, List.take_of_length_le (l := buf.drop 24) (by
      rw [List.length_drop, hlen]
      decide), List.take_append_drop]
  have htail : (slice buf 24 4).length = 4 := by
    rw [slice, List.length_take, List.length_drop, hlen]
    rfl
  have hbits : (Crc.bitsOf (slice buf 24 4)).length = 32 := by
    rw [Crc.length_bitsOf, htail]
  -- The last four bytes are the remainder of the others, inverted.
  have hword : Crc.word 32 (Crc.bitsOf (slice buf 24 4)) = crc32c (slice buf 0 24) := by
    apply BitVec.eq_of_getLsbD_eq
    intro i hi
    rw [Crc.getLsbD_word, Crc.getD_bitsOf, ← testBit_leNat, hsum, decide_eq_true hi, Bool.true_and,
      BitVec.testBit_toNat]
  conv_lhs => rw [hsplit]
  rw [Crc.run, List.foldl_append, ← Crc.run, ← Crc.run, Crc.run_eq_feedBits (by decide),
    Crc.feedBits_eq (Nat.le_of_eq hbits), hbits, hword, crc32c, ← BitVec.xor_assoc,
    BitVec.xor_self, BitVec.zero_xor]

/-- Every header is decoded to what was encoded; and a change inside 32 consecutive bits makes an
accepted header one that is refused. -/
theorem frameHdr_roundTrip_burst (a : HdrArgs) :
    (frameHdrEncode a).length = hdrSize ∧ hdrDecode (frameHdrEncode a) = some a.decoded ∧
    ∀ hdr buf : List UInt8, hdr.length = hdrSize → hdrDecode hdr ≠ none → buf.length = hdrSize →
      buf ≠ hdr → ∀ start,
        (∀ i, Crc.bitAt hdr i ≠ Crc.bitAt buf i → start ≤ i ∧ i < start + 32) →
        hdrDecode buf = none := by
  refine ⟨length_frameHdrEncode a, hdrDecode_frameHdrEncode a, ?_⟩
  intro hdr buf hhdr haccepted hbuf hne start hburst
  have hpoly : crc32cPoly.getLsbD (32 - 1) = true := by decide
  by_contra hbad
  refine Crc.run_ne_of_burst (by decide) hpoly (BitVec.allOnes 32) (hhdr.trans hbuf.symm)
    (Ne.symm hne) hburst ?_
  rw [run_of_hdrDecode hhdr haccepted, run_of_hdrDecode hbuf hbad]

def emptyRequest : HdrArgs :=
  { msgType := 1, flags := 1, seq := 7, status := 0, bodyLen := 0, dataLen := 0, routeHash := 0 }

/-- Another sequence number under the same checksum. -/
theorem frameHdr_burst_seq : hdrDecode (frameHdrEncode emptyRequest) = some emptyRequest.decoded ∧
    (frameHdrEncode emptyRequest).set 6 8 ≠ frameHdrEncode emptyRequest ∧
    hdrDecode ((frameHdrEncode emptyRequest).set 6 8) = none := by
  obtain ⟨hlen, hdec, hburst⟩ := frameHdr_roundTrip_burst emptyRequest
  have hne : (frameHdrEncode emptyRequest).set 6 8 ≠ frameHdrEncode emptyRequest := by
    decide +kernel
  refine ⟨hdec, hne, hburst _ _ hlen (by rw [hdec]; nofun) ?_ hne 48 ?_⟩
  · rw [List.length_set, hlen]
  · intro i hi
    by_contra hout
    refine hi ?_
    rw [Crc.bitAt, Crc.bitAt, List.getD_eq_getElem?_getD, List.getD_eq_getElem?_getD,
      List.getElem?_set_ne (by omega)]

-- Counted from the highest bit of each byte down, these are also 32 consecutive bits.
example : hdrDecode (List.zipWith (· ^^^ ·) (frameHdrEncode emptyRequest)
    (List.replicate 6 0 ++ [0x01, 0x03, 0x83, 0x6B, 0xF2] ++ List.replicate 17 0)) ≠ none := by
  decide +kernel

end PowerFS.Net
