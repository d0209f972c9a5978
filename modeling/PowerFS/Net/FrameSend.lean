import PowerFS.Errno
import PowerFS.Lib.Crc
import Mathlib.Algebra.BigOperators.Group.List.Basic
import Mathlib.Algebra.GroupWithZero.Nat

namespace PowerFS.Net

/-! Frames and how `pfs_frame_send_nonblock` writes one to a socket. -/

/-- A number in `width` bytes, little endian. -/
def leBytes (width n : Nat) : List UInt8 :=
  (List.range width).map fun i => UInt8.ofNat (n / 256 ^ i)

theorem length_leBytes (width n : Nat) : (leBytes width n).length = width := by
  simp [leBytes]

def crc32cPoly : BitVec 32 := 0x82F63B78#32

/-- `powerfs_crc32c_append(0, bytes, len)`. -/
def crc32c (bytes : List UInt8) : BitVec 32 :=
  Crc.run crc32cPoly (BitVec.allOnes 32) bytes ^^^ BitVec.allOnes 32

structure Frame where
  msgType : UInt16
  seq : UInt32
  routeHash : UInt8
  body : List UInt8
  data : List UInt8
  deriving DecidableEq

/-- `POWERFS_NET_MAGIC`, big endian, then `POWERFS_NET_VERSION` and `POWERFS_NET_FLAG_REQUEST`. -/
def hdrStart : List UInt8 := [0x50, 0x46, 0x53, 0x4e, 0x01, 0x01]

/-- `powerfs_net_frame_hdr_encode` up to the checksum; the status of a request is 0. -/
def hdrFields (f : Frame) : List UInt8 :=
  hdrStart ++ leBytes 4 f.seq.toNat ++ leBytes 2 f.msgType.toNat ++ leBytes 2 0 ++
    leBytes 4 (f.body.length + f.data.length) ++ leBytes 4 f.body.length ++ [f.routeHash, 0x01]

/-- `powerfs_net_frame_hdr_encode`. -/
def hdrEncode (f : Frame) : List UInt8 := hdrFields f ++ leBytes 4 (crc32c (hdrFields f)).toNat

/-- The `kvec` of a frame. -/
def Frame.vec (f : Frame) : List (List UInt8) :=
  hdrEncode f :: ((if f.body = [] then [] else [f.body]) ++ if f.data = [] then [] else [f.data])

def Frame.bytes (f : Frame) : List UInt8 := f.vec.flatten

theorem Frame.bytes_eq (f : Frame) : f.bytes = hdrEncode f ++ f.body ++ f.data := by
  unfold Frame.bytes Frame.vec
  split <;> split <;> simp_all

theorem Frame.bytes_start (f : Frame) : ∃ rest, f.bytes = 0x50 :: 0x46 :: rest :=
  ⟨_, f.bytes_eq⟩

theorem Frame.length_pos (f : Frame) : 0 < f.bytes.length := by
  obtain ⟨rest, hrest⟩ := f.bytes_start
  simp [hrest]

/-- What one `kernel_sendmsg` returns. -/
inductive SendResult where
  | sent (n : Nat)
  | error (err : Errno)
  deriving DecidableEq

/-- The outcome of `pfs_frame_send_nonblock`: what was written to the socket, `send_offset`
afterwards and the result. -/
structure SendOut (α : Type*) where
  written : List α
  offset : Nat
  ret : Except Errno Unit

section Send

variable {α : Type*}

/-- Skips bytes at the front of a `kvec`. -/
def skipVec : Nat → List (List α) → List (List α)
  | _, [] => []
  | n, v :: vec =>
    if n = 0 then v :: vec
    else if v.length ≤ n then [] :: skipVec (n - v.length) vec
    else v.drop n :: vec

theorem flatten_skipVec (n : Nat) (vec : List (List α)) :
    (skipVec n vec).flatten = vec.flatten.drop n := by
  induction vec generalizing n with
  | nil => simp [skipVec]
  | cons v vec ih =>
    rw [skipVec]
    split
    · next hzero => simp [hzero]
    · split
      · next hle =>
        rw [List.flatten_cons, ih, List.flatten_cons, List.drop_append, List.drop_eq_nil_of_le hle,
          List.nil_append]
      · next hlt =>
        rw [List.flatten_cons, List.flatten_cons, List.drop_append_of_le_length (by omega)]

/-- The loop of `pfs_frame_send_nonblock`, with the results of its calls of `kernel_sendmsg`, which
never sends more than it is given; `none` if these are not the results of a whole run. -/
def sendLoop (total offset : Nat) : List (List α) → Nat → List SendResult → Option (SendOut α)
  | _, _, [] => none
  | vec, sentTotal, .error err :: results =>
    if err = .eintr then sendLoop total offset vec sentTotal results
    else if results ≠ [] then none
    else some ⟨[], if err = .eagain then sentTotal else offset, .error err⟩
  | vec, sentTotal, .sent n :: results =>
    if total < sentTotal + n then none
    else if n = 0 then
      if results ≠ [] then none else some ⟨[], offset, .error .econnreset⟩
    else if sentTotal + n < total then
      (sendLoop total offset (skipVec n vec) (sentTotal + n) results).map fun out =>
        { out with written := vec.flatten.take n ++ out.written }
    else if results ≠ [] then none
    else some ⟨vec.flatten.take n, 0, .ok ()⟩

/-- `pfs_frame_send_nonblock`. -/
def frameSendNonblock (vec : List (List α)) (offset : Nat) (results : List SendResult) :
    Option (SendOut α) :=
  let total := vec.flatten.length
  if total ≤ offset then
    if results ≠ [] then none else some ⟨[], offset, .ok ()⟩
  else sendLoop total offset (skipVec offset vec) offset results

/-- What calls of `kernel_sendmsg` have sent together. -/
def sentBytes (results : List SendResult) : Nat :=
  (results.map fun | .sent n => n | .error _ => 0).sum

theorem sentBytes_error (err : Errno) (results : List SendResult) :
    sentBytes (.error err :: results) = sentBytes results := by
  simp [sentBytes]

theorem sentBytes_sent (n : Nat) (results : List SendResult) :
    sentBytes (.sent n :: results) = n + sentBytes results := by
  simp [sentBytes]

/-- How a run of the sender that starts with `rest` to send, at `start` of the frame, ends. -/
structure Sends (rest : List α) (start offset : Nat) (results : List SendResult)
    (out : SendOut α) : Prop where
  written : out.written = rest.take (sentBytes results)
  done : out.ret = .ok () → sentBytes results = rest.length ∧ out.offset = 0
  left : ∀ err, out.ret = .error err → sentBytes results < rest.length ∧
    out.offset = if err = .eagain then start + sentBytes results else offset
  nomem : out.ret = .error .enomem ↔ .error .enomem ∈ results

theorem Sends.stop {rest : List α} {start offset : Nat} {result : SendResult} {err : Errno}
    (hrest : 0 < rest.length) (hnone : sentBytes [result] = 0)
    (hnomem : err = .enomem ↔ .error .enomem = result) :
    Sends rest start offset [result] ⟨[], if err = .eagain then start else offset, .error err⟩ := by
  refine ⟨by rw [hnone, List.take_zero], nofun, ?_, by simpa using hnomem⟩
  rintro _ ⟨⟩
  rw [hnone]
  exact ⟨hrest, rfl⟩

variable {results : List SendResult}

theorem Sends.interrupted {rest : List α} {start offset : Nat}
    {out : SendOut α} (h : Sends rest start offset results out) :
    Sends rest start offset (.error .eintr :: results) out := by
  refine ⟨?_, ?_, ?_, by simpa using h.nomem⟩ <;> rw [sentBytes_error]
  · exact h.written
  · exact h.done
  · exact h.left

theorem Sends.more {rest : List α} {start offset n : Nat}
    {out : SendOut α} (hn : n < rest.length)
    (h : Sends (rest.drop n) (start + n) offset results out) :
    Sends rest start offset (.sent n :: results)
      { out with written := rest.take n ++ out.written } := by
  have hlength : (rest.drop n).length = rest.length - n := List.length_drop
  refine ⟨?_, ?_, ?_, by simpa using h.nomem⟩ <;> rw [sentBytes_sent]
  · rw [List.take_add, ← h.written]
  · intro hok
    obtain ⟨hsent, hoffset⟩ := h.done hok
    exact ⟨by omega, hoffset⟩
  · intro err herr
    obtain ⟨hsent, hoffset⟩ := h.left err herr
    refine ⟨by omega, ?_⟩
    rw [← Nat.add_assoc]
    exact hoffset

theorem Sends.all {rest : List α} {start offset n : Nat} (hn : n = rest.length) :
    Sends rest start offset [.sent n] ⟨rest.take n, 0, .ok ()⟩ :=
  ⟨rfl, fun _ => ⟨hn, rfl⟩, nofun, by simp⟩

theorem sendLoop_sends {total offset sentTotal : Nat} {vec : List (List α)}
    {out : SendOut α} (hlen : sentTotal + vec.flatten.length = total)
    (hleft : sentTotal < total)
    (h : sendLoop total offset vec sentTotal results = some out) :
    Sends vec.flatten sentTotal offset results out := by
  have hrest : 0 < vec.flatten.length := by omega
  induction results generalizing vec sentTotal out with
  | nil => cases h
  | cons result results ih =>
    cases result with simp only [sendLoop] at h
    | error err =>
      split at h
      · next heintr =>
        subst heintr
        exact (ih hlen hleft h hrest).interrupted
      · split at h
        · cases h
        · next hend =>
          cases h
          cases not_not.mp hend
          exact .stop hrest rfl (by simp [eq_comm])
    | sent n =>
      split at h <;> try cases h
      next hfits =>
      split at h
      · next hzero =>
        split at h
        · cases h
        · next hend =>
          cases h
          cases not_not.mp hend
          subst hzero
          exact @Sends.stop _ _ sentTotal offset (.sent 0) .econnreset hrest rfl (by simp)
      · next hpos =>
        split at h
        · next hmore =>
          obtain ⟨out', hout', rfl⟩ := Option.map_eq_some_iff.mp h
          have hlength : (skipVec n vec).flatten.length = vec.flatten.length - n := by
            rw [flatten_skipVec, List.length_drop]
          have hsends := ih (by omega) hmore hout' (by omega)
          rw [flatten_skipVec] at hsends
          exact hsends.more (by omega)
        · split at h
          · cases h
          · next hend =>
            cases h
            cases not_not.mp hend
            exact .all (by omega)

/-- `pfs_frame_send_nonblock` continues the frame at `send_offset`. -/
theorem frameSendNonblock_sends {vec : List (List α)} {offset : Nat}
    {out : SendOut α} (hoffset : offset < vec.flatten.length)
    (h : frameSendNonblock vec offset results = some out) :
    Sends (vec.flatten.drop offset) offset offset results out := by
  have hnot : ¬ vec.flatten.length ≤ offset := by omega
  simp only [frameSendNonblock, hnot] at h
  rw [← flatten_skipVec]
  refine sendLoop_sends ?_ hoffset h
  rw [flatten_skipVec, List.length_drop]
  omega

end Send

end PowerFS.Net
