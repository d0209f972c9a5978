import PowerFS.Net.FrameSend
import PowerFS.Net.Tlv

namespace PowerFS.Net

/-! The non-blocking receive path of a connection: `pfs_rx_step` collects a frame over any number
of socket reads, `pfs_process_receive` drives it. -/

/-- `POWERFS_NET_FRAME_HDR_SIZE`. -/
def hdrSize : Nat := 28

/-- `POWERFS_NET_MAX_FRAME`. -/
def maxFrame : Nat := 4 * 1024 * 1024

/-- `POWERFS_NET_MAX_BODY`. -/
def maxBody : Nat := 256 * 1024

/-- `POWERFS_NET_MAX_DATA`. -/
def maxData : Nat := 2 * 1024 * 1024

/-- `struct powerfs_net_frame_hdr` after decoding, without magic, version and checksum. -/
structure FrameHdr where
  flags : UInt8
  seq : Nat
  msgType : Nat
  status : Nat
  dataLen : Nat
  bodyLen : Nat
  routeHash : UInt8
  protocolVer : UInt8
  deriving DecidableEq

/-- The bytes `off` to `off + n` of a buffer. -/
def slice (buf : List UInt8) (off n : Nat) : List UInt8 := (buf.drop off).take n

theorem slice_flatten {members : List (List UInt8)} {member : List UInt8} {off n : Nat} (k : Nat)
    (hk : members[k]? = some member) (hoff : (members.take k).flatten.length = off)
    (hn : member.length = n) : slice members.flatten off n = member := by
  obtain ⟨hlt, hget⟩ := List.getElem?_eq_some_iff.mp hk
  have hsplit : members.flatten =
      (members.take k).flatten ++ (member ++ (members.drop (k + 1)).flatten) := by
    conv_lhs => rw [← List.take_append_drop k members, List.drop_eq_getElem_cons hlt, hget]
    rw [List.flatten_append, List.flatten_cons]
  rw [slice, hsplit, List.drop_left' hoff, List.take_left' hn]

/-- `powerfs_net_frame_hdr_decode`. -/
def hdrDecode (buf : List UInt8) : Option FrameHdr :=
  if buf.length < hdrSize then none
  else if leNat (slice buf 0 4).reverse ≠ 0x5046534E then none
  else if slice buf 4 1 ≠ [0x01] then none
  else if leNat (slice buf 24 4) ≠ (crc32c (slice buf 0 24)).toNat then none
  else some
    { flags := buf.getD 5 0
      seq := leNat (slice buf 6 4)
      msgType := leNat (slice buf 10 2)
      status := leNat (slice buf 12 2)
      dataLen := leNat (slice buf 14 4)
      bodyLen := leNat (slice buf 18 4)
      routeHash := buf.getD 22 0
      protocolVer := buf.getD 23 0 }

/-- The checks of `pfs_rx_step` on a complete header. -/
def checkHdr (buf : List UInt8) : Except Errno FrameHdr :=
  match hdrDecode buf with
  | none => .error .einval
  | some hdr =>
    if hdr.dataLen < hdr.bodyLen then .error .eproto
    else if maxFrame < hdr.dataLen then .error .eproto
    else if maxBody < hdr.bodyLen ∨ maxData < hdr.dataLen - hdr.bodyLen then .error .e2big
    else .ok hdr

/-- What one `kernel_recvmsg` finds: bytes, the end of the stream, or an error (`eagain` if there
is nothing yet). -/
inductive RecvResult where
  | bytes (seg : List UInt8) (nonempty : seg ≠ [])
  | eof
  | failed (err : Errno)

/-- A socket: what its reads will find, and the number of bytes read so far. -/
structure RxSock where
  script : List RecvResult
  taken : Nat

/-- `kernel_recvmsg` of at most `want` bytes with `MSG_DONTWAIT`; a result of 0 bytes is the end
of the stream. What does not fit stays in the socket. -/
def recvmsg (sock : RxSock) (want : Nat) : Except Errno (List UInt8) × RxSock :=
  match sock.script with
  | [] => (.error .eagain, sock)
  | .eof :: rest => (.ok [], { sock with script := rest })
  | .failed err :: rest => (.error err, { sock with script := rest })
  | .bytes seg _ :: rest =>
    (.ok (seg.take want),
      { script := if h : seg.drop want = [] then rest else .bytes (seg.drop want) h :: rest
        taken := sock.taken + (seg.take want).length })

/-- `rx_phase`. -/
inductive RxPhase where
  | header | body | data | complete
  deriving DecidableEq

/-- The receive fields of a connection. Of each buffer the filled part is kept; its length is
`rx_hdr_got`, `rx_body_got`, `rx_data_got`. -/
structure RxConn where
  phase : RxPhase
  hdr : List UInt8
  body : List UInt8
  data : List UInt8
  bodyTotal : Nat
  dataTotal : Nat
  curHdr : FrameHdr
  deriving DecidableEq

/-- `pfs_rx_reset_partial`. -/
def RxConn.reset (conn : RxConn) : RxConn :=
  { conn with phase := .header, hdr := [], body := [], data := [], bodyTotal := 0, dataTotal := 0 }

inductive RxBuf where
  | hdr | body | data
  deriving DecidableEq

/-- The sizes `pfs_conn_alloc_rxbuffers` allocates, and that of the array `rx_hdr_buf`. -/
def RxBuf.capacity : RxBuf → Nat
  | .hdr => hdrSize
  | .body => maxBody
  | .data => maxData

/-- The `kvec` of a read: up to `want` bytes may be written behind the first `off` of a buffer. -/
structure RxVec where
  buf : RxBuf
  off : Nat
  want : Nat
  deriving DecidableEq

/-- A frame as `pfs_rx_dispatch` gets it. -/
structure RxFrame where
  hdr : FrameHdr
  body : List UInt8
  data : List UInt8
  deriving DecidableEq

/-- A frame dispatched, or an error that makes `pfs_process_receive` queue the disconnect, with
the number of bytes read up to it. -/
inductive RxOutcome where
  | frame (f : RxFrame)
  | error (err : Errno) (point : Nat)
  deriving DecidableEq

/-- A connection, its socket, the outcomes so far and the vectors of all reads so far. -/
structure RxState where
  conn : RxConn
  sock : RxSock
  log : List RxOutcome
  vecs : List RxVec

/-- Reads into a buffer whose first bytes are `filled` and that is to hold `total`. -/
def recvInto (st : RxState) (buf : RxBuf) (filled : List UInt8) (total : Nat) :
    Except Errno (List UInt8) × RxState :=
  let want := total - filled.length
  let res := recvmsg st.sock want
  let st := { st with sock := res.2, vecs := st.vecs ++ [⟨buf, filled.length, want⟩] }
  match res.1 with
  | .error err => (.error err, st)
  | .ok [] => (.error .econnreset, st)
  | .ok (b :: got) => (.ok (filled ++ b :: got), st)

/-- Phase 2 of `pfs_rx_step`. -/
def rxData (st : RxState) : Except Errno Unit × RxState :=
  if 0 < st.conn.dataTotal then
    match recvInto st .data st.conn.data st.conn.dataTotal with
    | (.error err, st) => (.error err, st)
    | (.ok data, st) =>
      if data.length < st.conn.dataTotal then
        (.error .eagain, { st with conn := { st.conn with data } })
      else (.ok (), { st with conn := { st.conn with data, phase := .complete } })
  else (.ok (), { st with conn := { st.conn with phase := .complete } })

/-- Phase 1 of `pfs_rx_step`, with the fall through to phase 2. -/
def rxBody (st : RxState) : Except Errno Unit × RxState :=
  if 0 < st.conn.bodyTotal then
    match recvInto st .body st.conn.body st.conn.bodyTotal with
    | (.error err, st) => (.error err, st)
    | (.ok body, st) =>
      if body.length < st.conn.bodyTotal then
        (.error .eagain, { st with conn := { st.conn with body } })
      else rxData { st with conn := { st.conn with body, phase := .data } }
  else rxData { st with conn := { st.conn with phase := .data } }

/-- Phase 0 of `pfs_rx_step`, with the fall through to phase 1. -/
def rxHeader (st : RxState) : Except Errno Unit × RxState :=
  match recvInto st .hdr st.conn.hdr hdrSize with
  | (.error err, st) => (.error err, st)
  | (.ok hdr, st) =>
    if hdr.length < hdrSize then (.error .eagain, { st with conn := { st.conn with hdr } })
    else
      match checkHdr hdr with
      | .error err => (.error err, { st with conn := { st.conn with hdr } })
      | .ok curHdr =>
        rxBody
          { st with
            conn :=
              { st.conn with
                hdr
                curHdr
                bodyTotal := curHdr.bodyLen
                dataTotal := curHdr.dataLen - curHdr.bodyLen
                phase := .body } }

/-- `pfs_rx_step` on a connection with a socket and buffers. -/
def rxStep (st : RxState) : Except Errno Unit × RxState :=
  match st.conn.phase with
  | .header => rxHeader st
  | .body => rxBody st
  | .data => rxData st
  | .complete => (.ok (), st)

/-- `pfs_rx_dispatch` and `pfs_rx_reset_partial`. -/
def RxState.dispatch (st : RxState) : RxState :=
  { st with
    conn := st.conn.reset
    log := st.log ++ [RxOutcome.frame ⟨st.conn.curHdr, st.conn.body, st.conn.data⟩] }

/-- The error path of `pfs_process_receive`. -/
def RxState.fail (st : RxState) (err : Errno) : RxState :=
  { st with conn := st.conn.reset, log := st.log ++ [RxOutcome.error err st.sock.taken] }

/-- `tcp_has_rx_data`: an answer of the environment, which is no if nothing will come. -/
def hasRxData (ready : RxSock → Bool) (sock : RxSock) : Bool :=
  !sock.script.isEmpty && ready sock

/-- `pfs_process_receive`, in at most `fuel` rounds of its loop. -/
def processReceive (ready : RxSock → Bool) : Nat → Nat → RxState → RxState
  | 0, _, st => st
  | fuel + 1, frames, st =>
    match rxStep st with
    | (.ok _, st) =>
      if 64 ≤ frames + 1 then st.dispatch
      else processReceive ready fuel (frames + 1) st.dispatch
    | (.error .eagain, st) =>
      if hasRxData ready st.sock then processReceive ready fuel frames st else st
    | (.error err, st) => st.fail err

/-- A bound on the number of reads that find something. -/
def RxSock.weight (sock : RxSock) : Nat :=
  (sock.script.map fun
    | .bytes seg _ => seg.length
    | .eof | .failed _ => 1).sum

/-- `pfs_process_receive` is called again as long as the socket has something. An error does not
stop this: the socket stays until the disconnect work takes it away, where the script ends. -/
def rxThread (ready : RxSock → Bool) : Nat → RxState → RxState
  | 0, st => st
  | calls + 1, st =>
    if st.sock.script.isEmpty then st
    else rxThread ready calls (processReceive ready (st.sock.weight + 1) 0 st)

/-- A new connection after `pfs_conn_alloc_rxbuffers`. -/
def RxConn.fresh : RxConn :=
  ⟨.header, [], [], [], 0, 0, ⟨0, 0, 0, 0, 0, 0, 0, 0⟩⟩

def receive (ready : RxSock → Bool) (script : List RecvResult) : RxState :=
  rxThread ready (RxSock.weight ⟨script, 0⟩) ⟨.fresh, ⟨script, 0⟩, [], []⟩

/-! ### Parsing a whole stream -/

/-- The bytes a socket will deliver. -/
def streamBytes (script : List RecvResult) : List UInt8 :=
  (script.map fun
    | .bytes seg _ => seg
    | .eof | .failed _ => []).flatten

/-- All frames of a stream whose first byte is the one at `start`, up to the first error. -/
def parseStream (start : Nat) (bytes : List UInt8) : List RxOutcome :=
  if bytes.length < hdrSize then []
  else
    match checkHdr (bytes.take hdrSize) with
    | .error err => [.error err (start + hdrSize)]
    | .ok hdr =>
      if bytes.length < hdrSize + hdr.dataLen then []
      else
        .frame ⟨hdr, slice bytes hdrSize hdr.bodyLen,
            slice bytes (hdrSize + hdr.bodyLen) (hdr.dataLen - hdr.bodyLen)⟩ ::
          parseStream (start + hdrSize + hdr.dataLen) (bytes.drop (hdrSize + hdr.dataLen))
termination_by bytes.length
decreasing_by simp only [List.length_drop, hdrSize] at *; omega

/-- The same, where parsing goes on behind a rejected header. -/
def parseOn (start : Nat) (bytes : List UInt8) : List RxOutcome :=
  if bytes.length < hdrSize then []
  else
    match checkHdr (bytes.take hdrSize) with
    | .error err =>
      .error err (start + hdrSize) :: parseOn (start + hdrSize) (bytes.drop hdrSize)
    | .ok hdr =>
      if bytes.length < hdrSize + hdr.dataLen then []
      else
        .frame ⟨hdr, slice bytes hdrSize hdr.bodyLen,
            slice bytes (hdrSize + hdr.bodyLen) (hdr.dataLen - hdr.bodyLen)⟩ ::
          parseOn (start + hdrSize + hdr.dataLen) (bytes.drop (hdrSize + hdr.dataLen))
termination_by bytes.length
decreasing_by
  all_goals
    simp only [List.length_drop, hdrSize] at *
    omega

def upToError : List RxOutcome → List RxOutcome
  | [] => []
  | .frame f :: log => .frame f :: upToError log
  | .error err point :: _ => [.error err point]

theorem upToError_parseOn (start : Nat) (bytes : List UInt8) :
    upToError (parseOn start bytes) = parseStream start bytes := by
  fun_induction parseOn start bytes with
  | case1 start bytes hshort =>
    rw [parseStream, if_pos hshort]
    rfl
  | case2 start bytes hlong err hhdr _ =>
    rw [parseStream, if_neg hlong, hhdr]
    rfl
  | case3 start bytes hlong hdr hhdr hcut =>
    rw [parseStream, if_neg hlong, hhdr]
    simp only [if_pos hcut, upToError]
  | case4 start bytes hlong hdr hhdr hwhole ih =>
    rw [parseStream, if_neg hlong, hhdr]
    simp only [if_neg hwhole, upToError, ih]

theorem parseOn_short {start : Nat} {bytes : List UInt8} (hshort : bytes.length < hdrSize) :
    parseOn start bytes = [] := by
  rw [parseOn, if_pos hshort]

variable {hdr rest : List UInt8}

theorem parseOn_rejected {start : Nat} {err : Errno}
    (hlen : hdr.length = hdrSize) (herr : checkHdr hdr = .error err) :
    parseOn start (hdr ++ rest) =
      .error err (start + hdrSize) :: parseOn (start + hdrSize) rest := by
  rw [parseOn, if_neg (by simp [hlen]), List.take_left' hlen, herr, List.drop_left' hlen]

variable {h : FrameHdr}

theorem parseOn_cut {start : Nat}
    (hlen : hdr.length = hdrSize) (hok : checkHdr hdr = .ok h) (hcut : rest.length < h.dataLen) :
    parseOn start (hdr ++ rest) = [] := by
  rw [parseOn, if_neg (by simp [hlen]), List.take_left' hlen, hok]
  exact if_pos (by simp [hlen, hcut])

theorem parseOn_frame {start : Nat} {body data : List UInt8}
    (hlen : hdr.length = hdrSize) (hok : checkHdr hdr = .ok h) (hle : h.bodyLen ≤ h.dataLen)
    (hbody : body.length = h.bodyLen) (hdata : data.length = h.dataLen - h.bodyLen) :
    parseOn start (hdr ++ (body ++ (data ++ rest))) =
      .frame ⟨h, body, data⟩ :: parseOn (start + hdrSize + h.dataLen) rest := by
  have hsum : h.bodyLen + (h.dataLen - h.bodyLen) = h.dataLen := by omega
  have hdrop : (hdr ++ (body ++ (data ++ rest))).drop (hdrSize + h.dataLen) = rest := by
    rw [← hsum, ← List.drop_drop, ← List.drop_drop, List.drop_left' hlen, List.drop_left' hbody,
      List.drop_left' hdata]
  have hslice : slice (hdr ++ (body ++ (data ++ rest))) hdrSize h.bodyLen = body := by
    rw [slice, List.drop_left' hlen, List.take_left' hbody]
  have hslice' : slice (hdr ++ (body ++ (data ++ rest))) (hdrSize + h.bodyLen)
      (h.dataLen - h.bodyLen) = data := by
    rw [slice, ← List.drop_drop, List.drop_left' hlen, List.drop_left' hbody,
      List.take_left' hdata]
  rw [parseOn, if_neg (by simp [hlen]), List.take_left' hlen, hok]
  simp only [hdrop, hslice, hslice']
  exact if_neg (by simp [hlen]; omega)

theorem checkHdr_eq_ok {buf : List UInt8} (hok : checkHdr buf = .ok h) :
    h.bodyLen ≤ h.dataLen ∧ h.bodyLen ≤ maxBody ∧ h.dataLen - h.bodyLen ≤ maxData := by
  rw [checkHdr] at hok
  split at hok
  · cases hok
  · split_ifs at hok
    cases hok
    omega

theorem checkHdr_ne_eagain (buf : List UInt8) : checkHdr buf ≠ .error .eagain := by
  rw [checkHdr]
  split
  · simp
  · split_ifs <;> simp

/-! ### Reads -/

/-- The socket gives bytes or has nothing yet. -/
def RecvResult.delivers : RecvResult → Bool
  | .bytes _ _ => true
  | .eof => false
  | .failed err => err == .eagain

/-- A read that took the bytes `got`. -/
structure Advance (sock : RxSock) (got : List UInt8) (sock' : RxSock) : Prop where
  delivers : ∀ r ∈ sock'.script, r.delivers = true
  bytes : streamBytes sock.script = got ++ streamBytes sock'.script
  taken : sock'.taken = sock.taken + got.length
  weight : sock'.weight < sock.weight ∨ sock.weight = 0 ∧ sock'.weight = 0

theorem RxSock.weight_eq_zero {sock : RxSock} : sock.weight = 0 ↔ sock.script = [] := by
  rw [RxSock.weight]
  cases sock.script with
  | nil => simp
  | cons r rest =>
    cases r with
    | bytes seg hne => simp [hne]
    | eof => simp
    | failed err => simp

theorem advance_bytes {seg : List UInt8} (hne : seg ≠ []) {rest : List RecvResult}
    (hrest : ∀ r ∈ rest, r.delivers = true) (taken : Nat) {want : Nat} (hwant : 0 < want) :
    Advance ⟨.bytes seg hne :: rest, taken⟩ (seg.take want)
      (recvmsg ⟨.bytes seg hne :: rest, taken⟩ want).2 := by
  have hsplit : seg = seg.take want ++ seg.drop want := (List.take_append_drop want seg).symm
  have hlen : 0 < seg.length := List.length_pos_iff.mpr hne
  refine ⟨?_, ?_, rfl, .inl ?_⟩
  all_goals simp only [recvmsg]
  · split
    · exact hrest
    · intro r hr
      obtain rfl | hr := List.mem_cons.mp hr
      · rfl
      · exact hrest r hr
  · split
    case isTrue hnil =>
      rw [hnil, List.append_nil] at hsplit
      simp [streamBytes, ← hsplit]
    case isFalse =>
      simp only [streamBytes, List.map_cons, List.flatten_cons]
      rw [← List.append_assoc, ← hsplit]
  · rw [RxSock.weight, RxSock.weight]
    split
    · simp only [List.map_cons, List.sum_cons]
      omega
    · simp only [List.map_cons, List.sum_cons, List.length_drop]
      omega

variable {total : Nat}

theorem recvInto_cases {st : RxState} (hdel : ∀ r ∈ st.sock.script, r.delivers = true)
    (buf : RxBuf) {filled : List UInt8} (hroom : filled.length < total) :
    ∃ got sock', Advance st.sock got sock' ∧ (filled ++ got).length ≤ total ∧
      recvInto st buf filled total =
        (if got = [] then .error .eagain else .ok (filled ++ got),
          { st with
            sock := sock'
            vecs := st.vecs ++ [⟨buf, filled.length, total - filled.length⟩] }) := by
  obtain ⟨conn, ⟨script, taken⟩, log, vecs⟩ := st
  have hfull : filled.length ≤ total := by omega
  cases script with
  | nil => exact ⟨[], ⟨[], taken⟩, ⟨hdel, rfl, rfl, .inr ⟨rfl, rfl⟩⟩, by simpa using hfull, rfl⟩
  | cons r rest =>
    have hrest : ∀ r ∈ rest, r.delivers = true := fun r hr => hdel r (List.mem_cons_of_mem _ hr)
    cases r with
    | eof => exact absurd (hdel _ List.mem_cons_self) (by simp [RecvResult.delivers])
    | failed err =>
      obtain rfl : err = .eagain := by
        simpa [RecvResult.delivers] using hdel _ List.mem_cons_self
      refine ⟨[], ⟨rest, taken⟩, ⟨hrest, ?_, rfl, .inl ?_⟩, by simpa using hfull, rfl⟩
      · simp [streamBytes]
      · simp [RxSock.weight]
    | bytes seg hne =>
      have hlen : 0 < seg.length := List.length_pos_iff.mpr hne
      have hadvance := advance_bytes hne hrest taken (Nat.sub_pos_of_lt hroom)
      obtain ⟨b, got, hgot⟩ : ∃ b got, seg.take (total - filled.length) = b :: got :=
        List.exists_cons_of_length_pos (by rw [List.length_take]; omega)
      have hle : (b :: got).length ≤ total - filled.length := by
        rw [← hgot]
        exact List.length_take_le ..
      rw [hgot] at hadvance
      refine ⟨b :: got, _, hadvance, by rw [List.length_append]; omega, ?_⟩
      simp only [recvmsg, recvInto, hgot]
      rfl

/-! ### Steps -/

/-- The bytes of the frame being received. -/
def RxConn.pending (conn : RxConn) : List UInt8 := conn.hdr ++ (conn.body ++ conn.data)

/-- The header is complete and was accepted. -/
structure RxConn.HdrRead (conn : RxConn) : Prop where
  length : conn.hdr.length = hdrSize
  checked : checkHdr conn.hdr = .ok conn.curHdr
  body : conn.bodyTotal = conn.curHdr.bodyLen
  data : conn.dataTotal = conn.curHdr.dataLen - conn.curHdr.bodyLen

/-- A connection between two steps: some part of a frame is not complete. -/
def RxConn.Waits (conn : RxConn) : Prop :=
  match conn.phase with
  | .header => conn.hdr.length < hdrSize ∧ conn.body = [] ∧ conn.data = []
  | .body => conn.HdrRead ∧ conn.body.length < conn.bodyTotal ∧ conn.data = []
  | .data =>
    conn.HdrRead ∧ conn.body.length = conn.bodyTotal ∧ conn.data.length < conn.dataTotal
  | .complete => False

/-- The outcomes so far, with those that parsing finds from the first byte of the current frame
on, are `all`; and every read so far was within its buffer. -/
structure OnTrack (all : List RxOutcome) (start : Nat) (st : RxState) : Prop where
  delivers : ∀ r ∈ st.sock.script, r.delivers = true
  bounds : ∀ v ∈ st.vecs, v.off + v.want ≤ v.buf.capacity
  taken : st.sock.taken = start + st.conn.pending.length
  result : all = st.log ++ parseOn start (st.conn.pending ++ streamBytes st.sock.script)

def RxInv (all : List RxOutcome) (st : RxState) : Prop :=
  st.conn.Waits ∧ ∃ start, OnTrack all start st

variable {all : List RxOutcome} {start : Nat} {st : RxState}

theorem RxConn.waits_reset (conn : RxConn) : conn.reset.Waits := ⟨Nat.succ_pos 27, rfl, rfl⟩

theorem OnTrack.withConn (h : OnTrack all start st) (conn : RxConn)
    (hconn : conn.pending = st.conn.pending) : OnTrack all start { st with conn } := by
  refine ⟨h.delivers, h.bounds, ?_, ?_⟩
  · rw [h.taken, hconn]
  · rw [h.result, hconn]

/-- A read into the part of the frame that is being received; `put` stores that part. -/
theorem OnTrack.recv (h : OnTrack all start st) {buf : RxBuf} {filled : List UInt8}
    (put : List UInt8 → RxConn)
    (hput : ∀ got, (put (filled ++ got)).pending = st.conn.pending ++ got)
    (hroom : filled.length < total) (hcap : total ≤ buf.capacity) :
    ∃ sock vecs, (sock.weight < st.sock.weight ∨ st.sock.weight = 0 ∧ sock.weight = 0) ∧
      ((recvInto st buf filled total = (.error .eagain, { st with sock, vecs }) ∧
          OnTrack all start { st with sock, vecs }) ∨
        ∃ part, recvInto st buf filled total = (.ok part, { st with sock, vecs }) ∧
          part.length ≤ total ∧ OnTrack all start { st with conn := put part, sock, vecs }) := by
  obtain ⟨got, sock, hadv, hle, hrecv⟩ := recvInto_cases h.delivers buf hroom
  have hbounds : ∀ v ∈ st.vecs ++ [RxVec.mk buf filled.length (total - filled.length)],
      v.off + v.want ≤ v.buf.capacity := by
    intro v hv
    obtain hv | hv := List.mem_append.mp hv
    · exact h.bounds v hv
    · cases List.mem_singleton.mp hv
      show filled.length + (total - filled.length) ≤ buf.capacity
      omega
  refine ⟨sock, st.vecs ++ [RxVec.mk buf filled.length (total - filled.length)], hadv.weight, ?_⟩
  by_cases hgot : got = []
  · subst hgot
    refine .inl ⟨hrecv, hadv.delivers, hbounds, ?_, ?_⟩
    · rw [hadv.taken, h.taken]
      rfl
    · rw [h.result, hadv.bytes]
      rfl
  · rw [if_neg hgot] at hrecv
    refine .inr ⟨filled ++ got, hrecv, hle, hadv.delivers, hbounds, ?_, ?_⟩
    · rw [hadv.taken, h.taken, hput, List.length_append]
      omega
    · rw [h.result, hadv.bytes, hput, List.append_assoc]

theorem OnTrack.dispatch (h : OnTrack all start st) (hhdr : st.conn.HdrRead)
    (hbody : st.conn.body.length = st.conn.bodyTotal)
    (hdata : st.conn.data.length = st.conn.dataTotal) : RxInv all st.dispatch := by
  obtain ⟨hle, -, -⟩ := checkHdr_eq_ok hhdr.checked
  rw [hhdr.body] at hbody
  rw [hhdr.data] at hdata
  refine ⟨st.conn.waits_reset, start + hdrSize + st.conn.curHdr.dataLen, h.delivers, h.bounds,
    ?_, ?_⟩
  · rw [RxState.dispatch, h.taken]
    simp only [RxConn.pending, List.length_append, hhdr.length, RxConn.reset, List.length_nil]
    omega
  · rw [h.result, RxConn.pending, List.append_assoc, List.append_assoc,
      parseOn_frame hhdr.length hhdr.checked hle hbody hdata]
    simp [RxState.dispatch, RxConn.pending, RxConn.reset]

theorem OnTrack.fail (h : OnTrack all start st) (hlen : st.conn.hdr.length = hdrSize)
    (hbody : st.conn.body = []) (hdata : st.conn.data = []) {err : Errno}
    (herr : checkHdr st.conn.hdr = .error err) : RxInv all (st.fail err) := by
  have hpending : st.conn.pending = st.conn.hdr := by simp [RxConn.pending, hbody, hdata]
  have htaken : st.sock.taken = start + hdrSize := by rw [h.taken, hpending, hlen]
  refine ⟨st.conn.waits_reset, start + hdrSize, h.delivers, h.bounds, htaken, ?_⟩
  rw [h.result, hpending, parseOn_rejected hlen herr, ← htaken]
  simp [RxState.fail, RxConn.pending, RxConn.reset]

theorem RxInv.log_eq (h : RxInv all st) (hempty : st.sock.script = []) : st.log = all := by
  obtain ⟨hwaits, start, htrack⟩ := h
  rw [htrack.result, hempty]
  have hnone : parseOn start st.conn.pending = [] := by
    rw [RxConn.Waits] at hwaits
    split at hwaits
    · obtain ⟨hshort, hbody, hdata⟩ := hwaits
      exact parseOn_short (by simpa [RxConn.pending, hbody, hdata] using hshort)
    · obtain ⟨hhdr, hshort, hdata⟩ := hwaits
      have hlens := checkHdr_eq_ok hhdr.checked
      rw [hhdr.body] at hshort
      exact parseOn_cut hhdr.length hhdr.checked (by simp [hdata]; omega)
    · obtain ⟨hhdr, hbody, hshort⟩ := hwaits
      have hlens := checkHdr_eq_ok hhdr.checked
      rw [hhdr.data] at hshort
      rw [hhdr.body] at hbody
      exact parseOn_cut hhdr.length hhdr.checked (by simp [hbody]; omega)
    · exact hwaits.elim
  simp [streamBytes, hnone]

/-- What `pfs_process_receive` does with the result of a step. -/
def settle : Except Errno Unit × RxState → RxState
  | (.ok _, st) => st.dispatch
  | (.error .eagain, st) => st
  | (.error err, st) => st.fail err

/-- The step ends in a state between two steps and has read something, if there was anything. -/
structure Goes (all : List RxOutcome) (weight : Nat) (res : Except Errno Unit × RxState) :
    Prop where
  inv : RxInv all (settle res)
  weight : res.2.sock.weight < weight ∨ weight = 0 ∧ res.2.sock.weight = 0

/-- A part of the frame is not complete, or it has no bytes. -/
def PartOpen (part : List UInt8) (total : Nat) : Prop := part.length < total ∨ part = [] ∧ total = 0

theorem PartOpen.begins (total : Nat) : PartOpen [] total := by
  obtain hzero | hpos := Nat.eq_zero_or_pos total
  · exact .inr ⟨rfl, hzero⟩
  · exact .inl hpos

theorem PartOpen.room {part : List UInt8} (h : PartOpen part total)
    (hsome : 0 < total) : part.length < total :=
  h.resolve_right fun hnone => absurd hnone.2 (Nat.ne_of_gt hsome)

theorem PartOpen.full {part : List UInt8} (h : PartOpen part total)
    (hnone : ¬ 0 < total) : part.length = total := by
  obtain hshort | ⟨rfl, rfl⟩ := h
  · exact absurd (Nat.zero_lt_of_lt hshort) hnone
  · rfl

theorem rxData_goes (h : OnTrack all start st) {weight : Nat} (hphase : st.conn.phase = .data)
    (hhdr : st.conn.HdrRead) (hbody : st.conn.body.length = st.conn.bodyTotal)
    (hdata : PartOpen st.conn.data st.conn.dataTotal)
    (hweight : st.sock.weight < weight ∨ weight = 0 ∧ st.sock.weight = 0 ∨
      st.sock.weight = weight ∧ 0 < st.conn.dataTotal) : Goes all weight (rxData st) := by
  have hlens := checkHdr_eq_ok hhdr.checked
  have htotal := hhdr.data
  rw [rxData]
  split
  case isFalse hnone =>
    refine ⟨?_, by simp only; omega⟩
    exact OnTrack.dispatch (h.withConn { st.conn with phase := .complete } rfl)
      ⟨hhdr.length, hhdr.checked, hhdr.body, hhdr.data⟩ hbody (hdata.full hnone)
  case isTrue hsome =>
    have hroom := hdata.room hsome
    have hcap : st.conn.dataTotal ≤ RxBuf.data.capacity := by
      show st.conn.dataTotal ≤ maxData
      omega
    obtain ⟨sock, vecs, hless, ⟨hrecv, htrack⟩ | ⟨data, hrecv, hle, htrack⟩⟩ :=
      h.recv (fun data => { st.conn with data }) (fun got => by simp [RxConn.pending]) hroom hcap
    · rw [hrecv]
      refine ⟨⟨?_, start, htrack⟩, by simp only; omega⟩
      show st.conn.Waits
      rw [RxConn.Waits, hphase]
      exact ⟨hhdr, hbody, hroom⟩
    · rw [hrecv]
      simp only
      split
      case isTrue hshort =>
        refine ⟨⟨?_, start, htrack⟩, by simp only; omega⟩
        simp only [hphase]
        exact ⟨⟨hhdr.length, hhdr.checked, hhdr.body, hhdr.data⟩, hbody, hshort⟩
      case isFalse hfull =>
        refine ⟨?_, by simp only; omega⟩
        exact OnTrack.dispatch (htrack.withConn { st.conn with data, phase := .complete } rfl)
          ⟨hhdr.length, hhdr.checked, hhdr.body, hhdr.data⟩ hbody (by simp only; omega)

theorem rxBody_goes (h : OnTrack all start st) {weight : Nat} (hphase : st.conn.phase = .body)
    (hhdr : st.conn.HdrRead)
    (hbody : PartOpen st.conn.body st.conn.bodyTotal)
    (hdata : st.conn.data = [])
    (hweight : st.sock.weight < weight ∨ weight = 0 ∧ st.sock.weight = 0 ∨
      st.sock.weight = weight ∧ 0 < st.conn.bodyTotal) : Goes all weight (rxBody st) := by
  have hlens := checkHdr_eq_ok hhdr.checked
  have htotal := hhdr.body
  rw [rxBody]
  split
  case isFalse hnone =>
    refine rxData_goes (h.withConn { st.conn with phase := .data } rfl) rfl
      ⟨hhdr.length, hhdr.checked, hhdr.body, hhdr.data⟩ (hbody.full hnone) ?_ ?_
    · rw [hdata]
      exact .begins _
    · simp only
      omega
  case isTrue hsome =>
    have hroom := hbody.room hsome
    have hcap : st.conn.bodyTotal ≤ RxBuf.body.capacity := by
      show st.conn.bodyTotal ≤ maxBody
      omega
    obtain ⟨sock, vecs, hless, ⟨hrecv, htrack⟩ | ⟨body, hrecv, hle, htrack⟩⟩ :=
      h.recv (fun body => { st.conn with body }) (fun got => by simp [RxConn.pending, hdata])
        hroom hcap
    · rw [hrecv]
      refine ⟨⟨?_, start, htrack⟩, by simp only; omega⟩
      show st.conn.Waits
      rw [RxConn.Waits, hphase]
      exact ⟨hhdr, hroom, hdata⟩
    · rw [hrecv]
      simp only
      split
      case isTrue hshort =>
        refine ⟨⟨?_, start, htrack⟩, by simp only; omega⟩
        simp only [hphase]
        exact ⟨⟨hhdr.length, hhdr.checked, hhdr.body, hhdr.data⟩, hshort, hdata⟩
      case isFalse hfull =>
        refine rxData_goes (htrack.withConn { st.conn with body, phase := .data } rfl) rfl
          ⟨hhdr.length, hhdr.checked, hhdr.body, hhdr.data⟩ ?_ ?_ ?_
        · simp only
          omega
        · rw [hdata]
          exact .begins _
        · simp only
          omega

theorem rxHeader_goes (h : OnTrack all start st) (hphase : st.conn.phase = .header)
    (hroom : st.conn.hdr.length < hdrSize) (hbody : st.conn.body = []) (hdata : st.conn.data = []) :
    Goes all st.sock.weight (rxHeader st) := by
  obtain ⟨sock, vecs, hless, ⟨hrecv, htrack⟩ | ⟨hdr, hrecv, hle, htrack⟩⟩ :=
    h.recv (fun hdr => { st.conn with hdr }) (fun got => by simp [RxConn.pending, hbody, hdata])
      hroom (Nat.le_refl RxBuf.hdr.capacity)
  · rw [rxHeader, hrecv]
    refine ⟨⟨?_, start, htrack⟩, hless⟩
    show st.conn.Waits
    rw [RxConn.Waits, hphase]
    exact ⟨hroom, hbody, hdata⟩
  · rw [rxHeader, hrecv]
    simp only
    split
    case isTrue hshort =>
      refine ⟨⟨?_, start, htrack⟩, hless⟩
      simp only [hphase]
      exact ⟨hshort, hbody, hdata⟩
    case isFalse hfull =>
      have hlen : hdr.length = hdrSize := by
        have : hdr.length ≤ hdrSize := hle
        omega
      split
      case h_1 err herr =>
        have hne : err ≠ .eagain := by
          rintro rfl
          exact checkHdr_ne_eagain hdr herr
        have hinv := htrack.fail hlen hbody hdata herr
        refine ⟨?_, hless⟩
        cases err <;> first | exact absurd rfl hne | exact hinv
      case h_2 curHdr hok =>
        have hlens := checkHdr_eq_ok hok
        refine rxBody_goes (htrack.withConn _ ?_) rfl ⟨hlen, hok, rfl, rfl⟩ ?_ ?_ ?_
        · rfl
        · rw [hbody]
          exact .begins _
        · exact hdata
        · simp only
          omega

theorem RxInv.step (h : RxInv all st) : Goes all st.sock.weight (rxStep st) := by
  obtain ⟨hwaits, start, htrack⟩ := h
  rw [RxConn.Waits] at hwaits
  rw [rxStep]
  split at hwaits
  case h_1 hphase =>
    exact rxHeader_goes htrack hphase hwaits.1 hwaits.2.1 hwaits.2.2
  case h_2 hphase =>
    obtain ⟨hhdr, hbody, hdata⟩ := hwaits
    exact rxBody_goes htrack hphase hhdr (.inl hbody) hdata (by omega)
  case h_3 hphase =>
    obtain ⟨hhdr, hbody, hdata⟩ := hwaits
    exact rxData_goes htrack hphase hhdr hbody (.inl hdata) (by omega)
  case h_4 => exact hwaits.elim

/-! ### Runs -/

theorem processReceive_goes (ready : RxSock → Bool) (fuel frames : Nat) (h : RxInv all st) :
    RxInv all (processReceive ready fuel frames st) ∧
      (processReceive ready fuel frames st).sock.weight ≤ st.sock.weight ∧
      (0 < fuel → 0 < st.sock.weight →
        (processReceive ready fuel frames st).sock.weight < st.sock.weight) := by
  induction fuel generalizing frames st with
  | zero => exact ⟨h, Nat.le_refl _, fun h => absurd h (Nat.lt_irrefl 0)⟩
  | succ fuel ih =>
    have hstep := h.step
    rw [processReceive]
    generalize rxStep st = res at hstep ⊢
    obtain ⟨ret, st'⟩ := res
    obtain ⟨hinv, hweight⟩ := hstep
    cases ret with
    | ok u =>
      obtain ⟨hinv', hle, -⟩ := ih (frames + 1) hinv
      have hsame : st'.dispatch.sock.weight = st'.sock.weight := rfl
      simp only [settle] at hinv hle hweight ⊢
      split
      · exact ⟨hinv, by omega, by omega⟩
      · exact ⟨hinv', by omega, by omega⟩
    | error err =>
      have hsame : (st'.fail err).sock.weight = st'.sock.weight := rfl
      cases err with
      | eagain =>
        obtain ⟨hinv', hle, -⟩ := ih frames hinv
        simp only [settle] at hinv hle hweight ⊢
        split
        · exact ⟨hinv', by omega, by omega⟩
        · exact ⟨hinv, by omega, by omega⟩
      | _ =>
        simp only at hweight ⊢
        exact ⟨hinv, by omega, by omega⟩

theorem RxInv.step_idle (h : RxInv all st) (hempty : st.sock.script = []) :
    (rxStep st).1 = .error .eagain ∧ (rxStep st).2.sock = st.sock := by
  obtain ⟨hwaits, -, -⟩ := h
  have hrecv (buf : RxBuf) (filled : List UInt8) (total : Nat) :
      recvInto st buf filled total =
        (.error .eagain,
          { st with vecs := st.vecs ++ [⟨buf, filled.length, total - filled.length⟩] }) := by
    simp only [recvInto, recvmsg, hempty]
  rw [RxConn.Waits] at hwaits
  rw [rxStep]
  split at hwaits
  · simp only [rxHeader, hrecv, and_self]
  · simp only [rxBody, hrecv, if_pos (Nat.zero_lt_of_lt hwaits.2.1), and_self]
  · simp only [rxData, hrecv, if_pos (Nat.zero_lt_of_lt hwaits.2.2), and_self]
  · exact hwaits.elim

/-- More rounds than there is to read change nothing. -/
theorem processReceive_enough (ready : RxSock → Bool) {fuel : Nat} (frames : Nat)
    (h : RxInv all st) (hfuel : st.sock.weight < fuel) :
    processReceive ready (fuel + 1) frames st = processReceive ready fuel frames st := by
  induction fuel generalizing frames st with
  | zero => exact absurd hfuel (Nat.not_lt_zero _)
  | succ fuel ih =>
    have hstep := h.step
    rw [processReceive, processReceive]
    by_cases hempty : st.sock.script = []
    · -- The call ends, as the socket has nothing for it.
      obtain ⟨hret, hsock⟩ := h.step_idle hempty
      generalize rxStep st = res at hret hsock ⊢
      obtain ⟨ret, st'⟩ := res
      subst hret
      have hidle : hasRxData ready st'.sock = false := by
        rw [show st'.sock = st.sock from hsock, hasRxData, hempty]
        rfl
      simp only [hidle, Bool.false_eq_true, if_false]
    · have hpos : st.sock.weight ≠ 0 := fun h => hempty (RxSock.weight_eq_zero.mp h)
      generalize rxStep st = res at hstep ⊢
      obtain ⟨ret, st'⟩ := res
      obtain ⟨hinv, hweight⟩ := hstep
      simp only at hweight
      cases ret with
      | ok u =>
        have hrec : processReceive ready (fuel + 1) (frames + 1) st'.dispatch =
            processReceive ready fuel (frames + 1) st'.dispatch :=
          ih (frames + 1) hinv (show st'.sock.weight < fuel by omega)
        simp only [hrec]
      | error err =>
        cases err with
        | eagain =>
          have hrec : processReceive ready (fuel + 1) frames st' =
              processReceive ready fuel frames st' :=
            ih frames hinv (show st'.sock.weight < fuel by omega)
          simp only [hrec]
        | _ => rfl

theorem processReceive_enough_byte :
    let p n := processReceive (fun _ => true) n 0 ⟨.fresh, ⟨[.bytes [1] nofun], 0⟩, [], []⟩
    p 3 = p 2 :=
  processReceive_enough _ 0 ⟨RxConn.waits_reset .fresh, 0, by decide, nofun, rfl, rfl⟩ (by decide)

theorem rxThread_goes (ready : RxSock → Bool) (calls : Nat) (h : RxInv all st)
    (hcalls : st.sock.weight ≤ calls) :
    RxInv all (rxThread ready calls st) ∧ (rxThread ready calls st).sock.script = [] := by
  induction calls generalizing st with
  | zero => exact ⟨h, RxSock.weight_eq_zero.mp (by rw [rxThread]; omega)⟩
  | succ calls ih =>
    rw [rxThread]
    split
    case isTrue hempty => exact ⟨h, List.isEmpty_iff.mp hempty⟩
    case isFalse hsome =>
      obtain ⟨hinv, -, hless⟩ := processReceive_goes ready (st.sock.weight + 1) 0 h
      have hpos : st.sock.weight ≠ 0 := fun h => hsome (by simp [RxSock.weight_eq_zero.mp h])
      have := hless (by omega) (by omega)
      exact ih hinv (by omega)

/-- However the socket cuts up a stream, the frames dispatched and the first protocol error are
those of parsing the stream in one go, also behind a rejected header, and no read writes behind its
buffer. -/
theorem receive_eq_parseStream (ready : RxSock → Bool) (script : List RecvResult)
    (hdel : ∀ r ∈ script, r.delivers = true) :
    upToError (receive ready script).log = parseStream 0 (streamBytes script) ∧
      (receive ready script).log = parseOn 0 (streamBytes script) ∧
      (receive ready script).sock.script = [] ∧
      ∀ v ∈ (receive ready script).vecs, v.off + v.want ≤ v.buf.capacity := by
  have hstart : RxInv (parseOn 0 (streamBytes script)) ⟨.fresh, ⟨script, 0⟩, [], []⟩ := by
    refine ⟨RxConn.waits_reset .fresh, 0, hdel, ?_, rfl, rfl⟩
    intro v hv
    exact absurd hv List.not_mem_nil
  obtain ⟨hinv, hempty⟩ := rxThread_goes ready (RxSock.weight ⟨script, 0⟩) hstart (Nat.le_refl _)
  have hlog : (receive ready script).log = parseOn 0 (streamBytes script) := hinv.log_eq hempty
  obtain ⟨-, start, htrack⟩ := hinv
  refine ⟨?_, hlog, hempty, htrack.bounds⟩
  rw [hlog]
  exact upToError_parseOn 0 (streamBytes script)

/-- The bytes come at once; if there are none, the read would block. -/
def RecvResult.ofBytes : List UInt8 → RecvResult
  | [] => .failed .eagain
  | b :: seg => .bytes (b :: seg) (List.cons_ne_nil b seg)

/-- A frame in two pieces, with 28 bytes behind it that are no header. -/
def splitScript : List RecvResult :=
  let frame := Frame.bytes ⟨7, 5, 0, [1, 2, 3], [9]⟩
  [.ofBytes (frame.take 10), .failed .eagain, .ofBytes (frame.drop 10 ++ List.replicate 28 0)]

theorem receive_eq_parseStream_split :
    (receive (fun _ => true) splitScript).log =
        [.frame ⟨⟨1, 5, 7, 0, 4, 3, 0, 1⟩, [1, 2, 3], [9]⟩, .error .einval 60] ∧
      upToError (receive (fun _ => true) splitScript).log =
        parseStream 0 (streamBytes splitScript) :=
  ⟨by decide +kernel, (receive_eq_parseStream _ splitScript (by decide +kernel)).1⟩

end PowerFS.Net
