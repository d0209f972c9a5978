import PowerFS.Net.Receive

namespace PowerFS.Net

/-! The blocking receiver `powerfs_net_frame_recv`, and which frames it and `pfs_rx_step` accept on
the same stream. -/

/-- `kernel_recvmsg` with `MSG_WAITALL`, of which `copied` is done. At the end of the stream, at an
error and at the timeout it returns what it has; the error is for the read that finds nothing else.
-/
def recvWaitAll (copied : List UInt8) (want : Nat) :
    List RecvResult → Except Errno (List UInt8) × List RecvResult
  | [] => (if want = 0 ∨ copied ≠ [] then .ok copied else .error .eagain, [])
  | r :: rest =>
    if want = 0 then (.ok copied, r :: rest)
    else
      match r with
      | .eof => (.ok copied, r :: rest)
      | .failed err =>
        if err = .eagain then recvWaitAll copied want rest
        else if copied = [] then (.error err, rest)
        else (.ok copied, r :: rest)
      | .bytes seg _ =>
        if h : seg.drop want = [] then recvWaitAll (copied ++ seg) (want - seg.length) rest
        else (.ok (copied ++ seg.take want), .bytes (seg.drop want) h :: rest)

/-- `body_sz` of `powerfs_net_frame_recv`. -/
def FrameHdr.bodySz (hdr : FrameHdr) : Nat :=
  if hdr.dataLen < hdr.bodyLen then hdr.dataLen else hdr.bodyLen

/-- `data_sz` of `powerfs_net_frame_recv`. -/
def FrameHdr.dataSz (hdr : FrameHdr) : Nat := hdr.dataLen - hdr.bodySz

def recvSection (size : Nat) (script : List RecvResult) :
    Except Errno (List UInt8) × List RecvResult :=
  if 0 < size then recvWaitAll [] size script else (.ok [], script)

def recvSections (hdr : FrameHdr) (script : List RecvResult) :
    Except Errno RxFrame × List RecvResult :=
  match recvSection hdr.bodySz script with
  | (.error err, rest) => (.error err, rest)
  | (.ok body, rest) =>
    match recvSection hdr.dataSz rest with
    | (.error err, rest) => (.error err, rest)
    | (.ok data, rest) => (.ok ⟨hdr, body, data⟩, rest)

/-- `powerfs_net_frame_recv` on a socket. -/
def frameRecv (bodyCap dataCap : Nat) (script : List RecvResult) :
    Except Errno RxFrame × List RecvResult :=
  match recvWaitAll [] hdrSize script with
  | (.error err, rest) => (.error err, rest)
  | (.ok hdrBuf, rest) =>
    if hdrBuf.length < hdrSize then (.error .econnreset, rest)
    else
      match hdrDecode hdrBuf with
      | none => (.error .einval, rest)
      | some hdr =>
        if bodyCap < hdr.bodySz then (.error .e2big, rest)
        else if dataCap < hdr.dataSz then (.error .e2big, rest)
        else recvSections hdr rest

/-- The frames `powerfs_net_frame_recv` returns, in at most `calls` calls, until one fails. -/
def frameRecvs (bodyCap dataCap : Nat) : Nat → List RecvResult → List RxFrame
  | 0, _ => []
  | calls + 1, script =>
    match frameRecv bodyCap dataCap script with
    | (.error _, _) => []
    | (.ok f, rest) => f :: frameRecvs bodyCap dataCap calls rest

/-- The frames `pfs_rx_step` completes, in at most `rounds` calls, until one fails; while it waits
it is called again. -/
def rxFrames : Nat → RxState → List RxFrame
  | 0, _ => []
  | rounds + 1, st =>
    match rxStep st with
    | (.ok _, st) => ⟨st.conn.curHdr, st.conn.body, st.conn.data⟩ :: rxFrames rounds st.dispatch
    | (.error .eagain, st) => rxFrames rounds st
    | (.error _, _) => []

/-! ### What the peer sent -/

/-- The bytes up to the end of the stream or the first error. -/
def heard : List RecvResult → List UInt8
  | [] => []
  | .eof :: _ => []
  | .failed err :: rest => if err = .eagain then heard rest else []
  | .bytes seg _ :: rest => seg ++ heard rest

/-- What comes behind them: nothing if the peer closed, else an error. -/
def ending : List RecvResult → Option Errno
  | [] => some .eagain
  | .eof :: _ => none
  | .failed err :: rest => if err = .eagain then ending rest else some err
  | .bytes _ _ :: rest => ending rest

/-- The frame of a header is within the limits of `pfs_rx_step`, and `avail` bytes behind the
header are enough for it. -/
def FrameHdr.Whole (hdr : FrameHdr) (avail : Nat) : Prop :=
  hdr.bodyLen ≤ hdr.dataLen ∧ hdr.dataLen ≤ maxFrame ∧ hdr.bodyLen ≤ maxBody ∧
    hdr.dataLen - hdr.bodyLen ≤ maxData ∧ hdr.dataLen ≤ avail

instance (hdr : FrameHdr) (avail : Nat) : Decidable (hdr.Whole avail) :=
  inferInstanceAs (Decidable (_ ∧ _))

/-- The headers of a stream, each with the number of bytes behind it, up to the first frame that
is not whole. -/
def headers (bytes : List UInt8) : List (FrameHdr × Nat) :=
  if bytes.length < hdrSize then []
  else
    match hdrDecode (bytes.take hdrSize) with
    | none => []
    | some hdr =>
      (hdr, bytes.length - hdrSize) ::
        if hdr.Whole (bytes.length - hdrSize) then headers (bytes.drop (hdrSize + hdr.dataLen))
        else []
termination_by bytes.length
decreasing_by simp only [List.length_drop, hdrSize] at *; omega

def FrameHdr.Starved (ends : Option Errno) (hdr : FrameHdr) (avail : Nat) : Prop :=
  ends ≠ none ∧ (0 < hdr.bodySz ∧ avail = 0 ∨ 0 < hdr.dataSz ∧ avail ≤ hdr.bodySz)

/-- `powerfs_net_frame_recv` fails behind a header with `avail` bytes behind it. -/
def FrameHdr.Refused (bodyCap dataCap : Nat) (ends : Option Errno) (hdr : FrameHdr) (avail : Nat) :
    Prop :=
  bodyCap < hdr.bodySz ∨ dataCap < hdr.dataSz ∨ hdr.Starved ends avail

/-- A whole frame fits the buffers of the caller, and anything else is refused. -/
def FrameHdr.Agreed (bodyCap dataCap : Nat) (ends : Option Errno) (hdr : FrameHdr) (avail : Nat) :
    Prop :=
  if hdr.Whole avail then hdr.bodyLen ≤ bodyCap ∧ hdr.dataLen - hdr.bodyLen ≤ dataCap
  else hdr.Refused bodyCap dataCap ends avail

/-! ### The blocking receiver -/

/-- What a read with `MSG_WAITALL` does. -/
inductive WaitAllCase (copied : List UInt8) (want : Nat) (script : List RecvResult) :
    Except Errno (List UInt8) × List RecvResult → Prop
  | bytes {got : List UInt8} {rest : List RecvResult}
      (hsome : want = 0 ∨ copied ++ heard script ≠ [] ∨ ending script = none)
      (hgot : got = copied ++ (heard script).take want)
      (hheard : heard rest = (heard script).drop want) (hending : ending rest = ending script) :
      WaitAllCase copied want script (.ok got, rest)
  | fails {err : Errno} {rest : List RecvResult} (hwant : 0 < want)
      (hnone : copied ++ heard script = []) (hending : ending script = some err) :
      WaitAllCase copied want script (.error err, rest)

theorem recvWaitAll_case (copied : List UInt8) (want : Nat) (script : List RecvResult) :
    WaitAllCase copied want script (recvWaitAll copied want script) := by
  induction script generalizing copied want with
  | nil =>
    rw [recvWaitAll]
    split
    case isTrue h =>
      exact .bytes (h.imp_right fun h => .inl (by simpa [heard] using h)) (by simp [heard])
        (by simp [heard]) rfl
    case isFalse h =>
      push Not at h
      exact .fails (Nat.pos_of_ne_zero h.1) (by simp [h.2, heard]) rfl
  | cons r rest ih =>
    unfold recvWaitAll
    split
    case isTrue hzero => exact .bytes (.inl hzero) (by simp [hzero]) (by simp [hzero]) rfl
    case isFalse hwant =>
      cases r with
      | eof => exact .bytes (.inr (.inr rfl)) (by simp [heard]) (by simp [heard]) rfl
      | failed err =>
        by_cases heagain : err = .eagain
        · have hcase := ih copied want
          simp only [if_pos heagain]
          generalize recvWaitAll copied want rest = res at hcase ⊢
          have hheard : heard (.failed err :: rest) = heard rest := by simp [heard, heagain]
          have hending : ending (.failed err :: rest) = ending rest := by simp [ending, heagain]
          cases hcase with
          | bytes hsome hgot hrest hends =>
            exact .bytes (by rwa [hheard, hending]) (by rwa [hheard]) (by rwa [hheard])
              (by rwa [hending])
          | fails hwant hnone hends => exact .fails hwant (by rwa [hheard]) (by rwa [hending])
        · have hheard : heard (.failed err :: rest) = [] := by simp [heard, heagain]
          simp only [if_neg heagain]
          split
          case isTrue hnil =>
            exact .fails (Nat.pos_of_ne_zero hwant) (by simp [hnil, hheard])
              (by simp [ending, heagain])
          case isFalse hsome =>
            exact .bytes (.inr (.inl (by simp [hsome]))) (by simp [hheard]) (by simp [hheard]) rfl
      | bytes seg hne =>
        simp only
        split
        case isTrue hall =>
          -- The segment is read whole and the read goes on.
          have hle : seg.length ≤ want := List.drop_eq_nil_iff.mp hall
          have hcase := ih (copied ++ seg) (want - seg.length)
          generalize recvWaitAll (copied ++ seg) (want - seg.length) rest = res at hcase ⊢
          cases hcase with
          | bytes hsome hgot hrest hends =>
            refine .bytes (.inr (.inl (by simp [heard, hne]))) ?_ ?_ hends
            · rw [hgot, heard, List.take_append, List.take_of_length_le hle, List.append_assoc]
            · rw [hrest, heard, List.drop_append, hall, List.nil_append]
          | fails hwant hnone hends => simp [hne] at hnone
        case isFalse hpart =>
          have hlt : want < seg.length := by
            have := mt List.drop_eq_nil_iff.mpr hpart
            omega
          refine .bytes (.inr (.inl (by simp [heard, hne]))) ?_ ?_ rfl
          · rw [heard, List.take_append_of_le_length (Nat.le_of_lt hlt)]
          · rw [heard, heard, List.drop_append_of_le_length (Nat.le_of_lt hlt)]

theorem recvSection_case (size : Nat) (script : List RecvResult) :
    WaitAllCase [] size script (recvSection size script) := by
  rw [recvSection]
  split
  case isTrue => exact recvWaitAll_case [] size script
  case isFalse hzero =>
    obtain rfl : size = 0 := by omega
    exact .bytes (.inl rfl) (by simp) (by simp) rfl

theorem FrameHdr.bodySz_le (hdr : FrameHdr) : hdr.bodySz ≤ hdr.dataLen := by
  rw [FrameHdr.bodySz]
  split <;> omega

inductive SectionsCase (hdr : FrameHdr) (script : List RecvResult) :
    Except Errno RxFrame × List RecvResult → Prop
  | fails {err : Errno} {rest : List RecvResult}
      (hstarved : hdr.Starved (ending script) (heard script).length) :
      SectionsCase hdr script (.error err, rest)
  | frame {f : RxFrame} {rest : List RecvResult}
      (hnot : ¬ hdr.Starved (ending script) (heard script).length)
      (hframe : f = ⟨hdr, (heard script).take hdr.bodySz,
        slice (heard script) hdr.bodySz hdr.dataSz⟩)
      (hheard : heard rest = (heard script).drop hdr.dataLen)
      (hending : ending rest = ending script) : SectionsCase hdr script (.ok f, rest)

theorem recvSections_case (hdr : FrameHdr) (script : List RecvResult) :
    SectionsCase hdr script (recvSections hdr script) := by
  have hbody := recvSection_case hdr.bodySz script
  rw [recvSections]
  generalize recvSection hdr.bodySz script = res at hbody ⊢
  cases hbody with
  | fails hwant hnone hends =>
    have hnil : heard script = [] := hnone
    exact .fails ⟨by simp [hends], .inl ⟨hwant, by rw [hnil]; rfl⟩⟩
  | @bytes body rest hsomeBody hgot hheardBody hendingBody =>
    have hdata := recvSection_case hdr.dataSz rest
    simp only
    generalize recvSection hdr.dataSz rest = res at hdata ⊢
    cases hdata with
    | fails hwant hnone hends =>
      have hnil : heard rest = [] := hnone
      rw [hheardBody, List.drop_eq_nil_iff] at hnil
      exact .fails ⟨by simp [← hendingBody, hends], .inr ⟨hwant, hnil⟩⟩
    | @bytes data rest' hsomeData hgot' hheardData hendingData =>
      refine .frame ?_ ?_ ?_ (hendingData.trans hendingBody)
      · -- Each read found bytes or the end of the stream, unless it had nothing to read.
        rintro ⟨hends, ⟨hwant, hnil⟩ | ⟨hwant, hnil⟩⟩
        · obtain h | h | h := hsomeBody
          · omega
          · exact h (List.length_eq_zero_iff.mp hnil)
          · exact hends h
        · rw [← List.drop_eq_nil_iff, ← hheardBody] at hnil
          rw [← hendingBody] at hends
          obtain h | h | h := hsomeData
          · omega
          · exact h hnil
          · exact hends h
      · rw [hgot, hgot', hheardBody, slice]
        rfl
      · rw [hheardData, hheardBody, List.drop_drop, FrameHdr.dataSz,
          Nat.add_sub_cancel' hdr.bodySz_le]

/-- What `powerfs_net_frame_recv` does. -/
inductive FrameRecvCase (bodyCap dataCap : Nat) (script : List RecvResult) :
    Except Errno RxFrame × List RecvResult → Prop
  | noHeader {err : Errno} {rest : List RecvResult}
      (hnone : (heard script).length < hdrSize ∨ hdrDecode ((heard script).take hdrSize) = none) :
      FrameRecvCase bodyCap dataCap script (.error err, rest)
  | refused {err : Errno} {rest : List RecvResult} {hdr : FrameHdr}
      (hlong : ¬ (heard script).length < hdrSize)
      (hdec : hdrDecode ((heard script).take hdrSize) = some hdr)
      (hrefused : hdr.Refused bodyCap dataCap (ending script) ((heard script).length - hdrSize)) :
      FrameRecvCase bodyCap dataCap script (.error err, rest)
  | accepted {f : RxFrame} {rest : List RecvResult} {hdr : FrameHdr}
      (hlong : ¬ (heard script).length < hdrSize)
      (hdec : hdrDecode ((heard script).take hdrSize) = some hdr)
      (hnot : ¬ hdr.Refused bodyCap dataCap (ending script) ((heard script).length - hdrSize))
      (hframe : f = ⟨hdr, slice (heard script) hdrSize hdr.bodySz,
        slice (heard script) (hdrSize + hdr.bodySz) hdr.dataSz⟩)
      (hheard : heard rest = (heard script).drop (hdrSize + hdr.dataLen))
      (hending : ending rest = ending script) :
      FrameRecvCase bodyCap dataCap script (.ok f, rest)

theorem frameRecv_case (bodyCap dataCap : Nat) (script : List RecvResult) :
    FrameRecvCase bodyCap dataCap script (frameRecv bodyCap dataCap script) := by
  have hread := recvWaitAll_case [] hdrSize script
  rw [frameRecv]
  generalize recvWaitAll [] hdrSize script = res at hread ⊢
  cases hread with
  | fails hwant hnone hends =>
    have hnil : heard script = [] := hnone
    exact .noHeader (.inl (by rw [hnil]; exact hwant))
  | @bytes hdrBuf rest hsome hgot hheard hending =>
    obtain rfl : hdrBuf = (heard script).take hdrSize := hgot
    have hlen : ((heard script).take hdrSize).length < hdrSize ↔
        (heard script).length < hdrSize := by
      rw [List.length_take]
      omega
    simp only [hlen]
    split
    case isTrue hshort => exact .noHeader (.inl hshort)
    case isFalse hlong =>
      have havail : (heard rest).length = (heard script).length - hdrSize := by
        rw [hheard, List.length_drop]
      split
      case h_1 hdec => exact .noHeader (.inr hdec)
      case h_2 hdr hdec =>
        split
        case isTrue hbig => exact .refused hlong hdec (.inl hbig)
        case isFalse hbody =>
          split
          case isTrue hbig => exact .refused hlong hdec (.inr (.inl hbig))
          case isFalse hdata =>
            have hsections := recvSections_case hdr rest
            generalize recvSections hdr rest = res at hsections ⊢
            cases hsections with
            | fails hstarved =>
              rw [hending, havail] at hstarved
              exact .refused hlong hdec (.inr (.inr hstarved))
            | frame hnot hframe hheard' hending' =>
              rw [hending, havail] at hnot
              refine .accepted hlong hdec ?_ ?_ ?_ (hending'.trans hending)
              · rintro (hbig | hbig | hstarved)
                · exact hbody hbig
                · exact hdata hbig
                · exact hnot hstarved
              · rw [hframe, hheard, slice, slice, slice, List.drop_drop]
              · rw [hheard', hheard, List.drop_drop]

/-! ### The frames of a stream -/

def acceptedFrames : List RxOutcome → List RxFrame
  | [] => []
  | .frame f :: log => f :: acceptedFrames log
  | .error _ _ :: _ => []

variable {hdr : FrameHdr}

variable {buf : List UInt8}

theorem hdrDecode_of_checkHdr (hok : checkHdr buf = .ok hdr) :
    hdrDecode buf = some hdr := by
  rw [checkHdr] at hok
  split at hok
  · cases hok
  case h_2 hdec =>
    split_ifs at hok
    cases hok
    exact hdec

variable {avail : Nat}

theorem checkHdr_of_whole
    (hdec : hdrDecode buf = some hdr) (hwhole : hdr.Whole avail) : checkHdr buf = .ok hdr := by
  obtain ⟨hle, hframe, hbody, hdata, -⟩ := hwhole
  rw [checkHdr, hdec]
  simp only
  rw [if_neg (by omega), if_neg (by omega), if_neg (by omega)]

theorem whole_of_checkHdr
    (hok : checkHdr buf = .ok hdr) (havail : hdr.dataLen ≤ avail) : hdr.Whole avail := by
  rw [checkHdr] at hok
  split at hok
  · cases hok
  · split_ifs at hok
    cases hok
    unfold FrameHdr.Whole
    omega

def FrameHdr.frame (hdr : FrameHdr) (bytes : List UInt8) : RxFrame :=
  ⟨hdr, slice bytes hdrSize hdr.bodyLen,
    slice bytes (hdrSize + hdr.bodyLen) (hdr.dataLen - hdr.bodyLen)⟩

variable {start : Nat} {bytes : List UInt8}

theorem acceptedFrames_whole
    (hlong : ¬ bytes.length < hdrSize) (hdec : hdrDecode (bytes.take hdrSize) = some hdr)
    (hwhole : hdr.Whole (bytes.length - hdrSize)) :
    acceptedFrames (parseOn start bytes) =
      hdr.frame bytes ::
        acceptedFrames
          (parseOn (start + hdrSize + hdr.dataLen) (bytes.drop (hdrSize + hdr.dataLen))) := by
  have havail : hdr.dataLen ≤ bytes.length - hdrSize := hwhole.2.2.2.2
  rw [parseOn, if_neg hlong, checkHdr_of_whole hdec hwhole]
  simp only
  rw [if_neg (by omega), acceptedFrames]
  rfl

theorem acceptedFrames_none (hnone : bytes.length < hdrSize ∨
      ∀ hdr, hdrDecode (bytes.take hdrSize) = some hdr → ¬ hdr.Whole (bytes.length - hdrSize)) :
    acceptedFrames (parseOn start bytes) = [] := by
  rw [parseOn]
  split
  case isTrue => rfl
  case isFalse hlong =>
    have hnone := hnone.resolve_left hlong
    split
    case h_1 => rfl
    case h_2 hdr hok =>
      split
      case isTrue => rfl
      case isFalse henough =>
        exact absurd (whole_of_checkHdr hok (by omega)) (hnone hdr (hdrDecode_of_checkHdr hok))

theorem headers_none (hnone : bytes.length < hdrSize ∨ hdrDecode (bytes.take hdrSize) = none) :
    headers bytes = [] := by
  rw [headers]
  split
  case isTrue => rfl
  case isFalse hlong => rw [hnone.resolve_left hlong]

theorem headers_some (hlong : ¬ bytes.length < hdrSize)
    (hdec : hdrDecode (bytes.take hdrSize) = some hdr) :
    headers bytes =
      (hdr, bytes.length - hdrSize) ::
        if hdr.Whole (bytes.length - hdrSize) then headers (bytes.drop (hdrSize + hdr.dataLen))
        else [] := by
  rw [headers, if_neg hlong, hdec]

theorem FrameHdr.Whole.sizes (h : hdr.Whole avail) :
    hdr.bodySz = hdr.bodyLen ∧ hdr.dataSz = hdr.dataLen - hdr.bodyLen := by
  have hbody : hdr.bodySz = hdr.bodyLen := if_neg (Nat.not_lt.mpr h.1)
  exact ⟨hbody, by rw [FrameHdr.dataSz, hbody]⟩

theorem FrameHdr.agreed_iff {bodyCap dataCap : Nat} {ends : Option Errno} :
    hdr.Agreed bodyCap dataCap ends avail ↔
      (hdr.Whole avail ↔ ¬ hdr.Refused bodyCap dataCap ends avail) := by
  rw [FrameHdr.Agreed]
  split
  case isFalse hnot => simp [hnot]
  case isTrue hwhole =>
    obtain ⟨hbody, hdata⟩ := hwhole.sizes
    obtain ⟨hle, -, -, -, havail⟩ := id hwhole
    simp only [hwhole, true_iff, FrameHdr.Refused, FrameHdr.Starved, hbody, hdata]
    omega

theorem frameRecvs_eq_iff {bodyCap dataCap : Nat} (start : Nat) {calls : Nat}
    {script : List RecvResult} (hcalls : (heard script).length < calls) :
    frameRecvs bodyCap dataCap calls script = acceptedFrames (parseOn start (heard script)) ↔
      ∀ p ∈ headers (heard script), p.1.Agreed bodyCap dataCap (ending script) p.2 := by
  induction calls generalizing start script with
  | zero => omega
  | succ calls ih =>
    have hcase := frameRecv_case bodyCap dataCap script
    rw [frameRecvs]
    generalize frameRecv bodyCap dataCap script = res at hcase ⊢
    cases hcase with
    | noHeader hnone =>
      rw [acceptedFrames_none (hnone.imp_right fun h hdr hdec => by simp [h] at hdec),
        headers_none hnone]
      simp
    | refused hlong hdec hrefused =>
      rename_i hdr
      rw [headers_some hlong hdec]
      by_cases hwhole : hdr.Whole ((heard script).length - hdrSize)
      · rw [acceptedFrames_whole hlong hdec hwhole]
        simp [FrameHdr.agreed_iff, hwhole, hrefused]
      · rw [acceptedFrames_none (.inr fun h hh => by rwa [Option.some.inj (hh.symm.trans hdec)])]
        simp [FrameHdr.agreed_iff, hwhole, hrefused]
    | accepted hlong hdec hnot hframe hheard hending =>
      rename_i f rest hdr
      rw [headers_some hlong hdec]
      by_cases hwhole : hdr.Whole ((heard script).length - hdrSize)
      · -- Both take the frame; the rest of the stream is the induction hypothesis.
        have hsame : f = hdr.frame (heard script) := by
          rw [hframe, FrameHdr.frame, hwhole.sizes.1, hwhole.sizes.2]
        have hless : (heard rest).length < calls := by
          rw [hheard, List.length_drop]
          simp only [hdrSize] at hlong ⊢
          omega
        have hrec := ih (start + hdrSize + hdr.dataLen) hless
        rw [hending, hheard] at hrec
        rw [acceptedFrames_whole hlong hdec hwhole, ← hsame, if_pos hwhole]
        simp only [List.cons.injEq, true_and, hrec, List.forall_mem_cons, FrameHdr.agreed_iff,
          hwhole, hnot, not_false_eq_true]
      · rw [acceptedFrames_none (.inr fun h hh => by rwa [Option.some.inj (hh.symm.trans hdec)])]
        simp [FrameHdr.agreed_iff, hwhole, hnot]

/-! ### The non-blocking receiver -/

/-- More for the socket to find. -/
def RxState.withTail (st : RxState) (tail : List RecvResult) : RxState :=
  { st with sock := { st.sock with script := st.sock.script ++ tail } }

/-- A read or a step with more for the socket to find: it does the same, or it goes on where the
other waits with an empty socket, and fails. -/
inductive TailCase {α : Type} (tail : List RecvResult) (res res' : Except Errno α × RxState) : Prop
  | same (hsame : res' = (res.1, res.2.withTail tail))
  | ended {err : Errno} (hwaits : res.1 = .error .eagain) (hempty : res.2.sock.script = [])
      (hne : err ≠ .eagain) (hfails : res'.1 = .error err)

/-- What a phase of `pfs_rx_step` does with the outcome of its read. -/
def afterRead (res : Except Errno (List UInt8) × RxState)
    (next : List UInt8 → RxState → Except Errno Unit × RxState) : Except Errno Unit × RxState :=
  match res with
  | (.error err, st) => (.error err, st)
  | (.ok bytes, st) => next bytes st

section Tail

variable {r : RecvResult} (rest : List RecvResult)

theorem recvInto_tail (hr : r.delivers = false) (st : RxState) (buf : RxBuf)
    (filled : List UInt8) (total : Nat) :
    TailCase (r :: rest) (recvInto st buf filled total)
      (recvInto (st.withTail (r :: rest)) buf filled total) := by
  obtain ⟨conn, ⟨script, taken⟩, log, vecs⟩ := st
  cases script with
  | nil =>
    cases r with
    | bytes seg hne => cases hr
    | eof => exact .ended rfl rfl Errno.noConfusion rfl
    | failed err => exact .ended rfl rfl (by simpa [RecvResult.delivers] using hr) rfl
  | cons r' rest' =>
    refine .same ?_
    cases r' with
    | eof => rfl
    | failed err => rfl
    | bytes seg hne =>
      simp only [recvInto, recvmsg, RxState.withTail, List.cons_append]
      split <;> split <;> simp_all

theorem TailCase.afterRead {tail : List RecvResult} {res res' : Except Errno (List UInt8) × RxState}
    {next : List UInt8 → RxState → Except Errno Unit × RxState} (h : TailCase tail res res')
    (hnext : ∀ bytes st, TailCase tail (next bytes st) (next bytes (st.withTail tail))) :
    TailCase tail (Net.afterRead res next) (Net.afterRead res' next) := by
  obtain ⟨ret, st⟩ := res
  obtain ⟨ret', st'⟩ := res'
  cases h with
  | ended hwaits hempty hne hfails =>
    cases hwaits
    cases hfails
    exact .ended rfl hempty hne rfl
  | same hsame =>
    cases hsame
    cases ret with
    | error err => exact .same rfl
    | ok bytes => exact hnext bytes st

section

variable (hr : r.delivers = false) (st : RxState)
include hr

theorem rxData_tail :
    TailCase (r :: rest) (rxData st) (rxData (st.withTail (r :: rest))) := by
  have hconn : (st.withTail (r :: rest)).conn = st.conn := rfl
  simp only [rxData, hconn]
  split
  case isFalse => exact .same rfl
  case isTrue =>
    refine (recvInto_tail rest hr st .data st.conn.data st.conn.dataTotal).afterRead
      fun data st => ?_
    have hconn : (st.withTail (r :: rest)).conn = st.conn := rfl
    simp only [hconn]
    split <;> exact .same rfl

theorem rxBody_tail :
    TailCase (r :: rest) (rxBody st) (rxBody (st.withTail (r :: rest))) := by
  have hconn : (st.withTail (r :: rest)).conn = st.conn := rfl
  simp only [rxBody, hconn]
  split
  case isFalse => exact rxData_tail rest hr { st with conn := { st.conn with phase := .data } }
  case isTrue =>
    refine (recvInto_tail rest hr st .body st.conn.body st.conn.bodyTotal).afterRead
      fun body st => ?_
    have hconn : (st.withTail (r :: rest)).conn = st.conn := rfl
    simp only [hconn]
    split
    · exact .same rfl
    · exact rxData_tail rest hr { st with conn := { st.conn with body, phase := .data } }

theorem rxHeader_tail :
    TailCase (r :: rest) (rxHeader st) (rxHeader (st.withTail (r :: rest))) := by
  refine (recvInto_tail rest hr st .hdr st.conn.hdr hdrSize).afterRead fun hdr st => ?_
  have hconn : (st.withTail (r :: rest)).conn = st.conn := rfl
  simp only [hconn]
  split
  · exact .same rfl
  · split
    · exact .same rfl
    · exact rxBody_tail rest hr _

theorem rxStep_tail :
    TailCase (r :: rest) (rxStep st) (rxStep (st.withTail (r :: rest))) := by
  have hconn : (st.withTail (r :: rest)).conn = st.conn := rfl
  rw [rxStep, rxStep, hconn]
  cases st.conn.phase with
  | header => exact rxHeader_tail rest hr st
  | body => exact rxBody_tail rest hr st
  | data => exact rxData_tail rest hr st
  | complete => exact .same rfl

end

variable {all : List RxOutcome} {st : RxState}

theorem rxFrames_idle (rounds : Nat) (h : RxInv all st) (hempty : st.sock.script = []) :
    rxFrames rounds st = [] := by
  induction rounds generalizing st with
  | zero => rfl
  | succ rounds ih =>
    obtain ⟨hret, hsock⟩ := h.step_idle hempty
    have hstep := h.step
    rw [rxFrames]
    generalize rxStep st = res at hret hsock hstep ⊢
    obtain ⟨ret, st'⟩ := res
    cases hret
    exact ih hstep.inv (by rw [show st'.sock = st.sock from hsock, hempty])

/-- Behind the end of the stream or an error `pfs_rx_step` accepts nothing. -/
theorem rxFrames_withTail (rounds : Nat) (h : RxInv all st) (hr : r.delivers = false) :
    rxFrames rounds (st.withTail (r :: rest)) = rxFrames rounds st := by
  induction rounds generalizing st with
  | zero => rfl
  | succ rounds ih =>
    have hstep := h.step
    have htail := rxStep_tail rest hr st
    rw [rxFrames, rxFrames]
    generalize rxStep st = res at hstep htail ⊢
    generalize rxStep (st.withTail (r :: rest)) = res' at htail ⊢
    obtain ⟨ret, st'⟩ := res
    obtain ⟨ret', st''⟩ := res'
    cases htail with
    | same hsame =>
      cases hsame
      cases ret with
      | ok u => exact congrArg (_ :: ·) (ih hstep.inv)
      | error err =>
        cases err with
        | eagain => exact ih hstep.inv
        | _ => rfl
    | @ended err hwaits hempty hne hfails =>
      cases hwaits
      cases hfails
      have hidle : rxFrames rounds st' = [] := rxFrames_idle rounds hstep.inv hempty
      cases err <;> first | exact absurd rfl hne | exact hidle.symm

end Tail

theorem recvInto_log (st : RxState) (buf : RxBuf) (filled : List UInt8) (total : Nat) :
    (recvInto st buf filled total).2.log = st.log := by
  rw [recvInto]
  split <;> rfl

theorem afterRead_log {res : Except Errno (List UInt8) × RxState} {log : List RxOutcome}
    {next : List UInt8 → RxState → Except Errno Unit × RxState} (h : res.2.log = log)
    (hnext : ∀ bytes st, (next bytes st).2.log = st.log) : (afterRead res next).2.log = log := by
  obtain ⟨ret, st⟩ := res
  cases ret with
  | error err => exact h
  | ok bytes => exact (hnext bytes st).trans h

theorem rxData_log (st : RxState) : (rxData st).2.log = st.log := by
  rw [rxData]
  split
  · refine afterRead_log (recvInto_log st .data st.conn.data st.conn.dataTotal) fun data st => ?_
    split <;> rfl
  · rfl

theorem rxBody_log (st : RxState) : (rxBody st).2.log = st.log := by
  rw [rxBody]
  split
  · refine afterRead_log (recvInto_log st .body st.conn.body st.conn.bodyTotal) fun body st => ?_
    split
    · rfl
    · exact rxData_log { st with conn := { st.conn with body, phase := .data } }
  · exact rxData_log { st with conn := { st.conn with phase := .data } }

theorem rxHeader_log (st : RxState) : (rxHeader st).2.log = st.log := by
  refine afterRead_log (recvInto_log st .hdr st.conn.hdr hdrSize) fun hdr st => ?_
  split
  · rfl
  · split
    · rfl
    · exact rxBody_log _

theorem rxStep_log (st : RxState) : (rxStep st).2.log = st.log := by
  rw [rxStep]
  cases st.conn.phase with
  | header => exact rxHeader_log st
  | body => exact rxBody_log st
  | data => exact rxData_log st
  | complete => rfl

theorem acceptedFrames_append (fs : List RxFrame) (log : List RxOutcome) :
    acceptedFrames (fs.map RxOutcome.frame ++ log) = fs ++ acceptedFrames log := by
  induction fs with
  | nil => rfl
  | cons f fs ih => exact congrArg (f :: ·) ih

/-- On a stream that does not end, `pfs_rx_step` accepts the frames of the stream. -/
theorem rxFrames_eq {all : List RxOutcome} {st : RxState} (fs : List RxFrame) {rounds : Nat}
    (h : RxInv all st) (hlog : st.log = fs.map RxOutcome.frame)
    (hrounds : st.sock.weight < rounds) :
    acceptedFrames all = fs ++ rxFrames rounds st := by
  induction rounds generalizing st fs with
  | zero => omega
  | succ rounds ih =>
    by_cases hempty : st.sock.script = []
    · rw [rxFrames_idle _ h hempty, ← h.log_eq hempty, hlog]
      simpa [acceptedFrames] using acceptedFrames_append fs []
    · have hpos : st.sock.weight ≠ 0 := fun h => hempty (RxSock.weight_eq_zero.mp h)
      have hstep := h.step
      have hlog' := rxStep_log st
      rw [rxFrames]
      generalize rxStep st = res at hstep hlog' ⊢
      obtain ⟨ret, st'⟩ := res
      obtain ⟨hinv, hweight⟩ := hstep
      simp only at hweight hlog'
      rw [hlog] at hlog'
      cases ret with
      | ok u =>
        have hrec := ih (fs ++ [⟨st'.conn.curHdr, st'.conn.body, st'.conn.data⟩]) hinv
          (by simp [settle, RxState.dispatch, hlog']) (show st'.sock.weight < rounds by omega)
        rw [hrec, List.append_assoc]
        rfl
      | error err =>
        cases err with
        | eagain => exact ih fs hinv hlog' (show st'.sock.weight < rounds by omega)
        | _ =>
          -- The error is the next outcome.
          obtain ⟨-, start, htrack⟩ := hinv
          rw [htrack.result]
          simp only [settle, RxState.fail, hlog', List.append_assoc, acceptedFrames_append]
          rfl

/-! ### Both receivers on one stream -/

/-- A new connection on a socket. -/
def RxState.begin (script : List RecvResult) : RxState := ⟨.fresh, ⟨script, 0⟩, [], []⟩

theorem exists_live (script : List RecvResult) :
    ∃ live tail, script = live ++ tail ∧ (∀ r ∈ live, r.delivers = true) ∧
      heard script = streamBytes live ∧
      (tail = [] ∨ ∃ r rest, tail = r :: rest ∧ r.delivers = false) := by
  induction script with
  | nil => exact ⟨[], [], rfl, by simp, rfl, .inl rfl⟩
  | cons r rest ih =>
    obtain ⟨live, tail, hsplit, hlive, hheard, htail⟩ := ih
    cases hr : r.delivers with
    | false =>
      refine ⟨[], r :: rest, rfl, by simp, ?_, .inr ⟨r, rest, rfl, hr⟩⟩
      cases r with
      | eof => rfl
      | bytes seg hne => cases hr
      | failed err => exact if_neg (by simpa [RecvResult.delivers] using hr)
    | true =>
      refine ⟨r :: live, tail, by rw [hsplit]; rfl, ?_, ?_, htail⟩
      · exact List.forall_mem_cons.mpr ⟨hr, hlive⟩
      · cases r with
        | eof => cases hr
        | bytes seg hne => simp [heard, hheard, streamBytes]
        | failed err =>
          obtain rfl : err = .eagain := by simpa [RecvResult.delivers] using hr
          simp [heard, hheard, streamBytes]

theorem rxFrames_begin {script : List RecvResult} {rounds : Nat}
    (hrounds : RxSock.weight ⟨script, 0⟩ < rounds) :
    rxFrames rounds (.begin script) = acceptedFrames (parseOn 0 (heard script)) := by
  obtain ⟨live, tail, rfl, hdel, hheard, htail⟩ := exists_live script
  have hinv : RxInv (parseOn 0 (heard (live ++ tail))) (.begin live) := by
    refine ⟨RxConn.waits_reset .fresh, 0, hdel, ?_, rfl, ?_⟩
    · intro v hv
      exact absurd hv List.not_mem_nil
    · rw [hheard]
      rfl
  have hweight : RxSock.weight ⟨live, 0⟩ < rounds := by
    simp only [RxSock.weight, List.map_append, List.sum_append] at hrounds ⊢
    omega
  rw [rxFrames_eq [] hinv rfl hweight, List.nil_append]
  obtain rfl | ⟨r, rest, rfl, hr⟩ := htail
  · rw [List.append_nil]
  · exact rxFrames_withTail rest rounds hinv hr

/-- Both sections of a frame have the length its header announces. -/
def RxFrame.Complete (f : RxFrame) : Prop :=
  f.body.length = f.hdr.bodyLen ∧ f.body.length + f.data.length = f.hdr.dataLen

theorem complete_of_mem_acceptedFrames {f : RxFrame}
    (hf : f ∈ acceptedFrames (parseOn start bytes)) : f.Complete := by
  fun_induction parseOn start bytes with
  | case1 => cases hf
  | case2 => cases hf
  | case3 => cases hf
  | case4 start bytes hlong hdr hok henough ih =>
    obtain rfl | hf := List.mem_cons.mp hf
    · obtain ⟨hle, -, -⟩ := checkHdr_eq_ok hok
      simp only [RxFrame.Complete, slice, List.length_take, List.length_drop]
      omega
    · exact ih hf

/-- The two receivers accept the same frames, and these are complete, just if every whole frame fits
the buffers of the caller of `powerfs_net_frame_recv` and every other one is refused by it. -/
theorem frameRecvs_eq_rxFrames_iff (bodyCap dataCap : Nat) (script : List RecvResult)
    {calls rounds : Nat} (hcalls : (heard script).length < calls)
    (hrounds : RxSock.weight ⟨script, 0⟩ < rounds) :
    (frameRecvs bodyCap dataCap calls script = rxFrames rounds (.begin script) ∧
        ∀ f ∈ frameRecvs bodyCap dataCap calls script ++ rxFrames rounds (.begin script),
          f.Complete) ↔
      ∀ p ∈ headers (heard script), p.1.Agreed bodyCap dataCap (ending script) p.2 := by
  rw [rxFrames_begin hrounds, ← frameRecvs_eq_iff 0 hcalls]
  refine ⟨And.left, fun hsame => ⟨hsame, fun f hf => ?_⟩⟩
  rw [hsame, List.mem_append, or_self] at hf
  exact complete_of_mem_acceptedFrames hf

theorem frameRecvs_eq_rxFrames_iff_split :
    frameRecvs maxBody 64 61 splitScript =
        [⟨⟨1, 5, 7, 0, 4, 3, 0, 1⟩, [1, 2, 3], [9]⟩] ∧
      ∀ p ∈ headers (heard splitScript), p.1.Agreed maxBody 64 (ending splitScript) p.2 := by
  have hframes : frameRecvs maxBody 64 61 splitScript =
      [⟨⟨1, 5, 7, 0, 4, 3, 0, 1⟩, [1, 2, 3], [9]⟩] := by decide +kernel
  have hrx : rxFrames 62 (.begin splitScript) =
      [⟨⟨1, 5, 7, 0, 4, 3, 0, 1⟩, [1, 2, 3], [9]⟩] := by decide +kernel
  refine ⟨hframes, (frameRecvs_eq_rxFrames_iff maxBody 64 splitScript (by decide +kernel)
    (by decide +kernel)).mp ⟨hframes.trans hrx.symm, ?_⟩⟩
  rw [hframes, hrx]
  simp [RxFrame.Complete]

/-- The bytes of a request header with the given `data_len` and `body_len`. -/
def hdrBytes (dataLen bodyLen : Nat) : List UInt8 :=
  let fields := hdrStart ++ leBytes 4 5 ++ leBytes 2 7 ++ leBytes 2 0 ++ leBytes 4 dataLen ++
    leBytes 4 bodyLen ++ [0, 0x01]
  fields ++ leBytes 4 (crc32c fields).toNat

/-- A peer that closes inside a body makes `powerfs_net_frame_recv` succeed with a short one. A
`body_len` above `data_len` is an error for `pfs_rx_step` only; the other one cuts the body to
`data_len`. -/
theorem frameRecvs_ne_rxFrames :
    (frameRecvs maxBody 64 30 [.ofBytes (hdrBytes 3 3 ++ [1]), .eof] =
          [⟨⟨1, 5, 7, 0, 3, 3, 0, 1⟩, [1], []⟩] ∧
        rxFrames 31 (.begin [.ofBytes (hdrBytes 3 3 ++ [1]), .eof]) = []) ∧
      frameRecvs maxBody 64 30 [.ofBytes (hdrBytes 1 2 ++ [9])] =
          [⟨⟨1, 5, 7, 0, 1, 2, 0, 1⟩, [9], []⟩] ∧
        rxFrames 30 (.begin [.ofBytes (hdrBytes 1 2 ++ [9])]) = [] := by
  decide +kernel

end PowerFS.Net
