import PowerFS.Net.FrameSend

namespace PowerFS.Net

/-! The attempts that `powerfs_request_submit` makes with one request, each on a connection of its
own. `send_offset` is a field of the request: an attempt leaves it to the next one. -/

/-- One attempt: the sequence number and hash of its connection, and for each
`pfs_process_transmit` that gets the request the results of `kernel_sendmsg`. -/
structure Attempt where
  seq : UInt32
  routeHash : UInt8
  calls : List (List SendResult)

def Frame.on (f : Frame) (a : Attempt) : Frame := { f with seq := a.seq, routeHash := a.routeHash }

/-- A `kvec` with the position of each byte in the frame. -/
def labelVec : Nat → List (List UInt8) → List (List (UInt8 × Nat))
  | _, [] => []
  | start, v :: vec => v.zipIdx start :: labelVec (start + v.length) vec

/-- The outcome of an attempt: what it has put on its connection, `send_offset` afterwards, and
whether the frame counts as sent. -/
structure AttemptOut (α : Type*) where
  written : List α
  offset : Nat
  finished : Bool

/-- An attempt. After `-EAGAIN` and `-ENOMEM` the request goes back to the queue; when the calls end
it is still there, and was given up or lost its connection. -/
def attemptSend {α : Type*} (vec : List (List α)) :
    Nat → List (List SendResult) → Option (AttemptOut α)
  | offset, [] => some ⟨[], offset, false⟩
  | offset, call :: calls =>
    match frameSendNonblock vec offset call with
    | none => none
    | some out =>
      match out.ret with
      | .ok () => if calls ≠ [] then none else some ⟨out.written, out.offset, true⟩
      | .error err =>
        if err = .eagain ∨ err = .enomem then
          (attemptSend vec out.offset calls).map fun rest =>
            { rest with written := out.written ++ rest.written }
        else if calls ≠ [] then none
        else some ⟨out.written, out.offset, false⟩

/-- `send_offset` after attempts with a new request; `none` if they are not possible. -/
def offsetAfter (f : Frame) (history : List Attempt) : Option Nat :=
  history.foldlM (fun offset a =>
    (attemptSend (labelVec 0 (f.on a).vec) offset a.calls).map AttemptOut.offset) 0

/-- The attempt has put the frame on its connection from its first byte on, and all of it if it
counts as sent. -/
def Whole (frame : List (UInt8 × Nat)) (out : AttemptOut (UInt8 × Nat)) : Prop :=
  out.written <+: frame ∧ (out.finished = true → out.written = frame)

/-- No call sends after one that has sent something and then run out of memory. -/
def Kept : List (List SendResult) → Prop
  | [] => True
  | call :: calls =>
    (.error .enomem ∈ call → 0 < sentBytes call → ∀ c ∈ calls, sentBytes c = 0) ∧ Kept calls

instance Kept.decidable : (calls : List (List SendResult)) → Decidable (Kept calls)
  | [] => inferInstanceAs (Decidable True)
  | _ :: calls => @instDecidableAnd _ _ inferInstance (Kept.decidable calls)

variable {offset : Nat}

section Attempts

theorem flatten_labelVec (start : Nat) (vec : List (List UInt8)) :
    (labelVec start vec).flatten = vec.flatten.zipIdx start := by
  induction vec generalizing start with
  | nil => rfl
  | cons v vec ih =>
    rw [labelVec, List.flatten_cons, ih, List.flatten_cons, List.zipIdx_append]

variable {vec : List (List (UInt8 × Nat))} {bytes : List UInt8}

variable {pos n : Nat}

theorem drop_take_prefix_iff {start : Nat} {rest : List (UInt8 × Nat)}
    (hpos : pos < bytes.length) (hn : 0 < n) (hfits : start + n ≤ bytes.length) :
    (bytes.zipIdx.drop start).take n ++ rest <+: bytes.zipIdx.drop pos ↔
      start = pos ∧ rest <+: bytes.zipIdx.drop (pos + n) := by
  constructor
  · intro h
    have hsame : start = pos := by
      have hmin : 0 < min n (bytes.length - start) := by omega
      have hget := h.getElem (show 0 < _ by simp; omega)
      simp only [List.getElem_append, List.length_take, List.length_drop, List.length_zipIdx, hmin,
        dif_pos, List.getElem_take, List.getElem_drop, List.getElem_zipIdx, Prod.mk.injEq] at hget
      omega
    subst hsame
    refine ⟨rfl, ?_⟩
    rw [← List.drop_drop]
    nth_rewrite 2 [← List.take_append_drop n (bytes.zipIdx.drop start)] at h
    exact (List.prefix_append_right_inj _).mp h
  · rintro ⟨rfl, h⟩
    nth_rewrite 2 [← List.take_append_drop n (bytes.zipIdx.drop start)]
    rw [List.drop_drop]
    exact (List.prefix_append_right_inj _).mpr h

/-- What an attempt adds, from `pos` bytes of the frame on. -/
def Fits (frame : List (UInt8 × Nat)) (pos : Nat) (out : AttemptOut (UInt8 × Nat)) : Prop :=
  out.written <+: frame.drop pos ∧ (out.finished = true → out.written = frame.drop pos)

theorem fits_append_iff {start : Nat} (rest : AttemptOut (UInt8 × Nat))
    (hpos : pos < bytes.length) (hn : 0 < n) (hfits : start + n ≤ bytes.length) :
    Fits bytes.zipIdx pos
        { rest with written := (bytes.zipIdx.drop start).take n ++ rest.written } ↔
      start = pos ∧ Fits bytes.zipIdx (pos + n) rest := by
  have hsplit : bytes.zipIdx.drop pos =
      (bytes.zipIdx.drop pos).take n ++ bytes.zipIdx.drop (pos + n) := by
    rw [← List.drop_drop, List.take_append_drop]
  unfold Fits
  rw [drop_take_prefix_iff hpos hn hfits]
  constructor
  · rintro ⟨⟨rfl, hprefix⟩, hfinished⟩
    refine ⟨rfl, hprefix, fun hend => ?_⟩
    exact List.append_cancel_left ((hfinished hend).trans hsplit)
  · rintro ⟨rfl, hprefix, hfinished⟩
    refine ⟨⟨rfl, hprefix⟩, fun hend => ?_⟩
    exact (congrArg _ (hfinished hend)).trans hsplit.symm

theorem fits_done_iff (hoffset : offset < bytes.length) (hpos : pos < bytes.length) (next : Nat) :
    Fits bytes.zipIdx pos ⟨bytes.zipIdx.drop offset, next, true⟩ ↔ offset = pos := by
  constructor
  · rintro ⟨_, hfinished⟩
    have hlength := congrArg List.length (hfinished rfl)
    simp only [List.length_drop, List.length_zipIdx] at hlength
    omega
  · rintro rfl
    exact ⟨List.prefix_rfl, fun _ => rfl⟩

theorem fits_failed_iff (hpos : pos < bytes.length)
    (hfits : offset + n ≤ bytes.length) (next : Nat) :
    Fits bytes.zipIdx pos ⟨(bytes.zipIdx.drop offset).take n, next, false⟩ ↔
      offset = pos ∨ n = 0 := by
  obtain rfl | hn := Nat.eq_zero_or_pos n
  · simp [Fits]
  · have hiff := fits_append_iff (⟨[], next, false⟩ : AttemptOut (UInt8 × Nat)) hpos hn hfits
    rw [List.append_nil] at hiff
    have hrest : Fits bytes.zipIdx (pos + n) ⟨[], next, false⟩ := ⟨List.nil_prefix, nofun⟩
    rw [hiff, and_iff_left hrest]
    exact ⟨.inl, fun h => h.resolve_right (by omega)⟩

variable {calls : List (List SendResult)} {out : AttemptOut (UInt8 × Nat)}

section

variable (hvec : vec.flatten = bytes.zipIdx) (hoffset : offset < bytes.length)
include hvec hoffset

/-- How an attempt goes on after a call: the frame is sent, the request is queued again, or the
attempt fails. -/
theorem attemptSend_cases {call : List SendResult}
    (h : attemptSend vec offset (call :: calls) = some out) :
    ∃ sent, Sends (bytes.zipIdx.drop offset) offset offset call sent ∧
      ((sent.ret = .ok () ∧ calls = [] ∧ out = ⟨sent.written, sent.offset, true⟩) ∨
      ∃ err, sent.ret = .error err ∧
        ((err = .eagain ∨ err = .enomem) ∧
          (∃ rest, attemptSend vec sent.offset calls = some rest ∧
            out = { rest with written := sent.written ++ rest.written }) ∨
        calls = [] ∧ out = ⟨sent.written, sent.offset, false⟩)) := by
  simp only [attemptSend] at h
  split at h <;> try cases h
  next sent hsent =>
  have hspec := frameSendNonblock_sends (by rw [hvec, List.length_zipIdx]; exact hoffset) hsent
  rw [hvec] at hspec
  refine ⟨sent, hspec, ?_⟩
  split at h
  · next hok =>
    split at h
    · cases h
    · next hend =>
      cases h
      exact .inl ⟨hok, not_not.mp hend, rfl⟩
  · next err herr =>
    refine .inr ⟨err, herr, ?_⟩
    split at h
    · next hretry =>
      obtain ⟨rest, hrun, rfl⟩ := Option.map_eq_some_iff.mp h
      exact .inl ⟨hretry, rest, hrun, rfl⟩
    · split at h
      · cases h
      · next hend =>
        cases h
        exact .inr ⟨not_not.mp hend, rfl⟩

theorem attemptSend_fits_iff (hpos : pos < bytes.length)
    (h : attemptSend vec offset calls = some out) :
    Fits bytes.zipIdx pos out ↔
      (offset = pos ∨ ∀ call ∈ calls, sentBytes call = 0) ∧ Kept calls := by
  -- By induction on the calls; `pos` counts what this attempt has put on the connection.
  induction calls generalizing offset pos out with
  | nil =>
    cases h
    simp [Fits, Kept]
  | cons call calls ih =>
    have hrest : (bytes.zipIdx.drop offset).length = bytes.length - offset := by simp
    obtain ⟨sent, hspec, ⟨hok, rfl, rfl⟩ | ⟨err, herr, hnot⟩⟩ := attemptSend_cases hvec hoffset h
    · obtain ⟨hall, _⟩ := hspec.done hok
      have hsome : sentBytes call ≠ 0 := by omega
      rw [hspec.written, hall, List.take_length, fits_done_iff hoffset hpos]
      simp [Kept, hsome]
    obtain ⟨hleft, hnext⟩ := hspec.left err herr
    have hfits : offset + sentBytes call ≤ bytes.length := by omega
    rw [hspec.written] at hnot
    obtain ⟨hretry, rest, hrun, rfl⟩ | ⟨rfl, rfl⟩ := hnot
    · obtain hzero | hn := Nat.eq_zero_or_pos (sentBytes call)
      · have hsame : sent.offset = offset := by
          rw [hnext, hzero]
          split <;> rfl
        rw [hsame] at hrun
        simpa [hzero, Kept] using ih hoffset hpos hrun
      · have hsome : ¬ ∀ c ∈ call :: calls, sentBytes c = 0 := fun hnone =>
          Nat.ne_of_gt hn (hnone call List.mem_cons_self)
        rw [fits_append_iff rest hpos hn hfits, or_iff_left hsome]
        refine and_congr_right fun hsame => ?_
        subst hsame
        have hafter : offset + sentBytes call < bytes.length := by omega
        obtain rfl | rfl := hretry
        · -- The progress is saved: the next call goes on where this one stopped.
          have hnomem : .error .enomem ∉ call := fun hmem => by
            cases herr.symm.trans (hspec.nomem.mpr hmem)
          rw [hnext] at hrun
          rw [ih hafter hafter hrun]
          simp [Kept, hnomem]
        · -- The progress is lost: the next call starts at `offset` again.
          have hmem : .error .enomem ∈ call := hspec.nomem.mp herr
          rw [hnext] at hrun
          rw [ih hoffset hafter hrun, or_iff_right (by omega)]
          simp [Kept, hmem, hn]
    · rw [fits_failed_iff hpos hfits]
      simp [Kept]

theorem attemptSend_offset_lt (h : attemptSend vec offset calls = some out) :
    out.offset < bytes.length := by
  induction calls generalizing offset out with
  | nil =>
    cases h
    exact hoffset
  | cons call calls ih =>
    have hrest : (bytes.zipIdx.drop offset).length = bytes.length - offset := by simp
    obtain ⟨sent, hspec, ⟨hok, rfl, rfl⟩ | ⟨err, herr, hnot⟩⟩ := attemptSend_cases hvec hoffset h
    · obtain ⟨_, hzero⟩ := hspec.done hok
      show sent.offset < _
      omega
    obtain ⟨hleft, hnext⟩ := hspec.left err herr
    have hlt : sent.offset < bytes.length := by
      rw [hnext]
      split <;> omega
    obtain ⟨_, rest, hrun, rfl⟩ | ⟨rfl, rfl⟩ := hnot
    · show rest.offset < _
      exact ih hlt hrun
    · exact hlt

end

end Attempts

theorem Frame.length_on (f : Frame) (a : Attempt) : (f.on a).bytes.length = f.bytes.length := by
  rw [Frame.bytes_eq, Frame.bytes_eq]
  simp [Frame.on, hdrEncode, hdrFields, length_leBytes]

theorem offsetAfter_lt (f : Frame) {history : List Attempt}
    (h : offsetAfter f history = some offset) : offset < f.bytes.length := by
  -- By induction on the history, with the offset it starts from.
  have hrun : ∀ start, start < f.bytes.length → history.foldlM (fun offset a =>
      (attemptSend (labelVec 0 (f.on a).vec) offset a.calls).map AttemptOut.offset) start =
        some offset → offset < f.bytes.length := by
    clear h
    induction history with
    | nil =>
      intro start hstart h
      cases h
      exact hstart
    | cons a history ih =>
      intro start hstart h
      obtain ⟨next, hnext, h⟩ := Option.bind_eq_some_iff.mp h
      obtain ⟨out, hout, rfl⟩ := Option.map_eq_some_iff.mp hnext
      refine ih _ ?_ h
      have hlt := attemptSend_offset_lt (flatten_labelVec 0 (f.on a).vec)
        (by rw [← Frame.length_on f a] at hstart; exact hstart) hout
      rwa [← Frame.length_on f a]
  exact hrun 0 f.length_pos h

/-- After every history: an attempt puts the whole frame on its connection if and only if it starts
with `send_offset` 0 or sends nothing, and loses no progress to `-ENOMEM`. -/
theorem retry_whole_iff (f : Frame) (history : List Attempt) (a : Attempt) {offset : Nat}
    {out : AttemptOut (UInt8 × Nat)} (hhistory : offsetAfter f history = some offset)
    (hout : attemptSend (labelVec 0 (f.on a).vec) offset a.calls = some out) :
    Whole (f.on a).bytes.zipIdx out ↔
      (offset = 0 ∨ ∀ call ∈ a.calls, sentBytes call = 0) ∧ Kept a.calls := by
  have hoffset := offsetAfter_lt f hhistory
  rw [← Frame.length_on f a] at hoffset
  exact attemptSend_fits_iff (flatten_labelVec 0 (f.on a).vec) hoffset (f.on a).length_pos hout

def shortRequest : Frame := ⟨0x0091, 0, 0, [], []⟩

/-- The first connection breaks before a byte is sent, the second takes the frame in two parts. -/
theorem retry_whole_iff_shortRequest : ∃ out,
    offsetAfter shortRequest [⟨1, 0, [[.error .enotconn]]⟩] = some 0 ∧
    attemptSend (labelVec 0 (shortRequest.on ⟨7, 1, []⟩).vec) 0
      [[.sent 5, .error .eagain], [.error .eintr, .sent 23]] = some out ∧
    Whole (shortRequest.on ⟨7, 1, []⟩).bytes.zipIdx out := by
  have hhistory : offsetAfter shortRequest [⟨1, 0, [[.error .enotconn]]⟩] = some 0 := by decide
  obtain ⟨out, hout⟩ : ∃ out, attemptSend (labelVec 0 (shortRequest.on ⟨7, 1, []⟩).vec) 0
      [[.sent 5, .error .eagain], [.error .eintr, .sent 23]] = some out := ⟨_, rfl⟩
  refine ⟨out, hhistory, hout, ?_⟩
  have hiff := retry_whole_iff shortRequest _
    ⟨7, 1, [[.sent 5, .error .eagain], [.error .eintr, .sent 23]]⟩ hhistory hout
  refine hiff.mpr ⟨.inl rfl, ?_, ?_, trivial⟩
  · intro hmem
    simp at hmem
  · intro hmem
    simp at hmem

/-- Five bytes reach the first connection before it breaks: the second one gets the frame without
them, and the request counts as sent. -/
theorem not_retry_whole : ¬ ∀ f history a offset out, offsetAfter f history = some offset →
    attemptSend (labelVec 0 (f.on a).vec) offset a.calls = some out →
    Whole (f.on a).bytes.zipIdx out := by
  intro h
  obtain ⟨out, hout, hlength⟩ : ∃ out, attemptSend (labelVec 0 (shortRequest.on ⟨7, 1, []⟩).vec) 5
      [[.sent 23]] = some out ∧ out.written.length = 23 ∧ out.finished = true :=
    ⟨_, rfl, by decide⟩
  have hwhole := h shortRequest [⟨1, 0, [[.sent 5, .error .eagain]]⟩] ⟨7, 1, [[.sent 23]]⟩ 5 out
    (by decide) hout
  have hall := congrArg List.length (hwhole.2 hlength.2)
  rw [hlength.1] at hall
  revert hall
  decide

end PowerFS.Net
