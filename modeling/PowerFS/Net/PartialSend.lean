import PowerFS.Net.Retry

namespace PowerFS.Net

/-! How a frame reaches the socket in parts: the calls of `pfs_frame_send_nonblock` that
`pfs_process_transmit` makes for one request. The sender never looks at the bytes it sends, so that
a run on bytes is a run on bytes with their positions whose positions were forgotten. -/

section Map

variable {α β : Type*} (g : α → β)

def SendOut.map (out : SendOut α) : SendOut β := ⟨out.written.map g, out.offset, out.ret⟩

def AttemptOut.map (out : AttemptOut α) : AttemptOut β :=
  ⟨out.written.map g, out.offset, out.finished⟩

theorem SendOut.map_append (written : List α) (out : SendOut α) :
    SendOut.map g { out with written := written ++ out.written } =
      { out.map g with written := written.map g ++ (out.map g).written } := by
  simp only [SendOut.map, List.map_append]

theorem AttemptOut.map_append (written : List α) (out : AttemptOut α) :
    AttemptOut.map g { out with written := written ++ out.written } =
      { out.map g with written := written.map g ++ (out.map g).written } := by
  simp only [AttemptOut.map, List.map_append]

theorem skipVec_map (n : Nat) (vec : List (List α)) :
    skipVec n (vec.map (List.map g)) = (skipVec n vec).map (List.map g) := by
  induction vec generalizing n with
  | nil => rfl
  | cons v vec ih =>
    simp only [List.map_cons, skipVec, List.length_map]
    split
    · rfl
    · split
      · rw [ih, List.map_cons, List.map_nil]
      · rw [List.map_cons, List.map_drop]

theorem sendLoop_map (total offset sentTotal : Nat) (vec : List (List α))
    (results : List SendResult) :
    sendLoop total offset (vec.map (List.map g)) sentTotal results =
      (sendLoop total offset vec sentTotal results).map (SendOut.map g) := by
  induction results generalizing vec sentTotal with
  | nil => rfl
  | cons result results ih =>
    cases result with
    | error err =>
      simp only [sendLoop]
      split
      · exact ih sentTotal vec
      · split <;> rfl
    | sent n =>
      have htake : (vec.map (List.map g)).flatten.take n = (vec.flatten.take n).map g := by
        rw [← List.map_flatten, List.map_take]
      simp only [sendLoop]
      split
      · rfl
      · split
        · split <;> rfl
        · split
          · rw [skipVec_map, ih, htake, Option.map_map, Option.map_map]
            congr 1
            funext out
            exact (out.map_append g _).symm
          · split
            · rfl
            · rw [htake]
              rfl

theorem frameSendNonblock_map (vec : List (List α)) (offset : Nat) (results : List SendResult) :
    frameSendNonblock (vec.map (List.map g)) offset results =
      (frameSendNonblock vec offset results).map (SendOut.map g) := by
  simp only [frameSendNonblock, ← List.map_flatten, List.length_map]
  split
  · split <;> rfl
  · rw [skipVec_map, sendLoop_map]

theorem attemptSend_map (vec : List (List α)) (offset : Nat) (calls : List (List SendResult)) :
    attemptSend (vec.map (List.map g)) offset calls =
      (attemptSend vec offset calls).map (AttemptOut.map g) := by
  induction calls generalizing offset with
  | nil => rfl
  | cons call calls ih =>
    simp only [attemptSend, frameSendNonblock_map]
    cases frameSendNonblock vec offset call with
    | none => rfl
    | some out =>
      obtain ⟨written, next, ret⟩ := out
      cases ret with
      | ok _ =>
        show (if _ then _ else _) = Option.map _ (if _ then _ else _)
        split <;> rfl
      | error err =>
        show (if _ then _ else _) = Option.map _ (if _ then _ else _)
        split
        · rw [ih, Option.map_map, Option.map_map]
          congr 1
          funext rest
          exact (rest.map_append g _).symm
        · split <;> rfl

end Map

theorem map_fst_labelVec (start : Nat) (vec : List (List UInt8)) :
    (labelVec start vec).map (List.map Prod.fst) = vec := by
  induction vec generalizing start with
  | nil => rfl
  | cons v vec ih => rw [labelVec, List.map_cons, ih, List.zipIdx_map_fst]

/-- The socket has accepted the header, then the body, then the data, each byte once and in order
as far as the calls came, and all of it if the frame counts as sent. -/
def SentInOrder (f : Frame) (calls : List (List SendResult)) (out : AttemptOut UInt8) : Prop :=
  ∃ placed, attemptSend (labelVec 0 f.vec) 0 calls = some placed ∧ placed.map Prod.fst = out ∧
    Whole (hdrEncode f ++ f.body ++ f.data).zipIdx placed

section InOrder

variable {f : Frame} {calls : List (List SendResult)} {out : AttemptOut UInt8}

theorem exists_placed (h : attemptSend f.vec 0 calls = some out) :
    ∃ placed, attemptSend (labelVec 0 f.vec) 0 calls = some placed ∧
      placed.map Prod.fst = out := by
  rw [← map_fst_labelVec 0 f.vec, attemptSend_map] at h
  exact Option.map_eq_some_iff.mp h

theorem SentInOrder.written_eq (h : SentInOrder f calls out) (hfinished : out.finished = true) :
    out.written = hdrEncode f ++ f.body ++ f.data := by
  obtain ⟨placed, _, rfl, _, hall⟩ := h
  show placed.written.map Prod.fst = _
  rw [hall hfinished, List.zipIdx_map_fst]

end InOrder

/-- The calls for a new request put its frame on the socket in order if and only if none sends after
one that has sent something and then run out of memory. -/
theorem sentInOrder_iff (f : Frame) (calls : List (List SendResult)) (out : AttemptOut UInt8)
    (h : attemptSend f.vec 0 calls = some out) : SentInOrder f calls out ↔ Kept calls := by
  obtain ⟨placed, hplaced, hout⟩ := exists_placed h
  have hfits := attemptSend_fits_iff (flatten_labelVec 0 f.vec) f.length_pos f.length_pos hplaced
  have hwhole : Whole (hdrEncode f ++ f.body ++ f.data).zipIdx placed ↔ Kept calls := by
    rw [← f.bytes_eq]
    exact hfits.trans (and_iff_right (.inl rfl))
  rw [← hwhole]
  constructor
  · rintro ⟨placed', hplaced', _, h⟩
    cases hplaced.symm.trans hplaced'
    exact h
  · intro h
    exact ⟨placed, hplaced, hout, h⟩

def writeRequest : Frame := ⟨0x0030, 7, 1, [10, 11, 12], [20, 21]⟩

/-- The header is split, then the body; memory is short only before anything is sent. -/
def inFourCalls : List (List SendResult) :=
  [[.sent 5, .error .eintr, .sent 20, .error .eagain], [.error .enomem],
    [.error .eintr, .sent 4, .error .eagain], [.sent 4]]

theorem sentInOrder_inFourCalls : ∃ out,
    attemptSend writeRequest.vec 0 inFourCalls = some out ∧ out.finished = true ∧
    SentInOrder writeRequest inFourCalls out := by
  obtain ⟨out, hout, hfinished⟩ : ∃ out, attemptSend writeRequest.vec 0 inFourCalls = some out ∧
      out.finished = true := ⟨_, rfl, rfl⟩
  refine ⟨out, hout, hfinished, (sentInOrder_iff writeRequest inFourCalls out hout).mpr ?_⟩
  decide

/-- Ten bytes of the header are sent before memory runs out: `send_offset` stays 0, and the next
call sends them again. -/
theorem not_sentInOrder : ¬ ∀ f calls out, attemptSend f.vec 0 calls = some out →
    SentInOrder f calls out := by
  intro h
  obtain ⟨out, hout, hfinished, hlength⟩ : ∃ out,
      attemptSend shortRequest.vec 0 [[.sent 10, .error .enomem], [.sent 28]] = some out ∧
        out.finished = true ∧ out.written.length = 38 := ⟨_, rfl, rfl, by decide⟩
  have hall := (h _ _ out hout).written_eq hfinished
  rw [hall] at hlength
  revert hlength
  decide

end PowerFS.Net
