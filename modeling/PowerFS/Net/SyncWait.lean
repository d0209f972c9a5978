import PowerFS.Errno
import PowerFS.Lib.Runs

namespace PowerFS.Net

/-! A synchronous `powerfs_request_do_send` from the moment its request is in `pending_reqs` and
`req_tree`, next to the response dispatcher, a failing send and a disconnect. -/

structure Response where
  seq : UInt32
  status : UInt16
  body : List UInt8
  data : List UInt8
  deriving DecidableEq

/-- Where `pfs_rx_dispatch` stands with a response that matched the request: before it fills in the
status, the body, the data, and before `powerfs_req_complete`. -/
inductive RxPc where
  | idle
  | status (resp : Response)
  | body (resp : Response)
  | data (resp : Response)
  | complete
  deriving DecidableEq

/-- The dispatcher has not copied the whole response yet. -/
def RxPc.midway : RxPc → Bool
  | .status _ | .body _ | .data _ => true
  | .idle | .complete => false

/-- Where the waiter stands: in `wait_for_completion_killable_timeout`, before and after its cleanup
under `req_lock`, and back in the caller with `req->error`. -/
inductive WaitPc where
  | waiting
  | leaving (err : Errno)
  | woken
  | left
  | returned (error : Option Errno)
  deriving DecidableEq

/-- `linked`: in `pending_reqs` and `req_tree`; `spliced`: on the list of a disconnect; `cancel`:
taken by a failed send or a disconnect and not completed. `error` is `none` for 0; `received` is the
response found for the request. -/
structure WaitState where
  seq : UInt32
  linked : Bool
  spliced : Bool
  cancel : Bool
  error : Option Errno
  status : UInt16
  body : List UInt8
  data : List UInt8
  done : Bool
  rx : RxPc
  waiter : WaitPc
  received : Option Response
  deriving DecidableEq

/-- A response arrives, the dispatcher goes on, a send fails, the connection breaks (two steps), who
took the request completes it, the waiter times out, is killed or woken, and goes on. -/
inductive WaitEvent where
  | receive (resp : Response)
  | dispatch
  | sendFails
  | disconnect
  | delist
  | cancelDone
  | timeout
  | kill
  | wake
  | cleanup
  | ret

/-- A segment of the response goes to a buffer of this size, if there is one: the copy, and whether
it was too long. -/
def copySegment (cap : Option Nat) (bytes : List UInt8) : List UInt8 × Bool :=
  match cap with
  | none => ([], false)
  | some cap => if cap < bytes.length then ([], true) else (bytes, false)

section Steps

variable (bodyCap dataCap : Option Nat)

/-- One event; `none` if it cannot happen. -/
def waitExec (s : WaitState) : WaitEvent → Option WaitState
  | .receive resp =>
    if s.rx ≠ .idle then none
    else if s.linked && resp.seq = s.seq then
      some { s with linked := false, rx := .status resp, received := some resp }
    else some s
  | .dispatch =>
    match s.rx with
    | .idle => none
    | .status resp =>
      some { s with status := resp.status, error := none, body := [], rx := .body resp }
    | .body resp =>
      let (body, long) := copySegment bodyCap resp.body
      some { s with
        error := if long then some .e2big else s.error
        body := body
        data := []
        rx := .data resp }
    | .data resp =>
      let (data, long) := copySegment dataCap resp.data
      some { s with
        error := if long then some .e2big else s.error
        data := data
        rx := .complete }
    | .complete => some { s with done := true, rx := .idle }
  | .sendFails =>
    if s.linked then some { s with linked := false, error := some .enotconn, cancel := true }
    else some s
  | .disconnect =>
    if s.linked then
      some { s with linked := false, spliced := true, error := some .enotconn, cancel := true }
    else some s
  | .delist => if s.spliced then some { s with spliced := false } else none
  | .cancelDone =>
    if s.cancel && !s.spliced then some { s with cancel := false, done := true } else none
  | .timeout =>
    if s.waiter = .waiting ∧ s.done = false then some { s with waiter := .leaving .etimedout }
    else none
  | .kill =>
    if s.waiter = .waiting ∧ s.done = false then some { s with waiter := .leaving .eintr } else none
  | .wake => if s.waiter = .waiting ∧ s.done = true then some { s with waiter := .woken } else none
  | .cleanup =>
    match s.waiter with
    | .leaving err =>
      if s.linked || s.spliced then
        some { s with linked := false, spliced := false, error := some err, waiter := .left }
      else some { s with waiter := .left }
    | .woken => some { s with linked := false, spliced := false, waiter := .left }
    | _ => none
  | .ret =>
    match s.waiter with
    | .left => some { s with waiter := .returned s.error }
    | _ => none

/-- The status, body and data of a response with the request's sequence number are in the
request. -/
def Copied (s : WaitState) : Prop :=
  ∃ resp, s.received = some resp ∧ resp.seq = s.seq ∧ s.status = resp.status ∧
    s.body = (if bodyCap = none then [] else resp.body) ∧
    s.data = (if dataCap = none then [] else resp.data)

/-- `powerfs_request_do_send` has returned 0 only with a response. -/
def NoPhantom (s : WaitState) : Prop := s.waiter = .returned none → Copied bodyCap dataCap s

end Steps

/-- The request was just linked, with the error of an earlier attempt cleared. -/
structure WaitInit (s : WaitState) : Prop where
  linked : s.linked = true
  spliced : s.spliced = false
  cancel : s.cancel = false
  error : s.error = none
  done : s.done = false
  rx : s.rx = .idle
  waiter : s.waiter = .waiting
  received : s.received = none

/-- The condition: the waiter does not return while the dispatcher is copying the response. -/
def WaitOk (s : WaitState) : WaitEvent → Prop
  | .ret => s.rx.midway = false
  | _ => True

instance decidableWaitOk (s : WaitState) : (e : WaitEvent) → Decidable (WaitOk s e)
  | .ret => inferInstanceAs (Decidable (s.rx.midway = false))
  | .receive _ | .dispatch | .sendFails | .disconnect | .delist | .cancelDone | .timeout | .kill
  | .wake | .cleanup => inferInstanceAs (Decidable True)

section Invariant

variable {bodyCap dataCap : Option Nat} {s s' : WaitState}

/-- What arrives in the request from a segment that is not too long. -/
def segment (cap : Option Nat) (bytes : List UInt8) : List UInt8 :=
  if cap = none then [] else bytes

theorem copySegment_fits {cap : Option Nat} {bytes : List UInt8} {error : Option Errno}
    (h : (if (copySegment cap bytes).2 then some Errno.e2big else error) = none) :
    (copySegment cap bytes).2 = false ∧ error = none := by
  split at h
  · cases h
  · next hfits => exact ⟨Bool.eq_false_iff.mpr hfits, h⟩

theorem copySegment_of_fits {cap : Option Nat} {bytes : List UInt8}
    (h : (copySegment cap bytes).2 = false) : (copySegment cap bytes).1 = segment cap bytes := by
  cases cap with
  | none => rfl
  | some cap =>
    simp only [copySegment] at h ⊢
    split
    · next hlong => simp [hlong] at h
    · rfl

/-- How much of the response the request has, as far as the dispatcher has come. -/
def Progress (bodyCap dataCap : Option Nat) (s : WaitState) (resp : Response) : RxPc → Prop
  | .status r => r = resp
  | .body r => r = resp ∧ s.status = resp.status
  | .data r =>
    r = resp ∧ s.status = resp.status ∧ (s.error = none → s.body = segment bodyCap resp.body)
  | .complete | .idle =>
    s.status = resp.status ∧ (s.error = none → s.body = segment bodyCap resp.body ∧
      s.data = segment dataCap resp.data)

/-- Whoever takes the request off its list sets an error or has a response for it. -/
structure WaitInv (bodyCap dataCap : Option Nat) (s : WaitState) : Prop where
  unanswered : s.received = none → s.rx = .idle ∧ (s.linked = true ∨ s.error ≠ none)
  answered : ∀ resp, s.received = some resp →
    resp.seq = s.seq ∧ s.linked = false ∧ Progress bodyCap dataCap s resp s.rx
  cancel : s.cancel = true → s.linked = false
  done : s.done = true → s.linked = false
  woken : s.waiter = .woken → s.linked = false
  left : s.waiter = .left → s.linked = false
  returned : s.waiter = .returned none →
    s.linked = false ∧ s.error = none ∧ s.rx.midway = false

theorem WaitInit.inv (h : WaitInit s) : WaitInv bodyCap dataCap s where
  unanswered _ := ⟨h.rx, .inl h.linked⟩
  answered resp hresp := by
    rw [h.received] at hresp
    cases hresp
  cancel hcancel := by
    rw [h.cancel] at hcancel
    cases hcancel
  done hdone := by
    rw [h.done] at hdone
    cases hdone
  woken hwoken := by
    rw [h.waiter] at hwoken
    cases hwoken
  left hleft := by
    rw [h.waiter] at hleft
    cases hleft
  returned hreturned := by
    rw [h.waiter] at hreturned
    cases hreturned

section

variable (h : WaitInv bodyCap dataCap s)
include h

theorem WaitInv.safe : NoPhantom bodyCap dataCap s := by
  intro hreturned
  obtain ⟨hlinked, herror, hrx⟩ := h.returned hreturned
  cases hreceived : s.received with
  | none =>
    obtain hpending | hset := (h.unanswered hreceived).2
    · cases hlinked.symm.trans hpending
    · exact absurd herror hset
  | some resp =>
    obtain ⟨hseq, _, hprogress⟩ := h.answered resp hreceived
    have hall : s.status = resp.status ∧ (s.error = none →
        s.body = segment bodyCap resp.body ∧ s.data = segment dataCap resp.data) := by
      cases hpc : s.rx with
      | idle | complete =>
        rw [hpc] at hprogress
        exact hprogress
      | status r | body r | data r =>
        rw [hpc] at hrx
        cases hrx
    exact ⟨resp, hreceived, hseq, hall.1, (hall.2 herror).1, (hall.2 herror).2⟩

theorem WaitInv.not_linked (hlinked : s.linked = true) :
    s.received = none ∧ s.waiter ≠ .woken ∧ s.waiter ≠ .left ∧ s.waiter ≠ .returned none := by
  refine ⟨?_, fun hw => ?_, fun hw => ?_, fun hw => ?_⟩
  · cases hreceived : s.received with
    | none => rfl
    | some resp => cases hlinked.symm.trans (h.answered resp hreceived).2.1
  · cases hlinked.symm.trans (h.woken hw)
  · cases hlinked.symm.trans (h.left hw)
  · cases hlinked.symm.trans (h.returned hw).1

theorem WaitInv.receive {resp : Response} (hlinked : s.linked = true) (hseq : resp.seq = s.seq) :
    WaitInv bodyCap dataCap
      { s with linked := false, rx := .status resp, received := some resp } := by
  obtain ⟨_, _, _, hreturned⟩ := h.not_linked hlinked
  refine ⟨nofun, ?_, fun _ => rfl, fun _ => rfl, fun _ => rfl, fun _ => rfl,
    fun hw => absurd hw hreturned⟩
  rintro _ ⟨⟩
  exact ⟨hseq, rfl, rfl⟩

theorem WaitInv.cancelled (hlinked : s.linked = true) (spliced : Bool) :
    WaitInv bodyCap dataCap
      { s with linked := false, spliced := spliced, error := some .enotconn, cancel := true } := by
  obtain ⟨hreceived, _, _, hreturned⟩ := h.not_linked hlinked
  refine ⟨fun hnone => ⟨(h.unanswered hnone).1, .inr nofun⟩, fun resp hresp => ?_, fun _ => rfl,
    fun _ => rfl, fun _ => rfl, fun _ => rfl, fun hw => absurd hw hreturned⟩
  cases hreceived.symm.trans hresp

theorem WaitInv.dispatch {resp : Response} {rx : RxPc}
    (hmidway : s.rx.midway = true) (hreceived : s.received = some resp) (hrx : s'.rx = rx)
    (hkeep : s'.received = s.received ∧ s'.seq = s.seq ∧ s'.linked = s.linked ∧
      s'.cancel = s.cancel ∧ s'.done = s.done ∧ s'.waiter = s.waiter)
    (hprogress : Progress bodyCap dataCap s' resp rx) : WaitInv bodyCap dataCap s' := by
  obtain ⟨hsame, hseq, hlinked, hcancel, hdone, hwaiter⟩ := hkeep
  have hold := h.answered resp hreceived
  refine ⟨fun hnone => ?_, fun resp' hresp' => ?_, ?_, ?_, ?_, ?_, fun hw => ?_⟩
  · cases hreceived.symm.trans (hsame.symm.trans hnone)
  · cases hreceived.symm.trans (hsame.symm.trans hresp')
    rw [hseq, hlinked, hrx]
    exact ⟨hold.1, hold.2.1, hprogress⟩
  · rw [hcancel, hlinked]
    exact h.cancel
  · rw [hdone, hlinked]
    exact h.done
  · rw [hwaiter, hlinked]
    exact h.woken
  · rw [hwaiter, hlinked]
    exact h.left
  · rw [hwaiter] at hw
    cases hmidway.symm.trans (h.returned hw).2.2

end

theorem Progress.set_error {resp : Response} {rx : RxPc} (h : Progress bodyCap dataCap s resp rx)
    (hstatus : s'.status = s.status) (herror : s'.error ≠ none) :
    Progress bodyCap dataCap s' resp rx := by
  cases rx with
  | status r => exact h
  | body r => exact ⟨h.1, hstatus.trans h.2⟩
  | data r => exact ⟨h.1, hstatus.trans h.2.1, fun hnone => absurd hnone herror⟩
  | complete | idle => exact ⟨hstatus.trans h.1, fun hnone => absurd hnone herror⟩

section

variable (h : WaitInv bodyCap dataCap s)
include h

theorem WaitInv.step_dispatch
    (hs : waitExec bodyCap dataCap s .dispatch = some s') : WaitInv bodyCap dataCap s' := by
  cases hreceived : s.received with
  | none =>
    rw [waitExec, (h.unanswered hreceived).1] at hs
    cases hs
  | some resp =>
    obtain ⟨_, hlinked, hprogress⟩ := h.answered resp hreceived
    simp only [waitExec] at hs
    cases hrx : s.rx with
    | idle =>
      rw [hrx] at hs
      cases hs
    | status r =>
      rw [hrx] at hs hprogress
      cases hs
      cases hprogress
      exact h.dispatch (by rw [hrx]; rfl) hreceived rfl ⟨rfl, rfl, rfl, rfl, rfl, rfl⟩ ⟨rfl, rfl⟩
    | body r =>
      rw [hrx] at hs hprogress
      cases hs
      obtain ⟨rfl, hstatus⟩ := hprogress
      refine h.dispatch (by rw [hrx]; rfl) hreceived rfl ⟨rfl, rfl, rfl, rfl, rfl, rfl⟩
        ⟨rfl, hstatus, fun herror => ?_⟩
      exact copySegment_of_fits (copySegment_fits herror).1
    | data r =>
      rw [hrx] at hs hprogress
      cases hs
      obtain ⟨rfl, hstatus, hbody⟩ := hprogress
      refine h.dispatch (by rw [hrx]; rfl) hreceived rfl ⟨rfl, rfl, rfl, rfl, rfl, rfl⟩
        ⟨hstatus, fun herror => ?_⟩
      obtain ⟨hfits, hnone⟩ := copySegment_fits herror
      exact ⟨hbody hnone, copySegment_of_fits hfits⟩
    | complete =>
      rw [hrx] at hs hprogress
      cases hs
      refine ⟨fun hnone => ?_, fun resp' hresp' => ?_, h.cancel, fun _ => hlinked, h.woken, h.left,
        fun hw => ⟨(h.returned hw).1, (h.returned hw).2.1, rfl⟩⟩
      · cases hreceived.symm.trans hnone
      · cases hreceived.symm.trans hresp'
        exact ⟨(h.answered resp hreceived).1, hlinked, hprogress⟩

theorem WaitInv.giveUp (err : Errno) :
    WaitInv bodyCap dataCap
      { s with linked := false, spliced := false, error := some err, waiter := .left } := by
  refine ⟨fun hnone => ⟨(h.unanswered hnone).1, .inr nofun⟩, fun resp hresp => ?_, fun _ => rfl,
    fun _ => rfl, nofun, fun _ => rfl, nofun⟩
  obtain ⟨hseq, _, hprogress⟩ := h.answered resp hresp
  exact ⟨hseq, rfl, hprogress.set_error rfl nofun⟩

theorem WaitInv.leave (hlinked : s.linked = false) (spliced : Bool) :
    WaitInv bodyCap dataCap { s with linked := false, spliced := spliced, waiter := .left } := by
  refine ⟨fun hnone => ?_, fun resp hresp => ?_, fun _ => rfl, fun _ => rfl, nofun, fun _ => rfl,
    nofun⟩
  · have hpending : s.linked ≠ true := by simp [hlinked]
    exact ⟨(h.unanswered hnone).1, .inr ((h.unanswered hnone).2.resolve_left hpending)⟩
  · obtain ⟨hseq, _, hprogress⟩ := h.answered resp hresp
    exact ⟨hseq, rfl, hprogress⟩

theorem WaitInv.step {e : WaitEvent} (hok : WaitOk s e)
    (hs : waitExec bodyCap dataCap s e = some s') : WaitInv bodyCap dataCap s' := by
  cases e with simp only [waitExec] at hs
  | receive resp =>
    split at hs <;> try cases hs
    split at hs
    · next hmatch =>
      cases hs
      obtain ⟨hlinked, hseq⟩ : s.linked = true ∧ resp.seq = s.seq := by simpa using hmatch
      exact h.receive hlinked hseq
    · cases hs
      exact h
  | dispatch => exact h.step_dispatch hs
  | sendFails =>
    split at hs
    · next hlinked =>
      cases hs
      exact h.cancelled hlinked s.spliced
    · cases hs
      exact h
  | disconnect =>
    split at hs
    · next hlinked =>
      cases hs
      exact h.cancelled hlinked true
    · cases hs
      exact h
  | delist =>
    split at hs <;> cases hs
    exact ⟨h.unanswered, h.answered, h.cancel, h.done, h.woken, h.left, h.returned⟩
  | cancelDone =>
    split at hs <;> cases hs
    next hcancel =>
      have hlinked : s.linked = false := h.cancel (Bool.and_eq_true_iff.mp hcancel).1
      exact ⟨h.unanswered, h.answered, nofun, fun _ => hlinked, h.woken, h.left, h.returned⟩
  | timeout | kill =>
    split at hs <;> cases hs
    exact ⟨h.unanswered, h.answered, h.cancel, h.done, nofun, nofun, nofun⟩
  | wake =>
    split at hs <;> cases hs
    next hdone =>
      have hlinked : s.linked = false := h.done hdone.2
      exact ⟨h.unanswered, h.answered, h.cancel, h.done, fun _ => hlinked, nofun, nofun⟩
  | cleanup =>
    split at hs
    · next err hw =>
      split at hs
      · cases hs
        exact h.giveUp err
      · next hnot =>
        cases hs
        have hlinked : s.linked = false := by
          cases hl : s.linked with
          | false => rfl
          | true => simp [hl] at hnot
        have hleft := h.leave hlinked s.spliced
        rwa [← hlinked] at hleft
    · next hw =>
      cases hs
      exact h.leave (h.woken hw) false
    · cases hs
  | ret =>
    split at hs <;> cases hs
    next hw =>
    refine ⟨h.unanswered, h.answered, h.cancel, h.done, nofun, nofun, fun hreturned => ?_⟩
    exact ⟨h.left hw, by simpa using hreturned, hok⟩

end

end Invariant

/-- If the waiter never returns while the dispatcher is copying, it returns 0 only with a complete
response. -/
theorem noPhantom_of_waitOk {bodyCap dataCap : Option Nat} {s : WaitState}
    (h : Runs.Reach (fun s e s' => waitExec bodyCap dataCap s e = some s') WaitOk WaitInit s) :
    NoPhantom bodyCap dataCap s :=
  (h.invariant (fun _ hinit => hinit.inv) fun _ _ _ hinv hok hs => hinv.step hok hs).safe

def sentRequest : WaitState where
  seq := 7
  linked := true
  spliced := false
  cancel := false
  error := none
  status := 0
  body := []
  data := []
  done := false
  rx := .idle
  waiter := .waiting
  received := none

theorem sentRequest_init : WaitInit sentRequest := ⟨rfl, rfl, rfl, rfl, rfl, rfl, rfl, rfl⟩

def refusal : Response where
  seq := 7
  status := 13
  body := [1, 2, 3]
  data := []

/-- The timeout strikes during the copy, and the waiter reads `req->error` after it. -/
theorem noPhantom_of_waitOk_lateTimeout :
    ∃ s, Runs.Reach (fun s e s' => waitExec (some 16) none s e = some s') WaitOk WaitInit s ∧
      s.waiter = .returned none ∧ Copied (some 16) none s := by
  obtain ⟨s, hrun, hwaiter⟩ : ∃ s,
      [WaitEvent.receive refusal, .dispatch, .timeout, .dispatch, .cleanup, .dispatch,
        .ret].foldlM (waitExec (some 16) none) sentRequest = some s ∧
      s.waiter = .returned none := ⟨_, rfl, rfl⟩
  have hreach : Runs.Reach (fun s e s' => waitExec (some 16) none s e = some s') WaitOk
      WaitInit s := Runs.Reach.of_run (.start sentRequest_init) (by decide) hrun
  exact ⟨s, hreach, hwaiter, noPhantom_of_waitOk hreach hwaiter⟩

/-- The timeout strikes between the dispatcher's lookup and its copy: the request is on no list, so
no error is set, and the caller gets 0 for a request that the server has refused. -/
theorem not_noPhantom_runs :
    ¬ ∀ s, Runs.Reach (fun s e s' => waitExec (some 16) none s e = some s') (fun _ _ => True)
      WaitInit s → NoPhantom (some 16) none s := by
  intro hall
  obtain ⟨s, hrun, hwaiter, hreceived, hstatus⟩ : ∃ s,
      [WaitEvent.receive refusal, .timeout, .cleanup, .ret].foldlM (waitExec (some 16) none)
        sentRequest = some s ∧
      s.waiter = .returned none ∧ s.received = some refusal ∧ s.status = 0 :=
    ⟨_, rfl, rfl, rfl, rfl⟩
  have hreach := Runs.Reach.run sentRequest_init hrun
  obtain ⟨resp, hresp, _, hcopied, _⟩ := hall s hreach hwaiter
  cases hreceived.symm.trans hresp
  rw [hstatus] at hcopied
  exact absurd hcopied (by decide)

end PowerFS.Net
