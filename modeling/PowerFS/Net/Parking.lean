import PowerFS.Errno
import PowerFS.Lib.Runs

namespace PowerFS.Net

/-! A request that `powerfs_request_submit` puts on the `pending_reqs` of its shard, next to the
threads that empty the list (`powerfs_shard_route_dispatch_pending` and
`powerfs_shard_route_on_filer_reconnect`). -/

/-- `POWERFS_REQ_MAX_EAGAIN_RETRIES`. -/
def maxEagainRetries : Nat := 8

/-- How `wait_for_completion_killable_timeout` returned. -/
inductive WaitResult where
  | completed | timedOut | killed
  deriving DecidableEq

/-- Where the submitter stands: before `list_add_tail`, between it and `reinit_completion`, in the
wait, before and after it takes the request off the list, and back in the caller. -/
inductive ParkPc where
  | choosing
  | published
  | waiting
  | leaving (result : WaitResult)
  | left (result : WaitResult)
  | returned (error : Option Errno)
  deriving DecidableEq

/-- `listed`: on `pending_reqs`; `spliced`: on a dispatcher's own list. `taken` are the dispatchers
that have taken it off that list and not completed it: in which round, and whether they have set
`req->error`. `done` is the counter of the completion; `signalled`: completed in this round and the
wait has not returned since. -/
structure ParkState where
  round : Nat
  listed : Bool
  spliced : Bool
  taken : List (Nat × Bool)
  done : Nat
  error : Option Errno
  retries : Nat
  waiter : ParkPc
  signalled : Bool
  deriving DecidableEq

inductive ParkEvent where
  | publish
  | reinit
  | splice
  | delist
  | setError (i : Nat)
  | complete (i : Nat)
  | wake
  | timeout
  | kill
  | remove
  | resume
  deriving DecidableEq

def resumeSubmit (s : ParkState) (result : WaitResult) : ParkState :=
  if result = .killed then { s with error := some .eintr, waiter := .returned (some .eintr) }
  else if result = .timedOut ∧ s.error = none then
    { s with error := some .etimedout, waiter := .returned (some .etimedout) }
  else if s.error = some .eagain then
    if maxEagainRetries < s.retries + 1 then
      { s with retries := s.retries + 1, waiter := .returned (some .eagain) }
    else { s with retries := s.retries + 1, error := none, waiter := .choosing }
  else { s with waiter := .returned s.error }

/-- One event; `none` if it cannot happen. -/
def parkExec (s : ParkState) : ParkEvent → Option ParkState
  | .publish =>
    if s.waiter = .choosing then
      some { s with round := s.round + 1, listed := true, waiter := .published }
    else none
  | .reinit =>
    if s.waiter = .published then some { s with done := 0, waiter := .waiting } else none
  | .splice => if s.listed then some { s with listed := false, spliced := true } else none
  | .delist =>
    if s.spliced then some { s with spliced := false, taken := (s.round, false) :: s.taken }
    else none
  | .setError i =>
    match s.taken[i]? with
    | some (round, false) =>
      some { s with taken := s.taken.set i (round, true), error := some .eagain }
    | _ => none
  | .complete i =>
    match s.taken[i]? with
    | some (round, true) =>
      some { s with
        taken := s.taken.eraseIdx i
        done := s.done + 1
        signalled := s.signalled ||
          (round = s.round && (s.waiter = .published || s.waiter = .waiting)) }
    | _ => none
  | .wake =>
    if s.waiter = .waiting ∧ 0 < s.done then
      some { s with done := s.done - 1, waiter := .leaving .completed, signalled := false }
    else none
  | .timeout =>
    if s.waiter = .waiting ∧ s.done = 0 then
      some { s with waiter := .leaving .timedOut, signalled := false }
    else none
  | .kill =>
    if s.waiter = .waiting ∧ s.done = 0 then
      some { s with waiter := .leaving .killed, signalled := false }
    else none
  | .remove =>
    match s.waiter with
    | .leaving result => some { s with listed := false, spliced := false, waiter := .left result }
    | _ => none
  | .resume =>
    match s.waiter with
    | .left result => some (resumeSubmit s result)
    | _ => none

/-- A completion that a dispatcher has signalled is there until the wait returns, and makes it
return. -/
structure ParkSafe (s : ParkState) : Prop where
  kept : s.signalled = true → 0 < s.done
  returns : s.signalled = true → s.waiter = .waiting →
    ∃ s', parkExec s .wake = some s' ∧ s'.waiter = .leaving .completed

/-- The submitter has not parked the request yet. -/
structure ParkInit (s : ParkState) : Prop where
  listed : s.listed = false
  spliced : s.spliced = false
  taken : s.taken = []
  waiter : s.waiter = .choosing
  signalled : s.signalled = false

/-- The condition: no dispatcher completes the request between its insertion and
`reinit_completion`. -/
def ParkOk (s : ParkState) : ParkEvent → Prop
  | .complete i => s.waiter = .published → s.taken[i]? ≠ some (s.round, true)
  | .publish | .reinit | .splice | .delist | .setError _ | .wake | .timeout | .kill | .remove
  | .resume => True

instance decidableParkOk (s : ParkState) : (e : ParkEvent) → Decidable (ParkOk s e)
  | .complete i => inferInstanceAs
      (Decidable (s.waiter = .published → s.taken[i]? ≠ some (s.round, true)))
  | .publish | .reinit | .splice | .delist | .setError _ | .wake | .timeout | .kill | .remove
  | .resume => inferInstanceAs (Decidable True)

section Invariant

variable {s s' : ParkState}

def ParkInv (s : ParkState) : Prop := s.signalled = true → s.waiter = .waiting ∧ 0 < s.done

theorem ParkInit.inv (h : ParkInit s) : ParkInv s := by
  intro hsig
  cases h.signalled.symm.trans hsig

theorem ParkInv.safe (h : ParkInv s) : ParkSafe s := by
  refine ⟨fun hsig => (h hsig).2, fun hsig hwait => ?_⟩
  refine ⟨{ s with done := s.done - 1, waiter := .leaving .completed, signalled := false }, ?_, rfl⟩
  rw [parkExec, if_pos ⟨hwait, (h hsig).2⟩]

theorem ParkInv.not_signalled (h : ParkInv s) (hpc : s.waiter ≠ .waiting) : s.signalled = false := by
  cases hsig : s.signalled with
  | false => rfl
  | true => exact absurd (h hsig).1 hpc

theorem resumeSubmit_signalled (s : ParkState) (result : WaitResult) :
    (resumeSubmit s result).signalled = s.signalled := by
  rw [resumeSubmit]
  split
  · rfl
  · split
    · rfl
    · split
      · split <;> rfl
      · rfl

/-- The dispatcher's `complete`: the submitter is in its wait, or this is not its round. -/
theorem ParkInv.complete (h : ParkInv s) {i round : Nat} (htaken : s.taken[i]? = some (round, true))
    (hok : ParkOk s (.complete i)) : ParkInv { s with
      taken := s.taken.eraseIdx i
      done := s.done + 1
      signalled := s.signalled ||
        (round = s.round && (s.waiter = .published || s.waiter = .waiting)) } := by
  intro hsig
  refine ⟨?_, Nat.succ_pos _⟩
  simp only [Bool.or_eq_true, Bool.and_eq_true, decide_eq_true_eq] at hsig
  obtain hold | ⟨rfl, hpublished | hwaiting⟩ := hsig
  · exact (h hold).1
  · exact absurd htaken (hok hpublished)
  · exact hwaiting

theorem ParkInv.step {e : ParkEvent} (h : ParkInv s) (hok : ParkOk s e)
    (hs : parkExec s e = some s') : ParkInv s' := by
  cases e with simp only [parkExec] at hs
  | publish | reinit | remove =>
    split at hs <;> cases hs
    next hpc =>
    intro hsig
    cases (h.not_signalled (by simp [hpc])).symm.trans hsig
  | splice | delist | setError =>
    split at hs <;> cases hs
    exact h
  | complete i =>
    split at hs <;> cases hs
    next htaken => exact h.complete htaken hok
  | wake | timeout | kill =>
    split at hs <;> cases hs
    exact fun hsig => absurd hsig Bool.false_ne_true
  | resume =>
    split at hs <;> cases hs
    next hpc =>
    intro hsig
    rw [resumeSubmit_signalled] at hsig
    cases (h.not_signalled (by simp [hpc])).symm.trans hsig

end Invariant

/-- In every run that meets the condition a signalled completion is kept and ends the wait. -/
theorem parkSafe_of_parkOk {s : ParkState}
    (h : Runs.Reach (fun s e s' => parkExec s e = some s') ParkOk ParkInit s) : ParkSafe s :=
  (h.invariant (fun _ hinit => hinit.inv) fun _ _ _ hinv hok hs => hinv.step hok hs).safe

def freshRequest : ParkState := ⟨0, false, false, [], 0, none, 0, .choosing, false⟩

theorem freshRequest_init : ParkInit freshRequest := ⟨rfl, rfl, rfl, rfl, rfl⟩

/-- The dispatcher takes the request while the submitter has not come to its wait yet, and completes
it there. -/
def dispatchInWait : List ParkEvent :=
  [.publish, .splice, .delist, .reinit, .setError 0, .complete 0]

theorem parkSafe_dispatchInWait : ∃ s, dispatchInWait.foldlM parkExec freshRequest = some s ∧
    s.signalled = true ∧ ParkSafe s := by
  obtain ⟨s, hrun, hsig⟩ : ∃ s, dispatchInWait.foldlM parkExec freshRequest = some s ∧
    s.signalled = true := ⟨_, rfl, rfl⟩
  exact ⟨s, hrun, hsig,
    parkSafe_of_parkOk (Runs.Reach.of_run (.start freshRequest_init) (by decide) hrun)⟩

/-- The dispatcher is done with the request before the submitter calls `reinit_completion`. -/
def dispatchBeforeReinit : List ParkEvent :=
  [.publish, .splice, .delist, .setError 0, .complete 0, .reinit]

theorem not_parkSafe_runs : ¬ ∀ s,
    Runs.Reach (fun s e s' => parkExec s e = some s') (fun _ _ => True) ParkInit s →
      ParkSafe s := by
  intro hall
  obtain ⟨s, hrun, hsig, hdone⟩ : ∃ s, dispatchBeforeReinit.foldlM parkExec freshRequest = some s ∧
    s.signalled = true ∧ s.done = 0 := ⟨_, rfl, rfl, rfl⟩
  have hsafe := hall s (.run freshRequest_init hrun)
  have hpos := hsafe.kept hsig
  omega

end PowerFS.Net
