import PowerFS.Lib.Runs
import Mathlib.Logic.Function.Basic

namespace PowerFS.Net

/-! One asynchronous request, from `powerfs_request_do_send` to the callback that frees it. The
response dispatcher, the TX thread, a disconnect and the timeout work race to take it out of
`req_tree`, next to a `do_send` that has not returned yet. -/

/-- Who may complete the request. -/
inductive Completer where
  | response
  | sendFails
  | disconnect
  | timeout
  deriving DecidableEq

/-- Where a completer stands: it has taken the request, it is in `cancel_delayed_work_sync` of
`powerfs_req_complete`, it is about to call the callback. -/
inductive CompletePc where
  | idle
  | holding
  | cancelling
  | calling
  deriving DecidableEq

/-- Where `powerfs_request_do_send` stands: before the insertion into `req_tree`, before the one
into `tx_queue`, before the look at `req->deadline`, before `queue_delayed_work`. -/
inductive SubmitPc where
  | start
  | linked
  | queued
  | arming
  | returned
  deriving DecidableEq

/-- The timeout work: its timer runs, or its function runs and has not taken `req_lock` yet. -/
inductive WorkPc where
  | idle
  | pending
  | running
  deriving DecidableEq

/-- `linked`: in `pending_reqs` and `req_tree`; `queued`: in `tx_queue`; `sending`: taken from
there. `touched` is an access after the callback, `lateArm` a `queue_delayed_work` after the
completion has looked at `timer_armed`. -/
structure AsyncState where
  deadline : Bool
  linked : Bool
  queued : Bool
  sending : Bool
  timerArmed : Bool
  work : WorkPc
  submitter : SubmitPc
  phase : Completer → CompletePc
  callbacks : Nat
  touched : Bool
  lateArm : Bool

namespace AsyncState

/-- An access to the request. The callback has freed it. -/
def touch (s : AsyncState) : AsyncState := { s with touched := s.touched || 0 < s.callbacks }

def goto (s : AsyncState) (c : Completer) (pc : CompletePc) : AsyncState :=
  { s with phase := Function.update s.phase c pc }

/-- Under `req_lock`: `c` takes the request if it is still in `req_tree`. -/
def takeBy (s : AsyncState) (c : Completer) : AsyncState :=
  if s.linked then { s with linked := false }.goto c .holding else s

/-- `c` is in `powerfs_req_complete`, after the look at `timer_armed`. -/
def Completing (s : AsyncState) (c : Completer) : Prop :=
  s.phase c = .cancelling ∨ s.phase c = .calling

/-- The completion has looked at `timer_armed`. -/
def completed (s : AsyncState) : Bool :=
  0 < s.callbacks || [Completer.response, .sendFails, .disconnect, .timeout].any fun c =>
    s.phase c = .cancelling || s.phase c = .calling

/-- `cancel_delayed_work_sync` has to wait for the function of the work. -/
def workRuns (s : AsyncState) : Bool := s.work = .running || s.phase .timeout ≠ .idle

/-- `powerfs_req_complete` up to the look at `timer_armed`; the timeout work takes the request off
`tx_queue` and clears `timer_armed` before. -/
def lookAtTimer (s : AsyncState) (c : Completer) : AsyncState :=
  let s := if c = .timeout then { s with queued := false, timerArmed := false } else s
  s.goto c (if s.timerArmed then .cancelling else .calling)

/-- The callback with its `powerfs_request_free`, which also cancels a timer that it finds armed and
takes the request off `tx_queue`. -/
def callback (s : AsyncState) (c : Completer) : AsyncState :=
  { s with
    work := if s.timerArmed then .idle else s.work
    timerArmed := false
    queued := false
    callbacks := s.callbacks + 1 }.goto c .idle

end AsyncState

/-- The steps of `do_send` (`link` to `queueWork`), of the TX thread (`take` to `sendFails`), of the
dispatcher and a disconnect (`receive` to `drain`), of the timeout work (`fire`, `expire`) and of a
completer. -/
inductive AsyncEvent where
  | link
  | enqueue
  | arm
  | queueWork
  | take
  | sent
  | again
  | sendFails
  | receive
  | disconnect
  | drain
  | fire
  | expire
  | complete (c : Completer)

/-- One event; `none` if it cannot happen. -/
def asyncExec (s : AsyncState) : AsyncEvent → Option AsyncState
  | .link =>
    if s.submitter = .start then some { s with linked := true, submitter := .linked } else none
  | .enqueue =>
    if s.submitter = .linked then some { s.touch with queued := true, submitter := .queued }
    else none
  | .arm =>
    if s.submitter = .queued then
      if s.deadline then
        some { s.touch with work := .idle, timerArmed := true, submitter := .arming }
      else some { s.touch with submitter := .returned }
    else none
  | .queueWork =>
    if s.submitter = .arming then
      some { s.touch with
        work := .pending, submitter := .returned, lateArm := s.lateArm || s.completed }
    else none
  | .take =>
    if s.queued ∧ s.sending = false ∧ s.phase .sendFails = .idle then
      some { s.touch with queued := false, sending := true }
    else none
  | .sent => if s.sending then some { s.touch with sending := false } else none
  | .again => if s.sending then some { s.touch with sending := false, queued := true } else none
  | .sendFails =>
    if s.sending then some ({ s.touch with sending := false }.takeBy .sendFails) else none
  | .receive => some (s.takeBy .response)
  | .disconnect => some (s.takeBy .disconnect)
  | .drain => if s.queued then some { s.touch with queued := false } else none
  | .fire => if s.work = .pending then some { s.touch with work := .running } else none
  | .expire =>
    if s.work = .running then some ({ s.touch with work := .idle }.takeBy .timeout) else none
  | .complete c =>
    match s.phase c with
    | .idle => none
    | .holding => some (s.touch.lookAtTimer c)
    | .cancelling =>
      if s.workRuns then none
      else some ({ s.touch with work := .idle, timerArmed := false }.goto c .calling)
    | .calling => if s.timerArmed && s.workRuns then none else some (s.touch.callback c)

/-- The callback runs exactly once, and nobody uses the request or arms its timer afterwards. A
request that nobody has taken yet still has its timer. -/
structure AsyncSafe (s : AsyncState) : Prop where
  atMostOnce : s.callbacks ≤ 1
  exactlyOnce : s.submitter ≠ .start → s.linked = false → (∀ c, s.phase c = .idle) →
    s.callbacks = 1
  timed : s.linked = true → s.submitter = .returned → s.deadline = true → s.work ≠ .idle
  untouched : s.touched = false
  notLate : s.lateArm = false

/-- A new request. -/
structure AsyncInit (s : AsyncState) : Prop where
  linked : s.linked = false
  queued : s.queued = false
  sending : s.sending = false
  timerArmed : s.timerArmed = false
  work : s.work = .idle
  submitter : s.submitter = .start
  phase : ∀ c, s.phase c = .idle
  callbacks : s.callbacks = 0
  touched : s.touched = false
  lateArm : s.lateArm = false

/-- The condition: `powerfs_req_complete` is entered only after `do_send` has returned, and the
callback runs only while the TX thread does not have the request. -/
def AsyncOk (s : AsyncState) : AsyncEvent → Prop
  | .complete c =>
    (s.phase c = .holding → s.submitter = .returned) ∧ (s.phase c = .calling → s.sending = false)
  | _ => True

instance decidableAsyncOk (s : AsyncState) : (e : AsyncEvent) → Decidable (AsyncOk s e)
  | .complete c => inferInstanceAs (Decidable ((s.phase c = .holding → s.submitter = .returned) ∧
      (s.phase c = .calling → s.sending = false)))
  | .link | .enqueue | .arm | .queueWork | .take | .sent | .again | .sendFails | .receive
  | .disconnect | .drain | .fire | .expire => inferInstanceAs (Decidable True)

/-- The right to complete the request: it comes with the insertion into `req_tree`, goes to one
completer, and is used up by the callback. -/
inductive Right where
  | unborn
  | pending
  | held (c : Completer)
  | spent

/-- The callbacks that have used the right up. -/
def Right.uses : Right → Nat
  | .spent => 1
  | .unborn | .pending | .held _ => 0

/-- Where the right is, and what that means for the others. -/
structure AsyncInv (s : AsyncState) (r : Right) : Prop where
  start : s.submitter = .start ↔ r = .unborn
  linked : s.linked = true ↔ r = .pending
  phase : ∀ c, s.phase c ≠ .idle ↔ r = .held c
  callbacks : s.callbacks = r.uses
  spent : r = .spent →
    s.submitter = .returned ∧ s.sending = false ∧ s.queued = false ∧ s.work = .idle
  expired : r = .held .timeout → s.submitter = .returned ∧ s.work = .idle
  armed : s.work ≠ .idle → s.timerArmed = true ∧ s.submitter = .returned
  arming : s.submitter = .arming → s.timerArmed = true
  completing : ∀ c, s.Completing c → s.submitter = .returned
  calling : ∀ c, s.phase c = .calling → s.work = .idle
  timed : r = .pending → s.submitter = .returned → s.deadline = true → s.work ≠ .idle
  untouched : s.touched = false
  notLate : s.lateArm = false

section Invariant

variable {s s' : AsyncState} {r : Right}

theorem AsyncInit.inv (h : AsyncInit s) : AsyncInv s .unborn where
  start := ⟨fun _ => rfl, fun _ => h.submitter⟩
  linked := by simp [h.linked]
  phase c := by simp [h.phase c]
  callbacks := h.callbacks
  spent := nofun
  expired := nofun
  armed hwork := absurd h.work hwork
  arming harming := by
    rw [h.submitter] at harming
    cases harming
  completing c hc := by
    rw [AsyncState.Completing, h.phase c] at hc
    obtain hc | hc := hc <;> cases hc
  calling c hc := h.work
  timed := nofun
  untouched := h.touched
  notLate := h.lateArm

theorem AsyncInv.safe (h : AsyncInv s r) : AsyncSafe s where
  atMostOnce := by
    rw [h.callbacks]
    cases r <;> simp [Right.uses]
  exactlyOnce hstart hlinked hphase := by
    have hcallbacks := h.callbacks
    cases r with
    | unborn => exact absurd (h.start.mpr rfl) hstart
    | pending => cases hlinked.symm.trans (h.linked.mpr rfl)
    | held c => exact absurd (hphase c) ((h.phase c).mpr rfl)
    | spent => exact hcallbacks
  timed hlinked := h.timed (h.linked.mp hlinked)
  untouched := h.untouched
  notLate := h.notLate

theorem AsyncInv.not_called (h : AsyncInv s r) (halive : r ≠ .spent) :
    decide (0 < s.callbacks) = false := by
  rw [h.callbacks]
  cases r with
  | spent => exact absurd rfl halive
  | unborn | pending | held c => rfl

theorem AsyncInv.touch (h : AsyncInv s r) (halive : r ≠ .spent) : s.touch = s := by
  rw [AsyncState.touch, h.not_called halive, Bool.or_false]

variable {c : Completer}

theorem AsyncInv.idle (h : AsyncInv s r) (hr : r ≠ .held c) :
    s.phase c = .idle := by
  by_contra hc
  exact hr ((h.phase c).mp hc)

theorem AsyncState.goto_phase {pc : CompletePc}
    (hother : ∀ d, d ≠ c → s.phase d = .idle) (d : Completer) :
    (s.goto c pc).phase d = if d = c then pc else .idle := by
  show Function.update s.phase c pc d = _
  rw [Function.update_apply]
  split
  · rfl
  · next hd => exact hother d hd

theorem AsyncInv.taken (h : AsyncInv s .pending) {work : WorkPc}
    (hwork : work ≠ .idle → work = s.work)
    (htimeout : c = .timeout → s.submitter = .returned ∧ work = .idle) :
    AsyncInv ({ s with linked := false, work := work }.goto c .holding) (.held c) := by
  have hother : ∀ d, d ≠ c →
      { s with linked := false, work := work : AsyncState }.phase d = .idle :=
    fun d _ => h.idle nofun
  exact {
    start := ⟨fun hs => absurd (h.start.mp hs) nofun, nofun⟩
    linked := ⟨nofun, nofun⟩
    phase := fun d => by
      rw [AsyncState.goto_phase hother]
      simp [eq_comm]
    callbacks := h.callbacks
    spent := nofun
    expired := fun hc => htimeout (by simpa using hc)
    armed := fun hne => h.armed (hwork hne ▸ hne)
    arming := h.arming
    completing := fun d hd => by
      rw [AsyncState.Completing, AsyncState.goto_phase hother] at hd
      split at hd <;> obtain hd | hd := hd <;> cases hd
    calling := fun d hd => by
      rw [AsyncState.goto_phase hother] at hd
      split at hd <;> cases hd
    timed := nofun
    untouched := h.untouched
    notLate := h.notLate }

theorem AsyncInv.goOn {pc : CompletePc} (h : AsyncInv s (.held c))
    (hpc : pc ≠ .idle) (hreturned : s.submitter = .returned)
    (hwork : pc = .calling → s.work = .idle) : AsyncInv (s.goto c pc) (.held c) := by
  have hother : ∀ d, d ≠ c → s.phase d = .idle := fun d hd => h.idle (by simpa using hd.symm)
  exact {
    start := h.start
    linked := h.linked
    phase := fun d => by
      rw [AsyncState.goto_phase hother]
      simp [hpc, eq_comm]
    callbacks := h.callbacks
    spent := nofun
    expired := h.expired
    armed := h.armed
    arming := h.arming
    completing := fun _ _ => hreturned
    calling := fun d hd => by
      rw [AsyncState.goto_phase hother] at hd
      split at hd
      · exact hwork hd
      · cases hd
    timed := nofun
    untouched := h.untouched
    notLate := h.notLate }

theorem AsyncInv.called (h : AsyncInv s (.held c)) (hc : s.phase c = .calling)
    (hsending : s.sending = false) : AsyncInv (s.callback c) .spent := by
  have hother : ∀ d, d ≠ c → s.phase d = .idle := fun d hd => h.idle (by simpa using hd.symm)
  have hreturned : s.submitter = .returned := h.completing c (.inr hc)
  have hwork : (if s.timerArmed then .idle else s.work) = WorkPc.idle := by
    rw [h.calling c hc, ite_self]
  have hphase : ∀ d, (s.callback c).phase d = .idle := fun d => by
    rw [← ite_self (c := d = c) CompletePc.idle]
    exact AsyncState.goto_phase hother d
  exact {
    start := ⟨fun hs => absurd (hreturned.symm.trans hs) nofun, nofun⟩
    linked := ⟨fun hl => absurd (h.linked.mp hl) nofun, nofun⟩
    phase := fun d => ⟨fun hd => absurd (hphase d) hd, nofun⟩
    callbacks := congrArg (· + 1) h.callbacks
    spent := fun _ => ⟨hreturned, hsending, rfl, hwork⟩
    expired := nofun
    armed := fun hne => absurd hwork hne
    arming := fun hs => absurd (hreturned.symm.trans hs) nofun
    completing := fun _ _ => hreturned
    calling := fun _ _ => hwork
    timed := nofun
    untouched := h.untouched
    notLate := h.notLate }

/-- Under `req_lock`, for a completer other than the timeout work. -/
theorem AsyncInv.takeBy (h : AsyncInv s r) (hc : c ≠ .timeout) :
    ∃ r', AsyncInv (s.takeBy c) r' := by
  rw [AsyncState.takeBy]
  split
  · next hlinked =>
    obtain rfl := h.linked.mp hlinked
    exact ⟨.held c, h.taken (fun _ => rfl) fun heq => absurd heq hc⟩
  · exact ⟨r, h⟩

/-- The function of the timeout work, up to its `won`. -/
theorem AsyncInv.expire (h : AsyncInv s r) (hwork : s.work = .running) :
    ∃ r', AsyncInv ({ s with work := .idle }.takeBy .timeout) r' := by
  have hreturned : s.submitter = .returned := (h.armed (by rw [hwork]; nofun)).2
  rw [AsyncState.takeBy]
  split
  · next hlinked =>
    obtain rfl := h.linked.mp hlinked
    exact ⟨.held .timeout, h.taken (fun hne => absurd rfl hne) fun _ => ⟨hreturned, rfl⟩⟩
  · next hlinked =>
    refine ⟨r, { h with
      spent := fun hr => ⟨hreturned, (h.spent hr).2.1, (h.spent hr).2.2.1, rfl⟩
      expired := fun _ => ⟨hreturned, rfl⟩
      armed := fun hne => absurd rfl hne
      calling := fun _ _ => rfl
      timed := fun hr => absurd (h.linked.mpr hr) hlinked }⟩

theorem AsyncInv.lookAtTimer (h : AsyncInv s (.held c))
    (hreturned : s.submitter = .returned) : AsyncInv (s.lookAtTimer c) (.held c) := by
  have hclear : ∀ t : AsyncState, AsyncInv t (.held c) → t.submitter = .returned →
      AsyncInv (t.goto c (if t.timerArmed then .cancelling else .calling)) (.held c) := by
    intro t ht hreturned
    refine ht.goOn (by split <;> nofun) hreturned fun hcalling => ?_
    by_contra hwork
    rw [(ht.armed hwork).1] at hcalling
    cases hcalling
  rw [AsyncState.lookAtTimer]
  split
  · next hc =>
    subst hc
    refine hclear { s with queued := false, timerArmed := false } { h with
      spent := nofun
      armed := fun hne => absurd (h.expired rfl).2 hne
      arming := fun harming => absurd (hreturned.symm.trans harming) nofun } hreturned
  · exact hclear s h hreturned

theorem AsyncInv.cancelWork (h : AsyncInv s (.held c))
    (hc : s.phase c = .cancelling) :
    AsyncInv ({ s with work := .idle, timerArmed := false }.goto c .calling) (.held c) := by
  have hreturned : s.submitter = .returned := h.completing c (.inl hc)
  have hcancelled : AsyncInv { s with work := .idle, timerArmed := false } (.held c) := { h with
    spent := nofun
    expired := fun _ => ⟨hreturned, rfl⟩
    armed := fun hne => absurd rfl hne
    arming := fun harming => absurd (hreturned.symm.trans harming) nofun
    calling := fun _ _ => rfl
    timed := nofun }
  exact hcancelled.goOn nofun hreturned fun _ => rfl

section

variable (h : AsyncInv s r)
include h

theorem AsyncInv.complete (hok : AsyncOk s (.complete c))
    (hs : asyncExec s (.complete c) = some s') : ∃ r', AsyncInv s' r' := by
  simp only [asyncExec] at hs
  by_cases hidle : s.phase c = .idle
  · rw [hidle] at hs
    cases hs
  · obtain rfl := (h.phase c).mp hidle
    rw [h.touch nofun] at hs
    split at hs
    · cases hs
    · next hc =>
      cases hs
      exact ⟨_, h.lookAtTimer (hok.1 hc)⟩
    · next hc =>
      split at hs <;> cases hs
      exact ⟨_, h.cancelWork hc⟩
    · next hc =>
      split at hs <;> cases hs
      exact ⟨_, h.called hc (hok.2 hc)⟩

/-- A request that `do_send` or the TX thread uses, or with an active timer, is not freed. -/
theorem AsyncInv.alive (hbusy : s.submitter ≠ .returned ∨ s.queued = true ∨
    s.sending = true ∨ s.work ≠ .idle) : r ≠ .spent := by
  intro hr
  obtain ⟨hreturned, hsending, hqueued, hwork⟩ := h.spent hr
  obtain hbusy | hbusy | hbusy | hbusy := hbusy
  · exact hbusy hreturned
  · cases hqueued.symm.trans hbusy
  · cases hsending.symm.trans hbusy
  · exact hbusy hwork

/-- `do_send` has not returned: no completer has looked at `timer_armed`. -/
theorem AsyncInv.not_completed (hs : s.submitter ≠ .returned) :
    s.completed = false := by
  rw [AsyncState.completed, h.not_called (h.alive (.inl hs)), Bool.false_or, List.any_eq_false]
  intro c _ hc
  exact hs (h.completing c (by simpa [AsyncState.Completing] using hc))

/-- A step of `do_send` after the insertion into `req_tree`. The right cannot be used up before it,
and no completer is past its look at `timer_armed`. -/
theorem AsyncInv.submit {pc : SubmitPc} {work : WorkPc}
    {timerArmed queued : Bool} (hstart : s.submitter ≠ .start) (hs : s.submitter ≠ .returned)
    (hpc : pc ≠ .start) (harmed : work ≠ .idle → timerArmed = true ∧ pc = .returned)
    (harming : pc = .arming → timerArmed = true)
    (htimed : pc = .returned → s.deadline = true → work ≠ .idle) :
    AsyncInv { s with
      queued := queued, work := work, timerArmed := timerArmed, submitter := pc } r where
  start := ⟨fun hnew => absurd hnew hpc, fun hr => absurd (h.start.mpr hr) hstart⟩
  linked := h.linked
  phase := h.phase
  callbacks := h.callbacks
  spent hr := absurd (h.spent hr).1 hs
  expired hr := absurd (h.expired hr).1 hs
  armed := harmed
  arming := harming
  completing c hc := absurd (h.completing c hc) hs
  calling c hc := absurd (h.completing c (.inr hc)) hs
  timed _ := htimed
  untouched := h.untouched
  notLate := h.notLate

theorem AsyncInv.enqueue (hs : s.submitter = .linked) :
    AsyncInv { s with queued := true, submitter := .queued } r := by
  refine h.submit (by rw [hs]; nofun) (by rw [hs]; nofun) nofun (fun hne => ?_) nofun nofun
  cases hs.symm.trans (h.armed hne).2

theorem AsyncInv.arm (hs : s.submitter = .queued) :
    AsyncInv { s with work := .idle, timerArmed := true, submitter := .arming } r :=
  h.submit (by rw [hs]; nofun) (by rw [hs]; nofun) nofun (fun hne => absurd rfl hne)
    (fun _ => rfl) nofun

theorem AsyncInv.untimed (hs : s.submitter = .queued)
    (hdeadline : ¬ s.deadline = true) : AsyncInv { s with submitter := .returned } r := by
  refine h.submit (by rw [hs]; nofun) (by rw [hs]; nofun) nofun (fun hne => ?_) nofun
    fun _ hd => absurd hd hdeadline
  cases hs.symm.trans (h.armed hne).2

theorem AsyncInv.queueWork (hs : s.submitter = .arming) :
    AsyncInv { s with
      work := .pending, submitter := .returned, lateArm := s.lateArm || s.completed } r := by
  have hcompleted : s.completed = false := h.not_completed (by rw [hs]; nofun)
  rw [hcompleted, Bool.or_false]
  exact h.submit (by rw [hs]; nofun) (by rw [hs]; nofun) nofun (fun _ => ⟨h.arming hs, rfl⟩) nofun
    fun _ _ => nofun

theorem AsyncInv.link (hs : s.submitter = .start) :
    AsyncInv { s with linked := true, submitter := .linked } .pending := by
  obtain rfl := h.start.mp hs
  exact { h with
    start := ⟨nofun, nofun⟩
    linked := ⟨fun _ => rfl, fun _ => rfl⟩
    phase := fun c => ⟨fun hc => absurd ((h.phase c).mp hc) nofun, nofun⟩
    spent := nofun
    expired := nofun
    armed := fun hne => absurd (hs.symm.trans (h.armed hne).2) nofun
    arming := nofun
    completing := fun c hc => absurd (hs.symm.trans (h.completing c hc)) nofun
    timed := fun _ => nofun }

theorem AsyncInv.setTx (halive : r ≠ .spent) (queued sending : Bool) :
    AsyncInv { s with queued := queued, sending := sending } r :=
  { h with spent := fun hr => absurd hr halive }

theorem AsyncInv.moveTx {p : Prop} [Decidable p] {queued sending : Bool}
    (hbusy : p → s.queued = true ∨ s.sending = true)
    (hs : (if p then some { s.touch with queued := queued, sending := sending } else none) =
      some s') : AsyncInv s' r := by
  split at hs
  · next hp =>
    have halive : r ≠ .spent := h.alive (.inr ((hbusy hp).imp_right .inl))
    rw [h.touch halive] at hs
    cases hs
    exact h.setTx halive queued sending
  · cases hs

theorem AsyncInv.step {e : AsyncEvent} (hok : AsyncOk s e)
    (hs : asyncExec s e = some s') : ∃ r', AsyncInv s' r' := by
  cases e with simp only [asyncExec] at hs
  | link =>
    split at hs <;> cases hs
    next hpc => exact ⟨.pending, h.link hpc⟩
  | enqueue =>
    split at hs
    · next hpc =>
      rw [h.touch (h.alive (.inl (by rw [hpc]; nofun)))] at hs
      cases hs
      exact ⟨r, h.enqueue hpc⟩
    · cases hs
  | arm =>
    split at hs <;> try cases hs
    next hpc =>
    rw [h.touch (h.alive (.inl (by rw [hpc]; nofun)))] at hs
    split at hs
    · cases hs
      exact ⟨r, h.arm hpc⟩
    · next hdeadline =>
      cases hs
      exact ⟨r, h.untimed hpc hdeadline⟩
  | queueWork =>
    split at hs
    · next hpc =>
      rw [h.touch (h.alive (.inl (by rw [hpc]; nofun)))] at hs
      cases hs
      exact ⟨r, h.queueWork hpc⟩
    · cases hs
  | take => exact ⟨r, h.moveTx (fun hqueued => .inl hqueued.1) hs⟩
  | sent | again => exact ⟨r, h.moveTx .inr hs⟩
  | sendFails =>
    split at hs
    · next hsending =>
      have halive : r ≠ .spent := h.alive (.inr (.inr (.inl hsending)))
      rw [h.touch halive] at hs
      cases hs
      exact (h.setTx halive s.queued false).takeBy nofun
    · cases hs
  | receive | disconnect =>
    cases hs
    exact h.takeBy nofun
  | drain => exact ⟨r, h.moveTx .inl hs⟩
  | fire =>
    split at hs
    · next hwork =>
      have hne : s.work ≠ .idle := by rw [hwork]; nofun
      have halive : r ≠ .spent := h.alive (.inr (.inr (.inr hne)))
      rw [h.touch halive] at hs
      cases hs
      exact ⟨r, { h with
        spent := fun hr => absurd hr halive
        expired := fun hr => absurd (h.expired hr).2 hne
        armed := fun _ => h.armed hne
        calling := fun c hc => absurd (h.calling c hc) hne
        timed := fun _ _ _ => nofun }⟩
    · cases hs
  | expire =>
    split at hs
    · next hwork =>
      have hne : s.work ≠ .idle := by rw [hwork]; nofun
      rw [h.touch (h.alive (.inr (.inr (.inr hne))))] at hs
      cases hs
      exact h.expire hwork
    · cases hs
  | complete c => exact h.complete hok hs

end

end Invariant

end PowerFS.Net
