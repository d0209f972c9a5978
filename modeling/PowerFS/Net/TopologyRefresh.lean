import PowerFS.Lib.Runs
import Mathlib.Data.List.Basic

namespace PowerFS.Net

/-! The TopologyChanged notifications: their handlers in `pfs_rx_dispatch`, and
`topology_refresh_worker`. -/

inductive RefreshWorker where
  | idle
  | started
  /-- In `powerfs_net_discover_volumes`. -/
  | asking (asked : Bool)
  | clearing
  deriving DecidableEq

def RefreshWorker.busy : RefreshWorker → Bool
  | .idle => false
  | _ => true

/-- Handlers stand before `test_and_set_bit` (`tests`), before `queue_work`, before the second look
at `reconn_wq`, or at the end. In `tests` `true` marks a notification that arrived with a work queue
and has not been followed by a GET_TOPOLOGY; `waiting` counts these behind the test. -/
structure TopoState where
  stopping : Bool
  masterSet : Bool
  wq : Bool
  /-- `TOPOLOGY_REFRESH_PENDING_BIT`. -/
  pending : Bool
  tests : List Bool
  toQueue : Nat
  toRecheck : Nat
  /-- `g_topology_refresh_work` is in the work queue. -/
  queued : Bool
  worker : RefreshWorker
  waiting : Nat

inductive TopoEvent where
  | notify
  | testAndSet (i : Nat)
  | queueWork
  | recheck
  | start
  | check
  /-- A GET_TOPOLOGY request is sent. -/
  | ask
  /-- `powerfs_net_discover_volumes` returns. -/
  | finish
  | clear
  | stop
  | setMaster
  | createWq

def topoExec (s : TopoState) : TopoEvent → Option TopoState
  | .notify => some (if s.stopping then s else { s with tests := s.tests ++ [s.wq] })
  | .testAndSet i =>
    s.tests[i]?.map fun counts =>
      let s' := { s with tests := s.tests.eraseIdx i, waiting := s.waiting + counts.toNat }
      if s.pending then s' else { s' with pending := true, toQueue := s.toQueue + 1 }
  | .queueWork =>
    if s.toQueue = 0 then none
    else if s.wq then some { s with toQueue := s.toQueue - 1, queued := true }
    else some { s with toQueue := s.toQueue - 1, toRecheck := s.toRecheck + 1 }
  | .recheck =>
    if s.toRecheck = 0 then none
    else if s.wq then some { s with toRecheck := s.toRecheck - 1 }
    else some { s with toRecheck := s.toRecheck - 1, pending := false }
  | .start =>
    if s.queued = true ∧ s.worker = .idle then some { s with queued := false, worker := .started }
    else none
  | .check =>
    if s.worker = .started then
      if s.stopping || !s.masterSet then some { s with worker := .clearing }
      else some { s with worker := .asking false }
    else none
  | .ask =>
    match s.worker with
    | .asking _ =>
      some { s with worker := .asking true, tests := s.tests.map fun _ => false, waiting := 0 }
    | _ => none
  | .finish =>
    match s.worker with
    | .asking _ => some { s with worker := .clearing }
    | _ => none
  | .clear =>
    if s.worker = .clearing then some { s with worker := .idle, pending := false } else none
  | .stop => some { s with stopping := true }
  | .setMaster => some { s with masterSet := true }
  | .createWq => some { s with wq := true }

def TopoState.init : TopoState where
  stopping := false
  masterSet := false
  wq := false
  pending := false
  tests := []
  toQueue := 0
  toRecheck := 0
  queued := false
  worker := .idle
  waiting := 0

namespace TopoState

/-- A refresh that has not asked yet is on its way. -/
def Coming (s : TopoState) : Prop :=
  0 < s.toQueue ∨ s.queued = true ∨ s.worker = .started ∨ s.worker = .asking false

/-- Nothing is left to do for the notifications that have arrived. -/
structure Quiet (s : TopoState) : Prop where
  tests : s.tests = []
  toQueue : s.toQueue = 0
  toRecheck : s.toRecheck = 0
  queued : s.queued = false
  worker : s.worker = .idle

/-- Each notification that has been handled has been followed by a GET_TOPOLOGY request, or will be
by the refresh that is on its way. -/
def NoneMissed (s : TopoState) : Prop := 0 < s.waiting → s.Coming

theorem NoneMissed.quiet {s : TopoState} (h : s.NoneMissed) (hquiet : s.Quiet) :
    s.waiting = 0 := by
  by_contra hwaiting
  obtain hqueue | hqueued | hstarted | hasking := h (Nat.pos_of_ne_zero hwaiting)
  · rw [hquiet.toQueue] at hqueue
    cases hqueue
  · rw [hquiet.queued] at hqueued
    cases hqueued
  · rw [hquiet.worker] at hstarted
    cases hstarted
  · rw [hquiet.worker] at hasking
    cases hasking

/-- The condition on an event: a notification is not debounced by a refresh that has asked already,
and a refresh that does not ask leaves no notification waiting. -/
def Ok (s : TopoState) : TopoEvent → Prop
  | .testAndSet i => s.pending = true → s.tests[i]? = some true → s.Coming
  | .check => (s.stopping || !s.masterSet) = true → s.waiting = 0
  | .finish => s.worker = .asking false → s.waiting = 0
  | _ => True

/-- The pending bit belongs to one handler or one run of the worker, and what counts arrived when
there was a work queue. -/
structure Inv (s : TopoState) : Prop where
  owner : s.toQueue + s.toRecheck + s.queued.toNat + s.worker.busy.toNat ≤ s.pending.toNat
  counted : s.wq = false → s.waiting = 0 ∧ ∀ counts ∈ s.tests, counts = false

variable {s s' : TopoState}

theorem Inv.not_coming (h : s.Inv) (hbusy : s.worker.busy = true) (hstarted : s.worker ≠ .started)
    (hasking : s.worker ≠ .asking false) : ¬ s.Coming := by
  have howner := h.owner
  have hpending := s.pending.toNat_le
  rw [hbusy, Bool.toNat_true] at howner
  rintro (hqueue | hqueued | hworker | hworker)
  · omega
  · rw [hqueued, Bool.toNat_true] at howner
    omega
  · exact hstarted hworker
  · exact hasking hworker

theorem NoneMissed.of_waiting (h : s.waiting = 0) : s.NoneMissed := by
  intro hwaiting
  rw [h] at hwaiting
  cases hwaiting

theorem Inv.testAndSet (h : s.Inv) {i : Nat} (hs : topoExec s (.testAndSet i) = some s') :
    s'.Inv := by
  obtain ⟨counts, hcounts, rfl⟩ := Option.map_eq_some_iff.mp hs
  have hcounted : s.wq = false → s.waiting + counts.toNat = 0 ∧
      ∀ c ∈ s.tests.eraseIdx i, c = false := by
    intro hwq
    obtain ⟨hwaiting, htests⟩ := h.counted hwq
    rw [hwaiting, htests counts (List.mem_of_getElem? hcounts)]
    exact ⟨rfl, fun c hc => htests c (List.mem_of_mem_eraseIdx hc)⟩
  by_cases hpending : s.pending = true
  · simp only [if_pos hpending]
    exact ⟨h.owner, hcounted⟩
  · simp only [if_neg hpending]
    refine ⟨?_, hcounted⟩
    have howner := h.owner
    simp only [hpending, Bool.toNat_false, Bool.toNat_true] at howner ⊢
    omega

theorem NoneMissed.testAndSet_iff (h : s.NoneMissed) {i : Nat}
    (hs : topoExec s (.testAndSet i) = some s') : s'.NoneMissed ↔ s.Ok (.testAndSet i) := by
  obtain ⟨counts, hcounts, rfl⟩ := Option.map_eq_some_iff.mp hs
  by_cases hpending : s.pending = true
  · simp only [if_pos hpending]
    constructor
    · intro hnone _ hcounts'
      cases hcounts.symm.trans hcounts'
      exact hnone (Nat.succ_pos _)
    · intro hok hwaiting
      cases counts with
      | true => exact hok hpending hcounts
      | false => exact h hwaiting
  · simp only [if_neg hpending]
    exact iff_of_true (fun _ => .inl (Nat.succ_pos _)) fun hif => absurd hif hpending

section

variable (h : s.Inv)
include h

theorem step_queueWork (hs : topoExec s .queueWork = some s') :
    s'.Inv ∧ s'.NoneMissed := by
  have howner := h.owner
  have hpending := s.pending.toNat_le
  simp only [topoExec] at hs
  split at hs <;> try cases hs
  split at hs
  · cases hs
    refine ⟨⟨?_, h.counted⟩, fun _ => .inr (.inl rfl)⟩
    show s.toQueue - 1 + s.toRecheck + true.toNat + s.worker.busy.toNat ≤ s.pending.toNat
    rw [Bool.toNat_true]
    omega
  · next hwq =>
    cases hs
    rw [Bool.not_eq_true] at hwq
    refine ⟨⟨?_, h.counted⟩, .of_waiting (h.counted hwq).1⟩
    show s.toQueue - 1 + (s.toRecheck + 1) + s.queued.toNat + s.worker.busy.toNat ≤
      s.pending.toNat
    omega

theorem step_recheck (hnone : s.NoneMissed) (hs : topoExec s .recheck = some s') :
    s'.Inv ∧ s'.NoneMissed := by
  have howner := h.owner
  have hpending := s.pending.toNat_le
  simp only [topoExec] at hs
  split at hs <;> try cases hs
  split at hs
  · cases hs
    refine ⟨⟨?_, h.counted⟩, hnone⟩
    show s.toQueue + (s.toRecheck - 1) + s.queued.toNat + s.worker.busy.toNat ≤
      s.pending.toNat
    omega
  · cases hs
    refine ⟨⟨?_, h.counted⟩, hnone⟩
    show s.toQueue + (s.toRecheck - 1) + s.queued.toNat + s.worker.busy.toNat ≤ false.toNat
    omega

theorem step_start (hs : topoExec s .start = some s') : s'.Inv ∧ s'.NoneMissed := by
  simp only [topoExec] at hs
  split at hs <;> cases hs
  next hqueued =>
  refine ⟨⟨?_, h.counted⟩, fun _ => .inr (.inr (.inl rfl))⟩
  have howner := h.owner
  rw [hqueued.1, hqueued.2] at howner
  exact howner

theorem Inv.work (hbusy : s.worker.busy = true) (worker : RefreshWorker)
    (hbusy' : worker.busy = true) : Inv { s with worker } := by
  refine ⟨?_, h.counted⟩
  have howner := h.owner
  rw [hbusy] at howner
  rw [hbusy']
  exact howner

theorem step_check (hs : topoExec s .check = some s') :
    s'.Inv ∧ (s'.NoneMissed ↔ s.Ok .check) := by
  simp only [topoExec] at hs
  split at hs <;> try cases hs
  next hworker =>
  have hbusy : s.worker.busy = true := by rw [hworker]; rfl
  split at hs
  · next hskip =>
    cases hs
    have hinv := h.work hbusy .clearing rfl
    refine ⟨hinv, ?_⟩
    have hnot := hinv.not_coming rfl nofun nofun
    constructor
    · intro hnone _
      by_contra hwaiting
      exact hnot (hnone (Nat.pos_of_ne_zero hwaiting))
    · exact fun hok => .of_waiting (hok hskip)
  · next hgo =>
    cases hs
    refine ⟨h.work hbusy _ rfl, iff_of_true (fun _ => .inr (.inr (.inr rfl))) ?_⟩
    exact fun hskip => absurd hskip hgo

theorem step_ask (hs : topoExec s .ask = some s') : s'.Inv ∧ s'.NoneMissed := by
  simp only [topoExec] at hs
  split at hs <;> cases hs
  next asked hworker =>
  refine ⟨⟨?_, fun _ => ⟨rfl, fun counts hcounts => ?_⟩⟩, .of_waiting rfl⟩
  · exact (h.work (by rw [hworker]; rfl) (.asking true) rfl).owner
  · obtain ⟨_, -, rfl⟩ := List.mem_map.mp hcounts
    rfl

theorem step_finish (hnone : s.NoneMissed) (hs : topoExec s .finish = some s') :
    s'.Inv ∧ (s'.NoneMissed ↔ s.Ok .finish) := by
  simp only [topoExec] at hs
  split at hs <;> cases hs
  next asked hworker =>
  have hbusy : s.worker.busy = true := by rw [hworker]; rfl
  have hinv := h.work hbusy .clearing rfl
  refine ⟨hinv, ?_⟩
  have hnot := hinv.not_coming rfl nofun nofun
  constructor
  · intro hnone' _
    by_contra hwaiting
    exact hnot (hnone' (Nat.pos_of_ne_zero hwaiting))
  · intro hok
    apply NoneMissed.of_waiting
    cases asked with
    | false => exact hok hworker
    | true =>
      -- nothing has been left waiting since the request
      by_contra hwaiting
      refine h.not_coming hbusy ?_ ?_ (hnone (Nat.pos_of_ne_zero hwaiting))
      · rw [hworker]
        exact nofun
      · rw [hworker]
        exact nofun

theorem step_clear (hnone : s.NoneMissed) (hs : topoExec s .clear = some s') :
    s'.Inv ∧ s'.NoneMissed := by
  simp only [topoExec] at hs
  split at hs <;> cases hs
  next hworker =>
  constructor
  · refine ⟨?_, h.counted⟩
    have howner := h.owner
    have hpending := s.pending.toNat_le
    rw [hworker] at howner
    show s.toQueue + s.toRecheck + s.queued.toNat + 0 ≤ 0
    replace howner : s.toQueue + s.toRecheck + s.queued.toNat + 1 ≤ s.pending.toNat := howner
    omega
  · intro hwaiting
    have hbusy : s.worker.busy = true := by rw [hworker]; rfl
    refine absurd (hnone hwaiting) (h.not_coming hbusy ?_ ?_)
    · rw [hworker]
      exact nofun
    · rw [hworker]
      exact nofun

theorem step (hnone : s.NoneMissed) {e : TopoEvent} (hs : topoExec s e = some s') :
    s'.Inv ∧ (s'.NoneMissed ↔ s.Ok e) := by
  have hkept (hstep : s'.Inv ∧ s'.NoneMissed) (hok : s.Ok e) :
      s'.Inv ∧ (s'.NoneMissed ↔ s.Ok e) := ⟨hstep.1, iff_of_true hstep.2 hok⟩
  cases e with
  | notify =>
    cases hs
    refine hkept ?_ trivial
    split
    · exact ⟨h, hnone⟩
    · refine ⟨⟨h.owner, fun hwq => ⟨(h.counted hwq).1, fun counts hcounts => ?_⟩⟩, hnone⟩
      obtain hold | hnew := List.mem_append.mp hcounts
      · exact (h.counted hwq).2 counts hold
      · rw [List.mem_singleton.mp hnew]
        exact hwq
  | testAndSet i => exact ⟨h.testAndSet hs, hnone.testAndSet_iff hs⟩
  | queueWork => exact hkept (step_queueWork h hs) trivial
  | recheck => exact hkept (step_recheck h hnone hs) trivial
  | start => exact hkept (step_start h hs) trivial
  | check => exact step_check h hs
  | ask => exact hkept (step_ask h hs) trivial
  | finish => exact step_finish h hnone hs
  | clear => exact hkept (step_clear h hnone hs) trivial
  | stop | setMaster =>
    cases hs
    exact hkept ⟨⟨h.owner, h.counted⟩, hnone⟩ trivial
  | createWq =>
    cases hs
    exact hkept ⟨⟨h.owner, fun hwq => by cases hwq⟩, hnone⟩ trivial

end

/-- Handlers and worker can go on until a request is sent. -/
def CanAsk (s : TopoState) : Prop :=
  ∃ es : List TopoEvent, TopoEvent.ask ∈ es ∧ ∃ s', es.foldlM topoExec s = some s' ∧ s'.waiting = 0

theorem CanAsk.cons {e : TopoEvent} (hs : topoExec s e = some s') (h : s'.CanAsk) : s.CanAsk := by
  obtain ⟨es, hask, s₁, hrun, hwaiting⟩ := h
  refine ⟨e :: es, List.mem_cons_of_mem _ hask, s₁, ?_, hwaiting⟩
  rw [List.foldlM_cons, hs]
  exact hrun

end TopoState

instance (s : TopoState) : Decidable s.Coming := inferInstanceAs (Decidable (_ ∨ _))

instance (s : TopoState) : (e : TopoEvent) → Decidable (s.Ok e)
  | .testAndSet _ => inferInstanceAs (Decidable (_ → _ → _))
  | .check => inferInstanceAs (Decidable (_ → _))
  | .finish => inferInstanceAs (Decidable (_ → _))
  | .notify | .queueWork | .recheck | .start | .ask | .clear | .stop | .setMaster | .createWq =>
    isTrue trivial

end PowerFS.Net
