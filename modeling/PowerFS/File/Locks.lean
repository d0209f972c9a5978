import PowerFS.Errno
import PowerFS.Lib.Runs
import Mathlib.Logic.Function.Basic

namespace PowerFS.File

/-! `powerfs_lock` and `powerfs_flock`: each call of a local process asks the Filer for a lock on
the whole file, and then the kernel's own lock table. -/

/-- `F_RDLCK` and `F_WRLCK`, and the modes the Filer knows. -/
inductive LockMode where
  | rd | wr
  deriving DecidableEq

/-- A call for a byte range of an owner, or for the whole file on an open file description; no mode
is `F_UNLCK`. `F_GETLK` and calls on an inode that is shut down change nothing. -/
inductive LockCall where
  | posix (owner start stop : Nat) (mode : Option LockMode)
  | flock (file : Nat) (mode : Option LockMode)
  deriving DecidableEq

def LockCall.mode : LockCall → Option LockMode
  | .posix _ _ _ mode | .flock _ mode => mode

/-- An entry of the inode's lock table. -/
inductive LocalLock where
  | posix (owner start stop : Nat) (mode : LockMode)
  | flock (file : Nat) (mode : LockMode)
  deriving DecidableEq

def LocalLock.mode : LocalLock → LockMode
  | .posix _ _ _ mode | .flock _ mode => mode

/-- What is left of an entry when `call` takes over its range: the parts of the owner's record lock
before and behind it, nothing of the same file's `flock`, and all of anybody else's. -/
def LocalLock.cut (call : LockCall) (l : LocalLock) : List LocalLock :=
  match call, l with
  | .posix owner start stop _, .posix o first last mode =>
    if o ≠ owner then [l]
    else (if first < start then [.posix o first (min last (start - 1)) mode] else []) ++
      (if stop < last then [.posix o (max first (stop + 1)) last mode] else [])
  | .flock file _, .flock f _ => if f ≠ file then [l] else []
  | .posix _ _ _ _, .flock _ _ | .flock _ _, .posix _ _ _ _ => [l]

def LockCall.entry : LockCall → List LocalLock
  | .posix owner start stop (some mode) => [.posix owner start stop mode]
  | .flock file (some mode) => [.flock file mode]
  | .posix _ _ _ none | .flock _ none => []

/-- `posix_lock_file` and `locks_lock_inode_wait` when they return 0. -/
def setLock (call : LockCall) (locks : List LocalLock) : List LocalLock :=
  locks.flatMap (LocalLock.cut call) ++ call.entry

/-- The Filer's answer. A request that fails may have been carried out. -/
inductive FilerReply where
  | granted
  | denied
  | failed (err : Errno) (applied : Bool)
  deriving DecidableEq

/-- What the kernel's lock table answers: done, `FILE_LOCK_DEFERRED`, or an error. A failed change
of an `flock` may have given up the old lock. -/
inductive LocalResult where
  | ok
  | deferred
  | failed (err : Errno) (dropped : Bool)
  deriving DecidableEq

/-- Where a process stands in its call: outside, behind the Filer's grant, and before
`powerfs_filer_file_unlock`. -/
inductive LockPc where
  | idle
  | granted (call : LockCall)
  | unlocking
  deriving DecidableEq

/-- The lock table, what the Filer holds for this client, and the processes. -/
structure LockState where
  locks : List LocalLock
  filer : Option LockMode
  pc : Nat → LockPc

def LockState.goto (s : LockState) (p : Nat) (pc : LockPc) : LockState :=
  { s with pc := Function.update s.pc p pc }

/-- A process asks the Filer, asks the lock table, and tells the Filer that it unlocks. -/
inductive LockEvent where
  | request (p : Nat) (call : LockCall) (reply : FilerReply)
  | perform (p : Nat) (call : LockCall) (result : LocalResult)
  | unlock (p : Nat) (applied : Bool)
  deriving DecidableEq

section Steps

-- the mode the Filer holds for the client after it has carried out a request of the client, which
-- may have held the lock already
variable (regrant : Option LockMode → LockMode → LockMode)

/-- The lock table and the process after `posix_lock_file` or `locks_lock_inode_wait`. -/
def afterLocal (s : LockState) (p : Nat) (call : LockCall) : LocalResult → LockState
  | .ok =>
    { s with locks := setLock call s.locks }.goto p (if call.mode = none then .unlocking else .idle)
  | .deferred => s.goto p .idle
  | .failed _ dropped =>
    { s with locks := if dropped then s.locks.flatMap (LocalLock.cut call) else s.locks }.goto p
      (if call.mode = none then .idle else .unlocking)

/-- One event; `none` if it cannot happen. A call that is denied, or waits for the Filer, asks again
with another `request`. -/
def lockExec (s : LockState) : LockEvent → Option LockState
  | .request p call reply =>
    match s.pc p, call.mode with
    | .idle, some mode =>
      match reply with
      | .granted => some ({ s with filer := some (regrant s.filer mode) }.goto p (.granted call))
      | .denied => some s
      | .failed _ applied => some { s with
          filer := if applied then some (regrant s.filer mode) else s.filer }
    | _, _ => none
  | .perform p call result =>
    if s.pc p = .granted call ∨ (s.pc p = .idle ∧ call.mode = none) then
      some (afterLocal s p call result)
    else none
  | .unlock p applied =>
    if s.pc p = .unlocking then
      some ({ s with filer := if applied then none else s.filer }.goto p .idle)
    else none

end Steps

/-- The Filer's mode is at least as strong. -/
def Covers : Option LockMode → LockMode → Prop
  | some .wr, _ => True
  | some .rd, mode => mode = .rd
  | none, _ => False

def LockSafe (s : LockState) : Prop := ∀ l ∈ s.locks, Covers s.filer l.mode

structure LockInit (s : LockState) : Prop where
  locks : s.locks = []
  filer : s.filer = none
  pc : ∀ p, s.pc p = .idle

def FilerReply.carriedOut : FilerReply → Bool
  | .granted => true
  | .denied => false
  | .failed _ applied => applied

/-- The old locks in the range of the call are given up. -/
def LocalResult.cuts : LocalResult → Bool
  | .ok => true
  | .deferred => false
  | .failed _ dropped => dropped

/-- `powerfs_filer_file_unlock` follows. -/
def LocalResult.unlocks (call : LockCall) : LocalResult → Bool
  | .ok => call.mode = none
  | .deferred => false
  | .failed _ _ => call.mode ≠ none

/-- A request that the Filer carries out asks for a mode as strong as every local lock and every
lock that is granted and not entered yet, and comes when no process is about to unlock. A call that
goes on to an unlock leaves no local lock, and no other process has a lock granted. -/
def LockOk (s : LockState) : LockEvent → Prop
  | .request _ call reply => reply.carriedOut = true → ∀ mode ∈ call.mode,
      (∀ l ∈ s.locks, Covers (some mode) l.mode) ∧
      ∀ q, s.pc q ≠ .unlocking ∧ ∀ c, s.pc q = .granted c → ∀ m ∈ c.mode, Covers (some mode) m
  | .perform p call result => result.unlocks call = true →
      (∀ l ∈ s.locks, result.cuts = true ∧ l.cut call = []) ∧ ∀ q c, q ≠ p → s.pc q ≠ .granted c
  | .unlock _ _ => True

section Invariant

variable {regrant : Option LockMode → LockMode → LockMode} {s s' : LockState}

theorem mode_of_mem_cut {call : LockCall} {l piece : LocalLock} (h : piece ∈ l.cut call) :
    piece.mode = l.mode := by
  cases call with
  | posix owner start stop mode =>
    cases l with
    | posix o first last m =>
      simp only [LocalLock.cut] at h
      split at h
      · rw [List.mem_singleton.mp h]
      · rcases List.mem_append.mp h with h | h
        all_goals
          split at h
          · rw [List.mem_singleton.mp h]
            rfl
          · cases h
    | flock f m => rw [List.mem_singleton.mp h]
  | flock file mode =>
    cases l with
    | posix o first last m => rw [List.mem_singleton.mp h]
    | flock f m =>
      simp only [LocalLock.cut] at h
      split at h
      · rw [List.mem_singleton.mp h]
      · cases h

theorem mode_of_mem_entry {call : LockCall} {l : LocalLock} (h : l ∈ call.entry) :
    call.mode = some l.mode := by
  cases call with
  | posix owner start stop mode | flock file mode =>
    cases mode with
    | none => cases h
    | some m => rw [List.mem_singleton.mp h]; rfl

theorem Covers.trans {held : Option LockMode} {a b : LockMode} (h : Covers held a)
    (hb : Covers (some a) b) : Covers held b := by
  cases a with
  | wr =>
    cases held with
    | none => exact h
    | some held =>
      cases held with
      | wr => trivial
      | rd => cases h
  | rd =>
    cases hb
    exact h

/-- The Filer also covers the locks that are granted and not entered yet. When a process is about
to unlock, there are no locks. -/
structure LockInv (s : LockState) : Prop where
  safe : LockSafe s
  granted : ∀ q c, s.pc q = .granted c → ∀ m ∈ c.mode, Covers s.filer m
  quiet : ∀ q, s.pc q = .unlocking → s.locks = [] ∧ ∀ r c, s.pc r ≠ .granted c

theorem goto_pc (p q : Nat) (pc : LockPc) :
    (s.goto p pc).pc q = if q = p then pc else s.pc q :=
  Function.update_apply ..

theorem LockInv.request (h : LockInv s)
    (hregrant : ∀ held mode, Covers (some (regrant held mode)) mode) {p : Nat} {call : LockCall}
    {reply : FilerReply} (hok : LockOk s (.request p call reply))
    (hs : lockExec regrant s (.request p call reply) = some s') : LockInv s' := by
  simp only [lockExec] at hs
  split at hs <;> try cases hs
  next mode _ hmode =>
  have hnew := hregrant s.filer mode
  -- the Filer's new mode covers everything, wherever the process goes
  have hcarried : reply.carriedOut = true →
      LockInv { s with filer := some (regrant s.filer mode) } := by
    intro hcarried
    obtain ⟨hlocks, hothers⟩ := hok hcarried mode hmode
    exact ⟨fun l hl => hnew.trans (hlocks l hl),
      fun q c hq m hm => hnew.trans ((hothers q).2 c hq m hm), h.quiet⟩
  cases reply with
  | granted =>
    cases hs
    obtain ⟨_, hothers⟩ := hok rfl mode hmode
    refine ⟨(hcarried rfl).safe, fun q c hq m hm => ?_, fun q hq => ?_⟩
    all_goals
      rw [goto_pc] at hq
      split at hq
    · cases hq
      cases hmode.symm.trans hm
      exact hnew
    · exact (hcarried rfl).granted q c hq m hm
    · cases hq
    · exact absurd hq (hothers q).1
  | denied =>
    cases hs
    exact h
  | failed err applied =>
    cases hs
    cases applied with
    | false => exact h
    | true => exact hcarried rfl

theorem LockSafe.cut (h : LockSafe s) (call : LockCall) :
    ∀ l ∈ s.locks.flatMap (LocalLock.cut call), Covers s.filer l.mode := by
  intro l hl
  obtain ⟨old, hold, hpiece⟩ := List.mem_flatMap.mp hl
  rw [mode_of_mem_cut hpiece]
  exact h old hold

theorem LockInv.done (h : LockInv s) (p : Nat) {locks : List LocalLock}
    (hlocks : ∀ l ∈ locks, Covers s.filer l.mode)
    (hquiet : ∀ q, s.pc q = .unlocking → locks = []) :
    LockInv ({ s with locks }.goto p .idle) := by
  refine ⟨hlocks, fun q c hq => ?_, fun q hq => ?_⟩
  all_goals
    rw [goto_pc] at hq
    split at hq
    · cases hq
  · exact h.granted q c hq
  · refine ⟨hquiet q hq, fun r c hr => ?_⟩
    rw [goto_pc] at hr
    split at hr
    · cases hr
    · exact (h.quiet q hq).2 r c hr

theorem LockInv.toUnlock {p : Nat} {locks : List LocalLock} (hlocks : locks = [])
    (hothers : ∀ q c, q ≠ p → s.pc q ≠ .granted c) :
    LockInv ({ s with locks }.goto p .unlocking) := by
  have hnone : ∀ q c, (LockState.goto { s with locks } p .unlocking).pc q ≠ .granted c := by
    intro q c hq
    rw [goto_pc] at hq
    split at hq
    · cases hq
    · next hqp => exact hothers q c hqp hq
  subst hlocks
  exact ⟨fun _ hl => absurd hl List.not_mem_nil, fun q c hq => absurd hq (hnone q c),
    fun _ _ => ⟨rfl, hnone⟩⟩

theorem LockInv.perform (h : LockInv s) {p : Nat} {call : LockCall} {result : LocalResult}
    (hok : LockOk s (.perform p call result))
    (hpc : s.pc p = .granted call ∨ (s.pc p = .idle ∧ call.mode = none)) :
    LockInv (afterLocal s p call result) := by
  have hcut : (∀ l ∈ s.locks, l.cut call = []) → s.locks.flatMap (LocalLock.cut call) = [] :=
    List.flatMap_eq_nil_iff.mpr
  cases result with
  | ok =>
    simp only [afterLocal, setLock]
    split
    · next hmode =>
      obtain ⟨hlocks, hothers⟩ := hok (decide_eq_true hmode)
      refine .toUnlock ?_ hothers
      rw [hcut fun l hl => (hlocks l hl).2]
      exact List.eq_nil_iff_forall_not_mem.mpr fun l hl => nomatch hmode.symm.trans
        (mode_of_mem_entry hl)
    · next hmode =>
      have hgranted : s.pc p = .granted call := hpc.resolve_right fun hidle => hmode hidle.2
      refine h.done p (fun l hl => ?_) fun q hq => absurd hgranted ((h.quiet q hq).2 p call)
      obtain hl | hl := List.mem_append.mp hl
      · exact h.safe.cut call l hl
      · exact h.granted p call hgranted l.mode (mode_of_mem_entry hl)
  | deferred => exact h.done p h.safe fun q hq => (h.quiet q hq).1
  | failed err dropped =>
    by_cases hmode : call.mode = none
    · simp only [afterLocal, if_pos hmode]
      refine h.done p ?_ fun q hq => ?_
      · split
        · exact h.safe.cut call
        · exact h.safe
      · rw [(h.quiet q hq).1]
        split <;> rfl
    · simp only [afterLocal, if_neg hmode]
      obtain ⟨hlocks, hothers⟩ := hok (decide_eq_true hmode)
      refine .toUnlock ?_ hothers
      cases dropped with
      | true => exact hcut fun l hl => (hlocks l hl).2
      | false => exact List.eq_nil_iff_forall_not_mem.mpr fun l hl => nomatch (hlocks l hl).1

theorem LockInv.step {e : LockEvent} (h : LockInv s)
    (hregrant : ∀ held mode, Covers (some (regrant held mode)) mode) (hok : LockOk s e)
    (hs : lockExec regrant s e = some s') : LockInv s' := by
  cases e with
  | request p call reply => exact h.request hregrant hok hs
  | perform p call result =>
    simp only [lockExec] at hs
    split at hs <;> cases hs
    next hpc => exact h.perform hok hpc
  | unlock p applied =>
    simp only [lockExec] at hs
    split at hs <;> cases hs
    next hpc =>
    obtain ⟨hlocks, hnone⟩ := h.quiet p hpc
    have hinv : LockInv { s with filer := if applied then none else s.filer } :=
      ⟨fun l hl => absurd (hlocks ▸ hl) List.not_mem_nil, fun q c hq => absurd hq (hnone q c),
        h.quiet⟩
    exact hinv.done p hinv.safe fun _ _ => hlocks

end Invariant

/-- In every run that meets the condition the Filer covers the local locks. It holds at least the
mode that it was last asked for. -/
theorem lockSafe_of_lockOk {regrant : Option LockMode → LockMode → LockMode} {s : LockState}
    (hregrant : ∀ held mode, Covers (some (regrant held mode)) mode)
    (h : Runs.Reach (fun s e s' => lockExec regrant s e = some s') LockOk LockInit s) :
    LockSafe s := by
  have hinv : LockInv s := by
    refine h.invariant (fun s hinit => ?_) fun _ _ _ hinv hok hs => hinv.step hregrant hok hs
    refine ⟨fun l hl => ?_, fun q c hq => ?_, fun q hq => ?_⟩
    · rw [hinit.locks] at hl
      cases hl
    · cases (hinit.pc q).symm.trans hq
    · cases (hinit.pc q).symm.trans hq
  exact hinv.safe

def unlocked : LockState := ⟨[], none, fun _ => .idle⟩

theorem unlocked_init : LockInit unlocked := ⟨rfl, rfl, fun _ => rfl⟩

def lastAsked (_ : Option LockMode) (mode : LockMode) : LockMode := mode

/-- A shared lock on bytes 0 to 9, which the same process upgrades and gives up. -/
def upgradeAlone : List LockEvent :=
  [.request 1 (.posix 1 0 9 (some .rd)) .granted, .perform 1 (.posix 1 0 9 (some .rd)) .ok,
    .request 1 (.posix 1 0 9 (some .wr)) .granted, .perform 1 (.posix 1 0 9 (some .wr)) .ok]

theorem lockSafe_upgradeAlone : ∃ s,
    upgradeAlone.foldlM (lockExec lastAsked) unlocked = some s ∧
      s.locks = [.posix 1 0 9 .wr] ∧ LockSafe s := by
  obtain ⟨s, hrun, hlocks⟩ : ∃ s, upgradeAlone.foldlM (lockExec lastAsked) unlocked = some s ∧
    s.locks = [.posix 1 0 9 .wr] := ⟨_, rfl, rfl⟩
  have hok : Runs.OkAlong (lockExec lastAsked) LockOk unlocked upgradeAlone := by
    refine .cons (fun _ _ _ => ⟨by simp [unlocked], by simp [unlocked]⟩) rfl ?_
    refine .cons (fun hunlocks => nomatch hunlocks) rfl (.cons ?_ rfl ?_)
    · rintro - mode ⟨⟩
      refine ⟨fun _ _ => trivial, fun q => ⟨?_, fun _ _ _ _ => trivial⟩⟩
      by_cases hq : q = 1 <;> simp [afterLocal, goto_pc, unlocked, LockCall.mode, hq]
    · exact .cons (fun hunlocks => nomatch hunlocks) rfl trivial
  have hregrant : ∀ held mode, Covers (some (lastAsked held mode)) mode := by
    intro held mode
    cases mode <;> trivial
  exact ⟨s, hrun, hlocks,
    lockSafe_of_lockOk hregrant (Runs.Reach.of_run (.start unlocked_init) hok hrun)⟩

/-- Two processes lock different ranges, and one of them unlocks its own. -/
def unlockBesideLock : List LockEvent :=
  [.request 1 (.posix 1 0 9 (some .wr)) .granted, .perform 1 (.posix 1 0 9 (some .wr)) .ok,
    .request 2 (.posix 2 20 29 (some .wr)) .granted, .perform 2 (.posix 2 20 29 (some .wr)) .ok,
    .perform 1 (.posix 1 0 9 none) .ok, .unlock 1 true]

/-- Whatever the Filer does with a second request of the client. -/
theorem not_lockSafe_runs : ¬ ∃ regrant, ∀ s,
    Runs.Reach (fun s e s' => lockExec regrant s e = some s') (fun _ _ => True) LockInit s →
      LockSafe s := by
  rintro ⟨regrant, hall⟩
  obtain ⟨s, hrun, hlocks, hfiler⟩ : ∃ s,
      unlockBesideLock.foldlM (lockExec regrant) unlocked = some s ∧
      s.locks = [.posix 2 20 29 .wr] ∧ s.filer = none := ⟨_, rfl, rfl, rfl⟩
  have hsafe := hall s (.run unlocked_init hrun)
  have hcovers := hsafe (.posix 2 20 29 .wr) (by rw [hlocks]; exact List.mem_cons_self)
  rw [hfiler] at hcovers
  exact hcovers

end PowerFS.File
