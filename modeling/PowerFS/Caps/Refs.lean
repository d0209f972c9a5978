import PowerFS.Caps.Cap
import Mathlib.Algebra.Order.Ring.Int
import Mathlib.Data.List.Perm.Basic

namespace PowerFS.Caps

/-! References on capability bits: `powerfs_cap_take_refs`, `powerfs_cap_put_refs`,
`try_get_cap_refs_locked` and `powerfs_get_caps`. -/

/-- The reference counters of an inode, and how many times `ihold` was called for them. -/
@[ext] structure CapRefs where
  pin : Int
  rd : Int
  rdcache : Int
  fx : Int
  wr : Int
  hold : Int
  deriving DecidableEq

def CapMask.count (mask bits : CapMask) : Int := if mask.has bits then 1 else 0

/-- `powerfs_cap_take_refs`. -/
def takeRefs (r : CapRefs) (got : CapMask) : CapRefs where
  pin := r.pin + got.count capPin
  rd := r.rd + got.count capFileShared
  rdcache := r.rdcache + got.count capFileCache
  fx := r.fx + got.count capFileExcl
  wr := r.wr + got.count capFileWr
  hold := if got.has capFileWr ∧ r.wr = 0 then r.hold + 1 else r.hold

/-- The counters after `powerfs_cap_put_refs`. `i_wb_ref` is never raised, so the last write
reference always drops the inode. -/
def putRefs (r : CapRefs) (had : CapMask) : CapRefs where
  pin := r.pin - had.count capPin
  rd := r.rd - had.count capFileShared
  rdcache := r.rdcache - had.count capFileCache
  fx := r.fx - had.count capFileExcl
  wr := r.wr - had.count capFileWr
  hold := if had.has capFileWr ∧ r.wr - 1 = 0 then r.hold - 1 else r.hold

theorem putRefs_takeRefs (r : CapRefs) (got : CapMask) : putRefs (takeRefs r got) got = r := by
  cases hwr : got.has capFileWr with
  | false =>
    ext <;> simp [takeRefs, putRefs, hwr]
  | true =>
    ext <;> simp [takeRefs, putRefs, hwr, CapMask.count]
    split <;> omega

instance : LeftCommutative (flip takeRefs) where
  left_comm a b r := by ext <;> grind [flip, takeRefs, CapMask.count]

/-- The counters after any calls, and what is held. -/
inductive RefsRun (r : CapRefs) : CapRefs → List CapMask → Prop
  | start : RefsRun r r []
  | get {s held got} : RefsRun r s held → RefsRun r (takeRefs s got) (got :: held)
  | put {s held had} : RefsRun r s held → had ∈ held → RefsRun r (putRefs s had) (held.erase had)

/-- The counters are those of the holders that are left. -/
theorem RefsRun.eq_held {r s held} (h : RefsRun r s held) :
    s = held.foldr (flip takeRefs) r := by
  induction h with
  | start => rfl
  | get _ ih =>
    rw [ih]
    rfl
  | put _ hmem ih =>
    -- It may as well have come last.
    rw [ih, (List.perm_cons_erase hmem).foldr_eq]
    exact putRefs_takeRefs _ _

theorem RefsRun.eq_held_writer : let r : CapRefs := ⟨0, 0, 0, 0, 0, 0⟩
    putRefs (takeRefs (takeRefs r capFileWr) capPin) capFileWr = takeRefs r capPin :=
  RefsRun.eq_held (.put (.get (.get .start)) (by simp))

/-- The bits whose references a caller can want. -/
def capFileBits : CapMask := capFileShared ||| capFileCache ||| capFileWr ||| capFileExcl

def haveNeed (issued need : CapMask) : Bool := need &&& ~~~issued = 0

def haveWant (issued want : CapMask) : Bool := want &&& capFileBits &&& ~~~issued = 0

/-- The references taken when `need` is met. -/
def refsFor (issued : CapMask) : CapMask :=
  capPin |||
    (if issued.has capFileShared then capFileShared else 0) |||
    (if issued.has capFileCache then capFileCache else 0) |||
    (if issued.has capFileWr then capFileWr else 0) |||
    (if issued.has capFileExcl then capFileExcl else 0)

/-- An attempt: its result, `*got` and the counters. -/
structure Attempt where
  ok : Bool
  got : CapMask
  refs : CapRefs

/-- `try_get_cap_refs_locked`. -/
def tryGetCapRefsLocked (issued need want : CapMask) (r : CapRefs) : Attempt where
  ok := haveNeed issued need && haveWant issued want
  got := if haveNeed issued need then refsFor issued else 0
  refs := if haveNeed issued need then takeRefs r (refsFor issued) else r

/-- `max_rounds`. -/
def maxRounds : Nat := 30

section Loop

variable (issued : Nat → CapMask) (signal : Nat → Bool) (need want : CapMask)

/-- The loop of `powerfs_get_caps` with `left` rounds to go. Attempt `k` finds the bits
`issued k`, and `signal k` is the test for a signal that follows it. -/
def getCapsLoop : Nat → Nat → CapRefs → Except Errno CapMask × CapRefs
  | 0, k, r =>
    -- in the last round the first attempt decides, met or not
    let a := tryGetCapRefsLocked (issued k) need want r
    (.ok a.got, a.refs)
  | left + 1, k, r =>
    let a := tryGetCapRefsLocked (issued k) need want r
    if a.ok then (.ok a.got, a.refs)
    else if signal k then (.error .erestartsys, a.refs)
    else
      let b := tryGetCapRefsLocked (issued (k + 1)) need want a.refs
      if b.ok then (.ok b.got, b.refs)
      else if signal (k + 1) then (.error .erestartsys, b.refs)
      else getCapsLoop left (k + 2) b.refs

def attemptLoop : Nat → Nat → CapRefs → Except Errno CapMask × CapRefs
  | 0, k, r =>
    let a := tryGetCapRefsLocked (issued k) need want r
    (.ok a.got, a.refs)
  | left + 1, k, r =>
    let a := tryGetCapRefsLocked (issued k) need want r
    if a.ok then (.ok a.got, a.refs)
    else if signal k then (.error .erestartsys, a.refs)
    else attemptLoop left (k + 1) a.refs

theorem getCapsLoop_eq_attemptLoop (left : Nat) : ∀ (k : Nat) (r : CapRefs),
    getCapsLoop issued signal need want left k r
      = attemptLoop issued signal need want (2 * left) k r := by
  induction left with
  | zero =>
    intro k r
    rfl
  | succ left ih =>
    intro k r
    rw [Nat.mul_succ]
    simp only [getCapsLoop, attemptLoop, ih]

end Loop

/-- `powerfs_get_caps`. `view k` is the time and the capability as attempt `k` finds them, after
any grants and revokes. -/
def getCaps (view : Nat → Nat × Option Cap) (signal : Nat → Bool) (need want : CapMask)
    (r : CapRefs) : Except Errno CapMask × CapRefs :=
  getCapsLoop (fun k => capsIssued (view k).1 (view k).2) signal need want maxRounds 0 r

/-- The counters are raised by one for every bit of `got` and by nothing for others. -/
def Raised (r r' : CapRefs) (got : CapMask) : Prop :=
  r'.pin = r.pin + got.count capPin ∧ r'.rd = r.rd + got.count capFileShared ∧
    r'.rdcache = r.rdcache + got.count capFileCache ∧ r'.wr = r.wr + got.count capFileWr ∧
    r'.fx = r.fx + got.count capFileExcl

/-- What a caller of `powerfs_get_caps` may rely on. -/
def Conserved (r : CapRefs) : Except Errno CapMask × CapRefs → Prop
  | (.ok got, r') => Raised r r' got ∧ putRefs r' got = r
  | (.error _, r') => r' = r

/-- An attempt that finds `need` but not `want` takes references and lets the loop go on. -/
def partialAttempt (issued need want : CapMask) : Bool :=
  haveNeed issued need && !haveWant issued want

section Leaks

variable {issued : Nat → CapMask} {signal : Nat → Bool} {need want : CapMask}

/-- Of the attempts `k` to `k + left - 1`, one that the loop comes to is a partial one. -/
def Leaks (issued : Nat → CapMask) (signal : Nat → Bool) (need want : CapMask)
    (k left : Nat) : Prop :=
  ∃ j, k ≤ j ∧ j < k + left ∧ partialAttempt (issued j) need want = true ∧
    ∀ i, k ≤ i → i < j →
      signal i = false ∧ (haveNeed (issued i) need && haveWant (issued i) want) = false

theorem conserved_take (r : CapRefs) (got : CapMask) : Conserved r (.ok got, takeRefs r got) :=
  ⟨⟨rfl, rfl, rfl, rfl, rfl⟩, putRefs_takeRefs r got⟩

theorem conserved_nothing (r : CapRefs) : Conserved r (.ok 0, r) := by
  have h := conserved_take r 0
  have htake : takeRefs r 0 = r := by
    ext <;> simp [takeRefs, CapMask.count, CapMask.has]
  rwa [htake] at h

theorem conserved_attempt (issued need want : CapMask) (r : CapRefs) :
    Conserved r (.ok (tryGetCapRefsLocked issued need want r).got,
      (tryGetCapRefsLocked issued need want r).refs) := by
  simp only [tryGetCapRefsLocked]
  cases haveNeed issued need with
  | true => exact conserved_take r _
  | false => exact conserved_nothing r

theorem conserved_of_not_leaks (left : Nat) : ∀ (k : Nat) (r : CapRefs),
    ¬Leaks issued signal need want k left →
    Conserved r (attemptLoop issued signal need want left k r) := by
  induction left with
  | zero =>
    intro k r _
    exact conserved_attempt _ _ _ r
  | succ left ih =>
    intro k r hleak
    have hfirst : partialAttempt (issued k) need want = false := by
      by_contra hpart
      rw [Bool.not_eq_false] at hpart
      exact hleak ⟨k, le_rfl, by omega, hpart, fun i hki hik => by omega⟩
    simp only [attemptLoop]
    split
    · exact conserved_attempt _ _ _ r
    · next hok =>
      -- `need` was not met, so nothing was taken
      have hneed : haveNeed (issued k) need = false := by
        simp only [tryGetCapRefsLocked] at hok
        simp only [partialAttempt] at hfirst
        grind
      have hrefs : (tryGetCapRefsLocked (issued k) need want r).refs = r := by
        simp [tryGetCapRefsLocked, hneed]
      rw [hrefs]
      split
      · rfl
      · next hsignal =>
        refine ih (k + 1) r fun ⟨j, hkj, hj, hpart, hbefore⟩ => ?_
        refine hleak ⟨j, by omega, by omega, hpart, fun i hki hij => ?_⟩
        rcases Nat.eq_or_lt_of_le hki with rfl | hlt
        · exact ⟨Bool.eq_false_iff.mpr hsignal, Bool.eq_false_iff.mpr hok⟩
        · exact hbefore i hlt hij

/-- The pin references that a result accounts for. -/
def pinOf : Except Errno CapMask → Int
  | .ok got => got.count capPin
  | .error _ => 0

theorem refsFor_pin (issued : CapMask) : (refsFor issued).count capPin = 1 := by
  have hpin : (refsFor issued).has capPin = true := by
    simp only [CapMask.has, refsFor, decide_eq_true_eq]
    intro h
    have hbit := congrArg (fun m => BitVec.getLsbD m 0) h
    simp [capPin] at hbit
  rw [CapMask.count, hpin]
  rfl

theorem attempt_pin (issued need want : CapMask) (r : CapRefs) :
    (tryGetCapRefsLocked issued need want r).refs.pin
      = r.pin + (tryGetCapRefsLocked issued need want r).got.count capPin := by
  have h := conserved_attempt issued need want r
  exact h.1.1

theorem attemptLoop_pin (left : Nat) : ∀ (k : Nat) (r : CapRefs),
    r.pin + pinOf (attemptLoop issued signal need want left k r).1
      ≤ (attemptLoop issued signal need want left k r).2.pin := by
  induction left with
  | zero =>
    intro k r
    exact (attempt_pin _ _ _ r).ge
  | succ left ih =>
    intro k r
    have hpin := attempt_pin (issued k) need want r
    have hcount : 0 ≤ (tryGetCapRefsLocked (issued k) need want r).got.count capPin := by
      rw [CapMask.count]
      split <;> decide
    simp only [attemptLoop]
    split
    · exact hpin.ge
    · split
      · simp only [pinOf]
        omega
      · have hrest := ih (k + 1) (tryGetCapRefsLocked (issued k) need want r).refs
        omega

theorem attemptLoop_pin_lt (left : Nat) : ∀ (k : Nat) (r : CapRefs),
    Leaks issued signal need want k left →
    r.pin + pinOf (attemptLoop issued signal need want left k r).1
      < (attemptLoop issued signal need want left k r).2.pin := by
  induction left with
  | zero =>
    rintro k r ⟨j, hkj, hj, -⟩
    omega
  | succ left ih =>
    rintro k r ⟨j, hkj, hj, hpart, hbefore⟩
    have hcount : 0 ≤ (tryGetCapRefsLocked (issued k) need want r).got.count capPin := by
      rw [CapMask.count]
      split <;> decide
    have hpin := attempt_pin (issued k) need want r
    simp only [attemptLoop]
    rcases Nat.eq_or_lt_of_le hkj with rfl | hlt
    · -- the leak is here: `need` is met and the loop does not return
      simp only [partialAttempt, Bool.and_eq_true, Bool.not_eq_true'] at hpart
      have hok : (tryGetCapRefsLocked (issued k) need want r).ok = false := by
        simp [tryGetCapRefsLocked, hpart.2]
      have hgot : (tryGetCapRefsLocked (issued k) need want r).got.count capPin = 1 := by
        simp only [tryGetCapRefsLocked, hpart.1]
        exact refsFor_pin _
      rw [hok, if_neg Bool.false_ne_true]
      split
      · simp only [pinOf]
        omega
      · have hrest := @attemptLoop_pin issued signal need want left (k + 1)
          (tryGetCapRefsLocked (issued k) need want r).refs
        omega
    · obtain ⟨hsignal, hok⟩ := hbefore k le_rfl hlt
      have hrest := ih (k + 1) (tryGetCapRefsLocked (issued k) need want r).refs
        ⟨j, hlt, by omega, hpart, fun i hi hij => hbefore i (by omega) hij⟩
      have hok' : (tryGetCapRefsLocked (issued k) need want r).ok = false := hok
      rw [hok', if_neg Bool.false_ne_true, hsignal, if_neg Bool.false_ne_true]
      omega

theorem Conserved.pin {r : CapRefs} {res : Except Errno CapMask × CapRefs}
    (h : Conserved r res) : res.2.pin = r.pin + pinOf res.1 := by
  rcases res with ⟨ret, r'⟩
  cases ret with
  | ok got => exact h.1.1
  | error e =>
    have heq : r' = r := h
    rw [heq, pinOf, Int.add_zero]

end Leaks

/-- `powerfs_get_caps` keeps its references straight exactly when no attempt that it makes,
the last one it can make apart, finds `need` without `want`. -/
theorem getCaps_conserved_iff (view : Nat → Nat × Option Cap) (signal : Nat → Bool)
    (need want : CapMask) (r : CapRefs) :
    Conserved r (getCaps view signal need want r) ↔
      ¬Leaks (fun k => capsIssued (view k).1 (view k).2) signal need want 0 (2 * maxRounds) := by
  rw [getCaps, getCapsLoop_eq_attemptLoop]
  constructor
  · intro hcons hleak
    have hlt := attemptLoop_pin_lt _ 0 r hleak
    have heq := hcons.pin
    omega
  · exact conserved_of_not_leaks _ 0 r

def readWriteCap : Cap := capIssue 30 0 .fresh (wireCapsetToKernelBits 3)

/-- A writer that would like the exclusive bit takes the references of all 61 attempts and
reports those of one. -/
theorem not_getCaps_conserved :
    ¬∀ (view : Nat → Nat × Option Cap) (signal : Nat → Bool) (need want : CapMask)
      (r : CapRefs), Conserved r (getCaps view signal need want r) := by
  intro h
  have hcons := h (fun _ => (0, some readWriteCap)) (fun _ => false) capFileWr capFileExcl
    ⟨0, 0, 0, 0, 0, 0⟩
  exact absurd hcons.pin (by decide)

end PowerFS.Caps
