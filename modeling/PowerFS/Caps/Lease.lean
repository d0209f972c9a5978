import PowerFS.Caps.Cap
import PowerFS.Lib.Runs
import Mathlib.Algebra.Group.Nat.Defs

namespace PowerFS.Caps

open Runs

/-! How long a capability counts as valid: `cap_open_grant_and_issue`, the acquire path of
`powerfs_check_caps`, `powerfs_cap_renew_work_fn` and the messages that reissue bits. `lease` is
`POWERFS_LEASE_DURATION` and `toJiffies` the kernel's `msecs_to_jiffies`. -/

section Grant

variable (lease : Nat) (toJiffies : Nat → Nat)

/-- The expiry set from a reply, before `powerfs_cap_issue`. The argument of `msecs_to_jiffies`
is an `unsigned int`. -/
def replyExpire (now : Nat) (durMs : UInt64) : Nat :=
  if durMs ≠ 0 then now + toJiffies (durMs.toNat % 2 ^ 32) else now + lease

/-- The values a failed CapOpenGrant goes on with. -/
def GrantReply.degraded : GrantReply where
  token := []
  caps := 0
  epoch := 0
  sn := 0
  durMs := 0

/-- What both grant paths do with a reply; a token is cut to the 63 bytes that fit. -/
def applyReply (now : Nat) (cap : Cap) (r : GrantReply) : Cap :=
  capIssue lease now
    { cap with
      token := if r.token.length > 0 then r.token.take 63 else cap.token
      epoch := r.epoch
      seq := r.sn
      issueSeq := r.sn
      expire := replyExpire lease toJiffies now r.durMs }
    (wireCapsetToKernelBits r.caps)

/-- `cap_open_grant_and_issue`; `alloc` is the allocation of a missing capability. -/
def capOpenGrantAndIssue (now : Nat) (cap : Option Cap) (alloc : Bool)
    (rpc : Except Errno GrantReply) : Option Cap :=
  let r := match rpc with
    | .error _ => GrantReply.degraded
    | .ok r => r
  match cap with
  | some cap => some (applyReply lease toJiffies now cap r)
  | none => if alloc then some (applyReply lease toJiffies now .fresh r) else none

/-- The end of an AcquireCap request in `powerfs_check_caps`; a token that does not fit is not
taken over. -/
def acquireReply (now : Nat) (cap : Cap) (rpc : Except Errno GrantReply) : Cap :=
  match rpc with
  | .error _ => cap
  | .ok r =>
    applyReply lease toJiffies now cap
      { r with token := if r.token.length < 64 then r.token else [] }

/-- What the renewal sweep finds out about the inode. -/
structure SweepView where
  regular : Bool
  openWr : Bool
  dirty : Bool
  pagesDirty : Bool

/-- The test of `powerfs_cap_renew_work_fn` whether to send a CapOpenGrant. -/
def renewDue (now : Nat) (v : SweepView) (cap : Cap) : Bool :=
  v.regular && !cap.token.isEmpty && cap.capGen ≠ 0 &&
    (cap.expire = 0 || decide (cap.expire - lease / 3 ≤ now)) &&
    (v.openWr || v.dirty || v.pagesDirty)

/-- `powerfs_cap_renew_work_fn` for one inode. -/
def capRenew (now : Nat) (v : SweepView) (cap : Option Cap) (rpc : Except Errno GrantReply) :
    Option Cap :=
  match cap with
  | none => none
  | some c =>
    if renewDue lease now v c then capOpenGrantAndIssue lease toJiffies now (some c) true rpc
    else some c

end Grant

/-- An inode's capability, the time, and the Filer's replies so far with the time they arrived
and the time they grant. -/
structure LeaseState where
  now : Nat
  cap : Option Cap
  grants : List (Nat × Nat)

/-- What can happen to a capability. `upgrade` is a message that gives bits and names no
duration: CapUpgradeNotify, the reply to a CapRecallAck or to a CapRelease. -/
inductive LeaseEvent where
  | tick (elapsed : Nat)
  | openGrant (alloc : Bool) (rpc : Except Errno GrantReply)
  | acquire (rpc : Except Errno GrantReply)
  | sweep (view : SweepView) (rpc : Except Errno GrantReply)
  | upgrade (caps : UInt8) (epoch sn : UInt64)
  | recallNotify (retain : UInt8) (epoch : UInt64)

section Steps

variable (lease : Nat) (toJiffies : Nat → Nat)

def granted (r : GrantReply) : Nat := if r.durMs ≠ 0 then toJiffies r.durMs.toNat else lease

def record (s : LeaseState) : Except Errno GrantReply → List (Nat × Nat)
  | .error _ => s.grants
  | .ok r => (s.now, granted lease toJiffies r) :: s.grants

/-- One event. Messages for an inode without a capability are dropped. -/
def leaseStep (s : LeaseState) : LeaseEvent → LeaseState
  | .tick elapsed => { s with now := s.now + elapsed }
  | .openGrant alloc rpc =>
    { s with
      cap := capOpenGrantAndIssue lease toJiffies s.now s.cap alloc rpc
      grants := record lease toJiffies s rpc }
  | .acquire rpc =>
    match s.cap with
    | none => s
    | some cap =>
      { s with
        cap := some (acquireReply lease toJiffies s.now cap rpc)
        grants := record lease toJiffies s rpc }
  | .sweep view rpc =>
    match s.cap with
    | none => s
    | some cap =>
      if renewDue lease s.now view cap then
        { s with
          cap := capRenew lease toJiffies s.now view s.cap rpc
          grants := record lease toJiffies s rpc }
      else s
  | .upgrade caps epoch sn =>
    match s.cap with
    | none => s
    | some cap =>
      { s with
        cap := some (capUpgrade lease s.now cap caps epoch sn)
        grants := (s.now, lease) :: s.grants }
  | .recallNotify retain epoch => { s with cap := s.cap.map fun cap => capRecall cap retain epoch }

/-- A capability that counts as valid is covered by a reply. -/
def LeaseSafe (s : LeaseState) : Prop :=
  ∀ cap, s.cap = some cap → capIsValid s.now cap = true →
    ∃ g ∈ s.grants, g.1 ≤ s.now ∧ s.now < g.1 + g.2

/-- The time up to which a reissued capability would count as valid is granted already. -/
def Covered (s : LeaseState) : Prop := ∃ g ∈ s.grants, s.now + lease ≤ g.1 + g.2

/-- The condition on a request whose result reissues the capability. -/
def ReplyOk (s : LeaseState) : Except Errno GrantReply → Prop
  | .error _ => Covered lease s
  | .ok r => lease ≤ granted lease toJiffies r ∨ Covered lease s

def LeaseOk (s : LeaseState) : LeaseEvent → Prop
  | .openGrant alloc rpc => s.cap ≠ none ∨ alloc = true → ReplyOk lease toJiffies s rpc
  | .acquire (.ok r) => s.cap ≠ none → ReplyOk lease toJiffies s (.ok r)
  | .sweep view rpc =>
    (∃ cap, s.cap = some cap ∧ renewDue lease s.now view cap = true) →
      ReplyOk lease toJiffies s rpc
  | _ => True

/-- A capability was reissued and its new expiry is granted. -/
structure Reissued (s s' : LeaseState) : Prop where
  now : s'.now = s.now
  cap : ∃ cap, s'.cap = some cap ∧ cap.capGen = 1 ∧ cap.expire = s.now + lease
  grants : s'.grants = s.grants ∨ ∃ d, s'.grants = (s.now, d) :: s.grants

/-- Nothing that decides about validity changed. -/
structure Untouched (s s' : LeaseState) : Prop where
  now : s'.now = s.now
  cap : s'.cap.map (fun cap => cap.expire) = s.cap.map (fun cap => cap.expire)
  grants : s'.grants = s.grants ∨ ∃ d, s'.grants = (s.now, d) :: s.grants

variable {lease toJiffies} {s : LeaseState}

theorem record_cases (rpc : Except Errno GrantReply) :
    record lease toJiffies s rpc = s.grants ∨
      ∃ d, record lease toJiffies s rpc = (s.now, d) :: s.grants := by
  cases rpc with
  | error e => exact .inl rfl
  | ok r => exact .inr ⟨_, rfl⟩

theorem covered_record_iff (rpc : Except Errno GrantReply) :
    (∃ g ∈ record lease toJiffies s rpc, s.now + lease ≤ g.1 + g.2) ↔
      ReplyOk lease toJiffies s rpc := by
  cases rpc with
  | error e => rfl
  | ok r => simp [record, ReplyOk, Covered]

theorem untouched_self (s : LeaseState) : Untouched s s := ⟨rfl, rfl, .inl rfl⟩

theorem capOpenGrantAndIssue_reissues {now : Nat} {cap : Option Cap} {alloc : Bool}
    (rpc : Except Errno GrantReply) (h : cap ≠ none ∨ alloc = true) :
    ∃ c, capOpenGrantAndIssue lease toJiffies now cap alloc rpc = some c ∧ c.capGen = 1 ∧
      c.expire = now + lease := by
  cases cap with
  | some c => exact ⟨_, rfl, rfl, rfl⟩
  | none =>
    have halloc : alloc = true := h.resolve_left fun hne => hne rfl
    subst halloc
    exact ⟨_, rfl, rfl, rfl⟩

theorem leaseStep_cases (e : LeaseEvent) :
    (∃ elapsed, e = .tick elapsed) ∨
      Untouched s (leaseStep lease toJiffies s e) ∧ LeaseOk lease toJiffies s e ∨
      Reissued lease s (leaseStep lease toJiffies s e) ∧
        (LeaseOk lease toJiffies s e ↔
          ∃ g ∈ (leaseStep lease toJiffies s e).grants, s.now + lease ≤ g.1 + g.2) := by
  cases e with
  | tick elapsed => exact .inl ⟨elapsed, rfl⟩
  | openGrant alloc rpc =>
    right
    by_cases happlied : s.cap ≠ none ∨ alloc = true
    · right
      refine ⟨⟨rfl, capOpenGrantAndIssue_reissues rpc happlied, record_cases rpc⟩, ?_⟩
      simp only [leaseStep, covered_record_iff]
      exact forall_prop_of_true happlied
    · left
      refine ⟨⟨rfl, ?_, record_cases rpc⟩, fun h => absurd h happlied⟩
      obtain ⟨hcap, halloc⟩ := not_or.mp happlied
      rw [Decidable.not_not] at hcap
      simp [leaseStep, capOpenGrantAndIssue, hcap, halloc]
  | acquire rpc =>
    right
    cases hcap : s.cap with
    | none =>
      left
      have hdropped : leaseStep lease toJiffies s (.acquire rpc) = s := by simp [leaseStep, hcap]
      rw [hdropped]
      refine ⟨untouched_self s, ?_⟩
      cases rpc <;> simp [LeaseOk, hcap]
    | some cap =>
      cases rpc with
      | error err =>
        left
        exact ⟨⟨by simp [leaseStep, hcap], by simp [leaseStep, hcap, acquireReply],
          by simp [leaseStep, hcap, record]⟩, trivial⟩
      | ok r =>
        right
        refine ⟨⟨by simp [leaseStep, hcap], ⟨_, by simp only [leaseStep, hcap]; rfl,
          rfl, rfl⟩, by simp [leaseStep, hcap, record]⟩, ?_⟩
        simp only [leaseStep, LeaseOk, hcap, covered_record_iff]
        simp
  | sweep view rpc =>
    right
    by_cases hdue : ∃ cap, s.cap = some cap ∧ renewDue lease s.now view cap = true
    · right
      obtain ⟨cap, hcap, hrenew⟩ := id hdue
      have hstep : leaseStep lease toJiffies s (.sweep view rpc) = { s with
          cap := capOpenGrantAndIssue lease toJiffies s.now (some cap) true rpc
          grants := record lease toJiffies s rpc } := by
        simp [leaseStep, capRenew, hcap, hrenew]
      rw [hstep]
      have hcap' :=
        @capOpenGrantAndIssue_reissues lease toJiffies s.now (some cap) true rpc (.inr rfl)
      refine ⟨⟨rfl, hcap', record_cases rpc⟩, ?_⟩
      simp only [covered_record_iff]
      exact forall_prop_of_true hdue
    · left
      have hskipped : leaseStep lease toJiffies s (.sweep view rpc) = s := by
        cases hcap : s.cap with
        | none => simp [leaseStep, hcap]
        | some cap =>
          have hnot : renewDue lease s.now view cap = false :=
            Bool.eq_false_iff.mpr fun hrenew => hdue ⟨cap, hcap, hrenew⟩
          simp [leaseStep, hcap, hnot]
      rw [hskipped]
      exact ⟨untouched_self s, fun h => absurd h hdue⟩
  | upgrade caps epoch sn =>
    right
    cases hcap : s.cap with
    | none =>
      left
      have hdropped : leaseStep lease toJiffies s (.upgrade caps epoch sn) = s := by
        simp [leaseStep, hcap]
      rw [hdropped]
      exact ⟨untouched_self s, trivial⟩
    | some cap =>
      right
      refine ⟨⟨by simp [leaseStep, hcap], ⟨_, by simp only [leaseStep, hcap]; rfl, rfl, rfl⟩,
        .inr ⟨lease, by simp [leaseStep, hcap]⟩⟩, ?_⟩
      simp [leaseStep, hcap, LeaseOk]
  | recallNotify retain epoch =>
    right
    left
    refine ⟨⟨rfl, ?_, .inl rfl⟩, trivial⟩
    simp only [leaseStep, Option.map_map]
    rfl

/-- The clock only runs forward, and an expiry never outlasts the grants. -/
structure LeaseInv (s : LeaseState) : Prop where
  past : ∀ g ∈ s.grants, g.1 ≤ s.now
  covered : ∀ cap, s.cap = some cap → cap.expire ≠ 0 ∧ ∃ g ∈ s.grants, cap.expire ≤ g.1 + g.2

theorem LeaseInv.safe (h : LeaseInv s) : LeaseSafe s := by
  intro cap hcap hvalid
  obtain ⟨hne, g, hg, hle⟩ := h.covered cap hcap
  refine ⟨g, hg, h.past g hg, ?_⟩
  simp only [capIsValid, Bool.and_eq_true] at hvalid
  have hlt : s.now < cap.expire := by simpa [hne] using hvalid.2
  omega

theorem past_of_grants {s' : LeaseState} (h : ∀ g ∈ s.grants, g.1 ≤ s.now) (hnow : s'.now = s.now)
    (hgrants : s'.grants = s.grants ∨ ∃ d, s'.grants = (s.now, d) :: s.grants) :
    (∀ g ∈ s'.grants, g.1 ≤ s'.now) ∧ ∀ g ∈ s.grants, g ∈ s'.grants := by
  rcases hgrants with heq | ⟨d, heq⟩
  · rw [heq, hnow]
    exact ⟨h, fun _ hg => hg⟩
  · rw [heq, hnow]
    refine ⟨fun g hg => ?_, fun g hg => List.mem_cons_of_mem _ hg⟩
    rcases List.mem_cons.mp hg with rfl | hg
    · exact Nat.le_refl _
    · exact h g hg

theorem LeaseInv.step (hlease : 0 < lease) (h : LeaseInv s) {e : LeaseEvent}
    (hok : LeaseOk lease toJiffies s e) : LeaseInv (leaseStep lease toJiffies s e) := by
  rcases leaseStep_cases e with ⟨elapsed, rfl⟩ | ⟨hunt, -⟩ | ⟨hre, hiff⟩
  · exact ⟨fun g hg => Nat.le_trans (h.past g hg) (Nat.le_add_right _ _), h.covered⟩
  · obtain ⟨hpast, hmem⟩ := past_of_grants h.past hunt.now hunt.grants
    refine ⟨hpast, fun cap hcap => ?_⟩
    -- the expiry is that of the capability before
    have hexp := hunt.cap
    rw [hcap, Option.map_some, eq_comm, Option.map_eq_some_iff] at hexp
    obtain ⟨old, hold, heq⟩ := hexp
    obtain ⟨hne, g, hg, hle⟩ := h.covered old hold
    rw [← heq]
    exact ⟨hne, g, hmem g hg, hle⟩
  · obtain ⟨hpast, -⟩ := past_of_grants h.past hre.now hre.grants
    refine ⟨hpast, fun cap hcap => ?_⟩
    obtain ⟨cap', hcap', -, hexp⟩ := hre.cap
    cases hcap.symm.trans hcap'
    rw [hexp]
    exact ⟨by omega, hiff.mp hok⟩

end Steps

/-- A run starts with an inode that has no capability and knows no replies. -/
def leaseInit (s : LeaseState) : Prop := s.cap = none ∧ s.grants = []

/-- In every run that meets the condition, no capability outlives its lease; after an event that
does not meet it, one does, if the client is left alone for long enough. -/
theorem leaseSafe_of_leaseOk (lease : Nat) (toJiffies : Nat → Nat) (hlease : 0 < lease) :
    (∀ s, Reach (fun s e s' => s' = leaseStep lease toJiffies s e) (LeaseOk lease toJiffies)
      leaseInit s → LeaseSafe s) ∧
    ∀ s e, ¬LeaseOk lease toJiffies s e →
      ∃ elapsed, ¬LeaseSafe (leaseStep lease toJiffies (leaseStep lease toJiffies s e)
        (.tick elapsed)) := by
  constructor
  · intro s hreach
    refine LeaseInv.safe (hreach.invariant ?_ ?_)
    · rintro s ⟨hcap, hgrants⟩
      exact ⟨by simp [hgrants], by simp [hcap]⟩
    · rintro s e s' hinv hok rfl
      exact hinv.step hlease hok
  · intro s e hbad
    rcases @leaseStep_cases lease toJiffies s e with ⟨elapsed, rfl⟩ | ⟨-, hok⟩ | ⟨hre, hiff⟩
    · exact absurd trivial hbad
    · exact absurd hok hbad
    · -- just before the new expiry the capability is valid and all grants have run out
      refine ⟨lease - 1, fun hsafe => ?_⟩
      obtain ⟨cap, hcap, hgen, hexp⟩ := hre.cap
      have hnow : (leaseStep lease toJiffies (leaseStep lease toJiffies s e)
          (.tick (lease - 1))).now = s.now + (lease - 1) := by
        rw [← hre.now]
        rfl
      obtain ⟨g, hg, -, hlt⟩ := hsafe cap hcap (by
        simp only [capIsValid, hgen]
        simp
        omega)
      exact hbad (hiff.mpr ⟨g, hg, by omega⟩)

/-- With 1000 jiffies a second. -/
theorem leaseSafe_of_leaseOk_1000 :
    0 < 30000 ∧
      (∀ s, Reach (fun s e s' => s' = leaseStep 30000 id s e) (LeaseOk 30000 id) leaseInit s →
        LeaseSafe s) ∧
      ∀ s e, ¬LeaseOk 30000 id s e →
        ∃ elapsed, ¬LeaseSafe (leaseStep 30000 id (leaseStep 30000 id s e) (.tick elapsed)) :=
  ⟨by decide, leaseSafe_of_leaseOk 30000 id (by decide)⟩

/-- A CapOpenGrant that times out leaves a valid capability without any grant. -/
theorem not_leaseSafe_runs :
    ¬∀ (lease : Nat) (toJiffies : Nat → Nat), 0 < lease → ∀ s,
      Reach (fun s e s' => s' = leaseStep lease toJiffies s e) (fun _ _ => True) leaseInit s →
        LeaseSafe s := by
  intro h
  have hreach : Reach (fun s e s' => s' = leaseStep 30000 id s e) (fun _ _ => True) leaseInit
      (leaseStep 30000 id ⟨0, none, []⟩ (.openGrant true (.error .etimedout))) :=
    .next (.start ⟨rfl, rfl⟩) trivial rfl
  obtain ⟨g, hg, -⟩ := h 30000 id (by decide) _ hreach _ rfl (by decide)
  cases hg

end PowerFS.Caps
