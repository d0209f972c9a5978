import PowerFS.Caps.Flush
import PowerFS.Caps.Lease
import PowerFS.Dir.DirtyCreates

namespace PowerFS.Dir

open Caps

/-! Optimistic creates and the recall of a directory's `AUTH_EXCL`: the fast path of
`__powerfs_do_create_core` next to `powerfs_cap_revoke`. The VFS holds `i_rwsem` of the directory
over a create, so there is one at a time; recalls and flushes do not take it. -/

/-- `has_dir_auth_excl`. -/
def hasDirAuthExcl : Option Cap → Bool
  | some cap => cap.issued.has capAuthExcl
  | none => false

/-- Where a create stands: before the CapOpenGrant that asks for `AUTH_EXCL`, before the second
check, after a check that found `AUTH_EXCL`, and before it returns. -/
inductive CreatePc where
  | idle
  | refused
  | granted
  | checked
  | queued
  deriving DecidableEq

/-- Where a `powerfs_cap_revoke` that takes `AUTH_EXCL` stands: before `cancel_delayed_work_sync`,
before its flush, and after the start of the flush. -/
inductive RevokePc where
  | idle
  | cancel
  | flush
  | flushing
  deriving DecidableEq

/-- `flush 0` is the worker; a recall flushes under its own number. `acks` are the creates that
returned without the Filer, with time and capability; `ceded`: a CapRecallAck was sent and
`AUTH_EXCL` not granted since. -/
structure ExclState where
  caps : LeaseState
  dirty : DirtyState
  creating : CreatePc
  revoke : Nat → RevokePc
  acks : List (Nat × Option Cap)
  ceded : Bool

/-- What can happen. `createGrant` is the CapOpenGrant of a create, `createSlow` a create that gets
no inode number or no inode, and `alloc` the allocation of its `powerfs_dirty_create`. -/
inductive ExclEvent where
  | cap (e : LeaseEvent)
  | dirty (e : DirtyEvent)
  | createStart
  | createGrant (alloc : Bool) (rpc : Except Errno GrantReply)
  | createRecheck
  | createSlow
  | createQueue (dc : DirtyCreate) (alloc : Bool)
  | createReturn
  | revoke (r : Nat) (retain : UInt8) (epoch : UInt64)
  | revokeCancel (r : Nat)
  | revokeFlush (r : Nat)
  | revokeAck (r : Nat)

/-- The message or reply gives the X bit, which stands for `AUTH_EXCL`. -/
def givesExcl : LeaseEvent → Bool
  | .openGrant _ (.ok r) | .acquire (.ok r) | .sweep _ (.ok r) => r.caps &&& 4 ≠ 0
  | .upgrade caps _ _ => caps &&& 4 ≠ 0
  | _ => false

section Steps

variable (lease : Nat) (toJiffies : Nat → Nat)

/-- A capability message or reply arrives, or time passes. -/
def ExclState.capEvent (s : ExclState) (e : LeaseEvent) : ExclState :=
  { s with
    caps := leaseStep lease toJiffies s.caps e
    ceded := s.ceded && !hasDirAuthExcl (leaseStep lease toJiffies s.caps e).cap }

/-- One event; `none` if it cannot happen. -/
def exclExec (s : ExclState) : ExclEvent → Option ExclState
  | .cap e =>
    match e with
    | .recallNotify .. => none
    | e => some (s.capEvent lease toJiffies e)
  | .dirty e =>
    match e with
    | .create _ => none
    | .collect t =>
      if s.revoke t = .idle then (dirtyExec s.dirty (.collect t)).map fun d => { s with dirty := d }
      else none
    | e => (dirtyExec s.dirty e).map fun d => { s with dirty := d }
  | .createStart =>
    if s.creating = .idle then
      some { s with creating := if hasDirAuthExcl s.caps.cap then .checked else .refused }
    else none
  | .createGrant alloc rpc =>
    if s.creating = .refused then
      some { s.capEvent lease toJiffies (.openGrant alloc rpc) with creating := .granted }
    else none
  | .createRecheck =>
    if s.creating = .granted then
      some { s with creating := if hasDirAuthExcl s.caps.cap then .checked else .idle }
    else none
  | .createSlow => if s.creating = .checked then some { s with creating := .idle } else none
  | .createQueue dc alloc =>
    if s.creating = .checked then
      some { s with
        dirty := if alloc then { s.dirty with dir := s.dirty.dir.add dc } else s.dirty
        creating := .queued }
    else none
  | .createReturn =>
    if s.creating = .queued then
      some { s with creating := .idle, acks := (s.caps.now, s.caps.cap) :: s.acks }
    else none
  | .revoke r retain epoch =>
    if r = 0 ∨ s.revoke r ≠ .idle then none
    else match s.caps.cap with
      | none => some s
      | some cap =>
        some { s with
          caps := { s.caps with cap := some (capRecall cap retain epoch) }
          revoke := if (recallBits cap retain).has capAuthExcl then
            Function.update s.revoke r .cancel else s.revoke }
  | .revokeCancel r =>
    match s.revoke r, s.dirty.flush 0 with
    | .cancel, .idle => some { s with revoke := Function.update s.revoke r .flush }
    | _, _ => none
  | .revokeFlush r =>
    if s.revoke r = .flush then
      (dirtyExec s.dirty (.collect r)).map fun d =>
        { s with dirty := d, revoke := Function.update s.revoke r .flushing }
    else none
  | .revokeAck r =>
    -- The flush has returned, with whatever result.
    match s.revoke r, s.dirty.flush r with
    | .flushing, .idle =>
      some { s with revoke := Function.update s.revoke r .idle, ceded := true }
    | _, _ => none

end Steps

/-- `AUTH_EXCL` is held and the capability is valid. -/
def HoldsExcl (now : Nat) (cap : Option Cap) : Prop :=
  ∃ c, cap = some c ∧ c.issued.has capAuthExcl = true ∧ capIsValid now c = true

/-- Creates were acknowledged under a valid `AUTH_EXCL` only, and none is queued or in flight once
it is given up. -/
structure ExclSafe (s : ExclState) : Prop where
  acks : ∀ a ∈ s.acks, HoldsExcl a.1 a.2
  ceded : s.ceded = true → ∀ name, ¬ s.dirty.Holds name

/-- A mounted directory without creates. -/
structure ExclInit (s : ExclState) : Prop where
  dirty : DirtyInit s.dirty
  creating : s.creating = .idle
  revoke : s.revoke = fun _ => .idle
  acks : s.acks = []
  ceded : s.ceded = false

def CreatePc.active : CreatePc → Bool
  | .checked | .queued => true
  | _ => false

/-- The recall takes `AUTH_EXCL`. -/
def TakesExcl (cap : Option Cap) (retain : UInt8) : Prop :=
  ∃ c, cap = some c ∧ (recallBits c retain).has capAuthExcl = true

/-- No recall is under way. -/
def NoRevoke (s : ExclState) : Prop := ∀ r, s.revoke r = .idle

def CapValid (now : Nat) (cap : Option Cap) : Prop := ∀ c, cap = some c → capIsValid now c = true

/-- A create is checked and returns while the lease runs and no recall of `AUTH_EXCL` comes in
between; `AUTH_EXCL` is not granted during a recall; the recall's flush succeeds and is the only one
with creates; flushes put nothing back onto a list that is not empty. -/
def ExclOk (s : ExclState) : ExclEvent → Prop
  | .cap (.tick elapsed) =>
    s.creating.active = true → CapValid (s.caps.now + elapsed) s.caps.cap
  | .cap e => givesExcl e = true → NoRevoke s
  | .createGrant alloc rpc => givesExcl (.openGrant alloc rpc) = true → NoRevoke s
  | .createStart | .createRecheck =>
    hasDirAuthExcl s.caps.cap = true → CapValid s.caps.now s.caps.cap
  | .createQueue dc _ => DirtyOk s.dirty (.create dc)
  | .revoke _ retain _ => TakesExcl s.caps.cap retain → s.creating.active = false
  | .revokeFlush r => ∀ t, t ≠ r → (s.dirty.flush t).batch = []
  | .dirty (.alloc t ok) => DirtyOk s.dirty (.alloc t ok) ∧ (s.revoke t = .flushing → ok = true)
  | .dirty (.reply t ok) => s.revoke t = .flushing → ok = true
  | .dirty e => DirtyOk s.dirty e
  | _ => True

/-- No create is queued, and only flushes in `p` have creates. -/
structure DrainedBut (s : DirtyState) (p : Nat → Prop) : Prop where
  creates : s.dir.creates = []
  batch : ∀ t, ¬ p t → (s.flush t).batch = []

structure ExclInv (s : ExclState) : Prop where
  dirty : DirtyInv s.dirty
  creating : s.creating.active = true → HoldsExcl s.caps.now s.caps.cap
  lost : (∃ r, s.revoke r ≠ .idle) ∨ s.ceded = true → hasDirAuthExcl s.caps.cap = false
  flushing : ∀ r, s.revoke r = .flushing →
    DrainedBut s.dirty (· = r) ∧ ∀ batch count, s.dirty.flush r ≠ .failed batch count
  ceded : s.ceded = true → DrainedBut s.dirty fun _ => False
  acks : ∀ a ∈ s.acks, HoldsExcl a.1 a.2

section Dirty

variable {d : DirtyCreates} {s s' : DirtyState} {e : DirtyEvent} {p : Nat → Prop}

theorem DrainedBut.set {t : Nat} {pc : FlushPc} (h : DrainedBut s p) (hd : d.creates = [])
    (hpc : ¬ p t → pc.batch = []) : DrainedBut (s.set d t pc) p := by
  refine ⟨hd, fun u hu => ?_⟩
  by_cases hut : u = t
  · subst hut
    simpa [DirtyState.set] using hpc hu
  · simpa [DirtyState.set, hut] using h.batch u hu

/-- A flush that has no creates, or is in `p` and succeeds, puts nothing back. -/
theorem DrainedBut.step (h : DrainedBut s p) (hinv : DirtyInv s)
    (hcreate : ∀ dc, e ≠ .create dc) (halloc : ∀ t ok, p t → e = .alloc t ok → ok = true)
    (hreply : ∀ t batch count, p t → s.flush t ≠ .failed batch count)
    (hs : dirtyExec s e = some s') : DrainedBut s' p := by
  have hbatch : ∀ {t pc}, s.flush t = pc → ¬ p t → pc.batch = [] := fun hpc ht => hpc ▸ h.batch _ ht
  cases dirtyExec_case hs with
  | create dc => exact absurd rfl (hcreate dc)
  | cancel name =>
    refine ⟨?_, h.batch⟩
    simp [DirtyCreates.cancel, h.creates]
  | updateTimes ino mtime atime =>
    refine ⟨?_, h.batch⟩
    simp [DirtyCreates.updateTimes, h.creates, setTimes]
  | nothing => exact h
  | collected hpc hcount =>
    refine absurd ?_ hcount
    rw [← Int32.toInt_inj, hinv.count, h.creates]
    rfl
  | sent hpc | refused hpc =>
    have hempty := fun ht => hbatch hpc ht
    exact h.set h.creates hempty
  | @unsent t ok batch count hpc hnull =>
    have ht : ¬ p t := fun ht => hnull ⟨halloc t ok ht rfl, hinv.count_nonneg hpc⟩
    have hempty : batch = [] := hbatch hpc ht
    refine h.set ?_ fun _ => rfl
    simp [DirtyCreates.requeue, hempty, h.creates]
  | replied | finished => exact h.set h.creates fun _ => rfl
  | gaveUp => exact h.set rfl fun _ => rfl
  | @requeued t batch count hpc hfew =>
    have hempty : batch = [] := hbatch hpc fun ht => hreply t batch count ht hpc
    refine h.set ?_ fun _ => rfl
    simp [DirtyCreates.requeue, hempty, h.creates]
  | evict =>
    refine ⟨?_, h.batch⟩
    simp only [DirtyCreates.evict]
    split
    · rfl
    · exact h.creates

theorem flush_ne_failed {r : Nat} (h : ∀ batch count, s.flush r ≠ .failed batch count)
    (hreply : ∀ ok, e = .reply r ok → ok = true) (hs : dirtyExec s e = some s') :
    ∀ batch count, s'.flush r ≠ .failed batch count := by
  have hset : ∀ {d t pc}, (r = t → ∀ batch count, pc ≠ .failed batch count) →
      ∀ batch count, (s.set d t pc).flush r ≠ .failed batch count := by
    intro d t pc hpc
    by_cases hrt : r = t
    · subst hrt
      simpa [DirtyState.set] using hpc rfl
    · simpa [DirtyState.set, hrt] using h
  cases dirtyExec_case hs with
  | create | cancel | updateTimes | nothing | evict => exact h
  | collected | sent | unsent | replied | gaveUp | requeued | finished =>
    exact hset fun _ _ _ => by simp
  | refused hpc =>
    refine hset fun hrt => ?_
    subst hrt
    exact absurd (hreply false rfl) Bool.false_ne_true

end Dirty

section Capability

variable {lease : Nat} {toJiffies : Nat → Nat} {now : Nat} {c : Cap} {cap : Option Cap}

theorem has_capAuthExcl (mask : CapMask) : mask.has capAuthExcl = mask.getLsbD 2 := by
  rw [Bool.eq_iff_iff, has_iff]
  constructor
  · rintro ⟨i, hmask, hbit⟩
    have hi : i = 2 := by
      rw [capAuthExcl, BitVec.getLsbD_shiftLeft] at hbit
      simp at hbit
      omega
    exact hi ▸ hmask
  · exact fun hmask => ⟨2, hmask, rfl⟩

theorem wire_has_capAuthExcl (caps : UInt8) :
    (wireCapsetToKernelBits caps).has capAuthExcl = decide (caps &&& 4 ≠ 0) := by
  rw [wireCapsetToKernelBits]
  split <;> split <;> split <;> simp_all <;> decide

/-- The bits of a capability, none without one. -/
def issuedBits : Option Cap → CapMask
  | some c => c.issued
  | none => 0

theorem hasDirAuthExcl_eq (cap : Option Cap) :
    hasDirAuthExcl cap = (issuedBits cap).getLsbD 2 := by
  cases cap with
  | none => rfl
  | some c => exact has_capAuthExcl c.issued

/-- The capability stays as it is, or bits are issued; `AUTH_EXCL` among them only if `gives`. -/
def IssuesOnly (lease now : Nat) (cap cap' : Option Cap) (gives : Bool) : Prop :=
  cap' = cap ∨ ∃ c bits, cap' = some (capIssue lease now c bits) ∧ c.issued = issuedBits cap ∧
    (bits.has capAuthExcl = true → gives = true)

variable {cap' : Option Cap} {gives : Bool}

theorem applyReply_issuesOnly (r : GrantReply) (hissued : c.issued = issuedBits cap)
    (hgives : decide (r.caps &&& 4 ≠ 0) = true → gives = true) :
    IssuesOnly lease now cap (some (applyReply lease toJiffies now c r)) gives := by
  refine .inr ⟨_, _, rfl, hissued, fun hbit => hgives ?_⟩
  rwa [wire_has_capAuthExcl] at hbit

theorem capOpenGrantAndIssue_issuesOnly (alloc : Bool) (rpc : Except Errno GrantReply) :
    IssuesOnly lease now cap (capOpenGrantAndIssue lease toJiffies now cap alloc rpc)
      (givesExcl (.openGrant alloc rpc)) := by
  -- With either reply a missing capability is allocated or stays missing.
  have hreply : ∀ r : GrantReply,
      (decide (r.caps &&& 4 ≠ 0) = true → givesExcl (.openGrant alloc rpc) = true) →
      IssuesOnly lease now cap (match cap with
        | some c => some (applyReply lease toJiffies now c r)
        | none => if alloc then some (applyReply lease toJiffies now .fresh r) else none)
        (givesExcl (.openGrant alloc rpc)) := by
    intro r hgives
    cases cap with
    | some c => exact applyReply_issuesOnly r rfl hgives
    | none =>
      cases alloc with
      | false => exact .inl rfl
      | true => exact applyReply_issuesOnly r rfl hgives
  cases rpc with
  | error err => exact hreply .degraded (by simp [GrantReply.degraded])
  | ok r => exact hreply r id

theorem leaseStep_issuesOnly (s : LeaseState) {e : LeaseEvent}
    (he : ∀ retain epoch, e ≠ .recallNotify retain epoch) :
    IssuesOnly lease s.now s.cap (leaseStep lease toJiffies s e).cap (givesExcl e) := by
  cases e with
  | tick elapsed => exact .inl rfl
  | openGrant alloc rpc => exact capOpenGrantAndIssue_issuesOnly alloc rpc
  | acquire rpc =>
    cases hcap : s.cap with
    | none => simp [leaseStep, hcap, IssuesOnly]
    | some c =>
      simp only [leaseStep, hcap]
      cases rpc with
      | error err => exact .inl rfl
      | ok r => exact applyReply_issuesOnly _ rfl id
  | sweep view rpc =>
    cases hcap : s.cap with
    | none => simp [leaseStep, hcap, IssuesOnly]
    | some c =>
      by_cases hdue : renewDue lease s.now view c = true
      · have hstep : (leaseStep lease toJiffies s (.sweep view rpc)).cap =
            capOpenGrantAndIssue lease toJiffies s.now (some c) true rpc := by
          simp [leaseStep, capRenew, hcap, hdue]
        have hgives : givesExcl (.sweep view rpc) = givesExcl (.openGrant true rpc) := by
          cases rpc <;> rfl
        rw [hstep, hgives]
        exact capOpenGrantAndIssue_issuesOnly true rpc
      · simp [leaseStep, hcap, hdue, IssuesOnly]
  | upgrade caps epoch sn =>
    cases hcap : s.cap with
    | none => simp [leaseStep, hcap, IssuesOnly]
    | some c =>
      simp only [leaseStep, hcap]
      refine .inr ⟨_, _, rfl, rfl, fun hbit => ?_⟩
      rwa [wire_has_capAuthExcl] at hbit
  | recallNotify retain epoch => exact absurd rfl (he retain epoch)

theorem IssuesOnly.holdsExcl (h : IssuesOnly lease now cap cap' gives) (hlease : 0 < lease)
    (hold : HoldsExcl now cap) : HoldsExcl now cap' := by
  obtain rfl | ⟨c, bits, rfl, hissued, _⟩ := h
  · exact hold
  · obtain ⟨c₀, rfl, hbit, _⟩ := hold
    refine ⟨_, rfl, ?_, ?_⟩
    · rw [has_capAuthExcl] at hbit ⊢
      simp [capIssue, hissued, issuedBits, hbit]
    · have hlater : ¬ now + lease ≤ now := by omega
      simp [capIsValid, capIssue, hlater]

theorem IssuesOnly.not_hasDirAuthExcl (h : IssuesOnly lease now cap cap' gives)
    (hgives : gives = false) (hnot : hasDirAuthExcl cap = false) : hasDirAuthExcl cap' = false := by
  obtain rfl | ⟨c, bits, rfl, hissued, hbits⟩ := h
  · exact hnot
  · rw [has_capAuthExcl, hgives] at hbits
    rw [hasDirAuthExcl_eq] at hnot ⊢
    show (c.issued ||| bits).getLsbD 2 = false
    rw [BitVec.getLsbD_or, hissued, hnot]
    simpa using hbits

theorem capRecall_not_hasDirAuthExcl {retain : UInt8} {epoch : UInt64}
    (h : (recallBits c retain).has capAuthExcl = true) :
    hasDirAuthExcl (some (capRecall c retain epoch)) = false := by
  rw [has_capAuthExcl] at h
  rw [hasDirAuthExcl_eq]
  simp only [issuedBits, capRecall, getLsbD_andNot, h, Bool.not_true, Bool.and_false]

theorem capRecall_hasDirAuthExcl {retain : UInt8} {epoch : UInt64}
    (h : ¬ (recallBits c retain).has capAuthExcl = true) :
    hasDirAuthExcl (some (capRecall c retain epoch)) = hasDirAuthExcl (some c) := by
  rw [has_capAuthExcl] at h
  rw [hasDirAuthExcl_eq, hasDirAuthExcl_eq]
  simp only [issuedBits, capRecall, getLsbD_andNot, h, Bool.not_false, Bool.and_true]

theorem HoldsExcl.hasDirAuthExcl (h : HoldsExcl now cap) : hasDirAuthExcl cap = true := by
  obtain ⟨c, rfl, hbit, _⟩ := h
  exact hbit

theorem holdsExcl_of_valid (hbit : hasDirAuthExcl cap = true) (hvalid : CapValid now cap) :
    HoldsExcl now cap := by
  cases cap with
  | none => cases hbit
  | some c => exact ⟨c, rfl, hbit, hvalid c rfl⟩

end Capability

section Runs

variable {lease : Nat} {toJiffies : Nat → Nat} {s s' : ExclState}

theorem ExclInit.inv (h : ExclInit s) : ExclInv s := by
  refine ⟨h.dirty.inv, fun hactive => ?_, fun hlost => ?_, fun r hr => ?_, fun hceded => ?_,
    fun a ha => ?_⟩
  · rw [h.creating] at hactive
    cases hactive
  · obtain ⟨r, hr⟩ | hceded := hlost
    · rw [h.revoke] at hr
      exact absurd rfl hr
    · rw [h.ceded] at hceded
      cases hceded
  · rw [h.revoke] at hr
    cases hr
  · rw [h.ceded] at hceded
    cases hceded
  · rw [h.acks] at ha
    cases ha

theorem ExclInv.safe (h : ExclInv s) : ExclSafe s := by
  refine ⟨h.acks, fun hceded name => ?_⟩
  obtain ⟨hcreates, hbatch⟩ := h.ceded hceded
  rintro (hheld | ⟨t, hheld⟩)
  · rw [hcreates] at hheld
    cases hheld
  · rw [hbatch t id] at hheld
    cases hheld

/-- While a create is between its check and its return, `AUTH_EXCL` is not given up. -/
theorem ExclInv.quiet (h : ExclInv s) (hactive : s.creating.active = true) :
    NoRevoke s ∧ s.ceded = false := by
  have hbit := (h.creating hactive).hasDirAuthExcl
  constructor
  · intro r
    by_contra hr
    cases hbit.symm.trans (h.lost (.inl ⟨r, hr⟩))
  · cases hceded : s.ceded with
    | false => rfl
    | true => cases hbit.symm.trans (h.lost (.inr hceded))

theorem leaseStep_now (s : LeaseState) {e : LeaseEvent} (he : ∀ elapsed, e ≠ .tick elapsed) :
    (leaseStep lease toJiffies s e).now = s.now := by
  cases e with
  | tick elapsed => exact absurd rfl (he elapsed)
  | openGrant _ _ | recallNotify _ _ => rfl
  | acquire _ | upgrade _ _ _ =>
    simp only [leaseStep]
    split <;> rfl
  | sweep _ _ =>
    simp only [leaseStep]
    split
    · rfl
    · split <;> rfl

section

variable (h : ExclInv s)
include h

theorem ExclInv.capEvent {e : LeaseEvent} (hlease : 0 < lease)
    (hnotify : ∀ retain epoch, e ≠ .recallNotify retain epoch)
    (htick : ∀ elapsed, e = .tick elapsed → s.creating.active = true →
      CapValid (s.caps.now + elapsed) s.caps.cap)
    (hgives : givesExcl e = true → NoRevoke s) : ExclInv (s.capEvent lease toJiffies e) := by
  have hissues := @leaseStep_issuesOnly lease toJiffies s.caps e hnotify
  refine ⟨h.dirty, fun hactive => ?_, fun hlost => ?_, h.flushing, fun hceded => ?_, h.acks⟩
  · have hhold := h.creating hactive
    by_cases hpass : ∃ elapsed, e = .tick elapsed
    · obtain ⟨elapsed, rfl⟩ := hpass
      exact holdsExcl_of_valid hhold.hasDirAuthExcl (htick elapsed rfl hactive)
    · have hnow := @leaseStep_now lease toJiffies s.caps e fun elapsed heq => hpass ⟨elapsed, heq⟩
      simp only [ExclState.capEvent, hnow]
      exact hissues.holdsExcl hlease hhold
  · obtain ⟨r, hr⟩ | hceded := hlost
    · refine hissues.not_hasDirAuthExcl ?_ (h.lost (.inl ⟨r, hr⟩))
      rw [← Bool.not_eq_true]
      exact fun hgive => hr (hgives hgive r)
    · simp only [ExclState.capEvent, Bool.and_eq_true, Bool.not_eq_true'] at hceded
      exact hceded.2
  · simp only [ExclState.capEvent, Bool.and_eq_true] at hceded
    exact h.ceded hceded.1

theorem ExclInv.dirtyEvent {e : DirtyEvent} {d : DirtyState}
    (hcreate : ∀ dc, e ≠ .create dc) (hok : ExclOk s (.dirty e))
    (hs : dirtyExec s.dirty e = some d) : ExclInv { s with dirty := d } := by
  have hdirty : DirtyOk s.dirty e := by
    cases e with
    | alloc t ok => exact hok.1
    | reply t ok => trivial
    | _ => exact hok
  have halloc : ∀ r, s.revoke r = .flushing → ∀ ok, e = .alloc r ok → ok = true := by
    rintro r hr ok rfl
    exact hok.2 hr
  have hreply : ∀ r, s.revoke r = .flushing → ∀ ok, e = .reply r ok → ok = true := by
    rintro r hr ok rfl
    exact hok hr
  refine ⟨h.dirty.step hdirty hs, h.creating, h.lost, fun r hr => ?_, fun hceded => ?_, h.acks⟩
  · obtain ⟨hdrained, hfailed⟩ := h.flushing r hr
    refine ⟨hdrained.step h.dirty hcreate ?_ ?_ hs, flush_ne_failed hfailed (hreply r hr) hs⟩
    · rintro _ ok rfl
      exact halloc _ hr ok
    · rintro _ batch count rfl
      exact hfailed batch count
  · exact (h.ceded hceded).step h.dirty hcreate (fun _ _ => False.elim) (fun _ _ _ => False.elim) hs

theorem ExclInv.creating_to {pc : CreatePc}
    (hpc : pc.active = true → HoldsExcl s.caps.now s.caps.cap) :
    ExclInv { s with creating := pc } :=
  ⟨h.dirty, hpc, h.lost, h.flushing, h.ceded, h.acks⟩

theorem ExclInv.revoke_to {r : Nat} {pc : RevokePc} (hr : s.revoke r ≠ .idle)
    (hpc : pc ≠ .flushing) : ExclInv { s with revoke := Function.update s.revoke r pc } := by
  refine ⟨h.dirty, h.creating, fun _ => h.lost (.inl ⟨r, hr⟩), fun u hu => ?_, h.ceded, h.acks⟩
  by_cases hur : u = r
  · subst hur
    exact absurd (by simpa using hu) hpc
  · exact h.flushing u (by simpa [hur] using hu)

theorem ExclInv.createQueue {dc : DirtyCreate} {alloc : Bool}
    (hpc : s.creating = .checked) (hok : DirtyOk s.dirty (.create dc)) :
    ExclInv { s with
      dirty := if alloc then { s.dirty with dir := s.dirty.dir.add dc } else s.dirty
      creating := .queued } := by
  have hactive : s.creating.active = true := by rw [hpc]; rfl
  obtain ⟨hrevoke, hceded⟩ := h.quiet hactive
  refine ⟨?_, fun _ => h.creating hactive, h.lost, fun r hr => ?_, fun hceded' => ?_, h.acks⟩
  · cases alloc with
    | true => exact h.dirty.step hok rfl
    | false => exact h.dirty
  · cases (hrevoke r).symm.trans hr
  · cases hceded.symm.trans hceded'

theorem ExclInv.revoke {r : Nat} {retain : UInt8} {epoch : UInt64} {c : Cap}
    (hok : ExclOk s (.revoke r retain epoch)) (hcap : s.caps.cap = some c)
    (hr : s.revoke r = .idle) :
    ExclInv { s with
      caps := { s.caps with cap := some (capRecall c retain epoch) }
      revoke := if (recallBits c retain).has capAuthExcl then
        Function.update s.revoke r .cancel else s.revoke } := by
  split
  · next htakes =>
    have hinactive : s.creating.active = false := hok ⟨c, hcap, htakes⟩
    refine ⟨h.dirty, fun hactive => ?_, fun _ => capRecall_not_hasDirAuthExcl htakes,
      fun u hu => ?_, h.ceded, h.acks⟩
    · cases hinactive.symm.trans hactive
    · by_cases hur : u = r
      · subst hur
        simp at hu
      · exact h.flushing u (by simpa [hur] using hu)
  · next hkeeps =>
    have hsame := @capRecall_hasDirAuthExcl c retain epoch hkeeps
    refine ⟨h.dirty, fun hactive => ?_, fun hlost => ?_, h.flushing, h.ceded, h.acks⟩
    · obtain ⟨c', hc', hbit, hvalid⟩ := h.creating hactive
      cases hcap.symm.trans hc'
      exact ⟨_, rfl, hsame.trans hbit, hvalid⟩
    · rw [hsame, ← hcap]
      exact h.lost hlost

theorem ExclInv.revokeFlush {r : Nat} {d : DirtyState}
    (hok : ExclOk s (.revokeFlush r)) (hr : s.revoke r = .flush)
    (hs : dirtyExec s.dirty (.collect r) = some d) :
    ExclInv { s with dirty := d, revoke := Function.update s.revoke r .flushing } := by
  have hcreate : ∀ dc, DirtyEvent.collect r ≠ .create dc := nofun
  have halloc : ∀ t ok, DirtyEvent.collect r = .alloc t ok → ok = true := nofun
  have hreply : ∀ u ok, DirtyEvent.collect r = .reply u ok → ok = true := nofun
  have hstep : DirtyInv d := h.dirty.step (e := .collect r) trivial hs
  refine ⟨hstep, h.creating, fun _ => h.lost (.inl ⟨r, by simp [hr]⟩), fun u hu => ?_,
    fun hceded => ?_, h.acks⟩
  · by_cases hur : u = r
    · subst hur
      cases dirtyExec_case hs with
      | nothing hpc hcount =>
        refine ⟨⟨h.dirty.creates_eq_nil hcount, hok⟩, fun batch count hfailed => ?_⟩
        cases hpc.symm.trans hfailed
      | collected hpc hcount =>
        refine ⟨⟨rfl, fun t ht => ?_⟩, fun batch count => ?_⟩
        · simpa [DirtyState.set, ht] using hok t ht
        · simp [DirtyState.set]
    · obtain ⟨hdrained, hfailed⟩ := h.flushing u (by simpa [hur] using hu)
      refine ⟨hdrained.step h.dirty hcreate (fun t ok _ => halloc t ok) ?_ hs,
        flush_ne_failed (e := .collect r) hfailed (hreply u) hs⟩
      rintro _ batch count rfl
      exact hfailed batch count
  · exact (h.ceded hceded).step h.dirty hcreate (fun t ok _ => halloc t ok)
      (fun _ _ _ => False.elim) hs

theorem ExclInv.revokeAck {r : Nat} (hr : s.revoke r = .flushing) (hpc : s.dirty.flush r = .idle) :
    ExclInv { s with revoke := Function.update s.revoke r .idle, ceded := true } := by
  obtain ⟨hdrained, _⟩ := h.flushing r hr
  refine ⟨h.dirty, h.creating, fun _ => h.lost (.inl ⟨r, by rw [hr]; nofun⟩), fun u hu => ?_,
    fun _ => ⟨hdrained.creates, fun t _ => ?_⟩, h.acks⟩
  · by_cases hur : u = r
    · subst hur
      simp at hu
    · exact h.flushing u (by simpa [hur] using hu)
  · by_cases htr : t = r
    · rw [htr, hpc]
      rfl
    · exact hdrained.batch t htr

end

theorem exclExec_dirty {e : DirtyEvent} (hs : exclExec lease toJiffies s (.dirty e) = some s') :
    (∀ dc, e ≠ .create dc) ∧ ∃ d, dirtyExec s.dirty e = some d ∧ { s with dirty := d } = s' := by
  cases e with
  | create dc => cases hs
  | collect t =>
    simp only [exclExec] at hs
    split at hs
    · exact ⟨nofun, Option.map_eq_some_iff.mp hs⟩
    · cases hs
  | _ =>
    exact ⟨nofun, Option.map_eq_some_iff.mp hs⟩

theorem ExclInv.step {e : ExclEvent} (h : ExclInv s) (hlease : 0 < lease) (hok : ExclOk s e)
    (hs : exclExec lease toJiffies s e = some s') : ExclInv s' := by
  cases e with simp only [exclExec] at hs
  | cap e =>
    cases e with
    | recallNotify retain epoch => cases hs
    | tick elapsed =>
      cases hs
      refine h.capEvent hlease nofun ?_ nofun
      rintro _ ⟨⟩
      exact hok
    | _ =>
      cases hs
      exact h.capEvent hlease nofun nofun hok
  | dirty e =>
    obtain ⟨hcreate, d, hd, rfl⟩ := @exclExec_dirty lease toJiffies s s' e hs
    exact h.dirtyEvent hcreate hok hd
  | createStart | createRecheck =>
    split at hs <;> cases hs
    refine h.creating_to fun hactive => ?_
    split at hactive
    · next hbit => exact holdsExcl_of_valid hbit (hok hbit)
    · cases hactive
  | createGrant alloc rpc =>
    split at hs <;> cases hs
    exact (h.capEvent (e := .openGrant alloc rpc) hlease nofun nofun hok).creating_to nofun
  | createSlow =>
    split at hs <;> cases hs
    exact h.creating_to nofun
  | createQueue dc alloc =>
    split at hs <;> cases hs
    next hpc => exact h.createQueue hpc hok
  | createReturn =>
    split at hs <;> cases hs
    next hpc =>
    refine ⟨h.dirty, nofun, h.lost, h.flushing, h.ceded, fun a ha => ?_⟩
    obtain rfl | ha := List.mem_cons.mp ha
    · exact h.creating (by rw [hpc]; rfl)
    · exact h.acks a ha
  | revoke r retain epoch =>
    split at hs <;> try cases hs
    next hbusy =>
    split at hs <;> cases hs
    · exact h
    · next hcap => exact h.revoke hok hcap (not_not.mp (not_or.mp hbusy).2)
  | revokeCancel r =>
    split at hs <;> cases hs
    next hr _ => exact h.revoke_to (by rw [hr]; nofun) nofun
  | revokeFlush r =>
    split at hs <;> try cases hs
    next hr =>
    obtain ⟨d, hd, rfl⟩ := Option.map_eq_some_iff.mp hs
    exact h.revokeFlush hok hr hd
  | revokeAck r =>
    split at hs <;> cases hs
    next hr hpc => exact h.revokeAck hr hpc

/-- Under the condition creates are acknowledged with a valid `AUTH_EXCL` only, and are all with the
Filer once it is given up. -/
theorem exclSafe_of_exclOk (hlease : 0 < lease)
    (h : Runs.Reach (fun s e s' => exclExec lease toJiffies s e = some s') ExclOk ExclInit s) :
    ExclSafe s :=
  (h.invariant (fun _ hinit => hinit.inv) fun _ _ _ hinv hok hs => hinv.step hlease hok hs).safe

end Runs

def mountedDirectory : ExclState where
  caps := ⟨5, none, []⟩
  dirty := newDirectory
  creating := .idle
  revoke := fun _ => .idle
  acks := []
  ceded := false

theorem mountedDirectory_init : ExclInit mountedDirectory := ⟨⟨rfl, rfl, rfl⟩, rfl, rfl, rfl, rfl⟩

/-- The first create of a directory, and a recall of its `AUTH_EXCL` up to the BatchCreate. -/
def createThenRecall : List ExclEvent :=
  [.createStart, .createGrant true (.ok ⟨[1], 7, 1, 1, 0⟩), .createRecheck,
    .createQueue ⟨7, [97], 0, 0⟩ true, .createReturn, .revoke 1 0 2, .revokeCancel 1,
    .revokeFlush 1, .dirty (.alloc 1 true)]

def recallFlushed : List ExclEvent :=
  createThenRecall ++ [ExclEvent.dirty (.reply 1 true), .dirty (.finish 1), .revokeAck 1]

def recallFlushFails : List ExclEvent :=
  createThenRecall ++
    [ExclEvent.dirty (.reply 1 false), .dirty (.settle 1), .dirty (.finish 1), .revokeAck 1]

theorem recallFlushed_ok :
    Runs.OkAlong (exclExec 30 id) ExclOk mountedDirectory recallFlushed := by
  refine .cons nofun rfl ?_
  refine .cons (fun _ _ => rfl) rfl ?_
  refine .cons (fun _ => by rintro _ ⟨⟩; rfl) rfl ?_
  have hroom : 0 + 1 < 2 ^ 31 := by decide
  refine .cons hroom rfl ?_
  refine .cons trivial rfl ?_
  refine .cons (fun _ => rfl) rfl ?_
  refine .cons trivial rfl ?_
  refine .cons (fun _ _ => rfl) rfl ?_
  refine .cons ⟨.inl rfl, fun _ => rfl⟩ rfl ?_
  refine .cons (fun _ => rfl) rfl ?_
  exact ⟨trivial, fun _ _ => ⟨trivial, fun _ _ => trivial⟩⟩

theorem exclSafe_of_exclOk_recallFlushed : ∃ s,
    recallFlushed.foldlM (exclExec 30 id) mountedDirectory = some s ∧
      s.ceded = true ∧ s.acks.length = 1 ∧ ExclSafe s := by
  have hreach := Runs.Reach.of_run (.start mountedDirectory_init) recallFlushed_ok rfl
  exact ⟨_, rfl, rfl, rfl, exclSafe_of_exclOk (by decide) hreach⟩

/-- The BatchCreate of the recall fails: the create goes back to the list, and the CapRecallAck is
sent all the same. -/
theorem not_exclSafe_runs : ¬ ∀ s, Runs.Reach
    (fun s e s' => exclExec 30 id s e = some s') (fun _ _ => True) ExclInit s → ExclSafe s := by
  intro h
  obtain ⟨s, hrun, hceded, hcreates⟩ : ∃ s,
      recallFlushFails.foldlM (exclExec 30 id) mountedDirectory = some s ∧
        s.ceded = true ∧ s.dirty.dir.creates = [⟨7, [97], 0, 0⟩] := ⟨_, rfl, rfl, rfl⟩
  have hsafe := h s (.run mountedDirectory_init hrun)
  refine hsafe.ceded hceded [97] (.inl ?_)
  rw [hcreates]
  exact List.mem_cons_self

end PowerFS.Dir
