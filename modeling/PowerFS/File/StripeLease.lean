import PowerFS.Lib.Holdings
import PowerFS.Lib.KeyedList
import PowerFS.Lib.Runs
import Mathlib.Algebra.Group.Nat.Defs

namespace PowerFS.File

open Holdings (replaceAt)

/-! The leases of the stripes of one inode: `ensure_lease`, `release_all_leases` and the renewal
work `powerfs_lease_renew_work_func`, with the Volume servers that grant them. -/

/-- A lease as the Volume server that granted it knows it. -/
structure Grant where
  volume : UInt64
  token : List UInt8
  deriving DecidableEq

/-- `struct powerfs_lease`. The source does not keep the volume of `grant`. -/
structure Lease where
  stripe : Nat
  grant : Grant
  expire : UInt64
  deriving DecidableEq

/-- `time_after`. -/
def timeAfter (a b : UInt64) : Bool := 2 ^ 63 ≤ (b - a).toNat

/-- `pi->lease_tree`, in the order of the stripes. -/
structure LeaseTree where
  leases : List Lease
  sorted : (leases.map Lease.stripe).Pairwise (· < ·)

namespace LeaseTree

def empty : LeaseTree := ⟨[], .nil⟩

/-- `powerfs_lease_find`. -/
def find (t : LeaseTree) (stripe : Nat) : Option Lease :=
  t.leases.find? fun l => l.stripe = stripe

def erase (t : LeaseTree) (lease : Lease) : LeaseTree where
  leases := t.leases.erase lease
  sorted := t.sorted.sublist (List.erase_sublist.map Lease.stripe)

def insertSorted (lease : Lease) : List Lease → List Lease
  | [] => [lease]
  | l :: ls =>
    if lease.stripe < l.stripe then lease :: l :: ls
    else if l.stripe < lease.stripe then l :: insertSorted lease ls
    else l :: ls

theorem mem_map_insertSorted {lease : Lease} {ls : List Lease} {stripe : Nat}
    (h : stripe ∈ (insertSorted lease ls).map Lease.stripe) :
    stripe = lease.stripe ∨ stripe ∈ ls.map Lease.stripe := by
  induction ls with
  | nil => exact .inl (List.mem_singleton.mp h)
  | cons l ls ih =>
    rw [insertSorted] at h
    split at h
    · exact List.mem_cons.mp h
    · split at h
      · obtain rfl | h := List.mem_cons.mp h
        · exact .inr List.mem_cons_self
        · exact (ih h).imp_right (List.mem_cons_of_mem _)
      · exact .inr h

theorem sorted_insertSorted (lease : Lease) {ls : List Lease}
    (h : (ls.map Lease.stripe).Pairwise (· < ·)) :
    ((insertSorted lease ls).map Lease.stripe).Pairwise (· < ·) := by
  induction ls with
  | nil => exact List.pairwise_singleton _ _
  | cons l ls ih =>
    obtain ⟨hl, hls⟩ := List.pairwise_cons.mp h
    rw [insertSorted]
    split
    · next hlt =>
      refine List.pairwise_cons.mpr ⟨fun stripe hmem => ?_, h⟩
      obtain rfl | hmem := List.mem_cons.mp hmem
      · exact hlt
      · exact Nat.lt_trans hlt (hl stripe hmem)
    · split
      · next hlt =>
        refine List.pairwise_cons.mpr ⟨fun stripe hmem => ?_, ih hls⟩
        obtain rfl | hmem := mem_map_insertSorted hmem
        · exact hlt
        · exact hl stripe hmem
      · exact h

/-- `powerfs_lease_insert`. -/
def insert (t : LeaseTree) (lease : Lease) : LeaseTree :=
  ⟨insertSorted lease t.leases, sorted_insertSorted lease t.sorted⟩

/-- The lease of a stripe gets a new expiry, and with `grant` a new token. -/
def renew (t : LeaseTree) (stripe : Nat) (grant : Option Grant) (expire : UInt64) : LeaseTree where
  leases := KeyedList.updateFirst (fun l => l.stripe = stripe)
    (fun l => { l with grant := grant.getD l.grant, expire }) t.leases
  sorted := by
    refine Eq.mpr (congrArg _ (KeyedList.map_key_updateFirst ?_)) t.sorted
    exact fun _ => rfl

/-- Without the first `n` leases. -/
def drop (t : LeaseTree) (n : Nat) : LeaseTree where
  leases := t.leases.drop n
  sorted := t.sorted.sublist ((List.drop_sublist n t.leases).map Lease.stripe)

def grants (t : LeaseTree) : List Grant := t.leases.map Lease.grant

end LeaseTree

/-- `POWERFS_LEASE_RENEW_BATCH`. -/
def leaseRenewBatch : Nat := 16

/-- `POWERFS_STRIPE_SIZE`. -/
def stripeSize : Nat := 64 * 1024 * 1024

def stripeStart (offset : Nat) : Nat := offset / stripeSize * stripeSize

inductive LeaseCall where
  /-- `ensure_lease` releases a lease that had expired. -/
  | expired (stripe : Nat) (old : Lease)
  /-- `ensure_lease` allocates a lease. -/
  | allocating (stripe : Nat)
  /-- `ensure_lease` waits for the answer of a volume. -/
  | asking (volume : UInt64) (stripe : Nat)
  /-- `ensure_lease` puts a lease in the tree. -/
  | acquired (lease : Lease)
  /-- `ensure_lease` releases a lease that is not needed. -/
  | surplus (lease : Lease)
  /-- `release_all_leases` releases what it has taken from the tree. -/
  | releasing (leases : List Lease)
  /-- The renewal work renews the first of these leases, of which it has copies. -/
  | renewing (volume : UInt64) (due : List (Nat × List UInt8))
  /-- The renewal work waits for a new lease of a stripe. -/
  | reasking (volume : UInt64) (stripe : Nat) (due : List (Nat × List UInt8))
  /-- The renewal work puts a new lease in the place of the old one. -/
  | reacquired (volume : UInt64) (lease : Lease) (due : List (Nat × List UInt8))

def LeaseCall.held : LeaseCall → List Grant
  | .expired _ old => [old.grant]
  | .acquired lease | .surplus lease | .reacquired _ lease _ => [lease.grant]
  | .releasing leases => leases.map Lease.grant
  | .allocating _ | .asking _ _ | .renewing _ _ | .reasking _ _ _ => []

def LeaseCall.isRenewal : LeaseCall → Bool
  | .renewing _ _ | .reasking _ _ _ | .reacquired _ _ _ => true
  | .expired _ _ | .allocating _ | .asking _ _ | .acquired _ | .surplus _ | .releasing _ => false

def LeaseCall.isReleaseAll : LeaseCall → Bool
  | .releasing _ => true
  | .expired _ _ | .allocating _ | .asking _ _ | .acquired _ | .surplus _ | .renewing _ _
  | .reasking _ _ _ | .reacquired _ _ _ => false

/-- `volume` is `pi->volume_id`. `live` are the leases granted, not expired and not released at the
Volume servers. `returns` says for each undisturbed return of `release_all_leases` whether none was
left. -/
structure StripeState where
  tree : LeaseTree
  volume : UInt64
  calls : List LeaseCall
  live : List Grant
  returns : List Bool

/-- The outcome of an ACQUIRE_LEASE request: an error, a lease whose answer does not arrive, or an
answer. -/
inductive AcquireReply where
  | refused
  | lost (token : List UInt8)
  | granted (token : List UInt8) (expire : UInt64)

/-- A token in an answer, as `powerfs_net_acquire_lease` gives it to its caller: a string of less
than 64 bytes. -/
def receiveToken (token : List UInt8) : Option (List UInt8) :=
  if token.length < 64 then some (token.takeWhile (· ≠ 0)) else none

def AcquireReply.grant (volume : UInt64) : AcquireReply → Option Grant
  | .refused => none
  | .lost token | .granted token _ => some ⟨volume, token⟩

def AcquireReply.lease (volume : UInt64) (stripe : Nat) : AcquireReply → Option Lease
  | .refused | .lost _ => none
  | .granted token expire =>
    (receiveToken token).map fun token => ⟨stripe, ⟨volume, token⟩, expire⟩

/-- `powerfs_net_release_lease`: what is live after it. A request without a token is not sent, and
one that is sent may fail. -/
def releaseLease (s : StripeState) (lease : Lease) (done : Bool) : List Grant :=
  if done ∧ lease.grant.token ≠ [] then
    s.live.filter (· ≠ ⟨s.volume, lease.grant.token⟩)
  else s.live

inductive StripeEvent where
  | ensure (offset : Nat) (now : UInt64)
  | releaseOld (i : Nat) (done : Bool)
  | request (i : Nat) (alloc : Bool)
  | reply (i : Nat) (r : AcquireReply)
  | insert (i : Nat)
  | releaseSurplus (i : Nat) (done : Bool)
  | releaseAll
  | releaseNext (i : Nat) (done : Bool)
  | releaseReturn (i : Nat)
  | renewStart (now : UInt64)
  | renewReply (i : Nat) (expire : Option UInt64)
  | reacquire (i : Nat) (r : AcquireReply)
  | install (i : Nat)
  | renewReturn (i : Nat)
  /-- The inode gets another volume. -/
  | setVolume (volume : UInt64)
  /-- A lease expires on its Volume server. -/
  | expire (g : Grant)

variable (hz : UInt64)

/-- `POWERFS_LEASE_RENEW_THRESHOLD`. -/
def renewThreshold : UInt64 := 30 * hz / 3

def dueLeases (t : LeaseTree) (now : UInt64) : List (Nat × List UInt8) :=
  ((t.leases.filter fun l => timeAfter (now + renewThreshold hz) l.expire).take
    leaseRenewBatch).map fun l => (l.stripe, l.grant.token)

def stripeExec (s : StripeState) : StripeEvent → Option StripeState
  | .ensure offset now =>
    match s.tree.find (stripeStart offset) with
    | some lease =>
      if timeAfter lease.expire now then some s
      else
        some { s with
          tree := s.tree.erase lease
          calls := s.calls ++ [.expired (stripeStart offset) lease] }
    | none => some { s with calls := s.calls ++ [.allocating (stripeStart offset)] }
  | .releaseOld i done =>
    match s.calls[i]? with
    | some (.expired stripe old) =>
      some { s with
        live := releaseLease s old done
        calls := replaceAt s.calls i [.allocating stripe] }
    | _ => none
  | .request i alloc =>
    match s.calls[i]? with
    | some (.allocating stripe) =>
      some { s with
        calls := replaceAt s.calls i (if alloc then [.asking s.volume stripe] else []) }
    | _ => none
  | .reply i r =>
    match s.calls[i]? with
    | some (.asking volume stripe) =>
      some { s with
        live := (r.grant volume).toList ++ s.live
        calls := replaceAt s.calls i ((r.lease volume stripe).map .acquired).toList }
    | _ => none
  | .insert i =>
    match s.calls[i]? with
    | some (.acquired lease) =>
      match s.tree.find lease.stripe with
      | none =>
        some { s with tree := s.tree.insert lease, calls := replaceAt s.calls i [] }
      | some _ => some { s with calls := replaceAt s.calls i [.surplus lease] }
    | _ => none
  | .releaseSurplus i done =>
    match s.calls[i]? with
    | some (.surplus lease) =>
      some { s with live := releaseLease s lease done, calls := replaceAt s.calls i [] }
    | _ => none
  | .releaseAll =>
    some { s with
      tree := s.tree.drop leaseRenewBatch
      calls := s.calls ++ [.releasing (s.tree.leases.take leaseRenewBatch)] }
  | .releaseNext i done =>
    match s.calls[i]? with
    | some (.releasing (lease :: leases)) =>
      some { s with
        live := releaseLease s lease done
        calls := replaceAt s.calls i [.releasing leases] }
    | _ => none
  | .releaseReturn i =>
    match s.calls[i]? with
    | some (.releasing []) =>
      let calls := replaceAt s.calls i []
      let returns := if calls.isEmpty then s.live.isEmpty :: s.returns else s.returns
      some { s with calls, returns }
    | _ => none
  | .renewStart now =>
    if s.calls.any LeaseCall.isRenewal then none
    else some { s with calls := s.calls ++ [.renewing s.volume (dueLeases hz s.tree now)] }
  | .renewReply i expire =>
    match s.calls[i]? with
    | some (.renewing volume ((stripe, _) :: due)) =>
      match expire with
      | some expire =>
        some { s with
          tree := s.tree.renew stripe none expire
          calls := replaceAt s.calls i [.renewing volume due] }
      | none =>
        some { s with calls := replaceAt s.calls i [.reasking volume stripe due] }
    | _ => none
  | .reacquire i r =>
    match s.calls[i]? with
    | some (.reasking volume stripe due) =>
      some { s with
        live := (r.grant volume).toList ++ s.live
        calls := replaceAt s.calls i
          [match r.lease volume stripe with
            | some lease => .reacquired volume lease due
            | none => .renewing volume due] }
    | _ => none
  | .install i =>
    match s.calls[i]? with
    | some (.reacquired volume lease due) =>
      some { s with
        tree := s.tree.renew lease.stripe (some lease.grant) lease.expire
        calls := replaceAt s.calls i [.renewing volume due] }
    | _ => none
  | .renewReturn i =>
    match s.calls[i]? with
    | some (.renewing _ []) => some { s with calls := replaceAt s.calls i [] }
    | _ => none
  | .setVolume volume => some { s with volume }
  | .expire g => some { s with live := s.live.filter (· ≠ g) }

/-- The leases in the tree and in the hands of the calls. -/
def StripeState.grants (s : StripeState) : List Grant :=
  s.tree.grants ++ s.calls.flatMap LeaseCall.held

/-- Every live lease is in the tree or in the hands of a call, and `release_all_leases` has left
none when nothing else was running. -/
structure LeasesConserved (s : StripeState) : Prop where
  covers : Holdings.Covers s.grants s.live
  returns : ∀ r ∈ s.returns, r = true

structure StripeInit (s : StripeState) : Prop where
  tree : s.tree = .empty
  calls : s.calls = []
  live : s.live = []
  returns : s.returns = []

/-- A lease that is let go has expired, or is released by this very request, or is recorded once
more. -/
def LetGo (s : StripeState) (g : Grant) (live : List Grant) : Prop :=
  g ∈ live → g ∈ s.grants.erase g

/-- What a volume has granted reaches the caller, or is known already. -/
def Received (s : StripeState) (volume : UInt64) : AcquireReply → Prop
  | .refused => True
  | .lost token => ⟨volume, token⟩ ∈ s.grants
  | .granted token _ => receiveToken token = some token ∨ ⟨volume, token⟩ ∈ s.grants

def LeaseCall.asks : LeaseCall → Option UInt64
  | .asking volume _ | .reasking volume _ _ => some volume
  | _ => none

def LeaseCall.releases : LeaseCall → Option Lease
  | .expired _ lease | .surplus lease | .releasing (lease :: _) => some lease
  | _ => none

/-- The lease that the renewal work puts in the place of another. -/
def LeaseCall.installs : LeaseCall → Option Lease
  | .reacquired _ lease _ => some lease
  | _ => none

/-- The condition on an event. A lease that the renewal work replaces, or cannot put anywhere, is
let go too. `release_all_leases` finds no more leases than it takes, and none is inserted while it
runs. -/
def StripeOk (s : StripeState) : StripeEvent → Prop
  | .reply i r | .reacquire i r =>
    ∀ volume ∈ s.calls[i]?.bind LeaseCall.asks, Received s volume r
  | .releaseOld i done | .releaseSurplus i done | .releaseNext i done =>
    ∀ lease ∈ s.calls[i]?.bind LeaseCall.releases,
      LetGo s lease.grant (releaseLease s lease done)
  | .install i =>
    ∀ lease ∈ s.calls[i]?.bind LeaseCall.installs,
      LetGo s ((s.tree.find lease.stripe).getD lease).grant s.live
  | .releaseAll => s.tree.leases.length ≤ leaseRenewBatch
  | .insert _ => ∀ c ∈ s.calls, c.isReleaseAll = false
  | _ => True

section Tree

variable (t : LeaseTree)

theorem LeaseTree.grants_erase {stripe : Nat} {lease : Lease} (h : t.find stripe = some lease) :
    t.grants.Perm (lease.grant :: (t.erase lease).grants) :=
  (List.perm_cons_erase (List.mem_of_find?_eq_some h)).map Lease.grant

theorem LeaseTree.grants_insert {lease : Lease} (h : t.find lease.stripe = none) :
    (t.insert lease).grants.Perm (lease.grant :: t.grants) := by
  have hperm : (insertSorted lease t.leases).Perm (lease :: t.leases) := by
    rw [find, List.find?_eq_none] at h
    generalize t.leases = leases at h
    induction leases with
    | nil => exact .refl _
    | cons l ls ih =>
      have hne : l.stripe ≠ lease.stripe := of_decide_eq_false (by
        simpa using h l List.mem_cons_self)
      rw [insertSorted]
      split
      · exact .refl _
      · split
        · exact ((ih fun x hx => h x (List.mem_cons_of_mem _ hx)).cons l).trans (.swap ..)
        · omega
  exact hperm.map Lease.grant

theorem LeaseTree.grants_renew_none (stripe : Nat) (expire : UInt64) :
    (t.renew stripe none expire).grants = t.grants :=
  KeyedList.map_key_updateFirst fun _ => rfl

theorem LeaseTree.grants_renew_absent {stripe : Nat} (h : t.find stripe = none) (g : Grant)
    (expire : UInt64) : (t.renew stripe (some g) expire).grants = t.grants := by
  have hsame := KeyedList.updateFirst_of_forall_not (f := fun l : Lease => ⟨l.stripe, g, expire⟩)
    (List.find?_eq_none.mp h)
  exact congrArg (List.map Lease.grant) hsame

theorem LeaseTree.grants_renew_found {stripe : Nat} {old : Lease} (h : t.find stripe = some old)
    (g : Grant) (expire : UInt64) :
    (g :: t.grants).Perm (old.grant :: (t.renew stripe (some g) expire).grants) := by
  have hperm := KeyedList.perm_updateFirst (f := fun l : Lease => ⟨l.stripe, g, expire⟩) h
  exact hperm.map Lease.grant

theorem LeaseTree.grants_drop (n : Nat) :
    t.grants = (t.leases.take n).map Lease.grant ++ (t.drop n).grants := by
  show t.leases.map Lease.grant = _ ++ (t.leases.drop n).map Lease.grant
  rw [← List.map_append, List.take_append_drop]

end Tree

section Step

variable {s s' : StripeState}

/-- While `release_all_leases` runs the tree is empty. -/
def Emptied (s : StripeState) : Prop :=
  (∃ c ∈ s.calls, c.isReleaseAll = true) → s.tree.leases = []

structure StripeInv (s : StripeState) : Prop extends LeasesConserved s where
  emptied : Emptied s

theorem emptied_goOn (h : StripeInv s) {i : Nat} {c : LeaseCall} (hc : s.calls[i]? = some c)
    {next : List LeaseCall} (hcalls : s'.calls = replaceAt s.calls i next)
    (hall : (next.all fun d => !d.isReleaseAll || c.isReleaseAll) = true)
    (htree : s.tree.leases = [] → s'.tree.leases = []) : Emptied s' := by
  rintro ⟨d, hd, hdall⟩
  rw [hcalls] at hd
  refine htree (h.emptied ?_)
  obtain hd | hd := Holdings.mem_replaceAt hd
  · have hcall := List.all_eq_true.mp hall d hd
    rw [hdall] at hcall
    exact ⟨c, List.mem_of_getElem? hc, hcall⟩
  · exact ⟨d, hd, hdall⟩

theorem emptied_append (h : StripeInv s) {c : LeaseCall} (hcalls : s'.calls = s.calls ++ [c])
    (hc : c.isReleaseAll = false) (htree : s.tree.leases = [] → s'.tree.leases = []) :
    Emptied s' := by
  rintro ⟨d, hd, hall⟩
  rw [hcalls] at hd
  obtain hd | rfl : d ∈ s.calls ∨ d = c := by simpa using hd
  · exact htree (h.emptied ⟨d, hd, hall⟩)
  · cases hc.symm.trans hall

theorem StripeState.exists_rest {i : Nat} {c : LeaseCall} (h : s.calls[i]? = some c)
    (next : List LeaseCall) (htree : s'.tree = s.tree)
    (hcalls : s'.calls = replaceAt s.calls i next) :
    ∃ rest, s.grants.Perm (c.held ++ rest) ∧
      s'.grants.Perm (next.flatMap LeaseCall.held ++ rest) := by
  obtain ⟨rest, hold, hnew⟩ := Holdings.exists_rest_replaceAt LeaseCall.held h next
  refine ⟨s.tree.grants ++ rest, ?_, ?_⟩
  · exact (hold.append_left _).trans (List.perm_append_comm_assoc _ _ _)
  · unfold StripeState.grants
    rw [htree, hcalls]
    exact (hnew.append_left _).trans (List.perm_append_comm_assoc _ _ _)

theorem releaseLease_subset (lease : Lease) (done : Bool) :
    releaseLease s lease done ⊆ s.live := by
  unfold releaseLease
  split
  · exact List.filter_subset_self _
  · exact List.Subset.refl _

namespace StripeInv

theorem move (h : StripeInv s) (hgrants : s.grants.Perm s'.grants) (hlive : s'.live ⊆ s.live)
    (hreturns : s'.returns = s.returns) (hemptied : Emptied s') : StripeInv s' where
  covers := h.covers.of_perm hgrants hlive
  returns := by
    rw [hreturns]
    exact h.returns
  emptied := hemptied

theorem letGo (h : StripeInv s) {g : Grant} (hgrants : s.grants.Perm (g :: s'.grants))
    (hlive : s'.live ⊆ s.live) (hreturns : s'.returns = s.returns) (hok : LetGo s g s'.live)
    (hemptied : Emptied s') : StripeInv s' where
  covers := h.covers.drop hgrants hlive hok
  returns := by
    rw [hreturns]
    exact h.returns
  emptied := hemptied

section Call

variable (h : StripeInv s) {i : Nat} {c : LeaseCall} (hc : s.calls[i]? = some c)
  {next : List LeaseCall} (hall : (next.all fun d => !d.isReleaseAll || c.isReleaseAll) = true)
  (htree : s'.tree = s.tree) (hcalls : s'.calls = replaceAt s.calls i next)
  (hreturns : s'.returns = s.returns)
include h hc hall htree hcalls hreturns

theorem goOn (hheld : next.flatMap LeaseCall.held = c.held) (hlive : s'.live = s.live) :
    StripeInv s' := by
  obtain ⟨rest, hold, hnew⟩ := StripeState.exists_rest hc next htree hcalls
  rw [hheld] at hnew
  refine h.move (hold.trans hnew.symm) ?_ hreturns (emptied_goOn h hc hcalls hall (by simp [htree]))
  rw [hlive]
  exact List.Subset.refl _

theorem release {lease : Lease} {done : Bool}
    (hheld : lease.grant :: next.flatMap LeaseCall.held = c.held)
    (hlive : s'.live = releaseLease s lease done) (hreleases : c.releases = some lease)
    (hok : StripeOk s (.releaseOld i done)) : StripeInv s' := by
  simp only [StripeOk, hc, Option.bind_some, hreleases, Option.mem_some_iff, forall_eq'] at hok
  obtain ⟨rest, hold, hnew⟩ := StripeState.exists_rest hc next htree hcalls
  rw [← hheld] at hold
  rw [← hlive] at hok
  refine h.letGo (hold.trans (hnew.symm.cons lease.grant)) ?_ hreturns hok
    (emptied_goOn h hc hcalls hall (by simp [htree]))
  rw [hlive]
  exact releaseLease_subset lease done

theorem answer (hheld : c.held = []) {volume : UInt64} (stripe : Nat) {r : AcquireReply}
    (hnext : next.flatMap LeaseCall.held = ((r.lease volume stripe).map Lease.grant).toList)
    (hlive : s'.live = (r.grant volume).toList ++ s.live) (hasks : c.asks = some volume)
    (hok : StripeOk s (.reply i r)) : StripeInv s' := by
  simp only [StripeOk, hc, Option.bind_some, hasks, Option.mem_some_iff, forall_eq'] at hok
  obtain ⟨rest, hold, hnew⟩ := StripeState.exists_rest hc next htree hcalls
  rw [hheld] at hold
  rw [hnext] at hnew
  have hgrants := hnew.trans (hold.symm.append_left _)
  refine ⟨⟨?_, by rw [hreturns]; exact h.returns⟩,
    emptied_goOn h hc hcalls hall (by simp [htree])⟩
  rw [hlive]
  cases r with
  | refused => exact h.covers.of_perm hgrants.symm (List.Subset.refl _)
  | lost token => exact h.covers.miss hgrants.symm hok
  | granted token expire =>
    obtain htoken | hold := hok
    · refine h.covers.gain (.trans ?_ hgrants.symm)
      simp only [AcquireReply.lease, htoken]
      exact .refl _
    · intro x hx
      exact hgrants.symm.subset (List.mem_append_right _ (h.covers.miss (.refl _) hold x hx))

end Call

section

variable (h : StripeInv s)
include h

theorem append {c : LeaseCall} {leases : List Grant}
    (hheld : c.held = leases) (htree : s.tree.grants.Perm (leases ++ s'.tree.grants))
    (hcalls : s'.calls = s.calls ++ [c]) (hlive : s'.live = s.live)
    (hreturns : s'.returns = s.returns) (hemptied : Emptied s') : StripeInv s' := by
  have hgrants : s.grants.Perm s'.grants := by
    unfold StripeState.grants
    rw [hcalls, List.flatMap_append, List.flatMap_singleton, hheld]
    refine (htree.append_right _).trans ?_
    rw [List.append_assoc]
    exact List.perm_append_comm.trans (.of_eq (List.append_assoc ..))
  refine h.move hgrants ?_ hreturns hemptied
  rw [hlive]
  exact List.Subset.refl _

theorem ensure {offset : Nat} {now : UInt64}
    (hs : stripeExec hz s (.ensure offset now) = some s') : StripeInv s' := by
  simp only [stripeExec] at hs
  split at hs
  · next lease hfind =>
    split at hs
    · cases hs
      exact h
    · cases hs
      refine h.append (c := .expired _ lease) rfl (s.tree.grants_erase hfind) rfl rfl rfl
        (emptied_append h rfl rfl fun hnil => ?_)
      show s.tree.leases.erase lease = []
      rw [hnil]
      rfl
  · cases hs
    exact h.append rfl (.refl _) rfl rfl rfl (emptied_append h rfl rfl id)

theorem insert {i : Nat} (hok : StripeOk s (.insert i))
    (hs : stripeExec hz s (.insert i) = some s') : StripeInv s' := by
  simp only [stripeExec] at hs
  split at hs <;> try cases hs
  next lease hc =>
  split at hs
  · next hfind =>
    cases hs
    obtain ⟨rest, hold, hnew⟩ := Holdings.exists_rest_replaceAt LeaseCall.held hc []
    have htree := s.tree.grants_insert hfind
    refine h.move ?_ (List.Subset.refl _) rfl ?_
    · refine (hold.append_left _).trans ?_
      refine .trans ?_ ((htree.append hnew).symm)
      exact List.perm_middle
    · rintro ⟨d, hd, hall⟩
      have hold := (Holdings.mem_replaceAt hd).resolve_left List.not_mem_nil
      cases (hok d hold).symm.trans hall
  · cases hs
    exact h.goOn hc rfl rfl rfl rfl rfl rfl

theorem renewed {i : Nat} {c d : LeaseCall} (hc : s.calls[i]? = some c)
    (hd : d.isReleaseAll = false) (stripe : Nat) (grant : Option Grant) (expire : UInt64) :
    Emptied { s with
      tree := s.tree.renew stripe grant expire, calls := replaceAt s.calls i [d] } := by
  refine emptied_goOn h hc rfl (by simp [hd]) fun hnil => ?_
  show KeyedList.updateFirst _ _ s.tree.leases = []
  rw [hnil]
  rfl

theorem install {i : Nat} (hok : StripeOk s (.install i))
    (hs : stripeExec hz s (.install i) = some s') : StripeInv s' := by
  simp only [stripeExec] at hs
  split at hs <;> cases hs
  next volume lease due hc =>
  obtain ⟨rest, hold, hnew⟩ :=
    Holdings.exists_rest_replaceAt LeaseCall.held hc [.renewing volume due]
  simp only [StripeOk, hc, Option.bind_some, LeaseCall.installs, Option.mem_some_iff,
    forall_eq'] at hok
  refine h.letGo ?_ (List.Subset.refl _) rfl hok (h.renewed hc rfl _ _ _)
  show (s.tree.grants ++ _).Perm (_ :: ((s.tree.renew _ _ _).grants ++ _))
  cases hfind : s.tree.find lease.stripe with
  | none =>
    rw [s.tree.grants_renew_absent hfind lease.grant lease.expire]
    exact (hold.append_left _).trans
      (List.perm_middle.trans ((hnew.symm.append_left _).cons lease.grant))
  | some old =>
    have htree := s.tree.grants_renew_found hfind lease.grant lease.expire
    refine (hold.append_left _).trans (List.perm_middle.trans ?_)
    exact htree.append hnew.symm

theorem releaseReturn {i : Nat}
    (hs : stripeExec hz s (.releaseReturn i) = some s') : StripeInv s' := by
  simp only [stripeExec] at hs
  split at hs <;> cases hs
  next hc =>
  obtain ⟨rest, hold, hnew⟩ := Holdings.exists_rest_replaceAt LeaseCall.held hc []
  have hcovers : Holdings.Covers (s.tree.grants ++ (replaceAt s.calls i []).flatMap
      LeaseCall.held) s.live :=
    h.covers.of_perm ((hold.trans hnew.symm).append_left _) (List.Subset.refl _)
  refine ⟨⟨hcovers, ?_⟩, emptied_goOn h hc rfl rfl id⟩
  intro r hr
  split at hr
  · next hnone =>
    obtain rfl | hr := List.mem_cons.mp hr
    · -- Nothing else is running and the tree is empty, so that nothing is live.
      have htree : s.tree.grants = [] :=
        congrArg (List.map Lease.grant) (h.emptied ⟨_, List.mem_of_getElem? hc, rfl⟩)
      rw [htree, List.isEmpty_iff.mp hnone] at hcovers
      exact List.isEmpty_iff.mpr (List.eq_nil_iff_forall_not_mem.mpr fun g hg =>
        nomatch hcovers g hg)
    · exact h.returns r hr
  · exact h.returns r hr

theorem step {e : StripeEvent} (hok : StripeOk s e)
    (hs : stripeExec hz s e = some s') : StripeInv s' := by
  cases e with simp only [stripeExec] at hs
  | ensure => exact h.ensure hz hs
  | releaseOld | releaseSurplus =>
    split at hs <;> cases hs
    next hc => exact h.release hc rfl rfl rfl rfl rfl rfl rfl hok
  | request i alloc =>
    split at hs <;> cases hs
    next hc => cases alloc <;> exact h.goOn hc rfl rfl rfl rfl rfl rfl
  | reply i r =>
    split at hs <;> cases hs
    next volume stripe hc =>
    refine h.answer hc ?_ rfl rfl rfl rfl stripe ?_ rfl rfl hok <;>
      cases r.lease volume stripe <;> rfl
  | insert => exact h.insert hz hok hs
  | releaseAll =>
    obtain rfl := Option.some.inj hs
    refine h.append rfl ?_ rfl rfl rfl fun _ => List.drop_eq_nil_of_le hok
    exact .of_eq (s.tree.grants_drop leaseRenewBatch)
  | releaseNext i done =>
    split at hs <;> cases hs
    next lease leases hc =>
    refine h.release hc rfl rfl rfl rfl ?_ rfl rfl hok
    simp [LeaseCall.held]
  | releaseReturn => exact h.releaseReturn hz hs
  | renewStart now =>
    split at hs <;> cases hs
    exact h.append rfl (.refl _) rfl rfl rfl (emptied_append h rfl rfl id)
  | renewReply i expire =>
    split at hs <;> try cases hs
    next volume stripe token due hc =>
    cases expire with obtain rfl := Option.some.inj hs
    | none => exact h.goOn hc rfl rfl rfl rfl rfl rfl
    | some expire =>
      obtain ⟨rest, hold, hnew⟩ :=
        Holdings.exists_rest_replaceAt LeaseCall.held hc [.renewing volume due]
      refine h.move ?_ (List.Subset.refl _) rfl (h.renewed hc rfl _ _ _)
      show (s.tree.grants ++ _).Perm ((s.tree.renew _ _ _).grants ++ _)
      rw [s.tree.grants_renew_none]
      exact (hold.trans hnew.symm).append_left _
  | reacquire i r =>
    split at hs <;> cases hs
    next volume stripe due hc =>
    refine h.answer hc ?_ rfl rfl rfl rfl stripe ?_ rfl rfl hok <;>
      cases r.lease volume stripe <;> rfl
  | install => exact h.install hz hok hs
  | renewReturn i =>
    split at hs <;> cases hs
    next hc => exact h.goOn hc rfl rfl rfl rfl rfl rfl
  | setVolume =>
    obtain rfl := Option.some.inj hs
    exact h.move (.refl _) (List.Subset.refl _) rfl h.emptied
  | expire g =>
    obtain rfl := Option.some.inj hs
    exact h.move (.refl _) (List.filter_subset_self _) rfl h.emptied

end

end StripeInv

end Step

theorem StripeInit.inv {s : StripeState} (h : StripeInit s) : StripeInv s where
  covers g hg := by
    rw [h.live] at hg
    cases hg
  returns r hr := by
    rw [h.returns] at hr
    cases hr
  emptied _ := congrArg LeaseTree.leases h.tree

/-- In every run that meets the condition, every live lease is in the tree or in the hands of a
call, and none is left when `release_all_leases` returns with nothing else running. -/
theorem leasesConserved_of_stripeOk (s : StripeState)
    (h : Runs.Reach (fun s e s' => stripeExec hz s e = some s') StripeOk StripeInit s) :
    LeasesConserved s := by
  have hinv : StripeInv s :=
    h.invariant (fun _ hinit => hinit.inv) fun _ _ _ hinv hok hs => hinv.step hz hok hs
  exact hinv.toLeasesConserved

def noLeases : StripeState := ⟨.empty, 1, [], [], []⟩

theorem noLeases_init : StripeInit noLeases := ⟨rfl, rfl, rfl, rfl⟩

/-- `ensure_lease` for the stripe `n`, whose lease has a token of one byte. -/
def ensureStripe (n : Nat) : List StripeEvent :=
  [.ensure (n * stripeSize) 0, .request 0 true, .reply 0 (.granted [n.toUInt8 + 1] 3000), .insert 0]

def twoLeases : List StripeEvent :=
  ensureStripe 0 ++ ensureStripe 1 ++
    [.renewStart 2900, .renewReply 0 (some 6000), .renewReply 0 none, .reacquire 0 .refused,
      .renewReturn 0, .releaseAll, .releaseNext 0 true, .releaseNext 0 true, .releaseReturn 0]

instance (s : StripeState) (g : Grant) (live : List Grant) : Decidable (LetGo s g live) :=
  inferInstanceAs (Decidable (_ → _))

instance (s : StripeState) (volume : UInt64) : (r : AcquireReply) → Decidable (Received s volume r)
  | .refused => isTrue trivial
  | .lost token => inferInstanceAs (Decidable ((⟨volume, token⟩ : Grant) ∈ s.grants))
  | .granted _ _ => inferInstanceAs (Decidable (_ ∨ _))

instance (s : StripeState) : (e : StripeEvent) → Decidable (StripeOk s e)
  -- Not `inferInstance`: with all of Mathlib it would run through all volumes.
  | .reply .. | .reacquire .. | .releaseOld .. | .releaseSurplus .. | .releaseNext ..
  | .install .. => Option.decidableForallMem _
  | .releaseAll => inferInstanceAs (Decidable (_ ≤ _))
  | .insert .. => List.decidableBAll _ _
  | .ensure .. | .request .. | .releaseReturn .. | .renewStart .. | .renewReply ..
  | .renewReturn .. | .setVolume .. | .expire .. => isTrue trivial

theorem leasesConserved_twoLeases :
    ∃ s, twoLeases.foldlM (stripeExec 100) noLeases = some s ∧ s.returns = [true] ∧
      LeasesConserved s := by
  have hok : Runs.OkAlong (stripeExec 100) StripeOk noLeases twoLeases := by decide
  exact ⟨_, rfl, rfl,
    leasesConserved_of_stripeOk 100 _ (.of_run (.start noLeases_init) hok rfl)⟩

/-- The leases of 17 stripes, and a call of `release_all_leases`. -/
def seventeenLeases : List StripeEvent :=
  (List.range 17).flatMap ensureStripe ++
    .releaseAll :: (List.replicate 16 (.releaseNext 0 true) ++ [.releaseReturn 0])

theorem not_leasesConserved_runs :
    ¬ ∀ s, Runs.Reach (fun s e s' => stripeExec 100 s e = some s') (fun _ _ => True) StripeInit s →
      LeasesConserved s := by
  intro h
  obtain ⟨s, hrun, hreturns⟩ : ∃ s,
      seventeenLeases.foldlM (stripeExec 100) noLeases = some s ∧ s.returns = [false] :=
    ⟨_, rfl, rfl⟩
  have hconserved := h s (.run noLeases_init hrun)
  have hreturn := hconserved.returns false (by rw [hreturns]; exact List.mem_singleton_self _)
  cases hreturn

end PowerFS.File
