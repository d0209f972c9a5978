import PowerFS.Lib.Runs
import Mathlib.Algebra.Group.Nat.Defs
import Mathlib.Data.List.Nodup
import Mathlib.Data.List.Perm.Subperm

namespace PowerFS.Caps

/-! `cap_lru_list`: who puts capabilities on it and takes them off, and which of them the renewal
sweep finds. An inode has at most one capability, so the list holds inode numbers. -/

/-- What the shrinker, quiesce and the sweep look at. `token`: the token's first byte is not 0;
`dirty`: `inline_dirty || i_dirty_caps`; `pages`: the DIRTY or WRITEBACK tag; `freeing`: `igrab`
fails. -/
structure LeaseInode where
  token : Bool
  openRd : Nat
  openWr : Nat
  dirty : Bool
  pages : Bool
  freeing : Bool
  deriving DecidableEq

def LeaseInode.fresh : LeaseInode := ⟨false, 0, 0, false, false, false⟩

def LeaseInode.inUse (x : LeaseInode) : Bool := decide (0 < x.openWr) || x.dirty || x.pages

/-- A client: its cached inodes, those of them with a capability, `cap_lru_list` and
`metrics.total_caps`. -/
structure LruState where
  inode : Nat → LeaseInode
  inodes : List Nat
  caps : List Nat
  lru : List Nat
  totalCaps : Nat

/-- The loop of `powerfs_cap_shrinker_scan`: it looks at the head of the list until it has given
up `nr` capabilities or used up its budget. -/
def scanLoop (inode : Nat → LeaseInode) (nr : Nat) : Nat → Nat → List Nat → List Nat
  | 0, _, lru => lru
  | _ + 1, _, [] => []
  | budget + 1, freed, i :: lru =>
    if nr ≤ freed then i :: lru
    else if (inode i).pages then scanLoop inode nr budget freed (lru ++ [i])
    else if !(inode i).token then scanLoop inode nr budget freed lru
    else if (inode i).freeing then scanLoop inode nr budget freed lru
    else scanLoop inode nr budget (freed + 1) lru

/-- `powerfs_cap_shrinker_scan`. The capabilities on its dispose list leave the list for good. -/
def shrinkerScan (s : LruState) (nr : Nat) : LruState :=
  { s with lru := scanLoop s.inode nr s.lru.length 0 s.lru }

/-- The tests of `powerfs_quiesce_all` on an inode. -/
def quiescable (s : LruState) (i : Nat) : Bool :=
  !(s.inode i).freeing && s.caps.contains i && (s.inode i).token &&
    (s.inode i).openRd = 0 && (s.inode i).openWr = 0 && !(s.inode i).pages

/-- `powerfs_quiesce_all` after its `sync_inodes_sb`. -/
def quiesceAll (s : LruState) : LruState :=
  { s with
    lru := s.inodes.foldl (fun lru i => if quiescable s i then lru.erase i else lru) s.lru }

/-- The token after a grant. An empty one is not copied. -/
def nextToken (old : Bool) : List UInt8 → Bool
  | [] => old
  | b :: _ => b != 0

/-- The inode gets the token of a grant. -/
def setToken (s : LruState) (i : Nat) (token : List UInt8) : LruState :=
  { s with
    inode := Function.update s.inode i
      { s.inode i with token := nextToken (s.inode i).token token } }

/-- `add_cap_for_inode_locked`: the only place that puts a capability on the list. -/
def addCap (s : LruState) (i : Nat) : LruState :=
  { s with
    caps := i :: s.caps
    lru := s.lru ++ [i]
    totalCaps := s.totalCaps + 1 }

/-- `cap_open_grant_and_issue`, or with an empty token `cap_open_grant_local`. An inode that has
a capability keeps it; for another one it is allocated first. -/
def grantCap (s : LruState) (i : Nat) (alloc : Bool) (token : List UInt8) : LruState :=
  if i ∈ s.caps then setToken s i token
  else if alloc then setToken (addCap s i) i token
  else s

/-- The part of `powerfs_evict_inode` about the capability. -/
def evictCap (s : LruState) (i : Nat) : LruState :=
  if i ∈ s.caps then
    { s with caps := s.caps.erase i, lru := s.lru.erase i, totalCaps := s.totalCaps - 1 }
  else s

/-- The loop of `powerfs_cap_renew_work_fn` over the list, with room for `left` more inodes. -/
def grabLoop (inode : Nat → LeaseInode) : Nat → List Nat → List Nat
  | _, [] => []
  | 0, _ :: _ => []
  | left + 1, i :: lru =>
    if (inode i).freeing then grabLoop inode (left + 1) lru else i :: grabLoop inode left lru

/-- The inodes a renewal sweep visits, once it has its array. `total_caps` is cast to `int`. -/
def sweepVisits (s : LruState) : List Nat :=
  let max := (BitVec.ofNat 32 s.totalCaps).toInt
  if 0 < max then grabLoop s.inode max.toNat s.lru else []

/-- What can happen. `touch` is any change of the open counts and of the dirty state. -/
inductive LruEvent where
  | cache (i : Nat)
  | grant (i : Nat) (alloc : Bool) (token : List UInt8)
  | touch (i : Nat) (openRd openWr : Nat) (dirty pages : Bool)
  | scan (nr : Nat)
  | quiesce
  | free (i : Nat)
  | evict (i : Nat)

/-- One event; `none` if it cannot happen. -/
def lruExec (s : LruState) : LruEvent → Option LruState
  | .cache i => if i ∈ s.inodes then none else some { s with inodes := i :: s.inodes }
  | .grant i alloc token =>
    if i ∈ s.inodes ∧ (s.inode i).freeing = false then some (grantCap s i alloc token) else none
  | .touch i openRd openWr dirty pages =>
    if i ∈ s.inodes ∧ (s.inode i).freeing = false then
      some
        { s with
          inode := Function.update s.inode i
            ⟨(s.inode i).token, openRd, openWr, dirty, pages, false⟩ }
    else none
  | .scan nr => some (shrinkerScan s nr)
  | .quiesce => some (quiesceAll s)
  | .free i =>
    if i ∈ s.inodes ∧ (s.inode i).openRd = 0 ∧ (s.inode i).openWr = 0 then
      some { s with inode := Function.update s.inode i { s.inode i with freeing := true } }
    else none
  | .evict i =>
    if (s.inode i).freeing then
      some
        { evictCap s i with
          inode := Function.update s.inode i .fresh
          inodes := s.inodes.erase i }
    else none

/-- A live capability with a token whose inode is open for write or dirty. -/
def NeedsRenewal (s : LruState) (i : Nat) : Prop :=
  i ∈ s.caps ∧ (s.inode i).token = true ∧ (s.inode i).freeing = false ∧
    (s.inode i).inUse = true

/-- Every such capability is on the list. -/
def Listed (s : LruState) : Prop := ∀ i, NeedsRenewal s i → i ∈ s.lru

/-- It is on the list, and a sweep visits it unless `total_caps` does not fit an `int`. -/
def RenewSafe (s : LruState) : Prop :=
  ∀ i, NeedsRenewal s i → i ∈ s.lru ∧ (s.totalCaps < 2 ^ 31 → i ∈ sweepVisits s)

/-- A mount: no inode is cached. -/
def LruInit (s : LruState) : Prop := s = ⟨fun _ => .fresh, [], [], [], 0⟩

/-- The entries a scan of `n` looks at, and the rest: it stops behind the `n`-th entry that it
can give up. -/
def scanned (inode : Nat → LeaseInode) : Nat → List Nat → List Nat × List Nat
  | _, [] => ([], [])
  | 0, i :: lru => ([], i :: lru)
  | n + 1, i :: lru =>
    let given := !(inode i).pages && (inode i).token && !(inode i).freeing
    let rest := scanned inode (if given then n else n + 1) lru
    (i :: rest.1, rest.2)

/-- A scan or quiesce meets no capability without dirty pages that needs renewal; a capability off
the list gets no token while its inode is in use, and its inode does not come into use while it has
one. -/
def RenewOk (s : LruState) : LruEvent → Prop
  | .scan nr => ∀ i ∈ (scanned s.inode nr s.lru).1, NeedsRenewal s i → (s.inode i).pages = true
  | .quiesce => ∀ i ∈ s.inodes, quiescable s i = true → ¬ NeedsRenewal s i
  | .grant i _ token => i ∈ s.caps → i ∉ s.lru → nextToken (s.inode i).token token = true →
      (s.inode i).inUse = false
  | .touch i _ openWr dirty pages => i ∈ s.caps → i ∉ s.lru → (s.inode i).token = true →
      openWr = 0 ∧ dirty = false ∧ pages = false
  | .cache _ | .free _ | .evict _ => True

/-- The list holds capabilities, each once, and `total_caps` counts them. -/
structure LruInv (s : LruState) : Prop where
  nodup : s.lru.Nodup
  sub : s.lru ⊆ s.caps
  count : s.totalCaps = s.caps.length

variable {s : LruState}

theorem LruInit.inv (h : LruInit s) : LruInv s := by
  cases h
  exact ⟨List.nodup_nil, List.nil_subset _, rfl⟩

theorem LruInit.listed (h : LruInit s) : Listed s := by
  cases h
  intro i hi
  exact absurd hi.1 List.not_mem_nil

/-! ### The scan, quiesce and the sweep -/

theorem scanned_append (inode : Nat → LeaseInode) (n : Nat) (lru : List Nat) :
    (scanned inode n lru).1 ++ (scanned inode n lru).2 = lru := by
  induction lru generalizing n with
  | nil => simp [scanned]
  | cons i lru ih =>
    cases n with
    | zero => rfl
    | succ n => simp only [scanned, List.cons_append, ih]

/-- Of the entries looked at, those with dirty pages come to the end of the list and the others
leave it. -/
theorem scanLoop_eq (inode : Nat → LeaseInode) (nr freed : Nat) (lru moved : List Nat) :
    scanLoop inode nr lru.length freed (lru ++ moved) =
      (scanned inode (nr - freed) lru).2 ++ moved ++
        (scanned inode (nr - freed) lru).1.filter fun i => (inode i).pages := by
  induction lru generalizing freed moved with
  | nil => simp [scanned, scanLoop]
  | cons i lru ih =>
    simp only [List.length_cons, List.cons_append, scanLoop]
    by_cases hfull : nr ≤ freed
    · simp [hfull, scanned]
    obtain ⟨n, hn⟩ : ∃ n, nr - freed = n + 1 := ⟨nr - freed - 1, by omega⟩
    rw [if_neg hfull, hn]
    cases hpages : (inode i).pages with
    | true =>
      -- The entry goes behind those moved before it.
      have := ih freed (moved ++ [i])
      rw [hn] at this
      simpa [scanned, hpages] using this
    | false =>
      have hkept := ih freed moved
      rw [hn] at hkept
      have hgiven := ih (freed + 1) moved
      rw [show nr - (freed + 1) = n by omega] at hgiven
      cases htoken : (inode i).token with
      | false => simpa [scanned, hpages, htoken] using hkept
      | true =>
        cases hfreeing : (inode i).freeing with
        | true => simpa [scanned, hpages, hfreeing] using hkept
        | false => simpa [scanned, hpages, htoken, hfreeing] using hgiven

theorem shrinkerScan_lru (s : LruState) (nr : Nat) :
    (shrinkerScan s nr).lru =
      (scanned s.inode nr s.lru).2 ++
        (scanned s.inode nr s.lru).1.filter fun i => (s.inode i).pages := by
  simpa [shrinkerScan] using scanLoop_eq s.inode nr 0 s.lru []

theorem foldl_erase_eq_filter (p : Nat → Bool) (inodes lru : List Nat) (hnodup : lru.Nodup) :
    inodes.foldl (fun lru i => if p i then lru.erase i else lru) lru =
      lru.filter fun i => !(inodes.contains i && p i) := by
  induction inodes generalizing lru with
  | nil => simp
  | cons j inodes ih =>
    rw [List.foldl_cons]
    cases hp : p j with
    | false =>
      rw [if_neg (by simp), ih lru hnodup]
      apply List.filter_congr
      intro i _
      by_cases hij : i = j
      · simp [hij, hp]
      · simp [hij]
    | true =>
      rw [if_pos rfl, ih _ (hnodup.erase j), hnodup.erase_eq_filter, List.filter_filter]
      apply List.filter_congr
      intro i _
      by_cases hij : i = j
      · simp [hij, hp]
      · simp [hij]

theorem mem_quiesceAll_lru (hinv : LruInv s) (i : Nat) :
    i ∈ (quiesceAll s).lru ↔ i ∈ s.lru ∧ ¬ (i ∈ s.inodes ∧ quiescable s i = true) := by
  simp [quiesceAll, foldl_erase_eq_filter _ _ _ hinv.nodup, imp_iff_not_or]

theorem mem_grabLoop {inode : Nat → LeaseInode} {left : Nat} {lru : List Nat}
    (hroom : lru.length ≤ left) (i : Nat) :
    i ∈ grabLoop inode left lru ↔ i ∈ lru ∧ (inode i).freeing = false := by
  induction lru generalizing left with
  | nil => simp [grabLoop]
  | cons j lru ih =>
    obtain ⟨left, rfl⟩ : ∃ k, left = k + 1 := ⟨left - 1, by simp at hroom; omega⟩
    rw [grabLoop]
    split
    case isTrue hfreeing =>
      grind
    case isFalse hlive =>
      grind

theorem LruInv.renewSafe_iff (hinv : LruInv s) : RenewSafe s ↔ Listed s := by
  constructor
  · intro hsafe i hi
    exact (hsafe i hi).1
  · intro hl i hi
    refine ⟨hl i hi, fun hfits => ?_⟩
    have hlen : s.lru.length ≤ s.totalCaps :=
      hinv.count ▸ (List.subperm_of_subset hinv.nodup hinv.sub).length_le
    have hpos : 0 < s.lru.length := List.length_pos_of_mem (hl i hi)
    have hnat : (BitVec.ofNat 32 s.totalCaps).toNat = s.totalCaps := by
      rw [BitVec.toNat_ofNat]
      omega
    have hmax : (BitVec.ofNat 32 s.totalCaps).toInt = s.totalCaps := by
      rw [BitVec.toInt_eq_toNat_of_lt (by omega), hnat]
    rw [sweepVisits, hmax, if_pos (by omega)]
    exact (mem_grabLoop (by simpa using hlen) i).mpr ⟨hl i hi, hi.2.2.1⟩

/-! ### Events -/

theorem listed_iff_at {s s' : LruState} (hl : Listed s) (i : Nat)
    (hrest : ∀ j, j ≠ i → s'.inode j = s.inode j ∧ (j ∈ s'.caps ↔ j ∈ s.caps) ∧
      (j ∈ s'.lru ↔ j ∈ s.lru)) :
    Listed s' ↔ (NeedsRenewal s' i → i ∈ s'.lru) := by
  constructor
  · intro hl'
    exact hl' i
  · intro hi j hj
    by_cases hji : j = i
    · subst hji
      exact hi hj
    · obtain ⟨hinode, hcaps, hlru⟩ := hrest j hji
      obtain ⟨hcap, hneeds⟩ := hj
      rw [hinode] at hneeds
      exact hlru.mpr (hl j ⟨hcaps.mp hcap, hneeds⟩)

theorem listed_scan_iff (hinv : LruInv s) (hl : Listed s) (nr : Nat) :
    Listed (shrinkerScan s nr) ↔ RenewOk s (.scan nr) := by
  have hsplit := scanned_append s.inode nr s.lru
  have hdisj := List.disjoint_of_nodup_append (hsplit ▸ hinv.nodup)
  rw [Listed, shrinkerScan_lru]
  constructor
  · intro hl' i hi hneeds
    obtain hrest | hmoved := List.mem_append.mp (hl' i hneeds)
    · exact absurd hrest (hdisj hi)
    · exact (List.mem_filter.mp hmoved).2
  · intro hok i hneeds
    have hmem : i ∈ s.lru := hl i hneeds
    rw [← hsplit] at hmem
    obtain hi | hrest := List.mem_append.mp hmem
    · exact List.mem_append_right _ (List.mem_filter.mpr ⟨hi, hok i hi hneeds⟩)
    · exact List.mem_append_left _ hrest

theorem listed_quiesce_iff (hinv : LruInv s) (hl : Listed s) :
    Listed (quiesceAll s) ↔ RenewOk s .quiesce := by
  constructor
  · intro hl' i hi hq hneeds
    exact ((mem_quiesceAll_lru hinv i).mp (hl' i hneeds)).2 ⟨hi, hq⟩
  · intro hok i hneeds
    exact (mem_quiesceAll_lru hinv i).mpr ⟨hl i hneeds, fun h => hok i h.1 h.2 hneeds⟩

theorem listed_grant_iff (hl : Listed s) {i : Nat} {alloc : Bool}
    {token : List UInt8} (hlive : (s.inode i).freeing = false) :
    Listed (grantCap s i alloc token) ↔ RenewOk s (.grant i alloc token) := by
  rw [grantCap]
  split
  case isTrue hcap =>
    rw [listed_iff_at hl i fun j hj => by simp [setToken, hj]]
    simp [NeedsRenewal, RenewOk, setToken, LeaseInode.inUse]
    grind
  case isFalse hcap =>
    -- The capability is new and goes on the list, or there is none.
    refine iff_of_true ?_ fun h => absurd h hcap
    split
    · rw [listed_iff_at hl i fun j hj => by simp [setToken, addCap, hj]]
      intro _
      simp [setToken, addCap]
    · exact hl

/-- An event keeps the capabilities in need of renewal on the list exactly under the condition. -/
theorem listed_step_iff {s s' : LruState} {e : LruEvent} (hinv : LruInv s) (hl : Listed s)
    (hs : lruExec s e = some s') : Listed s' ↔ RenewOk s e := by
  cases e with simp only [lruExec] at hs
  | cache i =>
    split at hs <;> cases hs
    exact iff_of_true hl trivial
  | grant i alloc token =>
    split at hs <;> cases hs
    rename_i hguard
    exact listed_grant_iff hl hguard.2
  | touch i openRd openWr dirty pages =>
    split at hs <;> cases hs
    rw [listed_iff_at hl i fun j hj => by simp [hj]]
    simp [NeedsRenewal, RenewOk, LeaseInode.inUse]
    grind
  | scan nr =>
    cases hs
    exact listed_scan_iff hinv hl nr
  | quiesce =>
    cases hs
    exact listed_quiesce_iff hinv hl
  | free i =>
    split at hs <;> cases hs
    refine iff_of_true ?_ trivial
    rw [listed_iff_at hl i fun j hj => by simp [hj]]
    intro hneeds
    simp [NeedsRenewal] at hneeds
  | evict i =>
    split at hs <;> cases hs
    refine iff_of_true ?_ trivial
    rw [listed_iff_at hl i fun j hj => ?_]
    · intro hneeds
      simp [NeedsRenewal, LeaseInode.fresh] at hneeds
    · rw [evictCap]
      split <;> simp [hj]

theorem LruInv.scan (hinv : LruInv s) (nr : Nat) : LruInv (shrinkerScan s nr) := by
  have hsplit := scanned_append s.inode nr s.lru
  have hnodup := hinv.nodup
  have hsub := hinv.sub
  rw [← hsplit] at hnodup hsub
  have hsubperm : ((scanned s.inode nr s.lru).2 ++
      (scanned s.inode nr s.lru).1.filter fun i => (s.inode i).pages).Subperm
      ((scanned s.inode nr s.lru).1 ++ (scanned s.inode nr s.lru).2) :=
    (List.Sublist.subperm (List.Sublist.append_left List.filter_sublist _)).trans
      List.perm_append_comm.subperm
  refine ⟨?_, ?_, hinv.count⟩
  · rw [shrinkerScan_lru]
    obtain ⟨l, hperm, hsublist⟩ := hsubperm
    exact hperm.nodup_iff.mp (hnodup.sublist hsublist)
  · rw [shrinkerScan_lru]
    exact fun i hi => hsub (hsubperm.subset hi)

theorem LruInv.quiesce (hinv : LruInv s) : LruInv (quiesceAll s) := by
  refine ⟨?_, fun i hi => hinv.sub ((mem_quiesceAll_lru hinv i).mp hi).1, hinv.count⟩
  simp only [quiesceAll, foldl_erase_eq_filter _ _ _ hinv.nodup]
  exact hinv.nodup.filter _

theorem LruInv.grant (hinv : LruInv s) (i : Nat) (alloc : Bool)
    (token : List UInt8) : LruInv (grantCap s i alloc token) := by
  rw [grantCap]
  split
  case isTrue => exact ⟨hinv.nodup, hinv.sub, hinv.count⟩
  case isFalse hcap =>
    split
    case isFalse => exact hinv
    case isTrue =>
      refine ⟨?_, ?_, congrArg (· + 1) hinv.count⟩
      · have hnew : i ∉ s.lru := fun h => hcap (hinv.sub h)
        exact List.nodup_append.mpr ⟨hinv.nodup, List.nodup_singleton i, by grind⟩
      · intro j hj
        obtain hold | hnew := List.mem_append.mp hj
        · exact List.mem_cons_of_mem _ (hinv.sub hold)
        · exact List.mem_singleton.mp hnew ▸ List.mem_cons_self

theorem LruInv.evict (hinv : LruInv s) (i : Nat) : LruInv (evictCap s i) := by
  rw [evictCap]
  split
  case isFalse => exact hinv
  case isTrue hcap =>
    refine ⟨hinv.nodup.erase i, ?_, ?_⟩
    · intro j hj
      obtain ⟨hne, hmem⟩ := hinv.nodup.mem_erase_iff.mp hj
      exact (List.mem_erase_of_ne hne).mpr (hinv.sub hmem)
    · simp only [List.length_erase_of_mem hcap, hinv.count]

theorem LruInv.step {s s' : LruState} {e : LruEvent} (hinv : LruInv s)
    (hs : lruExec s e = some s') : LruInv s' := by
  cases e with simp only [lruExec] at hs
  | scan nr =>
    cases hs
    exact hinv.scan nr
  | quiesce =>
    cases hs
    exact hinv.quiesce
  | grant i alloc token =>
    split at hs <;> cases hs
    exact hinv.grant i alloc token
  | evict i =>
    split at hs <;> cases hs
    obtain ⟨hnodup, hsub, hcount⟩ := hinv.evict i
    exact ⟨hnodup, hsub, hcount⟩
  | cache i | touch i openRd openWr dirty pages | free i =>
    split at hs <;> cases hs
    exact ⟨hinv.nodup, hinv.sub, hinv.count⟩

/-- In every run that meets the condition, each live capability with a token whose inode is open for
write or dirty is on the list and swept. The condition is exact. -/
theorem renewSafe_of_renewOk (s : LruState) :
    (Runs.Reach (fun s e s' => lruExec s e = some s') RenewOk LruInit s → RenewSafe s) ∧
      ∀ e s', Runs.Reach (fun s e s' => lruExec s e = some s') (fun _ _ => True) LruInit s →
        RenewSafe s → lruExec s e = some s' → (RenewSafe s' ↔ RenewOk s e) := by
  constructor
  · intro h
    have hinv : LruInv s ∧ Listed s := by
      apply h.invariant (fun _ hinit => ⟨hinit.inv, hinit.listed⟩)
      intro s e s' ⟨hinv, hl⟩ hok hs
      exact ⟨hinv.step hs, (listed_step_iff hinv hl hs).mpr hok⟩
    exact hinv.1.renewSafe_iff.mpr hinv.2
  · intro e s' h hsafe hs
    have hinv : LruInv s :=
      h.invariant (fun _ hinit => hinit.inv) fun _ _ _ hinv _ hs => hinv.step hs
    rw [(hinv.step hs).renewSafe_iff]
    exact listed_step_iff hinv (hinv.renewSafe_iff.mp hsafe) hs

/-- A mount with nothing cached. -/
def emptyLru : LruState := ⟨fun _ => .fresh, [], [], [], 0⟩

theorem lruInit_emptyLru : LruInit emptyLru := rfl

instance (s : LruState) (i : Nat) : Decidable (NeedsRenewal s i) :=
  inferInstanceAs (Decidable (_ ∧ _))

instance (s : LruState) : (e : LruEvent) → Decidable (RenewOk s e)
  | .scan nr => inferInstanceAs (Decidable (∀ i ∈ (scanned s.inode nr s.lru).1, _ → _))
  | .quiesce => inferInstanceAs (Decidable (∀ i ∈ s.inodes, _ → _))
  | .grant .. => inferInstanceAs (Decidable (_ → _ → _ → _))
  | .touch .. => inferInstanceAs (Decidable (_ → _ → _ → _))
  | .cache _ | .free _ | .evict _ => inferInstanceAs (Decidable True)

def dirtyWriterRun : List LruEvent :=
  [.cache 1, .grant 1 true [7], .touch 1 0 1 false true, .cache 2, .grant 2 true [8],
    .touch 2 1 0 false false, .scan 2]

theorem renewSafe_of_renewOk_dirtyWriter :
    ∃ s, dirtyWriterRun.foldlM lruExec emptyLru = some s ∧ NeedsRenewal s 1 ∧ 1 ∈ s.lru ∧
      1 ∈ sweepVisits s ∧ 2 ∉ s.lru := by
  obtain ⟨s, hrun, hs⟩ := Option.map_eq_some_iff.mp
    (show (dirtyWriterRun.foldlM lruExec emptyLru).map
      (fun s => (decide (NeedsRenewal s 1), s.lru, s.totalCaps)) = some (true, [1], 2) by decide)
  simp only [Prod.mk.injEq, decide_eq_true_eq] at hs
  obtain ⟨hneeds, hlru, htotal⟩ := hs
  have hok : Runs.OkAlong lruExec RenewOk emptyLru dirtyWriterRun := by decide
  have hsafe := (renewSafe_of_renewOk s).1 (.of_run (.start lruInit_emptyLru) hok hrun) 1 hneeds
  refine ⟨s, hrun, hneeds, hsafe.1, hsafe.2 (by omega), ?_⟩
  rw [hlru]
  decide

/-- The same file with its pages written back: the scan takes it off the list. -/
def cleanWriterRun : List LruEvent :=
  [.cache 1, .grant 1 true [7], .touch 1 0 1 false false, .scan 1]

theorem not_renewSafe_runs :
    ¬ ∀ s, Runs.Reach (fun s e s' => lruExec s e = some s') (fun _ _ => True) LruInit s →
      RenewSafe s := by
  intro hall
  obtain ⟨s, hrun, hs⟩ := Option.map_eq_some_iff.mp
    (show (cleanWriterRun.foldlM lruExec emptyLru).map
      (fun s => (decide (NeedsRenewal s 1), s.lru)) = some (true, []) by decide)
  have hsafe := hall s (.run lruInit_emptyLru hrun)
  simp only [Prod.mk.injEq, decide_eq_true_eq] at hs
  have hmem := (hsafe 1 hs.1).1
  rw [hs.2] at hmem
  exact absurd hmem List.not_mem_nil

end PowerFS.Caps
