import PowerFS.Xattr.Listing
import PowerFS.Lib.Runs

namespace PowerFS.Xattr

/-! The flush of the cached attributes in `powerfs_cap_flush`, with the calls of this client that
fill the cache and the changes of other clients on the Filer, in any interleaving. -/

/-- What the slow path of `powerfs_xattr_handler_get` returns, and the value that it caches. -/
def fetched (reply : FilerReply) (size : Nat) : GetResult × Option XattrValue :=
  if 0 < size then
    match netGetxattr reply size with
    | (.ok v, len) => (.ok (len, v), some v)
    | (.error err, _) => (.error err, none)
  else
    match netGetxattr reply probeCap with
    | (.ok v, len) => (.ok (len, []), some v)
    | (.error .erange, len) => (.ok (len, []), none)
    | (.error err, _) => (.error err, none)

/-- `powerfs_xattr_handler_get` up to its update of the cache. -/
def startGet (cache : XattrTable) (reply : FilerReply) (name : XattrName) (size : Nat) :
    GetResult × Option XattrValue :=
  match simpleXattrGet cache name size with
  | .error .enodata => fetched reply size
  | res => (res, none)

def fillFlags : Option XattrValue → SetFlags → SetFlags
  | some _, flags => flags
  | none, _ => .none

/-- `fill` has its answer and will update the cache, and mark it dirty if `marks`. `flush` has names
still to read, and the value that it is about to send. -/
inductive Job where
  | fill (name : XattrName) (value : Option XattrValue) (flags : SetFlags) (marks : Bool)
  | flush (names : List XattrName) (sending : Option (XattrName × XattrValue))

/-- A value that a flush has sent: whether that changed the attribute on the Filer, and whether the
attribute was one of this client's own changes. -/
structure Push where
  name : XattrName
  changed : Bool
  mine : Bool
  deriving DecidableEq

/-- `dirty` is `POWERFS_CAP_XATTR_EXCL` in `i_dirty_caps`. The attributes in `mine` are those that
this client has set or removed since it last read them, and that no other client has changed
since. -/
structure FlushState where
  cache : XattrTable
  filer : XattrTable
  dirty : Bool
  jobs : List Job
  mine : XattrName → Bool
  pushes : List Push

/-- The result of a request: a failed one may have been carried out. -/
inductive Sent where
  | done
  | failed (applied : Bool)

def Sent.applied : Sent → Bool
  | .done => true
  | .failed applied => applied

inductive AclType where
  | access
  | default

/-- `system.posix_acl_access` and `system.posix_acl_default`. -/
def aclName : AclType → XattrName
  | .access => ⟨[115, 121, 115, 116, 101, 109, 46, 112, 111, 115, 105, 120, 95, 97, 99, 108, 95,
      97, 99, 99, 101, 115, 115], by decide⟩
  | .default => ⟨[115, 121, 115, 116, 101, 109, 46, 112, 111, 115, 105, 120, 95, 97, 99, 108, 95,
      100, 101, 102, 97, 117, 108, 116], by decide⟩

/-- `noValue` is what the Filer makes of a SET_XATTR without a value. -/
inductive FlushEvent where
  /-- The request of `powerfs_xattr_handler_set`. -/
  | set (name : XattrName) (value : Option XattrValue) (flags : SetFlags) (sent : Sent)
      (noValue : Option XattrValue)
  /-- `powerfs_xattr_handler_get`; `failure` is an error of its request. -/
  | get (name : XattrName) (size : Nat) (failure : Option Errno)
  /-- A request of the loop of `powerfs_listxattr` that fills the cache. -/
  | refill (name : XattrName)
  | finishFill (i : Nat) (alloc : Bool)
  /-- `powerfs_set_acl`. -/
  | setAcl (type : AclType) (value : Option XattrValue) (alloc : Bool)
  /-- An attribute leaves the cache, as in `powerfs_readahead_invalidate`. -/
  | invalidate (name : XattrName)
  | evict
  | flushStart (admin : Bool)
  | flushRead (i : Nat)
  | flushSend (i : Nat) (sent : Sent) (noValue : Option XattrValue)
  /-- No memory, or a value that changed between the two calls that read it. -/
  | flushFail (i : Nat)
  | flushEnd (i : Nat)
  /-- Another client sets an attribute, or removes it. -/
  | other (name : XattrName) (value : Option XattrValue)

def filerChange (filer : XattrTable) (name : XattrName) (noValue : Option XattrValue) :
    Option XattrValue → XattrTable
  | some v => filerSet filer name (requestValue v) noValue
  | none => filer.erase name

def FlushState.ownChange (s : FlushState) (name : XattrName) (value noValue : Option XattrValue) :
    FlushState :=
  { s with
    filer := filerChange s.filer name noValue value
    mine := Function.update s.mine name true }

def getReply (s : FlushState) (name : XattrName) : Option Errno → FilerReply
  | some err => .error err
  | none => filerGet s.filer name

/-- The caller has learnt the value, or that there is none. -/
def isRead : GetResult → Bool
  | .ok _ => true
  | .error .enodata => true
  | .error _ => false

def fillJob (name : XattrName) : Option XattrValue → List Job
  | some v => [.fill name (some v) .none false]
  | none => []

/-- After a get with the result `res.1`, which is to cache the value `res.2`. -/
def FlushState.afterGet (s : FlushState) (name : XattrName) (res : GetResult × Option XattrValue) :
    FlushState :=
  { s with
    mine := if isRead res.1 then Function.update s.mine name false else s.mine
    jobs := s.jobs ++ fillJob name res.2 }

def flushExec (s : FlushState) : FlushEvent → Option FlushState
  | .set name value flags sent noValue =>
    if value.any (fun v => xattrSizeMax < v.length) then some s
    else
      match sent with
      | .done =>
        some { s.ownChange name value noValue with
          jobs := s.jobs ++ [.fill name value (fillFlags value flags) true] }
      | .failed true => some (s.ownChange name value noValue)
      | .failed false => some s
  | .get name size failure =>
    some (s.afterGet name (startGet s.cache (getReply s name failure) name size))
  | .refill name =>
    match netGetxattr (filerGet s.filer name) xattrSizeMax with
    | (.ok v, _) => some { s with jobs := s.jobs ++ fillJob name (some v) }
    | (.error _, _) => some s
  | .finishFill i alloc =>
    match s.jobs[i]? with
    | some (.fill name value flags marks) =>
      some { s with
        cache := fillCache alloc s.cache name value flags
        dirty := s.dirty || marks
        jobs := s.jobs.eraseIdx i }
    | _ => none
  | .setAcl type value alloc =>
    if value.isSome && !alloc then some s
    else
      some { s with
        cache := fillCache alloc s.cache (aclName type) value ⟨false, value.isNone⟩
        dirty := true
        mine := Function.update s.mine (aclName type) true }
  | .invalidate name => some { s with cache := fillCache true s.cache name none .none }
  | .evict =>
    match s.jobs with
    | [] => some { s with cache := .empty, dirty := false }
    | _ :: _ => none
  | .flushStart admin =>
    if s.dirty then
      some { s with
        dirty := false
        jobs := s.jobs ++ [.flush (visibleNames admin s.cache) none] }
    else none
  | .flushRead i =>
    match s.jobs[i]? with
    | some (.flush (name :: names) none) =>
      some { s with
        jobs := s.jobs.set i (.flush names ((s.cache.get name).map fun v => (name, v))) }
    | _ => none
  | .flushSend i sent noValue =>
    match s.jobs[i]? with
    | some (.flush names (some (name, v))) =>
      let filer := if sent.applied then filerChange s.filer name noValue (some v) else s.filer
      let push : Push := ⟨name, decide (filer.get name ≠ s.filer.get name), s.mine name⟩
      let s' := { s with filer, pushes := push :: s.pushes }
      match sent with
      | .done => some { s' with jobs := s.jobs.set i (.flush names none) }
      | .failed _ => some { s' with jobs := s.jobs.eraseIdx i, dirty := true }
    | _ => none
  | .flushFail i =>
    match s.jobs[i]? with
    | some (.flush _ none) => some { s with jobs := s.jobs.eraseIdx i, dirty := true }
    | _ => none
  | .flushEnd i =>
    match s.jobs[i]? with
    | some (.flush [] none) => some { s with jobs := s.jobs.eraseIdx i }
    | _ => none
  | .other name value =>
    match value with
    | some v =>
      some { s with filer := s.filer.put name v, mine := Function.update s.mine name false }
    | none =>
      if (s.filer.get name).isSome then
        some { s with filer := s.filer.erase name, mine := Function.update s.mine name false }
      else none

def TouchesOwn (s : FlushState) : Prop := ∀ p ∈ s.pushes, p.changed = true → p.mine = true

def Job.held (name : XattrName) : Job → Option XattrValue
  | .fill n value _ _ => if n = name then value else none
  | .flush _ (some (n, v)) => if n = name then some v else none
  | .flush _ none => none

variable {value : Option XattrValue} {flags : SetFlags}

theorem Job.held_fill_iff {n name : XattrName} {marks : Bool} {v : XattrValue} :
    (Job.fill n value flags marks).held name = some v ↔ n = name ∧ value = some v := by
  show (if n = name then value else none) = some v ↔ _
  split
  · next hn => simp [hn]
  · next hn => simp [hn]

theorem Job.held_flush_iff {names : List XattrName} {sending : Option (XattrName × XattrValue)}
    {name : XattrName} {v : XattrValue} :
    (Job.flush names sending).held name = some v ↔ sending = some (name, v) := by
  obtain _ | ⟨n, w⟩ := sending
  · exact iff_of_false (by intro hv; cases hv) (by intro hv; cases hv)
  · show (if n = name then some w else none) = some v ↔ _
    split
    · next hn => simp [hn]
    · next hn => simp [hn]

/-- The values of an attribute that this client may send. -/
def FlushState.held (s : FlushState) (name : XattrName) : List XattrValue :=
  (s.cache.get name).toList ++ s.jobs.filterMap (Job.held name)

theorem FlushState.mem_held_iff (s : FlushState) (name : XattrName) (v : XattrValue) :
    v ∈ s.held name ↔ s.cache.get name = some v ∨ ∃ j ∈ s.jobs, j.held name = some v := by
  simp [FlushState.held]

/-- What this client may send is on the Filer already, or its own change. -/
structure FlushSound (s : FlushState) : Prop where
  touches : TouchesOwn s
  held : ∀ name, ∀ v ∈ s.held name, s.filer.get name = some v ∨ s.mine name = true

structure FlushInit (s : FlushState) : Prop where
  cache : s.cache = .empty
  jobs : s.jobs = []
  mine : ∀ name, s.mine name = false
  pushes : s.pushes = []

/-- When this client reads an attribute, and when another one changes it, the values that this
client has of it are the Filer's; and a flush sends a value that is no change of its own only if it
fits in a field. -/
def FlushOk (s : FlushState) : FlushEvent → Prop
  | .get name size failure =>
    isRead (startGet s.cache (getReply s name failure) name size).1 = true →
      ∀ v ∈ s.held name, s.filer.get name = some v
  | .other name value => ∀ v ∈ s.held name, value = some v
  | .flushSend i sent noValue =>
    match s.jobs[i]? with
    | some (.flush _ (some (name, v))) =>
      sent.applied = true → s.mine name = true ∨ v.length ≤ Net.maxTlv ∨ noValue = some v
    | _ => True
  | _ => True

variable {alloc : Bool}

section Calls

section

variable (alloc : Bool) (cache : XattrTable) (reply : FilerReply) (name : XattrName) (size : Nat)

theorem fetchXattr_eq_fetched :
    fetchXattr alloc cache reply name size =
      ((fetched reply size).1,
        match (fetched reply size).2 with
        | some v => fillCache alloc cache name (some v) .none
        | none => cache) := by
  unfold fetchXattr fetched
  by_cases hsize : 0 < size
  · rw [if_pos hsize, if_pos hsize]
    obtain ⟨err | v, len⟩ := netGetxattr reply size <;> rfl
  · rw [if_neg hsize, if_neg hsize]
    obtain ⟨err | v, len⟩ := netGetxattr reply probeCap
    · cases err <;> rfl
    · rfl

theorem xattrHandlerGet_eq_startGet :
    xattrHandlerGet alloc cache reply name size =
      ((startGet cache reply name size).1,
        match (startGet cache reply name size).2 with
        | some v => fillCache alloc cache name (some v) .none
        | none => cache) := by
  have hfetch := fetchXattr_eq_fetched alloc cache reply name size
  unfold xattrHandlerGet startGet
  obtain err | v := simpleXattrGet cache name size
  · cases err <;> first | exact hfetch | rfl
  · rfl

end

theorem xattrHandlerSet_eq_fill (alloc : Bool) (cache : XattrTable) (name : XattrName)
    (flags : SetFlags) (h : value.any (fun v => xattrSizeMax < v.length) = false) :
    xattrHandlerSet alloc cache (.ok ()) name value flags =
      (.ok (), fillCache alloc cache name value (fillFlags value flags)) := by
  cases value with
  | none => rfl
  | some v =>
    have hle : ¬ xattrSizeMax < v.length := of_decide_eq_false h
    simp only [xattrHandlerSet, if_neg hle, fillFlags]

theorem get_fillCache_some {cache : XattrTable} {name k : XattrName} {v : XattrValue}
    (h : (fillCache alloc cache name value flags).get k = some v) :
    cache.get k = some v ∨ name = k ∧ value = some v := by
  by_cases hk : k = name
  · subst hk
    cases value with
    | some w =>
      rw [get_fillCache_self] at h
      split at h
      · exact .inr ⟨rfl, h⟩
      · exact .inl h
    | none =>
      left
      unfold fillCache simpleXattrSet at h
      cases hcache : cache.get k with
      | none =>
        cases hflag : flags.replace <;> simp [hflag, hcache] at h
      | some w =>
        cases hflag : flags.create <;> simp [hflag, hcache] at h
        rw [h]
  · left
    rwa [get_fillCache_of_ne alloc cache name k flags value hk] at h

theorem get_of_netGetxattr {filer : XattrTable} {name : XattrName} {cap len : Nat}
    {v : XattrValue} (h : netGetxattr (filerGet filer name) cap = (.ok v, len)) :
    filer.get name = some v := by
  unfold filerGet at h
  cases hfiler : filer.get name with rw [hfiler] at h
  | none =>
    cases h
  | some w =>
    replace h : netGetxattr (.ok (some (Net.tlvField fldXattrValue w))) cap = (.ok v, len) := h
    by_cases hlong : getxattrRespCap < w.length + 5
    · rw [netGetxattr_of_lt hlong] at h
      cases h
    · rw [netGetxattr_of_le (Nat.le_of_not_lt hlong)] at h
      split at h
      · cases h
      · injection h with h
        injection h with h
        rw [h]

theorem get_of_startGet {s : FlushState} {name : XattrName} {size : Nat} {failure : Option Errno}
    {v : XattrValue} (h : (startGet s.cache (getReply s name failure) name size).2 = some v) :
    s.filer.get name = some v := by
  cases failure with
  | some err =>
    unfold startGet at h
    split at h
    · unfold fetched at h
      split at h
      · cases h
      · simp only [getReply, netGetxattr] at h
        split at h <;> simp_all
    · cases h
  | none =>
    unfold startGet fetched at h
    split at h <;> try cases h
    split at h
    · split at h
      · next hnet =>
        cases h
        exact get_of_netGetxattr hnet
      · cases h
    · split at h
      · next hnet =>
        cases h
        exact get_of_netGetxattr hnet
      · cases h
      · cases h

end Calls

section Step

variable {s s' : FlushState}

/-- A step that neither sends nor reads: what this client has after it, it had or is on the
Filer. -/
theorem FlushSound.keep (h : FlushSound s) (hpushes : s'.pushes = s.pushes)
    (hfiler : s'.filer = s.filer) (hmine : s'.mine = s.mine)
    (hheld : ∀ name, ∀ v ∈ s'.held name, v ∈ s.held name ∨ s.filer.get name = some v) :
    FlushSound s' where
  touches := by
    unfold TouchesOwn
    rw [hpushes]
    exact h.touches
  held name v hv := by
    rw [hfiler, hmine]
    obtain hold | hnew := hheld name v hv
    · exact h.held name v hold
    · exact .inl hnew

variable {name : XattrName}

theorem FlushSound.own (h : FlushSound s) (hpushes : s'.pushes = s.pushes)
    (hmine : s'.mine = Function.update s.mine name true)
    (hfiler : ∀ k, k ≠ name → s'.filer.get k = s.filer.get k)
    (hheld : ∀ k, k ≠ name → ∀ v ∈ s'.held k, v ∈ s.held k) : FlushSound s' where
  touches := by
    unfold TouchesOwn
    rw [hpushes]
    exact h.touches
  held k v hv := by
    by_cases hk : k = name
    · subst hk
      right
      rw [hmine, Function.update_self]
    · rw [hfiler k hk, hmine, Function.update_of_ne hk]
      exact h.held k v (hheld k hk v hv)

theorem FlushSound.disown_iff (h : FlushSound s)
    (hpushes : s'.pushes = s.pushes) (hmine : s'.mine = Function.update s.mine name false)
    (hfiler : ∀ k, k ≠ name → s'.filer.get k = s.filer.get k)
    (hheld : ∀ k, k ≠ name → ∀ v ∈ s'.held k, v ∈ s.held k) :
    FlushSound s' ↔ ∀ v ∈ s'.held name, s'.filer.get name = some v := by
  constructor
  · intro h' v hv
    obtain hfresh | hown := h'.held name v hv
    · exact hfresh
    · rw [hmine, Function.update_self] at hown
      cases hown
  · intro hfresh
    refine ⟨?_, fun k v hv => ?_⟩
    · unfold TouchesOwn
      rw [hpushes]
      exact h.touches
    · by_cases hk : k = name
      · subst hk
        exact .inl (hfresh v hv)
      · rw [hfiler k hk, hmine, Function.update_of_ne hk]
        exact h.held k v (hheld k hk v hv)

theorem get_filerChange_of_ne (filer : XattrTable) {name k : XattrName} (hk : k ≠ name)
    (value noValue : Option XattrValue) :
    (filerChange filer name noValue value).get k = filer.get k := by
  cases value with
  | some v =>
    show (filerSet filer name (requestValue v) noValue).get k = _
    rw [get_filerSet, if_neg hk]
  | none =>
    show (filer.erase name).get k = _
    rw [AssocTable.get_erase, if_neg hk]

variable {v : XattrValue}

theorem mem_held_of_jobs (s : FlushState) {P : Job → Prop} (hv : v ∈ s'.held name)
    (hcache : s'.cache = s.cache) (hjobs : ∀ j ∈ s'.jobs, j ∈ s.jobs ∨ P j) :
    v ∈ s.held name ∨ ∃ j, P j ∧ j.held name = some v := by
  rw [FlushState.mem_held_iff, hcache] at hv
  rw [FlushState.mem_held_iff]
  obtain hcached | ⟨j, hj, hheld⟩ := hv
  · exact .inl (.inl hcached)
  · obtain hold | hnew := hjobs j hj
    · exact .inl (.inr ⟨j, hold, hheld⟩)
    · exact .inr ⟨j, hnew, hheld⟩

variable {i : Nat}

theorem mem_held_of_eraseIdx (s : FlushState)
    (hv : v ∈ s'.held name) (hcache : s'.cache = s.cache) (hjobs : s'.jobs = s.jobs.eraseIdx i) :
    v ∈ s.held name := by
  rw [FlushState.mem_held_iff, hcache, hjobs] at hv
  rw [FlushState.mem_held_iff]
  obtain hcached | ⟨j, hj, hheld⟩ := hv
  · exact .inl hcached
  · exact .inr ⟨j, List.mem_of_mem_eraseIdx hj, hheld⟩

theorem held_of_getElem? {job : Job}
    (hjob : s.jobs[i]? = some job) (hheld : job.held name = some v) : v ∈ s.held name :=
  (s.mem_held_iff name v).mpr (.inr ⟨job, List.mem_of_getElem? hjob, hheld⟩)

variable {noValue : Option XattrValue} {sent : Sent}

section

variable (h : FlushSound s)
include h

theorem FlushSound.set
    (hs : flushExec s (.set name value flags sent noValue) = some s') : FlushSound s' := by
  have hchange : FlushSound (s.ownChange name value noValue) := by
    refine h.own rfl rfl (fun k hk => ?_) (fun k _ v hv => hv)
    exact get_filerChange_of_ne s.filer hk value noValue
  simp only [flushExec] at hs
  split at hs
  · cases hs
    exact h
  · split at hs
    · cases hs
      refine h.own rfl rfl (fun k hk => ?_) (fun k hk v hv => ?_)
      · exact get_filerChange_of_ne s.filer hk value noValue
      · obtain hold | ⟨j, hj, hheld⟩ := mem_held_of_jobs s hv rfl fun _ => List.mem_append.mp
        · exact hold
        · rw [List.mem_singleton.mp hj, Job.held_fill_iff] at hheld
          exact absurd hheld.1.symm hk
    · cases hs
      exact hchange
    · cases hs
      exact h

theorem FlushSound.fetch (hv : s.filer.get name = some v) :
    FlushSound { s with jobs := s.jobs ++ fillJob name (some v) } := by
  refine h.keep rfl rfl rfl fun k w hw => ?_
  obtain hold | ⟨j, hj, hheld⟩ := mem_held_of_jobs s hw rfl fun _ => List.mem_append.mp
  · exact .inl hold
  · rw [List.mem_singleton.mp hj, Job.held_fill_iff] at hheld
    right
    rw [← hheld.1, hv, hheld.2]

theorem FlushSound.refill (hs : flushExec s (.refill name) = some s') : FlushSound s' := by
  simp only [flushExec] at hs
  split at hs
  · next hnet =>
    cases hs
    exact h.fetch (get_of_netGetxattr hnet)
  · cases hs
    exact h

theorem FlushSound.finishFill
    (hs : flushExec s (.finishFill i alloc) = some s') : FlushSound s' := by
  simp only [flushExec] at hs
  split at hs <;> cases hs
  next name value flags marks hjob =>
  refine h.keep rfl rfl rfl fun k v hv => .inl ?_
  rw [FlushState.mem_held_iff] at hv
  obtain hcached | ⟨j, hj, hheld⟩ := hv
  · obtain hold | ⟨hk, hvalue⟩ := get_fillCache_some hcached
    · exact (s.mem_held_iff k v).mpr (.inl hold)
    · exact held_of_getElem? hjob (Job.held_fill_iff.mpr ⟨hk, hvalue⟩)
  · exact (s.mem_held_iff k v).mpr (.inr ⟨j, List.mem_of_mem_eraseIdx hj, hheld⟩)

theorem FlushSound.setAcl {type : AclType}
    (hs : flushExec s (.setAcl type value alloc) = some s') : FlushSound s' := by
  simp only [flushExec] at hs
  split at hs
  · cases hs
    exact h
  · cases hs
    refine h.own rfl rfl (fun _ _ => rfl) (fun k hk v hv => ?_)
    rw [FlushState.mem_held_iff] at hv ⊢
    obtain hcached | hjob := hv
    · left
      rwa [get_fillCache_of_ne alloc s.cache _ k _ value hk] at hcached
    · exact .inr hjob

theorem FlushSound.forget {cache : XattrTable} {dirty : Bool}
    (hcache : ∀ name v, cache.get name = some v → s.cache.get name = some v) :
    FlushSound { s with cache, dirty } := by
  refine h.keep rfl rfl rfl fun k v hv => .inl ?_
  rw [FlushState.mem_held_iff] at hv ⊢
  exact hv.imp_left (hcache k v)

theorem FlushSound.invalidate (hs : flushExec s (.invalidate name) = some s') : FlushSound s' := by
  cases hs
  refine h.forget fun k v hv => ?_
  obtain hold | ⟨-, hvalue⟩ := get_fillCache_some hv
  · exact hold
  · cases hvalue

theorem FlushSound.evict (hs : flushExec s .evict = some s') :
    FlushSound s' := by
  simp only [flushExec] at hs
  split at hs <;> cases hs
  exact h.forget fun k v hv => by cases hv

theorem FlushSound.flushStart {admin : Bool}
    (hs : flushExec s (.flushStart admin) = some s') : FlushSound s' := by
  simp only [flushExec] at hs
  split at hs <;> cases hs
  refine h.keep rfl rfl rfl fun k v hv => .inl ?_
  obtain hold | ⟨j, hj, hheld⟩ := mem_held_of_jobs s hv rfl fun _ => List.mem_append.mp
  · exact hold
  · rw [List.mem_singleton.mp hj] at hheld
    cases hheld

theorem FlushSound.flushRead (hs : flushExec s (.flushRead i) = some s') : FlushSound s' := by
  simp only [flushExec] at hs
  split at hs <;> cases hs
  next name names hjob =>
  refine h.keep rfl rfl rfl fun k v hv => .inl ?_
  obtain hold | ⟨_, rfl, hheld⟩ := mem_held_of_jobs s hv rfl fun _ => List.mem_or_eq_of_mem_set
  · exact hold
  · rw [Job.held_flush_iff, Option.map_eq_some_iff] at hheld
    obtain ⟨w, hcached, heq⟩ := hheld
    cases heq
    exact (s.mem_held_iff _ _).mpr (.inl hcached)

theorem FlushSound.erase {dirty : Bool} :
    FlushSound { s with jobs := s.jobs.eraseIdx i, dirty } := by
  refine h.keep rfl rfl rfl fun k v hv => .inl ?_
  exact mem_held_of_eraseIdx s hv rfl rfl

theorem FlushSound.afterGet_iff {res : GetResult × Option XattrValue}
    (hvalue : ∀ v, res.2 = some v → s.filer.get name = some v) :
    FlushSound (s.afterGet name res) ↔
      (isRead res.1 = true → ∀ v ∈ s.held name, s.filer.get name = some v) := by
  have hnew (k : XattrName) (v : XattrValue) (hv : v ∈ (s.afterGet name res).held k) :
      v ∈ s.held k ∨ name = k ∧ s.filer.get k = some v := by
    obtain hold | ⟨j, hj, hheld⟩ := mem_held_of_jobs s hv rfl fun _ => List.mem_append.mp
    · exact .inl hold
    · obtain ⟨r, _ | w⟩ := res
      · cases hj
      · rw [List.mem_singleton.mp hj, Job.held_fill_iff] at hheld
        obtain ⟨rfl, hw⟩ := hheld
        exact .inr ⟨rfl, hvalue v hw⟩
  cases hread : isRead res.1 with
  | false =>
    refine iff_of_true ?_ fun hread' => absurd hread' Bool.false_ne_true
    refine h.keep rfl rfl ?_ fun k v hv => (hnew k v hv).imp_right And.right
    show (if isRead res.1 then Function.update s.mine name false else s.mine) = s.mine
    rw [hread]
    rfl
  | true =>
    have hmine : (s.afterGet name res).mine = Function.update s.mine name false := by
      show (if isRead res.1 then Function.update s.mine name false else s.mine) = _
      rw [hread]
      rfl
    refine Iff.trans (h.disown_iff rfl hmine (fun _ _ => rfl) fun k hk v hv => ?_) ?_
    · obtain hold | ⟨hname, -⟩ := hnew k v hv
      · exact hold
      · exact absurd hname.symm hk
    · constructor
      · intro hfresh _ v hv
        refine hfresh v ?_
        rw [FlushState.mem_held_iff] at hv ⊢
        refine hv.imp_right ?_
        rintro ⟨j, hj, hheld⟩
        exact ⟨j, List.mem_append_left _ hj, hheld⟩
      · intro hok v hv
        obtain hold | ⟨-, hfiler⟩ := hnew name v hv
        · exact hok rfl v hold
        · exact hfiler

theorem FlushSound.other_iff (hs : flushExec s (.other name value) = some s') :
    FlushSound s' ↔ ∀ v ∈ s.held name, value = some v := by
  simp only [flushExec] at hs
  cases value with
  | some w =>
    obtain rfl := Option.some.inj hs
    refine Iff.trans (h.disown_iff rfl rfl (fun k hk => s.filer.get_put_of_ne w hk)
      fun _ _ _ hv => hv) ?_
    show (∀ v ∈ s.held name, (s.filer.put name w).get name = some v) ↔ _
    rw [AssocTable.get_put_self]
  | none =>
    simp only at hs
    split at hs <;> cases hs
    refine Iff.trans (h.disown_iff rfl rfl (fun k hk => ?_) fun _ _ _ hv => hv) ?_
    · rw [AssocTable.get_erase, if_neg hk]
    · show (∀ v ∈ s.held name, (s.filer.erase name).get name = some v) ↔ _
      rw [AssocTable.get_erase_self]

theorem FlushSound.push_iff {filer : XattrTable}
    (hfiler : filer = if sent.applied then filerChange s.filer name noValue (some v) else s.filer)
    (hv : v ∈ s.held name) (hheld : ∀ k, ∀ w ∈ s'.held k, w ∈ s.held k)
    (hfiler' : s'.filer = filer) (hmine : s'.mine = s.mine) (hpushes : s'.pushes =
      ⟨name, decide (filer.get name ≠ s.filer.get name), s.mine name⟩ :: s.pushes) :
    FlushSound s' ↔
      (sent.applied = true → s.mine name = true ∨ v.length ≤ Net.maxTlv ∨ noValue = some v) := by
  have hother (k : XattrName) (hk : k ≠ name) : filer.get k = s.filer.get k := by
    rw [hfiler]
    split
    · exact get_filerChange_of_ne s.filer hk (some v) noValue
    · rfl
  -- Unless the attribute is this client's own change, its value stays.
  have hself : (s.mine name = true ∨ filer.get name = s.filer.get name) ↔
      (sent.applied = true → s.mine name = true ∨ v.length ≤ Net.maxTlv ∨ noValue = some v) := by
    cases hown : s.mine name with
    | true => simp
    | false =>
      have hsame : s.filer.get name = some v := by
        obtain hfresh | hown' := h.held name v hv
        · exact hfresh
        · rw [hown] at hown'
          cases hown'
      cases happlied : sent.applied with
      | false => simp [hfiler, happlied]
      | true =>
        have hget : filer.get name = (requestValue v).or noValue := by
          rw [hfiler, if_pos happlied]
          show (filerSet s.filer name (requestValue v) noValue).get name = _
          rw [get_filerSet, if_pos rfl]
        rw [hget, hsame, requestValue_or_iff]
        simp
  rw [← hself]
  constructor
  · intro h'
    have hpush := h'.touches _ (by rw [hpushes]; exact List.mem_cons_self)
    by_cases hsame : filer.get name = s.filer.get name
    · exact .inr hsame
    · exact .inl (hpush (decide_eq_true hsame))
  · intro hcase
    refine ⟨?_, fun k w hw => ?_⟩
    · unfold TouchesOwn
      rw [hpushes]
      refine List.forall_mem_cons.mpr ⟨fun hchanged => ?_, h.touches⟩
      obtain hown | hsame := hcase
      · exact hown
      · exact absurd hsame (of_decide_eq_true hchanged)
    · rw [hfiler', hmine]
      have hold := h.held k w (hheld k w hw)
      by_cases hk : k = name
      · subst hk
        obtain hown | hsame := hcase
        · exact .inr hown
        · rwa [hsame]
      · rwa [hother k hk]

theorem FlushSound.flushSend_iff (hs : flushExec s (.flushSend i sent noValue) = some s') :
    FlushSound s' ↔ FlushOk s (.flushSend i sent noValue) := by
  simp only [flushExec] at hs
  split at hs <;> try cases hs
  next names name v hjob =>
  have hv : v ∈ s.held name := held_of_getElem? hjob (Job.held_flush_iff.mpr rfl)
  simp only [FlushOk, hjob]
  cases sent with obtain rfl := Option.some.inj hs
  | done =>
    refine h.push_iff rfl hv (fun k w hw => ?_) rfl rfl rfl
    obtain hold | ⟨_, rfl, hnew⟩ := mem_held_of_jobs s hw rfl fun _ => List.mem_or_eq_of_mem_set
    · exact hold
    · cases hnew
  | failed applied =>
    exact h.push_iff rfl hv (fun k w hw => mem_held_of_eraseIdx s hw rfl rfl) rfl rfl rfl

theorem FlushSound.step {e : FlushEvent} (hs : flushExec s e = some s') :
    FlushSound s' ↔ FlushOk s e := by
  cases e with
  | set => exact iff_of_true (h.set hs) trivial
  | get =>
    obtain rfl := Option.some.inj hs
    exact h.afterGet_iff fun _ => get_of_startGet
  | refill => exact iff_of_true (h.refill hs) trivial
  | finishFill => exact iff_of_true (h.finishFill hs) trivial
  | setAcl => exact iff_of_true (h.setAcl hs) trivial
  | invalidate => exact iff_of_true (h.invalidate hs) trivial
  | evict => exact iff_of_true (h.evict hs) trivial
  | flushStart => exact iff_of_true (h.flushStart hs) trivial
  | flushRead => exact iff_of_true (h.flushRead hs) trivial
  | flushSend => exact h.flushSend_iff hs
  | flushFail | flushEnd =>
    simp only [flushExec] at hs
    split at hs <;> cases hs
    exact iff_of_true h.erase trivial
  | other => exact h.other_iff hs

end

end Step

theorem FlushInit.sound {s : FlushState} (h : FlushInit s) : FlushSound s where
  touches p hp := by
    rw [h.pushes] at hp
    cases hp
  held name v hv := by
    rw [FlushState.mem_held_iff, h.cache, h.jobs] at hv
    obtain hcached | ⟨j, hj, -⟩ := hv
    · cases hcached
    · cases hj

/-- In every run that meets the condition, no flush has changed anything but this client's own
changes. The condition is exact for what is left to send. -/
theorem touchesOwn_of_flushOk (s : FlushState)
    (h : Runs.Reach (fun s e s' => flushExec s e = some s') FlushOk FlushInit s) :
    TouchesOwn s ∧ ∀ e s', flushExec s e = some s' → (FlushSound s' ↔ FlushOk s e) := by
  have hsound : FlushSound s := by
    apply h.invariant (fun _ hinit => hinit.sound)
    intro s e s' hsound hok hs
    exact (hsound.step hs).mpr hok
  exact ⟨hsound.touches, fun e s' hs => hsound.step hs⟩

/-- `user.a` is on the Filer, and this client has nothing. -/
def oneXattr : FlushState :=
  ⟨.empty, AssocTable.empty.put userA [1], false, [], fun _ => false, []⟩

theorem oneXattr_init : FlushInit oneXattr := ⟨rfl, rfl, fun _ => rfl, rfl⟩

/-- `user.a` is read and an ACL is set, and both are flushed. -/
def readAclFlush : List FlushEvent :=
  [.get userA 8 none, .finishFill 0 true, .setAcl .access (some [2]) true, .flushStart true,
    .flushRead 0, .flushSend 0 .done none, .flushRead 0, .flushSend 0 .done none, .flushEnd 0]

instance (s : FlushState) : (e : FlushEvent) → Decidable (FlushOk s e)
  | .get .. => inferInstanceAs (Decidable (_ → _))
  | .other name value => inferInstanceAs (Decidable (∀ v ∈ s.held name, value = some v))
  | .flushSend i sent noValue =>
    match h : s.jobs[i]? with
    | some (.flush _ (some (name, v))) =>
      decidable_of_iff
        (sent.applied = true → s.mine name = true ∨ v.length ≤ Net.maxTlv ∨ noValue = some v)
        (by simp only [FlushOk, h])
    | some (.flush _ none) | some (.fill ..) | none => isTrue (by simp only [FlushOk, h])
  | .set .. | .refill .. | .finishFill .. | .setAcl .. | .invalidate .. | .evict
  | .flushStart .. | .flushRead .. | .flushFail .. | .flushEnd .. => isTrue trivial

theorem touchesOwn_readAclFlush :
    ∃ s, readAclFlush.foldlM flushExec oneXattr = some s ∧
      s.pushes.map (fun p => (p.changed, p.mine)) = [(true, true), (false, false)] ∧
      TouchesOwn s := by
  have hok : Runs.OkAlong flushExec FlushOk oneXattr readAclFlush := by decide
  exact ⟨_, rfl, rfl, (touchesOwn_of_flushOk _ (.of_run (.start oneXattr_init) hok rfl)).1⟩

/-- `user.a` is read, another client changes it, and a flush for `user.b` sets it back. -/
theorem not_touchesOwn_runs :
    ¬ ∀ s, Runs.Reach (fun s e s' => flushExec s e = some s') (fun _ _ => True) FlushInit s →
      TouchesOwn s := by
  intro h
  obtain ⟨s, hrun, hpush⟩ : ∃ s,
      [FlushEvent.get userA 8 none, .finishFill 0 true, .other userA (some [2]),
        .set userB (some [3]) .none .done none, .finishFill 0 true, .flushStart true,
        .flushRead 0, .flushSend 0 .done none, .flushRead 0, .flushSend 0 .done none].foldlM
          flushExec oneXattr = some s ∧ (⟨userA, true, false⟩ : Push) ∈ s.pushes :=
    ⟨_, rfl, by decide⟩
  have htouches := h s (.run oneXattr_init hrun)
  cases htouches _ hpush rfl

end PowerFS.Xattr
