import PowerFS.Net.VolumeRoute

namespace PowerFS.Net

/-! The shard routes of `powerfs_net_conn.c` and the requests that wait for one:
`powerfs_shard_route_update`, `powerfs_shard_route_dispatch_pending`, the notices of
`powerfs_conn_set_state`, and the choice of a filer in `powerfs_request_submit`. -/

/-- `POWERFS_MAX_SHARDS`. -/
def maxShards : Nat := 64

/-- `enum powerfs_conn_state`. -/
inductive ConnState where
  | init | connecting | connected | reconnecting | fault
  deriving DecidableEq

/-- `enum powerfs_shard_route_state`. -/
inductive LeaderState where
  | valid | checking | unknown
  deriving DecidableEq

/-- A slot of `g_pool.filers` below `filer_count`. -/
structure Filer where
  server : Server
  inUse : Bool
  state : ConnState
  deriving DecidableEq

/-- `struct powerfs_shard_route_entry`; a leader index of −1 is `none`. -/
structure ShardEntry where
  leader : Option Nat
  state : LeaderState
  pending : List Nat
  deriving DecidableEq

/-- An entry of `powerfs_conn_pool_init`. -/
def ShardEntry.fresh : ShardEntry := ⟨none, .unknown, []⟩

variable {i k : Nat}

section Select

variable (filers : List Filer)

def connectedAt (k : Nat) : Bool := filers[k]?.any fun f => f.state = .connected

def usableAt (k : Nat) : Bool := filers[k]?.any fun f => f.inUse && f.state = .connected

def blacklistedAt (badSelf : List Server) (k : Nat) : Bool :=
  filers[k]?.any fun f => f.server ∈ badSelf

/-- `powerfs_conn_get_filer_for_shard`. -/
def filerForShard (leader : Option Nat) : Option Nat := leader.filter (· < filers.length)

/-- The search of `ROUTE_CHECKING` and `ROUTE_UNKNOWN`: the first filer that was not tried last and
is not on the list, or else the first one. -/
def searchFiler (lastTried : Option Nat) (badSelf : List Server) : Option Nat :=
  let fresh := (List.range filers.length).find? fun i =>
    usableAt filers i && lastTried ≠ some i && !blacklistedAt filers badSelf i
  match fresh with
  | some i => some i
  | none => (List.range filers.length).find? (usableAt filers)

/-- What becomes of a `ROUTE_VALID` that gives no filer: its leader is down, which is a notice to
all routes, or on the list. -/
inductive Demotion where
  | keep
  | leaderDown (k : Nat)
  | blacklisted
  deriving DecidableEq

/-- The `switch` over the route state in `powerfs_request_submit`. -/
def selectFiler (leader : Option Nat) (state : LeaderState) (lastTried : Option Nat)
    (badSelf : List Server) : Option Nat × Demotion :=
  match state with
  | .valid =>
    match filerForShard filers leader with
    | none => (none, .keep)
    | some k =>
      if connectedAt filers k = false then (none, .leaderDown k)
      else if blacklistedAt filers badSelf k then (none, .blacklisted)
      else (some k, .keep)
  | .checking | .unknown => (searchFiler filers lastTried badSelf, .keep)

variable {filers}

variable {lastTried : Option Nat} {badSelf : List Server}

theorem selectFiler_keep {leader : Option Nat} {state : LeaderState}
    (h : (selectFiler filers leader state lastTried badSelf).1 = some i) :
    (selectFiler filers leader state lastTried badSelf).2 = .keep := by
  cases state with
  | valid =>
    simp only [selectFiler] at h ⊢
    split at h
    · cases h
    · split at h
      · cases h
      · split at h
        · cases h
        · next hconn hbad => simp only [if_neg hconn, if_neg hbad]
  | checking | unknown => rfl

theorem connectedAt_lt (h : connectedAt filers k = true) :
    k < filers.length := by
  by_contra hge
  rw [connectedAt, List.getElem?_eq_none (Nat.not_lt.mp hge)] at h
  cases h

theorem selectFiler_valid
    (hconn : connectedAt filers k = true) (hbad : blacklistedAt filers badSelf k = false) :
    selectFiler filers (some k) .valid lastTried badSelf = (some k, .keep) := by
  have hfiler : filerForShard filers (some k) = some k := by
    simp [filerForShard, connectedAt_lt hconn]
  simp [selectFiler, hfiler, hconn, hbad]

theorem selectFiler_search {leader : Option Nat} {state : LeaderState} (h : state ≠ .valid) :
    selectFiler filers leader state lastTried badSelf
      = (searchFiler filers lastTried badSelf, .keep) := by
  cases state with
  | valid => exact absurd rfl h
  | checking | unknown => rfl

end Select

/-- Where a request stands: not waiting for a route (not submitted, being sent, or given up), about
to be put on a shard's list, on the list, or taken off it and completed with `-EAGAIN`. -/
inductive ReqStatus where
  | outside
  | parking (shard : Nat)
  | parked (shard : Nat)
  | retry
  deriving DecidableEq

structure RoutingState where
  shardCount : Nat
  filers : List Filer
  entries : Nat → ShardEntry
  request : Nat → ReqStatus

namespace RoutingState

variable (s : RoutingState)

def setEntry (i : Nat) (e : ShardEntry) : RoutingState :=
  { s with entries := Function.update s.entries i e }

def setRequest (r : Nat) (status : ReqStatus) : RoutingState :=
  { s with request := Function.update s.request r status }

/-- The requests on the list of shard `i` are taken off and completed with `-EAGAIN`. -/
def wakeAll (i : Nat) : RoutingState :=
  { s with
    entries := Function.update s.entries i { s.entries i with pending := [] }
    request := fun r => if r ∈ (s.entries i).pending then .retry else s.request r }

/-- `powerfs_shard_route_dispatch_pending`. -/
def dispatchPending (i : Nat) : RoutingState :=
  if s.shardCount ≤ i then s
  else match filerForShard s.filers (s.entries i).leader with
    | none => s
    | some k => if connectedAt s.filers k = false then s else s.wakeAll i

/-- A `ROUTE_VALID` of shard `i` is lowered to `ROUTE_CHECKING`. -/
def demote (i : Nat) : RoutingState :=
  if i < maxShards ∧ (s.entries i).state = .valid then
    s.setEntry i { s.entries i with state := .checking }
  else s

/-- `powerfs_shard_route_on_filer_disconnect`. -/
def onFilerDisconnect (k : Nat) : RoutingState :=
  if s.filers.length ≤ k then s
  else { s with entries := fun i =>
    if i < maxShards ∧ (s.entries i).leader = some k ∧ (s.entries i).state = .valid then
      { s.entries i with state := .checking }
    else s.entries i }

/-- The first loop of `powerfs_shard_route_on_filer_reconnect`. -/
def recheck (k : Nat) : RoutingState :=
  { s with entries := fun i =>
    if i < maxShards ∧ (s.entries i).leader = some k ∧ (s.entries i).state = .unknown then
      { s.entries i with state := .checking }
    else s.entries i }

/-- One shard of its second loop: the leader's own shards are dispatched, the others woken. -/
def serve (k i : Nat) : RoutingState :=
  if (s.entries i).leader = some k then s.dispatchPending i else s.wakeAll i

/-- `powerfs_shard_route_on_filer_reconnect`. -/
def onFilerReconnect (k : Nat) : RoutingState :=
  if s.filers.length ≤ k then s
  else
    let s := s.recheck k
    let needWakeup := (List.range maxShards).filter fun i => (s.entries i).state ≠ .valid
    needWakeup.foldl (fun s i => s.serve k i) s

/-- `powerfs_shard_route_update`. -/
def routeUpdate (i k : Nat) : RoutingState :=
  if maxShards ≤ i then s
  else
    let updated := s.setEntry i { s.entries i with leader := some k, state := .valid }
    if (s.entries i).state ≠ .valid then updated.dispatchPending i else updated

/-- `powerfs_conn_set_state` on filer `k`, with the notices to the routes. -/
def connSetState (k : Nat) (old new : ConnState) : RoutingState :=
  let moved := { s with filers := s.filers.modify k fun f => { f with state := new } }
  if new = .reconnecting ∨ new = .fault then moved.onFilerDisconnect k
  else if new = .connected ∧ (old = .reconnecting ∨ old = .connecting) then
    moved.onFilerReconnect k
  else moved

/-- The route `powerfs_request_submit` sees. -/
def route (i : Nat) : ShardEntry := if i < maxShards then s.entries i else .fresh

def applyDemotion (i : Nat) : Demotion → RoutingState
  | .keep => s
  | .leaderDown k => s.onFilerDisconnect k
  | .blacklisted => s.demote i

end RoutingState

/-- A round of `powerfs_request_submit` looks for a filer, a request without one is put on the list,
a waiter gives up, a leader is named, a redirect refutes a route, and a connection changes its
state. -/
inductive RoutingEvent where
  | submit (r shard : Nat) (lastTried : Option Nat) (badSelf : List Server)
  | park (r : Nat)
  | leave (r : Nat)
  | update (shard k : Nat)
  | refute (shard : Nat)
  | setState (k : Nat) (new : ConnState)

/-- One event; `none` if it cannot happen. Connections are only set to `CONN_CONNECTED` by
`powerfs_conn_connect_one`, which sets `CONN_CONNECTING` first. -/
def routingExec (s : RoutingState) : RoutingEvent → Option RoutingState
  | .submit r shard lastTried badSelf =>
    if s.request r ≠ .outside ∧ s.request r ≠ .retry then none
    else
      let e := s.route shard
      let (conn, demotion) := selectFiler s.filers e.leader e.state lastTried badSelf
      let s := s.applyDemotion shard demotion
      if conn = none ∧ shard < maxShards then some (s.setRequest r (.parking shard))
      else some (s.setRequest r .outside)
  | .park r =>
    match s.request r with
    | .parking i =>
      some ((s.setEntry i { s.entries i with pending := (s.entries i).pending ++ [r] }).setRequest r
        (.parked i))
    | _ => none
  | .leave r =>
    match s.request r with
    | .parked i =>
      some ((s.setEntry i
        { s.entries i with pending := (s.entries i).pending.filter (· ≠ r) }).setRequest r .outside)
    | _ => none
  | .update shard k => if k < s.filers.length then some (s.routeUpdate shard k) else none
  | .refute shard => some (s.demote shard)
  | .setState k new =>
    match s.filers[k]? with
    | none => none
    | some f =>
      if new = .connected ∧ f.state ≠ .connecting ∧ f.state ≠ .reconnecting then none
      else some (s.connSetState k f.state new)

def RoutingState.anyConnected (s : RoutingState) : Bool :=
  s.filers.any fun f => f.state = .connected

/-- Nobody waits behind a valid route, and nobody waits while a filer is connected: whoever was on a
list has been taken off and completed with `-EAGAIN`, or has given up. -/
structure RoutingSafe (s : RoutingState) : Prop where
  valid : ∀ i, (s.entries i).state = .valid → (s.entries i).pending = []
  served : s.anyConnected = true →
    ∀ i, (s.entries i).pending = [] ∧ ∀ r, s.request r ≠ .parked i

/-- After `powerfs_conn_pool_init`. -/
structure RoutingInit (s : RoutingState) : Prop where
  entries : ∀ i, s.entries i = .fresh
  filers : ∀ f ∈ s.filers, f.state = .init
  request : ∀ r, s.request r = .outside

/-- A request is put on a list only while no filer is connected and the route is not valid, a leader
is named only for a shard without waiting requests, and a shard whose leader comes up is below
`shard_count` or has no waiting requests. -/
def RoutingOk (s : RoutingState) : RoutingEvent → Prop
  | .park r => ∀ i < maxShards, s.request r = .parking i →
      s.anyConnected = false ∧ (s.entries i).state ≠ .valid
  | .update shard _ => (s.entries shard).pending = []
  | .setState k new => new = .connected → ∀ i < maxShards, s.shardCount ≤ i →
      (s.entries i).leader = some k → (s.entries i).pending = []
  | .submit _ _ _ _ | .leave _ | .refute _ => True

instance decidableRoutingOk (s : RoutingState) : (e : RoutingEvent) → Decidable (RoutingOk s e)
  | .park r => inferInstanceAs (Decidable (∀ i < maxShards, s.request r = .parking i →
      s.anyConnected = false ∧ (s.entries i).state ≠ .valid))
  | .update shard _ => inferInstanceAs (Decidable ((s.entries shard).pending = []))
  | .setState k new => inferInstanceAs (Decidable (new = .connected → ∀ i < maxShards,
      s.shardCount ≤ i → (s.entries i).leader = some k → (s.entries i).pending = []))
  | .submit _ _ _ _ | .leave _ | .refute _ => inferInstanceAs (Decidable True)

section Invariant

variable {s s' : RoutingState}

/-- The lists and the requests agree, and valid routes have empty lists. -/
structure RoutingCore (s : RoutingState) : Prop where
  valid : ∀ i, (s.entries i).state = .valid → (s.entries i).pending = []
  lists : ∀ i r, r ∈ (s.entries i).pending ↔ s.request r = .parked i
  table : ∀ i, maxShards ≤ i → (s.entries i).pending = []
  parking : ∀ r i, s.request r = .parking i → i < maxShards

structure RoutingInv (s : RoutingState) : Prop extends RoutingCore s where
  idle : s.anyConnected = true → ∀ i, (s.entries i).pending = []

theorem RoutingInit.inv (h : RoutingInit s) : RoutingInv s where
  valid i _ := by rw [h.entries i]; rfl
  lists i r := by simp [h.entries i, h.request r, ShardEntry.fresh]
  table i _ := by rw [h.entries i]; rfl
  parking r i hr := by rw [h.request r] at hr; cases hr
  idle _ i := by rw [h.entries i]; rfl

theorem RoutingInv.safe (h : RoutingInv s) : RoutingSafe s := by
  refine ⟨h.valid, fun hconn i => ⟨h.idle hconn i, fun r hr => ?_⟩⟩
  have hmem := (h.lists i r).mpr hr
  rw [h.idle hconn i] at hmem
  cases hmem

structure Lowered (s s' : RoutingState) : Prop where
  filers : s'.filers = s.filers
  request : s'.request = s.request
  pending : ∀ i, (s'.entries i).pending = (s.entries i).pending
  state : ∀ i, (s'.entries i).state = .valid → (s.entries i).state = .valid

theorem Lowered.refl (s : RoutingState) : Lowered s s := ⟨rfl, rfl, fun _ => rfl, fun _ h => h⟩

theorem lowered_demote (s : RoutingState) (i : Nat) : Lowered s (s.demote i) := by
  rw [RoutingState.demote]
  split
  · refine ⟨rfl, rfl, fun j => ?_, fun j hj => ?_⟩
    · by_cases hji : j = i
      · subst hji
        simp [RoutingState.setEntry]
      · simp [RoutingState.setEntry, Function.update_of_ne hji]
    · by_cases hji : j = i
      · subst hji
        simp [RoutingState.setEntry] at hj
      · simpa [RoutingState.setEntry, Function.update_of_ne hji] using hj
  · exact .refl s

theorem lowered_onFilerDisconnect (s : RoutingState) (k : Nat) :
    Lowered s (s.onFilerDisconnect k) := by
  rw [RoutingState.onFilerDisconnect]
  split
  · exact .refl s
  · refine ⟨rfl, rfl, fun i => ?_, fun i hi => ?_⟩
    · dsimp only
      split <;> rfl
    · dsimp only at hi
      split at hi
      · cases hi
      · exact hi

theorem lowered_applyDemotion (s : RoutingState) (i : Nat) (d : Demotion) :
    Lowered s (s.applyDemotion i d) := by
  cases d with
  | keep => exact .refl s
  | leaderDown k => exact lowered_onFilerDisconnect s k
  | blacklisted => exact lowered_demote s i

theorem RoutingCore.lower (h : RoutingCore s) (hl : Lowered s s') : RoutingCore s' where
  valid i hi := by rw [hl.pending i]; exact h.valid i (hl.state i hi)
  lists i r := by rw [hl.pending i, hl.request]; exact h.lists i r
  table i hi := by rw [hl.pending i]; exact h.table i hi
  parking r i hr := by rw [hl.request] at hr; exact h.parking r i hr

theorem RoutingInv.lower (h : RoutingInv s) (hl : Lowered s s') : RoutingInv s' where
  toRoutingCore := h.toRoutingCore.lower hl
  idle hconn i := by
    rw [RoutingState.anyConnected, hl.filers] at hconn
    rw [hl.pending i]
    exact h.idle hconn i

variable {r : Nat} {status : ReqStatus}

theorem RoutingInv.setRequest (h : RoutingInv s)
    (hold : ∀ i, s.request r ≠ .parked i) (hnew : ∀ i, status ≠ .parked i)
    (htable : ∀ i, status = .parking i → i < maxShards) : RoutingInv (s.setRequest r status) where
  valid := h.valid
  lists i q := by
    by_cases hq : q = r
    · subst hq
      simp only [RoutingState.setRequest, Function.update_self]
      exact ⟨fun hmem => absurd ((h.lists i q).mp hmem) (hold i), fun hp => absurd hp (hnew i)⟩
    · simpa [RoutingState.setRequest, Function.update_of_ne hq] using h.lists i q
  table := h.table
  parking q i hq := by
    by_cases hqr : q = r
    · subst hqr
      simp only [RoutingState.setRequest, Function.update_self] at hq
      exact htable i hq
    · simp only [RoutingState.setRequest, Function.update_of_ne hqr] at hq
      exact h.parking q i hq
  idle := h.idle

structure Emptied (s s' : RoutingState) : Prop where
  shardCount : s'.shardCount = s.shardCount
  filers : s'.filers = s.filers
  leader : ∀ i, (s'.entries i).leader = (s.entries i).leader
  state : ∀ i, (s'.entries i).state = (s.entries i).state
  empty : ∀ i, (s.entries i).pending = [] → (s'.entries i).pending = []

theorem Emptied.refl (s : RoutingState) : Emptied s s :=
  ⟨rfl, rfl, fun _ => rfl, fun _ => rfl, fun _ h => h⟩

theorem Emptied.trans {s₁ s₂ s₃ : RoutingState} (h : Emptied s₁ s₂) (h' : Emptied s₂ s₃) :
    Emptied s₁ s₃ :=
  ⟨h'.shardCount.trans h.shardCount, h'.filers.trans h.filers,
    fun i => (h'.leader i).trans (h.leader i), fun i => (h'.state i).trans (h.state i),
    fun i hi => h'.empty i (h.empty i hi)⟩

theorem emptied_wakeAll (s : RoutingState) (i : Nat) : Emptied s (s.wakeAll i) := by
  refine ⟨rfl, rfl, fun j => ?_, fun j => ?_, fun j hj => ?_⟩ <;> by_cases hji : j = i
  all_goals first
    | subst hji; simp [RoutingState.wakeAll]
    | simp [RoutingState.wakeAll, Function.update_of_ne hji]
  exact hj

theorem wakeAll_pending (s : RoutingState) (i : Nat) : ((s.wakeAll i).entries i).pending = [] := by
  simp [RoutingState.wakeAll]

theorem RoutingCore.wakeAll (h : RoutingCore s) (i : Nat) : RoutingCore (s.wakeAll i) where
  valid j hj := by
    have hkept := emptied_wakeAll s i
    rw [hkept.state j] at hj
    exact hkept.empty j (h.valid j hj)
  lists j r := by
    by_cases hji : j = i
    · subst hji
      rw [wakeAll_pending]
      simp only [RoutingState.wakeAll, List.not_mem_nil, false_iff]
      split
      · nofun
      · next hr => exact fun hp => hr ((h.lists j r).mpr hp)
    · simp only [RoutingState.wakeAll, Function.update_of_ne hji, h.lists j r]
      split
      · next hr =>
        -- a request is on one list only
        rw [(h.lists i r).mp hr]
        simp [Ne.symm hji]
      · rfl
  table j hj := (emptied_wakeAll s i).empty j (h.table j hj)
  parking r j hr := by
    simp only [RoutingState.wakeAll] at hr
    split at hr
    · cases hr
    · exact h.parking r j hr

theorem dispatchPending_cases (s : RoutingState) (i : Nat) :
    s.dispatchPending i = s ∨ s.dispatchPending i = s.wakeAll i := by
  rw [RoutingState.dispatchPending]
  split
  · exact .inl rfl
  · split
    · exact .inl rfl
    · split
      · exact .inl rfl
      · exact .inr rfl

theorem serve_cases (s : RoutingState) (k i : Nat) :
    s.serve k i = s ∨ s.serve k i = s.wakeAll i := by
  rw [RoutingState.serve]
  split
  · exact dispatchPending_cases s i
  · exact .inr rfl

theorem emptied_serve (s : RoutingState) (k i : Nat) : Emptied s (s.serve k i) := by
  obtain h | h := serve_cases s k i <;> rw [h]
  · exact .refl s
  · exact emptied_wakeAll s i

theorem RoutingCore.serve (h : RoutingCore s) (k i : Nat) : RoutingCore (s.serve k i) := by
  obtain hs | hs := serve_cases s k i <;> rw [hs]
  · exact h
  · exact h.wakeAll i

theorem serve_pending (hk : connectedAt s.filers k = true)
    (hok : s.shardCount ≤ i → (s.entries i).leader = some k → (s.entries i).pending = []) :
    ((s.serve k i).entries i).pending = [] := by
  rw [RoutingState.serve]
  split
  · next hleader =>
    by_cases hcount : s.shardCount ≤ i
    · simpa [RoutingState.dispatchPending, hcount] using hok hcount hleader
    · have hfiler : filerForShard s.filers (some k) = some k := by
        simp [filerForShard, connectedAt_lt hk]
      simp only [RoutingState.dispatchPending, hcount, hleader, hfiler, hk]
      exact wakeAll_pending s i
  · exact wakeAll_pending s i

theorem foldl_serve (shards : List Nat) :
    ∀ s : RoutingState, RoutingCore s → connectedAt s.filers k = true →
      (∀ i ∈ shards, s.shardCount ≤ i → (s.entries i).leader = some k →
        (s.entries i).pending = []) →
      RoutingCore (shards.foldl (fun s i => s.serve k i) s) ∧
        Emptied s (shards.foldl (fun s i => s.serve k i) s) ∧
        ∀ i ∈ shards, ((shards.foldl (fun s i => s.serve k i) s).entries i).pending = [] := by
  induction shards with
  | nil => exact fun s h _ _ => ⟨h, .refl s, nofun⟩
  | cons i shards ih =>
    intro s h hk hok
    have hserve := emptied_serve s k i
    have hrest : ∀ j ∈ shards, (s.serve k i).shardCount ≤ j →
        ((s.serve k i).entries j).leader = some k → ((s.serve k i).entries j).pending = [] := by
      intro j hj hcount hleader
      rw [hserve.shardCount] at hcount
      rw [hserve.leader j] at hleader
      exact hserve.empty j (hok j (List.mem_cons_of_mem i hj) hcount hleader)
    obtain ⟨hcore, hempty, hall⟩ := ih (s.serve k i) (h.serve k i) (by rwa [hserve.filers]) hrest
    refine ⟨hcore, hserve.trans hempty, fun j hj => ?_⟩
    obtain rfl | hj := List.mem_cons.mp hj
    · exact hempty.empty j (serve_pending hk (hok j List.mem_cons_self))
    · exact hall j hj

theorem lowered_recheck (s : RoutingState) (k : Nat) : Lowered s (s.recheck k) := by
  refine ⟨rfl, rfl, fun i => ?_, fun i hi => ?_⟩
  · simp only [RoutingState.recheck]
    split <;> rfl
  · simp only [RoutingState.recheck] at hi
    split at hi
    · cases hi
    · exact hi

theorem recheck_leader (s : RoutingState) (k i : Nat) :
    ((s.recheck k).entries i).leader = (s.entries i).leader := by
  simp only [RoutingState.recheck]
  split <;> rfl

theorem RoutingCore.reconnect (h : RoutingCore s) (hk : connectedAt s.filers k = true)
    (hok : ∀ i < maxShards, s.shardCount ≤ i → (s.entries i).leader = some k →
      (s.entries i).pending = []) : RoutingInv (s.onFilerReconnect k) := by
  have hlow := lowered_recheck s k
  rw [RoutingState.onFilerReconnect]
  split
  · next hge => simp [connectedAt, List.getElem?_eq_none hge] at hk
  · dsimp only
    generalize hshards : (List.range maxShards).filter
      (fun i => decide (((s.recheck k).entries i).state ≠ .valid)) = shards
    have hmem : ∀ i, i ∈ shards ↔ i < maxShards ∧ ((s.recheck k).entries i).state ≠ .valid := by
      intro i
      simp [← hshards]
    obtain ⟨hcore, hempty, hall⟩ := foldl_serve shards (s.recheck k) (h.lower hlow)
      (by rw [hlow.filers]; exact hk) (fun i hi hcount hleader => by
        rw [hlow.pending i]
        exact hok i ((hmem i).mp hi).1 hcount ((recheck_leader s k i).symm.trans hleader))
    refine ⟨hcore, fun _ i => ?_⟩
    by_cases hi : i ∈ shards
    · exact hall i hi
    · -- what is not woken is out of the table or behind a valid route
      apply hempty.empty i
      rw [hmem i, not_and, not_not] at hi
      by_cases hlt : i < maxShards
      · exact (h.lower hlow).valid i (hi hlt)
      · exact (h.lower hlow).table i (Nat.not_lt.mp hlt)

theorem anyConnected_iff : s.anyConnected = true ↔ ∃ k, connectedAt s.filers k = true := by
  simp only [RoutingState.anyConnected, List.any_eq_true, connectedAt, Option.any_eq_true]
  constructor
  · rintro ⟨f, hf, hconn⟩
    obtain ⟨k, hk⟩ := List.mem_iff_getElem?.mp hf
    exact ⟨k, f, hk, hconn⟩
  · rintro ⟨k, f, hk, hconn⟩
    exact ⟨f, List.mem_of_getElem? hk, hconn⟩

theorem connectedAt_modify {filers : List Filer} {new : ConnState}
    (hnew : new ≠ .connected) {j : Nat}
    (h : connectedAt (filers.modify k fun f => { f with state := new }) j = true) :
    connectedAt filers j = true := by
  simp only [connectedAt, List.getElem?_modify] at h ⊢
  cases hj : filers[j]? with
  | none => simp [hj] at h
  | some f =>
    simp only [hj] at h ⊢
    split at h
    · simp [hnew] at h
    · exact h

theorem connectedAt_modify_self {filers : List Filer} {f : Filer} (hk : filers[k]? = some f) :
    connectedAt (filers.modify k fun f => { f with state := .connected }) k = true := by
  simp [connectedAt, hk]

theorem RoutingInv.connSetState (h : RoutingInv s) {f : Filer} {new : ConnState}
    (hk : s.filers[k]? = some f)
    (hup : new = .connected → f.state = .connecting ∨ f.state = .reconnecting)
    (hok : RoutingOk s (.setState k new)) : RoutingInv (s.connSetState k f.state new) := by
  have hcore : RoutingCore { s with filers := s.filers.modify k fun f => { f with state := new } } :=
    ⟨h.valid, h.lists, h.table, h.parking⟩
  have hdown : new ≠ .connected →
      RoutingInv { s with filers := s.filers.modify k fun f => { f with state := new } } := by
    refine fun hne => ⟨hcore, fun hconn i => ?_⟩
    obtain ⟨j, hj⟩ := anyConnected_iff.mp hconn
    exact h.idle (anyConnected_iff.mpr ⟨j, connectedAt_modify hne hj⟩) i
  simp only [RoutingState.connSetState]
  split
  · next hlost =>
    refine (hdown ?_).lower (lowered_onFilerDisconnect _ k)
    obtain rfl | rfl := hlost <;> decide
  · split
    · next hconn =>
      obtain ⟨rfl, -⟩ := hconn
      exact hcore.reconnect (connectedAt_modify_self hk) (hok rfl)
    · next hother =>
      refine hdown fun hnew => hother ⟨hnew, ?_⟩
      exact (hup hnew).symm

theorem RoutingInv.routeUpdate (h : RoutingInv s) (k : Nat)
    (hempty : (s.entries i).pending = []) : RoutingInv (s.routeUpdate i k) := by
  rw [RoutingState.routeUpdate]
  split
  · exact h
  · have hpending : ∀ j, ((s.setEntry i
        { s.entries i with leader := some k, state := .valid }).entries j).pending
          = (s.entries j).pending := by
      intro j
      by_cases hji : j = i
      · subst hji
        simp [RoutingState.setEntry]
      · simp [RoutingState.setEntry, Function.update_of_ne hji]
    have hset : RoutingInv
        (s.setEntry i { s.entries i with leader := some k, state := .valid }) := by
      refine ⟨⟨fun j hj => ?_, fun j r => ?_, fun j hj => ?_, h.parking⟩, fun hconn j => ?_⟩
      · rw [hpending j]
        by_cases hji : j = i
        · rw [hji, hempty]
        · simp only [RoutingState.setEntry, Function.update_of_ne hji] at hj
          exact h.valid j hj
      · rw [hpending j]
        exact h.lists j r
      · rw [hpending j]
        exact h.table j hj
      · rw [hpending j]
        exact h.idle hconn j
    split
    · obtain hd | hd := dispatchPending_cases
        (s.setEntry i { s.entries i with leader := some k, state := .valid }) i <;> rw [hd]
      · exact hset
      · refine ⟨hset.toRoutingCore.wakeAll i, fun hconn j => ?_⟩
        exact (emptied_wakeAll _ i).empty j (hset.idle hconn j)
    · exact hset

/-- A request joins or leaves the list of shard `i`, and the other lists stay. -/
theorem RoutingCore.lists_moved (h : RoutingCore s) {e : ShardEntry}
    (hold : ∀ j, j ≠ i → s.request r ≠ .parked j)
    (hnew : ∀ j, j ≠ i → status ≠ .parked j) (hr : r ∈ e.pending ↔ status = .parked i)
    (hothers : ∀ q, q ≠ r → (q ∈ e.pending ↔ q ∈ (s.entries i).pending)) (j q : Nat) :
    q ∈ (((s.setEntry i e).setRequest r status).entries j).pending ↔
      ((s.setEntry i e).setRequest r status).request q = .parked j := by
  have hlist := h.lists j q
  simp only [RoutingState.setRequest, RoutingState.setEntry]
  by_cases hji : j = i <;> by_cases hqr : q = r
  · subst hji hqr
    rwa [Function.update_self, Function.update_self]
  · subst hji
    rw [Function.update_self, Function.update_of_ne hqr, hothers q hqr]
    exact hlist
  · subst hqr
    rw [Function.update_of_ne hji, Function.update_self]
    exact iff_of_false (fun hmem => hold j hji (hlist.mp hmem)) (hnew j hji)
  · rw [Function.update_of_ne hji, Function.update_of_ne hqr]
    exact hlist

theorem RoutingCore.parking_moved (h : RoutingCore s) {j q : Nat} {e : ShardEntry}
    (hnew : ∀ j, status ≠ .parking j)
    (hq : ((s.setEntry i e).setRequest r status).request q = .parking j) : j < maxShards := by
  by_cases hqr : q = r
  · subst hqr
    simp only [RoutingState.setRequest, Function.update_self] at hq
    exact absurd hq (hnew j)
  · simp only [RoutingState.setRequest, Function.update_of_ne hqr] at hq
    exact h.parking q j hq

theorem RoutingInv.park (h : RoutingInv s) (hr : s.request r = .parking i)
    (hok : RoutingOk s (.park r)) :
    RoutingInv ((s.setEntry i
      { s.entries i with pending := (s.entries i).pending ++ [r] }).setRequest r (.parked i)) := by
  obtain ⟨hconn, hstate⟩ := hok i (h.parking r i hr) hr
  refine ⟨⟨fun j hj => ?_, fun j q => ?_, fun j hj => ?_, fun q j hq => ?_⟩, fun hany => ?_⟩
  · by_cases hji : j = i
    · subst hji
      simp only [RoutingState.setRequest, RoutingState.setEntry, Function.update_self] at hj
      exact absurd hj hstate
    · simp only [RoutingState.setRequest, RoutingState.setEntry,
        Function.update_of_ne hji] at hj ⊢
      exact h.valid j hj
  · exact h.lists_moved (fun j _ hp => by rw [hr] at hp; cases hp)
      (fun j hji hp => hji (ReqStatus.parked.inj hp).symm) (by simp)
      (fun q hqr => by simp [hqr]) j q
  · have hne : j ≠ i := fun heq => by
      have := h.parking r i hr
      omega
    simpa [RoutingState.setRequest, RoutingState.setEntry, hne] using h.table j hj
  · exact h.parking_moved (by simp) hq
  · cases hconn.symm.trans hany

theorem RoutingInv.leave (h : RoutingInv s) (hr : s.request r = .parked i) :
    RoutingInv ((s.setEntry i { s.entries i with
      pending := (s.entries i).pending.filter (· ≠ r) }).setRequest r .outside) := by
  have hempty : ∀ j, (s.entries j).pending = [] →
      ((s.setEntry i { s.entries i with
        pending := (s.entries i).pending.filter (· ≠ r) }).entries j).pending = [] := by
    intro j hj
    by_cases hji : j = i
    · subst hji
      simp [RoutingState.setEntry, hj]
    · simp [RoutingState.setEntry, hji, hj]
  refine ⟨⟨fun j hj => hempty j (h.valid j ?_), fun j q => ?_, fun j hj => hempty j (h.table j hj),
    fun q j hq => ?_⟩, fun hconn j => hempty j (h.idle hconn j)⟩
  · by_cases hji : j = i
    · subst hji
      simpa [RoutingState.setRequest, RoutingState.setEntry] using hj
    · simpa [RoutingState.setRequest, RoutingState.setEntry, hji] using hj
  · exact h.lists_moved (fun j hji hp => hji (ReqStatus.parked.inj (hr.symm.trans hp)).symm)
      (fun j _ hp => by cases hp) (by simp) (fun q hqr => by simp [hqr]) j q
  · exact h.parking_moved (by simp) hq

theorem RoutingInv.step {e : RoutingEvent} (h : RoutingInv s) (hok : RoutingOk s e)
    (hs : routingExec s e = some s') : RoutingInv s' := by
  cases e with simp only [routingExec] at hs
  | submit r shard lastTried badSelf =>
    split at hs
    · cases hs
    next hfree =>
    have hlow := lowered_applyDemotion s shard
      (selectFiler s.filers (s.route shard).leader (s.route shard).state lastTried badSelf).2
    have hnot : ∀ i, s.request r ≠ .parked i := fun i hp => hfree (by simp [hp])
    rw [← hlow.request] at hnot
    split at hs <;> cases hs
    · next hnone =>
      refine (h.lower hlow).setRequest hnot (by simp) fun i hi => ?_
      cases hi
      exact hnone.2
    · exact (h.lower hlow).setRequest hnot (by simp) (by simp)
  | park r =>
    split at hs <;> cases hs
    next i hr => exact h.park hr hok
  | leave r =>
    split at hs <;> cases hs
    next i hr => exact h.leave hr
  | update shard k =>
    split at hs <;> cases hs
    exact h.routeUpdate k hok
  | refute shard =>
    cases hs
    exact h.lower (lowered_demote s shard)
  | setState k new =>
    split at hs
    · cases hs
    next f hk =>
    split at hs <;> cases hs
    next hup =>
    refine h.connSetState hk (fun hnew => ?_) hok
    by_contra hno
    rw [not_or] at hno
    exact hup ⟨hnew, hno⟩

end Invariant

/-- In every run that meets the condition nobody waits behind a valid route or while a filer is
connected. -/
theorem routingSafe_of_routingOk {s : RoutingState}
    (h : Runs.Reach (fun s e s' => routingExec s e = some s') RoutingOk RoutingInit s) :
    RoutingSafe s :=
  (h.invariant (fun _ hinit => hinit.inv) fun _ _ _ hinv hok hs => hinv.step hok hs).safe

def twoFilers : RoutingState where
  shardCount := 3
  filers := [⟨⟨[97], 1⟩, true, .init⟩, ⟨⟨[98], 1⟩, true, .init⟩]
  entries := fun _ => .fresh
  request := fun _ => .outside

theorem twoFilers_init : RoutingInit twoFilers where
  entries _ := rfl
  filers := by decide
  request _ := rfl

def waitForFiler : List RoutingEvent :=
  [.submit 0 2 none [], .park 0, .setState 1 .connecting, .setState 1 .connected,
    .submit 0 2 none []]

set_option maxRecDepth 4000 in
theorem routingSafe_waitForFiler : ∃ s, waitForFiler.foldlM routingExec twoFilers = some s ∧
    s.request 0 = .outside ∧ RoutingSafe s := by
  have heval : (waitForFiler.foldlM routingExec twoFilers).map (·.request 0) = some .outside := by
    decide +kernel
  obtain ⟨s, hrun, hout⟩ := Option.map_eq_some_iff.mp heval
  have hok : Runs.OkAlong routingExec RoutingOk twoFilers waitForFiler := by
    iterate 5 refine .cons (by unfold RoutingOk; decide +kernel) rfl ?_
    trivial
  exact ⟨s, hrun, hout,
    routingSafe_of_routingOk (Runs.Reach.of_run (.start twoFilers_init) hok hrun)⟩

/-- Filer 1 is up; the topology names filer 0, which is not. The request that finds it down is put
on the list of its shard, and there is no event to come that takes it off. -/
def parkedBesideFiler : List RoutingEvent :=
  [.setState 1 .connecting, .setState 1 .connected, .update 0 0, .submit 0 0 none [], .park 0]

theorem not_routingSafe_runs : ¬ ∀ s,
    Runs.Reach (fun s e s' => routingExec s e = some s') (fun _ _ => True) RoutingInit s →
      RoutingSafe s := by
  intro hall
  have heval : (parkedBesideFiler.foldlM routingExec twoFilers).map
      (fun s => (s.anyConnected, s.request 0)) = some (true, .parked 0) := by decide +kernel
  obtain ⟨s, hrun, hstate⟩ := Option.map_eq_some_iff.mp heval
  obtain ⟨hconn, hparked⟩ := Prod.mk.inj hstate
  have hsafe := hall s (.run twoFilers_init hrun)
  exact (hsafe.served hconn 0).2 0 hparked

end PowerFS.Net
