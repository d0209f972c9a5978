import PowerFS.Net.Parking
import PowerFS.Net.ShardRoute
import PowerFS.Net.Tlv

namespace PowerFS.Net

/-! The retry loop of `powerfs_request_submit` for one request. The pool of filers stays as it is; how
filers answer, how a parked request is woken and when the deadline passes is given for each round. -/

def fldOwner : UInt8 := 0x17

/-- `kstrtoul` in base 10: one `+`, digits, one newline, and nothing else. -/
def kstrtoul (str : List UInt8) : Option Nat :=
  let str := if str.head? = some 43 then str.tail else str
  let digits := str.takeWhile fun d => 48 ≤ d && d ≤ 57
  let rest := str.drop digits.length
  if digits = [] ∨ (rest ≠ [] ∧ rest ≠ [10]) ∨ 2 ^ 64 ≤ strtoul digits then none
  else some (strtoul digits)

/-- `powerfs_net_parse_redirect`. -/
def parseRedirect (body : List UInt8) : Except Errno Server :=
  match (TlvDec.init body).decString fldOwner 79 with
  | .error _ => .error .einval
  | .ok bytes =>
    let owner := bytes.takeWhile (· ≠ 0)
    let port := (owner.reverse.takeWhile fun c => c ≠ 58).reverse
    if port.length = owner.length then .error .einval
    else match kstrtoul port with
      | none => .error .einval
      | some p =>
        if p = 0 ∨ 0xFFFF < p then .error .einval
        else .ok ⟨(owner.take (owner.length - port.length - 1)).take 63, UInt16.ofNat p⟩

structure LeaderRoute where
  leader : Option Nat
  state : LeaderState
  deriving DecidableEq

/-- What a send comes to: the connection is lost, with the route found after the backoff, another
error, a redirect, or any other answer. -/
inductive SendReply where
  | notConnected (stopping late : Bool) (route : LeaderRoute)
  | failed (err : Errno)
  | redirect (body : List UInt8)
  | answered (status : UInt16)

/-- How the wait of a parked request ends, with the route found then. -/
inductive ParkReply where
  | killed
  | timedOut
  | woken (error : Option Errno) (route : LeaderRoute)

structure SubmitEnv where
  filers : List Filer
  /-- The shard has an entry in the route table. -/
  inTable : Bool
  send : Nat → Nat → SendReply
  park : Nat → ParkReply

/-- The variables of the loop and the shard's route. -/
structure Search where
  route : LeaderRoute
  lastTried : Option Nat
  badSelf : List Server
  staleCount : Nat
  eagainRetries : Nat

def Search.start (route : LeaderRoute) : Search := ⟨route, none, [], 0, 0⟩

/-- `POWERFS_MAX_BLACKLISTED_SELF` and `BAD_SELF_MAX_STALE_ROUNDS`. -/
def maxBlacklisted : Nat := 8
def maxStaleRounds : Nat := 2

/-- A round ends in another one, or the request is done with 0 (`none`) or an error. -/
inductive RoundResult where
  | again (st : Search)
  | done (ret : Option Errno)

namespace SubmitEnv

variable (env : SubmitEnv)

def demote (route : LeaderRoute) : LeaderRoute :=
  if env.inTable ∧ route.state = .valid then { route with state := .checking } else route

/-- `powerfs_shard_route_update`, as far as this request sees it. -/
def nameLeader (route : LeaderRoute) (k : Nat) : LeaderRoute :=
  if env.inTable then ⟨some k, .valid⟩ else route

/-- The route of a shard without an entry is unknown. -/
def seen (route : LeaderRoute) : LeaderRoute := if env.inTable then route else ⟨none, .unknown⟩

/-- `powerfs_conn_find_filer`. -/
def findFiler (server : Server) : Option Nat :=
  env.filers.findIdx? fun f => f.inUse && f.server = server

/-- A filer that names itself goes on the list, once; naming it again counts as stale, and the second
time empties the list. -/
def selfRedirect (st : Search) (self : Server) : Search :=
  let st := { st with route := env.demote st.route }
  if self ∈ st.badSelf then
    if maxStaleRounds ≤ st.staleCount + 1 then { st with badSelf := [], staleCount := 0 }
    else { st with staleCount := st.staleCount + 1 }
  else if st.badSelf.length < maxBlacklisted then { st with badSelf := st.badSelf ++ [self] }
  else st

def staleRedirect (st : Search) (target : Server) : Search :=
  if maxStaleRounds ≤ st.staleCount + 1 then
    { st with
      badSelf := []
      staleCount := 0
      route := match env.findFiler target with
        | some k => env.nameLeader st.route k
        | none => st.route }
  else { st with staleCount := st.staleCount + 1, route := env.demote st.route }

/-- A redirect of filer `i`, whose address is `self`, to `target`. -/
def onRedirect (st : Search) (i : Nat) (self target : Server) : RoundResult :=
  if target = self then .again (env.selfRedirect st self)
  else if target ∈ st.badSelf then .again (env.staleRedirect st target)
  -- the loop detection
  else if (st.lastTried.bind fun k => env.filers[k]?.map (·.server)) = some target then
    .done (some .eagain)
  else match env.findFiler target with
    | none => .done (some .eagain)
    | some k =>
      if blacklistedAt env.filers st.badSelf k then
        .again { st with route := env.demote st.route, lastTried := some i }
      else .again { st with route := env.nameLeader st.route k, lastTried := some i }

/-- No filer was found: the request waits on the list of its shard. -/
def onPark (st : Search) : ParkReply → RoundResult
  | .killed => .done (some .eintr)
  | .timedOut => .done (some .etimedout)
  | .woken error route =>
    if error = some .eagain then
      if maxEagainRetries < st.eagainRetries + 1 then .done (some .eagain)
      else .again { st with route := route, eagainRetries := st.eagainRetries + 1 }
    else .done error

/-- The answer of filer `i`, whose address is `self`. -/
def onReply (st : Search) (i : Nat) (self : Server) : SendReply → RoundResult
  | .notConnected stopping late route =>
    if stopping then .done (some .enotconn)
    else if late then .done (some .etimedout)
    else .again { st with route := route }
  | .failed err => .done (some err)
  | .redirect body =>
    match parseRedirect body with
    | .error _ => .done (some .eagain)
    | .ok target => env.onRedirect st i self target
  | .answered _ => .done none

/-- The filer of a round, and the search after the choice. -/
def choose (st : Search) : Option Nat × Search :=
  let route := env.seen st.route
  let (conn, demotion) :=
    selectFiler env.filers route.leader route.state st.lastTried st.badSelf
  (conn, match demotion with
    | .keep => st
    | .leaderDown _ | .blacklisted => { st with route := env.demote st.route })

/-- Round `k` of the loop before its deadline: the filer the request was sent to, and what comes
of it. -/
def round (k : Nat) (st : Search) : Option Nat × RoundResult :=
  let (conn, st) := env.choose st
  match conn with
  | none => (none, if env.inTable then onPark st (env.park k) else .done (some .enotconn))
  | some i =>
    match env.filers[i]? with
    | none => (none, .done (some .einval))
    | some f => (some i, env.onReply { st with lastTried := some i } i f.server (env.send k i))

end SubmitEnv

/-- The filers a request was sent to, and the result. -/
structure SubmitOut where
  sends : List Nat
  ret : Option Errno
  deriving DecidableEq

/-- The loop from round `k` on, for at most `fuel` rounds; `none` if it has not ended by then. -/
def submitLoop (env : SubmitEnv) (late : Nat → Bool) : Nat → Nat → Search → Option SubmitOut
  | 0, _, _ => none
  | fuel + 1, k, st =>
    if late k then some ⟨[], some .etimedout⟩
    else match env.round k st with
      | (sent, .done ret) => some ⟨sent.toList, ret⟩
      | (sent, .again st') => (submitLoop env late fuel (k + 1) st').map fun out =>
          { out with sends := sent.toList ++ out.sends }

/-- `powerfs_request_submit`. -/
def requestSubmit (env : SubmitEnv) (late : Nat → Bool) (fuel : Nat) (route : LeaderRoute) :
    Option SubmitOut :=
  submitLoop env late fuel 0 (.start route)

/-- A deadline that passes in round `d`. -/
def lateAt (d : Nat) (k : Nat) : Bool := d ≤ k

theorem selfRedirect_new {env : SubmitEnv} {st : Search} {self : Server} (h : self ∉ st.badSelf) :
    env.selfRedirect st self = { st with
      route := env.demote st.route
      badSelf := if st.badSelf.length < maxBlacklisted then st.badSelf ++ [self]
        else st.badSelf } := by
  simp only [SubmitEnv.selfRedirect, if_neg h]
  split <;> rfl

section Loop

variable {env : SubmitEnv} {late : Nat → Bool}

theorem submitLoop_mono {fuel fuel' : Nat} (hle : fuel ≤ fuel') :
    ∀ {k : Nat} {st : Search} {out : SubmitOut}, submitLoop env late fuel k st = some out →
      submitLoop env late fuel' k st = some out := by
  induction fuel generalizing fuel' with
  | zero => exact fun h => by cases h
  | succ fuel ih =>
    obtain ⟨more, rfl⟩ : ∃ more, fuel' = more + 1 := ⟨fuel' - 1, by omega⟩
    intro k st out h
    rw [submitLoop] at h ⊢
    split
    · next hlate => rwa [if_pos hlate] at h
    · next hlate =>
      rw [if_neg hlate] at h
      split
      · next heq =>
        rw [heq] at h
        exact h
      · next heq =>
        rw [heq] at h
        obtain ⟨rest, hrest, hout⟩ := Option.map_eq_some_iff.mp h
        rw [ih (by omega) hrest, Option.map_some, hout]

theorem submitLoop_unique {fuel fuel' k : Nat} {st : Search} {out out' : SubmitOut}
    (h : submitLoop env late fuel k st = some out)
    (h' : submitLoop env late fuel' k st = some out') : out = out' := by
  have hmore := submitLoop_mono (Nat.le_max_left fuel fuel') h
  have hmore' := submitLoop_mono (Nat.le_max_right fuel fuel') h'
  exact Option.some.inj (hmore.symm.trans hmore')

/-- Rounds that all send and go on: with `state` the search before each round. -/
theorem submitLoop_again {visit : Nat → Nat} {state : Nat → Search} {m : Nat}
    (hround : ∀ k < m, late k = false ∧
      env.round k (state k) = (some (visit k), .again (state (k + 1)))) (fuel : Nat) :
    submitLoop env late (m + fuel) 0 (state 0) =
      (submitLoop env late fuel m (state m)).map fun out =>
        { out with sends := (List.range m).map visit ++ out.sends } := by
  induction m generalizing fuel with
  | zero => simp
  | succ m ih =>
    have hbefore := ih (fun k hk => hround k (by omega)) (fuel + 1)
    obtain ⟨hlate, hlast⟩ := hround m (by omega)
    rw [show m + 1 + fuel = m + (fuel + 1) by omega, hbefore, submitLoop, if_neg (by simp [hlate]),
      hlast]
    simp only [Option.map_map, List.range_succ]
    congr 1
    funext out
    simp

end Loop

section RedirectLoop

/-- The filers of `S` answer every request with a redirect to another filer of `S`. -/
structure RedirectLoop (env : SubmitEnv) (S : Nat → Prop) : Prop where
  connected : ∀ i, S i → connectedAt env.filers i = true
  redirects : ∀ k i, S i → ∃ body target f j, env.send k i = .redirect body ∧
    parseRedirect body = .ok target ∧ env.filers[i]? = some f ∧ target ≠ f.server ∧
    env.findFiler target = some j ∧ S j

/-- The request comes to a filer of `S` first. A shard without a route entry is not led from there,
so that for it all filers in use must be in `S`. -/
structure Enters (env : SubmitEnv) (S : Nat → Prop) (route : LeaderRoute) : Prop where
  first : ∃ i, S i ∧ (env.choose (.start route)).1 = some i
  stays : env.inTable = true ∨ ∀ i, usableAt env.filers i = true → S i

/-- The loop is given up with `-EAGAIN` after a number of sends that does not depend on the
deadline. -/
def StopsLoop (env : SubmitEnv) (route : LeaderRoute) : Prop :=
  ∃ bound, ∀ d, bound < d → ∃ fuel out, requestSubmit env (lateAt d) fuel route = some out ∧
    out.ret = some .eagain ∧ out.sends.length ≤ bound

variable {env : SubmitEnv} {S : Nat → Prop} {st : Search}

theorem choose_snd {i : Nat} (h : (env.choose st).1 = some i) : (env.choose st).2 = st := by
  have hkeep := selectFiler_keep (show (selectFiler env.filers (env.seen st.route).leader
    (env.seen st.route).state st.lastTried st.badSelf).1 = some i from h)
  simp only [SubmitEnv.choose, hkeep]

theorem searchFiler_usable {filers : List Filer} {lastTried : Option Nat} {badSelf : List Server}
    {i : Nat} (h : searchFiler filers lastTried badSelf = some i) : usableAt filers i = true := by
  simp only [searchFiler] at h
  split at h
  · next hfresh =>
    cases h
    have hfound := List.find?_some hfresh
    simp only [Bool.and_eq_true] at hfound
    exact hfound.1.1
  · exact List.find?_some h

theorem searchFiler_isSome {filers : List Filer} {j : Nat} (h : usableAt filers j = true)
    (lastTried : Option Nat) (badSelf : List Server) :
    ∃ i, searchFiler filers lastTried badSelf = some i := by
  have hlt : j < filers.length := by
    by_contra hge
    rw [usableAt, List.getElem?_eq_none (Nat.not_lt.mp hge)] at h
    cases h
  simp only [searchFiler]
  split
  · exact ⟨_, rfl⟩
  · cases hfind : (List.range filers.length).find? (usableAt filers) with
    | some i => exact ⟨i, rfl⟩
    | none =>
      have hnone := List.find?_eq_none.mp hfind j (List.mem_range.mpr hlt)
      exact absurd h hnone

section

variable (h : RedirectLoop env S)
  (hstays : env.inTable = true ∨ ∀ i, usableAt env.filers i = true → S i)
include h hstays

/-- The next filer of a request that was led to `j`, or is not led. -/
theorem RedirectLoop.choose_next {j : Nat} {target : Server}
    (hj : S j) (hfind : env.findFiler target = some j) (hbad : st.badSelf = []) :
    ∃ i, S i ∧ (env.choose { st with route := env.nameLeader st.route j }).1 = some i := by
  cases htable : env.inTable with
  | true =>
    have hblack : blacklistedAt env.filers st.badSelf j = false := by simp [hbad, blacklistedAt]
    refine ⟨j, hj, ?_⟩
    simp [SubmitEnv.choose, SubmitEnv.seen, SubmitEnv.nameLeader, htable,
      selectFiler_valid (h.connected j hj) hblack]
  | false =>
    -- the address was found, so its filer is in use
    have huse : usableAt env.filers j = true := by
      have hconn := h.connected j hj
      obtain ⟨hlt, hfound, -⟩ := List.findIdx?_eq_some_iff_getElem.mp hfind
      rw [usableAt, List.getElem?_eq_getElem hlt, Option.any_some]
      rw [connectedAt, List.getElem?_eq_getElem hlt] at hconn
      rw [Bool.and_eq_true] at hfound ⊢
      exact ⟨hfound.1, hconn⟩
    obtain ⟨i, hi⟩ := searchFiler_isSome huse st.lastTried st.badSelf
    refine ⟨i, hstays.resolve_left (by simp [htable]) i (searchFiler_usable hi), ?_⟩
    simp [SubmitEnv.choose, SubmitEnv.seen, htable, selectFiler, hi]

/-- A round among the filers of `S` sends the request and leads to another such round: the address
that the loop detection compares with is the one of the filer that has just answered. -/
theorem RedirectLoop.round (k : Nat)
    (hbad : st.badSelf = []) (hchoose : ∃ i, S i ∧ (env.choose st).1 = some i) :
    ∃ i st', env.round k st = (some i, .again st') ∧ st'.badSelf = [] ∧
      ∃ j, S j ∧ (env.choose st').1 = some j := by
  obtain ⟨i, hi, hfirst⟩ := hchoose
  have hsame := choose_snd hfirst
  obtain ⟨body, target, f, j, hsend, hparse, hf, hne, hfind, hj⟩ := h.redirects k i hi
  have hblack : blacklistedAt env.filers [] j = false := by simp [blacklistedAt]
  let tried : Search := { st with lastTried := some i }
  have hnext : ∃ i, S i ∧
      (env.choose { tried with route := env.nameLeader tried.route j }).1 = some i :=
    h.choose_next hstays hj hfind hbad
  refine ⟨i, { tried with route := env.nameLeader tried.route j }, ?_, hbad, hnext⟩
  have hback : ¬ (some f.server = some target) := fun heq => hne (Option.some.inj heq).symm
  simp only [SubmitEnv.round, hfirst, hsame, hf, hsend, SubmitEnv.onReply, hparse,
    SubmitEnv.onRedirect, if_neg hne, hbad, List.not_mem_nil, if_false, Option.bind_some,
    Option.map_some, if_neg hback, hfind, hblack, Bool.false_eq_true, tried]

theorem RedirectLoop.submitLoop_timesOut {d : Nat} (left : Nat) :
    ∀ (k : Nat) (st : Search), k + left = d → st.badSelf = [] →
      (∃ i, S i ∧ (env.choose st).1 = some i) →
      ∃ sends, submitLoop env (lateAt d) (left + 1) k st = some ⟨sends, some .etimedout⟩ ∧
        sends.length = left := by
  induction left with
  | zero =>
    intro k st hk _ _
    exact ⟨[], by simp [submitLoop, lateAt, ← hk], rfl⟩
  | succ left ih =>
    intro k st hk hbad hchoose
    obtain ⟨i, st', hround, hbad', hchoose'⟩ := h.round hstays k hbad hchoose
    obtain ⟨sends, hloop, hlen⟩ := ih (k + 1) st' (by omega) hbad' hchoose'
    have hlate : ¬ lateAt d k = true := by
      simp only [lateAt, decide_eq_true_eq]
      omega
    refine ⟨i :: sends, ?_, by rw [List.length_cons, hlen]⟩
    rw [submitLoop, if_neg hlate, hround]
    simp [hloop]

end

end RedirectLoop

/-- Filers that keep redirecting to each other are followed until the deadline, whenever it is: the
loop is never detected. -/
theorem stopsLoop_never {env : SubmitEnv} {S : Nat → Prop} {route : LeaderRoute}
    (hloop : RedirectLoop env S) (henters : Enters env S route) :
    (∀ d, ∃ sends, requestSubmit env (lateAt d) (d + 1) route = some ⟨sends, some .etimedout⟩ ∧
      sends.length = d) ∧ ¬ StopsLoop env route := by
  have htimeout : ∀ d, ∃ sends,
      requestSubmit env (lateAt d) (d + 1) route = some ⟨sends, some .etimedout⟩ ∧
        sends.length = d := fun d =>
    hloop.submitLoop_timesOut henters.stays d 0 (.start route) (by omega) rfl henters.first
  refine ⟨htimeout, ?_⟩
  rintro ⟨bound, hstops⟩
  obtain ⟨fuel, out, hout, hret, -⟩ := hstops (bound + 1) (by omega)
  obtain ⟨sends, htime, -⟩ := htimeout (bound + 1)
  cases submitLoop_unique hout htime
  cases hret

/-- Two filers, `a:1` and `b:1`, each of which takes the other one for the leader. -/
def mutualRedirect : SubmitEnv where
  filers := [⟨⟨[97], 1⟩, true, .connected⟩, ⟨⟨[98], 1⟩, true, .connected⟩]
  inTable := true
  send := fun _ i =>
    .redirect ([fldOwner, 0, 0, 0, 3] ++ if i = 0 then [98, 58, 49] else [97, 58, 49])
  park := fun _ => .timedOut

theorem mutualRedirect_loop : RedirectLoop mutualRedirect (· < 2) where
  connected := by decide
  redirects k i hi := by
    have hcases : i = 0 ∨ i = 1 := by omega
    rcases hcases with rfl | rfl
    · exact ⟨_, ⟨[98], 1⟩, ⟨⟨[97], 1⟩, true, .connected⟩, 1, rfl, by decide, rfl, by decide,
        by decide, by decide⟩
    · exact ⟨_, ⟨[97], 1⟩, ⟨⟨[98], 1⟩, true, .connected⟩, 0, rfl, by decide, rfl, by decide,
        by decide, by decide⟩

theorem mutualRedirect_enters : Enters mutualRedirect (· < 2) ⟨none, .unknown⟩ where
  first := ⟨0, by decide, by decide⟩
  stays := .inl rfl

theorem stopsLoop_never_mutualRedirect : ¬ StopsLoop mutualRedirect ⟨none, .unknown⟩ :=
  (stopsLoop_never mutualRedirect_loop mutualRedirect_enters).2

theorem not_stopsLoop_all : ¬ ∀ env S route, RedirectLoop env S → Enters env S route →
    StopsLoop env route := by
  intro hall
  obtain ⟨bound, hstops⟩ := hall _ _ _ mutualRedirect_loop mutualRedirect_enters
  obtain ⟨fuel, out, hout, hret, -⟩ := hstops (bound + 1) (by omega)
  obtain ⟨sends, htime, -⟩ := mutualRedirect_loop.submitLoop_timesOut (d := bound + 1)
    (.inl rfl) (bound + 1) 0 (.start ⟨none, .unknown⟩) (by omega) rfl mutualRedirect_enters.first
  cases submitLoop_unique hout htime
  cases hret

end PowerFS.Net
