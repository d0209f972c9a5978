import PowerFS.Lib.Runs
import Mathlib.Data.List.Basic

namespace PowerFS.Net

/-! Routing of volume requests: `powerfs_net_discover_volumes` from the parsed topology on,
`pfs_ensure_volume_conn` and `powerfs_net_find_volume_conn`. The bit
`TOPOLOGY_REFRESH_PENDING_BIT` keeps the workers apart, but not from the refresh of a mount, so
refreshes can overlap. -/

/-- `POWERFS_NET_MAX_VOLUMES`, of the pool and of the table. -/
def maxVolumes : Nat := 32

/-- `POWERFS_NET_MAX_FILERS`. -/
def maxFilers : Nat := 16

structure Server where
  ip : List UInt8
  port : UInt16
  deriving DecidableEq

/-- A slot of `g_pool.volumes` below `volume_count`; such slots are all in use, and their address
never changes. -/
structure Conn where
  server : Server
  isMeta : Bool
  connected : Bool

/-- An entry of `g_pool.vol_routes`; a negative index is `none`. -/
structure Route where
  volume : UInt64
  dataIdx : Option Nat
  metaIdx : Option Nat

/-- A volume and its `ip:port` in the reply of the Master. -/
structure TopoEntry where
  volume : UInt64
  addr : List UInt8

/-- `simple_strtoul` in base 10. -/
def strtoul (digits : List UInt8) : Nat :=
  (digits.takeWhile fun d => 48 ≤ d && d ≤ 57).foldl (fun n d => n * 10 + (d.toNat - 48)) 0

def splitAddr (addr : List UInt8) : Option Server :=
  let port := (addr.reverse.takeWhile fun c => c ≠ 58).reverse
  if port.length = addr.length then none
  else some
    { ip := (addr.take (addr.length - port.length - 1)).take 63
      port := UInt16.ofNat (strtoul port) }

/-- `routes_tmp`. -/
def routesTmp (topo : List TopoEntry) : List TopoEntry :=
  (topo.take maxVolumes).filter fun e => e.addr ≠ []

/-- Where a refresh stands, always with the lock of the table dropped: before the data connection,
before the meta connection, and before the new entry. -/
inductive RefreshPc where
  | dataConn (left : List TopoEntry) (volume : UInt64) (server : Server)
  | metaConn (left : List TopoEntry) (volume : UInt64) (server : Server) (dataIdx : Option Nat)
  | newRoute (left : List TopoEntry) (volume : UInt64) (server : Server)
      (dataIdx metaIdx : Option Nat)

/-- A request that was sent, and the topologies at that time. -/
structure Sent where
  volume : UInt64
  server : Server
  previous : List TopoEntry
  topology : List TopoEntry

/-- `topology` is the one of the refresh that started last, which thread `newest` runs or ran.
`overrun` says that an entry was written behind the table, over `vol_route_count` and
`vol_route_lock`. -/
structure RouteState where
  pool : List Conn
  routes : List Route
  overrun : Bool
  previous : List TopoEntry
  topology : List TopoEntry
  newest : Nat
  pending : Nat → Option RefreshPc
  sent : List Sent

def RouteState.goto (s : RouteState) (t : Nat) (pc : Option RefreshPc) : RouteState :=
  { s with pending := Function.update s.pending t pc }

/-- A refresh by thread `t` empties the table. -/
def RouteState.start (s : RouteState) (t : Nat) (topo : List TopoEntry) : RouteState :=
  { s with
    routes := []
    previous := s.topology
    topology := topo
    newest := t }

/-- An entry is added unless both connections are missing. There is no test for a full table, which
refreshes that overlap can fill. -/
def RouteState.add (s : RouteState) (r : Route) : RouteState :=
  if r.dataIdx.isNone && r.metaIdx.isNone then s
  else if s.routes.length < maxVolumes then { s with routes := s.routes ++ [r] }
  else { s with overrun := true }

def advance : List TopoEntry → Option RefreshPc
  | [] => none
  | e :: left =>
    match splitAddr e.addr with
    | none => advance left
    | some server => some (.dataConn left e.volume server)

/-- `pfs_ensure_volume_conn`: the pool and the index; `alloc` is the allocation of the buffers. -/
def ensureVolumeConn (pool : List Conn) (server : Server) (isMeta alloc : Bool) :
    List Conn × Option Nat :=
  match pool.findIdx? fun c => c.isMeta = isMeta && c.server = server with
  | some i => (pool, some i)
  | none =>
    if maxVolumes ≤ pool.length || !alloc then (pool, none)
    else (pool ++ [⟨server, isMeta, false⟩], some pool.length)

/-- The connection used for a volume that is not in the table: the first one that is connected, or
the first one. -/
def fallbackConn (pool : List Conn) (isMeta : Bool) : Option Conn :=
  let kind := pool.filter fun c => c.isMeta = isMeta
  match kind.find? fun c => c.connected with
  | some c => some c
  | none => kind.head?

/-- `powerfs_net_find_volume_conn`. -/
def findVolumeConn (s : RouteState) (volume : UInt64) (isMeta : Bool) : Option Conn :=
  match s.routes.find? fun r => r.volume = volume with
  | some r => (if isMeta then r.metaIdx else r.dataIdx).bind fun i => s.pool[i]?
  | none => fallbackConn s.pool isMeta

/-- What can happen: the steps of a refresh by a thread, a connection that comes up or goes down,
a needle or lease request for a volume, and one that takes any connection once the table is
overrun. -/
inductive RouteEvent where
  | refreshStart (t : Nat) (topo : List TopoEntry)
  | ensureData (t : Nat) (alloc : Bool)
  | ensureMeta (t : Nat) (alloc : Bool)
  | addRoute (t : Nat)
  | setConnected (i : Nat) (connected : Bool)
  | request (volume : UInt64) (isMeta : Bool)
  | stray (volume : UInt64) (i : Nat)

/-- One event; `none` if it cannot happen. -/
def routeExec (s : RouteState) : RouteEvent → Option RouteState
  | .refreshStart t topo =>
    match s.pending t with
    | some _ => none
    | none => some ((s.start t topo).goto t (advance (routesTmp topo)))
  | .ensureData t alloc =>
    match s.pending t with
    | some (.dataConn left volume server) =>
      let r := ensureVolumeConn s.pool server false alloc
      some ({ s with pool := r.1 }.goto t (some (.metaConn left volume server r.2)))
    | _ => none
  | .ensureMeta t alloc =>
    match s.pending t with
    | some (.metaConn left volume server dataIdx) =>
      let r := ensureVolumeConn s.pool server true alloc
      some ({ s with pool := r.1 }.goto t (some (.newRoute left volume server dataIdx r.2)))
    | _ => none
  | .addRoute t =>
    match s.pending t with
    | some (.newRoute left volume _ dataIdx metaIdx) =>
      some ((s.add ⟨volume, dataIdx, metaIdx⟩).goto t (advance left))
    | _ => none
  | .setConnected i connected =>
    some { s with pool := s.pool.modify i fun c => { c with connected := connected } }
  | .request volume isMeta =>
    match findVolumeConn s volume isMeta with
    | none => some s
    | some conn =>
      some { s with sent := ⟨volume, conn.server, s.previous, s.topology⟩ :: s.sent }
  | .stray volume i =>
    if s.overrun then s.pool[i]?.map fun conn =>
      { s with sent := ⟨volume, conn.server, s.previous, s.topology⟩ :: s.sent }
    else none

def Lists (topo : List TopoEntry) (volume : UInt64) (server : Server) : Prop :=
  ∃ e ∈ topo, e.volume = volume ∧ splitAddr e.addr = some server

def Assigns (topo : List TopoEntry) (volume : UInt64) (server : Server) : Prop :=
  (∃ e ∈ topo, e.volume = volume) ∧
    ∀ e ∈ topo, e.volume = volume → splitAddr e.addr = some server

def Agrees (previous topology : List TopoEntry) (volume : UInt64) (server : Server) : Prop :=
  ∀ server', Assigns previous volume server' → Assigns topology volume server' → server = server'

/-- Every request for a volume that both topologies assign to one server went to that server. -/
def RouteSafe (s : RouteState) : Prop :=
  ∀ r ∈ s.sent, Agrees r.previous r.topology r.volume r.server

/-- A new pool with connections from the mount options and no topology. -/
structure RouteInit (s : RouteState) : Prop where
  routes : s.routes = []
  overrun : s.overrun = false
  topology : s.topology = []
  pending : s.pending = fun _ => none
  sent : s.sent = []

/-- A request is looked up while the table has its volume, or all connections are to the server of
the volume; an entry is added while the table has room, and a refresh that was overtaken adds none
that disagrees with the newer topologies. -/
def RouteOk (s : RouteState) : RouteEvent → Prop
  | .request volume isMeta => (∃ r ∈ s.routes, r.volume = volume) ∨
    ∀ conn ∈ s.pool, conn.isMeta = isMeta → Agrees s.previous s.topology volume conn.server
  | .addRoute t => s.routes.length < maxVolumes ∧
    (t = s.newest ∨ ∀ left volume server dataIdx metaIdx,
      s.pending t = some (.newRoute left volume server dataIdx metaIdx) →
        Agrees s.previous s.topology volume server)
  | _ => True

def ConnTo (pool : List Conn) (idx : Option Nat) (server : Server) : Prop :=
  ∀ i, idx = some i → ∃ conn, pool[i]? = some conn ∧ conn.server = server

/-- Slots stay where they are and keep their server. -/
def Grows (pool pool' : List Conn) : Prop :=
  ∀ (i : Nat) (conn : Conn), pool[i]? = some conn →
    ∃ conn' : Conn, pool'[i]? = some conn' ∧ conn'.server = conn.server

def PendingOk (pool : List Conn) : RefreshPc → Prop
  | .dataConn .. => True
  | .metaConn _ _ server dataIdx => ConnTo pool dataIdx server
  | .newRoute _ _ server dataIdx metaIdx => ConnTo pool dataIdx server ∧ ConnTo pool metaIdx server

def Follows (topo : List TopoEntry) : RefreshPc → Prop
  | .dataConn left volume server | .metaConn left volume server _
  | .newRoute left volume server _ _ => (∀ e ∈ left, e ∈ topo) ∧ Lists topo volume server

/-- The entries of the table agree with the topologies, and their connections are to their
servers. -/
structure RouteInv (s : RouteState) : Prop where
  overrun : s.overrun = false
  routes : ∀ r ∈ s.routes, ∃ server, Agrees s.previous s.topology r.volume server ∧
    ConnTo s.pool r.dataIdx server ∧ ConnTo s.pool r.metaIdx server
  pending : ∀ t pc, s.pending t = some pc → PendingOk s.pool pc
  newest : ∀ pc, s.pending s.newest = some pc → Follows s.topology pc
  sent : RouteSafe s

variable {pool pool' : List Conn} {topo : List TopoEntry} {s s' : RouteState}

variable {server : Server}

theorem ConnTo.grows {idx : Option Nat} (h : ConnTo pool idx server)
    (hgrows : Grows pool pool') : ConnTo pool' idx server := by
  intro i hi
  obtain ⟨conn, hconn, heq⟩ := h i hi
  obtain ⟨conn', hconn', heq'⟩ := hgrows i conn hconn
  exact ⟨conn', hconn', heq'.trans heq⟩

theorem PendingOk.grows {pc : RefreshPc} (h : PendingOk pool pc) (hgrows : Grows pool pool') :
    PendingOk pool' pc := by
  cases pc with
  | dataConn => trivial
  | metaConn => exact ConnTo.grows h hgrows
  | newRoute => exact ⟨h.1.grows hgrows, h.2.grows hgrows⟩

theorem ensureVolumeConn_spec (pool : List Conn) (server : Server) (isMeta alloc : Bool) :
    Grows pool (ensureVolumeConn pool server isMeta alloc).1 ∧
      ConnTo (ensureVolumeConn pool server isMeta alloc).1
        (ensureVolumeConn pool server isMeta alloc).2 server := by
  have hsame : Grows pool pool := fun i conn hconn => ⟨conn, hconn, rfl⟩
  unfold ensureVolumeConn
  split
  · next i hfound =>
    refine ⟨hsame, ?_⟩
    rintro _ ⟨⟩
    obtain ⟨hlt, hconn, _⟩ := List.findIdx?_eq_some_iff_getElem.mp hfound
    simp only [Bool.and_eq_true, decide_eq_true_eq] at hconn
    exact ⟨pool[i], List.getElem?_eq_getElem hlt, hconn.2⟩
  · split
    · refine ⟨hsame, ?_⟩
      rintro _ ⟨⟩
    · refine ⟨fun i conn hconn => ?_, ?_⟩
      · obtain ⟨hlt, _⟩ := List.getElem?_eq_some_iff.mp hconn
        exact ⟨conn, by rw [List.getElem?_append_left hlt]; exact hconn, rfl⟩
      · rintro _ ⟨⟩
        exact ⟨_, List.getElem?_concat_length, rfl⟩

theorem setConnected_grows (i : Nat) (connected : Bool) :
    Grows pool (pool.modify i fun c => { c with connected := connected }) := by
  intro j conn hconn
  rw [List.getElem?_modify, hconn]
  by_cases hij : i = j
  · exact ⟨{ conn with connected := connected }, by simp [hij], rfl⟩
  · exact ⟨conn, by simp [hij], rfl⟩

theorem advance_spec {left : List TopoEntry} (hleft : ∀ e ∈ left, e ∈ topo) {pc : RefreshPc}
    (h : advance left = some pc) : PendingOk pool pc ∧ Follows topo pc := by
  induction left with
  | nil => cases h
  | cons e left ih =>
    have htail : ∀ e ∈ left, e ∈ topo := fun e he => hleft e (List.mem_cons_of_mem _ he)
    rw [advance] at h
    split at h
    · exact ih htail h
    · next server hserver =>
      cases h
      exact ⟨trivial, htail, e, hleft e List.mem_cons_self, rfl, hserver⟩

theorem fallbackConn_mem {isMeta : Bool} {conn : Conn} (h : fallbackConn pool isMeta = some conn) :
    conn ∈ pool ∧ conn.isMeta = isMeta := by
  have hmem : conn ∈ pool.filter fun c => c.isMeta = isMeta := by
    simp only [fallbackConn] at h
    split at h
    · next c hc =>
      cases h
      exact List.mem_of_find?_eq_some hc
    · exact List.mem_of_head? h
  simpa using hmem

variable {volume : UInt64}

theorem Lists.agrees {previous : List TopoEntry}
    (h : Lists topo volume server) : Agrees previous topo volume server := by
  intro server' _ hassigns
  obtain ⟨e, he, hvolume, haddr⟩ := h
  have heq := hassigns.2 e he hvolume
  rw [haddr] at heq
  exact Option.some.inj heq

theorem RouteInv.find {isMeta : Bool} {conn : Conn} (h : RouteInv s)
    (hok : RouteOk s (.request volume isMeta))
    (hfind : findVolumeConn s volume isMeta = some conn) :
    Agrees s.previous s.topology volume conn.server := by
  simp only [findVolumeConn] at hfind
  split at hfind
  · next r hr =>
    have hvolume : r.volume = volume := by simpa using List.find?_some hr
    obtain ⟨server, hagrees, hdata, hmeta⟩ := h.routes r (List.mem_of_find?_eq_some hr)
    have hconn : ConnTo s.pool (if isMeta then r.metaIdx else r.dataIdx) server := by
      cases isMeta
      · exact hdata
      · exact hmeta
    obtain ⟨i, hi, hget⟩ := Option.bind_eq_some_iff.mp hfind
    obtain ⟨conn', hget', heq⟩ := hconn i hi
    rw [hget] at hget'
    cases hget'
    rwa [heq, ← hvolume]
  · next hnone =>
    obtain ⟨r, hr, hvolume⟩ | hall := hok
    · exact absurd (by simpa using hvolume) (List.find?_eq_none.mp hnone r hr)
    · obtain ⟨hmem, hkind⟩ := fallbackConn_mem hfind
      exact hall conn hmem hkind

theorem RouteInit.inv (h : RouteInit s) : RouteInv s := by
  refine ⟨h.overrun, fun r hr => ?_, fun t pc hpc => ?_, fun pc hpc => ?_, fun r hr => ?_⟩
  · rw [h.routes] at hr
    cases hr
  · rw [h.pending] at hpc
    cases hpc
  · rw [h.pending] at hpc
    cases hpc
  · rw [h.sent] at hr
    cases hr

theorem RouteInv.grow (h : RouteInv s) (hgrows : Grows s.pool pool') :
    RouteInv { s with pool := pool' } := by
  refine ⟨h.overrun, fun r hr => ?_, fun t pc hpc => (h.pending t pc hpc).grows hgrows, h.newest,
    h.sent⟩
  obtain ⟨server, hagrees, hdata, hmeta⟩ := h.routes r hr
  exact ⟨server, hagrees, hdata.grows hgrows, hmeta.grows hgrows⟩

variable {t : Nat}

theorem RouteInv.goto {next : Option RefreshPc} (h : RouteInv s)
    (hpending : ∀ pc, next = some pc → PendingOk s.pool pc)
    (hnewest : ∀ pc, t = s.newest → next = some pc → Follows s.topology pc) :
    RouteInv (s.goto t next) := by
  refine ⟨h.overrun, h.routes, fun u pc hpc => ?_, fun pc hpc => ?_, h.sent⟩
  · by_cases hu : u = t
    · subst hu
      exact hpending pc (by simpa [RouteState.goto] using hpc)
    · exact h.pending u pc (by simpa [RouteState.goto, hu] using hpc)
  · by_cases hu : s.newest = t
    · exact hnewest pc hu.symm (by simpa [RouteState.goto, hu] using hpc)
    · exact h.newest pc (by simpa [RouteState.goto, hu] using hpc)

theorem RouteInv.start (h : RouteInv s) (hidle : s.pending t = none) :
    RouteInv (s.start t topo) := by
  refine ⟨h.overrun, fun r hr => ?_, h.pending, fun pc hpc => ?_, h.sent⟩
  · cases hr
  · exact absurd (hidle.symm.trans hpc) (by simp)

theorem RouteInv.add {left : List TopoEntry}
    {dataIdx metaIdx : Option Nat} (h : RouteInv s) (hok : RouteOk s (.addRoute t))
    (hpc : s.pending t = some (.newRoute left volume server dataIdx metaIdx)) :
    RouteInv (s.add ⟨volume, dataIdx, metaIdx⟩) := by
  obtain ⟨hroom, hok⟩ := hok
  rw [RouteState.add]
  split
  · exact h
  · refine ⟨h.overrun, fun r hr => ?_, h.pending, h.newest, h.sent⟩
    obtain hr | rfl : r ∈ s.routes ∨ r = ⟨volume, dataIdx, metaIdx⟩ := by simpa using hr
    · exact h.routes r hr
    · obtain ⟨hdata, hmeta⟩ := h.pending t _ hpc
      refine ⟨server, ?_, hdata, hmeta⟩
      obtain rfl | hagrees := hok
      · exact (h.newest _ hpc).2.agrees
      · exact hagrees _ _ _ _ _ hpc

theorem RouteInv.step {e : RouteEvent} (h : RouteInv s) (hok : RouteOk s e)
    (hs : routeExec s e = some s') : RouteInv s' := by
  cases e with simp only [routeExec] at hs
  | refreshStart t topo =>
    split at hs <;> cases hs
    next hidle =>
    have hleft : ∀ e ∈ routesTmp topo, e ∈ topo := fun e he =>
      List.mem_of_mem_take (List.mem_of_mem_filter he)
    refine (h.start hidle).goto ?_ ?_
    · intro pc hnext
      exact (advance_spec hleft hnext).1
    · intro pc _ hnext
      exact (@advance_spec s.pool _ _ hleft _ hnext).2
  | ensureData t alloc =>
    split at hs <;> cases hs
    next left volume server hpc =>
    obtain ⟨hgrows, hconn⟩ := ensureVolumeConn_spec s.pool server false alloc
    refine (h.grow hgrows).goto ?_ ?_
    · rintro _ ⟨⟩
      exact hconn
    · rintro _ rfl ⟨⟩
      have hfollows := h.newest _ hpc
      exact hfollows
  | ensureMeta t alloc =>
    split at hs <;> cases hs
    next left volume server dataIdx hpc =>
    obtain ⟨hgrows, hconn⟩ := ensureVolumeConn_spec s.pool server true alloc
    refine (h.grow hgrows).goto ?_ ?_
    · rintro _ ⟨⟩
      exact ⟨ConnTo.grows (h.pending t _ hpc) hgrows, hconn⟩
    · rintro _ rfl ⟨⟩
      have hfollows := h.newest _ hpc
      exact hfollows
  | addRoute t =>
    split at hs <;> cases hs
    next left volume server dataIdx metaIdx hpc =>
    have hsame : (s.add ⟨volume, dataIdx, metaIdx⟩).newest = s.newest ∧
        (s.add ⟨volume, dataIdx, metaIdx⟩).topology = s.topology := by
      unfold RouteState.add
      split_ifs <;> exact ⟨rfl, rfl⟩
    refine (h.add hok hpc).goto ?_ ?_
    · intro pc hnext
      exact (@advance_spec _ left _ (fun _ he => he) _ hnext).1
    · rw [hsame.1, hsame.2]
      rintro pc rfl hnext
      exact (@advance_spec s.pool _ _ (h.newest _ hpc).1 _ hnext).2
  | setConnected i connected =>
    cases hs
    exact h.grow (setConnected_grows i connected)
  | request volume isMeta =>
    split at hs <;> cases hs
    · exact h
    · next conn hfind =>
      refine ⟨h.overrun, h.routes, h.pending, h.newest, fun r hr => ?_⟩
      obtain rfl | hr := List.mem_cons.mp hr
      · exact h.find hok hfind
      · exact h.sent r hr
  | stray volume i =>
    rw [h.overrun] at hs
    cases hs

end PowerFS.Net
