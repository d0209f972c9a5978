import PowerFS.Errno
import PowerFS.Net.VolumeRoute
import Mathlib.Algebra.BigOperators.Ring.Finset

namespace PowerFS.Net

/-! The `active_reqs` counters of `powerfs_flow.c` and the places that move them: the submitters
around `powerfs_request_do_send`, and `pfs_rx_dispatch` for a response. -/

/-- `POWERFS_FLOW_MAX_CONNS`. -/
def flowMaxConns : Nat := maxFilers + maxVolumes

inductive FlowConn where
  | filer (i : Fin maxFilers)
  | volume (i : Fin maxVolumes)
  | other
  deriving DecidableEq

/-- `pfs_conn_flow_idx`; `none` for −1. -/
def connFlowIdx : FlowConn → Option (Fin flowMaxConns)
  | .filer i => some (i.castAdd maxVolumes)
  | .volume i => some (i.natAdd maxFilers)
  | .other => none

/-- The `active_reqs` of the connections and of the whole client, `atomic_t` each. -/
structure FlowCounters where
  conns : Fin flowMaxConns → Int32
  global : Int32

namespace FlowCounters

/-- `powerfs_flow_record_start`. -/
def recordStart (f : FlowCounters) : Option (Fin flowMaxConns) → FlowCounters
  | none => f
  | some k => ⟨Function.update f.conns k (f.conns k + 1), f.global + 1⟩

/-- `powerfs_flow_record_complete`. -/
def recordComplete (f : FlowCounters) : Option (Fin flowMaxConns) → FlowCounters
  | none => f
  | some k => ⟨Function.update f.conns k (f.conns k - 1), f.global - 1⟩

end FlowCounters

/-- Requests that wait in `powerfs_request_do_send`, and requests with a callback. -/
inductive ReqKind where
  | sync | async
  deriving DecidableEq

/-- The ways a request ends: a response, one that does not fit, a connection that is not up, a
failed send, a disconnect, the timeout, and a signal to the waiter. -/
inductive Ending where
  | response | oversized | notConnected | sendFailed | disconnected | timedOut | killed
  deriving DecidableEq

/-- What the completer leaves in `req->error`. -/
def Ending.error : Ending → Option Errno
  | .response => none
  | .oversized => some .e2big
  | .notConnected | .sendFailed | .disconnected => some .enotconn
  | .timedOut => some .etimedout
  | .killed => some .eintr

/-- The request was matched with a response, so that `pfs_rx_dispatch` records its end. -/
def Ending.received : Ending → Bool
  | .response | .oversized => true
  | .notConnected | .sendFailed | .disconnected | .timedOut | .killed => false

/-- What `powerfs_request_do_send` returns for a request that ends so. With a callback the result
is 0 once the request is queued. -/
def doSend : ReqKind → Ending → Option Errno
  | _, .notConnected => some .enotconn
  | .async, _ => none
  | .sync, ending => ending.error

/-- The counters after a request has ended: the dispatcher records a response, and the submitter
records an error of `powerfs_request_do_send`. -/
def FlowCounters.settle (f : FlowCounters) (conn : FlowConn) (kind : ReqKind) (ending : Ending) :
    FlowCounters :=
  let f := if ending.received then f.recordComplete (connFlowIdx conn) else f
  if (doSend kind ending).isSome then f.recordComplete (connFlowIdx conn) else f

/-- The counters, and the requests that were started and have not ended. -/
structure FlowState where
  counters : FlowCounters
  inFlight : List (FlowConn × ReqKind)

inductive FlowEvent where
  | start (conn : FlowConn) (kind : ReqKind)
  | finish (i : Nat) (ending : Ending)
  deriving DecidableEq

/-- A request is started, or the `i`-th request in flight ends. Only a waiter can be killed. -/
def flowExec (s : FlowState) : FlowEvent → Option FlowState
  | .start conn kind =>
    some ⟨s.counters.recordStart (connFlowIdx conn), (conn, kind) :: s.inFlight⟩
  | .finish i ending =>
    match s.inFlight[i]? with
    | none => none
    | some (conn, kind) =>
      if kind = .async ∧ ending = .killed then none
      else some ⟨s.counters.settle conn kind ending, s.inFlight.eraseIdx i⟩

/-- The requests in flight that are counted at `k`. -/
def FlowState.onConn (s : FlowState) (k : Fin flowMaxConns) : Nat :=
  s.inFlight.countP fun r => connFlowIdx r.1 = some k

/-- The counters say what is in flight. -/
structure FlowSafe (s : FlowState) : Prop where
  active : ∀ k, (s.counters.conns k).toInt = s.onConn k
  nonneg : ∀ k, 0 ≤ (s.counters.conns k).toInt
  global : s.counters.global.toInt = ∑ k, (s.counters.conns k).toInt
  idle : s.inFlight = [] → s.counters.global = 0 ∧ ∀ k, s.counters.conns k = 0

/-- After `powerfs_flow_init`. -/
structure FlowInit (s : FlowState) : Prop where
  conns : ∀ k, s.counters.conns k = 0
  global : s.counters.global = 0
  inFlight : s.inFlight = []

/-- A request that ends so is recorded once: no synchronous request gets a response that is too
large, and what is queued with a callback ends with a response. -/
def Ending.Balanced : ReqKind → Ending → Prop
  | .sync, ending => ending ≠ .oversized
  | .async, ending => ending = .response ∨ ending = .oversized ∨ ending = .notConnected

/-- The condition: no unbalanced ending, and room in an `atomic_t` for one more request. -/
def FlowOk (s : FlowState) : FlowEvent → Prop
  | .start _ _ => s.inFlight.length < 2 ^ 31 - 1
  | .finish i ending => ∀ r, s.inFlight[i]? = some r → ending.Balanced r.2

instance decidableBalanced : (kind : ReqKind) → (ending : Ending) →
    Decidable (ending.Balanced kind)
  | .sync, ending => inferInstanceAs (Decidable (ending ≠ .oversized))
  | .async, ending => inferInstanceAs
      (Decidable (ending = .response ∨ ending = .oversized ∨ ending = .notConnected))

instance decidableFlowOk (s : FlowState) : (e : FlowEvent) → Decidable (FlowOk s e)
  | .start _ _ => inferInstanceAs (Decidable (s.inFlight.length < 2 ^ 31 - 1))
  | .finish i ending =>
    match h : s.inFlight[i]? with
    | none => .isTrue fun _ hr => nomatch h.symm.trans hr
    | some r => decidable_of_iff (ending.Balanced r.2)
        ⟨fun hb _ hr => Option.some.inj (h.symm.trans hr) ▸ hb, fun hall => hall r h⟩

section Invariant

variable {s s' : FlowState} {f : FlowCounters}

theorem balanced_iff (kind : ReqKind) (ending : Ending) :
    ending.Balanced kind ↔ ending.received = !(doSend kind ending).isSome := by
  cases kind <;> cases ending <;> decide

theorem settle_of_balanced {kind : ReqKind} {ending : Ending} (h : ending.Balanced kind)
    (conn : FlowConn) : f.settle conn kind ending = f.recordComplete (connFlowIdx conn) := by
  rw [balanced_iff] at h
  rw [FlowCounters.settle, h]
  cases (doSend kind ending).isSome <;> rfl

theorem toInt_add_one {a : Int32} (h : a.toInt < 2 ^ 31 - 1) : (a + 1).toInt = a.toInt + 1 := by
  have hlow := a.le_toInt
  rw [Int32.toInt_add]
  exact Int.bmod_eq_of_le (by change _ ≤ a.toInt + 1; omega) (by change a.toInt + 1 < _; omega)

theorem toInt_sub_one {a : Int32} (h : 0 < a.toInt) : (a - 1).toInt = a.toInt - 1 := by
  have hhigh := a.toInt_lt
  rw [Int32.toInt_sub]
  exact Int.bmod_eq_of_le (by change _ ≤ a.toInt - 1; omega) (by change a.toInt - 1 < _; omega)

structure Counts (f : FlowCounters) (inFlight : List (FlowConn × ReqKind)) : Prop where
  conns : ∀ k, (f.conns k).toInt = inFlight.countP fun r => connFlowIdx r.1 = some k
  global : f.global.toInt = inFlight.countP fun r => (connFlowIdx r.1).isSome

theorem sum_countP (l : List (FlowConn × ReqKind)) :
    ∑ k, (l.countP fun r => connFlowIdx r.1 = some k) =
      l.countP fun r => (connFlowIdx r.1).isSome := by
  induction l with
  | nil => simp
  | cons r l ih =>
    simp only [List.countP_cons, Finset.sum_add_distrib, ih]
    cases connFlowIdx r.1 with
    | none => simp
    | some k => simp

theorem Counts.safe (h : Counts s.counters s.inFlight) : FlowSafe s where
  active := h.conns
  nonneg k := by
    rw [h.conns k]
    exact Int.natCast_nonneg _
  global := by
    rw [h.global, ← sum_countP, Nat.cast_sum]
    exact Finset.sum_congr rfl fun k _ => (h.conns k).symm
  idle hidle := by
    have hzero : ∀ a : Int32, a.toInt = 0 → a = 0 := fun a ha => Int32.toInt_inj.mp ha
    refine ⟨hzero _ ?_, fun k => hzero _ ?_⟩
    · rw [h.global, hidle]
      rfl
    · rw [h.conns k, hidle]
      rfl

theorem Counts.start {inFlight : List (FlowConn × ReqKind)} (h : Counts f inFlight)
    (hroom : inFlight.length < 2 ^ 31 - 1) (conn : FlowConn) (kind : ReqKind) :
    Counts (f.recordStart (connFlowIdx conn)) ((conn, kind) :: inFlight) := by
  cases hidx : connFlowIdx conn with
  | none => exact ⟨fun k => by simp [hidx, FlowCounters.recordStart, h.conns k],
      by simp [hidx, FlowCounters.recordStart, h.global]⟩
  | some k =>
    have hglobal := List.countP_le_length (p := fun r => (connFlowIdx r.1).isSome) (l := inFlight)
    have hconn := List.countP_le_length (p := fun r => connFlowIdx r.1 = some k) (l := inFlight)
    refine ⟨fun j => ?_, ?_⟩
    · by_cases hj : j = k
      · subst hj
        have hlt : (f.conns j).toInt < 2 ^ 31 - 1 := by rw [h.conns j]; omega
        simp [hidx, FlowCounters.recordStart, toInt_add_one hlt, h.conns j]
      · have hne : k ≠ j := fun heq => hj heq.symm
        simp [hidx, FlowCounters.recordStart, Function.update_of_ne hj, hne, h.conns j]
    · have hlt : f.global.toInt < 2 ^ 31 - 1 := by rw [h.global]; omega
      simp [hidx, FlowCounters.recordStart, toInt_add_one hlt, h.global]

theorem Counts.complete {inFlight : List (FlowConn × ReqKind)} {conn : FlowConn} {kind : ReqKind}
    (h : Counts f ((conn, kind) :: inFlight)) :
    Counts (f.recordComplete (connFlowIdx conn)) inFlight := by
  cases hidx : connFlowIdx conn with
  | none => exact ⟨fun k => by simpa [hidx, FlowCounters.recordComplete] using h.conns k,
      by simpa [hidx, FlowCounters.recordComplete] using h.global⟩
  | some k =>
    refine ⟨fun j => ?_, ?_⟩
    · have hj := h.conns j
      by_cases hjk : j = k
      · subst hjk
        simp only [List.countP_cons, hidx, decide_true, if_true] at hj
        simp [FlowCounters.recordComplete, toInt_sub_one (a := f.conns j) (by omega), hj]
      · have hne : k ≠ j := fun heq => hjk heq.symm
        simpa [hidx, FlowCounters.recordComplete, Function.update_of_ne hjk, hne] using hj
    · have hglobal := h.global
      simp only [List.countP_cons, hidx, Option.isSome_some, if_true] at hglobal
      simp [FlowCounters.recordComplete, toInt_sub_one (a := f.global) (by omega), hglobal]

theorem Counts.perm {l l' : List (FlowConn × ReqKind)} (h : Counts f l) (hperm : l.Perm l') :
    Counts f l' :=
  ⟨fun k => by rw [h.conns k, hperm.countP_eq], by rw [h.global, hperm.countP_eq]⟩

theorem Counts.step {e : FlowEvent} (h : Counts s.counters s.inFlight) (hok : FlowOk s e)
    (hs : flowExec s e = some s') : Counts s'.counters s'.inFlight := by
  cases e with
  | start conn kind =>
    cases hs
    exact h.start hok conn kind
  | finish i ending =>
    simp only [flowExec] at hs
    split at hs <;> try cases hs
    next conn kind hreq =>
    split at hs
    · cases hs
    · cases hs
      obtain ⟨hi, hget⟩ := List.getElem?_eq_some_iff.mp hreq
      have hperm := List.getElem_cons_eraseIdx_perm hi
      rw [hget] at hperm
      rw [settle_of_balanced (hok _ hreq)]
      exact (h.perm hperm.symm).complete

theorem FlowInit.counts (h : FlowInit s) : Counts s.counters s.inFlight := by
  rw [h.inFlight]
  exact ⟨fun k => by rw [h.conns k]; rfl, by rw [h.global]; rfl⟩

end Invariant

/-- In every run whose endings are balanced the counters say what is in flight. -/
theorem flowSafe_of_flowOk {s : FlowState}
    (h : Runs.Reach (fun s e s' => flowExec s e = some s') FlowOk FlowInit s) : FlowSafe s :=
  (h.invariant (fun _ hinit => hinit.counts) fun _ _ _ hinv hok hs => hinv.step hok hs).safe

def firstFiler : FlowConn := .filer ⟨0, by decide⟩

def noRequests : FlowState := ⟨⟨fun _ => 0, 0⟩, []⟩

theorem noRequests_init : FlowInit noRequests := ⟨fun _ => rfl, rfl, rfl⟩

/-- A synchronous request that times out next to a write that is answered. -/
def balancedRun : List FlowEvent :=
  [.start firstFiler .sync, .start (.volume ⟨3, by decide⟩) .async, .finish 0 .response, .finish 0 .timedOut]

theorem flowSafe_balancedRun : ∃ s, balancedRun.foldlM flowExec noRequests = some s ∧
    FlowSafe s := by
  obtain ⟨s, hrun⟩ : ∃ s, balancedRun.foldlM flowExec noRequests = some s := ⟨_, rfl⟩
  exact ⟨s, hrun, flowSafe_of_flowOk (Runs.Reach.of_run (.start noRequests_init) (by decide) hrun)⟩

/-- A response that does not fit is recorded by the dispatcher and by the submitter. -/
theorem not_flowSafe_runs : ¬ ∀ s,
    Runs.Reach (fun s e s' => flowExec s e = some s') (fun _ _ => True) FlowInit s → FlowSafe s := by
  intro hall
  obtain ⟨s, hrun, hneg⟩ : ∃ s,
      [FlowEvent.start firstFiler .sync, .finish 0 .oversized].foldlM flowExec noRequests
        = some s ∧ s.counters.conns ⟨0, by decide⟩ = -1 := ⟨_, rfl, by decide⟩
  have hsafe := hall s (.run noRequests_init hrun)
  have hnonneg := hsafe.nonneg ⟨0, by decide⟩
  rw [hneg] at hnonneg
  exact absurd hnonneg (by decide)

section LoadFactor

/-- `POWERFS_NET_FLAG_LOAD_FACTOR_GET`. -/
def loadFactorGet (flags : UInt8) : UInt8 := (flags &&& 0xC0) >>> 6

/-- `powerfs_flow_on_load_factor`. -/
def flowOnLoadFactor (stored : Fin flowMaxConns → UInt8) (k : Fin flowMaxConns) (lf : UInt8) :
    Fin flowMaxConns → UInt8 :=
  let lf := min lf 3
  if stored k ≠ lf then Function.update stored k lf else stored

/-- What `pfs_rx_dispatch` does with the flags of a response. -/
def rxLoadFactor (stored : Fin flowMaxConns → UInt8) (r : FlowConn × UInt8) :
    Fin flowMaxConns → UInt8 :=
  let lf := loadFactorGet r.2
  match connFlowIdx r.1 with
  | some k => if 0 < lf then flowOnLoadFactor stored k lf else stored
  | none => stored

/-- The load factors in the responses on a connection. -/
def reported (k : Fin flowMaxConns) (rs : List (FlowConn × UInt8)) : List UInt8 :=
  rs.filterMap fun r => if connFlowIdx r.1 = some k then some (loadFactorGet r.2) else none

variable {k : Fin flowMaxConns}

theorem min_loadFactorGet (flags : UInt8) : min (loadFactorGet flags) 3 = loadFactorGet flags := by
  have hmask : flags.toNat &&& 192 ≤ 192 := Nat.and_le_right
  refine if_pos (UInt8.le_iff_toNat_le.mpr ?_)
  simp [loadFactorGet]
  omega

theorem rxLoadFactor_apply (stored : Fin flowMaxConns → UInt8) (r : FlowConn × UInt8) :
    rxLoadFactor stored r k = if connFlowIdx r.1 = some k ∧ loadFactorGet r.2 ≠ 0 then
      loadFactorGet r.2 else stored k := by
  simp only [rxLoadFactor, flowOnLoadFactor, min_loadFactorGet]
  cases connFlowIdx r.1 with
  | none => simp
  | some j => grind [Function.update_apply]

/-- The stored load factor is the last one that is not 0. -/
theorem stored_spec (rs : List (FlowConn × UInt8)) :
    (rs.foldl rxLoadFactor (fun _ => 0) k = 0 ↔ ∀ lf ∈ reported k rs, lf = 0) ∧
      ((reported k rs).getLastD 0 ≠ 0 →
        rs.foldl rxLoadFactor (fun _ => 0) k = (reported k rs).getLastD 0) := by
  induction rs using List.reverseRecOn with
  | nil => simp [reported]
  | append_singleton rs r ih =>
    rw [List.foldl_append, List.foldl_cons, List.foldl_nil, rxLoadFactor_apply, reported,
      List.filterMap_append, ← reported]
    by_cases hk : connFlowIdx r.1 = some k
    · by_cases hzero : loadFactorGet r.2 = 0
      · simp [hk, hzero, ih.1, or_imp]
      · simp [hk, hzero]
    · simpa [hk] using ih

/-- The stored load factor is that of the last response just if this is not 0, or if no response
has reported any load. -/
theorem storedLoadFactor_eq_iff (rs : List (FlowConn × UInt8)) (k : Fin flowMaxConns) :
    rs.foldl rxLoadFactor (fun _ => 0) k = (reported k rs).getLastD 0 ↔
      (reported k rs).getLastD 0 ≠ 0 ∨ ∀ lf ∈ reported k rs, lf = 0 := by
  obtain ⟨hzero, hlast⟩ := @stored_spec k rs
  by_cases hend : (reported k rs).getLastD 0 = 0
  · rw [hend, hzero]
    simp
  · exact iff_of_true (hlast hend) (.inl hend)

/-- The load that one response reports stays when the next reports none. -/
theorem not_storedLoadFactor_last : ¬ ∀ rs k,
    rs.foldl rxLoadFactor (fun _ => 0) k = (reported k rs).getLastD 0 := by
  intro h
  have hlast := h [(.volume ⟨0, by decide⟩, 0xC0), (.volume ⟨0, by decide⟩, 0)]
    (Fin.natAdd maxFilers ⟨0, by decide⟩)
  exact absurd hlast (by decide)

end LoadFactor

end PowerFS.Net
