import PowerFS.Lib.Runs
import PowerFS.Lib.SearchTree
import PowerFS.Net.Receive

namespace PowerFS.Net

/-! How `pfs_rx_dispatch` finds the request of a response: `powerfs_request_do_send` numbers the
requests of a connection with a 32-bit counter and puts them into `req_tree`, ordered by number. -/

open SearchTree

/-- A connection: `seq_counter`, the numbers of the requests, `req_tree` (whose requests are those
on `pending_reqs`), and the requests that have a number but wait for `req_lock`. -/
structure MatchState where
  counter : Nat
  seq : Nat → Nat
  tree : BinaryTree Nat
  sending : Nat → Bool

/-- The requests that wait for a response. -/
def MatchState.pending (s : MatchState) : List Nat := inorder s.tree

/-- `atomic_inc_return(&conn->seq_counter)` as a `__u32`. -/
def MatchState.nextSeq (s : MatchState) : Nat := (s.counter + 1) % 2 ^ 32

/-- `POWERFS_NET_FLAG_NOTIFY`. -/
def flagNotify : UInt8 := 0x04

/-- What `pfs_rx_dispatch` does with a frame. -/
inductive RxTarget where
  | notification
  | completes (r : Nat)
  | unmatched
  deriving DecidableEq

/-- `pfs_rx_dispatch`. -/
def MatchState.rxDispatch (s : MatchState) (hdr : FrameHdr) : RxTarget :=
  if hdr.flags &&& flagNotify ≠ 0 ∨ hdr.seq = 0 then .notification
  else
    match find s.seq hdr.seq s.tree with
    | some r => .completes r
    | none => .unmatched

/-- `powerfs_req_tree_remove`; how `rb_erase` rebalances is up to `erased`. -/
def reqTreeRemove (tree : BinaryTree Nat) (r : Nat) (erased : BinaryTree Nat) :
    Option (BinaryTree Nat) :=
  if r ∈ inorder tree then
    if inorder erased = (inorder tree).erase r then some erased else none
  else some tree

/-- `powerfs_req_tree_insert`; how `rb_insert_color` rebalances is up to `linked`. -/
def reqTreeInsert (seq : Nat → Nat) (tree : BinaryTree Nat) (r : Nat) (linked : BinaryTree Nat) :
    Option (BinaryTree Nat) :=
  if inorder linked = inorder (insertLeaf seq r tree) then some linked else none

/-- `powerfs_request_do_send` draws a number and then links the request; a frame is received; a
request is taken off by a timeout, a signal or a failed send, or all by a disconnect. The trees are
rebalanced. -/
inductive MatchEvent where
  | assign (r : Nat)
  | link (r : Nat) (erased linked : BinaryTree Nat)
  | receive (hdr : FrameHdr) (erased : BinaryTree Nat)
  | drop (r : Nat) (erased : BinaryTree Nat)
  | disconnect

/-- One event; `none` if it cannot happen. -/
def matchExec (s : MatchState) : MatchEvent → Option MatchState
  | .assign r =>
    if s.sending r then none
    else
      some { s with
        counter := s.nextSeq
        seq := Function.update s.seq r s.nextSeq
        sending := Function.update s.sending r true }
  | .link r erased linked =>
    if s.sending r then
      (reqTreeRemove s.tree r erased).bind fun tree =>
        (reqTreeInsert s.seq tree r linked).map fun tree =>
          { s with tree, sending := Function.update s.sending r false }
    else none
  | .receive hdr erased =>
    match s.rxDispatch hdr with
    | .completes r => (reqTreeRemove s.tree r erased).map fun tree => { s with tree }
    | _ => some s
  | .drop r erased => (reqTreeRemove s.tree r erased).map fun tree => { s with tree }
  | .disconnect => some { s with tree := .nil }

/-- A response with the number of a pending request completes that request, and no pending request
has the number of notifications. -/
def Matching (s : MatchState) : Prop :=
  ∀ r ∈ s.pending, s.seq r ≠ 0 ∧
    ∀ hdr : FrameHdr, hdr.flags &&& flagNotify = 0 → hdr.seq = s.seq r →
      s.rxDispatch hdr = .completes r

/-- A connection after `powerfs_net_init`. -/
structure MatchInit (s : MatchState) : Prop where
  counter : s.counter = 1
  tree : s.tree = .nil

/-- The condition: a request is linked with a number that is not 0 and that no other pending
request has; and a request that is pending draws a new number only if that keeps its place. -/
def MatchOk (s : MatchState) : MatchEvent → Prop
  | .assign r => r ∈ s.pending → s.nextSeq ≠ 0 ∧
      ∀ q ∈ s.pending, q ≠ r →
        s.seq q ≠ s.nextSeq ∧ (s.seq q < s.nextSeq ↔ s.seq q < s.seq r)
  | .link r _ _ => s.seq r ≠ 0 ∧ ∀ q ∈ s.pending, q ≠ r → s.seq q ≠ s.seq r
  | _ => True

instance decidableMatchOk (s : MatchState) : (e : MatchEvent) → Decidable (MatchOk s e)
  | .assign r =>
    inferInstanceAs (Decidable (r ∈ s.pending → s.nextSeq ≠ 0 ∧
      ∀ q ∈ s.pending, q ≠ r →
        s.seq q ≠ s.nextSeq ∧ (s.seq q < s.nextSeq ↔ s.seq q < s.seq r)))
  | .link r _ _ =>
    inferInstanceAs (Decidable (s.seq r ≠ 0 ∧ ∀ q ∈ s.pending, q ≠ r → s.seq q ≠ s.seq r))
  | .receive _ _ | .drop _ _ | .disconnect => inferInstanceAs (Decidable True)

/-- Every request is in the tree once. -/
def MatchState.Once (s : MatchState) : Prop := s.pending.Nodup

/-- The tree is a search tree without double numbers, and has no number 0. -/
structure Ordered (s : MatchState) : Prop where
  sorted : Sorted s.seq s.pending
  nonzero : ∀ r ∈ s.pending, s.seq r ≠ 0

variable {s s' : MatchState}

theorem rxDispatch_response {hdr : FrameHdr} {r : Nat} (hflag : hdr.flags &&& flagNotify = 0)
    (hseq : hdr.seq = s.seq r) (hne : s.seq r ≠ 0) :
    s.rxDispatch hdr = .completes r ↔ find s.seq (s.seq r) s.tree = some r := by
  have hnot : ¬ (hdr.flags &&& flagNotify ≠ 0 ∨ hdr.seq = 0) := by
    rw [hflag, hseq]
    simpa using hne
  rw [MatchState.rxDispatch, if_neg hnot, hseq]
  cases find s.seq (s.seq r) s.tree with
  | none => simp
  | some q => simp

theorem matching_iff_ordered (honce : s.Once) : Matching s ↔ Ordered s := by
  constructor
  · intro h
    refine ⟨(find_iff_sorted honce).mp fun r hr => ?_, fun r hr => (h r hr).1⟩
    obtain ⟨hne, hmatch⟩ := h r hr
    have hflag : (0 : UInt8) &&& flagNotify = 0 := by decide
    have hhdr := hmatch ⟨0, s.seq r, 0, 0, 0, 0, 0, 0⟩ hflag rfl
    exact (rxDispatch_response hflag rfl hne).mp hhdr
  · intro h r hr
    refine ⟨h.nonzero r hr, fun hdr hflag hseq => ?_⟩
    exact (rxDispatch_response hflag hseq (h.nonzero r hr)).mpr (find_of_sorted h.sorted hr)

theorem reqTreeRemove_inorder {tree erased tree' : BinaryTree Nat} {r : Nat}
    (h : reqTreeRemove tree r erased = some tree') : inorder tree' = (inorder tree).erase r := by
  rw [reqTreeRemove] at h
  split_ifs at h with hmem heq
  · cases h
    exact heq
  · cases h
    rw [List.erase_of_not_mem hmem]

theorem reqTreeInsert_inorder {seq : Nat → Nat} {tree linked tree' : BinaryTree Nat} {r : Nat}
    (h : reqTreeInsert seq tree r linked = some tree') :
    inorder tree' = inorder (insertLeaf seq r tree) := by
  rw [reqTreeInsert] at h
  split_ifs at h with heq
  cases h
  exact heq

/-- What an event does to the numbers and to the pending requests. -/
inductive MatchCase (s s' : MatchState) : MatchEvent → Prop
  | numbered {r : Nat} (hpending : s'.pending = s.pending)
      (hseq : s'.seq = Function.update s.seq r s.nextSeq) : MatchCase s s' (.assign r)
  | linked {r : Nat} {erased linked tree : BinaryTree Nat}
      (htree : inorder tree = s.pending.erase r)
      (hpending : s'.pending = inorder (insertLeaf s.seq r tree)) (hseq : s'.seq = s.seq) :
      MatchCase s s' (.link r erased linked)
  | removed {e : MatchEvent} (hok : MatchOk s e) (hpending : s'.pending.Sublist s.pending)
      (hseq : s'.seq = s.seq) : MatchCase s s' e

theorem matchExec_case {e : MatchEvent} (h : matchExec s e = some s') : MatchCase s s' e := by
  have hremove {e : MatchEvent} {r : Nat} {erased : BinaryTree Nat} (hok : MatchOk s e)
      (h : ((reqTreeRemove s.tree r erased).map fun tree => { s with tree }) = some s') :
      MatchCase s s' e := by
    obtain ⟨tree, htree, rfl⟩ := Option.map_eq_some_iff.mp h
    refine .removed hok ?_ rfl
    show (inorder tree).Sublist s.pending
    rw [reqTreeRemove_inorder htree]
    exact List.erase_sublist
  cases e with
  | assign r =>
    rw [matchExec] at h
    split_ifs at h
    cases h
    exact .numbered rfl rfl
  | link r erased linked =>
    rw [matchExec] at h
    split_ifs at h
    obtain ⟨tree, htree, h⟩ := Option.bind_eq_some_iff.mp h
    obtain ⟨tree', htree', rfl⟩ := Option.map_eq_some_iff.mp h
    exact .linked (reqTreeRemove_inorder htree) (reqTreeInsert_inorder htree') rfl
  | receive hdr erased =>
    rw [matchExec] at h
    split at h
    · exact hremove trivial h
    · cases h
      exact .removed trivial (List.Sublist.refl _) rfl
  | drop r erased => exact hremove trivial h
  | disconnect =>
    cases h
    exact .removed trivial (List.nil_sublist _) rfl

theorem MatchState.Once.step {e : MatchEvent} (honce : s.Once) (h : matchExec s e = some s') :
    s'.Once := by
  rw [MatchState.Once] at honce ⊢
  cases matchExec_case h with
  | numbered hpending hseq => rwa [hpending]
  | @linked r erased linked tree htree hpending hseq =>
    rw [hpending, (inorder_insertLeaf s.seq r tree).nodup_iff, htree, List.nodup_cons]
    exact ⟨honce.not_mem_erase, honce.erase r⟩
  | removed hok hpending hseq => exact honce.sublist hpending

theorem ordered_assign_iff {r : Nat} (hord : Ordered s) (hpending : s'.pending = s.pending)
    (hseq : s'.seq = Function.update s.seq r s.nextSeq) :
    Ordered s' ↔ MatchOk s (.assign r) := by
  have hother : ∀ q, q ≠ r → s'.seq q = s.seq q := by
    intro q hq
    rw [hseq, Function.update_of_ne hq]
  by_cases hr : r ∈ s.pending
  · have hsorted := sorted_update_iff (k := s.nextSeq) hord.sorted hr
    constructor
    · rintro ⟨hsorted', hnonzero'⟩ -
      rw [hseq, hpending] at hsorted'
      refine ⟨?_, hsorted.mp hsorted'⟩
      simpa [hseq] using hnonzero' r (hpending ▸ hr)
    · intro hok
      obtain ⟨hne, hplace⟩ := hok hr
      refine ⟨by rw [hseq, hpending]; exact hsorted.mpr hplace, fun q hq => ?_⟩
      by_cases hqr : q = r
      · rw [hqr, hseq, Function.update_self]
        exact hne
      · rw [hother q hqr]
        exact hord.nonzero q (hpending ▸ hq)
  · refine iff_of_true ⟨?_, fun q hq => ?_⟩ fun h => absurd h hr
    · rw [hpending]
      refine hord.sorted.imp_of_mem fun hq hq' hlt => ?_
      rwa [hother _ fun h => hr (h ▸ hq), hother _ fun h => hr (h ▸ hq')]
    · rw [hpending] at hq
      rw [hother q fun h => hr (h ▸ hq)]
      exact hord.nonzero q hq

theorem ordered_link_iff {r : Nat} {erased linked tree : BinaryTree Nat} (honce : s.Once)
    (hord : Ordered s) (htree : inorder tree = s.pending.erase r)
    (hpending : s'.pending = inorder (insertLeaf s.seq r tree)) (hseq : s'.seq = s.seq) :
    Ordered s' ↔ MatchOk s (.link r erased linked) := by
  have hsorted : Sorted s.seq (inorder tree) := by
    rw [htree]
    exact hord.sorted.sublist List.erase_sublist
  have hmem : ∀ q, q ∈ inorder tree ↔ q ≠ r ∧ q ∈ s.pending := by
    intro q
    rw [htree]
    exact List.Nodup.mem_erase_iff honce
  have hmem' : ∀ q, q ∈ s'.pending ↔ q = r ∨ q ∈ inorder tree := by
    intro q
    rw [hpending, (inorder_insertLeaf s.seq r tree).mem_iff, List.mem_cons]
  constructor
  · rintro ⟨hsorted', hnonzero'⟩
    rw [hseq, hpending, sorted_insertLeaf_iff hsorted] at hsorted'
    refine ⟨?_, fun q hq hne => hsorted' q ((hmem q).mpr ⟨hne, hq⟩)⟩
    simpa [hseq] using hnonzero' r ((hmem' r).mpr (.inl rfl))
  · rintro ⟨hne, hnew⟩
    refine ⟨?_, fun q hq => ?_⟩
    · rw [hseq, hpending, sorted_insertLeaf_iff hsorted]
      intro q hq
      obtain ⟨hqr, hq⟩ := (hmem q).mp hq
      exact hnew q hq hqr
    · rw [hseq]
      obtain rfl | hq := (hmem' q).mp hq
      · exact hne
      · exact hord.nonzero q ((hmem q).mp hq).2

theorem ordered_step_iff {e : MatchEvent} (honce : s.Once) (hord : Ordered s)
    (h : matchExec s e = some s') : Ordered s' ↔ MatchOk s e := by
  cases matchExec_case h with
  | numbered hpending hseq => exact ordered_assign_iff hord hpending hseq
  | linked htree hpending hseq => exact ordered_link_iff honce hord htree hpending hseq
  | removed hok hpending hseq =>
    refine iff_of_true ⟨?_, fun r hr => ?_⟩ hok
    · rw [hseq]
      exact hord.sorted.sublist hpending
    · rw [hseq]
      exact hord.nonzero r (hpending.subset hr)

theorem MatchInit.ordered (h : MatchInit s) : s.Once ∧ Ordered s := by
  have hnil : s.pending = [] := by rw [MatchState.pending, h.tree]; rfl
  refine ⟨by rw [MatchState.Once, hnil]; exact List.nodup_nil, ?_, ?_⟩
  · rw [hnil]
    exact List.Pairwise.nil
  · rw [hnil]
    intro r hr
    cases hr

/-- In every history in which requests are linked with a new number other than 0, and none is
numbered again out of its place, responses find their requests. The condition is exact. -/
theorem matching_of_matchOk (s : MatchState)
    (h : Runs.Reach (fun s e s' => matchExec s e = some s') MatchOk MatchInit s) :
    Matching s ∧ ∀ e s', matchExec s e = some s' → (Matching s' ↔ MatchOk s e) := by
  obtain ⟨honce, hord⟩ : s.Once ∧ Ordered s := by
    refine h.invariant (fun _ hinit => hinit.ordered) fun s e s' hinv hok hs => ?_
    exact ⟨hinv.1.step hs, (ordered_step_iff hinv.1 hinv.2 hs).mpr hok⟩
  refine ⟨(matching_iff_ordered honce).mpr hord, fun e s' hs => ?_⟩
  rw [matching_iff_ordered (honce.step hs)]
  exact ordered_step_iff honce hord hs

def newMatch : MatchState := ⟨1, fun _ => 0, .nil, fun _ => false⟩

theorem newMatch_init : MatchInit newMatch := ⟨rfl, rfl⟩

def twoRequests : List MatchEvent :=
  [.assign 7, .link 7 .nil (.node 7 .nil .nil), .assign 8,
    .link 8 .nil (.node 7 .nil (.node 8 .nil .nil)),
    .receive ⟨2, 3, 0, 0, 0, 0, 0, 0⟩ (.node 7 .nil .nil)]

theorem matching_of_matchOk_twoRequests :
    ∃ s, twoRequests.foldlM matchExec newMatch = some s ∧ s.pending = [7] ∧ Matching s := by
  have hok : Runs.OkAlong matchExec MatchOk newMatch twoRequests := by decide
  exact ⟨_, rfl, rfl, (matching_of_matchOk _ (.of_run (.start newMatch_init) hok rfl)).1⟩

/-- Some history leads to this state. -/
def MatchState.Reachable (s : MatchState) : Prop :=
  Runs.Reach (fun s e s' => matchExec s e = some s') (fun _ _ => True) MatchInit s

/-- The request 0 is numbered and linked. -/
def MatchState.sent (s : MatchState) : MatchState where
  counter := s.nextSeq
  seq := Function.update s.seq 0 s.nextSeq
  tree := .node 0 .nil .nil
  sending := Function.update (Function.update s.sending 0 true) 0 false

theorem MatchState.Reachable.sent (h : s.Reachable) (htree : s.tree = .nil)
    (hidle : s.sending 0 = false) : s.sent.Reachable := by
  let s₁ : MatchState := { s with
    counter := s.nextSeq
    seq := Function.update s.seq 0 s.nextSeq
    sending := Function.update s.sending 0 true }
  have hassign : matchExec s (.assign 0) = some s₁ := by simp [matchExec, hidle, s₁]
  have hlink : matchExec s₁ (.link 0 .nil (.node 0 .nil .nil)) = some s.sent := by
    simp [matchExec, reqTreeRemove, reqTreeInsert, insertLeaf, inorder, htree, s₁,
      MatchState.sent]
  exact (Runs.Reach.next h trivial hassign).next trivial hlink

theorem MatchState.Reachable.answered (h : s.sent.Reachable) (hne : s.nextSeq ≠ 0) :
    ({ s.sent with tree := .nil } : MatchState).Reachable := by
  have hflag : ¬ ((2 : UInt8) &&& flagNotify ≠ 0) := by decide
  have hfind : s.sent.rxDispatch ⟨2, s.nextSeq, 0, 0, 0, 0, 0, 0⟩ = .completes 0 := by
    simp [MatchState.rxDispatch, hflag, hne, find, MatchState.sent]
  have hreceive : matchExec s.sent (.receive ⟨2, s.nextSeq, 0, 0, 0, 0, 0, 0⟩ .nil) =
      some { s.sent with tree := .nil } := by
    rw [matchExec, hfind]
    rfl
  exact Runs.Reach.next h trivial hreceive

theorem exists_counter_eq (n : Nat) (hn : n + 1 < 2 ^ 32) :
    ∃ s : MatchState, s.Reachable ∧ s.counter = n + 1 ∧ s.tree = .nil ∧ s.sending 0 = false := by
  induction n with
  | zero => exact ⟨newMatch, .start newMatch_init, rfl, rfl, rfl⟩
  | succ n ih =>
    obtain ⟨s, hs, hcounter, htree, hidle⟩ := ih (by omega)
    have hnext : s.nextSeq = n + 2 := by
      rw [MatchState.nextSeq, hcounter]
      exact Nat.mod_eq_of_lt hn
    refine ⟨{ s.sent with tree := .nil }, (hs.sent htree hidle).answered (by omega), hnext, rfl, ?_⟩
    simp [MatchState.sent]

/-- After 2³² − 2 requests, each answered before the next, the next one gets the number 0; its
response is taken for a notification. -/
theorem not_matching_wrapped :
    ∃ s, Runs.Reach (fun s e s' => matchExec s e = some s') (fun _ _ => True) MatchInit s ∧
      s.pending = [0] ∧ s.seq 0 = 0 ∧
      s.rxDispatch ⟨2, 0, 0, 0, 0, 0, 0, 0⟩ = .notification ∧ ¬ Matching s := by
  obtain ⟨s, hs, hcounter, htree, hidle⟩ := exists_counter_eq (2 ^ 32 - 2) (by omega)
  have hzero : s.sent.seq 0 = 0 := by
    simp [MatchState.sent, MatchState.nextSeq, hcounter]
  refine ⟨s.sent, hs.sent htree hidle, rfl, hzero, rfl, fun h => ?_⟩
  exact (h 0 List.mem_cons_self).1 hzero

end PowerFS.Net
