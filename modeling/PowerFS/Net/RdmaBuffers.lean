import PowerFS.Lib.Runs
import PowerFS.Net.Receive
import Mathlib.Data.List.Nodup

namespace PowerFS.Net

/-! The buffers and the send credits of one RDMA connection: `powerfs_rdma_post_recv`,
`powerfs_rdma_process_wc`, `powerfs_rdma_send_frame` and `powerfs_rdma_recv_frame`. -/

/-- The pools of a connection; `pool_idx` of an entry. -/
inductive PoolIdx where
  | ctrl
  | data
  deriving DecidableEq

/-- `struct powerfs_rdma_mr_entry`. -/
structure MrEntry where
  pool : PoolIdx
  id : Nat
  deriving DecidableEq

/-- `struct powerfs_rdma_mr_pool`. -/
structure MrPool where
  freeList : List MrEntry
  free : Nat

/-- `powerfs_rdma_mr_pool_init`. -/
def MrPool.init (idx : PoolIdx) (n : Nat) : MrPool := ⟨(List.range n).map (MrEntry.mk idx), n⟩

/-- `powerfs_rdma_mr_pool_acquire`. -/
def MrPool.acquire (p : MrPool) : Option MrEntry × MrPool :=
  if p.free = 0 then (none, p)
  else
    match p.freeList with
    | e :: rest => (some e, ⟨rest, p.free - 1⟩)
    | [] => (none, p)

/-- `powerfs_rdma_mr_pool_release`. -/
def MrPool.release (p : MrPool) (e : MrEntry) : MrPool := ⟨p.freeList ++ [e], p.free + 1⟩

/-- `PFS_RDMA_MAX_SEND_WR`. -/
def maxSendWr : Nat := 64

/-- `PFS_RDMA_CTRL_BUF_SIZE` and `PFS_RDMA_CTRL_BUF_NUM`. -/
def ctrlBufSize : Nat := 65536

def ctrlBufNum : Nat := 128

/-- `PFS_RDMA_DATA_BUF_SIZE` and `PFS_RDMA_DATA_BUF_NUM`. -/
def dataBufSize : Nat := 2 * 1024 * 1024

def dataBufNum : Nat := 48

/-- `pool->buf_size`. -/
def PoolIdx.bufSize : PoolIdx → Nat
  | .ctrl => ctrlBufSize
  | .data => dataBufSize

/-- `struct powerfs_rdma_conn`. The entries in `postedRecv` and `postedSend` are in the queue pair,
and so is the request of the handshake if `hsPosted`. -/
structure RdmaConn where
  ctrlPool : MrPool
  dataPool : MrPool
  postedRecv : List MrEntry
  postedSend : List MrEntry
  hsPosted : Bool
  rxDone : List MrEntry
  sendCredits : Nat
  qp : Bool
  connected : Bool
  errored : Bool
  hsStarted : Bool
  handshake : Bool
  hsSendHandled : Bool
  hsRecvHandled : Bool

/-- The result of `ib_post_recv` or `ib_post_send`. -/
abbrev PostResult := Except Errno Unit

namespace RdmaConn

def pool (s : RdmaConn) : PoolIdx → MrPool
  | .ctrl => s.ctrlPool
  | .data => s.dataPool

def setPool (s : RdmaConn) (p : MrPool) : PoolIdx → RdmaConn
  | .ctrl => { s with ctrlPool := p }
  | .data => { s with dataPool := p }

/-- A `powerfs_rdma_mr_pool_release` to the pool of the entry, `pfs_mr_entry_pool`. -/
def release (s : RdmaConn) (e : MrEntry) : RdmaConn :=
  s.setPool ((s.pool e.pool).release e) e.pool

def releaseAny (s : RdmaConn) : Option MrEntry → RdmaConn
  | some e => s.release e
  | none => s

def addCredit (s : RdmaConn) : RdmaConn := { s with sendCredits := s.sendCredits + 1 }

/-- `powerfs_rdma_post_recv`; `post` is the result of `ib_post_recv`. -/
def postRecv (s : RdmaConn) (post : PostResult) : Except Errno Unit × RdmaConn :=
  match s.dataPool.acquire, post with
  | (none, dataPool), _ => (.error .enomem, { s with dataPool })
  | (some e, dataPool), .ok () =>
    (.ok (), { s with dataPool, postedRecv := s.postedRecv ++ [e] })
  | (some e, dataPool), .error err =>
    (.error err, { s with dataPool, ctrlPool := s.ctrlPool.release e })

def repost (s : RdmaConn) (post : PostResult) : RdmaConn :=
  if s.qp && !s.errored then (s.postRecv post).2 else s

end RdmaConn

/-- `struct ib_wc`: whether the status is `IB_WC_SUCCESS`, whether the opcode has `IB_WC_RECV`, and
the length. -/
structure WorkCompletion where
  success : Bool
  recv : Bool
  byteLen : Nat

/-- `powerfs_rdma_process_wc` during the handshake. There is no entry in the completion of its
request. -/
def handshakeWc (s : RdmaConn) (e : Option MrEntry) (wc : WorkCompletion) (post : PostResult) :
    RdmaConn :=
  if !wc.success then { s with errored := true }.releaseAny e
  else if wc.recv then
    if s.hsRecvHandled then s
    else ({ s with hsRecvHandled := true }.releaseAny e).repost post
  else
    if s.hsSendHandled then s
    else { (s.releaseAny e).addCredit with hsSendHandled := true }

/-- `powerfs_rdma_process_wc` at other times. -/
def frameWc (s : RdmaConn) (e : Option MrEntry) (wc : WorkCompletion) (post : PostResult) :
    RdmaConn :=
  if !wc.success then
    let s' := { s with errored := true }.releaseAny e
    if wc.recv then s' else s'.addCredit
  else if wc.recv then
    if wc.byteLen < hdrSize then (s.releaseAny e).repost post
    else { s with rxDone := s.rxDone ++ e.toList }
  else (s.releaseAny e).addCredit

/-- `powerfs_rdma_process_wc`. -/
def processWc (s : RdmaConn) (e : Option MrEntry) (wc : WorkCompletion) (post : PostResult) :
    RdmaConn :=
  if s.handshake then handshakeWc s e wc post else frameWc s e wc post

/-- `powerfs_rdma_send_frame` of a frame of `total` bytes; `post` is the result of
`ib_post_send`. -/
def rdmaSendFrame (s : RdmaConn) (total : Nat) (post : PostResult) :
    Except Errno Unit × RdmaConn :=
  if !s.connected || s.errored then (.error .enotconn, s)
  else if maxFrame < total then (.error .emsgsize, s)
  else
    let idx : PoolIdx := if ctrlBufSize < total then .data else .ctrl
    if idx.bufSize < total then (.error .emsgsize, s)
    else if s.sendCredits = 0 then (.error .eagain, s)
    else
      match (s.pool idx).acquire with
      | (none, p) => (.error .eagain, s.setPool p idx)
      | (some e, p) =>
        match post with
        | .ok () =>
          (.ok (), { s.setPool p idx with
            sendCredits := s.sendCredits - 1
            postedSend := s.postedSend ++ [e] })
        | .error err => (.error err, { s.setPool (p.release e) idx with errored := true })

/-- `powerfs_rdma_recv_frame`; `parsed` is what the checks of the frame give, and `post` the result
of `ib_post_recv`. -/
def rdmaRecvFrame (s : RdmaConn) (parsed : Except Errno Unit) (post : PostResult) :
    Except Errno Unit × RdmaConn :=
  if s.errored then (.error .enotconn, s)
  else
    match s.rxDone with
    | [] => (.error .eagain, s)
    | e :: rest =>
      match post with
      | .ok () => (parsed, { s with rxDone := rest, postedRecv := s.postedRecv ++ [e] })
      | .error _ =>
        (match parsed with | .ok () => .error .eio | .error err => .error err,
          { { s with rxDone := rest }.release e with errored := true })

inductive WorkRequest where
  | recv (i : Nat)
  | send (i : Nat)
  | handshake

/-- How a work request ends. The opcode of a completion with an error is not valid, so that it may
be any. -/
inductive WcStatus where
  | success (byteLen : Nat)
  | error (recv : Bool)

def WcStatus.wc (recv : Bool) : WcStatus → WorkCompletion
  | .success byteLen => ⟨true, recv, byteLen⟩
  | .error recv => ⟨false, recv, 0⟩

inductive RdmaEvent where
  | postRecv (post : PostResult)
  /-- The request of the handshake in `powerfs_rdma_connect`. -/
  | startHandshake (post : PostResult)
  | connected
  | send (total : Nat) (post : PostResult)
  | recv (parsed : Except Errno Unit) (post : PostResult)
  | complete (wr : WorkRequest) (status : WcStatus) (post : PostResult)
  /-- An event of the connection manager. -/
  | cmError
  /-- The queue pair is destroyed, by `powerfs_rdma_disconnect` or after a failed connect. What is
  posted still completes. -/
  | destroyQp

def rdmaExec (s : RdmaConn) : RdmaEvent → Option RdmaConn
  | .postRecv post => if s.qp then some (s.postRecv post).2 else none
  | .startHandshake post =>
    if s.hsStarted || s.hsPosted || !s.qp then none
    else
      let s' := { s with
        hsStarted := true, handshake := true, hsSendHandled := false, hsRecvHandled := false }
      if s.sendCredits = 0 then some { s' with handshake := false }
      else if post.isOk then some { s' with sendCredits := s.sendCredits - 1, hsPosted := true }
      else some { s' with handshake := false }
  | .connected =>
    if s.handshake && !s.errored then some { s with handshake := false, connected := true } else none
  | .send total post => some (rdmaSendFrame s total post).2
  | .recv parsed post => some (rdmaRecvFrame s parsed post).2
  | .complete (.recv i) status post =>
    s.postedRecv[i]?.map fun e =>
      processWc { s with postedRecv := s.postedRecv.eraseIdx i } (some e) (status.wc true) post
  | .complete (.send i) status post =>
    s.postedSend[i]?.map fun e =>
      processWc { s with postedSend := s.postedSend.eraseIdx i } (some e) (status.wc false) post
  | .complete .handshake status post =>
    if s.hsPosted then some (processWc { s with hsPosted := false } none (status.wc false) post)
    else none
  | .cmError => some { s with errored := true, connected := false }
  | .destroyQp =>
    some { s with qp := false, errored := true, connected := false, handshake := false }

def allEntries : List MrEntry :=
  (MrPool.init .ctrl ctrlBufNum).freeList ++ (MrPool.init .data dataBufNum).freeList

def RdmaConn.places (s : RdmaConn) : List MrEntry :=
  s.ctrlPool.freeList ++ s.dataPool.freeList ++ s.postedRecv ++ s.postedSend ++ s.rxDone

def RdmaConn.inFlight (s : RdmaConn) : Nat := s.postedSend.length + s.hsPosted.toNat

/-- The free list has entries of its own pool, and its length is the count. -/
structure MrPool.Ok (p : MrPool) (idx : PoolIdx) : Prop where
  own : ∀ e ∈ p.freeList, e.pool = idx
  free : p.free = p.freeList.length

/-- Each entry is in exactly one place, and a free one in its own pool; the counts are those of the
free lists; and credits and sends in flight add up. -/
structure RdmaConserved (s : RdmaConn) : Prop where
  places : s.places.Perm allEntries
  ctrl : s.ctrlPool.Ok .ctrl
  data : s.dataPool.Ok .data
  credits : s.sendCredits + s.inFlight = maxSendWr

/-- After the pools have been filled. -/
def RdmaConn.init : RdmaConn where
  ctrlPool := .init .ctrl ctrlBufNum
  dataPool := .init .data dataBufNum
  postedRecv := []
  postedSend := []
  hsPosted := false
  rxDone := []
  sendCredits := maxSendWr
  qp := true
  connected := false
  errored := false
  hsStarted := false
  handshake := false
  hsSendHandled := false
  hsRecvHandled := false

/-- A post of a buffer of the data pool does not fail. -/
def PostOk (s : RdmaConn) (post : PostResult) : Prop :=
  post.isOk = true ∨ s.dataPool.freeList = []

/-- The post after the completion of a receive with the entry `e`. -/
def RepostOk (s : RdmaConn) (e : MrEntry) (post : PostResult) : Prop :=
  s.qp = true → s.errored = false → PostOk (s.release e) post

/-- The condition on the completion of a receive with the entry `e`. -/
def RecvDoneOk (s : RdmaConn) (e : MrEntry) (post : PostResult) : WcStatus → Prop
  | .success byteLen =>
    if s.handshake then s.hsRecvHandled = false ∧ RepostOk s e post
    else byteLen < hdrSize → RepostOk s e post
  | .error recv => s.handshake = false → recv = true

def SendDoneOk (s : RdmaConn) : WcStatus → Prop
  | .success _ => s.handshake = true → s.hsSendHandled = false
  | .error recv => s.handshake = false ∧ recv = false

def RdmaOk (s : RdmaConn) : RdmaEvent → Prop
  | .postRecv post => PostOk s post
  | .complete (.recv i) status post => ∀ e ∈ s.postedRecv[i]?, RecvDoneOk s e post status
  | .complete (.send _) status _ | .complete .handshake status _ => SendDoneOk s status
  | _ => True

/-- The state while a function has entries in its hands and owes credits. -/
structure Balanced (s : RdmaConn) (hand : List MrEntry) (owed : Int) : Prop where
  places : (s.places ++ hand).Perm allEntries
  ctrl : s.ctrlPool.Ok .ctrl
  data : s.dataPool.Ok .data
  credits : (s.sendCredits + s.inFlight : Int) + owed = maxSendWr

section Pools

variable {p : MrPool} {idx : PoolIdx}

theorem MrPool.Ok.release {e : MrEntry} (h : p.Ok idx) (he : e.pool = idx) :
    (p.release e).Ok idx where
  own x hx := by
    obtain hx | hx := List.mem_append.mp hx
    · exact h.own x hx
    · rw [List.mem_singleton.mp hx, he]
  free := by
    show p.free + 1 = (p.freeList ++ [e]).length
    rw [h.free, List.length_append, List.length_singleton]

theorem MrPool.Ok.acquire (h : p.Ok idx) :
    (∃ e rest, p.freeList = e :: rest ∧ e.pool = idx ∧
      p.acquire = (some e, ⟨rest, rest.length⟩) ∧ (MrPool.mk rest rest.length).Ok idx) ∨
    (p.freeList = [] ∧ p.acquire = (none, p)) := by
  unfold MrPool.acquire
  cases hlist : p.freeList with
  | nil =>
    refine .inr ⟨rfl, ?_⟩
    rw [if_pos (by rw [h.free, hlist]; rfl)]
  | cons e rest =>
    refine .inl ⟨e, rest, rfl, h.own e (by rw [hlist]; exact List.mem_cons_self), ?_, ?_⟩
    · have hfree : p.free = rest.length + 1 := by rw [h.free, hlist]; rfl
      rw [hfree]
      rfl
    · refine ⟨fun x hx => h.own x ?_, rfl⟩
      rw [hlist]
      exact List.mem_cons_of_mem _ hx

end Pools

section Step

variable {s : RdmaConn} {hand : List MrEntry} {owed : Int} {e : MrEntry}

theorem RdmaConserved.balanced (h : RdmaConserved s) : Balanced s [] 0 where
  places := by
    rw [List.append_nil]
    exact h.places
  ctrl := h.ctrl
  data := h.data
  credits := by
    have hcredits := h.credits
    omega

theorem Balanced.conserved_iff (h : Balanced s hand owed) :
    RdmaConserved s ↔ hand = [] ∧ owed = 0 := by
  have hcredits := h.credits
  constructor
  · intro h'
    have hlen := h.places.length_eq
    have hcredits' := h'.credits
    rw [List.length_append, h'.places.length_eq] at hlen
    exact ⟨List.eq_nil_of_length_eq_zero (by omega), by omega⟩
  · rintro ⟨rfl, rfl⟩
    have hplaces := h.places
    rw [List.append_nil] at hplaces
    exact ⟨hplaces, h.ctrl, h.data, by omega⟩

theorem Balanced.conserved (h : Balanced s [] 0) : RdmaConserved s :=
  h.conserved_iff.mpr ⟨rfl, rfl⟩

theorem Balanced.release (h : Balanced s (e :: hand) owed) : Balanced (s.release e) hand owed := by
  have hperm : ((s.release e).places ++ hand).Perm (s.places ++ e :: hand) := by
    rw [List.perm_iff_count]
    intro x
    obtain ⟨_ | _, id⟩ := e
    all_goals
      simp only [RdmaConn.release, RdmaConn.setPool, RdmaConn.pool, RdmaConn.places,
        MrPool.release, List.count_append, List.count_cons, List.count_nil]
      omega
  obtain ⟨_ | _, id⟩ := e
  · exact ⟨hperm.trans h.places, h.ctrl.release rfl, h.data, h.credits⟩
  · exact ⟨hperm.trans h.places, h.ctrl, h.data.release rfl, h.credits⟩

theorem Balanced.releaseAny {e : Option MrEntry} (h : Balanced s e.toList owed) :
    Balanced (s.releaseAny e) [] owed := by
  cases e with
  | none => exact h
  | some e => exact h.release

theorem Balanced.addCredit (h : Balanced s hand owed) : Balanced s.addCredit hand (owed - 1) := by
  refine ⟨h.places, h.ctrl, h.data, ?_⟩
  have hcredits := h.credits
  show ((s.sendCredits + 1 : Nat) + s.inFlight : Int) + (owed - 1) = maxSendWr
  omega

variable {post : PostResult}

theorem Balanced.postRecv (h : Balanced s hand owed) (hok : PostOk s post) :
    Balanced (s.postRecv post).2 hand owed := by
  unfold RdmaConn.postRecv
  obtain ⟨e, rest, hlist, -, hacquire, hpool⟩ | ⟨hlist, hacquire⟩ := h.data.acquire
  · rw [hacquire]
    obtain hpost | hempty := hok
    · cases post with
      | error err => cases hpost
      | ok u =>
        refine ⟨.trans ?_ h.places, h.ctrl, hpool, h.credits⟩
        rw [List.perm_iff_count]
        intro x
        simp only [RdmaConn.places, hlist, List.count_append, List.count_cons, List.count_nil]
        omega
    · rw [hlist] at hempty
      cases hempty
  · rw [hacquire]
    exact h

theorem Balanced.not_conserved_postRecv (h : Balanced s hand owed)
    (hbad : ¬ PostOk s post) : ¬ RdmaConserved (s.postRecv post).2 := by
  intro h'
  unfold RdmaConn.postRecv at h'
  obtain ⟨e, rest, hlist, hdata, hacquire, -⟩ | ⟨hlist, -⟩ := h.data.acquire
  · rw [hacquire] at h'
    cases post with
    | ok u => exact hbad (.inl rfl)
    | error err =>
      have hctrl := h'.ctrl.own e (List.mem_append_right _ List.mem_cons_self)
      rw [hdata] at hctrl
      cases hctrl
  · exact hbad (.inr hlist)

theorem Balanced.postRecv_iff (h : Balanced s [] 0) :
    RdmaConserved (s.postRecv post).2 ↔ PostOk s post := by
  constructor
  · intro h'
    by_contra hbad
    exact h.not_conserved_postRecv hbad h'
  · intro hok
    exact (h.postRecv hok).conserved

theorem Balanced.repost_iff (h : Balanced s [] 0) :
    RdmaConserved (s.repost post) ↔ (s.qp = true → s.errored = false → PostOk s post) := by
  unfold RdmaConn.repost
  cases hqp : s.qp <;> cases herr : s.errored
  · exact iff_of_true h.conserved (fun hif => by cases hif)
  · exact iff_of_true h.conserved (fun hif => by cases hif)
  · exact h.postRecv_iff.trans ⟨fun hok _ _ => hok, fun hok => hok rfl rfl⟩
  · exact iff_of_true h.conserved (fun _ hif => by cases hif)

theorem release_flags (s : RdmaConn) (e : MrEntry) :
    (s.release e).qp = s.qp ∧ (s.release e).errored = s.errored := by
  obtain ⟨_ | _, id⟩ := e <;> exact ⟨rfl, rfl⟩

theorem Balanced.release_repost_iff (h : Balanced s [e] 0) :
    RdmaConserved ((s.release e).repost post) ↔ RepostOk s e post := by
  obtain ⟨hqp, herr⟩ := release_flags s e
  refine h.release.repost_iff.trans ?_
  rw [hqp, herr]
  rfl

theorem Balanced.errored (h : Balanced s hand owed) : Balanced { s with errored := true } hand owed :=
  ⟨h.places, h.ctrl, h.data, h.credits⟩

theorem Balanced.hsRecvHandled (h : Balanced s hand owed) :
    Balanced { s with hsRecvHandled := true } hand owed :=
  ⟨h.places, h.ctrl, h.data, h.credits⟩

theorem Balanced.hsSendHandled (h : Balanced s hand owed) :
    Balanced { s with hsSendHandled := true } hand owed :=
  ⟨h.places, h.ctrl, h.data, h.credits⟩

theorem Balanced.queue (h : Balanced s (e :: hand) owed) :
    Balanced { s with rxDone := s.rxDone ++ [e] } hand owed := by
  refine ⟨.trans (.of_eq ?_) h.places, h.ctrl, h.data, h.credits⟩
  simp only [RdmaConn.places, List.append_assoc, List.singleton_append]

section Completions

variable {post : PostResult}

theorem Balanced.handshakeRecv_iff (h : Balanced s [e] 0) (status : WcStatus) :
    RdmaConserved (handshakeWc s (some e) (status.wc true) post) ↔
      match status with
      | .success _ => s.hsRecvHandled = false ∧ RepostOk s e post
      | .error _ => True := by
  cases status with
  | error recv => exact iff_of_true h.errored.release.conserved trivial
  | success byteLen =>
    show RdmaConserved (if s.hsRecvHandled = true then s
      else ({ s with hsRecvHandled := true }.release e).repost post) ↔ _
    by_cases hdup : s.hsRecvHandled = true
    · rw [if_pos hdup, h.conserved_iff, hdup]
      simp
    · rw [if_neg hdup, h.hsRecvHandled.release_repost_iff]
      have hsame : RepostOk { s with hsRecvHandled := true } e post ↔ RepostOk s e post := by
        obtain ⟨_ | _, id⟩ := e <;> rfl
      rw [hsame]
      exact ⟨fun hok => ⟨Bool.eq_false_iff.mpr hdup, hok⟩, And.right⟩

theorem Balanced.frameRecv_iff (h : Balanced s [e] 0) (status : WcStatus) :
    RdmaConserved (frameWc s (some e) (status.wc true) post) ↔
      match status with
      | .success byteLen => byteLen < hdrSize → RepostOk s e post
      | .error recv => recv = true := by
  cases status with
  | error recv =>
    cases recv with
    | true => exact iff_of_true h.errored.release.conserved rfl
    | false =>
      -- A credit is given back although nothing was sent.
      refine iff_of_false (fun h' => ?_) Bool.false_ne_true
      cases (h.errored.release.addCredit.conserved_iff.mp h').2
  | success byteLen =>
    show RdmaConserved (if byteLen < hdrSize then (s.release e).repost post
      else { s with rxDone := s.rxDone ++ [e] }) ↔ _
    by_cases hshort : byteLen < hdrSize
    · rw [if_pos hshort, h.release_repost_iff]
      exact ⟨fun hok _ => hok, fun hok => hok hshort⟩
    · rw [if_neg hshort]
      exact iff_of_true h.queue.conserved fun hif => absurd hif hshort

variable {e : Option MrEntry}

theorem Balanced.handshakeSend_iff (h : Balanced s e.toList 1) (status : WcStatus) :
    RdmaConserved (handshakeWc s e (status.wc false) post) ↔
      match status with
      | .success _ => s.hsSendHandled = false
      | .error _ => False := by
  cases status with
  | error recv =>
    -- The credit of the request is not given back.
    refine iff_of_false (fun h' => ?_) id
    cases (h.errored.releaseAny.conserved_iff.mp h').2
  | success byteLen =>
    show RdmaConserved (if s.hsSendHandled = true then s
      else { (s.releaseAny e).addCredit with hsSendHandled := true }) ↔ _
    by_cases hdup : s.hsSendHandled = true
    · rw [if_pos hdup, h.conserved_iff, hdup]
      simp
    · rw [if_neg hdup]
      refine iff_of_true ?_ (Bool.eq_false_iff.mpr hdup)
      exact h.releaseAny.addCredit.hsSendHandled.conserved

theorem Balanced.frameSend_iff (h : Balanced s e.toList 1) (status : WcStatus) :
    RdmaConserved (frameWc s e (status.wc false) post) ↔
      match status with
      | .success _ => True
      | .error recv => recv = false := by
  cases status with
  | error recv =>
    cases recv with
    | true =>
      refine iff_of_false (fun h' => ?_) Bool.true_eq_false.mp
      cases (h.errored.releaseAny.conserved_iff.mp h').2
    | false =>
      exact iff_of_true h.errored.releaseAny.addCredit.conserved rfl
  | success byteLen =>
    exact iff_of_true h.releaseAny.addCredit.conserved trivial

end Completions

theorem Balanced.recvDone_iff (h : Balanced s [e] 0) (status : WcStatus) (post : PostResult) :
    RdmaConserved (processWc s (some e) (status.wc true) post) ↔ RecvDoneOk s e post status := by
  unfold processWc
  by_cases hhs : s.handshake = true
  · rw [if_pos hhs, h.handshakeRecv_iff]
    cases status with
    | success byteLen => rw [RecvDoneOk, if_pos hhs]
    | error recv => simp [RecvDoneOk, hhs]
  · rw [if_neg hhs, h.frameRecv_iff]
    cases status with
    | success byteLen => rw [RecvDoneOk, if_neg hhs]
    | error recv => simp [RecvDoneOk, hhs]

theorem Balanced.sendDone_iff {e : Option MrEntry} (h : Balanced s e.toList 1) (status : WcStatus)
    (post : PostResult) :
    RdmaConserved (processWc s e (status.wc false) post) ↔ SendDoneOk s status := by
  unfold processWc
  by_cases hhs : s.handshake = true
  · rw [if_pos hhs, h.handshakeSend_iff]
    cases status <;> simp [SendDoneOk, hhs]
  · rw [if_neg hhs, h.frameSend_iff]
    cases status <;> simp [SendDoneOk, hhs]

section

variable (h : Balanced s hand owed)
include h

theorem Balanced.takeRecv {i : Nat} (he : s.postedRecv[i]? = some e) :
    Balanced { s with postedRecv := s.postedRecv.eraseIdx i } (e :: hand) owed := by
  obtain ⟨hi, rfl⟩ := List.getElem?_eq_some_iff.mp he
  have hposted := List.getElem_cons_eraseIdx_perm hi
  refine ⟨.trans ?_ h.places, h.ctrl, h.data, h.credits⟩
  rw [List.perm_iff_count]
  intro x
  have hcount := hposted.count_eq x
  simp only [RdmaConn.places, List.count_append, List.count_cons] at hcount ⊢
  omega

theorem Balanced.takeSend {i : Nat} (he : s.postedSend[i]? = some e) :
    Balanced { s with postedSend := s.postedSend.eraseIdx i } (e :: hand) (owed + 1) := by
  obtain ⟨hi, rfl⟩ := List.getElem?_eq_some_iff.mp he
  have hposted := List.getElem_cons_eraseIdx_perm hi
  refine ⟨.trans ?_ h.places, h.ctrl, h.data, ?_⟩
  · rw [List.perm_iff_count]
    intro x
    have hcount := hposted.count_eq x
    simp only [RdmaConn.places, List.count_append, List.count_cons] at hcount ⊢
    omega
  · have hcredits := h.credits
    have hlen := hposted.length_eq
    simp only [RdmaConn.inFlight, List.length_cons] at hcredits hlen ⊢
    omega

theorem Balanced.takeHandshake (hposted : s.hsPosted = true) :
    Balanced { s with hsPosted := false } hand (owed + 1) := by
  refine ⟨h.places, h.ctrl, h.data, ?_⟩
  have hcredits := h.credits
  simp only [RdmaConn.inFlight, hposted, Bool.toNat_true, Bool.toNat_false] at hcredits ⊢
  omega

theorem Balanced.acquire (idx : PoolIdx) :
    (∃ e p, (s.pool idx).acquire = (some e, p) ∧ e.pool = idx ∧
      Balanced (s.setPool p idx) (e :: hand) owed) ∨ (s.pool idx).acquire = (none, s.pool idx) := by
  have hpool : (s.pool idx).Ok idx := by
    cases idx with
    | ctrl => exact h.ctrl
    | data => exact h.data
  obtain ⟨e, rest, hlist, he, hacquire, hrest⟩ | ⟨-, hacquire⟩ := hpool.acquire
  · refine .inl ⟨e, _, hacquire, he, ?_⟩
    have hperm : ((s.setPool ⟨rest, rest.length⟩ idx).places ++ e :: hand).Perm
        (s.places ++ hand) := by
      rw [List.perm_iff_count]
      intro x
      cases idx with
      | ctrl =>
        replace hlist : s.ctrlPool.freeList = e :: rest := hlist
        simp only [RdmaConn.setPool, RdmaConn.places, hlist, List.count_append, List.count_cons]
        omega
      | data =>
        replace hlist : s.dataPool.freeList = e :: rest := hlist
        simp only [RdmaConn.setPool, RdmaConn.places, hlist, List.count_append, List.count_cons]
        omega
    cases idx with
    | ctrl => exact ⟨hperm.trans h.places, hrest, h.data, h.credits⟩
    | data => exact ⟨hperm.trans h.places, h.ctrl, hrest, h.credits⟩
  · exact .inr hacquire

end

theorem setPool_release {idx : PoolIdx} {p : MrPool} (he : e.pool = idx) :
    s.setPool (p.release e) idx = (s.setPool p idx).release e := by
  subst he
  obtain ⟨_ | _, id⟩ := e <;> rfl

theorem setPool_pool (idx : PoolIdx) : s.setPool (s.pool idx) idx = s := by
  cases idx <;> rfl

theorem Balanced.postSend (h : Balanced s (e :: hand) owed) (hcredit : s.sendCredits ≠ 0) :
    Balanced { s with sendCredits := s.sendCredits - 1, postedSend := s.postedSend ++ [e] }
      hand owed := by
  refine ⟨.trans ?_ h.places, h.ctrl, h.data, ?_⟩
  · rw [List.perm_iff_count]
    intro x
    simp only [RdmaConn.places, List.count_append, List.count_cons, List.count_nil]
    omega
  · have hcredits := h.credits
    simp only [RdmaConn.inFlight, List.length_append, List.length_singleton] at hcredits ⊢
    omega

theorem setPool_credits (s : RdmaConn) (p : MrPool) (idx : PoolIdx) :
    (s.setPool p idx).sendCredits = s.sendCredits ∧
      (s.setPool p idx).postedSend = s.postedSend := by
  cases idx <;> exact ⟨rfl, rfl⟩

theorem Balanced.sendFrame (h : Balanced s [] 0) (total : Nat) (post : PostResult) :
    Balanced (rdmaSendFrame s total post).2 [] 0 := by
  simp only [rdmaSendFrame]
  split
  · exact h
  · split
    · exact h
    · generalize (if ctrlBufSize < total then PoolIdx.data else PoolIdx.ctrl) = idx
      split
      · exact h
      · split
        · exact h
        · next hcredit =>
          obtain ⟨e, p, hacquire, he, htaken⟩ | hacquire := h.acquire idx
          · rw [hacquire]
            obtain ⟨hcredits, hposted⟩ := setPool_credits s p idx
            cases post with
            | ok u =>
              have hsent := htaken.postSend (by rw [hcredits]; exact hcredit)
              rw [hcredits, hposted] at hsent
              exact hsent
            | error err =>
              simp only [setPool_release he]
              exact htaken.release.errored
          · rw [hacquire]
            simp only [setPool_pool]
            exact h

theorem Balanced.recvFrame (h : Balanced s [] 0) (parsed : Except Errno Unit) (post : PostResult) :
    Balanced (rdmaRecvFrame s parsed post).2 [] 0 := by
  unfold rdmaRecvFrame
  split
  · exact h
  · split
    · exact h
    · next e rest hlist =>
      have htaken : Balanced { s with rxDone := rest } [e] 0 := by
        refine ⟨.trans ?_ h.places, h.ctrl, h.data, h.credits⟩
        rw [List.perm_iff_count]
        intro x
        simp only [RdmaConn.places, hlist, List.count_append, List.count_cons]
        omega
      cases post with
      | ok u =>
        refine ⟨.trans ?_ htaken.places, h.ctrl, h.data, h.credits⟩
        rw [List.perm_iff_count]
        intro x
        simp only [RdmaConn.places, List.count_append, List.count_nil]
        omega
      | error err => exact htaken.release.errored

theorem Balanced.startHandshake {s' : RdmaConn} {post : PostResult} (h : Balanced s [] 0)
    (hs : rdmaExec s (.startHandshake post) = some s') : Balanced s' [] 0 := by
  simp only [rdmaExec] at hs
  split at hs <;> try cases hs
  next hguard =>
  have hposted : s.hsPosted = false := by
    by_contra hposted
    exact hguard (by simp [hposted])
  split at hs
  · cases hs
    exact ⟨h.places, h.ctrl, h.data, h.credits⟩
  · split at hs
    · cases hs
      refine ⟨h.places, h.ctrl, h.data, ?_⟩
      have hcredits := h.credits
      simp only [RdmaConn.inFlight, hposted, Bool.toNat_true, Bool.toNat_false] at hcredits ⊢
      omega
    · cases hs
      exact ⟨h.places, h.ctrl, h.data, h.credits⟩

theorem RdmaConserved.step {s' : RdmaConn} (h : RdmaConserved s) {ev : RdmaEvent}
    (hs : rdmaExec s ev = some s') : RdmaConserved s' ↔ RdmaOk s ev := by
  have hbalanced := h.balanced
  cases ev with
  | postRecv post =>
    simp only [rdmaExec] at hs
    split at hs <;> cases hs
    exact hbalanced.postRecv_iff
  | startHandshake post =>
    exact iff_of_true (hbalanced.startHandshake hs).conserved trivial
  | connected =>
    simp only [rdmaExec] at hs
    split at hs <;> cases hs
    exact iff_of_true ⟨h.places, h.ctrl, h.data, h.credits⟩ trivial
  | send total post =>
    cases hs
    exact iff_of_true (hbalanced.sendFrame total post).conserved trivial
  | recv parsed post =>
    cases hs
    exact iff_of_true (hbalanced.recvFrame parsed post).conserved trivial
  | complete wr status post =>
    cases wr with
    | recv i =>
      obtain ⟨e, he, rfl⟩ := Option.map_eq_some_iff.mp hs
      refine ((hbalanced.takeRecv he).recvDone_iff status post).trans ?_
      simp only [RdmaOk, he, Option.mem_some_iff, forall_eq']
      obtain ⟨_ | _, id⟩ := e <;> cases status <;> rfl
    | send i =>
      obtain ⟨e, he, rfl⟩ := Option.map_eq_some_iff.mp hs
      have htaken : Balanced _ (some e).toList 1 := hbalanced.takeSend he
      refine (htaken.sendDone_iff status post).trans ?_
      cases status <;> rfl
    | handshake =>
      simp only [rdmaExec] at hs
      split at hs <;> cases hs
      next hposted =>
      have htaken : Balanced _ (none : Option MrEntry).toList 1 := hbalanced.takeHandshake hposted
      refine (htaken.sendDone_iff status post).trans ?_
      cases status <;> rfl
  | cmError | destroyQp =>
    cases hs
    exact iff_of_true ⟨h.places, h.ctrl, h.data, h.credits⟩ trivial

end Step

theorem rdmaConserved_init : RdmaConserved RdmaConn.init where
  places := by
    exact .refl _
  ctrl := ⟨fun e he => by
    obtain ⟨i, -, rfl⟩ := List.mem_map.mp he
    rfl, by simp [RdmaConn.init, MrPool.init]⟩
  data := ⟨fun e he => by
    obtain ⟨i, -, rfl⟩ := List.mem_map.mp he
    rfl, by simp [RdmaConn.init, MrPool.init]⟩
  credits := rfl

theorem nodup_allEntries : allEntries.Nodup := by
  have hpool (idx : PoolIdx) (n : Nat) : (MrPool.init idx n).freeList.Nodup :=
    List.Nodup.map (fun i j hij => congrArg MrEntry.id hij) List.nodup_range
  refine List.nodup_append'.mpr ⟨hpool _ _, hpool _ _, ?_⟩
  intro e hctrl hdata
  obtain ⟨i, -, rfl⟩ := List.mem_map.mp hctrl
  obtain ⟨j, -, heq⟩ := List.mem_map.mp hdata
  cases heq

theorem RdmaConserved.count_places {s : RdmaConn} (h : RdmaConserved s) {e : MrEntry}
    (he : e ∈ allEntries) : s.places.count e = 1 := by
  rw [h.places.count_eq]
  exact List.nodup_iff_count_eq_one.mp nodup_allEntries e he

/-- In every run that meets the condition, each entry is in exactly one place, a free one in its own
pool, and the counts and credits are right. The condition is exact. -/
theorem rdmaConserved_of_rdmaOk (s : RdmaConn)
    (h : Runs.Reach (fun s ev s' => rdmaExec s ev = some s') RdmaOk (· = .init) s) :
    RdmaConserved s ∧ ∀ ev s', rdmaExec s ev = some s' → (RdmaConserved s' ↔ RdmaOk s ev) := by
  have hconserved : RdmaConserved s := by
    apply h.invariant
    · rintro s rfl
      exact rdmaConserved_init
    · intro s ev s' hconserved hok hs
      exact (hconserved.step hs).mpr hok
  exact ⟨hconserved, fun ev s' hs => hconserved.step hs⟩

instance (s : RdmaConn) (post : PostResult) : Decidable (PostOk s post) :=
  inferInstanceAs (Decidable (_ ∨ _))

instance (s : RdmaConn) (e : MrEntry) (post : PostResult) : Decidable (RepostOk s e post) :=
  inferInstanceAs (Decidable (_ → _ → _))

instance (s : RdmaConn) (e : MrEntry) (post : PostResult) :
    (status : WcStatus) → Decidable (RecvDoneOk s e post status)
  | .success byteLen => inferInstanceAs (Decidable (if s.handshake then _ else byteLen < _ → _))
  | .error _ => inferInstanceAs (Decidable (_ → _))

instance (s : RdmaConn) : (status : WcStatus) → Decidable (SendDoneOk s status)
  | .success _ => inferInstanceAs (Decidable (_ → _))
  | .error _ => inferInstanceAs (Decidable (_ ∧ _))

instance (s : RdmaConn) : (ev : RdmaEvent) → Decidable (RdmaOk s ev)
  | .postRecv post => inferInstanceAs (Decidable (PostOk s post))
  | .complete (.recv _) _ _ => inferInstanceAs (Decidable (∀ _ ∈ _, _))
  | .complete (.send _) status _ | .complete .handshake status _ =>
    inferInstanceAs (Decidable (SendDoneOk s status))
  | .startHandshake _ | .connected | .send .. | .recv .. | .cmError | .destroyQp => isTrue trivial

/-- A connection with two receives sends a frame and gets the answer. -/
def connectSendRecv : List RdmaEvent :=
  [.postRecv (.ok ()), .postRecv (.ok ()), .startHandshake (.ok ()),
    .complete .handshake (.success 20) (.ok ()), .complete (.recv 0) (.success 18) (.ok ()),
    .connected, .send 100 (.ok ()), .complete (.send 0) (.success 100) (.ok ()),
    .complete (.recv 0) (.success 100) (.ok ()), .recv (.ok ()) (.ok ()), .destroyQp,
    .complete (.recv 0) (.error true) (.ok ())]

theorem rdmaConserved_connectSendRecv :
    ∃ s, connectSendRecv.foldlM rdmaExec .init = some s ∧ s.sendCredits = 64 ∧
      s.dataPool.free = 47 ∧ RdmaConserved s := by
  have hok : Runs.OkAlong rdmaExec RdmaOk .init connectSendRecv := by decide
  exact ⟨_, rfl, rfl, rfl, (rdmaConserved_of_rdmaOk _ (.of_run (.start rfl) hok rfl)).1⟩

/-- A failed post puts an entry of the data pool in the control pool. -/
theorem not_rdmaConserved_runs :
    ¬ ∀ s, Runs.Reach (fun s ev s' => rdmaExec s ev = some s') (fun _ _ => True) (· = .init) s →
      RdmaConserved s := by
  intro h
  obtain ⟨s, hrun, hmem⟩ : ∃ s,
      [RdmaEvent.postRecv (.error .enomem)].foldlM rdmaExec .init = some s ∧
        s.ctrlPool.freeList.getLast? = some ⟨.data, 0⟩ := ⟨_, rfl, rfl⟩
  have hconserved := h s (.run rfl hrun)
  have hctrl := hconserved.ctrl.own _ (List.mem_of_getLast? hmem)
  cases hctrl

end PowerFS.Net
