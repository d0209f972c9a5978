import PowerFS.Caps.Flush

namespace PowerFS.Caps

/-! From a CapRecallNotify to its CapRecallAck: `powerfs_cap_recall_notify_handler`, the work item
`powerfs_cap_notify_work_func`, `powerfs_cap_revoke` and `cap_send_recall_ack`. -/

structure RecallNotify where
  token : List UInt8
  recallMask : UInt8
  retain : UInt8
  epoch : UInt64

inductive InodeKind where
  | reg
  | dir
  | other
  deriving DecidableEq

/-- A capability in `i_caps`; its token has room for 63 bytes. -/
structure HeldCap extends Cap where
  token_lt : token.length < 64

/-- `i_caps` in the order of the tree, the place of `i_auth_cap` in it, and what else a recall looks
at. `freeing` is any of `I_FREEING`, `I_CLEAR` and `I_WILL_FREE`. -/
structure CapInode where
  caps : List HeldCap
  auth : Option Nat
  kind : InodeKind
  freeing : Bool
  shutdown : Bool
  dirty : CapMask
  inline : Bool
  inlineDirty : Bool

/-- What comes from elsewhere: memory for the work item, the work queue, the super block, what
`powerfs_cap_flush` leaves behind, and the reply to the CapRecallAck with its capabilities. -/
structure RecallEnv where
  alloc : Bool
  queue : Bool
  mounted : Bool
  dirtyAfter : CapMask
  inlineDirtyAfter : Bool
  reply : Option UInt8
  lease : Nat
  now : Nat

/-- What a recall does besides its changes of the inode. A CapRecallAck stands with the bits that
are issued when it is sent. -/
inductive RecallAction where
  | flush (mask : CapMask)
  | flushCreates
  | dropInline
  | invalidatePages
  | refresh
  | ack (token : List UInt8) (issued : CapMask)
  | wake

/-- `lease_token` and `token_len` of the work item. -/
def storedToken (token : List UInt8) : List UInt8 :=
  if 0 < token.length ∧ token.length < 64 then token else []

/-- `find_cap_by_token_locked`. -/
def findCapByToken (inode : CapInode) (token : List UInt8) : Option Nat :=
  if token = [] then inode.auth
  else
    match inode.caps.findIdx? fun cap => cap.token = token with
    | some i => some i
    | none => inode.auth

def CapInode.modifyCap (inode : CapInode) (i : Nat) (f : HeldCap → HeldCap) : CapInode :=
  { inode with caps := inode.caps.modify i f }

def HeldCap.issue (lease now : Nat) (bits : CapMask) (cap : HeldCap) : HeldCap :=
  ⟨capIssue lease now cap.toCap bits, cap.token_lt⟩

/-- `cap_send_recall_ack`. -/
def capSendRecallAck (env : RecallEnv) (inode : CapInode) (i : Nat) :
    CapInode × List RecallAction :=
  match inode.caps[i]? with
  | none => (inode, [])
  | some cap =>
    if cap.token = [] then (inode, [])
    else
      match env.reply with
      | none => (inode, [.ack cap.token cap.issued])
      | some piggyback =>
        if piggyback = 0 then (inode, [.ack cap.token cap.issued])
        else (inode.modifyCap i (.issue env.lease env.now (wireCapsetToKernelBits piggyback)),
          [.ack cap.token cap.issued])

/-- The flush in `powerfs_cap_revoke`. -/
def revokeFlush (env : RecallEnv) (inode : CapInode) (revoking : CapMask) :
    CapInode × List RecallAction :=
  let toFlush := inode.dirty &&& revoking
  if toFlush = 0 then (inode, [])
  else ({ inode with dirty := env.dirtyAfter, inlineDirty := env.inlineDirtyAfter },
    [.flush toFlush])

/-- What `powerfs_cap_revoke` drops from the caches of the inode. -/
def revokeCaches (inode : CapInode) (revoking : CapMask) : List RecallAction :=
  if inode.inline then
    if revoking.has (capFileWr ||| capFileExcl) then
      (if inode.inlineDirty then [] else [RecallAction.dropInline]) ++ [.invalidatePages, .refresh]
    else []
  else if inode.kind = .reg ∧
      revoking.has (capFileShared ||| capFileCache ||| capFileWr ||| capFileExcl) = true then
    [.invalidatePages]
  else []

/-- `powerfs_cap_revoke`. -/
def capRevoke (env : RecallEnv) (inode : CapInode) (i : Nat) (revoking : CapMask) :
    CapInode × List RecallAction :=
  let inode := inode.modifyCap i fun cap => { cap with issued := cap.issued &&& ~~~revoking }
  let (inode, flushed) := revokeFlush env inode revoking
  let creates := if revoking.has capAuthExcl ∧ inode.kind = .dir then [.flushCreates] else []
  let inode := inode.modifyCap i fun cap => { cap with implemented := cap.issued }
  let dropped := revokeCaches inode revoking
  let (inode, acked) := capSendRecallAck env inode i
  (inode, flushed ++ creates ++ dropped ++ acked ++ [RecallAction.wake])

/-- `powerfs_cap_notify_work_func` for a recall of a cached inode. -/
def capNotifyWork (env : RecallEnv) (inode : CapInode) (token : List UInt8) (n : RecallNotify) :
    CapInode × List RecallAction :=
  if !env.mounted || inode.freeing || inode.shutdown then (inode, [])
  else
    match findCapByToken inode token with
    | none => (inode, [])
    | some i =>
      match inode.caps[i]? with
      | none => (inode, [])
      | some cap =>
        let revoking := recallBits cap.toCap n.retain
        let inode := inode.modifyCap i fun cap => { cap with epoch := n.epoch }
        if revoking ≠ 0 then capRevoke env inode i revoking else (inode, [.wake])

/-- `powerfs_cap_recall_notify_handler` and the work item that it queues. -/
def capRecallNotifyHandler (env : RecallEnv) (inode : CapInode) (n : RecallNotify) :
    CapInode × List RecallAction :=
  if !env.alloc || !env.queue then (inode, [])
  else capNotifyWork env inode (storedToken n.token) n

def RecallAction.ack? : RecallAction → Option (List UInt8 × CapMask)
  | .ack token issued => some (token, issued)
  | _ => none

def acks (actions : List RecallAction) : List (List UInt8 × CapMask) :=
  actions.filterMap RecallAction.ack?

/-- One CapRecallAck was sent, with the token of the recall, when only retained bits were left. -/
def AnsweredOnce (n : RecallNotify) (actions : List RecallAction) : Prop :=
  ∃ issued, acks actions = [(n.token, issued)] ∧
    issued &&& ~~~wireCapsetToKernelBits n.retain = 0

/-- The condition: the recall is processed, it has a token, and the first capability with that
token has a bit that is not retained. -/
structure RecallCounts (env : RecallEnv) (inode : CapInode) (n : RecallNotify) : Prop where
  alloc : env.alloc = true
  queue : env.queue = true
  mounted : env.mounted = true
  alive : inode.freeing = false ∧ inode.shutdown = false
  token : n.token ≠ []
  bits : ∀ cap, inode.caps.find? (fun cap => cap.token = n.token) = some cap →
    recallBits cap.toCap n.retain ≠ 0

variable {env : RecallEnv} {inode : CapInode} {n : RecallNotify} {i : Nat}

theorem acks_append (a b : List RecallAction) : acks (a ++ b) = acks a ++ acks b :=
  List.filterMap_append

theorem revokeFlush_spec (revoking : CapMask) :
    (revokeFlush env inode revoking).1.caps = inode.caps ∧
      acks (revokeFlush env inode revoking).2 = [] := by
  simp only [revokeFlush]
  split <;> exact ⟨rfl, rfl⟩

theorem acks_revokeCaches (revoking : CapMask) : acks (revokeCaches inode revoking) = [] := by
  rw [revokeCaches]
  split_ifs <;> rfl

theorem acks_capSendRecallAck (cap : HeldCap) (h : inode.caps[i]? = some cap) :
    acks (capSendRecallAck env inode i).2 =
      if cap.token = [] then [] else [(cap.token, cap.issued)] := by
  rw [capSendRecallAck, h]
  dsimp only
  split
  · rfl
  · split
    · rfl
    · split <;> rfl

theorem acks_capRevoke {cap : HeldCap} {revoking : CapMask} (h : inode.caps[i]? = some cap) :
    acks (capRevoke env inode i revoking).2 =
      if cap.token = [] then [] else [(cap.token, cap.issued &&& ~~~revoking)] := by
  obtain ⟨hcaps, hflush⟩ := @revokeFlush_spec env
    (inode.modifyCap i fun cap => { cap with issued := cap.issued &&& ~~~revoking }) revoking
  simp only [capRevoke]
  generalize revokeFlush env _ revoking = flushed at hcaps hflush ⊢
  have hcreates : acks (if revoking.has capAuthExcl = true ∧ flushed.1.kind = .dir then
      [.flushCreates] else []) = [] := by
    split <;> rfl
  have hack := @acks_capSendRecallAck env
    (flushed.1.modifyCap i fun cap => { cap with implemented := cap.issued }) i
    { cap with
      issued := cap.issued &&& ~~~revoking
      implemented := cap.issued &&& ~~~revoking }
    (by simp [CapInode.modifyCap, hcaps, h])
  rw [acks_append, acks_append, acks_append, acks_append, hflush, hcreates, acks_revokeCaches, hack]
  exact List.append_nil _

theorem acks_capNotifyWork {cap : HeldCap} {token : List UInt8}
    (hfind : findCapByToken inode token = some i) (hcap : inode.caps[i]? = some cap) :
    acks (capNotifyWork env inode token n).2 =
      if env.mounted = true ∧ inode.freeing = false ∧ inode.shutdown = false ∧
        recallBits cap.toCap n.retain ≠ 0 ∧ cap.token ≠ [] then
        [(cap.token, cap.issued &&& ~~~recallBits cap.toCap n.retain)]
      else [] := by
  rw [capNotifyWork, hfind]
  dsimp only
  rw [hcap]
  dsimp only
  have hepoch : (inode.modifyCap i fun cap => { cap with epoch := n.epoch }).caps[i]? =
      some { cap with epoch := n.epoch } := by
    simp [CapInode.modifyCap, hcap]
  by_cases hskip : (!env.mounted || inode.freeing || inode.shutdown) = true
  · rw [if_pos hskip, if_neg]
    · rfl
    · rintro ⟨hmounted, hfreeing, hshutdown, -⟩
      simp [hmounted, hfreeing, hshutdown] at hskip
  · rw [if_neg hskip]
    obtain ⟨hmounted, hfreeing, hshutdown⟩ :
        env.mounted = true ∧ inode.freeing = false ∧ inode.shutdown = false := by
      simpa [and_assoc] using hskip
    rw [hmounted, hfreeing, hshutdown]
    by_cases hbits : recallBits cap.toCap n.retain = 0
    · simp [hbits, acks, RecallAction.ack?]
    · rw [if_pos hbits, acks_capRevoke hepoch]
      by_cases htoken : cap.token = []
      · simp [htoken]
      · rw [if_neg htoken, if_pos ⟨rfl, rfl, rfl, hbits, htoken⟩]

theorem findCapByToken_held {token : List UInt8} (htoken : token ≠ [])
    (h : ∃ cap ∈ inode.caps, cap.token = token) :
    ∃ i cap, findCapByToken inode token = some i ∧ inode.caps[i]? = some cap ∧
      cap.token = token ∧ inode.caps.find? (fun cap => cap.token = token) = some cap := by
  obtain ⟨cap, hfind⟩ : ∃ cap, inode.caps.find? (fun cap => cap.token = token) = some cap := by
    rw [← Option.isSome_iff_exists]
    simpa using h
  obtain ⟨hmatch, i, hi, hget, hfirst⟩ := List.find?_eq_some_iff_getElem.mp hfind
  have hindex : inode.caps.findIdx? (fun cap => cap.token = token) = some i := by
    refine List.findIdx?_eq_some_iff_getElem.mpr ⟨hi, hget ▸ hmatch, fun j hj => ?_⟩
    simpa using hfirst j hj
  refine ⟨i, cap, ?_, List.getElem?_eq_some_iff.mpr ⟨hi, hget⟩, by simpa using hmatch, hfind⟩
  rw [findCapByToken, if_neg htoken, hindex]

theorem not_answeredOnce_of_nil (htoken : n.token = []) :
    ¬ AnsweredOnce n (capRecallNotifyHandler env inode n).2 := by
  rintro ⟨issued, hacks, -⟩
  rw [capRecallNotifyHandler] at hacks
  split at hacks <;> try cases hacks
  cases hfind : findCapByToken inode (storedToken n.token) with
  | none =>
    rw [capNotifyWork, hfind] at hacks
    split at hacks <;> cases hacks
  | some i =>
    cases hcap : inode.caps[i]? with
    | none =>
      rw [capNotifyWork, hfind] at hacks
      dsimp only at hacks
      rw [hcap] at hacks
      split at hacks <;> cases hacks
    | some cap =>
      rw [acks_capNotifyWork hfind hcap] at hacks
      split_ifs at hacks with hall
      · have hsent := (Prod.mk.inj (List.cons.inj hacks).1).1
        exact hall.2.2.2.2 (hsent.trans htoken)

/-- A recall of a capability that the inode holds is answered by one CapRecallAck, behind the
removal of the bits, just if it is processed and there is a bit to remove. -/
theorem answeredOnce_iff_recallCounts (env : RecallEnv) (inode : CapInode) (n : RecallNotify)
    (hheld : ∃ cap ∈ inode.caps, cap.token = n.token) :
    AnsweredOnce n (capRecallNotifyHandler env inode n).2 ↔ RecallCounts env inode n := by
  by_cases htoken : n.token = []
  · exact iff_of_false (not_answeredOnce_of_nil htoken) fun h => h.token htoken
  obtain ⟨i, cap, hfind, hcap, hname, hfirst⟩ := findCapByToken_held htoken hheld
  have hstored : storedToken n.token = n.token := by
    rw [storedToken, if_pos ⟨List.length_pos_iff.mpr htoken, hname ▸ cap.token_lt⟩]
  rw [AnsweredOnce, capRecallNotifyHandler, hstored]
  by_cases hqueued : (!env.alloc || !env.queue) = true
  · rw [if_pos hqueued]
    refine iff_of_false (fun ⟨issued, hacks, _⟩ => nomatch hacks) fun h => ?_
    rw [h.alloc, h.queue] at hqueued
    cases hqueued
  · rw [if_neg hqueued, acks_capNotifyWork hfind hcap]
    obtain ⟨halloc, hqueue⟩ : env.alloc = true ∧ env.queue = true := by simpa using hqueued
    constructor
    · rintro ⟨issued, hacks, -⟩
      split_ifs at hacks with hall
      · obtain ⟨hmounted, hfreeing, hshutdown, hbits, -⟩ := hall
        refine ⟨halloc, hqueue, hmounted, ⟨hfreeing, hshutdown⟩, htoken, fun cap' hcap' => ?_⟩
        cases hfirst.symm.trans hcap'
        exact hbits
    · intro h
      rw [if_pos ⟨h.mounted, h.alive.1, h.alive.2, h.bits cap hfirst, hname ▸ htoken⟩]
      exact ⟨cap.issued &&& ~~~recallBits cap.toCap n.retain, by rw [hname], andNot_and_self⟩

/-- A capability with a token, and an inode with it. -/
def grantedCap (issued : CapMask) : HeldCap where
  issued := issued
  implemented := issued
  seq := 1
  issueSeq := 1
  capGen := 1
  token := [116, 49]
  epoch := 1
  expire := 0
  token_lt := by decide

def grantedInode (issued : CapMask) : CapInode :=
  ⟨[grantedCap issued], some 0, .reg, false, false, capFileWr, false, false⟩

/-- Everything works, and the Filer gives nothing back. -/
def recallEnv : RecallEnv := ⟨true, true, true, 0, false, some 0, 30, 100⟩

theorem answeredOnce_iff_recallCounts_writer :
    AnsweredOnce ⟨[116, 49], 6, 1, 2⟩ (capRecallNotifyHandler recallEnv
      (grantedInode (wireCapsetToKernelBits 7)) ⟨[116, 49], 6, 1, 2⟩).2 := by
  refine (answeredOnce_iff_recallCounts _ _ _ ⟨_, List.mem_cons_self, rfl⟩).mpr ?_
  refine ⟨rfl, rfl, rfl, ⟨rfl, rfl⟩, by decide, fun cap hcap => ?_⟩
  cases hcap
  decide

/-- A reader is told to keep what it has: no CapRecallAck is sent. -/
theorem not_answeredOnce_reader :
    ¬ ∀ (env : RecallEnv) (inode : CapInode) (n : RecallNotify),
      (∃ cap ∈ inode.caps, cap.token = n.token) → env.alloc = true → env.queue = true →
        env.mounted = true → env.reply ≠ none → inode.freeing = false → inode.shutdown = false →
          n.token ≠ [] → AnsweredOnce n (capRecallNotifyHandler env inode n).2 := by
  intro h
  obtain ⟨issued, hacks, -⟩ := h recallEnv (grantedInode (wireCapsetToKernelBits 1))
    ⟨[116, 49], 6, 1, 2⟩ ⟨_, List.mem_cons_self, rfl⟩ rfl rfl rfl (by decide) rfl rfl (by decide)
  cases hacks

end PowerFS.Caps
