import PowerFS.Dir.Entries
import PowerFS.Dir.Exclusive

namespace PowerFS.Dir

open Caps

/-! `powerfs_atomic_open` and the create behind it. The VFS calls it with a dentry that is not
positive and, with `O_CREAT`, holds `i_rwsem` of the directory. -/

/-- `powerfs_inode_pool`: inode numbers that the Filer has set aside. -/
structure InodePool where
  nextIno : UInt64
  endIno : UInt64
  remaining : UInt32

/-- `pool_take_inode`; 0 if there is no number left, or no pool for the shard. -/
def poolTakeInode : Option InodePool → UInt64 × Option InodePool
  | none => (0, none)
  | some p =>
    if 0 < p.remaining then
      (p.nextIno, some { p with nextIno := p.nextIno + 1, remaining := p.remaining - 1 })
    else (0, some p)

/-- `pool_refill`; `rpc` is the half-open range of an AllocInodeBatch. -/
def poolRefill (rpc : Except Errno (UInt64 × UInt64)) : Option InodePool → Except Errno InodePool
  | none => .error .enodev
  | some _ => rpc.map fun (start, stop) => ⟨start, stop, (stop - start).toUInt32⟩

/-- The directory's inode, the pool of its shard and the counter for local inode numbers. -/
structure DirNode where
  entries : List DirEntry
  dirty : DirtyState
  cap : Option Cap
  pool : Option InodePool
  nextIno : Int32

/-- What the calls out of `powerfs_atomic_open` return. A lookup says whether the dentry is positive
afterwards; `remoteIno` is the reply to a CREATE. -/
structure OpenReplies where
  now : Nat
  capAlloc : Bool
  grant : Except Errno GrantReply
  refill : Except Errno (UInt64 × UInt64)
  localInode : Bool
  dirtyAlloc : Bool
  remoteIno : Except Errno UInt64
  remoteInode : Bool
  entryAlloc : Bool
  preLookup : Except Errno Bool
  selfLookup : Except Errno Bool
  finishOpen : Except Errno Unit

/-- `O_CREAT` and `O_EXCL`. -/
structure OpenFlags where
  creat : Bool
  excl : Bool

def inoStart : UInt64 := 2

def nameMax : Nat := 255

section Create

variable (lease : Nat) (toJiffies : Nat → Nat) (io : OpenReplies)

/-- The directory after the request for `AUTH_EXCL`, if one was needed. -/
def DirNode.askAuthExcl (s : DirNode) : DirNode :=
  if hasDirAuthExcl s.cap then s
  else { s with cap := capOpenGrantAndIssue lease toJiffies io.now s.cap io.capAlloc io.grant }

def takeInode (pool : Option InodePool) : UInt64 × Option InodePool :=
  let (ino, pool) := poolTakeInode pool
  if ino = 0 then
    match poolRefill io.refill pool with
    | .ok refilled => poolTakeInode (some refilled)
    | .error _ => (0, pool)
  else (ino, pool)

/-- The fast path of `__powerfs_do_create_core`; `none` if it goes on with the slow path. -/
def fastCreate (s : DirNode) (name : FileName) : DirNode × Option UInt64 :=
  let s := s.askAuthExcl lease toJiffies io
  if !hasDirAuthExcl s.cap then (s, none)
  else
    let (ino, pool) := takeInode io s.pool
    let s := { s with pool := pool }
    if ino = 0 then (s, none)
    else if !io.localInode then (s, none)
    else if io.dirtyAlloc then
      let dirty := { s.dirty with dir := s.dirty.dir.add { ino := ino, name := name.take nameMax } }
      ({ s with dirty := dirty }, some ino)
    else (s, some ino)

def slowCreate (s : DirNode) : DirNode × Except Errno UInt64 :=
  match io.remoteIno with
  | .error err => (s, .error err)
  | .ok remoteIno =>
    let (s, ino) :=
      if remoteIno ≠ 0 then (s, remoteIno)
      else
        let next := s.nextIno + 1
        ({ s with nextIno := next }, next.toInt64.toUInt64 + inoStart)
    if !io.remoteInode then (s, .error .enospc) else (s, .ok ino)

/-- `__powerfs_do_create_core` for a regular file. -/
def doCreateCore (s : DirNode) (name : FileName) : DirNode × Except Errno UInt64 :=
  match fastCreate lease toJiffies io s name with
  | (s, some ino) => (s, .ok ino)
  | (s, none) => slowCreate io s

/-- The branch `existing_lookup`. -/
def existingLookup (positive : Bool) : Except Errno Unit :=
  if positive then io.finishOpen
  else match io.selfLookup with
    | .error err => .error err
    | .ok true => io.finishOpen
    | .ok false => .error .enoent

def sIfreg : UInt32 := 0x8000

def createAndOpen (flags : OpenFlags) (s : DirNode) (name : FileName) :
    DirNode × Except Errno Unit :=
  match doCreateCore lease toJiffies io s name with
  | (s, .error err) =>
    if err = .eexist && !flags.excl then (s, existingLookup io false) else (s, .error err)
  | (s, .ok ino) =>
    ({ s with entries := addDirEntry s.entries ino sIfreg name io.entryAlloc }, io.finishOpen)

/-- An active entry that the Filer does not have is marked deleted. -/
def DirNode.dropGhost (s : DirNode) (name : FileName) : DirNode :=
  if dirHasLocalEntry s.entries name then { s with entries := removeDirEntry s.entries name } else s

/-- `powerfs_atomic_open`. With `O_EXCL` nothing is looked up. -/
def atomicOpen (flags : OpenFlags) (s : DirNode) (name : FileName) :
    DirNode × Except Errno Unit :=
  if nameMax < name.length then (s, .error .enametoolong)
  else if !flags.creat then (s, existingLookup io false)
  else if flags.excl then createAndOpen lease toJiffies io flags s name
  else if dirHasLocalEntry s.entries name && !flags.creat then (s, existingLookup io false)
  else match io.preLookup with
    | .ok true => (s, existingLookup io true)
    | .ok false => createAndOpen lease toJiffies io flags (s.dropGhost name) name
    | .error err =>
      if err ≠ .enoent then (s, .error err)
      else createAndOpen lease toJiffies io flags (s.dropGhost name) name

end Create

def Exists (filer : List FileName) (s : DirNode) (name : FileName) : Prop :=
  name ∈ filer ∨ s.dirty.Holds name

/-- The directory has `AUTH_EXCL`, or the Filer grants it. -/
def GetsAuthExcl (io : OpenReplies) (s : DirNode) : Prop :=
  hasDirAuthExcl s.cap = true ∨
    (s.cap ≠ none ∨ io.capAlloc = true) ∧ ∃ r, io.grant = .ok r ∧ r.caps &&& 4 ≠ 0

def GetsInode (io : OpenReplies) (s : DirNode) : Prop :=
  ∃ p, s.pool = some p ∧ ((0 < p.remaining ∧ p.nextIno ≠ 0) ∨
    ∃ start stop, io.refill = .ok (start, stop) ∧ 0 < (stop - start).toUInt32 ∧ start ≠ 0)

def CreatesLocally (io : OpenReplies) (s : DirNode) : Prop :=
  GetsAuthExcl io s ∧ GetsInode io s ∧ io.localInode = true

/-- The Filer accepts a CREATE, and an inode is set up for it. -/
def CreatesRemotely (io : OpenReplies) : Prop :=
  (∃ ino, io.remoteIno = .ok ino) ∧ io.remoteInode = true

section Outcome

variable {lease : Nat} {toJiffies : Nat → Nat} {io : OpenReplies} {s : DirNode} {name : FileName}

theorem hasDirAuthExcl_applyReply {now : Nat} {c : Cap} (r : GrantReply) :
    hasDirAuthExcl (some (applyReply lease toJiffies now c r)) = true ↔
      c.issued.has capAuthExcl = true ∨ r.caps &&& 4 ≠ 0 := by
  rw [hasDirAuthExcl_eq, has_capAuthExcl, ← decide_eq_true_iff (p := r.caps &&& 4 ≠ 0),
    ← wire_has_capAuthExcl, has_capAuthExcl]
  show (c.issued ||| wireCapsetToKernelBits r.caps).getLsbD 2 = true ↔ _
  rw [BitVec.getLsbD_or, Bool.or_eq_true]

theorem hasDirAuthExcl_askAuthExcl :
    hasDirAuthExcl (s.askAuthExcl lease toJiffies io).cap = true ↔ GetsAuthExcl io s := by
  unfold DirNode.askAuthExcl GetsAuthExcl
  split
  · next hhas => simp [hhas]
  · next hnot =>
    have hfresh : ¬ Cap.fresh.issued.has capAuthExcl = true := by decide
    have hdegraded : ¬ GrantReply.degraded.caps &&& 4 ≠ 0 := by decide
    cases hcap : s.cap with
    | some c =>
      have hbit : ¬ c.issued.has capAuthExcl = true := by
        rw [hcap] at hnot
        exact hnot
      cases hgrant : io.grant with
      | error err =>
        simp only [capOpenGrantAndIssue]
        rw [hasDirAuthExcl_applyReply]
        simp [hasDirAuthExcl, hdegraded]
      | ok r =>
        simp only [capOpenGrantAndIssue]
        rw [hasDirAuthExcl_applyReply]
        simp [hasDirAuthExcl]
    | none =>
      cases io.capAlloc with
      | false => simp [capOpenGrantAndIssue]
      | true =>
        cases hgrant : io.grant with
        | error err =>
          simp only [capOpenGrantAndIssue, if_true]
          rw [hasDirAuthExcl_applyReply]
          simp [hasDirAuthExcl, hfresh, hdegraded]
        | ok r =>
          simp only [capOpenGrantAndIssue, if_true]
          rw [hasDirAuthExcl_applyReply]
          simp [hasDirAuthExcl, hfresh]

theorem poolTakeInode_ne_zero_iff (p : InodePool) :
    (poolTakeInode (some p)).1 ≠ 0 ↔ 0 < p.remaining ∧ p.nextIno ≠ 0 := by
  simp only [poolTakeInode]
  split
  · next hleft => simp [hleft]
  · next hleft => simp [hleft]

theorem poolTakeInode_isSome (p : InodePool) : ∃ p', (poolTakeInode (some p)).2 = some p' := by
  simp only [poolTakeInode]
  split <;> exact ⟨_, rfl⟩

theorem takeInode_ne_zero_iff : (takeInode io s.pool).1 ≠ 0 ↔ GetsInode io s := by
  unfold GetsInode
  cases hpool : s.pool with
  | none => simp [takeInode, poolTakeInode, poolRefill]
  | some p =>
    obtain ⟨p', hp'⟩ := poolTakeInode_isSome p
    have htake := poolTakeInode_ne_zero_iff p
    simp only [takeInode, hp', Option.some.injEq, exists_eq_left']
    split
    · next hzero =>
      have hnone : ¬ (0 < p.remaining ∧ p.nextIno ≠ 0) := fun h => htake.mpr h hzero
      cases hrefill : io.refill with
      | error err => simp [poolRefill, Except.map, hnone]
      | ok range =>
        simp only [poolRefill, Except.map, poolTakeInode_ne_zero_iff, hnone, false_or]
        obtain ⟨start, stop⟩ := range
        constructor
        · exact fun h => ⟨start, stop, rfl, h⟩
        · rintro ⟨_, _, ⟨⟩, h⟩
          exact h
    · next htaken => exact ⟨fun _ => .inl (htake.mp htaken), fun _ => htaken⟩

theorem askAuthExcl_pool : (s.askAuthExcl lease toJiffies io).pool = s.pool := by
  unfold DirNode.askAuthExcl
  split <;> rfl

theorem fastCreate_isSome_iff :
    (∃ ino, (fastCreate lease toJiffies io s name).2 = some ino) ↔ CreatesLocally io s := by
  have hauth : hasDirAuthExcl (s.askAuthExcl lease toJiffies io).cap = true ↔ GetsAuthExcl io s :=
    hasDirAuthExcl_askAuthExcl
  have hino : (takeInode io s.pool).1 ≠ 0 ↔ GetsInode io s := takeInode_ne_zero_iff
  simp only [CreatesLocally, ← hauth, ← hino, fastCreate, askAuthExcl_pool]
  split
  · next hnot => simp_all
  · next hhas =>
    split
    · next hzero => simp [hzero]
    · next htaken =>
      split
      · next hinode => simp_all
      · next hinode =>
        have hall : hasDirAuthExcl (s.askAuthExcl lease toJiffies io).cap = true ∧
            (takeInode io s.pool).1 ≠ 0 ∧ io.localInode = true :=
          ⟨by simpa using hhas, htaken, by simpa using hinode⟩
        split <;> exact ⟨fun _ => hall, fun _ => ⟨_, rfl⟩⟩

theorem slowCreate_ok_iff : (∃ ino, (slowCreate io s).2 = .ok ino) ↔ CreatesRemotely io := by
  unfold CreatesRemotely
  cases hremote : io.remoteIno with
  | error err => simp [slowCreate, hremote]
  | ok ino =>
    cases hinode : io.remoteInode with
    | false | true => simp [slowCreate, hremote, hinode]

theorem doCreateCore_ok_iff :
    (∃ ino, (doCreateCore lease toJiffies io s name).2 = .ok ino) ↔
      CreatesLocally io s ∨ CreatesRemotely io := by
  have hfast : (∃ ino, (fastCreate lease toJiffies io s name).2 = some ino) ↔
      CreatesLocally io s := fastCreate_isSome_iff
  rw [← hfast]
  unfold doCreateCore
  split
  · next s' ino heq => simp [heq]
  · next s' heq =>
    rw [slowCreate_ok_iff, heq]
    simp

/-- With `O_CREAT | O_EXCL` the outcome depends neither on the Filer's names nor on the deferred
creates. -/
theorem atomicOpen_ok_iff : (atomicOpen lease toJiffies io ⟨true, true⟩ s name).2 = .ok () ↔
    name.length ≤ nameMax ∧ (CreatesLocally io s ∨ CreatesRemotely io) ∧
      io.finishOpen = .ok () := by
  have hcore : (∃ ino, (doCreateCore lease toJiffies io s name).2 = .ok ino) ↔
      CreatesLocally io s ∨ CreatesRemotely io := doCreateCore_ok_iff
  rw [← hcore]
  by_cases hlen : nameMax < name.length
  · have hnot : ¬ name.length ≤ nameMax := by omega
    simp [atomicOpen, hlen]
  · have hle : name.length ≤ nameMax := by omega
    simp only [atomicOpen, hlen, hle, createAndOpen, if_false, Bool.not_true, Bool.false_eq_true,
      if_true]
    split
    · next s' err heq => simp [heq]
    · next s' ino heq => simp [heq]

theorem atomicOpen_exclusive_iff (lease : Nat) (toJiffies : Nat → Nat) (io : OpenReplies)
    (filer : List FileName) (s : DirNode) (name : FileName) :
    ((atomicOpen lease toJiffies io ⟨true, true⟩ s name).2 = .ok () → ¬ Exists filer s name) ↔
      ¬ Exists filer s name ∨ nameMax < name.length ∨ io.finishOpen ≠ .ok () ∨
        (¬ CreatesLocally io s ∧ ¬ CreatesRemotely io) := by
  rw [atomicOpen_ok_iff, ← Nat.not_le]
  tauto

end Outcome

/-- A directory with `AUTH_EXCL` and inode numbers left, and nothing cached about its names. -/
def exclusiveDirectory : DirNode where
  entries := []
  dirty := ⟨⟨[], 0, 0, false⟩, fun _ => .idle⟩
  cap := some { Cap.fresh with issued := capAuthExcl, implemented := capAuthExcl }
  pool := some ⟨1000, 1064, 64⟩
  nextIno := 0

/-- Nothing fails, except that the Filer would refuse the CREATE of a name that exists. -/
def refusingFiler : OpenReplies where
  now := 0
  capAlloc := true
  grant := .error .enotconn
  refill := .error .enotconn
  localInode := true
  dirtyAlloc := true
  remoteIno := .error .eexist
  remoteInode := true
  entryAlloc := true
  preLookup := .ok true
  selfLookup := .ok true
  finishOpen := .ok ()

/-- A name that exists on the Filer and was never looked up is created again. -/
theorem not_atomicOpen_exclusive : ¬ ∀ lease toJiffies io filer s name,
    (atomicOpen lease toJiffies io ⟨true, true⟩ s name).2 = .ok () → ¬ Exists filer s name := by
  intro h
  exact h 30000 id refusingFiler [[97]] exclusiveDirectory [97] rfl (.inl List.mem_cons_self)

end PowerFS.Dir
