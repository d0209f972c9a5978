import PowerFS.Dir.DirtyCreates
import PowerFS.File.Append
import PowerFS.File.SizeGate

namespace PowerFS.Dir

open Layout

/-! The inode cache of the client and what `powerfs_lookup` does to it. -/

structure LookupReply where
  ino : UInt64
  mode : UInt32
  uid : UInt32
  gid : UInt32
  size : UInt64
  nlink : UInt32
  mtime : UInt64
  atime : UInt64
  ctime : UInt64
  volumeId : UInt64
  fileKey : UInt64
  layout : FileLayout

/-- A cached inode; `isize` is its `i_size`. -/
structure CachedInode where
  mode : UInt16
  uid : UInt32
  gid : UInt32
  nlink : UInt32
  isize : Int64
  mtime : UInt64
  atime : UInt64
  ctime : UInt64
  parentIno : UInt64
  name : FileName
  contentSize : UInt64
  layout : Inode

abbrev InodeCache := UInt64 → Option CachedInode

structure Caller where
  fsuid : UInt32
  fsgid : UInt32
  now : UInt64

/-- `S_IFMT`. -/
def ifmt : UInt16 := 0o170000

/-- `S_ISREG`. -/
def isReg (mode : UInt16) : Bool := mode &&& ifmt = 0o100000

/-- `S_ISDIR`. -/
def isDir (mode : UInt16) : Bool := mode &&& ifmt = 0o040000

/-- `POWERFS_MAX_NAME_LEN`. -/
def maxNameLen : Nat := 255

/-- `powerfs_init_inode` on an inode of `powerfs_alloc_inode`. -/
def initInode (c : Caller) (mode : UInt16) (parentIno : UInt64) (name : FileName) :
    CachedInode where
  mode := mode
  uid := c.fsuid
  gid := c.fsgid
  nlink := if isDir mode then 2 else 1
  isize := 0
  mtime := c.now
  atime := c.now
  ctime := c.now
  parentIno := parentIno
  name := name.take maxNameLen
  contentSize := 0
  layout := .fresh

/-- An inode that `powerfs_lookup` brings into the cache. -/
def lookedUpInode (c : Caller) (keys : Bool) (dir : UInt64) (name : FileName) (r : LookupReply) :
    CachedInode :=
  let i := initInode c r.mode.toUInt16 dir name
  { i with
    uid := r.uid
    gid := r.gid
    isize := r.size.toInt64
    nlink := r.nlink
    mtime := r.mtime
    atime := r.atime
    ctime := r.ctime
    contentSize := r.size
    layout :=
      applyLayoutToInode keys { i.layout with volumeId := r.volumeId, fileKey := r.fileKey }
        r.layout }

/-- What `powerfs_lookup` does to an inode that is cached already. The comparison of `i_size` with
the size of the reply is one of unsigned numbers. -/
def refreshInode (keys : Bool) (i : CachedInode) (r : LookupReply) : CachedInode :=
  { i with
    mode := r.mode.toUInt16
    uid := r.uid
    gid := r.gid
    isize :=
      if i.contentSize = r.size ∧ i.isize.toUInt64 ≠ r.size then r.size.toInt64 else i.isize
    nlink := r.nlink
    mtime := r.mtime
    atime := r.atime
    ctime := r.ctime
    contentSize := if i.contentSize = r.size then r.size else i.contentSize
    layout := applyLayoutToInode keys
      { i.layout with
        volumeId := if r.volumeId ≠ 0 then r.volumeId else i.layout.volumeId
        fileKey := if r.fileKey ≠ 0 then r.fileKey else i.layout.fileKey } r.layout }

/-- What happens around one lookup. `pending`: the name is an unsent create or a flush is under way,
so that a first `-ENOENT` makes it ask again. `iget` and `keys` are allocations. -/
structure LookupEnv where
  caller : Caller
  connected : Bool
  pending : Bool
  first : Except Errno LookupReply
  again : Except Errno LookupReply
  iget : Bool
  keys : Bool

/-- The result of the last request. -/
def LookupEnv.answer (env : LookupEnv) : Except Errno LookupReply :=
  match env.first with
  | .error .enoent => if env.pending then env.again else env.first
  | _ => env.first

/-- `powerfs_lookup` of `name` in `dir`: the cache it leaves, and the inode of the dentry if it
returns no error. -/
def lookup (env : LookupEnv) (cache : InodeCache) (dir : UInt64) (name : FileName) :
    InodeCache × Except Errno (Option UInt64) :=
  if !env.connected then (cache, .ok none)
  else
    match env.answer with
    | .error .etimedout | .error .enotconn | .error .eshutdown => (cache, .error .eagain)
    | .error .enoent => (cache, .ok none)
    | .error err => (cache, .error err)
    | .ok r =>
      if r.ino = 0 then (cache, .ok none)
      else
        match cache r.ino with
        | some i =>
          (Function.update cache r.ino (some (refreshInode env.keys i r)), .ok (some r.ino))
        | none =>
          if env.iget then
            (Function.update cache r.ino
              (some (lookedUpInode env.caller env.keys dir name r)), .ok (some r.ino))
          else (cache, .ok none)

/-- The reply that `powerfs_lookup` makes use of. -/
def LookupEnv.found (env : LookupEnv) : Option LookupReply :=
  match env.answer with
  | .error _ => none
  | .ok r => if env.connected ∧ r.ino ≠ 0 then some r else none

inductive LookupEffect (env : LookupEnv) (cache : InodeCache) (dir : UInt64) (name : FileName) :
    InodeCache → Prop where
  | absent (hfound : env.found = none) : LookupEffect env cache dir name cache
  | refreshed (r : LookupReply) (i : CachedInode) (hfound : env.found = some r)
      (hcached : cache r.ino = some i) :
      LookupEffect env cache dir name
        (Function.update cache r.ino (some (refreshInode env.keys i r)))
  | entered (r : LookupReply) (hfound : env.found = some r) (hcached : cache r.ino = none) :
      LookupEffect env cache dir name
        (Function.update cache r.ino (some (lookedUpInode env.caller env.keys dir name r)))
  | failed (r : LookupReply) (hfound : env.found = some r) (hcached : cache r.ino = none) :
      LookupEffect env cache dir name cache

theorem lookup_effect (env : LookupEnv) (cache : InodeCache) (dir : UInt64) (name : FileName) :
    LookupEffect env cache dir name (lookup env cache dir name).1 := by
  unfold lookup
  split
  · next hconn =>
    apply LookupEffect.absent
    unfold LookupEnv.found
    split
    · rfl
    · rw [if_neg (fun h => by simp [h.1] at hconn)]
  · next hconn =>
    have hconn : env.connected = true := by simpa using hconn
    split
    case h_6 r hr =>
      split
      · next hino => exact .absent (by simp [LookupEnv.found, hr, hino])
      · next hino =>
        have hfound : env.found = some r := by simp [LookupEnv.found, hr, hconn, hino]
        split
        · next i hi => exact .refreshed r i hfound hi
        · next hi =>
          split
          · exact .entered r hfound hi
          · exact .failed r hfound hi
    all_goals
      next hr => exact .absent (by simp [LookupEnv.found, hr])

section Size

variable {env : LookupEnv} {cache : InodeCache} {ino : UInt64} {i : CachedInode}

theorem isize_refreshInode (keys : Bool) (i : CachedInode) (r : LookupReply) :
    (refreshInode keys i r).isize = if i.contentSize = r.size then r.size.toInt64 else i.isize := by
  simp only [refreshInode]
  by_cases hcontent : i.contentSize = r.size
  · by_cases hsize : i.isize.toUInt64 = r.size
    · rw [if_neg (fun h => h.2 hsize), if_pos hcontent, ← hsize, Int64.toInt64_toUInt64]
    · rw [if_pos ⟨hcontent, hsize⟩, if_pos hcontent]
  · rw [if_neg (fun h => hcontent h.1), if_neg hcontent]

/-- A lookup that finds a cached inode lowers its `i_size` exactly if the size of the reply is the
last committed one and `i_size` is above it. -/
theorem isize_lookup_iff (dir : UInt64) (name : FileName) (hcached : cache ino = some i) :
    (∃ i', (lookup env cache dir name).1 ino = some i' ∧ i.isize ≤ i'.isize) ↔
      ¬ ∃ r, env.found = some r ∧ r.ino = ino ∧ r.size = i.contentSize ∧
        r.size.toInt64 < i.isize := by
  have heffect := lookup_effect env cache dir name
  generalize (lookup env cache dir name).1 = after at heffect ⊢
  -- The inode is touched only by a refresh that is about it.
  have hother (r : LookupReply) (hfound : env.found = some r) (hne : r.ino ≠ ino)
      (hafter : after ino = cache ino) :
      (∃ i', after ino = some i' ∧ i.isize ≤ i'.isize) ↔
        ¬ ∃ r, env.found = some r ∧ r.ino = ino ∧ r.size = i.contentSize ∧
          r.size.toInt64 < i.isize := by
    refine iff_of_true ⟨i, hafter.trans hcached, Int64.le_refl _⟩ ?_
    rintro ⟨r', hr', hino, -⟩
    obtain rfl := Option.some.inj (hfound.symm.trans hr')
    exact hne hino
  cases heffect with
  | absent hfound =>
    refine iff_of_true ⟨i, hcached, Int64.le_refl _⟩ ?_
    rintro ⟨r, hr, -⟩
    cases hfound.symm.trans hr
  | refreshed r j hfound hj =>
    by_cases hino : r.ino = ino
    · subst hino
      obtain rfl := Option.some.inj (hcached.symm.trans hj)
      simp only [Function.update_self, Option.some.injEq, exists_eq_left', isize_refreshInode,
        hfound, true_and, eq_comm (a := i.contentSize)]
      split
      · next hsize => simp only [hsize, true_and, Int64.not_lt]
      · next hsize => simp only [hsize, false_and, not_false_iff, Int64.le_refl]
    · exact hother r hfound hino (Function.update_of_ne (Ne.symm hino) _ _)
  | entered r hfound hnone =>
    have hino : r.ino ≠ ino := fun h => nomatch (h ▸ hnone).symm.trans hcached
    exact hother r hfound hino (Function.update_of_ne (Ne.symm hino) _ _)
  | failed r hfound hnone =>
    exact hother r hfound (fun h => nomatch (h ▸ hnone).symm.trans hcached) rfl

end Size

/-- A regular file of 4096 bytes. -/
def wholePage : LookupReply where
  ino := 7
  mode := 0o100644
  uid := 0
  gid := 0
  size := 4096
  nlink := 1
  mtime := 0
  atime := 0
  ctime := 0
  volumeId := 3
  fileKey := 5
  layout := { placement := .flat, hasPlacement := true }

def plainLookup (r : LookupReply) : LookupEnv where
  caller := ⟨0, 0, 0⟩
  connected := true
  pending := false
  first := .ok r
  again := .error .enoent
  iget := true
  keys := true

/-- The file after a lookup and a write that extends it to 8192 bytes. -/
def extendedPage : CachedInode :=
  { lookedUpInode ⟨0, 0, 0⟩ true 1 [97] wholePage with isize := 8192 }

/-- The reply of a Filer that has not seen the write and has an older size. -/
theorem isize_lookup_stale :
    ∃ i', (lookup (plainLookup { wholePage with size := 100 })
        (Function.update (fun _ => none) 7 (some extendedPage)) 1 [97]).1 7 = some i' ∧
      extendedPage.isize ≤ i'.isize := by
  apply (isize_lookup_iff 1 [97] rfl).mpr
  rintro ⟨r, hr, -, hsize, -⟩
  cases hr
  revert hsize
  decide

theorem not_isize_lookup_committed :
    ¬ ∀ (env : LookupEnv) (cache : InodeCache) (dir ino : UInt64) (name : FileName)
        (i : CachedInode), cache ino = some i → i.contentSize.toInt64 < i.isize →
      ∃ i', (lookup env cache dir name).1 ino = some i' ∧ i.isize ≤ i'.isize := by
  intro h
  obtain ⟨i', hi', hle⟩ := h (plainLookup wholePage)
    (Function.update (fun _ => none) 7 (some extendedPage)) 1 7 [97] extendedPage rfl (by decide)
  cases hi'
  revert hle
  decide

end PowerFS.Dir
