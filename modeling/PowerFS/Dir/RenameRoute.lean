import PowerFS.Dir.InodeCache
import PowerFS.Net.ShardMap

namespace PowerFS.Dir

open Net

/-! Where the commits of a file go: `pi->parent_ino`, set when an inode comes into the cache, next
to `powerfs_rename`. -/

namespace InodeCache

def modify (cache : InodeCache) (ino : UInt64) (f : CachedInode → CachedInode) : InodeCache :=
  Function.update cache ino ((cache ino).map f)

/-- `S_ISDIR` of an inode. -/
def isDirAt (cache : InodeCache) (ino : UInt64) : Bool := (cache ino).any fun i => isDir i.mode

/-- `S_ISREG` of an inode. -/
def isRegAt (cache : InodeCache) (ino : UInt64) : Bool := (cache ino).any fun i => isReg i.mode

end InodeCache

/-- `drop_nlink` of an inode that has links. -/
def dropNlink (i : CachedInode) : CachedInode :=
  if 0 < i.nlink then { i with nlink := i.nlink - 1 } else i

def incNlink (i : CachedInode) : CachedInode := { i with nlink := i.nlink + 1 }

def touch (now : UInt64) (i : CachedInode) : CachedInode := { i with mtime := now, ctime := now }

/-- The flags of a rename; `other` is any that is not supported. -/
structure RenameFlags where
  noreplace : Bool
  exchange : Bool
  whiteout : Bool
  other : Bool

/-- What happens around a rename. `target` is the inode of a positive `new_dentry` and `empty` what
`simple_empty` says of it. `applied` is whether the Filer has renamed although the request ended
with an error. -/
structure RenameEnv where
  flags : RenameFlags
  target : Option UInt64
  empty : Bool
  rpc : Except Errno Unit
  applied : Bool
  oldNow : UInt64
  newNow : UInt64

/-- The checks of `powerfs_rename`. -/
def renameCheck (env : RenameEnv) (cache : InodeCache) (inode : Option UInt64) :
    Except Errno Unit :=
  if env.flags.other then .error .einval
  else if inode = none then .error .enoent
  else
    match env.target with
    | none => .ok ()
    | some t =>
      if env.flags.exchange then .error .einval
      else if cache.isDirAt t && !env.empty then .error .enotempty
      else .ok ()

def dropTarget (env : RenameEnv) (cache : InodeCache) (newDir : UInt64) : InodeCache :=
  match env.target with
  | none => cache
  | some t =>
    (if cache.isDirAt t then cache.modify newDir dropNlink else cache).modify t dropNlink

/-- Phase C of `powerfs_rename`: the links of the target and of the directories, and the times of
the directories. -/
def renameLinks (env : RenameEnv) (cache : InodeCache) (oldDir newDir inode : UInt64) :
    InodeCache :=
  let replaced := dropTarget env cache newDir
  let moved :=
    if cache.isDirAt inode ∧ oldDir ≠ newDir then
      (replaced.modify oldDir dropNlink).modify newDir incNlink
    else replaced
  let touched := moved.modify oldDir (touch env.oldNow)
  if oldDir ≠ newDir then touched.modify newDir (touch env.newNow) else touched

/-- `powerfs_rename`. -/
def rename (env : RenameEnv) (cache : InodeCache) (oldDir newDir : UInt64)
    (inode : Option UInt64) : InodeCache × Except Errno Unit :=
  match renameCheck env cache inode, inode with
  | .error err, _ => (cache, .error err)
  | .ok (), none => (cache, .error .enoent)
  | .ok (), some ino =>
    match env.rpc with
    | .error err => (cache, .error err)
    | .ok () => (renameLinks env cache oldDir newDir ino, .ok ())

/-- The name of an inode, and its mode. -/
structure Place where
  dir : UInt64
  name : FileName
  mode : UInt16
  deriving DecidableEq

/-- A commit: the inode, the shard it is sent to, and the directory of the inode. -/
structure Commit where
  ino : UInt64
  shard : UInt64
  dir : UInt64

/-- The cache of the client, the one name of each inode that has one, and the commits so far. -/
structure RouteState where
  cache : InodeCache
  place : UInt64 → Option Place
  commits : List Commit

/-- What can happen. A commit is a size, a chunk map or inline data sent to the Filer. -/
inductive RouteEvent where
  | create (caller : Caller) (dir : UInt64) (name : FileName) (ino : UInt64) (mode : UInt16)
      (iget : Bool)
  | lookup (env : LookupEnv) (dir : UInt64) (name : FileName)
  | rename (env : RenameEnv) (oldDir : UInt64) (oldName : FileName) (newDir : UInt64)
      (newName : FileName) (ino : UInt64)
  | evict (ino : UInt64)
  | commit (ino : UInt64)

/-- The key of the routing calls, `pi->parent_ino ? pi->parent_ino : inode->i_ino`. -/
def routeKey (ino : UInt64) (i : CachedInode) : UInt64 :=
  if i.parentIno ≠ 0 then i.parentIno else ino

/-- The names after `ino` has got the name `name` in `dir`, in place of another inode if there was
one. -/
def movePlace (place : UInt64 → Option Place) (ino dir : UInt64) (name : FileName) (j : UInt64) :
    Option Place :=
  if j = ino then (place ino).map fun p => { p with dir, name }
  else (place j).filter fun p => ¬ (p.dir = dir ∧ p.name = name)

def renameApplied (env : RenameEnv) (cache : InodeCache) (ino : UInt64) : Bool :=
  match renameCheck env cache (some ino), env.rpc with
  | .error _, _ => false
  | .ok (), .ok () => true
  | .ok (), .error _ => env.applied

def lookupFinds (place : UInt64 → Option Place) (env : LookupEnv) (dir : UInt64)
    (name : FileName) : Bool :=
  env.found.all fun r => place r.ino = some ⟨dir, name, r.mode.toUInt16⟩

section Route

variable (ranges : List ShardRange)

/-- One event; `none` if it cannot happen. No directory has the number 0, and the number of a new
inode is not in use. -/
def routeExec (s : RouteState) : RouteEvent → Option RouteState
  | .create caller dir name ino mode iget =>
    if dir ≠ 0 ∧ (s.place ino).isNone ∧ (s.cache ino).isNone then
      some { s with
        place := Function.update s.place ino (some ⟨dir, name, mode⟩)
        cache :=
          if iget then Function.update s.cache ino (some (initInode caller mode dir name))
          else s.cache }
    else none
  | .lookup env dir name =>
    if dir ≠ 0 ∧ lookupFinds s.place env dir name then
      some { s with cache := (lookup env s.cache dir name).1 }
    else none
  | .rename env oldDir oldName newDir newName ino =>
    if newDir ≠ 0 ∧ (s.cache ino).isSome ∧
        (s.place ino).any fun p => p.dir = oldDir ∧ p.name = oldName then
      some { s with
        cache := (rename env s.cache oldDir newDir (some ino)).1
        place :=
          if renameApplied env s.cache ino then movePlace s.place ino newDir newName
          else s.place }
    else none
  | .evict ino => some { s with cache := Function.update s.cache ino none }
  | .commit ino =>
    match s.cache ino, s.place ino with
    | some i, some p =>
      if isReg i.mode then
        some { s with
          commits := ⟨ino, shardMapRoute ranges (routeKey ino i), p.dir⟩ :: s.commits }
      else none
    | _, _ => none

/-- Every commit went to the shard of the directory that contained the file. -/
def CommitsRouted (s : RouteState) : Prop :=
  ∀ c ∈ s.commits, c.shard = shardMapRoute ranges c.dir

/-- A commit of the inode that is made now goes to the shard of the directory that contains the
file. -/
def RoutedAt (s : RouteState) (ino : UInt64) : Prop :=
  ∀ i p, s.cache ino = some i → s.place ino = some p → isReg i.mode = true →
    shardMapRoute ranges (routeKey ino i) = shardMapRoute ranges p.dir

/-- Every commit that can be made now is routed right. -/
def RouteSound (s : RouteState) : Prop := ∀ ino, RoutedAt ranges s ino

/-- Only the root directory is cached, which has no name. -/
structure RouteInit (s : RouteState) : Prop where
  unnamed : ∀ ino i, s.cache ino = some i → s.place ino = none
  commits : s.commits = []

/-- The condition on a rename: a regular file stays in its shard. -/
def RouteOk (s : RouteState) : RouteEvent → Prop
  | .rename env oldDir _ newDir _ ino =>
    renameApplied env s.cache ino = true → s.cache.isRegAt ino = true →
      shardMapRoute ranges oldDir = shardMapRoute ranges newDir
  | _ => True

instance (s : RouteState) : (e : RouteEvent) → Decidable (RouteOk ranges s e)
  | .rename .. => inferInstanceAs (Decidable (_ → _ → _))
  | .create .. | .lookup .. | .evict _ | .commit _ => isTrue trivial

variable {ranges}

def CachedInode.routing (i : CachedInode) : UInt64 × UInt16 := (i.parentIno, i.mode)

/-- The inodes keep their parents and modes. -/
def SameRouting (cache cache' : InodeCache) : Prop :=
  ∀ j, (cache' j).map CachedInode.routing = (cache j).map CachedInode.routing

theorem SameRouting.refl (cache : InodeCache) : SameRouting cache cache := fun _ => rfl

variable {cache cache' : InodeCache}

theorem SameRouting.symm (h : SameRouting cache cache') :
    SameRouting cache' cache := fun j => (h j).symm

variable {ino : UInt64}

theorem SameRouting.exists_eq (h : SameRouting cache cache')
    {i' : CachedInode} (hi' : cache' ino = some i') :
    ∃ i, cache ino = some i ∧ i'.parentIno = i.parentIno ∧ i'.mode = i.mode := by
  have hino := h ino
  rw [hi'] at hino
  obtain ⟨i, hi, hrouting⟩ := Option.map_eq_some_iff.mp hino.symm
  exact ⟨i, hi, (congrArg Prod.fst hrouting).symm, (congrArg Prod.snd hrouting).symm⟩

theorem SameRouting.modify (h : SameRouting cache cache')
    (ino : UInt64) {f : CachedInode → CachedInode} (hf : ∀ i, (f i).routing = i.routing) :
    SameRouting cache (cache'.modify ino f) := by
  intro j
  rw [← h j]
  by_cases hj : j = ino
  · subst hj
    simp only [InodeCache.modify, Function.update_self, Option.map_map]
    congr 1
    funext i
    exact hf i
  · rw [InodeCache.modify, Function.update_of_ne hj]

theorem routing_dropNlink (i : CachedInode) : (dropNlink i).routing = i.routing := by
  unfold dropNlink
  split
  · rfl
  · rfl

section

variable (env : RenameEnv) (cache : InodeCache)

theorem sameRouting_dropTarget (newDir : UInt64) :
    SameRouting cache (dropTarget env cache newDir) := by
  unfold dropTarget
  split
  · exact .refl cache
  · apply SameRouting.modify _ _ routing_dropNlink
    split
    · exact (SameRouting.refl cache).modify _ routing_dropNlink
    · exact .refl cache

theorem sameRouting_renameLinks (oldDir newDir ino : UInt64) :
    SameRouting cache (renameLinks env cache oldDir newDir ino) := by
  have hreplaced := sameRouting_dropTarget env cache newDir
  have hmoved : SameRouting cache (if cache.isDirAt ino ∧ oldDir ≠ newDir then
      ((dropTarget env cache newDir).modify oldDir dropNlink).modify newDir incNlink
      else dropTarget env cache newDir) := by
    split
    · exact (hreplaced.modify _ routing_dropNlink).modify _ fun _ => rfl
    · exact hreplaced
  have htouched := hmoved.modify oldDir (f := touch env.oldNow) fun _ => rfl
  simp only [renameLinks]
  split
  · exact htouched.modify _ fun _ => rfl
  · exact htouched

theorem sameRouting_rename (oldDir newDir ino : UInt64) :
    SameRouting cache (rename env cache oldDir newDir (some ino)).1 := by
  unfold rename
  split
  · exact .refl cache
  · exact .refl cache
  · next h =>
    split
    · exact .refl cache
    · exact sameRouting_renameLinks _ _ _ _ _

end

/-- The cached mode is that of the name. -/
def Typed (s : RouteState) : Prop :=
  ∀ ino i p, s.cache ino = some i → s.place ino = some p → i.mode = p.mode

structure RouteInv (ranges : List ShardRange) (s : RouteState) : Prop where
  typed : Typed s
  sound : RouteSound ranges s
  commits : CommitsRouted ranges s

variable {s s' : RouteState}

theorem RouteInit.inv (h : RouteInit s) : RouteInv ranges s where
  typed ino i p hi hp := by
    rw [h.unnamed ino i hi] at hp
    cases hp
  sound ino i p hi hp := by
    rw [h.unnamed ino i hi] at hp
    cases hp
  commits c hc := by
    rw [h.commits] at hc
    cases hc

theorem RoutedAt.of_sameRouting (h : SameRouting s.cache s'.cache)
    (hplace : ∀ p, s'.place ino = some p → s.place ino = some p) (hs : RoutedAt ranges s ino) :
    RoutedAt ranges s' ino := by
  intro i' p hi' hp hreg
  obtain ⟨i, hi, hparent, hmode⟩ := h.exists_eq hi'
  rw [routeKey, hparent]
  exact hs i p hi (hplace p hp) (hmode ▸ hreg)

theorem Typed.of_sameRouting (hs : Typed s) (h : SameRouting s.cache s'.cache)
    (hplace : ∀ ino p, s'.place ino = some p → ∃ p', s.place ino = some p' ∧ p.mode = p'.mode) :
    Typed s' := by
  intro ino i' p hi' hp
  obtain ⟨i, hi, -, hmode⟩ := h.exists_eq hi'
  obtain ⟨p', hp', hpmode⟩ := hplace ino p hp
  rw [hmode, hs ino i p' hi hp', hpmode]

variable {dir : UInt64} {name : FileName}

theorem mode_movePlace {place : UInt64 → Option Place} {j : UInt64}
    {p : Place} (h : movePlace place ino dir name j = some p) :
    ∃ p', place j = some p' ∧ p.mode = p'.mode := by
  unfold movePlace at h
  split at h
  · next hj =>
    subst hj
    obtain ⟨p', hp', rfl⟩ := Option.map_eq_some_iff.mp h
    exact ⟨p', hp', rfl⟩
  · exact ⟨p, (Option.filter_eq_some_iff.mp h).1, rfl⟩

section

variable (hinv : RouteInv ranges s)
include hinv

theorem RouteInv.enter {i : CachedInode} {p : Place}
    (hcache : s'.cache = Function.update s.cache ino (some i)) (hp : s'.place ino = some p)
    (hplace : ∀ j, j ≠ ino → s'.place j = s.place j) (hcommits : s'.commits = s.commits)
    (hmode : i.mode = p.mode) (hparent : i.parentIno = p.dir) (hdir : p.dir ≠ 0) :
    RouteInv ranges s' where
  typed j i' p' hi' hp' := by
    by_cases hj : j = ino
    · subst hj
      rw [hcache, Function.update_self] at hi'
      obtain rfl := Option.some.inj hi'
      obtain rfl := Option.some.inj (hp.symm.trans hp')
      exact hmode
    · rw [hcache, Function.update_of_ne hj] at hi'
      exact hinv.typed j i' p' hi' (hplace j hj ▸ hp')
  sound j i' p' hi' hp' hreg := by
    by_cases hj : j = ino
    · subst hj
      rw [hcache, Function.update_self] at hi'
      obtain rfl := Option.some.inj hi'
      obtain rfl := Option.some.inj (hp.symm.trans hp')
      rw [routeKey, hparent, if_pos hdir]
    · rw [hcache, Function.update_of_ne hj] at hi'
      exact hinv.sound j i' p' hi' (hplace j hj ▸ hp') hreg
  commits := by
    rw [CommitsRouted, hcommits]
    exact hinv.commits

theorem RouteInv.of_sameRouting (h : SameRouting s.cache s'.cache)
    (hplace : ∀ ino p, s'.place ino = some p → s.place ino = some p)
    (hcommits : s'.commits = s.commits) : RouteInv ranges s' where
  typed := hinv.typed.of_sameRouting h fun ino p hp => ⟨p, hplace ino p hp, rfl⟩
  sound ino := (hinv.sound ino).of_sameRouting h (hplace ino)
  commits := by
    rw [CommitsRouted, hcommits]
    exact hinv.commits

theorem RouteInv.create {caller : Caller} {mode : UInt16} {iget : Bool}
    (h : routeExec ranges s (.create caller dir name ino mode iget) = some s') :
    RouteInv ranges s' := by
  simp only [routeExec, Option.ite_none_right_eq_some, Option.some.injEq] at h
  obtain ⟨⟨hdir, hplace, hcache⟩, rfl⟩ := h
  cases iget with
  | true =>
    refine hinv.enter (p := ⟨dir, name, mode⟩) rfl (Function.update_self _ _ _) ?_ rfl rfl rfl hdir
    intro j hj
    exact Function.update_of_ne hj _ _
  | false =>
    -- The inode is not cached, so that its name does not matter yet.
    have hcache : s.cache ino = none := Option.isNone_iff_eq_none.mp hcache
    have hold : ∀ j i p, s.cache j = some i →
        Function.update s.place ino (some ⟨dir, name, mode⟩) j = some p → s.place j = some p := by
      intro j i p hi hp
      have hj : j ≠ ino := fun h => nomatch (h ▸ hcache).symm.trans hi
      rwa [Function.update_of_ne hj] at hp
    exact {
      typed := fun j i p hi hp => hinv.typed j i p hi (hold j i p hi hp)
      sound := fun j i p hi hp => hinv.sound j i p hi (hold j i p hi hp)
      commits := hinv.commits }

theorem RouteInv.lookup {env : LookupEnv}
    (h : routeExec ranges s (.lookup env dir name) = some s') :
    RouteInv ranges s' := by
  simp only [routeExec, Option.ite_none_right_eq_some, Option.some.injEq] at h
  obtain ⟨⟨hdir, hfinds⟩, rfl⟩ := h
  have heffect := lookup_effect env s.cache dir name
  generalize (Dir.lookup env s.cache dir name).1 = after at heffect ⊢
  have hnamed (r : LookupReply) (hr : env.found = some r) :
      s.place r.ino = some ⟨dir, name, r.mode.toUInt16⟩ := by
    rw [lookupFinds, hr] at hfinds
    exact of_decide_eq_true hfinds
  cases heffect with
  | absent _ => exact hinv
  | failed _ _ _ => exact hinv
  | entered r hr _ => exact hinv.enter rfl (hnamed r hr) (fun _ _ => rfl) rfl rfl rfl hdir
  | refreshed r i hr hi =>
    refine hinv.of_sameRouting ?_ (fun _ _ hp => hp) rfl
    intro j
    by_cases hj : j = r.ino
    · subst hj
      have hmode := hinv.typed _ _ _ hi (hnamed r hr)
      simp [hi, CachedInode.routing, refreshInode, hmode]
    · show (Function.update s.cache r.ino _ j).map _ = _
      rw [Function.update_of_ne hj]

theorem RouteInv.commit (h : routeExec ranges s (.commit ino) = some s') : RouteInv ranges s' := by
  simp only [routeExec] at h
  split at h <;> try cases h
  next i p hi hp =>
  simp only [Option.ite_none_right_eq_some, Option.some.injEq] at h
  obtain ⟨hreg, rfl⟩ := h
  refine ⟨hinv.typed, hinv.sound, ?_⟩
  intro c hc
  obtain rfl | hc := List.mem_cons.mp hc
  · exact hinv.sound ino i p hi hp hreg
  · exact hinv.commits c hc

theorem RouteInv.evict (h : routeExec ranges s (.evict ino) = some s') : RouteInv ranges s' := by
  obtain rfl := Option.some.inj h
  have hold : ∀ j i, Function.update s.cache ino none j = some i → s.cache j = some i := by
    intro j i hi
    have hj : j ≠ ino := by
      rintro rfl
      rw [Function.update_self] at hi
      cases hi
    rwa [Function.update_of_ne hj] at hi
  exact {
    typed := fun j i p hi hp => hinv.typed j i p (hold j i hi) hp
    sound := fun j i p hi hp => hinv.sound j i p (hold j i hi) hp
    commits := hinv.commits }

theorem RouteInv.rename {env : RenameEnv} {oldDir newDir : UInt64} {oldName newName : FileName}
    (h : routeExec ranges s (.rename env oldDir oldName newDir newName ino) = some s') :
    Typed s' ∧ CommitsRouted ranges s' ∧
      (RouteSound ranges s' ↔
        RouteOk ranges s (.rename env oldDir oldName newDir newName ino)) := by
  simp only [routeExec, Option.ite_none_right_eq_some, Option.some.injEq] at h
  obtain ⟨⟨hdir, hcached, hplace⟩, rfl⟩ := h
  obtain ⟨i, hi⟩ := Option.isSome_iff_exists.mp hcached
  obtain ⟨p, hp, hat⟩ := (Option.any_eq_true _ _).mp hplace
  obtain ⟨rfl, rfl⟩ := of_decide_eq_true hat
  have hsame := sameRouting_rename env s.cache p.dir newDir ino
  simp only [RouteOk]
  cases happlied : renameApplied env s.cache ino with
  | false =>
    have hinv' : RouteInv ranges
        { s with cache := (Dir.rename env s.cache p.dir newDir (some ino)).1 } :=
      hinv.of_sameRouting hsame (fun _ _ hp => hp) rfl
    exact ⟨hinv'.typed, hinv'.commits, iff_of_true hinv'.sound fun h => (Bool.false_ne_true h).elim⟩
  | true =>
    refine ⟨hinv.typed.of_sameRouting hsame fun _ _ => mode_movePlace, hinv.commits, ?_⟩
    have hmoved : movePlace s.place ino newDir newName ino = some ⟨newDir, newName, p.mode⟩ := by
      simp [movePlace, hp]
    constructor
    · intro hsound _ hreg
      obtain ⟨i', hi', hparent, hmode⟩ := hsame.symm.exists_eq hi
      have hreg : isReg i.mode = true := by simpa [InodeCache.isRegAt, hi] using hreg
      have hnew := hsound ino i' _ hi' hmoved (hmode ▸ hreg)
      rw [← hinv.sound ino i p hi hp hreg, ← hnew, routeKey, routeKey, hparent]
    · intro hok j
      by_cases hj : j = ino
      · subst hj
        intro i' p' hi' hp' hreg'
        obtain ⟨i₀, hi₀, hparent, hmode⟩ := hsame.exists_eq hi'
        obtain rfl := Option.some.inj (hi.symm.trans hi₀)
        obtain rfl := Option.some.inj (hmoved.symm.trans hp')
        have hreg : isReg i.mode = true := hmode ▸ hreg'
        rw [routeKey, hparent]
        refine (hinv.sound j i p hi hp hreg).trans (hok rfl ?_)
        simp [InodeCache.isRegAt, hi, hreg]
      · apply (hinv.sound j).of_sameRouting hsame
        intro p' hp'
        simp only [if_true, movePlace, if_neg hj] at hp'
        exact (Option.filter_eq_some_iff.mp hp').1

theorem RouteInv.step {e : RouteEvent} (h : routeExec ranges s e = some s') :
    Typed s' ∧ CommitsRouted ranges s' ∧ (RouteSound ranges s' ↔ RouteOk ranges s e) := by
  -- Only a rename can put a file where its key does not lead.
  have hkept (hinv' : RouteInv ranges s') (hok : RouteOk ranges s e) :
      Typed s' ∧ CommitsRouted ranges s' ∧ (RouteSound ranges s' ↔ RouteOk ranges s e) :=
    ⟨hinv'.typed, hinv'.commits, iff_of_true hinv'.sound hok⟩
  cases e with
  | create => exact hkept (hinv.create h) trivial
  | lookup => exact hkept (hinv.lookup h) trivial
  | rename => exact hinv.rename h
  | evict => exact hkept (hinv.evict h) trivial
  | commit => exact hkept (hinv.commit h) trivial

end

/-- In every run in which regular files are renamed only within their shard, every commit went to
the shard of the directory that contained the file. The condition is exact. -/
theorem commitsRouted_of_routeOk (ranges : List ShardRange) (s : RouteState)
    (h : Runs.Reach (fun s e s' => routeExec ranges s e = some s') (RouteOk ranges) RouteInit s) :
    CommitsRouted ranges s ∧
      ∀ e s', routeExec ranges s e = some s' → (RouteSound ranges s' ↔ RouteOk ranges s e) := by
  have hinv : RouteInv ranges s := by
    apply h.invariant (fun _ hinit => hinit.inv)
    intro s e s' hinv hok hs
    obtain ⟨htyped, hcommits, hsound⟩ := hinv.step hs
    exact ⟨htyped, hsound.mpr hok, hcommits⟩
  exact ⟨hinv.commits, fun e s' hs => (hinv.step hs).2.2⟩

end Route

def twoShards : List ShardRange := [⟨0, 1000000, 0⟩, ⟨1000000, 2000000, 1⟩]

def noInodes : RouteState := ⟨fun _ => none, fun _ => none, []⟩

theorem noInodes_init : RouteInit noInodes where
  unnamed _ _ h := nomatch h
  commits := rfl

/-- A rename without flags to a name that is free. -/
def plainRename : RenameEnv := ⟨⟨false, false, false, false⟩, none, true, .ok (), false, 0, 0⟩

/-- A file is created, renamed into the directory `newDir` and committed. -/
def createRenameCommit (newDir : UInt64) : List RouteEvent :=
  [.create ⟨0, 0, 0⟩ 1 [97] 7 0o100644 true, .rename plainRename 1 [97] newDir [98] 7, .commit 7]

theorem commitsRouted_createRenameCommit :
    ∃ s, (createRenameCommit 2).foldlM (routeExec twoShards) noInodes = some s ∧
      s.commits.length = 1 ∧ CommitsRouted twoShards s := by
  have hok : Runs.OkAlong (routeExec twoShards) (RouteOk twoShards) noInodes
      (createRenameCommit 2) := by decide
  exact ⟨_, rfl, rfl,
    (commitsRouted_of_routeOk twoShards _ (.of_run (.start noInodes_init) hok rfl)).1⟩

/-- The directory 1000005 is in the other shard, but the commit goes to that of the old one. -/
theorem not_commitsRouted_runs :
    ¬ ∀ (ranges : List ShardRange) (s : RouteState),
      Runs.Reach (fun s e s' => routeExec ranges s e = some s') (fun _ _ => True) RouteInit s →
        CommitsRouted ranges s := by
  intro h
  obtain ⟨s, hrun, hcommits⟩ : ∃ s,
      (createRenameCommit 1000005).foldlM (routeExec twoShards) noInodes = some s ∧
        s.commits = [⟨7, 0, 1000005⟩] := ⟨_, rfl, rfl⟩
  have hrouted := h twoShards s (.run noInodes_init hrun)
    ⟨7, 0, 1000005⟩ (by rw [hcommits]; exact List.mem_cons_self)
  revert hrouted
  decide

end PowerFS.Dir
