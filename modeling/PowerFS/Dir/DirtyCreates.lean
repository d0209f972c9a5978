import PowerFS.Lib.Runs
import Mathlib.Algebra.Group.Nat.Defs
import Mathlib.Logic.Function.Basic

namespace PowerFS.Dir

/-! The optimistic creates of one directory that the Filer has not confirmed yet, and the flushes
that send them. Each operation is one hold of `dirty_creates_lock`. -/

abbrev FileName := List UInt8

/-- `powerfs_dirty_create`. -/
structure DirtyCreate where
  ino : UInt64
  name : FileName
  mtime : UInt64 := 0
  atime : UInt64 := 0
  deriving DecidableEq

/-- `POWERFS_DIRTY_FLUSH_MAX_RETRIES`. -/
def dirtyFlushMaxRetries : Nat := 150

/-- The fields of a directory's inode that the optimistic creates use. -/
structure DirtyCreates where
  creates : List DirtyCreate
  count : Int32
  retries : Nat
  flushing : Bool

def setTimes (ino mtime atime : UInt64) : List DirtyCreate → List DirtyCreate
  | [] => []
  | dc :: rest =>
    if dc.ino = ino then
      { dc with
        mtime := if mtime = 0 then dc.mtime else mtime
        atime := if atime = 0 then dc.atime else atime } :: rest
    else dc :: setTimes ino mtime atime rest

namespace DirtyCreates

variable (d : DirtyCreates)

/-- The end of the fast path of `__powerfs_do_create_core`. -/
def add (dc : DirtyCreate) : DirtyCreates :=
  { d with creates := d.creates ++ [dc], count := d.count + 1 }

/-- `powerfs_cancel_dirty_create`; `none` if there is no create of this name. -/
def cancel (name : FileName) : Option DirtyCreates :=
  if d.creates.any fun dc => dc.name = name then
    some { d with creates := d.creates.eraseP fun dc => dc.name = name, count := d.count - 1 }
  else none

/-- `powerfs_dirty_create_update_times`. -/
def updateTimes (ino mtime atime : UInt64) : DirtyCreates :=
  { d with creates := setTimes ino mtime atime d.creates }

def detach : DirtyCreates := { d with creates := [], count := 0, flushing := true }

/-- A flush puts its batch back in front. The count is stored, not added. -/
def requeue (batch : List DirtyCreate) (count : Int32) : DirtyCreates :=
  { d with creates := batch ++ d.creates, count := count }

/-- After too many failures everything is freed. -/
def giveUp : DirtyCreates := { d with creates := [], count := 0, retries := 0 }

/-- `powerfs_evict_inode` frees what its flush has left. -/
def evict : DirtyCreates := if 0 < d.count then { d with creates := [], count := 0 } else d

end DirtyCreates

/-- Where a `powerfs_flush_dirty_creates` stands, with the lock dropped: before `kmalloc_array`, in
the BatchCreate, after a failed one, before `dirty_creates_flushing` is cleared. -/
inductive FlushPc where
  | idle
  | collected (batch : List DirtyCreate) (count : Int32)
  | sending (batch : List DirtyCreate) (count : Int32)
  | failed (batch : List DirtyCreate) (count : Int32)
  | finish

def FlushPc.batch : FlushPc → List DirtyCreate
  | .collected batch _ | .sending batch _ | .failed batch _ => batch
  | _ => []

structure DirtyState where
  dir : DirtyCreates
  flush : Nat → FlushPc

def DirtyState.set (s : DirtyState) (d : DirtyCreates) (t : Nat) (pc : FlushPc) : DirtyState :=
  ⟨d, Function.update s.flush t pc⟩

/-- What can happen to the creates of a directory. `alloc` is the result of `kmalloc_array`, which
fails for a negative count, and `reply` that of the BatchCreate. -/
inductive DirtyEvent where
  | create (dc : DirtyCreate)
  | cancel (name : FileName)
  | updateTimes (ino mtime atime : UInt64)
  | collect (t : Nat)
  | alloc (t : Nat) (ok : Bool)
  | reply (t : Nat) (ok : Bool)
  | settle (t : Nat)
  | finish (t : Nat)
  | evict

/-- One event; `none` if it cannot happen. -/
def dirtyExec (s : DirtyState) : DirtyEvent → Option DirtyState
  | .create dc => some { s with dir := s.dir.add dc }
  | .cancel name => some { s with dir := (s.dir.cancel name).getD s.dir }
  | .updateTimes ino mtime atime => some { s with dir := s.dir.updateTimes ino mtime atime }
  | .collect t =>
    match s.flush t with
    | .idle =>
      if s.dir.count = 0 then some s
      else some (s.set s.dir.detach t (.collected s.dir.creates s.dir.count))
    | _ => none
  | .alloc t ok =>
    match s.flush t with
    | .collected batch count =>
      if ok && decide (0 ≤ count) then some (s.set s.dir t (.sending batch count))
      else some (s.set { s.dir.requeue batch count with flushing := false } t .idle)
    | _ => none
  | .reply t ok =>
    match s.flush t with
    | .sending batch count =>
      if ok then some (s.set { s.dir with retries := 0 } t .finish)
      else some (s.set { s.dir with retries := s.dir.retries + 1 } t (.failed batch count))
    | _ => none
  | .settle t =>
    match s.flush t with
    | .failed batch count =>
      if dirtyFlushMaxRetries < s.dir.retries then some (s.set s.dir.giveUp t .finish)
      else some (s.set (s.dir.requeue batch count) t .finish)
    | _ => none
  | .finish t =>
    match s.flush t with
    | .finish => some (s.set { s.dir with flushing := false } t .idle)
    | _ => none
  | .evict => some { s with dir := s.dir.evict }

/-- A create of this name is queued or taken by a flush. -/
def DirtyState.Holds (s : DirtyState) (name : FileName) : Prop :=
  name ∈ s.dir.creates.map (·.name) ∨ ∃ t, name ∈ (s.flush t).batch.map (·.name)

def DirtyCreates.Matches (d : DirtyCreates) : Prop := d.count.toInt = d.creates.length

/-- The count is right, and no flush has copied more creates than its array holds. -/
structure DirtySafe (s : DirtyState) : Prop where
  count : s.dir.Matches
  copied : ∀ t batch count, s.flush t = .sending batch count → batch.length ≤ count.toInt

/-- A new directory inode. -/
structure DirtyInit (s : DirtyState) : Prop where
  creates : s.dir.creates = []
  count : s.dir.count = 0
  flush : s.flush = fun _ => .idle

/-- The condition on an event. A create finds room in an `int`, and a flush puts its batch back only
onto an empty list. -/
def DirtyOk (s : DirtyState) : DirtyEvent → Prop
  | .create _ => s.dir.creates.length + 1 < 2 ^ 31
  | .alloc _ ok => ok = true ∨ s.dir.creates = []
  | .settle _ => dirtyFlushMaxRetries < s.dir.retries ∨ s.dir.creates = []
  | _ => True

instance (s : DirtyState) : (e : DirtyEvent) → Decidable (DirtyOk s e)
  | .create _ => inferInstanceAs (Decidable (_ < _))
  | .alloc .. | .settle _ => inferInstanceAs (Decidable (_ ∨ _))
  | .cancel _ | .updateTimes .. | .collect _ | .reply .. | .finish _ | .evict =>
    inferInstanceAs (Decidable True)

def FlushPc.Counted : FlushPc → Prop
  | .collected batch count | .sending batch count | .failed batch count =>
    count.toInt = batch.length
  | _ => True

structure DirtyInv (s : DirtyState) : Prop where
  count : s.dir.Matches
  flush : ∀ t, (s.flush t).Counted

variable {d : DirtyCreates} {s s' : DirtyState}

inductive DirtyCase (s : DirtyState) : DirtyEvent → DirtyState → Prop
  | create (dc : DirtyCreate) : DirtyCase s (.create dc) { s with dir := s.dir.add dc }
  | cancel (name : FileName) :
      DirtyCase s (.cancel name) { s with dir := (s.dir.cancel name).getD s.dir }
  | updateTimes (ino mtime atime : UInt64) :
      DirtyCase s (.updateTimes ino mtime atime)
        { s with dir := s.dir.updateTimes ino mtime atime }
  | nothing {t : Nat} (hpc : s.flush t = .idle) (hcount : s.dir.count = 0) :
      DirtyCase s (.collect t) s
  | collected {t : Nat} (hpc : s.flush t = .idle) (hcount : s.dir.count ≠ 0) :
      DirtyCase s (.collect t) (s.set s.dir.detach t (.collected s.dir.creates s.dir.count))
  | sent {t : Nat} {ok : Bool} {batch : List DirtyCreate} {count : Int32}
      (hpc : s.flush t = .collected batch count) :
      DirtyCase s (.alloc t ok) (s.set s.dir t (.sending batch count))
  | unsent {t : Nat} {ok : Bool} {batch : List DirtyCreate} {count : Int32}
      (hpc : s.flush t = .collected batch count) (hnull : ¬ (ok = true ∧ 0 ≤ count)) :
      DirtyCase s (.alloc t ok)
        (s.set { s.dir.requeue batch count with flushing := false } t .idle)
  | replied {t : Nat} {batch : List DirtyCreate} {count : Int32}
      (hpc : s.flush t = .sending batch count) :
      DirtyCase s (.reply t true) (s.set { s.dir with retries := 0 } t .finish)
  | refused {t : Nat} {batch : List DirtyCreate} {count : Int32}
      (hpc : s.flush t = .sending batch count) :
      DirtyCase s (.reply t false)
        (s.set { s.dir with retries := s.dir.retries + 1 } t (.failed batch count))
  | gaveUp {t : Nat} {batch : List DirtyCreate} {count : Int32}
      (hpc : s.flush t = .failed batch count) (hmany : dirtyFlushMaxRetries < s.dir.retries) :
      DirtyCase s (.settle t) (s.set s.dir.giveUp t .finish)
  | requeued {t : Nat} {batch : List DirtyCreate} {count : Int32}
      (hpc : s.flush t = .failed batch count) (hfew : ¬ dirtyFlushMaxRetries < s.dir.retries) :
      DirtyCase s (.settle t) (s.set (s.dir.requeue batch count) t .finish)
  | finished {t : Nat} (hpc : s.flush t = .finish) :
      DirtyCase s (.finish t) (s.set { s.dir with flushing := false } t .idle)
  | evict : DirtyCase s .evict { s with dir := s.dir.evict }

theorem dirtyExec_case {e : DirtyEvent} (hs : dirtyExec s e = some s') : DirtyCase s e s' := by
  cases e with simp only [dirtyExec] at hs
  | create dc =>
    cases hs
    exact .create dc
  | cancel name =>
    cases hs
    exact .cancel name
  | updateTimes ino mtime atime =>
    cases hs
    exact .updateTimes ino mtime atime
  | collect t =>
    split at hs <;> try cases hs
    next hpc =>
    split at hs <;> cases hs
    · next hcount => exact .nothing hpc hcount
    · next hcount => exact .collected hpc hcount
  | alloc t ok =>
    split at hs <;> try cases hs
    next hpc =>
    split at hs <;> cases hs
    · exact .sent hpc
    · next hnull => exact .unsent hpc (by simpa using hnull)
  | reply t ok =>
    split at hs <;> try cases hs
    next hpc =>
    cases ok with
    | true =>
      cases hs
      exact .replied hpc
    | false =>
      cases hs
      exact .refused hpc
  | settle t =>
    split at hs <;> try cases hs
    next hpc =>
    split at hs <;> cases hs
    · next hmany => exact .gaveUp hpc hmany
    · next hfew => exact .requeued hpc hfew
  | finish t =>
    split at hs <;> cases hs
    next hpc => exact .finished hpc
  | evict =>
    cases hs
    exact .evict

theorem map_setTimes {β : Type} {f : DirtyCreate → β}
    (hf : ∀ dc mtime atime, f { dc with mtime, atime } = f dc) (ino mtime atime : UInt64)
    (l : List DirtyCreate) : (setTimes ino mtime atime l).map f = l.map f := by
  induction l with
  | nil => rfl
  | cons dc rest ih =>
    rw [setTimes]
    split
    · rw [List.map_cons, List.map_cons, hf]
    · rw [List.map_cons, ih, List.map_cons]

@[simp] theorem length_setTimes (ino mtime atime : UInt64) (l : List DirtyCreate) :
    (setTimes ino mtime atime l).length = l.length := by
  have hmap := map_setTimes (f := fun _ => ()) (fun _ _ _ => rfl) ino mtime atime l
  simpa using congrArg List.length hmap

namespace DirtyCreates

theorem Matches.add (h : d.Matches) (hroom : d.creates.length + 1 < 2 ^ 31) (dc : DirtyCreate) :
    (d.add dc).Matches := by
  have hcount : (d.count + 1).toInt = d.count.toInt + 1 := by
    rw [Int32.toInt_add, Int32.toInt_one]
    apply Int.bmod_eq_of_le
    · have := d.count.le_toInt
      omega
    · rw [h]
      omega
  rw [Matches, DirtyCreates.add, hcount, h, List.length_append]
  rfl

theorem Matches.cancel (h : d.Matches) (name : FileName) :
    ((d.cancel name).getD d).Matches := by
  unfold DirtyCreates.cancel
  split
  · next hfound =>
    obtain ⟨dc, hdc, hname⟩ := List.any_eq_true.mp hfound
    have hlen := List.length_pos_of_mem hdc
    have hcount : (d.count - 1).toInt = d.count.toInt - 1 := by
      rw [Int32.toInt_sub, Int32.toInt_one]
      apply Int.bmod_eq_of_le
      · rw [h]
        omega
      · have := d.count.toInt_lt
        omega
    have hlast : (d.creates.eraseP fun dc => dc.name = name).length = d.creates.length - 1 :=
      List.length_eraseP_of_mem hdc hname
    rw [Option.getD_some, Matches, hcount, h, hlast]
    omega
  · exact h

theorem requeue_matches_iff {batch : List DirtyCreate} {count : Int32}
    (h : count.toInt = batch.length) : (d.requeue batch count).Matches ↔ d.creates = [] := by
  simp only [Matches, requeue, List.length_append, ← List.length_eq_zero_iff]
  omega

theorem Matches.evict (h : d.Matches) : d.evict.Matches := by
  unfold DirtyCreates.evict
  split
  · rfl
  · exact h

end DirtyCreates

theorem DirtyInit.inv (h : DirtyInit s) : DirtyInv s := by
  constructor
  · rw [DirtyCreates.Matches, h.count, h.creates]
    rfl
  · intro t
    rw [h.flush]
    trivial

section

variable (h : DirtyInv s)
include h

theorem DirtyInv.counted {t : Nat} {pc : FlushPc} (hpc : s.flush t = pc) :
    pc.Counted := hpc ▸ h.flush t

/-- The count that `kmalloc_array` gets is not negative. -/
theorem DirtyInv.count_nonneg {t : Nat} {batch : List DirtyCreate} {count : Int32}
    (hpc : s.flush t = .collected batch count) : 0 ≤ count := by
  have hbatch : count.toInt = batch.length := h.counted hpc
  rw [Int32.le_iff_toInt_le, hbatch]
  exact Int.natCast_nonneg _

theorem DirtyInv.creates_eq_nil (hcount : s.dir.count = 0) : s.dir.creates = [] := by
  have hlen : s.dir.count.toInt = s.dir.creates.length := h.count
  rw [hcount] at hlen
  exact List.length_eq_zero_iff.mp (Int.natCast_eq_zero.mp hlen.symm)

theorem DirtyInv.safe : DirtySafe s := by
  refine ⟨h.count, fun t batch count hpc => ?_⟩
  have hbatch : count.toInt = batch.length := h.counted hpc
  exact Int.le_of_eq hbatch.symm

theorem DirtyInv.set {t : Nat} {pc : FlushPc} (hcount : d.Matches)
    (hpc : pc.Counted) : DirtyInv (s.set d t pc) := by
  refine ⟨hcount, fun u => ?_⟩
  by_cases hu : u = t
  · subst hu
    simpa [DirtyState.set] using hpc
  · simpa [DirtyState.set, hu] using h.flush u

theorem DirtyInv.step {e : DirtyEvent} (hok : DirtyOk s e)
    (hs : dirtyExec s e = some s') : DirtyInv s' := by
  cases dirtyExec_case hs with
  | create dc => exact ⟨h.count.add hok dc, h.flush⟩
  | cancel name => exact ⟨h.count.cancel name, h.flush⟩
  | updateTimes ino mtime atime =>
    refine ⟨?_, h.flush⟩
    rw [DirtyCreates.Matches, DirtyCreates.updateTimes, length_setTimes]
    exact h.count
  | nothing => exact h
  | collected => exact h.set rfl h.count
  | sent hpc | refused hpc =>
    have hbatch := h.counted hpc
    exact h.set h.count hbatch
  | unsent hpc hnull =>
    -- The count is not negative, so the allocation itself has failed.
    have hempty : s.dir.creates = [] := hok.resolve_left fun ht => hnull ⟨ht, h.count_nonneg hpc⟩
    exact h.set ((DirtyCreates.requeue_matches_iff (h.counted hpc)).mpr hempty) trivial
  | replied | finished => exact h.set h.count trivial
  | gaveUp => exact h.set rfl trivial
  | requeued hpc hfew =>
    have hempty : s.dir.creates = [] := hok.resolve_left hfew
    exact h.set ((DirtyCreates.requeue_matches_iff (h.counted hpc)).mpr hempty) trivial
  | evict => exact ⟨h.count.evict, h.flush⟩

end

namespace DirtyState

variable {t : Nat} {pc : FlushPc} {name : FileName}

theorem Holds.of_batch (hpc : s.flush t = pc) (h : name ∈ pc.batch.map (·.name)) : s.Holds name :=
  .inr ⟨t, hpc ▸ h⟩

theorem Holds.of_requeue (hpc : s.flush t = pc)
    (h : name ∈ (pc.batch ++ s.dir.creates).map (·.name)) : s.Holds name := by
  rw [List.map_append, List.mem_append] at h
  obtain h | h := h
  · exact .of_batch hpc h
  · exact .inl h

theorem Holds.of_set (h : (s.set d t pc).Holds name)
    (hdir : name ∈ d.creates.map (·.name) → s.Holds name)
    (hbatch : name ∈ pc.batch.map (·.name) → s.Holds name) : s.Holds name := by
  obtain h | ⟨u, h⟩ := h
  · exact hdir h
  · by_cases hu : u = t
    · subst hu
      exact hbatch (by simpa [DirtyState.set] using h)
    · exact .inr ⟨u, by simpa [DirtyState.set, hu] using h⟩

theorem Holds.of_step {e : DirtyEvent} (h : s'.Holds name) (hs : dirtyExec s e = some s') :
    s.Holds name ∨ ∃ dc, e = .create dc ∧ dc.name = name := by
  cases dirtyExec_case hs with
  | create dc =>
    obtain h | h := h
    · obtain h | h : name ∈ s.dir.creates.map (·.name) ∨ name = dc.name := by
        simpa [DirtyCreates.add] using h
      · exact .inl (.inl h)
      · exact .inr ⟨dc, rfl, h.symm⟩
    · exact .inl (.inr h)
  | cancel name' =>
    refine .inl (h.imp_left fun h => ?_)
    simp only [DirtyCreates.cancel] at h
    split at h
    · exact (List.eraseP_sublist.map _).subset h
    · exact h
  | updateTimes ino mtime atime =>
    rw [Holds, DirtyCreates.updateTimes, map_setTimes fun _ _ _ => rfl] at h
    exact .inl h
  | nothing => exact .inl h
  | collected => exact .inl (h.of_set nofun .inl)
  | sent hpc | refused hpc => exact .inl (h.of_set .inl fun hmem => .of_batch hpc hmem)
  | unsent hpc | requeued hpc => exact .inl (h.of_set (fun hmem => .of_requeue hpc hmem) nofun)
  | replied | finished => exact .inl (h.of_set .inl nofun)
  | gaveUp => exact .inl (h.of_set nofun nofun)
  | evict =>
    refine .inl (h.imp_left fun h => ?_)
    simp only [DirtyCreates.evict] at h
    split at h
    · cases h
    · exact h

end DirtyState

def newDirectory : DirtyState := ⟨⟨[], 0, 0, false⟩, fun _ => .idle⟩

end PowerFS.Dir
