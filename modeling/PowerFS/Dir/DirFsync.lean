import PowerFS.Dir.CreateHistory

namespace PowerFS.Dir

/-! `powerfs_dir_fsync` next to creates, unlinks and the flushes of other callers. Flush 0 is that
of the work item, and the fsync of thread `t` flushes as flush `t`. -/

/-- Where a `powerfs_dir_fsync` stands: before it reads the count, in `cancel_delayed_work_sync`,
before its flush, in it, or behind it. `before` are the creates that had returned when the call
began. -/
inductive FsyncPc where
  | idle
  | entered (before : List UInt64)
  | cancelling (before : List UInt64)
  | cancelled (before : List UInt64)
  | flushing (before : List UInt64)
  | syncing (before : List UInt64)

def FsyncPc.before : FsyncPc → List UInt64
  | .idle => []
  | .entered before | .cancelling before | .cancelled before | .flushing before
  | .syncing before => before

def FsyncPc.isIdle : FsyncPc → Bool
  | .idle => true
  | _ => false

/-- `promised` are the creates that had returned before an fsync that has returned 0. -/
structure DirFsyncState where
  hist : HistoryState
  calls : Nat → FsyncPc
  promised : List UInt64

/-- What can happen. `leave` is the return of the fsync with what `write_inode_now` and
`powerfs_cap_flush` come to. -/
inductive DirFsyncEvent where
  | hist (e : HistoryEvent)
  | enter (t : Nat)
  | check (t : Nat)
  | cancelled (t : Nat)
  | flush (t : Nat)
  | leave (t : Nat) (ok : Bool)

namespace DirFsyncState

variable (s : DirFsyncState)

def goto (t : Nat) (pc : FsyncPc) : DirFsyncState :=
  { s with calls := Function.update s.calls t pc }

/-- A thread in fsync does not start another flush. -/
def possible : HistoryEvent → Bool
  | .collect t => (s.calls t).isIdle
  | _ => true

def flushIdle (t : Nat) : Bool :=
  match s.hist.dirty.flush t with
  | .idle => true
  | _ => false

def returns (t : Nat) (before : List UInt64) (ok : Bool) : DirFsyncState :=
  { s.goto t .idle with promised := if ok then before ++ s.promised else s.promised }

end DirFsyncState

/-- One event; `none` if it cannot happen. -/
def dirFsyncExec (s : DirFsyncState) : DirFsyncEvent → Option DirFsyncState
  | .hist e =>
    if s.possible e then (historyExec s.hist e).map fun hist => { s with hist } else none
  | .enter t =>
    match s.calls t with
    | .idle =>
      if t ≠ 0 ∧ s.flushIdle t = true then
        some (s.goto t (.entered (s.hist.returned.map (·.ino))))
      else none
    | _ => none
  | .check t =>
    match s.calls t with
    | .entered before =>
      if 0 < s.hist.dirty.dir.count then some (s.goto t (.cancelling before))
      else some (s.goto t (.syncing before))
    | _ => none
  | .cancelled t =>
    match s.calls t with
    | .cancelling before => if s.flushIdle 0 then some (s.goto t (.cancelled before)) else none
    | _ => none
  | .flush t =>
    match s.calls t with
    | .cancelled before =>
      (historyExec s.hist (.collect t)).map fun hist => { s.goto t (.flushing before) with hist }
    | _ => none
  | .leave t ok =>
    match s.calls t with
    | .flushing before => if s.flushIdle t then some (s.returns t before ok) else none
    | .syncing before => some (s.returns t before ok)
    | _ => none

/-- Every create that had returned before an fsync that returned 0 was acknowledged by the Filer,
or its name was unlinked. -/
def Durable (s : DirFsyncState) : Prop :=
  ∀ ino ∈ s.promised, ino ∈ s.hist.acked ∨ ino ∈ s.hist.unlinked

structure DirFsyncInit (s : DirFsyncState) : Prop where
  hist : HistoryInit s.hist
  calls : s.calls = fun _ => .idle
  promised : s.promised = []

/-- The fsync is about to flush, and misses what flush `u` takes now. -/
def FsyncPc.Misses (u : Nat) : FsyncPc → Prop
  | .cancelling _ => u ≠ 0
  | .cancelled _ => True
  | _ => False

/-- Another flush does not take the list when an fsync is about to; the allocation and the
BatchCreate of an fsync do not fail, so that it does not put its batch back. -/
def FlushOk (s : DirFsyncState) : HistoryEvent → Prop
  | .collect u => s.hist.dirty.dir.count = 0 ∨ ∀ t, ¬ (s.calls t).Misses u
  | .alloc t ok => s.hist.dirty.allocates t ok = true ∨ ∀ before, s.calls t ≠ .flushing before
  | .settle t => ∀ before, s.calls t ≠ .flushing before
  | _ => True

/-- Creates are not lost (each gets its entry, replies count whole batches, no flush gives up and no
inode ends with a create left). When an fsync reads the count, a count of 0 is right, and no flush
has taken creates but that of the work item, for which it then waits. -/
def DirFsyncOk (s : DirFsyncState) : DirFsyncEvent → Prop
  | .hist e => HistoryOk false s.hist e ∧ FlushOk s e
  | .check _ => (¬ 0 < s.hist.dirty.dir.count → s.hist.dirty.dir.creates = []) ∧
      ∀ u, (s.hist.dirty.flush u).batch ≠ [] → u = 0 ∧ 0 < s.hist.dirty.dir.count
  | .flush t => (s.hist.dirty.dir.count = 0 → s.hist.dirty.dir.creates = []) ∧
      ∀ u, u ≠ t → ¬ (s.calls u).Misses t
  | _ => True

/-- Where the creates from before an fsync of thread `t` may still be. -/
def FsyncPc.Allows (t : Nat) : FsyncPc → Option Nat → Prop
  | .idle, _ | .entered _, _ => True
  | .cancelling _, p => p = none ∨ p = some 0
  | .cancelled _, p => p = none
  | .flushing _, p => p = some t
  | .syncing _, _ => False

structure DirFsyncInv (s : DirFsyncState) : Prop where
  hist : HistoryInv s.hist
  conserved : s.hist.Conserved false
  before : ∀ t, ∀ ino ∈ (s.calls t).before, ino ∈ s.hist.returned.map (·.ino)
  placed : ∀ t, ∀ ino ∈ (s.calls t).before, ∀ p, s.hist.dirty.At ino p → (s.calls t).Allows t p
  durable : Durable s

variable {s s' : DirFsyncState} {e : DirFsyncEvent} {t u : Nat} {pc : FsyncPc}

theorem FsyncPc.Allows.taken (h : pc.Allows t none) (hmiss : ¬ pc.Misses u) :
    pc.Allows t (some u) := by
  cases pc with
  | idle | entered => trivial
  | cancelling => exact .inr (congrArg some (not_not.mp hmiss))
  | cancelled => exact absurd trivial hmiss
  | flushing => cases h
  | syncing => exact h

theorem FsyncPc.Allows.putBack (h : pc.Allows t (some u))
    (hnot : u = t → ∀ before, pc ≠ .flushing before) : pc.Allows t none := by
  cases pc with
  | idle | entered => trivial
  | cancelling => exact .inl rfl
  | cancelled => cases h
  | flushing before => exact absurd rfl (hnot (Option.some.inj h) before)
  | syncing => exact h

theorem FlushOk.allows {he : HistoryEvent} {p q : Option Nat} (hok : FlushOk s he)
    (hmoves : Moves s.hist.dirty he p q) (h : (s.calls t).Allows t p) :
    (s.calls t).Allows t q := by
  cases he with
  | collect u =>
    obtain ⟨hcount, rfl, rfl⟩ := hmoves
    exact h.taken (hok.resolve_left hcount t)
  | alloc u ok =>
    obtain ⟨hfails, rfl, rfl⟩ := hmoves
    refine h.putBack fun hu => hu ▸ hok.resolve_left ?_
    rw [hfails]
    exact Bool.false_ne_true
  | settle u =>
    obtain ⟨rfl, rfl⟩ := hmoves
    exact h.putBack fun hu => hu ▸ hok
  | _ => cases hmoves

theorem excused_false_iff {h : HistoryState} {ino : UInt64} :
    h.Excused false ino ↔ ino ∈ h.acked ∨ ino ∈ h.unlinked := by
  simp [HistoryState.Excused]

theorem DirFsyncInv.history {he : HistoryEvent} {hist : HistoryState} {calls : Nat → FsyncPc}
    (h : DirFsyncInv s) (hok : HistoryOk false s.hist he) (hs : historyExec s.hist he = some hist)
    (hbefore : ∀ t, (calls t).before = (s.calls t).before)
    (hallows : ∀ t ino p q, hist.dirty.At ino q → p = q ∨ Moves s.hist.dirty he p q →
      (s.calls t).Allows t p → (calls t).Allows t q) : DirFsyncInv { s with hist, calls } := by
  have hcase := historyExec_case hs
  refine ⟨hcase.inv h.hist, (hcase.conserved_iff h.hist h.conserved).mpr hok,
    fun t ino hino => ?_, fun t ino hino q hq => ?_, fun ino hino => ?_⟩
  · rw [hbefore] at hino
    exact List.map_subset _ hcase.returned_subset (h.before t ino hino)
  · rw [hbefore] at hino
    obtain ⟨p, hp, hpq⟩ := hcase.at_of_step (h.before t ino hino) hq
    exact hallows t ino p q hq hpq (h.placed t ino hino p hp)
  · exact excused_false_iff.mp (hcase.excused (excused_false_iff.mpr (h.durable ino hino)))

theorem goto_calls (t : Nat) (pc : FsyncPc) (u : Nat) :
    (s.goto t pc).calls u = if u = t then pc else s.calls u :=
  Function.update_apply ..

theorem DirFsyncInv.goto (h : DirFsyncInv s)
    (hbefore : ∀ ino ∈ pc.before, ino ∈ s.hist.returned.map (·.ino))
    (hplaced : ∀ ino ∈ pc.before, ∀ p, s.hist.dirty.At ino p → pc.Allows t p) :
    DirFsyncInv (s.goto t pc) := by
  refine ⟨h.hist, h.conserved, fun u => ?_, fun u => ?_, h.durable⟩ <;> rw [goto_calls]
  · split_ifs
    · exact hbefore
    · exact h.before u
  · split_ifs with hu
    · rw [hu]
      exact hplaced
    · exact h.placed u

/-- The fsync of thread `t` goes on. -/
theorem DirFsyncInv.goOn (h : DirFsyncInv s) (hpc : (s.calls t).before = pc.before)
    (hplaced : ∀ ino p, s.hist.dirty.At ino p → (s.calls t).Allows t p → pc.Allows t p) :
    DirFsyncInv (s.goto t pc) :=
  h.goto (fun ino hino => h.before t ino (hpc ▸ hino)) fun ino hino p hp =>
    hplaced ino p hp (h.placed t ino (hpc ▸ hino) p hp)

theorem not_at_of_flushIdle {ino : UInt64} (h : s.flushIdle t = true) :
    ¬ s.hist.dirty.At ino (some t) := by
  rw [DirFsyncState.flushIdle] at h
  split at h
  · next hpc => simp [DirtyState.At, hpc, FlushPc.batch]
  · cases h

theorem DirFsyncInv.check (h : DirFsyncInv s) (hok : DirFsyncOk s (.check t))
    (hs : dirFsyncExec s (.check t) = some s') : DirFsyncInv s' := by
  simp only [dirFsyncExec] at hs
  split at hs <;> try cases hs
  next before hpc =>
  -- Where a create can be when the fsync reads the count.
  have hplace : ∀ ino p, s.hist.dirty.At ino p →
      0 < s.hist.dirty.dir.count ∧ (p = none ∨ p = some 0) := by
    intro ino p hp
    cases p with
    | none =>
      refine ⟨not_not.mp fun hcount => ?_, .inl rfl⟩
      rw [DirtyState.At, hok.1 hcount] at hp
      cases hp
    | some u =>
      obtain ⟨rfl, hcount⟩ := hok.2 u fun hnil => by
        rw [DirtyState.At, hnil] at hp
        cases hp
      exact ⟨hcount, .inr rfl⟩
  split_ifs at hs with hcount <;> cases hs
  · exact h.goOn (by rw [hpc]; rfl) fun ino p hp _ => (hplace ino p hp).2
  · exact h.goOn (by rw [hpc]; rfl) fun ino p hp _ => hcount (hplace ino p hp).1

theorem DirFsyncInv.flush (h : DirFsyncInv s) (hok : DirFsyncOk s (.flush t))
    (hs : dirFsyncExec s (.flush t) = some s') : DirFsyncInv s' := by
  obtain ⟨hcount, hothers⟩ := hok
  simp only [dirFsyncExec] at hs
  split at hs <;> try cases hs
  next before hpc =>
  obtain ⟨hist, hhist, rfl⟩ := Option.map_eq_some_iff.mp hs
  have hempty : hist.dirty.dir.creates = [] := by
    obtain ⟨d, hd, rfl⟩ := Option.map_eq_some_iff.mp hhist
    cases dirtyExec_case hd with
    | nothing _ hzero => exact hcount hzero
    | collected => rfl
  have hok : HistoryOk false s.hist (.collect t) := trivial
  refine h.history hok hhist (fun u => ?_) fun u ino p q hq hpq hallows => ?_
  · rw [goto_calls]
    split_ifs with hu
    · rw [hu, hpc]
      rfl
    · rfl
  · rw [goto_calls]
    split_ifs with hu
    · -- the list is empty now, so that the creates are in the batch
      rw [hu, hpc] at hallows
      obtain rfl : p = none := hallows
      obtain rfl | ⟨-, -, rfl⟩ := hpq
      · rw [DirtyState.At, hempty] at hq
        cases hq
      · exact congrArg some hu.symm
    · obtain rfl | ⟨-, rfl, rfl⟩ := hpq
      · exact hallows
      · exact hallows.taken (hothers u hu)

theorem DirFsyncInv.returns {before : List UInt64} {ok : Bool} (h : DirFsyncInv s)
    (hpc : (s.calls t).before = before)
    (hnone : ∀ ino p, s.hist.dirty.At ino p → ¬ (s.calls t).Allows t p) :
    DirFsyncInv (s.returns t before ok) := by
  have hidle : DirFsyncInv (s.goto t .idle) := h.goto nofun nofun
  refine ⟨h.hist, h.conserved, hidle.before, hidle.placed, fun ino hino => ?_⟩
  have hold : ino ∈ before ∨ ino ∈ s.promised := by
    cases ok with
    | false => exact .inr hino
    | true => exact List.mem_append.mp hino
  obtain hino | hino := hold
  · -- The create returned, so it is pending or has an excuse, and it is pending nowhere.
    rw [← hpc] at hino
    obtain ⟨dc, hdc, rfl⟩ := List.mem_map.mp (h.before t ino hino)
    obtain ⟨p, hp⟩ | hexcused := h.conserved dc hdc
    · exact absurd (h.placed t dc.ino hino p hp) (hnone dc.ino p hp)
    · exact excused_false_iff.mp hexcused
  · exact h.durable ino hino

theorem DirFsyncInv.step (h : DirFsyncInv s) (hok : DirFsyncOk s e)
    (hs : dirFsyncExec s e = some s') : DirFsyncInv s' := by
  cases e with simp only [dirFsyncExec] at hs
  | hist he =>
    split_ifs at hs
    obtain ⟨hist, hhist, rfl⟩ := Option.map_eq_some_iff.mp hs
    refine h.history hok.1 hhist (fun _ => rfl) fun t ino p q _ hpq hallows => ?_
    obtain rfl | hmoves := hpq
    · exact hallows
    · exact hok.2.allows hmoves hallows
  | enter t =>
    split at hs <;> try cases hs
    split_ifs at hs
    cases hs
    exact h.goto (fun _ hino => hino) fun _ _ _ _ => trivial
  | check t => exact h.check hok hs
  | cancelled t =>
    split at hs <;> try cases hs
    next before hpc =>
    split_ifs at hs with hidle
    cases hs
    refine h.goOn (by rw [hpc]; rfl) fun ino p hp hallows => ?_
    rw [hpc] at hallows
    obtain hnone | rfl := hallows
    · exact hnone
    · exact absurd hp (not_at_of_flushIdle hidle)
  | flush t => exact h.flush hok hs
  | leave t ok =>
    split at hs <;> try cases hs
    · next before hpc =>
      split_ifs at hs with hidle
      cases hs
      refine h.returns (by rw [hpc]; rfl) fun ino p hp hallows => ?_
      rw [hpc] at hallows
      cases hallows
      exact not_at_of_flushIdle hidle hp
    · next before hpc =>
      refine h.returns (by rw [hpc]; rfl) fun ino p hp hallows => ?_
      rwa [hpc] at hallows

theorem DirFsyncInit.inv (h : DirFsyncInit s) : DirFsyncInv s := by
  obtain ⟨hinv, hcons⟩ := h.hist.inv false
  have hnone : ∀ t, ¬ ∃ ino, ino ∈ (s.calls t).before := by
    rintro t ⟨ino, hino⟩
    rw [h.calls] at hino
    cases hino
  refine ⟨hinv, hcons, fun t ino hino => absurd ⟨ino, hino⟩ (hnone t),
    fun t ino hino => absurd ⟨ino, hino⟩ (hnone t), fun ino hino => ?_⟩
  rw [h.promised] at hino
  cases hino

end PowerFS.Dir
