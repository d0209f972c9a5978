import PowerFS.Dir.DirtyCreates
import Mathlib.Tactic.SplitIfs

namespace PowerFS.Dir

/-! What becomes of the optimistic creates of a directory. Next to the queue and its flushes stands
the history: which creates returned success, which of them a reply of the Filer counted, which were
unlinked, and how many BatchCreate requests with each of them failed. -/

/-- What `powerfs_net_batch_create` comes to: it returns 0 and the reply counts these inodes, its
request failed, or it failed before it sent one. -/
inductive BatchResult where
  | counted (inos : List UInt64)
  | failed
  | unsent

structure HistoryState where
  dirty : DirtyState
  returned : List DirtyCreate
  acked : List UInt64
  unlinked : List UInt64
  failures : UInt64 → Nat

/-- The inodes of a BatchCreate: its array holds `count` entries. -/
def sentInos (batch : List DirtyCreate) (count : Int32) : List UInt64 :=
  (batch.take count.toInt.toNat).map (·.ino)

/-- `alloc` of a create is the result of `kzalloc`; `cancel` is the start of `powerfs_unlink` and
`unlinked` its request, if that succeeds; `evict` comes after the flush of `powerfs_evict_inode`. -/
inductive HistoryEvent where
  | create (dc : DirtyCreate) (alloc : Bool)
  | cancel (name : FileName)
  | unlinked (name : FileName)
  | updateTimes (ino mtime atime : UInt64)
  | collect (t : Nat)
  | alloc (t : Nat) (ok : Bool)
  | reply (t : Nat) (result : BatchResult)
  | settle (t : Nat)
  | finish (t : Nat)
  | evict

namespace HistoryState

variable (s : HistoryState)

def step (e : DirtyEvent) : Option HistoryState :=
  (dirtyExec s.dirty e).map fun dirty => { s with dirty }

def inosOf (name : FileName) : List UInt64 :=
  ((s.returned ++ s.dirty.dir.creates).filter fun dc => dc.name = name).map (·.ino)

def recordUnlink (name : FileName) : HistoryState :=
  { s with unlinked := s.inosOf name ++ s.unlinked }

/-- A request with these inodes failed. -/
def recordFailure (inos : List UInt64) : HistoryState :=
  { s with failures := fun ino => if ino ∈ inos then s.failures ino + 1 else s.failures ino }

end HistoryState

/-- One event; `none` if it cannot happen. The inode numbers come from the Filer's pool and none
is given out twice. -/
def historyExec (s : HistoryState) : HistoryEvent → Option HistoryState
  | .create dc alloc =>
    if dc.ino ∈ s.returned.map (·.ino) then none
    else if alloc then
      (s.step (.create dc)).map fun s' => { s' with returned := dc :: s.returned }
    else
      -- The create succeeds without an entry on the list.
      some { s with returned := dc :: s.returned }
  | .cancel name =>
    match s.dirty.dir.cancel name with
    | some dir => some { s.recordUnlink name with dirty := { s.dirty with dir } }
    | none => some s
  | .unlinked name => some (s.recordUnlink name)
  | .updateTimes ino mtime atime => s.step (.updateTimes ino mtime atime)
  | .collect t => s.step (.collect t)
  | .alloc t ok => s.step (.alloc t ok)
  | .reply t result =>
    match s.dirty.flush t, result with
    | .sending batch count, .counted inos =>
      if inos ⊆ sentInos batch count then
        (s.step (.reply t true)).map fun s' => { s' with acked := inos ++ s.acked }
      else none
    | .sending batch count, .failed =>
      (s.recordFailure (sentInos batch count)).step (.reply t false)
    | .sending _ _, .unsent => s.step (.reply t false)
    | _, _ => none
  | .settle t => s.step (.settle t)
  | .finish t => s.step (.finish t)
  | .evict =>
    -- What is still on the list is freed, or leaks if the count is 0.
    some { s with dirty := { s.dirty with dir := ⟨[], 0, 0, false⟩ } }

/-- The create of this inode is on the list, or taken by flush `t`. -/
def DirtyState.At (s : DirtyState) (ino : UInt64) : Option Nat → Prop
  | none => ino ∈ s.dir.creates.map (·.ino)
  | some t => ino ∈ (s.flush t).batch.map (·.ino)

namespace HistoryState

variable (s : HistoryState)

/-- The create of this inode is still to be sent. -/
def Pending (ino : UInt64) : Prop := ∃ p, s.dirty.At ino p

/-- A reply counted the create, its name was unlinked, or, where that counts, too many requests
with it failed. -/
def Excused (tries : Bool) (ino : UInt64) : Prop :=
  ino ∈ s.acked ∨ ino ∈ s.unlinked ∨ tries = true ∧ dirtyFlushMaxRetries < s.failures ino

/-- No create that returned success is lost. -/
def Conserved (tries : Bool) : Prop :=
  ∀ dc ∈ s.returned, s.Pending dc.ino ∨ s.Excused tries dc.ino

end HistoryState

/-- A new directory inode. -/
structure HistoryInit (s : HistoryState) : Prop where
  dirty : DirtyInit s.dirty
  returned : s.returned = []
  acked : s.acked = []
  unlinked : s.unlinked = []
  failures : s.failures = fun _ => 0

/-- A create gets its entry; a reply counts every create of its batch that has no other excuse; a
flush that gives up, and the end of the inode, find only creates with an excuse. -/
def HistoryOk (tries : Bool) (s : HistoryState) : HistoryEvent → Prop
  | .create _ alloc => alloc = true
  | .reply t (.counted inos) =>
    ∀ dc ∈ (s.dirty.flush t).batch, dc.ino ∈ inos ∨ s.Excused tries dc.ino
  | .settle t =>
    dirtyFlushMaxRetries < s.dirty.dir.retries →
      ∀ dc ∈ (s.dirty.flush t).batch ++ s.dirty.dir.creates, s.Excused tries dc.ino
  | .evict => ∀ dc ∈ s.dirty.dir.creates, s.Excused tries dc.ino
  | _ => True

instance (tries : Bool) (s : HistoryState) (ino : UInt64) : Decidable (s.Excused tries ino) :=
  inferInstanceAs (Decidable (_ ∨ _ ∨ _ ∧ _))

instance (tries : Bool) (s : HistoryState) : (e : HistoryEvent) → Decidable (HistoryOk tries s e)
  | .create _ alloc => inferInstanceAs (Decidable (alloc = true))
  | .reply t (.counted inos) =>
    inferInstanceAs (Decidable (∀ dc ∈ (s.dirty.flush t).batch,
      dc.ino ∈ inos ∨ s.Excused tries dc.ino))
  | .settle t =>
    inferInstanceAs (Decidable (dirtyFlushMaxRetries < s.dirty.dir.retries →
      ∀ dc ∈ (s.dirty.flush t).batch ++ s.dirty.dir.creates, s.Excused tries dc.ino))
  | .evict => inferInstanceAs (Decidable (∀ dc ∈ s.dirty.dir.creates, s.Excused tries dc.ino))
  | .reply _ .failed | .reply _ .unsent | .cancel _ | .unlinked _ | .updateTimes .. | .collect _
  | .alloc .. | .finish _ => inferInstanceAs (Decidable True)

/-! ### Where creates go -/

/-- The creates at place `p` go to the place `f p`, or are gone. -/
def Relocates (s s' : DirtyState) (f : Option Nat → Option (Option Nat)) : Prop :=
  ∀ ino q, s'.At ino q ↔ ∃ p, s.At ino p ∧ f p = some q

/-- `list_replace_init`. -/
def toFlush (t : Nat) (p : Option Nat) : Option (Option Nat) :=
  if p = none then some (some t) else some p

/-- `list_splice`. -/
def toQueue (t : Nat) (p : Option Nat) : Option (Option Nat) :=
  if p = some t then some none else some p

/-- The places in `gone` are emptied. -/
def drops (gone : List (Option Nat)) (p : Option Nat) : Option (Option Nat) :=
  if p ∈ gone then none else some p

/-- `kmalloc_array` succeeds in flush `t`. -/
def DirtyState.allocates (s : DirtyState) (t : Nat) (ok : Bool) : Bool :=
  match s.flush t with
  | .collected _ count => ok && decide (0 ≤ count)
  | _ => true

/-- A flush takes the creates from the list, or puts them back. -/
def Moves (s : DirtyState) : HistoryEvent → Option Nat → Option Nat → Prop
  | .collect t, p, q => s.dir.count ≠ 0 ∧ p = none ∧ q = some t
  | .alloc t ok, p, q => s.allocates t ok = false ∧ p = some t ∧ q = none
  | .settle t, p, q => p = some t ∧ q = none
  | _, _, _ => False

variable {ino : UInt64} {q : Option Nat} {gone : List (Option Nat)}

section Places

variable {s s' : DirtyState} {d : DirtyCreates} {t : Nat} {pc : FlushPc}

theorem relocates_of_same (h : ∀ ino q, s'.At ino q ↔ s.At ino q) : Relocates s s' some := by
  intro ino q
  rw [h]
  simp

theorem at_set : (s.set d t pc).At ino q ↔
      if q = none then ino ∈ d.creates.map (·.ino)
      else if q = some t then ino ∈ pc.batch.map (·.ino) else s.At ino q := by
  cases q with
  | none => rfl
  | some u =>
    by_cases hu : u = t
    · subst hu
      simp [DirtyState.At, DirtyState.set]
    · simp [DirtyState.At, DirtyState.set, hu]

theorem relocates_keep (hd : d.creates = s.dir.creates) (hpc : pc.batch = (s.flush t).batch) :
    Relocates s (s.set d t pc) some := by
  refine relocates_of_same fun ino q => ?_
  rw [at_set, hd, hpc]
  split_ifs with hq hq'
  · rw [hq, DirtyState.At]
  · rw [hq', DirtyState.At]
  · rfl

theorem relocates_toFlush (hidle : (s.flush t).batch = []) (hd : d.creates = [])
    (hpc : pc.batch = s.dir.creates) : Relocates s (s.set d t pc) (toFlush t) := by
  intro ino q
  rw [at_set, hd, hpc]
  have hnone : ¬ s.At ino (some t) := by simp [DirtyState.At, hidle]
  constructor
  · intro h
    split_ifs at h with hq hq'
    · cases h
    · exact ⟨none, h, by rw [hq']; rfl⟩
    · exact ⟨q, h, if_neg hq⟩
  · rintro ⟨p, hp, hpq⟩
    rw [toFlush] at hpq
    split_ifs at hpq with hp'
    · cases hpq
      rw [hp'] at hp
      rw [if_pos rfl]
      exact hp
    · cases hpq
      have hqt : q ≠ some t := by
        rintro rfl
        exact hnone hp
      rwa [if_neg hp', if_neg hqt]

theorem relocates_toQueue (hd : d.creates = (s.flush t).batch ++ s.dir.creates)
    (hpc : pc.batch = []) : Relocates s (s.set d t pc) (toQueue t) := by
  intro ino q
  rw [at_set, hd, hpc, List.map_append, List.mem_append]
  constructor
  · intro h
    split_ifs at h with hq hq'
    · obtain h | h := h
      · exact ⟨some t, h, by rw [hq]; exact if_pos rfl⟩
      · exact ⟨none, h, by rw [hq]; rfl⟩
    · cases h
    · exact ⟨q, h, if_neg hq'⟩
  · rintro ⟨p, hp, hpq⟩
    rw [toQueue] at hpq
    split_ifs at hpq with hpt
    · cases hpq
      rw [hpt] at hp
      exact .inl hp
    · cases hpq
      split_ifs with hq
      · rw [hq] at hp
        exact .inr hp
      · exact hp

theorem relocates_drops
    (h : ∀ ino q, s'.At ino q ↔ q ∉ gone ∧ s.At ino q) : Relocates s s' (drops gone) := by
  intro ino q
  rw [h]
  constructor
  · rintro ⟨hq, hat⟩
    exact ⟨q, hat, if_neg hq⟩
  · rintro ⟨p, hp, hpq⟩
    rw [drops] at hpq
    split_ifs at hpq with hgone
    cases hpq
    exact ⟨hgone, hp⟩

end Places

/-! ### One event -/

def HistoryState.Touched (s : HistoryState) (ino : UInt64) : Prop :=
  s.Pending ino ∨ ino ∈ s.acked ∨ ino ∈ s.unlinked ∨ s.failures ino ≠ 0

/-- A create is at one place at most, and everything is about creates that returned success. -/
structure HistoryInv (s : HistoryState) : Prop where
  once : ∀ ino p q, s.dirty.At ino p → s.dirty.At ino q → p = q
  known : ∀ ino, s.Touched ino → ino ∈ s.returned.map (·.ino)

/-- What an event does to the places of creates and to their excuses. -/
inductive HistoryCase (s s' : HistoryState) (e : HistoryEvent) : Prop
  | entered {dc : DirtyCreate} (hok : ∀ tries, HistoryOk tries s e)
      (hfresh : dc.ino ∉ s.returned.map (·.ino)) (hreturned : s'.returned = dc :: s.returned)
      (hat : ∀ ino q, s'.dirty.At ino q ↔ s.dirty.At ino q ∨ ino = dc.ino ∧ q = none)
      (hacked : s'.acked = s.acked) (hunlinked : s'.unlinked = s.unlinked)
      (hfailures : s'.failures = s.failures)
  | unlisted {dc : DirtyCreate} (hok : ∀ tries, ¬ HistoryOk tries s e)
      (hfresh : dc.ino ∉ s.returned.map (·.ino)) (hs : s' = { s with returned := dc :: s.returned })
  | unlinked (hok : ∀ tries, HistoryOk tries s e) (hreturned : s'.returned = s.returned)
      (hat : ∀ ino q, s'.dirty.At ino q → s.dirty.At ino q)
      (hkept : ∀ ino q, s.dirty.At ino q → s'.dirty.At ino q ∨ ino ∈ s'.unlinked)
      (hexcused : ∀ tries ino, s.Excused tries ino → s'.Excused tries ino)
      (htouched : ∀ ino, s'.Touched ino → s.Touched ino ∨ ino ∈ s.returned.map (·.ino))
  | moved {f : Option Nat → Option (Option Nat)} (hreturned : s'.returned = s.returned)
      (hplaces : Relocates s.dirty s'.dirty f)
      (hmoves : ∀ p q, f p = some q → p = q ∨ Moves s.dirty e p q)
      (hexcused : ∀ tries ino, s.Excused tries ino → s'.Excused tries ino)
      (htouched : ∀ ino, s'.Touched ino → s.Touched ino)
      (hok : ∀ tries, HistoryOk tries s e ↔
        ∀ ino p, s.dirty.At ino p → f p = none → s'.Excused tries ino)

variable {s s' : HistoryState} {e : HistoryEvent}

theorem HistoryCase.inv (h : HistoryInv s) (hcase : HistoryCase s s' e) : HistoryInv s' := by
  cases hcase with
  | @entered dc hok hfresh hreturned hat hacked hunlinked hfailures =>
    have hnew : ∀ p, ¬ s.dirty.At dc.ino p := fun p hp => hfresh (h.known _ (.inl ⟨p, hp⟩))
    constructor
    · intro ino p q hp hq
      obtain hp | ⟨rfl, rfl⟩ := (hat ino p).mp hp
      · obtain hq | ⟨rfl, rfl⟩ := (hat ino q).mp hq
        · exact h.once ino p q hp hq
        · exact absurd hp (hnew p)
      · obtain hq | ⟨-, rfl⟩ := (hat _ q).mp hq
        · exact absurd hq (hnew q)
        · rfl
    · intro ino htouched
      rw [hreturned, List.map_cons, List.mem_cons]
      rw [HistoryState.Touched, hacked, hunlinked, hfailures] at htouched
      obtain ⟨p, hp⟩ | htouched := htouched
      · obtain hp | ⟨rfl, -⟩ := (hat ino p).mp hp
        · exact .inr (h.known ino (.inl ⟨p, hp⟩))
        · exact .inl rfl
      · exact .inr (h.known ino (.inr htouched))
  | unlisted hok hfresh hs =>
    subst hs
    refine ⟨h.once, fun ino htouched => ?_⟩
    rw [List.map_cons, List.mem_cons]
    exact .inr (h.known ino htouched)
  | unlinked hok hreturned hat hkept hexcused htouched =>
    refine ⟨fun ino p q hp hq => h.once ino p q (hat ino p hp) (hat ino q hq), fun ino ht => ?_⟩
    rw [hreturned]
    obtain ht | ht := htouched ino ht
    · exact h.known ino ht
    · exact ht
  | moved hreturned hplaces hmoves hexcused htouched hok =>
    constructor
    · intro ino p q hp hq
      obtain ⟨p', hp', hfp⟩ := (hplaces ino p).mp hp
      obtain ⟨q', hq', hfq⟩ := (hplaces ino q).mp hq
      rw [h.once ino p' q' hp' hq'] at hfp
      exact Option.some.inj (hfp.symm.trans hfq)
    · intro ino ht
      rw [hreturned]
      exact h.known ino (htouched ino ht)

theorem HistoryCase.returned_subset (hcase : HistoryCase s s' e) : s.returned ⊆ s'.returned := by
  cases hcase with
  | entered hok hfresh hreturned hat hacked hunlinked hfailures =>
    rw [hreturned]
    exact List.subset_cons_self _ _
  | unlisted hok hfresh hs =>
    rw [hs]
    exact List.subset_cons_self _ _
  | unlinked hok hreturned | moved hreturned => rw [hreturned]; exact List.Subset.refl _

variable {tries : Bool}

theorem HistoryCase.excused (hcase : HistoryCase s s' e)
    (h : s.Excused tries ino) : s'.Excused tries ino := by
  cases hcase with
  | entered hok hfresh hreturned hat hacked hunlinked hfailures =>
    rwa [HistoryState.Excused, hacked, hunlinked, hfailures]
  | unlisted hok hfresh hs =>
    rw [hs]
    exact h
  | unlinked hok hreturned hat hkept hexcused htouched => exact hexcused tries ino h
  | moved hreturned hplaces hmoves hexcused htouched hok => exact hexcused tries ino h

/-- A create that has returned is where it was, or a flush has moved it. -/
theorem HistoryCase.at_of_step (hcase : HistoryCase s s' e)
    (hold : ino ∈ s.returned.map (·.ino)) (hat : s'.dirty.At ino q) :
    ∃ p, s.dirty.At ino p ∧ (p = q ∨ Moves s.dirty e p q) := by
  cases hcase with
  | entered hok hfresh hreturned hplaces =>
    obtain hat | ⟨rfl, -⟩ := (hplaces ino q).mp hat
    · exact ⟨q, hat, .inl rfl⟩
    · exact absurd hold hfresh
  | unlisted hok hfresh hs =>
    subst hs
    exact ⟨q, hat, .inl rfl⟩
  | unlinked hok hreturned hplaces => exact ⟨q, hplaces ino q hat, .inl rfl⟩
  | moved hreturned hplaces hmoves =>
    obtain ⟨p, hp, hpq⟩ := (hplaces ino q).mp hat
    exact ⟨p, hp, hmoves p q hpq⟩

/-- From a state in which no create is lost, an event loses none just if it meets the condition. -/
theorem HistoryCase.conserved_iff (h : HistoryInv s) (hcons : s.Conserved tries)
    (hcase : HistoryCase s s' e) : s'.Conserved tries ↔ HistoryOk tries s e := by
  cases hcase with
  | @entered dc hok hfresh hreturned hat hacked hunlinked hfailures =>
    refine iff_of_true (fun dc' hdc' => ?_) (hok tries)
    rw [hreturned] at hdc'
    obtain rfl | hdc' := List.mem_cons.mp hdc'
    · exact .inl ⟨none, (hat _ _).mpr (.inr ⟨rfl, rfl⟩)⟩
    · obtain ⟨p, hp⟩ | hexcused := hcons dc' hdc'
      · exact .inl ⟨p, (hat _ _).mpr (.inl hp)⟩
      · rw [HistoryState.Excused, ← hacked, ← hunlinked, ← hfailures] at hexcused
        exact .inr hexcused
  | @unlisted dc hok hfresh hs =>
    refine iff_of_false (fun hcons' => ?_) (hok tries)
    subst hs
    refine hfresh (h.known dc.ino ?_)
    obtain hpending | hacked | hunlinked | ⟨-, hfailures⟩ := hcons' dc List.mem_cons_self
    · exact .inl hpending
    · exact .inr (.inl hacked)
    · exact .inr (.inr (.inl hunlinked))
    · exact .inr (.inr (.inr (Nat.ne_zero_of_lt hfailures)))
  | unlinked hok hreturned hat hkept hexcused htouched =>
    refine iff_of_true (fun dc hdc => ?_) (hok tries)
    rw [hreturned] at hdc
    obtain ⟨p, hp⟩ | hexc := hcons dc hdc
    · exact (hkept dc.ino p hp).imp (fun hp => ⟨p, hp⟩) fun hunlinked => .inr (.inl hunlinked)
    · exact .inr (hexcused tries dc.ino hexc)
  | @moved f hreturned hplaces hmoves hexcused htouched hok =>
    rw [hok tries]
    constructor
    · intro hcons' ino p hp hlost
      obtain ⟨dc, hdc, rfl⟩ := List.mem_map.mp (h.known ino (.inl ⟨p, hp⟩))
      obtain ⟨q, hq⟩ | hexc := hcons' dc (hreturned ▸ hdc)
      · obtain ⟨p', hp', hfp⟩ := (hplaces dc.ino q).mp hq
        rw [h.once dc.ino p' p hp' hp, hlost] at hfp
        cases hfp
      · exact hexc
    · intro hlost dc hdc
      rw [hreturned] at hdc
      obtain ⟨p, hp⟩ | hexc := hcons dc hdc
      · cases hfp : f p with
        | none => exact .inr (hlost dc.ino p hp hfp)
        | some q => exact .inl ⟨q, (hplaces dc.ino q).mpr ⟨p, hp, hfp⟩⟩
      · exact .inr (hexcused tries dc.ino hexc)

theorem HistoryCase.ofMove {d : DirtyState} {f : Option Nat → Option (Option Nat)}
    (hok : ∀ tries, HistoryOk tries s e) (hplaces : Relocates s.dirty d f)
    (hkept : ∀ p, f p ≠ none) (hmoves : ∀ p q, f p = some q → p = q ∨ Moves s.dirty e p q) :
    HistoryCase s { s with dirty := d } e := by
  refine .moved rfl hplaces hmoves (fun _ _ h => h) (fun ino htouched => ?_) fun tries => ?_
  · refine htouched.imp_left ?_
    rintro ⟨q, hq⟩
    obtain ⟨p, hp, -⟩ := (hplaces ino q).mp hq
    exact ⟨p, hp⟩
  · exact iff_of_true (hok tries) fun ino p _ hnone => absurd hnone (hkept p)

/-- Nothing moves. -/
theorem HistoryCase.ofSame {d : DirtyState} (hok : ∀ tries, HistoryOk tries s e)
    (hplaces : Relocates s.dirty d some) : HistoryCase s { s with dirty := d } e :=
  .ofMove hok hplaces (fun p => by simp) fun _ _ h => .inl (Option.some.inj h)

theorem toFlush_ne_none (t : Nat) (p : Option Nat) : toFlush t p ≠ none := by
  rw [toFlush]
  split_ifs <;> simp

theorem toQueue_ne_none (t : Nat) (p : Option Nat) : toQueue t p ≠ none := by
  rw [toQueue]
  split_ifs <;> simp

theorem toQueue_moves {t : Nat} {p : Option Nat} (h : toQueue t p = some q) :
    p = q ∨ p = some t ∧ q = none := by
  rw [toQueue] at h
  split_ifs at h with hp
  · exact .inr ⟨hp, (Option.some.inj h).symm⟩
  · exact .inl (Option.some.inj h)

theorem drops_moves (p q : Option Nat) (h : drops gone p = some q) :
    p = q ∨ Moves s.dirty e p q := by
  rw [drops] at h
  split_ifs at h
  exact .inl (Option.some.inj h)

theorem drops_eq_none {p : Option Nat} :
    drops gone p = none ↔ p ∈ gone := by
  rw [drops]
  split_ifs with hp <;> simp [hp]

theorem historyCase_create {dc : DirtyCreate} {alloc : Bool}
    (hs : historyExec s (.create dc alloc) = some s') : HistoryCase s s' (.create dc alloc) := by
  rw [historyExec] at hs
  split_ifs at hs with hknown halloc
  · cases hs
    refine .entered (fun _ => halloc) hknown rfl (fun ino q => ?_) rfl rfl rfl
    cases q with
    | none => simp [DirtyState.At, DirtyCreates.add]
    | some u => simp [DirtyState.At]
  · cases hs
    exact .unlisted (fun _ => halloc) hknown rfl

theorem HistoryCase.ofUnlink {dirty : DirtyState} {name : FileName}
    (hok : ∀ tries, HistoryOk tries s e)
    (hat : ∀ ino q, dirty.At ino q → s.dirty.At ino q)
    (hkept : ∀ ino q, s.dirty.At ino q → dirty.At ino q ∨ ino ∈ s.inosOf name) :
    HistoryCase s { s.recordUnlink name with dirty } e := by
  refine .unlinked hok rfl hat (fun ino q h => ?_) (fun tries ino h => ?_) fun ino h => ?_
  · exact (hkept ino q h).imp_right (List.mem_append_left _)
  · exact h.imp_right (.imp_left (List.mem_append_right _))
  · obtain ⟨q, hq⟩ | hacked | hunlinked | hfailures := h
    · exact .inl (.inl ⟨q, hat ino q hq⟩)
    · exact .inl (.inr (.inl hacked))
    · obtain hnew | hold := List.mem_append.mp hunlinked
      · obtain ⟨dc, hdc, rfl⟩ := List.mem_map.mp hnew
        obtain hdc | hdc := List.mem_append.mp (List.mem_filter.mp hdc).1
        · exact .inr (List.mem_map_of_mem hdc)
        · exact .inl (.inl ⟨none, List.mem_map_of_mem hdc⟩)
      · exact .inl (.inr (.inr (.inl hold)))
    · exact .inl (.inr (.inr (.inr hfailures)))

theorem historyCase_cancel {name : FileName} (hs : historyExec s (.cancel name) = some s') :
    HistoryCase s s' (.cancel name) := by
  rw [historyExec] at hs
  split at hs
  case h_2 =>
    cases hs
    exact .ofSame (fun _ => trivial) (relocates_of_same fun _ _ => Iff.rfl)
  case h_1 dir hcancel =>
    cases hs
    rw [DirtyCreates.cancel] at hcancel
    split_ifs at hcancel
    cases hcancel
    refine .ofUnlink (fun _ => trivial) (fun ino q h => ?_) fun ino q h => ?_
    · cases q with
      | none => exact (List.eraseP_sublist.map _).subset h
      | some u => exact h
    · cases q with
      | some u => exact .inl h
      | none =>
        obtain ⟨dc, hdc, rfl⟩ := List.mem_map.mp h
        by_cases hname : dc.name = name
        · refine .inr (List.mem_map_of_mem (List.mem_filter.mpr ⟨?_, by simpa using hname⟩))
          exact List.mem_append_right _ hdc
        · refine .inl (List.mem_map_of_mem (List.mem_eraseP_of_neg ?_ |>.mpr hdc))
          simpa using hname

theorem historyCase_collect {t : Nat} (hs : historyExec s (.collect t) = some s') :
    HistoryCase s s' (.collect t) := by
  obtain ⟨d, hd, rfl⟩ := Option.map_eq_some_iff.mp hs
  cases dirtyExec_case hd with
  | nothing => exact .ofSame (fun _ => trivial) (relocates_of_same fun _ _ => Iff.rfl)
  | collected hpc hcount =>
    refine .ofMove (fun _ => trivial) (relocates_toFlush (by rw [hpc]; rfl) rfl rfl)
      (toFlush_ne_none t) fun p q h => ?_
    rw [toFlush] at h
    split_ifs at h with hp
    · exact .inr ⟨hcount, hp, (Option.some.inj h).symm⟩
    · exact .inl (Option.some.inj h)

theorem historyCase_alloc {t : Nat} {ok : Bool} (hs : historyExec s (.alloc t ok) = some s') :
    HistoryCase s s' (.alloc t ok) := by
  obtain ⟨d, hd, rfl⟩ := Option.map_eq_some_iff.mp hs
  cases dirtyExec_case hd with
  | sent hpc => exact .ofSame (fun _ => trivial) (relocates_keep rfl (by rw [hpc]; rfl))
  | unsent hpc hnull =>
    have hfails : s.dirty.allocates t ok = false := by
      simpa [DirtyState.allocates, hpc] using hnull
    exact .ofMove (fun _ => trivial) (relocates_toQueue (by rw [hpc]; rfl) rfl)
      (toQueue_ne_none t) fun p q h => (toQueue_moves h).imp_right fun h => ⟨hfails, h⟩

theorem relocates_reply_failed {t : Nat} {d d' : DirtyState}
    (hs : dirtyExec d (.reply t false) = some d') : Relocates d d' some := by
  cases dirtyExec_case hs with
  | refused hpc => exact relocates_keep rfl (by rw [hpc]; rfl)

theorem relocates_reply_ok {t : Nat} {d d' : DirtyState}
    (hs : dirtyExec d (.reply t true) = some d') : Relocates d d' (drops [some t]) := by
  cases dirtyExec_case hs with
  | replied hpc =>
    refine relocates_drops fun ino q => ?_
    rw [at_set]
    cases q with
    | none => simp [DirtyState.At]
    | some u =>
      by_cases hu : u = t
      · simp [FlushPc.batch]
      · simp [hu]

theorem excused_recordFailure {inos : List UInt64}
    (h : s.Excused tries ino) : (s.recordFailure inos).Excused tries ino := by
  refine h.imp_right (.imp_right (.imp_right fun hfailures => ?_))
  simp only [HistoryState.recordFailure]
  split_ifs
  · omega
  · exact hfailures

theorem mem_batch_of_mem_sentInos {batch : List DirtyCreate} {count : Int32}
    (h : ino ∈ sentInos batch count) : ino ∈ batch.map (·.ino) :=
  ((List.take_sublist _ _).map _).subset h

theorem historyCase_reply {t : Nat} {result : BatchResult}
    (hs : historyExec s (.reply t result) = some s') : HistoryCase s s' (.reply t result) := by
  simp only [historyExec] at hs
  split at hs <;> try cases hs
  case h_1 batch count inos hpc =>
    split_ifs at hs with hsent
    obtain ⟨s₁, hs₁, rfl⟩ := Option.map_eq_some_iff.mp hs
    obtain ⟨d, hd, rfl⟩ := Option.map_eq_some_iff.mp hs₁
    have hplaces := relocates_reply_ok hd
    have hbatch : (s.dirty.flush t).batch = batch := by rw [hpc]; rfl
    refine .moved rfl hplaces drops_moves (fun tries ino h => ?_) (fun ino h => ?_)
      fun tries => ?_
    · exact h.imp_left (List.mem_append_right _)
    · obtain ⟨q, hq⟩ | hacked | h := h
      · obtain ⟨p, hp, -⟩ := (hplaces ino q).mp hq
        exact .inl ⟨p, hp⟩
      · obtain hnew | hold := List.mem_append.mp hacked
        · refine .inl ⟨some t, ?_⟩
          rw [DirtyState.At, hbatch]
          exact mem_batch_of_mem_sentInos (hsent hnew)
        · exact .inr (.inl hold)
      · exact .inr (.inr h)
    · constructor
      · intro hok ino p hp hlost
        obtain rfl : p = some t := by simpa using drops_eq_none.mp hlost
        obtain ⟨dc, hdc, rfl⟩ := List.mem_map.mp hp
        obtain hcounted | hexcused := hok dc hdc
        · exact .inl (List.mem_append_left _ hcounted)
        · exact hexcused.imp_left (List.mem_append_right _)
      · intro hlost dc hdc
        obtain hacked | h := hlost dc.ino (some t) (List.mem_map_of_mem hdc)
          (drops_eq_none.mpr List.mem_cons_self)
        · exact (List.mem_append.mp hacked).imp_right .inl
        · exact .inr (.inr h)
  case h_2 batch count hpc =>
    obtain ⟨d, hd, rfl⟩ := Option.map_eq_some_iff.mp hs
    have hplaces : Relocates s.dirty d some := relocates_reply_failed hd
    refine .moved rfl hplaces (fun _ _ h => .inl (Option.some.inj h))
      (fun tries ino h => excused_recordFailure h) (fun ino h => ?_)
      fun tries => iff_of_true trivial fun _ p _ hlost => absurd hlost (by simp)
    obtain ⟨q, hq⟩ | hacked | hunlinked | hfailures := h
    · obtain ⟨p, hp, -⟩ := (hplaces ino q).mp hq
      exact .inl ⟨p, hp⟩
    · exact .inr (.inl hacked)
    · exact .inr (.inr (.inl hunlinked))
    · simp only [HistoryState.recordFailure] at hfailures
      split_ifs at hfailures with hsent
      · refine .inl ⟨some t, ?_⟩
        rw [DirtyState.At, hpc]
        exact mem_batch_of_mem_sentInos hsent
      · exact .inr (.inr (.inr hfailures))
  case h_3 =>
    obtain ⟨d, hd, rfl⟩ := Option.map_eq_some_iff.mp hs
    exact .ofSame (fun _ => trivial) (relocates_reply_failed hd)

theorem HistoryCase.ofDrop {d : DirtyState} (hplaces : Relocates s.dirty d (drops gone))
    (hok : ∀ tries, HistoryOk tries s e ↔
      ∀ ino, ∀ p ∈ gone, s.dirty.At ino p → s.Excused tries ino) :
    HistoryCase s { s with dirty := d } e := by
  refine .moved rfl hplaces drops_moves (fun _ _ h => h) (fun ino htouched => ?_) fun tries => ?_
  · refine htouched.imp_left ?_
    rintro ⟨q, hq⟩
    obtain ⟨p, hp, -⟩ := (hplaces ino q).mp hq
    exact ⟨p, hp⟩
  · rw [hok]
    constructor
    · exact fun h ino p hp hlost => h ino p (drops_eq_none.mp hlost) hp
    · exact fun h ino p hgone hp => h ino p hp (drops_eq_none.mpr hgone)

theorem historyCase_settle {t : Nat} (hs : historyExec s (.settle t) = some s') :
    HistoryCase s s' (.settle t) := by
  obtain ⟨d, hd, rfl⟩ := Option.map_eq_some_iff.mp hs
  cases dirtyExec_case hd with
  | requeued hpc hfew =>
    exact .ofMove (fun _ hmany => absurd hmany hfew)
      (relocates_toQueue (by rw [hpc]; rfl) rfl) (toQueue_ne_none t) fun _ _ => toQueue_moves
  | gaveUp hpc hmany =>
    have hplaces : Relocates s.dirty (s.dirty.set s.dirty.dir.giveUp t .finish)
        (drops [none, some t]) := by
      refine relocates_drops fun ino q => ?_
      rw [at_set]
      cases q with
      | none => simp [DirtyCreates.giveUp]
      | some u =>
        by_cases hu : u = t
        · simp [FlushPc.batch]
        · simp [hu]
    refine .ofDrop hplaces fun tries => ?_
    constructor
    · intro hok ino p hp hat
      have hok := hok hmany
      obtain rfl | rfl : p = none ∨ p = some t := by simpa using hp
      · obtain ⟨dc, hdc, rfl⟩ := List.mem_map.mp hat
        exact hok dc (List.mem_append_right _ hdc)
      · obtain ⟨dc, hdc, rfl⟩ := List.mem_map.mp hat
        exact hok dc (List.mem_append_left _ hdc)
    · intro hlost _ dc hdc
      obtain hdc | hdc := List.mem_append.mp hdc
      · exact hlost dc.ino (some t) (by simp) (List.mem_map_of_mem hdc)
      · exact hlost dc.ino none (by simp) (List.mem_map_of_mem hdc)

theorem historyCase_evict (hs : historyExec s .evict = some s') : HistoryCase s s' .evict := by
  cases hs
  have hplaces : Relocates s.dirty { s.dirty with dir := ⟨[], 0, 0, false⟩ } (drops [none]) := by
    refine relocates_drops fun ino q => ?_
    cases q with
    | none => simp [DirtyState.At]
    | some u => simp [DirtyState.At]
  refine .ofDrop hplaces fun tries => ?_
  constructor
  · intro hok ino p hp hat
    obtain rfl : p = none := by simpa using hp
    obtain ⟨dc, hdc, rfl⟩ := List.mem_map.mp hat
    exact hok dc hdc
  · intro hlost dc hdc
    exact hlost dc.ino none List.mem_cons_self (List.mem_map_of_mem hdc)

theorem historyExec_case (hs : historyExec s e = some s') : HistoryCase s s' e := by
  cases e with
  | create dc alloc => exact historyCase_create hs
  | cancel name => exact historyCase_cancel hs
  | unlinked name =>
    cases hs
    exact .ofUnlink (fun _ => trivial) (fun _ _ h => h) fun _ _ h => .inl h
  | updateTimes ino mtime atime =>
    cases hs
    refine .ofSame (fun _ => trivial) (relocates_of_same fun ino' q => ?_)
    cases q with
    | none =>
      rw [DirtyState.At, DirtyCreates.updateTimes, map_setTimes fun _ _ _ => rfl, DirtyState.At]
    | some u => rfl
  | collect t => exact historyCase_collect hs
  | alloc t ok => exact historyCase_alloc hs
  | reply t result => exact historyCase_reply hs
  | settle t => exact historyCase_settle hs
  | finish t =>
    obtain ⟨d, hd, rfl⟩ := Option.map_eq_some_iff.mp hs
    cases dirtyExec_case hd with
    | finished hpc => exact .ofSame (fun _ => trivial) (relocates_keep rfl (by rw [hpc]; rfl))
  | evict => exact historyCase_evict hs

theorem HistoryInit.inv (h : HistoryInit s) (tries : Bool) : HistoryInv s ∧ s.Conserved tries := by
  have hnone : ∀ ino p, ¬ s.dirty.At ino p := by
    intro ino p
    cases p with
    | none => simp [DirtyState.At, h.dirty.creates]
    | some t => simp [DirtyState.At, h.dirty.flush, FlushPc.batch]
  refine ⟨⟨fun ino p q hp => absurd hp (hnone ino p), fun ino htouched => ?_⟩, fun dc hdc => ?_⟩
  · obtain ⟨p, hp⟩ | hacked | hunlinked | hfailures := htouched
    · exact absurd hp (hnone ino p)
    · rw [h.acked] at hacked
      cases hacked
    · rw [h.unlinked] at hunlinked
      cases hunlinked
    · rw [h.failures] at hfailures
      exact absurd rfl hfailures
  · rw [h.returned] at hdc
    cases hdc

end PowerFS.Dir
