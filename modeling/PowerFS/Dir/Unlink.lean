import PowerFS.Dir.DirtyCreates

namespace PowerFS.Dir

/-! `powerfs_unlink` next to optimistic creates and their flushes. The VFS holds `i_rwsem` of the
directory over a create and over an unlink, so these two do not overlap; flushes overlap with
both. -/

/-- A request on its way to the Filer: the BatchCreate of a flush, or an UNLINK. -/
inductive FilerRequest where
  | batchCreate (t : Nat) (names : List FileName)
  | unlink (name : FileName)

def FilerRequest.creates : FilerRequest → List FileName
  | .batchCreate _ names => names
  | .unlink _ => []

/-- An unlink in `powerfs_net_unlink`; `answered` if the Filer has handled its request. -/
structure UnlinkCall where
  name : FileName
  answered : Bool

/-- `filer`: names in the directory on the Filer; `applied t`: it has handled the BatchCreate of
flush `t`; `deleted`: names whose last unlink has returned 0 and that were not created since. -/
structure UnlinkState where
  dirty : DirtyState
  wire : List FilerRequest
  filer : List FileName
  applied : Nat → Bool
  unlinking : Option UnlinkCall
  deleted : List FileName

/-- What can happen. A request can be sent again, arrive late, or be lost, and a reply can be lost:
then the call fails although the Filer has handled the request. -/
inductive UnlinkEvent where
  | dirty (e : DirtyEvent)
  | sendBatch (t : Nat)
  | deliver
  | lose (i : Nat)
  | unlink (name : FileName)
  | sendUnlink
  | unlinkReply (ok : Bool)

namespace UnlinkState

variable (s : UnlinkState)

/-- Creates wait for the unlink, only an unlink cancels, and a BatchCreate returns 0 only after the
Filer has handled it. -/
def possible : DirtyEvent → Bool
  | .create _ => s.unlinking.isNone
  | .cancel _ => false
  | .reply t ok => !ok || s.applied t
  | _ => true

def afterDirty (e : DirtyEvent) (d : DirtyState) : UnlinkState :=
  { s with
    dirty := d
    applied := match e with
      | .collect t => Function.update s.applied t false
      | _ => s.applied
    deleted := match e with
      | .create dc => s.deleted.filter (· ≠ dc.name)
      | _ => s.deleted }

def handle (rest : List FilerRequest) : FilerRequest → UnlinkState
  | .batchCreate t names =>
    { s with
      wire := rest
      filer := names ++ s.filer
      applied := Function.update s.applied t true }
  | .unlink name =>
    { s with
      wire := rest
      filer := s.filer.filter (· ≠ name)
      unlinking := s.unlinking.map fun u =>
        { u with answered := u.answered || decide (u.name = name) } }

end UnlinkState

/-- One event; `none` if it cannot happen. -/
def unlinkExec (s : UnlinkState) : UnlinkEvent → Option UnlinkState
  | .dirty e => if s.possible e then (dirtyExec s.dirty e).map (s.afterDirty e) else none
  | .sendBatch t =>
    match s.dirty.flush t with
    | .sending batch count =>
      -- The array holds `count` entries, and these are sent.
      let names := (batch.take count.toInt.toNat).map (·.name)
      some { s with wire := s.wire ++ [FilerRequest.batchCreate t names] }
    | _ => none
  | .deliver =>
    match s.wire with
    | [] => none
    | r :: rest => some (s.handle rest r)
  | .lose i => some { s with wire := s.wire.eraseIdx i }
  | .unlink name =>
    match s.unlinking with
    | some _ => none
    | none =>
      match s.dirty.dir.cancel name with
      | some d =>
        some { s with dirty := { s.dirty with dir := d }, deleted := name :: s.deleted }
      | none => some { s with unlinking := some ⟨name, false⟩ }
  | .sendUnlink =>
    match s.unlinking with
    | some u => some { s with wire := s.wire ++ [FilerRequest.unlink u.name] }
    | none => none
  | .unlinkReply ok =>
    match s.unlinking with
    | some u =>
      -- The Filer's -ENOENT counts as success.
      if ok then
        if u.answered then some { s with unlinking := none, deleted := u.name :: s.deleted }
        else none
      else some { s with unlinking := none }
    | none => none

/-- A create of this name has yet to reach the Filer, or can reach it once more. -/
def Outstanding (s : UnlinkState) (name : FileName) : Prop :=
  s.dirty.Holds name ∨ ∃ r ∈ s.wire, name ∈ r.creates

/-- No create is queued, no flush runs, and no BatchCreate is on its way. -/
def FlushDone (s : UnlinkState) : Prop := ∀ name, ¬ Outstanding s name

/-- Once the flushes are done, no deleted name exists on the Filer. -/
def DeletedStays (s : UnlinkState) : Prop :=
  FlushDone s → ∀ name ∈ s.deleted, name ∉ s.filer

structure UnlinkInit (s : UnlinkState) : Prop where
  dirty : DirtyInit s.dirty
  wire : s.wire = []
  unlinking : s.unlinking = none
  deleted : s.deleted = []

/-- At the start of an unlink no flush and no BatchCreate has the name; and if a create of it is
queued, it is the only one, and the Filer does not have the name. -/
def UnlinkOk (s : UnlinkState) : UnlinkEvent → Prop
  | .unlink name =>
    (∀ t, name ∉ (s.dirty.flush t).batch.map (·.name)) ∧ (∀ r ∈ s.wire, name ∉ r.creates) ∧
      (name ∈ s.dirty.dir.creates.map (·.name) →
        (s.dirty.dir.creates.map (·.name)).count name = 1 ∧ name ∉ s.filer)
  | _ => True

structure UnlinkInv (s : UnlinkState) : Prop where
  deleted : ∀ name ∈ s.deleted, ¬ Outstanding s name ∧ name ∉ s.filer
  unlinking : ∀ u, s.unlinking = some u →
    ¬ Outstanding s u.name ∧ (u.answered = true → u.name ∉ s.filer)

variable {s s' : UnlinkState} {name : FileName}

theorem count_map_name_eraseP (l : List DirtyCreate) :
    ((l.eraseP fun dc => dc.name = name).map (·.name)).count name =
      (l.map (·.name)).count name - 1 := by
  induction l with
  | nil => rfl
  | cons dc rest ih =>
    by_cases hname : dc.name = name
    · simp [hname]
    · simp [hname, ih]

theorem cancel_spec {d d' : DirtyCreates} (h : d.cancel name = some d') :
    name ∈ d.creates.map (·.name) ∧
      ((d.creates.map (·.name)).count name = 1 → name ∉ d'.creates.map (·.name)) := by
  simp only [DirtyCreates.cancel] at h
  split at h <;> cases h
  next hfound =>
  constructor
  · simpa using hfound
  · intro hone
    rw [← List.count_eq_zero, count_map_name_eraseP, hone]

theorem not_mem_of_cancel_eq_none {d : DirtyCreates} (h : d.cancel name = none) :
    name ∉ d.creates.map (·.name) := by
  simp only [DirtyCreates.cancel] at h
  split at h <;> cases h
  next hnone => simpa using hnone

theorem UnlinkInit.inv (h : UnlinkInit s) : UnlinkInv s := by
  constructor
  · intro name hname
    rw [h.deleted] at hname
    cases hname
  · intro u hu
    rw [h.unlinking] at hu
    cases hu

section

variable (h : UnlinkInv s)
include h

theorem UnlinkInv.deletedStays : DeletedStays s :=
  fun _ name hname => (h.deleted name hname).2

theorem UnlinkInv.shrink (hdeleted : s'.deleted ⊆ s.deleted)
    (hunlinking : s'.unlinking = s.unlinking) (hfiler : s'.filer = s.filer)
    (hout : ∀ name, Outstanding s' name → Outstanding s name) : UnlinkInv s' := by
  refine ⟨fun name hname => ?_, fun u hu => ?_⟩
  · obtain ⟨hnot, habsent⟩ := h.deleted name (hdeleted hname)
    exact ⟨mt (hout name) hnot, hfiler ▸ habsent⟩
  · obtain ⟨hnot, habsent⟩ := h.unlinking u (hunlinking ▸ hu)
    exact ⟨mt (hout u.name) hnot, hfiler ▸ habsent⟩

theorem UnlinkInv.dirty {e : DirtyEvent} {d : DirtyState}
    (hpossible : s.possible e = true) (hs : dirtyExec s.dirty e = some d) :
    UnlinkInv (s.afterDirty e d) := by
  have hout : ∀ name, Outstanding (s.afterDirty e d) name →
      Outstanding s name ∨ ∃ dc, e = .create dc ∧ dc.name = name := by
    rintro name (hheld | hwire)
    · exact (hheld.of_step hs).imp_left .inl
    · exact .inl (.inr hwire)
  by_cases hcreate : ∃ dc, e = .create dc
  · obtain ⟨dc, rfl⟩ := hcreate
    have hidle : s.unlinking = none := by simpa [UnlinkState.possible] using hpossible
    refine ⟨fun name hname => ?_, fun u hu => ?_⟩
    · obtain ⟨hname, hne⟩ : name ∈ s.deleted ∧ name ≠ dc.name := by
        simpa [UnlinkState.afterDirty] using hname
      obtain ⟨hnot, habsent⟩ := h.deleted name hname
      refine ⟨fun hheld => ?_, habsent⟩
      obtain hheld | ⟨dc', heq, hdc'⟩ := hout name hheld
      · exact hnot hheld
      · cases heq
        exact hne hdc'.symm
    · cases hidle.symm.trans hu
  · have hdeleted : (s.afterDirty e d).deleted = s.deleted := by
      cases e with
      | create dc => exact absurd ⟨dc, rfl⟩ hcreate
      | _ => rfl
    refine h.shrink (fun _ hmem => hdeleted ▸ hmem) rfl rfl fun name hheld => ?_
    refine (hout name hheld).resolve_right ?_
    rintro ⟨dc, rfl, _⟩
    exact hcreate ⟨dc, rfl⟩

theorem UnlinkInv.send {r : FilerRequest} (hr : ∀ name ∈ r.creates, Outstanding s name) :
    UnlinkInv { s with wire := s.wire ++ [r] } := by
  refine h.shrink (fun _ => id) rfl rfl fun name hheld => ?_
  obtain hheld | ⟨r', hr', hname⟩ := hheld
  · exact .inl hheld
  · obtain hr' | rfl : r' ∈ s.wire ∨ r' = r := by simpa using hr'
    · exact .inr ⟨r', hr', hname⟩
    · exact hr name hname

theorem UnlinkInv.handle {r : FilerRequest} {rest : List FilerRequest}
    (hwire : s.wire = r :: rest) : UnlinkInv (s.handle rest r) := by
  have hr : ∀ name, name ∈ r.creates → Outstanding s name := fun name hname =>
    .inr ⟨r, hwire ▸ List.mem_cons_self, hname⟩
  have hrest : ∀ name, s.dirty.Holds name ∨ (∃ r ∈ rest, name ∈ r.creates) →
      Outstanding s name := by
    rintro name (hheld | ⟨r', hr', hname⟩)
    · exact .inl hheld
    · exact .inr ⟨r', hwire ▸ List.mem_cons_of_mem _ hr', hname⟩
  cases r with
  | batchCreate t names =>
    have hstill : ∀ name, ¬ Outstanding s name → name ∉ s.filer → name ∉ names ++ s.filer := by
      intro name hnot habsent hmem
      obtain hmem | hmem := List.mem_append.mp hmem
      · exact hnot (hr name hmem)
      · exact habsent hmem
    refine ⟨fun name hname => ?_, fun u hu => ?_⟩
    · obtain ⟨hnot, habsent⟩ := h.deleted name hname
      exact ⟨mt (hrest name) hnot, hstill name hnot habsent⟩
    · obtain ⟨hnot, habsent⟩ := h.unlinking u hu
      exact ⟨mt (hrest u.name) hnot, fun hans => hstill u.name hnot (habsent hans)⟩
  | unlink target =>
    refine ⟨fun name hname => ?_, fun u hu => ?_⟩
    · obtain ⟨hnot, habsent⟩ := h.deleted name hname
      exact ⟨mt (hrest name) hnot, fun hmem => habsent (List.mem_filter.mp hmem).1⟩
    · obtain ⟨v, hv, rfl⟩ := Option.map_eq_some_iff.mp hu
      obtain ⟨hnot, habsent⟩ := h.unlinking v hv
      refine ⟨mt (hrest v.name) hnot, fun hans hmem => ?_⟩
      obtain ⟨hmem, hne⟩ := List.mem_filter.mp hmem
      -- Either an earlier request was handled, or this one has just removed the name.
      obtain hans | hans := Bool.or_eq_true_iff.mp hans
      · exact habsent hans hmem
      · exact of_decide_eq_true hne (of_decide_eq_true hans)

theorem UnlinkInv.unlink {d : DirtyCreates} (hok : UnlinkOk s (.unlink name))
    (hidle : s.unlinking = none) (hcancel : s.dirty.dir.cancel name = some d) :
    UnlinkInv { s with dirty := { s.dirty with dir := d }, deleted := name :: s.deleted } := by
  obtain ⟨hbatch, hwire, hqueued⟩ := hok
  obtain ⟨hmem, hlast⟩ := cancel_spec hcancel
  obtain ⟨hone, habsent⟩ := hqueued hmem
  have hfewer : ∀ other, other ∈ d.creates.map (·.name) →
      other ∈ s.dirty.dir.creates.map (·.name) := by
    intro other hother
    simp only [DirtyCreates.cancel] at hcancel
    split at hcancel <;> cases hcancel
    exact (List.eraseP_sublist.map _).subset hother
  refine ⟨fun other hother => ?_, fun u hu => ?_⟩
  · obtain rfl | hother := List.mem_cons.mp hother
    · refine ⟨?_, habsent⟩
      rintro ((hheld | ⟨t, hheld⟩) | ⟨r, hr, hcreates⟩)
      · exact hlast hone hheld
      · exact hbatch t hheld
      · exact hwire r hr hcreates
    · obtain ⟨hnot, habsent⟩ := h.deleted other hother
      refine ⟨?_, habsent⟩
      rintro ((hheld | hheld) | hsent)
      · exact hnot (.inl (.inl (hfewer other hheld)))
      · exact hnot (.inl (.inr hheld))
      · exact hnot (.inr hsent)
  · cases hidle.symm.trans hu

theorem UnlinkInv.step {e : UnlinkEvent} (hok : UnlinkOk s e)
    (hs : unlinkExec s e = some s') : UnlinkInv s' := by
  cases e with simp only [unlinkExec] at hs
  | dirty e =>
    split at hs <;> try cases hs
    next hpossible =>
    obtain ⟨d, hd, rfl⟩ := Option.map_eq_some_iff.mp hs
    exact h.dirty hpossible hd
  | sendBatch t =>
    split at hs <;> cases hs
    next batch count hpc =>
    refine h.send fun name hname => .inl (.of_batch hpc ?_)
    exact ((List.take_sublist _ batch).map _).subset hname
  | deliver =>
    split at hs <;> cases hs
    next hwire => exact h.handle hwire
  | lose i =>
    cases hs
    refine h.shrink (fun _ => id) rfl rfl fun name hheld => ?_
    exact hheld.imp_right fun ⟨r, hr, hname⟩ => ⟨r, List.mem_of_mem_eraseIdx hr, hname⟩
  | unlink name =>
    split at hs <;> try cases hs
    next hidle =>
    split at hs <;> cases hs
    · next hcancel => exact h.unlink hok hidle hcancel
    · next hcancel =>
      obtain ⟨hbatch, hwire, _⟩ := hok
      refine ⟨h.deleted, ?_⟩
      rintro _ ⟨⟩
      refine ⟨?_, nofun⟩
      rintro ((hheld | ⟨t, hheld⟩) | ⟨r, hr, hcreates⟩)
      · exact not_mem_of_cancel_eq_none hcancel hheld
      · exact hbatch t hheld
      · exact hwire r hr hcreates
  | sendUnlink =>
    split at hs <;> cases hs
    exact h.send nofun
  | unlinkReply ok =>
    split at hs <;> try cases hs
    next u hu =>
    split at hs
    · split at hs <;> cases hs
      next hanswered =>
      refine ⟨fun name hname => ?_, nofun⟩
      obtain rfl | hname := List.mem_cons.mp hname
      · obtain ⟨hnot, habsent⟩ := h.unlinking u hu
        exact ⟨hnot, habsent hanswered⟩
      · exact h.deleted name hname
    · cases hs
      exact ⟨h.deleted, nofun⟩

end

/-- If no unlink starts while a create of its name is on its way to the Filer, deleted names stay
deleted. -/
theorem deletedStays_of_unlinkOk
    (h : Runs.Reach (fun s e s' => unlinkExec s e = some s') UnlinkOk UnlinkInit s) :
    DeletedStays s :=
  (h.invariant (fun _ hinit => hinit.inv) fun _ _ _ hinv hok hs => hinv.step hok hs).deletedStays

def newUnlinkState : UnlinkState := ⟨newDirectory, [], [], fun _ => false, none, []⟩

theorem newUnlinkState_init : UnlinkInit newUnlinkState := ⟨⟨rfl, rfl, rfl⟩, rfl, rfl, rfl⟩

def create (ino : UInt64) (name : FileName) : UnlinkEvent := .dirty (.create ⟨ino, name, 0, 0⟩)

def createAndSend (ino : UInt64) (name : FileName) : List UnlinkEvent :=
  [create ino name, .dirty (.collect 0), .dirty (.alloc 0 true), .sendBatch 0, .deliver]

theorem createAndSend_ok (ino : UInt64) (name : FileName) :
    ∀ e ∈ createAndSend ino name, ∀ s, UnlinkOk s e := by
  simp [createAndSend, create, UnlinkOk]

/-- One file is created, flushed and unlinked, and then another one is created and cancelled. -/
def unlinkTwice : List UnlinkEvent :=
  createAndSend 7 [97] ++ ([UnlinkEvent.dirty (.reply 0 true), .dirty (.finish 0)] ++
    (UnlinkEvent.unlink [97] :: ([UnlinkEvent.sendUnlink, .deliver, .unlinkReply true,
      create 8 [98]] ++ [UnlinkEvent.unlink [98]])))

/-- The Filer applies the BatchCreate, its reply is lost, and the create is queued again when the
file is unlinked. -/
def unlinkAfterLostReply : List UnlinkEvent :=
  createAndSend 7 [97] ++
    [UnlinkEvent.dirty (.reply 0 false), .dirty (.settle 0), .dirty (.finish 0), .unlink [97]]

def OthersIdle (flush : Nat → FlushPc) : Prop := ∀ t, t ≠ 0 → flush t = .idle

theorem OthersIdle.update {flush : Nat → FlushPc} (h : OthersIdle flush) (pc : FlushPc) :
    OthersIdle (Function.update flush 0 pc) := by
  intro t ht
  rw [Function.update_of_ne ht]
  exact h t ht

theorem OthersIdle.not_mem_batch {flush : Nat → FlushPc} (h : OthersIdle flush) (t : Nat)
    (name : FileName) : name ∉ (Function.update flush 0 .idle t).batch.map (·.name) := by
  by_cases ht : t = 0
  · simp [ht, FlushPc.batch]
  · simp [ht, h t ht, FlushPc.batch]

theorem unlinkTwice_ok : Runs.OkAlong unlinkExec UnlinkOk newUnlinkState unlinkTwice := by
  have hstart : OthersIdle fun _ => .idle := fun _ _ => rfl
  refine Runs.OkAlong.append (.of_forall (createAndSend_ok _ _)) ?_
  rintro s ⟨⟩
  refine Runs.OkAlong.append (.of_forall (by simp [UnlinkOk])) ?_
  rintro s ⟨⟩
  refine ⟨⟨fun t => (((hstart.update _).update _).update _).not_mem_batch t _, nofun, nofun⟩, ?_⟩
  rintro s ⟨⟩
  refine Runs.OkAlong.append (.of_forall (by simp [create, UnlinkOk])) ?_
  rintro s ⟨⟩
  refine ⟨⟨fun t => (((hstart.update _).update _).update _).not_mem_batch t _, nofun, ?_⟩, ?_⟩
  · exact fun _ => ⟨by decide, by decide⟩
  · exact fun _ _ => trivial

theorem deletedStays_of_unlinkOk_unlinkTwice :
    ∃ s, unlinkTwice.foldlM unlinkExec newUnlinkState = some s ∧ s.deleted = [[98], [97]] ∧
      DeletedStays s := by
  have hreach := Runs.Reach.of_run (.start newUnlinkState_init) unlinkTwice_ok rfl
  exact ⟨_, rfl, rfl, deletedStays_of_unlinkOk hreach⟩

/-- The unlink cancels the queued create without telling the Filer, which has the file. -/
theorem not_deletedStays_runs :
    ¬ ∀ s, Runs.Reach (fun s e s' => unlinkExec s e = some s') (fun _ _ => True) UnlinkInit s →
      DeletedStays s := by
  intro h
  have hstart : OthersIdle fun _ => .idle := fun _ _ => rfl
  obtain ⟨s, hrun, hqueue, hflush, hwire, hdeleted, hfiler⟩ : ∃ s,
      unlinkAfterLostReply.foldlM unlinkExec newUnlinkState = some s ∧
      s.dirty.dir.creates = [] ∧
      (∀ t name, name ∉ (s.dirty.flush t).batch.map (·.name)) ∧ s.wire = [] ∧
      s.deleted = [[97]] ∧ s.filer = [[97]] := by
    refine ⟨_, rfl, rfl, fun t name => ?_, rfl, rfl, rfl⟩
    exact ((((hstart.update _).update _).update _).update _).not_mem_batch t name
  have hdone : FlushDone s := by
    rintro name ((hheld | ⟨t, hheld⟩) | ⟨r, hr, _⟩)
    · rw [hqueue] at hheld
      cases hheld
    · exact hflush t name hheld
    · rw [hwire] at hr
      cases hr
  have hsafe := h s (.run newUnlinkState_init hrun) hdone
  rw [hdeleted, hfiler] at hsafe
  exact hsafe _ List.mem_cons_self List.mem_cons_self

end PowerFS.Dir
