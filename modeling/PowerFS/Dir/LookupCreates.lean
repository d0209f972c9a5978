import PowerFS.Dir.DirtyCreates
import Mathlib.Tactic.SplitIfs

namespace PowerFS.Dir

/-! `powerfs_lookup` next to optimistic creates and their flushes, where every BatchCreate succeeds
and no name is removed. Flush 0 is that of the work item, and the lookup of thread `l` flushes as
flush `l`. -/

/-- Where a `powerfs_lookup` stands: in its first request, before it reads the count, the list and
`dirty_creates_flushing`, in the two waits, before its flush, and in it or in the second request. -/
inductive LookupStage where
  | asking
  | missed
  | counted (nonzero : Bool)
  | scanned (found : Bool)
  | cancelling
  | waiting
  | woken
  | flushing

/-- A lookup; `before` says that a create of the name had returned when it began. -/
structure LookupCall where
  name : FileName
  before : Bool
  stage : LookupStage

/-- `created`: names whose create has succeeded; `filer`: those that the Filer has; `applied t`: it
has handled the BatchCreate of flush `t`; `absent`: lookups that found nothing. -/
structure LookupState where
  dirty : DirtyState
  created : List FileName
  filer : List FileName
  applied : Nat → Bool
  calls : Nat → Option LookupCall
  absent : List (FileName × Bool)

/-- What can happen. `fail` is a request that ends with another error than `-ENOENT`. -/
inductive LookupEvent where
  | create (dc : DirtyCreate) (alloc : Bool)
  | updateTimes (ino mtime atime : UInt64)
  | collect (t : Nat)
  | alloc (t : Nat) (ok : Bool)
  | apply (t : Nat)
  | reply (t : Nat)
  | finish (t : Nat)
  | start (l : Nat) (name : FileName)
  | ask (l : Nat)
  | readCount (l : Nat)
  | scan (l : Nat)
  | readFlag (l : Nat)
  | cancelWork (l : Nat)
  | wait (l : Nat) (timeout : Bool)
  | flush (l : Nat)
  | askAgain (l : Nat)
  | fail (l : Nat)

namespace LookupState

variable (s : LookupState)

def step (e : DirtyEvent) : Option LookupState :=
  (dirtyExec s.dirty e).map fun dirty => { s with dirty }

def setCall (l : Nat) (c : Option LookupCall) : LookupState :=
  { s with calls := Function.update s.calls l c }

def goto (l : Nat) (c : LookupCall) (stage : LookupStage) : LookupState :=
  s.setCall l (some { c with stage })

/-- The lookup returns a negative dentry. -/
def report (l : Nat) (c : LookupCall) : LookupState :=
  { s.setCall l none with absent := (c.name, c.before) :: s.absent }

def answer (l : Nat) (c : LookupCall) (missed : LookupState) : LookupState :=
  if c.name ∈ s.filer then s.setCall l none else missed

def flushIdle (t : Nat) : Bool :=
  match s.dirty.flush t with
  | .idle => true
  | _ => false

end LookupState

/-- One event; `none` if it cannot happen. -/
def lookupExec (s : LookupState) : LookupEvent → Option LookupState
  | .create dc alloc =>
    if alloc then (s.step (.create dc)).map fun s' => { s' with created := dc.name :: s.created }
    else some { s with created := dc.name :: s.created }
  | .updateTimes ino mtime atime => s.step (.updateTimes ino mtime atime)
  | .collect t =>
    match s.calls t with
    | none =>
      (s.step (.collect t)).map fun s' =>
        { s' with applied := Function.update s.applied t false }
    | some _ => none
  | .alloc t ok => s.step (.alloc t ok)
  | .apply t =>
    match s.dirty.flush t with
    | .sending batch count =>
      some { s with
        filer := (batch.take count.toInt.toNat).map (·.name) ++ s.filer
        applied := Function.update s.applied t true }
    | _ => none
  | .reply t => if s.applied t then s.step (.reply t true) else none
  | .finish t => s.step (.finish t)
  | .start l name =>
    match s.calls l with
    | none =>
      if l ≠ 0 ∧ s.flushIdle l = true then
        some (s.setCall l (some ⟨name, decide (name ∈ s.created), .asking⟩))
      else none
    | some _ => none
  | .ask l =>
    match s.calls l with
    | some ⟨name, before, .asking⟩ =>
      some (s.answer l ⟨name, before, .asking⟩ (s.goto l ⟨name, before, .asking⟩ .missed))
    | _ => none
  | .readCount l =>
    match s.calls l with
    | some ⟨name, before, .missed⟩ =>
      some (s.goto l ⟨name, before, .missed⟩ (.counted (s.dirty.dir.count ≠ 0)))
    | _ => none
  | .scan l =>
    match s.calls l with
    | some ⟨name, before, .counted nonzero⟩ =>
      let found := nonzero && s.dirty.dir.creates.any fun dc => dc.name = name
      some (s.goto l ⟨name, before, .counted nonzero⟩ (.scanned found))
    | _ => none
  | .readFlag l =>
    match s.calls l with
    | some ⟨name, before, .scanned found⟩ =>
      if found || s.dirty.dir.flushing then
        some (s.goto l ⟨name, before, .scanned found⟩ .cancelling)
      else some (s.report l ⟨name, before, .scanned found⟩)
    | _ => none
  | .cancelWork l =>
    match s.calls l with
    | some ⟨name, before, .cancelling⟩ =>
      if s.flushIdle 0 then some (s.goto l ⟨name, before, .cancelling⟩ .waiting) else none
    | _ => none
  | .wait l timeout =>
    match s.calls l with
    | some ⟨name, before, .waiting⟩ =>
      if timeout || !s.dirty.dir.flushing then
        some (s.goto l ⟨name, before, .waiting⟩ .woken)
      else none
    | _ => none
  | .flush l =>
    match s.calls l with
    | some ⟨name, before, .woken⟩ =>
      ((s.goto l ⟨name, before, .woken⟩ .flushing).step (.collect l)).map fun s' =>
        { s' with applied := Function.update s.applied l false }
    | _ => none
  | .askAgain l =>
    match s.calls l with
    | some ⟨name, before, .flushing⟩ =>
      if s.flushIdle l then
        some (s.answer l ⟨name, before, .flushing⟩ (s.report l ⟨name, before, .flushing⟩))
      else none
    | _ => none
  | .fail l =>
    match s.calls l with
    | some ⟨_, _, .asking⟩ => some (s.setCall l none)
    | some ⟨_, _, .flushing⟩ => if s.flushIdle l then some (s.setCall l none) else none
    | _ => none

/-- No lookup has found nothing under a name whose create had returned before it. -/
def ReadsCreates (s : LookupState) : Prop := ∀ r ∈ s.absent, r.2 = false

/-- Every created name is on the Filer, queued, or taken by a flush. -/
def Accounted (s : LookupState) : Prop :=
  ∀ name ∈ s.created, name ∈ s.filer ∨ s.dirty.Holds name

/-- A new directory inode. -/
structure LookupInit (s : LookupState) : Prop where
  dirty : DirtyInit s.dirty
  created : s.created = []
  calls : s.calls = fun _ => none
  absent : s.absent = []

/-- The lookup has missed the name and looks at the count, the list and the flag. -/
def LookupStage.checks : LookupStage → Bool
  | .missed | .counted _ | .scanned _ => true
  | _ => false

/-- Flush `t` takes the list while no other flush runs and no other lookup is about to flush. -/
def LookupState.TakesAlone (s : LookupState) (t : Nat) : Prop :=
  (∀ u, s.dirty.flush u = .idle) ∧ ∀ l c, s.calls l = some c → c.stage = .woken → l = t

/-- A create gets its entry, and no allocation fails. Flushes do not overlap, none takes the list
when a lookup has waited and is about to flush, and none finishes while a lookup of a name that was
created before it is between the first answer and the look at the flag. No wait times out. -/
def LookupOk (s : LookupState) : LookupEvent → Prop
  | .create _ alloc => alloc = true ∧ s.dirty.dir.creates.length + 1 < 2 ^ 31
  | .alloc _ ok => ok = true
  | .collect t | .flush t => s.dirty.dir.count = 0 ∨ s.TakesAlone t
  | .wait _ timeout => timeout = false
  | .finish _ => ∀ l c, s.calls l = some c → c.before = true → c.stage.checks = false
  | _ => True

def DirtyState.Listed (s : DirtyState) (name : FileName) : Prop :=
  name ∈ s.dir.creates.map (·.name)

def DirtyState.Taken (s : DirtyState) (t : Nat) (name : FileName) : Prop :=
  name ∈ (s.flush t).batch.map (·.name)

/-- What holds at each stage. A name that was created before the lookup is seen on the list, or the
flag is set; behind the wait no flush runs, and then the Filer or the own flush has the name. -/
def LookupCall.Fits (s : LookupState) (l : Nat) (c : LookupCall) : Prop :=
  match c.stage with
  | .missed => c.before = true → s.dirty.Listed c.name ∨ s.dirty.dir.flushing = true
  | .counted nonzero => c.before = true →
      nonzero = true ∧ s.dirty.Listed c.name ∨ s.dirty.dir.flushing = true
  | .scanned found => c.before = true → found = true ∨ s.dirty.dir.flushing = true
  | .woken => ∀ t, s.dirty.flush t = .idle
  | .flushing => c.before = true → c.name ∈ s.filer ∨ s.dirty.Taken l c.name
  | .asking | .cancelling | .waiting => True

/-- What holds in every run that meets the condition. -/
structure LookupInv (s : LookupState) : Prop where
  dirty : DirtyInv s.dirty
  alone : ∀ t u, s.dirty.flush t ≠ .idle → s.dirty.flush u ≠ .idle → t = u
  flag : ∀ t, s.dirty.flush t ≠ .idle → s.dirty.dir.flushing = true
  accounted : Accounted s
  applied : ∀ t name, s.applied t = true → s.dirty.Taken t name → name ∈ s.filer
  calls : ∀ l c, s.calls l = some c → (c.before = true → c.name ∈ s.created) ∧ c.Fits s l
  reads : ReadsCreates s

variable {s s' : LookupState} {e : LookupEvent} {l t : Nat} {c : LookupCall}

theorem LookupCall.Fits.mono (h : c.Fits s l)
    (hchecks : c.before = true → c.stage.checks = true →
      (s.dirty.Listed c.name → s'.dirty.Listed c.name ∨ s'.dirty.dir.flushing = true) ∧
      (s.dirty.dir.flushing = true → s'.dirty.dir.flushing = true))
    (hwoken : c.stage = .woken → (∀ t, s.dirty.flush t = .idle) → ∀ t, s'.dirty.flush t = .idle)
    (htaken : c.name ∈ s.filer ∨ s.dirty.Taken l c.name →
      c.name ∈ s'.filer ∨ s'.dirty.Taken l c.name) : c.Fits s' l := by
  obtain ⟨name, before, stage⟩ := c
  cases stage with
  | missed =>
    intro hb
    obtain ⟨hlist, hflag⟩ := hchecks hb rfl
    exact (h hb).elim hlist fun hf => .inr (hflag hf)
  | counted =>
    intro hb
    obtain ⟨hlist, hflag⟩ := hchecks hb rfl
    obtain ⟨hnonzero, hl⟩ | hf := h hb
    · exact (hlist hl).imp_left (.intro hnonzero)
    · exact .inr (hflag hf)
  | scanned => exact fun hb => (h hb).imp_right (hchecks hb rfl).2
  | woken => exact hwoken rfl h
  | flushing => exact fun hb => htaken (h hb)
  | asking | cancelling | waiting => trivial

theorem not_taken_of_idle {d : DirtyState} {name : FileName} (h : d.flush t = .idle) :
    ¬ d.Taken t name := by
  rw [DirtyState.Taken, h]
  exact List.not_mem_nil

theorem LookupState.setCall_calls_ne {c' : Option LookupCall} (h : l ≠ t) :
    (s.setCall t c').calls l = s.calls l := Function.update_of_ne h _ _

namespace LookupInv

section

variable (h : LookupInv s)
include h

/-- A lookup goes on or ends. -/
theorem setCall {d : Option LookupCall}
    (hd : ∀ c ∈ d, (c.before = true → c.name ∈ s.created) ∧ c.Fits s l) :
    LookupInv (s.setCall l d) := by
  refine { h with calls := fun l' c hc => ?_ }
  by_cases hl : l' = l
  · subst hl
    exact hd c (by simpa [LookupState.setCall] using hc)
  · exact h.calls l' c (LookupState.setCall_calls_ne hl ▸ hc)

theorem ended : LookupInv (s.setCall l none) := h.setCall nofun

theorem goto (hc : s.calls l = some c) {stage : LookupStage}
    (hfits : LookupCall.Fits s l { c with stage }) : LookupInv (s.goto l c stage) := by
  refine h.setCall ?_
  rintro _ ⟨⟩
  exact ⟨(h.calls l c hc).1, hfits⟩

theorem report (hbefore : c.before = false) : LookupInv (s.report l c) := by
  refine { h.ended with reads := ?_ }
  rintro r (_ | ⟨_, hr⟩)
  · exact hbefore
  · exact h.reads r hr

/-- A flush that runs goes on, and the list stays. -/
theorem set {dir : DirtyCreates} {pc : FlushPc} (hpc : s.dirty.flush t ≠ .idle)
    (hdirty : DirtyInv (s.dirty.set dir t pc))
    (hlist : ∀ name, s.dirty.Listed name → name ∈ dir.creates.map (·.name))
    (hflag : pc ≠ .idle → dir.flushing = true) (hchecks : dir.flushing = s.dirty.dir.flushing ∨
      ∀ l c, s.calls l = some c → c.before = true → c.stage.checks = false)
    (htaken : ∀ name, s.dirty.Taken t name → name ∈ s.filer ∨ name ∈ pc.batch.map (·.name))
    (hbatch : ∀ name ∈ pc.batch.map (·.name), s.dirty.Taken t name) :
    LookupInv { s with dirty := s.dirty.set dir t pc } := by
  have hsame : ∀ u, u ≠ t → (s.dirty.set dir t pc).flush u = s.dirty.flush u := fun u hu => by
    simp [DirtyState.set, hu]
  have hnew : (s.dirty.set dir t pc).flush t = pc := by simp [DirtyState.set]
  have hactive : ∀ u, (s.dirty.set dir t pc).flush u ≠ .idle → u = t := by
    intro u hu
    by_contra hne
    rw [hsame u hne] at hu
    exact hne (h.alone u t hu hpc)
  have hkept : ∀ u name, s.dirty.Taken u name →
      name ∈ s.filer ∨ (s.dirty.set dir t pc).Taken u name := by
    intro u name htake
    by_cases hu : u = t
    · subst hu
      rw [DirtyState.Taken, hnew]
      exact htaken name htake
    · rw [DirtyState.Taken, hsame u hu]
      exact .inr htake
  constructor
  case dirty => exact hdirty
  case alone => exact fun u v hu hv => (hactive u hu).trans (hactive v hv).symm
  case flag =>
    intro u hu
    obtain rfl := hactive u hu
    exact hflag (hnew ▸ hu)
  case accounted =>
    intro name hname
    obtain hfiler | hlisted | ⟨u, htake⟩ := h.accounted name hname
    · exact .inl hfiler
    · exact .inr (.inl (hlist name hlisted))
    · exact (hkept u name htake).imp_right fun htake => .inr ⟨u, htake⟩
  case applied =>
    intro u name happ htake
    refine h.applied u name happ ?_
    by_cases hu : u = t
    · subst hu
      rw [DirtyState.Taken, hnew] at htake
      exact hbatch name htake
    · rwa [DirtyState.Taken, hsame u hu] at htake
  case calls =>
    intro l c hc
    obtain ⟨hbefore, hfits⟩ := h.calls l c hc
    refine ⟨hbefore, hfits.mono (fun hb hcheck => ?_) (fun _ hidle => absurd (hidle t) hpc)
      fun hname => hname.elim .inl (hkept l c.name)⟩
    obtain hflush | hnone := hchecks
    · exact ⟨fun hl => .inl (hlist c.name hl), hflush.trans⟩
    · cases (hnone l c hc hb).symm.trans hcheck
  case reads => exact h.reads

/-- Nothing is with a flush that is about to take the list. -/
theorem filer_or_listed (hidle : ∀ t, s.dirty.flush t = .idle) {name : FileName}
    (hname : name ∈ s.created) : name ∈ s.filer ∨ s.dirty.Listed name := by
  obtain hfiler | hlisted | ⟨t, htake⟩ := h.accounted name hname
  · exact .inl hfiler
  · exact .inr hlisted
  · exact absurd htake (not_taken_of_idle (hidle t))

/-- A flush begins: it finds the list empty, or takes it while it is the only one. -/
theorem collect {d : DirtyState} (hs : dirtyExec s.dirty (.collect t) = some d)
    (hok : s.dirty.dir.count = 0 ∨ s.TakesAlone t)
    (hcall : ∀ c, s.calls t = some c → c.stage ≠ .woken) :
    LookupInv { s with dirty := d, applied := Function.update s.applied t false } := by
  have hdirty : DirtyInv d := h.dirty.step (e := .collect t) trivial hs
  cases dirtyExec_case hs with
  | nothing hpc =>
    refine { h with applied := fun u name happ htake => ?_ }
    by_cases hu : u = t
    · subst hu
      exact absurd htake (not_taken_of_idle hpc)
    · exact h.applied u name (by simpa [hu] using happ) htake
  | collected hpc hcount =>
    obtain ⟨hidle, hwoken⟩ := hok.resolve_left hcount
    have hsame : ∀ u, u ≠ t → (s.dirty.set s.dirty.dir.detach t
        (.collected s.dirty.dir.creates s.dirty.dir.count)).flush u = .idle := fun u hu => by
      simp [DirtyState.set, hu, hidle]
    have htaken : ∀ name, s.dirty.Listed name → (s.dirty.set s.dirty.dir.detach t
        (.collected s.dirty.dir.creates s.dirty.dir.count)).Taken t name := fun name hname => by
      simp only [DirtyState.Taken, DirtyState.set, Function.update_self]
      exact hname
    have hactive := fun u hu => not_imp_comm.mp (hsame u) hu
    constructor
    case dirty => exact hdirty
    case alone => exact fun u v hu hv => (hactive u hu).trans (hactive v hv).symm
    case flag => exact fun _ _ => rfl
    case accounted =>
      intro name hname
      exact (h.filer_or_listed hidle hname).imp_right fun hl => .inr ⟨t, htaken name hl⟩
    case applied =>
      intro u name happ htake
      have hu : u ≠ t := by
        rintro rfl
        simp at happ
      exact absurd htake (not_taken_of_idle (hsame u hu))
    case calls =>
      intro l c hc
      obtain ⟨hbefore, hfits⟩ := h.calls l c hc
      refine ⟨hbefore, hfits.mono (fun _ _ => ⟨fun _ => .inr rfl, fun _ => rfl⟩)
        (fun hstage _ => ?_) fun hname => .inl (hname.resolve_right (not_taken_of_idle (hidle l)))⟩
      obtain rfl := hwoken l c hc hstage
      exact absurd hstage (hcall c hc)
    case reads => exact h.reads

/-- The list changes and keeps its names. -/
theorem listed {dir : DirtyCreates} (hdirty : DirtyInv { s.dirty with dir })
    (hlist : ∀ name, s.dirty.Listed name → name ∈ dir.creates.map (·.name))
    (hflush : dir.flushing = s.dirty.dir.flushing) {created : List FileName}
    (hcreated : ∀ name ∈ created, name ∈ s.created ∨ name ∈ dir.creates.map (·.name))
    (hsub : ∀ name ∈ s.created, name ∈ created) :
    LookupInv { s with dirty := { s.dirty with dir }, created } := by
  refine { h with dirty := hdirty, flag := ?_, accounted := ?_, calls := ?_ }
  · exact fun t ht => hflush.trans (h.flag t ht)
  · intro name hname
    obtain hold | hnew := hcreated name hname
    · exact (h.accounted name hold).imp_right fun hheld => hheld.imp_left (hlist name)
    · exact .inr (.inl hnew)
  · intro l c hc
    obtain ⟨hbefore, hfits⟩ := h.calls l c hc
    exact ⟨fun hb => hsub _ (hbefore hb),
      hfits.mono (fun _ _ => ⟨fun hl => .inl (hlist c.name hl), hflush.trans⟩) (fun _ => id) id⟩

theorem apply {batch : List DirtyCreate} {count : Int32}
    (hpc : s.dirty.flush t = .sending batch count) :
    LookupInv { s with
      filer := (batch.take count.toInt.toNat).map (·.name) ++ s.filer
      applied := Function.update s.applied t true } := by
  have hcount : count.toInt = batch.length := h.dirty.counted hpc
  have hsub : ∀ name ∈ s.filer,
      name ∈ (batch.take count.toInt.toNat).map (·.name) ++ s.filer := fun _ =>
    List.mem_append_right _
  refine { h with accounted := ?_, applied := ?_, calls := ?_ }
  · exact fun name hname => (h.accounted name hname).imp_left (hsub name)
  · intro u name happ htake
    by_cases hu : u = t
    · subst hu
      rw [DirtyState.Taken, hpc] at htake
      rw [hcount, Int.toNat_natCast, List.take_length]
      exact List.mem_append_left _ htake
    · exact hsub name (h.applied u name (by simpa [hu] using happ) htake)
  · intro l c hc
    obtain ⟨hbefore, hfits⟩ := h.calls l c hc
    exact ⟨hbefore, hfits.mono (fun _ _ => ⟨.inl, id⟩) (fun _ => id) (Or.imp_left (hsub c.name))⟩

end

end LookupInv

theorem LookupInit.inv (h : LookupInit s) : LookupInv s := by
  have hidle : ∀ t, s.dirty.flush t = .idle := fun t => by rw [h.dirty.flush]
  have hcall : ∀ {l c}, s.calls l ≠ some c := fun {l c} hc => by
    rw [h.calls] at hc
    cases hc
  constructor
  case dirty => exact h.dirty.inv
  case alone => exact fun t _ ht => absurd (hidle t) ht
  case flag => exact fun t ht => absurd (hidle t) ht
  case accounted =>
    intro name hname
    rw [h.created] at hname
    cases hname
  case applied => exact fun t _ _ htake => absurd htake (not_taken_of_idle (hidle t))
  case calls => exact fun _ _ hc => absurd hc hcall
  case reads =>
    intro r hr
    rw [h.absent] at hr
    cases hr

theorem LookupState.idle_of_flushIdle (h : s.flushIdle t = true) : s.dirty.flush t = .idle := by
  rw [flushIdle] at h
  split at h
  · assumption
  · cases h

theorem LookupState.exists_of_step {e : DirtyEvent} (h : s.step e = some s') :
    ∃ d, dirtyExec s.dirty e = some d ∧ { s with dirty := d } = s' := by
  simpa [step] using h

/-- The first answer: a name that was created before and is missed is on the list, or a flush is
running. -/
theorem LookupInv.missed (h : LookupInv s) (hc : s.calls l = some c) (hfiler : c.name ∉ s.filer) :
    LookupInv (s.goto l c .missed) := by
  refine h.goto hc fun hbefore => ?_
  obtain hlisted | ⟨t, htake⟩ :=
    (h.accounted c.name ((h.calls l c hc).1 hbefore)).resolve_left hfiler
  · exact .inl hlisted
  · exact .inr (h.flag t fun hidle => not_taken_of_idle hidle htake)

theorem LookupInv.flush (h : LookupInv s) (hc : s.calls l = some c) (hstage : c.stage = .woken)
    (hok : s.dirty.dir.count = 0 ∨ s.TakesAlone l) {d : DirtyState}
    (hd : dirtyExec s.dirty (.collect l) = some d) :
    LookupInv { s.goto l c .flushing with
      dirty := d, applied := Function.update s.applied l false } := by
  obtain ⟨hbefore, hfits⟩ := h.calls l c hc
  have hidle : ∀ t, s.dirty.flush t = .idle := by rwa [LookupCall.Fits, hstage] at hfits
  have hleft : LookupInv (s.goto l c .cancelling) := h.goto hc trivial
  have halone : s.dirty.dir.count = 0 ∨ (s.goto l c .cancelling).TakesAlone l := by
    refine hok.imp_right fun htakes => ⟨htakes.1, fun l' c' hc' hwoken => ?_⟩
    by_contra hl
    exact hl (htakes.2 l' c' (LookupState.setCall_calls_ne hl ▸ hc') hwoken)
  have hafter := hleft.collect hd halone fun c' hc' => by
    obtain rfl : { c with stage := .cancelling } = c' := by
      simpa [LookupState.goto, LookupState.setCall] using hc'
    nofun
  have hnew := hafter.setCall (l := l) (d := some { c with stage := .flushing }) ?_
  · simpa [LookupState.goto, LookupState.setCall] using hnew
  rintro _ ⟨⟩
  refine ⟨hbefore, fun hb => ?_⟩
  refine (h.filer_or_listed hidle (hbefore hb)).imp_right fun hlisted => ?_
  cases dirtyExec_case hd with
  | nothing _ hcount =>
    rw [DirtyState.Listed, h.dirty.creates_eq_nil hcount] at hlisted
    cases hlisted
  | collected =>
    simp only [DirtyState.Taken, DirtyState.set, Function.update_self]
    exact hlisted

theorem LookupInv.step (h : LookupInv s) (hok : LookupOk s e) (hs : lookupExec s e = some s') :
    LookupInv s' := by
  cases e with simp only [lookupExec] at hs
  | create dc alloc =>
    obtain ⟨rfl, hroom⟩ := hok
    cases hs
    have hdirty : DirtyInv { s.dirty with dir := s.dirty.dir.add dc } :=
      h.dirty.step (e := .create dc) hroom rfl
    refine h.listed hdirty ?_ rfl ?_ fun _ => List.mem_cons_of_mem _
    · intro name hname
      rw [DirtyCreates.add, List.map_append]
      exact List.mem_append_left _ hname
    · intro name hname
      obtain rfl | hold := List.mem_cons.mp hname
      · exact .inr (by simp [DirtyCreates.add])
      · exact .inl hold
  | updateTimes ino mtime atime =>
    cases hs
    have hdirty : DirtyInv { s.dirty with dir := s.dirty.dir.updateTimes ino mtime atime } :=
      h.dirty.step (e := .updateTimes ino mtime atime) trivial rfl
    refine h.listed hdirty ?_ rfl (fun _ => .inl) fun _ => id
    intro name hname
    rwa [DirtyCreates.updateTimes, map_setTimes fun _ _ _ => rfl]
  | collect t =>
    split at hs <;> try cases hs
    next hnone =>
    obtain ⟨_, hstep, rfl⟩ := Option.map_eq_some_iff.mp hs
    obtain ⟨d, hd, rfl⟩ := LookupState.exists_of_step hstep
    exact h.collect hd hok fun c hc => by rw [hnone] at hc; cases hc
  | alloc t ok =>
    obtain ⟨d, hd, rfl⟩ := LookupState.exists_of_step hs
    have hdirty := h.dirty.step (e := .alloc t ok) (.inl hok) hd
    cases dirtyExec_case hd with
    | sent hpc =>
      have hne : s.dirty.flush t ≠ .idle := by simp [hpc]
      refine h.set hne hdirty (fun _ => id) (fun _ => h.flag t hne) (.inl rfl) ?_ ?_
      all_goals
        intro name
        rw [DirtyState.Taken, hpc]
      · exact .inr
      · exact id
    | unsent hpc hnull => exact absurd ⟨hok, h.dirty.count_nonneg hpc⟩ hnull
  | apply t =>
    split at hs <;> cases hs
    next hpc => exact h.apply hpc
  | reply t =>
    split at hs <;> try cases hs
    next happ =>
    obtain ⟨d, hd, rfl⟩ := LookupState.exists_of_step hs
    have hdirty := h.dirty.step (e := .reply t true) trivial hd
    cases dirtyExec_case hd with
    | replied hpc =>
      have hne : s.dirty.flush t ≠ .idle := by simp [hpc]
      exact h.set hne hdirty (fun _ => id) (fun _ => h.flag t hne) (.inl rfl)
        (fun name htake => .inl (h.applied t name happ htake)) (by simp [FlushPc.batch])
  | finish t =>
    obtain ⟨d, hd, rfl⟩ := LookupState.exists_of_step hs
    have hdirty := h.dirty.step (e := .finish t) trivial hd
    cases dirtyExec_case hd with
    | finished hpc =>
      refine h.set (by simp [hpc]) hdirty (fun _ => id) (by simp) (.inr hok) ?_
        (by simp [FlushPc.batch])
      simp [DirtyState.Taken, hpc, FlushPc.batch]
  | start l name =>
    split at hs <;> try cases hs
    split at hs <;> cases hs
    refine h.setCall ?_
    rintro _ ⟨⟩
    exact ⟨of_decide_eq_true, trivial⟩
  | ask l =>
    split at hs <;> cases hs
    next hc =>
    rw [LookupState.answer]
    split
    · exact h.ended
    · next hfiler => exact h.missed hc hfiler
  | readCount l =>
    split at hs <;> cases hs
    next hc =>
    refine h.goto hc fun hbefore => ((h.calls l _ hc).2 hbefore).imp_left fun hlisted => ?_
    refine ⟨decide_eq_true fun hzero => ?_, hlisted⟩
    rw [DirtyState.Listed, h.dirty.creates_eq_nil hzero] at hlisted
    cases hlisted
  | scan l =>
    split at hs <;> cases hs
    next hc =>
    refine h.goto hc fun hbefore => ((h.calls l _ hc).2 hbefore).imp_left fun hsees => ?_
    obtain ⟨rfl, hlisted⟩ := hsees
    simpa [DirtyState.Listed] using hlisted
  | readFlag l =>
    split at hs <;> try cases hs
    next hc =>
    split at hs <;> cases hs
    · exact h.goto hc trivial
    · next hneither =>
      refine h.report (Bool.eq_false_iff.mpr fun hbefore => hneither ?_)
      rw [Bool.or_eq_true]
      exact (h.calls l _ hc).2 hbefore
  | cancelWork l =>
    split at hs <;> try cases hs
    next hc =>
    split at hs <;> cases hs
    exact h.goto hc trivial
  | wait l timeout =>
    split at hs <;> try cases hs
    next hc =>
    split at hs <;> cases hs
    next hended =>
    refine h.goto hc fun t => ?_
    by_contra hrun
    have htime : timeout = false := hok
    simp [htime, h.flag t hrun] at hended
  | flush l =>
    split at hs <;> try cases hs
    next hc =>
    obtain ⟨_, hstep, rfl⟩ := Option.map_eq_some_iff.mp hs
    obtain ⟨d, hd, rfl⟩ := LookupState.exists_of_step hstep
    exact h.flush hc rfl hok hd
  | askAgain l =>
    split at hs <;> try cases hs
    next hc =>
    split at hs <;> cases hs
    next hidle =>
    rw [LookupState.answer]
    split
    · exact h.ended
    · next hfiler =>
      refine h.report (Bool.eq_false_iff.mpr fun hbefore => ?_)
      have htake := ((h.calls l _ hc).2 hbefore).resolve_left hfiler
      exact not_taken_of_idle (LookupState.idle_of_flushIdle hidle) htake
  | fail l =>
    split at hs <;> try cases hs
    · exact h.ended
    · split at hs <;> cases hs
      exact h.ended

/-- If flushes do not overlap, succeed, and leave alone the lookups between two of their reads, no
lookup misses a name whose create had returned. -/
theorem readsCreates_of_lookupOk (s : LookupState)
    (h : Runs.Reach (fun s e s' => lookupExec s e = some s') LookupOk LookupInit s) :
    ReadsCreates s :=
  (h.invariant (fun _ => LookupInit.inv) fun _ _ _ hinv hok hs => hinv.step hok hs).reads

def newLookup : LookupState :=
  ⟨⟨⟨[], 0, 0, false⟩, fun _ => .idle⟩, [], [], fun _ => false, fun _ => none, []⟩

theorem newLookup_init : LookupInit newLookup := ⟨⟨rfl, rfl, rfl⟩, rfl, rfl, rfl⟩

/-- A lookup finds the name queued, flushes it and gets it with its second request. -/
def flushedLookup : List LookupEvent :=
  [.create ⟨7, [97], 0, 0⟩ true, .start 1 [97], .ask 1, .readCount 1, .scan 1, .readFlag 1,
    .cancelWork 1, .wait 1 false, .flush 1, .alloc 1 true, .apply 1, .reply 1, .finish 1,
    .askAgain 1]

theorem readsCreates_of_lookupOk_flushed :
    ∃ s, flushedLookup.foldlM lookupExec newLookup = some s ∧ s.filer = [[97]] ∧
      ReadsCreates s := by
  have hok : Runs.OkAlong lookupExec LookupOk newLookup flushedLookup := by
    refine .cons ⟨rfl, by decide⟩ rfl ?_
    iterate 6 refine .cons trivial rfl ?_
    refine .cons rfl rfl (.cons (.inr ⟨fun _ => rfl, fun l c hc _ => ?_⟩) rfl ?_)
    · by_contra hl
      iterate 7 replace hc := (LookupState.setCall_calls_ne hl).symm.trans hc
      cases hc
    refine .cons rfl rfl ?_
    iterate 2 refine .cons trivial rfl ?_
    refine .cons (fun l c hc _ => ?_) rfl (.cons trivial rfl trivial)
    by_cases hl : l = 1
    · subst hl
      cases hc
      rfl
    · iterate 8 replace hc := (LookupState.setCall_calls_ne hl).symm.trans hc
      cases hc
  exact ⟨_, rfl, rfl, readsCreates_of_lookupOk _ (.of_run (.start newLookup_init) hok rfl)⟩

/-- The work item flushes the create between the first answer and the checks: the count, the list
and the flag show nothing, and the lookup does not ask again. -/
theorem not_readsCreates_runs :
    ¬ ∀ s, Runs.Reach (fun s e s' => lookupExec s e = some s') (fun _ _ => True) LookupInit s →
      ReadsCreates s := by
  intro h
  obtain ⟨s, hrun, habsent⟩ : ∃ s,
      [LookupEvent.create ⟨7, [97], 0, 0⟩ true, .start 1 [97], .ask 1, .collect 0, .alloc 0 true,
        .apply 0, .reply 0, .finish 0, .readCount 1, .scan 1, .readFlag 1].foldlM lookupExec
          newLookup = some s ∧ s.absent = [([97], true)] := ⟨_, rfl, rfl⟩
  have hreads := h s (.run newLookup_init hrun)
  have := hreads ([97], true) (by rw [habsent]; exact List.mem_cons_self)
  cases this

end PowerFS.Dir
