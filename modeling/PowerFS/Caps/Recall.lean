import PowerFS.Caps.Flush
import PowerFS.Lib.Runs

namespace PowerFS.Caps

/-! Recalls of an inode's capability, `powerfs_cap_revoke`, among writers, flushes and other
recalls. Each event is what happens under one hold of the inode's lock. -/

/-- Where a `powerfs_cap_revoke` stands: about to flush the bits `toFlush`, flushing, about to
flush the local creates, or with the lock dropped to send the CapRecallAck. -/
inductive RecallPc where
  | begin (toFlush : CapMask)
  | flush (f : Flush)
  | creates
  | ack

inductive Thread where
  | idle
  | flush (f : Flush)
  | revoke (revoking : CapMask) (pc : RecallPc)

namespace Thread

def flush? : Thread → Option Flush
  | .flush f => some f
  | .revoke _ (.flush f) => some f
  | _ => none

/-- A thread goes on with `f`, or after its flush. -/
def resume : Thread → Option Flush → Thread
  | .revoke revoking _, some f => .revoke revoking (.flush f)
  | .revoke revoking _, none => .revoke revoking .creates
  | _, some f => .flush f
  | _, none => .idle

def revoking? : Thread → Option CapMask
  | .revoke revoking _ => some revoking
  | _ => none

@[simp] theorem flush?_resume (th : Thread) (g : Option Flush) : (th.resume g).flush? = g := by
  cases th <;> cases g <;> rfl

@[simp] theorem revoking?_resume (th : Thread) (g : Option Flush) :
    (th.resume g).revoking? = th.revoking? := by
  cases th <;> cases g <;> rfl

end Thread

structure Sys where
  data : CapData
  thread : Nat → Thread

namespace Sys

variable (s : Sys)

def set (d : CapData) (t : Nat) (th : Thread) : Sys := ⟨d, Function.update s.thread t th⟩

/-- Thread `t` is in the flush `f`. -/
def Running (t : Nat) (f : Flush) : Prop := (s.thread t).flush? = some f

/-- Thread `t` is revoking the bits `R`. -/
def Revoking (t : Nat) (R : CapMask) : Prop := (s.thread t).revoking? = some R

variable {s}

theorem thread_set_self (d : CapData) (t : Nat) (th : Thread) : (s.set d t th).thread t = th := by
  simp [set]

theorem thread_set_of_ne (d : CapData) {t u : Nat} (th : Thread) (h : u ≠ t) :
    (s.set d t th).thread u = s.thread u := by
  simp [set, Function.update_of_ne h]

end Sys

/-- What can happen to an inode. The arguments are what the code gets from elsewhere: the bits a
change needs, results of calls, and what the Filer sends. -/
inductive RecallEvent where
  | markDirty (caps : CapMask)
  | writeInline
  | migrate
  | getRefs (valid : Bool) (need want : CapMask)
  | putRefs (had : CapMask)
  | issue (bits : CapMask) (token : Bool)
  | localCreate
  | startFlush (t : Nat) (mask : CapMask) (alloc : Bool)
  | startRecall (t : Nat) (retain : UInt8)
  | recallFlush (t : Nat) (alloc : Bool)
  | step (t : Nat) (o : FlushOutcome)
  | creates (t : Nat) (left : Nat)
  | ack (t : Nat) (piggyback : CapMask)

namespace CapData

variable (d : CapData)

/-- `powerfs_cap_issue`. -/
def issue (bits : CapMask) : CapData :=
  { d with issued := d.issued ||| bits, implemented := d.implemented ||| bits }

def revokingBits (retain : UInt8) : CapMask := d.issued &&& ~~~wireCapsetToKernelBits retain

/-- The end of `powerfs_cap_revoke`. `powerfs_flush_dirty_creates` leaves `left` creates behind,
and a clean inline payload is dropped. -/
def downgrade (revoking : CapMask) (left : Nat) : CapData :=
  { d with
    creates := if revoking.has capAuthExcl && d.isDir then min left d.creates else d.creates
    implemented := d.issued
    inlineData := if revoking.has capWrData && d.inline && !d.inlineDirty then false
      else d.inlineData }

end CapData

/-- One event; `none` if it cannot happen. -/
def recallExec (s : Sys) : RecallEvent → Option Sys
  | .markDirty caps =>
    if caps &&& ~~~capAnyDirty = 0 then some { s with data := s.data.change caps } else none
  | .writeInline => if s.data.inline then some { s with data := s.data.writeInline } else none
  | .migrate => if s.data.inlineData then some { s with data := s.data.migrate } else none
  | .getRefs valid need want =>
    let issued := if valid then s.data.issued else 0
    some { s with data :=
      { s.data with refs := (tryGetCapRefsLocked issued need want s.data.refs).refs } }
  | .putRefs had => some { s with data := { s.data with refs := putRefs s.data.refs had } }
  | .issue bits token =>
    some { s with data := { s.data.issue bits with granted := s.data.granted || token } }
  | .localCreate =>
    if s.data.isDir then some { s with data := { s.data with creates := s.data.creates + 1 } }
    else none
  | .startFlush t mask alloc =>
    match s.thread t with
    | .idle =>
      let r := flushBegin s.data mask alloc
      some (s.set r.1 t (Thread.idle.resume r.2))
    | _ => none
  | .startRecall t retain =>
    match s.thread t with
    | .idle =>
      let revoking := s.data.revokingBits retain
      let toFlush := s.data.dirty &&& revoking
      if revoking = 0 then none
      else some (s.set { s.data with issued := s.data.issued &&& ~~~revoking } t
        (.revoke revoking (if toFlush = 0 then .creates else .begin toFlush)))
    | _ => none
  | .recallFlush t alloc =>
    match s.thread t with
    | .revoke _ (.begin toFlush) =>
      let r := flushBegin s.data toFlush alloc
      some (s.set r.1 t ((s.thread t).resume r.2))
    | _ => none
  | .step t o =>
    match (s.thread t).flush? with
    | some f =>
      let r := flushStep s.data f o
      some (s.set r.1 t ((s.thread t).resume r.2))
    | none => none
  | .creates t left =>
    match s.thread t with
    | .revoke revoking .creates =>
      some (s.set (s.data.downgrade revoking left) t (.revoke revoking .ack))
    | _ => none
  | .ack t piggyback =>
    match s.thread t with
    | .revoke _ .ack => some (s.set (s.data.issue piggyback) t .idle)
    | _ => none

/-- No writer holds a reference on a bit of `R`. -/
def WriterFree (d : CapData) (R : CapMask) : Prop :=
  (R.has capFileWr = true → d.refs.wr ≤ 0) ∧ (R.has capFileExcl = true → d.refs.fx ≤ 0)

/-- What a CapRecallAck for the bits `R` tells the Filer. -/
structure AckSafe (d : CapData) (R : CapMask) : Prop where
  clean : d.dirty &&& R = 0
  inlineClean : d.inlineDirty = false
  acked : ∀ b, R.getLsbD b = true → d.wrote b ≤ d.acked b
  inlineAcked : R.has capWrData = true → d.inlineWrote ≤ d.inlineAcked
  writerFree : WriterFree d R
  created : d.isDir = true → R.has capAuthExcl = true → d.creates = 0

/-- Every CapRecallAck that can be sent now is true. Without a token none is sent. -/
def RecallSafe (s : Sys) : Prop :=
  ∀ t R, s.thread t = .revoke R .ack → s.data.granted = true → AckSafe s.data R

/-- A clean inode that nothing works on. -/
structure RecallInit (s : Sys) : Prop where
  idle : ∀ t, s.thread t = .idle
  clean : s.data.dirty = 0
  acked : s.data.wrote = s.data.acked
  inlineClean : s.data.inlineDirty = false
  inlineAcked : s.data.inlineWrote = s.data.inlineAcked

/-- While bits are being revoked nothing is changed under them, they are not issued again and no
other flush takes them up; a recall starts without writers and flushes on its bits; and the calls of
its flush succeed. -/
def RecallOk (s : Sys) : RecallEvent → Prop
  | .markDirty caps => ∀ t R, s.Revoking t R → caps &&& R = 0
  | .writeInline =>
    (∀ t R, ¬ s.Revoking t R) ∧ ∀ t f, s.Running t f → f.inline = true → f.stage ≠ .send
  | .migrate => ∀ t R, s.Revoking t R → capWrData &&& R = 0
  | .getRefs .. => True
  | .putRefs _ => True
  | .issue bits _ => ∀ t R, s.Revoking t R → bits &&& R = 0
  | .localCreate => ∀ t R, s.Revoking t R → R.has capAuthExcl = false
  | .startFlush _ mask _ => ∀ t R, s.Revoking t R →
    s.data.dirty &&& mask &&& R = 0 ∧ needInlineFlush s.data (s.data.dirty &&& mask) = false
  | .startRecall _ retain =>
    WriterFree s.data (s.data.revokingBits retain) ∧
    (∀ t f, s.Running t f → f.caps &&& s.data.revokingBits retain = 0 ∧ f.inline = false) ∧
    (s.data.inlineDirty = true →
      needInlineFlush s.data (s.data.dirty &&& s.data.revokingBits retain) = true)
  | .recallFlush t alloc => alloc = true ∧
    ∀ R toFlush, s.thread t = .revoke R (.begin toFlush) → ∀ u R', u ≠ t → s.Revoking u R' →
      s.data.dirty &&& toFlush &&& R' = 0 ∧
        needInlineFlush s.data (s.data.dirty &&& toFlush) = false
  | .step t o => o ≠ .silent ∧ ∀ R, s.Revoking t R → o = .ok
  | .creates t left => ∀ R, s.Revoking t R → s.data.isDir = true →
    R.has capAuthExcl = true → left = 0
  | .ack t piggyback => ∀ u R, u ≠ t → s.Revoking u R → piggyback &&& R = 0

/-- What a recall of `R` has reached at `pc`. -/
def Reached (d : CapData) (R : CapMask) : RecallPc → Prop
  | .begin toFlush =>
    d.dirty &&& R = toFlush ∧ (d.inlineDirty = true → needInlineFlush d toFlush = true)
  | .flush f =>
    d.dirty &&& R = 0 ∧ (d.inlineDirty = true → f.inline = true ∧ f.stage ≠ .finish)
  | .creates => d.dirty &&& R = 0 ∧ d.inlineDirty = false
  | .ack => d.dirty &&& R = 0 ∧ d.inlineDirty = false ∧
    (d.isDir = true → R.has capAuthExcl = true → d.creates = 0)

structure RecallInv (s : Sys) : Prop where
  dirtyBits : ∀ b, s.data.dirty.getLsbD b = true → capAnyDirty.getLsbD b = true
  latest : ∀ b, s.data.acked b < s.data.wrote b → ∃ t, Held s.data (s.thread t).flush? b
  inlineKept : InlineKept s.data
  snapshot : ∀ t f, s.Running t f → f.inline = true → f.stage = .send →
    f.inlineAt = s.data.inlineWrote
  apart : ∀ t u R f, s.Revoking t R → u ≠ t → s.Running u f → f.caps &&& R = 0 ∧ f.inline = false
  free : ∀ t R, s.Revoking t R → WriterFree s.data R ∧ s.data.issued &&& R = 0
  reached : ∀ t R pc, s.thread t = .revoke R pc → Reached s.data R pc

variable {s : Sys} {d' : CapData} {R : CapMask}

theorem RecallInv.safe (h : RecallInv s) : RecallSafe s := by
  intro t R hack _
  have hrevoking : s.Revoking t R := by rw [Sys.Revoking, hack]; rfl
  obtain ⟨hclean, hinline, hcreates⟩ := h.reached t R .ack hack
  refine ⟨hclean, hinline, fun b hb => ?_, fun _ => ?_, (h.free t R hrevoking).1, hcreates⟩
  · by_contra hopen
    obtain ⟨u, hheld⟩ := h.latest b (Nat.lt_of_not_le hopen)
    rcases hheld with hdirty | ⟨f, hf, hpending, _⟩
    · rw [and_eq_zero_iff] at hclean
      rw [hclean b hdirty] at hb
      cases hb
    · -- a flush that still has the bit would be the recall's own, and that one is over
      have hne : u ≠ t := by
        rintro rfl
        rw [hack] at hf
        cases hf
      have hapart := (h.apart t u R f hrevoking hne hf).1
      rw [and_eq_zero_iff] at hapart
      rw [hapart b (Flush.caps_of_pending hpending)] at hb
      cases hb
  · by_contra hopen
    have hdirty := (h.inlineKept (Nat.lt_of_not_le hopen)).1
    rw [hinline] at hdirty
    cases hdirty

theorem RecallInit.inv (h : RecallInit s) : RecallInv s := by
  have hrunning : ∀ t f, ¬ s.Running t f := fun t f hf => by
    rw [Sys.Running, h.idle t] at hf
    cases hf
  have hrevoking : ∀ t R, ¬ s.Revoking t R := fun t R hR => by
    rw [Sys.Revoking, h.idle t] at hR
    cases hR
  refine ⟨fun b hb => ?_, fun b hopen => ?_, fun hopen => ?_, fun t f hf => ?_,
    fun t u R f hR => ?_, fun t R hR => ?_, fun t R pc hR => ?_⟩
  · simp [h.clean] at hb
  · rw [h.acked] at hopen
    exact absurd hopen (Nat.lt_irrefl _)
  · rw [h.inlineAcked] at hopen
    exact absurd hopen (Nat.lt_irrefl _)
  · exact absurd hf (hrunning t f)
  · exact absurd hR (hrevoking t R)
  · exact absurd hR (hrevoking t R)
  · rw [h.idle t] at hR
    cases hR

/-- A change of the inode that a recall of `R` under way does not notice. -/
structure Spares (d d' : CapData) (R : CapMask) : Prop where
  dirty : d'.dirty &&& R = d.dirty &&& R
  inline : d'.inlineDirty = true → d.inlineDirty = true ∧ d'.inline = d.inline
  free : WriterFree d R ∧ d.issued &&& R = 0 → WriterFree d' R ∧ d'.issued &&& R = 0
  isDir : d'.isDir = d.isDir
  creates : R.has capAuthExcl = true → d.creates = 0 → d'.creates = 0

theorem Reached.spares {d : CapData} {pc : RecallPc} (h : Reached d R pc) (hs : Spares d d' R) :
    Reached d' R pc := by
  have hclean : d.inlineDirty = false → d'.inlineDirty = false := by
    intro hfalse
    by_contra hne
    rw [Bool.not_eq_false] at hne
    rw [(hs.inline hne).1] at hfalse
    cases hfalse
  cases pc with
  | begin toFlush =>
    refine ⟨hs.dirty.trans h.1, fun hin => ?_⟩
    obtain ⟨hin', heq⟩ := hs.inline hin
    have hneed := h.2 hin'
    simp only [needInlineFlush, hin, hin', heq] at hneed ⊢
    exact hneed
  | flush f => exact ⟨hs.dirty.trans h.1, fun hin => h.2 (hs.inline hin).1⟩
  | creates => exact ⟨hs.dirty.trans h.1, hclean h.2⟩
  | ack =>
    refine ⟨hs.dirty.trans h.1, hclean h.2.1, fun hdir hauth => ?_⟩
    rw [hs.isDir] at hdir
    exact hs.creates hauth (h.2.2 hdir hauth)

theorem RecallInv.change (h : RecallInv s)
    (hbits : ∀ b, d'.dirty.getLsbD b = true → capAnyDirty.getLsbD b = true)
    (hkeeps : ∀ b, Keeps s.data none d' none b) (hinline : InlineKept d')
    (hsnap : ∀ t f, s.Running t f → f.inline = true → f.stage = .send →
      f.inlineAt = d'.inlineWrote)
    (hspares : ∀ t R, s.Revoking t R → Spares s.data d' R) : RecallInv { s with data := d' } := by
  refine ⟨hbits, fun b hopen => ?_, hinline, hsnap, h.apart,
    fun t R hR => (hspares t R hR).free (h.free t R hR), fun t R pc hpc => ?_⟩
  · rcases hkeeps b hopen with hheld | ⟨hopen', hwrote, hheld⟩
    · exact ⟨0, .inl (held_none.mp hheld)⟩
    · obtain ⟨u, hdirty | ⟨f, hf, hpending, hat⟩⟩ := h.latest b hopen'
      · exact absurd (held_none.mpr hdirty) hheld
      · exact ⟨u, .inr ⟨f, hf, hpending, hat.trans hwrote.symm⟩⟩
  · have hR : s.Revoking t R := by
      change (s.thread t).revoking? = some R
      rw [show s.thread t = .revoke R pc from hpc]
      rfl
    exact (h.reached t R pc hpc).spares (hspares t R hR)

/-- What thread `t` guarantees when it leaves the inode as `d'` and goes on as `th`. -/
structure Turn (s : Sys) (t : Nat) (d' : CapData) (th : Thread) : Prop where
  dirtyBits : ∀ b, d'.dirty.getLsbD b = true → capAnyDirty.getLsbD b = true
  keeps : ∀ b, Keeps s.data (s.thread t).flush? d' th.flush? b
  inlineKept : InlineKept d'
  inlineWrote : d'.inlineWrote = s.data.inlineWrote
  snapshot : ∀ f, th.flush? = some f → f.inline = true → f.stage = .send →
    f.inlineAt = d'.inlineWrote
  apart : ∀ u R f, u ≠ t → s.Revoking u R → th.flush? = some f →
    f.caps &&& R = 0 ∧ f.inline = false
  alone : ∀ R u f, th.revoking? = some R → u ≠ t → s.Running u f →
    f.caps &&& R = 0 ∧ f.inline = false
  spares : ∀ u R, u ≠ t → s.Revoking u R → Spares s.data d' R
  free : ∀ R, th.revoking? = some R → WriterFree d' R ∧ d'.issued &&& R = 0
  reached : ∀ R pc, th = .revoke R pc → Reached d' R pc

theorem RecallInv.turn {t : Nat} {th : Thread} (h : RecallInv s) (ht : Turn s t d' th) :
    RecallInv (s.set d' t th) := by
  have hself := @Sys.thread_set_self s d' t th
  have hother : ∀ u, u ≠ t → (s.set d' t th).thread u = s.thread u :=
    fun u hu => Sys.thread_set_of_ne d' th hu
  refine ⟨ht.dirtyBits, fun b hopen => ?_, ht.inlineKept, fun u f hf => ?_,
    fun u v R f hR hne hf => ?_, fun u R hR => ?_, fun u R pc hpc => ?_⟩
  · rcases ht.keeps b hopen with hheld | ⟨hopen', hwrote, hheld⟩
    · exact ⟨t, by rw [hself]; exact hheld⟩
    · -- the change was held by another thread, which still has it
      obtain ⟨u, hu⟩ := h.latest b hopen'
      have hne : u ≠ t := by
        rintro rfl
        exact hheld hu
      refine ⟨u, ?_⟩
      rw [hother u hne]
      rcases hu with hdirty | ⟨f, hf, hpending, hat⟩
      · exact absurd (.inl hdirty) hheld
      · exact .inr ⟨f, hf, hpending, hat.trans hwrote.symm⟩
  · rw [Sys.Running] at hf
    by_cases hu : u = t
    · subst hu
      rw [hself] at hf
      exact ht.snapshot f hf
    · rw [hother u hu] at hf
      intro hin hstage
      exact (h.snapshot u f hf hin hstage).trans ht.inlineWrote.symm
  · rw [Sys.Revoking] at hR
    rw [Sys.Running] at hf
    by_cases hu : u = t
    · subst hu
      rw [hself] at hR
      rw [hother v hne] at hf
      exact ht.alone R v f hR hne hf
    · rw [hother u hu] at hR
      by_cases hv : v = t
      · subst hv
        rw [hself] at hf
        exact ht.apart u R f hu hR hf
      · rw [hother v hv] at hf
        exact h.apart u v R f hR hne hf
  · rw [Sys.Revoking] at hR
    by_cases hu : u = t
    · subst hu
      rw [hself] at hR
      exact ht.free R hR
    · rw [hother u hu] at hR
      exact (ht.spares u R hu hR).free (h.free u R hR)
  · by_cases hu : u = t
    · subst hu
      rw [hself] at hpc
      exact ht.reached R pc hpc
    · rw [hother u hu] at hpc
      have hR : s.Revoking u R := by rw [Sys.Revoking, hpc]; rfl
      exact (h.reached u R pc hpc).spares (ht.spares u R hu hR)

section Events

variable {d : CapData}

theorem spares_change {caps : CapMask} (h : caps &&& R = 0) : Spares d (d.change caps) R :=
  ⟨or_and_of_disjoint h, fun hin => ⟨hin, rfl⟩, id, rfl, fun _ => id⟩

theorem change_dirtyBits {caps : CapMask} (h : caps &&& ~~~capAnyDirty = 0)
    (hd : ∀ b, d.dirty.getLsbD b = true → capAnyDirty.getLsbD b = true) (b : Nat)
    (hb : (d.change caps).dirty.getLsbD b = true) : capAnyDirty.getLsbD b = true := by
  simp only [CapData.change, BitVec.getLsbD_or, Bool.or_eq_true] at hb
  rcases hb with hb | hb
  · exact hd b hb
  · have hnot := and_eq_zero_iff.mp h b hb
    have hlt := BitVec.lt_of_getLsbD hb
    simpa only [BitVec.getLsbD_not, hlt, decide_true, Bool.true_and, Bool.not_eq_false'] using hnot

theorem refsFor_has_wr (issued : CapMask) :
    (refsFor issued).has capFileWr = issued.has capFileWr ∧
      (refsFor issued).has capFileExcl = issued.has capFileExcl := by
  unfold refsFor
  cases issued.has capFileShared <;> cases issued.has capFileCache <;>
    cases issued.has capFileWr <;> cases issued.has capFileExcl <;> decide

theorem has_single_of_disjoint {issued : CapMask} {k : Nat} (h : issued &&& R = 0)
    (hR : R.has (1#32 <<< k) = true) : issued.has (1#32 <<< k) = false := by
  have hsingle : ∀ i, (1#32 <<< k).getLsbD i = true → i = k := by
    intro i hi
    simp at hi
    omega
  by_contra hne
  rw [Bool.not_eq_false, has_iff] at hne
  obtain ⟨i, hi, hik⟩ := hne
  obtain ⟨j, hj, hjk⟩ := has_iff.mp hR
  rw [hsingle j hjk, ← hsingle i hik, and_eq_zero_iff.mp h i hi] at hj
  cases hj

theorem spares_getRefs (valid : Bool) (need want : CapMask) : Spares d { d with refs :=
    (tryGetCapRefsLocked (if valid then d.issued else 0) need want d.refs).refs } R := by
  refine ⟨rfl, fun hin => ⟨hin, rfl⟩, fun ⟨⟨hwr, hfx⟩, hissued⟩ => ⟨?_, hissued⟩, rfl, fun _ => id⟩
  have hvalid : (if valid then d.issued else 0) &&& R = 0 := by
    cases valid <;> simp [hissued]
  generalize (if valid then d.issued else 0) = issued at hvalid
  obtain ⟨hhaswr, hhasfx⟩ := refsFor_has_wr issued
  simp only [tryGetCapRefsLocked]
  split
  · refine ⟨fun hR => ?_, fun hR => ?_⟩
    · have hno : issued.has capFileWr = false := has_single_of_disjoint hvalid hR
      simpa [takeRefs, CapMask.count, hhaswr, hno] using hwr hR
    · have hno : issued.has capFileExcl = false := has_single_of_disjoint hvalid hR
      simpa [takeRefs, CapMask.count, hhasfx, hno] using hfx hR
  · exact ⟨hwr, hfx⟩

theorem spares_putRefs (had : CapMask) :
    Spares d { d with refs := putRefs d.refs had } R := by
  have hcount : ∀ bit, 0 ≤ had.count bit := by
    intro bit
    unfold CapMask.count
    split <;> decide
  refine ⟨rfl, fun hin => ⟨hin, rfl⟩, fun ⟨⟨hwr, hfx⟩, hissued⟩ => ⟨⟨fun hR => ?_, fun hR => ?_⟩,
    hissued⟩, rfl, fun _ => id⟩
  · have hle := hwr hR
    have hpos := hcount capFileWr
    simp only [putRefs]
    omega
  · have hle := hfx hR
    have hpos := hcount capFileExcl
    simp only [putRefs]
    omega

theorem spares_issue {bits : CapMask} (h : bits &&& R = 0) : Spares d (d.issue bits) R :=
  ⟨rfl, fun hin => ⟨hin, rfl⟩,
    fun ⟨hfree, hissued⟩ => ⟨hfree, (or_and_of_disjoint h).trans hissued⟩, rfl, fun _ => id⟩

theorem FlushMove.spares {f : Flush} {f' : Option Flush} {o : FlushOutcome}
    (h : FlushMove d f o d' f') (hcaps : f.caps &&& R = 0) (hinline : f.inline = false) :
    Spares d d' R := by
  obtain ⟨hrefs, hissued, hdir, hcreates, _⟩ := h.frame
  have hforeign := fun b => @FlushMove.foreign d f o b d' f' h hinline
  have hbit : ∀ b, R.getLsbD b = true → f.caps.getLsbD b = false := by
    intro b hb
    by_contra hne
    rw [Bool.not_eq_false] at hne
    rw [and_eq_zero_iff.mp hcaps b hne] at hb
    cases hb
  refine ⟨?_, ?_, ?_, hdir, fun _ hzero => hcreates.trans hzero⟩
  · apply BitVec.eq_of_getLsbD_eq
    intro b _
    rw [BitVec.getLsbD_and, BitVec.getLsbD_and]
    cases hb : R.getLsbD b with
    | false => simp
    | true => rw [(hforeign b (hbit b hb)).1]
  · -- bit 32 is in no mask, so it stands for a bit outside the flush
    obtain ⟨_, hdirty, heq⟩ := hforeign 32 (BitVec.getLsbD_of_ge _ _ (Nat.le_refl _))
    intro hin
    rw [hdirty] at hin
    exact ⟨hin, heq⟩
  · simp only [WriterFree, hrefs, hissued]
    exact id

end Events

section Turns

variable {t : Nat}

theorem revoking_of_resume {g : Option Flush} (h : ((s.thread t).resume g).revoking? = some R) :
    s.Revoking t R := by
  rwa [Thread.revoking?_resume] at h

section

variable (h : RecallInv s)
include h

theorem RecallInv.turn_flushBegin {mask : CapMask} {alloc : Bool}
    (hnone : (s.thread t).flush? = none) (hothers : ∀ u R, u ≠ t → s.Revoking u R →
      s.data.dirty &&& mask &&& R = 0 ∧ needInlineFlush s.data (s.data.dirty &&& mask) = false)
    (hreached : ∀ R pc, (s.thread t).resume (flushBegin s.data mask alloc).2 = .revoke R pc →
      Reached (flushBegin s.data mask alloc).1 R pc) :
    Turn s t (flushBegin s.data mask alloc).1
      ((s.thread t).resume (flushBegin s.data mask alloc).2) := by
  have hkeeps := fun b => @flushBegin_keeps s.data b mask alloc (h.dirtyBits b)
  rcases flushBegin_cases s.data mask alloc with ⟨fl, heq, _⟩ | ⟨fl, f, heq, hcaps, hin, hstage⟩
  · rw [heq] at hkeeps hreached ⊢
    exact ⟨h.dirtyBits, fun b => by rw [hnone, Thread.flush?_resume]; exact hkeeps b,
      h.inlineKept, rfl, by simp, by simp,
      fun R u f hR hne => h.apart t u R f (revoking_of_resume hR) hne,
      fun u R _ _ => ⟨rfl, fun hin => ⟨hin, rfl⟩, id, rfl, fun _ => id⟩,
      fun R hR => h.free t R (revoking_of_resume hR), hreached⟩
  · rw [heq] at hkeeps hreached ⊢
    refine ⟨fun b hb => h.dirtyBits b ?_, fun b => ?_, h.inlineKept, rfl, fun g hg _ hsend => ?_,
      fun u R g hne hR hg => ?_, fun R u f hR hne => h.apart t u R f (revoking_of_resume hR) hne,
      fun u R hne hR => ?_, fun R hR => h.free t R (revoking_of_resume hR), hreached⟩
    · rw [getLsbD_andNot, Bool.and_eq_true] at hb
      exact hb.1
    · rw [hnone, Thread.flush?_resume]
      exact hkeeps b
    · rw [Thread.flush?_resume, Option.some.injEq] at hg
      rw [← hg, hstage] at hsend
      cases hsend
    · rw [Thread.flush?_resume, Option.some.injEq] at hg
      rw [← hg, hcaps, hin]
      exact hothers u R hne hR
    · exact ⟨andNot_and_of_disjoint (hothers u R hne hR).1, fun hin => ⟨hin, rfl⟩, id, rfl,
        fun _ => id⟩

theorem RecallInv.turn_flushStep {f : Flush} {o : FlushOutcome}
    (hf : (s.thread t).flush? = some f) (ho : o ≠ .silent) (hok : ∀ R, s.Revoking t R → o = .ok) :
    Turn s t (flushStep s.data f o).1 ((s.thread t).resume (flushStep s.data f o).2) := by
  have hmove := flushStep_move s.data f o
  generalize hd : (flushStep s.data f o).1 = d' at hmove ⊢
  generalize hg : (flushStep s.data f o).2 = g at hmove ⊢
  obtain ⟨hrefs, hissued, _, _, hwrote⟩ := hmove.frame
  refine ⟨fun b => hmove.dirtyBits (h.dirtyBits b), fun b => ?_,
    hmove.inlineKept h.inlineKept (h.snapshot t f hf), hwrote, fun f' hf' hin hsend => ?_,
    fun u R f' hne hR hf' => ?_, fun R u f' hR hne => h.apart t u R f' (revoking_of_resume hR) hne,
    fun u R hne hR => ?_, fun R hR => ?_, fun R pc hpc => ?_⟩
  · rw [hf, Thread.flush?_resume]
    exact hmove.keeps ho
  · rw [Thread.flush?_resume] at hf'
    subst hf'
    rw [hwrote]
    exact hmove.inlineAt hsend
  · rw [Thread.flush?_resume] at hf'
    subst hf'
    obtain ⟨hcaps, hin, _⟩ := hmove.next
    rw [hcaps, hin]
    exact h.apart u t R f hR (Ne.symm hne) hf
  · obtain ⟨hcaps, hin⟩ := h.apart u t R f hR (Ne.symm hne) hf
    exact hmove.spares hcaps hin
  · simp only [WriterFree, hrefs, hissued]
    exact h.free t R (revoking_of_resume hR)
  · -- only a recall resumes as one; its steps succeed
    have hR : s.Revoking t R := revoking_of_resume (by rw [hpc]; rfl)
    have hthread : s.thread t = .revoke R (.flush f) := by
      cases hth : s.thread t with
      | idle => rw [hth] at hf; cases hf
      | flush f' => rw [Sys.Revoking, hth] at hR; cases hR
      | revoke R' pc' =>
        rw [Sys.Revoking, hth] at hR
        cases hR
        cases pc' <;> rw [hth] at hf <;> cases hf
        rfl
    obtain ⟨hclean, hup⟩ := h.reached t R (.flush f) hthread
    rw [hok R hR] at hmove
    have hdirty := hmove.dirty_of_ok
    have hinline := hmove.inlineDirty_of_ok hup
    rw [hthread] at hpc
    cases g with
    | none =>
      cases hpc
      refine ⟨by rw [hdirty]; exact hclean, ?_⟩
      by_contra hne
      rw [Bool.not_eq_false] at hne
      obtain ⟨_, hnone, _⟩ := hinline hne
      cases hnone
    | some f' =>
      cases hpc
      refine ⟨by rw [hdirty]; exact hclean, fun hin => ?_⟩
      obtain ⟨_, hsome, hrest⟩ := hinline hin
      cases hsome
      exact hrest

theorem RecallInv.turn_startRecall {R : CapMask} (hidle : s.thread t = .idle)
    (hfree : WriterFree s.data R)
    (halone : ∀ u f, s.Running u f → f.caps &&& R = 0 ∧ f.inline = false)
    (hinline : s.data.inlineDirty = true →
      needInlineFlush s.data (s.data.dirty &&& R) = true) :
    Turn s t { s.data with issued := s.data.issued &&& ~~~R }
      (.revoke R (if s.data.dirty &&& R = 0 then .creates else .begin (s.data.dirty &&& R))) := by
  have hnone : (Thread.revoke R (if s.data.dirty &&& R = 0 then .creates
      else .begin (s.data.dirty &&& R))).flush? = none := by
    split <;> rfl
  refine ⟨h.dirtyBits, fun b => ?_, h.inlineKept, rfl, fun f hf => ?_, fun u R' f _ _ hf => ?_,
    fun R' u f hR _ hf => ?_, fun u R' _ _ => ?_, fun R' hR => ?_, fun R' pc hpc => ?_⟩
  · rw [hidle, hnone]
    exact keeps_of_eq rfl (Nat.le_refl _) fun hheld _ => held_none.mpr (held_none.mp hheld)
  · rw [hnone] at hf
    cases hf
  · rw [hnone] at hf
    cases hf
  · cases hR
    exact halone u f hf
  · refine ⟨rfl, fun hin => ⟨hin, rfl⟩, fun ⟨hfree', hissued⟩ => ⟨hfree', ?_⟩, rfl, fun _ => id⟩
    rw [and_eq_zero_iff] at hissued ⊢
    intro i hi
    rw [getLsbD_andNot, Bool.and_eq_true] at hi
    exact hissued i hi.1
  · cases hR
    refine ⟨hfree, and_eq_zero_iff.mpr fun i hi => ?_⟩
    rw [getLsbD_andNot, Bool.and_eq_true] at hi
    simpa using hi.2
  · cases hpc
    split
    · next hzero =>
      refine ⟨hzero, ?_⟩
      by_contra hne
      rw [Bool.not_eq_false] at hne
      have hneed := hinline hne
      simp [needInlineFlush, hzero, CapMask.has] at hneed
    · exact ⟨rfl, hinline⟩

theorem RecallInv.turn_recallFlush {R toFlush : CapMask}
    (hpc : s.thread t = .revoke R (.begin toFlush))
    (hothers : ∀ u R, u ≠ t → s.Revoking u R → s.data.dirty &&& toFlush &&& R = 0 ∧
      needInlineFlush s.data (s.data.dirty &&& toFlush) = false) :
    Turn s t (flushBegin s.data toFlush true).1
      ((s.thread t).resume (flushBegin s.data toFlush true).2) := by
  refine h.turn_flushBegin (by rw [hpc]; rfl) hothers ?_
  obtain ⟨hdirty, hneed⟩ := h.reached t R (.begin toFlush) hpc
  intro R' pc hresume
  rw [hpc] at hresume
  have hmask : s.data.dirty &&& toFlush = toFlush := by
    rw [← hdirty, ← BitVec.and_assoc, BitVec.and_self]
  obtain ⟨fl, heq, hzero⟩ | ⟨fl, f, heq, _, hin, hstage⟩ := flushBegin_cases s.data toFlush true
  · rw [heq] at hresume ⊢
    cases hresume
    have hz : toFlush = 0 := hmask.symm.trans (hzero rfl)
    refine ⟨hdirty.trans hz, ?_⟩
    by_contra hne
    rw [Bool.not_eq_false] at hne
    have := hneed hne
    simp [needInlineFlush, hz, CapMask.has] at this
  · rw [heq] at hresume ⊢
    cases hresume
    refine ⟨?_, fun hdirty' => ?_⟩
    · rw [hmask, ← hdirty]
      exact andNot_and_self
    · rw [hin, hmask, hstage]
      exact ⟨hneed hdirty', by decide⟩

theorem RecallInv.turn_downgrade {R : CapMask} {left : Nat} (hpc : s.thread t = .revoke R .creates)
    (hleft : s.data.isDir = true → R.has capAuthExcl = true → left = 0) :
    Turn s t (s.data.downgrade R left) (.revoke R .ack) := by
  have hR : s.Revoking t R := by rw [Sys.Revoking, hpc]; rfl
  have hle : (s.data.downgrade R left).creates ≤ s.data.creates := by
    simp only [CapData.downgrade]
    split <;> omega
  obtain ⟨hclean, hinline⟩ := h.reached t R .creates hpc
  refine ⟨h.dirtyBits, fun b => ?_, fun hopen => ?_, rfl, fun f hf => ?_, fun u R' f _ _ hf => ?_,
    fun R' u f hR' => ?_, fun u R' _ _ => ?_, fun R' hR' => ?_, fun R' pc hack => ?_⟩
  · rw [hpc]
    exact keeps_of_eq rfl (Nat.le_refl _) fun hheld _ => held_none.mpr (held_none.mp hheld)
  · have hdirty := (h.inlineKept hopen).1
    rw [hinline] at hdirty
    cases hdirty
  · cases hf
  · cases hf
  · cases hR'
    exact h.apart t u R f hR
  · exact ⟨rfl, fun hin => ⟨hin, rfl⟩, id, rfl, fun _ hzero => by omega⟩
  · cases hR'
    exact h.free t R hR
  · cases hack
    refine ⟨hclean, hinline, fun hdir hauth => ?_⟩
    simp [CapData.downgrade, hauth, show s.data.isDir = true from hdir, hleft hdir hauth]

theorem RecallInv.turn_ack {R bits : CapMask} (hpc : s.thread t = .revoke R .ack)
    (hbits : ∀ u R, u ≠ t → s.Revoking u R → bits &&& R = 0) :
    Turn s t (s.data.issue bits) .idle := by
  refine ⟨h.dirtyBits, fun b => ?_, h.inlineKept, rfl, fun f hf => ?_, fun u R' f _ _ hf => ?_,
    fun R' u f hR' => ?_, fun u R' hne hR' => spares_issue (hbits u R' hne hR'), fun R' hR' => ?_,
    fun R' pc hidle => ?_⟩
  · rw [hpc]
    exact keeps_of_eq rfl (Nat.le_refl _) fun hheld _ => held_none.mpr (held_none.mp hheld)
  · cases hf
  · cases hf
  · cases hR'
  · cases hR'
  · cases hidle

end

end Turns

theorem keeps_same {d : CapData} {b : Nat} (hdirty : d'.dirty = d.dirty)
    (hwrote : d'.wrote = d.wrote) (hacked : d'.acked = d.acked) : Keeps d none d' none b := by
  refine keeps_of_eq (by rw [hwrote]) (by rw [hacked]) fun hheld _ => ?_
  rw [held_none] at hheld ⊢
  rw [hdirty]
  exact hheld

theorem RecallInv.step {e : RecallEvent} {s' : Sys} (h : RecallInv s) (hok : RecallOk s e)
    (hs : recallExec s e = some s') : RecallInv s' := by
  cases e with simp only [recallExec] at hs
  | markDirty caps =>
    split at hs <;> cases hs
    next hcaps =>
    exact h.change (change_dirtyBits hcaps h.dirtyBits) (fun b => keeps_change caps none)
      h.inlineKept h.snapshot fun t R hR => spares_change (hok t R hR)
  | writeInline =>
    split at hs <;> cases hs
    obtain ⟨hnone, hsend⟩ := hok
    exact h.change h.dirtyBits (fun b => keeps_same rfl rfl rfl) (fun _ => ⟨rfl, rfl⟩)
      (fun t f hf hin hstage => absurd hstage (hsend t f hf hin))
      (fun t R hR => absurd hR (hnone t R))
  | migrate =>
    split at hs <;> cases hs
    refine h.change (change_dirtyBits (by decide) h.dirtyBits)
      (fun b => @keeps_change s.data b capWrData none)
      (fun hopen => absurd hopen (Nat.lt_irrefl _)) h.snapshot fun t R hR => ?_
    have hspares : Spares s.data (s.data.change capWrData) R := spares_change (hok t R hR)
    exact ⟨hspares.dirty, fun hin => (by cases hin), hspares.free, rfl, fun _ => id⟩
  | getRefs valid need want =>
    cases hs
    exact h.change h.dirtyBits (fun b => keeps_same rfl rfl rfl) h.inlineKept h.snapshot
      fun t R _ => spares_getRefs valid need want
  | putRefs had =>
    cases hs
    exact h.change h.dirtyBits (fun b => keeps_same rfl rfl rfl) h.inlineKept h.snapshot
      fun t R _ => spares_putRefs had
  | issue bits token =>
    cases hs
    refine h.change h.dirtyBits (fun b => keeps_same rfl rfl rfl) h.inlineKept h.snapshot
      fun t R hR => ?_
    have hspares : Spares s.data (s.data.issue bits) R := spares_issue (hok t R hR)
    exact ⟨rfl, hspares.inline, hspares.free, rfl, fun _ => id⟩
  | localCreate =>
    split at hs <;> cases hs
    refine h.change h.dirtyBits (fun b => keeps_same rfl rfl rfl) h.inlineKept h.snapshot
      fun t R hR => ⟨rfl, fun hin => ⟨hin, rfl⟩, id, rfl, fun hauth => ?_⟩
    rw [hok t R hR] at hauth
    cases hauth
  | startFlush t mask alloc =>
    split at hs <;> cases hs
    next hidle =>
    rw [← hidle]
    apply h.turn
    refine h.turn_flushBegin (by rw [hidle]; rfl) (fun u R _ => hok u R) fun R pc hpc => ?_
    rw [hidle] at hpc
    cases hg : (flushBegin s.data mask alloc).2 <;> rw [hg] at hpc <;> cases hpc
  | startRecall t retain =>
    obtain ⟨hfree, halone, hinline⟩ := hok
    split at hs
    · next hidle =>
      split at hs <;> cases hs
      exact h.turn (h.turn_startRecall hidle hfree halone hinline)
    · cases hs
  | recallFlush t alloc =>
    obtain ⟨rfl, hothers⟩ := hok
    split at hs <;> cases hs
    next R toFlush hpc => exact h.turn (h.turn_recallFlush hpc (hothers R toFlush hpc))
  | step t o =>
    split at hs <;> cases hs
    next f hf => exact h.turn (h.turn_flushStep hf hok.1 hok.2)
  | creates t left =>
    split at hs <;> cases hs
    next R hpc =>
    exact h.turn (h.turn_downgrade hpc (hok R (by rw [Sys.Revoking, hpc]; rfl)))
  | ack t piggyback =>
    split at hs <;> cases hs
    next R hpc => exact h.turn (h.turn_ack hpc hok)

/-- In every run whose events meet the condition, every CapRecallAck is true. -/
theorem recallSafe_of_recallOk (s : Sys)
    (h : Runs.Reach (fun s e s' => recallExec s e = some s') RecallOk RecallInit s) :
    RecallSafe s :=
  (h.invariant (fun _ hinit => hinit.inv) fun _ _ _ hinv hok hs => hinv.step hok hs).safe

/-- A regular file with every capability and nothing to flush. -/
def grantedFile : Sys where
  data :=
    { issued := wireCapsetToKernelBits 7
      implemented := wireCapsetToKernelBits 7
      granted := true
      refs := ⟨0, 0, 0, 0, 0, 0⟩
      dirty := 0
      flushing := 0
      inline := false
      inlineData := false
      inlineDirty := false
      isDir := false
      creates := 0
      wrote := fun _ => 0
      acked := fun _ => 0
      inlineWrote := 0
      inlineAcked := 0 }
  thread := fun _ => .idle

theorem grantedFile_init : RecallInit grantedFile :=
  ⟨fun _ => rfl, rfl, rfl, rfl, rfl⟩

/-- A write, and a recall of all bits whose flush takes the steps `os`. -/
def writeThenRecall (os : List FlushOutcome) : List RecallEvent :=
  [RecallEvent.markDirty capWrData, .startRecall 0 0, .recallFlush 0 true] ++
    os.map (RecallEvent.step 0) ++ [RecallEvent.creates 0 0]

theorem recallOk_writeThenRecall : Runs.OkAlong recallExec RecallOk grantedFile
    (writeThenRecall [.ok, .ok, .ok, .ok, .ok, .ok]) := by
  have hstep : ∀ s : Sys, RecallOk s (.step 0 .ok) := fun s => ⟨by decide, fun _ _ => rfl⟩
  refine .cons (fun t R hR => (by cases hR)) rfl ?_
  refine ⟨⟨⟨fun _ => by decide, fun _ => by decide⟩, fun t f hf => (by cases hf),
    fun hin => (by cases hin)⟩, ?_⟩
  rintro _ ⟨⟩
  refine ⟨⟨rfl, fun R m _ u R' hne hR => ?_⟩, ?_⟩
  · rw [Sys.Revoking, Sys.thread_set_of_ne _ _ hne] at hR
    cases hR
  · intro s₀ _
    exact ⟨hstep s₀, fun s₁ _ => ⟨hstep s₁, fun s₂ _ => ⟨hstep s₂, fun s₃ _ => ⟨hstep s₃,
      fun s₄ _ => ⟨hstep s₄, fun s₅ _ => ⟨hstep s₅, fun s₆ _ => ⟨fun _ _ _ _ => rfl,
      fun _ _ => trivial⟩⟩⟩⟩⟩⟩⟩

/-- The condition is met by a write and a recall whose flush succeeds. -/
theorem recallSafe_of_recallOk_writeThenRecall : ∃ s,
    (writeThenRecall [.ok, .ok, .ok, .ok, .ok, .ok]).foldlM recallExec grantedFile = some s ∧
      s.thread 0 = .revoke (wireCapsetToKernelBits 7 &&& ~~~capPin) .ack ∧ RecallSafe s :=
  ⟨_, rfl, rfl, recallSafe_of_recallOk _
    (Runs.Reach.of_run (.start grantedFile_init) recallOk_writeThenRecall rfl)⟩

/-- The writeback of a recall fails, the bits stay dirty and the acknowledgement goes out. -/
theorem not_recallSafe_runs : ¬ ∀ s,
    Runs.Reach (fun s e s' => recallExec s e = some s') (fun _ _ => True) RecallInit s →
      RecallSafe s := by
  intro h
  obtain ⟨s, hrun, hpc, hgranted, hdirty⟩ : ∃ s,
      (writeThenRecall [.fail, .ok, .ok, .ok, .ok]).foldlM recallExec grantedFile = some s ∧
        s.thread 0 = .revoke (wireCapsetToKernelBits 7 &&& ~~~capPin) .ack ∧
        s.data.granted = true ∧
        s.data.dirty &&& (wireCapsetToKernelBits 7 &&& ~~~capPin) ≠ 0 :=
    ⟨_, rfl, rfl, rfl, by decide⟩
  have hreach := Runs.Reach.run grantedFile_init hrun
  exact hdirty (h s hreach 0 _ hpc hgranted).clean

end PowerFS.Caps
