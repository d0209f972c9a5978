import PowerFS.File.SizeChunks
import PowerFS.Layout.Apply
import PowerFS.Lib.Runs

namespace PowerFS.File

open Layout

/-! The `content_size` gate: all code that sets `content_size` or makes the Filer acknowledge a
size, cut where it drops the lock of the inode or waits for an RPC. -/

/-- Where a call that publishes size and chunks stands: flushing needles, at the gate, with `left`
attempts at the RPC to go, or acknowledged with `content_size` still to be set. -/
inductive SyncPc where
  | barrier
  | gate
  | update (left : Nat)
  | acked
  deriving DecidableEq

/-- The `content_size` test is still to come. -/
def SyncPc.preGate : SyncPc → Bool
  | .barrier | .gate => true
  | .update _ | .acked => false

inductive SizeThread where
  | idle
  | sync (size : Nat) (chunks : List ChunkMap) (attempts : Nat) (pc : SyncPc)
  /-- `powerfs_write_inode` or its worker, whose SETATTR carries the size only. -/
  | setattr (size : Nat) (worker acked : Bool)
  /-- `powerfs_setattr` between `truncate_setsize` and `content_size`. -/
  | truncate (size : Nat)
  /-- A SETATTR with the size whose result nobody looks at. -/
  | notify (size : Nat) (clear : Bool)
  /-- The UpdateInodeSizeChunks that empties the chunk list after a truncation to 0. -/
  | clear
  /-- A refresh or a lookup between `i_size` and `content_size`. -/
  | refresh (size : Nat) (vid fkey : UInt64) (accept : Bool)

def SizeThread.publishes : SizeThread → Bool
  | .sync _ _ _ _ => true
  | _ => false

/-- An inode, and the last size and the last chunk map the Filer acknowledged for it. -/
structure SizeState where
  layout : Inode
  iSize : Nat
  contentSize : Nat
  setattrPending : Bool
  filerSize : Option Nat
  filerMap : Option (List ChunkMap)
  thread : Nat → SizeThread

namespace SizeState

variable (s : SizeState)

def goto (t : Nat) (th : SizeThread) : SizeState :=
  { s with thread := Function.update s.thread t th }

def takeKeys (vid fkey : UInt64) : Inode :=
  { s.layout with
    volumeId := if vid ≠ 0 then vid else s.layout.volumeId
    fileKey := if fkey ≠ 0 then fkey else s.layout.fileKey }

end SizeState

/-- What can happen. The arguments are results of RPCs and allocations, sizes of writes and
truncations, and what the Filer replies. -/
inductive SizeEvent where
  | write (endPos : Nat)
  | syncStart (t : Nat) (attempts : Nat)
  | barrierDone (t : Nat) (ok : Bool)
  | gate (t : Nat)
  | update (t : Nat) (ok : Bool)
  | closeFlush (t : Nat)
  | writeInode (t : Nat)
  | queueWork
  | workStart (t : Nat)
  | setattrDone (t : Nat) (ok : Bool)
  | assign (t : Nat)
  | truncate (t : Nat) (size : Nat)
  | truncateAssign (t : Nat) (connected : Bool)
  | sendSize (t : Nat)
  | notifyDone (t : Nat) (ok : Bool)
  | clearDone (t : Nat) (ok : Bool)
  | applyLayout (alloc : Bool) (l : FileLayout)
  | refreshStart (t : Nat) (size : Nat) (vid fkey : UInt64) (localPending : Bool)
  | lookupStart (t : Nat) (size : Nat) (vid fkey : UInt64)
  | refreshAssign (t : Nat)

/-- `powerfs_sync_inode_size_chunks` has something to publish. -/
def syncWanted (s : SizeState) : Bool :=
  s.layout.placement ≠ .inline && s.iSize ≠ 0 && syncReady s.layout

/-- `powerfs_flush` has something to publish. It does not look at the volumes of a Stripe file. -/
def closeWanted (s : SizeState) : Bool :=
  (s.layout.placement.isStripe || (s.layout.placement = .flat && s.layout.isMapped)) &&
    s.iSize ≠ s.contentSize && s.iSize ≠ 0

/-- `powerfs_write_inode` has a new size to send. -/
def writeWanted (s : SizeState) : Bool := s.iSize ≠ 0 && s.iSize ≠ s.contentSize

/-- One event; `none` if it cannot happen. -/
def sizeExec (s : SizeState) : SizeEvent → Option SizeState
  | .write endPos => some { s with iSize := max s.iSize endPos }
  | .syncStart t attempts =>
    match s.thread t with
    | .idle =>
      if syncWanted s then
        some (s.goto t (.sync s.iSize (syncChunks s.layout s.iSize) attempts .barrier))
      else none
    | _ => none
  | .barrierDone t ok =>
    match s.thread t with
    | .sync size chunks attempts .barrier =>
      some (s.goto t (if ok then .sync size chunks attempts .gate else .idle))
    | _ => none
  | .gate t =>
    match s.thread t with
    | .sync size chunks attempts .gate =>
      some (s.goto t (if s.contentSize = size then .idle
        else .sync size chunks attempts (.update attempts)))
    | _ => none
  | .update t ok =>
    match s.thread t with
    | .sync size chunks attempts (.update (left + 1)) =>
      if ok then
        some ({ s with filerSize := some size, filerMap := some chunks }.goto t
          (.sync size chunks attempts .acked))
      else some (s.goto t (if left = 0 then .idle else .sync size chunks attempts (.update left)))
    | _ => none
  | .closeFlush t =>
    match s.thread t with
    | .idle =>
      if closeWanted s then
        some (s.goto t (.sync s.iSize (syncChunks s.layout s.iSize) 1 (.update 1)))
      else none
    | _ => none
  | .writeInode t =>
    match s.thread t with
    | .idle => if writeWanted s then some (s.goto t (.setattr s.iSize false false)) else none
    | _ => none
  | .queueWork => if writeWanted s then some { s with setattrPending := true } else none
  | .workStart t =>
    match s.thread t with
    | .idle =>
      if !s.setattrPending then none
      else if s.iSize = 0 then some { s with setattrPending := false }
      else some (s.goto t (.setattr s.iSize true false))
    | _ => none
  | .setattrDone t ok =>
    match s.thread t with
    | .setattr size worker false =>
      if ok then some ({ s with filerSize := some size }.goto t (.setattr size worker true))
      else some ({ s with setattrPending := s.setattrPending && !worker }.goto t .idle)
    | _ => none
  | .assign t =>
    match s.thread t with
    | .sync size _ _ .acked => some ({ s with contentSize := size }.goto t .idle)
    | .setattr size worker true =>
      some ({ s with
        contentSize := size
        setattrPending := s.setattrPending && !worker }.goto t .idle)
    | _ => none
  | .truncate t size =>
    match s.thread t with
    | .idle => some ({ s with iSize := size }.goto t (.truncate size))
    | _ => none
  | .truncateAssign t connected =>
    match s.thread t with
    | .truncate size => some ({ s with contentSize := size }.goto t
      (if connected then .notify size (size = 0) else .idle))
    | _ => none
  | .sendSize t =>
    match s.thread t with
    | .idle => some (s.goto t (.notify s.iSize false))
    | _ => none
  | .notifyDone t ok =>
    match s.thread t with
    | .notify size clear => some ({ s with
        filerSize := if ok then some size else s.filerSize }.goto t
          (if clear then .clear else .idle))
    | _ => none
  | .clearDone t ok =>
    match s.thread t with
    | .clear => some ({ s with
        filerSize := if ok then some 0 else s.filerSize
        filerMap := if ok then some [] else s.filerMap }.goto t .idle)
    | _ => none
  | .applyLayout alloc l => some { s with layout := applyLayoutToInode alloc s.layout l }
  | .refreshStart t size vid fkey localPending =>
    match s.thread t with
    | .idle => some ({ s with iSize := if localPending then s.iSize else size }.goto t
      (.refresh size vid fkey (!localPending)))
    | _ => none
  | .lookupStart t size vid fkey =>
    match s.thread t with
    | .idle => some ({ s with iSize := if s.contentSize = size then size else s.iSize }.goto t
      (.refresh size vid fkey (s.contentSize = size)))
    | _ => none
  | .refreshAssign t =>
    match s.thread t with
    | .refresh size vid fkey accept => some ({ s with
        contentSize := if accept then size else s.contentSize
        layout := s.takeKeys vid fkey }.goto t .idle)
    | _ => none

/-- The last size and chunk map the Filer acknowledged are those of the size `n`. -/
def Recorded (s : SizeState) (n : Nat) : Prop :=
  s.filerSize = some n ∧ s.filerMap = some (syncChunks s.layout n)

/-- A call that skips the RPC at the gate has nothing to publish. -/
def GateSound (s : SizeState) : Prop :=
  ∀ t size chunks attempts, s.thread t = .sync size chunks attempts .gate →
    s.contentSize = size → s.filerSize = some size ∧ s.filerMap = some chunks

/-- Nothing works on the inode, which is new or was looked up with the size of its record. -/
structure GateInit (s : SizeState) : Prop where
  idle : ∀ t, s.thread t = .idle
  settled : s.contentSize = 0 ∨ Recorded s s.contentSize

namespace SizeState

variable (s : SizeState)

/-- Thread `t` publishes the size `n` and has come to `pc`. -/
def At (t n : Nat) (pc : SyncPc) : Prop :=
  ∃ chunks attempts, s.thread t = .sync n chunks attempts pc

/-- No size is acknowledged whose `content_size` is still to be set. -/
def NoneAcked : Prop := ∀ t n, ¬ s.At t n .acked

/-- Setting `content_size` to `n` is right. -/
def Settled (n : Nat) : Prop := n = 0 ∨ Recorded s n

/-- The inode goes over to the layout `pi`. -/
def Relayout (pi : Inode) (content : Nat) : Prop :=
  (∀ n, syncChunks pi n = syncChunks s.layout n) ∨
    (∀ t n pc, ¬ s.At t n pc) ∧ { s with layout := pi }.Settled content

end SizeState

/-- Only calls that publish size and chunks together change the record of a committed size, one at a
time, while no other is before its gate with the committed size, and with a fixed layout; everything
else sets `content_size` to 0 or to a size whose record the Filer has. -/
def GateOk (s : SizeState) : SizeEvent → Prop
  | .syncStart _ _ => s.iSize = s.contentSize → ∀ u n, s.At u n .acked → n = s.iSize
  | .update t ok => ok = true → ∀ n pc, s.At t n pc → s.NoneAcked ∧
    ∀ u m pc', s.At u m pc' → pc'.preGate = true → m = s.contentSize → m = n
  | .setattrDone t ok => ok = true → ∀ n worker, s.thread t = .setattr n worker false →
    s.filerSize = some n ∨ s.contentSize = 0 ∧ s.NoneAcked
  | .assign t => ∀ n worker, s.thread t = .setattr n worker true → s.Settled n
  | .truncateAssign t _ => ∀ n, s.thread t = .truncate n → s.Settled n
  | .notifyDone t ok => ok = true → ∀ n clear, s.thread t = .notify n clear →
    s.filerSize = some n ∨ s.contentSize = 0 ∧ s.NoneAcked
  | .clearDone _ ok => ok = true → s.contentSize = 0 ∧ s.NoneAcked
  | .applyLayout alloc l => s.Relayout (applyLayoutToInode alloc s.layout l) s.contentSize
  | .refreshAssign t => ∀ n vid fkey accept, s.thread t = .refresh n vid fkey accept →
    s.Relayout (s.takeKeys vid fkey) (if accept then n else s.contentSize) ∧
      (accept = true → { s with layout := s.takeKeys vid fkey }.Settled n)
  | _ => True

structure GateInv (s : SizeState) : Prop where
  chunks : ∀ t n chunks attempts pc, s.thread t = .sync n chunks attempts pc →
    n ≠ 0 ∧ chunks = syncChunks s.layout n
  preGate : ∀ t n pc, s.At t n pc → pc.preGate = true → n = s.contentSize → Recorded s n
  acked : ∀ t n, s.At t n .acked → Recorded s n
  settled : s.Settled s.contentSize ∨ ∃ t n, s.At t n .acked

variable {s s' : SizeState} {t : Nat} {th : SizeThread}

theorem GateInv.sound (h : GateInv s) : GateSound s := by
  intro t size chunks attempts hgate hcontent
  obtain ⟨_, hchunks⟩ := h.chunks t size chunks attempts .gate hgate
  subst hchunks
  exact h.preGate t size .gate ⟨_, _, hgate⟩ rfl hcontent.symm

theorem gateInv_of_none (hnone : ∀ t n pc, ¬ s.At t n pc) (hsettled : s.Settled s.contentSize) :
    GateInv s :=
  ⟨fun t n _ _ pc hsync => absurd ⟨_, _, hsync⟩ (hnone t n pc),
    fun t n pc hat => absurd hat (hnone t n pc), fun t n hat => absurd hat (hnone t n .acked),
    .inl hsettled⟩

theorem GateInit.inv (h : GateInit s) : GateInv s := by
  refine gateInv_of_none ?_ h.settled
  rintro t n pc ⟨chunks, attempts, hsync⟩
  rw [h.idle t] at hsync
  cases hsync

variable {n : Nat} {pc : SyncPc}

theorem at_goto_of_ne {u : Nat}
    (hthread : s'.thread = Function.update s.thread t th) (hne : u ≠ t) :
    s'.At u n pc ↔ s.At u n pc := by
  simp only [SizeState.At, hthread, Function.update_of_ne hne]

theorem at_goto_self (hthread : s'.thread = Function.update s.thread t th) :
    s'.At t n pc ↔ ∃ chunks attempts, th = .sync n chunks attempts pc := by
  simp only [SizeState.At, hthread, Function.update_self]

/-- What thread `t` has to guarantee when it leaves the inode as `s'` and goes on as `th`. -/
structure GateTurn (s s' : SizeState) (t : Nat) (th : SizeThread) : Prop where
  thread : s'.thread = Function.update s.thread t th
  chunks : (∀ n, syncChunks s'.layout n = syncChunks s.layout n) ∨ ∀ u n pc, u ≠ t → ¬ s.At u n pc
  ownChunks : ∀ n chunks attempts pc, th = .sync n chunks attempts pc →
    n ≠ 0 ∧ chunks = syncChunks s'.layout n
  ownPreGate : ∀ n chunks attempts pc, th = .sync n chunks attempts pc → pc.preGate = true →
    n = s'.contentSize → Recorded s' n
  ownAcked : ∀ n chunks attempts, th = .sync n chunks attempts .acked → Recorded s' n
  preGate : ∀ u n pc, u ≠ t → s.At u n pc → pc.preGate = true → n = s'.contentSize → Recorded s' n
  acked : ∀ u n, u ≠ t → s.At u n .acked → Recorded s' n
  settled : s'.Settled s'.contentSize ∨ (∃ n chunks attempts, th = .sync n chunks attempts .acked) ∨
    ∃ u n, u ≠ t ∧ s.At u n .acked

theorem GateInv.turn (h : GateInv s) (ht : GateTurn s s' t th) : GateInv s' := by
  refine ⟨fun u n chunks attempts pc hsync => ?_, fun u n pc hat => ?_, fun u n hat => ?_, ?_⟩
  · by_cases hu : u = t
    · subst hu
      rw [ht.thread, Function.update_self] at hsync
      exact ht.ownChunks n chunks attempts pc hsync
    · rw [ht.thread, Function.update_of_ne hu] at hsync
      obtain ⟨hne, hchunks⟩ := h.chunks u n chunks attempts pc hsync
      rcases ht.chunks with hsame | hnone
      · exact ⟨hne, by rw [hsame]; exact hchunks⟩
      · exact absurd ⟨_, _, hsync⟩ (hnone u n pc hu)
  · by_cases hu : u = t
    · subst hu
      obtain ⟨chunks, attempts, hth⟩ := (at_goto_self ht.thread).mp hat
      exact ht.ownPreGate n chunks attempts pc hth
    · exact ht.preGate u n pc hu ((at_goto_of_ne ht.thread hu).mp hat)
  · by_cases hu : u = t
    · subst hu
      obtain ⟨chunks, attempts, hth⟩ := (at_goto_self ht.thread).mp hat
      exact ht.ownAcked n chunks attempts hth
    · exact ht.acked u n hu ((at_goto_of_ne ht.thread hu).mp hat)
  · rcases ht.settled with hsettled | ⟨n, chunks, attempts, hth⟩ | ⟨u, n, hu, hat⟩
    · exact .inl hsettled
    · exact .inr ⟨t, n, (at_goto_self ht.thread).mpr ⟨chunks, attempts, hth⟩⟩
    · exact .inr ⟨u, n, (at_goto_of_ne ht.thread hu).mpr hat⟩

variable {attempts : Nat} {chunks : List ChunkMap}

theorem ne_sync (h : th.publishes = false) :
    th ≠ .sync n chunks attempts pc := by
  rintro rfl
  cases h

/-- A thread that does not publish owes only what it may do to the others. -/
theorem GateInv.outsideTurn (h : GateInv s) (hth : th.publishes = false)
    (hthread : s'.thread = Function.update s.thread t th)
    (hchunks : ∀ n, syncChunks s'.layout n = syncChunks s.layout n)
    (hpre : ∀ n, n ≠ 0 → n = s'.contentSize → Recorded s' n)
    (hacked : ∀ u n, s.At u n .acked → Recorded s' n) (hsettled : s'.Settled s'.contentSize) :
    GateInv s' := by
  apply h.turn
  refine ⟨hthread, .inl hchunks, fun _ _ _ _ heq => absurd heq (ne_sync hth),
    fun _ _ _ _ heq => absurd heq (ne_sync hth), fun _ _ _ heq => absurd heq (ne_sync hth),
    fun u n pc _ hat _ heq => ?_, fun u n _ hat => hacked u n hat, .inl hsettled⟩
  obtain ⟨chunks, attempts, hsync⟩ := hat
  exact hpre n (h.chunks u n chunks attempts pc hsync).1 heq

/-- The Filer's record, and the chunks it is compared with, are as before. -/
structure SameRecord (s s' : SizeState) : Prop where
  filerSize : s'.filerSize = s.filerSize
  filerMap : s'.filerMap = s.filerMap
  chunks : ∀ n, syncChunks s'.layout n = syncChunks s.layout n

theorem SameRecord.recorded (h : SameRecord s s') (n : Nat) : Recorded s' n ↔ Recorded s n := by
  simp only [Recorded, h.filerSize, h.filerMap, h.chunks]

theorem SameRecord.settled (h : SameRecord s s') (n : Nat) : s'.Settled n ↔ s.Settled n := by
  simp only [SizeState.Settled, h.recorded]

theorem GateInv.same (h : GateInv s) (hthread : s'.thread = s.thread) (hsame : SameRecord s s')
    (hcontent : s'.contentSize = s.contentSize) : GateInv s' := by
  have hat : ∀ t n pc, s'.At t n pc ↔ s.At t n pc := by
    intro t n pc
    simp only [SizeState.At, hthread]
  refine ⟨fun t n chunks attempts pc hsync => ?_, fun t n pc hat' => ?_, fun t n hat' => ?_, ?_⟩
  · rw [hthread] at hsync
    rw [hsame.chunks]
    exact h.chunks t n chunks attempts pc hsync
  · rw [hcontent, hsame.recorded]
    exact h.preGate t n pc ((hat t n pc).mp hat')
  · rw [hsame.recorded]
    exact h.acked t n ((hat t n .acked).mp hat')
  · rw [hcontent, hsame.settled]
    simp only [hat]
    exact h.settled

section

variable (h : GateInv s) (hthread : s'.thread = Function.update s.thread t th)
include h hthread

theorem GateInv.move (hsame : SameRecord s s') (hcontent : s'.contentSize = s.contentSize)
    (hleave : ∀ n, ¬ s.At t n .acked)
    (hown : ∀ n chunks attempts pc, th = .sync n chunks attempts pc →
      n ≠ 0 ∧ chunks = syncChunks s.layout n ∧ pc ≠ .acked ∧
        (pc.preGate = true → n = s.contentSize → Recorded s n)) : GateInv s' := by
  apply h.turn
  refine ⟨hthread, .inl hsame.chunks, fun n chunks attempts pc hth => ?_,
    fun n chunks attempts pc hth hpre heq => ?_, fun n chunks attempts hth => ?_,
    fun u n pc _ hat hpre heq => ?_, fun u n _ hat => (hsame.recorded n).mpr (h.acked u n hat), ?_⟩
  · obtain ⟨hne, hchunks, _⟩ := hown n chunks attempts pc hth
    exact ⟨hne, by rw [hsame.chunks]; exact hchunks⟩
  · rw [hcontent] at heq
    exact (hsame.recorded n).mpr ((hown n chunks attempts pc hth).2.2.2 hpre heq)
  · exact absurd rfl (hown n chunks attempts .acked hth).2.2.1
  · rw [hcontent] at heq
    exact (hsame.recorded n).mpr (h.preGate u n pc hat hpre heq)
  · rcases h.settled with hsettled | ⟨u, n, hat⟩
    · left
      rw [hcontent, hsame.settled]
      exact hsettled
    · have hne : u ≠ t := by
        rintro rfl
        exact hleave n hat
      exact .inr (.inr ⟨u, n, hne, hat⟩)

/-- `content_size` is set to a size whose record the Filer has. -/
theorem GateInv.assign
    (hth : th.publishes = false) (hsame : SameRecord s s') (hsettled : s.Settled s'.contentSize) :
    GateInv s' := by
  refine h.outsideTurn hth hthread hsame.chunks (fun n hne heq => ?_)
    (fun u n hat => (hsame.recorded n).mpr (h.acked u n hat)) ((hsame.settled _).mpr hsettled)
  rw [← heq] at hsettled
  exact (hsame.recorded n).mpr (hsettled.resolve_left hne)

theorem GateInv.record
    (hth : th.publishes = false) (hlayout : s'.layout = s.layout) (hcontent : s'.contentSize = 0)
    (hnone : s.NoneAcked) : GateInv s' :=
  h.outsideTurn hth hthread (fun n => by rw [hlayout])
    (fun n hne heq => absurd (heq.trans hcontent) hne) (fun u n hat => absurd hat (hnone u n))
    (.inl hcontent)

end

theorem GateInv.update {left : Nat} (h : GateInv s)
    (hsync : s.thread t = .sync n chunks attempts (.update left)) (hnone : s.NoneAcked)
    (hother : ∀ u m pc, s.At u m pc → pc.preGate = true → m = s.contentSize → m = n) :
    GateInv ({ s with filerSize := some n, filerMap := some chunks }.goto t
      (.sync n chunks attempts .acked)) := by
  obtain ⟨hne, hchunks⟩ := h.chunks t n chunks attempts _ hsync
  have hrecorded : Recorded ({ s with filerSize := some n, filerMap := some chunks }.goto t
      (.sync n chunks attempts .acked)) n := ⟨rfl, congrArg some hchunks⟩
  apply h.turn
  refine ⟨rfl, .inl fun _ => rfl, ?_, ?_, ?_, fun u m pc _ hat hpre heq => ?_,
    fun u m _ hat => absurd hat (hnone u m), .inr (.inl ⟨_, _, _, rfl⟩)⟩
  · rintro _ _ _ _ ⟨⟩
    exact ⟨hne, hchunks⟩
  · rintro _ _ _ _ ⟨⟩ hpre
    cases hpre
  · rintro _ _ _ ⟨⟩
    exact hrecorded
  · rw [hother u m pc hat hpre heq]
    exact hrecorded

variable {th₀ : SizeThread}

theorem GateInv.outside (h : GateInv s) (hpc : s.thread t = th₀)
    (hthread : s'.thread = Function.update s.thread t th) (hsame : SameRecord s s')
    (hcontent : s'.contentSize = s.contentSize)
    (hth₀ : th₀.publishes = false) (hth : th.publishes = false) : GateInv s' := by
  refine h.move hthread hsame hcontent ?_ fun _ _ _ _ heq => absurd heq (ne_sync hth)
  rintro n ⟨chunks, attempts, hsync⟩
  rw [hpc] at hsync
  exact ne_sync hth₀ hsync

/-- A call goes from `pc` to `pc'`, both before its acknowledgement, or gives up. -/
theorem GateInv.advance (h : GateInv s)
    (hsync : s.thread t = .sync n chunks attempts pc) (hpc : pc ≠ .acked)
    (hth : th = .idle ∨ ∃ pc', th = .sync n chunks attempts pc' ∧ pc' ≠ .acked ∧
      (pc'.preGate = true → pc.preGate = true)) : GateInv (s.goto t th) := by
  refine h.move rfl ⟨rfl, rfl, fun _ => rfl⟩ rfl ?_ ?_
  · rintro m ⟨chunks', attempts', hsync'⟩
    rw [hsync] at hsync'
    cases hsync'
    exact hpc rfl
  · rintro m chunks' attempts' pc' rfl
    obtain ⟨hne, hchunks⟩ := h.chunks t n chunks attempts pc hsync
    rcases hth with hidle | ⟨pc'', heq, hacked, hpre⟩
    · cases hidle
    · cases heq
      exact ⟨hne, hchunks, hacked, fun hp => h.preGate t n pc ⟨_, _, hsync⟩ (hpre hp)⟩

theorem GateInv.ackSize (h : GateInv s) (hpc : s.thread t = th₀)
    (hthread : s'.thread = Function.update s.thread t th)
    (hth₀ : th₀.publishes = false) (hth : th.publishes = false) (hlayout : s'.layout = s.layout)
    (hcontent : s'.contentSize = s.contentSize) (hmap : s'.filerMap = s.filerMap)
    (hsize : s'.filerSize = some n)
    (hok : s.filerSize = some n ∨ s.contentSize = 0 ∧ s.NoneAcked) : GateInv s' := by
  rcases hok with heq | ⟨hzero, hnone⟩
  · exact h.outside hpc hthread ⟨hsize.trans heq.symm, hmap, fun _ => by rw [hlayout]⟩ hcontent
      hth₀ hth
  · exact h.record hthread hth hlayout (hcontent.trans hzero) hnone

/-- The inode goes over to another layout, and `content_size` to `content`. -/
theorem GateInv.relayout {pi : Inode} {content : Nat} (h : GateInv s)
    (hpc : s.thread t = th₀) (hth₀ : th₀.publishes = false) (hth : th.publishes = false)
    (hok : s.Relayout pi content)
    (hcontent : content = s.contentSize ∨ { s with layout := pi }.Settled content) :
    GateInv ({ s with contentSize := content, layout := pi }.goto t th) := by
  rcases hok with hsame | ⟨hnone, hsettled⟩
  · rcases hcontent with rfl | hsettled
    · exact h.outside hpc rfl ⟨rfl, rfl, hsame⟩ rfl hth₀ hth
    · refine h.assign rfl hth ⟨rfl, rfl, hsame⟩ ?_
      have hiff : ({ s with layout := pi }).Settled content ↔ s.Settled content :=
        @SameRecord.settled s { s with layout := pi } ⟨rfl, rfl, hsame⟩ content
      exact hiff.mp hsettled
  · refine gateInv_of_none ?_ hsettled
    intro u n pc hat
    by_cases hu : u = t
    · subst hu
      obtain ⟨chunks, attempts, heq⟩ := (at_goto_self rfl).mp hat
      exact ne_sync hth heq
    · exact hnone u n pc ((at_goto_of_ne (s := s) rfl hu).mp hat)

theorem GateInv.step {e : SizeEvent} (h : GateInv s) (hok : GateOk s e)
    (hs : sizeExec s e = some s') : GateInv s' := by
  cases e with simp only [sizeExec] at hs
  | write endPos =>
    cases hs
    exact h.same rfl ⟨rfl, rfl, fun _ => rfl⟩ rfl
  | syncStart t attempts =>
    split at hs <;> try cases hs
    next hidle =>
    split at hs <;> cases hs
    next hwanted =>
    simp only [syncWanted, Bool.and_eq_true] at hwanted
    refine h.move rfl ⟨rfl, rfl, fun _ => rfl⟩ rfl ?_ ?_
    · rintro n ⟨chunks, attempts', hsync⟩
      rw [hidle] at hsync
      cases hsync
    · rintro n chunks attempts' pc ⟨⟩
      refine ⟨of_decide_eq_true hwanted.1.2, rfl, by decide, fun _ heq => ?_⟩
      rcases h.settled with hsettled | ⟨u, m, hat⟩
      · rw [← heq] at hsettled
        exact hsettled.resolve_left (of_decide_eq_true hwanted.1.2)
      · have hm := hok heq u m hat
        rw [← hm]
        exact h.acked u m hat
  | barrierDone t ok =>
    split at hs <;> cases hs
    next size chunks attempts hsync =>
    refine h.advance hsync (by decide) ?_
    cases ok with
    | true => exact .inr ⟨.gate, rfl, by decide, fun _ => rfl⟩
    | false => exact .inl rfl
  | gate t =>
    split at hs <;> cases hs
    next size chunks attempts hsync =>
    refine h.advance hsync (by decide) ?_
    split
    · exact .inl rfl
    · exact .inr ⟨.update attempts, rfl, by simp, fun _ => rfl⟩
  | update t ok =>
    split at hs <;> try cases hs
    next size chunks attempts left hsync =>
    cases ok with
    | true =>
      cases hs
      obtain ⟨hnone, hother⟩ := hok rfl size _ ⟨_, _, hsync⟩
      exact h.update hsync hnone hother
    | false =>
      cases hs
      refine h.advance hsync (by simp) ?_
      split
      · exact .inl rfl
      · exact .inr ⟨.update left, rfl, by simp, fun hpre => by cases hpre⟩
  | closeFlush t =>
    split at hs <;> try cases hs
    next hidle =>
    split at hs <;> cases hs
    next hwanted =>
    simp only [closeWanted, Bool.and_eq_true] at hwanted
    refine h.move rfl ⟨rfl, rfl, fun _ => rfl⟩ rfl ?_ ?_
    · rintro n ⟨chunks, attempts, hsync⟩
      rw [hidle] at hsync
      cases hsync
    · rintro n chunks attempts pc ⟨⟩
      exact ⟨of_decide_eq_true hwanted.2, rfl, by simp, fun hpre => by cases hpre⟩
  | writeInode t =>
    split at hs
    · next hidle =>
      split at hs <;> cases hs
      exact h.outside hidle rfl ⟨rfl, rfl, fun _ => rfl⟩ rfl rfl rfl
    · cases hs
  | queueWork =>
    split at hs <;> cases hs
    exact h.same rfl ⟨rfl, rfl, fun _ => rfl⟩ rfl
  | workStart t =>
    split at hs
    · next hidle =>
      split at hs
      · cases hs
      · split at hs <;> cases hs
        · exact h.same rfl ⟨rfl, rfl, fun _ => rfl⟩ rfl
        · exact h.outside hidle rfl ⟨rfl, rfl, fun _ => rfl⟩ rfl rfl rfl
    · cases hs
  | setattrDone t ok =>
    split at hs <;> try cases hs
    next size worker hpc =>
    cases ok with
    | true =>
      cases hs
      exact h.ackSize hpc rfl rfl rfl rfl rfl rfl rfl (hok rfl size worker hpc)
    | false =>
      cases hs
      exact h.outside hpc rfl ⟨rfl, rfl, fun _ => rfl⟩ rfl rfl rfl
  | assign t =>
    split at hs <;> cases hs
    · next size chunks attempts hsync =>
      exact h.assign rfl rfl ⟨rfl, rfl, fun _ => rfl⟩
        (.inr (h.acked t size ⟨_, _, hsync⟩))
    · next size worker hpc =>
      exact h.assign rfl rfl ⟨rfl, rfl, fun _ => rfl⟩ (hok size worker hpc)
  | truncate | sendSize | refreshStart | lookupStart =>
    split at hs <;> cases hs
    next hidle => exact h.outside hidle rfl ⟨rfl, rfl, fun _ => rfl⟩ rfl rfl rfl
  | truncateAssign t connected =>
    split at hs <;> cases hs
    next size hpc =>
    refine h.assign rfl ?_ ⟨rfl, rfl, fun _ => rfl⟩ (hok size hpc)
    cases connected <;> rfl
  | notifyDone t ok =>
    split at hs <;> cases hs
    next size clear hpc =>
    have hth : (if clear then SizeThread.clear else .idle).publishes = false := by
      cases clear <;> rfl
    cases ok with
    | true => exact h.ackSize hpc rfl rfl hth rfl rfl rfl rfl (hok rfl size clear hpc)
    | false => exact h.outside hpc rfl ⟨rfl, rfl, fun _ => rfl⟩ rfl rfl hth
  | clearDone t ok =>
    split at hs <;> cases hs
    next hpc =>
    cases ok with
    | true =>
      obtain ⟨hzero, hnone⟩ := hok rfl
      exact h.record rfl rfl rfl hzero hnone
    | false => exact h.outside hpc rfl ⟨rfl, rfl, fun _ => rfl⟩ rfl rfl rfl
  | applyLayout alloc l =>
    cases hs
    rcases hok with hsame | ⟨hnone, hsettled⟩
    · exact h.same rfl ⟨rfl, rfl, hsame⟩ rfl
    · exact gateInv_of_none hnone hsettled
  | refreshAssign t =>
    split at hs <;> cases hs
    next size vid fkey accept hpc =>
    obtain ⟨hrelayout, hsettled⟩ := hok size vid fkey accept hpc
    refine h.relayout hpc rfl rfl hrelayout ?_
    cases accept with
    | true => exact .inr (hsettled rfl)
    | false => exact .inl rfl

/-- In every run whose events meet the condition, the gate only skips what the Filer has. -/
theorem gateSound_of_gateOk (s : SizeState)
    (h : Runs.Reach (fun s e s' => sizeExec s e = some s') GateOk GateInit s) : GateSound s :=
  (h.invariant (fun _ hinit => hinit.inv) fun _ _ _ hinv hok hs => hinv.step hok hs).sound

def newFile : SizeState where
  layout := { Inode.fresh with volumeId := 1, fileKey := 1 }
  iSize := 0
  contentSize := 0
  setattrPending := false
  filerSize := none
  filerMap := none
  thread := fun _ => .idle

theorem newFile_init : GateInit newFile := ⟨fun _ => rfl, .inl rfl⟩

def writeFsyncTwice : List SizeEvent :=
  [.write 10, .syncStart 0 1, .barrierDone 0 true, .gate 0, .update 0 true, .assign 0,
    .syncStart 0 1, .barrierDone 0 true]

theorem gateOk_writeFsyncTwice : Runs.OkAlong sizeExec GateOk newFile writeFsyncTwice := by
  refine .cons trivial rfl ?_
  refine .cons (fun hzero => (by cases hzero)) rfl ?_
  refine .cons trivial rfl ?_
  refine .cons trivial rfl ?_
  refine ⟨fun _ n pc _ => ⟨?_, ?_⟩, ?_⟩
  · rintro u n ⟨chunks, attempts, hsync⟩
    by_cases hu : u = 0
    · subst hu
      cases hsync
    · simp [SizeState.goto, Function.update_of_ne hu, newFile] at hsync
  · rintro u m pc' ⟨chunks, attempts, hsync⟩ hpre
    by_cases hu : u = 0
    · subst hu
      cases hsync
      cases hpre
    · simp [SizeState.goto, Function.update_of_ne hu, newFile] at hsync
  · rintro _ ⟨⟩
    refine .cons (fun n worker hpc => (by cases hpc)) rfl ?_
    refine ⟨fun _ u n => ?_, fun _ _ => ⟨trivial, fun _ _ => trivial⟩⟩
    rintro ⟨chunks, attempts, hsync⟩
    by_cases hu : u = 0
    · subst hu
      cases hsync
    · simp [SizeState.goto, newFile] at hsync

/-- The condition is met by a write and two calls of fsync, the second of which skips the RPC. -/
theorem gateSound_of_gateOk_writeFsyncTwice : ∃ s chunks,
    writeFsyncTwice.foldlM sizeExec newFile = some s ∧ s.thread 0 = .sync 10 chunks 1 .gate ∧
      s.contentSize = 10 ∧ GateSound s :=
  ⟨_, _, rfl, rfl, rfl, gateSound_of_gateOk _
    (Runs.Reach.of_run (.start newFile_init) gateOk_writeFsyncTwice rfl)⟩

/-- Background writeback sends the size alone; the fsync that follows skips the RPC although the
Filer never got a chunk map. -/
theorem not_gateSound_runs : ¬ ∀ s,
    Runs.Reach (fun s e s' => sizeExec s e = some s') (fun _ _ => True) GateInit s →
      GateSound s := by
  intro h
  obtain ⟨s, chunks, hrun, hpc, hcontent, hmap⟩ : ∃ s chunks,
      [SizeEvent.write 10, .writeInode 0, .setattrDone 0 true, .assign 0, .syncStart 0 1,
        .barrierDone 0 true].foldlM sizeExec newFile = some s ∧
        s.thread 0 = .sync 10 chunks 1 .gate ∧ s.contentSize = 10 ∧ s.filerMap = none :=
    ⟨_, _, rfl, rfl, rfl, rfl⟩
  have hreach := Runs.Reach.run newFile_init hrun
  have hsound := (h s hreach 0 10 chunks 1 hpc hcontent).2
  rw [hmap] at hsound
  cases hsound

end PowerFS.File
