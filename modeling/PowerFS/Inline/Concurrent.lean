import PowerFS.Inline.Staging

namespace PowerFS.Inline

open Layout Overlay

/-! The staging buffer of an Inline file, shared by one write and any number of commits, at the
granularity of the sections under `i_lock`. -/

inductive Committer where
  | fsync | close | capFlush
  deriving DecidableEq

def Committer.attempts : Committer → Nat
  | .fsync => 1
  | .close | .capFlush => 5

/-- Where a commit stands: it has seen the flag; knows the length; has memory for the snapshot;
has sent it and may send it `left` more times; has the acknowledgement; will set the flag again. -/
inductive CommitPhase where
  | idle
  | entered (k : Committer)
  | sized (k : Committer) (len : Nat)
  | allocated (k : Committer) (len : Nat)
  | sent (k : Committer) (snap : List UInt8) (left : Nat)
  | acknowledged (snap : List UInt8)
  | failed
  deriving DecidableEq

/-- Only `powerfs_cap_flush` sets the flag again when it gives up. -/
def Committer.giveUp : Committer → CommitPhase
  | .fsync | .close => .idle
  | .capFlush => .failed

/-- Where `powerfs_write_end` stands; while it builds a larger buffer the old one is detached. -/
inductive WritePhase where
  | idle
  | rebuilding (pos : Nat) (bytes : List UInt8) (old : Option (List UInt8))
  deriving DecidableEq

/-- The buffer and its flag, the last payload the Filer acknowledged, and who is at work. -/
structure SharedBuffer where
  data : Option (List UInt8)
  dirty : Bool
  acked : Option (List UInt8)
  writer : WritePhase
  commit : Nat → CommitPhase

/-- The copy of `powerfs_write_end`, and whether it fits. -/
def copyTo (buf : List UInt8) (pos : Nat) (bytes : List UInt8) : List UInt8 × Bool :=
  if pos + bytes.length ≤ buf.length then (overlay buf pos bytes, true) else (buf, false)

def needLen (pos : Nat) (bytes : List UInt8) : Nat := min (pos + bytes.length) inlineMaxSize

/-- The buffer that `powerfs_write_end` installs, with the bytes in it if they fit. -/
def rebuilt (pos : Nat) (bytes : List UInt8) (old : Option (List UInt8)) : List UInt8 × Bool :=
  copyTo (padTo (max (needLen pos bytes) (old.getD []).length) (old.getD [])) pos
    (stagedBytes pos bytes)

inductive SharedEvent where
  | write (pos : Nat) (bytes : List UInt8)
  | fetch
  | outOfMemory
  | install
  | enter (i : Nat) (k : Committer)
  | size (i : Nat)
  | alloc (i : Nat) (ok : Bool)
  | snapshot (i : Nat)
  | reply (i : Nat) (ok : Bool)
  | clear (i : Nat)
  | redirty (i : Nat)

def SharedBuffer.setPhase (s : SharedBuffer) (i : Nat) (phase : CommitPhase) : SharedBuffer :=
  { s with commit := Function.update s.commit i phase }

/-- The first section of `powerfs_write_end`. -/
def writeSection (s : SharedBuffer) (pos : Nat) (bytes : List UInt8) : SharedBuffer :=
  match s.data with
  | some buf =>
    if needLen pos bytes ≤ buf.length then
      let new := copyTo buf pos (stagedBytes pos bytes)
      { s with data := some new.1, dirty := s.dirty || new.2 }
    else { s with data := none, writer := .rebuilding pos bytes (some buf) }
  | none => { s with writer := .rebuilding pos bytes none }

/-- One event; `none` if it cannot happen. -/
def sharedExec (s : SharedBuffer) : SharedEvent → Option SharedBuffer
  | .write pos bytes =>
    if s.writer = .idle ∧ stagedBytes pos bytes ≠ [] then some (writeSection s pos bytes) else none
  | .fetch =>
    -- A getattr answer without payload changes nothing.
    match s.writer, s.acked with
    | .rebuilding pos bytes none, some (b :: rest) =>
      some { s with writer := .rebuilding pos bytes (some (b :: rest)) }
    | _, _ => none
  | .outOfMemory =>
    match s.writer with
    | .rebuilding _ _ old => some { s with data := s.data.or old, writer := .idle }
    | .idle => none
  | .install =>
    match s.writer with
    | .rebuilding pos bytes old =>
      let new :=
        match s.data with
        | none => rebuilt pos bytes old
        | some buf => copyTo buf pos (stagedBytes pos bytes)
      some { s with data := some new.1, dirty := s.dirty || new.2, writer := .idle }
    | .idle => none
  | .enter i k =>
    if s.commit i = .idle ∧ s.dirty = true then some (s.setPhase i (.entered k)) else none
  | .size i =>
    match s.commit i, s.data with
    | .entered k, some (b :: rest) => some (s.setPhase i (.sized k (b :: rest).length))
    | .entered _, _ => some { s.setPhase i .idle with dirty := false }
    | _, _ => none
  | .alloc i ok =>
    match s.commit i with
    | .sized k len => some (s.setPhase i (if ok then .allocated k len else k.giveUp))
    | _ => none
  | .snapshot i =>
    match s.commit i with
    | .allocated k len =>
      match s.data with
      | some buf =>
        if buf.length = len then some (s.setPhase i (.sent k buf (k.attempts - 1)))
        else some (s.setPhase i k.giveUp)
      | none => some (s.setPhase i k.giveUp)
    | _ => none
  | .reply i ok =>
    match s.commit i with
    | .sent k snap left =>
      if ok then some { s.setPhase i (.acknowledged snap) with acked := some snap }
      else if 0 < left then some (s.setPhase i (.sent k snap (left - 1)))
      else some (s.setPhase i k.giveUp)
    | _ => none
  | .clear i =>
    match s.commit i with
    | .acknowledged _ => some { s.setPhase i .idle with dirty := false }
    | _ => none
  | .redirty i =>
    match s.commit i with
    | .failed => some { s.setPhase i .idle with dirty := true }
    | _ => none

/-- A clean buffer is what the Filer last acknowledged. -/
def FlagSound (s : SharedBuffer) : Prop :=
  ∀ buf, s.data = some buf → s.dirty = false → s.acked = some buf

/-- Nobody is at work, and a buffer that is there came from the Filer. -/
def SharedInit (s : SharedBuffer) : Prop :=
  s.writer = .idle ∧ (∀ i, s.commit i = .idle) ∧ s.dirty = false ∧
    ∀ buf, s.data = some buf → buf ≠ [] ∧ s.acked = some buf

/-- The buffer, also while a write has it detached. -/
def content (s : SharedBuffer) : Option (List UInt8) :=
  match s.data, s.writer with
  | some buf, _ => some buf
  | none, .rebuilding _ _ old => old
  | none, .idle => none

/-- What a commit has sent and not yet cleared the flag for. -/
def CommitPhase.snap : CommitPhase → Option (List UInt8)
  | .sent _ snap _ | .acknowledged snap => some snap
  | .idle | .entered _ | .sized _ _ | .allocated _ _ | .failed => none

/-- No commit is in flight with anything but `buf`. -/
def InFlightIs (s : SharedBuffer) (buf : List UInt8) : Prop :=
  ∀ i snap, (s.commit i).snap = some snap → snap = buf

/-- A write does not change the buffer while a commit is in flight with it, and always copies its
bytes if the buffer is clean; no commit begins while a write has unsent data detached. -/
def SharedOk (s : SharedBuffer) : SharedEvent → Prop
  | .write pos bytes => ∀ buf, s.data = some buf → needLen pos bytes ≤ buf.length →
      InFlightIs s (copyTo buf pos (stagedBytes pos bytes)).1
  | .install => ∀ pos bytes old, s.writer = .rebuilding pos bytes old →
      InFlightIs s (rebuilt pos bytes old).1 ∧
        ((rebuilt pos bytes old).2 = false → s.dirty = false →
          s.acked = some (rebuilt pos bytes old).1)
  | .size i => s.data = none → ∀ k, s.commit i = .entered k → ∀ buf, content s = some buf →
      s.acked = some buf
  | .fetch | .outOfMemory | .enter _ _ | .alloc _ _ | .snapshot _ | .reply _ _ | .clear _
  | .redirty _ => True

/-! ### The invariant -/

/-- Nothing is unsent without the flag, also in a detached buffer; every commit in flight has sent
the buffer as it is. -/
structure SharedInv (s : SharedBuffer) : Prop where
  sent : ∀ buf, content s = some buf → s.dirty = false → s.acked = some buf
  inFlight : ∀ i snap, (s.commit i).snap = some snap → content s = some snap
  acked : ∀ i snap, s.commit i = .acknowledged snap → s.acked = some snap
  detached : ∀ pos bytes old, s.writer = .rebuilding pos bytes old → s.data = none ∧ bytes ≠ []
  nonempty : ∀ buf, content s = some buf → buf ≠ []

variable {s : SharedBuffer}

variable {buf : List UInt8}

theorem content_of_data (h : s.data = some buf) : content s = some buf := by
  rw [content, h]

theorem SharedInv.flagSound (h : SharedInv s) : FlagSound s :=
  fun buf hdata => h.sent buf (content_of_data hdata)

theorem SharedInit.inv (h : SharedInit s) : SharedInv s := by
  obtain ⟨hwriter, hidle, hdirty, hdata⟩ := h
  have hcontent : content s = s.data := by
    rw [content, hwriter]
    cases s.data <;> rfl
  refine ⟨?_, ?_, ?_, by simp [hwriter], ?_⟩
  · intro buf hbuf _
    exact (hdata buf (hcontent ▸ hbuf)).2
  · intro i snap hsnap
    rw [hidle i] at hsnap
    cases hsnap
  · intro i snap hack
    rw [hidle i] at hack
    cases hack
  · intro buf hbuf
    exact (hdata buf (hcontent ▸ hbuf)).1

theorem SharedInv.setPhase (h : SharedInv s) (i : Nat) {phase : CommitPhase}
    (hsnap : ∀ snap, phase.snap = some snap → content s = some snap)
    (hack : ∀ snap, phase = .acknowledged snap → s.acked = some snap) :
    SharedInv (s.setPhase i phase) := by
  refine ⟨h.sent, ?_, ?_, h.detached, h.nonempty⟩
  · intro j snap hj
    by_cases hij : j = i
    · subst hij
      exact hsnap snap (by simpa [SharedBuffer.setPhase] using hj)
    · exact h.inFlight j snap (by simpa [SharedBuffer.setPhase, hij] using hj)
  · intro j snap hj
    by_cases hij : j = i
    · subst hij
      exact hack snap (by simpa [SharedBuffer.setPhase] using hj)
    · exact h.acked j snap (by simpa [SharedBuffer.setPhase, hij] using hj)

theorem SharedInv.setPhase_none (h : SharedInv s) (i : Nat) {phase : CommitPhase}
    (hsnap : phase.snap = none) : SharedInv (s.setPhase i phase) := by
  apply h.setPhase i
  · intro snap hsome
    rw [hsnap] at hsome
    cases hsome
  · rintro snap rfl
    cases hsnap

variable {snap : List UInt8}

theorem SharedInv.setPhase_sent (h : SharedInv s) (i : Nat) (k : Committer)
    (hsnap : content s = some snap) (left : Nat) :
    SharedInv (s.setPhase i (.sent k snap left)) := by
  apply h.setPhase i
  · rintro snap' ⟨rfl⟩
    exact hsnap
  · intro snap' hack
    cases hack

theorem SharedInv.setDirty (h : SharedInv s) {dirty : Bool}
    (hsent : dirty = false → ∀ buf, content s = some buf → s.acked = some buf) :
    SharedInv { s with dirty } :=
  ⟨fun buf hbuf hclean => hsent hclean buf hbuf, h.inFlight, h.acked, h.detached, h.nonempty⟩

theorem giveUp_snap (k : Committer) : k.giveUp.snap = none := by
  cases k <;> rfl

theorem copyTo_ne_nil (h : buf ≠ []) (pos : Nat) (bytes : List UInt8) :
    (copyTo buf pos bytes).1 ≠ [] := by
  rw [copyTo]
  split
  case isTrue hfits =>
    rw [← List.length_pos_iff, length_overlay hfits]
    exact List.length_pos_iff.mpr h
  case isFalse => exact h

theorem SharedInv.setData (h : SharedInv s) (dirty : Bool) (hne : buf ≠ [])
    (hflight : InFlightIs s buf) (hclean : dirty = false → s.acked = some buf) :
    SharedInv { s with data := some buf, dirty, writer := .idle } := by
  have hcontent : content { s with data := some buf, dirty, writer := .idle } = some buf := rfl
  refine ⟨?_, ?_, h.acked, by simp, ?_⟩
  · intro buf' hbuf' hd
    cases hbuf'
    exact hclean hd
  · intro i snap hsnap
    rw [hcontent, hflight i snap hsnap]
  · intro buf' hbuf'
    cases hbuf'
    exact hne

theorem SharedInv.handOver (h : SharedInv s) (data : Option (List UInt8)) (writer : WritePhase)
    (hcontent : content { s with data, writer } = content s)
    (hdet : ∀ pos bytes old, writer = .rebuilding pos bytes old → data = none ∧ bytes ≠ []) :
    SharedInv { s with data, writer } := by
  refine ⟨?_, ?_, h.acked, hdet, ?_⟩
  · rw [hcontent]
    exact h.sent
  · rw [hcontent]
    exact h.inFlight
  · rw [hcontent]
    exact h.nonempty

theorem SharedInv.write (h : SharedInv s) (hidle : s.writer = .idle) {pos : Nat}
    {bytes : List UInt8} (hne : bytes ≠ []) (hok : SharedOk s (.write pos bytes)) :
    SharedInv (writeSection s pos bytes) := by
  rw [writeSection]
  split
  case h_1 buf hdata =>
    have hcontent : content s = some buf := content_of_data hdata
    split
    case isTrue hfits =>
      have hnew := h.setData (s.dirty || (copyTo buf pos (stagedBytes pos bytes)).2)
        (copyTo_ne_nil (h.nonempty buf hcontent) pos (stagedBytes pos bytes))
        (hok buf hdata hfits) ?_
      · rwa [← hidle] at hnew
      · intro hclean
        obtain ⟨hd, hcopied⟩ := Bool.or_eq_false_iff.mp hclean
        rw [h.sent buf hcontent hd]
        rw [copyTo] at hcopied ⊢
        split at hcopied
        · cases hcopied
        · rename_i hno
          rw [if_neg hno]
    case isFalse =>
      apply h.handOver
      · rw [hcontent, content]
      · rintro _ _ _ ⟨rfl, rfl, rfl⟩
        exact ⟨rfl, hne⟩
  case h_2 hdata =>
    apply h.handOver s.data
    · rw [content, content, hdata, hidle]
    · rintro _ _ _ ⟨rfl, rfl, rfl⟩
      exact ⟨hdata, hne⟩

theorem rebuilt_ne_nil {bytes : List UInt8} (hne : bytes ≠ []) (pos : Nat)
    (old : Option (List UInt8)) : (rebuilt pos bytes old).1 ≠ [] := by
  apply copyTo_ne_nil
  have hpos := List.length_pos_iff.mpr hne
  have hneed : 0 < needLen pos bytes := Nat.lt_min.mpr ⟨by omega, by decide⟩
  rw [← List.length_pos_iff, padTo, List.length_append, List.length_replicate]
  omega

variable {s' : SharedBuffer}

section

variable (h : SharedInv s)
include h

theorem SharedInv.fetch (hs : sharedExec s .fetch = some s') :
    SharedInv s' := by
  simp only [sharedExec] at hs
  split at hs <;> cases hs
  rename_i pos bytes b rest hwriter hacked
  obtain ⟨hdata, hne⟩ := h.detached _ _ _ hwriter
  have hnone : content s = none := by rw [content, hdata, hwriter]
  refine ⟨?_, ?_, h.acked, ?_, ?_⟩
  · intro buf hbuf _
    rw [hdata] at hbuf
    cases hbuf
    exact hacked
  · intro i snap hsnap
    have hsome := h.inFlight i snap hsnap
    rw [hnone] at hsome
    cases hsome
  · rintro _ _ _ ⟨rfl, rfl, rfl⟩
    exact ⟨hdata, hne⟩
  · intro buf hbuf
    rw [hdata] at hbuf
    cases hbuf
    exact List.cons_ne_nil b rest

theorem SharedInv.outOfMemory (hs : sharedExec s .outOfMemory = some s') : SharedInv s' := by
  simp only [sharedExec] at hs
  split at hs <;> cases hs
  rename_i pos bytes old hwriter
  obtain ⟨hdata, -⟩ := h.detached _ _ _ hwriter
  apply h.handOver
  · simp only [content, hdata, hwriter]
    cases old <;> rfl
  · simp

theorem SharedInv.exec_install (hs : sharedExec s .install = some s') :
    ∃ pos bytes old, s.writer = .rebuilding pos bytes old ∧ bytes ≠ [] ∧
      s' = { s with data := some (rebuilt pos bytes old).1,
                    dirty := s.dirty || (rebuilt pos bytes old).2, writer := .idle } := by
  simp only [sharedExec] at hs
  split at hs <;> cases hs
  rename_i pos bytes old hwriter
  obtain ⟨hdata, hne⟩ := h.detached _ _ _ hwriter
  refine ⟨pos, bytes, old, hwriter, hne, ?_⟩
  simp only [hdata]

theorem SharedInv.install (hok : SharedOk s .install)
    (hs : sharedExec s .install = some s') : SharedInv s' := by
  obtain ⟨pos, bytes, old, hwriter, hne, rfl⟩ := h.exec_install hs
  obtain ⟨hflight, hcopied⟩ := hok pos bytes old hwriter
  apply h.setData _ (rebuilt_ne_nil hne pos old) hflight
  intro hclean
  obtain ⟨hdirty, hno⟩ := Bool.or_eq_false_iff.mp hclean
  exact hcopied hno hdirty

theorem SharedInv.size {i : Nat} (hok : SharedOk s (.size i))
    (hs : sharedExec s (.size i) = some s') : SharedInv s' := by
  simp only [sharedExec] at hs
  split at hs
  case h_1 k b rest hphase hdata =>
    cases hs
    exact h.setPhase_none i rfl
  case h_2 k hphase hnone =>
    cases hs
    apply (h.setPhase_none i (show CommitPhase.idle.snap = none from rfl)).setDirty
    intro _ buf hbuf
    have hbuf' : content s = some buf := hbuf
    cases hdata : s.data with
    | none => exact hok hdata k hphase buf hbuf'
    | some buf' =>
      obtain rfl : buf' = buf := by
        rw [content_of_data hdata] at hbuf'
        exact Option.some.inj hbuf'
      obtain ⟨b, rest, rfl⟩ := List.exists_cons_of_ne_nil (h.nonempty buf' hbuf')
      exact absurd hdata (hnone b rest)
  case h_3 => cases hs

theorem SharedInv.acknowledge (hsnap : content s = some snap)
    (i : Nat) : SharedInv { s.setPhase i (.acknowledged snap) with acked := some snap } := by
  have hacked : SharedInv { s with acked := some snap } := by
    refine ⟨?_, h.inFlight, ?_, h.detached, h.nonempty⟩
    · intro buf hbuf _
      exact hsnap.symm.trans hbuf
    · intro j snap' hj
      exact hsnap.symm.trans (h.inFlight j snap' (by rw [hj, CommitPhase.snap]))
  apply hacked.setPhase i
  · rintro _ ⟨rfl⟩
    exact hsnap
  · rintro _ ⟨rfl⟩
    rfl

theorem SharedInv.step {e : SharedEvent}
    (hok : SharedOk s e) (hs : sharedExec s e = some s') : SharedInv s' := by
  cases e with simp only [sharedExec] at hs
  | write pos bytes =>
    split at hs <;> cases hs
    rename_i hguard
    apply h.write hguard.1 _ hok
    rintro rfl
    exact hguard.2 (by simp [stagedBytes])
  | fetch => exact h.fetch hs
  | outOfMemory => exact h.outOfMemory hs
  | install => exact h.install hok hs
  | enter i k =>
    split at hs <;> cases hs
    exact h.setPhase_none i rfl
  | size i => exact h.size hok hs
  | alloc i ok =>
    split at hs <;> cases hs
    rename_i k len hphase
    apply h.setPhase_none i
    cases ok
    · exact giveUp_snap k
    · rfl
  | snapshot i =>
    split at hs
    case h_2 => cases hs
    case h_1 k len hphase =>
      split at hs
      case h_2 =>
        cases hs
        exact h.setPhase_none i (giveUp_snap k)
      case h_1 buf hdata =>
        split at hs <;> cases hs
        · exact h.setPhase_sent i k (content_of_data hdata) _
        · exact h.setPhase_none i (giveUp_snap k)
  | reply i ok =>
    split at hs
    case h_2 => cases hs
    case h_1 k snap left hphase =>
      have hcontent : content s = some snap := h.inFlight i snap (by rw [hphase]; rfl)
      split at hs
      · cases hs
        exact h.acknowledge hcontent i
      · split at hs <;> cases hs
        · exact h.setPhase_sent i k hcontent _
        · exact h.setPhase_none i (giveUp_snap k)
  | clear i =>
    split at hs <;> cases hs
    rename_i snap hphase
    have hcontent : content s = some snap := h.inFlight i snap (by rw [hphase]; rfl)
    apply (h.setPhase_none i (show CommitPhase.idle.snap = none from rfl)).setDirty
    intro _ buf hbuf
    have hbuf' : content s = some buf := hbuf
    rw [hcontent] at hbuf'
    cases hbuf'
    exact h.acked i snap hphase
  | redirty i =>
    split at hs <;> cases hs
    apply (h.setPhase_none i (show CommitPhase.idle.snap = none from rfl)).setDirty
    exact Bool.noConfusion

end

theorem sharedInv_of_reach
    (h : Runs.Reach (fun s e s' => sharedExec s e = some s') SharedOk SharedInit s) :
    SharedInv s :=
  h.invariant (fun _ hinit => hinit.inv) fun _ _ _ hinv hok hs => hinv.step hok hs

/-! ### What an event outside the condition leads to -/

/-- Some continuation ends with a clean flag over a buffer the Filer does not have. -/
def LosesData (s : SharedBuffer) : Prop :=
  ∃ (es : List SharedEvent) (s' : SharedBuffer), es.foldlM sharedExec s = some s' ∧ ¬ FlagSound s'

theorem losesData_of_stale {i : Nat} (hdata : s.data = some buf)
    (hsnap : (s.commit i).snap = some snap) (hne : snap ≠ buf)
    (hack : ∀ snap, s.commit i = .acknowledged snap → s.acked = some snap) : LosesData s := by
  cases hphase : s.commit i with rw [hphase] at hsnap
  | idle | entered | sized | allocated | failed =>
    cases hsnap
  | sent k snap' left =>
    cases hsnap
    refine ⟨[.reply i true, .clear i],
      { (s.setPhase i (.acknowledged snap)).setPhase i .idle with
        acked := some snap, dirty := false }, ?_, ?_⟩
    · simp [sharedExec, hphase, SharedBuffer.setPhase]
    · intro hsound
      exact hne (Option.some.inj (hsound buf hdata rfl))
  | acknowledged snap' =>
    cases hsnap
    refine ⟨[.clear i], { s.setPhase i .idle with dirty := false }, ?_, ?_⟩
    · simp [sharedExec, hphase]
    · intro hsound
      have hacked : s.acked = some buf := hsound buf hdata rfl
      rw [hack snap hphase] at hacked
      exact hne (Option.some.inj hacked)

/-- A commit that finds no buffer clears the flag over the one a write has detached; the write
only has to fail to bring it back. -/
theorem losesData_of_detached (hdata : s.data = none) (hdirty : s.dirty = false)
    (hcontent : content s = some buf) (hne : s.acked ≠ some buf) : LosesData s := by
  rw [content, hdata] at hcontent
  cases hwriter : s.writer with rw [hwriter] at hcontent
  | idle =>
    cases hcontent
  | rebuilding pos bytes old =>
    refine ⟨[.outOfMemory], { s with data := s.data.or old, writer := .idle }, ?_, ?_⟩
    · simp [sharedExec, hwriter]
    · intro hsound
      refine hne (hsound buf ?_ hdirty)
      rw [hdata]
      exact hcontent

theorem SharedInv.losesData {e : SharedEvent} (h : SharedInv s)
    (hs : sharedExec s e = some s') (hok : ¬ SharedOk s e) : LosesData s' := by
  cases e with
  | fetch | outOfMemory | enter | alloc | snapshot | reply | clear | redirty =>
    exact absurd trivial hok
  | write pos bytes =>
    simp only [SharedOk, InFlightIs, not_forall] at hok
    obtain ⟨buf, hdata, hfits, i, snap, hsnap, hne⟩ := hok
    simp only [sharedExec] at hs
    split at hs <;> cases hs
    rw [writeSection, hdata]
    simp only [if_pos hfits]
    exact losesData_of_stale rfl hsnap hne (h.acked i)
  | install =>
    obtain ⟨pos, bytes, old, hwriter, -, rfl⟩ := h.exec_install hs
    by_cases hflight : InFlightIs s (rebuilt pos bytes old).1
    · have hunsent : (rebuilt pos bytes old).2 = false ∧ s.dirty = false ∧
          s.acked ≠ some (rebuilt pos bytes old).1 := by
        by_contra hno
        apply hok
        intro pos' bytes' old' hwriter'
        cases hwriter.symm.trans hwriter'
        refine ⟨hflight, fun hcopied hdirty => ?_⟩
        by_contra hacked
        exact hno ⟨hcopied, hdirty, hacked⟩
      obtain ⟨hcopied, hdirty, hacked⟩ := hunsent
      refine ⟨[], _, rfl, fun hsound => hacked (hsound _ rfl ?_)⟩
      exact Bool.or_eq_false_iff.mpr ⟨hdirty, hcopied⟩
    · simp only [InFlightIs, not_forall] at hflight
      obtain ⟨i, snap, hsnap, hne⟩ := hflight
      exact losesData_of_stale rfl hsnap hne (h.acked i)
  | size i =>
    simp only [SharedOk, not_forall] at hok
    obtain ⟨hdata, k, hphase, buf, hcontent, hne⟩ := hok
    simp only [sharedExec, hdata, hphase] at hs
    cases hs
    exact losesData_of_detached hdata rfl hcontent hne

/-! ### Flag soundness -/

/-- In a run that keeps the condition a clean buffer is always what the Filer last acknowledged;
one event against it and the write can be lost. -/
theorem flagSound_of_sharedOk (s : SharedBuffer)
    (h : Runs.Reach (fun s e s' => sharedExec s e = some s') SharedOk SharedInit s) :
    FlagSound s ∧ ∀ e s', sharedExec s e = some s' → ¬ SharedOk s e → LosesData s' :=
  ⟨(sharedInv_of_reach h).flagSound, fun _ _ hs hok => (sharedInv_of_reach h).losesData hs hok⟩

/-- A new file. -/
def SharedBuffer.created : SharedBuffer where
  data := none
  dirty := false
  acked := none
  writer := .idle
  commit := fun _ => .idle

theorem sharedInit_created : SharedInit .created :=
  ⟨rfl, fun _ => rfl, rfl, fun _ h => nomatch h⟩

/-- One byte is written, and an fsync sends it. -/
def sendRun : List SharedEvent :=
  [.write 0 [1], .install, .enter 0 .fsync, .size 0, .alloc 0 true, .snapshot 0]

theorem okAlong_sendRun (es : List SharedEvent)
    (hes : ∀ s, sendRun.foldlM sharedExec .created = some s →
      Runs.OkAlong sharedExec SharedOk s es) :
    Runs.OkAlong sharedExec SharedOk .created (sendRun ++ es) := by
  refine .cons ?_ rfl (.cons ?_ rfl ?_)
  · intro buf hbuf
    cases hbuf
  · rintro _ _ _ ⟨rfl, rfl, rfl⟩
    refine ⟨?_, fun hcopied => ?_⟩
    · intro i snap hsnap
      cases hsnap
    · exact absurd hcopied (by decide)
  · refine .cons trivial rfl (.cons ?_ rfl ?_)
    · intro hnone
      cases hnone
    · exact .cons trivial rfl (.cons trivial rfl (hes _ rfl))

/-- The fsync ends undisturbed. -/
def orderlyRun : List SharedEvent := sendRun ++ [SharedEvent.reply 0 true, .clear 0]

theorem flagSound_of_sharedOk_orderly :
    (∃ s, orderlyRun.foldlM sharedExec .created = some s ∧ s.dirty = false ∧
      s.data = some [1] ∧ s.acked = some [1]) ∧
    ∃ s s', sendRun.foldlM sharedExec .created = some s ∧
      sharedExec s (.write 0 [2]) = some s' ∧ LosesData s' := by
  constructor
  · have hok : Runs.OkAlong sharedExec SharedOk .created orderlyRun :=
      okAlong_sendRun _ fun _ _ => ⟨trivial, fun _ _ => ⟨trivial, fun _ _ => trivial⟩⟩
    refine ⟨_, rfl, rfl, rfl, ?_⟩
    exact (flagSound_of_sharedOk _ (.of_run (.start sharedInit_created) hok rfl)).1 [1] rfl rfl
  · have hok : Runs.OkAlong sharedExec SharedOk .created sendRun := by
      simpa using okAlong_sendRun [] fun _ _ => trivial
    refine ⟨_, _, rfl, rfl, ?_⟩
    refine (flagSound_of_sharedOk _ (.of_run (.start sharedInit_created) hok rfl)).2
      (.write 0 [2]) _ rfl fun hwrite => ?_
    have hsame : [(1 : UInt8)] = [2] := hwrite [1] rfl (by decide) 0 [1] rfl
    cases hsame

/-- A second byte is written over the first while the RPC of the fsync is under way. -/
def overtakenRun : List SharedEvent :=
  sendRun ++ [SharedEvent.write 0 [2], .reply 0 true, .clear 0]

theorem not_flagSound_overtaken :
    ∃ s, Runs.Reach (fun s e s' => sharedExec s e = some s') (fun _ _ => True) SharedInit s ∧
      ¬ FlagSound s ∧ s.dirty = false ∧ s.data = some [2] ∧ s.acked = some [1] := by
  refine ⟨_, .of_run (.start sharedInit_created) (Runs.okAlong_true _ overtakenRun) rfl, ?_,
    rfl, rfl, rfl⟩
  intro hsound
  have hacked : some [(1 : UInt8)] = some [2] := hsound [2] rfl rfl
  cases hacked

end PowerFS.Inline
