import PowerFS.Caps.Flush

namespace PowerFS.Caps

/-! `powerfs_cap_flush` from its start to its return, with nothing else running on the inode. -/

/-- How `powerfs_align_inline_before_commit` ends. -/
inductive AlignResult where
  | failed | inline | migrated
  deriving DecidableEq

/-- How the calls of one flush end: the writeback of the pages, the commit of size and chunks,
SETATTR, the xattrs, and alignment and commit of the inline payload. -/
structure FlushResults where
  writeback : Bool
  chunks : Bool
  attr : Bool
  xattr : Bool
  align : AlignResult
  send : Bool
  deriving DecidableEq

namespace FlushResults

variable (r : FlushResults)

def outcome : FlushStage → FlushOutcome
  | .writeback => if r.writeback then .ok else .fail
  | .chunks => if r.chunks then .ok else .fail
  | .attr => if r.attr then .ok else .fail
  | .xattr => if r.xattr then .ok else .fail
  | .align =>
    match r.align with
    | .failed => .fail
    | .inline => .ok
    | .migrated => .migrated
  | .send => if r.send then .ok else .fail
  | .finish => .ok

end FlushResults

/-- A flush that was begun, for at most the given number of steps. -/
def flushRun (r : FlushResults) : Nat → CapData → Option Flush → CapData × Option Flush
  | 0, d, f => (d, f)
  | _ + 1, d, none => (d, none)
  | n + 1, d, some f =>
    let next := flushStep d f (r.outcome f.stage)
    flushRun r n next.1 next.2

/-- `powerfs_cap_flush`: its start and at most seven steps. -/
def capFlush (r : FlushResults) (alloc : Bool) (d : CapData) (mask : CapMask) :
    CapData × Option Flush :=
  let start := flushBegin d mask alloc
  flushRun r 7 start.1 start.2

/-- What a flush pushes, in four steps. -/
inductive DirtyClass where
  | data | attrs | xattrs | inlinePayload
  deriving DecidableEq

/-- The bits by which a class is marked in `i_dirty_caps`, among those that a flush of `mask`
takes up. The inline payload goes with the bits of the data. -/
def classBits (d : CapData) (mask : CapMask) : DirtyClass → CapMask
  | .data => d.dirty &&& mask &&& capWrData
  | .attrs => d.dirty &&& mask &&& capAuthExcl
  | .xattrs => d.dirty &&& mask &&& capXattrExcl
  | .inlinePayload =>
    if needInlineFlush d (d.dirty &&& mask) then d.dirty &&& mask &&& capWrData else 0

/-- The step of a class succeeds. Data of an Inline file needs no chunk map; an Inline file
without a payload has nothing to send. -/
def stepSucceeds (r : FlushResults) (d : CapData) : DirtyClass → Bool
  | .data => r.writeback && (d.inline || r.chunks)
  | .attrs => r.attr
  | .xattrs => r.xattr
  | .inlinePayload =>
    match r.align with
    | .failed => false
    | .migrated => true
    | .inline => !d.inlineData || r.send

/-- When a flush returns, the classes of which a step did not succeed are marked again, and the
next flush of the same bits takes them up. -/
def Conserves (r : FlushResults) (alloc : Bool) (d : CapData) (mask : CapMask) : Prop :=
  (capFlush r alloc d mask).2 = none ∧
  ∀ c, classBits d mask c ≠ 0 → (alloc = false ∨ stepSucceeds r d c = false) →
    (∀ b, (classBits d mask c).getLsbD b = true →
      (capFlush r alloc d mask).1.dirty.getLsbD b = true) ∧
    ∃ f, (flushBegin (capFlush r alloc d mask).1 mask true).2 = some f ∧
      (∀ b, (classBits d mask c).getLsbD b = true → f.caps.getLsbD b = true) ∧
      (c = .inlinePayload → f.inline = true)

/-- The condition: the commit of the inline payload does not fail after the step of the data
succeeded. -/
def PayloadKept (r : FlushResults) (alloc : Bool) (d : CapData) (mask : CapMask) : Prop :=
  alloc = true → needInlineFlush d (d.dirty &&& mask) = true →
    stepSucceeds r d .data = true → stepSucceeds r d .inlinePayload = true

section Run

variable {r : FlushResults} {d : CapData} {f : Flush} {mask : CapMask}

/-- A step that pushes a group of bits and succeeds or fails. -/
def pushed (d : CapData) (f : Flush) (mask : CapMask) (ok : Bool) : CapData :=
  pushGroup d f mask (if ok then .ok else .fail)

theorem pushed_dirty (ok : Bool) :
    (pushed d f mask ok).dirty = if ok then d.dirty else d.dirty ||| mask := by
  simp only [pushed, pushGroup]
  split
  · next hzero => simp [hzero]
  · cases ok <;> rfl

theorem pushed_inline (ok : Bool) :
    (pushed d f mask ok).inline = d.inline ∧ (pushed d f mask ok).inlineData = d.inlineData ∧
      (pushed d f mask ok).inlineDirty = d.inlineDirty := by
  obtain ⟨dirty, flushing, acked, heq⟩ := pushGroup_frame
    (d := d) (f := f) (o := if ok then .ok else .fail) mask
  rw [pushed, heq]
  exact ⟨rfl, rfl, rfl⟩

def payloadStep (r : FlushResults) (d : CapData) (f : Flush) : CapData :=
  if !f.inline then d
  else match r.align with
    | .failed => { d with inlineDirty := true }
    | .migrated => d.migrate
    | .inline =>
      if !d.inlineData then { d with inlineDirty := false }
      else if r.send then
        { d with inlineDirty := false, inlineAcked := max d.inlineAcked d.inlineWrote }
      else { d with inlineDirty := true }

theorem flushRun_none (n : Nat) : flushRun r n d none = (d, none) := by
  cases n <;> rfl

theorem flushRun_some (n : Nat) : flushRun r (n + 1) d (some f) =
    flushRun r n (flushStep d f (r.outcome f.stage)).1 (flushStep d f (r.outcome f.stage)).2 := rfl

theorem flushRun_align (n : Nat) :
    flushRun r (n + 3) d (some { f with stage := .align }) =
      ({ payloadStep r d f with flushing := 0 }, none) := by
  rcases f with ⟨caps, inline, stage, wroteAt, inlineAt⟩
  rcases r with ⟨writeback, chunks, attr, xattr, align, send⟩
  cases inline with
  | false => simp [flushRun_some, flushStep, flushRun_none, payloadStep]
  | true =>
    cases align with
    | failed | migrated =>
      simp [flushRun_some, flushStep, flushRun_none, payloadStep, FlushResults.outcome]
    | inline =>
      cases hdata : d.inlineData with
      | false =>
        simp [flushRun_some, flushStep, flushRun_none, payloadStep, FlushResults.outcome, hdata]
      | true =>
        cases send <;>
          simp [flushRun_some, flushStep, flushRun_none, payloadStep, FlushResults.outcome, hdata]

theorem flushRun_attr (n : Nat) :
    flushRun r (n + 5) d (some { f with stage := .attr }) =
      ({ payloadStep r (pushed (pushed d f f.attr r.attr) f f.xattr r.xattr) f with
        flushing := 0 }, none) := by
  calc flushRun r (n + 5) d (some { f with stage := .attr })
    _ = flushRun r (n + 4) (pushed d f f.attr r.attr) (some { f with stage := .xattr }) := rfl
    _ = flushRun r (n + 3) (pushed (pushed d f f.attr r.attr) f f.xattr r.xattr)
        (some { f with stage := .align }) := rfl
    _ = _ := flushRun_align n

def flushed (r : FlushResults) (d : CapData) (f : Flush) : CapData :=
  let d := pushed d f f.data (r.writeback && (d.inline || r.chunks))
  let d := pushed d f f.attr r.attr
  { payloadStep r (pushed d f f.xattr r.xattr) f with flushing := 0 }

theorem flushRun_writeback (hstage : f.stage = .writeback) :
    flushRun r 7 d (some f) = (flushed r d f, none) := by
  have houtcome : r.outcome f.stage = if r.writeback then .ok else .fail := by
    rw [hstage]
    rfl
  rw [flushRun_some, houtcome]
  by_cases hchunks : f.data ≠ 0 ∧ r.writeback = true ∧ d.inline = false
  · -- the pages are written, and the chunk map of a volume layout is still to be committed
    obtain ⟨hdata, hwriteback, hinline⟩ := hchunks
    have hstep : flushStep d f .ok = (d, some { f with stage := .chunks }) := by
      simp only [flushStep, hstage]
      exact if_pos ⟨hdata, trivial, hinline⟩
    rw [hwriteback, if_pos rfl, hstep]
    have hok : (r.writeback && (d.inline || r.chunks)) = r.chunks := by simp [hwriteback, hinline]
    rw [flushed, hok]
    exact flushRun_attr 0
  · have hstep : flushStep d f (if r.writeback then .ok else .fail) =
        (pushed d f f.data r.writeback, some { f with stage := .attr }) := by
      simp only [flushStep, hstage, pushed]
      rw [if_neg]
      rintro ⟨hdata, hok, hinline⟩
      refine hchunks ⟨hdata, ?_, hinline⟩
      cases hwriteback : r.writeback with
      | false => simp [hwriteback] at hok
      | true => rfl
    have hok : pushed d f f.data r.writeback =
        pushed d f f.data (r.writeback && (d.inline || r.chunks)) := by
      by_cases hdata : f.data = 0
      · simp [pushed, pushGroup, hdata]
      · cases hwriteback : r.writeback with
        | false => rfl
        | true =>
          have hinline : d.inline = true := by
            by_contra hne
            exact hchunks ⟨hdata, hwriteback, by simpa using hne⟩
          rw [hinline]
          rfl
    rw [hstep, hok]
    exact flushRun_attr 1

theorem payloadStep_dirty : (payloadStep r d f).dirty =
    if f.inline = true ∧ r.align = .migrated then d.dirty ||| capWrData else d.dirty := by
  rcases r with ⟨writeback, chunks, attr, xattr, align, send⟩
  cases hinline : f.inline with
  | false => simp [payloadStep, hinline]
  | true =>
    cases align with
    | failed => simp [payloadStep, hinline]
    | migrated => simp [payloadStep, hinline, CapData.migrate, CapData.change]
    | inline =>
      simp only [payloadStep]
      repeat' split
      all_goals simp_all

theorem flushed_dirty_iff (b : Nat) : (flushed r d f).dirty.getLsbD b = true ↔
    d.dirty.getLsbD b = true ∨
    (r.writeback && (d.inline || r.chunks)) = false ∧ f.data.getLsbD b = true ∨
    r.attr = false ∧ f.attr.getLsbD b = true ∨ r.xattr = false ∧ f.xattr.getLsbD b = true ∨
    (f.inline = true ∧ r.align = .migrated) ∧ capWrData.getLsbD b = true := by
  simp only [flushed, payloadStep_dirty, pushed_dirty]
  generalize (r.writeback && (d.inline || r.chunks)) = dataOk
  by_cases hmigrated : f.inline = true ∧ r.align = .migrated
  · cases dataOk <;> cases r.attr <;> cases r.xattr <;> simp [hmigrated, or_assoc]
  · cases dataOk <;> cases r.attr <;> cases r.xattr <;> simp [hmigrated, or_assoc]

theorem flushed_inline (hinline : f.inline = true)
    (hfail : stepSucceeds r d .inlinePayload = false) :
    (flushed r d f).inline = d.inline ∧ (flushed r d f).inlineDirty = true := by
  -- the groups before it do not touch the payload
  have hframe : ∀ d₁ : CapData, d₁.inline = d.inline → d₁.inlineData = d.inlineData →
      (payloadStep r d₁ f).inline = d.inline ∧ (payloadStep r d₁ f).inlineDirty = true := by
    intro d₁ hin hdata
    rcases r with ⟨writeback, chunks, attr, xattr, align, send⟩
    cases align with
    | failed => simp [payloadStep, hinline, hin]
    | migrated => simp [stepSucceeds] at hfail
    | inline =>
      simp only [stepSucceeds, Bool.or_eq_false_iff] at hfail
      simp [payloadStep, hinline, hin, hdata, hfail.1, hfail.2]
  apply hframe
  · rw [(pushed_inline _).1, (pushed_inline _).1, (pushed_inline _).1]
  · rw [(pushed_inline _).2.1, (pushed_inline _).2.1, (pushed_inline _).2.1]

end Run

section Classes

variable {d : CapData} {mask : CapMask} {c : DirtyClass} {b : Nat}

theorem caps_of_classBits (h : (classBits d mask c).getLsbD b = true) :
    d.dirty.getLsbD b = true ∧ mask.getLsbD b = true := by
  cases c with
  | data | attrs | xattrs =>
    simp only [classBits, BitVec.getLsbD_and, Bool.and_eq_true] at h
    exact h.1
  | inlinePayload =>
    simp only [classBits] at h
    split at h
    · simp only [BitVec.getLsbD_and, Bool.and_eq_true] at h
      exact h.1
    · simp at h

theorem exists_of_classBits (h : classBits d mask c ≠ 0) :
    ∃ b, (classBits d mask c).getLsbD b = true := by
  by_contra hnone
  apply h
  apply BitVec.eq_of_getLsbD_eq
  intro i _
  cases hi : (classBits d mask c).getLsbD i with
  | false => simp
  | true => exact absurd ⟨i, hi⟩ hnone

theorem needInlineFlush_of_classBits (h : classBits d mask .inlinePayload ≠ 0) :
    needInlineFlush d (d.dirty &&& mask) = true := by
  by_contra hneed
  exact h (if_neg hneed)

theorem flushBegin_again {d' : CapData} (h : classBits d mask c ≠ 0)
    (hmarked : ∀ b, (classBits d mask c).getLsbD b = true → d'.dirty.getLsbD b = true)
    (hpayload : c = .inlinePayload → d'.inline = true ∧ d'.inlineDirty = true) :
    ∃ f, (flushBegin d' mask true).2 = some f ∧
      (∀ b, (classBits d mask c).getLsbD b = true → f.caps.getLsbD b = true) ∧
      (c = .inlinePayload → f.inline = true) := by
  have hcaps : ∀ b, (classBits d mask c).getLsbD b = true →
      (d'.dirty &&& mask).getLsbD b = true := by
    intro b hb
    simp [hmarked b hb, (caps_of_classBits hb).2]
  obtain ⟨b, hb⟩ := exists_of_classBits h
  rcases flushBegin_cases d' mask true with ⟨flushing, heq, hzero⟩ | ⟨flushing, f, heq, hf⟩
  · have hcap := hcaps b hb
    rw [hzero rfl] at hcap
    simp at hcap
  · refine ⟨f, by rw [heq], fun b hb => by rw [hf.1]; exact hcaps b hb, fun hc => ?_⟩
    subst hc
    obtain ⟨hin, hdirty⟩ := hpayload rfl
    have hbit : capWrData.getLsbD b = true := by
      rw [classBits, if_pos (needInlineFlush_of_classBits h), BitVec.getLsbD_and,
        Bool.and_eq_true] at hb
      exact hb.2
    rw [hf.2.1]
    simp only [needInlineFlush, hin, hdirty, Bool.and_true]
    exact has_iff.mpr ⟨b, hcaps b hb, hbit⟩

end Classes

theorem flushBegin_no_memory (d : CapData) (mask : CapMask) :
    (flushBegin d mask false).2 = none := by
  simp only [flushBegin]
  split <;> rfl

theorem capWrData_disjoint : capWrData &&& capAuthExcl = 0 ∧ capWrData &&& capXattrExcl = 0 := by
  decide

section Whole

variable {r : FlushResults} {alloc : Bool} {d : CapData} {mask : CapMask}

/-- The bits that a flush takes up are no longer dirty. -/
def taken (d : CapData) (mask flushing : CapMask) : CapData :=
  { d with dirty := d.dirty &&& ~~~(d.dirty &&& mask), flushing }

theorem capFlush_cases (r : FlushResults) (alloc : Bool) (d : CapData) (mask : CapMask) :
    (∃ flushing, capFlush r alloc d mask = ({ d with flushing }, none) ∧
      (alloc = true → d.dirty &&& mask = 0)) ∨
    alloc = true ∧ ∃ flushing f,
      capFlush r alloc d mask = (flushed r (taken d mask flushing) f, none) ∧
      f.caps = d.dirty &&& mask ∧ f.inline = needInlineFlush d (d.dirty &&& mask) := by
  obtain ⟨flushing, heq, hzero⟩ | ⟨flushing, f, heq, hcaps, hinline, hstage⟩ :=
    flushBegin_cases d mask alloc
  · refine .inl ⟨flushing, ?_, hzero⟩
    rw [capFlush, heq]
    exact flushRun_none 7
  · refine .inr ⟨?_, flushing, f, ?_, hcaps, hinline⟩
    · cases alloc with
      | true => rfl
      | false =>
        have hnone := flushBegin_no_memory d mask
        rw [heq] at hnone
        cases hnone
    · rw [capFlush, heq]
      exact flushRun_writeback hstage

theorem inline_of_needInlineFlush {caps : CapMask} (h : needInlineFlush d caps = true) :
    d.inline = true ∧ d.inlineDirty = true := by
  simp only [needInlineFlush, Bool.and_eq_true] at h
  exact ⟨h.1.2, h.2⟩

theorem conserves_of_marked {d' : CapData} (hflush : capFlush r alloc d mask = (d', none))
    (hmarked : ∀ c, classBits d mask c ≠ 0 → (alloc = false ∨ stepSucceeds r d c = false) →
      ∀ b, (classBits d mask c).getLsbD b = true → d'.dirty.getLsbD b = true)
    (hpayload : needInlineFlush d (d.dirty &&& mask) = true →
      (alloc = false ∨ stepSucceeds r d .inlinePayload = false) →
      d'.inline = true ∧ d'.inlineDirty = true) :
    Conserves r alloc d mask := by
  rw [Conserves, hflush]
  refine ⟨rfl, fun c hc hfail => ⟨hmarked c hc hfail, ?_⟩⟩
  refine flushBegin_again hc (hmarked c hc hfail) fun hinline => ?_
  subst hinline
  exact hpayload (needInlineFlush_of_classBits hc) hfail

theorem marked_of_failed {flushing : CapMask} {f : Flush} {c : DirtyClass} {b : Nat}
    (hcaps : f.caps = d.dirty &&& mask) (hfail : stepSucceeds r d c = false)
    (hdata : c = .inlinePayload → stepSucceeds r d .data = false)
    (hb : (classBits d mask c).getLsbD b = true) :
    (flushed r (taken d mask flushing) f).dirty.getLsbD b = true := by
  rw [flushed_dirty_iff]
  cases c with
  | data => exact .inr (.inl ⟨hfail, by rw [Flush.data, hcaps]; exact hb⟩)
  | attrs => exact .inr (.inr (.inl ⟨hfail, by rw [Flush.attr, hcaps]; exact hb⟩))
  | xattrs => exact .inr (.inr (.inr (.inl ⟨hfail, by rw [Flush.xattr, hcaps]; exact hb⟩)))
  | inlinePayload =>
    rw [classBits] at hb
    split at hb
    · exact .inr (.inl ⟨hdata rfl, by rw [Flush.data, hcaps]; exact hb⟩)
    · simp at hb

theorem not_marked_of_data {flushing : CapMask} {f : Flush} {b : Nat}
    (hb : (d.dirty &&& mask).getLsbD b = true) (hwr : capWrData.getLsbD b = true)
    (hdata : stepSucceeds r d .data = true) (halign : r.align ≠ .migrated) :
    (flushed r (taken d mask flushing) f).dirty.getLsbD b = false := by
  rw [Bool.eq_false_iff, ne_eq, flushed_dirty_iff]
  have htaken : (taken d mask flushing).dirty.getLsbD b = false := by
    rw [taken, getLsbD_andNot, hb, Bool.not_true, Bool.and_false]
  -- the groups of the attributes and the xattrs have no data bits
  have hattr := and_eq_zero_iff.mp capWrData_disjoint.1 b hwr
  have hxattr := and_eq_zero_iff.mp capWrData_disjoint.2 b hwr
  have hok : (r.writeback && ((taken d mask flushing).inline || r.chunks)) = true := hdata
  simp [htaken, hok, Flush.attr, Flush.xattr, hattr, hxattr, halign]

theorem conserves_of_payloadKept (h : PayloadKept r alloc d mask) :
    Conserves r alloc d mask := by
  obtain ⟨flushing, hflush, -⟩ | ⟨halloc, flushing, f, hflush, hcaps, hinline⟩ :=
    capFlush_cases r alloc d mask
  · exact conserves_of_marked hflush (fun _ _ _ _ hb => (caps_of_classBits hb).1)
      fun hneed _ => inline_of_needInlineFlush hneed
  · have hfailed : ∀ {c}, alloc = false ∨ stepSucceeds r d c = false →
        stepSucceeds r d c = false := by
      intro c hfail
      simpa [halloc] using hfail
    refine conserves_of_marked hflush (fun c hc hfail b hb => ?_) fun hneed hfail => ?_
    · refine marked_of_failed hcaps (hfailed hfail) (fun hpayload => ?_) hb
      subst hpayload
      by_contra hne
      have hkept := h halloc (needInlineFlush_of_classBits hc) (by simpa using hne)
      rw [hfailed hfail] at hkept
      cases hkept
    · obtain ⟨hin, -⟩ := inline_of_needInlineFlush hneed
      have hleft := @flushed_inline r (taken d mask flushing) f (hinline.trans hneed)
        (hfailed hfail)
      exact ⟨hleft.1.trans hin, hleft.2⟩

theorem payloadKept_of_conserves (h : Conserves r alloc d mask) :
    PayloadKept r alloc d mask := by
  intro halloc hneed hdata
  have hhas := hneed
  simp only [needInlineFlush, Bool.and_eq_true] at hhas
  obtain ⟨b, hb, hwr⟩ := has_iff.mp hhas.1.1
  have hbits : (classBits d mask .inlinePayload).getLsbD b = true := by
    rw [classBits, if_pos hneed, BitVec.getLsbD_and, hb, hwr, Bool.true_and]
  have hne : classBits d mask .inlinePayload ≠ 0 := by
    intro hzero
    rw [hzero] at hbits
    simp at hbits
  by_contra hfail
  rw [Bool.not_eq_true] at hfail
  have hmarked := (h.2 .inlinePayload hne (.inr hfail)).1 b hbits
  obtain ⟨flushing, -, hzero⟩ | ⟨-, flushing, f, hflush, -, -⟩ := capFlush_cases r alloc d mask
  · rw [hzero halloc] at hb
    simp at hb
  · have halign : r.align ≠ .migrated := by
      intro hmigrated
      simp [stepSucceeds, hmigrated] at hfail
    rw [hflush, not_marked_of_data hb hwr hdata halign] at hmarked
    cases hmarked

end Whole

/-- A flush conserves the dirty classes exactly if it does not lose track of a payload. -/
theorem conserves_iff_payloadKept (r : FlushResults) (alloc : Bool) (d : CapData)
    (mask : CapMask) : Conserves r alloc d mask ↔ PayloadKept r alloc d mask :=
  ⟨payloadKept_of_conserves, conserves_of_payloadKept⟩

def inlineWritten : CapData where
  issued := wireCapsetToKernelBits 7
  implemented := wireCapsetToKernelBits 7
  granted := true
  refs := ⟨0, 0, 0, 0, 0, 0⟩
  dirty := capFileWr
  flushing := 0
  inline := true
  inlineData := true
  inlineDirty := true
  isDir := false
  creates := 0
  wrote := fun _ => 0
  acked := fun _ => 0
  inlineWrote := 1
  inlineAcked := 0

/-- The pages of an Inline file are written, the commit of its payload fails, and no bit of
`i_dirty_caps` is left: a recall of the same bits flushes nothing. -/
theorem not_conserves_inlineWritten : ¬ ∀ r alloc d mask, Conserves r alloc d mask := by
  intro h
  have hclasses :=
    (h ⟨true, true, true, true, .inline, false⟩ true inlineWritten capAnyDirty).2
  have hlost := (hclasses .inlinePayload (by decide +kernel) (.inr rfl)).1 8 (by decide +kernel)
  have hclean : (capFlush ⟨true, true, true, true, .inline, false⟩ true inlineWritten
      capAnyDirty).1.dirty.getLsbD 8 = false := by decide +kernel
  cases hlost

end PowerFS.Caps
