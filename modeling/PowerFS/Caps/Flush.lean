import PowerFS.Caps.Refs

namespace PowerFS.Caps

/-! What an inode has to give back on a recall, and `powerfs_cap_flush`, cut where it drops the
lock of the inode. -/

/-- `POWERFS_CAP_ANY_DIRTY`. -/
def capAnyDirty : CapMask := capAuthExcl ||| capWrData ||| capXattrExcl

/-- The inode as recalls see it. `wrote b` counts the changes under bit `b`, `acked b` those
acknowledged by the Volume servers and the Filer; the same for the inline payload. `creates` are
local creates that the Filer does not know. -/
structure CapData where
  issued : CapMask
  implemented : CapMask
  granted : Bool
  refs : CapRefs
  dirty : CapMask
  flushing : CapMask
  inline : Bool
  inlineData : Bool
  inlineDirty : Bool
  isDir : Bool
  creates : Nat
  wrote : Nat → Nat
  acked : Nat → Nat
  inlineWrote : Nat
  inlineAcked : Nat

namespace CapData

variable (d : CapData)

/-- A change under the bits of `mask` that also sets them in `i_dirty_caps`. -/
def change (mask : CapMask) : CapData :=
  { d with
    dirty := d.dirty ||| mask
    wrote := fun b => if mask.getLsbD b then d.wrote b + 1 else d.wrote b }

def writeInline : CapData :=
  { d with
    inlineData := true
    inlineDirty := true
    inlineWrote := d.inlineWrote + 1 }

/-- `powerfs_migrate_inline_out`: the payload goes to a volume, and all pages are made dirty so
that a later commit tells the Filer. -/
def migrate : CapData :=
  { d.change capWrData with
    inline := false
    inlineData := false
    inlineDirty := false
    inlineAcked := d.inlineWrote }

/-- Bits of a failed step go back to `i_dirty_caps`. -/
def restore (mask : CapMask) : CapData :=
  { d with dirty := d.dirty ||| mask, flushing := d.flushing &&& ~~~mask }

/-- The changes under `mask` up to the counts `upTo` are acknowledged. -/
def ack (mask : CapMask) (upTo : Nat → Nat) : CapData :=
  { d with acked := fun b => if mask.getLsbD b then max (d.acked b) (upTo b) else d.acked b }

end CapData

/-- Where a `powerfs_cap_flush` stands. -/
inductive FlushStage where
  | writeback | chunks | attr | xattr | align | send | finish
  deriving DecidableEq

/-- A running `powerfs_cap_flush`: its `flushing`, `need_inline_flush`, and the counts of changes
at its start and at the snapshot of the inline data. -/
structure Flush where
  caps : CapMask
  inline : Bool
  stage : FlushStage
  wroteAt : Nat → Nat
  inlineAt : Nat

namespace Flush

variable (f : Flush)

/-- `need_data_flush`, `need_attr_flush` and `need_xattr_flush`. -/
def data : CapMask := f.caps &&& capWrData
def attr : CapMask := f.caps &&& capAuthExcl
def xattr : CapMask := f.caps &&& capXattrExcl

/-- The bits whose step is still to come. -/
def pending : CapMask :=
  match f.stage with
  | .writeback | .chunks => f.data ||| f.attr ||| f.xattr
  | .attr => f.attr ||| f.xattr
  | .xattr => f.xattr
  | .align | .send | .finish => 0

end Flush

/-- How a step of a flush ends. `silent` is a return of 0 although the servers were told nothing,
which `powerfs_sync_inode_size_chunks` has for a stripe without volumes. -/
inductive FlushOutcome where
  | ok | fail | migrated | silent
  deriving DecidableEq

/-- `need_inline_flush` of a flush of the bits `caps`. -/
def needInlineFlush (d : CapData) (caps : CapMask) : Bool :=
  caps.has capWrData && d.inline && d.inlineDirty

/-- The start of a flush, under the lock. `none` if there is nothing to flush or no memory for
the flush record, after which the bits are dirty as before. -/
def flushBegin (d : CapData) (mask : CapMask) (alloc : Bool) : CapData × Option Flush :=
  let caps := d.dirty &&& mask
  if caps = 0 then (d, none)
  else if !alloc then ({ d with flushing := (d.flushing ||| caps) &&& ~~~caps }, none)
  else ({ d with dirty := d.dirty &&& ~~~caps, flushing := d.flushing ||| caps },
    some
      { caps := caps
        inline := needInlineFlush d caps
        stage := .writeback
        wroteAt := d.wrote
        inlineAt := 0 })

def pushGroup (d : CapData) (f : Flush) (mask : CapMask) (o : FlushOutcome) : CapData :=
  if mask = 0 then d
  else
    match o with
    | .ok => d.ack mask f.wroteAt
    | .silent => d
    | .fail | .migrated => d.restore mask

def flushStep (d : CapData) (f : Flush) (o : FlushOutcome) : CapData × Option Flush :=
  match f.stage with
  | .writeback =>
    if f.data ≠ 0 ∧ o = .ok ∧ d.inline = false then (d, some { f with stage := .chunks })
    else (pushGroup d f f.data o, some { f with stage := .attr })
  | .chunks => (pushGroup d f f.data o, some { f with stage := .attr })
  | .attr => (pushGroup d f f.attr o, some { f with stage := .xattr })
  | .xattr => (pushGroup d f f.xattr o, some { f with stage := .align })
  | .align =>
    if !f.inline then (d, some { f with stage := .finish })
    else
      match o with
      | .fail => ({ d with inlineDirty := true }, some { f with stage := .finish })
      | .migrated => (d.migrate, some { f with stage := .finish })
      | .ok | .silent =>
        if !d.inlineData then ({ d with inlineDirty := false }, some { f with stage := .finish })
        else (d, some { f with stage := .send, inlineAt := d.inlineWrote })
  | .send =>
    if !f.inline then (d, some { f with stage := .finish })
    else if o = .ok then
      ({ d with inlineDirty := false, inlineAcked := max d.inlineAcked f.inlineAt },
        some { f with stage := .finish })
    else ({ d with inlineDirty := true }, some { f with stage := .finish })
  | .finish => ({ d with flushing := 0 }, none)

section Masks

variable {a b c : CapMask}

theorem and_eq_zero_iff : a &&& b = 0 ↔ ∀ i, a.getLsbD i = true → b.getLsbD i = false := by
  constructor
  · intro h i ha
    have hi := congrArg (fun m => BitVec.getLsbD m i) h
    simpa [ha] using hi
  · intro h
    apply BitVec.eq_of_getLsbD_eq
    intro i _
    cases ha : a.getLsbD i with
    | true => simp [h i ha]
    | false => simp [ha]

theorem has_iff : a.has b = true ↔ ∃ i, a.getLsbD i = true ∧ b.getLsbD i = true := by
  rw [CapMask.has, decide_eq_true_eq, ne_eq, and_eq_zero_iff]
  simp

theorem getLsbD_andNot (i : Nat) : (a &&& ~~~b).getLsbD i = (a.getLsbD i && !b.getLsbD i) := by
  cases ha : a.getLsbD i with
  | false => simp only [BitVec.getLsbD_and, ha, Bool.false_and]
  | true =>
    have hi := BitVec.lt_of_getLsbD ha
    simp only [BitVec.getLsbD_and, BitVec.getLsbD_not, ha, hi, decide_true, Bool.true_and]

theorem or_and_of_disjoint (h : b &&& c = 0) : (a ||| b) &&& c = a &&& c := by
  apply BitVec.eq_of_getLsbD_eq
  intro i _
  rw [BitVec.getLsbD_and, BitVec.getLsbD_or]
  cases hb : b.getLsbD i with
  | false => simp
  | true => simp [and_eq_zero_iff.mp h i hb]

theorem andNot_and_of_disjoint (h : b &&& c = 0) : a &&& ~~~b &&& c = a &&& c := by
  apply BitVec.eq_of_getLsbD_eq
  intro i _
  rw [BitVec.getLsbD_and, getLsbD_andNot]
  cases hb : b.getLsbD i with
  | false => simp
  | true => simp [and_eq_zero_iff.mp h i hb]

theorem andNot_and_self : a &&& ~~~(a &&& b) &&& b = 0 := by
  rw [and_eq_zero_iff]
  intro i h
  rw [getLsbD_andNot] at h
  cases hb : b.getLsbD i with
  | false => rfl
  | true => simp [hb] at h

end Masks

inductive FlushMove (d : CapData) (f : Flush) (o : FlushOutcome) : CapData → Option Flush → Prop
  | push (mask : CapMask) (stage : FlushStage) (hstage : stage ≠ .send ∧ stage ≠ .finish)
      (hcaps : ∀ b, mask.getLsbD b = true →
        f.caps.getLsbD b = true ∧ capAnyDirty.getLsbD b = true)
      (hpending : ∀ b, f.pending.getLsbD b = true →
        mask.getLsbD b = true ∨ { f with stage := stage }.pending.getLsbD b = true) :
      FlushMove d f o (pushGroup d f mask o) (some { f with stage := stage })
  | wait (hstage : f.stage = .writeback) : FlushMove d f o d (some { f with stage := .chunks })
  | skip (hinline : f.inline = false) (hpending : f.pending = 0) :
      FlushMove d f o d (some { f with stage := .finish })
  | keepInline (hinline : f.inline = true) (hpending : f.pending = 0) (hfail : o ≠ .ok) :
      FlushMove d f o { d with inlineDirty := true } (some { f with stage := .finish })
  | migrate (hinline : f.inline = true) (hpending : f.pending = 0) (hfail : o ≠ .ok) :
      FlushMove d f o d.migrate (some { f with stage := .finish })
  | noData (hinline : f.inline = true) (hpending : f.pending = 0)
      (hdata : d.inlineData = false) :
      FlushMove d f o { d with inlineDirty := false } (some { f with stage := .finish })
  | snapshot (hinline : f.inline = true) (hpending : f.pending = 0)
      (hdata : d.inlineData = true) :
      FlushMove d f o d (some { f with stage := .send, inlineAt := d.inlineWrote })
  | sent (hinline : f.inline = true) (hstage : f.stage = .send) :
      FlushMove d f o
        { d with inlineDirty := false, inlineAcked := max d.inlineAcked f.inlineAt }
        (some { f with stage := .finish })
  | done (hstage : f.stage = .finish) : FlushMove d f o { d with flushing := 0 } none

section Step

variable {d : CapData} {f : Flush} {o : FlushOutcome} {b : Nat}

theorem flushStep_move (d : CapData) (f : Flush) (o : FlushOutcome) :
    FlushMove d f o (flushStep d f o).1 (flushStep d f o).2 := by
  -- the three groups a flush pushes are groups of its own bits
  have hgroup : ∀ m : CapMask, (∀ b, m.getLsbD b = true → capAnyDirty.getLsbD b = true) → ∀ b,
      (f.caps &&& m).getLsbD b = true →
        f.caps.getLsbD b = true ∧ capAnyDirty.getLsbD b = true := by
    intro m hm b h
    rw [BitVec.getLsbD_and, Bool.and_eq_true] at h
    exact ⟨h.1, hm b h.2⟩
  have hdata := hgroup capWrData fun b h => by simp [capAnyDirty, h]
  have hattr := hgroup capAuthExcl fun b h => by simp [capAnyDirty, h]
  have hxattr := hgroup capXattrExcl fun b h => by simp [capAnyDirty, h]
  rcases f with ⟨caps, inline, stage, wroteAt, inlineAt⟩
  cases stage with
  | writeback =>
    simp only [flushStep]
    split
    · exact .wait rfl
    · refine .push _ _ (by decide) hdata (fun b hb => ?_)
      simpa [Flush.pending, Flush.attr, Flush.xattr, or_assoc] using hb
  | chunks =>
    refine .push _ _ (by decide) hdata (fun b hb => ?_)
    simpa [Flush.pending, Flush.attr, Flush.xattr, or_assoc] using hb
  | attr =>
    refine .push _ _ (by decide) hattr (fun b hb => ?_)
    simpa [Flush.pending, Flush.xattr] using hb
  | xattr =>
    refine .push _ _ (by decide) hxattr (fun b hb => ?_)
    simpa [Flush.pending] using hb
  | align =>
    cases inline with
    | false => exact .skip rfl rfl
    | true =>
      cases o with
      | fail => exact .keepInline rfl rfl (by decide)
      | migrated => exact .migrate rfl rfl (by decide)
      | ok | silent =>
        simp only [flushStep, Bool.not_true, Bool.false_eq_true, if_false]
        split
        · next hdata => exact .noData rfl rfl (by simpa using hdata)
        · next hdata => exact .snapshot rfl rfl (by simpa using hdata)
  | send =>
    cases inline with
    | false => exact .skip rfl rfl
    | true =>
      cases o with
      | ok => exact .sent rfl rfl
      | fail | migrated | silent => exact .keepInline rfl rfl (by decide)
  | finish => exact .done rfl

/-- A bit that a step pushes is acknowledged up to the start of the flush, or dirty again; other
bits are as before. -/
theorem pushGroup_cases (mask : CapMask) :
    (o ≠ .silent → mask.getLsbD b = true → f.wroteAt b ≤ (pushGroup d f mask o).acked b ∨
      (pushGroup d f mask o).dirty.getLsbD b = true) ∧
    d.acked b ≤ (pushGroup d f mask o).acked b ∧
    ((pushGroup d f mask o).dirty.getLsbD b = true ↔
      d.dirty.getLsbD b = true ∨ (o = .fail ∨ o = .migrated) ∧ mask.getLsbD b = true) := by
  unfold pushGroup
  split
  · next hzero => simp [hzero]
  · cases o with
    | ok =>
      refine ⟨fun _ hb => .inl (by simp [CapData.ack, hb]), ?_, by simp [CapData.ack]⟩
      simp only [CapData.ack]
      split <;> omega
    | silent => simp
    | fail | migrated =>
      exact ⟨fun _ hb => .inr (by simp [CapData.restore, hb]), Nat.le_refl _,
        by simp [CapData.restore]⟩

theorem pushGroup_frame (mask : CapMask) : ∃ dirty flushing acked, pushGroup d f mask o
    = { d with dirty := dirty, flushing := flushing, acked := acked } := by
  unfold pushGroup
  split
  · exact ⟨_, _, _, rfl⟩
  · cases o <;> exact ⟨_, _, _, rfl⟩

variable {d' : CapData}

theorem FlushMove.next {f' : Flush} (h : FlushMove d f o d' (some f')) :
    f'.caps = f.caps ∧ f'.inline = f.inline ∧ f'.wroteAt = f.wroteAt := by
  cases h <;> exact ⟨rfl, rfl, rfl⟩

variable {f' : Option Flush}

theorem FlushMove.frame (h : FlushMove d f o d' f') :
    d'.refs = d.refs ∧ d'.issued = d.issued ∧ d'.isDir = d.isDir ∧ d'.creates = d.creates ∧
      d'.inlineWrote = d.inlineWrote := by
  cases h with
  | push mask stage =>
    obtain ⟨dirty, flushing, acked, heq⟩ := @pushGroup_frame d f o mask
    rw [heq]
    exact ⟨rfl, rfl, rfl, rfl, rfl⟩
  | _ => exact ⟨rfl, rfl, rfl, rfl, rfl⟩

theorem FlushMove.foreign (h : FlushMove d f o d' f')
    (hinline : f.inline = false) (hb : f.caps.getLsbD b = false) :
    d'.dirty.getLsbD b = d.dirty.getLsbD b ∧ d'.inlineDirty = d.inlineDirty ∧
      d'.inline = d.inline := by
  cases h with
  | push mask stage _ hcaps =>
    obtain ⟨dirty, flushing, acked, heq⟩ := @pushGroup_frame d f o mask
    have hdirty := (@pushGroup_cases d f o b mask).2.2
    have hmask : mask.getLsbD b = false := by
      by_contra hne
      rw [Bool.not_eq_false] at hne
      rw [(hcaps b hne).1] at hb
      cases hb
    refine ⟨?_, by rw [heq], by rw [heq]⟩
    rw [hmask] at hdirty
    rw [Bool.eq_iff_iff, hdirty]
    simp
  | wait | skip | done => exact ⟨rfl, rfl, rfl⟩
  | keepInline htrue | migrate htrue | noData htrue | snapshot htrue | sent htrue =>
    rw [hinline] at htrue
    cases htrue

theorem FlushMove.dirtyBits (h : FlushMove d f o d' f')
    (hany : d.dirty.getLsbD b = true → capAnyDirty.getLsbD b = true)
    (hb : d'.dirty.getLsbD b = true) : capAnyDirty.getLsbD b = true := by
  cases h with
  | push mask stage _ hcaps =>
    rcases (@pushGroup_cases d f o b mask).2.2.mp hb with hd | ⟨_, hm⟩
    · exact hany hd
    · exact (hcaps b hm).2
  | migrate =>
    simp only [CapData.migrate, CapData.change, BitVec.getLsbD_or, Bool.or_eq_true] at hb
    rcases hb with hd | hm
    · exact hany hd
    · simp [capAnyDirty, hm]
  | _ => exact hany hb

theorem FlushMove.dirty_of_ok (h : FlushMove d f .ok d' f') :
    d'.dirty = d.dirty := by
  cases h with
  | push mask stage =>
    apply BitVec.eq_of_getLsbD_eq
    intro i _
    have hdirty := (@pushGroup_cases d f .ok i mask).2.2
    rw [Bool.eq_iff_iff, hdirty]
    simp
  | keepInline _ _ hfail | migrate _ _ hfail => exact absurd rfl hfail
  | _ => rfl

theorem FlushMove.inlineDirty_of_ok
    (h : FlushMove d f .ok d' f')
    (hup : d.inlineDirty = true → f.inline = true ∧ f.stage ≠ .finish)
    (hdirty : d'.inlineDirty = true) : ∃ g, f' = some g ∧ g.inline = true ∧ g.stage ≠ .finish := by
  cases h with
  | push mask stage hstage =>
    obtain ⟨dirty, flushing, acked, heq⟩ := @pushGroup_frame d f .ok mask
    rw [heq] at hdirty
    exact ⟨_, rfl, (hup hdirty).1, hstage.2⟩
  | wait => exact ⟨_, rfl, (hup hdirty).1, by simp⟩
  | skip hinline =>
    have htrue := (hup hdirty).1
    rw [hinline] at htrue
    cases htrue
  | snapshot hinline => exact ⟨_, rfl, hinline, by simp⟩
  | keepInline _ _ hfail | migrate _ _ hfail => exact absurd rfl hfail
  | noData | sent => cases hdirty
  | done hstage => exact absurd hstage (hup hdirty).2

/-- The newest change under bit `b` is dirty or in the flush `g`. -/
def Held (d : CapData) (g : Option Flush) (b : Nat) : Prop :=
  d.dirty.getLsbD b = true ∨
    ∃ f, g = some f ∧ f.pending.getLsbD b = true ∧ f.wroteAt b = d.wrote b

@[simp] theorem held_none : Held d none b ↔ d.dirty.getLsbD b = true := by
  simp [Held]

@[simp] theorem held_some : Held d (some f) b ↔
    d.dirty.getLsbD b = true ∨ f.pending.getLsbD b = true ∧ f.wroteAt b = d.wrote b := by
  simp [Held]

/-- If a change under bit `b` is not acknowledged afterwards, it is held, or it was neither
acknowledged nor held before. -/
def Keeps (d : CapData) (g : Option Flush) (d' : CapData) (g' : Option Flush) (b : Nat) : Prop :=
  d'.acked b < d'.wrote b →
    Held d' g' b ∨ d.acked b < d.wrote b ∧ d'.wrote b = d.wrote b ∧ ¬ Held d g b

theorem keeps_of_eq {g g' : Option Flush} (hwrote : d'.wrote b = d.wrote b)
    (hacked : d.acked b ≤ d'.acked b)
    (hheld : Held d g b → d'.acked b < d'.wrote b → Held d' g' b) :
    Keeps d g d' g' b := by
  intro hopen
  by_cases h : Held d g b
  · exact .inl (hheld h hopen)
  · exact .inr ⟨by omega, hwrote, h⟩

theorem keeps_change (mask : CapMask) (g : Option Flush) : Keeps d g (d.change mask) g b := by
  by_cases hb : mask.getLsbD b = true
  · exact fun _ => .inl (.inl (by simp [CapData.change, hb]))
  · have hwrote : (d.change mask).wrote b = d.wrote b := by simp [CapData.change, hb]
    refine keeps_of_eq hwrote (Nat.le_refl _) fun h _ => ?_
    rcases h with hdirty | ⟨f, hf, hpending, hat⟩
    · exact .inl (by simp [CapData.change, hdirty])
    · exact .inr ⟨f, hf, hpending, hat.trans hwrote.symm⟩

theorem FlushMove.keeps (h : FlushMove d f o d' f')
    (ho : o ≠ .silent) : Keeps d (some f) d' f' b := by
  -- moves without a group to push leave the dirty bits and the counts alone
  have hidle : f.pending = 0 → ∀ e g, e.wrote = d.wrote → e.acked = d.acked →
      e.dirty = d.dirty → Keeps d (some f) e g b := by
    intro hpending e g hw ha hd
    refine keeps_of_eq (by rw [hw]) (by rw [ha]) fun hheld _ => ?_
    rw [held_some, hpending] at hheld
    exact .inl (by simpa [hd] using hheld)
  cases h with
  | push mask stage hstage hcaps hpending =>
    obtain ⟨hmask, hacked, hdirty⟩ := @pushGroup_cases d f o b mask
    obtain ⟨dirty, flushing, acked, heq⟩ := @pushGroup_frame d f o mask
    have hwrote : (pushGroup d f mask o).wrote b = d.wrote b := by rw [heq]
    refine keeps_of_eq hwrote hacked fun hheld hopen => ?_
    rw [held_some] at hheld
    rcases hheld with hd | ⟨hp, hat⟩
    · exact .inl (hdirty.mpr (.inl hd))
    · rcases hpending b hp with hm | hrest
      · rcases hmask ho hm with hle | hd
        · omega
        · exact .inl hd
      · exact .inr ⟨_, rfl, hrest, hat.trans hwrote.symm⟩
  | wait hstage =>
    refine keeps_of_eq rfl (Nat.le_refl _) fun hheld _ => ?_
    rw [held_some] at hheld ⊢
    simp only [Flush.pending, hstage] at hheld
    exact hheld
  | migrate hinline hpending =>
    intro hopen
    rcases @keeps_change d b capWrData none hopen with hheld | ⟨hopen', hwrote, hheld⟩
    · exact .inl (.inl (held_none.mp hheld))
    · refine .inr ⟨hopen', hwrote, ?_⟩
      rw [held_some, hpending]
      simpa using hheld
  | skip _ hpending | keepInline _ hpending | noData _ hpending | snapshot _ hpending =>
    exact hidle hpending _ _ rfl rfl rfl
  | sent _ hstage | done hstage =>
    exact hidle (by simp [Flush.pending, hstage]) _ _ rfl rfl rfl

theorem flushBegin_cases (d : CapData) (mask : CapMask) (alloc : Bool) :
    (∃ flushing, flushBegin d mask alloc = ({ d with flushing := flushing }, none) ∧
      (alloc = true → d.dirty &&& mask = 0)) ∨
    ∃ flushing f, flushBegin d mask alloc =
        ({ d with dirty := d.dirty &&& ~~~(d.dirty &&& mask), flushing := flushing }, some f) ∧
      f.caps = d.dirty &&& mask ∧ f.inline = needInlineFlush d (d.dirty &&& mask) ∧
      f.stage = .writeback := by
  simp only [flushBegin]
  split
  · next hzero => exact .inl ⟨d.flushing, rfl, fun _ => hzero⟩
  · split
    · next hfail => exact .inl ⟨_, rfl, fun halloc => by simp [halloc] at hfail⟩
    · exact .inr ⟨_, _, rfl, rfl, rfl, rfl⟩

theorem flushBegin_keeps {mask : CapMask} {alloc : Bool}
    (hany : d.dirty.getLsbD b = true → capAnyDirty.getLsbD b = true) :
    Keeps d none (flushBegin d mask alloc).1 (flushBegin d mask alloc).2 b := by
  simp only [flushBegin]
  split
  · exact keeps_of_eq rfl (Nat.le_refl _) fun h _ => h
  · split
    · exact keeps_of_eq rfl (Nat.le_refl _) fun h _ => held_none.mpr (held_none.mp h)
    · refine keeps_of_eq rfl (Nat.le_refl _) fun hheld _ => ?_
      have hd := held_none.mp hheld
      rw [held_some]
      by_cases hb : mask.getLsbD b = true
      · refine .inr ⟨?_, rfl⟩
        have h := hany hd
        simp only [capAnyDirty, BitVec.getLsbD_or, Bool.or_eq_true] at h
        simp only [Flush.pending, Flush.data, Flush.attr, Flush.xattr, BitVec.getLsbD_or,
          BitVec.getLsbD_and, hd, hb, Bool.or_eq_true]
        tauto
      · exact .inl (by rw [getLsbD_andNot]; simp [hd, hb])

theorem Flush.caps_of_pending (h : f.pending.getLsbD b = true) : f.caps.getLsbD b = true := by
  rcases f with ⟨caps, inline, stage, wroteAt, inlineAt⟩
  cases stage with
  | writeback | chunks =>
    simp only [Flush.pending, Flush.data, Flush.attr, Flush.xattr, BitVec.getLsbD_or,
      BitVec.getLsbD_and, Bool.or_eq_true, Bool.and_eq_true] at h
    tauto
  | attr =>
    simp only [Flush.pending, Flush.attr, Flush.xattr, BitVec.getLsbD_or, BitVec.getLsbD_and,
      Bool.or_eq_true, Bool.and_eq_true] at h
    tauto
  | xattr =>
    simp only [Flush.pending, Flush.xattr, BitVec.getLsbD_and, Bool.and_eq_true] at h
    exact h.1
  | align | send | finish => simp [Flush.pending] at h

/-- An unacknowledged inline payload stays dirty and in memory. -/
def InlineKept (d : CapData) : Prop :=
  d.inlineAcked < d.inlineWrote → d.inlineDirty = true ∧ d.inlineData = true

theorem FlushMove.inlineKept (h : FlushMove d f o d' f')
    (hkept : InlineKept d)
    (hat : f.inline = true → f.stage = .send → f.inlineAt = d.inlineWrote) : InlineKept d' := by
  cases h with
  | push mask stage =>
    obtain ⟨dirty, flushing, acked, heq⟩ := @pushGroup_frame d f o mask
    rw [heq]
    exact hkept
  | wait | skip | snapshot | done => exact hkept
  | keepInline => exact fun hopen => ⟨rfl, (hkept hopen).2⟩
  | migrate => exact fun hopen => absurd hopen (Nat.lt_irrefl _)
  | noData _ _ hdata =>
    intro hopen
    have hin := (hkept hopen).2
    rw [hdata] at hin
    cases hin
  | sent hinline hstage =>
    intro hopen
    have heq := hat hinline hstage
    simp only at hopen
    omega

theorem FlushMove.inlineAt {f' : Flush} (h : FlushMove d f o d' (some f'))
    (hstage : f'.stage = .send) : f'.inlineAt = d.inlineWrote := by
  cases h with
  | push mask stage hne => exact absurd hstage hne.1
  | snapshot => rfl
  | wait | skip | keepInline | migrate | noData | sent => cases hstage

end Step

end PowerFS.Caps
