import PowerFS.Inline.Align

namespace PowerFS.Inline

open Layout Overlay

/-! What the calls that write, resize and commit an Inline file do to its buffer. -/

def writeAt (content : List UInt8) (pos : Nat) (bytes : List UInt8) : List UInt8 :=
  overlay (padTo (pos + bytes.length) content) pos bytes

/-- The contents after the size was set to `n`. -/
def resize (n : Nat) (content : List UInt8) : List UInt8 := (padTo n content).take n

/-- What `powerfs_setattr` does to the file when it sets the size. -/
def truncateFile (f : InlineFile) (n : Nat) : InlineFile :=
  let f := { f with iSize := n }
  if f.layout.placement ≠ .inline then f
  else if n = 0 then
    { f with layout := { f.layout with inlineData := none, inlineDirty := false } }
  else
    match f.layout.inlineData with
    | some buf =>
      if n < buf.length then
        { f with
          layout := { f.layout with inlineData := some (buf.take n), inlineDirty := true } }
      else f
    | none => f

/-- What `powerfs_fallocate` does to an Inline file in its default mode. -/
def fallocateFile (f : InlineFile) (newSize : Nat) : InlineFile :=
  if f.iSize < newSize then
    let f := { f with iSize := newSize }
    if f.layout.placement = .inline then
      { f with layout := { f.layout with inlineDirty := true } }
    else f
  else f

def Fits (f : InlineFile) (pos : Nat) (bytes : List UInt8) : Prop :=
  f.layout.inlineData.isSome = true ∧ pos + bytes.length ≤ f.inlineLen

/-! ### Contents -/

theorem length_padTo (n : Nat) (buf : List UInt8) : (padTo n buf).length = max buf.length n := by
  rw [padTo, List.length_append, List.length_replicate]
  omega

variable {n : Nat}

theorem padTo_of_le {buf : List UInt8} (h : n ≤ buf.length) : padTo n buf = buf := by
  rw [padTo, Nat.sub_eq_zero_of_le h, List.replicate_zero, List.append_nil]

theorem padTo_max (n : Nat) (buf : List UInt8) : padTo (max n buf.length) buf = padTo n buf := by
  rw [padTo]
  congr 2
  omega

theorem length_writeAt (content : List UInt8) (pos : Nat) (bytes : List UInt8) :
    (writeAt content pos bytes).length = max content.length (pos + bytes.length) := by
  rw [writeAt, length_overlay (by rw [length_padTo]; omega), length_padTo]

theorem writeAt_ne_nil (content : List UInt8) (pos : Nat) {bytes : List UInt8} (h : bytes ≠ []) :
    writeAt content pos bytes ≠ [] := by
  have hpos := List.length_pos_iff.mpr h
  rw [← List.length_pos_iff, length_writeAt]
  omega

theorem length_resize (n : Nat) (content : List UInt8) : (resize n content).length = n := by
  rw [resize, List.length_take, length_padTo]
  omega

theorem resize_of_le {content : List UInt8} (h : n ≤ content.length) :
    resize n content = content.take n := by
  rw [resize, padTo_of_le h]

/-! ### Writes -/

theorem stagedBytes_of_le {pos : Nat} {bytes : List UInt8}
    (h : pos + bytes.length ≤ inlineMaxSize) : stagedBytes pos bytes = bytes :=
  if_neg (Nat.not_lt.mpr h)

/-- The bytes a write starts from: those of the buffer, or those it gets from the Filer. -/
def oldData (env : StageEnv) (f : InlineFile) : Option (List UInt8) :=
  f.layout.inlineData.or (if env.recovered = [] then none else some env.recovered)

variable {env : StageEnv} {f : InlineFile}

theorem rebuildBuffer_eq (hsize : 0 < f.iSize) (need : Nat) :
    rebuildBuffer env f need =
      if need ≤ f.inlineLen ∧ f.layout.inlineData.isSome then (true, f)
      else if env.alloc then
        (true, f.setData (some (padTo (max need ((oldData env f).getD []).length)
          ((oldData env f).getD []))))
      else (false, f.setData (oldData env f)) := by
  have hold : f.layout.inlineData.or
      (if 0 < f.iSize ∧ env.recovered ≠ [] then some env.recovered else none) = oldData env f := by
    rw [oldData]
    by_cases hnone : env.recovered = [] <;> simp [hsize]
  simp only [rebuildBuffer, hold]

theorem copyIn_padTo (f : InlineFile) (old : List UInt8) (pos : Nat) (bytes : List UInt8) :
    copyIn (f.setData (some (padTo (max (pos + bytes.length) old.length) old))) pos bytes =
      { f with
        layout :=
          { f.layout with inlineData := some (writeAt old pos bytes), inlineDirty := true } } := by
  rw [padTo_max, copyIn]
  simp only [InlineFile.setData]
  rw [if_pos (by rw [length_padTo]; omega), writeAt]

theorem stageWrite_eq {pos : Nat} {bytes : List UInt8}
    (hinline : f.layout.placement = .inline) (hne : bytes ≠ [])
    (hlimit : pos + bytes.length ≤ inlineMaxSize) {enough : Bool} {f' : InlineFile}
    (hres : rebuildBuffer env { f with iSize := max f.iSize (pos + bytes.length) }
      (pos + bytes.length) = (enough, f')) :
    (stageWrite env f pos bytes).2.2 = if enough then copyIn f' pos bytes else f' := by
  simp only [stageWrite, if_neg hne, hinline, stagedBytes_of_le hlimit, Nat.min_eq_left hlimit,
    hres]
  cases enough <;> rfl

/-- A write within the limit goes to the buffer, unless it needs a new one and gets no memory. -/
theorem stageWrite_file {pos : Nat} {bytes : List UInt8}
    (hinline : f.layout.placement = .inline) (hne : bytes ≠ [])
    (hlimit : pos + bytes.length ≤ inlineMaxSize) : (Fits f pos bytes ∨ env.alloc = true →
      (stageWrite env f pos bytes).2.2 =
        { f with
          iSize := max f.iSize (pos + bytes.length)
          layout :=
            { f.layout with
              inlineData := some (writeAt ((oldData env f).getD []) pos bytes)
              inlineDirty := true } }) ∧
    (¬ Fits f pos bytes → env.alloc = false →
      (stageWrite env f pos bytes).2.2 =
        { f with
          iSize := max f.iSize (pos + bytes.length)
          layout := { f.layout with inlineData := oldData env f } }) := by
  have hpos := List.length_pos_iff.mpr hne
  have hbuffer := @rebuildBuffer_eq env { f with iSize := max f.iSize (pos + bytes.length) }
    (by show 0 < max f.iSize (pos + bytes.length); omega) (pos + bytes.length)
  have hwrite := @stageWrite_eq env f pos bytes hinline hne hlimit
  by_cases hfits : Fits f pos bytes
  · obtain ⟨buf, hbuf⟩ := Option.isSome_iff_exists.mp hfits.1
    have hlen : pos + bytes.length ≤ buf.length := by
      have hlen := hfits.2
      rwa [InlineFile.inlineLen, hbuf] at hlen
    have hold : (oldData env f).getD [] = buf := by
      rw [oldData, hbuf, Option.some_or, Option.getD_some]
    refine ⟨fun _ => ?_, fun hno => absurd hfits hno⟩
    rw [hwrite (hbuffer.trans (if_pos ⟨hfits.2, hfits.1⟩)), hold, writeAt, padTo_of_le hlen]
    simp only [if_true, copyIn, hbuf, if_pos hlen]
  · have hnew := hbuffer.trans (if_neg fun h => hfits ⟨h.2, h.1⟩)
    constructor
    · intro hor
      rw [hwrite (hnew.trans (if_pos (hor.resolve_left hfits)))]
      exact copyIn_padTo _ _ pos bytes
    · intro _ halloc
      rw [hwrite (hnew.trans (if_neg (by rw [halloc]; exact Bool.false_ne_true)))]
      rfl

theorem oldData_of_none (h : f.layout.inlineData = none) :
    (oldData env f).getD [] = env.recovered := by
  rw [oldData, h]
  split
  case isTrue hnone => exact hnone.symm
  case isFalse => rfl

/-! ### Truncates -/

theorem truncateFile_cut {buf : List UInt8} (hn : n ≠ 0)
    (hinline : f.layout.placement = .inline) (hbuf : f.layout.inlineData = some buf)
    (hlt : n < buf.length) :
    truncateFile f n =
      { f with
        iSize := n
        layout := { f.layout with inlineData := some (buf.take n), inlineDirty := true } } := by
  simp only [truncateFile, hinline, ne_eq, not_true_eq_false, if_false, if_neg hn, hbuf,
    if_pos hlt]

theorem truncateFile_keep (hn : n ≠ 0) (hinline : f.layout.placement = .inline)
    (hbuf : ∀ buf, f.layout.inlineData = some buf → buf.length ≤ n) :
    truncateFile f n = { f with iSize := n } := by
  simp only [truncateFile, hinline, ne_eq, not_true_eq_false, if_false, if_neg hn]
  split
  case h_1 buf hdata => rw [if_neg (Nat.not_lt.mpr (hbuf buf hdata))]
  case h_2 => rfl

/-! ### What an fsync of an Inline file does -/

/-- `s'` is `s` with the payload sent or not. -/
structure Commits (s s' : CommitState) : Prop where
  placement : s.file.layout.placement = .inline
  data : s'.file.layout.inlineData = s.file.layout.inlineData
  size : s'.file.iSize = s.file.iSize
  sent : s'.acked = s.acked ∧
        (s'.file.layout.inlineDirty = s.file.layout.inlineDirty ∨
          s'.file.layout.inlineDirty = false ∧ s.file.layout.inlineData.getD [] = []) ∨
      s'.acked = s.file.layout.inlineData ∧ s.file.layout.inlineData.getD [] ≠ [] ∧
        s.file.layout.inlineDirty = true ∧ s'.file.layout.inlineDirty = false

theorem Commits.refl {s : CommitState} (h : s.file.layout.placement = .inline) : Commits s s :=
  ⟨h, rfl, rfl, .inl ⟨rfl, .inl rfl⟩⟩

theorem Commits.trans {s s' s'' : CommitState} (h : Commits s s') (h' : Commits s' s'') :
    Commits s s'' := by
  refine ⟨h.placement, h'.data.trans h.data, h'.size.trans h.size, ?_⟩
  have hsent := h.sent
  have hsent' := h'.sent
  rw [h.data] at hsent'
  obtain ⟨hacked, hflag⟩ | ⟨hacked, hne, hdirty, hclean⟩ := hsent
  · obtain ⟨hacked', hflag'⟩ | ⟨hacked', hne, hdirty', hclean'⟩ := hsent'
    · refine .inl ⟨hacked'.trans hacked, ?_⟩
      obtain hflag' | hflag' := hflag'
      · rwa [hflag']
      · exact .inr hflag'
    · refine .inr ⟨hacked', hne, ?_, hclean'⟩
      obtain hflag | ⟨-, hempty⟩ := hflag
      · exact hflag ▸ hdirty'
      · exact absurd hempty hne
  · obtain ⟨hacked', hflag'⟩ | ⟨-, -, hdirty', -⟩ := hsent'
    · refine .inr ⟨hacked'.trans hacked, hne, hdirty, ?_⟩
      obtain hflag' | hflag' := hflag'
      · exact hflag'.trans hclean
      · exact hflag'.1
    · rw [hclean] at hdirty'
      cases hdirty'

theorem commits_publish {s : CommitState} {batch : Option Placement}
    (h : (s.publish batch).file.layout.placement = .inline) : Commits s (s.publish batch) := by
  obtain ⟨hdata, hdirty, hacked, -⟩ := publish_frame s batch
  suffices s.file.layout.placement = .inline ∧ (s.publish batch).file.iSize = s.file.iSize from
    ⟨this.1, hdata, this.2, .inl ⟨hacked, .inl hdirty⟩⟩
  cases batch with
  | none => exact ⟨h, rfl⟩
  | some placementOut =>
    simp only [CommitState.publish, backfill] at h ⊢
    split at h
    case isFalse => exact ⟨h, by simp [*]⟩
    case isTrue hpending =>
      by_cases hout : placementOut = .inline
      · simp only [hout, ne_eq, not_true_eq_false, if_false] at h ⊢
        split at h <;> exact ⟨h, by simp [*]⟩
      · simp only [hout, ne_eq, not_false_eq_true, if_true] at h

theorem commits_align {env : AlignEnv} {s : CommitState}
    (h : (alignInlineBeforeCommit env s).2.file.layout.placement = .inline) :
    Commits s (alignInlineBeforeCommit env s).2 := by
  have hsees : (alignSees env s).file.layout.placement = .inline → Commits s (alignSees env s) := by
    rw [alignSees]
    split
    · exact commits_publish
    · exact Commits.refl
  have hcase := alignCase env s
  generalize alignInlineBeforeCommit env s = res at h hcase ⊢
  cases hcase with
  | idle => exact .refl h
  | settled => exact hsees h
  | migrated _ hmig => exact absurd h (CommitState.migrate_eq_ok hmig).1.migrated.placement
  | failed hneeds => exact absurd h hneeds.2.2.2.1
  | unpublished => exact hsees h

theorem commitInline_placement (env : UpdateEnv) (s : CommitState) :
    (commitInline env s).2.file.layout.placement = s.file.layout.placement := by
  rw [commitInline]
  repeat' split
  all_goals rfl

theorem commits_commitInline (env : UpdateEnv) {s : CommitState}
    (h : s.file.layout.placement = .inline) (hdirty : s.file.layout.inlineDirty = true) :
    Commits s (commitInline env s).2 ∧ ((commitInline env s).1 = .ok () →
      (commitInline env s).2.file.layout.inlineDirty = false) := by
  rw [commitInline]
  split
  case h_1 hdata => exact ⟨⟨h, rfl, rfl, .inl ⟨rfl, .inr ⟨rfl, by rw [hdata]; rfl⟩⟩⟩, fun _ => rfl⟩
  case h_2 hdata => exact ⟨⟨h, rfl, rfl, .inl ⟨rfl, .inr ⟨rfl, by rw [hdata]; rfl⟩⟩⟩, fun _ => rfl⟩
  case h_3 b data hdata =>
    split
    · exact ⟨.refl h, fun hret => by cases hret⟩
    · split
      · exact ⟨.refl h, fun hret => by cases hret⟩
      · exact ⟨⟨h, rfl, rfl, .inr ⟨hdata.symm, by rw [hdata]; simp, hdirty, rfl⟩⟩, fun _ => rfl⟩

theorem commits_capFlush {env : CapFlushEnv} {s : CommitState}
    (h : (capFlushInline env s).file.layout.placement = .inline) :
    Commits s (capFlushInline env s) := by
  have halign := @commits_align env.align s
  have hcase := capFlushCase env s
  generalize capFlushInline env s = s'' at h hcase ⊢
  cases hcase with
  | skipped => exact .refl h
  | aligned => exact halign h
  | @committed s' _ hres hdirty =>
    rw [hres] at halign
    rw [commitInline_placement] at h
    exact (halign h).trans (commits_commitInline env.commit h hdirty).1

theorem commits_fsyncPrepare {env : FsyncEnv} {s : CommitState}
    (h : (fsyncPrepare env s).file.layout.placement = .inline) :
    Commits s (fsyncPrepare env s) := by
  rw [fsyncPrepare] at h ⊢
  have hpublish := commits_publish h
  cases hflush : env.flush with rw [hflush] at hpublish
  | none =>
    exact hpublish
  | some flush =>
    exact (commits_capFlush hpublish.placement).trans hpublish

theorem commits_fsync {env : FsyncEnv} {s : CommitState}
    (h : (fsync env s).2.file.layout.placement = .inline) :
    Commits s (fsync env s).2 ∧
      ((fsync env s).1 = .ok () → (fsync env s).2.file.layout.inlineDirty = false) := by
  have halign : ∀ {ret s'}, alignInlineBeforeCommit env.align (fsyncPrepare env s) = (ret, s') →
      s'.file.layout.placement = .inline → Commits s s' := by
    intro ret s' hres hinline
    have halign := @commits_align env.align (fsyncPrepare env s)
    rw [hres] at halign
    exact (commits_fsyncPrepare (halign hinline).placement).trans (halign hinline)
  have hcase := fsyncCase env s
  generalize fsync env s = res at h hcase ⊢
  cases hcase with
  | unwritten => exact ⟨commits_fsyncPrepare h, fun hret => by cases hret⟩
  | unaligned _ hres => exact ⟨halign hres h, fun hret => by cases hret⟩
  | committed _ hres hdirty =>
    obtain ⟨hcommit, hclean⟩ := commits_commitInline env.commit hdirty.1 hdirty.2
    exact ⟨(halign hres hdirty.1).trans hcommit, hclean⟩
  | passed _ _ hres hskip =>
    exact ⟨halign hres h, fun _ => Bool.eq_false_iff.mpr fun hdirty => hskip ⟨h, hdirty⟩⟩

/-- On a file whose placement is confirmed an fsync in which nothing fails sends what is unsent. -/
theorem fsync_plain (st : CommitState) (hinline : st.file.layout.placement = .inline)
    (haligned : st.file.layoutAligned = true) (migrate : MigrateEnv) :
    fsync (plainFsync migrate) st =
      (.ok (), if st.file.layout.inlineDirty = true ∧ st.file.layout.inlineData.getD [] ≠ [] then
        { st.setDirty false with acked := st.file.layout.inlineData }
      else st.setDirty false) := by
  have hprep : fsyncPrepare (plainFsync migrate) st = st := rfl
  rw [fsync, hprep]
  simp only [plainFsync, (align_of_aligned haligned _).2]
  by_cases hdirty : st.file.layout.inlineDirty = true
  · rw [if_pos ⟨hinline, hdirty⟩, commitInline]
    split
    case h_1 hdata | h_2 hdata => simp [hdata]
    case h_3 hdata => simp [hdata, hdirty]
  · have hclean : st.file.layout.inlineDirty = false := Bool.eq_false_iff.mpr hdirty
    rw [if_neg fun h => hdirty h.2, if_neg fun h => h.2 hinline, if_neg fun h => hdirty h.1,
      CommitState.setDirty, ← hclean]

end PowerFS.Inline
