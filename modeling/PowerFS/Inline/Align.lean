import PowerFS.Inline.Staging

namespace PowerFS.Inline

open Layout

/-! `powerfs_align_inline_before_commit` and the commits that call it. -/

/-- A file, and what has become of its staged data outside: whether the Filer has confirmed the
Inline placement, the last inline payload it acknowledged, and what a migration has written to a
volume. -/
structure CommitState where
  file : InlineFile
  confirmed : Bool
  acked : Option (List UInt8)
  onVolume : Option (List UInt8)

namespace CommitState

def created (queued : Bool) : CommitState := ⟨.created queued, false, none, none⟩

/-- The create is published with the placement `batch`, if it is still waiting for that and the
RPC succeeds. This is `powerfs_flush_pending_create`, or the background worker. -/
def publish (s : CommitState) : Option Placement → CommitState
  | none => s
  | some placementOut =>
    if s.file.pending then
      { s with
        file := backfill s.file placementOut
        confirmed := s.confirmed ||
          (placementOut = .inline && s.file.layout.placement = .inline) }
    else s

/-- `powerfs_migrate_inline_out`. -/
def migrate (env : MigrateEnv) (s : CommitState) : Except Errno CommitState :=
  match migrateFile env s.file with
  | .ok file => .ok { s with file, onVolume := s.file.layout.inlineData }
  | .error err => .error err

def setAligned (s : CommitState) : CommitState :=
  { s with file := { s.file with layoutAligned := true } }

def setDirty (s : CommitState) (dirty : Bool) : CommitState :=
  { s with file := { s.file with layout := { s.file.layout with inlineDirty := dirty } } }

end CommitState

structure AlignEnv where
  batch : Option Placement
  migrate : MigrateEnv

/-- `powerfs_align_inline_before_commit`; the result says whether the data was migrated. -/
def alignInlineBeforeCommit (env : AlignEnv) (s : CommitState) :
    Except Errno Bool × CommitState :=
  if s.file.layoutAligned ∨ s.file.layout.inlineDirty = false ∨ s.file.inlineLen = 0 then
    (.ok false, s)
  else if s.file.layout.placement ≠ .inline ∧ s.file.layout.volumeId ≠ 0 then (.ok false, s)
  else
    let s := if s.file.layout.placement = .inline then s.publish env.batch else s
    if s.file.layoutAligned then (.ok false, s)
    else if s.file.layout.placement ≠ .inline ∧ s.file.layout.volumeId ≠ 0 then (.ok false, s)
    else if s.file.layout.placement ≠ .inline then
      match s.setAligned.migrate env.migrate with
      | .ok s => (.ok true, s)
      | .error err => (.error err, s.setAligned)
    else (.error .eagain, s)

/-- Memory for the snapshot, and the result of the update RPC (after all attempts). -/
structure UpdateEnv where
  snapshot : Bool
  update : Except Errno Unit

/-- The commit of the inline payload, as `powerfs_fsync`, `powerfs_file_release` and
`powerfs_cap_flush` do it. -/
def commitInline (env : UpdateEnv) (s : CommitState) : Except Errno Unit × CommitState :=
  match s.file.layout.inlineData with
  | none | some [] => (.ok (), s.setDirty false)
  | some (b :: data) =>
    if !env.snapshot then (.error .enomem, s)
    else
      match env.update with
      | .error err => (.error err, s)
      | .ok _ => (.ok (), { s.setDirty false with acked := some (b :: data) })

structure CapFlushEnv where
  align : AlignEnv
  commit : UpdateEnv

/-- The inline step of `powerfs_cap_flush`. -/
def capFlushInline (env : CapFlushEnv) (s : CommitState) : CommitState :=
  if s.file.layout.placement = .inline ∧ s.file.layout.inlineDirty = true then
    match alignInlineBeforeCommit env.align s with
    | (.error _, s) => s.setDirty true
    | (.ok true, s) => s
    | (.ok false, s) =>
      match commitInline env.commit s with
      | (.ok _, s) => s
      | (.error _, s) => s.setDirty true
  else s

/-- What `powerfs_fsync` gets from outside: the flush of the capabilities, the publication of the
create, the writeback, the alignment and the commits. -/
structure FsyncEnv where
  flush : Option CapFlushEnv
  batch : Option Placement
  writeback : Except Errno Unit
  align : AlignEnv
  commit : UpdateEnv
  sizeChunks : Except Errno Unit

/-- The file after the capabilities were flushed and the create was published. -/
def fsyncPrepare (env : FsyncEnv) (s : CommitState) : CommitState :=
  (env.flush.elim s fun flush => capFlushInline flush s).publish env.batch

/-- `powerfs_fsync`. -/
def fsync (env : FsyncEnv) (s : CommitState) : Except Errno Unit × CommitState :=
  let s := fsyncPrepare env s
  match env.writeback with
  | .error err => (.error err, s)
  | .ok _ =>
    match alignInlineBeforeCommit env.align s with
    | (.error err, s) => (.error err, s)
    | (.ok _, s) =>
      if s.file.layout.placement = .inline ∧ s.file.layout.inlineDirty = true then
        commitInline env.commit s
      else if 0 < s.file.iSize ∧ s.file.layout.placement ≠ .inline then (env.sizeChunks, s)
      else (.ok (), s)

structure CloseEnv where
  batch : Option Placement
  align : AlignEnv
  commit : UpdateEnv

/-- `powerfs_file_release`. -/
def fileRelease (env : CloseEnv) (s : CommitState) : CommitState :=
  match alignInlineBeforeCommit env.align (s.publish env.batch) with
  | (.error _, s) => s
  | (.ok _, s) =>
    if s.file.layout.placement = .inline ∧ s.file.layout.inlineDirty = true then
      (commitInline env.commit s).2
    else s

/-- `powerfs_write_end`. -/
def writeStaged (env : StageEnv) (s : CommitState) (pos : Nat) (bytes : List UInt8) :
    CommitState :=
  match stageWrite env s.file pos bytes with
  | (_, false, file) => { s with file }
  | (_, true, file) =>
    match ({ s with file } : CommitState).migrate env.migrate with
    | .ok s => s
    | .error _ => { s with file }

/-- What happens to a file from its create on. -/
inductive CommitEvent where
  | publish (placementOut : Placement)
  | write (env : StageEnv) (pos : Nat) (bytes : List UInt8)
  | align (env : AlignEnv)
  | capFlush (env : CapFlushEnv)
  | fsync (env : FsyncEnv)
  | close (env : CloseEnv)

def commitStep (s : CommitState) : CommitEvent → CommitState
  | .publish placementOut => s.publish (some placementOut)
  | .write env pos bytes => writeStaged env s pos bytes
  | .align env => (alignInlineBeforeCommit env s).2
  | .capFlush env => capFlushInline env s
  | .fsync env => (fsync env s).2
  | .close env => fileRelease env s

def commitExec (s : CommitState) (e : CommitEvent) : Option CommitState := some (commitStep s e)

def CommitInit (s : CommitState) : Prop := ∃ queued, s = .created queued

/-- `layout_aligned` is set only if the Filer has confirmed Inline or the buffer has gone to a
volume. -/
def AlignSound (s : CommitState) : Prop :=
  s.file.layoutAligned = true → s.confirmed = true ∨ s.onVolume.isSome = true

def NeedsMigration (s : CommitState) : Prop :=
  s.file.layoutAligned = false ∧ s.file.layout.inlineDirty = true ∧ 0 < s.file.inlineLen ∧
    s.file.layout.placement ≠ .inline ∧ s.file.layout.volumeId = 0

/-- Memory, the Filer and the volume do their part. -/
def MigrationWorks (env : MigrateEnv) : Prop :=
  env.snapshot = true ∧ (∃ alloc, env.reply = .ok alloc) ∧ env.write = .ok ()

/-- The file as an alignment finds it after it has published the create. -/
def alignSees (env : AlignEnv) (s : CommitState) : CommitState :=
  if s.file.layout.placement = .inline then s.publish env.batch else s

def AlignCallOk (env : AlignEnv) (s : CommitState) : Prop :=
  NeedsMigration (alignSees env s) → MigrationWorks env.migrate

def CapFlushOk (env : CapFlushEnv) (s : CommitState) : Prop :=
  s.file.layout.placement = .inline ∧ s.file.layout.inlineDirty = true → AlignCallOk env.align s

def AlignOk (s : CommitState) : CommitEvent → Prop
  | .publish _ | .write _ _ _ => True
  | .align env => AlignCallOk env s
  | .capFlush env => CapFlushOk env s
  | .fsync env =>
    (∀ flush, env.flush = some flush → CapFlushOk flush s) ∧
      (env.writeback = .ok () → AlignCallOk env.align (fsyncPrepare env s))
  | .close env => AlignCallOk env.align (s.publish env.batch)

/-! ### Where the staged data can be -/

/-- In the buffer, with `layout_aligned` set exactly after the Filer's confirmation. -/
structure Waiting (s : CommitState) : Prop where
  unmigrated : Unmigrated s.file
  aligned : s.file.layoutAligned = s.confirmed
  inline : s.confirmed = true → s.file.layout.placement = .inline ∧ s.file.pending = false
  published : s.file.layout.placement ≠ .inline → s.file.pending = false
  volume : s.onVolume = none

/-- On a volume. -/
structure Moved (s : CommitState) : Prop where
  migrated : Migrated s.file
  volume : s.onVolume.isSome = true

/-- In the buffer of a file that is taken to be migrated: nothing will commit it. -/
structure Stranded (s : CommitState) : Prop where
  placement : s.file.layout.placement ≠ .inline
  aligned : s.file.layoutAligned = true
  pending : s.file.pending = false
  unconfirmed : s.confirmed = false
  volume : s.onVolume = none

variable {s : CommitState}

theorem Waiting.sound (h : Waiting s) : AlignSound s := by
  intro haligned
  exact .inl (h.aligned ▸ haligned)

theorem Moved.sound (h : Moved s) : AlignSound s := fun _ => .inr h.volume

theorem Stranded.not_sound (h : Stranded s) : ¬ AlignSound s := by
  intro hsound
  obtain hconf | hvol := hsound h.aligned
  · rw [h.unconfirmed] at hconf
    cases hconf
  · rw [h.volume] at hvol
    cases hvol

/-- A step that strands waiting data exactly if `ok` fails. -/
structure Moves (ok : Prop) (s s' : CommitState) : Prop where
  waiting : Waiting s → ok ∧ (Waiting s' ∨ Moved s') ∨ ¬ ok ∧ Stranded s'
  moved : Moved s → ok ∧ Moved s'
  stranded : Stranded s → Stranded s'

variable {ok : Prop} {s' : CommitState}

theorem Moves.trans {ok' : Prop} {s s'' : CommitState} (h : Moves ok s s')
    (h' : Moves ok' s' s'') : Moves (ok ∧ ok') s s'' := by
  refine ⟨fun hw => ?_, fun hm => ?_, fun hs => h'.stranded (h.stranded hs)⟩
  · obtain ⟨hok, hw' | hm'⟩ | ⟨hok, hs'⟩ := h.waiting hw
    · obtain ⟨hok', hend⟩ | ⟨hok', hend⟩ := h'.waiting hw'
      · exact .inl ⟨⟨hok, hok'⟩, hend⟩
      · exact .inr ⟨fun hall => hok' hall.2, hend⟩
    · obtain ⟨hok', hend⟩ := h'.moved hm'
      exact .inl ⟨⟨hok, hok'⟩, .inr hend⟩
    · exact .inr ⟨fun hall => hok hall.1, h'.stranded hs'⟩
  · obtain ⟨hok, hm'⟩ := h.moved hm
    obtain ⟨hok', hm''⟩ := h'.moved hm'
    exact ⟨⟨hok, hok'⟩, hm''⟩

theorem Moves.kept {s : CommitState} (h : Moves ok s s') (hok : ok)
    (hs : Waiting s ∨ Moved s) : Waiting s' ∨ Moved s' := by
  obtain hw | hm := hs
  · obtain ⟨-, hend⟩ | ⟨hno, -⟩ := h.waiting hw
    · exact hend
    · exact absurd hok hno
  · exact .inr (h.moved hm).2

theorem Moves.of_iff {ok' : Prop} {s : CommitState} (h : Moves ok s s') (hiff : ok ↔ ok') :
    Moves ok' s s' :=
  propext hiff ▸ h

theorem Moves.refl (s : CommitState) : Moves True s s :=
  ⟨fun hw => .inl ⟨trivial, .inl hw⟩, fun hm => ⟨trivial, hm⟩, id⟩

theorem moves_publish (s : CommitState) (batch : Option Placement) :
    Moves True s (s.publish batch) := by
  cases batch with
  | none => exact .refl s
  | some placementOut =>
    rw [CommitState.publish]
    split
    case isFalse => exact .refl s
    case isTrue hpending =>
      refine ⟨fun hw => .inl ⟨trivial, .inl ?_⟩, fun hm => ⟨trivial, ?_⟩, fun hs => ?_⟩
      · have hinline : s.file.layout.placement = .inline := by
          by_contra hne
          rw [hw.published hne] at hpending
          cases hpending
        have hunconf : s.confirmed = false := by
          cases hconf : s.confirmed with
          | false => rfl
          | true =>
            rw [(hw.inline hconf).2] at hpending
            cases hpending
        obtain ⟨hvolume, hkey, hvolumes, hbuf⟩ := hw.unmigrated
        by_cases hout : placementOut = .inline
        · simp only [backfill, hout, hinline]
          exact ⟨⟨hvolume, hkey, hvolumes, hbuf⟩, by simp, fun _ => ⟨hinline, rfl⟩,
            fun _ => rfl, hw.volume⟩
        · simp only [backfill, hout, ne_eq, hunconf]
          exact ⟨⟨hvolume, hkey, hvolumes, hbuf⟩, hw.aligned.trans hunconf, Bool.noConfusion,
            fun _ => rfl, hw.volume⟩
      · refine ⟨?_, hm.volume⟩
        have hplacement := hm.migrated.placement
        by_cases hout : placementOut = .inline
        · simp only [backfill, hout, hplacement]
          exact ⟨hplacement, hm.migrated.aligned, hm.migrated.clean⟩
        · simp only [backfill, hout, ne_eq]
          exact ⟨hout, hm.migrated.aligned, hm.migrated.clean⟩
      · rw [hs.pending] at hpending
        cases hpending

/-! ### Alignment -/

theorem publish_frame (s : CommitState) (batch : Option Placement) :
    (s.publish batch).file.layout.inlineData = s.file.layout.inlineData ∧
      (s.publish batch).file.layout.inlineDirty = s.file.layout.inlineDirty ∧
      (s.publish batch).acked = s.acked ∧ (s.publish batch).onVolume = s.onVolume := by
  cases batch with
  | none => exact ⟨rfl, rfl, rfl, rfl⟩
  | some placementOut =>
    simp only [CommitState.publish, backfill]
    repeat' split
    all_goals exact ⟨rfl, rfl, rfl, rfl⟩

theorem alignSees_frame (env : AlignEnv) (s : CommitState) :
    (alignSees env s).file.layout.inlineData = s.file.layout.inlineData ∧
      (alignSees env s).file.layout.inlineDirty = s.file.layout.inlineDirty ∧
      (alignSees env s).acked = s.acked ∧ (alignSees env s).onVolume = s.onVolume := by
  rw [alignSees]
  split
  · exact publish_frame s env.batch
  · exact ⟨rfl, rfl, rfl, rfl⟩

theorem moves_alignSees (env : AlignEnv) (s : CommitState) : Moves True s (alignSees env s) := by
  rw [alignSees]
  split
  · exact moves_publish s env.batch
  · exact .refl s

/-- Data waits in the buffer of a file whose placement is not settled. -/
def Unsettled (s : CommitState) : Prop :=
  s.file.layoutAligned = false ∧ s.file.layout.inlineDirty = true ∧ 0 < s.file.inlineLen

theorem Unsettled.sees (h : Unsettled s) (env : AlignEnv) :
    (alignSees env s).file.layout.inlineDirty = true ∧ 0 < (alignSees env s).file.inlineLen := by
  obtain ⟨hdata, hdirty, -, -⟩ := alignSees_frame env s
  rw [InlineFile.inlineLen, hdata, hdirty]
  exact h.2

inductive AlignCase (env : AlignEnv) (s : CommitState) : Except Errno Bool × CommitState → Prop
  | idle : ¬ Unsettled s ∨ s.file.layout.volumeId ≠ 0 → AlignCase env s (.ok false, s)
  | settled : Unsettled s →
      (alignSees env s).file.layoutAligned = true ∨ (alignSees env s).file.layout.volumeId ≠ 0 →
      AlignCase env s (.ok false, alignSees env s)
  | migrated {s' : CommitState} : NeedsMigration (alignSees env s) →
      (alignSees env s).setAligned.migrate env.migrate = .ok s' → AlignCase env s (.ok true, s')
  | failed {err : Errno} : NeedsMigration (alignSees env s) →
      (alignSees env s).setAligned.migrate env.migrate = .error err →
      AlignCase env s (.error err, (alignSees env s).setAligned)
  | unpublished : Unsettled (alignSees env s) →
      (alignSees env s).file.layout.placement = .inline →
      AlignCase env s (.error .eagain, alignSees env s)

theorem alignCase (env : AlignEnv) (s : CommitState) :
    AlignCase env s (alignInlineBeforeCommit env s) := by
  rw [alignInlineBeforeCommit]
  split
  case isTrue hidle =>
    refine .idle (.inl fun h => ?_)
    obtain haligned | hclean | hempty := hidle
    · rw [h.1] at haligned
      cases haligned
    · rw [h.2.1] at hclean
      cases hclean
    · exact absurd hempty (Nat.ne_of_gt h.2.2)
  case isFalse hidle =>
    have hun : Unsettled s := by
      refine ⟨?_, ?_, ?_⟩
      · exact Bool.eq_false_iff.mpr fun h => hidle (.inl h)
      · exact Bool.not_eq_false _ ▸ fun h => hidle (.inr (.inl h))
      · exact Nat.pos_of_ne_zero fun h => hidle (.inr (.inr h))
    obtain ⟨hdirty, hlen⟩ := hun.sees env
    split
    case isTrue hvol => exact .idle (.inr hvol.2)
    case isFalse =>
      simp only [show (if s.file.layout.placement = .inline then s.publish env.batch else s) =
        alignSees env s from rfl]
      split
      case isTrue haligned => exact .settled hun (.inl haligned)
      case isFalse haligned =>
        have haligned := Bool.eq_false_iff.mpr haligned
        split
        case isTrue hvol => exact .settled hun (.inr hvol.2)
        case isFalse hvol =>
          split
          case isTrue hplacement =>
            have hneeds : NeedsMigration (alignSees env s) := by
              refine ⟨haligned, hdirty, hlen, hplacement, ?_⟩
              by_contra hne
              exact hvol ⟨hplacement, hne⟩
            split
            case h_1 s' hmig => exact .migrated hneeds hmig
            case h_2 err hmig => exact .failed hneeds hmig
          case isFalse hplacement =>
            exact .unpublished ⟨haligned, hdirty, hlen⟩ (not_not.mp hplacement)

theorem migrateInlineOut_works {env : MigrateEnv} {pi : Inode} {data : List UInt8}
    (hdata : pi.inlineData = some data) (hne : data ≠ []) :
    (∃ pi', migrateInlineOut env pi = .ok pi') ↔ MigrationWorks env := by
  obtain ⟨snapshot, reply, write, arrays⟩ := env
  obtain ⟨b, data, rfl⟩ := List.exists_cons_of_ne_nil hne
  simp only [migrateInlineOut, hdata, MigrationWorks]
  cases snapshot <;> rcases reply with err | alloc <;> rcases write with err | ⟨⟨⟩⟩ <;>
    simp [bind, Except.bind, pure, Except.pure]

theorem CommitState.migrate_works (hlen : 0 < s.file.inlineLen)
    (env : MigrateEnv) : (∃ s', s.migrate env = .ok s') ↔ MigrationWorks env := by
  obtain ⟨data, hdata, hne⟩ := InlineFile.data_of_inlineLen hlen
  rw [← migrateInlineOut_works hdata hne]
  simp only [CommitState.migrate, migrateFile]
  cases migrateInlineOut env s.file.layout with
  | ok layout => simp
  | error err => simp

theorem CommitState.migrate_eq_ok {s : CommitState} {env : MigrateEnv}
    (h : s.migrate env = .ok s') :
    Moved s' ∧ s'.onVolume = s.file.layout.inlineData ∧ s'.acked = s.acked := by
  rw [CommitState.migrate] at h
  split at h <;> cases h
  rename_i file hfile
  have hmigrated := migrated_of_migrateFile hfile
  rw [migrateFile] at hfile
  split at hfile <;> cases hfile
  rename_i layout hlayout
  obtain ⟨data, -, hdata, -⟩ := migrateInlineOut_eq_ok hlayout
  exact ⟨⟨hmigrated, by simp [hdata]⟩, rfl, rfl⟩

/-- `layout_aligned` is never taken back. -/
theorem alignSees_aligned (h : s.file.layoutAligned = true) (env : AlignEnv) :
    (alignSees env s).file.layoutAligned = true := by
  rw [alignSees]
  split
  · cases env.batch with
    | none => exact h
    | some placementOut =>
      simp only [CommitState.publish, backfill]
      repeat' split
      all_goals first | exact h | rfl
  · exact h

variable {env : AlignEnv}

theorem unsettled_of_needsMigration (h : NeedsMigration (alignSees env s)) : Unsettled s := by
  obtain ⟨hdata, hdirty, -, -⟩ := alignSees_frame env s
  obtain ⟨haligned, hdirty', hlen, -, -⟩ := h
  refine ⟨?_, hdirty ▸ hdirty', ?_⟩
  · cases hs : s.file.layoutAligned with
    | false => rfl
    | true =>
      rw [alignSees_aligned hs env] at haligned
      cases haligned
  · rwa [InlineFile.inlineLen, hdata] at hlen

theorem align_of_aligned (h : s.file.layoutAligned = true) (env : AlignEnv) :
    AlignCallOk env s ∧ alignInlineBeforeCommit env s = (.ok false, s) := by
  refine ⟨fun hneeds => ?_, if_pos (.inl h)⟩
  rw [(unsettled_of_needsMigration hneeds).1] at h
  cases h

theorem moves_align (env : AlignEnv) (s : CommitState) :
    Moves (AlignCallOk env s) s (alignInlineBeforeCommit env s).2 := by
  have hsees := moves_alignSees env s
  have hframe := alignSees_frame env s
  refine ⟨fun hw => ?_, fun hm => ?_, fun hs => ?_⟩
  · -- Whatever the publication brings, the data still waits when the alignment looks again.
    have hw' : Waiting (alignSees env s) := by
      obtain ⟨-, hw' | hm'⟩ | ⟨hno, -⟩ := hsees.waiting hw
      · exact hw'
      · have := hm'.volume
        rw [hframe.2.2.2, hw.volume] at this
        cases this
      · exact absurd trivial hno
    have hvolume := hw'.unmigrated.volume
    have hcase := alignCase env s
    generalize alignInlineBeforeCommit env s = res at hcase ⊢
    cases hcase with
    | idle hidle =>
      refine .inl ⟨fun hneeds => ?_, .inl hw⟩
      obtain hsettled | hvol := hidle
      · exact absurd (unsettled_of_needsMigration hneeds) hsettled
      · exact absurd hw.unmigrated.volume hvol
    | settled hun haligned =>
      refine .inl ⟨fun hneeds => ?_, .inl hw'⟩
      obtain haligned | hvol := haligned
      · rw [hneeds.1] at haligned
        cases haligned
      · exact absurd hvolume hvol
    | migrated hneeds hmig =>
      have hlen : 0 < (alignSees env s).setAligned.file.inlineLen := hneeds.2.2.1
      have hworks := (CommitState.migrate_works hlen env.migrate).mp ⟨_, hmig⟩
      exact .inl ⟨fun _ => hworks, .inr (CommitState.migrate_eq_ok hmig).1⟩
    | failed hneeds hmig =>
      have hlen : 0 < (alignSees env s).setAligned.file.inlineLen := hneeds.2.2.1
      have hplacement := hneeds.2.2.2.1
      refine .inr ⟨fun hok => ?_, hplacement, rfl, hw'.published hplacement, ?_, hw'.volume⟩
      · obtain ⟨s', hs'⟩ := (CommitState.migrate_works hlen env.migrate).mpr (hok hneeds)
        rw [hmig] at hs'
        cases hs'
      · exact hw'.aligned.symm.trans hneeds.1
    | unpublished hun hplacement =>
      exact .inl ⟨fun hneeds => absurd hplacement hneeds.2.2.2.1, .inl hw'⟩
  · obtain ⟨hok, halign⟩ := align_of_aligned hm.migrated.aligned env
    rw [halign]
    exact ⟨hok, hm⟩
  · rw [(align_of_aligned hs.aligned env).2]
    exact hs

theorem Waiting.inline_of_align {s : CommitState} {moved : Bool}
    (h : Waiting s) (halign : alignInlineBeforeCommit env s = (.ok moved, s')) (h' : Waiting s')
    (hdirty : s'.file.layout.inlineDirty = true) : s'.file.layout.placement = .inline := by
  have haligned : s'.file.layoutAligned = true → s'.file.layout.placement = .inline :=
    fun haligned => (h'.inline (h'.aligned ▸ haligned)).1
  have hcase := alignCase env s
  rw [halign] at hcase
  cases hcase with
  | idle hidle =>
    obtain hsettled | hvol := hidle
    · apply haligned
      by_contra hne
      exact hsettled ⟨Bool.eq_false_iff.mpr hne, hdirty, h.unmigrated.buffered hdirty⟩
    · exact absurd h.unmigrated.volume hvol
  | settled hun hset =>
    obtain hset | hvol := hset
    · exact haligned hset
    · exact absurd h'.unmigrated.volume hvol
  | migrated hneeds hmig =>
    rw [(CommitState.migrate_eq_ok hmig).1.migrated.clean] at hdirty
    cases hdirty

/-! ### Commits -/

theorem Waiting.setDirty (h : Waiting s) (dirty : Bool)
    (hlen : dirty = true → 0 < s.file.inlineLen) : Waiting (s.setDirty dirty) :=
  ⟨⟨h.unmigrated.volume, h.unmigrated.key, h.unmigrated.volumes, hlen⟩, h.aligned, h.inline,
    h.published, h.volume⟩

theorem moves_commitInline (env : UpdateEnv) (s : CommitState) :
    Moves True s (commitInline env s).2 := by
  have hclean : ∀ acked, Moves True s { s.setDirty false with acked } := by
    intro acked
    refine ⟨fun hw => .inl ⟨trivial, .inl ?_⟩, fun hm => ⟨trivial, ?_⟩, fun hs => ?_⟩
    · obtain ⟨hun, haligned, hinline, hpub, hvol⟩ := hw.setDirty false Bool.noConfusion
      exact ⟨hun, haligned, hinline, hpub, hvol⟩
    · exact ⟨⟨hm.migrated.placement, hm.migrated.aligned, rfl⟩, hm.volume⟩
    · exact ⟨hs.placement, hs.aligned, hs.pending, hs.unconfirmed, hs.volume⟩
  rw [commitInline]
  split
  · exact hclean s.acked
  · exact hclean s.acked
  · split
    · exact .refl s
    · split
      · exact .refl s
      · exact hclean _

theorem commitInline_error {env : UpdateEnv} {s : CommitState} {err : Errno}
    (h : commitInline env s = (.error err, s')) : s' = s := by
  rw [commitInline] at h
  split at h
  · cases h
  · cases h
  · split at h
    · cases h
      rfl
    · split at h <;> cases h
      rfl

theorem align_dirty {s : CommitState} {ret : Except Errno Bool}
    (h : alignInlineBeforeCommit env s = (ret, s')) (hret : ret ≠ .ok true) :
    s'.file.layout.inlineDirty = s.file.layout.inlineDirty := by
  have hsees := (alignSees_frame env s).2.1
  have hcase := alignCase env s
  rw [h] at hcase
  cases hcase with
  | idle => rfl
  | settled | failed | unpublished => exact hsees
  | migrated => exact absurd rfl hret

theorem setDirty_self (h : s.file.layout.inlineDirty = true) :
    s.setDirty true = s := by
  rw [CommitState.setDirty, ← h]

/-- The ways the inline step of a flush can end. A step that fails leaves the file dirty. -/
inductive CapFlushCase (env : CapFlushEnv) (s : CommitState) : CommitState → Prop
  | skipped : ¬ (s.file.layout.placement = .inline ∧ s.file.layout.inlineDirty = true) →
      CapFlushCase env s s
  | aligned : s.file.layout.placement = .inline ∧ s.file.layout.inlineDirty = true →
      CapFlushCase env s (alignInlineBeforeCommit env.align s).2
  | committed {s' : CommitState} :
      s.file.layout.placement = .inline ∧ s.file.layout.inlineDirty = true →
      alignInlineBeforeCommit env.align s = (.ok false, s') →
      s'.file.layout.inlineDirty = true → CapFlushCase env s (commitInline env.commit s').2

theorem capFlushCase (env : CapFlushEnv) (s : CommitState) :
    CapFlushCase env s (capFlushInline env s) := by
  rw [capFlushInline]
  split
  case isFalse hskip => exact .skipped hskip
  case isTrue hflush =>
    have hdirty : ∀ {ret s'}, alignInlineBeforeCommit env.align s = (ret, s') → ret ≠ .ok true →
        s'.file.layout.inlineDirty = true := by
      intro ret s' hres hret
      rw [align_dirty hres hret]
      exact hflush.2
    have haligned : CapFlushCase env s (alignInlineBeforeCommit env.align s).2 := .aligned hflush
    split
    case h_1 err s' hres =>
      rw [setDirty_self (hdirty hres (by simp))]
      rwa [hres] at haligned
    case h_2 s' hres => rwa [hres] at haligned
    case h_3 s' hres =>
      have hdirty' := hdirty hres (by simp)
      have hcommitted : CapFlushCase env s (commitInline env.commit s').2 :=
        .committed hflush hres hdirty'
      split
      case h_1 u s'' hcommit => rwa [hcommit] at hcommitted
      case h_2 err s'' hcommit =>
        rw [hcommit] at hcommitted
        rw [commitInline_error hcommit] at hcommitted ⊢
        rwa [setDirty_self hdirty']

theorem moves_capFlush (env : CapFlushEnv) (s : CommitState) :
    Moves (CapFlushOk env s) s (capFlushInline env s) := by
  have halign := moves_align env.align s
  have hcase := capFlushCase env s
  generalize capFlushInline env s = s'' at hcase ⊢
  cases hcase with
  | skipped hskip => exact (Moves.refl s).of_iff (iff_of_true trivial fun h => absurd h hskip)
  | aligned hflush => exact halign.of_iff ⟨fun h _ => h, fun h => h hflush⟩
  | @committed s' hflush hres _ =>
    rw [hres] at halign
    refine (halign.trans (moves_commitInline env.commit s')).of_iff ?_
    exact ⟨fun h _ => h.1, fun h => ⟨h hflush, trivial⟩⟩

theorem moves_fsyncPrepare (env : FsyncEnv) (s : CommitState) :
    Moves (∀ flush, env.flush = some flush → CapFlushOk flush s) s (fsyncPrepare env s) := by
  rw [fsyncPrepare]
  cases env.flush with
  | none => exact (moves_publish s env.batch).of_iff (by simp)
  | some flush =>
    exact ((moves_capFlush flush s).trans (moves_publish _ env.batch)).of_iff (by simp)

inductive FsyncCase (env : FsyncEnv) (s : CommitState) : Except Errno Unit × CommitState → Prop
  | unwritten {err : Errno} : env.writeback = .error err →
      FsyncCase env s (.error err, fsyncPrepare env s)
  | unaligned {err : Errno} {s' : CommitState} : env.writeback = .ok () →
      alignInlineBeforeCommit env.align (fsyncPrepare env s) = (.error err, s') →
      FsyncCase env s (.error err, s')
  | committed {moved : Bool} {s' : CommitState} : env.writeback = .ok () →
      alignInlineBeforeCommit env.align (fsyncPrepare env s) = (.ok moved, s') →
      s'.file.layout.placement = .inline ∧ s'.file.layout.inlineDirty = true →
      FsyncCase env s (commitInline env.commit s')
  | passed {moved : Bool} {s' : CommitState} (ret : Except Errno Unit) : env.writeback = .ok () →
      alignInlineBeforeCommit env.align (fsyncPrepare env s) = (.ok moved, s') →
      ¬ (s'.file.layout.placement = .inline ∧ s'.file.layout.inlineDirty = true) →
      FsyncCase env s (ret, s')

theorem fsyncCase (env : FsyncEnv) (s : CommitState) : FsyncCase env s (fsync env s) := by
  rw [fsync]
  split
  case h_1 err hwb => exact .unwritten hwb
  case h_2 hwb =>
    split
    case h_1 err s' hres => exact .unaligned hwb hres
    case h_2 moved s' hres =>
      split
      case isTrue hdirty => exact .committed hwb hres hdirty
      case isFalse hclean =>
        split
        · exact .passed env.sizeChunks hwb hres hclean
        · exact .passed (.ok ()) hwb hres hclean

theorem moves_fsync (env : FsyncEnv) (s : CommitState) :
    Moves (AlignOk s (.fsync env)) s (fsync env s).2 := by
  have hprep := moves_fsyncPrepare env s
  have halign : env.writeback = .ok () → Moves (AlignOk s (.fsync env)) s
      (alignInlineBeforeCommit env.align (fsyncPrepare env s)).2 := fun hwb =>
    (hprep.trans (moves_align env.align (fsyncPrepare env s))).of_iff (by simp [AlignOk, hwb])
  have hcase := fsyncCase env s
  generalize fsync env s = res at hcase ⊢
  cases hcase with
  | unwritten hwb => exact hprep.of_iff (by simp [AlignOk, hwb])
  | unaligned hwb hres | passed _ hwb hres =>
    have halign := halign hwb
    rwa [hres] at halign
  | @committed _ s' hwb hres _ =>
    have halign := halign hwb
    rw [hres] at halign
    exact (halign.trans (moves_commitInline env.commit s')).of_iff (by rw [and_true])

theorem moves_close (env : CloseEnv) (s : CommitState) :
    Moves (AlignOk s (.close env)) s (fileRelease env s) := by
  have halign : Moves (AlignCallOk env.align (s.publish env.batch)) s
      (alignInlineBeforeCommit env.align (s.publish env.batch)).2 :=
    ((moves_publish s env.batch).trans (moves_align env.align _)).of_iff (by rw [true_and])
  rw [fileRelease]
  simp only [AlignOk]
  generalize alignInlineBeforeCommit env.align (s.publish env.batch) = res at halign ⊢
  obtain ⟨ret, s'⟩ := res
  rcases ret with err | moved
  · exact halign
  · simp only
    split
    · exact (halign.trans (moves_commitInline env.commit s')).of_iff (by rw [and_true])
    · exact halign

theorem moves_write (env : StageEnv) (s : CommitState) (pos : Nat) (bytes : List UInt8) :
    Moves True s (writeStaged env s pos bytes) := by
  -- A file whose placement is settled and not Inline only gets a new size.
  have hsettled : s.file.layout.placement ≠ .inline → s.file.layoutAligned = true →
      ∃ size, writeStaged env s pos bytes = { s with file := { s.file with iSize := size } } := by
    intro hplacement haligned
    obtain ⟨ret, size, hstage⟩ := stageWrite_settled hplacement haligned env pos bytes
    exact ⟨size, by rw [writeStaged, hstage]⟩
  refine ⟨fun hw => .inl ⟨trivial, ?_⟩, fun hm => ⟨trivial, ?_⟩, fun hs => ?_⟩
  · obtain ⟨hsame, -⟩ := stageWrite_cases env s.file pos bytes
    rw [writeStaged]
    generalize stageWrite env s.file pos bytes = res at hsame ⊢
    obtain ⟨ret, tooLong, file⟩ := res
    have hw' : Waiting { s with file } := by
      refine ⟨hw.unmigrated.same hsame, hsame.aligned.trans hw.aligned, ?_, ?_, hw.volume⟩
      · intro hconf
        obtain ⟨hinline, hpending⟩ := hw.inline hconf
        exact ⟨hsame.placement.trans hinline, hsame.pending.trans hpending⟩
      · intro hplacement
        exact hsame.pending.trans (hw.published (hsame.placement ▸ hplacement))
    cases tooLong with
    | false => exact .inl hw'
    | true =>
      simp only
      split
      case h_1 s' hmig => exact .inr (CommitState.migrate_eq_ok hmig).1
      case h_2 => exact .inl hw'
  · obtain ⟨size, hwrite⟩ := hsettled hm.migrated.placement hm.migrated.aligned
    rw [hwrite]
    exact ⟨⟨hm.migrated.placement, hm.migrated.aligned, hm.migrated.clean⟩, hm.volume⟩
  · obtain ⟨size, hwrite⟩ := hsettled hs.placement hs.aligned
    rw [hwrite]
    exact ⟨hs.placement, hs.aligned, hs.pending, hs.unconfirmed, hs.volume⟩

theorem moves_step (s : CommitState) (e : CommitEvent) :
    Moves (AlignOk s e) s (commitStep s e) := by
  cases e with
  | publish placementOut => exact moves_publish s (some placementOut)
  | write env pos bytes => exact moves_write env s pos bytes
  | align env => exact moves_align env s
  | capFlush env => exact moves_capFlush env s
  | fsync env => exact moves_fsync env s
  | close env => exact moves_close env s

/-! ### What fsync commits -/

/-- The bytes wait in the buffer, or they are committed and nothing else waits. -/
def Carries (data : List UInt8) (s : CommitState) : Prop :=
  s.file.layout.inlineDirty = true ∧ s.file.layout.inlineData = some data ∨
    s.file.layout.inlineDirty = false ∧ (s.acked = some data ∨ s.onVolume = some data)

variable {data : List UInt8} {s : CommitState}

theorem Carries.publish (h : Carries data s) (batch : Option Placement) :
    Carries data (s.publish batch) := by
  obtain ⟨hdata, hdirty, hacked, hvolume⟩ := publish_frame s batch
  rw [Carries, hdata, hdirty, hacked, hvolume]
  exact h

theorem Carries.align (h : Carries data s) (env : AlignEnv) :
    Carries data (alignInlineBeforeCommit env s).2 := by
  have hsees : Carries data (alignSees env s) := by
    obtain ⟨hdata, hdirty, hacked, hvolume⟩ := alignSees_frame env s
    rw [Carries, hdata, hdirty, hacked, hvolume]
    exact h
  have hcase := alignCase env s
  generalize alignInlineBeforeCommit env s = res at hcase ⊢
  cases hcase with
  | idle => exact h
  | settled | failed | unpublished => exact hsees
  | migrated hneeds hmig =>
    obtain ⟨hmoved, hvolume, -⟩ := CommitState.migrate_eq_ok hmig
    obtain ⟨-, hdata⟩ | ⟨hclean, -⟩ := hsees
    · exact .inr ⟨hmoved.migrated.clean, .inr (hvolume.trans hdata)⟩
    · rw [hneeds.2.1] at hclean
      cases hclean

theorem commitInline_carries (env : UpdateEnv) (hne : data ≠ [])
    (hdata : s.file.layout.inlineData = some data) :
    (∃ err, commitInline env s = (.error err, s)) ∨
      ∃ s', commitInline env s = (.ok (), s') ∧ s'.file.layout.inlineDirty = false ∧
        s'.acked = some data := by
  obtain ⟨b, rest, rfl⟩ := List.exists_cons_of_ne_nil hne
  simp only [commitInline, hdata]
  cases env.snapshot with
  | false => exact .inl ⟨_, rfl⟩
  | true =>
    cases env.update with
    | error err => exact .inl ⟨_, rfl⟩
    | ok u => exact .inr ⟨_, rfl, rfl, rfl⟩

theorem Carries.capFlush (h : Carries data s) (hne : data ≠ []) (env : CapFlushEnv) :
    Carries data (capFlushInline env s) := by
  have halign := h.align env.align
  have hcase := capFlushCase env s
  generalize capFlushInline env s = s'' at hcase ⊢
  cases hcase with
  | skipped => exact h
  | aligned => exact halign
  | @committed s' _ hres hdirty =>
    rw [hres] at halign
    obtain ⟨-, hdata⟩ | ⟨hclean, -⟩ := halign
    · obtain ⟨err, hres⟩ | ⟨s'', hres, hclean, hacked⟩ :=
        commitInline_carries env.commit hne hdata
      · rw [hres]
        exact .inl ⟨hdirty, hdata⟩
      · rw [hres]
        exact .inr ⟨hclean, .inl hacked⟩
    · rw [hdirty] at hclean
      cases hclean

theorem Carries.fsyncPrepare (h : Carries data s) (hne : data ≠ []) (env : FsyncEnv) :
    Carries data (fsyncPrepare env s) := by
  rw [Inline.fsyncPrepare]
  cases env.flush with
  | none => exact h.publish env.batch
  | some flush => exact (h.capFlush hne flush).publish env.batch

theorem inline_of_dirty {moved : Bool}
    (hstate : Waiting s ∨ Moved s) (halign : alignInlineBeforeCommit env s = (.ok moved, s'))
    (hstate' : Waiting s' ∨ Moved s') (hdirty : s'.file.layout.inlineDirty = true) :
    s'.file.layout.placement = .inline := by
  have hnot : ¬ Moved s' := by
    intro hmoved
    rw [hmoved.migrated.clean] at hdirty
    cases hdirty
  obtain hwaiting | hmoved := hstate
  · exact hwaiting.inline_of_align halign (hstate'.resolve_right hnot) hdirty
  · rw [(align_of_aligned hmoved.migrated.aligned env).2] at halign
    cases halign
    exact absurd hmoved hnot

theorem fsync_commits {env : FsyncEnv} (hstate : Waiting s ∨ Moved s)
    (hok : AlignOk s (.fsync env)) (hfsync : fsync env s = (.ok (), s'))
    (hdirty : s.file.layout.inlineDirty = true) (hdata : s.file.layout.inlineData = some data)
    (hne : data ≠ []) : s'.acked = some data ∨ s'.onVolume = some data := by
  have hcarries : Carries data s := .inl ⟨hdirty, hdata⟩
  have hcarries := (hcarries.fsyncPrepare hne env).align env.align
  have hstate₁ := (moves_fsyncPrepare env s).kept hok.1 hstate
  have hcase := fsyncCase env s
  generalize fsync env s = res at hcase hfsync
  cases hcase with
  | unwritten => cases hfsync
  | unaligned => cases hfsync
  | @committed _ s₂ _ hres hdirty₂ =>
    rw [hres] at hcarries
    obtain ⟨-, hdata₂⟩ | ⟨hclean, -⟩ := hcarries
    · obtain ⟨err, hcommit⟩ | ⟨s₃, hcommit, -, hacked⟩ :=
        commitInline_carries env.commit hne hdata₂
      · rw [hcommit] at hfsync
        cases hfsync
      · rw [hcommit] at hfsync
        cases hfsync
        exact .inl hacked
    · rw [hdirty₂.2] at hclean
      cases hclean
  | @passed _ s₂ _ hwb hres hskip =>
    obtain ⟨-, rfl⟩ := Prod.mk.inj hfsync
    have hstate₂ := (moves_align env.align (Inline.fsyncPrepare env s)).kept (hok.2 hwb) hstate₁
    rw [hres] at hcarries hstate₂
    obtain ⟨hdirty₂, -⟩ | ⟨-, hdone⟩ := hcarries
    · exact absurd ⟨inline_of_dirty hstate₁ hres hstate₂ hdirty₂, hdirty₂⟩ hskip
    · exact hdone

/-! ### Runs -/

theorem CommitInit.waiting (h : CommitInit s) : Waiting s := by
  obtain ⟨queued, rfl⟩ := h
  refine ⟨⟨rfl, rfl, rfl, ?_⟩, rfl, Bool.noConfusion, fun hne => absurd rfl hne, rfl⟩
  exact fun h => absurd h (by simp [CommitState.created, InlineFile.created, Inode.fresh])

/-- In every run without a failed migration in an alignment, `layout_aligned` is set only after a
confirmation or a migration, and an fsync that returns 0 has committed the staged data. The
condition is exact for `layout_aligned`. -/
theorem alignSound_of_alignOk (s : CommitState) :
    (Runs.Reach (fun s e s' => commitExec s e = some s') AlignOk CommitInit s →
      AlignSound s ∧ ∀ env s' data, AlignOk s (.fsync env) → fsync env s = (.ok (), s') →
        s.file.layout.inlineDirty = true → s.file.layout.inlineData = some data →
        s'.acked = some data ∨ s'.onVolume = some data) ∧
    ∀ e s', Runs.Reach (fun s e s' => commitExec s e = some s') (fun _ _ => True) CommitInit s →
      AlignSound s → commitExec s e = some s' → (AlignSound s' ↔ AlignOk s e) := by
  constructor
  · intro h
    have hstate : Waiting s ∨ Moved s := by
      apply h.invariant (fun _ hinit => .inl hinit.waiting)
      intro s e s' hs hok hstep
      cases hstep
      exact (moves_step s e).kept hok hs
    refine ⟨hstate.elim Waiting.sound Moved.sound, fun env s' data hok hfsync hdirty hdata => ?_⟩
    obtain hw | hm := hstate
    · have hlen := hw.unmigrated.buffered hdirty
      rw [InlineFile.inlineLen, hdata] at hlen
      exact fsync_commits (.inl hw) hok hfsync hdirty hdata (List.length_pos_iff.mp hlen)
    · rw [hm.migrated.clean] at hdirty
      cases hdirty
  · intro e s' h hsound hstep
    have hstate : (Waiting s ∨ Moved s) ∨ Stranded s := by
      apply h.invariant (fun _ hinit => .inl (.inl hinit.waiting))
      intro s e s' hs _ hstep
      cases hstep
      obtain (hw | hm) | hs := hs
      · obtain ⟨-, hend⟩ | ⟨-, hend⟩ := (moves_step s e).waiting hw
        · exact .inl hend
        · exact .inr hend
      · exact .inl (.inr ((moves_step s e).moved hm).2)
      · exact .inr ((moves_step s e).stranded hs)
    cases hstep
    obtain (hw | hm) | hs := hstate
    · obtain ⟨hok, hend⟩ | ⟨hno, hend⟩ := (moves_step s e).waiting hw
      · exact iff_of_true (hend.elim Waiting.sound Moved.sound) hok
      · exact iff_of_false hend.not_sound hno
    · obtain ⟨hok, hend⟩ := (moves_step s e).moved hm
      exact iff_of_true hend.sound hok
    · exact absurd hsound hs.not_sound

def workingMigration : MigrateEnv := ⟨true, .ok (.flat 3 40), .ok (), true⟩

def refusedMigration : MigrateEnv := ⟨true, .error .enospc, .ok (), true⟩

def plainFsync (migrate : MigrateEnv) : FsyncEnv where
  flush := none
  batch := none
  writeback := .ok ()
  align := ⟨none, migrate⟩
  commit := ⟨true, .ok ()⟩
  sizeChunks := .ok ()

def publishedFlatRun : List CommitEvent := [.write quietEnv 0 [7], .publish .flat]

theorem commitInit_created : CommitInit (.created true) := ⟨true, rfl⟩

theorem alignSound_of_alignOk_publishedFlat :
    ∃ s, publishedFlatRun.foldlM commitExec (.created true) = some s ∧
      (fsync (plainFsync workingMigration) s).1 = .ok () ∧
      ((fsync (plainFsync workingMigration) s).2.acked = some [7] ∨
        (fsync (plainFsync workingMigration) s).2.onVolume = some [7]) := by
  obtain ⟨s, hrun, hs⟩ := Option.map_eq_some_iff.mp
    (show (publishedFlatRun.foldlM commitExec (.created true)).map
      (fun s => (s.file.layout.inlineDirty, s.file.layout.inlineData,
        (fsync (plainFsync workingMigration) s).1.isOk)) = some (true, some [7], true) by decide)
  simp only [Prod.mk.injEq] at hs
  obtain ⟨hdirty, hdata, hret⟩ := hs
  have hok : Runs.OkAlong commitExec AlignOk (.created true) publishedFlatRun :=
    ⟨trivial, fun _ _ => ⟨trivial, fun _ _ => trivial⟩⟩
  have hworks : MigrationWorks workingMigration := ⟨rfl, ⟨_, rfl⟩, rfl⟩
  have hfsync : (fsync (plainFsync workingMigration) s).1 = .ok () := by
    cases h : (fsync (plainFsync workingMigration) s).1 with
    | error err =>
      rw [h] at hret
      cases hret
    | ok u => rfl
  refine ⟨s, hrun, hfsync, ?_⟩
  refine ((alignSound_of_alignOk s).1 (.of_run (.start commitInit_created) hok hrun)).2
    (plainFsync workingMigration) _ [7] ⟨?_, fun _ _ => hworks⟩ (Prod.ext hfsync rfl) hdirty hdata
  intro flush hflush
  cases hflush

/-- The same file, where the migration is refused once: the flag is set, and the next fsync
returns 0 with nothing committed. -/
def refusedRun : List CommitEvent :=
  publishedFlatRun ++ [CommitEvent.align ⟨none, refusedMigration⟩]

theorem not_alignSound_refused :
    ∃ s, Runs.Reach (fun s e s' => commitExec s e = some s') (fun _ _ => True) CommitInit s ∧
      ¬ AlignSound s ∧ s.file.layout.inlineDirty = true ∧ s.file.layout.inlineData = some [7] ∧
      (fsync (plainFsync workingMigration) s).1.isOk = true ∧
      (fsync (plainFsync workingMigration) s).2.acked = none ∧
      (fsync (plainFsync workingMigration) s).2.onVolume = none := by
  obtain ⟨s, hrun, hs⟩ := Option.map_eq_some_iff.mp
    (show (refusedRun.foldlM commitExec (.created true)).map
      (fun s => ((s.file.layoutAligned, s.confirmed, s.onVolume),
        s.file.layout.inlineDirty, s.file.layout.inlineData,
        (fsync (plainFsync workingMigration) s).1.isOk,
        (fsync (plainFsync workingMigration) s).2.acked,
        (fsync (plainFsync workingMigration) s).2.onVolume)) =
      some ((true, false, none), true, some [7], true, none, none) from rfl)
  simp only [Prod.mk.injEq] at hs
  obtain ⟨⟨haligned, hconf, hvol⟩, hstaged⟩ := hs
  refine ⟨s, .run commitInit_created hrun, ?_, hstaged⟩
  intro hsound
  obtain h | h := hsound haligned
  · rw [hconf] at h
    cases h
  · rw [hvol] at h
    cases h

end PowerFS.Inline
