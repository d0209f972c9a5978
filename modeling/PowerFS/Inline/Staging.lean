import PowerFS.Layout.Apply
import PowerFS.Layout.Migrate
import PowerFS.Lib.Overlay
import PowerFS.Lib.Runs
import Mathlib.Algebra.Group.Int.Defs

namespace PowerFS.Inline

open Layout Overlay

/-! A file from its optimistic create to the commit of its first writes. Until the Filer has
confirmed the placement, `inline_data` is the staging buffer of all writes, whatever placement the
inode shows. -/

/-- The fields of `powerfs_inode_info` this is about. `pending` says that the create is still on
the `dirty_creates` list of the parent. -/
structure InlineFile where
  layout : Inode
  layoutAligned : Bool
  iSize : Nat
  pending : Bool

/-- The fast path of `powerfs_do_create_core`; `queued` is whether its list entry could be
allocated. -/
def InlineFile.created (queued : Bool) : InlineFile where
  layout :=
    { Inode.fresh with placement := .inline, inlineMaxSize := UInt32.ofNat inlineMaxSize }
  layoutAligned := false
  iSize := 0
  pending := queued

/-- The part of `powerfs_flush_dirty_creates` that takes over the placement of the BatchCreate
response. -/
def backfill (f : InlineFile) (placementOut : Placement) : InlineFile :=
  let f := { f with pending := false }
  if placementOut ≠ .inline then
    { f with layout := { f.layout with placement := placementOut } }
  else if f.layout.placement = .inline then { f with layoutAligned := true }
  else f

/-- `inline_len`. -/
def InlineFile.inlineLen (f : InlineFile) : Nat := (f.layout.inlineData.getD []).length

def InlineFile.setData (f : InlineFile) (data : Option (List UInt8)) : InlineFile :=
  { f with layout := { f.layout with inlineData := data } }

/-- `powerfs_migrate_inline_out`; every way it switches the layout also sets `layout_aligned`. -/
def migrateFile (env : MigrateEnv) (f : InlineFile) : Except Errno InlineFile :=
  match migrateInlineOut env f.layout with
  | .ok layout => .ok { f with layout, layoutAligned := true }
  | .error err => .error err

/-- What `powerfs_write_end` gets from outside: the inline payload in the answer of a getattr
(empty if there is none), memory for a new buffer, and what a migration gets. -/
structure StageEnv where
  recovered : List UInt8
  alloc : Bool
  migrate : MigrateEnv

/-- `buf` filled with zeros up to `n` bytes. -/
def padTo (n : Nat) (buf : List UInt8) : List UInt8 := buf ++ List.replicate (n - buf.length) 0

/-- The buffer section of `powerfs_write_end`: a buffer of at least `need` bytes with the old ones
in it, which come from the Filer if a recall has dropped them. Without memory the old buffer is put
back. -/
def rebuildBuffer (env : StageEnv) (f : InlineFile) (need : Nat) : Bool × InlineFile :=
  if need ≤ f.inlineLen ∧ f.layout.inlineData.isSome then (true, f)
  else
    let old := f.layout.inlineData.or
      (if 0 < f.iSize ∧ env.recovered ≠ [] then some env.recovered else none)
    if env.alloc then
      (true, f.setData (some (padTo (max need (old.getD []).length) (old.getD []))))
    else (false, f.setData old)

def copyIn (f : InlineFile) (pos : Nat) (bytes : List UInt8) : InlineFile :=
  match f.layout.inlineData with
  | some buf =>
    if pos + bytes.length ≤ buf.length then
      { f with
        layout :=
          { f.layout with inlineData := some (overlay buf pos bytes), inlineDirty := true } }
    else f
  | none => f

/-- `min(inline_max_size * 3 / 2, POWERFS_INLINE_MAX_SIZE)`, computed in 32 bits. -/
def migrateThreshold (pi : Inode) : Nat := min (pi.inlineMaxSize * 3 / 2).toNat inlineMaxSize

/-- The bytes of a write that go to the buffer: all, or those below the hard limit. The difference
`POWERFS_INLINE_MAX_SIZE - pos` is cast to `unsigned int`. -/
def stagedBytes (pos : Nat) (bytes : List UInt8) : List UInt8 :=
  if inlineMaxSize < pos + bytes.length then
    bytes.take (((inlineMaxSize : Int) - pos) % 2 ^ 32).toNat
  else bytes

/-- `powerfs_write_end` of a write of `bytes` at `pos`, without the page cache and up to the
migration: its result, whether the buffer has to be migrated, and the file. -/
def stageWrite (env : StageEnv) (f : InlineFile) (pos : Nat) (bytes : List UInt8) :
    Except Errno Nat × Bool × InlineFile :=
  if bytes = [] then (.ok 0, false, f)
  else
    let f := { f with iSize := max f.iSize (pos + bytes.length) }
    if f.layout.placement = .inline ∨ f.layoutAligned = false then
      let copied := stagedBytes pos bytes
      if copied = [] then (.error .efbig, false, f)
      else
        let (enough, f) := rebuildBuffer env f (min (pos + bytes.length) inlineMaxSize)
        if !enough then (.ok copied.length, false, f)
        else
          let f := copyIn f pos copied
          (.ok copied.length, decide (migrateThreshold f.layout ≤ f.inlineLen), f)
    else (.ok bytes.length, false, f)

/-- `powerfs_write_end`. -/
def writeEnd (env : StageEnv) (f : InlineFile) (pos : Nat) (bytes : List UInt8) :
    Except Errno Nat × InlineFile :=
  match stageWrite env f pos bytes with
  | (ret, false, f) => (ret, f)
  | (ret, true, f) =>
    match migrateFile env.migrate f with
    | .ok f => (ret, f)
    | .error err => (.error err, f)

/-- What happens to a file before its first commit. -/
inductive StageEvent where
  | backfill (placementOut : Placement)
  | write (env : StageEnv) (pos : Nat) (bytes : List UInt8)

/-- One event. A create is published once. -/
def stageExec (f : InlineFile) : StageEvent → Option InlineFile
  | .backfill placementOut => if f.pending then some (backfill f placementOut) else none
  | .write env pos bytes => some (writeEnd env f pos bytes).2

def StageInit (f : InlineFile) : Prop := ∃ queued, f = .created queued

def KeepsPayload (alloc : Bool) (pi : Inode) (l : FileLayout) : Prop :=
  (applyLayoutToInode alloc pi l).inlineData = pi.inlineData ∧
    (applyLayoutToInode alloc pi l).inlineDirty = pi.inlineDirty

/-! ### What a server layout does to the payload -/

theorem applyLayoutToInode_inlineData (alloc : Bool) (pi : Inode) (l : FileLayout) :
    (applyLayoutToInode alloc pi l).inlineData =
        (if layoutIsStale pi l then pi else applyInlineData (applyBasics pi l) l).inlineData ∧
      (applyLayoutToInode alloc pi l).inlineDirty =
        (if layoutIsStale pi l then pi else applyInlineData (applyBasics pi l) l).inlineDirty := by
  have hstripe : ∀ pi : Inode, (applyStripe pi l).inlineData = pi.inlineData ∧
      (applyStripe pi l).inlineDirty = pi.inlineDirty := by
    intro pi
    rw [applyStripe]
    repeat' split
    all_goals exact ⟨rfl, rfl⟩
  have hchunks : ∀ (preserve : Bool) (pi : Inode),
      (applyChunks alloc preserve pi l).inlineData = pi.inlineData ∧
        (applyChunks alloc preserve pi l).inlineDirty = pi.inlineDirty := by
    intro preserve pi
    simp only [applyChunks]
    repeat' split
    all_goals exact ⟨rfl, rfl⟩
  rw [applyLayoutToInode]
  split
  · exact ⟨rfl, rfl⟩
  · simp only [hchunks]
    exact hstripe _

theorem keepsPayload_iff {alloc : Bool} {pi : Inode} {l : FileLayout}
    (hdirty : pi.inlineDirty = true) (hdata : pi.inlineData.isSome = true) :
    KeepsPayload alloc pi l ↔
      layoutIsStale pi l = true ∨ (applyBasics pi l).placement = .inline := by
  obtain ⟨hd, hf⟩ := applyLayoutToInode_inlineData alloc pi l
  rw [KeepsPayload, hd, hf]
  have hbasics : (applyBasics pi l).inlineDirty = true ∧
      (applyBasics pi l).inlineData = pi.inlineData := ⟨hdirty, rfl⟩
  cases hstale : layoutIsStale pi l with
  | true => simp
  | false =>
    rw [if_neg (by simp), applyInlineData]
    by_cases hinline : (applyBasics pi l).placement = .inline
    · simp only [hinline, hbasics.1, true_and, if_true, ne_eq, not_true_eq_false, false_and,
        if_false, ite_self, hbasics.2, hdirty, or_true]
    · simp only [hinline, false_and, if_false, ne_eq, not_false_eq_true, true_and, hbasics.2,
        hdata, if_true, hdirty, Bool.false_eq_true, or_self, iff_false, not_and]
      exact fun _ => trivial

/-! ### Reachable files -/

def InlineFile.Buffered (f : InlineFile) : Prop :=
  f.layout.inlineDirty = true → 0 < f.inlineLen

variable {f : InlineFile}

theorem InlineFile.data_of_inlineLen (h : 0 < f.inlineLen) :
    ∃ data, f.layout.inlineData = some data ∧ data ≠ [] := by
  rw [InlineFile.inlineLen] at h
  cases hdata : f.layout.inlineData with
  | none => simp [hdata] at h
  | some data =>
    rw [hdata] at h
    exact ⟨data, rfl, List.length_pos_iff.mp h⟩

/-- Only the buffer, its dirty flag and the size differ. -/
structure SameLayout (f f' : InlineFile) : Prop where
  pending : f'.pending = f.pending
  aligned : f'.layoutAligned = f.layoutAligned
  placement : f'.layout.placement = f.layout.placement
  volume : f'.layout.volumeId = f.layout.volumeId
  key : f'.layout.fileKey = f.layout.fileKey
  volumes : f'.layout.volumeIds = f.layout.volumeIds
  buffered : f.Buffered → f'.Buffered

variable {f' : InlineFile}

theorem SameLayout.trans {f'' : InlineFile} (h : SameLayout f f') (h' : SameLayout f' f'') :
    SameLayout f f'' where
  pending := h'.pending.trans h.pending
  aligned := h'.aligned.trans h.aligned
  placement := h'.placement.trans h.placement
  volume := h'.volume.trans h.volume
  key := h'.key.trans h.key
  volumes := h'.volumes.trans h.volumes
  buffered := h'.buffered ∘ h.buffered

/-- The buffer is gone, and no write can bring it back. -/
structure Migrated (f : InlineFile) : Prop where
  placement : f.layout.placement ≠ .inline
  aligned : f.layoutAligned = true
  clean : f.layout.inlineDirty = false

theorem sameLayout_size (f : InlineFile) (n : Nat) : SameLayout f { f with iSize := n } :=
  ⟨rfl, rfl, rfl, rfl, rfl, rfl, id⟩

theorem sameLayout_rebuildBuffer (env : StageEnv) (f : InlineFile) (need : Nat) :
    SameLayout f (rebuildBuffer env f need).2 := by
  rw [rebuildBuffer]
  split
  · exact ⟨rfl, rfl, rfl, rfl, rfl, rfl, id⟩
  · simp only
    split
    -- A buffer that was there is extended, or comes back as it was.
    · refine ⟨rfl, rfl, rfl, rfl, rfl, rfl, fun hbuf hdirty => ?_⟩
      obtain ⟨data, hdata, hne⟩ := InlineFile.data_of_inlineLen (hbuf hdirty)
      have := List.length_pos_iff.mpr hne
      simp only [InlineFile.inlineLen, InlineFile.setData, hdata, Option.some_or,
        Option.getD_some, padTo, List.length_append]
      omega
    · refine ⟨rfl, rfl, rfl, rfl, rfl, rfl, fun hbuf hdirty => ?_⟩
      obtain ⟨data, hdata, hne⟩ := InlineFile.data_of_inlineLen (hbuf hdirty)
      have := List.length_pos_iff.mpr hne
      simpa only [InlineFile.inlineLen, InlineFile.setData, hdata, Option.some_or,
        Option.getD_some] using this

theorem sameLayout_copyIn (f : InlineFile) (pos : Nat) {bytes : List UInt8} (hne : bytes ≠ []) :
    SameLayout f (copyIn f pos bytes) := by
  have hpos := List.length_pos_iff.mpr hne
  rw [copyIn]
  split
  · split
    case isTrue hfits =>
      refine ⟨rfl, rfl, rfl, rfl, rfl, rfl, fun _ _ => ?_⟩
      simp only [InlineFile.inlineLen, Option.getD_some, length_overlay hfits]
      omega
    case isFalse => exact ⟨rfl, rfl, rfl, rfl, rfl, rfl, id⟩
  · exact ⟨rfl, rfl, rfl, rfl, rfl, rfl, id⟩

theorem migrated_switchLayout (arrays : Bool) (pi : Inode) (alloc : MigrateAlloc) :
    (switchLayout arrays pi alloc).placement ≠ .inline ∧
      (switchLayout arrays pi alloc).inlineDirty = false := by
  cases alloc with
  | flat volumeId fileKey => exact ⟨by simp [switchLayout], rfl⟩
  | stripe stripeSize units => cases arrays <;> exact ⟨by simp [switchLayout], rfl⟩

theorem migrated_of_migrateFile {env : MigrateEnv}
    (h : migrateFile env f = .ok f') : Migrated f' := by
  rw [migrateFile] at h
  split at h <;> cases h
  rename_i layout hlayout
  obtain ⟨data, alloc, -, -, -, -, rfl⟩ := migrateInlineOut_eq_ok hlayout
  obtain ⟨hplacement, hclean⟩ := migrated_switchLayout env.arrays f.layout alloc
  exact ⟨hplacement, rfl, hclean⟩

theorem stageWrite_cases (env : StageEnv) (f : InlineFile) (pos : Nat) (bytes : List UInt8) :
    SameLayout f (stageWrite env f pos bytes).2.2 ∧
      ((stageWrite env f pos bytes).2.1 = true →
        f.layout.placement = .inline ∨ f.layoutAligned = false) := by
  rw [stageWrite]
  split
  case isTrue => exact ⟨sameLayout_size f f.iSize, Bool.noConfusion⟩
  case isFalse =>
    have hsize := sameLayout_size f (max f.iSize (pos + bytes.length))
    simp only
    split
    case isFalse => exact ⟨hsize, Bool.noConfusion⟩
    case isTrue hstage =>
      split
      case isTrue => exact ⟨hsize, Bool.noConfusion⟩
      case isFalse hcopied =>
        have hbuf := hsize.trans (sameLayout_rebuildBuffer env
          { f with iSize := max f.iSize (pos + bytes.length) }
          (min (pos + bytes.length) inlineMaxSize))
        generalize rebuildBuffer env { f with iSize := max f.iSize (pos + bytes.length) }
          (min (pos + bytes.length) inlineMaxSize) = res at hbuf ⊢
        obtain ⟨enough, g⟩ := res
        cases enough with
        | false => exact ⟨hbuf, Bool.noConfusion⟩
        | true => exact ⟨hbuf.trans (sameLayout_copyIn g pos hcopied), fun _ => hstage⟩

theorem writeEnd_cases (env : StageEnv) (f : InlineFile) (pos : Nat) (bytes : List UInt8) :
    SameLayout f (writeEnd env f pos bytes).2 ∨ Migrated (writeEnd env f pos bytes).2 := by
  obtain ⟨hsame, -⟩ := stageWrite_cases env f pos bytes
  rw [writeEnd]
  generalize stageWrite env f pos bytes = res at hsame ⊢
  obtain ⟨ret, tooLong, g⟩ := res
  cases tooLong with
  | false => exact .inl hsame
  | true =>
    simp only
    split
    case h_1 f' hmig => exact .inr (migrated_of_migrateFile hmig)
    case h_2 => exact .inl hsame

/-- No data has gone to a volume yet. -/
structure Unmigrated (f : InlineFile) : Prop where
  volume : f.layout.volumeId = 0
  key : f.layout.fileKey = 0
  volumes : f.layout.volumeIds = none
  buffered : f.Buffered

/-- The buffer is where the flag says it is, or has gone to a volume. -/
def StageInv (f : InlineFile) : Prop := Unmigrated f ∨ Migrated f

theorem StageInit.inv (h : StageInit f) : StageInv f := by
  obtain ⟨queued, rfl⟩ := h
  exact .inl ⟨rfl, rfl, rfl, fun h => absurd h (by simp [InlineFile.created, Inode.fresh])⟩

theorem Unmigrated.same (h : Unmigrated f) (hs : SameLayout f f') :
    Unmigrated f' :=
  ⟨hs.volume.trans h.volume, hs.key.trans h.key, hs.volumes.trans h.volumes,
    hs.buffered h.buffered⟩

theorem stageWrite_settled (hplacement : f.layout.placement ≠ .inline)
    (haligned : f.layoutAligned = true) (env : StageEnv) (pos : Nat) (bytes : List UInt8) :
    ∃ ret size, stageWrite env f pos bytes = (ret, false, { f with iSize := size }) := by
  rw [stageWrite]
  split
  · exact ⟨_, f.iSize, rfl⟩
  · simp only [hplacement, haligned]
    exact ⟨_, _, rfl⟩

theorem StageInv.step {e : StageEvent} (h : StageInv f)
    (hs : stageExec f e = some f') : StageInv f' := by
  cases e with
  | backfill placementOut =>
    rw [stageExec] at hs
    split at hs <;> cases hs
    rw [backfill]
    split
    case isTrue hout =>
      obtain hun | hmig := h
      · exact .inl ⟨hun.volume, hun.key, hun.volumes, hun.buffered⟩
      · exact .inr ⟨hout, hmig.aligned, hmig.clean⟩
    case isFalse =>
      split
      case isTrue hinline =>
        obtain hun | hmig := h
        · exact .inl ⟨hun.volume, hun.key, hun.volumes, hun.buffered⟩
        · exact absurd hinline hmig.placement
      case isFalse =>
        obtain hun | hmig := h
        · exact .inl ⟨hun.volume, hun.key, hun.volumes, hun.buffered⟩
        · exact .inr ⟨hmig.placement, hmig.aligned, hmig.clean⟩
  | write env pos bytes =>
    cases hs
    obtain hun | hmig := h
    · obtain hsame | hmigrated := writeEnd_cases env f pos bytes
      · exact .inl (hun.same hsame)
      · exact .inr hmigrated
    · obtain ⟨ret, size, hwrite⟩ :=
        stageWrite_settled hmig.placement hmig.aligned env pos bytes
      rw [writeEnd, hwrite]
      exact .inr ⟨hmig.placement, hmig.aligned, hmig.clean⟩

/-- A server layout leaves the unsent data of a file between its create and its first commit alone
exactly if the inode is still Inline or the layout says Inline. -/
theorem keepsPayload_iff_inline (f : InlineFile) (alloc : Bool) (l : FileLayout)
    (h : Runs.Reach (fun f e f' => stageExec f e = some f') (fun _ _ => True) StageInit f)
    (hdirty : f.layout.inlineDirty = true) :
    KeepsPayload alloc f.layout l ↔
      f.layout.placement = .inline ∨ l.hasPlacement = true ∧ l.placement = .inline := by
  have hinv : StageInv f :=
    h.invariant (fun _ hinit => hinit.inv) fun _ _ _ hinv _ hs => hinv.step hs
  obtain hun | hmig := hinv
  · obtain ⟨data, hdata, -⟩ := InlineFile.data_of_inlineLen (hun.buffered hdirty)
    rw [keepsPayload_iff hdirty (by rw [hdata]; rfl)]
    have hvolumes : elems f.layout.volumeIds = [] := by rw [hun.volumes]; rfl
    simp only [layoutIsStale, applyBasics, hdirty, hun.volume, hun.key, hvolumes]
    cases l.hasPlacement <;> cases f.layout.placement <;> cases l.placement <;> decide
  · rw [hmig.clean] at hdirty
    cases hdirty

/-- What the calls around a write give when nothing fails and nothing is migrated. -/
def quietEnv : StageEnv := ⟨[], true, ⟨true, .error .enotconn, .ok (), true⟩⟩

def earlyWriteRun : List StageEvent := [.write quietEnv 0 [7]]

def lateWriteRun : List StageEvent := [.backfill .flat, .write quietEnv 0 [7]]

def flatLayout : FileLayout := { placement := .flat, hasPlacement := true }

theorem stageInit_created : StageInit (.created true) := ⟨true, rfl⟩

theorem keepsPayload_iff_inline_earlyWrite :
    ∃ f, earlyWriteRun.foldlM stageExec (.created true) = some f ∧
      f.layout.inlineDirty = true ∧ KeepsPayload true f.layout flatLayout := by
  obtain ⟨f, hrun, hf⟩ := Option.map_eq_some_iff.mp
    (show (earlyWriteRun.foldlM stageExec (.created true)).map
      (fun f => (f.layout.placement, f.layout.inlineDirty)) = some (.inline, true) by decide)
  obtain ⟨hplacement, hdirty⟩ := Prod.mk.inj hf
  refine ⟨f, hrun, hdirty, ?_⟩
  exact (keepsPayload_iff_inline f true flatLayout
    (.run stageInit_created hrun) hdirty).mpr
    (.inl hplacement)

theorem not_keepsPayload_lateWrite :
    ¬ ∀ f, Runs.Reach (fun f e f' => stageExec f e = some f') (fun _ _ => True) StageInit f →
      f.layout.inlineDirty = true → ∀ alloc l, KeepsPayload alloc f.layout l := by
  intro hall
  obtain ⟨f, hrun, hf⟩ := Option.map_eq_some_iff.mp
    (show (lateWriteRun.foldlM stageExec (.created true)).map
      (fun f => (f.layout.inlineDirty, f.layout.inlineData,
        (applyLayoutToInode true f.layout flatLayout).inlineData)) =
          some (true, some [7], none) by decide)
  simp only [Prod.mk.injEq] at hf
  obtain ⟨hdirty, hdata, hlost⟩ := hf
  have hkeeps := hall f (.run stageInit_created hrun) hdirty
    true flatLayout
  have := hkeeps.1
  rw [hlost, hdata] at this
  cases this

end PowerFS.Inline
