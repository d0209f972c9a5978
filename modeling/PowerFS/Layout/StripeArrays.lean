import PowerFS.Layout.Apply
import PowerFS.Layout.Locate
import PowerFS.Layout.Migrate
import PowerFS.Lib.Runs

namespace PowerFS.Layout

/-! The two parallel arrays of a striped inode. `stripe_needle_keys` has no count of its own and
is indexed below `volume_ids_count`. -/

/-- The array index `powerfs_locate_chunk` computes for an offset. -/
def stripeSlot (pi : Inode) (offset : Nat) : Nat :=
  let count := (elems pi.volumeIds).length
  (pi.startVolumeIdx.toNat + offset / pi.stripeSz % count) % count

/-- The key array, where there is one, has an entry for every volume. -/
def KeysCover (pi : Inode) : Prop :=
  ∀ keys, pi.stripeNeedleKeys = some keys → (elems pi.volumeIds).length ≤ keys.length

/-- The arrays of an inode can be indexed by `powerfs_locate_chunk` at every offset. -/
structure StripeBounds (pi : Inode) : Prop where
  cover : KeysCover pi
  volumes : ∀ offset, pi.isStriped = true → stripeSlot pi offset < (elems pi.volumeIds).length
  keys : ∀ offset keys, pi.isStriped = true → pi.stripeNeedleKeys = some keys →
    stripeSlot pi offset < keys.length

theorem stripeSlot_lt {pi : Inode} (h : pi.isStriped = true) (offset : Nat) :
    stripeSlot pi offset < (elems pi.volumeIds).length :=
  Nat.mod_lt _ (Inode.volumes_pos h)

theorem stripeBounds_iff {pi : Inode} : StripeBounds pi ↔ KeysCover pi := by
  constructor
  · exact StripeBounds.cover
  · intro h
    refine ⟨h, fun offset hs => stripeSlot_lt hs offset, fun offset keys hs hk => ?_⟩
    exact Nat.lt_of_lt_of_le (stripeSlot_lt hs offset) (h keys hk)

/-- What changes the layout of an inode. `stage` is a write into the inline payload. -/
inductive ArrayEvent where
  | apply (alloc : Bool) (layout : FileLayout)
  | stage (data : List UInt8)
  | migrate (env : MigrateEnv)

/-- One event. A migration that fails changes nothing. -/
def arrayExec (pi : Inode) : ArrayEvent → Option Inode
  | .apply alloc layout => some (applyLayoutToInode alloc pi layout)
  | .stage data => some { pi with inlineData := some data, inlineDirty := true }
  | .migrate env =>
    match migrateInlineOut env pi with
    | .ok pi' => some pi'
    | .error _ => some pi

section Apply

variable (alloc : Bool) (pi : Inode) (l : FileLayout)

/-- The inode takes the volume list of the layout: the layout is not stale, it makes or leaves
the inode a stripe, and does not merely list a part of the local volumes. -/
def takesVolumes : Bool :=
  !layoutIsStale pi l && (applyBasics pi l).placement.isStripe &&
    !preserveStripeArrays (applyBasics pi l) l

/-- The layout has chunk anchors from which the base needles of its volumes can be computed, and
there is memory for them. -/
def rebuildsKeys : Bool :=
  l.hasEcChunks && (applyBasics pi l).reliability ≠ .ec && alloc &&
    decide (0 < anchorChunksPerUnit { applyBasics pi l with stripeSize := l.stripeSize })

/-- The condition on an event: a volume list longer than the key array comes with anchors. -/
def ArraysOk : ArrayEvent → Prop
  | .apply alloc l => takesVolumes pi l = true → rebuildsKeys alloc pi l = true ∨
      ∀ keys, pi.stripeNeedleKeys = some keys → (elems l.volumeIds).length ≤ keys.length
  | .stage _ | .migrate _ => True

end Apply

section Arrays

variable {alloc preserve : Bool} {pi : Inode} {l : FileLayout}

theorem anchorKeys_length (pi : Inode) (anchors : List ChunkMap) :
    (anchorKeys pi anchors).length = (elems pi.volumeIds).length := by
  have hstep : ∀ (nkeys perUnit : Nat) (keys : List UInt64) (cm : ChunkMap),
      (anchorStep pi nkeys perUnit keys cm).length = keys.length := by
    intro nkeys perUnit keys cm
    simp only [anchorStep]
    split
    · rw [List.length_set]
    · rfl
  have hfold : ∀ (nkeys perUnit : Nat) (keys : List UInt64),
      (anchors.foldl (anchorStep pi nkeys perUnit) keys).length = keys.length := by
    intro nkeys perUnit keys
    induction anchors generalizing keys with
    | nil => rfl
    | cons cm anchors ih => rw [List.foldl_cons, ih, hstep]
  rw [anchorKeys, hfold, List.length_replicate]

theorem applyInlineData_eq (pi : Inode) (l : FileLayout) : ∃ data dirty,
    applyInlineData pi l = { pi with inlineData := data, inlineDirty := dirty } := by
  simp only [applyInlineData]
  split
  · split
    · exact ⟨_, _, rfl⟩
    · exact ⟨_, _, rfl⟩
  · split
    · exact ⟨_, _, rfl⟩
    · exact ⟨_, _, rfl⟩

theorem applyChunks_volumeIds (alloc preserve : Bool) (pi : Inode) (l : FileLayout) :
    (applyChunks alloc preserve pi l).volumeIds = pi.volumeIds := by
  simp only [applyChunks]
  repeat' split
  all_goals rfl

theorem applyChunks_keys_of_stripe (hstripe : pi.placement.isStripe = true) :
    (applyChunks alloc preserve pi l).stripeNeedleKeys =
      if l.hasEcChunks ∧ pi.reliability ≠ .ec ∧ 0 < (elems pi.volumeIds).length ∧
          0 < anchorChunksPerUnit pi ∧ !preserve ∧ alloc then
        some (anchorKeys pi (elems l.ecChunks))
      else pi.stripeNeedleKeys := by
  have hflat : pi.placement ≠ .flat := by
    rintro hflat
    rw [hflat] at hstripe
    cases hstripe
  simp only [applyChunks, hstripe, hflat, if_true]
  cases l.hasEcChunks with
  | false => simp
  | true =>
    by_cases hec : pi.reliability = .ec
    · simp [hec]
    · simp only [hec, Bool.not_true, Bool.false_eq_true, if_false, not_false_eq_true, true_and,
        ne_eq]
      split <;> rfl

theorem applyChunks_keys_of_not_stripe (hstripe : pi.placement.isStripe = false) :
    (applyChunks alloc preserve pi l).stripeNeedleKeys = pi.stripeNeedleKeys := by
  simp only [applyChunks, hstripe]
  repeat' split
  all_goals first | rfl | contradiction

theorem applyLayoutToInode_eq (alloc : Bool) (hstale : layoutIsStale pi l = false) : ∃ data dirty,
    applyLayoutToInode alloc pi l =
      applyChunks alloc (preserveStripeArrays (applyBasics pi l) l)
        (applyReliability
          (applyStripe { applyBasics pi l with inlineData := data, inlineDirty := dirty } l) l)
        l := by
  obtain ⟨data, dirty, hinline⟩ := applyInlineData_eq (applyBasics pi l) l
  refine ⟨data, dirty, ?_⟩
  simp only [applyLayoutToInode, hstale, hinline]
  rfl

theorem applyLayoutToInode_keeps (alloc : Bool) (h : takesVolumes pi l = false) :
    (applyLayoutToInode alloc pi l).stripeNeedleKeys = none ∨
      (applyLayoutToInode alloc pi l).stripeNeedleKeys = pi.stripeNeedleKeys ∧
        (applyLayoutToInode alloc pi l).volumeIds = pi.volumeIds := by
  cases hstale : layoutIsStale pi l with
  | true => exact .inr (by simp [applyLayoutToInode, hstale])
  | false =>
    obtain ⟨data, dirty, heq⟩ := applyLayoutToInode_eq alloc hstale
    rw [heq]
    set base := { applyBasics pi l with inlineData := data, inlineDirty := dirty }
    cases hstripe : base.placement.isStripe with
    | false =>
      left
      have happly : (applyReliability (applyStripe base l) l).placement.isStripe = false ∧
          (applyReliability (applyStripe base l) l).stripeNeedleKeys = none := by
        simp [applyReliability, applyStripe, hstripe]
      rw [applyChunks_keys_of_not_stripe happly.1]
      exact happly.2
    | true =>
      right
      have hpreserve : preserveStripeArrays (applyBasics pi l) l = true := by
        simpa [takesVolumes, hstale, show (applyBasics pi l).placement.isStripe = true from hstripe]
          using h
      have happly : applyStripe base l = base := by
        simp [applyStripe, hstripe, show preserveStripeArrays base l = true from hpreserve]
      have hmid : (applyReliability base l).placement.isStripe = true := hstripe
      rw [happly, applyChunks_volumeIds, applyChunks_keys_of_stripe hmid]
      simp only [hpreserve, Bool.not_true, Bool.false_eq_true, false_and, and_false]
      exact ⟨rfl, rfl⟩

/-- The inode before the chunk list is looked at, where the volumes of the layout are taken. -/
theorem applyLayoutToInode_of_takes (alloc : Bool) (h : takesVolumes pi l = true) :
    ∃ mid : Inode, applyLayoutToInode alloc pi l = applyChunks alloc false mid l ∧
      mid.placement.isStripe = true ∧ ∃ data dirty, mid = applyReliability
        { applyBasics pi l with
          inlineData := data
          inlineDirty := dirty
          stripeSize := l.stripeSize
          stripeCount := l.stripeCount
          startVolumeIdx := l.startVolumeIdx
          volumeIds := l.volumeIds } l := by
  obtain ⟨⟨hstale, hstripe⟩, hpreserve⟩ : (layoutIsStale pi l = false ∧
      (applyBasics pi l).placement.isStripe = true) ∧
      preserveStripeArrays (applyBasics pi l) l = false := by
    simpa [takesVolumes] using h
  obtain ⟨data, dirty, heq⟩ := applyLayoutToInode_eq alloc hstale
  refine ⟨_, heq.trans (by rw [hpreserve]), ?_, data, dirty, ?_⟩
  · rw [applyStripe, if_pos hstripe]
    split <;> exact hstripe
  · exact congrArg (applyReliability · l)
      ((if_pos hstripe).trans (if_neg (ne_true_of_eq_false hpreserve)))

theorem applyLayoutToInode_takes (alloc : Bool) (h : takesVolumes pi l = true) :
    (applyLayoutToInode alloc pi l).volumeIds = l.volumeIds ∧
      if rebuildsKeys alloc pi l = true ∧ 0 < (elems l.volumeIds).length then
        ∃ keys, (applyLayoutToInode alloc pi l).stripeNeedleKeys = some keys ∧
          keys.length = (elems l.volumeIds).length
      else (applyLayoutToInode alloc pi l).stripeNeedleKeys = pi.stripeNeedleKeys := by
  obtain ⟨mid, heq, hmid, data, dirty, rfl⟩ := applyLayoutToInode_of_takes alloc h
  rw [heq, applyChunks_volumeIds, applyChunks_keys_of_stripe hmid]
  refine ⟨rfl, ?_⟩
  have hcond : (l.hasEcChunks = true ∧ (applyBasics pi l).reliability ≠ .ec ∧
      0 < (elems l.volumeIds).length ∧
      0 < anchorChunksPerUnit { applyBasics pi l with stripeSize := l.stripeSize } ∧
      (!false) = true ∧ alloc = true) ↔
      rebuildsKeys alloc pi l = true ∧ 0 < (elems l.volumeIds).length := by
    simp only [rebuildsKeys, Bool.and_eq_true, decide_eq_true_eq]
    tauto
  split
  · next hrebuild =>
    exact ⟨_, if_pos (hcond.mpr hrebuild), anchorKeys_length _ _⟩
  · next hrebuild => exact if_neg (fun hc => hrebuild (hcond.mp hc))

theorem keysCover_apply_iff (alloc : Bool) (h : KeysCover pi) :
    KeysCover (applyLayoutToInode alloc pi l) ↔ ArraysOk pi (.apply alloc l) := by
  cases htakes : takesVolumes pi l with
  | false =>
    have hcover : KeysCover (applyLayoutToInode alloc pi l) := by
      intro keys hkeys
      obtain hnone | ⟨hsame, hvols⟩ := applyLayoutToInode_keeps alloc htakes
      · rw [hnone] at hkeys
        cases hkeys
      · rw [hvols]
        exact h keys (hsame ▸ hkeys)
    simp [ArraysOk, htakes, hcover]
  | true =>
    obtain ⟨hvols, hkeys⟩ := applyLayoutToInode_takes alloc htakes
    simp only [KeysCover, hvols, ArraysOk, htakes, true_implies]
    split at hkeys
    · next hrebuild =>
      obtain ⟨keys, hsome, hlen⟩ := hkeys
      simp [hsome, hlen, hrebuild.1]
    · next hrebuild =>
      rw [hkeys]
      constructor
      · exact .inr
      · rintro (hre | hle)
        · intro keys hkeys
          have hzero : ¬ 0 < (elems l.volumeIds).length := fun hpos => hrebuild ⟨hre, hpos⟩
          omega
        · exact hle

theorem keysCover_switchLayout (h : KeysCover pi) (arrays : Bool) (reply : MigrateAlloc) :
    KeysCover (switchLayout arrays pi reply) := by
  cases reply with
  | flat volumeId fileKey => exact h
  | stripe stripeSize units =>
    cases arrays with
    | false =>
      intro keys hkeys
      cases hkeys
    | true =>
      intro keys hkeys
      cases hkeys
      show (units.val.map (·.1)).length ≤ (units.val.map (·.2)).length
      rw [List.length_map, List.length_map]

theorem keysCover_step_iff {pi' : Inode} {e : ArrayEvent} (h : KeysCover pi)
    (hs : arrayExec pi e = some pi') : KeysCover pi' ↔ ArraysOk pi e := by
  cases e with
  | apply alloc l =>
    cases hs
    exact keysCover_apply_iff alloc h
  | stage data =>
    cases hs
    exact iff_of_true h trivial
  | migrate env =>
    refine iff_of_true ?_ trivial
    cases hmigrate : migrateInlineOut env pi with
    | error err =>
      simp only [arrayExec, hmigrate] at hs
      cases hs
      exact h
    | ok moved =>
      simp only [arrayExec, hmigrate] at hs
      cases hs
      obtain ⟨_, reply, _, _, _, _, rfl⟩ := migrateInlineOut_eq_ok hmigrate
      exact keysCover_switchLayout h _ _

end Arrays

def ArraysInit (pi : Inode) : Prop := pi.stripeNeedleKeys = none

theorem arraysInit_fresh : ArraysInit Inode.fresh := rfl

theorem ArraysInit.cover {pi : Inode} (h : ArraysInit pi) : KeysCover pi := by
  intro keys hkeys
  rw [h] at hkeys
  cases hkeys

/-- In runs whose layouts meet the condition both arrays can be indexed throughout, and the first
layout that does not meet it ends that. -/
theorem stripeBounds_of_arraysOk (pi : Inode) :
    (Runs.Reach (fun pi e pi' => arrayExec pi e = some pi') ArraysOk ArraysInit pi →
      StripeBounds pi) ∧
    ∀ e pi', StripeBounds pi → arrayExec pi e = some pi' →
      (StripeBounds pi' ↔ ArraysOk pi e) := by
  constructor
  · intro h
    refine stripeBounds_iff.mpr (h.invariant (fun _ hinit => hinit.cover) ?_)
    intro pi e pi' hcover hok hs
    exact (keysCover_step_iff hcover hs).mpr hok
  · intro e pi' h hs
    rw [stripeBounds_iff]
    exact keysCover_step_iff h.cover hs

def stripeLayout (vols : Counted UInt64) (anchors : Option (Counted ChunkMap)) : FileLayout :=
  { placement := .stripe
    hasPlacement := true
    stripeSize := UInt64.ofNat chunkSize
    stripeCount := UInt32.ofNat vols.val.length
    volumeIds := some vols
    ecChunks := anchors
    hasEcChunks := anchors.isSome }

/-- One volume with its anchor, then two volumes with theirs. -/
def anchoredGrowth : List ArrayEvent :=
  [.apply true (stripeLayout ⟨[7], by decide⟩ (some ⟨[⟨0, 40, 7, 0, 0⟩], by decide⟩)),
    .apply true (stripeLayout ⟨[7, 8], by decide⟩
      (some ⟨[⟨0, 40, 7, 0, 0⟩, ⟨1, 50, 8, 0, 0⟩], by decide⟩))]

theorem arraysOk_anchoredGrowth :
    Runs.OkAlong arrayExec ArraysOk Inode.fresh anchoredGrowth := by
  refine ⟨fun _ => .inl (by decide +kernel), fun pi hpi => ?_⟩
  cases hpi
  exact ⟨fun _ => .inl (by decide +kernel), fun _ _ => trivial⟩

theorem stripeBounds_of_arraysOk_anchoredGrowth : ∃ pi,
    anchoredGrowth.foldlM arrayExec Inode.fresh = some pi ∧
      pi.stripeNeedleKeys = some [40, 50] ∧ StripeBounds pi := by
  have hrun : (anchoredGrowth.foldlM arrayExec Inode.fresh).map (·.stripeNeedleKeys) =
      some (some [40, 50]) := by decide +kernel
  obtain ⟨pi, hpi, hkeys⟩ := Option.map_eq_some_iff.mp hrun
  exact ⟨pi, hpi, hkeys,
    (stripeBounds_of_arraysOk pi).1 (.of_run (.start arraysInit_fresh) arraysOk_anchoredGrowth hpi)⟩

/-- One volume with its anchor, then two volumes without anchors: the second volume has no
entry in the key array, and `powerfs_locate_chunk` reads behind it. -/
theorem not_stripeBounds_runs : ¬ ∀ pi,
    Runs.Reach (fun pi e pi' => arrayExec pi e = some pi') (fun _ _ => True) ArraysInit pi →
      StripeBounds pi := by
  intro h
  let run : List ArrayEvent :=
    [.apply true (stripeLayout ⟨[7], by decide⟩ (some ⟨[⟨0, 40, 7, 0, 0⟩], by decide⟩)),
      .apply true (stripeLayout ⟨[7, 8], by decide⟩ none)]
  have hrun : (run.foldlM arrayExec Inode.fresh).map
      (fun pi => (pi.stripeNeedleKeys, (elems pi.volumeIds).length)) = some (some [40], 2) := by
    decide +kernel
  obtain ⟨pi, hpi, heq⟩ := Option.map_eq_some_iff.mp hrun
  obtain ⟨hkeys, hvols⟩ := Prod.mk.inj heq
  have hbounds := h pi (.run arraysInit_fresh hpi)
  have hcover := hbounds.cover [40] hkeys
  rw [hvols] at hcover
  exact absurd hcover (by decide)

end PowerFS.Layout
