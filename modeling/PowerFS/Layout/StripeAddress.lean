import PowerFS.Layout.StripeArrays
import Mathlib.Data.List.Nodup

namespace PowerFS.Layout

/-! The arithmetic of the stripe branch of `powerfs_locate_chunk`: it numbers the chunks of every
volume without gaps, it is compared with the formula in its own comment, and the base needles
are read back from a list of chunks. -/

/-- `vol_chunk_idx` of `powerfs_locate_chunk`. -/
def stripeNumber (pi : Inode) (offset : Nat) : Nat :=
  let chunksPerUnit :=
    if pi.stripeSz / pi.chunkSz = 0 then 1 else pi.stripeSz / pi.chunkSz
  offset / pi.stripeSz / (elems pi.volumeIds).length * chunksPerUnit
    + offset % pi.stripeSz / pi.chunkSz

/-- Index and chunk number by the formula in the comment of `powerfs_locate_chunk`
(`Placement::locate` of the other client), with ranks and rounds by `stripe_count`; no place for a
count of 0. -/
def placementLocate (pi : Inode) (offset : Nat) : Option (Nat × Nat) :=
  let count := pi.stripeCount.toNat
  if count = 0 then none
  else
    some ((pi.startVolumeIdx.toNat + offset / pi.stripeSz % count) % (elems pi.volumeIds).length,
      offset / pi.stripeSz / count * max 1 (pi.stripeSz / pi.chunkSz)
        + offset % pi.stripeSz / pi.chunkSz)

variable {pi : Inode}

section

variable (h : pi.isStriped = true)
include h

theorem placement_of_isStriped : pi.placement.isStripe = true := by
  simp only [Inode.isStriped, Bool.and_eq_true] at h
  exact h.1

theorem locateChunk_striped (o : Nat) :
    locateChunk pi o = .ok ((elems pi.volumeIds).getD (stripeSlot pi o) 0,
      baseNeedle pi (stripeSlot pi o) + UInt64.ofNat (stripeNumber pi o)) := by
  have hinline : pi.placement ≠ .inline := by
    intro hin
    have hstripe := placement_of_isStriped h
    rw [hin] at hstripe
    cases hstripe
  rw [locateChunk, if_neg hinline, listedChunk_of_isStriped h]
  simp only [h]
  rfl

theorem stripeNumber_eq (o : Nat) :
    stripeNumber pi o = (stripeGeometry pi h).index o := by
  simp only [stripeNumber, perUnit_eq_max]
  rfl

theorem stripeNumber_le (o : Nat) : stripeNumber pi o ≤ o := by
  rw [stripeNumber_eq h]
  exact Striping.Geometry.index_le o

end

/-- The rank of a slot: turning back by the start index. -/
theorem add_mod_eq_iff {n a r s : Nat} (hr : r < n) (hs : s < n) :
    (a + r) % n = s ↔ r = (s + (n - a % n)) % n := by
  have hmod := Nat.mod_lt a (Nat.zero_lt_of_lt hr)
  rw [← Nat.mod_add_mod]
  generalize a % n = b at hmod ⊢
  constructor
  · rintro rfl
    by_cases hlt : b + r < n
    · rw [Nat.mod_eq_of_lt hlt, show b + r + (n - b) = r + n by omega, Nat.add_mod_right,
        Nat.mod_eq_of_lt hr]
    · have hwrap : (b + r) % n = b + r - n := by
        rw [Nat.mod_eq_sub_mod (by omega), Nat.mod_eq_of_lt (by omega)]
      rw [hwrap, show b + r - n + (n - b) = r by omega, Nat.mod_eq_of_lt hr]
  · rintro rfl
    rw [Nat.add_mod_mod, show b + (s + (n - b)) = s + n by omega, Nat.add_mod_right,
      Nat.mod_eq_of_lt hs]

/-- The chunk of the file that is chunk `number` of the volume in `slot`. -/
def chunkAtSlot (pi : Inode) (h : pi.isStriped = true) (slot number : Nat) : Nat :=
  let n := (elems pi.volumeIds).length
  (stripeGeometry pi h).chunkAt ((slot + (n - pi.startVolumeIdx.toNat % n)) % n) number

section

variable (h : pi.isStriped = true) (hdvd : pi.chunkSz ∣ pi.stripeSz)
include h hdvd

theorem slot_number_iff {slot : Nat} (hslot : slot < (elems pi.volumeIds).length) (number o : Nat) :
    stripeSlot pi o = slot ∧ stripeNumber pi o = number ↔
      o / pi.chunkSz = chunkAtSlot pi h slot number := by
  have hpos := pi.volumes_pos h
  rw [stripeNumber_eq h, stripeSlot, add_mod_eq_iff (Nat.mod_lt _ hpos) hslot]
  exact Striping.Geometry.rank_index_iff (g := stripeGeometry pi h) hdvd (Nat.mod_lt _ hpos)

theorem slot_number_eq_iff
    (s t : Nat) : stripeSlot pi s = stripeSlot pi t ∧ stripeNumber pi s = stripeNumber pi t ↔
      s / pi.chunkSz = t / pi.chunkSz := by
  have hslot := stripeSlot_lt h t
  rw [slot_number_iff h hdvd hslot, ← (slot_number_iff h hdvd hslot _ t).mp ⟨rfl, rfl⟩]

end

/-- Chunk numbers are file offsets at most, so the sum with a base tells them apart. -/
theorem add_stripeNumber_inj (h : pi.isStriped = true) {s t : Nat} (hs : s < maxOffset)
    (ht : t < maxOffset) (base : UInt64) :
    base + UInt64.ofNat (stripeNumber pi s) = base + UInt64.ofNat (stripeNumber pi t) ↔
      stripeNumber pi s = stripeNumber pi t := by
  have hval : ∀ o < maxOffset, (UInt64.ofNat (stripeNumber pi o)).toNat = stripeNumber pi o :=
    fun o ho => UInt64.toNat_ofNat_of_lt'
      (((stripeNumber_le h o).trans_lt ho).trans (by decide : maxOffset < UInt64.size))
  rw [UInt64.add_right_inj, ← UInt64.toNat_inj, hval s hs, hval t ht]

theorem chunkSz_dvd_stripeSz (hchunk : pi.layoutChunkSize ≠ 0) (hsize : pi.stripeSize ≠ 0)
    (hdvd : pi.layoutChunkSize.toNat ∣ pi.stripeSize.toNat) : pi.chunkSz ∣ pi.stripeSz := by
  rwa [Inode.chunkSz, Inode.stripeSz, if_pos hchunk, if_pos hsize]

/-- With a stripe unit of whole chunks, two offsets have one needle on one slot (on one volume, when
none is listed twice) exactly when they are in one chunk, and each chunk number on each slot belongs
to exactly one chunk of the file. -/
theorem locateChunk_bijection (pi : Inode) (h : pi.isStriped = true)
    (hchunk : pi.layoutChunkSize ≠ 0) (hsize : pi.stripeSize ≠ 0)
    (hdvd : pi.layoutChunkSize.toNat ∣ pi.stripeSize.toNat) :
    (∀ o, stripeSlot pi o < (elems pi.volumeIds).length ∧
      locateChunk pi o = .ok ((elems pi.volumeIds).getD (stripeSlot pi o) 0,
        baseNeedle pi (stripeSlot pi o) + UInt64.ofNat (stripeNumber pi o))) ∧
    (∀ s t, s < maxOffset → t < maxOffset →
      ((stripeSlot pi s = stripeSlot pi t ∧
        (locateChunk pi s).map Prod.snd = (locateChunk pi t).map Prod.snd) ↔
          s / pi.chunkSz = t / pi.chunkSz) ∧
      ((elems pi.volumeIds).Nodup →
        (locateChunk pi s = locateChunk pi t ↔ s / pi.chunkSz = t / pi.chunkSz))) ∧
    ∀ slot < (elems pi.volumeIds).length, ∀ number, ∃! c, ∀ o,
      stripeSlot pi o = slot ∧ stripeNumber pi o = number ↔ o / pi.chunkSz = c := by
  have hunit := chunkSz_dvd_stripeSz hchunk hsize hdvd
  refine ⟨fun o => ⟨stripeSlot_lt h o, locateChunk_striped h o⟩, fun s t hs ht => ?_,
    fun slot hslot number => ?_⟩
  · have hplace : stripeSlot pi s = stripeSlot pi t →
        (baseNeedle pi (stripeSlot pi s) + UInt64.ofNat (stripeNumber pi s)
          = baseNeedle pi (stripeSlot pi t) + UInt64.ofNat (stripeNumber pi t) ↔
        stripeNumber pi s = stripeNumber pi t) := by
      intro hslot
      rw [hslot]
      exact add_stripeNumber_inj h hs ht _
    rw [locateChunk_striped h s, locateChunk_striped h t, ← slot_number_eq_iff h hunit]
    refine ⟨?_, fun hnodup => ?_⟩
    · simp only [Except.map, Except.ok.injEq]
      exact and_congr_right hplace
    · have hvol : (elems pi.volumeIds).getD (stripeSlot pi s) 0
          = (elems pi.volumeIds).getD (stripeSlot pi t) 0 ↔
          stripeSlot pi s = stripeSlot pi t := by
        simp only [List.getD_eq_getElem?_getD, List.getElem?_eq_getElem (stripeSlot_lt h s),
          List.getElem?_eq_getElem (stripeSlot_lt h t), Option.getD_some, hnodup.getElem_inj_iff]
      rw [Except.ok.injEq, Prod.mk.injEq, hvol]
      exact and_congr_right hplace
  · refine ⟨chunkAtSlot pi h slot number, slot_number_iff h hunit hslot number, ?_⟩
    intro c hc
    have hself := (hc (c * pi.chunkSz)).mpr (Nat.mul_div_cancel c pi.chunkSz_pos)
    rw [← (slot_number_iff h hunit hslot number _).mp hself,
      Nat.mul_div_cancel c pi.chunkSz_pos]

theorem length_twoIds : [(7 : UInt64), 8].length < 2 ^ 32 := by decide

def twoVolumes : Inode :=
  { Inode.fresh with
    placement := .stripe
    stripeSize := 2 * UInt64.ofNat chunkSize
    startVolumeIdx := 1
    volumeIds := some ⟨[7, 8], length_twoIds⟩
    stripeNeedleKeys := some [100, 200] }

theorem locateChunk_bijection_twoVolumes :
    ∃! c, ∀ o, stripeSlot twoVolumes o = 0 ∧ stripeNumber twoVolumes o = 3 ↔
      o / twoVolumes.chunkSz = c :=
  (locateChunk_bijection twoVolumes (by decide) (by decide) (by decide)
    (by decide)).2.2 0 (by decide) 3

/-! ### The formula in the comment -/

theorem placementLocate_first {o : Nat} (hcount : pi.stripeCount ≠ 0)
    (hvol : o / pi.stripeSz < (elems pi.volumeIds).length)
    (hstripe : o / pi.stripeSz < pi.stripeCount.toNat) :
    placementLocate pi o = some (stripeSlot pi o, stripeNumber pi o) := by
  have hne : pi.stripeCount.toNat ≠ 0 := fun h0 => hcount (UInt32.toNat_inj.mp h0)
  simp only [placementLocate, stripeSlot, stripeNumber, if_neg hne, Nat.mod_eq_of_lt hvol,
    Nat.mod_eq_of_lt hstripe, Nat.div_eq_of_lt hvol, Nat.div_eq_of_lt hstripe, Nat.zero_mul]

/-- Where the two counts differ, the first unit past the smaller one is misplaced: on another volume
when `stripe_count` is the smaller one, a round later when it is the larger one. -/
theorem placementLocate_wrap (h : pi.isStriped = true)
    (hne : pi.stripeCount.toNat ≠ (elems pi.volumeIds).length) :
    placementLocate pi (min (elems pi.volumeIds).length pi.stripeCount.toNat * pi.stripeSz)
      ≠ some (stripeSlot pi (min (elems pi.volumeIds).length pi.stripeCount.toNat * pi.stripeSz),
        stripeNumber pi
          (min (elems pi.volumeIds).length pi.stripeCount.toNat * pi.stripeSz)) := by
  have hpos := pi.volumes_pos h
  simp only [placementLocate, stripeSlot, stripeNumber, perUnit_eq_max,
    Nat.mul_div_cancel _ pi.stripeSz_pos]
  generalize (elems pi.volumeIds).length = n at *
  generalize pi.stripeCount.toNat = k at *
  generalize hper : max 1 (pi.stripeSz / pi.chunkSz) = per
  by_cases hk : k = 0
  · simp [hk]
  · rw [if_neg hk, ne_eq, Option.some.injEq, Prod.mk.injEq]
    rintro ⟨hslot, hnum⟩
    obtain hlt | hlt := Nat.lt_or_gt_of_ne hne
    · -- the formula starts again at the first volume, the code goes on to volume `k`
      rw [Nat.min_eq_right hlt.le, Nat.mod_self, Nat.mod_eq_of_lt hlt] at hslot
      have hback := (add_mod_eq_iff (a := pi.startVolumeIdx.toNat) hlt
        (Nat.mod_lt pi.startVolumeIdx.toNat hpos)).mp hslot.symm
      have hzero := (add_mod_eq_iff (a := pi.startVolumeIdx.toNat) (r := 0) hpos
        (Nat.mod_lt pi.startVolumeIdx.toNat hpos)).mp rfl
      omega
    · rw [Nat.min_eq_left hlt.le, Nat.div_eq_of_lt hlt, Nat.div_self hpos] at hnum
      omega

/-- `powerfs_locate_chunk` follows the formula at every offset exactly when `stripe_count` is the
number of listed volumes, or no file reaches a second round by either count. -/
theorem locateChunk_eq_placement_iff (pi : Inode) (h : pi.isStriped = true) :
    (∀ o < maxOffset, ∃ slot number, placementLocate pi o = some (slot, number) ∧
      slot = stripeSlot pi o ∧ number = stripeNumber pi o ∧
      locateChunk pi o = .ok ((elems pi.volumeIds).getD slot 0,
        baseNeedle pi slot + UInt64.ofNat number)) ↔
    pi.stripeCount ≠ 0 ∧ (pi.stripeCount.toNat = (elems pi.volumeIds).length ∨
      maxOffset ≤ min (elems pi.volumeIds).length pi.stripeCount.toNat * pi.stripeSz) := by
  constructor
  · intro hall
    have hsome : ∀ o < maxOffset,
        placementLocate pi o = some (stripeSlot pi o, stripeNumber pi o) := by
      intro o ho
      obtain ⟨slot, number, heq, rfl, rfl, -⟩ := hall o ho
      exact heq
    refine ⟨fun h0 => ?_, ?_⟩
    · have hzero := hsome 0 (by decide)
      simp [placementLocate, h0] at hzero
    · by_contra hcon
      push Not at hcon
      exact placementLocate_wrap h hcon.1 (hsome _ hcon.2)
  · rintro ⟨hcount, hcond⟩ o ho
    refine ⟨_, _, ?_, rfl, rfl, locateChunk_striped h o⟩
    obtain heq | hlate := hcond
    · have hne : pi.stripeCount.toNat ≠ 0 := fun h0 => hcount (UInt32.toNat_inj.mp h0)
      simp only [placementLocate, if_neg hne, stripeSlot, stripeNumber, perUnit_eq_max]
      rw [heq]
    · have hunit : o / pi.stripeSz < min (elems pi.volumeIds).length pi.stripeCount.toNat :=
        Nat.div_lt_of_lt_mul (Nat.mul_comm _ _ ▸ ho.trans_le hlate)
      exact placementLocate_first hcount (hunit.trans_le (Nat.min_le_left _ _))
        (hunit.trans_le (Nat.min_le_right _ _))

theorem locateChunk_eq_placement_twoVolumes :
    { twoVolumes with stripeCount := 2 }.isStriped = true ∧ ∀ o < maxOffset, ∃ slot number,
      placementLocate { twoVolumes with stripeCount := 2 } o = some (slot, number) ∧
      slot = stripeSlot { twoVolumes with stripeCount := 2 } o ∧
      number = stripeNumber { twoVolumes with stripeCount := 2 } o ∧
      locateChunk { twoVolumes with stripeCount := 2 } o =
        .ok ((elems twoVolumes.volumeIds).getD slot 0,
          baseNeedle twoVolumes slot + UInt64.ofNat number) :=
  ⟨by decide, (locateChunk_eq_placement_iff { twoVolumes with stripeCount := 2 }
    (by decide)).mpr ⟨by decide, .inl rfl⟩⟩

/-- A stripe over two of three listed volumes. -/
def narrowStripe : FileLayout :=
  { hasPlacement := true
    placement := .stripe
    chunkSize := UInt32.ofNat chunkSize
    stripeSize := 64 * UInt64.ofNat chunkSize
    stripeCount := 2
    volumeIds := some ⟨[7, 8, 9], by decide⟩ }

/-- The third unit of the stripe belongs to the first volume again; it is looked for on the third
one. -/
theorem not_locateChunk_eq_placement :
    ¬ ∀ o < maxOffset, ∃ slot number,
      placementLocate (applyLayoutToInode true .fresh narrowStripe) o = some (slot, number) ∧
      locateChunk (applyLayoutToInode true .fresh narrowStripe) o =
        .ok ((elems narrowStripe.volumeIds).getD slot 0,
          baseNeedle (applyLayoutToInode true .fresh narrowStripe) slot
            + UInt64.ofNat number) := by
  intro hall
  obtain ⟨slot, number, hplace, hloc⟩ := hall (128 * chunkSize) (by decide)
  obtain ⟨rfl, rfl⟩ : 0 = slot ∧ 64 = number := by
    simpa using (show some (0, 64) = some (slot, number) from hplace ▸ by decide +kernel)
  revert hloc
  decide +kernel

/-! ### Base needles from a chunk list -/

/-- The start of a listed chunk. -/
def chunkOffset (pi : Inode) (cm : ChunkMap) : Nat := cm.chunkIdx.toNat * pi.chunkSz

/-- What the stripe branch reads besides the key array and the file key. -/
def Inode.addressing (pi : Inode) :
    Placement × UInt32 × UInt64 × UInt32 × Option (Counted UInt64) :=
  (pi.placement, pi.layoutChunkSize, pi.stripeSize, pi.startVolumeIdx, pi.volumeIds)

/-- A layout of the striped inode `src` with base needles `bases`, and chunks that
`powerfs_locate_chunk` placed there, in any order and at least one of every volume. -/
structure ListsChunksOf (src : Inode) (bases : List UInt64) (l : FileLayout) : Prop where
  striped : src.isStriped = true
  chunk : src.layoutChunkSize ≠ 0
  size : src.stripeSize ≠ 0
  dvd : src.layoutChunkSize.toNat ∣ src.stripeSize.toNat
  keys : src.stripeNeedleKeys = some bases
  length : bases.length = (elems src.volumeIds).length
  nonzero : ∀ base ∈ bases, base ≠ 0
  hasPlacement : l.hasPlacement = true
  hasEcChunks : l.hasEcChunks = true
  same : (l.placement, l.chunkSize, l.stripeSize, l.startVolumeIdx, l.volumeIds) = src.addressing
  placed : ∀ cm ∈ elems l.ecChunks,
    locateChunk src (chunkOffset src cm) = .ok (cm.volumeId, cm.needleId)
  every : ∀ slot < (elems src.volumeIds).length, ∃ cm ∈ elems l.ecChunks,
    stripeSlot src (chunkOffset src cm) = slot

/-- What `powerfs_locate_chunk` gives for `pi` are the listed needles and the bases. -/
def GivesBack (src : Inode) (bases : List UInt64) (l : FileLayout) (pi : Inode) : Prop :=
  (∀ cm ∈ elems l.ecChunks,
    locateChunk pi (chunkOffset src cm) = .ok (cm.volumeId, cm.needleId)) ∧
  ∀ slot < (elems src.volumeIds).length, baseNeedle pi slot = bases.getD slot 0

/-- Every key is unset or the base of its slot, and the slots of the chunks seen have theirs. -/
def Rebuilt (src : Inode) (bases : List UInt64) (seen : List ChunkMap) (keys : List UInt64) :
    Prop :=
  keys.length = bases.length ∧
  (∀ slot, keys.getD slot 0 = 0 ∨ keys.getD slot 0 = bases.getD slot 0) ∧
  ∀ cm ∈ seen, keys.getD (stripeSlot src (chunkOffset src cm)) 0
    = bases.getD (stripeSlot src (chunkOffset src cm)) 0

section Rebuild

variable {src : Inode} {bases : List UInt64} {l : FileLayout}

/-- The reconstruction finds slot and number of a chunk as `powerfs_locate_chunk` does. -/
theorem anchorStep_eq (hdvd : src.chunkSz ∣ src.stripeSz)
    (hstart : pi.startVolumeIdx = src.startVolumeIdx) (keys : List UInt64) (cm : ChunkMap) :
    anchorStep pi (elems src.volumeIds).length (src.stripeSz / src.chunkSz) keys cm =
      if keys.getD (stripeSlot src (chunkOffset src cm)) 0 = 0 then
        keys.set (stripeSlot src (chunkOffset src cm))
          (cm.needleId - UInt64.ofNat (stripeNumber src (chunkOffset src cm)))
      else keys := by
  have hpos := src.chunkSz_pos
  obtain ⟨per, hper⟩ := hdvd
  have hper0 : per ≠ 0 := fun h0 => by
    have := src.stripeSz_pos
    simp [h0] at hper
    omega
  have hdiv : src.chunkSz * per / src.chunkSz = per := Nat.mul_div_cancel_left per hpos
  have hunit : chunkOffset src cm / (src.chunkSz * per) = cm.chunkIdx.toNat / per := by
    rw [chunkOffset, Nat.mul_comm src.chunkSz, Nat.mul_div_mul_right _ _ hpos]
  have hin : chunkOffset src cm % (src.chunkSz * per) / src.chunkSz = cm.chunkIdx.toNat % per := by
    rw [chunkOffset, Nat.mul_comm src.chunkSz, Nat.mul_mod_mul_right, Nat.mul_div_cancel _ hpos]
  simp only [anchorStep, stripeSlot, stripeNumber, hper, hdiv, hunit, hin, if_neg hper0, hstart]

section

variable (hl : ListsChunksOf src bases l)
include hl

theorem ListsChunksOf.sub_number {cm : ChunkMap} (hcm : cm ∈ elems l.ecChunks) :
    cm.needleId - UInt64.ofNat (stripeNumber src (chunkOffset src cm))
      = bases.getD (stripeSlot src (chunkOffset src cm)) 0 := by
  have hslot := stripeSlot_lt hl.striped (chunkOffset src cm)
  rw [← hl.length] at hslot
  have hplaced := hl.placed cm hcm
  rw [locateChunk_striped hl.striped, Except.ok.injEq, Prod.mk.injEq] at hplaced
  rw [← hplaced.2, UInt64.add_sub_cancel, baseNeedle, hl.keys]
  simp only [List.getD_eq_getElem?_getD, List.getElem?_eq_getElem hslot, Option.getD_some]

theorem rebuilt_anchorStep
    (hstart : pi.startVolumeIdx = src.startVolumeIdx) {seen : List ChunkMap} {keys : List UInt64}
    {cm : ChunkMap} (hcm : cm ∈ elems l.ecChunks) (h : Rebuilt src bases seen keys) :
    Rebuilt src bases (seen ++ [cm])
      (anchorStep pi (elems src.volumeIds).length (src.stripeSz / src.chunkSz) keys cm) := by
  obtain ⟨hlen, hval, hseen⟩ := h
  have hslot := stripeSlot_lt hl.striped (chunkOffset src cm)
  rw [← hl.length, ← hlen] at hslot
  rw [anchorStep_eq (chunkSz_dvd_stripeSz hl.chunk hl.size hl.dvd) hstart, hl.sub_number hcm]
  generalize hat : stripeSlot src (chunkOffset src cm) = at' at hslot ⊢
  split
  · have hset : ∀ slot, (keys.set at' (bases.getD at' 0)).getD slot 0
        = if at' = slot then bases.getD slot 0 else keys.getD slot 0 := by
      intro slot
      simp only [List.getD_eq_getElem?_getD, List.getElem?_set]
      split
      · next heq => simp [← heq]
      · rfl
    refine ⟨by rw [List.length_set, hlen], fun slot => ?_, fun c hc => ?_⟩
    · rw [hset]
      split
      · exact .inr rfl
      · exact hval slot
    · rw [hset]
      split
      · rfl
      · next hne =>
        obtain hold | hnew := List.mem_append.mp hc
        · exact hseen c hold
        · rw [List.mem_singleton.mp hnew] at hne
          exact absurd hat.symm hne
  · next hkey =>
    refine ⟨hlen, hval, fun c hc => ?_⟩
    obtain hold | hnew := List.mem_append.mp hc
    · exact hseen c hold
    · rw [List.mem_singleton.mp hnew, hat]
      exact (hval at').resolve_left hkey

theorem rebuilt_foldl (hstart : pi.startVolumeIdx = src.startVolumeIdx) {cms seen : List ChunkMap}
    {keys : List UInt64} (hcms : ∀ cm ∈ cms, cm ∈ elems l.ecChunks)
    (h : Rebuilt src bases seen keys) :
    Rebuilt src bases (seen ++ cms)
      (cms.foldl (anchorStep pi (elems src.volumeIds).length (src.stripeSz / src.chunkSz))
        keys) := by
  induction cms generalizing seen keys with
  | nil => simpa using h
  | cons cm cms ih =>
    have hstep := rebuilt_anchorStep hl hstart (hcms cm (List.mem_cons_self ..)) h
    rw [show seen ++ cm :: cms = seen ++ [cm] ++ cms by simp]
    exact ih (fun c hc => hcms c (List.mem_cons_of_mem _ hc)) hstep

end

theorem volumeIds_of_addressing (h : pi.addressing = src.addressing) :
    pi.volumeIds = src.volumeIds := by
  simp only [Inode.addressing, Prod.mk.injEq] at h
  exact h.2.2.2.2

theorem ListsChunksOf.anchorChunksPerUnit_eq (hl : ListsChunksOf src bases l)
    (h : pi.addressing = src.addressing) :
    anchorChunksPerUnit pi = src.stripeSz / src.chunkSz := by
  have hsz : src.stripeSize.toNat ≠ 0 := fun h0 => hl.size (UInt64.toNat_inj.mp h0)
  have hcsz : src.layoutChunkSize.toNat ≠ 0 := fun h0 => hl.chunk (UInt32.toNat_inj.mp h0)
  simp only [Inode.addressing, Prod.mk.injEq] at h
  simp only [anchorChunksPerUnit, Inode.stripeSz, Inode.chunkSz, h, if_pos hl.size,
    if_pos hl.chunk, hsz, hcsz, ne_eq, not_false_eq_true, and_self, if_true]

theorem addressing_applyChunks (alloc preserve : Bool) (pi : Inode) (l : FileLayout) :
    (applyChunks alloc preserve pi l).addressing = pi.addressing ∧
      (applyChunks alloc preserve pi l).fileKey = pi.fileKey := by
  simp only [applyChunks]
  repeat' split
  all_goals exact ⟨rfl, rfl⟩

theorem applyLayoutToInode_fresh (hl : ListsChunksOf src bases l) (alloc : Bool) :
    (applyLayoutToInode alloc .fresh l).addressing = src.addressing ∧
      (applyLayoutToInode alloc .fresh l).fileKey = 0 ∧
      ∃ mid : Inode, mid.addressing = src.addressing ∧
        (applyLayoutToInode alloc .fresh l).stripeNeedleKeys =
          if alloc = true ∧ ¬(l.hasReliability = true ∧ l.reliability = .ec) then
            some (anchorKeys mid (elems l.ecChunks))
          else none := by
  have hsame := hl.same
  simp only [Inode.addressing, Prod.mk.injEq] at hsame
  obtain ⟨hplacement, hchunk, hsize, hstart, hvols⟩ := hsame
  have hstripe : l.placement.isStripe = true := hplacement ▸ placement_of_isStriped hl.striped
  have htakes : takesVolumes .fresh l = true := by
    simp [takesVolumes, layoutIsStale, applyBasics, preserveStripeArrays, Inode.fresh,
      hl.hasPlacement] at hstripe ⊢
    exact hstripe
  have hpos : 0 < l.chunkSize := by
    rw [hchunk]
    exact UInt32.pos_iff_ne_zero.mpr hl.chunk
  obtain ⟨mid, heq, hmid, data, dirty, hfields⟩ := applyLayoutToInode_of_takes alloc htakes
  have haddr : mid.addressing = src.addressing := by
    rw [← hl.same, hfields]
    simp only [Inode.addressing, applyReliability, applyBasics, hl.hasPlacement, if_true,
      if_pos hpos]
  have hper : 0 < anchorChunksPerUnit mid := by
    rw [hl.anchorChunksPerUnit_eq haddr]
    exact Nat.div_pos (Nat.le_of_dvd src.stripeSz_pos
      (chunkSz_dvd_stripeSz hl.chunk hl.size hl.dvd)) src.chunkSz_pos
  have hcount : 0 < (elems mid.volumeIds).length := by
    rw [volumeIds_of_addressing haddr]
    exact src.volumes_pos hl.striped
  have hreliability : mid.reliability = .ec ↔ l.hasReliability = true ∧ l.reliability = .ec := by
    rw [hfields]
    simp only [applyReliability, applyBasics, Inode.fresh]
    cases l.hasReliability <;> simp
  obtain ⟨hsame, hfile⟩ := addressing_applyChunks alloc false mid l
  rw [heq]
  refine ⟨hsame.trans haddr, hfile.trans (by rw [hfields]; rfl), mid, haddr, ?_⟩
  have hnone : mid.stripeNeedleKeys = none := by
    rw [hfields]
    rfl
  rw [applyChunks_keys_of_stripe hmid]
  simp [hl.hasEcChunks, hreliability, hper, hcount, hnone, and_comm]

theorem isStriped_of_addressing (h : pi.addressing = src.addressing) :
    pi.isStriped = src.isStriped := by
  simp only [Inode.addressing, Prod.mk.injEq] at h
  simp only [Inode.isStriped, h]

theorem place_of_addressing (h : pi.addressing = src.addressing) (o : Nat) :
    stripeSlot pi o = stripeSlot src o ∧ stripeNumber pi o = stripeNumber src o := by
  simp only [Inode.addressing, Prod.mk.injEq] at h
  have hchunk : pi.chunkSz = src.chunkSz := by simp only [Inode.chunkSz, h]
  have hstripe : pi.stripeSz = src.stripeSz := by simp only [Inode.stripeSz, hchunk, h]
  simp only [stripeSlot, stripeNumber, hchunk, hstripe, h, and_self]

/-- Applied to a fresh inode, the layout gives back the listed needles and all bases exactly when
the file is not EC (whose list is kept as shards) and the key array can be allocated. -/
theorem givesBack_iff (src : Inode) (bases : List UInt64) (l : FileLayout) (alloc : Bool)
    (hl : ListsChunksOf src bases l) :
    GivesBack src bases l (applyLayoutToInode alloc .fresh l) ↔
      alloc = true ∧ ¬(l.hasReliability = true ∧ l.reliability = .ec) := by
  obtain ⟨haddr, hfile, mid, hmid, hkeys⟩ := applyLayoutToInode_fresh hl alloc
  have hpos : 0 < bases.length := hl.length ▸ src.volumes_pos hl.striped
  constructor
  · rintro ⟨-, hbase⟩
    by_contra hcond
    rw [if_neg hcond] at hkeys
    have hzero := hbase 0 (src.volumes_pos hl.striped)
    rw [baseNeedle, hkeys, hfile, List.getD_eq_getElem?_getD, List.getElem?_eq_getElem hpos] at hzero
    exact hl.nonzero _ (List.getElem_mem hpos) hzero.symm
  · intro hcond
    rw [if_pos hcond] at hkeys
    have hstart : mid.startVolumeIdx = src.startVolumeIdx := by
      simp only [Inode.addressing, Prod.mk.injEq] at hmid
      exact hmid.2.2.2.1
    have hnil : Rebuilt src bases [] (List.replicate (elems src.volumeIds).length 0) := by
      refine ⟨by rw [List.length_replicate, hl.length], fun slot => .inl ?_, nofun⟩
      simp [List.getElem?_replicate]
      split <;> rfl
    have hfold : Rebuilt src bases (elems l.ecChunks) (anchorKeys mid (elems l.ecChunks)) := by
      rw [anchorKeys, hl.anchorChunksPerUnit_eq hmid, volumeIds_of_addressing hmid]
      exact (rebuilt_foldl hl hstart (fun _ h => h) hnil :)
    obtain ⟨hlen, -, hseen⟩ := hfold
    have hbase : ∀ slot < (elems src.volumeIds).length,
        baseNeedle (applyLayoutToInode alloc .fresh l) slot = bases.getD slot 0 := by
      intro slot hslot
      obtain ⟨cm, hcm, rfl⟩ := hl.every slot hslot
      rw [← hseen cm hcm, baseNeedle, hkeys]
      have hlt : stripeSlot src (chunkOffset src cm)
          < (anchorKeys mid (elems l.ecChunks)).length := by
        rw [hlen, hl.length]
        exact hslot
      simp only [List.getD_eq_getElem?_getD, List.getElem?_eq_getElem hlt, Option.getD_some]
    refine ⟨fun cm hcm => ?_, hbase⟩
    obtain ⟨hslot, hnumber⟩ := place_of_addressing haddr (chunkOffset src cm)
    rw [locateChunk_striped (isStriped_of_addressing haddr ▸ hl.striped), hslot, hnumber,
      volumeIds_of_addressing haddr, hbase _ (stripeSlot_lt hl.striped _), ← hl.sub_number hcm,
      UInt64.sub_add_cancel]
    have hplaced := hl.placed cm hcm
    rw [locateChunk_striped hl.striped, Except.ok.injEq, Prod.mk.injEq] at hplaced
    rw [hplaced.1]

end Rebuild

/-- Anchors of `twoVolumes`: the second chunk of each volume, the later one first. -/
def twoAnchors : FileLayout :=
  { hasPlacement := true
    placement := .stripe
    chunkSize := UInt32.ofNat chunkSize
    stripeSize := 2 * UInt64.ofNat chunkSize
    startVolumeIdx := 1
    volumeIds := some ⟨[7, 8], length_twoIds⟩
    hasEcChunks := true
    ecChunks := some ⟨[⟨3, 101, 7, 0, 0⟩, ⟨1, 201, 8, 0, 0⟩], by decide⟩ }

theorem listsChunksOf_twoAnchors (reliability : Reliability) :
    ListsChunksOf twoVolumes [100, 200]
      { twoAnchors with hasReliability := true, reliability := reliability } where
  striped := by decide
  chunk := by decide
  size := by decide
  dvd := by decide
  keys := rfl
  length := rfl
  nonzero := by simp
  hasPlacement := rfl
  hasEcChunks := rfl
  same := rfl
  placed := by
    show ∀ cm ∈ elems twoAnchors.ecChunks, _
    decide +kernel
  every := by
    show ∀ slot < 2, ∃ cm ∈ elems twoAnchors.ecChunks, _
    decide +kernel

theorem givesBack_twoAnchors :
    GivesBack twoVolumes [100, 200] { twoAnchors with hasReliability := true }
      (applyLayoutToInode true .fresh { twoAnchors with hasReliability := true }) :=
  (givesBack_iff _ _ _ _ (listsChunksOf_twoAnchors .single)).mpr ⟨rfl, by decide⟩

theorem not_givesBack_ec :
    ¬ ∀ (src : Inode) (bases : List UInt64) (l : FileLayout) (alloc : Bool),
      ListsChunksOf src bases l → GivesBack src bases l (applyLayoutToInode alloc .fresh l) := by
  intro hall
  have hback := hall _ _ _ true (listsChunksOf_twoAnchors .ec)
  have hzero := hback.2 0 (by decide)
  revert hzero
  decide +kernel

end PowerFS.Layout
