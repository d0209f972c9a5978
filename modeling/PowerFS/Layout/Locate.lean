import PowerFS.Layout.Inode
import PowerFS.Lib.BlockMap
import PowerFS.Lib.Striping

namespace PowerFS.Layout

/-! `powerfs_locate_chunk` of `powerfs_inode.c`. -/

/-- File offsets are `loff_t` and not negative. -/
def maxOffset : Nat := 2 ^ 63

namespace Inode

/-- The chunk size in effect: the layout's, or the constant where the layout has none. -/
def chunkSz (pi : Inode) : Nat :=
  if pi.layoutChunkSize ≠ 0 then pi.layoutChunkSize.toNat else chunkSize

def stripeSz (pi : Inode) : Nat :=
  if pi.stripeSize ≠ 0 then pi.stripeSize.toNat else pi.chunkSz

/-- Addressed by the striping formula: a stripe placement with at least one volume. -/
def isStriped (pi : Inode) : Bool :=
  pi.placement.isStripe && decide (0 < (elems pi.volumeIds).length)

/-- Both halves of the Flat mapping are known. -/
def isMapped (pi : Inode) : Bool := pi.volumeId ≠ 0 && pi.fileKey ≠ 0

end Inode

/-- The entry for chunk `i` of the explicit chunk list, which stripe placements do not use. An
entry with a zero half is a hole. -/
def listedChunk (pi : Inode) (i : Nat) : Option (UInt64 × UInt64) :=
  if pi.placement.isStripe then none
  else match (elems pi.chunks)[i]? with
    | none => none
    | some cm =>
      if cm.volumeId ≠ 0 ∧ cm.needleId ≠ 0 then some (cm.volumeId, cm.needleId) else none

/-- The base needle of a volume slot. Without a key array it is the file key. -/
def baseNeedle (pi : Inode) (slot : Nat) : UInt64 :=
  match pi.stripeNeedleKeys with
  | none => pi.fileKey
  | some keys => keys.getD slot (pi.pastKeys slot)

/-- The stripe branch of `powerfs_locate_chunk`. -/
def locateStripe (pi : Inode) (offset : Nat) : UInt64 × UInt64 :=
  let count := (elems pi.volumeIds).length
  let chunksPerUnit :=
    if pi.stripeSz / pi.chunkSz = 0 then 1 else pi.stripeSz / pi.chunkSz
  let stripeIdx := offset / pi.stripeSz
  let volRank := stripeIdx % count
  let round := stripeIdx / count
  let volArrayIdx := (pi.startVolumeIdx.toNat + volRank) % count
  let chunkIdxInUnit := offset % pi.stripeSz / pi.chunkSz
  let volChunkIdx := round * chunksPerUnit + chunkIdxInUnit
  ((elems pi.volumeIds).getD volArrayIdx 0,
    baseNeedle pi volArrayIdx + UInt64.ofNat volChunkIdx)

/-- `powerfs_locate_chunk`: the volume and needle of a file offset. -/
def locateChunk (pi : Inode) (offset : Nat) : Except Errno (UInt64 × UInt64) :=
  if pi.placement = .inline then .error .einval
  else match listedChunk pi (offset / pi.chunkSz) with
    | some place => .ok place
    | none =>
      if pi.isStriped then .ok (locateStripe pi offset)
      else if pi.isMapped then
        .ok (pi.volumeId, pi.fileKey + UInt64.ofNat (offset / pi.chunkSz))
      else .error .einval

def located (pi : Inode) (offset : Nat) : Option (UInt64 × UInt64) :=
  (locateChunk pi offset).toOption

theorem located_eq_some {pi : Inode} {o : Nat} {p : UInt64 × UInt64} :
    located pi o = some p ↔ locateChunk pi o = .ok p := by
  rw [located]
  cases locateChunk pi o <;> simp [Except.toOption]

theorem Inode.chunkSz_pos (pi : Inode) : 0 < pi.chunkSz := by
  rw [chunkSz]
  split
  · next h =>
    have hne : pi.layoutChunkSize.toNat ≠ 0 := fun h0 => h (UInt32.toNat_inj.mp h0)
    omega
  · exact chunkSize_pos

theorem Inode.chunkSz_lt (pi : Inode) : pi.chunkSz < 2 ^ 32 := by
  rw [chunkSz]
  split
  · exact pi.layoutChunkSize.toNat_lt
  · exact Nat.pow_lt_pow_right (by decide) (by decide)

theorem Inode.stripeSz_pos (pi : Inode) : 0 < pi.stripeSz := by
  rw [stripeSz]
  split
  · next h =>
    have hne : pi.stripeSize.toNat ≠ 0 := fun h0 => h (UInt64.toNat_inj.mp h0)
    omega
  · exact pi.chunkSz_pos

theorem Inode.volumes_pos {pi : Inode} (h : pi.isStriped = true) :
    0 < (elems pi.volumeIds).length := by
  simp only [isStriped, Bool.and_eq_true, decide_eq_true_eq] at h
  exact h.2

theorem listedChunk_of_isStriped {pi : Inode} (h : pi.isStriped = true) (i : Nat) :
    listedChunk pi i = none := by
  simp only [Inode.isStriped, Bool.and_eq_true] at h
  rw [listedChunk, if_pos h.1]

theorem listedChunk_lt {pi : Inode} {i : Nat} {p : UInt64 × UInt64}
    (h : listedChunk pi i = some p) : i < 2 ^ 32 := by
  have hlen := elems_length_lt pi.chunks
  by_contra hge
  have hnone : (elems pi.chunks)[i]? = none := List.getElem?_eq_none (by omega)
  simp [listedChunk, hnone] at h

def stripeGeometry (pi : Inode) (h : pi.isStriped = true) : Striping.Geometry where
  unit := pi.stripeSz
  chunk := pi.chunkSz
  width := (elems pi.volumeIds).length
  unit_pos := pi.stripeSz_pos
  chunk_pos := pi.chunkSz_pos
  width_pos := pi.volumes_pos h

/-- Volume and base needle of the `rank`-th volume in striping order. -/
def stripeBase (pi : Inode) (rank : Nat) : UInt64 × UInt64 :=
  let slot := (pi.startVolumeIdx.toNat + rank) % (elems pi.volumeIds).length
  ((elems pi.volumeIds).getD slot 0, baseNeedle pi slot)

/-- The (volume, base needle) pair an offset is addressed from, and its distance from the
base. An entry of the chunk list is a base of its own. -/
def chunkBase (pi : Inode) (offset : Nat) : Option ((UInt64 × UInt64) × Nat) :=
  if pi.placement = .inline then none
  else match listedChunk pi (offset / pi.chunkSz) with
    | some place => some (place, 0)
    | none =>
      if h : pi.isStriped then some ((stripeGeometry pi h).place (stripeBase pi) offset)
      else if pi.isMapped then some ((pi.volumeId, pi.fileKey), offset / pi.chunkSz)
      else none

/-- The needle at distance `p.2` from the base `p.1`. -/
def needleAt (p : (UInt64 × UInt64) × Nat) : UInt64 × UInt64 :=
  (p.1.1, p.1.2 + UInt64.ofNat p.2)

theorem perUnit_eq_max (q : Nat) : (if q = 0 then 1 else q) = max 1 q := by
  split <;> omega

theorem locateStripe_eq {pi : Inode} (h : pi.isStriped = true) (o : Nat) :
    locateStripe pi o = needleAt ((stripeGeometry pi h).place (stripeBase pi) o) := by
  simp only [locateStripe, perUnit_eq_max]
  rfl

theorem located_eq_chunkBase (pi : Inode) (o : Nat) :
    located pi o = (chunkBase pi o).map needleAt := by
  rw [located, locateChunk, chunkBase]
  by_cases hinline : pi.placement = .inline
  · simp [hinline, Except.toOption]
  · rw [if_neg hinline, if_neg hinline]
    cases listedChunk pi (o / pi.chunkSz) with
    | some p => simp [needleAt, Except.toOption]
    | none =>
      by_cases hstripe : pi.isStriped = true
      · simp [hstripe, locateStripe_eq hstripe, Except.toOption]
      · by_cases hmap : pi.isMapped = true
        · simp [hstripe, hmap, needleAt, Except.toOption]
        · simp [hstripe, hmap, Except.toOption]

theorem chunkBase_dist_le {pi : Inode} {o : Nat} {p : (UInt64 × UInt64) × Nat}
    (h : chunkBase pi o = some p) : p.2 ≤ o := by
  rw [chunkBase] at h
  split at h <;> try cases h
  split at h
  · cases h
    exact Nat.zero_le o
  · split at h
    · cases h
      exact Striping.Geometry.index_le o
    · split at h
      · cases h
        exact Nat.div_le_self _ _
      · cases h

end PowerFS.Layout
