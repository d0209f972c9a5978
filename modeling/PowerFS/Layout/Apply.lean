import PowerFS.Layout.Inode

namespace PowerFS.Layout

/-! `powerfs_apply_layout_to_inode` of `powerfs_inode.c`, one definition per section of the
source. Ownership of the arrays moves from the layout to the inode; what is not taken over is
freed, so only the inode is returned. -/

/-- The three cases in which the whole server layout is stale and dropped: unsent inline data,
an inode already migrated out of Inline, and one already striped. -/
def layoutIsStale (pi : Inode) (l : FileLayout) : Bool :=
  l.hasPlacement &&
    ((pi.placement = .inline && pi.inlineDirty && l.placement ≠ .inline)
      || (pi.placement ≠ .inline && (pi.volumeId ≠ 0 || pi.fileKey ≠ 0)
          && l.placement = .inline)
      || (pi.placement.isStripe && !(elems pi.volumeIds).isEmpty
          && (l.placement = .flat || l.placement = .inline)))

/-- Placement, reliability, chunk size and inline threshold. -/
def applyBasics (pi : Inode) (l : FileLayout) : Inode :=
  { pi with
    placement := if l.hasPlacement then l.placement else pi.placement
    reliability := if l.hasReliability then l.reliability else pi.reliability
    reliabilityState := l.reliabilityState
    layoutChunkSize := if 0 < l.chunkSize then l.chunkSize else pi.layoutChunkSize
    inlineMaxSize :=
      if 0 < l.inlineMaxSize then l.inlineMaxSize
      else if pi.inlineMaxSize = 0 then UInt32.ofNat inlineMaxSize
      else pi.inlineMaxSize }

def applyInlineData (pi : Inode) (l : FileLayout) : Inode :=
  if pi.placement = .inline ∧ l.hasInlineData then
    if pi.inlineDirty then pi else { pi with inlineData := l.inlineData }
  else if pi.placement ≠ .inline ∧ pi.inlineData.isSome then
    { pi with inlineData := none, inlineDirty := false }
  else pi

/-- The server lists a proper subset of the local volumes for the same stripe size: the local
arrays, which came from the allocation, are kept. -/
def preserveStripeArrays (pi : Inode) (l : FileLayout) : Bool :=
  pi.placement.isStripe && 0 < pi.stripeSize && pi.stripeSize = l.stripeSize
    && (elems l.volumeIds).length < (elems pi.volumeIds).length
    && 0 < (elems l.volumeIds).length && pi.volumeIds.isSome
    && (elems l.volumeIds).all fun v => (elems pi.volumeIds).contains v

def applyStripe (pi : Inode) (l : FileLayout) : Inode :=
  if pi.placement.isStripe then
    if preserveStripeArrays pi l then pi
    else
      { pi with
        stripeSize := l.stripeSize
        stripeCount := l.stripeCount
        startVolumeIdx := l.startVolumeIdx
        volumeIds := l.volumeIds }
  else
    { pi with volumeIds := none, stripeNeedleKeys := none, stripeSize := 0, stripeCount := 0 }

/-- The shard counts and the replica list. -/
def applyReliability (pi : Inode) (l : FileLayout) : Inode :=
  { pi with
    ecDataShards := if pi.reliability = .ec then l.ecDataShards else 0
    ecParityShards := if pi.reliability = .ec then l.ecParityShards else 0
    replicaChunks := if l.hasReplicaChunks then l.replicaChunks else pi.replicaChunks }

/-- `stripe_sz / csz` as the base needle reconstruction computes it. -/
def anchorChunksPerUnit (pi : Inode) : Nat :=
  let stripeSz := if pi.stripeSize ≠ 0 then pi.stripeSize.toNat else pi.layoutChunkSize.toNat
  let csz := if pi.layoutChunkSize ≠ 0 then pi.layoutChunkSize.toNat else chunkSize
  if stripeSz ≠ 0 ∧ csz ≠ 0 then stripeSz / csz else 1

/-- One round of the base needle reconstruction: chunk `cm` gives the base of its volume if
that volume has none yet. -/
def anchorStep (pi : Inode) (nkeys perUnit : Nat) (keys : List UInt64) (cm : ChunkMap) :
    List UInt64 :=
  let sIdx := cm.chunkIdx.toNat / perUnit
  let volIdx := (pi.startVolumeIdx.toNat + sIdx % nkeys) % nkeys
  let volChunkIdx := sIdx / nkeys * perUnit + cm.chunkIdx.toNat % perUnit
  if keys.getD volIdx 0 = 0 then keys.set volIdx (cm.needleId - UInt64.ofNat volChunkIdx)
  else keys

/-- The base needle of every volume, from the chunk references of the response. -/
def anchorKeys (pi : Inode) (anchors : List ChunkMap) : List UInt64 :=
  let nkeys := (elems pi.volumeIds).length
  anchors.foldl (anchorStep pi nkeys (anchorChunksPerUnit pi)) (List.replicate nkeys 0)

/-- The chunk references: shards of an EC file, the chunk list of a Flat file, anchors of a
striped one. `preserve` is the decision of `preserveStripeArrays`, `alloc` whether the key
array could be allocated. -/
def applyChunks (alloc preserve : Bool) (pi : Inode) (l : FileLayout) : Inode :=
  if !l.hasEcChunks then pi
  else if pi.reliability = .ec then { pi with ecChunks := l.ecChunks }
  else if pi.placement = .flat then { pi with chunks := l.ecChunks }
  else if pi.placement.isStripe then
    let pi :=
      if 0 < (elems pi.volumeIds).length ∧ 0 < anchorChunksPerUnit pi ∧ !preserve ∧ alloc then
        { pi with stripeNeedleKeys := some (anchorKeys pi (elems l.ecChunks)) }
      else pi
    { pi with chunks := none }
  else pi

/-- `powerfs_apply_layout_to_inode`. -/
def applyLayoutToInode (alloc : Bool) (pi : Inode) (l : FileLayout) : Inode :=
  if layoutIsStale pi l then pi
  else
    let pi := applyBasics pi l
    let pi := applyInlineData pi l
    let preserve := preserveStripeArrays pi l
    let pi := applyStripe pi l
    let pi := applyReliability pi l
    applyChunks alloc preserve pi l

end PowerFS.Layout
