import PowerFS.Errno
import Mathlib.Algebra.Group.Nat.Defs

namespace PowerFS.Layout

/-- `POWERFS_CHUNK_SIZE`: the size of a needle. -/
def chunkSize : Nat := 2 ^ 20

theorem chunkSize_pos : 0 < chunkSize := Nat.two_pow_pos 20

/-- `POWERFS_INLINE_MAX_SIZE`. -/
def inlineMaxSize : Nat := 8192

/-- `enum powerfs_placement`. -/
inductive Placement where
  | inline | flat | stripe | wideStripe
  deriving DecidableEq, Repr

/-- `enum powerfs_reliability`. The tag of the response is taken over unchecked. -/
inductive Reliability where
  | single | replicated | ec | other (tag : UInt8)
  deriving DecidableEq, Repr

def Reliability.ofTag (tag : UInt8) : Reliability :=
  if tag = 0 then .single else if tag = 1 then .replicated else if tag = 2 then .ec
  else .other tag

/-- `struct powerfs_chunk_map`. -/
structure ChunkMap where
  chunkIdx : UInt32
  needleId : UInt64
  volumeId : UInt64
  crc32 : UInt32
  size : UInt64
  deriving DecidableEq, Repr

/-- An array whose element count is kept in a `u32`. -/
def Counted (α : Type) := { l : List α // l.length < 2 ^ 32 }

/-- The elements of an array pointer; the null pointer has none. -/
def elems {α : Type} : Option (Counted α) → List α
  | none => []
  | some a => a.val

@[simp] theorem elems_none {α : Type} : elems (none : Option (Counted α)) = [] := rfl

@[simp] theorem elems_some {α : Type} (a : Counted α) : elems (some a) = a.val := rfl

theorem elems_length_lt {α : Type} (a : Option (Counted α)) : (elems a).length < 2 ^ 32 := by
  cases a with
  | none => simp
  | some a => exact a.property

/-- The layout part of `struct powerfs_inode_info`. `stripe_needle_keys` has no count of its
own; `pastKeys` is what a read behind its last element finds in memory. -/
structure Inode where
  volumeId : UInt64
  fileKey : UInt64
  placement : Placement
  reliability : Reliability
  reliabilityState : UInt8
  layoutChunkSize : UInt32
  stripeSize : UInt64
  stripeCount : UInt32
  startVolumeIdx : UInt32
  volumeIds : Option (Counted UInt64)
  stripeNeedleKeys : Option (List UInt64)
  pastKeys : Nat → UInt64
  chunks : Option (Counted ChunkMap)
  replicaChunks : Option (Counted ChunkMap)
  ecChunks : Option (Counted ChunkMap)
  ecDataShards : UInt32
  ecParityShards : UInt32
  inlineData : Option (List UInt8)
  inlineMaxSize : UInt32
  inlineDirty : Bool

/-- The layout of a new inode, `powerfs_alloc_inode`. -/
def Inode.fresh : Inode where
  volumeId := 0
  fileKey := 0
  placement := .flat
  reliability := .single
  reliabilityState := 0
  layoutChunkSize := UInt32.ofNat chunkSize
  stripeSize := 0
  stripeCount := 0
  startVolumeIdx := 0
  volumeIds := none
  stripeNeedleKeys := none
  pastKeys := fun _ => 0
  chunks := none
  replicaChunks := none
  ecChunks := none
  ecDataShards := 0
  ecParityShards := 0
  inlineData := none
  inlineMaxSize := 0
  inlineDirty := false

/-- The placements whose data is spread over `volume_ids`. -/
def Placement.isStripe : Placement → Bool
  | .stripe | .wideStripe => true
  | .inline | .flat => false

/-- `struct powerfs_file_layout`, the parsed fields of a response. -/
structure FileLayout where
  placement : Placement := .inline
  reliability : Reliability := .single
  reliabilityState : UInt8 := 0
  chunkSize : UInt32 := UInt32.ofNat Layout.chunkSize
  inlineMaxSize : UInt32 := 0
  inlineData : Option (List UInt8) := none
  stripeSize : UInt64 := 0
  stripeCount : UInt32 := 0
  startVolumeIdx : UInt32 := 0
  startNeedleId : UInt64 := 0
  volumeIds : Option (Counted UInt64) := none
  ecDataShards : UInt32 := 0
  ecParityShards : UInt32 := 0
  replicaChunks : Option (Counted ChunkMap) := none
  ecChunks : Option (Counted ChunkMap) := none
  hasPlacement : Bool := false
  hasReliability : Bool := false
  hasInlineData : Bool := false
  hasReplicaChunks : Bool := false
  hasEcChunks : Bool := false

end PowerFS.Layout
