import PowerFS.Layout.Inode
import PowerFS.Net.Tlv

namespace PowerFS.Layout

open Net

/-! `parse_file_layout` of `powerfs_net_inode.c` and the field parsers it calls. -/

def fldPlacement : UInt8 := 0xA0
def fldReliability : UInt8 := 0xA1
def fldReliabilityState : UInt8 := 0xA2
def fldChunkLayout : UInt8 := 0xA4
def fldStripeSize : UInt8 := 0xA8
def fldStripeCount : UInt8 := 0xA9
def fldStartVolumeIdx : UInt8 := 0xAA
def fldVolumeIds : UInt8 := 0xAB
def fldStartNeedleId : UInt8 := 0xAC
def fldChunkSize : UInt8 := 0xAD
def fldInlineData : UInt8 := 0xAE
def fldInlineMaxSize : UInt8 := 0xAF
def fldReplicaChunks : UInt8 := 0xB5
def fldVolumeIdsRange : UInt8 := 0xB6

/-- Which of the allocations of `parse_file_layout` succeed. -/
structure ParseAlloc where
  inlineData : Bool
  chunkLayoutInline : Bool
  perChunk : Bool
  volumeIds : Bool
  volumeIdsRange : Bool
  replicaChunks : Bool

def ParseAlloc.all : ParseAlloc := ⟨true, true, true, true, true, true⟩

/-- The placement named by a tag; an unknown tag counts as Flat. -/
def Placement.ofTag (tag : UInt8) : Placement :=
  if tag = 0 then .inline else if tag = 2 then .stripe else if tag = 3 then .wideStripe
  else .flat

/-- `parse_placement_field`. -/
def parsePlacementField (val : List UInt8) (l : FileLayout) : FileLayout :=
  match val with
  | [] => l
  | tag :: rest =>
    let l := { l with placement := Placement.ofTag tag, hasPlacement := true }
    match Placement.ofTag tag with
    | .flat => l
    | .inline => if 5 ≤ val.length then { l with inlineMaxSize := le32 rest } else l
    | .stripe | .wideStripe =>
      if 17 ≤ val.length then
        { l with
          stripeSize := le64 rest
          stripeCount := le32 (rest.drop 8)
          startVolumeIdx := le32 (rest.drop 12) }
      else l

/-- `parse_reliability_field`. -/
def parseReliabilityField (val : List UInt8) (l : FileLayout) : FileLayout :=
  match val with
  | [] => l
  | tag :: rest =>
    let l := { l with reliability := .ofTag tag, hasReliability := true }
    if Reliability.ofTag tag = .ec ∧ 9 ≤ val.length then
      { l with ecDataShards := le32 rest, ecParityShards := le32 (rest.drop 4) }
    else l

/-- One `ChunkRef` of 44 bytes: offset, size, needle, volume, crc, mtime. -/
def parseChunkRef (bs : List UInt8) : ChunkMap where
  chunkIdx := UInt32.ofNat ((le64 bs).toNat / chunkSize)
  size := le64 (bs.drop 8)
  needleId := le64 (bs.drop 16)
  volumeId := le64 (bs.drop 24)
  crc32 := le32 (bs.drop 32)

/-- The loop over `count` chunk references. -/
def parseChunkRefs (count : UInt32) (bs : List UInt8) : Counted ChunkMap :=
  ⟨(List.range count.toNat).map fun i => parseChunkRef (bs.drop (44 * i)), by
    simpa using count.toNat_lt⟩

/-- `parse_replica_chunks_field`. -/
def parseReplicaChunksField (alloc : Bool) (val : List UInt8) (l : FileLayout) : FileLayout :=
  if val.length < 4 then l
  else
    let count := le32 val
    if count = 0 then { l with replicaChunks := none, hasReplicaChunks := true }
    else if val.length < 4 + count.toNat * 44 then l
    else if !alloc then l
    else { l with replicaChunks := some (parseChunkRefs count (val.drop 4))
                  hasReplicaChunks := true }

/-- The `InlineData` (0xAE) section. -/
def parseInlineData (alloc : ParseAlloc) (d : TlvDec) (l : FileLayout) : FileLayout :=
  match d.findRaw fldInlineData with
  | none => l
  | some raw =>
    if 0 < raw.length ∧ raw.length ≤ inlineMaxSize ∧ alloc.inlineData then
      { l with inlineData := some raw, hasInlineData := true }
    else l

/-- The `ChunkLayout` (0xA4) section, read only when no `InlineData` was accepted. Tag 0 is an
inline payload, tag 1 a list of chunk references. -/
def parseChunkLayout (alloc : ParseAlloc) (d : TlvDec) (l : FileLayout) : FileLayout :=
  if l.hasInlineData then l
  else match d.findRaw fldChunkLayout with
  | none => l
  | some raw =>
    if 5 ≤ raw.length ∧ raw.getD 0 0 = 0 then
      let dataLen := (le32 (raw.drop 1)).toNat
      if 0 < dataLen ∧ dataLen ≤ inlineMaxSize ∧ 5 + dataLen ≤ raw.length
          ∧ alloc.chunkLayoutInline then
        { l with inlineData := some ((raw.drop 5).take dataLen), hasInlineData := true }
      else l
    else if 5 ≤ raw.length ∧ raw.getD 0 0 = 1 then
      let count := le32 (raw.drop 1)
      if 0 < count.toNat ∧ 5 + count.toNat * 44 ≤ raw.length ∧ alloc.perChunk then
        { l with ecChunks := some (parseChunkRefs count (raw.drop 5)), hasEcChunks := true }
      else l
    else l

/-- The separate stripe fields, used where the placement field left a zero. -/
def parseStripeFields (d : TlvDec) (l : FileLayout) : FileLayout :=
  let l := if l.stripeSize = 0 then
    { l with stripeSize := (d.findU64 fldStripeSize).getD 0 } else l
  let l := if l.stripeCount = 0 then
    { l with stripeCount := (d.findU32 fldStripeCount).getD 0 } else l
  let l := if l.startVolumeIdx = 0 then
    { l with startVolumeIdx := (d.findU32 fldStartVolumeIdx).getD 0 } else l
  { l with startNeedleId := (d.findU64 fldStartNeedleId).getD 0 }

/-- `VolumeIds` (0xAB): an array of `u64`, at most 256 of them. -/
def parseVolumeIds (alloc : ParseAlloc) (d : TlvDec) (l : FileLayout) : FileLayout :=
  match d.findRaw fldVolumeIds with
  | none => l
  | some raw =>
    if h : 0 < raw.length ∧ raw.length % 8 = 0 ∧ raw.length / 8 ≤ 256 ∧ alloc.volumeIds then
      let ids : Counted UInt64 :=
        ⟨(List.range (raw.length / 8)).map fun i => le64 (raw.drop (8 * i)), by
          rw [List.length_map, List.length_range]
          omega⟩
      { l with volumeIds := some ids }
    else l

/-- `VolumeIdsRange` (0xB6): a first id and a count, read only when 0xAB gave no array. -/
def parseVolumeIdsRange (alloc : ParseAlloc) (d : TlvDec) (l : FileLayout) : FileLayout :=
  if l.volumeIds.isSome then l
  else match d.findRaw fldVolumeIdsRange with
  | none => l
  | some raw =>
    let count := (le32 (raw.drop 8)).toNat
    if h : raw.length = 12 ∧ 0 < count ∧ count ≤ 256 ∧ alloc.volumeIdsRange then
      let ids : Counted UInt64 :=
        ⟨(List.range count).map fun i => le64 raw + UInt64.ofNat i, by
          rw [List.length_map, List.length_range]
          omega⟩
      { l with volumeIds := some ids }
    else l

/-- `parse_file_layout`. -/
def parseFileLayout (alloc : ParseAlloc) (d : TlvDec) : FileLayout :=
  let l : FileLayout := {}
  let l := match d.findRaw fldPlacement with
    | some raw => parsePlacementField raw l
    | none => l
  let l := match d.findRaw fldReliability with
    | some raw => parseReliabilityField raw l
    | none => l
  let l := { l with reliabilityState := (d.findU8 fldReliabilityState).getD 0 }
  let l := match d.findU32 fldChunkSize with
    | some v => if 0 < v then { l with chunkSize := v } else l
    | none => l
  let l := if l.inlineMaxSize = 0 then
    { l with inlineMaxSize := (d.findU32 fldInlineMaxSize).getD 0 } else l
  let l := parseInlineData alloc d l
  let l := parseChunkLayout alloc d l
  let l := parseStripeFields d l
  let l := parseVolumeIds alloc d l
  let l := parseVolumeIdsRange alloc d l
  match d.findRaw fldReplicaChunks with
    | some raw => parseReplicaChunksField alloc.replicaChunks raw l
    | none => l

end PowerFS.Layout
