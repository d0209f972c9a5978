import PowerFS.Ec.Codec
import PowerFS.Layout.Locate
import PowerFS.Lib.Crc

namespace PowerFS.Data

open Layout

/-! `powerfs_net_read` and `powerfs_net_read_ec` of `powerfs_net_data.c`. -/

/-- What a Volume server answers to a ReadNeedle of (volume, needle). -/
abbrev NeedleReads := UInt64 × UInt64 → Except Errno (List UInt8)

/-- `powerfs_net_read_needle` into a buffer of `POWERFS_CHUNK_SIZE` bytes: a longer answer does
not fit. -/
def readNeedle (rd : NeedleReads) (place : UInt64 × UInt64) : Except Errno (List UInt8) :=
  match rd place with
  | .error e => .error e
  | .ok bytes => if chunkSize < bytes.length then .error .e2big else .ok bytes

/-- The polynomial of the kernel's `crc32_le`. -/
def crc32Poly : BitVec 32 := 0xEDB88320#32

/-- `crc32_le(~0, bytes, len) ^ ~0`. -/
def crc32 (bytes : List UInt8) : UInt32 :=
  ⟨Crc.run crc32Poly (BitVec.allOnes 32) bytes ^^^ BitVec.allOnes 32⟩

/-- The integrity test: no recorded value and no data pass it. -/
def crcMismatch (expected : UInt32) (bytes : List UInt8) : Bool :=
  expected ≠ 0 && 0 < bytes.length && crc32 bytes ≠ expected

/-- The first replica entry for the chunk of an offset; the chunk number is cut to `u32`. -/
def replicaFor (pi : Inode) (cur : Nat) : Option ChunkMap :=
  (elems pi.replicaChunks).find? fun r => r.chunkIdx = UInt32.ofNat (cur / chunkSize)

/-- The primary read with its failover: an error other than `-ENOENT` is retried once, on the
first replica entry of the chunk. -/
def readWithFailover (rd : NeedleReads) (pi : Inode) (cur : Nat) (place : UInt64 × UInt64) :
    Except Errno (List UInt8) :=
  match readNeedle rd place with
  | .ok bytes => .ok bytes
  | .error .enoent => .error .enoent
  | .error e =>
    match replicaFor pi cur with
    | none => .error e
    | some r =>
      match readNeedle rd (r.volumeId, r.needleId) with
      | .error e => .error e
      | .ok bytes => if crcMismatch r.crc32 bytes then .error .eio else .ok bytes

/-- The needle content one round of the read loop works with. A missing needle is empty. -/
def fetchNeedle (rd : NeedleReads) (pi : Inode) (cur : Nat) (place : UInt64 × UInt64) :
    Except Errno (List UInt8) :=
  match readWithFailover rd pi cur place with
  | .error .enoent => .ok []
  | .error e => .error e
  | .ok bytes =>
    match replicaFor pi cur with
    | none => .ok bytes
    | some r => if crcMismatch r.crc32 bytes then .error .eio else .ok bytes

/-- One round of the read loop: bytes of the file from `fileOff` on, taken from needle `place`
from byte `fileOff % POWERFS_CHUNK_SIZE` on. -/
structure Segment where
  fileOff : Nat
  place : UInt64 × UInt64
  bytes : List UInt8

/-- The bytes a round copies: the rest of the needle, or zeros up to the end of the chunk when
the needle ends before `off`. -/
def segmentBytes (needle : List UInt8) (off remaining : Nat) : List UInt8 :=
  if needle.length ≤ off then List.replicate (min remaining (chunkSize - off)) 0
  else (needle.drop off).take remaining

/-- The loop of `powerfs_net_read`. It stops early behind the end of a short needle. -/
def netReadLoop (rd : NeedleReads) (pi : Inode) :
    Nat → Nat → Nat → Except Errno (List Segment)
  | 0, _, _ => .ok []
  | fuel + 1, cur, remaining =>
    if remaining = 0 then .ok []
    else
      match locateChunk pi cur with
      | .error e => .error e
      | .ok place =>
        match fetchNeedle rd pi cur place with
        | .error e => .error e
        | .ok needle =>
          let off := cur % chunkSize
          let bytes := segmentBytes needle off remaining
          if needle.length < chunkSize ∧ needle.length ≤ off + bytes.length then
            .ok [⟨cur, place, bytes⟩]
          else
            match netReadLoop rd pi fuel (cur + bytes.length) (remaining - bytes.length) with
            | .error e => .error e
            | .ok rest => .ok (⟨cur, place, bytes⟩ :: rest)

def readsEc (pi : Inode) : Bool := pi.reliability = .ec && pi.ecChunks.isSome

/-- What a read finds outside the modelled state: which allocations succeed, and the contents
of freshly allocated buffers. -/
structure ReadEnv where
  needleBuf : Bool
  shards : Bool
  available : Bool
  groupData : Bool
  shard : Nat → Bool
  init : Ec.InitAlloc
  decode : (n : Nat) → Ec.DecodeAlloc n
  uninitShard : Nat → Nat → UInt8
  uninitGroup : Nat → UInt8

/-- Every allocation succeeds and fresh buffers are zero. -/
def ReadEnv.calm : ReadEnv where
  needleBuf := true
  shards := true
  available := true
  groupData := true
  shard := fun _ => true
  init := .all
  decode := .all
  uninitShard := fun _ _ => 0
  uninitGroup := fun _ => 0

def ecData (pi : Inode) : Nat := pi.ecDataShards.toNat

/-- `total_shards`, a `u32` sum. -/
def ecTotal (pi : Inode) : Nat := (pi.ecDataShards + pi.ecParityShards).toNat

/-- `group_data_size`. -/
def ecGroupSize (pi : Inode) : Nat := ecData pi * chunkSize

/-- `group_base`: where the shards of the group of `offset` start in `ec_chunks`. -/
def ecGroupBase (pi : Inode) (offset : Nat) : Nat := offset / ecGroupSize pi * ecTotal pi

/-- Shard `i` of the group: missing when there is no memory, the read fails or the check value
is wrong; a short needle leaves the rest of the buffer as it was allocated. -/
def ecShard (env : ReadEnv) (rd : NeedleReads) (pi : Inode) (base i : Nat) :
    Option (Ec.Shard chunkSize) :=
  match (elems pi.ecChunks)[base + i]? with
  | none => none
  | some e =>
    if !env.shard i then none
    else match readNeedle rd (e.volumeId, e.needleId) with
      | .error _ => none
      | .ok bytes =>
        if crcMismatch e.crc32 bytes then none
        else some fun j => bytes.getD j.val (env.uninitShard i j.val)

/-- Byte `x` of `group_data`, the data shards one after the other. -/
def ecGroupByte {k m : Nat} (env : ReadEnv) (s : Ec.Shards (k + m) chunkSize) (x : Nat) : UInt8 :=
  if h : x / chunkSize < k then
    match s (Fin.castAdd m ⟨x / chunkSize, h⟩) with
    | some shard => shard ⟨x % chunkSize, Nat.mod_lt x chunkSize_pos⟩
    | none => env.uninitGroup x
  else env.uninitGroup x

/-- `powerfs_net_read_ec`. `none` is a crash: the division by a zero group size comes before the
test for it, and a total that wrapped around makes the shard arrays too short. -/
def netReadEc (env : ReadEnv) (rd : NeedleReads) (pi : Inode) (offset length bufCap : Nat) :
    Option (Except Errno (List UInt8)) :=
  let k := ecData pi
  let m := pi.ecParityShards.toNat
  let base := ecGroupBase pi offset
  let groupOffset := offset % ecGroupSize pi
  if k = 0 then none
  else if pi.ecChunks.isNone ∨ (elems pi.ecChunks).length < base + ecTotal pi then
    some (.error .einval)
  else if !env.shards ∨ !env.available then some (.error .enomem)
  else if ecTotal pi < k then none
  else
    let shards : Ec.Shards (k + m) chunkSize := fun i => ecShard env rd pi base i.val
    let extract := fun (s : Ec.Shards (k + m) chunkSize) =>
      if !env.groupData then Except.error Errno.enomem
      else .ok ((List.range (min (min length (ecGroupSize pi - groupOffset)) bufCap)).map
        fun j => ecGroupByte env s (groupOffset + j))
    if ∀ d : Fin k, (shards (Fin.castAdd m d)).isSome then some (extract shards)
    else
      match Ec.powerfsEcInit env.init k m with
      | .error e => some (.error e)
      | .ok codec =>
        let available := fun i => (shards i).isSome
        if !Ec.powerfsEcCanRecover codec available then some (.error .eio)
        else
          match Ec.powerfsEcDecode codec (env.decode _) available shards with
          | none => none
          | some (.error e, _) => some (.error e)
          | some (.ok (), s) => some (extract s)

/-- `powerfs_net_read`: the bytes copied into the caller's buffer. -/
def netRead (env : ReadEnv) (rd : NeedleReads) (pi : Inode) (offset length bufCap : Nat) :
    Option (Except Errno (List UInt8)) :=
  if bufCap < length then some (.error .einval)
  else if readsEc pi then netReadEc env rd pi offset length bufCap
  else if !env.needleBuf then some (.error .enomem)
  else some ((netReadLoop rd pi length offset length).map fun segs => segs.flatMap (·.bytes))

end PowerFS.Data
