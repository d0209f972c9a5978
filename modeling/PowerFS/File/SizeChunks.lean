import PowerFS.Layout.Locate

namespace PowerFS.File

open Layout

/-! `powerfs_sync_inode_size_chunks` of `powerfs_file.c`, built without
`CONFIG_POWERFS_WRITE_PREDICT`. -/

/-- A FlushNeedles to a volume or an UpdateInodeSizeChunks to the Filer, and whether it
succeeded. -/
inductive MetaRpc where
  | flushNeedles (volume : UInt64) (keys : List UInt64) (ok : Bool)
  | updateSizeChunks (size : Nat) (chunks : List ChunkMap) (ok : Bool)

/-- What the function gets from outside: whether its allocations succeed, and the results of its
RPCs in order. -/
structure SyncEnv where
  allocChunks : Bool
  allocKeys : Bool
  flush : Nat → Option Errno
  update : Nat → Option Errno

/-- Everything succeeds. -/
def SyncEnv.calm : SyncEnv := ⟨true, true, fun _ => none, fun _ => none⟩

/-- The layout is known well enough to name chunks. -/
def syncReady (pi : Inode) : Bool :=
  if pi.placement.isStripe then decide (0 < (elems pi.volumeIds).length) else pi.isMapped

/-- `chunk_count`: a `u32`, and at most 4096. -/
def syncChunkCount (pi : Inode) (size : Nat) : Nat :=
  let count := (size + pi.chunkSz - 1) / pi.chunkSz % 2 ^ 32
  if count > 4096 then 4096 else count

/-- Volume and needle of chunk `ci`. The chunk list of a Flat file is not looked at. -/
def syncPlace (pi : Inode) (ci : Nat) : UInt64 × UInt64 :=
  if pi.placement.isStripe then
    match locateChunk pi (ci * pi.chunkSz) with
    | .ok place => place
    | .error _ => (0, 0)
  else (pi.volumeId, pi.fileKey + UInt64.ofNat ci)

def syncChunk (pi : Inode) (size count ci : Nat) : ChunkMap where
  chunkIdx := UInt32.ofNat ci
  needleId := (syncPlace pi ci).2
  volumeId := (syncPlace pi ci).1
  crc32 := 0
  size := UInt64.ofNat (if ci = count - 1 then size - ci * pi.chunkSz else pi.chunkSz)

/-- `chunks[]`. -/
def syncChunks (pi : Inode) (size : Nat) : List ChunkMap :=
  (List.range (syncChunkCount pi size)).map (syncChunk pi size (syncChunkCount pi size))

/-- `flush_keys`: the needles of a volume among the entries from `ci2` on. -/
def flushKeys (vid : UInt64) (entries : List ChunkMap) : List UInt64 :=
  (entries.filter fun cm => cm.volumeId = vid && cm.needleId ≠ 0).map ChunkMap.needleId

/-- The loop over `ci2`. `before` are the entries before it, in which a volume counts as seen;
`sent` counts the requests so far. -/
def flushLoop (env : SyncEnv) : List ChunkMap → List ChunkMap → Nat → Option Errno × List MetaRpc
  | _, [], _ => (none, [])
  | before, cm :: rest, sent =>
    if cm.volumeId = 0 || cm.needleId = 0 then flushLoop env (before ++ [cm]) rest sent
    else if before.any fun b => b.volumeId = cm.volumeId then
      flushLoop env (before ++ [cm]) rest sent
    else
      let keys := flushKeys cm.volumeId (cm :: rest)
      match env.flush sent with
      | some err => (some err, [.flushNeedles cm.volumeId keys false])
      | none =>
        let r := flushLoop env (before ++ [cm]) rest (sent + 1)
        (r.1, .flushNeedles cm.volumeId keys true :: r.2)

/-- The attempts to publish size and chunks; `ret` is the result so far. -/
def updateLoop (env : SyncEnv) (size : Nat) (chunks : List ChunkMap) :
    Nat → Nat → Option Errno → Option Errno × List MetaRpc
  | 0, _, ret => (ret, [])
  | left + 1, attempt, _ =>
    match env.update attempt with
    | none => (none, [.updateSizeChunks size chunks true])
    | some err =>
      let r := updateLoop env size chunks left (attempt + 1) (some err)
      (r.1, .updateSizeChunks size chunks false :: r.2)

/-- The result, the requests in order, and `content_size` afterwards. -/
structure SyncResult where
  ret : Option Errno
  trace : List MetaRpc
  contentSize : Nat

/-- `powerfs_sync_inode_size_chunks`; a result of 0 is `none`. -/
def syncInodeSizeChunks (env : SyncEnv) (pi : Inode) (size contentSize maxAttempts : Nat) :
    SyncResult :=
  if pi.placement = .inline || size = 0 || !syncReady pi then ⟨none, [], contentSize⟩
  else if !env.allocChunks || !env.allocKeys then ⟨some .enomem, [], contentSize⟩
  else
    let chunks := syncChunks pi size
    let barrier := flushLoop env [] chunks 0
    match barrier.1 with
    | some err => ⟨some err, barrier.2, contentSize⟩
    | none =>
      if size = contentSize then ⟨none, barrier.2, contentSize⟩
      else
        let update := updateLoop env size chunks maxAttempts 0 (some .eio)
        ⟨update.1, barrier.2 ++ update.2, if update.1 = none then size else contentSize⟩

end PowerFS.File
