import PowerFS.File.SizeChunks
import PowerFS.Layout.ParseFields
import PowerFS.Net.BatchCreate
import PowerFS.Net.Receive

namespace PowerFS.Layout

open Net

/-! `powerfs_net_update_inode_size_chunks`: the request that publishes the size and the chunks of a
file. The list of chunks is encoded by hand into one field; what the encoder returns is ignored. -/

def fldSize : UInt8 := 0x06
def fldClientId : UInt8 := 0x30

/-- The arguments; the callers pass no more chunks than `chunk_count` says. -/
structure CommitArgs where
  shardId : UInt64
  ino : UInt64
  size : UInt64
  clientId : Option (List UInt8)
  chunks : List ChunkMap
  inlineData : List UInt8

/-- `client_id`, or `"kernel"` for a null pointer. -/
def CommitArgs.cid (a : CommitArgs) : List UInt8 :=
  a.clientId.getD [0x6B, 0x65, 0x72, 0x6E, 0x65, 0x6C]

/-- The members of a `ChunkRef` in the request: offset, size, needle, volume, crc, mtime. -/
def refMembers (cm : ChunkMap) (i : Nat) : List (List UInt8) :=
  [leBytes 8 (i * chunkSize), leBytes 8 cm.size.toNat, leBytes 8 cm.needleId.toNat,
    leBytes 8 cm.volumeId.toNat, leBytes 4 cm.crc32.toNat, leBytes 8 0]

/-- `layout_buf`: the tag, the count, and the references. -/
def layoutBuf (chunks : List ChunkMap) : List UInt8 :=
  1 :: (leBytes 4 chunks.length
    ++ (chunks.zipIdx.map fun p => (refMembers p.1 p.2).flatten).flatten)

def CommitArgs.frontFields (a : CommitArgs) (placement : UInt8) : List (UInt8 × TlvValue) :=
  [(fldShardId, .u64 a.shardId), (fldIno, .u64 a.ino), (fldSize, .u64 a.size),
    (fldClientId, .string a.cid), (fldPlacement, .u8 placement), (fldReliability, .bytes [0]),
    (fldReliabilityState, .u8 0)]

def CommitArgs.fields (a : CommitArgs) : List (UInt8 × TlvValue) :=
  if 0 < a.inlineData.length then
    a.frontFields 0 ++ [(fldInlineData, .bytes a.inlineData),
      (fldInlineMaxSize, .u32 (UInt32.ofNat Layout.inlineMaxSize))]
  else a.frontFields 1 ++ [(fldChunkLayout, .bytes (layoutBuf a.chunks))]

def CommitArgs.body (a : CommitArgs) : List UInt8 :=
  let bodyCap := 256 + a.chunks.length * 44 + 64 + a.inlineData.length
  (encRun (.init bodyCap) (a.fields.map fun f => f.2.call f.1)).2.buf

/-- Whether the allocations succeed, and the outcome of the request as an error. -/
structure CommitEnv where
  allocBody : Bool
  allocLayout : Bool
  send : Option Errno

/-- The result (0 is `none`), and the body that was sent. -/
structure CommitOut where
  ret : Option Errno
  sent : Option (List UInt8)

/-- `powerfs_net_update_inode_size_chunks`. -/
def netUpdateInodeSizeChunks (env : CommitEnv) (a : CommitArgs) : CommitOut :=
  if !env.allocBody then ⟨some .enomem, none⟩
  else if !env.allocLayout then ⟨some .enomem, none⟩
  else ⟨env.send, some a.body⟩

/-- If the function returns 0, it has sent a `ChunkLayout` that is parsed back to the chunks. -/
def CommitRoundTrip (a : CommitArgs) : Prop :=
  ∀ env, (netUpdateInodeSizeChunks env a).ret = none →
    ∃ body, (netUpdateInodeSizeChunks env a).sent = some body ∧
      (TlvDec.init body).findRaw fldChunkLayout ≠ none ∧
      ∀ palloc : ParseAlloc, palloc.perChunk →
        elems (parseFileLayout palloc (.init body)).ecChunks = a.chunks

/-- Every entry has its position as its index. -/
def Indexed (chunks : List ChunkMap) : Prop :=
  ∀ p ∈ chunks.zipIdx, p.1.chunkIdx = UInt32.ofNat p.2

instance (chunks : List ChunkMap) : Decidable (Indexed chunks) :=
  inferInstanceAs (Decidable (∀ p ∈ chunks.zipIdx, _))

theorem syncChunks_indexed (pi : Inode) (size : Nat) :
    Indexed (File.syncChunks pi size) ∧ (File.syncChunks pi size).length ≤ 4096 := by
  refine ⟨?_, ?_⟩
  · rintro ⟨cm, i⟩ hp
    have hget : (File.syncChunks pi size)[i]? = some cm := List.mem_zipIdx_iff_getElem?.mp hp
    rw [File.syncChunks, List.getElem?_map, Option.map_eq_some_iff] at hget
    obtain ⟨j, hj, rfl⟩ := hget
    obtain ⟨_, hget⟩ := List.getElem?_eq_some_iff.mp hj
    rw [List.getElem_range] at hget
    rw [← hget]
    rfl
  · rw [File.syncChunks, List.length_map, List.length_range, File.syncChunkCount]
    split <;> omega

section Refs

theorem flatten_drop {xss : List (List UInt8)} {k : Nat} (h : ∀ xs ∈ xss, xs.length = k)
    (i : Nat) : xss.flatten.drop (k * i) = (xss.drop i).flatten := by
  induction i generalizing xss with
  | zero => rw [Nat.mul_zero, List.drop_zero, List.drop_zero]
  | succ i ih =>
    cases xss with
    | nil => simp
    | cons xs xss =>
      have hxs : xs.length = k := h xs List.mem_cons_self
      rw [List.flatten_cons, Nat.mul_succ, Nat.add_comm, ← List.drop_drop, List.drop_left' hxs]
      exact ih fun ys hys => h ys (List.mem_cons_of_mem xs hys)

theorem length_refMembers (cm : ChunkMap) (i : Nat) : (refMembers cm i).flatten.length = 44 := by
  simp [refMembers, length_leBytes]

theorem parseChunkRef_refMembers (cm : ChunkMap) {i : Nat} (hi : i < 2 ^ 32)
    (hidx : cm.chunkIdx = UInt32.ofNat i) (rest : List UInt8) :
    parseChunkRef ((refMembers cm i).flatten ++ rest) = cm := by
  have hbytes : (refMembers cm i).flatten ++ rest = (refMembers cm i ++ [rest]).flatten := by
    rw [List.flatten_append, List.flatten_singleton]
  have h64 : ∀ {off : Nat} {n : UInt64} {bs : List UInt8}, slice bs off 8 = leBytes 8 n.toNat →
      le64 (bs.drop off) = n := by
    intro off n bs hslice
    show UInt64.ofNat (leNat (slice bs off 8)) = n
    rw [hslice, leNat_leBytes_of_lt n.toNat_lt, UInt64.ofNat_toNat]
  have h32 : ∀ {off : Nat} {n : UInt32} {bs : List UInt8}, slice bs off 4 = leBytes 4 n.toNat →
      le32 (bs.drop off) = n := by
    intro off n bs hslice
    show UInt32.ofNat (leNat (slice bs off 4)) = n
    rw [hslice, leNat_leBytes_of_lt n.toNat_lt, UInt32.ofNat_toNat]
  have hoffset : (UInt64.ofNat (i * chunkSize)).toNat = i * chunkSize := by
    refine UInt64.toNat_ofNat_of_lt' ?_
    show i * 2 ^ 20 < 2 ^ 64
    omega
  have hpos : le64 ((refMembers cm i ++ [rest]).flatten.drop 0) = UInt64.ofNat (i * chunkSize) :=
    h64 (by rw [hoffset]; exact slice_flatten 0 rfl rfl (length_leBytes _ _))
  have hsize : le64 ((refMembers cm i ++ [rest]).flatten.drop 8) = cm.size :=
    h64 (slice_flatten 1 rfl (by simp [refMembers, length_leBytes]) (length_leBytes _ _))
  have hneedle : le64 ((refMembers cm i ++ [rest]).flatten.drop 16) = cm.needleId :=
    h64 (slice_flatten 2 rfl (by simp [refMembers, length_leBytes]) (length_leBytes _ _))
  have hvolume : le64 ((refMembers cm i ++ [rest]).flatten.drop 24) = cm.volumeId :=
    h64 (slice_flatten 3 rfl (by simp [refMembers, length_leBytes]) (length_leBytes _ _))
  have hcrc : le32 ((refMembers cm i ++ [rest]).flatten.drop 32) = cm.crc32 :=
    h32 (slice_flatten 4 rfl (by simp [refMembers, length_leBytes]) (length_leBytes _ _))
  rw [List.drop_zero] at hpos
  rw [hbytes, parseChunkRef, hpos, hsize, hneedle, hvolume, hcrc, hoffset,
    Nat.mul_div_cancel _ chunkSize_pos, ← hidx]

theorem parseChunkRefs_eq {chunks : List ChunkMap} (hidx : Indexed chunks)
    (hlen : chunks.length < 2 ^ 32) :
    (parseChunkRefs (UInt32.ofNat chunks.length)
      (chunks.zipIdx.map fun p => (refMembers p.1 p.2).flatten).flatten).val = chunks := by
  have hcount : (UInt32.ofNat chunks.length).toNat = chunks.length :=
    UInt32.toNat_ofNat_of_lt' hlen
  have hwidth : ∀ xs ∈ chunks.zipIdx.map fun p => (refMembers p.1 p.2).flatten,
      xs.length = 44 := by
    intro xs hxs
    obtain ⟨p, _, rfl⟩ := List.mem_map.mp hxs
    exact length_refMembers p.1 p.2
  apply List.ext_getElem
  · simp [parseChunkRefs, hcount]
  · intro i _ hi
    have hmem : (chunks[i], i) ∈ chunks.zipIdx :=
      List.mem_zipIdx_iff_getElem?.mpr (List.getElem?_eq_getElem hi)
    have hzip : i < (chunks.zipIdx.map fun p => (refMembers p.1 p.2).flatten).length := by
      rw [List.length_map, List.length_zipIdx]
      exact hi
    simp only [parseChunkRefs, List.getElem_map, List.getElem_range]
    rw [flatten_drop hwidth, List.drop_eq_getElem_cons hzip, List.getElem_map, List.getElem_zipIdx,
      Nat.zero_add]
    exact parseChunkRef_refMembers _ (by omega) (hidx _ hmem) _

theorem length_layoutBuf (chunks : List ChunkMap) :
    (layoutBuf chunks).length = 5 + 44 * chunks.length := by
  have hrefs : ∀ start, ((chunks.zipIdx start).map fun p =>
      (refMembers p.1 p.2).flatten).flatten.length = 44 * chunks.length := by
    induction chunks with
    | nil => exact fun _ => rfl
    | cons cm chunks ih =>
      intro start
      rw [List.zipIdx_cons, List.map_cons, List.flatten_cons, List.length_append, ih,
        length_refMembers, List.length_cons]
      omega
  rw [layoutBuf, List.length_cons, List.length_append, length_leBytes, hrefs 0]
  omega

theorem chunkRefs_layoutBuf {chunks : List ChunkMap} (hidx : Indexed chunks)
    (hlen : chunks.length < 2 ^ 32) {palloc : ParseAlloc} (halloc : palloc.perChunk = true) :
    elems (chunkRefs palloc (layoutBuf chunks)) = chunks := by
  have hcount : le32 ((layoutBuf chunks).drop 1) = UInt32.ofNat chunks.length := by
    show le32 (leBytes 4 chunks.length ++ _) = _
    rw [le32, List.take_left' (length_leBytes _ _), leNat_leBytes_of_lt hlen]
  have hrest : (layoutBuf chunks).drop 5 =
      (chunks.zipIdx.map fun p => (refMembers p.1 p.2).flatten).flatten := by
    show (leBytes 4 chunks.length ++ _).drop 4 = _
    rw [List.drop_left' (length_leBytes _ _)]
  have htoNat : (UInt32.ofNat chunks.length).toNat = chunks.length :=
    UInt32.toNat_ofNat_of_lt' hlen
  rw [chunkRefs, if_pos ⟨by rw [length_layoutBuf]; omega, rfl⟩]
  dsimp only
  rw [hcount, length_layoutBuf]
  split
  · exact parseChunkRefs_eq hidx hlen
  · next hnone =>
    have hzero : chunks.length = 0 := by
      by_contra hne
      exact hnone ⟨by omega, by omega, halloc⟩
    rw [List.length_eq_zero_iff.mp hzero]
    rfl

end Refs

section Body

variable {a : CommitArgs}

theorem encodedSize_frontFields (placement : UInt8) :
    encodedSize (a.frontFields placement) = 62 + a.cid.length := by
  simp [CommitArgs.frontFields, encodedSize, TlvValue.encoded, length_leBytes]
  omega

theorem frontFields_le (hcid : a.cid.length ≤ maxTlv) (placement : UInt8) :
    ∀ f ∈ a.frontFields placement, f.2.encoded.length ≤ maxTlv := by
  have hmax : 8 ≤ maxTlv := by decide
  have hone : 1 ≤ maxTlv := by decide
  simp [CommitArgs.frontFields, TlvValue.encoded, length_leBytes, hcid, hmax, hone]

theorem nodup_frontFields (placement : UInt8) :
    ((a.frontFields placement).map Prod.fst ++ [fldChunkLayout]).Nodup := by
  show [fldShardId, fldIno, fldSize, fldClientId, fldPlacement, fldReliability,
    fldReliabilityState, fldChunkLayout].Nodup
  decide

theorem fields_eq (hinline : a.inlineData = []) :
    a.fields = a.frontFields 1 ++ [(fldChunkLayout, .bytes (layoutBuf a.chunks))] := by
  rw [CommitArgs.fields, hinline]
  rfl

theorem length_encoded_layoutBuf (chunks : List ChunkMap) :
    (TlvValue.bytes (layoutBuf chunks)).encoded.length = 5 + 44 * chunks.length :=
  length_layoutBuf chunks

section

variable (hinline : a.inlineData = []) (hcid : a.cid.length ≤ 248)
include hinline hcid

theorem fields_le (hfits : 5 + 44 * a.chunks.length ≤ maxTlv) :
    ∀ f ∈ a.fields, f.2.encoded.length ≤ maxTlv := by
  have hmax : 248 ≤ maxTlv := by decide
  intro f hf
  rw [fields_eq hinline] at hf
  obtain hf | hf := List.mem_append.mp hf
  · exact frontFields_le (by omega) 1 f hf
  · rw [List.mem_singleton.mp hf, length_encoded_layoutBuf]
    exact hfits

theorem body_of_le (hfits : 5 + 44 * a.chunks.length ≤ maxTlv) :
    a.body = tlv.writeAll (a.fields.map record) := by
  have hsize : encodedSize a.fields = 72 + a.cid.length + 44 * a.chunks.length := by
    rw [fields_eq hinline, encodedSize_append, encodedSize_frontFields, encodedSize_cons,
      length_encoded_layoutBuf]
    show _ + (_ + 0) = _
    omega
  rw [CommitArgs.body, encRun_eq (fields_le hinline hcid hfits)]
  · rfl
  · rw [hinline]
    show 0 + _ ≤ 256 + a.chunks.length * 44 + 64 + 0
    omega

/-- Chunks that do not fit in a field are left out: `powerfs_tlv_enc_bytes` fails. -/
theorem body_of_gt (hbig : maxTlv < 5 + 44 * a.chunks.length) :
    a.body = tlv.writeAll ((a.frontFields 1).map record) := by
  have hmax : 248 ≤ maxTlv := by decide
  have hskip : ∀ e : TlvEnc,
      (encRun e [(TlvValue.bytes (layoutBuf a.chunks)).call fldChunkLayout]).2 = e := by
    intro e
    show (TlvEnc.data e fldChunkLayout (.bytes (layoutBuf a.chunks))).2 = e
    rw [TlvEnc.data, if_pos (by rw [Payload.length, length_layoutBuf]; exact hbig)]
  rw [CommitArgs.body, fields_eq hinline, List.map_append, List.map_singleton, encRun_append, hskip,
    encRun_eq (frontFields_le (by omega) 1)]
  · rfl
  · rw [encodedSize_frontFields, hinline]
    show 0 + _ ≤ 256 + a.chunks.length * 44 + 64 + 0
    omega

theorem parse_body_of_le (hidx : Indexed a.chunks) (hfits : 5 + 44 * a.chunks.length ≤ maxTlv) :
    (TlvDec.init a.body).findRaw fldChunkLayout = some (layoutBuf a.chunks) ∧
      ∀ palloc : ParseAlloc, palloc.perChunk →
        elems (parseFileLayout palloc (.init a.body)).ecChunks = a.chunks := by
  have hmax : maxTlv < 2 ^ 32 := by decide
  have hholds : (TlvDec.init a.body).Holds a.fields := by
    rw [body_of_le hinline hcid hfits]
    refine TlvDec.holds_writeAll (fields_le hinline hcid hfits) ?_
    rw [fields_eq hinline]
    exact nodup_frontFields 1
  have hraw : (TlvDec.init a.body).findRaw fldChunkLayout = some (layoutBuf a.chunks) := by
    refine hholds.findRaw_of_mem (v := .bytes (layoutBuf a.chunks)) ?_
    rw [fields_eq hinline]
    exact List.mem_append_right _ (List.mem_singleton_self _)
  have hdata : (TlvDec.init a.body).findRaw fldInlineData = none := by
    rw [TlvDec.findRaw, hholds.find_of_notMem, Option.map_none]
    rw [fields_eq hinline]
    show fldInlineData ∉ [fldShardId, fldIno, fldSize, fldClientId, fldPlacement, fldReliability,
      fldReliabilityState, fldChunkLayout]
    decide
  refine ⟨hraw, fun palloc halloc => ?_⟩
  have harrays := congrArg LayoutArrays.ecChunks (arrays_parseFileLayout palloc (.init a.body))
  have hec : (parseFileLayout palloc (.init a.body)).ecChunks =
      chunkRefs palloc (layoutBuf a.chunks) := by
    refine harrays.trans ?_
    simp only [resolve, hdata, hraw, Option.bind_none, Option.bind_some, Option.isSome_none,
      Bool.false_eq_true, if_false]
  rw [hec, chunkRefs_layoutBuf hidx (by omega) halloc]

theorem findRaw_body_of_gt (hbig : maxTlv < 5 + 44 * a.chunks.length) :
    (TlvDec.init a.body).findRaw fldChunkLayout = none := by
  have hmax : 248 ≤ maxTlv := by decide
  obtain ⟨hnodup, _, hnotMem⟩ := List.nodup_append.mp (nodup_frontFields (a := a) 1)
  have hholds : (TlvDec.init a.body).Holds (a.frontFields 1) := by
    rw [body_of_gt hinline hcid hbig]
    exact TlvDec.holds_writeAll (frontFields_le (by omega) 1) hnodup
  rw [TlvDec.findRaw, hholds.find_of_notMem, Option.map_none]
  exact fun hmem => hnotMem _ hmem _ (List.mem_singleton_self _) rfl

theorem fits_of_commitRoundTrip (h : CommitRoundTrip a) : 5 + 44 * a.chunks.length ≤ maxTlv := by
  by_contra hbig
  obtain ⟨body, hsent, hfound, _⟩ := h ⟨true, true, none⟩ rfl
  obtain rfl := Option.some.inj hsent
  exact hfound (findRaw_body_of_gt hinline hcid (by omega))

end

end Body

/-- Without inline data and with a short client id, a request that succeeds carries the chunks
exactly if they fit in one field. -/
theorem commitRoundTrip_iff (a : CommitArgs) (hinline : a.inlineData = [])
    (hcid : a.cid.length ≤ 248) (hidx : Indexed a.chunks) :
    CommitRoundTrip a ↔ 5 + 44 * a.chunks.length ≤ maxTlv := by
  constructor
  · exact fits_of_commitRoundTrip hinline hcid
  · intro hfits env hret
    rw [netUpdateInodeSizeChunks] at hret ⊢
    split at hret
    · cases hret
    split at hret
    · cases hret
    · next hbody hlayout =>
      obtain ⟨hraw, hparse⟩ := parse_body_of_le hinline hcid hidx hfits
      rw [if_neg hbody, if_neg hlayout]
      exact ⟨a.body, rfl, by rw [hraw]; nofun, hparse⟩

def flatFile : Inode := { Inode.fresh with volumeId := 7, fileKey := 100 }

/-- The request that publishes a file of this size. -/
def flatCommit (size : Nat) : CommitArgs :=
  { shardId := 3, ino := 11, size := UInt64.ofNat size, clientId := none
    chunks := File.syncChunks flatFile size, inlineData := [] }

theorem flatCommit_indexed (size : Nat) :
    Indexed (flatCommit size).chunks ∧ (flatCommit size).chunks.length ≤ 4096 :=
  syncChunks_indexed flatFile size

theorem flatCommit_cid (size : Nat) : (flatCommit size).cid.length ≤ 248 :=
  show 6 ≤ 248 by decide

theorem commitRoundTrip_threeChunks : CommitRoundTrip (flatCommit (2 * 2 ^ 20 + 5)) :=
  (commitRoundTrip_iff _ rfl (flatCommit_cid _) (flatCommit_indexed _).1).mpr (by decide)

/-- A file of 1490 MiB: its chunks take 65565 bytes, and a field holds at most 65535. -/
theorem not_commitRoundTrip : ¬ ∀ a : CommitArgs, a.inlineData = [] → a.cid.length ≤ 248 →
    Indexed a.chunks → a.chunks.length ≤ 4096 → CommitRoundTrip a := by
  intro h
  have hcommit := h (flatCommit (1490 * 2 ^ 20)) rfl (flatCommit_cid _)
    (flatCommit_indexed _).1 (flatCommit_indexed _).2
  have hfits := fits_of_commitRoundTrip rfl (flatCommit_cid _) hcommit
  have hlength : (flatCommit (1490 * 2 ^ 20)).chunks.length = 1490 := by
    decide +kernel
  rw [hlength] at hfits
  exact absurd hfits (by decide)

end PowerFS.Layout
