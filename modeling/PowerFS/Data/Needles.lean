import PowerFS.Data.Read
import PowerFS.Ec.Recovery

namespace PowerFS.Data

open Layout

/-! What `powerfs_net_read` makes of the needles the Volume servers hold. -/

/-- A stored needle: the client never sends more than a chunk. -/
abbrev Needle := { bytes : List UInt8 // bytes.length ≤ chunkSize }

abbrev Needles := UInt64 × UInt64 → Option Needle

namespace Needles

variable (st : Needles)

/-- The servers return needles as they were written. -/
def reads : NeedleReads := fun p =>
  match st p with
  | none => .error .enoent
  | some needle => .ok needle.val

/-- The content of a needle, empty where there is none. -/
def content (p : UInt64 × UInt64) : List UInt8 :=
  match st p with
  | none => []
  | some needle => needle.val

theorem content_length_le (p : UInt64 × UInt64) : (st.content p).length ≤ chunkSize := by
  rw [content]
  split
  · exact Nat.zero_le _
  · next needle _ => exact needle.property

theorem readNeedle_reads (p : UInt64 × UInt64) : readNeedle st.reads p =
    match st p with
    | none => .error .enoent
    | some needle => .ok needle.val := by
  cases h : st p with
  | none => simp only [readNeedle, reads, h]
  | some needle =>
    simp only [readNeedle, reads, h, if_neg (not_lt.mpr needle.property)]

variable {st} in
theorem content_of_some {p : UInt64 × UInt64} {needle : Needle} (h : st p = some needle) :
    st.content p = needle.val := by
  rw [content, h]

theorem content_update_self (p : UInt64 × UInt64) (needle : Needle) :
    content (Function.update st p (some needle)) p = needle.val := by
  simp [content]

theorem content_update_of_ne {p q : UInt64 × UInt64} (h : q ≠ p) (needle : Needle) :
    content (Function.update st p (some needle)) q = st.content q := by
  simp [content, Function.update_of_ne h]

end Needles

/-- The check value recorded for the chunk of an offset; 0 is none. -/
def recordedCrc (pi : Inode) (cur : Nat) : UInt32 :=
  match replicaFor pi cur with
  | none => 0
  | some r => r.crc32

theorem crcMismatch_zero (bytes : List UInt8) : crcMismatch 0 bytes = false := by
  simp [crcMismatch]

theorem fetchNeedle_reads (st : Needles) (pi : Inode) (cur : Nat) (p : UInt64 × UInt64) :
    fetchNeedle st.reads pi cur p =
      if crcMismatch (recordedCrc pi cur) (st.content p) then .error .eio
      else .ok (st.content p) := by
  cases h : st p with
  | none =>
    have hempty : crcMismatch (recordedCrc pi cur) [] = false := by simp [crcMismatch]
    simp [fetchNeedle, readWithFailover, st.readNeedle_reads, h, Needles.content, hempty]
  | some needle =>
    simp only [fetchNeedle, readWithFailover, st.readNeedle_reads, h, Needles.content,
      recordedCrc]
    cases replicaFor pi cur with
    | none => rw [crcMismatch_zero]; rfl
    | some r => rfl

/-- Where the byte of an offset comes from: the needles that are read with the check values they
must have, the one that holds the byte, and whether all must exist. -/
structure Source where
  needles : List ((UInt64 × UInt64) × UInt32)
  main : UInt64 × UInt64
  strict : Bool

/-- The data shards of the group from `base` on, as needles with their check values. -/
def dataShards (pi : Inode) (base : Nat) : List ((UInt64 × UInt64) × UInt32) :=
  (((elems pi.ecChunks).drop base).take (ecData pi)).map
    fun e => ((e.volumeId, e.needleId), e.crc32)

/-- The source of the byte of `o`; `none` where every read of it fails. -/
def source (pi : Inode) (o : Nat) : Option Source :=
  if readsEc pi then
    let base := ecGroupBase pi o
    if ecData pi = 0 ∨ (elems pi.ecChunks).length < base + ecTotal pi ∨
        ecTotal pi < ecData pi then none
    else
      ((dataShards pi base)[o % ecGroupSize pi / chunkSize]?).map
        fun e => ⟨dataShards pi base, e.1, true⟩
  else
    match locateChunk pi o with
    | .error _ => none
    | .ok p => some ⟨[(p, recordedCrc pi o)], p, false⟩

def Source.Accepts (s : Source) (st : Needles) (e : (UInt64 × UInt64) × UInt32) : Prop :=
  (s.strict = true → st e.1 ≠ none) ∧ crcMismatch e.2 (st.content e.1) = false

/-- The byte at `x` of the main needle. Behind the end of a needle the plain path reads zeros
and the EC path whatever was in memory. -/
def Source.Value (s : Source) (st : Needles) (x : Nat) (b : UInt8) : Prop :=
  if s.strict then (st.content s.main)[x]? = some b else (st.content s.main).getD x 0 = b

structure ReadEnv.Allocates (env : ReadEnv) : Prop where
  needleBuf : env.needleBuf = true
  shards : env.shards = true
  available : env.available = true
  groupData : env.groupData = true
  shard : ∀ i, env.shard i = true

/-- `powerfs_net_read` of `n` bytes at `pos` returns `bytes`, whatever is in fresh memory. -/
def FileBytes (st : Needles) (pi : Inode) (pos n : Nat) (bytes : List UInt8) : Prop :=
  ∀ env : ReadEnv, env.Allocates → netRead env st.reads pi pos n n = some (.ok bytes)

theorem netRead_plain {env : ReadEnv} (henv : env.Allocates) {pi : Inode}
    (hec : readsEc pi = false) (rd : NeedleReads) (pos n : Nat) : netRead env rd pi pos n n =
      some ((netReadLoop rd pi n pos n).map fun segs => segs.flatMap (·.bytes)) := by
  simp only [netRead, if_neg (lt_irrefl n), hec, henv.needleBuf, Bool.not_true,
    Bool.false_eq_true, if_false]

theorem netReadLoop_zero (rd : NeedleReads) (pi : Inode) (fuel cur : Nat) :
    netReadLoop rd pi fuel cur 0 = .ok [] := by
  cases fuel <;> simp [netReadLoop]

section Plain

variable {st : Needles} {pi : Inode} {pos n : Nat} {p : UInt64 × UInt64}

theorem segmentBytes_head? (needle : List UInt8) {off : Nat} (hoff : off < chunkSize) (hn : 0 < n) :
    (segmentBytes needle off n).head? = some (needle.getD off 0) := by
  rw [segmentBytes]
  split
  · next hle =>
    rw [List.head?_replicate, if_neg (by omega), List.getD_eq_getElem?_getD,
      List.getElem?_eq_none hle]
    rfl
  · next hlt =>
    rw [not_le] at hlt
    rw [List.head?_take, if_neg (by omega), List.head?_drop, List.getD_eq_getElem?_getD,
      List.getElem?_eq_getElem hlt]
    rfl

/-- Inside the chunk a round copies byte for byte, if it does not cross the end of the needle. -/
theorem segmentBytes_eq_map {needle : List UInt8} {off : Nat} (hfits : off + n ≤ chunkSize)
    (hlen : n = 1 ∨ off + n ≤ needle.length) :
    segmentBytes needle off n = (List.range n).map fun j => needle.getD (off + j) 0 := by
  apply List.ext_getElem?
  intro j
  rw [List.getElem?_map, segmentBytes]
  by_cases hj : j < n
  · rw [List.getElem?_range hj, Option.map_some, List.getD_eq_getElem?_getD]
    split
    · next hend =>
      rw [List.getElem?_replicate, if_pos (by omega), List.getElem?_eq_none (by omega)]
      rfl
    · next hend =>
      rw [List.getElem?_take_of_lt hj, List.getElem?_drop,
        List.getElem?_eq_getElem (by omega : off + j < needle.length)]
      rfl
  · have hrange : (List.range n)[j]? = none :=
      List.getElem?_eq_none (by rw [List.length_range]; omega)
    rw [hrange]
    apply List.getElem?_eq_none
    split
    · rw [List.length_replicate]
      omega
    · rw [List.length_take]
      omega

theorem netReadLoop_of_filled (hloc : locateChunk pi pos = .ok p)
    (hcrc : crcMismatch (recordedCrc pi pos) (st.content p) = false) (hn : 0 < n)
    (hlen : (segmentBytes (st.content p) (pos % chunkSize) n).length = n) :
    netReadLoop st.reads pi n pos n
      = .ok [⟨pos, p, segmentBytes (st.content p) (pos % chunkSize) n⟩] := by
  obtain ⟨fuel, rfl⟩ : ∃ fuel, n = fuel + 1 := ⟨n - 1, by omega⟩
  simp only [netReadLoop, hloc, fetchNeedle_reads, hcrc, Bool.false_eq_true, if_false]
  generalize segmentBytes (st.content p) (pos % chunkSize) (fuel + 1) = bytes at hlen ⊢
  simp [hlen, netReadLoop_zero]

theorem netReadLoop_head (hn : 0 < n) {segs : List Segment}
    (h : netReadLoop st.reads pi n pos n = .ok segs) :
    ∃ p, locateChunk pi pos = .ok p ∧
      crcMismatch (recordedCrc pi pos) (st.content p) = false ∧
      (segs.flatMap (·.bytes)).head? = some ((st.content p).getD (pos % chunkSize) 0) := by
  obtain ⟨fuel, rfl⟩ : ∃ fuel, n = fuel + 1 := ⟨n - 1, by omega⟩
  rw [netReadLoop, if_neg (by omega)] at h
  split at h
  · cases h
  next p hloc =>
  rw [fetchNeedle_reads] at h
  cases hcrc : crcMismatch (recordedCrc pi pos) (st.content p) with
  | true =>
    rw [hcrc] at h
    cases h
  | false =>
    refine ⟨p, hloc, hcrc, ?_⟩
    have hhead := segmentBytes_head? (st.content p) (Nat.mod_lt pos chunkSize_pos) hn
    simp only [hcrc, Bool.false_eq_true, if_false] at h
    split at h
    · cases h
      rw [List.flatMap_singleton, hhead]
    · split at h
      · cases h
      · cases h
        rw [List.flatMap_cons, List.head?_append, hhead]
        rfl

end Plain

section Ec

variable {st : Needles} {pi : Inode} {env : ReadEnv} {base : Nat}

theorem ecShard_reads (henv : env.Allocates) {i : Nat} {e : ChunkMap}
    (he : (elems pi.ecChunks)[base + i]? = some e) :
    ecShard env st.reads pi base i =
      if st (e.volumeId, e.needleId) = none ∨
          crcMismatch e.crc32 (st.content (e.volumeId, e.needleId)) = true then none
      else some fun j =>
        (st.content (e.volumeId, e.needleId)).getD j.val (env.uninitShard i j.val) := by
  simp only [ecShard, he, henv.shard i, st.readNeedle_reads]
  cases h : st (e.volumeId, e.needleId) with
  | none => simp
  | some needle => simp [Needles.content_of_some h]

theorem dataShards_getElem? {d : Nat} (hd : d < ecData pi) : (dataShards pi base)[d]? =
    ((elems pi.ecChunks)[base + d]?).map fun e => ((e.volumeId, e.needleId), e.crc32) := by
  rw [dataShards, List.getElem?_map, List.getElem?_take_of_lt hd, List.getElem?_drop]

theorem ecShards_isSome_iff (henv : env.Allocates) (main : UInt64 × UInt64)
    (hbase : base + ecData pi ≤ (elems pi.ecChunks).length) :
    (∀ d < ecData pi, (ecShard env st.reads pi base d).isSome = true) ↔
      ∀ e ∈ dataShards pi base, (Source.mk (dataShards pi base) main true).Accepts st e := by
  have hentry : ∀ d < ecData pi, ∃ e, (elems pi.ecChunks)[base + d]? = some e := fun d hd =>
    ⟨_, List.getElem?_eq_getElem (by omega)⟩
  have hshard : ∀ d e, (elems pi.ecChunks)[base + d]? = some e →
      ((ecShard env st.reads pi base d).isSome = true ↔
        (Source.mk (dataShards pi base) main true).Accepts st
          ((e.volumeId, e.needleId), e.crc32)) := by
    intro d e he
    rw [ecShard_reads henv he]
    split
    · next h => simp only [Source.Accepts]; grind
    · next h => simp only [Source.Accepts]; grind
  constructor
  · intro h e he
    obtain ⟨d, hd⟩ := List.mem_iff_getElem?.mp he
    have hlt : d < ecData pi := by
      have := (List.getElem?_eq_some_iff.mp hd).1
      simp only [dataShards, List.length_map, List.length_take] at this
      omega
    obtain ⟨c, hc⟩ := hentry d hlt
    rw [dataShards_getElem? hlt, hc] at hd
    cases hd
    exact (hshard d c hc).mp (h d hlt)
  · intro h d hd
    obtain ⟨c, hc⟩ := hentry d hd
    refine (hshard d c hc).mpr (h _ (List.mem_iff_getElem?.mpr ⟨d, ?_⟩))
    rw [dataShards_getElem? hd, hc]
    rfl

theorem ecGroupByte_reads (henv : env.Allocates) {m x : Nat} {e : ChunkMap}
    (hx : x / chunkSize < ecData pi) (he : (elems pi.ecChunks)[base + x / chunkSize]? = some e)
    (hsome : (ecShard env st.reads pi base (x / chunkSize)).isSome = true) :
    ecGroupByte env (fun i : Fin (ecData pi + m) => ecShard env st.reads pi base i.val) x =
      (st.content (e.volumeId, e.needleId)).getD (x % chunkSize)
        (env.uninitShard (x / chunkSize) (x % chunkSize)) := by
  rw [ecShard_reads henv he] at hsome
  split at hsome
  · cases hsome
  · next h =>
    rw [ecGroupByte, dif_pos hx]
    simp only [Fin.val_castAdd, ecShard_reads henv he, if_neg h]

/-- A group is read only if all its data shards are: no reconstruction succeeds. -/
theorem netReadEc_eq_ok {rd : NeedleReads} {offset length bufCap : Nat} {bytes : List UInt8} :
    netReadEc env rd pi offset length bufCap = some (.ok bytes) ↔
      ecData pi ≠ 0 ∧
      (pi.ecChunks.isSome = true ∧
        ecGroupBase pi offset + ecTotal pi ≤ (elems pi.ecChunks).length) ∧
      (env.shards = true ∧ env.available = true) ∧ ecData pi ≤ ecTotal pi ∧
      (∀ d < ecData pi, (ecShard env rd pi (ecGroupBase pi offset) d).isSome = true) ∧
      env.groupData = true ∧
      bytes = (List.range (min (min length (ecGroupSize pi - offset % ecGroupSize pi)) bufCap)).map
        fun j => ecGroupByte env (fun i : Fin (ecData pi + pi.ecParityShards.toNat) =>
          ecShard env rd pi (ecGroupBase pi offset) i.val) (offset % ecGroupSize pi + j) := by
  have hall : (∀ d : Fin (ecData pi), (ecShard env rd pi (ecGroupBase pi offset)
        (Fin.castAdd pi.ecParityShards.toNat d).val).isSome = true) ↔
      ∀ d < ecData pi, (ecShard env rd pi (ecGroupBase pi offset) d).isSome = true :=
    ⟨fun h d hd => h ⟨d, hd⟩, fun h d => h d.val d.isLt⟩
  simp only [netReadEc, hall]
  by_cases hk : ecData pi = 0
  · simp [hk]
  by_cases hlisted : pi.ecChunks.isNone = true ∨
      (elems pi.ecChunks).length < ecGroupBase pi offset + ecTotal pi
  · rw [if_neg hk, if_pos hlisted]
    refine iff_of_false nofun fun ⟨_, ⟨hsome, hle⟩, _⟩ => ?_
    obtain hnone | hlt := hlisted
    · rw [Option.isNone_iff_eq_none.mp hnone] at hsome
      cases hsome
    · omega
  by_cases harrays : (!env.shards) = true ∨ (!env.available) = true
  · rw [if_neg hk, if_neg hlisted, if_pos harrays]
    refine iff_of_false nofun fun ⟨_, _, ⟨hshards, havailable⟩, _⟩ => ?_
    simp [hshards, havailable] at harrays
  by_cases htot : ecTotal pi < ecData pi
  · rw [if_neg hk, if_neg hlisted, if_neg harrays, if_pos htot]
    exact iff_of_false nofun fun h => absurd htot (Nat.not_lt.mpr h.2.2.2.1)
  rw [if_neg hk, if_neg hlisted, if_neg harrays, if_neg htot]
  simp only [not_or, Option.isNone_iff_eq_none, ← Option.isSome_iff_ne_none, not_lt,
    Bool.not_eq_true', Bool.not_eq_false] at hlisted harrays
  split
  · next hshards =>
    have hle := Nat.not_lt.mp htot
    cases env.groupData with
    | false => exact iff_of_false nofun fun h => Bool.false_ne_true h.2.2.2.2.2.1
    | true =>
      simp only [Bool.not_true, Bool.false_eq_true, if_false, Option.some.injEq, Except.ok.injEq]
      exact ⟨fun h => ⟨hk, hlisted, harrays, hle, hshards, trivial, h.symm⟩,
        fun h => h.2.2.2.2.2.2.symm⟩
  · next hshards =>
    simp only [hshards]
    split
    · simp
    · next codec hinit => exact absurd hinit (Ec.powerfsEcInit_ne_ok _ codec)

theorem netReadEc_reads (henv : env.Allocates) (hec : readsEc pi = true) {offset n : Nat}
    {bytes : List UInt8} :
    netReadEc env st.reads pi offset n n = some (.ok bytes) ↔
      ecData pi ≠ 0 ∧ ecGroupBase pi offset + ecTotal pi ≤ (elems pi.ecChunks).length ∧
      ecData pi ≤ ecTotal pi ∧
      (∀ d < ecData pi, (ecShard env st.reads pi (ecGroupBase pi offset) d).isSome = true) ∧
      bytes = (List.range (min n (ecGroupSize pi - offset % ecGroupSize pi))).map fun j =>
        ecGroupByte env (fun i : Fin (ecData pi + pi.ecParityShards.toNat) =>
          ecShard env st.reads pi (ecGroupBase pi offset) i.val)
          (offset % ecGroupSize pi + j) := by
  simp only [readsEc, Bool.and_eq_true] at hec
  rw [netReadEc_eq_ok, min_right_comm, min_self]
  simp only [hec.2, henv.shards, henv.available, henv.groupData, true_and]

end Ec

section Read

variable {st : Needles} {pi : Inode} {pos n : Nat} {s : Source}

theorem source_plain (hec : readsEc pi = false) : source pi pos = some s ↔
    ∃ p, locateChunk pi pos = .ok p ∧ s = ⟨[(p, recordedCrc pi pos)], p, false⟩ := by
  rw [source, hec]
  cases locateChunk pi pos with
  | error e => simp
  | ok p => simp [eq_comm]

theorem ecSlot_lt (hk : ecData pi ≠ 0) : pos % ecGroupSize pi / chunkSize < ecData pi :=
  Nat.div_lt_of_lt_mul (by
    rw [Nat.mul_comm]
    exact Nat.mod_lt _ (Nat.mul_pos (Nat.pos_of_ne_zero hk) chunkSize_pos))

theorem source_ec (hec : readsEc pi = true) : source pi pos = some s ↔
    ecData pi ≠ 0 ∧ ecGroupBase pi pos + ecTotal pi ≤ (elems pi.ecChunks).length ∧
    ecData pi ≤ ecTotal pi ∧ ∃ e,
      (elems pi.ecChunks)[ecGroupBase pi pos + pos % ecGroupSize pi / chunkSize]? = some e ∧
      s = ⟨dataShards pi (ecGroupBase pi pos), (e.volumeId, e.needleId), true⟩ := by
  rw [source, if_pos hec]
  by_cases hk : ecData pi = 0
  · simp [hk]
  simp only [dataShards_getElem? (ecSlot_lt hk)]
  split
  · next h =>
    refine ⟨nofun, fun hs => ?_⟩
    omega
  · next h =>
    simp only [not_or, not_lt] at h
    simp only [Option.map_map, Option.map_eq_some_iff]
    exact ⟨fun ⟨e, he, hs⟩ => ⟨hk, h.2.1, h.2.2, e, he, hs.symm⟩,
      fun ⟨_, _, _, e, he, hs⟩ => ⟨e, he, hs.symm⟩⟩

theorem ecGroup_offset (hk : ecData pi ≠ 0) {j : Nat} (hj : pos % chunkSize + j < chunkSize) :
    (pos % ecGroupSize pi + j) / chunkSize = pos % ecGroupSize pi / chunkSize ∧
      (pos % ecGroupSize pi + j) % chunkSize = pos % chunkSize + j ∧
      pos % ecGroupSize pi + j < ecGroupSize pi := by
  have hmod : pos % ecGroupSize pi % chunkSize = pos % chunkSize :=
    Nat.mod_mod_of_dvd pos (Nat.dvd_mul_left _ _)
  have hdiv : (pos % ecGroupSize pi + j) / chunkSize = pos % ecGroupSize pi / chunkSize :=
    (BlockMap.same_block_of_fits (Nat.le_add_right _ j) (by omega)).symm
  refine ⟨hdiv, ?_, ?_⟩
  · rw [← hmod, BlockMap.mod_of_same_block (Nat.le_add_right _ j) hdiv.symm,
      Nat.add_sub_cancel_left]
  · have hslot := @ecSlot_lt pi pos hk
    rw [← hdiv] at hslot
    exact (Nat.div_lt_iff_lt_mul chunkSize_pos).mp hslot

/-- The byte behind the end of the main needle. -/
def Source.fill (s : Source) (env : ReadEnv) (pi : Inode) (pos x : Nat) : UInt8 :=
  if s.strict then env.uninitShard (pos % ecGroupSize pi / chunkSize) x else 0

theorem netRead_head {env : ReadEnv} (henv : env.Allocates) (hn : 0 < n) {bytes : List UInt8}
    (h : netRead env st.reads pi pos n n = some (.ok bytes)) :
    ∃ s, source pi pos = some s ∧ (∀ e ∈ s.needles, s.Accepts st e) ∧
      bytes.head? = some ((st.content s.main).getD (pos % chunkSize)
        (s.fill env pi pos (pos % chunkSize))) := by
  cases hec : readsEc pi with
  | false =>
    rw [netRead_plain henv hec] at h
    cases hloop : netReadLoop st.reads pi n pos n with
    | error e =>
      rw [hloop] at h
      cases h
    | ok segs =>
      rw [hloop] at h
      cases h
      obtain ⟨p, hloc, hcrc, hhead⟩ := netReadLoop_head hn hloop
      refine ⟨_, (source_plain hec).mpr ⟨p, hloc, rfl⟩, ?_, hhead⟩
      intro e he
      cases List.mem_singleton.mp he
      exact ⟨nofun, hcrc⟩
  | true =>
    rw [netRead, if_neg (lt_irrefl n), if_pos hec, netReadEc_reads henv hec] at h
    obtain ⟨hk, hlen, htot, hshards, rfl⟩ := h
    have hslot := @ecSlot_lt pi pos hk
    obtain ⟨e, he⟩ : ∃ e, (elems pi.ecChunks)[ecGroupBase pi pos
        + pos % ecGroupSize pi / chunkSize]? = some e := ⟨_, List.getElem?_eq_getElem (by omega)⟩
    refine ⟨_, (source_ec hec).mpr ⟨hk, hlen, htot, e, he, rfl⟩,
      (ecShards_isSome_iff henv _ (by omega)).mp hshards, ?_⟩
    obtain ⟨-, hx, hlt⟩ := @ecGroup_offset pi pos hk 0 (Nat.mod_lt _ chunkSize_pos)
    rw [Nat.add_zero] at hx hlt
    rw [List.head?_map, List.head?_range, if_neg (by omega), Option.map_some, Nat.add_zero,
      ecGroupByte_reads henv hslot he (hshards _ hslot), hx]
    rfl

theorem netRead_of_source {env : ReadEnv} (henv : env.Allocates) (hs : source pi pos = some s)
    (hacc : ∀ e ∈ s.needles, s.Accepts st e) (hn : 0 < n)
    (hfits : pos % chunkSize + n ≤ chunkSize)
    (hlen : n = 1 ∨ pos % chunkSize + n ≤ (st.content s.main).length) :
    netRead env st.reads pi pos n n = some (.ok ((List.range n).map fun j =>
      (st.content s.main).getD (pos % chunkSize + j)
        (s.fill env pi pos (pos % chunkSize + j)))) := by
  cases hec : readsEc pi with
  | false =>
    obtain ⟨p, hloc, rfl⟩ := (source_plain hec).mp hs
    have hcrc := (hacc _ (List.mem_singleton_self _)).2
    have hbytes := segmentBytes_eq_map hfits hlen
    rw [netRead_plain henv hec, netReadLoop_of_filled hloc hcrc hn
      (by rw [hbytes, List.length_map, List.length_range]), hbytes]
    simp [Except.map, Source.fill]
  | true =>
    obtain ⟨hk, hgroup, htot, e, he, rfl⟩ := (source_ec hec).mp hs
    have hshards := (ecShards_isSome_iff henv _ (by omega)).mpr hacc
    have hslot := @ecSlot_lt pi pos hk
    rw [netRead, if_neg (lt_irrefl n), if_pos hec, netReadEc_reads henv hec]
    refine ⟨hk, hgroup, htot, hshards, ?_⟩
    obtain ⟨-, -, hlast⟩ := @ecGroup_offset pi pos hk (n - 1) (by omega)
    rw [min_eq_left (by omega)]
    refine List.map_congr_left fun j hj => ?_
    have hjn := List.mem_range.mp hj
    obtain ⟨hdiv, hmod, -⟩ := @ecGroup_offset pi pos hk j (by omega)
    rw [ecGroupByte_reads henv (by rw [hdiv]; exact hslot) (by rw [hdiv]; exact he)
      (by rw [hdiv]; exact hshards _ hslot), hdiv, hmod]
    rfl

theorem exists_allocates (b : UInt8) :
    ∃ env : ReadEnv, env.Allocates ∧ ∀ i j, env.uninitShard i j = b :=
  ⟨{ ReadEnv.calm with uninitShard := fun _ _ => b }, ⟨rfl, rfl, rfl, rfl, fun _ => rfl⟩,
    fun _ _ => rfl⟩

theorem fileBytes_one_iff {b : UInt8} : FileBytes st pi pos 1 [b] ↔
    ∃ s, source pi pos = some s ∧ (∀ e ∈ s.needles, s.Accepts st e) ∧
      s.Value st (pos % chunkSize) b := by
  constructor
  · intro h
    -- memory that holds another byte: the value must come from the needle
    obtain ⟨env, henv, hfill⟩ := exists_allocates (b + 1)
    obtain ⟨s, hs, hacc, hhead⟩ := netRead_head henv Nat.one_pos (h env henv)
    refine ⟨s, hs, hacc, ?_⟩
    rw [List.head?_cons, Option.some.injEq, Source.fill, hfill] at hhead
    rw [Source.Value]
    split
    · next hstrict =>
      rw [if_pos hstrict, List.getD_eq_getElem?_getD] at hhead
      cases hget : (st.content s.main)[pos % chunkSize]? with rw [hget] at hhead
      | some c =>
        rw [hhead]
        rfl
      | none =>
        simp at hhead
    · next hstrict =>
      rw [if_neg hstrict] at hhead
      exact hhead.symm
  · rintro ⟨s, hs, hacc, hval⟩ env henv
    rw [netRead_of_source henv hs hacc Nat.one_pos (Nat.mod_lt _ chunkSize_pos) (.inl rfl)]
    rw [Source.Value] at hval
    simp only [List.range_one, List.map_cons, List.map_nil, Nat.add_zero, Option.some.injEq,
      Except.ok.injEq, List.cons.injEq, and_true, Source.fill]
    split at hval
    · rw [List.getD_eq_getElem?_getD, hval]
      rfl
    · next hstrict => rw [if_neg hstrict, hval]

theorem fileBytes_of_source (hs : source pi pos = some s) (hacc : ∀ e ∈ s.needles, s.Accepts st e)
    (hn : 0 < n) (hlen : pos % chunkSize + n ≤ (st.content s.main).length) :
    FileBytes st pi pos n (((st.content s.main).drop (pos % chunkSize)).take n) := by
  intro env henv
  have hmax := st.content_length_le s.main
  rw [netRead_of_source henv hs hacc hn (by omega) (.inr hlen)]
  congr 2
  apply List.ext_getElem?
  intro j
  rw [List.getElem?_map]
  by_cases hj : j < n
  · rw [List.getElem?_range hj, Option.map_some, List.getElem?_take_of_lt hj, List.getElem?_drop,
      List.getD_eq_getElem?_getD,
      List.getElem?_eq_getElem (by omega : pos % chunkSize + j < (st.content s.main).length)]
    rfl
  · have hrange : (List.range n)[j]? = none :=
      List.getElem?_eq_none (by rw [List.length_range]; omega)
    rw [hrange, List.getElem?_eq_none (by rw [List.length_take]; omega)]
    rfl

theorem FileBytes.head {b : UInt8} {bytes : List UInt8} (hn : 0 < n)
    (h : FileBytes st pi pos n (b :: bytes)) : FileBytes st pi pos 1 [b] := by
  intro env henv
  obtain ⟨s, hs, hacc, hhead⟩ := netRead_head henv hn (h env henv)
  rw [netRead_of_source henv hs hacc Nat.one_pos (Nat.mod_lt _ chunkSize_pos) (.inl rfl)]
  rw [List.head?_cons, Option.some.injEq] at hhead
  simp only [List.range_one, List.map_cons, List.map_nil, Nat.add_zero, ← hhead]

end Read

end PowerFS.Data
