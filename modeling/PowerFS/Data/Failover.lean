import PowerFS.Data.Placement

namespace PowerFS.Data

open Layout

/-! Reads of a chunk with several copies, of which some are unreachable, missing or corrupted. -/

/-- The bytes of a copy agree with the check value recorded for it, if there is one. -/
def Intact (crc : UInt32) (bytes : List UInt8) : Prop := crc = 0 ∨ crc32 bytes = crc

/-- A listed copy of the chunk of `pos` that can be read and is intact. For the primary copy the
check value is the one of the chunk's first replica entry. -/
inductive GoodCopy (rd : NeedleReads) (pi : Inode) (pos : Nat) (bytes : List UInt8) : Prop where
  | primary (p : UInt64 × UInt64) (found : locateChunk pi pos = .ok p)
      (read : readNeedle rd p = .ok bytes) (intact : Intact (recordedCrc pi pos) bytes)
  | replica (r : ChunkMap) (listed : r ∈ elems pi.replicaChunks)
      (idx : r.chunkIdx = UInt32.ofNat (pos / chunkSize))
      (read : readNeedle rd (r.volumeId, r.needleId) = .ok bytes) (intact : Intact r.crc32 bytes)

/-- A read of `n` bytes at `pos` gave what the copy has there, and nothing behind it but zeros. -/
def ReadAs (bytes : List UInt8) (pos n : Nat) (out : List UInt8) : Prop :=
  ∃ k, out = (bytes.drop (pos % chunkSize)).take n ++ List.replicate k 0

/-- If some copy is good, the read succeeds with the bytes of a good copy. -/
def FailsOver (rd : NeedleReads) (pi : Inode) (pos n : Nat) : Prop :=
  (∃ bytes, GoodCopy rd pi pos bytes) →
    ∃ bytes out, GoodCopy rd pi pos bytes ∧ ReadAs bytes pos n out ∧
      ∀ env : ReadEnv, env.Allocates → netRead env rd pi pos n n = some (.ok out)

/-- The server is not reached, or refuses. -/
def Fails (rd : NeedleReads) (p : UInt64 × UInt64) : Prop :=
  ∃ e, e ≠ .enoent ∧ readNeedle rd p = .error e

def Missing (rd : NeedleReads) (p : UInt64 × UInt64) : Prop :=
  readNeedle rd p = .error .enoent ∨ readNeedle rd p = .ok []

/-- The copies that are asked make the chunk look like a hole. -/
def LooksLikeHole (rd : NeedleReads) (pi : Inode) (pos : Nat) (p : UInt64 × UInt64) : Prop :=
  Missing rd p ∨
    Fails rd p ∧ ∃ r, replicaFor pi pos = some r ∧ Missing rd (r.volumeId, r.needleId)

/-- What the copies must be like for a read of `n` bytes at `pos` to be right. -/
inductive CopyServes (rd : NeedleReads) (pi : Inode) (pos n : Nat) (p : UInt64 × UInt64) :
    Prop where
  | primary (bytes : List UInt8) (read : readNeedle rd p = .ok bytes)
      (intact : Intact (recordedCrc pi pos) bytes)
  | firstReplica (r : ChunkMap) (bytes : List UInt8) (fails : Fails rd p)
      (first : replicaFor pi pos = some r)
      (read : readNeedle rd (r.volumeId, r.needleId) = .ok bytes) (intact : Intact r.crc32 bytes)
  | zeros (bytes : List UInt8) (hole : LooksLikeHole rd pi pos p) (good : GoodCopy rd pi pos bytes)
      (zero : ∀ b ∈ (bytes.drop (pos % chunkSize)).take n, b = 0)

variable {rd : NeedleReads} {pi : Inode} {pos n : Nat} {p : UInt64 × UInt64}

theorem crcMismatch_eq_false_iff {crc : UInt32} {bytes : List UInt8} :
    crcMismatch crc bytes = false ↔ Intact crc bytes ∨ bytes = [] := by
  simp only [crcMismatch, Intact]
  cases bytes with
  | nil => simp
  | cons b bs =>
    simp only [List.length_cons, Nat.zero_lt_succ, decide_true, Bool.and_eq_false_iff,
      decide_eq_false_iff_not, not_not, reduceCtorEq, or_false]

theorem replicaFor_mem {r : ChunkMap} (h : replicaFor pi pos = some r) :
    r ∈ elems pi.replicaChunks ∧ r.chunkIdx = UInt32.ofNat (pos / chunkSize) := by
  refine ⟨List.mem_of_find?_eq_some h, ?_⟩
  have := List.find?_some h
  simpa using this

/-- What one copy gives to a round: its bytes, or nothing where it is missing. -/
def CopyGives (rd : NeedleReads) (p : UInt64 × UInt64) (crc : UInt32) (needle : List UInt8) :
    Prop :=
  readNeedle rd p = .ok needle ∧ crcMismatch crc needle = false ∨
    readNeedle rd p = .error .enoent ∧ needle = []

theorem copyGives_iff {crc : UInt32} {needle : List UInt8} : CopyGives rd p crc needle ↔
    readNeedle rd p = .ok needle ∧ Intact crc needle ∨ Missing rd p ∧ needle = [] := by
  simp only [CopyGives, crcMismatch_eq_false_iff]
  constructor
  · rintro (⟨hread, hintact | rfl⟩ | ⟨hread, rfl⟩)
    · exact .inl ⟨hread, hintact⟩
    · exact .inr ⟨.inr hread, rfl⟩
    · exact .inr ⟨.inl hread, rfl⟩
  · rintro (⟨hread, hintact⟩ | ⟨hread | hread, rfl⟩)
    · exact .inl ⟨hread, .inl hintact⟩
    · exact .inr ⟨hread, rfl⟩
    · exact .inl ⟨hread, .inr rfl⟩

/-- The second half of the failover: what reading a replica entry comes to. -/
def readReplica (rd : NeedleReads) (e : Errno) : Option ChunkMap → Except Errno (List UInt8)
  | none => .error e
  | some r =>
    match readNeedle rd (r.volumeId, r.needleId) with
    | .error e => .error e
    | .ok bytes => if crcMismatch r.crc32 bytes then .error .eio else .ok bytes

theorem readWithFailover_of_fails {e : Errno} (he : e ≠ .enoent)
    (hread : readNeedle rd p = .error e) :
    readWithFailover rd pi pos p = readReplica rd e (replicaFor pi pos) := by
  rw [readWithFailover, hread]
  cases e <;> first | exact absurd rfl he | (cases replicaFor pi pos <;> rfl)

theorem fetchNeedle_eq_ok_iff {needle : List UInt8} : fetchNeedle rd pi pos p = .ok needle ↔
    CopyGives rd p (recordedCrc pi pos) needle ∨
      Fails rd p ∧ ∃ r, replicaFor pi pos = some r ∧
        CopyGives rd (r.volumeId, r.needleId) r.crc32 needle := by
  cases hread : readNeedle rd p with
  | ok bytes =>
    cases hr : replicaFor pi pos with
    | none => simp [fetchNeedle, readWithFailover, CopyGives, recordedCrc, hread, hr,
      crcMismatch_zero]
    | some r =>
      simp only [fetchNeedle, readWithFailover, CopyGives, Fails, recordedCrc]
      grind
  | error e =>
    by_cases he : e = .enoent
    · simp only [fetchNeedle, readWithFailover, CopyGives, Fails]
      grind
    · cases hr : replicaFor pi pos with
      | none =>
        rw [fetchNeedle, readWithFailover_of_fails he hread, hr]
        cases e <;> simp [CopyGives, hread, readReplica] at he ⊢
      | some r =>
        rw [fetchNeedle, readWithFailover_of_fails he hread]
        cases hrep : readNeedle rd (r.volumeId, r.needleId) with
        | ok bytes => simp only [CopyGives, Fails, readReplica]; grind
        | error e' =>
          simp only [CopyGives, Fails, readReplica]
          cases e' <;> grind

theorem readAs_segmentBytes (needle : List UInt8) :
    ReadAs needle pos n (segmentBytes needle (pos % chunkSize) n) := by
  rw [segmentBytes]
  split
  · next h => exact ⟨_, by rw [List.drop_of_length_le h, List.take_nil, List.nil_append]⟩
  · exact ⟨0, by rw [List.replicate_zero, List.append_nil]⟩

theorem readAs_hole_iff {bytes : List UInt8} (hin : pos % chunkSize + n ≤ chunkSize) :
    ReadAs bytes pos n (segmentBytes [] (pos % chunkSize) n) ↔
      ∀ b ∈ (bytes.drop (pos % chunkSize)).take n, b = 0 := by
  have hzeros : segmentBytes [] (pos % chunkSize) n = List.replicate n 0 := by
    rw [segmentBytes, if_pos (show [].length ≤ _ from Nat.zero_le _), Nat.min_eq_left (by omega)]
  rw [hzeros]
  constructor
  · rintro ⟨k, hk⟩ b hb
    have hmem : b ∈ List.replicate n (0 : UInt8) := by
      rw [hk]
      exact List.mem_append_left _ hb
    exact List.eq_of_mem_replicate hmem
  · intro h
    have hlen : ((bytes.drop (pos % chunkSize)).take n).length ≤ n := List.length_take_le _ _
    rw [ReadAs]
    generalize (bytes.drop (pos % chunkSize)).take n = range at h hlen ⊢
    refine ⟨n - range.length, ?_⟩
    have hrange : range = List.replicate range.length 0 := List.eq_replicate_of_mem h
    generalize range.length = m at hrange hlen
    rw [hrange, List.replicate_append_replicate, Nat.add_sub_cancel' hlen]

theorem copyServes_iff (hloc : locateChunk pi pos = .ok p)
    (hin : pos % chunkSize + n ≤ chunkSize) : CopyServes rd pi pos n p ↔
      ∃ needle bytes, fetchNeedle rd pi pos p = .ok needle ∧ GoodCopy rd pi pos bytes ∧
        ReadAs bytes pos n (segmentBytes needle (pos % chunkSize) n) := by
  simp only [fetchNeedle_eq_ok_iff, copyGives_iff]
  constructor
  · rintro (⟨bytes, hread, hintact⟩ | ⟨r, bytes, hfails, hr, hread, hintact⟩ |
      ⟨bytes, hhole, hgood, hzero⟩)
    · exact ⟨bytes, bytes, .inl (.inl ⟨hread, hintact⟩), .primary p hloc hread hintact,
        readAs_segmentBytes bytes⟩
    · exact ⟨bytes, bytes, .inr ⟨hfails, r, hr, .inl ⟨hread, hintact⟩⟩,
        .replica r (replicaFor_mem hr).1 (replicaFor_mem hr).2 hread hintact,
        readAs_segmentBytes bytes⟩
    · refine ⟨[], bytes, ?_, hgood, (readAs_hole_iff hin).mpr hzero⟩
      obtain hmiss | ⟨hfails, r, hr, hmiss⟩ := hhole
      · exact .inl (.inr ⟨hmiss, rfl⟩)
      · exact .inr ⟨hfails, r, hr, .inr ⟨hmiss, rfl⟩⟩
  · rintro ⟨needle, bytes, hfetch, hgood, hout⟩
    obtain (⟨hread, hintact⟩ | ⟨hmiss, rfl⟩) | ⟨hfails, r, hr, ⟨hread, hintact⟩ | ⟨hmiss, rfl⟩⟩ :=
      hfetch
    · exact .primary needle hread hintact
    · exact .zeros bytes (.inl hmiss) hgood ((readAs_hole_iff hin).mp hout)
    · exact .firstReplica r needle hfails hr hread hintact
    · exact .zeros bytes (.inr ⟨hfails, r, hr, hmiss⟩) hgood ((readAs_hole_iff hin).mp hout)

theorem netReadLoop_inside (hn : 0 < n) (hin : pos % chunkSize + n ≤ chunkSize) :
    (netReadLoop rd pi n pos n).map (fun segs => segs.flatMap (·.bytes)) =
      match locateChunk pi pos with
      | .error e => .error e
      | .ok p => (fetchNeedle rd pi pos p).map fun needle =>
          segmentBytes needle (pos % chunkSize) n := by
  obtain ⟨fuel, rfl⟩ : ∃ fuel, n = fuel + 1 := ⟨n - 1, by omega⟩
  rw [netReadLoop, if_neg (by omega)]
  cases hloc : locateChunk pi pos with
  | error e => rfl
  | ok p =>
    cases hfetch : fetchNeedle rd pi pos p with
    | error e => simp [hfetch, Except.map]
    | ok needle =>
      have hlen := fetchNeedle_length_le hfetch
      simp only [hfetch]
      split
      · simp [Except.map]
      · next hgoes =>
        -- the round has filled the range, so the next one finds nothing to do
        have hdone : fuel + 1 - (segmentBytes needle (pos % chunkSize) (fuel + 1)).length = 0 := by
          revert hgoes
          rw [segmentBytes]
          split
          · omega
          · rw [List.length_take, List.length_drop]
            omega
        rw [hdone, netReadLoop_zero]
        simp [Except.map]

theorem netRead_inside (hec : readsEc pi = false) (hn : 0 < n)
    (hin : pos % chunkSize + n ≤ chunkSize) {env : ReadEnv} (henv : env.Allocates)
    {out : List UInt8} : netRead env rd pi pos n n = some (.ok out) ↔
      ∃ p needle, locateChunk pi pos = .ok p ∧ fetchNeedle rd pi pos p = .ok needle ∧
        out = segmentBytes needle (pos % chunkSize) n := by
  rw [netRead_plain henv hec, netReadLoop_inside hn hin]
  cases hloc : locateChunk pi pos with
  | error e => simp
  | ok p =>
    cases hfetch : fetchNeedle rd pi pos p with
    | error e => simp [Except.map, hfetch]
    | ok needle => simp [Except.map, hfetch, eq_comm]

/-- The failover works for a read inside a chunk exactly when there is nothing to find, or the
primary copy is good, or it fails and the first replica entry is good; or a good copy is zero where
a hole is taken for it. -/
theorem failsOver_iff (rd : NeedleReads) (pi : Inode) (pos n : Nat) (hec : readsEc pi = false)
    (hn : 0 < n) (hin : pos % chunkSize + n ≤ chunkSize) : FailsOver rd pi pos n ↔
      (∀ bytes, ¬ GoodCopy rd pi pos bytes) ∨
        ∃ p, locateChunk pi pos = .ok p ∧ CopyServes rd pi pos n p := by
  constructor
  · intro h
    by_cases hgood : ∃ bytes, GoodCopy rd pi pos bytes
    · obtain ⟨bytes, out, hcopy, hout, hread⟩ := h hgood
      obtain ⟨env, henv, -⟩ := exists_allocates 0
      obtain ⟨p, needle, hloc, hfetch, rfl⟩ := (netRead_inside hec hn hin henv).mp (hread env henv)
      exact .inr ⟨p, hloc, (copyServes_iff hloc hin).mpr ⟨needle, bytes, hfetch, hcopy, hout⟩⟩
    · exact .inl fun bytes hbytes => hgood ⟨bytes, hbytes⟩
  · rintro (hnone | ⟨p, hloc, hserves⟩) ⟨good, hgood⟩
    · exact absurd hgood (hnone good)
    · obtain ⟨needle, bytes, hfetch, hcopy, hout⟩ := (copyServes_iff hloc hin).mp hserves
      exact ⟨bytes, _, hcopy, hout, fun env henv =>
        (netRead_inside hec hn hin henv).mpr ⟨p, needle, hloc, hfetch, rfl⟩⟩

/-- A file with copies of its chunk 0 on volumes 7, 8 and 9, without check values. -/
def replicatedInode : Inode :=
  { mappedInode with
    reliability := .replicated
    replicaChunks := some ⟨[⟨0, 200, 8, 0, 3⟩, ⟨0, 300, 9, 0, 3⟩], by decide⟩ }

def onlyVolume (v : UInt64) : NeedleReads := fun p =>
  if p.1 = v then .ok [1, 2, 3] else .error .etimedout

theorem failsOver_iff_firstReplica : FailsOver (onlyVolume 8) replicatedInode 0 3 :=
  (failsOver_iff (onlyVolume 8) replicatedInode 0 3 (by decide) (by decide) (by decide)).mpr
    (.inr ⟨(7, 100), by decide,
      .firstReplica ⟨0, 200, 8, 0, 3⟩ [1, 2, 3] ⟨.etimedout, nofun, by decide⟩ (by decide)
        (by decide) (.inl rfl)⟩)

/-- The second replica is never asked. -/
theorem not_failsOver_all : ¬ ∀ (rd : NeedleReads) (pi : Inode) (pos n : Nat),
    pi.reliability = .replicated → 0 < n → pos % chunkSize + n ≤ chunkSize →
    FailsOver rd pi pos n := by
  intro hall
  have hgood : GoodCopy (onlyVolume 9) replicatedInode 0 [1, 2, 3] :=
    .replica ⟨0, 300, 9, 0, 3⟩ (by decide) (by decide) (by decide) (.inl rfl)
  obtain ⟨-, out, -, -, hread⟩ :=
    hall (onlyVolume 9) replicatedInode 0 3 rfl (by decide) (by decide) ⟨_, hgood⟩
  have hfails : netRead .calm (onlyVolume 9) replicatedInode 0 3 3
      = some (.error .etimedout) := by decide
  cases hfails.symm.trans (hread .calm ⟨rfl, rfl, rfl, rfl, fun _ => rfl⟩)

end PowerFS.Data
