import PowerFS.Data.Needles
import PowerFS.Data.Trace
import PowerFS.Layout.Aligned
import PowerFS.Layout.Apply
import PowerFS.Layout.Parse

namespace PowerFS.Data

open Layout BlockMap

/-- The shard that holds the byte of `o` in an EC file. -/
def ecPlace (pi : Inode) (o : Nat) : Option (UInt64 × UInt64) :=
  (elems pi.ecChunks)[ecGroupBase pi o + o % ecGroupSize pi / chunkSize]?.map
    fun e => (e.volumeId, e.needleId)

/-- `powerfs_net_read` takes the byte of file offset `o` from place `t`, in some read during
which the servers answer: they have the needle or report that there is none. -/
def ReadsAt (pi : Inode) (o : Nat) (t : Place) : Prop :=
  ∃ offset length, offset + length ≤ maxOffset ∧
    if readsEc pi then
      ∃ env rd bufCap bytes, netReadEc env rd pi offset length bufCap = some (.ok bytes) ∧
        offset ≤ o ∧ o < offset + bytes.length ∧ ecPlace pi o = some t.1 ∧ t.2 = o % chunkSize
    else
      ∃ rd segs, (∀ p e, readNeedle rd p = .error e → e = .enoent) ∧
        netReadLoop rd pi length offset length = .ok segs ∧
        ∃ seg ∈ segs, seg.fileOff ≤ o ∧ o < seg.fileOff + seg.bytes.length ∧
          t = (seg.place, seg.fileOff % chunkSize + (o - seg.fileOff))

/-- Either path puts the byte of `o` at `t`. -/
def UsesPlace (pi : Inode) (o : Nat) (t : Place) : Prop := WritesAt pi o t ∨ ReadsAt pi o t

/-- Both paths use one place for an offset, and no place is used for two offsets. -/
def PlacementSound (pi : Inode) : Prop := Relator.BiUnique (UsesPlace pi)

/-- When reads take the EC path, the data shards of the complete groups are the needles
writeback addresses. -/
def EcMatches (pi : Inode) : Prop :=
  readsEc pi = true → ∀ o p, o < maxOffset →
    ecGroupBase pi o + ecTotal pi ≤ (elems pi.ecChunks).length → ecPlace pi o = some p →
    located pi (o / chunkSize * chunkSize) = some p

variable {rd : NeedleReads} {p : UInt64 × UInt64} {bytes : List UInt8}

theorem readNeedle_length_le (h : readNeedle rd p = .ok bytes) : bytes.length ≤ chunkSize := by
  rw [readNeedle] at h
  split at h
  · cases h
  · split at h
    · cases h
    · next hle =>
      cases h
      exact not_lt.mp hle

variable {pi : Inode}

theorem readWithFailover_length_le {cur : Nat} (h : readWithFailover rd pi cur p = .ok bytes) :
    bytes.length ≤ chunkSize := by
  rw [readWithFailover] at h
  split at h
  · next hr =>
    cases h
    exact readNeedle_length_le hr
  · cases h
  · split at h
    · cases h
    · split at h
      · cases h
      · next hr =>
        split at h <;> cases h
        exact readNeedle_length_le hr

theorem fetchNeedle_length_le {cur : Nat} (h : fetchNeedle rd pi cur p = .ok bytes) :
    bytes.length ≤ chunkSize := by
  rw [fetchNeedle] at h
  split at h
  · cases h
    exact Nat.zero_le _
  · cases h
  · next hr =>
    split at h
    · cases h
      exact readWithFailover_length_le hr
    · split at h
      · cases h
      · cases h
        exact readWithFailover_length_le hr

theorem segmentBytes_length_le {needle : List UInt8} {off : Nat}
    (hneedle : needle.length ≤ chunkSize) (hoff : off < chunkSize) (remaining : Nat) :
    off + (segmentBytes needle off remaining).length ≤ chunkSize ∧
      (segmentBytes needle off remaining).length ≤ remaining := by
  rw [segmentBytes]
  split
  · rw [List.length_replicate]
    omega
  · rw [List.length_take, List.length_drop]
    omega

/-- Every segment of a read is located by its own offset and stays inside its chunk and inside
the range asked for. -/
theorem netReadLoop_segments (fuel : Nat) :
    ∀ {cur remaining : Nat} {segs : List Segment},
      netReadLoop rd pi fuel cur remaining = .ok segs → ∀ seg ∈ segs,
        locateChunk pi seg.fileOff = .ok seg.place ∧
        seg.fileOff % chunkSize + seg.bytes.length ≤ chunkSize ∧
        cur ≤ seg.fileOff ∧ seg.fileOff + seg.bytes.length ≤ cur + remaining := by
  induction fuel with
  | zero =>
    intro cur remaining segs h seg hseg
    cases h
    cases hseg
  | succ fuel ih =>
    intro cur remaining segs h seg hseg
    rw [netReadLoop] at h
    split at h
    · cases h
      cases hseg
    split at h
    · cases h
    next place hloc =>
    split at h
    · cases h
    next needle hneedle =>
    have hlen := segmentBytes_length_le (fetchNeedle_length_le hneedle)
      (Nat.mod_lt cur chunkSize_pos) remaining
    have hfirst : ∀ seg : Segment,
        seg = ⟨cur, place, segmentBytes needle (cur % chunkSize) remaining⟩ →
        locateChunk pi seg.fileOff = .ok seg.place ∧
        seg.fileOff % chunkSize + seg.bytes.length ≤ chunkSize ∧
        cur ≤ seg.fileOff ∧ seg.fileOff + seg.bytes.length ≤ cur + remaining := by
      rintro seg rfl
      exact ⟨hloc, hlen.1, le_rfl, Nat.add_le_add_left hlen.2 cur⟩
    simp only at h
    split at h
    · cases h
      exact hfirst seg (List.mem_singleton.mp hseg)
    · split at h
      · cases h
      · next rest hrest =>
        cases h
        rcases List.mem_cons.mp hseg with rfl | hseg
        · exact hfirst _ rfl
        · obtain ⟨h1, h2, h3, h4⟩ := ih hrest seg hseg
          refine ⟨h1, h2, by omega, by omega⟩

variable {o : Nat} {t : Place}

theorem ReadsAt.reaches (hec : EcMatches pi)
    (h : ReadsAt pi o t) : Reaches (located pi) chunkSize maxOffset o t := by
  obtain ⟨offset, length, hbound, h⟩ := h
  split at h
  · next hreads =>
    obtain ⟨env, rd, bufCap, bytes, hread, hlo, hhi, hplace, ht⟩ := h
    obtain ⟨hk, ⟨-, hcomplete⟩, -, -, -, -, rfl⟩ := netReadEc_eq_ok.mp hread
    have hpos := Nat.mod_lt offset (Nat.mul_pos (Nat.pos_of_ne_zero hk) chunkSize_pos)
    rw [List.length_map, List.length_range] at hhi
    have hmax : o < maxOffset := by omega
    have hgroup : offset / ecGroupSize pi = o / ecGroupSize pi :=
      same_block_of_fits hlo (by omega)
    refine ⟨hmax, ht, o / chunkSize * chunkSize, Nat.div_mul_le_self _ _, ?_, ?_⟩
    · rw [Nat.mul_div_cancel _ chunkSize_pos]
    · refine hec hreads o t.1 hmax ?_ hplace
      rw [ecGroupBase, ← hgroup]
      exact hcomplete
  · obtain ⟨rd, segs, -, hread, seg, hseg, hlo, hhi, rfl⟩ := h
    obtain ⟨hloc, hfits, -, hend⟩ := netReadLoop_segments length hread seg hseg
    have hsame : seg.fileOff / chunkSize = o / chunkSize :=
      same_block_of_fits hlo (by omega)
    exact ⟨by omega, (mod_of_same_block hlo hsame).symm, seg.fileOff, hlo, hsame,
      located_eq_some.mpr hloc⟩

/-- Conversely a read of the bytes from `s` to `o` takes `o` from the needle of `s`. -/
theorem readsAt_of_reaches (hec : readsEc pi = false)
    (h : Reaches (located pi) chunkSize maxOffset o t) : ReadsAt pi o t := by
  obtain ⟨hmax, ht, s, hs, hsame, hloc⟩ := h
  have hmod := mod_of_same_block hs hsame
  have hlt := Nat.mod_lt o chunkSize_pos
  refine ⟨s, o - s + 1, by omega, ?_⟩
  rw [hec]
  -- no needle exists, so one round fills the rest of the chunk with zeros
  have hread : netReadLoop (fun _ => .error .enoent) pi (o - s + 1) s (o - s + 1)
      = .ok [⟨s, t.1, List.replicate (o - s + 1) 0⟩] := by
    have hbytes : segmentBytes [] (s % chunkSize) (o - s + 1) = List.replicate (o - s + 1) 0 := by
      rw [segmentBytes, List.length_nil, if_pos (Nat.zero_le _), min_eq_left (by omega)]
    simp only [netReadLoop, located_eq_some.mp hloc, fetchNeedle, readWithFailover, readNeedle,
      hbytes]
    rw [if_neg (by omega), if_pos ⟨chunkSize_pos, Nat.zero_le _⟩]
  refine ⟨_, _, ?_, hread, _, List.mem_singleton_self _, hs, ?_, ?_⟩
  · intro p e he
    cases he
    rfl
  · simp only [List.length_replicate]
    omega
  · exact Prod.ext rfl (ht.trans hmod)

theorem UsesPlace.reaches (hec : EcMatches pi)
    (h : UsesPlace pi o t) : Reaches (located pi) chunkSize maxOffset o t :=
  h.elim WritesAt.reaches (ReadsAt.reaches hec)

theorem usesPlace_eq_reaches (hec : readsEc pi = false) :
    UsesPlace pi = Reaches (located pi) chunkSize maxOffset := by
  funext o t
  refine propext ⟨fun h => h.reaches fun htrue => ?_, fun h => .inr (readsAt_of_reaches hec h)⟩
  rw [hec] at htrue
  cases htrue

/-- Offsets and places correspond one to one for every aligned layout whose EC shards, if reads
use them, are the needles written; and outside the EC path for no other layout. -/
theorem placementSound_iff (pi : Inode) (hdisj : NeedleRangesDisjoint pi) :
    (LayoutAligned pi ∧ EcMatches pi → PlacementSound pi) ∧
      (readsEc pi = false → (PlacementSound pi ↔ LayoutAligned pi ∧ EcMatches pi)) := by
  have hexact := exact_iff_layoutAligned hdisj
  have hunique := biUnique_iff_exact (f := located pi) chunkSize_pos chunkSize_dvd_maxOffset
  constructor
  · rintro ⟨halign, hec⟩
    obtain ⟨hleft, hright⟩ := hunique.mpr (hexact.mpr halign)
    exact ⟨fun _ _ _ h1 h2 => hleft (h1.reaches hec) (h2.reaches hec),
      fun _ _ _ h1 h2 => hright (h1.reaches hec) (h2.reaches hec)⟩
  · intro hec
    have hvacuous : EcMatches pi := fun htrue => by
      rw [hec] at htrue
      cases htrue
    rw [PlacementSound, usesPlace_eq_reaches hec, hunique, hexact]
    exact ⟨fun h => ⟨h, hvacuous⟩, fun h => h.1⟩

theorem needleRangesDisjoint_of_flat (hchunks : pi.chunks = none)
    (hstripe : ¬pi.isStriped = true) : NeedleRangesDisjoint pi := by
  have hlisted : ∀ i, listedChunk pi i = none := fun i => by
    simp [listedChunk, hchunks]
  have hbase : ∀ o p, chunkBase pi o = some p → p.1 = (pi.volumeId, pi.fileKey) := by
    intro o p hp
    rw [chunkBase] at hp
    split at hp
    · cases hp
    · simp only [hlisted] at hp
      split at hp <;> cases hp
      rfl
  intro s t _ _ p q hp hq hne
  exact absurd ((hbase s p hp).trans (hbase t q hq).symm) hne

def mappedInode : Inode := { Inode.fresh with volumeId := 7, fileKey := 100 }

theorem placementSound_iff_mappedInode :
    NeedleRangesDisjoint mappedInode ∧
      (LayoutAligned mappedInode ∧ EcMatches mappedInode → PlacementSound mappedInode) ∧
      (readsEc mappedInode = false →
        (PlacementSound mappedInode ↔ LayoutAligned mappedInode ∧ EcMatches mappedInode)) :=
  have hdisj := @needleRangesDisjoint_of_flat mappedInode rfl (by decide)
  ⟨hdisj, placementSound_iff mappedInode hdisj⟩

/-- A response that gives placement Flat and a chunk size of 2 MiB. -/
def twoMiBChunkBody : List UInt8 :=
  [0xA0, 0, 0, 0, 1, 1, 0xAD, 0, 0, 0, 4, 0x00, 0x00, 0x20, 0x00]

/-- With chunks of 2 MiB the offsets 0 and 1 MiB are both stored at byte 0 of one needle. -/
theorem not_placementSound_installed :
    ¬∀ (alloc : Bool) (palloc : ParseAlloc) (pi : Inode) (body : List UInt8),
      NeedleRangesDisjoint (applyLayoutToInode alloc pi (parseFileLayout palloc (.init body))) →
      PlacementSound (applyLayoutToInode alloc pi (parseFileLayout palloc (.init body))) := by
  intro h
  set pi := applyLayoutToInode true mappedInode
    (parseFileLayout .all (.init twoMiBChunkBody)) with hpi
  have hchunks : pi.chunks = none := rfl
  have hstripe : ¬pi.isStriped = true := by decide
  have hdisj := needleRangesDisjoint_of_flat hchunks hstripe
  have hsound := h true .all mappedInode twoMiBChunkBody hdisj
  have halign := (((placementSound_iff pi hdisj).2 (by decide)).mp hsound).1
  have hinline : pi.placement ≠ .inline := by decide
  have hmap : pi.isMapped = true := by decide
  exact absurd halign.1 (by decide)

end PowerFS.Data
