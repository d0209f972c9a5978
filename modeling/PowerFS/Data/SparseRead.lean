import PowerFS.Data.Placement

namespace PowerFS.Data

open Layout

/-! Plain reads of files with missing and short needles. -/

/-- The stored byte of a file offset, zero where the needle is absent or ends before it. -/
def storedByte (st : Needles) (pi : Inode) (o : Nat) : UInt8 :=
  match located pi o with
  | none => 0
  | some p => (st.content p).getD (o % chunkSize) 0

def storedBytes (st : Needles) (pi : Inode) (pos n : Nat) : List UInt8 :=
  (List.range' pos n).map (storedByte st pi)

/-- A read returns what is stored in its range, with zeros in the holes. -/
def SparseReads (st : Needles) (pi : Inode) (pos n : Nat) : Prop :=
  FileBytes st pi pos n (storedBytes st pi pos n)

/-- The offset for which a read from `pos` on looks up the needle that it takes byte `o` from. -/
def lookupOffset (pos o : Nat) : Nat := max pos (o / chunkSize * chunkSize)

/-- Byte `o` of the range `[pos, stop)` can be taken from needle `p`. The needle holds all that the
range asks of its chunk, or none of it where the range ends in this chunk. -/
structure Serves (st : Needles) (pi : Inode) (pos stop o : Nat) (p : UInt64 × UInt64) : Prop where
  found : locateChunk pi (lookupOffset pos o) = .ok p
  intact : crcMismatch (recordedCrc pi o) (st.content p) = false
  own : (st.content p).getD (o % chunkSize) 0 = storedByte st pi o
  reaches : min stop ((o / chunkSize + 1) * chunkSize)
      ≤ o / chunkSize * chunkSize + (st.content p).length ∨
    o / chunkSize * chunkSize + (st.content p).length ≤ lookupOffset pos o ∧
      stop ≤ (o / chunkSize + 1) * chunkSize

def Served (st : Needles) (pi : Inode) (pos n : Nat) : Prop :=
  ∀ o, pos ≤ o → o < pos + n → ∃ p, Serves st pi pos (pos + n) o p

variable {st : Needles} {pi : Inode} {cur n fuel : Nat} {p : UInt64 × UInt64}

theorem recordedCrc_congr {o : Nat} (h : o / chunkSize = cur / chunkSize) :
    recordedCrc pi o = recordedCrc pi cur := by
  simp only [recordedCrc, replicaFor, h]

/-- How much of the range lies in the chunk of `cur`. -/
def partLen (cur n : Nat) : Nat := min n (chunkSize - cur % chunkSize)

theorem partLen_pos (hn : 0 < n) : 0 < partLen cur n := by
  have := Nat.mod_lt cur chunkSize_pos
  simp only [partLen]
  omega

theorem partLen_le : partLen cur n ≤ n := Nat.min_le_left _ _

theorem div_of_part {o : Nat} (hlo : cur ≤ o) (hhi : o < cur + partLen cur n) :
    o / chunkSize = cur / chunkSize := by
  simp only [partLen, chunkSize] at *
  omega

theorem lookupOffset_of_part {o : Nat} (hlo : cur ≤ o) (hhi : o < cur + partLen cur n) :
    lookupOffset cur o = cur := by
  rw [lookupOffset, div_of_part hlo hhi]
  exact Nat.max_eq_left (Nat.div_mul_le_self cur chunkSize)

theorem lookupOffset_behind {o : Nat} (hlo : cur + partLen cur n ≤ o) (hhi : o < cur + n) :
    lookupOffset cur o = lookupOffset (cur + partLen cur n) o := by
  simp only [lookupOffset, partLen, chunkSize] at *
  omega

/-- The needle serves the part of the range in the chunk of `cur`. -/
def HoldsPart (needle : List UInt8) (cur n : Nat) : Prop :=
  cur % chunkSize + partLen cur n ≤ needle.length ∨
    needle.length ≤ cur % chunkSize ∧ n = partLen cur n

theorem reaches_iff_holdsPart {o : Nat} (needle : List UInt8) (hlo : cur ≤ o)
    (hhi : o < cur + partLen cur n) :
    (min (cur + n) ((o / chunkSize + 1) * chunkSize) ≤ o / chunkSize * chunkSize + needle.length ∨
      o / chunkSize * chunkSize + needle.length ≤ lookupOffset cur o ∧
        cur + n ≤ (o / chunkSize + 1) * chunkSize) ↔ HoldsPart needle cur n := by
  rw [lookupOffset_of_part hlo hhi, HoldsPart]
  simp only [partLen, chunkSize] at *
  omega

def partBytes (needle : List UInt8) (cur n : Nat) : List UInt8 :=
  (List.range' cur (partLen cur n)).map fun o => needle.getD (o % chunkSize) 0

theorem partBytes_length (needle : List UInt8) :
    (partBytes needle cur n).length = partLen cur n := by
  rw [partBytes, List.length_map, List.length_range']

theorem served_iff (hn : 0 < n) : Served st pi cur n ↔
    (∃ p, locateChunk pi cur = .ok p ∧
      crcMismatch (recordedCrc pi cur) (st.content p) = false ∧ HoldsPart (st.content p) cur n ∧
      partBytes (st.content p) cur n = storedBytes st pi cur (partLen cur n)) ∧
    Served st pi (cur + partLen cur n) (n - partLen cur n) := by
  have hpos : 0 < partLen cur n := partLen_pos hn
  have hle : partLen cur n ≤ n := partLen_le
  have hstop : cur + partLen cur n + (n - partLen cur n) = cur + n := by omega
  constructor
  · intro h
    obtain ⟨p, hp⟩ := h cur (Nat.le_refl _) (by omega)
    have hcur : cur < cur + partLen cur n := by omega
    have hfound : locateChunk pi cur = .ok p := by
      have := hp.found
      rwa [lookupOffset_of_part (Nat.le_refl _) hcur] at this
    refine ⟨⟨p, hfound, hp.intact, (reaches_iff_holdsPart _ (Nat.le_refl _) hcur).mp hp.reaches,
      ?_⟩, ?_⟩
    · apply List.map_congr_left
      intro o ho
      rw [List.mem_range'_1] at ho
      obtain ⟨q, hq⟩ := h o ho.1 (by omega)
      have hsame := hq.found
      rw [lookupOffset_of_part ho.1 ho.2, hfound] at hsame
      cases hsame
      exact hq.own
    · intro o hlo hhi
      obtain ⟨q, hq⟩ := h o (by omega) (by omega)
      have hlook := lookupOffset_behind hlo (by omega)
      exact ⟨q, by rw [← hlook]; exact hq.found, hq.intact, hq.own,
        by rw [← hlook, hstop]; exact hq.reaches⟩
  · rintro ⟨⟨p, hfound, hcrc, hholds, hbytes⟩, hrest⟩ o hlo hhi
    by_cases hpart : o < cur + partLen cur n
    · refine ⟨p, by rw [lookupOffset_of_part hlo hpart]; exact hfound,
        by rw [recordedCrc_congr (div_of_part hlo hpart)]; exact hcrc, ?_,
        (reaches_iff_holdsPart _ hlo hpart).mpr hholds⟩
      exact List.map_inj_left.mp hbytes o (List.mem_range'_1.mpr ⟨hlo, hpart⟩)
    · rw [Nat.not_lt] at hpart
      obtain ⟨q, hq⟩ := hrest o hpart (by omega)
      have hlook := lookupOffset_behind hpart hhi
      exact ⟨q, by rw [hlook]; exact hq.found, hq.intact, hq.own,
        by rw [hlook, ← hstop]; exact hq.reaches⟩

theorem segmentBytes_eq_partBytes {needle : List UInt8} (hlen : needle.length ≤ chunkSize)
    (h : HoldsPart needle cur n) :
    segmentBytes needle (cur % chunkSize) n = partBytes needle cur n := by
  apply List.ext_getElem?
  intro j
  have hoff := Nat.mod_lt cur chunkSize_pos
  rw [partBytes, List.getElem?_map, segmentBytes]
  by_cases hj : j < partLen cur n
  · have hmod : (cur + j) % chunkSize = cur % chunkSize + j := by
      simp only [partLen, chunkSize] at *
      omega
    rw [List.getElem?_range' hj, Option.map_some, Nat.one_mul, hmod,
      List.getD_eq_getElem?_getD]
    split
    · next hend =>
      rw [List.getElem?_replicate, if_pos (show j < min n _ from hj),
        List.getElem?_eq_none (by omega)]
      rfl
    · next hend =>
      have hin : cur % chunkSize + j < needle.length := by
        obtain h | h := h <;> omega
      rw [List.getElem?_take_of_lt (Nat.lt_of_lt_of_le hj partLen_le), List.getElem?_drop,
        List.getElem?_eq_getElem hin]
      rfl
  · rw [List.getElem?_eq_none (l := List.range' cur (partLen cur n))
      (by rw [List.length_range']; exact Nat.not_lt.mp hj)]
    apply List.getElem?_eq_none
    split
    · rw [List.length_replicate]
      exact Nat.not_lt.mp hj
    · rw [List.length_take, List.length_drop]
      simp only [partLen] at hj
      omega

section

variable (hn : 0 < n) (hloc : locateChunk pi cur = .ok p)
  (hcrc : crcMismatch (recordedCrc pi cur) (st.content p) = false)
include hn hloc hcrc

theorem netReadLoop_round (h : HoldsPart (st.content p) cur n) :
    netReadLoop st.reads pi (fuel + 1) cur n =
      (netReadLoop st.reads pi fuel (cur + partLen cur n) (n - partLen cur n)).map
        (⟨cur, p, partBytes (st.content p) cur n⟩ :: ·) := by
  have hbytes := segmentBytes_eq_partBytes (st.content_length_le p) h
  simp only [netReadLoop, if_neg (Nat.pos_iff_ne_zero.mp hn), hloc, fetchNeedle_reads, hcrc,
    Bool.false_eq_true, if_false, hbytes, partBytes_length]
  split
  · next hend =>
    -- a short needle that serves the part is the last one
    have hlast : n - partLen cur n = 0 := by
      simp only [HoldsPart, partLen] at h hend ⊢
      omega
    rw [hlast, netReadLoop_zero]
    rfl
  · cases netReadLoop st.reads pi fuel (cur + partLen cur n) (n - partLen cur n) <;> rfl

theorem netReadLoop_cut (h : ¬ HoldsPart (st.content p) cur n) :
    ∃ bytes : List UInt8, bytes.length < n ∧
      ∀ fuel, netReadLoop st.reads pi (fuel + 1) cur n = .ok [⟨cur, p, bytes⟩] := by
  have hoff := Nat.mod_lt cur chunkSize_pos
  have hlen := st.content_length_le p
  have hshort : (segmentBytes (st.content p) (cur % chunkSize) n).length < n ∧
      (st.content p).length < chunkSize ∧ (st.content p).length
        ≤ cur % chunkSize + (segmentBytes (st.content p) (cur % chunkSize) n).length := by
    rw [segmentBytes]
    simp only [HoldsPart, partLen] at h
    split
    · rw [List.length_replicate]
      omega
    · rw [List.length_take, List.length_drop]
      omega
  refine ⟨_, hshort.1, fun fuel => ?_⟩
  simp only [netReadLoop, if_neg (Nat.pos_iff_ne_zero.mp hn), hloc, fetchNeedle_reads, hcrc,
    Bool.false_eq_true, if_false, if_pos hshort.2]

end

theorem storedBytes_split : storedBytes st pi cur n =
    storedBytes st pi cur (partLen cur n) ++
      storedBytes st pi (cur + partLen cur n) (n - partLen cur n) := by
  rw [storedBytes, storedBytes, storedBytes, ← List.map_append, List.range'_append_1,
    Nat.add_sub_cancel' partLen_le]

def loopBytes (r : Except Errno (List Segment)) : Except Errno (List UInt8) :=
  r.map fun segs => segs.flatMap (·.bytes)

theorem loopBytes_cons_eq_ok {r : Except Errno (List Segment)} {seg : Segment}
    {front back : List UInt8} (hlen : seg.bytes.length = front.length) :
    loopBytes (r.map (seg :: ·)) = .ok (front ++ back) ↔
      seg.bytes = front ∧ loopBytes r = .ok back := by
  cases r with
  | error e => simp [loopBytes, Except.map]
  | ok segs =>
    simp only [loopBytes, Except.map, List.flatMap_cons, Except.ok.injEq]
    exact ⟨fun h => List.append_inj h hlen, fun h => by rw [h.1, h.2]⟩

theorem loopBytes_eq_ok_iff (hfuel : n ≤ fuel) :
    loopBytes (netReadLoop st.reads pi fuel cur n) = .ok (storedBytes st pi cur n) ↔
      Served st pi cur n := by
  -- one round for each chunk of the range
  induction fuel generalizing cur n with
  | zero =>
    obtain rfl : n = 0 := by omega
    exact ⟨fun _ o hlo hhi => absurd hlo (by omega), fun _ => rfl⟩
  | succ fuel ih =>
    obtain rfl | hn := Nat.eq_zero_or_pos n
    · exact ⟨fun _ o hlo hhi => absurd hlo (by omega), fun _ => rfl⟩
    rw [served_iff hn]
    cases hloc : locateChunk pi cur with
    | error e =>
      have hfail : netReadLoop st.reads pi (fuel + 1) cur n = .error e := by
        simp only [netReadLoop, if_neg (Nat.pos_iff_ne_zero.mp hn), hloc]
      simp [hfail, loopBytes, Except.map]
    | ok p =>
      cases hcrc : crcMismatch (recordedCrc pi cur) (st.content p) with
      | true =>
        have hfail : netReadLoop st.reads pi (fuel + 1) cur n = .error .eio := by
          simp only [netReadLoop, if_neg (Nat.pos_iff_ne_zero.mp hn), hloc, fetchNeedle_reads,
            hcrc, if_true]
        simp [hfail, loopBytes, Except.map, hcrc]
      | false =>
        by_cases hholds : HoldsPart (st.content p) cur n
        · have hpos : 0 < partLen cur n := partLen_pos hn
          rw [netReadLoop_round hn hloc hcrc hholds, storedBytes_split,
            loopBytes_cons_eq_ok (by simp [partBytes_length, storedBytes]), ih (by omega)]
          simp [hcrc, hholds]
        · obtain ⟨bytes, hlen, hcut⟩ := netReadLoop_cut hn hloc hcrc hholds
          rw [hcut fuel]
          constructor
          · intro h
            have hsame : bytes = storedBytes st pi cur n := by
              simpa [loopBytes, Except.map] using h
            rw [hsame, storedBytes, List.length_map, List.length_range'] at hlen
            omega
          · rintro ⟨⟨q, hq, -, hq', -⟩, -⟩
            cases hq
            exact absurd hq' hholds

/-- A plain read gives the stored bytes of its range exactly when each needle in it holds all that
is asked of it, where only the last one may also hold none. -/
theorem sparseReads_iff (st : Needles) (pi : Inode) (pos n : Nat) (hec : readsEc pi = false) :
    SparseReads st pi pos n ↔ Served st pi pos n := by
  rw [← loopBytes_eq_ok_iff (Nat.le_refl n)]
  have hread : ∀ env : ReadEnv, env.Allocates → netRead env st.reads pi pos n n =
      some (loopBytes (netReadLoop st.reads pi n pos n)) := fun env henv =>
    netRead_plain henv hec st.reads pos n
  constructor
  · intro h
    obtain ⟨env, henv, -⟩ := exists_allocates 0
    exact Option.some.inj ((hread env henv).symm.trans (h env henv))
  · intro h env henv
    rw [hread env henv, h]

/-- Of the file of `mappedInode` only chunk 1 has been written, one byte of it. -/
def secondOnly : Needles := fun p => if p = (7, 101) then some ⟨[5], by decide⟩ else none

/-- The byte itself is read. -/
theorem sparseReads_iff_secondOnly : SparseReads secondOnly mappedInode chunkSize 1 := by
  refine (sparseReads_iff secondOnly mappedInode chunkSize 1 (by decide)).mpr ?_
  intro o hlo hhi
  obtain rfl : o = chunkSize := by omega
  exact ⟨(7, 101), by decide, by decide, by decide, by decide⟩

/-- A read that starts in the hole before it ends there. -/
theorem not_sparseReads_all : ¬ ∀ (st : Needles) (pi : Inode) (pos n : Nat),
    readsEc pi = false → SparseReads st pi pos n := by
  intro hall
  have hread := hall secondOnly mappedInode (chunkSize - 1) 2 (by decide) .calm
    ⟨rfl, rfl, rfl, rfl, fun _ => rfl⟩
  exact absurd hread (by decide)

end PowerFS.Data
