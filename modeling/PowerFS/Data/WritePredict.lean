import PowerFS.Data.DirectIo
import PowerFS.Data.Trace
import PowerFS.Lib.Runs

namespace PowerFS.Data

open Layout Overlay

/-! The fingerprints of `powerfs_write_predict.c`, which let `powerfs_wb_submit_write_direct` and
`powerfs_direct_IO` skip the write of a needle. -/

/-- The fields of `struct powerfs_chunk_map` that the fingerprints use. -/
structure ChunkFp where
  needleId : UInt64
  volumeId : UInt64
  fpXxh : UInt64
  fpValid : Bool
  wpGen : UInt64

/-- An entry from `kzalloc`. -/
def ChunkFp.zero : ChunkFp := ⟨0, 0, 0, false, 0⟩

/-- `wp_entry_ensure_locked`: the table with an entry at `i`; `alloc` is whether `kzalloc`
succeeds. -/
def wpEntryEnsure (table : List ChunkFp) (alloc : Bool) (i : Nat) : Option (List ChunkFp) :=
  if i < table.length then some table
  else if 4096 < i + 1 then none
  else if alloc then some (table ++ List.replicate (i + 1 - table.length) .zero)
  else none

/-- The needle that the fingerprint of a chunk is about. -/
def ownSlot (pi : Inode) (chunkIdx : UInt32) : UInt64 × UInt64 :=
  (pi.volumeId, pi.fileKey + chunkIdx.toUInt64)

/-- A write request. It has no `track` when it has been answered, but may still be carried out. -/
structure WpRequest where
  write : NeedleWrite UInt8
  chunkIdx : UInt32
  dio : Bool
  /-- `wp_xxh` and `wp_gen`, with `wp_track`. -/
  track : Option (UInt64 × UInt64)
  landed : Bool

/-- One file at the client, its requests and the needles. -/
structure WpState where
  inode : Inode
  size : Nat
  table : List ChunkFp
  requests : List WpRequest
  content : UInt64 × UInt64 → List UInt8

/-- What a request makes of a needle. A gap before a blob is zero. -/
def NeedleWrite.applied (w : NeedleWrite UInt8) (old : List UInt8) : List UInt8 :=
  if w.whole then w.bytes
  else overlay (old ++ List.replicate (w.offset - old.length) 0) w.offset w.bytes

section Code

variable (xxh : List UInt8 → UInt64)

/-- The test of `powerfs_write_predict_check_hit`. -/
def fpHit (pi : Inode) (table : List ChunkFp) (chunkIdx : UInt32) (data : List UInt8) : Bool :=
  match table[chunkIdx.toNat]? with
  | none => false
  | some e =>
    e.fpValid && e.needleId ≠ 0 && e.fpXxh = xxh data &&
      e.needleId = (ownSlot pi chunkIdx).2 && e.volumeId = (ownSlot pi chunkIdx).1

structure CheckHit where
  hit : Bool
  table : List ChunkFp
  track : Option (UInt64 × UInt64)

/-- The entry of a write that has not succeeded yet. -/
def provisional (slot : UInt64 × UInt64) (fp gen : UInt64) : ChunkFp :=
  ⟨slot.2, slot.1, fp, false, gen⟩

/-- `powerfs_write_predict_check_hit`. -/
def checkHit (pi : Inode) (table : List ChunkFp) (enabled alloc : Bool) (chunkIdx : UInt32)
    (data : List UInt8) : CheckHit :=
  if !enabled || data.isEmpty then ⟨false, table, none⟩
  else if (ownSlot pi chunkIdx).2 = 0 ∨ (ownSlot pi chunkIdx).1 = 0 then ⟨false, table, none⟩
  else if fpHit xxh pi table chunkIdx data then ⟨true, table, none⟩
  else
    match wpEntryEnsure table alloc chunkIdx.toNat with
    | none => ⟨false, table, none⟩
    | some table' =>
      let gen := (table'.getD chunkIdx.toNat .zero).wpGen + 1
      ⟨false, table'.set chunkIdx.toNat (provisional (ownSlot pi chunkIdx) (xxh data) gen),
        if gen = 0 then none else some (xxh data, gen)⟩

/-- `powerfs_write_predict_commit`. -/
def wpCommit (table : List ChunkFp) (chunkIdx : UInt32) (place : UInt64 × UInt64)
    (fp gen : UInt64) : List ChunkFp :=
  match table[chunkIdx.toNat]? with
  | none => table
  | some e =>
    if place.2 ≠ 0 ∧ e.wpGen = gen ∧ e.fpValid = false ∧ e.needleId = place.2 ∧
        e.volumeId = place.1 ∧ e.fpXxh = fp then
      table.set chunkIdx.toNat { e with fpValid := true }
    else table

def groupOffset (g : Group UInt8) : Nat := g.2.head?.elim 0 (·.offset)

/-- The chunk index as `powerfs_wb_submit_write_direct` and `powerfs_direct_IO` compute it. -/
def chunkIndex (offset : Nat) : UInt32 := UInt32.ofNat (offset / chunkSize)

/-- The test for `powerfs_wb_submit_write_direct`, and not `powerfs_wb_submit_blob_extents`. -/
def coversNeedle (size : Nat) (g : Group UInt8) : Bool :=
  needleFullCoverage g.2 (groupOffset g - groupOffset g % chunkSize)
    (min (size - (groupOffset g - groupOffset g % chunkSize)) chunkSize)

/-- `powerfs_wb_submit_write_direct`. -/
def submitWriteDirect (s : WpState) (g : Group UInt8) (enabled alloc : Bool) : WpState :=
  let buf := directBuffer 0 g.2
  let chunkIdx := chunkIndex (groupOffset g)
  let r := checkHit xxh s.inode s.table enabled alloc chunkIdx buf
  if r.hit then s
  else
    { s with
      table := r.table
      requests := s.requests ++ [⟨⟨g.1, 0, buf, true⟩, chunkIdx, false, r.track, false⟩] }

/-- `powerfs_wb_submit_blob_extents`. -/
def submitBlobExtents (s : WpState) (g : Group UInt8) : WpState :=
  { s with
    requests := s.requests ++ (blobExtents g.2 []).map fun ext =>
      ⟨blobWrite g.1 ext, chunkIndex (groupOffset g), false, none, false⟩ }

/-- What a direct write meets. `old` is the answer to the ReadNeedle request of
`powerfs_net_write`. -/
structure WpDioEnv where
  remap : Except Errno Inode
  enabled : Bool
  alloc : Bool
  uninit : Nat → UInt8
  old : Except Errno (List UInt8)

/-- The request of `powerfs_net_write`. -/
def dioNetWrite (s : WpState) (pos : Nat) (data : List UInt8) (env : WpDioEnv) : WpState :=
  if s.inode.volumeId = 0 ∨ s.inode.fileKey = 0 then s
  else if chunkSize < pos % chunkSize + data.length then s
  else
    match env.old with
    | .error _ => s
    | .ok old =>
      { s with
        requests := s.requests ++ [⟨⟨dioTarget s.inode pos, 0,
          mergeNeedle env.uninit old (pos % chunkSize) data, true⟩, chunkIndex pos, true, none,
          false⟩] }

/-- `powerfs_direct_IO` asks for a hit for the first chunk only. -/
def dioCheck (s : WpState) (pos : Nat) (data : List UInt8) (env : WpDioEnv) : CheckHit :=
  if pos = 0 then checkHit xxh s.inode s.table env.enabled env.alloc (chunkIndex pos) data
  else ⟨false, s.table, none⟩

/-- A write of a needle by `powerfs_direct_IO`. -/
def dioWriteNeedle (s : WpState) (pos : Nat) (data : List UInt8) (env : WpDioEnv) : WpState :=
  let r := dioCheck xxh s pos data env
  if r.hit then s
  else
    { s with
      table := r.table
      requests := s.requests ++
        [⟨⟨dioTarget s.inode pos, 0, data, true⟩, chunkIndex pos, true, r.track, false⟩] }

/-- A direct write, `powerfs_direct_IO` and `powerfs_dio_write_worker`, up to its request. -/
def dioSubmit (s : WpState) (pos : Nat) (data : List UInt8) (env : WpDioEnv) : WpState :=
  match (if hasMapping s.inode then .ok s.inode else env.remap) with
  | .error _ => s
  | .ok pi =>
    let s := { s with inode := pi }
    if data.isEmpty || !hasMapping pi then s
    else if dioWriteCanSkipRead s.size pos data.length then dioWriteNeedle xxh s pos data env
    else dioNetWrite s pos data env

/-- The end of a request at the client; for a direct write the volume is read anew. -/
def completeRequest (s : WpState) (i : Nat) (r : WpRequest) (ok enabled : Bool) : WpState :=
  let place := if r.dio then (s.inode.volumeId, r.write.place.2) else r.write.place
  { s with
    table :=
      match r.track with
      | some (fp, gen) =>
        if ok && enabled then wpCommit s.table r.chunkIdx place fp gen else s.table
      | none => s.table
    requests := s.requests.set i { r with track := none } }

inductive WpEvent where
  /-- Group `i` of a batch of dirty pages is submitted. -/
  | writeback (batch : List (Page UInt8)) (i : Nat) (enabled alloc : Bool)
  | dio (pos : Nat) (data : List UInt8) (env : WpDioEnv)
  /-- The size changes: a truncate, or a write at the end. -/
  | resize (size : Nat)
  /-- The server carries out a request. -/
  | land (i : Nat)
  /-- The client gets an answer or gives up. -/
  | complete (i : Nat) (ok enabled : Bool)

def wpExec (s : WpState) : WpEvent → Option WpState
  | .writeback batch i enabled alloc =>
    (groupPages s.inode batch none)[i]?.map fun g =>
      if coversNeedle s.size g then submitWriteDirect xxh s g enabled alloc
      else submitBlobExtents s g
  | .dio pos data env => some (dioSubmit xxh s pos data env)
  | .resize size => some { s with size }
  | .land i =>
    s.requests[i]?.bind fun r =>
      if r.landed then none
      else some { s with
        requests := s.requests.set i { r with landed := true }
        content := Function.update s.content r.write.place
          (r.write.applied (s.content r.write.place)) }
  | .complete i ok enabled =>
    s.requests[i]?.bind fun r =>
      if ok && !r.landed then none else some (completeRequest s i r ok enabled)

/-- The fingerprints let the writeback of `data` to the needle `place` of chunk `c` be skipped. The
index of the chunk is a `u32`. -/
structure Skips (s : WpState) (c : Nat) (data : List UInt8) (place : UInt64 × UInt64) : Prop where
  offset : c < 2 ^ 32
  located : located s.inode (c * chunkSize) = some place
  length : data.length = chunkSize
  hit : (checkHit xxh s.inode s.table true true (UInt32.ofNat c) data).hit = true

variable (involved : Set (List UInt8))

/-- Where a fingerprint lets the writeback of a needle be skipped, the needle has the data. -/
def FpSound (s : WpState) : Prop :=
  ∀ c data place, data ∈ involved → Skips xxh s c data place → s.content place = data

/-- Group `g` is submitted and skipped. -/
def SkipsGroup (s : WpState) (g : Group UInt8) (enabled alloc : Bool) : Prop :=
  coversNeedle s.size g = true ∧ (checkHit xxh s.inode s.table enabled alloc
    (chunkIndex (groupOffset g)) (directBuffer 0 g.2)).hit = true

/-- If the event is a writeback that is skipped, the needle has the data. -/
def SkipRight (s : WpState) : WpEvent → Prop
  | .writeback batch i enabled alloc => ∀ g ∈ (groupPages s.inode batch none)[i]?,
    SkipsGroup xxh s g enabled alloc → s.content g.1 = directBuffer 0 g.2
  | _ => True

/-- The data of an event whose fingerprint is taken. -/
def Involves (s : WpState) : WpEvent → Prop
  | .writeback batch i _ _ =>
    ∀ g ∈ (groupPages s.inode batch none)[i]?, coversNeedle s.size g = true →
      directBuffer 0 g.2 ∈ involved
  | .dio _ data _ => data ∈ involved
  | _ => True

/-- The needle has no fingerprint that lets a writeback be skipped, or keeps its content. -/
def LandOk (s : WpState) (w : NeedleWrite UInt8) : Prop :=
  ∀ c data, data ∈ involved → Skips xxh s c data w.place →
    w.applied (s.content w.place) = s.content w.place

/-- If the commit lets the writeback of a needle be skipped, the needle has the data. -/
def CommitOk (s : WpState) (i : Nat) (r : WpRequest) (ok enabled : Bool) : Prop :=
  r.track.isSome → ∀ c place,
    Skips xxh (completeRequest s i r ok enabled) c r.write.bytes place →
      s.content place = r.write.bytes

/-- The condition on an event. For a writeback, that of a chunk whose number is not a `u32`. -/
def WpOk (s : WpState) : WpEvent → Prop
  | .writeback batch i enabled alloc => ∀ g ∈ (groupPages s.inode batch none)[i]?,
    2 ^ 32 ≤ groupOffset g / chunkSize → SkipsGroup xxh s g enabled alloc →
      s.content g.1 = directBuffer 0 g.2
  | .land i => ∀ r ∈ s.requests[i]?, LandOk xxh involved s r.write
  | .complete i ok enabled => ∀ r ∈ s.requests[i]?, CommitOk xxh s i r ok enabled
  | _ => True

/-- A file of which nothing has been written yet since its inode is in memory. -/
def WpInit (s : WpState) : Prop := s.table = [] ∧ s.requests = []

end Code

/-- The entry lets a write of data with fingerprint `fp` to `slot` be skipped. -/
structure ChunkFp.Matches (e : ChunkFp) (slot : UInt64 × UInt64) (fp : UInt64) : Prop where
  valid : e.fpValid = true
  needle : e.needleId = slot.2
  volume : e.volumeId = slot.1
  fp_eq : e.fpXxh = fp
  mapped : slot.2 ≠ 0 ∧ slot.1 ≠ 0

variable {place : UInt64 × UInt64}

section Table

variable {xxh : List UInt8 → UInt64} {pi : Inode} {table : List ChunkFp} {enabled alloc : Bool}
  {chunkIdx : UInt32} {data : List UInt8} {i : Nat} {e : ChunkFp}

theorem fpHit_iff : fpHit xxh pi table chunkIdx data = true ↔
    ∃ e, table[chunkIdx.toNat]? = some e ∧ e.fpValid = true ∧ e.needleId ≠ 0 ∧
      e.fpXxh = xxh data ∧ e.needleId = (ownSlot pi chunkIdx).2 ∧
      e.volumeId = (ownSlot pi chunkIdx).1 := by
  unfold fpHit
  cases table[chunkIdx.toNat]? with
  | none => simp
  | some e => simp [and_assoc]

theorem checkHit_hit_iff : (checkHit xxh pi table enabled alloc chunkIdx data).hit = true ↔
    enabled = true ∧ data ≠ [] ∧
      ∃ e, table[chunkIdx.toNat]? = some e ∧ e.Matches (ownSlot pi chunkIdx) (xxh data) := by
  unfold checkHit
  split
  · next hoff =>
    refine iff_of_false Bool.false_ne_true ?_
    rintro ⟨rfl, hne, -⟩
    simp [hne] at hoff
  · next hon =>
    simp only [Bool.or_eq_true, Bool.not_eq_true', List.isEmpty_iff, not_or,
      Bool.not_eq_false] at hon
    split
    · next hzero =>
      refine iff_of_false Bool.false_ne_true ?_
      rintro ⟨-, -, e, -, hmatch⟩
      exact hzero.elim hmatch.mapped.1 hmatch.mapped.2
    · next hmapped =>
      rw [not_or] at hmapped
      split
      · next hhit =>
        obtain ⟨e, he, hvalid, -, hfp, hneedle, hvolume⟩ := fpHit_iff.mp hhit
        exact iff_of_true rfl ⟨hon.1, hon.2, e, he, hvalid, hneedle, hvolume, hfp, hmapped⟩
      · next hmiss =>
        refine iff_of_false (by split <;> exact Bool.false_ne_true) ?_
        rintro ⟨-, -, e, he, hmatch⟩
        refine hmiss (fpHit_iff.mpr ⟨e, he, hmatch.valid, ?_, hmatch.fp_eq, hmatch.needle,
          hmatch.volume⟩)
        rw [hmatch.needle]
        exact hmatch.mapped.1

theorem wpEntryEnsure_valid {table' : List ChunkFp} {j : Nat}
    (h : wpEntryEnsure table alloc j = some table') (he : table'[i]? = some e)
    (hvalid : e.fpValid = true) : table[i]? = some e := by
  unfold wpEntryEnsure at h
  split at h
  · cases h
    exact he
  · split at h
    · cases h
    · split at h
      · cases h
        rw [List.getElem?_append] at he
        split at he
        · exact he
        · -- a new entry is not valid
          obtain ⟨-, rfl⟩ := List.mem_replicate.mp (List.mem_of_getElem? he)
          cases hvalid
      · cases h

theorem checkHit_valid (he : (checkHit xxh pi table enabled alloc chunkIdx data).table[i]? = some e)
    (hvalid : e.fpValid = true) : table[i]? = some e := by
  unfold checkHit at he
  split at he
  · exact he
  · split at he
    · exact he
    · split at he
      · exact he
      · split at he
        · exact he
        · next table' hensure =>
          rw [List.getElem?_set] at he
          split at he
          · split at he
            · cases he
              cases hvalid
            · cases he
          · exact wpEntryEnsure_valid hensure he hvalid

theorem checkHit_track {t : UInt64 × UInt64}
    (ht : t ∈ (checkHit xxh pi table enabled alloc chunkIdx data).track) :
    t.1 = xxh data ∧ pi.volumeId ≠ 0 := by
  unfold checkHit at ht
  split at ht <;> try cases ht
  split at ht
  · cases ht
  · next hmapped =>
    split at ht
    · cases ht
    · split at ht
      · cases ht
      · simp only [Option.mem_def] at ht
        split at ht
        · cases ht
        · cases ht
          exact ⟨rfl, fun hzero => hmapped (.inr hzero)⟩

theorem wpCommit_valid {fp gen : UInt64}
    (he : (wpCommit table chunkIdx place fp gen)[i]? = some e) (hvalid : e.fpValid = true) :
    table[i]? = some e ∨ e.fpXxh = fp := by
  unfold wpCommit at he
  split at he
  · exact .inl he
  · next e₀ hentry =>
    split at he
    · next hmatch =>
      rw [List.getElem?_set] at he
      split at he
      · split at he
        · cases he
          exact .inr hmatch.2.2.2.2.2
        · cases he
      · exact .inl he
    · exact .inl he

end Table

section Groups

variable {α : Type} {pi : Inode}

/-- The first page of a group is not empty and has been located to the needle of the group. -/
def Headed (pi : Inode) (g : Group α) : Prop :=
  ∃ p rest, g.2 = p :: rest ∧ p.data ≠ [] ∧ located pi p.offset = some g.1

theorem groupPages_headed (ps : List (Page α)) : ∀ cur : Option (Group α),
    (∀ g ∈ cur, Headed pi g) → ∀ g ∈ groupPages pi ps cur, Headed pi g := by
  induction ps with
  | nil =>
    intro cur hcur g hg
    exact hcur g (Option.mem_toList.mp hg)
  | cons p ps ih =>
    intro cur hcur g hg
    rw [groupPages_cons, List.mem_append] at hg
    obtain ⟨rfl, -, hr⟩ | ⟨c, rfl, -, hr⟩ | ⟨place, hplace, hr⟩ := groupStep_cases pi cur p
    · rw [hr] at hg
      exact ih none hcur g (hg.resolve_left List.not_mem_nil)
    · rw [hr] at hg
      refine ih _ (fun c' hc => ?_) g (hg.resolve_left List.not_mem_nil)
      obtain ⟨q, rest, hpages, hq⟩ := hcur c rfl
      cases hc
      exact ⟨q, rest ++ [p], by rw [hpages, List.cons_append], hq⟩
    · rw [hr] at hg
      obtain hg | hg := hg
      · exact hcur g (Option.mem_toList.mp hg)
      · exact ih _ (fun c hc => by cases hc; exact ⟨p, [], rfl, hplace⟩) g hg

theorem coverLoop_inside {start stop : Nat} (ps : List (Page α)) : ∀ covered,
    coverLoop start stop ps covered = true → ∀ p ∈ ps, p.data ≠ [] →
      start ≤ p.offset ∧ p.offset + p.data.length ≤ stop := by
  induction ps with
  | nil =>
    intro _ _ p hp
    cases hp
  | cons q ps ih =>
    intro covered h p hp hne
    rw [coverLoop] at h
    split at h
    · next hempty =>
      obtain rfl | hp := List.mem_cons.mp hp
      · exact absurd (List.isEmpty_iff.mp hempty) hne
      · exact ih _ h p hp hne
    · split at h
      · cases h
      · split at h
        · cases h
        · next hinside _ =>
          obtain rfl | hp := List.mem_cons.mp hp
          · omega
          · exact ih _ h p hp hne

theorem length_directBuffer {zero : α} {ps : List (Page α)}
    (h : ∀ p ∈ ps, p.data ≠ [] → p.offset % chunkSize + p.data.length ≤ chunkSize) :
    (directBuffer zero ps).length = chunkSize := by
  suffices hfold : ∀ buf : List α, buf.length = chunkSize →
      (ps.foldl (fun buf p => overlay buf (p.offset % chunkSize) p.data) buf).length =
        chunkSize from hfold _ List.length_replicate
  induction ps with
  | nil => exact fun buf hbuf => hbuf
  | cons p ps ih =>
    intro buf hbuf
    refine ih (fun q hq => h q (List.mem_cons_of_mem p hq)) _ ?_
    show (overlay buf (p.offset % chunkSize) p.data).length = chunkSize
    by_cases hne : p.data = []
    · rw [hne, overlay_nil, hbuf]
    · rw [length_overlay (by rw [hbuf]; exact h p List.mem_cons_self hne), hbuf]

end Groups

variable {g : Group UInt8}

theorem coversNeedle_spec {pi : Inode} {size : Nat} (hhead : Headed pi g)
    (h : coversNeedle size g = true) :
    located pi (groupOffset g / chunkSize * chunkSize) = some g.1 ∧
      (directBuffer 0 g.2).length = chunkSize := by
  obtain ⟨p, rest, hpages, hne, hplace⟩ := hhead
  have hfirst : groupOffset g = p.offset := by
    rw [groupOffset, hpages]
    rfl
  rw [coversNeedle, needleFullCoverage, Bool.and_eq_true, hfirst] at h
  obtain ⟨hmax, hcover⟩ := h
  have hinside := coverLoop_inside _ _ hcover
  have hdiv := Nat.div_add_mod p.offset chunkSize
  rw [Nat.mul_comm] at hdiv
  constructor
  · -- the first page leaves no gap
    have hgap : p.offset ≤ p.offset - p.offset % chunkSize := by
      rw [hpages, coverLoop, if_neg (by simpa using hne)] at hcover
      split at hcover
      · cases hcover
      · split at hcover
        · cases hcover
        · omega
    rw [hfirst, show p.offset / chunkSize * chunkSize = p.offset by omega]
    exact hplace
  · refine length_directBuffer fun q hq hqne => ?_
    obtain ⟨hlo, hhi⟩ := hinside q hq hqne
    have hlen := List.length_pos_iff.mpr hqne
    have hmod : q.offset % chunkSize = q.offset - (p.offset - p.offset % chunkSize) := by
      have hsplit : q.offset = (q.offset - (p.offset - p.offset % chunkSize)) +
          p.offset / chunkSize * chunkSize := by omega
      rw [hsplit, Nat.add_mul_mod_self_right, Nat.mod_eq_of_lt (by omega)]
      omega
    omega

variable {c : Nat}

section Runs

variable {xxh : List UInt8 → UInt64} {involved : Set (List UInt8)} {s s' : WpState}

theorem skips_iff {data : List UInt8} :
    Skips xxh s c data place ↔ c < 2 ^ 32 ∧
      located s.inode (c * chunkSize) = some place ∧ data.length = chunkSize ∧
      ∃ e, s.table[(UInt32.ofNat c).toNat]? = some e ∧
        e.Matches (ownSlot s.inode (UInt32.ofNat c)) (xxh data) := by
  constructor
  · intro h
    exact ⟨h.offset, h.located, h.length, (checkHit_hit_iff.mp h.hit).2.2⟩
  · rintro ⟨hoffset, hlocated, hlength, hentry⟩
    refine ⟨hoffset, hlocated, hlength, checkHit_hit_iff.mpr ⟨rfl, ?_, hentry⟩⟩
    rintro rfl
    exact chunkSize_pos.ne hlength

/-- Every request with a fingerprint has that of its data, and a file without a mapping has no
fingerprints. -/
structure Tracked (xxh : List UInt8 → UInt64) (involved : Set (List UInt8)) (s : WpState) :
    Prop where
  requests : ∀ r ∈ s.requests, ∀ t ∈ r.track,
    t.1 = xxh r.write.bytes ∧ r.write.bytes ∈ involved
  unmapped : hasMapping s.inode = false →
    (∀ e ∈ s.table, e.fpValid = false) ∧ ∀ r ∈ s.requests, r.track = none

/-- What a submission does: it makes no fingerprint valid. -/
structure Submits (xxh : List UInt8 → UInt64) (involved : Set (List UInt8)) (s s' : WpState) :
    Prop where
  inode : s'.inode = s.inode
  content : s'.content = s.content
  table : ∀ (i : Nat) (e : ChunkFp), s'.table[i]? = some e → e.fpValid = true →
    s.table[i]? = some e
  requests : ∀ r ∈ s'.requests, r ∈ s.requests ∨ ∀ t ∈ r.track,
    (t.1 = xxh r.write.bytes ∧ r.write.bytes ∈ involved) ∧ s.inode.volumeId ≠ 0

theorem hasMapping_of_volumeId {pi : Inode} (h : pi.volumeId ≠ 0) : hasMapping pi = true := by
  simp [hasMapping, h]

namespace Submits

theorem refl (s : WpState) : Submits xxh involved s s :=
  ⟨rfl, rfl, fun _ _ he _ => he, fun _ hr => .inl hr⟩

section

variable (h : Submits xxh involved s s')
include h

theorem tracked (htracked : Tracked xxh involved s) :
    Tracked xxh involved s' := by
  constructor
  · intro r hr t ht
    obtain hold | hnew := h.requests r hr
    · exact htracked.requests r hold t ht
    · exact (hnew t ht).1
  · intro hunmapped
    rw [h.inode] at hunmapped
    obtain ⟨htable, hrequests⟩ := htracked.unmapped hunmapped
    constructor
    · intro e he
      by_contra hvalid
      rw [Bool.not_eq_false] at hvalid
      obtain ⟨i, hi⟩ := List.mem_iff_getElem?.mp he
      have hold := htable e (List.mem_of_getElem? (h.table i e hi hvalid))
      rw [hvalid] at hold
      cases hold
    · intro r hr
      obtain hold | hnew := h.requests r hr
      · exact hrequests r hold
      · rw [Option.eq_none_iff_forall_not_mem]
        intro t ht
        have hmapped := hasMapping_of_volumeId (hnew t ht).2
        rw [hunmapped] at hmapped
        cases hmapped

theorem skips {data : List UInt8} (hs : Skips xxh s' c data place) : Skips xxh s c data place := by
  obtain ⟨hoffset, hlocated, hlength, e, he, hmatch⟩ := skips_iff.mp hs
  rw [h.inode] at hlocated hmatch
  exact skips_iff.mpr ⟨hoffset, hlocated, hlength, e, h.table _ e he hmatch.valid, hmatch⟩

theorem sound (hsound : FpSound xxh involved s) :
    FpSound xxh involved s' := by
  intro c data place hdata hskips
  rw [h.content]
  exact hsound c data place hdata (h.skips hskips)

end

end Submits

theorem submits_checked {r : CheckHit} {w : NeedleWrite UInt8} {chunkIdx : UInt32} {dio : Bool}
    (hvalid : ∀ (i : Nat) (e : ChunkFp), r.table[i]? = some e → e.fpValid = true →
      s.table[i]? = some e)
    (htrack : ∀ t ∈ r.track, t.1 = xxh w.bytes ∧ s.inode.volumeId ≠ 0)
    (hdata : w.bytes ∈ involved) :
    Submits xxh involved s { s with
      table := r.table
      requests := s.requests ++ [⟨w, chunkIdx, dio, r.track, false⟩] } := by
  refine ⟨rfl, rfl, hvalid, fun q hq => ?_⟩
  obtain hold | hnew := List.mem_append.mp hq
  · exact .inl hold
  · obtain rfl := List.mem_singleton.mp hnew
    exact .inr fun t ht => ⟨⟨(htrack t ht).1, hdata⟩, (htrack t ht).2⟩

theorem submits_writeDirect {enabled alloc : Bool} (hdata : directBuffer 0 g.2 ∈ involved) :
    Submits xxh involved s (submitWriteDirect xxh s g enabled alloc) := by
  simp only [submitWriteDirect]
  split
  · exact .refl s
  · exact submits_checked (fun _ _ => checkHit_valid) (fun _ => checkHit_track) hdata

theorem submits_blobExtents :
    Submits xxh involved s (submitBlobExtents s g) := by
  refine ⟨rfl, rfl, fun i e he _ => he, fun r hr => ?_⟩
  obtain hold | hnew := List.mem_append.mp hr
  · exact .inl hold
  · obtain ⟨ext, -, rfl⟩ := List.mem_map.mp hnew
    refine .inr fun t ht => ?_
    cases ht

theorem submits_dioNetWrite {pos : Nat} {data : List UInt8} {env : WpDioEnv} :
    Submits xxh involved s (dioNetWrite s pos data env) := by
  unfold dioNetWrite
  split
  · exact .refl s
  · split
    · exact .refl s
    · split
      · exact .refl s
      · refine ⟨rfl, rfl, fun i e he _ => he, fun r hr => ?_⟩
        obtain hold | hnew := List.mem_append.mp hr
        · exact .inl hold
        · obtain rfl := List.mem_singleton.mp hnew
          refine .inr fun t ht => ?_
          cases ht

theorem submits_dioWriteNeedle {pos : Nat} {data : List UInt8} {env : WpDioEnv}
    (hdata : data ∈ involved) : Submits xxh involved s (dioWriteNeedle xxh s pos data env) := by
  simp only [dioWriteNeedle]
  split
  · exact .refl s
  · refine submits_checked (fun i e he hvalid => ?_) (fun t ht => ?_) hdata
    · unfold dioCheck at he
      split at he
      · exact checkHit_valid he hvalid
      · exact he
    · unfold dioCheck at ht
      split at ht
      · exact checkHit_track ht
      · cases ht

theorem Tracked.remap (h : Tracked xxh involved s) (hunmapped : hasMapping s.inode = false)
    (pi : Inode) :
    Tracked xxh involved { s with inode := pi } ∧ FpSound xxh involved { s with inode := pi } := by
  obtain ⟨htable, hrequests⟩ := h.unmapped hunmapped
  refine ⟨⟨h.requests, fun _ => ⟨htable, hrequests⟩⟩, fun c data place _ hskips => ?_⟩
  obtain ⟨-, -, -, e, he, hmatch⟩ := skips_iff.mp hskips
  have hvalid := htable e (List.mem_of_getElem? he)
  rw [hmatch.valid] at hvalid
  cases hvalid

theorem dioSubmit_keeps (hsound : FpSound xxh involved s) (htracked : Tracked xxh involved s)
    (pos : Nat) {data : List UInt8} (env : WpDioEnv) (hdata : data ∈ involved) :
    FpSound xxh involved (dioSubmit xxh s pos data env) ∧
      Tracked xxh involved (dioSubmit xxh s pos data env) := by
  unfold dioSubmit
  split
  · exact ⟨hsound, htracked⟩
  · next pi hpi =>
    have hstart : FpSound xxh involved { s with inode := pi } ∧
        Tracked xxh involved { s with inode := pi } := by
      by_cases hmap : hasMapping s.inode = true
      · rw [if_pos hmap] at hpi
        cases hpi
        exact ⟨hsound, htracked⟩
      · exact (htracked.remap (Bool.eq_false_iff.mpr hmap) pi).symm
    have hsubmits : ∀ {s'}, Submits xxh involved { s with inode := pi } s' →
        FpSound xxh involved s' ∧ Tracked xxh involved s' :=
      fun h => ⟨h.sound hstart.1, h.tracked hstart.2⟩
    dsimp only
    split
    · exact hstart
    · split
      · exact hsubmits (submits_dioWriteNeedle hdata)
      · exact hsubmits submits_dioNetWrite

variable {batch : List (Page UInt8)}

theorem writeback_submits {i : Nat} {enabled alloc : Bool}
    (hdata : Involves involved s (.writeback batch i enabled alloc))
    (hs : wpExec xxh s (.writeback batch i enabled alloc) = some s') :
    Submits xxh involved s s' := by
  obtain ⟨g, hg, rfl⟩ := Option.map_eq_some_iff.mp hs
  split
  · next hcover => exact submits_writeDirect (hdata g hg hcover)
  · exact submits_blobExtents

section Request

variable {i : Nat} {r : WpRequest} {ok enabled : Bool}

section

variable (h : Tracked xxh involved s) (hr : s.requests[i]? = some r)
include h hr

theorem Tracked.set_request
    (landed : Bool) {track : Option (UInt64 × UInt64)} (htrack : track = none ∨ track = r.track) :
    (∀ q ∈ s.requests.set i { r with track, landed }, ∀ t ∈ q.track,
      t.1 = xxh q.write.bytes ∧ q.write.bytes ∈ involved) ∧
    (hasMapping s.inode = false → ∀ q ∈ s.requests.set i { r with track, landed },
      q.track = none) := by
  have hmem := List.mem_of_getElem? hr
  constructor
  · intro q hq t ht
    obtain hold | rfl := List.mem_or_eq_of_mem_set hq
    · exact h.requests q hold t ht
    · obtain rfl | rfl := htrack
      · cases ht
      · exact h.requests r hmem t ht
  · intro hunmapped q hq
    obtain hold | rfl := List.mem_or_eq_of_mem_set hq
    · exact (h.unmapped hunmapped).2 q hold
    · obtain rfl | rfl := htrack
      · rfl
      · exact (h.unmapped hunmapped).2 r hmem

theorem Tracked.complete :
    Tracked xxh involved (completeRequest s i r ok enabled) := by
  obtain ⟨htracked, huntracked⟩ := h.set_request hr r.landed (.inl rfl)
  refine ⟨htracked, fun hunmapped => ⟨?_, huntracked hunmapped⟩⟩
  have hnone := (h.unmapped hunmapped).2 r (List.mem_of_getElem? hr)
  simp only [completeRequest, hnone]
  exact (h.unmapped hunmapped).1

end

/-- The answer to a request keeps the fingerprints right exactly if the one it makes valid is. -/
theorem FpSound.complete_iff (hinj : Set.InjOn xxh involved)
    (hsound : FpSound xxh involved s) (htracked : Tracked xxh involved s)
    (hr : s.requests[i]? = some r) :
    FpSound xxh involved (completeRequest s i r ok enabled) ↔
      CommitOk xxh s i r ok enabled := by
  have hrequest := htracked.requests r (List.mem_of_getElem? hr)
  constructor
  · intro h htrack c place hskips
    obtain ⟨t, ht⟩ := Option.isSome_iff_exists.mp htrack
    exact h c _ place (hrequest t ht).2 hskips
  · intro hok c data place hdata hskips
    obtain ⟨hoffset, hlocated, hlength, e, he, hmatch⟩ := skips_iff.mp hskips
    have hold : s.table[(UInt32.ofNat c).toNat]? = some e → s.content place = data := fun he =>
      hsound c data place hdata (skips_iff.mpr ⟨hoffset, hlocated, hlength, e, he, hmatch⟩)
    cases htrack : r.track with
    | none =>
      simp only [completeRequest, htrack] at he
      exact hold he
    | some t =>
      obtain ⟨fp, gen⟩ := t
      obtain ⟨hfp, hinvolved⟩ := hrequest _ htrack
      simp only [completeRequest, htrack] at he
      split at he
      · obtain he | hcommit := wpCommit_valid he hmatch.valid
        · exact hold he
        · -- the fingerprint is that of the data of the request
          have heq : data = r.write.bytes := by
            apply hinj hdata hinvolved
            rw [← hmatch.fp_eq, hcommit, ← hfp]
          subst heq
          exact hok (by rw [htrack]; rfl) c place hskips
      · exact hold he

theorem FpSound.land_iff {requests : List WpRequest} {w : NeedleWrite UInt8}
    (hsound : FpSound xxh involved s) :
    FpSound xxh involved { s with
      requests
      content := Function.update s.content w.place (w.applied (s.content w.place)) } ↔
      LandOk xxh involved s w := by
  constructor
  · intro h c data hdata hskips
    have hbefore := hsound c data w.place hdata hskips
    have hafter := h c data w.place hdata ⟨hskips.offset, hskips.located, hskips.length, hskips.hit⟩
    replace hafter : Function.update s.content w.place _ w.place = data := hafter
    rw [Function.update_self] at hafter
    rw [hafter, hbefore]
  · intro hok c data place hdata hskips
    have hskips : Skips xxh s c data place :=
      ⟨hskips.offset, hskips.located, hskips.length, hskips.hit⟩
    show Function.update s.content w.place _ place = data
    by_cases hplace : place = w.place
    · subst hplace
      rw [Function.update_self, hok c data hdata hskips]
      exact hsound c data w.place hdata hskips
    · rw [Function.update_of_ne hplace]
      exact hsound c data place hdata hskips

end Request

theorem FpSound.group (h : FpSound xxh involved s)
    (hg : g ∈ groupPages s.inode batch none) (hoffset : groupOffset g / chunkSize < 2 ^ 32)
    (hdata : directBuffer 0 g.2 ∈ involved) {enabled alloc : Bool}
    (hskips : SkipsGroup xxh s g enabled alloc) : s.content g.1 = directBuffer 0 g.2 := by
  have hhead := groupPages_headed batch none (fun _ hnone => by cases hnone) g hg
  obtain ⟨hlocated, hlength⟩ := coversNeedle_spec hhead hskips.1
  exact h (groupOffset g / chunkSize) _ g.1 hdata
    (skips_iff.mpr ⟨hoffset, hlocated, hlength, (checkHit_hit_iff.mp hskips.2).2.2⟩)

theorem FpSound.skipRight_iff (h : FpSound xxh involved s) {i : Nat}
    {enabled alloc : Bool} (hdata : Involves involved s (.writeback batch i enabled alloc)) :
    SkipRight xxh s (.writeback batch i enabled alloc) ↔
      WpOk xxh involved s (.writeback batch i enabled alloc) := by
  constructor
  · intro hright g hg _ hskips
    exact hright g hg hskips
  · intro hok g hg hskips
    by_cases hfar : 2 ^ 32 ≤ groupOffset g / chunkSize
    · exact hok g hg hfar hskips
    · exact h.group (List.mem_of_getElem? hg) (by omega) (hdata g hg hskips.1) hskips

theorem FpSound.step (hinj : Set.InjOn xxh involved) (hsound : FpSound xxh involved s)
    (htracked : Tracked xxh involved s) {e : WpEvent} (hdata : Involves involved s e)
    (hs : wpExec xxh s e = some s') :
    Tracked xxh involved s' ∧
      (SkipRight xxh s e ∧ FpSound xxh involved s' ↔ WpOk xxh involved s e) := by
  cases e with
  | writeback batch i enabled alloc =>
    have hsubmits := writeback_submits hdata hs
    refine ⟨hsubmits.tracked htracked, ?_⟩
    rw [and_iff_left (hsubmits.sound hsound)]
    exact hsound.skipRight_iff hdata
  | dio pos data env =>
    cases hs
    obtain ⟨hsound', htracked'⟩ := dioSubmit_keeps hsound htracked pos env hdata
    exact ⟨htracked', iff_of_true ⟨trivial, hsound'⟩ trivial⟩
  | resize size =>
    cases hs
    refine ⟨⟨htracked.requests, htracked.unmapped⟩, iff_of_true ⟨trivial, ?_⟩ trivial⟩
    intro c data place hdata hskips
    exact hsound c data place hdata ⟨hskips.offset, hskips.located, hskips.length, hskips.hit⟩
  | land i =>
    obtain ⟨r, hr, hs⟩ := Option.bind_eq_some_iff.mp hs
    split at hs <;> cases hs
    obtain ⟨htracked', huntracked⟩ := htracked.set_request hr true (.inr rfl)
    refine ⟨⟨htracked', fun hunmapped => ⟨(htracked.unmapped hunmapped).1,
      huntracked hunmapped⟩⟩, (and_iff_right trivial).trans (hsound.land_iff.trans ?_)⟩
    simp only [WpOk, hr, Option.mem_some_iff, forall_eq']
  | complete i ok enabled =>
    obtain ⟨r, hr, hs⟩ := Option.bind_eq_some_iff.mp hs
    split at hs <;> cases hs
    refine ⟨htracked.complete hr,
      (and_iff_right trivial).trans ((hsound.complete_iff hinj htracked hr).trans ?_)⟩
    simp only [WpOk, hr, Option.mem_some_iff, forall_eq']

theorem WpInit.keeps (h : WpInit s) : FpSound xxh involved s ∧ Tracked xxh involved s := by
  constructor
  · intro c data place _ hskips
    obtain ⟨-, -, -, e, he, -⟩ := skips_iff.mp hskips
    rw [h.1] at he
    cases he
  · refine ⟨fun r hr => ?_, fun _ => ⟨fun e he => ?_, fun r hr => ?_⟩⟩
    · rw [h.2] at hr
      cases hr
    · rw [h.1] at he
      cases he
    · rw [h.2] at hr
      cases hr

end Runs

section Sample

def predictInode : Inode := { Inode.fresh with volumeId := 7, fileKey := 100 }

section FirstWrite

variable (xxh : List UInt8 → UInt64) (buf : List UInt8)

def firstRequest (track : Option (UInt64 × UInt64)) (landed : Bool) : WpRequest :=
  ⟨⟨(7, 100), 0, buf, true⟩, 0, false, track, landed⟩

def predictState (table : List ChunkFp) (requests : List WpRequest)
    (content : UInt64 × UInt64 → List UInt8) : WpState :=
  ⟨predictInode, chunkSize, table, requests, content⟩

/-- After the writeback of the first chunk has been submitted, carried out and answered. -/
def submitted : WpState :=
  predictState [provisional (7, 100) (xxh buf) 1] [firstRequest buf (some (xxh buf, 1)) false]
    fun _ => []

def carriedOut : WpState :=
  predictState [provisional (7, 100) (xxh buf) 1] [firstRequest buf (some (xxh buf, 1)) true]
    (Function.update (fun _ => []) (7, 100) buf)

def committed : WpState :=
  predictState [⟨100, 7, xxh buf, true, 1⟩] [firstRequest buf none true]
    (Function.update (fun _ => []) (7, 100) buf)

variable {buf}

end FirstWrite

section Steps

variable {xxh : List UInt8 → UInt64} {s : WpState}

end Steps

end Sample

end PowerFS.Data
