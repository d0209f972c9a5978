import PowerFS.Layout.ParseFields

namespace PowerFS.Layout

open Net

/-! `parse_file_layout` with every byte that it reads, every array that it allocates and the counts
that it stores beside the arrays. A result `none` is a read outside the body, or a search that does
not end. -/

/-- An allocation: bytes of inline data, volume ids, or entries of a chunk map. -/
inductive LayoutAlloc where
  | inlineData (len : Nat)
  | volumeIds (count : Nat)
  | chunks (count : Nat)

/-- The limits; a list of chunks is no longer than the body. -/
def LayoutAlloc.Bounded (bodyLen : Nat) : LayoutAlloc → Prop
  | .inlineData len => len ≤ inlineMaxSize
  | .volumeIds count => count ≤ 256
  | .chunks count => count * 44 ≤ bodyLen

/-- The decoder, the layout with the counts of its arrays, and what was allocated for it. -/
structure ParseState where
  dec : TlvDec
  layout : FileLayout := {}
  inlineLen : UInt32 := 0
  volumeIdsCount : UInt32 := 0
  replicaCount : UInt32 := 0
  ecChunkCount : UInt32 := 0
  allocs : List LayoutAlloc := []

/-- The bytes `off` to `off + n` of a value. -/
def readIn (val : List UInt8) (off n : Nat) : Option (List UInt8) :=
  if val.length < off + n then none else some ((val.drop off).take n)

/-- An array of `count` elements, filled from the first to the last. -/
def fill {α : Type} (count : Nat) (f : Nat → Option α) : Option (Counted α) :=
  ((List.range count).mapM f).bind fun elements =>
    if h : elements.length < 2 ^ 32 then some ⟨elements, h⟩ else none

/-- The loop over the chunk references from `off` on. -/
def readChunkRefs (val : List UInt8) (off : Nat) (count : UInt32) : Option (Counted ChunkMap) :=
  fill count.toNat fun i => do
    let offset ← readIn val (off + 44 * i) 8
    let size ← readIn val (off + 44 * i + 8) 8
    let needleId ← readIn val (off + 44 * i + 16) 8
    let volumeId ← readIn val (off + 44 * i + 24) 8
    let crc32 ← readIn val (off + 44 * i + 32) 4
    let _mtime ← readIn val (off + 44 * i + 36) 8
    return {
      chunkIdx := UInt32.ofNat ((le64 offset).toNat / chunkSize)
      size := le64 size
      needleId := le64 needleId
      volumeId := le64 volumeId
      crc32 := le32 crc32 }

namespace ParseState

def setInlineData (s : ParseState) (data : List UInt8) : ParseState :=
  { s with
    layout := { s.layout with inlineData := some data, hasInlineData := true }
    inlineLen := UInt32.ofNat data.length }

def setVolumeIds (s : ParseState) (count : UInt32) (ids : Counted UInt64) : ParseState :=
  { s with layout := { s.layout with volumeIds := some ids }, volumeIdsCount := count }

def setEcChunks (s : ParseState) (count : UInt32) (refs : Counted ChunkMap) : ParseState :=
  { s with
    layout := { s.layout with ecChunks := some refs, hasEcChunks := true }
    ecChunkCount := count }

def setReplicaChunks (s : ParseState) (count : UInt32) (refs : Option (Counted ChunkMap)) :
    ParseState :=
  { s with
    layout := { s.layout with replicaChunks := refs, hasReplicaChunks := true }
    replicaCount := count }

/-- An allocation, and if it succeeds the array that is read into it. Without it the pointer stays
the null pointer that it is. -/
def take {α : Type} (s : ParseState) (a : LayoutAlloc) (ok : Bool) (array : Option α)
    (set : ParseState → α → ParseState) : Option ParseState :=
  let s := { s with allocs := s.allocs ++ [a] }
  if ok then array.map (set s) else some s

/-- `parse_placement_field`. -/
def placementField (val : List UInt8) (s : ParseState) : Option ParseState :=
  if val.length < 1 then some s
  else do
    let tag ← readIn val 0 1
    let l := { s.layout with placement := Placement.ofTag (tag.getD 0 0), hasPlacement := true }
    match Placement.ofTag (tag.getD 0 0) with
    | .flat => return { s with layout := l }
    | .inline =>
      if 5 ≤ val.length then
        let size ← readIn val 1 4
        return { s with layout := { l with inlineMaxSize := le32 size } }
      else return { s with layout := l }
    | .stripe | .wideStripe =>
      if 17 ≤ val.length then
        let size ← readIn val 1 8
        let count ← readIn val 9 4
        let start ← readIn val 13 4
        return { s with layout := { l with
          stripeSize := le64 size, stripeCount := le32 count, startVolumeIdx := le32 start } }
      else return { s with layout := l }

/-- `parse_reliability_field`. -/
def reliabilityField (val : List UInt8) (s : ParseState) : Option ParseState :=
  if val.length < 1 then some s
  else do
    let tag ← readIn val 0 1
    let l := { s.layout with reliability := .ofTag (tag.getD 0 0), hasReliability := true }
    if Reliability.ofTag (tag.getD 0 0) = .ec ∧ 9 ≤ val.length then
      let data ← readIn val 1 4
      let parity ← readIn val 5 4
      return { s with layout := { l with
        ecDataShards := le32 data, ecParityShards := le32 parity } }
    else return { s with layout := l }

/-- The value of `InlineData`. -/
def inlineDataField (alloc : ParseAlloc) (val : List UInt8) (s : ParseState) :
    Option ParseState :=
  if 0 < val.length ∧ val.length ≤ inlineMaxSize then
    s.take (.inlineData val.length) alloc.inlineData (readIn val 0 val.length) setInlineData
  else some s

/-- The value of `ChunkLayout`. -/
def chunkLayoutField (alloc : ParseAlloc) (val : List UInt8) (s : ParseState) :
    Option ParseState :=
  if val.length < 5 then some s
  else do
    let tag ← readIn val 0 1
    if tag.getD 0 0 = 0 then
      let dataLen := (le32 (← readIn val 1 4)).toNat
      if 0 < dataLen ∧ dataLen ≤ inlineMaxSize ∧ 5 + dataLen ≤ val.length then
        s.take (.inlineData dataLen) alloc.chunkLayoutInline (readIn val 5 dataLen) setInlineData
      else some s
    else if tag.getD 0 0 = 1 then
      let count := le32 (← readIn val 1 4)
      if 0 < count.toNat ∧ 5 + count.toNat * 44 ≤ val.length then
        s.take (.chunks count.toNat) alloc.perChunk (readChunkRefs val 5 count)
          (setEcChunks · count)
      else some s
    else some s

/-- The value of `VolumeIds`. -/
def volumeIdsField (alloc : ParseAlloc) (val : List UInt8) (s : ParseState) : Option ParseState :=
  if 0 < val.length ∧ val.length % 8 = 0 ∧ val.length / 8 ≤ 256 then
    s.take (.volumeIds (val.length / 8)) alloc.volumeIds
      (fill (val.length / 8) fun i => (readIn val (8 * i) 8).map le64)
      (setVolumeIds · (UInt32.ofNat (val.length / 8)))
  else some s

/-- The value of `VolumeIdsRange`. -/
def volumeIdsRangeField (alloc : ParseAlloc) (val : List UInt8) (s : ParseState) :
    Option ParseState :=
  if val.length = 12 then do
    let start := le64 (← readIn val 0 8)
    let count := le32 (← readIn val 8 4)
    if 0 < count.toNat ∧ count.toNat ≤ 256 then
      s.take (.volumeIds count.toNat) alloc.volumeIdsRange
        (fill count.toNat fun i => some (start + UInt64.ofNat i)) (setVolumeIds · count)
    else some s
  else some s

/-- `parse_replica_chunks_field`. -/
def replicaChunksField (alloc : ParseAlloc) (val : List UInt8) (s : ParseState) :
    Option ParseState :=
  if val.length < 4 then some s
  else do
    let count := le32 (← readIn val 0 4)
    if count = 0 then s.setReplicaChunks 0 none
    else if val.length < 4 + count.toNat * 44 then some s
    else
      s.take (.chunks count.toNat) alloc.replicaChunks (readChunkRefs val 4 count)
        fun s refs => s.setReplicaChunks count (some refs)

/-- `powerfs_tlv_dec_find_raw`, and what is done with the value, which must be in the body. -/
def withRaw (field : UInt8) (f : List UInt8 → ParseState → Option ParseState) (s : ParseState) :
    Option ParseState :=
  match Checked.findRaw s.dec field with
  | none => none
  | some (.error _, d) => some { s with dec := d }
  | some (.ok raw, d) => (s.dec.readBytes raw.1 raw.2).bind fun val => f val { s with dec := d }

/-- `powerfs_tlv_dec_find_u8`, `_u32` or `_u64`, and where the number goes. -/
def withUint (width : Nat) (field : UInt8) (set : Nat → FileLayout → FileLayout)
    (s : ParseState) : Option ParseState :=
  match Checked.findUint width s.dec field with
  | none => none
  | some (.error _, d) => some { s with dec := d }
  | some (.ok v, d) => some { s with dec := d, layout := set v s.layout }

/-- A step that is made only while a condition on the layout holds. -/
def whenLayout (p : FileLayout → Bool) (f : ParseState → Option ParseState) (s : ParseState) :
    Option ParseState :=
  if p s.layout then f s else some s

/-- `parse_file_layout`. -/
def parse (alloc : ParseAlloc) (d : TlvDec) : Option ParseState :=
  withRaw fldPlacement placementField { dec := d }
  >>= withRaw fldReliability reliabilityField
  >>= withUint 1 fldReliabilityState (fun v l => { l with reliabilityState := UInt8.ofNat v })
  >>= withUint 4 fldChunkSize
    (fun v l => if 0 < UInt32.ofNat v then { l with chunkSize := UInt32.ofNat v } else l)
  >>= whenLayout (fun l => l.inlineMaxSize = 0)
    (withUint 4 fldInlineMaxSize fun v l => { l with inlineMaxSize := UInt32.ofNat v })
  >>= withRaw fldInlineData (inlineDataField alloc)
  >>= whenLayout (fun l => !l.hasInlineData) (withRaw fldChunkLayout (chunkLayoutField alloc))
  >>= whenLayout (fun l => l.stripeSize = 0)
    (withUint 8 fldStripeSize fun v l => { l with stripeSize := UInt64.ofNat v })
  >>= whenLayout (fun l => l.stripeCount = 0)
    (withUint 4 fldStripeCount fun v l => { l with stripeCount := UInt32.ofNat v })
  >>= whenLayout (fun l => l.startVolumeIdx = 0)
    (withUint 4 fldStartVolumeIdx fun v l => { l with startVolumeIdx := UInt32.ofNat v })
  >>= withUint 8 fldStartNeedleId (fun v l => { l with startNeedleId := UInt64.ofNat v })
  >>= withRaw fldVolumeIds (volumeIdsField alloc)
  >>= whenLayout (fun l => l.volumeIds.isNone)
    (withRaw fldVolumeIdsRange (volumeIdsRangeField alloc))
  >>= withRaw fldReplicaChunks (replicaChunksField alloc)

/-! What every step keeps. -/

def Sized {α : Type} (kind : Nat → LayoutAlloc) (allocs : List LayoutAlloc) (count : UInt32) :
    Option (List α) → Prop
  | none => count = 0
  | some elements => count.toNat = elements.length ∧ kind elements.length ∈ allocs

/-- The four arrays of the layout with their counts. -/
structure ArraysSized (s : ParseState) : Prop where
  inlineData : Sized .inlineData s.allocs s.inlineLen s.layout.inlineData
  volumeIds : Sized .volumeIds s.allocs s.volumeIdsCount (s.layout.volumeIds.map (·.val))
  replicaChunks : Sized .chunks s.allocs s.replicaCount (s.layout.replicaChunks.map (·.val))
  ecChunks : Sized .chunks s.allocs s.ecChunkCount (s.layout.ecChunks.map (·.val))

/-- The decoder still runs over the body of `d`, arrays have their counts, and allocations are
within the limits. -/
structure Inv (d : TlvDec) (s : ParseState) : Prop where
  keeps : d.Keeps s.dec
  sized : s.ArraysSized
  bounded : ∀ a ∈ s.allocs, a.Bounded d.buf.length

/-- A result that was reached inside the body, with the invariant and the layout `l`. -/
def Gives (d : TlvDec) (result : Option ParseState) (l : FileLayout) : Prop :=
  ∃ s, result = some s ∧ Inv d s ∧ s.layout = l

/-- A step that makes `l'` of `l`. -/
def Computes (d : TlvDec) (l : FileLayout) (f : ParseState → Option ParseState)
    (l' : FileLayout) : Prop :=
  ∀ s, Inv d s → s.layout = l → Gives d (f s) l'

section Reads

variable {val : List UInt8}

theorem readIn_eq (val : List UInt8) (off n : Nat) (h : off + n ≤ val.length) :
    readIn val off n = some ((val.drop off).take n) := by
  rw [readIn, if_neg (by omega)]

theorem le32_take (bs : List UInt8) : le32 (bs.take 4) = le32 bs := by
  rw [le32, le32, List.take_take, Nat.min_self]

theorem le64_take (bs : List UInt8) : le64 (bs.take 8) = le64 bs := by
  rw [le64, le64, List.take_take, Nat.min_self]

theorem getD_take_one : ((val.drop 0).take 1).getD 0 0 = val.getD 0 0 := by
  cases val with
  | nil => rfl
  | cons tag rest => rfl

theorem fill_eq {α : Type} {n : Nat} {f : Nat → Option α} {g : Nat → α}
    (h : ∀ i < n, f i = some (g i)) (hn : ((List.range n).map g).length < 2 ^ 32) :
    fill n f = some ⟨(List.range n).map g, hn⟩ := by
  have hmap : ∀ is : List Nat, (∀ i ∈ is, f i = some (g i)) → is.mapM f = some (is.map g) := by
    intro is his
    induction is with
    | nil => rfl
    | cons i is ih =>
      rw [List.mapM_cons, his i List.mem_cons_self,
        ih fun j hj => his j (List.mem_cons_of_mem _ hj)]
      rfl
  rw [fill, hmap _ fun i hi => h i (List.mem_range.mp hi), Option.bind_some, dif_pos hn]

/-- The loop over the references reads inside the value if `count` references fit into it. -/
theorem readChunkRefs_eq {off : Nat} {count : UInt32} (h : off + count.toNat * 44 ≤ val.length) :
    readChunkRefs val off count = some (parseChunkRefs count (val.drop off)) := by
  refine fill_eq (fun i hi => ?_) _
  rw [readIn_eq _ _ 8 (by omega), readIn_eq _ _ 8 (by omega), readIn_eq _ _ 8 (by omega),
    readIn_eq _ _ 8 (by omega), readIn_eq _ _ 4 (by omega), readIn_eq _ _ 8 (by omega),
    parseChunkRef]
  simp only [Option.bind_eq_bind, Option.bind_some, Option.pure_def, le32_take, le64_take,
    List.drop_drop]

theorem sized_parseChunkRefs {count : UInt32} {bs : List UInt8} {allocs : List LayoutAlloc}
    (h : .chunks count.toNat ∈ allocs) :
    Sized .chunks allocs count ((some (parseChunkRefs count bs)).map (·.val)) := by
  have hlen : (parseChunkRefs count bs).val.length = count.toNat := by
    show ((List.range count.toNat).map _).length = _
    rw [List.length_map, List.length_range]
  exact ⟨hlen.symm, hlen.symm ▸ h⟩

end Reads

section Rules

variable {d : TlvDec} {l l' : FileLayout} {f : ParseState → Option ParseState} {s : ParseState}

theorem Gives.bind {result : Option ParseState} (h : Gives d result l) (hf : Computes d l f l') :
    Gives d (result >>= f) l' := by
  obtain ⟨s, rfl, hs, hl⟩ := h
  exact hf s hs hl

theorem computes_whenLayout {p : FileLayout → Bool} (hskip : p l = false → l' = l)
    (h : p l = true → Computes d l f l') : Computes d l (whenLayout p f) l' := by
  intro s hs hl
  unfold whenLayout
  cases hp : p l with
  | false => exact ⟨s, by rw [hl, hp]; rfl, hs, hl.trans (hskip hp).symm⟩
  | true =>
    rw [hl, hp]
    exact h hp s hs hl

theorem Inv.scalars (h : Inv d s) (harrays : l.arrays = s.layout.arrays) :
    Inv d { s with layout := l } := by
  obtain ⟨hinline, hids, hreplicas, hec⟩ := h.sized
  have hof : ∀ {α : Type} (f : LayoutArrays → α), f s.layout.arrays = f l.arrays :=
    fun f => congrArg f harrays.symm
  refine ⟨h.keeps, ⟨?_, ?_, ?_, ?_⟩, h.bounded⟩
  · rwa [show s.layout.inlineData = l.inlineData from hof (·.inlineData)] at hinline
  · rwa [show s.layout.volumeIds = l.volumeIds from hof (·.volumeIds)] at hids
  · rwa [show s.layout.replicaChunks = l.replicaChunks from hof (·.replicaChunks)] at hreplicas
  · rwa [show s.layout.ecChunks = l.ecChunks from hof (·.ecChunks)] at hec

theorem Sized.mono {α : Type} {kind : Nat → LayoutAlloc} {allocs allocs' : List LayoutAlloc}
    {count : UInt32} {array : Option (List α)} (h : Sized kind allocs count array)
    (hsub : ∀ a ∈ allocs, a ∈ allocs') : Sized kind allocs' count array := by
  cases array with
  | none => exact h
  | some elements => exact ⟨h.1, hsub _ h.2⟩

section Take

variable {ok : Bool} {count : UInt32}

theorem gives_take {α : Type} {a : LayoutAlloc} {x : α} {set : ParseState → α → ParseState}
    (hs : Inv d s) (ha : a.Bounded d.buf.length)
    (hset : ∀ t, Inv d t → t.layout = s.layout → a ∈ t.allocs →
      Inv d (set t x) ∧ (set t x).layout = l') :
    Gives d (s.take a ok (some x) set) (if ok then l' else s.layout) := by
  have hsub : ∀ b ∈ s.allocs, b ∈ s.allocs ++ [a] := fun b hb => List.mem_append_left _ hb
  have hs' : Inv d { s with allocs := s.allocs ++ [a] } := by
    refine ⟨hs.keeps, ⟨hs.sized.inlineData.mono hsub, hs.sized.volumeIds.mono hsub,
      hs.sized.replicaChunks.mono hsub, hs.sized.ecChunks.mono hsub⟩, fun b hb => ?_⟩
    obtain hb | hb := List.mem_append.mp hb
    · exact hs.bounded b hb
    · exact List.mem_singleton.mp hb ▸ ha
  cases ok with
  | false => exact ⟨_, rfl, hs', rfl⟩
  | true => exact ⟨_, rfl, hset _ hs' rfl (List.mem_append_right _ (List.mem_singleton_self a))⟩

theorem gives_inlineData (hs : Inv d s) {len : Nat} {data : List UInt8} (hlen : data.length = len)
    (hlimit : len ≤ inlineMaxSize) :
    Gives d (s.take (.inlineData len) ok (some data) setInlineData)
      (if ok then { s.layout with inlineData := some data, hasInlineData := true }
        else s.layout) := by
  subst hlen
  refine gives_take hs hlimit fun t ht hl hmem => ⟨⟨ht.keeps, ⟨⟨?_, hmem⟩, ht.sized.volumeIds,
    ht.sized.replicaChunks, ht.sized.ecChunks⟩, ht.bounded⟩, by rw [setInlineData, hl]⟩
  exact UInt32.toNat_ofNat_of_lt' (Nat.lt_of_le_of_lt hlimit (by decide))

theorem gives_volumeIds (hs : Inv d s) {n : Nat} {ids : Counted UInt64} (hcount : count.toNat = n)
    (hlen : ids.val.length = n) (hlimit : n ≤ 256)
    (htaken : ok = true → l' = { s.layout with volumeIds := some ids })
    (hfailed : ok = false → l' = s.layout) :
    Gives d (s.take (.volumeIds n) ok (some ids) (setVolumeIds · count)) l' := by
  subst hlen
  have h : Gives d (s.take (.volumeIds ids.val.length) ok (some ids) (setVolumeIds · count))
      (if ok then { s.layout with volumeIds := some ids } else s.layout) :=
    gives_take hs hlimit fun _ ht hl hmem => ⟨⟨ht.keeps, ⟨ht.sized.inlineData, ⟨hcount, hmem⟩,
      ht.sized.replicaChunks, ht.sized.ecChunks⟩, ht.bounded⟩, by rw [setVolumeIds, hl]⟩
  cases ok with
  | true => exact htaken rfl ▸ h
  | false => exact hfailed rfl ▸ h

variable {val : List UInt8} {off : Nat}

theorem gives_chunks {set : ParseState → Counted ChunkMap → ParseState} (hs : Inv d s)
    (hval : val.length ≤ d.buf.length) (hle : off + count.toNat * 44 ≤ val.length)
    (hset : ∀ t, Inv d t → t.layout = s.layout →
      Sized .chunks t.allocs count ((some (parseChunkRefs count (val.drop off))).map (·.val)) →
      Inv d (set t (parseChunkRefs count (val.drop off))) ∧
        (set t (parseChunkRefs count (val.drop off))).layout = l') :
    Gives d (s.take (.chunks count.toNat) ok (readChunkRefs val off count) set)
      (if ok then l' else s.layout) := by
  rw [readChunkRefs_eq hle]
  exact gives_take hs (show count.toNat * 44 ≤ _ by omega) fun t ht hl hmem =>
    hset t ht hl (sized_parseChunkRefs hmem)

end Take

end Rules

section Steps

variable {d : TlvDec} {l : FileLayout} (alloc : ParseAlloc)

theorem computes_placementField (val : List UInt8) :
    Computes d l (placementField val) (parsePlacementField val l) := by
  rintro s hs rfl
  suffices h : placementField val s = some { s with layout := parsePlacementField val s.layout } from
    ⟨_, h, hs.scalars (arrays_parsePlacementField _ _), rfl⟩
  unfold placementField parsePlacementField
  cases val with
  | nil => rfl
  | cons tag rest =>
    have hread := readIn_eq (tag :: rest)
    rw [if_neg (by simp), hread 0 1 (by simp)]
    simp only [Option.bind_eq_bind, Option.bind_some, getD_take_one, List.getD_cons_zero,
      Option.pure_def]
    cases Placement.ofTag tag with
    | flat => rfl
    | inline =>
      dsimp only
      split
      · rw [hread 1 4 (by omega)]
        simp only [Option.bind_some, List.drop_succ_cons, List.drop_zero, le32_take]
      · rfl
    | stripe | wideStripe =>
      dsimp only
      split
      · rw [hread 1 8 (by omega), hread 9 4 (by omega), hread 13 4 (by omega)]
        simp only [Option.bind_some, List.drop_succ_cons, List.drop_zero, le32_take, le64_take]
      · rfl

theorem computes_reliabilityField (val : List UInt8) :
    Computes d l (reliabilityField val) (parseReliabilityField val l) := by
  rintro s hs rfl
  suffices h : reliabilityField val s =
      some { s with layout := parseReliabilityField val s.layout } from
    ⟨_, h, hs.scalars (arrays_parseReliabilityField _ _), rfl⟩
  unfold reliabilityField parseReliabilityField
  cases val with
  | nil => rfl
  | cons tag rest =>
    have hread := readIn_eq (tag :: rest)
    rw [if_neg (by simp), hread 0 1 (by simp)]
    simp only [Option.bind_eq_bind, Option.bind_some, getD_take_one, List.getD_cons_zero,
      Option.pure_def]
    split
    · rw [hread 1 4 (by omega), hread 5 4 (by omega)]
      simp only [Option.bind_some, List.drop_succ_cons, List.drop_zero, le32_take]
    · rfl

theorem find_of_keeps {d' : TlvDec} (h : d.Keeps d') (field : UInt8) (want : Option Nat) :
    d'.find field want = d.find field want := by
  rw [TlvDec.find, TlvDec.find, h.buf]

theorem Inv.dec {s : ParseState} (h : Inv d s) {d' : TlvDec} (hkeeps : s.dec.Keeps d') :
    Inv d { s with dec := d' } :=
  ⟨h.keeps.trans hkeeps, ⟨h.sized.inlineData, h.sized.volumeIds, h.sized.replicaChunks,
    h.sized.ecChunks⟩, h.bounded⟩

variable (hd : d.Valid)
include hd

theorem computes_withRaw (field : UInt8) {f : List UInt8 → ParseState → Option ParseState}
    {l' : FileLayout} (hnone : d.findRaw field = none → l' = l)
    (hsome : ∀ val, d.findRaw field = some val → val.length ≤ d.buf.length →
      Computes d l (f val) l') :
    Computes d l (withRaw field f) l' := by
  intro s hs hl
  have hbuf := hs.keeps.buf
  obtain ⟨d', hrun, hkeeps, _, hvalue⟩ := Checked.find_keeps (hd.keeps hs.keeps) field none
  rw [find_of_keeps hs.keeps] at hrun hvalue
  unfold withRaw Checked.findRaw
  rw [hrun]
  cases hfind : d.find field none with
  | none =>
    refine ⟨_, rfl, hs.dec hkeeps, hl.trans (hnone ?_).symm⟩
    rw [TlvDec.findRaw, hfind]
    rfl
  | some raw =>
    have hread := Checked.readBytes_of_le (d := s.dec) _ _ (hvalue raw hfind).1
    rw [TlvDec.value, hbuf] at hread
    show Gives d ((s.dec.readBytes raw.1 raw.2).bind _) l'
    rw [hread]
    refine hsome _ ?_ ?_ _ (hs.dec hkeeps) hl
    · rw [TlvDec.findRaw, hfind]
      rfl
    · rw [List.length_take, List.length_drop]
      omega

theorem computes_parsePlacement :
    Computes d l (withRaw fldPlacement placementField) (parsePlacement d l) := by
  unfold parsePlacement
  refine computes_withRaw hd _ (fun hnone => by rw [hnone]) fun val hval _ => ?_
  rw [hval]
  exact computes_placementField val

theorem computes_parseReliability :
    Computes d l (withRaw fldReliability reliabilityField) (parseReliability d l) := by
  unfold parseReliability
  refine computes_withRaw hd _ (fun hnone => by rw [hnone]) fun val hval _ => ?_
  rw [hval]
  exact computes_reliabilityField val

theorem computes_parseInlineData :
    Computes d l (withRaw fldInlineData (inlineDataField alloc)) (parseInlineData alloc d l) := by
  unfold parseInlineData
  refine computes_withRaw hd _ (fun hnone => by rw [hnone]) fun val hval _ => ?_
  rw [hval]
  rintro s hs rfl
  unfold inlineDataField
  dsimp only
  split
  · next hform =>
    simp only [hform]
    rw [readIn_eq _ _ _ (by omega), List.drop_zero, List.take_length]
    cases alloc.inlineData <;> exact gives_inlineData hs rfl hform.2
  · next hform =>
    rw [if_neg (fun hc => hform ⟨hc.1, hc.2.1⟩)]
    exact ⟨s, rfl, hs, rfl⟩

theorem computes_parseChunkLayout :
    Computes d l (whenLayout (fun l => !l.hasInlineData)
      (withRaw fldChunkLayout (chunkLayoutField alloc))) (parseChunkLayout alloc d l) := by
  unfold parseChunkLayout
  refine computes_whenLayout (fun hp => if_pos (by simpa using hp)) fun hp => ?_
  rw [if_neg (by simpa using hp)]
  refine computes_withRaw hd _ (fun hnone => by rw [hnone]) fun val hval hlen => ?_
  rw [hval]
  rintro s hs rfl
  unfold chunkLayoutField
  dsimp only
  by_cases hshort : val.length < 5
  · rw [if_pos hshort, if_neg (by omega), if_neg (by omega)]
    exact ⟨s, rfl, hs, rfl⟩
  rw [if_neg hshort, readIn_eq _ 0 1 (by omega), readIn_eq _ 1 4 (by omega)]
  simp only [Option.bind_eq_bind, Option.bind_some, getD_take_one, le32_take,
    show 5 ≤ val.length by omega, true_and]
  split
  · split
    · next hform =>
      simp only [hform]
      rw [readIn_eq _ _ _ hform.2.2]
      have hdata : ((val.drop 5).take (le32 (val.drop 1)).toNat).length =
          (le32 (val.drop 1)).toNat := by
        rw [List.length_take, List.length_drop]
        omega
      cases alloc.chunkLayoutInline <;> exact gives_inlineData hs hdata hform.2.1
    · next hform =>
      rw [if_neg (fun hc => hform ⟨hc.1, hc.2.1, hc.2.2.1⟩)]
      exact ⟨s, rfl, hs, rfl⟩
  split
  · split
    · next hform =>
      simp only [hform]
      cases alloc.perChunk <;> exact gives_chunks hs hlen hform.2 fun t ht hl hsized =>
        ⟨⟨ht.keeps, ⟨ht.sized.inlineData, ht.sized.volumeIds, ht.sized.replicaChunks, hsized⟩,
          ht.bounded⟩, by rw [setEcChunks, hl]⟩
    · next hform =>
      rw [if_neg (fun hc => hform ⟨hc.1, hc.2.1⟩)]
      exact ⟨s, rfl, hs, rfl⟩
  · exact ⟨s, rfl, hs, rfl⟩

theorem computes_parseVolumeIds :
    Computes d l (withRaw fldVolumeIds (volumeIdsField alloc)) (parseVolumeIds alloc d l) := by
  unfold parseVolumeIds
  refine computes_withRaw hd _ (fun hnone => by rw [hnone]) fun val hval _ => ?_
  rw [hval]
  rintro s hs rfl
  unfold volumeIdsField
  dsimp only
  split
  · next hform =>
    have hcount : (UInt32.ofNat (val.length / 8)).toNat = val.length / 8 :=
      UInt32.toNat_ofNat_of_lt' (Nat.lt_of_le_of_lt hform.2.2 (by decide))
    rw [fill_eq (g := fun i => le64 (val.drop (8 * i))) (fun i hi => by
      rw [readIn_eq _ _ _ (by omega), Option.map_some, le64_take]) (by simp; omega)]
    refine gives_volumeIds hs hcount (by simp) hform.2.2 (fun halloc => ?_) fun halloc => ?_
    · rw [dif_pos ⟨hform.1, hform.2.1, hform.2.2, halloc⟩]
    · rw [dif_neg (by simp [halloc])]
  · next hform =>
    rw [dif_neg (fun hc => hform ⟨hc.1, hc.2.1, hc.2.2.1⟩)]
    exact ⟨s, rfl, hs, rfl⟩

theorem computes_parseVolumeIdsRange :
    Computes d l (whenLayout (fun l => l.volumeIds.isNone)
      (withRaw fldVolumeIdsRange (volumeIdsRangeField alloc))) (parseVolumeIdsRange alloc d l) := by
  unfold parseVolumeIdsRange
  refine computes_whenLayout (fun hp => if_pos (by simpa using hp)) fun hp => ?_
  rw [if_neg (by simpa using hp)]
  refine computes_withRaw hd _ (fun hnone => by rw [hnone]) fun val hval _ => ?_
  rw [hval]
  rintro s hs rfl
  unfold volumeIdsRangeField
  dsimp only
  split
  · next hlen =>
    rw [readIn_eq _ 0 8 (by omega), readIn_eq _ 8 4 (by omega)]
    simp only [Option.bind_eq_bind, Option.bind_some, le32_take, le64_take, List.drop_zero]
    split
    · next hform =>
      rw [fill_eq (fun i _ => rfl) (by simpa using UInt32.toNat_lt _)]
      refine gives_volumeIds hs rfl (by simp) hform.2 (fun halloc => ?_) fun halloc => ?_
      · rw [dif_pos ⟨hlen, hform.1, hform.2, halloc⟩]
      · rw [dif_neg (by simp [halloc])]
    · next hform =>
      rw [dif_neg (fun hc => hform ⟨hc.2.1, hc.2.2.1⟩)]
      exact ⟨s, rfl, hs, rfl⟩
  · next hlen =>
    rw [dif_neg (fun hc => hlen hc.1)]
    exact ⟨s, rfl, hs, rfl⟩

theorem computes_parseReplicaChunks :
    Computes d l (withRaw fldReplicaChunks (replicaChunksField alloc))
      (parseReplicaChunks alloc d l) := by
  unfold parseReplicaChunks
  refine computes_withRaw hd _ (fun hnone => by rw [hnone]) fun val hval hlen => ?_
  rw [hval]
  rintro s hs rfl
  unfold replicaChunksField parseReplicaChunksField
  dsimp only
  split
  · exact ⟨s, rfl, hs, rfl⟩
  rw [readIn_eq _ 0 4 (by omega)]
  simp only [Option.bind_eq_bind, Option.bind_some, le32_take, List.drop_zero]
  split
  · exact ⟨_, rfl, ⟨hs.keeps, ⟨hs.sized.inlineData, hs.sized.volumeIds, rfl, hs.sized.ecChunks⟩,
      hs.bounded⟩, rfl⟩
  split
  · exact ⟨s, rfl, hs, rfl⟩
  cases alloc.replicaChunks <;> exact gives_chunks hs hlen (by omega) fun t ht hl hsized =>
    ⟨⟨ht.keeps, ⟨ht.sized.inlineData, ht.sized.volumeIds, hsized, ht.sized.ecChunks⟩,
      ht.bounded⟩, by rw [setReplicaChunks, hl]⟩

theorem computes_withUint (width : Nat) (field : UInt8) {set : Nat → FileLayout → FileLayout}
    {l' : FileLayout} (harrays : l'.arrays = l.arrays)
    (hnone : d.find field (some width) = none → l' = l)
    (hsome : ∀ p, d.find field (some width) = some p → l' = set (leNat (d.value p)) l) :
    Computes d l (withUint width field set) l' := by
  intro s hs hl
  obtain ⟨d', hrun, hkeeps, _⟩ := Checked.findUint_keeps (hd.keeps hs.keeps) width field
  rw [find_of_keeps hs.keeps] at hrun
  unfold withUint
  rw [hrun]
  cases hfind : d.find field (some width) with
  | none => exact ⟨_, rfl, hs.dec hkeeps, hl.trans (hnone hfind).symm⟩
  | some p =>
    dsimp only
    rw [TlvDec.value, hs.keeps.buf, hl, ← TlvDec.value, ← hsome p hfind]
    exact ⟨_, rfl, (hs.dec hkeeps).scalars (harrays.trans (congrArg _ hl.symm)), rfl⟩

theorem findU8_eq (field : UInt8) : d.findU8 field =
    (d.find field (some 1)).map fun p => UInt8.ofNat (leNat (d.value p)) := by
  refine Option.map_congr fun p hp => ?_
  obtain ⟨hlen, hfirst⟩ := TlvDec.value_of_find hd hp
  obtain ⟨b, hb⟩ := List.length_eq_one_iff.mp hlen
  rw [hfirst Nat.one_pos, hb]
  show b = UInt8.ofNat (b.toNat + 256 * 0)
  rw [Nat.add_zero, UInt8.ofNat_toNat]

theorem findUint_eq {α : Type} (ofNat : Nat → α) (width : Nat) (field : UInt8) :
    ((d.find field (some width)).map fun p => ofNat (leNat ((d.value p).take width))) =
      (d.find field (some width)).map fun p => ofNat (leNat (d.value p)) := by
  refine Option.map_congr fun p hp => ?_
  rw [List.take_of_length_le (Nat.le_of_eq (TlvDec.value_of_find hd hp).1)]

section Number

variable {α : Type} {width : Nat} {field : UInt8} {found : Option α} {ofNat : Nat → α}
  {cur zero : α} {set : Nat → FileLayout → FileLayout} (put : α → FileLayout)
  (hfound : found = (d.find field (some width)).map fun p => ofNat (leNat (d.value p)))
  (hput : ∀ n, set n l = put (ofNat n)) (harrays : ∀ a, (put a).arrays = l.arrays)
  (hcur : put cur = l)
include hfound hput harrays hcur

theorem computes_number (hzero : cur = zero) :
    Computes d l (withUint width field set) (put (found.getD zero)) := by
  refine computes_withUint hd _ _ (harrays _) (fun hnone => ?_) fun p hp => ?_
  · rw [hfound, hnone, ← hzero]
    exact hcur
  · rw [hfound, hp, hput]
    rfl

theorem computes_missing {c : FileLayout → Prop} [DecidablePred c] (hzero : c l → cur = zero) :
    Computes d l (whenLayout (fun l => c l) (withUint width field set))
      (if c l then put (found.getD zero) else l) := by
  refine computes_whenLayout (fun hp => if_neg (of_decide_eq_false hp)) fun hp => ?_
  rw [if_pos (of_decide_eq_true hp)]
  exact computes_number hd put hfound hput harrays hcur (hzero (of_decide_eq_true hp))

end Number

theorem computes_parseChunkSize :
    Computes d l (withUint 4 fldChunkSize
      fun v l => if 0 < UInt32.ofNat v then { l with chunkSize := UInt32.ofNat v } else l)
      (parseChunkSize d l) := by
  refine computes_withUint hd _ _ (arrays_parseChunkSize d l) (fun hnone => ?_) fun p hp => ?_
  · rw [parseChunkSize, TlvDec.findU32, hnone]
    rfl
  · have hfind : d.findU32 fldChunkSize = _ := findUint_eq hd UInt32.ofNat 4 _
    rw [parseChunkSize, hfind, hp]
    rfl

theorem computes_parseReliabilityState (hzero : l.reliabilityState = 0) :
    Computes d l (withUint 1 fldReliabilityState
      fun v l => { l with reliabilityState := UInt8.ofNat v }) (parseReliabilityState d l) :=
  computes_number hd (fun v => { l with reliabilityState := v }) (findU8_eq hd _) (fun _ => rfl)
    (fun _ => rfl) rfl hzero

theorem computes_parseInlineMaxSize :
    Computes d l (whenLayout (fun l => l.inlineMaxSize = 0) (withUint 4 fldInlineMaxSize
      fun v l => { l with inlineMaxSize := UInt32.ofNat v })) (parseInlineMaxSize d l) :=
  computes_missing hd (fun v => { l with inlineMaxSize := v }) (findUint_eq hd UInt32.ofNat _ _) (fun _ => rfl)
    (fun _ => rfl) rfl id

theorem gives_parseStripeFields {result : Option ParseState} (h : Gives d result l)
    (hneedle : l.startNeedleId = 0) :
    Gives d (result
      >>= whenLayout (fun l => l.stripeSize = 0)
        (withUint 8 fldStripeSize fun v l => { l with stripeSize := UInt64.ofNat v })
      >>= whenLayout (fun l => l.stripeCount = 0)
        (withUint 4 fldStripeCount fun v l => { l with stripeCount := UInt32.ofNat v })
      >>= whenLayout (fun l => l.startVolumeIdx = 0)
        (withUint 4 fldStartVolumeIdx fun v l => { l with startVolumeIdx := UInt32.ofNat v })
      >>= withUint 8 fldStartNeedleId fun v l => { l with startNeedleId := UInt64.ofNat v })
      (parseStripeFields d l) := by
  unfold parseStripeFields
  extract_lets l₁ l₂ l₃
  refine Gives.bind (l := l₃) (Gives.bind (l := l₂) (Gives.bind (l := l₁) (h.bind ?_) ?_) ?_) ?_
  · exact computes_missing hd (fun v => { l with stripeSize := v }) (findUint_eq hd UInt64.ofNat _ _)
      (fun _ => rfl) (fun _ => rfl) rfl id
  · exact computes_missing hd (fun v => { l₁ with stripeCount := v }) (findUint_eq hd UInt32.ofNat _ _)
      (fun _ => rfl) (fun _ => rfl) rfl id
  · exact computes_missing hd (fun v => { l₂ with startVolumeIdx := v }) (findUint_eq hd UInt32.ofNat _ _)
      (fun _ => rfl) (fun _ => rfl) rfl id
  · have hsame : l₃.startNeedleId = l.startNeedleId := by
      simp only [l₃, l₂, l₁]
      split <;> split <;> split <;> rfl
    clear_value l₃
    exact computes_number hd (fun v => { l₃ with startNeedleId := v }) (findUint_eq hd UInt64.ofNat _ _)
      (fun _ => rfl) (fun _ => rfl) rfl (hsame.trans hneedle)

omit hd

/-- The members that are set without a look at what is there. -/
def unset (l : FileLayout) : UInt8 × UInt64 := (l.reliabilityState, l.startNeedleId)

theorem unset_parsePlacement : unset (parsePlacement d l) = unset l := by
  unfold parsePlacement parsePlacementField
  repeat' split
  all_goals rfl

theorem unset_parseReliability : unset (parseReliability d l) = unset l := by
  unfold parseReliability parseReliabilityField
  repeat' split
  all_goals rfl

theorem startNeedleId_parseScalars : (parseScalars d).startNeedleId = 0 := by
  have hsize : ∀ l, (parseChunkSize d l).startNeedleId = l.startNeedleId := by
    intro l
    unfold parseChunkSize
    repeat' split
    all_goals rfl
  have hmax : ∀ l, (parseInlineMaxSize d l).startNeedleId = l.startNeedleId := by
    intro l
    unfold parseInlineMaxSize
    split <;> rfl
  rw [parseScalars, hmax, hsize]
  exact congrArg Prod.snd (unset_parseReliability.trans unset_parsePlacement)

theorem startNeedleId_parseInlineData :
    (parseInlineData alloc d l).startNeedleId = l.startNeedleId := by
  unfold parseInlineData
  repeat' split
  all_goals rfl

theorem startNeedleId_parseChunkLayout :
    (parseChunkLayout alloc d l).startNeedleId = l.startNeedleId := by
  unfold parseChunkLayout
  dsimp only
  repeat' split
  all_goals rfl

include hd

/-- The whole function: the reads are inside the body, the invariant holds at the end, and the
layout is the one of `parseFileLayout`. -/
theorem gives_parse : Gives d (parse alloc d) (parseFileLayout alloc d) := by
  have hinit : Inv d { dec := d } := ⟨⟨rfl, hd.pos_le⟩, ⟨rfl, rfl, rfl, rfl⟩, nofun⟩
  have hstate : (parseReliability d (parsePlacement d {})).reliabilityState = 0 :=
    congrArg Prod.fst (unset_parseReliability.trans unset_parsePlacement)
  have hneedle : (parseChunkLayout alloc d (parseInlineData alloc d
      (parseScalars d))).startNeedleId = 0 := by
    rw [startNeedleId_parseChunkLayout, startNeedleId_parseInlineData, startNeedleId_parseScalars]
  have htags := (computes_parsePlacement hd _ hinit rfl).bind (computes_parseReliability hd)
  have hscalars := ((htags.bind (computes_parseReliabilityState hd hstate)).bind
    (computes_parseChunkSize hd)).bind (computes_parseInlineMaxSize hd)
  have hchunks := (hscalars.bind (computes_parseInlineData alloc hd)).bind
    (computes_parseChunkLayout alloc hd)
  have hstripe := gives_parseStripeFields hd hchunks hneedle
  exact ((hstripe.bind (computes_parseVolumeIds alloc hd)).bind
    (computes_parseVolumeIdsRange alloc hd)).bind (computes_parseReplicaChunks alloc hd)

end Steps

/-- Whatever the body and the allocations are: no byte outside the body is read and every search
ends; allocations are within the limits; arrays have the counts they were allocated with; the
priorities are fixed, and the order of the fields does not matter. -/
theorem parse_safe (alloc : ParseAlloc) (d : TlvDec) (hd : d.Valid) :
    ∃ s, parse alloc d = some s ∧ s.ArraysSized ∧ (∀ a ∈ s.allocs, a.Bounded d.buf.length) ∧
      s.layout = parseFileLayout alloc d ∧ s.layout.arrays = resolve alloc d.findRaw ∧
      ∀ d', d'.Valid → SameFields d.buf d'.buf →
        ∃ s', parse alloc d' = some s' ∧ s'.layout = s.layout := by
  obtain ⟨s, hparse, hinv, hlayout⟩ := gives_parse alloc hd
  refine ⟨s, hparse, hinv.sized, hinv.bounded, hlayout, ?_, fun d' hd' hsame => ?_⟩
  · rw [hlayout, arrays_parseFileLayout]
  · obtain ⟨s', hparse', _, hlayout'⟩ := gives_parse alloc hd'
    refine ⟨s', hparse', ?_⟩
    rw [hlayout', hlayout, parseFileLayout_eq_of_sameFields alloc hd hd' hsame]

/-- A body with a range, a list of two volume ids behind it, and a reliability field that is cut
off. -/
def mixedBody : List UInt8 :=
  [0xB6, 0, 0, 0, 12, 7, 0, 0, 0, 0, 0, 0, 0, 3, 0, 0, 0] ++
    [0xAB, 0, 0, 0, 16, 1, 0, 0, 0, 0, 0, 0, 0, 2, 0, 0, 0, 0, 0, 0, 0] ++ [0xA1, 0, 0, 0, 9, 2]

theorem parse_safe_mixedBody : ∃ s, parse .all (.init mixedBody) = some s ∧ s.ArraysSized ∧
    s.layout.volumeIds.map (·.val) = some [1, 2] := by
  obtain ⟨s, hparse, hsized, _, hlayout, _⟩ :=
    parse_safe .all (.init mixedBody) ⟨Nat.zero_le _, by decide⟩
  refine ⟨s, hparse, hsized, ?_⟩
  rw [hlayout]
  decide +kernel

end ParseState

end PowerFS.Layout
