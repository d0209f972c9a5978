import PowerFS.Layout.Parse
import PowerFS.Net.TlvRoundTrip

namespace PowerFS.Layout

open Net

/-! Which encodings `parse_file_layout` takes from a response. It sees a response only through the
first field of each id, and of two encodings of one thing it takes a fixed one. -/

structure LayoutArrays where
  inlineData : Option (List UInt8)
  hasInlineData : Bool
  ecChunks : Option (Counted ChunkMap)
  volumeIds : Option (Counted UInt64)
  replicaChunks : Option (Counted ChunkMap)

def FileLayout.arrays (l : FileLayout) : LayoutArrays :=
  ⟨l.inlineData, l.hasInlineData, l.ecChunks, l.volumeIds, l.replicaChunks⟩

section Encodings

variable (alloc : ParseAlloc) (raw : List UInt8)

/-- A value of `InlineData` that is taken. -/
def inlineField : Option (List UInt8) :=
  if 0 < raw.length ∧ raw.length ≤ inlineMaxSize ∧ alloc.inlineData then some raw else none

/-- An inline payload in `ChunkLayout` that is taken. -/
def chunkInline : Option (List UInt8) :=
  if 5 ≤ raw.length ∧ raw.getD 0 0 = 0 then
    let dataLen := (le32 (raw.drop 1)).toNat
    if 0 < dataLen ∧ dataLen ≤ inlineMaxSize ∧ 5 + dataLen ≤ raw.length
        ∧ alloc.chunkLayoutInline then
      some ((raw.drop 5).take dataLen)
    else none
  else none

/-- A list of chunk references in `ChunkLayout` that is taken. -/
def chunkRefs : Option (Counted ChunkMap) :=
  if 5 ≤ raw.length ∧ raw.getD 0 0 = 1 then
    let count := le32 (raw.drop 1)
    if 0 < count.toNat ∧ 5 + count.toNat * 44 ≤ raw.length ∧ alloc.perChunk then
      some (parseChunkRefs count (raw.drop 5))
    else none
  else none

variable {alloc raw} in
theorem length_explicitIds
    (h : 0 < raw.length ∧ raw.length % 8 = 0 ∧ raw.length / 8 ≤ 256 ∧ alloc.volumeIds) :
    ((List.range (raw.length / 8)).map fun i => le64 (raw.drop (8 * i))).length < 2 ^ 32 := by
  rw [List.length_map, List.length_range]
  omega

/-- A value of `VolumeIds` that is taken. -/
def explicitIds : Option (Counted UInt64) :=
  if h : 0 < raw.length ∧ raw.length % 8 = 0 ∧ raw.length / 8 ≤ 256 ∧ alloc.volumeIds then
    some ⟨(List.range (raw.length / 8)).map fun i => le64 (raw.drop (8 * i)),
      length_explicitIds h⟩
  else none

variable {alloc raw} in
theorem length_rangeIds {count : Nat}
    (h : raw.length = 12 ∧ 0 < count ∧ count ≤ 256 ∧ alloc.volumeIdsRange) :
    ((List.range count).map fun i => le64 raw + UInt64.ofNat i).length < 2 ^ 32 := by
  rw [List.length_map, List.length_range]
  omega

/-- A value of `VolumeIdsRange` that is taken. -/
def rangeIds : Option (Counted UInt64) :=
  let count := (le32 (raw.drop 8)).toNat
  if h : raw.length = 12 ∧ 0 < count ∧ count ≤ 256 ∧ alloc.volumeIdsRange then
    some ⟨(List.range count).map fun i => le64 raw + UInt64.ofNat i, length_rangeIds h⟩
  else none

/-- A value of `ReplicaChunks` that is taken. -/
def replicaRefs : Option (Counted ChunkMap) :=
  let count := le32 raw
  if 4 ≤ raw.length ∧ count ≠ 0 ∧ 4 + count.toNat * 44 ≤ raw.length ∧ alloc.replicaChunks then
    some (parseChunkRefs count (raw.drop 4))
  else none

end Encodings

/-- The arrays that a response with these first fields gives: `InlineData` before what is in
`ChunkLayout`, and `VolumeIds` before `VolumeIdsRange`. -/
def resolve (alloc : ParseAlloc) (first : UInt8 → Option (List UInt8)) : LayoutArrays :=
  let inlineData := (first fldInlineData).bind (inlineField alloc)
  let volumeIds := (first fldVolumeIds).bind (explicitIds alloc)
  let fromChunks := (first fldChunkLayout).bind (chunkInline alloc)
  { inlineData := inlineData <|> fromChunks
    hasInlineData := inlineData.isSome || fromChunks.isSome
    ecChunks := if inlineData.isSome then none else (first fldChunkLayout).bind (chunkRefs alloc)
    volumeIds := volumeIds <|> (first fldVolumeIdsRange).bind (rangeIds alloc)
    replicaChunks := (first fldReplicaChunks).bind (replicaRefs alloc) }

section Steps

variable (alloc : ParseAlloc) (d : TlvDec) (l : FileLayout)

/-! The steps of `parse_file_layout` that have no function of their own. -/

def parsePlacement : FileLayout :=
  match d.findRaw fldPlacement with
  | some raw => parsePlacementField raw l
  | none => l

def parseReliability : FileLayout :=
  match d.findRaw fldReliability with
  | some raw => parseReliabilityField raw l
  | none => l

def parseReliabilityState : FileLayout :=
  { l with reliabilityState := (d.findU8 fldReliabilityState).getD 0 }

def parseChunkSize : FileLayout :=
  match d.findU32 fldChunkSize with
  | some v => if 0 < v then { l with chunkSize := v } else l
  | none => l

def parseInlineMaxSize : FileLayout :=
  if l.inlineMaxSize = 0 then
    { l with inlineMaxSize := (d.findU32 fldInlineMaxSize).getD 0 } else l

def parseReplicaChunks : FileLayout :=
  match d.findRaw fldReplicaChunks with
  | some raw => parseReplicaChunksField alloc.replicaChunks raw l
  | none => l

/-- The steps before the arrays. -/
def parseScalars : FileLayout :=
  parseInlineMaxSize d <| parseChunkSize d <| parseReliabilityState d <| parseReliability d <|
    parsePlacement d {}

theorem parseFileLayout_eq : parseFileLayout alloc d =
    parseReplicaChunks alloc d (parseVolumeIdsRange alloc d <| parseVolumeIds alloc d <|
      parseStripeFields d <| parseChunkLayout alloc d <| parseInlineData alloc d <|
      parseScalars d) := rfl

end Steps

section Arrays

variable (alloc : ParseAlloc) (d : TlvDec) (l : FileLayout)

theorem arrays_parsePlacementField (val : List UInt8) :
    (parsePlacementField val l).arrays = l.arrays := by
  unfold parsePlacementField
  split
  · rfl
  · split
    · rfl
    · split <;> rfl
    · split <;> rfl
    · split <;> rfl

theorem arrays_parseReliabilityField (val : List UInt8) :
    (parseReliabilityField val l).arrays = l.arrays := by
  unfold parseReliabilityField
  split
  · rfl
  · split <;> rfl

theorem arrays_parsePlacement : (parsePlacement d l).arrays = l.arrays := by
  unfold parsePlacement
  split
  · exact arrays_parsePlacementField l _
  · rfl

theorem arrays_parseReliability : (parseReliability d l).arrays = l.arrays := by
  unfold parseReliability
  split
  · exact arrays_parseReliabilityField l _
  · rfl

theorem arrays_parseChunkSize : (parseChunkSize d l).arrays = l.arrays := by
  unfold parseChunkSize
  split
  · split <;> rfl
  · rfl

theorem arrays_parseInlineMaxSize : (parseInlineMaxSize d l).arrays = l.arrays := by
  unfold parseInlineMaxSize
  split <;> rfl

theorem arrays_parseScalars : (parseScalars d).arrays = ⟨none, false, none, none, none⟩ := by
  rw [parseScalars, arrays_parseInlineMaxSize, arrays_parseChunkSize]
  show (parseReliability d (parsePlacement d {})).arrays = _
  rw [arrays_parseReliability, arrays_parsePlacement]
  rfl

theorem arrays_parseInlineData : (parseInlineData alloc d l).arrays =
    match (d.findRaw fldInlineData).bind (inlineField alloc) with
    | some data => { l.arrays with inlineData := some data, hasInlineData := true }
    | none => l.arrays := by
  unfold parseInlineData
  cases d.findRaw fldInlineData with
  | none => rfl
  | some raw =>
    rw [Option.bind_some, inlineField]
    dsimp only
    split <;> rfl

/-- `ChunkLayout` is looked at if no `InlineData` was taken. -/
theorem arrays_parseChunkLayout : (parseChunkLayout alloc d l).arrays =
    if l.arrays.hasInlineData then l.arrays
    else match (d.findRaw fldChunkLayout).bind (chunkInline alloc) with
      | some data => { l.arrays with inlineData := some data, hasInlineData := true }
      | none => match (d.findRaw fldChunkLayout).bind (chunkRefs alloc) with
        | some refs => { l.arrays with ecChunks := some refs }
        | none => l.arrays := by
  show FileLayout.arrays (if l.hasInlineData then l else _) = if l.hasInlineData then _ else _
  split
  · rfl
  · cases d.findRaw fldChunkLayout with
    | none => rfl
    | some raw =>
      rw [Option.bind_some, Option.bind_some, chunkInline, chunkRefs]
      dsimp only
      by_cases htag : 5 ≤ raw.length ∧ raw.getD 0 0 = 0
      · have hother : ¬ (5 ≤ raw.length ∧ raw.getD 0 0 = 1) := by
          rw [htag.2]
          exact fun hone => absurd hone.2 (by decide)
        rw [if_pos htag]
        split <;> rfl
      · rw [if_neg htag]
        split
        · split <;> rfl
        · rfl

theorem arrays_parseStripeFields : (parseStripeFields d l).arrays = l.arrays := by
  unfold parseStripeFields
  dsimp only
  split <;> split <;> split <;> rfl

theorem arrays_parseVolumeIds : (parseVolumeIds alloc d l).arrays =
    match (d.findRaw fldVolumeIds).bind (explicitIds alloc) with
    | some ids => { l.arrays with volumeIds := some ids }
    | none => l.arrays := by
  unfold parseVolumeIds
  cases d.findRaw fldVolumeIds with
  | none => rfl
  | some raw =>
    rw [Option.bind_some, explicitIds]
    dsimp only
    split <;> rfl

/-- `VolumeIdsRange` is looked at if no list was taken. -/
theorem arrays_parseVolumeIdsRange : (parseVolumeIdsRange alloc d l).arrays =
    if l.arrays.volumeIds.isSome then l.arrays
    else match (d.findRaw fldVolumeIdsRange).bind (rangeIds alloc) with
      | some ids => { l.arrays with volumeIds := some ids }
      | none => l.arrays := by
  show FileLayout.arrays (if l.volumeIds.isSome then l else _) =
    if l.volumeIds.isSome then _ else _
  split
  · rfl
  · cases d.findRaw fldVolumeIdsRange with
    | none => rfl
    | some raw =>
      rw [Option.bind_some, rangeIds]
      dsimp only
      split <;> rfl

theorem arrays_parseReplicaChunks (h : l.replicaChunks = none) :
    (parseReplicaChunks alloc d l).arrays =
      { l.arrays with
        replicaChunks := (d.findRaw fldReplicaChunks).bind (replicaRefs alloc) } := by
  have hsame : { l.arrays with replicaChunks := none } = l.arrays := by
    rw [← h]
    rfl
  unfold parseReplicaChunks
  cases d.findRaw fldReplicaChunks with
  | none => exact hsame.symm
  | some raw =>
    rw [Option.bind_some, replicaRefs]
    dsimp only
    rw [parseReplicaChunksField]
    by_cases hshort : raw.length < 4
    · rw [if_pos hshort, if_neg (by omega)]
      exact hsame.symm
    rw [if_neg hshort]
    by_cases hzero : le32 raw = 0
    · rw [if_pos hzero, if_neg (fun hc => hc.2.1 hzero)]
      rfl
    rw [if_neg hzero]
    by_cases hcut : raw.length < 4 + (le32 raw).toNat * 44
    · rw [if_pos hcut, if_neg (by omega)]
      exact hsame.symm
    rw [if_neg hcut]
    cases halloc : alloc.replicaChunks with
    | false =>
      rw [if_pos (by decide), if_neg (fun hc => absurd hc.2.2.2 (by decide))]
      exact hsame.symm
    | true =>
      rw [if_neg (by decide), if_pos ⟨by omega, hzero, by omega, rfl⟩]
      rfl

/-- A `ChunkLayout` holds inline data or chunk references, not both. -/
theorem chunkRefs_of_chunkInline {raw : Option (List UInt8)} {data : List UInt8}
    (h : raw.bind (chunkInline alloc) = some data) : raw.bind (chunkRefs alloc) = none := by
  obtain ⟨raw, rfl, hraw⟩ := Option.bind_eq_some_iff.mp h
  rw [Option.bind_some, chunkRefs, if_neg]
  rintro ⟨_, hone⟩
  rw [chunkInline, if_neg (by rw [hone]; exact fun hzero => absurd hzero.2 (by decide))] at hraw
  cases hraw

theorem arrays_parseFileLayout : (parseFileLayout alloc d).arrays = resolve alloc d.findRaw := by
  have hrest : (parseVolumeIdsRange alloc d <| parseVolumeIds alloc d <| parseStripeFields d <|
      parseChunkLayout alloc d <| parseInlineData alloc d <| parseScalars d).arrays =
      { resolve alloc d.findRaw with replicaChunks := none } := by
    rw [arrays_parseVolumeIdsRange, arrays_parseVolumeIds, arrays_parseStripeFields,
      arrays_parseChunkLayout, arrays_parseInlineData, arrays_parseScalars]
    unfold resolve
    generalize (d.findRaw fldInlineData).bind (inlineField alloc) = inlineData
    generalize (d.findRaw fldVolumeIds).bind (explicitIds alloc) = ids
    generalize (d.findRaw fldVolumeIdsRange).bind (rangeIds alloc) = range
    cases hfrom : (d.findRaw fldChunkLayout).bind (chunkInline alloc) with
    | some data =>
      rw [chunkRefs_of_chunkInline alloc hfrom]
      cases inlineData <;> cases ids <;> cases range <;> rfl
    | none =>
      generalize (d.findRaw fldChunkLayout).bind (chunkRefs alloc) = refs
      cases inlineData <;> cases refs <;> cases ids <;> cases range <;> rfl
  rw [parseFileLayout_eq, arrays_parseReplicaChunks alloc d _
    (congrArg LayoutArrays.replicaChunks hrest), hrest]
  rfl

end Arrays

section Order

/-- Two bodies with the same fields of each id, in the same order for one id. -/
def SameFields (body body' : List UInt8) : Prop :=
  ∀ field, (tlv.split body).1.filter (fun r => r.1 = field) =
    (tlv.split body').1.filter fun r => r.1 = field

theorem firstOf_filter (rs : List (UInt8 × List UInt8)) (field : UInt8) (want : Option Nat) :
    firstOf (rs.filter fun r => r.1 = field) field want = firstOf rs field want := by
  rw [firstOf, List.find?_filter]
  congr 2
  funext r
  by_cases hid : r.1 = field <;> simp [TlvDec.wanted]

variable {body body' : List UInt8}

theorem SameFields.firstOf_eq (h : SameFields body body') (field : UInt8) (want : Option Nat) :
    firstOf (tlv.split body).1 field want = firstOf (tlv.split body').1 field want := by
  rw [← firstOf_filter, h field, firstOf_filter]

theorem parseFileLayout_eq_of_sameFields (alloc : ParseAlloc) {d d' : TlvDec} (hd : d.Valid)
    (hd' : d'.Valid) (h : SameFields d.buf d'.buf) :
    parseFileLayout alloc d = parseFileLayout alloc d' := by
  have hraw : ∀ field, d.findRaw field = d'.findRaw field := by
    intro field
    rw [findRaw_eq_firstOf, findRaw_eq_firstOf, h.firstOf_eq]
  have h32 : ∀ field, d.findU32 field = d'.findU32 field := by
    intro field
    rw [TlvDec.findU32, TlvDec.findU32, map_find_eq_firstOf, map_find_eq_firstOf, h.firstOf_eq]
  have h64 : ∀ field, d.findU64 field = d'.findU64 field := by
    intro field
    rw [TlvDec.findU64, TlvDec.findU64, map_find_eq_firstOf, map_find_eq_firstOf, h.firstOf_eq]
  have h8 : ∀ field, d.findU8 field = d'.findU8 field := by
    intro field
    rw [findU8_eq_firstOf hd, findU8_eq_firstOf hd', h.firstOf_eq]
  simp only [parseFileLayout, parseInlineData, parseChunkLayout, parseStripeFields, parseVolumeIds,
    parseVolumeIdsRange, hraw, h8, h32, h64]

end Order

end PowerFS.Layout
