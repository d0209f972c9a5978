import PowerFS.Layout.Locate
import PowerFS.Lib.Overlay

namespace PowerFS.Data

open Layout Overlay

/-! Buffered writeback, `powerfs_writepages` and `powerfs_writepage_work_fn` of `powerfs_addr.c`,
with every allocation and submit succeeding. Pages are copied, never looked into, so the type of
a byte is a parameter. -/

def pageSize : Nat := 4096

variable {α : Type}

/-- A page of a batch: its file offset and the `count` bytes of it below the file size. -/
structure Page (α : Type) where
  offset : Nat
  data : List α

/-- A write request: a whole needle, or a blob at `offset` inside it. -/
structure NeedleWrite (α : Type) where
  place : UInt64 × UInt64
  offset : Nat
  bytes : List α
  whole : Bool

def cachedPage (content : Nat → α) (isize offset : Nat) : Page α where
  offset := offset
  data := (List.range' offset (min pageSize (isize - offset))).map content

def leavesChunk (batch : List (Page α)) (offset : Nat) : Bool :=
  match batch.getLast? with
  | none => false
  | some p => offset / chunkSize ≠ p.offset / chunkSize

/-- One round of the loop of `powerfs_writepages`: the batches submitted in it, and the batch
being filled after it. A page behind the file size is left out. -/
def collectStep (batchPages isize : Nat) (content : Nat → α) (batch : List (Page α))
    (offset : Nat) : List (List (Page α)) × List (Page α) :=
  let full := if leavesChunk batch offset then [batch] else []
  let batch := if leavesChunk batch offset then [] else batch
  if isize ≤ offset then (full, batch)
  else
    let batch := batch ++ [cachedPage content isize offset]
    if batchPages ≤ batch.length then (full ++ [batch], []) else (full, batch)

/-- The loop over the dirty pages, lowest first. Throttling ends it early: the list is then a
shorter one. -/
def collectBatches (batchPages isize : Nat) (content : Nat → α) :
    List Nat → List (Page α) → List (List (Page α))
  | [], batch => if batch.isEmpty then [] else [batch]
  | offset :: offsets, batch =>
    let r := collectStep batchPages isize content batch offset
    r.1 ++ collectBatches batchPages isize content offsets r.2

/-- `powerfs_writepages`: Inline files and files without a volume are only marked clean. -/
def writepages (pi : Inode) (batchPages isize : Nat) (content : Nat → α) (dirty : List Nat) :
    List (List (Page α)) :=
  if pi.placement = .inline ∨ pi.volumeId = 0 then []
  else collectBatches batchPages isize content dirty []

/-- A run of pages submitted together: the target needle and the pages by index, which may
include empty pages and pages whose own lookup failed. -/
abbrev Group (α : Type) := (UInt64 × UInt64) × List (Page α)

def placeIn (look : Page α → Option (UInt64 × UInt64)) (p : Page α) : Option (UInt64 × UInt64) :=
  if p.data.isEmpty then none else look p

/-- One page of the second pass of `powerfs_writepage_work_fn`: the groups submitted, and the
open group afterwards. A page that is empty or not located is not looked at, but stays in the
index range of an open group. -/
def splitStep (look : Page α → Option (UInt64 × UInt64)) (cur : Option (Group α)) (p : Page α) :
    List (Group α) × Option (Group α) :=
  match placeIn look p, cur with
  | none, none => ([], none)
  | none, some (place, pages) => ([], some (place, pages ++ [p]))
  | some place, none => ([], some (place, [p]))
  | some place, some (open', pages) =>
    if place = open' then ([], some (open', pages ++ [p]))
    else ([(open', pages)], some (place, [p]))

def splitGroups (look : Page α → Option (UInt64 × UInt64)) :
    List (Page α) → Option (Group α) → List (Group α)
  | [], cur => cur.toList
  | p :: ps, cur => (splitStep look cur p).1 ++ splitGroups look ps (splitStep look cur p).2

def groupStep (pi : Inode) : Option (Group α) → Page α → List (Group α) × Option (Group α) :=
  splitStep fun p => located pi p.offset

/-- The second pass when the layout does not change. -/
def groupPages (pi : Inode) : List (Page α) → Option (Group α) → List (Group α) :=
  splitGroups fun p => located pi p.offset

theorem groupPages_cons (pi : Inode) (p : Page α) (ps : List (Page α)) (cur : Option (Group α)) :
    groupPages pi (p :: ps) cur =
      (groupStep pi cur p).1 ++ groupPages pi ps (groupStep pi cur p).2 :=
  rfl

/-- The loop of `powerfs_wb_needle_full_coverage`. -/
def coverLoop (start stop : Nat) : List (Page α) → Nat → Bool
  | [], covered => stop ≤ covered
  | p :: ps, covered =>
    if p.data.isEmpty then coverLoop start stop ps covered
    else if p.offset < start ∨ stop < p.offset + p.data.length then false
    else if covered < p.offset then false
    else coverLoop start stop ps (max covered (p.offset + p.data.length))

/-- `powerfs_wb_needle_full_coverage`. -/
def needleFullCoverage (pages : List (Page α)) (needleStart maxNeedleLen : Nat) : Bool :=
  maxNeedleLen = chunkSize
    && coverLoop needleStart (needleStart + maxNeedleLen) pages needleStart

/-- The buffer `powerfs_wb_submit_write_direct` sends. -/
def directBuffer (zero : α) (pages : List (Page α)) : List α :=
  pages.foldl (fun buf p => overlay buf (p.offset % chunkSize) p.data)
    (List.replicate chunkSize zero)

/-- One page of `powerfs_wb_submit_blob_extents`, with the extent being gathered: a page that
is not empty joins it when it starts where the extent ends. -/
def extentStep (ext : List (Page α)) (p : Page α) : List (List (Page α)) × List (Page α) :=
  let joins := ext.getLast?.all fun q => p.offset = q.offset + q.data.length
  if p.data.isEmpty then (if ext.isEmpty then [] else [ext], [])
  else if joins then ([], ext ++ [p])
  else ([ext], [p])

def blobExtents : List (Page α) → List (Page α) → List (List (Page α))
  | [], ext => if ext.isEmpty then [] else [ext]
  | p :: ps, ext => (extentStep ext p).1 ++ blobExtents ps (extentStep ext p).2

def blobWrite (place : UInt64 × UInt64) (ext : List (Page α)) : NeedleWrite α where
  place := place
  offset := (ext.head?.elim 0 (·.offset)) % chunkSize
  bytes := ext.flatMap (·.data)
  whole := false

def submitGroup (isize : Nat) (zero : α) (g : Group α) : List (NeedleWrite α) :=
  let groupOffset := g.2.head?.elim 0 (·.offset)
  let needleStart := groupOffset - groupOffset % chunkSize
  if needleFullCoverage g.2 needleStart (min (isize - needleStart) chunkSize) then
    [{ place := g.1, offset := 0, bytes := directBuffer zero g.2, whole := true }]
  else (blobExtents g.2 []).map (blobWrite g.1)

/-- `powerfs_writepage_work_fn`: the requests sent for a batch. -/
def writepageWork (pi : Inode) (isize : Nat) (zero : α) (batch : List (Page α)) :
    List (NeedleWrite α) :=
  (groupPages pi batch none).flatMap (submitGroup isize zero)

end PowerFS.Data
