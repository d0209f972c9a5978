import PowerFS.Data.Writeback
import PowerFS.Lib.PageCache

namespace PowerFS.File

open Layout PageCache Data

/-! `powerfs_fallocate`, and `powerfs_setattr` where it extends a file, on the page cache. -/

/-- A file with its page cache. `volume` is what the needles hold, by file offset. -/
structure CachedFile where
  layout : Inode
  iSize : Nat
  cache : Cache UInt8
  volume : Nat → UInt8

namespace CachedFile

/-- What `powerfs_netfs_issue_read` reads into a page that is not cached. -/
def behind (f : CachedFile) (o : Nat) : UInt8 :=
  if f.layout.placement = .inline then (f.layout.inlineData.getD [])[o]?.getD 0
  else if f.layout.volumeId = 0 ∧ f.layout.fileKey = 0 ∧ f.layout.chunks.isNone ∧
      f.layout.volumeIds.isNone then 0
  else f.volume o

/-- What a read gives at offset `o`. -/
def byte (f : CachedFile) (o : Nat) : UInt8 := view pageSize f.behind f.cache o

/-- `powerfs_writepages` sends dirty pages to a volume; otherwise it only clears the marks. -/
def stores (f : CachedFile) : Bool := f.layout.placement ≠ .inline && f.layout.volumeId ≠ 0

def isFlat (f : CachedFile) : Bool := f.layout.placement = .flat && f.layout.isMapped

/-- `filemap_write_and_wait`, with the pages whose writeback succeeds. -/
def writeAndWait (ok : Nat → Bool) (f : CachedFile) : CachedFile :=
  { f with
    cache := cleaned f.cache
    volume := if f.stores then flushed pageSize f.iSize ok f.cache f.volume else f.volume }

/-- The page cache is written back, as far as that does anything, and dropped. -/
def dropCache (f : CachedFile) : CachedFile :=
  { f with cache := if f.stores then dropClean f.cache else fun _ => ⟨none, false⟩ }

end CachedFile

/-- What a call meets: an error before it does anything; for each page whether it can be read from
the volume, whether `find_or_create_page` gets it, and whether its writeback succeeds. -/
structure PageEnv where
  refused : Option Errno
  read : Nat → Bool
  create : Nat → Bool
  write : Nat → Bool

/-- `read_mapping_page`. -/
def readMappingPage (env : PageEnv) (f : CachedFile) (pg : Nat) (slot : Slot UInt8) :
    Option (Nat → UInt8) :=
  slot.page.or (if env.read pg then some fun x => f.behind (pg * pageSize + x) else none)

/-- `find_or_create_page` and a page of zeros. -/
def zeroPage (env : PageEnv) (pg : Nat) : Option (Nat → UInt8) :=
  if env.create pg then some fun _ => 0 else none

/-- The page after one round of a loop, and the slot as it was if the round was skipped. -/
def dirtied (slot : Slot UInt8) : Option (Nat → UInt8) → Slot UInt8
  | some page => ⟨some page, true⟩
  | none => slot

/-- The pages of the loops from `start` up to and including `last`. -/
def pageRange (start last : Nat) : List Nat := List.range' start (last + 1 - start)

def extendSlot (env : PageEnv) (f : CachedFile) (pg : Nat) (slot : Slot UInt8) : Slot UInt8 :=
  let off := if pg = f.iSize / pageSize then f.iSize % pageSize else 0
  if 0 < off then
    match readMappingPage env f pg slot with
    | some page => ⟨some (fillSegment 0 off pageSize page), true⟩
    | none => dirtied slot (zeroPage env pg)
  else dirtied slot (zeroPage env pg)

/-- The loop and the writeback after it, in `powerfs_setattr` and in `powerfs_fallocate`. -/
def zeroExtended (env : PageEnv) (f : CachedFile) (newSize : Nat) : CachedFile :=
  CachedFile.writeAndWait env.write
    { f with
      iSize := newSize
      cache := modifyPages (extendSlot env f)
        (pageRange (f.iSize / pageSize) ((newSize - 1) / pageSize)) f.cache }

/-- `powerfs_setattr` of a size that is larger than the old one. -/
def setattrExtend (env : PageEnv) (f : CachedFile) (newSize : Nat) :
    Except Errno Unit × CachedFile :=
  match env.refused with
  | some err => (.error err, f)
  | none =>
    if f.isFlat ∧ f.iSize < newSize then (.ok (), zeroExtended env f newSize)
    else (.ok (), { f with iSize := newSize })

/-- The default mode of `powerfs_fallocate`. -/
def fallocateExtend (env : PageEnv) (f : CachedFile) (newSize : Nat) : CachedFile :=
  if f.iSize < newSize then
    if f.isFlat then zeroExtended env f newSize
    else if f.layout.placement = .inline then
      { f with iSize := newSize, layout := { f.layout with inlineDirty := true } }
    else { f with iSize := newSize }
  else f

def punchSlot (env : PageEnv) (f : CachedFile) (offset punchEnd pg : Nat) (slot : Slot UInt8) :
    Slot UInt8 :=
  let pgOff := pg * pageSize
  let zStart := if pgOff < offset then offset - pgOff else 0
  let zEnd := if punchEnd < pgOff + pageSize then punchEnd - pgOff else pageSize
  let page :=
    if 0 < zStart ∨ zEnd < pageSize then
      (readMappingPage env f pg slot).or (zeroPage env pg)
    else zeroPage env pg
  dirtied slot (page.map (fillSegment 0 zStart zEnd))

/-- One page of `truncate_pagecache_range`: pages inside the range go, the others get zeros. -/
def truncateSlot (offset stop pg : Nat) (slot : Slot UInt8) : Slot UInt8 :=
  let pgOff := pg * pageSize
  if offset ≤ pgOff ∧ pgOff + pageSize ≤ stop then ⟨none, false⟩
  else { slot with page := slot.page.map (fillSegment 0 (offset - pgOff) (stop - pgOff)) }

/-- The punch-hole mode of `powerfs_fallocate`. -/
def punchHole (env : PageEnv) (f : CachedFile) (offset newSize : Nat) : CachedFile :=
  if f.isFlat then
    let punchEnd := min newSize f.iSize
    if f.iSize ≤ offset then f
    else
      CachedFile.writeAndWait env.write
        { f with
          cache := modifyPages (punchSlot env f offset punchEnd)
            (pageRange (offset / pageSize) ((punchEnd - 1) / pageSize)) f.cache }
  else
    let f := { f with
      cache := modifyPages (truncateSlot offset newSize)
        (pageRange (offset / pageSize) ((newSize - 1) / pageSize)) f.cache }
    if f.layout.placement = .inline then
      { f with layout := { f.layout with inlineDirty := true } }
    else f

/-- The bits of `mode`; `other` stands for all that are not supported. -/
structure FallocMode where
  keepSize : Bool
  punchHole : Bool
  other : Bool

/-- `powerfs_fallocate`. -/
def fallocate (env : PageEnv) (f : CachedFile) (mode : FallocMode) (offset len : Int) :
    Except Errno Unit × CachedFile :=
  if mode.other then (.error .eopnotsupp, f)
  else if mode.punchHole ∧ mode.keepSize = false then (.error .eopnotsupp, f)
  else if offset < 0 ∨ len ≤ 0 then (.error .einval, f)
  else
    match env.refused with
    | some err => (.error err, f)
    | none =>
      if mode.punchHole then (.ok (), punchHole env f offset.toNat (offset + len).toNat)
      else if mode.keepSize = false then (.ok (), fallocateExtend env f (offset + len).toNat)
      else (.ok (), f)

/-! ### Pages and writeback -/

theorem mem_pageRange {start last pg : Nat} :
    pg ∈ pageRange start last ↔ start ≤ pg ∧ pg ≤ last := by
  rw [pageRange, List.mem_range'_1]
  omega

theorem nodup_pageRange (start last : Nat) : (pageRange start last).Nodup := List.nodup_range'

theorem modifyPages_pageRange (change : Nat → Slot UInt8 → Slot UInt8) (start last : Nat)
    (c : Cache UInt8) (pg : Nat) :
    modifyPages change (pageRange start last) c pg =
      if start ≤ pg ∧ pg ≤ last then change pg (c pg) else c pg := by
  rw [modifyPages_apply change (nodup_pageRange start last)]
  simp only [mem_pageRange]

variable {env : PageEnv} {f : CachedFile} {o : Nat}

theorem page_offset (o : Nat) : o / pageSize * pageSize + o % pageSize = o :=
  Nat.div_add_mod' o pageSize

theorem mod_lt_pageSize (o : Nat) : o % pageSize < pageSize := Nat.mod_lt o (by decide)

theorem CachedFile.stores_of_isFlat (h : f.isFlat = true) : f.stores = true := by
  simp only [CachedFile.isFlat, Inode.isMapped, Bool.and_eq_true, decide_eq_true_eq] at h
  simp only [CachedFile.stores, Bool.and_eq_true, decide_eq_true_eq]
  refine ⟨?_, h.2.1⟩
  rw [h.1]
  decide

theorem CachedFile.behind_of_stores (h : f.stores = true) : f.behind = f.volume := by
  simp only [CachedFile.stores, Bool.and_eq_true, decide_eq_true_eq] at h
  funext o
  rw [CachedFile.behind, if_neg h.1, if_neg fun hnone => h.2 hnone.1]

theorem CachedFile.byte_writeAndWait (ok : Nat → Bool) : (f.writeAndWait ok).byte o = f.byte o := by
  by_cases hstores : f.stores = true
  · have hbehind : (f.writeAndWait ok).behind = flushed pageSize f.iSize ok f.cache f.volume := by
      rw [CachedFile.behind_of_stores (f := f.writeAndWait ok) hstores]
      exact if_pos hstores
    rw [CachedFile.byte, CachedFile.byte, hbehind, f.behind_of_stores hstores]
    exact view_flushed f.iSize ok
  · have hbehind : (f.writeAndWait ok).behind = f.behind := by
      funext o
      simp only [CachedFile.behind, CachedFile.writeAndWait, if_neg hstores]
    rw [CachedFile.byte, hbehind]
    exact view_congr rfl

theorem readMappingPage_eq {page : Nat → UInt8}
    (h : readMappingPage env f (o / pageSize) (f.cache (o / pageSize)) = some page) :
    page (o % pageSize) = f.byte o := by
  rw [readMappingPage] at h
  cases hpage : (f.cache (o / pageSize)).page with
  | some cached =>
    rw [hpage] at h
    cases h
    exact (view_of_page hpage).symm
  | none =>
    rw [hpage] at h
    split at h <;> cases h
    show f.behind (o / pageSize * pageSize + o % pageSize) = f.byte o
    rw [page_offset, CachedFile.byte, view_of_none hpage]

/-! ### A small file -/

/-- Three sevens, nothing of them cached, in a file with the placement `placement`. -/
def threeSevens (placement : Placement) : CachedFile where
  layout :=
    if placement = .inline then
      { Inode.fresh with placement, inlineData := some [7, 7, 7] }
    else { Inode.fresh with placement, volumeId := 3, fileKey := 40 }
  iSize := 3
  cache := fun _ => ⟨none, false⟩
  volume := fun _ => 7

/-- Nothing fails but, with `readFails`, the reads from the volume. -/
def pageEnv (readFails : Bool) : PageEnv :=
  ⟨none, fun _ => !readFails, fun _ => true, fun _ => true⟩

end PowerFS.File
