import PowerFS.Data.Needles
import PowerFS.Data.Writeback

namespace PowerFS.Data

open Layout Overlay

/-! The write half of `powerfs_direct_IO` with `powerfs_dio_write_worker`, `powerfs_addr.c`, and
`powerfs_net_write`, `powerfs_net_inode.c`. -/

/-- What a direct write meets outside the modelled state. `lost` is a ReadNeedle request without
an answer (`-ENOENT` is an answer), `send` a failed WriteNeedle request. -/
structure DioEnv where
  flush : Option Errno
  pinned : Option Errno
  work : Bool
  buf : Bool
  copied : Bool
  remap : Inode → Except Errno Inode
  needleBuf : Bool
  uninit : Nat → UInt8
  lost : Option Errno
  send : Option Errno

/-- Nothing fails; `uninit` is in fresh memory. -/
def DioEnv.calm (uninit : Nat → UInt8) : DioEnv where
  flush := none
  pinned := none
  work := true
  buf := true
  copied := true
  remap := .ok
  needleBuf := true
  uninit := uninit
  lost := none
  send := none

/-- `powerfs_dio_write_can_skip_read`. -/
def dioWriteCanSkipRead (size pos count : Nat) : Bool :=
  if pos % chunkSize ≠ 0 then false
  else if chunkSize < count then false
  else if count = chunkSize then true
  else decide (size ≤ pos + count)

theorem dioWriteCanSkipRead_fits {size pos count : Nat}
    (h : dioWriteCanSkipRead size pos count = true) :
    pos % chunkSize = 0 ∧ count ≤ chunkSize := by
  rw [dioWriteCanSkipRead] at h
  split at h
  · cases h
  · split at h
    · cases h
    · omega

/-- The needle a direct write addresses, whatever the layout is. -/
def dioTarget (pi : Inode) (pos : Nat) : UInt64 × UInt64 :=
  (pi.volumeId, pi.fileKey + UInt64.ofNat (pos / chunkSize))

/-- The buffer of the read-modify-write step: the old needle, then fresh memory, with the data
copied over it. -/
def mergeNeedle (uninit : Nat → UInt8) (old : List UInt8) (off : Nat) (data : List UInt8) :
    List UInt8 :=
  let buf := old ++ (List.range' old.length (chunkSize - old.length)).map uninit
  (overlay buf off data).take (max old.length (off + data.length))

theorem mergeNeedle_length_le (uninit : Nat → UInt8) (st : Needles) (p : UInt64 × UInt64)
    {off : Nat} {data : List UInt8} (h : off + data.length ≤ chunkSize) :
    (mergeNeedle uninit (st.content p) off data).length ≤ chunkSize := by
  have hold := st.content_length_le p
  rw [mergeNeedle, List.length_take]
  omega

/-- `powerfs_net_write_needle`: the server replaces the needle. -/
def writeNeedle (env : DioEnv) (st : Needles) (p : UInt64 × UInt64) (needle : Needle) :
    Except Errno Needles :=
  match env.send with
  | some e => .error e
  | none => .ok (Function.update st p (some needle))

/-- `powerfs_net_write`, called with the mapping of the inode. -/
def netWrite (env : DioEnv) (st : Needles) (pi : Inode) (pos : Nat) (data : List UInt8) :
    Except Errno Needles :=
  if pi.volumeId = 0 ∨ pi.fileKey = 0 then .error .enolink
  else if h : chunkSize < pos % chunkSize + data.length then .error .einval
  else if !env.needleBuf then .error .enomem
  else match env.lost with
    | some e => .error e
    | none =>
      -- a missing needle is continued as an empty one
      writeNeedle env st (dioTarget pi pos)
        ⟨mergeNeedle env.uninit (st.content (dioTarget pi pos)) (pos % chunkSize) data,
          mergeNeedle_length_le _ st _ (not_lt.mp h)⟩

/-- The two ways of a direct write to the Volume server. -/
def writeThrough (env : DioEnv) (st : Needles) (pi : Inode) (size pos : Nat) (data : List UInt8) :
    Except Errno Needles :=
  if h : dioWriteCanSkipRead size pos data.length = true then
    writeNeedle env st (dioTarget pi pos) ⟨data, (dioWriteCanSkipRead_fits h).2⟩
  else netWrite env st pi pos data

/-- What a direct write changes: the needles, the layout of the inode and `i_size`. -/
structure DioState where
  needles : Needles
  inode : Inode
  size : Nat

/-- The test for a volume mapping in the direct paths. -/
def hasMapping (pi : Inode) : Bool :=
  pi.volumeId ≠ 0 || pi.fileKey ≠ 0 || pi.chunks.isSome || pi.volumeIds.isSome

/-- The part the synchronous path and the worker share, from the test for a mapping on. -/
def dioWrite (env : DioEnv) (s : DioState) (pos : Nat) (data : List UInt8) :
    Except Errno Nat × DioState :=
  -- inline data is migrated, or a Flat mapping allocated
  match (if hasMapping s.inode then .ok s.inode else env.remap s.inode) with
  | .error e => (.error e, s)
  | .ok pi =>
    if !hasMapping pi then (.error .einval, { s with inode := pi })
    else match writeThrough env s.needles pi s.size pos data with
      | .error e => (.error e, { s with inode := pi })
      | .ok needles => (.ok data.length, ⟨needles, pi, max s.size (pos + data.length)⟩)

/-- `struct powerfs_dio_work` of a write: the pinned pages of the user's buffer. -/
structure DioWork where
  count : Nat
  first : Nat
  pages : List (List UInt8)
  page_length : ∀ page ∈ pages, page.length = pageSize
  first_lt : first < pageSize
  covers : count + first ≤ pages.length * pageSize
  tight : pages.length * pageSize < count + first + pageSize

def DioWork.bytes (w : DioWork) : List UInt8 := (w.pages.flatten.drop w.first).take w.count

/-- One round of the copy loop of the worker, for page number `p.2`. The subtraction
`count - (i * PAGE_SIZE - first_page_offset)` is one of `size_t` and may wrap twice. -/
def gatherStep (w : DioWork) (buf : List UInt8) (p : List UInt8 × Nat) : List UInt8 :=
  let off := if p.2 = 0 then w.first else 0
  let this := min (pageSize - off) (w.count + w.first - p.2 * pageSize)
  overlay buf (p.2 * pageSize + off - w.first) ((p.1.drop off).take this)

/-- Everything the copy loop writes from the start of the buffer of `count` bytes on. The result
is longer than the buffer when the loop runs past its end. -/
def gatherLoop (env : DioEnv) (w : DioWork) : List UInt8 :=
  w.pages.zipIdx.foldl (gatherStep w) ((List.range w.count).map env.uninit)

/-- `powerfs_dio_write_worker`; the result of the flush is ignored. -/
def dioWriteWorker (env : DioEnv) (s : DioState) (pos : Nat) (w : DioWork) :
    Except Errno Nat × DioState :=
  if !env.buf then (.error .enomem, s)
  else dioWrite env s pos ((gatherLoop env w).take w.count)

/-- A direct write: from a synchronous `kiocb`, or from an asynchronous one with the pages that
could be pinned. -/
inductive DioRequest where
  | sync (data : List UInt8)
  | async (work : DioWork)

def DioRequest.bytes : DioRequest → List UInt8
  | .sync data => data
  | .async work => work.bytes

/-- The write half of `powerfs_direct_IO`; for an asynchronous request the result the worker
completes it with. -/
def directWrite (env : DioEnv) (s : DioState) (pos : Nat) : DioRequest →
    Except Errno Nat × DioState
  | .sync data =>
    if data.length = 0 then (.ok 0, s)
    else match env.flush with
      | some e => (.error e, s)
      | none =>
        if !env.buf then (.error .enomem, s)
        else if !env.copied then (.error .efault, s)
        else dioWrite env s pos data
  | .async w =>
    match env.pinned with
    | some e => (.error e, s)
    | none =>
      if w.count = 0 then (.ok 0, s)
      else if !env.work then (.error .enomem, s)
      else dioWriteWorker env s pos w

section Gather

variable {w : DioWork} {done rest : List (List UInt8)} {page : List UInt8}

theorem flatten_length_of_pages (hpages : ∀ page ∈ done, page.length = pageSize) :
    done.flatten.length = done.length * pageSize := by
  induction done with
  | nil => simp
  | cons page done ih =>
    rw [List.flatten_cons, List.length_append, hpages page List.mem_cons_self,
      ih fun q hq => hpages q (List.mem_cons_of_mem _ hq), List.length_cons, Nat.succ_mul,
      Nat.add_comm]

theorem DioWork.bytes_getElem? (hsplit : w.pages = done ++ page :: rest) {x : Nat}
    (hx : x < w.count) (hlo : done.length * pageSize ≤ w.first + x)
    (hhi : w.first + x < (done.length + 1) * pageSize) :
    w.bytes[x]? = page[w.first + x - done.length * pageSize]? := by
  have hmem : ∀ q ∈ done ++ page :: rest, q.length = pageSize := hsplit ▸ w.page_length
  have hpage : page.length = pageSize := hmem page (by simp)
  have hdone : done.flatten.length = done.length * pageSize :=
    flatten_length_of_pages fun q hq => hmem q (List.mem_append_left _ hq)
  rw [DioWork.bytes, List.getElem?_take_of_lt hx, List.getElem?_drop, hsplit, List.flatten_append,
    List.flatten_cons, List.getElem?_append_right (by omega), hdone,
    List.getElem?_append_left (by rw [Nat.succ_mul] at hhi; omega)]

variable {buf : List UInt8}

theorem gatherStep_window {i : Nat} (hfirst : w.first < pageSize)
    (hi : i * pageSize < w.count + w.first) : ∃ dest off this,
    gatherStep w buf (page, i) = overlay buf dest ((page.drop off).take this) ∧
      off + this ≤ pageSize ∧ dest ≤ w.count ∧ dest + w.first = i * pageSize + off ∧
      (∀ x < dest, x + w.first < i * pageSize) ∧
      ∀ x < w.count, x + w.first < i * pageSize + pageSize → x < dest + this := by
  by_cases hzero : i = 0
  · subst hzero
    refine ⟨0, w.first, min (pageSize - w.first) (w.count + w.first), ?_, by omega, by omega,
      by omega, by omega, by omega⟩
    simp [gatherStep]
  · have hpage : pageSize ≤ i * pageSize := Nat.le_mul_of_pos_left _ (Nat.pos_of_ne_zero hzero)
    refine ⟨i * pageSize - w.first, 0, min pageSize (w.count + w.first - i * pageSize), ?_,
      by omega, by omega, by omega, by omega, by omega⟩
    simp [gatherStep, hzero]

/-- After page `i` the buffer holds the user's bytes up to the end of that page. -/
theorem gatherStep_spec (hsplit : w.pages = done ++ page :: rest) (hlen : w.count ≤ buf.length)
    (hbuf : ∀ x < w.count, x + w.first < done.length * pageSize → buf[x]? = w.bytes[x]?) :
    w.count ≤ (gatherStep w buf (page, done.length)).length ∧
      ∀ x < w.count, x + w.first < (done.length + 1) * pageSize →
        (gatherStep w buf (page, done.length))[x]? = w.bytes[x]? := by
  have hpage : page.length = pageSize := w.page_length page (by simp [hsplit])
  have hbefore : done.length * pageSize < w.count + w.first := by
    have htight := w.tight
    rw [hsplit, List.length_append, List.length_cons, Nat.add_mul, Nat.succ_mul] at htight
    omega
  have hsucc : (done.length + 1) * pageSize = done.length * pageSize + pageSize :=
    Nat.succ_mul _ _
  obtain ⟨dest, off, this, hstep, hinside, hdest, hoff, hdone, hreach⟩ :=
    @gatherStep_window w page buf done.length w.first_lt hbefore
  have hcopy : ((page.drop off).take this).length = this := by
    rw [List.length_take, List.length_drop]
    omega
  rw [hstep]
  refine ⟨?_, fun x hx hend => ?_⟩
  · rw [overlay, List.length_append, List.length_append, List.length_take, List.length_drop]
    omega
  · by_cases hlo : x < dest
    · rw [getElem?_overlay_of_not_mem (by omega) (.inl hlo)]
      exact hbuf x hx (hdone x hlo)
    · have hin : x < dest + this := hreach x hx (by omega)
      rw [getElem?_overlay_of_mem (by omega) (by omega) (by rw [hcopy]; exact hin),
        List.getElem?_take_of_lt (by omega), List.getElem?_drop,
        DioWork.bytes_getElem? hsplit hx (by omega) (by omega)]
      congr 1
      omega

theorem gatherLoop_run (hsplit : w.pages = done ++ rest) (hlen : w.count ≤ buf.length)
    (hbuf : ∀ x < w.count, x + w.first < done.length * pageSize → buf[x]? = w.bytes[x]?) :
    ∀ x < w.count, ((rest.zipIdx done.length).foldl (gatherStep w) buf)[x]? = w.bytes[x]? := by
  induction rest generalizing done buf with
  | nil =>
    intro x hx
    have hcovers := w.covers
    rw [hsplit, List.append_nil] at hcovers
    exact hbuf x hx (by omega)
  | cons page rest ih =>
    obtain ⟨hlen', hbuf'⟩ := gatherStep_spec hsplit hlen hbuf
    have hdone : (done ++ [page]).length = done.length + 1 := by simp
    have hrest := @ih (done ++ [page]) _ (by rw [hsplit]; simp) hlen' (by rwa [hdone])
    rwa [hdone] at hrest

theorem gatherLoop_take (env : DioEnv) (w : DioWork) :
    (gatherLoop env w).take w.count = w.bytes := by
  have hrun := @gatherLoop_run w [] w.pages ((List.range w.count).map env.uninit) rfl
    (by simp) (by simp)
  apply List.ext_getElem?
  intro x
  by_cases hx : x < w.count
  · rw [List.getElem?_take_of_lt hx]
    exact hrun x hx
  · rw [List.getElem?_eq_none (by rw [List.length_take]; omega), List.getElem?_eq_none]
    rw [DioWork.bytes, List.length_take]
    omega

end Gather

section Write

variable {env : DioEnv} {st st' : Needles} {pi : Inode} {size pos : Nat} {data : List UInt8}

/-- What stands before the data in the needle sent: the old bytes, then fresh memory up to the
place of the data. -/
def dioFront (skip : Bool) (uninit : Nat → UInt8) (old : List UInt8) (off : Nat) : List UInt8 :=
  if skip then [] else old.take off ++ (List.range' old.length (off - old.length)).map uninit

/-- What stands behind the data. -/
def dioBack (skip : Bool) (old : List UInt8) (stop : Nat) : List UInt8 :=
  if skip then [] else old.drop stop

theorem dioFront_length {skip : Bool} (uninit : Nat → UInt8) (old : List UInt8) {off : Nat}
    (hskip : skip = true → off = 0) : (dioFront skip uninit old off).length = off := by
  cases skip with
  | true => simp [dioFront, hskip]
  | false =>
    simp only [dioFront, Bool.false_eq_true, if_false, List.length_append, List.length_take,
      List.length_map, List.length_range']
    omega

theorem mergeNeedle_eq (uninit : Nat → UInt8) {old : List UInt8} {off : Nat}
    (hold : old.length ≤ chunkSize) (hfits : off + data.length ≤ chunkSize) :
    mergeNeedle uninit old off data =
      dioFront false uninit old off ++ data ++ dioBack false old (off + data.length) := by
  have hgap : ((List.range' old.length (chunkSize - old.length)).map uninit).take
      (off - old.length) = (List.range' old.length (off - old.length)).map uninit := by
    rw [← List.map_take, List.take_range'_of_length_ge (by omega)]
  have hfront : (old ++ (List.range' old.length (chunkSize - old.length)).map uninit).take off
      = dioFront false uninit old off := by
    rw [List.take_append, hgap]
    rfl
  have hlen := @dioFront_length false uninit old off nofun
  have hback : ((old ++ (List.range' old.length (chunkSize - old.length)).map uninit).drop
      (off + data.length)).take (max old.length (off + data.length) - (off + data.length))
      = old.drop (off + data.length) := by
    rw [List.drop_append, List.take_append, List.length_drop,
      show max old.length (off + data.length) - (off + data.length)
        = old.length - (off + data.length) by omega, Nat.sub_self, List.take_zero,
      List.append_nil, List.take_of_length_le (by rw [List.length_drop])]
  rw [mergeNeedle, overlay, hfront, List.take_append, List.length_append, hlen, hback,
    List.take_of_length_le (by rw [List.length_append]; omega)]
  rfl

/-- When a direct write can go through at all. -/
def Writable (pi : Inode) (size pos count : Nat) : Prop :=
  0 < count ∧ (dioWriteCanSkipRead size pos count = true ∨
    pi.volumeId ≠ 0 ∧ pi.fileKey ≠ 0 ∧ pos % chunkSize + count ≤ chunkSize)

/-- The needle that a direct write sends. -/
def sentBytes (uninit : Nat → UInt8) (st : Needles) (pi : Inode) (size pos : Nat)
    (data : List UInt8) : List UInt8 :=
  let skip := dioWriteCanSkipRead size pos data.length
  let old := st.content (dioTarget pi pos)
  dioFront skip uninit old (pos % chunkSize) ++ data ++
    dioBack skip old (pos % chunkSize + data.length)

theorem writeNeedle_ok {p : UInt64 × UInt64} {needle : Needle}
    (h : writeNeedle env st p needle = .ok st') : st' = Function.update st p (some needle) := by
  rw [writeNeedle] at h
  split at h <;> cases h
  rfl

theorem netWrite_ok (h : netWrite env st pi pos data = .ok st') :
    (pi.volumeId ≠ 0 ∧ pi.fileKey ≠ 0 ∧ pos % chunkSize + data.length ≤ chunkSize) ∧
      ∃ needle : Needle, needle.val = dioFront false env.uninit (st.content (dioTarget pi pos))
          (pos % chunkSize) ++ data ++
            dioBack false (st.content (dioTarget pi pos)) (pos % chunkSize + data.length) ∧
        st' = Function.update st (dioTarget pi pos) (some needle) := by
  rw [netWrite] at h
  split at h
  · cases h
  next hmapped =>
  split at h
  · cases h
  next hcross =>
  have hfits := not_lt.mp hcross
  split at h
  · cases h
  split at h
  · cases h
  rw [not_or] at hmapped
  exact ⟨⟨hmapped.1, hmapped.2, hfits⟩, _, mergeNeedle_eq _ (st.content_length_le _) hfits,
    writeNeedle_ok h⟩

theorem netWrite_calm (uninit : Nat → UInt8) (hvid : pi.volumeId ≠ 0) (hkey : pi.fileKey ≠ 0)
    (hfits : pos % chunkSize + data.length ≤ chunkSize) :
    ∃ st', netWrite (.calm uninit) st pi pos data = .ok st' := by
  rw [netWrite, if_neg (not_or.mpr ⟨hvid, hkey⟩), dif_neg (not_lt.mpr hfits)]
  exact ⟨_, rfl⟩

theorem writeThrough_ok (h : writeThrough env st pi size pos data = .ok st') :
    pos % chunkSize + data.length ≤ chunkSize ∧
      (data.length ≠ 0 → Writable pi size pos data.length) ∧
      ∃ needle : Needle, needle.val = sentBytes env.uninit st pi size pos data ∧
        st' = Function.update st (dioTarget pi pos) (some needle) := by
  rw [writeThrough] at h
  split at h
  · next hskip =>
    obtain ⟨hzero, hfits⟩ := dioWriteCanSkipRead_fits hskip
    refine ⟨by omega, fun hne => ⟨by omega, .inl hskip⟩, _, ?_, writeNeedle_ok h⟩
    simp only [sentBytes, hskip, dioFront, dioBack, if_true, List.nil_append, List.append_nil]
  · next hskip =>
    obtain ⟨hmapped, needle, hneedle, hst⟩ := netWrite_ok h
    refine ⟨hmapped.2.2, fun hne => ⟨by omega, .inr hmapped⟩, needle, ?_, hst⟩
    rw [sentBytes, Bool.eq_false_iff.mpr hskip]
    exact hneedle

theorem writeThrough_calm (uninit : Nat → UInt8) (h : Writable pi size pos data.length) :
    ∃ st', writeThrough (.calm uninit) st pi size pos data = .ok st' := by
  rw [writeThrough]
  split
  · exact ⟨_, rfl⟩
  · next hskip =>
    obtain ⟨hvid, hkey, hfits⟩ := h.2.resolve_left hskip
    exact netWrite_calm uninit hvid hkey hfits

variable {s : DioState}

section

variable (hmap : hasMapping s.inode = true)
include hmap

theorem dioWrite_mapped :
    dioWrite env s pos data =
      match writeThrough env s.needles s.inode s.size pos data with
      | .error e => (.error e, s)
      | .ok needles =>
        (.ok data.length, ⟨needles, s.inode, max s.size (pos + data.length)⟩) := by
  simp only [dioWrite, hmap, if_true, Bool.not_true, Bool.false_eq_true, if_false]

theorem dioWrite_ok {n : Nat} (h : (dioWrite env s pos data).1 = .ok n) :
    n = data.length ∧
      writeThrough env s.needles s.inode s.size pos data
        = .ok (dioWrite env s pos data).2.needles ∧
      (dioWrite env s pos data).2.inode = s.inode := by
  rw [dioWrite_mapped hmap] at h ⊢
  split at h <;> cases h
  next hthrough => simp only [hthrough, and_self]

theorem directWrite_ok {req : DioRequest} {n : Nat} (hn : 0 < n)
    (h : (directWrite env s pos req).1 = .ok n) :
    n = req.bytes.length ∧
      writeThrough env s.needles s.inode s.size pos req.bytes
        = .ok (directWrite env s pos req).2.needles ∧
      (directWrite env s pos req).2.inode = s.inode := by
  cases req with rw [directWrite] at h ⊢
  | sync data =>
    split at h
    · cases h
      omega
    next hne =>
    rw [if_neg hne]
    split at h
    · cases h
    split at h
    · cases h
    next hbuf =>
    rw [if_neg hbuf]
    split at h
    · cases h
    next hcopied =>
    rw [if_neg hcopied]
    exact dioWrite_ok hmap h
  | async w =>
    split at h
    · cases h
    split at h
    · cases h
      omega
    next hne =>
    rw [if_neg hne]
    split at h
    · cases h
    next hwork =>
    rw [if_neg hwork]
    rw [dioWriteWorker] at h ⊢
    split at h
    · cases h
    next hbuf =>
    rw [if_neg hbuf]
    rw [gatherLoop_take] at h ⊢
    exact dioWrite_ok hmap h

theorem directWrite_calm {uninit : Nat → UInt8} (hne : 0 < data.length)
    (h : writeThrough (.calm uninit) s.needles s.inode s.size pos data = .ok st') :
    directWrite (.calm uninit) s pos (.sync data)
      = (.ok data.length, ⟨st', s.inode, max s.size (pos + data.length)⟩) := by
  rw [directWrite, if_neg (by omega)]
  simp only [DioEnv.calm, Bool.not_true, Bool.false_eq_true, if_false]
  rw [dioWrite_mapped hmap]
  simp only [DioEnv.calm] at h
  rw [h]

end

end Write

end PowerFS.Data
