import PowerFS.File.Fallocate

namespace PowerFS.File

open Layout PageCache Data

/-! What a file reads as after a hole was punched into it and the page cache was dropped. -/

def InHole (offset stop o : Nat) : Prop := offset ≤ o ∧ o < stop

instance (offset stop o : Nat) : Decidable (InHole offset stop o) :=
  inferInstanceAs (Decidable (_ ∧ _))

/-- What a byte should read as with a hole in the file. -/
def punched (f : CachedFile) (offset stop o : Nat) : UInt8 :=
  if InHole offset stop o then 0 else f.byte o

/-- With the page cache dropped, the range reads as zeros and everything else as before. -/
def PunchSound (f f' : CachedFile) (offset stop : Nat) : Prop :=
  f'.iSize = f.iSize ∧ ∀ o < f.iSize, f'.dropCache.byte o = punched f offset stop o

/-- What the loop over the pages of a hole does to a page: zeros in the hole, zeros everywhere, or
nothing. -/
inductive Fate where
  | zeroed | wiped | kept

def inside (offset stop pg : Nat) : Bool :=
  offset ≤ pg * pageSize && pg * pageSize + pageSize ≤ stop

def fate (env : PageEnv) (f : CachedFile) (offset punchEnd pg : Nat) : Fate :=
  if offset / pageSize ≤ pg ∧ pg ≤ (punchEnd - 1) / pageSize then
    if inside offset punchEnd pg then
      if env.create pg then .zeroed else .kept
    else
      match readMappingPage env f pg (f.cache pg) with
      | some _ => .zeroed
      | none => if env.create pg then .wiped else .kept
  else .kept

/-- The condition for a byte of a mapped Flat file. If its page is written back, what the loop did
to it must fit; if not, what the needle has must. -/
def FlatByteOk (env : PageEnv) (f : CachedFile) (offset stop o : Nat) : Prop :=
  if env.write (o / pageSize) then
    match fate env f offset (min stop f.iSize) (o / pageSize) with
    | .zeroed => True
    | .wiped => ¬ InHole offset stop o → f.byte o = 0
    | .kept => f.dropCache.byte o = punched f offset stop o
  else f.behind o = punched f offset stop o

/-- For a byte of any other file: in the hole, it is zero behind the cache, or on a dirty page,
partly in the range, that will be stored; elsewhere, dropping the cache would have lost nothing. -/
def OtherByteOk (f : CachedFile) (offset stop o : Nat) : Prop :=
  if InHole offset stop o then
    f.behind o = 0 ∨
      f.stores = true ∧ inside offset stop (o / pageSize) = false ∧
        (f.cache (o / pageSize)).page.isSome = true ∧ (f.cache (o / pageSize)).dirty = true
  else f.dropCache.byte o = f.byte o

/-- The condition. A Flat file is left alone if the hole is behind its end. -/
def PunchOk (env : PageEnv) (f : CachedFile) (offset stop : Nat) : Prop :=
  ∀ o < f.iSize,
    if f.isFlat then
      if offset < f.iSize then FlatByteOk env f offset stop o
      else f.dropCache.byte o = f.byte o
    else OtherByteOk f offset stop o

variable {env : PageEnv} {f : CachedFile} {offset stop punchEnd o : Nat}

/-! ### Dropping the cache -/

theorem byte_dropCache :
    f.dropCache.byte o =
      if f.stores = true ∧ (f.cache (o / pageSize)).dirty = true then f.byte o
      else f.behind o := by
  rw [CachedFile.dropCache]
  cases f.stores with
  | true =>
    simp only [true_and]
    exact view_dropClean
  | false =>
    exact view_of_none rfl

theorem byte_dropCache_writeAndWait (ok : Nat → Bool) (h : f.stores = true) (ho : o < f.iSize) :
    (f.writeAndWait ok).dropCache.byte o =
      if (f.cache (o / pageSize)).dirty = true ∧ ok (o / pageSize) = true then f.byte o
      else f.behind o := by
  have hbehind : (f.writeAndWait ok).behind = flushed pageSize f.iSize ok f.cache f.behind := by
    rw [CachedFile.behind_of_stores (f := f.writeAndWait ok) h, f.behind_of_stores h]
    exact if_pos h
  have hclean : ((f.writeAndWait ok).cache (o / pageSize)).dirty = false := rfl
  rw [byte_dropCache, if_neg fun h => Bool.false_ne_true h.2, hbehind, flushed]
  simp only [ho, and_true]
  rfl

/-! ### Files that are not Flat -/

theorem InHole.page (h : InHole offset stop o) :
    offset / pageSize ≤ o / pageSize ∧ o / pageSize ≤ (stop - 1) / pageSize :=
  ⟨Nat.div_le_div_right h.1, Nat.div_le_div_right (Nat.le_sub_one_of_lt h.2)⟩

theorem inHole_of_inside (h : inside offset stop (o / pageSize) = true) : InHole offset stop o := by
  simp only [inside, Bool.and_eq_true, decide_eq_true_eq] at h
  have hlo := page_offset o
  have hhi := mod_lt_pageSize o
  exact ⟨by omega, by omega⟩

theorem truncateSlot_inside {pg : Nat} (h : inside offset stop pg = true) (slot : Slot UInt8) :
    truncateSlot offset stop pg slot = ⟨none, false⟩ := by
  simp only [inside, Bool.and_eq_true, decide_eq_true_eq] at h
  rw [truncateSlot, if_pos h]

theorem truncateSlot_outside (h : inside offset stop (o / pageSize) = false) (slot : Slot UInt8) :
    (truncateSlot offset stop (o / pageSize) slot).dirty = slot.dirty ∧
      ((truncateSlot offset stop (o / pageSize) slot).page.map fun page => page (o % pageSize)) =
        slot.page.map fun page =>
          if InHole offset stop o then 0 else page (o % pageSize) := by
  have hno : ¬ (offset ≤ o / pageSize * pageSize ∧ o / pageSize * pageSize + pageSize ≤ stop) := by
    simpa [inside] using h
  have hiff : offset - o / pageSize * pageSize ≤ o % pageSize ∧
      o % pageSize < stop - o / pageSize * pageSize ↔ InHole offset stop o := by
    have hlo := page_offset o
    rw [InHole]
    omega
  rw [truncateSlot, if_neg hno]
  refine ⟨rfl, ?_⟩
  rw [Option.map_map]
  congr 1
  funext page
  simp only [Function.comp_apply, fillSegment, hiff]

/-- The cache after `truncate_pagecache_range`. -/
def truncatedCache (f : CachedFile) (offset stop : Nat) : Cache UInt8 :=
  modifyPages (truncateSlot offset stop)
    (pageRange (offset / pageSize) ((stop - 1) / pageSize)) f.cache

theorem truncatedCache_apply (pg : Nat) :
    truncatedCache f offset stop pg =
      if offset / pageSize ≤ pg ∧ pg ≤ (stop - 1) / pageSize then
        truncateSlot offset stop pg (f.cache pg)
      else f.cache pg :=
  modifyPages_pageRange _ _ _ _ _

def cachedByte (c : Cache UInt8) (o : Nat) : Option UInt8 :=
  (c (o / pageSize)).page.map fun page => page (o % pageSize)

/-- Pages inside the range go; other pages get zeros in it. -/
theorem truncatedCache_slot (f : CachedFile) (offset stop o : Nat) :
    (truncatedCache f offset stop (o / pageSize)).dirty =
        (!inside offset stop (o / pageSize) && (f.cache (o / pageSize)).dirty) ∧
      cachedByte (truncatedCache f offset stop) o =
        if InHole offset stop o then
          if inside offset stop (o / pageSize) then none else (cachedByte f.cache o).map fun _ => 0
        else cachedByte f.cache o := by
  have hslot := @truncatedCache_apply f offset stop (o / pageSize)
  unfold cachedByte
  cases hin : inside offset stop (o / pageSize) with
  | true =>
    have hhole := inHole_of_inside hin
    rw [if_pos hhole.page, truncateSlot_inside hin] at hslot
    rw [hslot, if_pos hhole]
    exact ⟨rfl, rfl⟩
  | false =>
    obtain ⟨hdirty, hpage⟩ := truncateSlot_outside hin (f.cache (o / pageSize))
    by_cases hhole : InHole offset stop o
    · rw [if_pos hhole.page] at hslot
      simp only [if_pos hhole] at hpage ⊢
      rw [hslot, hdirty, hpage, Option.map_map]
      exact ⟨rfl, rfl⟩
    · simp only [if_neg hhole] at hpage ⊢
      split at hslot
      · rw [hslot, hdirty, hpage]
        exact ⟨rfl, rfl⟩
      · rw [hslot]
        exact ⟨rfl, rfl⟩

theorem punchHole_of_not_isFlat (hflat : f.isFlat = false) :
    (punchHole env f offset stop).iSize = f.iSize ∧
      (punchHole env f offset stop).stores = f.stores ∧
      (punchHole env f offset stop).cache = truncatedCache f offset stop ∧
      (punchHole env f offset stop).behind = f.behind := by
  rw [punchHole, if_neg (by rw [hflat]; exact Bool.false_ne_true)]
  simp only
  split <;> exact ⟨rfl, rfl, rfl, rfl⟩

theorem byte_punchHole_of_not_isFlat (hflat : f.isFlat = false) :
    (punchHole env f offset stop).dropCache.byte o =
      if f.stores = true ∧ (truncatedCache f offset stop (o / pageSize)).dirty = true then
        view pageSize f.behind (truncatedCache f offset stop) o
      else f.behind o := by
  obtain ⟨-, hstores, hcache, hbehind⟩ := @punchHole_of_not_isFlat env f offset stop hflat
  rw [byte_dropCache, hstores, CachedFile.byte, hcache, hbehind]

theorem punchSound_of_not_isFlat (hflat : f.isFlat = false) :
    PunchSound f (punchHole env f offset stop) offset stop ↔
      ∀ o < f.iSize, OtherByteOk f offset stop o := by
  have hbyte : ∀ o < f.iSize, (punchHole env f offset stop).dropCache.byte o =
      punched f offset stop o ↔ OtherByteOk f offset stop o := by
    intro o _
    obtain ⟨hdirty, hcached⟩ := truncatedCache_slot f offset stop o
    rw [byte_punchHole_of_not_isFlat hflat, OtherByteOk, punched, view_eq_getD, ← cachedByte, hdirty,
      hcached]
    by_cases hhole : InHole offset stop o
    · rw [if_pos hhole, if_pos hhole, if_pos hhole]
      cases inside offset stop (o / pageSize) with
      | true =>
        rw [if_neg fun hno => Bool.false_ne_true hno.2]
        exact ⟨.inl, fun hor => hor.resolve_right fun hno => Bool.false_ne_true hno.2.1.symm⟩
      | false =>
        rw [Bool.not_false, Bool.true_and, cachedByte]
        by_cases hkept : f.stores = true ∧ (f.cache (o / pageSize)).dirty = true
        · rw [if_pos hkept]
          cases (f.cache (o / pageSize)).page with
          | some page => exact iff_of_true rfl (.inr ⟨hkept.1, rfl, rfl, hkept.2⟩)
          | none =>
            exact ⟨.inl, fun hor => hor.resolve_right fun hno => Bool.false_ne_true hno.2.2.1⟩
        · rw [if_neg hkept]
          exact ⟨.inl, fun hor => hor.resolve_right fun hno => hkept ⟨hno.1, hno.2.2.2⟩⟩
    · have hout : inside offset stop (o / pageSize) = false :=
        Bool.eq_false_iff.mpr fun hin => hhole (inHole_of_inside hin)
      rw [if_neg hhole, if_neg hhole, if_neg hhole, hout, byte_dropCache, CachedFile.byte,
        view_eq_getD]
      rfl
  rw [PunchSound, and_iff_right (punchHole_of_not_isFlat hflat).1]
  exact forall₂_congr hbyte

/-! ### Flat files -/

theorem zeroed_iff (o : Nat) :
    (if o / pageSize * pageSize < offset then offset - o / pageSize * pageSize else 0) ≤
        o % pageSize ∧
      o % pageSize < (if punchEnd < o / pageSize * pageSize + pageSize then
        punchEnd - o / pageSize * pageSize else pageSize) ↔ InHole offset punchEnd o := by
  have hlo := page_offset o
  have hhi := mod_lt_pageSize o
  rw [InHole]
  split <;> split <;> omega

theorem needsRead_iff (pg : Nat) :
    0 < (if pg * pageSize < offset then offset - pg * pageSize else 0) ∨
      (if punchEnd < pg * pageSize + pageSize then punchEnd - pg * pageSize else pageSize) <
        pageSize ↔ inside offset punchEnd pg = false := by
  have hpos : 0 < pageSize := by decide
  rw [Bool.eq_false_iff]
  simp only [inside, ne_eq, Bool.and_eq_true, decide_eq_true_eq]
  split <;> split <;> omega

/-- The cache after the loop over the pages of the hole. -/
def punchedCache (env : PageEnv) (f : CachedFile) (offset punchEnd : Nat) : Cache UInt8 :=
  modifyPages (punchSlot env f offset punchEnd)
    (pageRange (offset / pageSize) ((punchEnd - 1) / pageSize)) f.cache

theorem view_of_filled {page : Nat → UInt8} {c : Cache UInt8}
    (h : c (o / pageSize) = dirtied (f.cache (o / pageSize)) ((some page).map (fillSegment 0
      (if o / pageSize * pageSize < offset then offset - o / pageSize * pageSize else 0)
      (if punchEnd < o / pageSize * pageSize + pageSize then
        punchEnd - o / pageSize * pageSize else pageSize)))) :
    (c (o / pageSize)).dirty = true ∧
      view pageSize f.behind c o =
        if InHole offset punchEnd o then 0 else page (o % pageSize) := by
  rw [Option.map_some, dirtied] at h
  refine ⟨by rw [h], ?_⟩
  rw [view_of_page (congrArg Slot.page h), fillSegment]
  simp only [zeroed_iff]

theorem punchedCache_cases (env : PageEnv) (f : CachedFile) (offset punchEnd o : Nat) :
    fate env f offset punchEnd (o / pageSize) = .zeroed ∧
        (punchedCache env f offset punchEnd (o / pageSize)).dirty = true ∧
        view pageSize f.behind (punchedCache env f offset punchEnd) o =
          (if InHole offset punchEnd o then 0 else f.byte o) ∨
      fate env f offset punchEnd (o / pageSize) = .wiped ∧
        (punchedCache env f offset punchEnd (o / pageSize)).dirty = true ∧
        view pageSize f.behind (punchedCache env f offset punchEnd) o = 0 ∨
      fate env f offset punchEnd (o / pageSize) = .kept ∧
        punchedCache env f offset punchEnd (o / pageSize) = f.cache (o / pageSize) := by
  have hslot : punchedCache env f offset punchEnd (o / pageSize) = _ :=
    modifyPages_pageRange (punchSlot env f offset punchEnd) _ _ _ _
  rw [fate]
  split
  case isFalse hrange => exact .inr (.inr ⟨rfl, hslot.trans (if_neg hrange)⟩)
  case isTrue hrange =>
    rw [if_pos hrange, punchSlot] at hslot
    simp only [needsRead_iff] at hslot
    cases hinside : inside offset punchEnd (o / pageSize) with
    | true =>
      rw [hinside, zeroPage] at hslot
      rw [if_pos rfl]
      split
      case isTrue hcreate =>
        rw [if_pos hcreate] at hslot
        obtain ⟨hdirty, hview⟩ := view_of_filled hslot
        rw [if_pos (inHole_of_inside hinside)] at hview ⊢
        exact .inl ⟨rfl, hdirty, hview⟩
      case isFalse hcreate =>
        rw [if_neg hcreate] at hslot
        exact .inr (.inr ⟨rfl, hslot⟩)
    | false =>
      rw [hinside] at hslot
      rw [if_neg Bool.false_ne_true]
      cases hread : readMappingPage env f (o / pageSize) (f.cache (o / pageSize)) with
      | some page =>
        rw [hread] at hslot
        obtain ⟨hdirty, hview⟩ := view_of_filled hslot
        rw [readMappingPage_eq hread] at hview
        exact .inl ⟨rfl, hdirty, hview⟩
      | none =>
        rw [hread, zeroPage] at hslot
        simp only
        split
        case isTrue hcreate =>
          rw [if_pos hcreate] at hslot
          obtain ⟨hdirty, hview⟩ := view_of_filled hslot
          rw [ite_self] at hview
          exact .inr (.inl ⟨rfl, hdirty, hview⟩)
        case isFalse hcreate =>
          rw [if_neg hcreate] at hslot
          exact .inr (.inr ⟨rfl, hslot⟩)

theorem punchSound_of_isFlat (hflat : f.isFlat = true) (hlt : offset < f.iSize) :
    PunchSound f (punchHole env f offset stop) offset stop ↔
      ∀ o < f.iSize, FlatByteOk env f offset stop o := by
  have hstores := CachedFile.stores_of_isFlat hflat
  have hpunch : punchHole env f offset stop = CachedFile.writeAndWait env.write
      { f with cache := punchedCache env f offset (min stop f.iSize) } := by
    rw [punchHole, if_pos hflat]
    exact if_neg (Nat.not_le.mpr hlt)
  have hbyte : ∀ o < f.iSize, (punchHole env f offset stop).dropCache.byte o =
      punched f offset stop o ↔ FlatByteOk env f offset stop o := by
    intro o ho
    have hfinal : (punchHole env f offset stop).dropCache.byte o =
        if (punchedCache env f offset (min stop f.iSize) (o / pageSize)).dirty = true ∧
            env.write (o / pageSize) = true then
          view pageSize f.behind (punchedCache env f offset (min stop f.iSize)) o
        else f.behind o := by
      rw [hpunch]
      exact byte_dropCache_writeAndWait env.write hstores ho
    have hhole : InHole offset (min stop f.iSize) o ↔ InHole offset stop o := by
      rw [InHole, InHole]
      omega
    rw [hfinal, FlatByteOk]
    cases hwrite : env.write (o / pageSize) with
    | false => simp
    | true =>
      simp only [and_true, if_true]
      obtain ⟨hfate, hdirty, hview⟩ | ⟨hfate, hdirty, hview⟩ | ⟨hfate, hslot⟩ :=
        punchedCache_cases env f offset (min stop f.iSize) o
      · rw [hfate, hdirty, hview, if_pos rfl, punched]
        simp only [hhole]
      · rw [hfate, hdirty, hview, punched]
        by_cases hin : InHole offset stop o
        · exact iff_of_true (if_pos hin).symm fun hno => absurd hin hno
        · rw [if_neg hin]
          exact ⟨fun hzero _ => hzero.symm, fun hzero => (hzero hin).symm⟩
      · -- The page is what it was, and so is what becomes of it without the cache.
        have hkept : view pageSize f.behind (punchedCache env f offset (min stop f.iSize)) o =
            f.byte o := view_congr (by rw [hslot])
        rw [hfate, hslot, hkept, byte_dropCache, hstores]
        simp only [true_and]
  have hsize : (punchHole env f offset stop).iSize = f.iSize := by
    rw [hpunch]
    rfl
  rw [PunchSound, and_iff_right hsize]
  exact forall₂_congr hbyte

theorem punchSound_iff :
    PunchSound f (punchHole env f offset stop) offset stop ↔ PunchOk env f offset stop := by
  rw [PunchOk]
  cases hflat : f.isFlat with
  | false => exact punchSound_of_not_isFlat hflat
  | true =>
    by_cases hlt : offset < f.iSize
    · simp only [if_pos hlt]
      exact punchSound_of_isFlat hflat hlt
    · -- The hole is behind the end of the file, and nothing is done.
      have hsame : punchHole env f offset stop = f := by
        rw [punchHole, if_pos hflat]
        exact if_pos (Nat.le_of_not_lt hlt)
      simp only [if_true, if_neg hlt]
      rw [hsame, PunchSound, and_iff_right rfl]
      refine forall₂_congr fun o ho => ?_
      rw [punched, if_neg fun hin => hlt (Nat.lt_of_le_of_lt hin.1 ho)]

/-! ### Punching a hole -/

/-- After a punch that returns 0, with the page cache dropped, the file reads as it should if and
only if the condition holds. -/
theorem fallocate_punchSound_iff (env : PageEnv) (f f' : CachedFile) (offset len : Int)
    (hret : fallocate env f ⟨true, true, false⟩ offset len = (.ok (), f')) :
    PunchSound f f' offset.toNat (offset + len).toNat ↔
      PunchOk env f offset.toNat (offset + len).toNat := by
  have hpunch : f' = punchHole env f offset.toNat (offset + len).toNat := by
    simp only [fallocate, Bool.false_eq_true, Bool.true_eq_false, and_false, if_false] at hret
    split at hret
    · cases (Prod.mk.inj hret).1
    · split at hret
      · cases (Prod.mk.inj hret).1
      · exact (Prod.mk.inj hret).2.symm
  rw [hpunch]
  exact punchSound_iff

theorem fallocate_punchSound_iff_flat :
    ∃ f', fallocate (pageEnv false) (threeSevens .flat) ⟨true, true, false⟩ 1 1 = (.ok (), f') ∧
      PunchSound (threeSevens .flat) f' 1 2 := by
  refine ⟨_, rfl, ?_⟩
  refine (fallocate_punchSound_iff (pageEnv false) (threeSevens .flat) _ 1 1 rfl).mpr
    fun o ho => ?_
  have hpage : o / pageSize = 0 := Nat.div_eq_of_lt (Nat.lt_trans ho (by decide))
  rw [FlatByteOk, hpage]
  trivial

/-- Inline and Stripe files, and Flat files with a page that cannot be read: the punch returns 0,
and the hole still holds sevens, or a byte outside it is gone. -/
theorem not_punchSound_threeSevens :
    (∀ placement ∈ [Placement.inline, .stripe, .wideStripe], ∃ f',
      fallocate (pageEnv false) (threeSevens placement) ⟨true, true, false⟩ 1 1 = (.ok (), f') ∧
        f'.dropCache.byte 1 = 7 ∧ ¬ PunchSound (threeSevens placement) f' 1 2) ∧
    ∃ f', fallocate (pageEnv true) (threeSevens .flat) ⟨true, true, false⟩ 1 1 = (.ok (), f') ∧
      (threeSevens .flat).byte 0 = 7 ∧ f'.dropCache.byte 0 = 0 ∧
      ¬ PunchSound (threeSevens .flat) f' 1 2 := by
  constructor
  · have hleft : ∀ f f' : CachedFile, f.iSize = 3 → f'.dropCache.byte 1 = 7 →
        ¬ PunchSound f f' 1 2 := by
      intro f f' hsize hseven hsound
      have hzero := hsound.2 1 (by rw [hsize]; decide)
      rw [hseven, punched, if_pos ⟨by decide, by decide⟩] at hzero
      exact absurd hzero (by decide)
    intro placement hmem
    simp only [List.mem_cons, List.not_mem_nil, or_false] at hmem
    obtain rfl | rfl | rfl := hmem
    · exact ⟨_, rfl, rfl, hleft _ _ rfl rfl⟩
    · exact ⟨_, rfl, rfl, hleft _ _ rfl rfl⟩
    · exact ⟨_, rfl, rfl, hleft _ _ rfl rfl⟩
  · refine ⟨_, rfl, rfl, rfl, fun hsound => ?_⟩
    have hseven : (0 : UInt8) = 7 := hsound.2 0 (by decide)
    exact absurd hseven (by decide)

end PowerFS.File
