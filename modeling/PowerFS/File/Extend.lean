import PowerFS.File.Fallocate

namespace PowerFS.File

open Layout PageCache Data

/-! What extending a Flat file does to the bytes it has. -/

/-- The call fails, or no byte below the old size has changed. -/
def Unharmed (f : CachedFile) (res : Except Errno Unit × CachedFile) : Prop :=
  (∃ err, res.1 = .error err) ∨ ∀ o < f.iSize, res.2.byte o = f.byte o

/-- The page with the end of the file is not cached and cannot be read, so that a page of zeros
takes its place. -/
def BoundaryLost (env : PageEnv) (f : CachedFile) : Prop :=
  readMappingPage env f (f.iSize / pageSize) (f.cache (f.iSize / pageSize)) = none ∧
    env.create (f.iSize / pageSize) = true

/-- The condition: the call is refused, or the file has no needles yet, or the page with its end
is not lost, or everything on that page is zero (nothing, if the file ends with a page). -/
def ExtendOk (env : PageEnv) (f : CachedFile) : Prop :=
  env.refused.isSome = true ∨ f.isFlat = false ∨
    (BoundaryLost env f → ∀ o < f.iSize, f.iSize / pageSize ≤ o / pageSize → f.byte o = 0)

variable {env : PageEnv} {f : CachedFile} {newSize o : Nat}

theorem div_eq_of_lt (ho : o < f.iSize) (h : f.iSize / pageSize ≤ o / pageSize) :
    o / pageSize = f.iSize / pageSize :=
  Nat.le_antisymm (Nat.div_le_div_right (Nat.le_of_lt ho)) h

theorem mod_lt_of_boundary (ho : o < f.iSize) (hpage : o / pageSize = f.iSize / pageSize) :
    o % pageSize < f.iSize % pageSize := by
  have hlo := page_offset o
  have hhi := page_offset f.iSize
  rw [hpage] at hlo
  omega

theorem extendSlot_boundary {pg : Nat} (hpg : pg = f.iSize / pageSize)
    (hoff : 0 < f.iSize % pageSize) (slot : Slot UInt8) :
    (∀ page, readMappingPage env f pg slot = some page → extendSlot env f pg slot =
      ⟨some (fillSegment 0 (f.iSize % pageSize) pageSize page), true⟩) ∧
    (readMappingPage env f pg slot = none →
      extendSlot env f pg slot = dirtied slot (zeroPage env pg)) := by
  constructor
  · intro page hread
    simp only [extendSlot, if_pos hpg, if_pos hoff, hread]
  · intro hread
    simp only [extendSlot, if_pos hpg, if_pos hoff, hread]

theorem byte_zeroExtended (hlt : f.iSize < newSize) (ho : o < f.iSize) :
    (f.iSize / pageSize ≤ o / pageSize ∧ BoundaryLost env f →
      (zeroExtended env f newSize).byte o = 0) ∧
    (¬ (f.iSize / pageSize ≤ o / pageSize ∧ BoundaryLost env f) →
      (zeroExtended env f newSize).byte o = f.byte o) := by
  have hloop : (zeroExtended env f newSize).byte o = view pageSize f.behind
      (modifyPages (extendSlot env f)
        (pageRange (f.iSize / pageSize) ((newSize - 1) / pageSize)) f.cache) o := by
    rw [zeroExtended, CachedFile.byte_writeAndWait]
    rfl
  have hslot := modifyPages_pageRange (extendSlot env f) (f.iSize / pageSize)
    ((newSize - 1) / pageSize) f.cache (o / pageSize)
  rw [hloop]
  generalize modifyPages (extendSlot env f)
    (pageRange (f.iSize / pageSize) ((newSize - 1) / pageSize)) f.cache = c at hslot ⊢
  by_cases hpage : f.iSize / pageSize ≤ o / pageSize
  · have heq := div_eq_of_lt ho hpage
    have hmod := mod_lt_of_boundary ho heq
    have hlast : o / pageSize ≤ (newSize - 1) / pageSize :=
      Nat.div_le_div_right (by omega)
    obtain ⟨hread, hlost⟩ := @extendSlot_boundary env f _ heq (Nat.zero_lt_of_lt hmod)
      (f.cache (o / pageSize))
    rw [if_pos ⟨hpage, hlast⟩] at hslot
    rw [BoundaryLost, ← heq]
    cases hres : readMappingPage env f (o / pageSize) (f.cache (o / pageSize)) with
    | some page =>
      -- The byte is before the part of the page that is zeroed.
      refine ⟨fun h => ?_, fun _ => ?_⟩
      · cases h.2.1
      · rw [hread page hres] at hslot
        rw [view_of_page (congrArg Slot.page hslot), fillSegment,
          if_neg fun h => Nat.not_lt.mpr h.1 hmod]
        exact readMappingPage_eq hres
    | none =>
      rw [hlost hres, zeroPage] at hslot
      refine ⟨fun h => ?_, fun h => ?_⟩
      · rw [if_pos h.2.2] at hslot
        exact view_of_page (congrArg Slot.page hslot)
      · have hcreate : env.create (o / pageSize) ≠ true :=
          fun hcreate => h ⟨Nat.le_refl _, rfl, hcreate⟩
        rw [if_neg hcreate, dirtied] at hslot
        exact view_congr (by rw [hslot])
  · refine ⟨fun h => absurd h.1 hpage, fun _ => view_congr ?_⟩
    rw [hslot, if_neg fun h => hpage h.1]

theorem zeroExtended_unharmed (hlt : f.iSize < newSize) :
    (∀ o < f.iSize, (zeroExtended env f newSize).byte o = f.byte o) ↔
      (BoundaryLost env f → ∀ o < f.iSize, f.iSize / pageSize ≤ o / pageSize → f.byte o = 0) := by
  constructor
  · intro hkept hlost o ho hpage
    rw [← hkept o ho]
    exact (byte_zeroExtended hlt ho).1 ⟨hpage, hlost⟩
  · intro hzero o ho
    obtain ⟨hgone, hkept⟩ := @byte_zeroExtended env f newSize o hlt ho
    by_cases hlost : f.iSize / pageSize ≤ o / pageSize ∧ BoundaryLost env f
    · rw [hgone hlost, hzero hlost.2 o ho hlost.1]
    · exact hkept hlost

theorem setattrExtend_unharmed (hlt : f.iSize < newSize) :
    Unharmed f (setattrExtend env f newSize) ↔ ExtendOk env f := by
  rw [Unharmed, ExtendOk, setattrExtend]
  cases env.refused with
  | some err => simp
  | none =>
    cases hflat : f.isFlat with
    | false =>
      exact iff_of_true (.inr fun o _ => rfl) (.inr (.inl rfl))
    | true =>
      rw [if_pos ⟨rfl, hlt⟩, ← zeroExtended_unharmed hlt]
      simp

theorem fallocateExtend_unharmed (hplacement : f.layout.placement = .flat)
    (hlt : f.iSize < newSize) :
    (∀ o < f.iSize, (fallocateExtend env f newSize).byte o = f.byte o) ↔
      f.isFlat = false ∨
        (BoundaryLost env f → ∀ o < f.iSize, f.iSize / pageSize ≤ o / pageSize →
          f.byte o = 0) := by
  rw [fallocateExtend, if_pos hlt]
  cases hflat : f.isFlat with
  | false =>
    have hinline : f.layout.placement ≠ .inline := by
      rw [hplacement]
      decide
    rw [if_neg hinline]
    exact iff_of_true (fun o _ => rfl) (.inl rfl)
  | true =>
    rw [if_pos rfl, zeroExtended_unharmed hlt]
    simp

theorem fallocate_default {offset len : Nat} (hlen : 0 < len) (h : env.refused = none) :
    fallocate env f ⟨false, false, false⟩ offset len =
      (.ok (), fallocateExtend env f (offset + len)) := by
  have hargs : ¬ ((offset : Int) < 0 ∨ (len : Int) ≤ 0) := by omega
  have hsize : ((offset : Int) + len).toNat = offset + len := by omega
  simp only [fallocate, Bool.false_eq_true, false_and, if_false, if_neg hargs, h, hsize, if_true]

theorem fallocate_refused {mode : FallocMode} {offset len : Int} {err : Errno}
    (h : env.refused = some err) : ∃ err, (fallocate env f mode offset len).1 = .error err := by
  simp only [fallocate, h]
  split_ifs <;> exact ⟨_, rfl⟩

theorem fallocate_unharmed (hplacement : f.layout.placement = .flat) {offset len : Nat}
    (hlen : 0 < len) (hlt : f.iSize < offset + len) :
    Unharmed f (fallocate env f ⟨false, false, false⟩ offset len) ↔ ExtendOk env f := by
  rw [ExtendOk]
  cases hrefused : env.refused with
  | some err => exact iff_of_true (.inl (fallocate_refused hrefused)) (.inl rfl)
  | none =>
    rw [Unharmed, fallocate_default hlen hrefused, fallocateExtend_unharmed hplacement hlt]
    simp

/-! ### Extending a Flat file -/

/-- A truncate or an allocation that extends a Flat file fails or keeps every byte of it, except
that a page with the end of the file that cannot be read is replaced by zeros. -/
theorem extend_unharmed_iff (env : PageEnv) (f : CachedFile)
    (hplacement : f.layout.placement = .flat) (offset len : Nat) (hlen : 0 < len)
    (hlt : f.iSize < offset + len) :
    (Unharmed f (setattrExtend env f (offset + len)) ↔ ExtendOk env f) ∧
    (Unharmed f (fallocate env f ⟨false, false, false⟩ offset len) ↔ ExtendOk env f) :=
  ⟨setattrExtend_unharmed hlt, fallocate_unharmed hplacement hlen hlt⟩

theorem extend_unharmed_iff_sevens :
    (setattrExtend (pageEnv false) (threeSevens .flat) 5).1 = .ok () ∧
      ∀ o < 3, (setattrExtend (pageEnv false) (threeSevens .flat) 5).2.byte o = 7 := by
  have hok : ExtendOk (pageEnv false) (threeSevens .flat) := by
    refine .inr (.inr fun hlost => ?_)
    cases hlost.1
  have hkept := (extend_unharmed_iff (pageEnv false) (threeSevens .flat) rfl 0 5 (by decide)
    (by decide)).1.mpr hok
  refine ⟨rfl, fun o ho => ?_⟩
  obtain ⟨err, herr⟩ | hkept := hkept
  · cases herr
  · exact hkept o ho

/-- The read of the page fails: both calls return 0 and leave zeros. -/
theorem not_extend_unharmed_sevens :
    ¬ Unharmed (threeSevens .flat) (setattrExtend (pageEnv true) (threeSevens .flat) 5) ∧
      (setattrExtend (pageEnv true) (threeSevens .flat) 5).1 = .ok () ∧
      (setattrExtend (pageEnv true) (threeSevens .flat) 5).2.byte 0 = 0 ∧
      ¬ Unharmed (threeSevens .flat)
        (fallocate (pageEnv true) (threeSevens .flat) ⟨false, false, false⟩ 0 5) ∧
      (fallocate (pageEnv true) (threeSevens .flat) ⟨false, false, false⟩ 0 5).1 = .ok () ∧
      (fallocate (pageEnv true) (threeSevens .flat) ⟨false, false, false⟩ 0 5).2.byte 0 = 0 ∧
      (threeSevens .flat).byte 0 = 7 := by
  have hunharmed : ∀ res : Except Errno Unit × CachedFile, res.1 = .ok () → res.2.byte 0 = 0 →
      ¬ Unharmed (threeSevens .flat) res := by
    rintro res hret hzero (⟨err, herr⟩ | hkept)
    · rw [hret] at herr
      cases herr
    · have hseven := hkept 0 (by decide)
      rw [hzero] at hseven
      exact absurd hseven (by decide)
  exact ⟨hunharmed _ rfl rfl, rfl, rfl, hunharmed _ rfl rfl, rfl, rfl, rfl⟩

end PowerFS.File
