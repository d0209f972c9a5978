import PowerFS.File.PunchHole
import PowerFS.Data.DirectIo

namespace PowerFS.File

open Layout PageCache Data

/-! The page cache after a synchronous direct write. -/

/-- The end of the synchronous path, `truncate_pagecache_range(inode, pos, pos + written)`, whose
last argument is inclusive. -/
def directWriteCache (env : DioEnv) (s : DioState) (f : CachedFile) (pos : Nat)
    (data : List UInt8) : Cache UInt8 :=
  match (directWrite env s pos (.sync data)).1 with
  | .error _ => f.cache
  | .ok written => if 0 < written then truncatedCache f pos (pos + written + 1) else f.cache

/-- Only the byte behind the data can change: exactly when it is cached, and is not a zero on a
page that stays. -/
theorem directWriteCache_frame_iff (env : DioEnv) (s : DioState) (f : CachedFile) (pos n : Nat)
    (data : List UInt8) (h : (directWrite env s pos (.sync data)).1 = .ok n) :
    (∀ o, ¬ InHole pos (pos + n) o →
      cachedByte (directWriteCache env s f pos data) o = cachedByte f.cache o) ↔
    n = 0 ∨ cachedByte f.cache (pos + n) = none ∨
      cachedByte f.cache (pos + n) = some 0 ∧
        inside pos (pos + n + 1) ((pos + n) / pageSize) = false := by
  simp only [directWriteCache, h]
  by_cases hn : 0 < n
  · simp only [if_pos hn, (truncatedCache_slot _ _ _ _).2]
    have hlast : InHole pos (pos + n + 1) (pos + n) := ⟨by omega, by omega⟩
    constructor
    · intro hall
      have hbyte := hall (pos + n) fun hhole => Nat.lt_irrefl _ hhole.2
      rw [if_pos hlast] at hbyte
      cases hcached : cachedByte f.cache (pos + n) with
      | none => exact .inr (.inl rfl)
      | some b =>
        rw [hcached] at hbyte
        split at hbyte
        · cases hbyte
        · next hout => exact .inr (.inr ⟨hbyte.symm, Bool.eq_false_iff.mpr hout⟩)
    · intro hcond o ho
      split
      · next hhole =>
        -- the two ranges differ in one byte
        obtain rfl : o = pos + n := by
          rw [InHole] at ho hhole
          omega
        obtain hzero | hnone | ⟨hcached, hout⟩ := hcond
        · omega
        · rw [hnone]
          split <;> rfl
        · rw [hcached, hout]
          rfl
      · rfl
  · simp only [if_neg hn, implies_true, true_iff]
    exact .inl (by omega)

/-- A page of sevens at the start of an empty Flat file. -/
def sevens : CachedFile :=
  ⟨{ Inode.fresh with volumeId := 7, fileKey := 100 }, 0, fun pg => ⟨if pg = 0 then some fun _ => 7
    else none, false⟩, fun _ => 0⟩

theorem directWriteCache_frame_behind :
    (directWrite (.calm fun _ => 0) ⟨fun _ => none, sevens.layout, 0⟩ 4096 (.sync [1])).1 = .ok 1 ∧
    ∀ o, ¬ InHole 4096 4097 o → cachedByte (directWriteCache (.calm fun _ => 0)
      ⟨fun _ => none, sevens.layout, 0⟩ sevens 4096 [1]) o = cachedByte sevens.cache o :=
  ⟨rfl, (directWriteCache_frame_iff _ _ _ _ 1 _ rfl).mpr (.inr (.inl rfl))⟩

/-- One byte is written at the start of that page, and the next one is lost too. -/
theorem not_directWriteCache_frame :
    ¬ ∀ (env : DioEnv) (s : DioState) (f : CachedFile) (pos n : Nat) (data : List UInt8),
      (directWrite env s pos (.sync data)).1 = .ok n → ∀ o, ¬ InHole pos (pos + n) o →
        cachedByte (directWriteCache env s f pos data) o = cachedByte f.cache o := by
  intro hall
  have hbyte := hall (.calm fun _ => 0) ⟨fun _ => none, sevens.layout, 0⟩ sevens 0 1 [1] rfl 1
    fun hhole => Nat.lt_irrefl _ hhole.2
  revert hbyte
  decide +kernel

end PowerFS.File
