import PowerFS.Data.Needles
import PowerFS.Layout.Apply
import PowerFS.Layout.Parse

namespace PowerFS.Data

open Layout

/-! The arithmetic of `powerfs_net_read_ec`, and the bytes that it returns. -/

inductive EcFault where
  | divideByZero | wrappedTotal | index
  deriving DecidableEq

/-- `group_data_size` and `group_base` in `u64`. -/
def ecSize64 (pi : Inode) : UInt64 := pi.ecDataShards.toUInt64 * UInt64.ofNat chunkSize

def ecBase64 (pi : Inode) (offset : UInt64) : UInt64 :=
  offset / ecSize64 pi * (pi.ecDataShards + pi.ecParityShards).toUInt64

/-- `powerfs_net_read_ec` up to the first fault: the division, the tests, the allocation of the
shard arrays, and the loops over all shards and over the data shards. -/
def netReadEcChecked (pi : Inode) (offset : UInt64) : Except EcFault Unit :=
  let total := pi.ecDataShards + pi.ecParityShards
  let count := (elems pi.ecChunks).length
  let idx := fun i => (ecBase64 pi offset + UInt64.ofNat i).toNat
  if ecSize64 pi = 0 then .error .divideByZero
  else if pi.ecDataShards = 0 ∨ pi.ecChunks.isNone ∨
      count < (ecBase64 pi offset + total.toUInt64).toNat then .ok ()
  else if total.toNat ≠ pi.ecDataShards.toNat + pi.ecParityShards.toNat then .error .wrappedTotal
  -- an entry that is not listed any more is skipped
  else if (∀ i < total.toNat, idx i < count → (elems pi.ecChunks)[idx i]?.isSome = true) ∧
      ∀ i < pi.ecDataShards.toNat, i < total.toNat then .ok ()
  else .error .index

/-- `powerfs_net_read` up to the loop over the needles. -/
def netReadChecked (pi : Inode) (offset : UInt64) (length bufCap : Nat) : Except EcFault Unit :=
  if bufCap < length then .ok ()
  else if readsEc pi then netReadEcChecked pi offset
  else .ok ()

theorem ecSize64_eq_zero_iff (pi : Inode) : ecSize64 pi = 0 ↔ pi.ecDataShards = 0 := by
  have hlt := pi.ecDataShards.toNat_lt
  have hsize : (UInt64.ofNat chunkSize).toNat = 2 ^ 20 := rfl
  rw [ecSize64, ← UInt64.toNat_inj, ← UInt32.toNat_inj, UInt64.toNat_mul, UInt32.toNat_toUInt64,
    hsize, UInt64.toNat_zero, UInt32.toNat_zero]
  omega

/-- A read is safe exactly if it is not one of an EC file, or there are data shards and the total
does not wrap around or the group is refused. -/
theorem netReadChecked_ok_iff (pi : Inode) (offset : UInt64) (length bufCap : Nat) :
    netReadChecked pi offset length bufCap = .ok () ↔
      bufCap < length ∨ readsEc pi = false ∨ pi.ecDataShards ≠ 0 ∧
        (pi.ecDataShards.toNat + pi.ecParityShards.toNat < 2 ^ 32 ∨ (elems pi.ecChunks).length <
          (ecBase64 pi offset + (pi.ecDataShards + pi.ecParityShards).toUInt64).toNat) := by
  unfold netReadChecked
  by_cases hcap : bufCap < length
  · simp [hcap]
  cases hec : readsEc pi with
  | false => simp [hcap]
  | true =>
    simp only [readsEc, Bool.and_eq_true, ← Option.not_isNone, Bool.not_eq_true'] at hec
    simp only [hcap, if_true, if_false, false_or, Bool.true_eq_false, netReadEcChecked,
      ecSize64_eq_zero_iff, hec.2]
    by_cases hzero : pi.ecDataShards = 0
    · simp [hzero]
    rw [if_neg hzero, and_iff_right hzero]
    split
    · next hstop =>
      have hrefused := (hstop.resolve_left hzero).resolve_left Bool.false_ne_true
      exact iff_of_true rfl (.inr hrefused)
    next hstop =>
    rw [not_or, not_or] at hstop
    rw [or_iff_left hstop.2.2, UInt32.toNat_add]
    by_cases hwrap : pi.ecDataShards.toNat + pi.ecParityShards.toNat < 2 ^ 32
    · rw [Nat.mod_eq_of_lt hwrap, if_neg (not_not.mpr rfl),
        if_pos ⟨fun i _ hi => by rw [List.getElem?_eq_getElem hi]; rfl, fun i hi => by omega⟩]
      exact iff_of_true rfl hwrap
    · rw [if_pos (by omega)]
      exact iff_of_false (by simp) hwrap

/-- A reliability field that is cut off after its tag, and a list of one chunk. -/
def truncatedEc : List UInt8 :=
  [0xA1, 0, 0, 0, 1, 2] ++ [0xA4, 0, 0, 0, 49, 1, 1, 0, 0, 0] ++ List.replicate 44 0

theorem not_netReadChecked_ok :
    ¬ ∀ (alloc : ParseAlloc) (body : List UInt8) (offset : UInt64) (length : Nat),
      netReadChecked (applyLayoutToInode true .fresh (parseFileLayout alloc (.init body))) offset
        length length = .ok () := by
  intro hall
  have hread := hall .all truncatedEc 0 1
  revert hread
  decide +kernel

end PowerFS.Data
