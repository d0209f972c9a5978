import Mathlib.Logic.Function.Iterate

/-!
# Reflected cyclic redundancy checks

The bitwise form of a reflected CRC of width `w` with polynomial `poly`. A shift step is
injective as soon as the top bit of `poly` is set, so changing one byte of a message always
changes its check value.
-/

namespace Crc

variable {w : Nat} (poly : BitVec w)

def shift (x : BitVec w) : BitVec w :=
  if x.getLsbD 0 then (x >>> 1) ^^^ poly else x >>> 1

/-- The remainder after one more byte. -/
def feed (x : BitVec w) (b : UInt8) : BitVec w :=
  (shift poly)^[8] (x ^^^ b.toBitVec.setWidth w)

/-- The remainder after a message. -/
def run (x : BitVec w) (bytes : List UInt8) : BitVec w := bytes.foldl (feed poly) x

variable {poly}

theorem getLsbD_shift (x : BitVec w) (i : Nat) :
    (shift poly x).getLsbD i = (x.getLsbD (i + 1) ^^ (x.getLsbD 0 && poly.getLsbD i)) := by
  rw [shift]
  cases h : x.getLsbD 0 with
  | true => simp [Nat.add_comm]
  | false => simp [Nat.add_comm]

section

variable (hw : 0 < w) (hpoly : poly.getLsbD (w - 1) = true)
include hw hpoly

theorem getLsbD_shift_top (x : BitVec w) : (shift poly x).getLsbD (w - 1) = x.getLsbD 0 := by
  rw [getLsbD_shift, hpoly, BitVec.getLsbD_of_ge x (w - 1 + 1) (by omega)]
  simp

theorem shift_injective :
    Function.Injective (shift poly) := by
  intro x y hxy
  have h0 : x.getLsbD 0 = y.getLsbD 0 := by
    rw [← getLsbD_shift_top hw hpoly x, ← getLsbD_shift_top hw hpoly y, hxy]
  apply BitVec.eq_of_getLsbD_eq
  intro i _
  cases i with
  | zero => exact h0
  | succ i =>
    have hi := congrArg (fun z => z.getLsbD i) hxy
    simp only [getLsbD_shift, h0] at hi
    exact Bool.xor_left_inj.mp hi

theorem feed_injective (b : UInt8) :
    Function.Injective fun x => feed poly x b := by
  intro x y hxy
  have h := (shift_injective hw hpoly).iterate 8 hxy
  exact (BitVec.xor_left_inj _).mp h

end

theorem feed_injective_byte (hw : 8 ≤ w) (hpoly : poly.getLsbD (w - 1) = true) (x : BitVec w) :
    Function.Injective (feed poly x) := by
  intro b c hbc
  have h := (shift_injective (by omega) hpoly).iterate 8 hbc
  have hset : b.toBitVec.setWidth w = c.toBitVec.setWidth w := (BitVec.xor_right_inj _).mp h
  apply UInt8.toBitVec_inj.mp
  apply BitVec.eq_of_getLsbD_eq
  intro i hi
  have hbit := congrArg (fun z => z.getLsbD i) hset
  simpa [show i < w by omega] using hbit

theorem run_injective (hw : 0 < w) (hpoly : poly.getLsbD (w - 1) = true) (bytes : List UInt8) :
    Function.Injective fun x => run poly x bytes := by
  induction bytes with
  | nil => exact fun _ _ h => h
  | cons b bs ih =>
    intro x y hxy
    exact feed_injective hw hpoly b (ih hxy)

/-- Two messages that differ in one byte have different check values. -/
theorem run_ne_of_byte_ne (hw : 8 ≤ w) (hpoly : poly.getLsbD (w - 1) = true) (x : BitVec w)
    (front back : List UInt8) {b c : UInt8} (hbc : b ≠ c) :
    run poly x (front ++ b :: back) ≠ run poly x (front ++ c :: back) := by
  intro h
  simp only [run, List.foldl_append] at h
  have hfeed := run_injective (by omega) hpoly back h
  exact hbc (feed_injective_byte hw hpoly _ hfeed)

end Crc
