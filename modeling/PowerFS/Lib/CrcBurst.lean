import PowerFS.Lib.Crc
import Mathlib.Data.List.GetD
import Mathlib.Tactic.Push

/-!
# Burst errors

A reflected CRC takes the bits of every byte from the lowest one on. Its remainder is linear in the
message, so two messages have the same check value exactly if the remainder of their difference is
zero, which that of a burst of at most `w` bits is not.
-/

namespace Crc

variable {w : Nat} (poly : BitVec w)

def bitWord (w : Nat) (b : Bool) : BitVec w := (BitVec.ofBool b).setWidth w

def feedBit (x : BitVec w) (b : Bool) : BitVec w := shift poly (x ^^^ bitWord w b)

def feedBits (x : BitVec w) (bits : List Bool) : BitVec w := bits.foldl (feedBit poly) x

def word (w : Nat) : List Bool → BitVec w
  | [] => 0#w
  | b :: bits => word w bits <<< 1 ^^^ bitWord w b

def byteBits (b : UInt8) : List Bool := (List.range 8).map b.toBitVec.getLsbD

/-- The bits of a message in the order they are fed. -/
def bitsOf (bytes : List UInt8) : List Bool := bytes.flatMap byteBits

/-- Bit `i` of a message: bit `i % 8` of byte `i / 8`. -/
def bitAt (bytes : List UInt8) (i : Nat) : Bool :=
  (bytes.getD (i / 8) 0).toBitVec.getLsbD (i % 8)

section Bits

theorem getLsbD_bitWord (b : Bool) (i : Nat) :
    (bitWord w b).getLsbD i = (decide (i < w) && (decide (i = 0) && b)) := by
  cases b <;> simp [bitWord]

theorem getLsbD_word (bits : List Bool) (i : Nat) :
    (word w bits).getLsbD i = (decide (i < w) && bits.getD i false) := by
  induction bits generalizing i with
  | nil => simp [word]
  | cons b bits ih =>
    rw [word, BitVec.getLsbD_xor, BitVec.getLsbD_shiftLeft, getLsbD_bitWord]
    cases i with
    | zero => simp
    | succ i =>
      rw [ih, List.getD_cons_succ]
      by_cases hi : i + 1 < w
      · simp [show i < w by omega]
      · simp [hi]

theorem length_byteBits (b : UInt8) : (byteBits b).length = 8 := by
  rw [byteBits, List.length_map, List.length_range]

theorem getD_byteBits (b : UInt8) (i : Nat) :
    (byteBits b).getD i false = b.toBitVec.getLsbD i := by
  by_cases hi : i < 8
  · simp [byteBits, hi]
  · rw [BitVec.getLsbD_of_ge _ _ (by omega), List.getD_eq_default _ _ (by
      rw [length_byteBits]
      omega)]

theorem length_bitsOf (bytes : List UInt8) : (bitsOf bytes).length = 8 * bytes.length := by
  induction bytes with
  | nil => rfl
  | cons b bytes ih =>
    rw [bitsOf, List.flatMap_cons, List.length_append, length_byteBits, ← bitsOf, List.length_cons]
    omega

theorem getD_bitsOf (bytes : List UInt8) (i : Nat) :
    (bitsOf bytes).getD i false = bitAt bytes i := by
  induction bytes generalizing i with
  | nil => simp [bitsOf, bitAt]
  | cons b bytes ih =>
    rw [bitsOf, List.flatMap_cons, ← bitsOf]
    by_cases hi : i < 8
    · rw [List.getD_append _ _ _ _ (by rw [length_byteBits]; omega), getD_byteBits, bitAt,
        Nat.div_eq_of_lt hi, Nat.mod_eq_of_lt hi, List.getD_cons_zero]
    · obtain ⟨j, rfl⟩ : ∃ j, i = j + 8 := ⟨i - 8, by omega⟩
      rw [List.getD_append_right _ _ _ _ (by rw [length_byteBits]; omega), length_byteBits,
        Nat.add_sub_cancel, ih, bitAt, bitAt, Nat.add_mod_right, Nat.add_div_right _ (by decide),
        List.getD_cons_succ]

theorem eq_of_bitAt_eq {a b : List UInt8} (hlen : a.length = b.length)
    (h : ∀ i, bitAt a i = bitAt b i) : a = b := by
  apply List.ext_getElem hlen
  intro n hna hnb
  apply UInt8.toBitVec_inj.mp
  apply BitVec.eq_of_getLsbD_eq
  intro i hi
  have hbit := h (8 * n + i)
  have hdiv : (8 * n + i) / 8 = n := by omega
  have hmod : (8 * n + i) % 8 = i := by omega
  simpa [bitAt, hdiv, hmod, hna, hnb] using hbit

end Bits

section Linear

variable {poly}

theorem shift_zero : shift poly 0#w = 0#w := by
  simp [shift]

theorem shift_xor (x y : BitVec w) : shift poly (x ^^^ y) = shift poly x ^^^ shift poly y := by
  apply BitVec.eq_of_getLsbD_eq
  intro i _
  simp only [getLsbD_shift, BitVec.getLsbD_xor]
  cases x.getLsbD 0 <;> cases y.getLsbD 0 <;> cases poly.getLsbD i <;> simp

theorem shift_iterate_zero (n : Nat) : (shift poly)^[n] 0#w = 0#w :=
  Function.iterate_fixed shift_zero n

theorem shift_iterate_xor (n : Nat) (x y : BitVec w) :
    (shift poly)^[n] (x ^^^ y) = (shift poly)^[n] x ^^^ (shift poly)^[n] y := by
  induction n generalizing x y with
  | zero => rfl
  | succ n ih => rw [Function.iterate_succ_apply, shift_xor, ih]; rfl

theorem shift_shiftLeft {x : BitVec w} (h : x.getLsbD (w - 1) = false) :
    shift poly (x <<< 1) = x := by
  apply BitVec.eq_of_getLsbD_eq
  intro i hi
  rw [getLsbD_shift, BitVec.getLsbD_shiftLeft]
  by_cases htop : i + 1 < w
  · simp [htop]
  · have hlast : i = w - 1 := by omega
    simp [hlast, h]

theorem shift_iterate_shiftLeft (n : Nat) {x : BitVec w}
    (h : ∀ i, w ≤ i + n → x.getLsbD i = false) : (shift poly)^[n] (x <<< n) = x := by
  induction n with
  | zero => simp
  | succ n ih =>
    have htop : (x <<< n).getLsbD (w - 1) = false := by
      by_cases hn : w - 1 < n
      · simp [hn]
      · simp [h (w - 1 - n) (by omega)]
    rw [Function.iterate_succ_apply, BitVec.shiftLeft_add, shift_shiftLeft htop]
    exact ih fun i hi => h i (by omega)

/-- Up to `w` bits enter the remainder together. -/
theorem feedBits_eq {bits : List Bool} (hlen : bits.length ≤ w) (x : BitVec w) :
    feedBits poly x bits = (shift poly)^[bits.length] (x ^^^ word w bits) := by
  induction bits generalizing x with
  | nil => simp [feedBits, word]
  | cons b bits ih =>
    have hlen' : bits.length < w := hlen
    have htop : (word w bits).getLsbD (w - 1) = false := by
      rw [getLsbD_word, List.getD_eq_default _ _ (by omega), Bool.and_false]
    have hshift : shift poly (x ^^^ word w (b :: bits)) =
        shift poly (x ^^^ bitWord w b) ^^^ word w bits := by
      rw [word, BitVec.xor_comm (word w bits <<< 1), ← BitVec.xor_assoc, shift_xor,
        shift_shiftLeft htop]
    rw [List.length_cons, Function.iterate_succ_apply, hshift]
    exact ih (by omega) _

theorem word_byteBits (b : UInt8) : word w (byteBits b) = b.toBitVec.setWidth w := by
  apply BitVec.eq_of_getLsbD_eq
  intro i _
  rw [getLsbD_word, getD_byteBits, BitVec.getLsbD_setWidth]

theorem run_eq_feedBits (hw : 8 ≤ w) (x : BitVec w) (bytes : List UInt8) :
    run poly x bytes = feedBits poly x (bitsOf bytes) := by
  induction bytes generalizing x with
  | nil => rfl
  | cons b bytes ih =>
    have hbyte : feed poly x b = feedBits poly x (byteBits b) := by
      rw [feedBits_eq (by rw [length_byteBits]; exact hw), length_byteBits, word_byteBits, feed]
    have hsplit : feedBits poly x (bitsOf (b :: bytes)) =
        feedBits poly (feedBits poly x (byteBits b)) (bitsOf bytes) := by
      rfl
    rw [hsplit, ← hbyte]
    exact ih _

theorem feedBits_xor {a b : List Bool} (hlen : a.length = b.length) (x y : BitVec w) :
    feedBits poly (x ^^^ y) (List.zipWith xor a b) = feedBits poly x a ^^^ feedBits poly y b := by
  induction a generalizing b x y with
  | nil =>
    obtain rfl : b = [] := List.eq_nil_of_length_eq_zero hlen.symm
    rfl
  | cons c a ih =>
    cases b with
    | nil => cases hlen
    | cons d b =>
      have hbit : bitWord w (xor c d) = bitWord w c ^^^ bitWord w d := by
        cases c <;> cases d <;> simp [bitWord]
      have hfeed : feedBit poly (x ^^^ y) (xor c d) = feedBit poly x c ^^^ feedBit poly y d := by
        rw [feedBit, feedBit, feedBit, ← shift_xor, hbit]
        congr 1
        rw [BitVec.xor_assoc, BitVec.xor_assoc, ← BitVec.xor_assoc y, BitVec.xor_comm y,
          BitVec.xor_assoc]
      show feedBits poly (feedBit poly (x ^^^ y) (xor c d)) (List.zipWith xor a b) = _
      rw [hfeed]
      exact ih (Nat.succ.inj hlen) _ _

theorem feedBits_of_forall_false {bits : List Bool} (h : ∀ b ∈ bits, b = false) (x : BitVec w) :
    feedBits poly x bits = (shift poly)^[bits.length] x := by
  induction bits generalizing x with
  | nil => rfl
  | cons b bits ih =>
    have hb : feedBit poly x b = shift poly x := by
      rw [h b List.mem_cons_self, feedBit]
      simp [bitWord]
    rw [feedBits, List.foldl_cons, hb, ← feedBits, ih fun c hc => h c (List.mem_cons_of_mem b hc)]
    rfl

end Linear

section Burst

variable {poly} (hw : 0 < w) (hpoly : poly.getLsbD (w - 1) = true)

include hw hpoly

theorem shift_iterate_ne_zero (n : Nat) {x : BitVec w} (hx : x ≠ 0#w) :
    (shift poly)^[n] x ≠ 0#w := by
  intro h
  have hzero : (shift poly)^[n] 0#w = 0#w := shift_iterate_zero n
  exact hx ((shift_injective hw hpoly).iterate n (h.trans hzero.symm))

/-- The remainder of a burst: zeros keep zero, the burst itself enters as one word, and the zeros
behind it keep what is not zero. -/
theorem feedBits_ne_zero {bits : List Bool} {start : Nat}
    (hburst : ∀ i, bits.getD i false = true → start ≤ i ∧ i < start + w)
    (hne : ∃ i, bits.getD i false = true) : feedBits poly 0#w bits ≠ 0#w := by
  have hfront : ∀ b ∈ bits.take start, b = false := by
    intro b hb
    obtain ⟨i, hi, rfl⟩ := List.mem_iff_getElem.mp hb
    rw [List.length_take] at hi
    by_contra htrue
    have hbit := hburst i (by simpa [show i < bits.length by omega]
      using htrue)
    omega
  have hback : ∀ b ∈ (bits.drop start).drop w, b = false := by
    intro b hb
    obtain ⟨i, hi, rfl⟩ := List.mem_iff_getElem.mp hb
    rw [List.length_drop, List.length_drop] at hi
    rw [List.getElem_drop]
    by_contra htrue
    have hbit := hburst (start + (w + i)) (by
      simpa [show start + (w + i) < bits.length by omega] using htrue)
    omega
  have hmiddle : word w ((bits.drop start).take w) ≠ 0#w := by
    obtain ⟨i, hi⟩ := hne
    obtain ⟨hle, hlt⟩ := hburst i hi
    intro hzero
    have hbit := congrArg (fun x => BitVec.getLsbD x (i - start)) hzero
    simp only [getLsbD_word, BitVec.getLsbD_zero, List.getD_eq_getElem?_getD,
      List.getElem?_take_of_lt (show i - start < w by omega), List.getElem?_drop,
      show start + (i - start) = i by omega] at hbit
    rw [List.getD_eq_getElem?_getD] at hi
    rw [hi, decide_eq_true (show i - start < w by omega)] at hbit
    cases hbit
  have hlen : ((bits.drop start).take w).length ≤ w := by
    rw [List.length_take]
    omega
  have hsplit : bits =
      bits.take start ++ ((bits.drop start).take w ++ (bits.drop start).drop w) := by
    rw [List.take_append_drop, List.take_append_drop]
  rw [hsplit, feedBits, List.foldl_append, List.foldl_append, ← feedBits, ← feedBits, ← feedBits,
    feedBits_of_forall_false hfront, shift_iterate_zero, feedBits_eq hlen, BitVec.zero_xor,
    feedBits_of_forall_false hback]
  exact shift_iterate_ne_zero hw hpoly _ (shift_iterate_ne_zero hw hpoly _ hmiddle)

end Burst

variable {poly}

/-- Two messages that differ only inside `w` consecutive bits have different check values. -/
theorem run_ne_of_burst (hw : 8 ≤ w) (hpoly : poly.getLsbD (w - 1) = true) (x : BitVec w)
    {a b : List UInt8} (hlen : a.length = b.length) (hne : a ≠ b) {start : Nat}
    (hburst : ∀ i, bitAt a i ≠ bitAt b i → start ≤ i ∧ i < start + w) :
    run poly x a ≠ run poly x b := by
  have hbits : (bitsOf a).length = (bitsOf b).length := by
    rw [length_bitsOf, length_bitsOf, hlen]
  have hdiff : ∀ i, (List.zipWith xor (bitsOf a) (bitsOf b)).getD i false =
      xor (bitAt a i) (bitAt b i) := by
    intro i
    rw [← getD_bitsOf, ← getD_bitsOf]
    simp only [List.getD_eq_getElem?_getD, List.getElem?_zipWith]
    by_cases hi : i < (bitsOf a).length
    · simp [hi, hbits ▸ hi]
    · simp [List.getElem?_eq_none (Nat.le_of_not_lt hi),
        List.getElem?_eq_none (hbits ▸ Nat.le_of_not_lt hi)]
  have hzero : x ^^^ x = 0#w := BitVec.xor_self
  have hremainder : feedBits poly 0#w (List.zipWith xor (bitsOf a) (bitsOf b)) ≠ 0#w := by
    have hinside : ∀ i, (List.zipWith xor (bitsOf a) (bitsOf b)).getD i false = true →
        start ≤ i ∧ i < start + w := by
      intro i hi
      rw [hdiff] at hi
      exact hburst i (bne_iff_ne.mp hi)
    refine feedBits_ne_zero (by omega) hpoly hinside ?_
    by_contra hall
    push Not at hall
    refine hne (eq_of_bitAt_eq hlen fun i => ?_)
    have hi := hall i
    rw [hdiff] at hi
    by_contra hbit
    exact hi (bne_iff_ne.mpr hbit)
  intro heq
  rw [run_eq_feedBits hw, run_eq_feedBits hw] at heq
  refine hremainder ?_
  rw [← hzero, feedBits_xor hbits, heq, BitVec.xor_self, hzero]

/-- The remainder after a byte, with the table of the 256 remainders of a byte. -/
theorem feed_eq_table (x : BitVec w) (b : UInt8) :
    feed poly x b =
      (shift poly)^[8] ((x ^^^ b.toBitVec.setWidth w).setWidth 8 |>.setWidth w) ^^^ x >>> 8 := by
  -- The lowest byte goes through the table, the others only move down.
  have hsplit : x ^^^ b.toBitVec.setWidth w =
      ((x ^^^ b.toBitVec.setWidth w).setWidth 8).setWidth w ^^^ (x >>> 8) <<< 8 := by
    apply BitVec.eq_of_getLsbD_eq
    intro i hi
    by_cases hlow : i < 8
    · simp [hlow, hi]
    · have hbyte : b.toBitVec.getLsbD i = false := BitVec.getLsbD_of_ge _ _ (by omega)
      simp [hlow, hi, hbyte, show 8 + (i - 8) = i by omega]
  have hhigh : (shift poly)^[8] ((x >>> 8) <<< 8) = x >>> 8 := by
    apply shift_iterate_shiftLeft
    intro i hi
    rw [BitVec.getLsbD_ushiftRight, BitVec.getLsbD_of_ge _ _ (by omega)]
  rw [feed, hsplit, shift_iterate_xor, hhigh, ← hsplit]

end Crc
