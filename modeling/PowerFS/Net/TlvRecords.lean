import PowerFS.Lib.Records
import PowerFS.Net.TlvField

namespace PowerFS.Net

/-! A TLV buffer as a stream of records (field id and value), and the search functions of the
decoder as searches in the list of its records. -/

/-- A big endian number of four bytes. -/
def beNat32 (b₀ b₁ b₂ b₃ : UInt8) : Nat :=
  b₀.toNat * 2 ^ 24 + b₁.toNat * 2 ^ 16 + b₂.toNat * 2 ^ 8 + b₃.toNat

/-- One complete field off the front of a stream. -/
def readField : List UInt8 → Option ((UInt8 × List UInt8) × List UInt8)
  | field :: b₀ :: b₁ :: b₂ :: b₃ :: rest =>
    let length := beNat32 b₀ b₁ b₂ b₃
    if rest.length < length then none
    else some ((field, rest.take length), rest.drop length)
  | _ => none

theorem beNat32_lt (b₀ b₁ b₂ b₃ : UInt8) : beNat32 b₀ b₁ b₂ b₃ < 2 ^ 32 := by
  have h₀ := b₀.toNat_lt
  have h₁ := b₁.toNat_lt
  have h₂ := b₂.toNat_lt
  have h₃ := b₃.toNat_lt
  simp only [beNat32]
  omega

theorem be32_beNat32 (b₀ b₁ b₂ b₃ : UInt8) : be32 (beNat32 b₀ b₁ b₂ b₃) = [b₀, b₁, b₂, b₃] := by
  have h₀ := b₀.toNat_lt
  have h₁ := b₁.toNat_lt
  have h₂ := b₂.toNat_lt
  have h₃ := b₃.toNat_lt
  simp only [be32, beNat32, List.cons.injEq, and_true, ← UInt8.toNat_inj, UInt8.toNat_ofNat']
  omega

theorem beNat32_ofNat {n : Nat} (h : n < 2 ^ 32) :
    beNat32 (UInt8.ofNat (n / 2 ^ 24)) (UInt8.ofNat (n / 2 ^ 16)) (UInt8.ofNat (n / 2 ^ 8))
      (UInt8.ofNat n) = n := by
  simp only [beNat32, UInt8.toNat_ofNat']
  omega

theorem readField_tlvField (field : UInt8) {v : List UInt8} (h : v.length < 2 ^ 32)
    (rest : List UInt8) : readField (tlvField field v ++ rest) = some ((field, v), rest) := by
  simp only [tlvField, be32, List.cons_append, List.nil_append, readField, beNat32_ofNat h]
  rw [if_neg (by simp), List.take_left, List.drop_left]

theorem readField_eq_some {s rest v : List UInt8} {field : UInt8}
    (h : readField s = some ((field, v), rest)) :
    s = tlvField field v ++ rest ∧ v.length < 2 ^ 32 := by
  unfold readField at h
  split at h <;> try cases h
  next b₀ b₁ b₂ b₃ tail =>
  dsimp only at h
  split at h
  · cases h
  · next hfits =>
    obtain ⟨⟨rfl, rfl⟩, rfl⟩ := h
    have hlength : (tail.take (beNat32 b₀ b₁ b₂ b₃)).length = beNat32 b₀ b₁ b₂ b₃ := by
      rw [List.length_take]
      omega
    constructor
    · rw [tlvField, hlength, be32_beNat32, List.cons_append, List.append_assoc,
        List.take_append_drop]
      rfl
    · rw [hlength]
      exact beNat32_lt b₀ b₁ b₂ b₃

/-- The TLV format: a value is shorter than `2 ^ 32` bytes. -/
def tlv : Records.Format (UInt8 × List UInt8) UInt8 where
  write r := tlvField r.1 r.2
  read := readField
  Fits r := r.2.length < 2 ^ 32
  write_ne_nil _ := List.cons_ne_nil _ _
  read_write {r} h rest := readField_tlvField r.1 h rest
  eq_write_of_read h := (readField_eq_some h).1
  fits_of_read h := (readField_eq_some h).2

theorem readField_of_length_lt {s : List UInt8} (h : s.length < 5) : readField s = none := by
  match s, h with
  | [], _ | [_], _ | [_, _], _ | [_, _, _], _ | [_, _, _, _], _ => rfl

theorem readField_cut (field : UInt8) {n : Nat} (hn : n < 2 ^ 32) {more : List UInt8}
    (hmore : more.length < n) : readField (field :: be32 n ++ more) = none := by
  simp only [be32, List.cons_append, List.nil_append, readField, beNat32_ofNat hn, if_pos hmore]

namespace TlvDec

@[simp] theorem buf_init (buf : List UInt8) : (init buf).buf = buf := rfl

variable {d : TlvDec} {field : UInt8} {want : Option Nat}

theorem lengthAt_eq {field b₀ b₁ b₂ b₃ : UInt8} {tail : List UInt8}
    (h : d.buf.drop d.pos = field :: b₀ :: b₁ :: b₂ :: b₃ :: tail) :
    d.lengthAt (d.pos + 1) = beNat32 b₀ b₁ b₂ b₃ := by
  have hget : ∀ i, d.buf.getD (d.pos + i) 0 = (d.buf.drop d.pos).getD i 0 := by
    intro i
    simp [List.getD_eq_getElem?_getD]
  simp only [lengthAt, Nat.add_assoc, hget, h, List.getD_cons_succ, List.getD_cons_zero, beNat32]

theorem next_of_read {r : UInt8 × List UInt8} {rest : List UInt8}
    (h : tlv.read (d.buf.drop d.pos) = some (r, rest)) :
    d.next = (.ok (r.1, r.2.length), { d with pos := d.pos + 5 }) ∧
      d.value (d.pos + 5, r.2.length) = r.2 ∧ d.buf.drop (d.pos + 5 + r.2.length) = rest := by
  obtain ⟨hs, hfits⟩ := readField_eq_some h
  have hlen : d.buf.length = d.pos + 5 + r.2.length + rest.length := by
    have hdrop := congrArg List.length hs
    rw [List.length_drop, List.length_append, length_tlvField] at hdrop
    omega
  have hbytes : d.buf.drop d.pos = r.1 :: UInt8.ofNat (r.2.length / 2 ^ 24) ::
      UInt8.ofNat (r.2.length / 2 ^ 16) :: UInt8.ofNat (r.2.length / 2 ^ 8) ::
      UInt8.ofNat r.2.length :: (r.2 ++ rest) := hs
  have hlength : d.lengthAt (d.pos + 1) = r.2.length :=
    (lengthAt_eq hbytes).trans (beNat32_ofNat hfits)
  have hfield : d.buf.getD d.pos 0 = r.1 := by
    have hget : d.buf.getD d.pos 0 = (d.buf.drop d.pos).getD 0 0 := by
      simp [List.getD_eq_getElem?_getD]
    rw [hget, hbytes]
    rfl
  have hvalue : d.buf.drop (d.pos + 5) = r.2 ++ rest := by
    rw [← List.drop_drop, hbytes]
    rfl
  refine ⟨?_, ?_, ?_⟩
  · rw [next, if_neg (by omega)]
    simp only [hlength, hfield]
    rw [if_neg (by omega)]
  · rw [value, hvalue, List.take_left]
  · rw [← List.drop_drop, hvalue, List.drop_left]

theorem next_of_read_none (h : tlv.read (d.buf.drop d.pos) = none) :
    ∃ err d', d.next = (.error err, d') := by
  by_cases hshort : d.buf.length < d.pos + 5
  · exact ⟨_, _, by rw [next, if_pos hshort]⟩
  · have hlen : 5 ≤ (d.buf.drop d.pos).length := by
      rw [List.length_drop]
      omega
    obtain ⟨f, b₀, b₁, b₂, b₃, tail, hbytes⟩ : ∃ f b₀ b₁ b₂ b₃ tail,
        d.buf.drop d.pos = f :: b₀ :: b₁ :: b₂ :: b₃ :: tail := by
      match d.buf.drop d.pos, hlen with
      | f :: b₀ :: b₁ :: b₂ :: b₃ :: tail, _ => exact ⟨f, b₀, b₁, b₂, b₃, tail, rfl⟩
    have hcut : tail.length < beNat32 b₀ b₁ b₂ b₃ := by
      change readField _ = none at h
      rw [hbytes] at h
      simp only [readField] at h
      split at h
      · assumption
      · cases h
    have htail : (d.buf.drop d.pos).length = tail.length + 5 := by
      rw [hbytes]
      rfl
    rw [List.length_drop] at htail
    refine ⟨.einval, { d with pos := d.pos + 5 }, ?_⟩
    rw [next, if_neg hshort]
    simp only [lengthAt_eq hbytes]
    rw [if_pos (by omega)]

def wanted (field : UInt8) (want : Option Nat) (r : UInt8 × List UInt8) : Bool :=
  r.1 = field ∧ (want = none ∨ want = some r.2.length)

theorem findLoop_eq {fuel : Nat} {pos : Nat} (hfuel : d.buf.length ≤ pos + fuel) :
    (findLoop field want fuel { d with pos := pos }).map d.value =
      ((tlv.split (d.buf.drop pos)).1.find? (wanted field want)).map Prod.snd := by
  -- Every round reads one record, or ends the search.
  induction fuel generalizing pos with
  | zero =>
    rw [List.drop_eq_nil_of_le (by omega)]
    rfl
  | succ fuel ih =>
    rw [findLoop]
    by_cases hpos : pos < d.buf.length
    · rw [if_pos hpos]
      cases hread : tlv.read (d.buf.drop pos) with
      | none =>
        obtain ⟨err, d', hnext⟩ := next_of_read_none (d := { d with pos := pos }) hread
        rw [hnext, Records.Format.split_of_read_none hread]
        rfl
      | some r =>
        obtain ⟨r, rest⟩ := r
        obtain ⟨hnext, hvalue, hrest⟩ := next_of_read (d := { d with pos := pos }) hread
        rw [hnext, Records.Format.split_of_read hread]
        by_cases hw : r.1 = field ∧ (want = none ∨ want = some r.2.length)
        · have hwanted : wanted field want r = true := decide_eq_true hw
          simp only [if_pos hw, List.find?_cons, hwanted]
          exact congrArg some hvalue
        · have hwanted : wanted field want r = false := decide_eq_false hw
          simp only [if_neg hw, List.find?_cons, hwanted]
          rw [← hrest]
          exact ih (by omega)
    · rw [if_neg hpos, List.drop_eq_nil_of_le (by omega)]
      rfl

theorem find_eq (d : TlvDec) (field : UInt8) (want : Option Nat) :
    (d.find field want).map d.value =
      ((tlv.split d.buf).1.find? (wanted field want)).map Prod.snd :=
  findLoop_eq (by omega)

end TlvDec

end PowerFS.Net
