import PowerFS.Net.TlvRecords

namespace PowerFS.Net

/-! The decoder of `powerfs_tlv.c` with everything it reads: a result `none` is a read outside the
buffer, or a search that does not end. Positions and lengths are `size_t`. -/

/-- The sum of two `size_t`. -/
def sizeAdd (a b : Nat) : Nat := (a + b) % 2 ^ 64

theorem sizeAdd_of_lt {a b : Nat} (h : a + b < 2 ^ 64) : sizeAdd a b = a + b :=
  Nat.mod_eq_of_lt h

namespace TlvDec

/-- The bytes `start` to `start + len` of the buffer. -/
def readBytes (d : TlvDec) (start len : Nat) : Option (List UInt8) :=
  if d.buf.length < start + len then none else some (d.value (start, len))

/-- The five bytes of a field header. -/
def readHeader (d : TlvDec) : Option (UInt8 × Nat) :=
  (d.readBytes d.pos 5).map fun _ => (d.buf.getD d.pos 0, d.lengthAt (d.pos + 1))

/-- `dec->pos += len`. -/
def advance (d : TlvDec) (len : Nat) : TlvDec := { d with pos := sizeAdd d.pos len }

end TlvDec

namespace Checked

/-- `powerfs_tlv_dec_next`. -/
def next (d : TlvDec) : Option (Except Errno (UInt8 × Nat) × TlvDec) :=
  if d.buf.length < sizeAdd d.pos 5 then some (.error .enoent, d)
  else d.readHeader.map fun (field, length) =>
    let d' := d.advance 5
    if d.buf.length < sizeAdd d'.pos length then (.error .einval, d') else (.ok (field, length), d')

/-- `powerfs_tlv_dec_read`: start and length of the value, or the null pointer. -/
def read (d : TlvDec) (expectedField : UInt8) (expectedLen : Nat) :
    Option (Option (Nat × Nat) × TlvDec) :=
  if d.buf.length < sizeAdd d.pos 5 then some (none, d)
  else d.readHeader.map fun (field, length) =>
    if d.buf.length < sizeAdd (sizeAdd d.pos 5) length then (none, d)
    else
      let d' := d.advance 5
      if field ≠ expectedField then (none, d'.advance length)
      else if 0 < expectedLen ∧ length ≠ expectedLen then (none, d'.advance length)
      else (some (d'.pos, length), d')

/-- The decoders of integers of `width` bytes. -/
def uint (width : Nat) (d : TlvDec) (field : UInt8) : Option (Except Errno Nat × TlvDec) :=
  match read d field width with
  | none => none
  | some (none, d') => some (.error .enoent, d')
  | some (some (start, _), d') =>
    (d'.readBytes start width).map fun bytes => (.ok (leNat bytes), d'.advance width)

/-- `powerfs_tlv_dec_u8`. -/
def u8 : TlvDec → UInt8 → Option (Except Errno Nat × TlvDec) := uint 1

/-- `powerfs_tlv_dec_u16`. -/
def u16 : TlvDec → UInt8 → Option (Except Errno Nat × TlvDec) := uint 2

/-- `powerfs_tlv_dec_u32`. -/
def u32 : TlvDec → UInt8 → Option (Except Errno Nat × TlvDec) := uint 4

/-- `powerfs_tlv_dec_u64`. -/
def u64 : TlvDec → UInt8 → Option (Except Errno Nat × TlvDec) := uint 8

/-- `powerfs_tlv_dec_string` into a buffer of `maxLen` bytes. -/
def string (d : TlvDec) (field : UInt8) (maxLen : Nat) :
    Option (Except Errno (List UInt8) × TlvDec) :=
  match read d field 0 with
  | none => none
  | some (none, d') => some (.error .enoent, d')
  | some (some (start, length), d') =>
    if maxLen ≤ length then some (.error .e2big, d'.advance length)
    else (d'.readBytes start length).map fun bytes => (.ok bytes, d'.advance length)

/-- `powerfs_tlv_dec_skip`. -/
def skip (d : TlvDec) (length : UInt64) : Except Errno Unit × TlvDec :=
  if d.buf.length < sizeAdd d.pos length.toNat then (.error .einval, d)
  else (.ok (), d.advance length.toNat)

/-- `powerfs_tlv_dec_is_empty`. -/
def isEmpty (d : TlvDec) : Bool := d.buf.length ≤ d.pos

/-- The loop of the `find` functions, with at most `fuel` rounds. -/
def findLoop (field : UInt8) (want : Option Nat) :
    Nat → TlvDec → Option (Option (Nat × Nat) × TlvDec)
  | 0, d => if d.pos < d.buf.length then none else some (none, d)
  | fuel + 1, d =>
    if d.pos < d.buf.length then
      match next d with
      | none => none
      | some (.error _, d') => some (none, d')
      | some (.ok (cur, len), d') =>
        if cur = field ∧ (want = none ∨ want = some len) then
          some (some (d'.pos, len), d'.advance len)
        else findLoop field want fuel (d'.advance len)
    else some (none, d)

/-- The search from the start of the buffer. The position is restored if nothing is found. -/
def find (d : TlvDec) (field : UInt8) (want : Option Nat) :
    Option (Option (Nat × Nat) × TlvDec) :=
  match findLoop field want d.buf.length { d with pos := 0 } with
  | none => none
  | some (none, _) => some (none, d)
  | some (some r, d') => some (some r, d')

/-- The searches for integers of `width` bytes. -/
def findUint (width : Nat) (d : TlvDec) (field : UInt8) : Option (Except Errno Nat × TlvDec) :=
  match find d field (some width) with
  | none => none
  | some (none, d') => some (.error .enoent, d')
  | some (some (start, _), d') =>
    (d.readBytes start width).map fun bytes => (.ok (leNat bytes), d')

/-- `powerfs_tlv_dec_find_u8`. -/
def findU8 : TlvDec → UInt8 → Option (Except Errno Nat × TlvDec) := findUint 1

/-- `powerfs_tlv_dec_find_u32`. -/
def findU32 : TlvDec → UInt8 → Option (Except Errno Nat × TlvDec) := findUint 4

/-- `powerfs_tlv_dec_find_u64`. -/
def findU64 : TlvDec → UInt8 → Option (Except Errno Nat × TlvDec) := findUint 8

/-- `powerfs_tlv_dec_find_raw`: start and length of the value. -/
def findRaw (d : TlvDec) (field : UInt8) : Option (Except Errno (Nat × Nat) × TlvDec) :=
  (find d field none).map fun (r, d') => (r.elim (.error .enoent) .ok, d')

end Checked

inductive DecCall where
  | next
  | u8 (field : UInt8)
  | u16 (field : UInt8)
  | u32 (field : UInt8)
  | u64 (field : UInt8)
  | string (field : UInt8) (maxLen : Nat)
  | skip (length : UInt64)
  | isEmpty
  | findU8 (field : UInt8)
  | findU32 (field : UInt8)
  | findU64 (field : UInt8)
  | findRaw (field : UInt8)

/-- What a successful call hands out: a field id with the place of its value, a number, a copy of
bytes, the place of a value, or nothing. -/
inductive Handed where
  | field (field : UInt8) (start length : Nat)
  | number (n : Nat)
  | copy (bytes : List UInt8)
  | span (start length : Nat)
  | flag (b : Bool)
  | nothing
  deriving DecidableEq

def decExec (d : TlvDec) : DecCall → Option (Except Errno Handed × TlvDec)
  | .next => (Checked.next d).map fun (r, d') =>
      (r.map fun (field, length) => .field field d'.pos length, d')
  | .u8 field => (Checked.u8 d field).map fun (r, d') => (r.map .number, d')
  | .u16 field => (Checked.u16 d field).map fun (r, d') => (r.map .number, d')
  | .u32 field => (Checked.u32 d field).map fun (r, d') => (r.map .number, d')
  | .u64 field => (Checked.u64 d field).map fun (r, d') => (r.map .number, d')
  | .string field maxLen => (Checked.string d field maxLen).map fun (r, d') => (r.map .copy, d')
  | .skip length =>
    let (r, d') := Checked.skip d length
    some (r.map fun _ => .nothing, d')
  | .isEmpty => some (.ok (.flag (Checked.isEmpty d)), d)
  | .findU8 field => (Checked.findU8 d field).map fun (r, d') => (r.map .number, d')
  | .findU32 field => (Checked.findU32 d field).map fun (r, d') => (r.map .number, d')
  | .findU64 field => (Checked.findU64 d field).map fun (r, d') => (r.map .number, d')
  | .findRaw field => (Checked.findRaw d field).map fun (r, d') =>
      (r.map fun (start, length) => .span start length, d')

def decRun : TlvDec → List DecCall → Option (List (Except Errno Handed) × TlvDec)
  | d, [] => some ([], d)
  | d, call :: calls =>
    match decExec d call with
    | none => none
    | some (r, d') => (decRun d' calls).map fun (rs, d'') => (r :: rs, d'')

/-- A place that is handed out lies inside the buffer. -/
def Inside (buf : List UInt8) : Except Errno Handed → Prop
  | .ok (.field _ start length) | .ok (.span start length) => start + length ≤ buf.length
  | _ => True

/-- The position is inside the buffer, which leaves room for a field length above it. -/
structure TlvDec.Valid (d : TlvDec) : Prop where
  pos_le : d.pos ≤ d.buf.length
  room : d.buf.length + 2 ^ 32 ≤ 2 ^ 64

/-- The same buffer, and a position inside it. -/
structure TlvDec.Keeps (d d' : TlvDec) : Prop where
  buf : d'.buf = d.buf
  pos_le : d'.pos ≤ d.buf.length

theorem TlvDec.Valid.keeps {d d' : TlvDec} (h : d.Valid) (hkeeps : d.Keeps d') : d'.Valid :=
  ⟨hkeeps.buf ▸ hkeeps.pos_le, hkeeps.buf ▸ h.room⟩

theorem TlvDec.Keeps.trans {d d' d'' : TlvDec} (h : d.Keeps d') (h' : d'.Keeps d'') :
    d.Keeps d'' :=
  ⟨h'.buf.trans h.buf, h.buf ▸ h'.pos_le⟩

namespace Checked

variable {d : TlvDec}

theorem readBytes_of_le (start len : Nat) (h : start + len ≤ d.buf.length) :
    d.readBytes start len = some (d.value (start, len)) := by
  rw [TlvDec.readBytes, if_neg (by omega)]

theorem readHeader_of_le (h : d.pos + 5 ≤ d.buf.length) :
    d.readHeader = some (d.buf.getD d.pos 0, d.lengthAt (d.pos + 1)) := by
  rw [TlvDec.readHeader, readBytes_of_le _ _ h]
  rfl

theorem lengthAt_lt (d : TlvDec) (pos : Nat) : d.lengthAt pos < 2 ^ 32 :=
  beNat32_lt _ _ _ _

theorem advance_of_le (h : d.Valid) (len : Nat) (hlen : d.pos + len ≤ d.buf.length) :
    d.advance len = { d with pos := d.pos + len } := by
  have hroom := h.room
  rw [TlvDec.advance, sizeAdd_of_lt (by omega)]

theorem next_eq (h : d.Valid) : next d = some d.next := by
  have hpos := h.pos_le
  have hroom := h.room
  have hlength := lengthAt_lt d (d.pos + 1)
  rw [next, TlvDec.next, sizeAdd_of_lt (by omega)]
  split
  · rfl
  · next hfits =>
    have hsum : sizeAdd (d.pos + 5) (d.lengthAt (d.pos + 1)) =
        d.pos + 5 + d.lengthAt (d.pos + 1) := sizeAdd_of_lt (by omega)
    rw [readHeader_of_le (by omega), advance_of_le h _ (by omega)]
    simp only [Option.map_some, hsum]

/-- What `powerfs_tlv_dec_next` can do: the end of the buffer, a field that is cut off, or a
complete one. -/
theorem next_cases (d : TlvDec) :
    d.next = (.error .enoent, d) ∨
    d.pos + 5 ≤ d.buf.length ∧ (d.next = (.error .einval, { d with pos := d.pos + 5 }) ∨
      ∃ field len, d.next = (.ok (field, len), { d with pos := d.pos + 5 }) ∧
        d.pos + 5 + len ≤ d.buf.length) := by
  rw [TlvDec.next]
  split
  · exact .inl rfl
  · next hheader =>
    refine .inr ⟨by omega, ?_⟩
    dsimp only
    generalize d.lengthAt (d.pos + 1) = len
    split
    · exact .inl rfl
    · exact .inr ⟨_, len, rfl, by omega⟩

section

variable (h : d.Valid)
include h

/-- `powerfs_tlv_dec_read` looks at the same header as `powerfs_tlv_dec_next`. -/
theorem read_eq (field : UInt8) (len : Nat) :
    read d field len = some (match d.next.1 with
      | .error _ => (none, d)
      | .ok (cur, length) =>
        if cur ≠ field ∨ 0 < len ∧ length ≠ len then
          (none, { d with pos := d.pos + 5 + length })
        else (some (d.pos + 5, length), { d with pos := d.pos + 5 })) := by
  have hpos := h.pos_le
  have hroom := h.room
  have hlength := lengthAt_lt d (d.pos + 1)
  have hstart : sizeAdd d.pos 5 = d.pos + 5 := sizeAdd_of_lt (by omega)
  rw [read, hstart]
  by_cases hheader : d.buf.length < d.pos + 5
  · have hnext : d.next = (.error .enoent, d) := by rw [TlvDec.next, if_pos hheader]
    rw [if_pos hheader, hnext]
  · have hkeeps : d.Keeps { d with pos := d.pos + 5 } := ⟨rfl, Nat.le_of_not_lt hheader⟩
    have hend : sizeAdd (d.pos + 5) (d.lengthAt (d.pos + 1)) =
        d.pos + 5 + d.lengthAt (d.pos + 1) := sizeAdd_of_lt (by omega)
    rw [if_neg hheader, readHeader_of_le (by omega), advance_of_le h _ (by omega), Option.map_some]
    dsimp only
    rw [hend]
    by_cases hcut : d.buf.length < d.pos + 5 + d.lengthAt (d.pos + 1)
    · have hnext : d.next = (.error .einval, { d with pos := d.pos + 5 }) := by
        rw [TlvDec.next, if_neg hheader]
        exact if_pos hcut
      rw [if_pos hcut, hnext]
    · have hnext : d.next = (.ok (d.buf.getD d.pos 0, d.lengthAt (d.pos + 1)),
          { d with pos := d.pos + 5 }) := by
        rw [TlvDec.next, if_neg hheader]
        exact if_neg hcut
      rw [if_neg hcut, hnext, advance_of_le (h.keeps hkeeps) _ (Nat.le_of_not_lt hcut)]
      dsimp only
      by_cases hfield : d.buf.getD d.pos 0 = field
      · rw [if_neg (not_not.mpr hfield)]
        by_cases hlen : 0 < len ∧ d.lengthAt (d.pos + 1) ≠ len
        · rw [if_pos hlen, if_pos (.inr hlen)]
        · rw [if_neg hlen, if_neg (not_or.mpr ⟨not_not.mpr hfield, hlen⟩)]
      · rw [if_pos hfield, if_pos (.inl hfield)]

/-- The value that `powerfs_tlv_dec_read` hands out is at the new position, inside the buffer. -/
theorem read_keeps (field : UInt8) (len : Nat) :
    ∃ r d', read d field len = some (r, d') ∧ d.Keeps d' ∧
      ∀ p ∈ r, p.1 = d'.pos ∧ p.1 + p.2 ≤ d.buf.length ∧ (0 < len → p.2 = len) := by
  rw [read_eq h]
  obtain hnext | ⟨hheader, hnext | ⟨cur, length, hnext, hle⟩⟩ := next_cases d
  · rw [hnext]
    exact ⟨none, d, rfl, ⟨rfl, h.pos_le⟩, nofun⟩
  · rw [hnext]
    exact ⟨none, d, rfl, ⟨rfl, h.pos_le⟩, nofun⟩
  · rw [hnext]
    dsimp only
    split
    · exact ⟨none, _, rfl, ⟨rfl, hle⟩, nofun⟩
    · next hwanted =>
      refine ⟨some (d.pos + 5, length), _, rfl, ⟨rfl, hheader⟩, ?_⟩
      rintro _ ⟨⟩
      refine ⟨rfl, hle, fun hlen => ?_⟩
      by_contra hne
      exact hwanted (.inr ⟨hlen, hne⟩)

theorem uint_keeps (field : UInt8) {width : Nat} (hwidth : 0 < width) :
    ∃ r d', uint width d field = some (r, d') ∧ d.Keeps d' := by
  obtain ⟨r, d', hread, hkeeps, hvalue⟩ := read_keeps h field width
  rw [uint, hread]
  cases r with
  | none => exact ⟨_, d', rfl, hkeeps⟩
  | some p =>
    obtain ⟨hstart, hinside, hlen⟩ := hvalue p rfl
    have hle : d'.pos + width ≤ d'.buf.length := by
      rw [hkeeps.buf, ← hlen hwidth, ← hstart]
      exact hinside
    refine ⟨.ok (leNat (d'.value (p.1, width))), d'.advance width, ?_, ?_⟩
    · simp only [readBytes_of_le (d := d') p.1 width (by omega)]
      rfl
    · rw [advance_of_le (h.keeps hkeeps) _ hle]
      exact hkeeps.trans ⟨rfl, hle⟩

theorem string_keeps (field : UInt8) (maxLen : Nat) :
    ∃ r d', string d field maxLen = some (r, d') ∧ d.Keeps d' := by
  obtain ⟨r, d', hread, hkeeps, hvalue⟩ := read_keeps h field 0
  rw [string, hread]
  cases r with
  | none => exact ⟨_, d', rfl, hkeeps⟩
  | some p =>
    obtain ⟨hstart, hinside, _⟩ := hvalue p rfl
    have hle : d'.pos + p.2 ≤ d'.buf.length := by
      rw [hkeeps.buf, ← hstart]
      exact hinside
    have hpast : d.Keeps (d'.advance p.2) := by
      rw [advance_of_le (h.keeps hkeeps) _ hle]
      exact hkeeps.trans ⟨rfl, hle⟩
    dsimp only
    split
    · exact ⟨_, _, rfl, hpast⟩
    · rw [readBytes_of_le (d := d') p.1 p.2 (by omega)]
      exact ⟨_, _, rfl, hpast⟩

/-- A `size_t` sum that wraps around can only move the position back. -/
theorem skip_keeps (length : UInt64) : d.Keeps (skip d length).2 := by
  rw [skip]
  split
  · exact ⟨rfl, h.pos_le⟩
  · next hle => exact ⟨rfl, by show sizeAdd _ _ ≤ _; omega⟩

/-- The search ends, reads inside the buffer and finds what the unchecked one finds; the position is
then behind the value. -/
theorem findLoop_keeps (field : UInt8) (want : Option Nat) (fuel : Nat)
    (hfuel : d.buf.length ≤ d.pos + fuel) :
    ∃ d', findLoop field want fuel d = some (TlvDec.findLoop field want fuel d, d') ∧
      d.Keeps d' ∧ ∀ p ∈ TlvDec.findLoop field want fuel d,
        d'.pos = p.1 + p.2 ∧ ∀ len ∈ want, p.2 = len := by
  induction fuel generalizing d with
  | zero =>
    refine ⟨d, ?_, ⟨rfl, h.pos_le⟩, fun _ hp => by cases hp⟩
    rw [findLoop, if_neg (by omega)]
    rfl
  | succ fuel ih =>
    rw [findLoop, TlvDec.findLoop]
    split
    · rw [next_eq h]
      obtain hnext | ⟨hheader, hnext | ⟨cur, len, hnext, hle⟩⟩ := next_cases d
      · rw [hnext]
        exact ⟨d, rfl, ⟨rfl, h.pos_le⟩, fun _ hp => by cases hp⟩
      · rw [hnext]
        exact ⟨_, rfl, ⟨rfl, hheader⟩, fun _ hp => by cases hp⟩
      · rw [hnext]
        have hkeeps : d.Keeps { d with pos := d.pos + 5 } := ⟨rfl, hheader⟩
        have hpast : d.Keeps { d with pos := d.pos + 5 + len } := ⟨rfl, hle⟩
        simp only [advance_of_le (h.keeps hkeeps) len hle]
        split
        · next hfound =>
          refine ⟨_, rfl, hpast, ?_⟩
          rintro _ ⟨⟩
          refine ⟨rfl, fun want hwant => ?_⟩
          obtain hnone | hsome := hfound.2
          · rw [hnone] at hwant
            cases hwant
          · rw [hsome] at hwant
            exact Option.some.inj hwant
        · have hrest := ih (h.keeps hpast) (by show d.buf.length ≤ d.pos + 5 + len + fuel; omega)
          obtain ⟨d', hrun, hkeeps', hvalue⟩ := hrest
          exact ⟨d', hrun, hpast.trans hkeeps', hvalue⟩
    · exact ⟨d, rfl, ⟨rfl, h.pos_le⟩, fun _ hp => by cases hp⟩

/-- The place that a search has found lies inside the buffer, and ends where it leaves the
position; otherwise the position is unchanged. -/
theorem find_keeps (field : UInt8) (want : Option Nat) :
    ∃ d', find d field want = some (d.find field want, d') ∧ d.Keeps d' ∧
      (d.find field want = none → d' = d) ∧
      ∀ p ∈ d.find field want, p.1 + p.2 ≤ d.buf.length ∧ ∀ len ∈ want, p.2 = len := by
  have hzero : TlvDec.Valid { d with pos := 0 } := ⟨Nat.zero_le _, h.room⟩
  obtain ⟨d', hrun, hkeeps, hvalue⟩ :=
    findLoop_keeps hzero field want d.buf.length (by show d.buf.length ≤ 0 + _; omega)
  replace hkeeps : d.Keeps d' := ⟨hkeeps.buf, hkeeps.pos_le⟩
  rw [find, hrun]
  cases hfind : d.find field want with rw [TlvDec.find] at hfind
  | none =>
    rw [hfind]
    exact ⟨d, rfl, ⟨rfl, h.pos_le⟩, fun _ => rfl, nofun⟩
  | some p =>
    rw [hfind] at hvalue ⊢
    obtain ⟨hend, hlen⟩ := hvalue p rfl
    refine ⟨d', rfl, hkeeps, nofun, ?_⟩
    rintro _ ⟨⟩
    exact ⟨hend ▸ hkeeps.pos_le, hlen⟩

theorem findUint_keeps (width : Nat) (field : UInt8) :
    ∃ d', findUint width d field =
        some (match d.find field (some width) with
          | none => .error .enoent
          | some p => .ok (leNat (d.value p)), d') ∧
      d.Keeps d' ∧ (d.find field (some width) = none → d' = d) := by
  obtain ⟨d', hrun, hkeeps, hnone, hvalue⟩ := find_keeps h field (some width)
  refine ⟨d', ?_, hkeeps, hnone⟩
  rw [findUint, hrun]
  cases hfind : d.find field (some width) with
  | none => rfl
  | some p =>
    obtain ⟨hinside, hlen⟩ := hvalue p hfind
    have hp : p = (p.1, width) := by rw [← hlen width rfl]
    rw [hp]
    simp only [readBytes_of_le (d := d) p.1 width
      (by rw [← hlen width rfl]; exact hinside)]
    rfl

end

end Checked

/-- Every call reads inside the buffer, ends, keeps the position inside the buffer, and hands out
only places inside it. -/
theorem decExec_safe {d : TlvDec} (h : d.Valid) (call : DecCall) :
    ∃ r d', decExec d call = some (r, d') ∧ d.Keeps d' ∧ Inside d.buf r := by
  have hkept : ∀ {α : Type} (g : α → Handed) {f : Option (Except Errno α × TlvDec)},
      (∃ r d', f = some (r, d') ∧ d.Keeps d') → (∀ a, Inside d.buf (.ok (g a))) →
      ∃ r d', f.map (fun p => (p.1.map g, p.2)) = some (r, d') ∧ d.Keeps d' ∧ Inside d.buf r := by
    rintro α g _ ⟨r, d', rfl, hkeeps⟩ hinside
    refine ⟨_, _, rfl, hkeeps, ?_⟩
    cases r with
    | error => trivial
    | ok a => exact hinside a
  cases call with
  | next =>
    rw [decExec, Checked.next_eq h]
    obtain hnext | ⟨hheader, hnext | ⟨cur, len, hnext, hle⟩⟩ := Checked.next_cases d
    · rw [hnext]
      exact ⟨_, _, rfl, ⟨rfl, h.pos_le⟩, trivial⟩
    · rw [hnext]
      exact ⟨_, _, rfl, ⟨rfl, hheader⟩, trivial⟩
    · rw [hnext]
      exact ⟨_, _, rfl, ⟨rfl, hheader⟩, hle⟩
  | u8 field | u16 field | u32 field | u64 field =>
    exact hkept .number (Checked.uint_keeps h field (by decide)) fun _ => trivial
  | string field maxLen =>
    exact hkept .copy (Checked.string_keeps h field maxLen) fun _ => trivial
  | skip length =>
    refine hkept (fun _ => .nothing) (f := some (Checked.skip d length)) ?_ fun _ => trivial
    exact ⟨_, _, rfl, Checked.skip_keeps h length⟩
  | isEmpty => exact ⟨_, d, rfl, ⟨rfl, h.pos_le⟩, trivial⟩
  | findU8 field =>
    obtain ⟨d', hrun, hkeeps, _⟩ := Checked.findUint_keeps h 1 field
    exact hkept .number ⟨_, d', hrun, hkeeps⟩ fun _ => trivial
  | findU32 field =>
    obtain ⟨d', hrun, hkeeps, _⟩ := Checked.findUint_keeps h 4 field
    exact hkept .number ⟨_, d', hrun, hkeeps⟩ fun _ => trivial
  | findU64 field =>
    obtain ⟨d', hrun, hkeeps, _⟩ := Checked.findUint_keeps h 8 field
    exact hkept .number ⟨_, d', hrun, hkeeps⟩ fun _ => trivial
  | findRaw field =>
    obtain ⟨d', hrun, hkeeps, _, hvalue⟩ := Checked.find_keeps h field none
    rw [decExec, Checked.findRaw, hrun]
    refine ⟨_, d', rfl, hkeeps, ?_⟩
    cases hfind : d.find field none with
    | none => trivial
    | some p => exact (hvalue p hfind).1

theorem decRun_keeps {d : TlvDec} (h : d.Valid) (calls : List DecCall) :
    ∃ rs d', decRun d calls = some (rs, d') ∧ d.Keeps d' ∧ ∀ r ∈ rs, Inside d.buf r := by
  induction calls generalizing d with
  | nil => exact ⟨[], d, rfl, ⟨rfl, h.pos_le⟩, nofun⟩
  | cons call calls ih =>
    obtain ⟨r, d₁, hexec, hkeeps, hinside⟩ := decExec_safe h call
    obtain ⟨rs, d₂, hrun, hkeeps', hinside'⟩ := ih (h.keeps hkeeps)
    refine ⟨r :: rs, d₂, ?_, hkeeps.trans hkeeps', ?_⟩
    · rw [decRun, hexec]
      simp only [hrun, Option.map_some]
    · intro r' hr'
      obtain rfl | hr' := List.mem_cons.mp hr'
      · exact hinside
      · rw [← hkeeps.buf]
        exact hinside' r' hr'

/-- On every byte string and for every sequence of calls: no call reads outside the buffer, every
search ends, and the position and everything handed out are inside the buffer. -/
theorem decRun_inside (buf : List UInt8) (hroom : buf.length + 2 ^ 32 ≤ 2 ^ 64)
    (calls : List DecCall) :
    ∃ rs d, decRun (.init buf) calls = some (rs, d) ∧ d.buf = buf ∧ d.pos ≤ buf.length ∧
      ∀ r ∈ rs, Inside buf r := by
  have hvalid : (TlvDec.init buf).Valid := ⟨Nat.zero_le _, hroom⟩
  obtain ⟨rs, d, hrun, hkeeps, hinside⟩ := decRun_keeps hvalid calls
  exact ⟨rs, d, hrun, hkeeps.buf, hkeeps.pos_le, hinside⟩

/-- A field with a length beyond the end, after a complete one; the position goes back by a skip of
almost `2 ^ 64`. -/
theorem decRun_inside_cutOff : ∃ rs d,
    decRun (.init [1, 0, 0, 0, 1, 7, 2, 0xff, 0xff, 0xff, 0xff])
      [.next, .skip 1, .next, .u8 2, .skip (-5), .findRaw 2, .findU8 1] = some (rs, d) ∧
    d.pos ≤ 11 ∧ ∀ r ∈ rs, Inside [1, 0, 0, 0, 1, 7, 2, 0xff, 0xff, 0xff, 0xff] r := by
  obtain ⟨rs, d, hrun, _, hpos, hinside⟩ :=
    decRun_inside [1, 0, 0, 0, 1, 7, 2, 0xff, 0xff, 0xff, 0xff] (by decide)
      [.next, .skip 1, .next, .u8 2, .skip (-5), .findRaw 2, .findU8 1]
  exact ⟨rs, d, hrun, hpos, hinside⟩

end PowerFS.Net
