import PowerFS.Net.TlvDecode
import PowerFS.Net.TlvEncode

namespace PowerFS.Net

/-! What the TLV encoder writes, the decoder reads back: in order with the decoder of each type, and
in any order with the search functions. -/

inductive TlvValue where
  | u8 (val : UInt8)
  | u16 (val : UInt16)
  | u32 (val : UInt32)
  | u64 (val : UInt64)
  | string (v : List UInt8)
  | bytes (v : List UInt8)
  deriving DecidableEq

/-- What a reader asks for; a string is copied to a buffer of `maxLen` bytes. -/
inductive TlvType where
  | u8 | u16 | u32 | u64 | string (maxLen : Nat) | bytes

namespace TlvValue

def encoded : TlvValue → List UInt8
  | .u8 val => [val]
  | .u16 val => leBytes 2 val.toNat
  | .u32 val => leBytes 4 val.toNat
  | .u64 val => leBytes 8 val.toNat
  | .string v | .bytes v => v

def type (maxLen : Nat) : TlvValue → TlvType
  | .u8 _ => .u8
  | .u16 _ => .u16
  | .u32 _ => .u32
  | .u64 _ => .u64
  | .string _ => .string maxLen
  | .bytes _ => .bytes

/-- A string fits in the reader's buffer, with the zero byte behind it. -/
def fitsIn (maxLen : Nat) : TlvValue → Bool
  | .string v => v.length < maxLen
  | _ => true

def call (field : UInt8) : TlvValue → EncCall
  | .u8 val => .u8 field val
  | .u16 val => .u16 field val
  | .u32 val => .u32 field val
  | .u64 val => .u64 field val
  | .string v => .string field (.bytes v)
  | .bytes v => .bytes field (.bytes v)

theorem call_payload (field : UInt8) (v : TlvValue) :
    (v.call field).payload = .bytes v.encoded := by
  cases v <;> rfl

theorem call_field (field : UInt8) (v : TlvValue) : (v.call field).field = field := by
  cases v <;> rfl

end TlvValue

def encRun : TlvEnc → List EncCall → List (Except Errno Unit) × TlvEnc
  | e, [] => ([], e)
  | e, c :: cs =>
    let (r, e') := encExec e c
    let (rs, e'') := encRun e' cs
    (r :: rs, e'')

/-- How callers read a byte string: `powerfs_tlv_dec_next`, the bytes at the position, and
`powerfs_tlv_dec_skip`. -/
def decodeBytes (d : TlvDec) (field : UInt8) : Option (Except Errno (List UInt8) × TlvDec) :=
  match Checked.next d with
  | none => none
  | some (.error err, d') => some (.error err, d')
  | some (.ok (cur, len), d') =>
    if cur ≠ field then some (.error .enoent, d')
    else (d'.readBytes d'.pos len).map fun v =>
      let (r, d'') := Checked.skip d' (UInt64.ofNat len)
      (r.map fun _ => v, d'')

def decodeAs (d : TlvDec) (field : UInt8) : TlvType → Option (Except Errno TlvValue × TlvDec)
  | .u8 => (Checked.u8 d field).map fun (r, d') => (r.map fun n => .u8 (UInt8.ofNat n), d')
  | .u16 => (Checked.u16 d field).map fun (r, d') => (r.map fun n => .u16 (UInt16.ofNat n), d')
  | .u32 => (Checked.u32 d field).map fun (r, d') => (r.map fun n => .u32 (UInt32.ofNat n), d')
  | .u64 => (Checked.u64 d field).map fun (r, d') => (r.map fun n => .u64 (UInt64.ofNat n), d')
  | .string maxLen => (Checked.string d field maxLen).map fun (r, d') => (r.map .string, d')
  | .bytes => (decodeBytes d field).map fun (r, d') => (r.map .bytes, d')

def decodeAll : TlvDec → List (UInt8 × TlvType) →
    Option (List (Except Errno TlvValue) × TlvDec)
  | d, [] => some ([], d)
  | d, (field, type) :: rest =>
    match decodeAs d field type with
    | none => none
    | some (r, d') => (decodeAll d' rest).map fun (rs, d'') => (r :: rs, d'')

theorem leBytes_succ (width n : Nat) :
    leBytes (width + 1) n = UInt8.ofNat n :: leBytes width (n / 256) := by
  simp only [leBytes, List.range_succ_eq_map, List.map_cons, List.map_map, Nat.pow_zero,
    Nat.div_one]
  congr 2
  funext i
  simp only [Function.comp_apply, Nat.div_div_eq_div_mul, Nat.pow_succ, Nat.mul_comm]

theorem leNat_leBytes (width n : Nat) : leNat (leBytes width n) = n % 256 ^ width := by
  induction width generalizing n with
  | zero => simp [leBytes, leNat, Nat.mod_one]
  | succ width ih =>
    rw [leBytes_succ, leNat, ih, UInt8.toNat_ofNat', Nat.pow_succ' (n := width), Nat.mod_mul]

variable {width n : Nat}

theorem leNat_leBytes_of_lt (h : n < 256 ^ width) :
    leNat (leBytes width n) = n := by
  rw [leNat_leBytes, Nat.mod_eq_of_lt h]

variable {maxLen : Nat}

section Decode

variable {d : TlvDec} {field : UInt8} {v rest : List UInt8}

theorem pos_le_of_read (h : tlv.read (d.buf.drop d.pos) = some ((field, v), rest)) :
    d.pos + 5 + v.length ≤ d.buf.length := by
  have hlen := congrArg List.length (readField_eq_some h).1
  rw [List.length_drop, List.length_append, length_tlvField] at hlen
  omega

section

variable (hd : d.Valid) (h : tlv.read (d.buf.drop d.pos) = some ((field, v), rest))
include hd h

theorem Checked.read_of_read (len : Nat) (hlen : 0 < len → v.length = len) :
    Checked.read d field len = some (some (d.pos + 5, v.length), { d with pos := d.pos + 5 }) := by
  obtain ⟨hnext, _, _⟩ := TlvDec.next_of_read h
  rw [Checked.read_eq hd, hnext]
  dsimp only
  rw [if_neg]
  rintro (hne | ⟨hpos, hne⟩)
  · exact hne rfl
  · exact hne (hlen hpos)

theorem valid_behind :
    TlvDec.Valid { d with pos := d.pos + 5 } ∧
      TlvDec.advance { d with pos := d.pos + 5 } v.length =
        { d with pos := d.pos + 5 + v.length } := by
  have hle := pos_le_of_read h
  have hvalid : TlvDec.Valid { d with pos := d.pos + 5 } :=
    ⟨by show d.pos + 5 ≤ d.buf.length; omega, hd.room⟩
  exact ⟨hvalid, Checked.advance_of_le hvalid _ hle⟩

theorem uint_of_read :
    Checked.uint v.length d field =
      some (.ok (leNat v), { d with pos := d.pos + 5 + v.length }) := by
  obtain ⟨_, hvalue, _⟩ := TlvDec.next_of_read h
  obtain ⟨_, hpast⟩ := valid_behind hd h
  have hle := pos_le_of_read h
  rw [Checked.uint, Checked.read_of_read hd h _ fun _ => rfl]
  dsimp only
  rw [Checked.readBytes_of_le (d := { d with pos := d.pos + 5 }) _ _ hle, hpast]
  show some (Except.ok (leNat (d.value (d.pos + 5, v.length))), _) = _
  rw [hvalue]

theorem string_of_read (hmax : v.length < maxLen) :
    Checked.string d field maxLen =
      some (.ok v, { d with pos := d.pos + 5 + v.length }) := by
  obtain ⟨_, hvalue, _⟩ := TlvDec.next_of_read h
  obtain ⟨_, hpast⟩ := valid_behind hd h
  have hle := pos_le_of_read h
  rw [Checked.string, Checked.read_of_read hd h 0 (by simp)]
  dsimp only
  rw [if_neg (by omega),
    Checked.readBytes_of_le (d := { d with pos := d.pos + 5 }) _ _ hle, hpast]
  show some (Except.ok (d.value (d.pos + 5, v.length)), _) = _
  rw [hvalue]

theorem decodeBytes_of_read :
    decodeBytes d field = some (.ok v, { d with pos := d.pos + 5 + v.length }) := by
  obtain ⟨hnext, hvalue, _⟩ := TlvDec.next_of_read h
  obtain ⟨_, hpast⟩ := valid_behind hd h
  have hle := pos_le_of_read h
  have hroom := hd.room
  have hsize : (UInt64.ofNat v.length).toNat = v.length :=
    UInt64.toNat_ofNat_of_lt' (by show v.length < 2 ^ 64; omega)
  have hskip : Checked.skip { d with pos := d.pos + 5 } (UInt64.ofNat v.length) =
      (.ok (), { d with pos := d.pos + 5 + v.length }) := by
    rw [Checked.skip, hsize, hpast, sizeAdd_of_lt (by show d.pos + 5 + v.length < _; omega)]
    exact if_neg (by show ¬ d.buf.length < d.pos + 5 + v.length; omega)
  rw [decodeBytes, Checked.next_eq hd, hnext]
  dsimp only
  rw [if_neg (not_not.mpr rfl), Checked.readBytes_of_le (d := { d with pos := d.pos + 5 }) _ _ hle,
    hskip]
  show some (Except.ok (d.value (d.pos + 5, v.length)), _) = _
  rw [hvalue]

end

/-- The decoder of `width` bytes inverts the little endian encoding. -/
theorem uint_of_leBytes (hd : d.Valid) (hn : n < 256 ^ width)
    (h : tlv.read (d.buf.drop d.pos) = some ((field, leBytes width n), rest)) :
    Checked.uint width d field = some (.ok n, { d with pos := d.pos + 5 + width }) := by
  have hrun := uint_of_read hd h
  rw [length_leBytes, leNat_leBytes_of_lt hn] at hrun
  exact hrun

theorem decodeAs_of_read {d : TlvDec} (hd : d.Valid) {field : UInt8} {v : TlvValue}
    {rest : List UInt8} (h : tlv.read (d.buf.drop d.pos) = some ((field, v.encoded), rest))
    (hmax : v.fitsIn maxLen) :
    decodeAs d field (v.type maxLen) =
      some (.ok v, { d with pos := d.pos + 5 + v.encoded.length }) := by
  cases v with
  | u8 val =>
    have hval : UInt8.ofNat (leNat [val]) = val := by simp [leNat]
    have hrun := uint_of_read hd h
    simp only [TlvValue.encoded, List.length_singleton] at hrun ⊢
    rw [TlvValue.type, decodeAs, Checked.u8, hrun]
    simp only [Option.map_some, Except.map, hval]
  | u16 val =>
    rw [TlvValue.type, decodeAs, Checked.u16, uint_of_leBytes hd val.toNat_lt h]
    simp only [TlvValue.encoded, length_leBytes, Option.map_some, Except.map, UInt16.ofNat_toNat]
  | u32 val =>
    rw [TlvValue.type, decodeAs, Checked.u32, uint_of_leBytes hd val.toNat_lt h]
    simp only [TlvValue.encoded, length_leBytes, Option.map_some, Except.map, UInt32.ofNat_toNat]
  | u64 val =>
    rw [TlvValue.type, decodeAs, Checked.u64, uint_of_leBytes hd val.toNat_lt h]
    simp only [TlvValue.encoded, length_leBytes, Option.map_some, Except.map, UInt64.ofNat_toNat]
  | string v =>
    rw [TlvValue.type, decodeAs, string_of_read hd h (of_decide_eq_true hmax)]
    rfl
  | bytes v =>
    rw [TlvValue.type, decodeAs, decodeBytes_of_read hd h]
    rfl

end Decode

def record (f : UInt8 × TlvValue) : UInt8 × List UInt8 := (f.1, f.2.encoded)

def encodedSize (fields : List (UInt8 × TlvValue)) : Nat :=
  (fields.map fun f => f.2.encoded.length + 5).sum

theorem length_writeAll_record (fields : List (UInt8 × TlvValue)) :
    (tlv.writeAll (fields.map record)).length = encodedSize fields := by
  induction fields with
  | nil => rfl
  | cons f fields ih =>
    have hfield : (tlv.write (record f)).length = f.2.encoded.length + 5 :=
      length_tlvField f.1 f.2.encoded
    rw [List.map_cons, tlv.writeAll_cons, List.length_append, hfield, ih, encodedSize, encodedSize,
      List.map_cons, List.sum_cons]

variable {e : TlvEnc}

theorem encExec_call {f : UInt8 × TlvValue} (hlen : f.2.encoded.length ≤ maxTlv)
    (hcap : e.buf.length + 5 + f.2.encoded.length ≤ e.cap) :
    encExec e (f.2.call f.1) = (.ok (), { e with buf := e.buf ++ tlv.write (record f) }) := by
  have hpayload : (Payload.bytes f.2.encoded).length = f.2.encoded.length := rfl
  rw [encExec_eq, f.2.call_field, f.2.call_payload]
  obtain ⟨hlong, _⟩ | ⟨_, ⟨hfull, _⟩ | ⟨_, ⟨hcut, _⟩ | ⟨_, heq⟩⟩⟩ :=
    data_cases e f.1 (.bytes f.2.encoded)
  · omega
  · omega
  · omega
  · rw [heq, List.append_assoc]
    rfl

theorem encodedSize_cons (f : UInt8 × TlvValue) (fields : List (UInt8 × TlvValue)) :
    encodedSize (f :: fields) = f.2.encoded.length + 5 + encodedSize fields := by
  rw [encodedSize, encodedSize, List.map_cons, List.sum_cons]

theorem encodedSize_append (fields fields' : List (UInt8 × TlvValue)) :
    encodedSize (fields ++ fields') = encodedSize fields + encodedSize fields' := by
  rw [encodedSize, encodedSize, encodedSize, List.map_append, List.sum_append]

theorem encRun_eq {fields : List (UInt8 × TlvValue)}
    (hlen : ∀ f ∈ fields, f.2.encoded.length ≤ maxTlv)
    (hcap : e.buf.length + encodedSize fields ≤ e.cap) :
    encRun e (fields.map fun f => f.2.call f.1) =
      (fields.map fun _ => .ok (),
        { e with buf := e.buf ++ tlv.writeAll (fields.map record) }) := by
  induction fields generalizing e with
  | nil =>
    rw [List.map_nil, List.map_nil, List.map_nil, tlv.writeAll_nil, List.append_nil]
    rfl
  | cons f fields ih =>
    rw [encodedSize_cons] at hcap
    have hexec := encExec_call (e := e) (hlen f List.mem_cons_self) (by omega)
    have hrest := ih (e := { e with buf := e.buf ++ tlv.write (record f) })
      (fun g hg => hlen g (List.mem_cons_of_mem f hg)) (by
        show (e.buf ++ tlvField f.1 f.2.encoded).length + _ ≤ e.cap
        rw [List.length_append, length_tlvField]
        omega)
    rw [List.map_cons, encRun, hexec]
    dsimp only
    rw [hrest, List.map_cons, List.map_cons, tlv.writeAll_cons, List.append_assoc]

theorem encRun_append (e : TlvEnc) (cs cs' : List EncCall) :
    (encRun e (cs ++ cs')).2 = (encRun (encRun e cs).2 cs').2 := by
  induction cs generalizing e with
  | nil => rfl
  | cons c cs ih => exact ih (encExec e c).2

theorem encExec_extends (h : e.buf.length ≤ e.cap) (c : EncCall) :
    ∃ more, (encExec e c).2 = { e with buf := e.buf ++ more } ∧
      (e.buf ++ more).length ≤ e.cap := by
  have hcopied : c.payload.copied.length ≤ c.payload.length := by
    cases c.payload with
    | bytes v => exact Nat.le_refl _
    | null n => exact Nat.zero_le n
  rw [encExec_eq]
  obtain ⟨_, heq⟩ | ⟨_, ⟨_, heq⟩ | ⟨hheader, ⟨_, heq⟩ | ⟨hroom, heq⟩⟩⟩ :=
    data_cases e c.field c.payload
  · exact ⟨[], by rw [heq, List.append_nil], by rwa [List.append_nil]⟩
  · exact ⟨[], by rw [heq, List.append_nil], by rwa [List.append_nil]⟩
  · refine ⟨_, by rw [heq], ?_⟩
    simpa [be32] using hheader
  · refine ⟨_, by rw [heq, List.append_assoc], ?_⟩
    simp only [be32, List.length_append, List.length_cons, List.length_nil]
    omega

theorem encRun_extends (h : e.buf.length ≤ e.cap) (cs : List EncCall) :
    ∃ more, (encRun e cs).2 = { e with buf := e.buf ++ more } ∧
      (e.buf ++ more).length ≤ e.cap := by
  induction cs generalizing e with
  | nil => exact ⟨[], by rw [List.append_nil]; rfl, by rwa [List.append_nil]⟩
  | cons c cs ih =>
    obtain ⟨more, hexec, hle⟩ := encExec_extends h c
    obtain ⟨more', hrun, hle'⟩ := ih (e := { e with buf := e.buf ++ more }) hle
    refine ⟨more ++ more', ?_, ?_⟩
    · show (encRun (encExec e c).2 cs).2 = _
      rw [hexec, hrun, List.append_assoc]
    · rw [← List.append_assoc]
      exact hle'

/-- If errors are ignored, the first field that does not fit ends the list of complete fields. -/
theorem encRun_cut {fields : List (UInt8 × TlvValue)} (hwell : tlv.WellFormed e.buf)
    (hbuf : e.buf.length ≤ e.cap) (hlen : ∀ f ∈ fields, f.2.encoded.length ≤ maxTlv)
    (hcap : e.cap < e.buf.length + encodedSize fields) :
    ∃ k < fields.length, (tlv.split (encRun e (fields.map fun f => f.2.call f.1)).2.buf).1 =
      (tlv.split e.buf).1 ++ (fields.map record).take k := by
  have hmax : maxTlv < 2 ^ 32 := by decide
  induction fields generalizing e with
  | nil =>
    rw [encodedSize, List.map_nil, List.sum_nil] at hcap
    omega
  | cons f fields ih =>
    have hf : f.2.encoded.length ≤ maxTlv := hlen f List.mem_cons_self
    rw [encodedSize_cons] at hcap
    by_cases hfits : e.buf.length + 5 + f.2.encoded.length ≤ e.cap
    · have hrecord : tlv.Fits (record f) := Nat.lt_of_le_of_lt hf hmax
      have hlength : (e.buf ++ tlv.write (record f)).length =
          e.buf.length + 5 + f.2.encoded.length := by
        rw [List.length_append]
        show _ + (tlvField f.1 f.2.encoded).length = _
        rw [length_tlvField]
        omega
      obtain ⟨k, hk, hsplit⟩ := ih (e := { e with buf := e.buf ++ tlv.write (record f) })
        (hwell.append_write hrecord) (by rw [hlength]; exact hfits)
        (fun g hg => hlen g (List.mem_cons_of_mem f hg))
        (by rw [hlength]; show e.cap < _; omega)
      refine ⟨k + 1, Nat.succ_lt_succ hk, ?_⟩
      rw [List.map_cons, encRun, encExec_call hf hfits]
      rw [hsplit, hwell.split_append_write hrecord, List.append_assoc]
      rfl
    · -- What follows in the buffer is shorter than the field.
      refine ⟨0, Nat.succ_pos _, ?_⟩
      have hpayload : (f.2.call f.1).payload.length = f.2.encoded.length := by
        rw [f.2.call_payload]
        rfl
      rw [List.take_zero, List.append_nil, List.map_cons, encRun, encExec_eq]
      obtain ⟨hlong, _⟩ | ⟨_, ⟨hfull, heq⟩ | ⟨hheader, ⟨hcut, heq⟩ | ⟨hroom, _⟩⟩⟩ :=
        data_cases e (f.2.call f.1).field (f.2.call f.1).payload
      · omega
      · obtain ⟨more, hrun, hle⟩ := encRun_extends hbuf (fields.map fun f => f.2.call f.1)
        rw [List.length_append] at hle
        have hread : tlv.read more = none := readField_of_length_lt (by omega)
        rw [heq, hrun, hwell.split_append hread]
      · rw [heq]
        obtain ⟨more, hrun, hle⟩ := encRun_extends
          (e := { e with buf :=
            e.buf ++ (f.2.call f.1).field :: be32 (f.2.call f.1).payload.length })
          (by simpa [be32] using hheader) (fields.map fun f => f.2.call f.1)
        have hread : tlv.read ((f.2.call f.1).field ::
            be32 (f.2.call f.1).payload.length ++ more) = none := by
          refine readField_cut _ (by omega) ?_
          simp only [be32, List.length_append, List.length_cons] at hle
          omega
        rw [hrun]
        rw [List.append_assoc, hwell.split_append hread]
      · omega

theorem decodeAll_eq {fields : List (UInt8 × TlvValue)} {d : TlvDec}
    (hd : d.Valid) (hlen : ∀ f ∈ fields, f.2.encoded.length ≤ maxTlv)
    (hmax : ∀ f ∈ fields, f.2.fitsIn maxLen)
    (hbuf : d.buf.drop d.pos = tlv.writeAll (fields.map record)) :
    decodeAll d (fields.map fun f => (f.1, f.2.type maxLen)) =
      some (fields.map fun f => .ok f.2, { d with pos := d.buf.length }) := by
  induction fields generalizing d with
  | nil =>
    have hpos := hd.pos_le
    have hend : d.pos = d.buf.length := by
      have hdrop : (d.buf.drop d.pos).length = 0 := by
        rw [hbuf]
        rfl
      rw [List.length_drop] at hdrop
      omega
    rw [← hend]
    rfl
  | cons f fields ih =>
    have hfits : tlv.Fits (record f) :=
      Nat.lt_of_le_of_lt (hlen f List.mem_cons_self) (by decide)
    have hread : tlv.read (d.buf.drop d.pos) =
        some ((f.1, f.2.encoded), tlv.writeAll (fields.map record)) := by
      rw [hbuf]
      exact tlv.read_write hfits _
    obtain ⟨_, _, hrest⟩ := TlvDec.next_of_read hread
    have hbehind : TlvDec.Valid { d with pos := d.pos + 5 + f.2.encoded.length } :=
      ⟨pos_le_of_read hread, hd.room⟩
    rw [List.map_cons, decodeAll, decodeAs_of_read hd hread (hmax f List.mem_cons_self)]
    dsimp only
    rw [ih hbehind (fun g hg => hlen g (List.mem_cons_of_mem f hg))
      (fun g hg => hmax g (List.mem_cons_of_mem f hg)) hrest]
    rfl

/-- The value of the first record with the id, and the length if one is given. -/
def firstOf (rs : List (UInt8 × List UInt8)) (field : UInt8) (want : Option Nat) :
    Option (List UInt8) :=
  (rs.find? (TlvDec.wanted field want)).map Prod.snd

/-- The search function returns the number in the first field with the id and `width` bytes, and
leaves the position if there is none. -/
def FindsNumber (rs : List (UInt8 × List UInt8)) (d : TlvDec) (width : Nat)
    (find : TlvDec → UInt8 → Option (Except Errno Nat × TlvDec)) : Prop :=
  ∀ field, ∃ r d', find d field = some (r, d') ∧
    match firstOf rs field (some width) with
    | none => r = .error .enoent ∧ d' = d
    | some v => r = .ok (leNat v)

/-- `powerfs_tlv_dec_find_raw` returns the place of the value of the first field with the id, and
leaves the position if there is none. -/
def FindsPlace (rs : List (UInt8 × List UInt8)) (d : TlvDec) : Prop :=
  ∀ field, ∃ r d', Checked.findRaw d field = some (r, d') ∧
    match firstOf rs field none with
    | none => r = .error .enoent ∧ d' = d
    | some v => ∃ place, r = .ok place ∧ d.value place = v

section First

variable {rs : List (UInt8 × List UInt8)} {field : UInt8} {want : Option Nat} {v : List UInt8}

theorem mem_of_firstOf (h : firstOf rs field want = some v) : (field, v) ∈ rs := by
  obtain ⟨r, hfind, rfl⟩ := Option.map_eq_some_iff.mp h
  have hwanted : r.1 = field ∧ (want = none ∨ want = some r.2.length) :=
    of_decide_eq_true (List.find?_some (p := TlvDec.wanted field want) hfind)
  rw [← hwanted.1]
  exact List.mem_of_find?_eq_some hfind

theorem firstOf_of_notMem (h : field ∉ rs.map Prod.fst) : firstOf rs field want = none := by
  cases hfirst : firstOf rs field want with
  | none => rfl
  | some v => exact absurd (List.mem_map_of_mem (f := Prod.fst) (mem_of_firstOf hfirst)) h

theorem firstOf_of_mem (hnodup : (rs.map Prod.fst).Nodup) (h : (field, v) ∈ rs)
    (hwant : want = none ∨ want = some v.length) : firstOf rs field want = some v := by
  induction rs with
  | nil => cases h
  | cons r rs ih =>
    rw [List.map_cons, List.nodup_cons] at hnodup
    rw [firstOf, List.find?_cons]
    obtain rfl | hmem := List.mem_cons.mp h
    · have hfirst : TlvDec.wanted field want (field, v) = true := decide_eq_true ⟨rfl, hwant⟩
      rw [hfirst]
      rfl
    · have hne : r.1 ≠ field := by
        intro heq
        rw [heq] at hnodup
        exact hnodup.1 (List.mem_map_of_mem (f := Prod.fst) hmem)
      have hskip : TlvDec.wanted field want r = false := decide_eq_false fun hw => hne hw.1
      rw [hskip]
      exact ih hnodup.2 hmem

end First

theorem findRaw_eq_firstOf (d : TlvDec) (field : UInt8) :
    d.findRaw field = firstOf (tlv.split d.buf).1 field none := by
  rw [TlvDec.findRaw, TlvDec.find_eq]
  rfl

theorem TlvDec.value_of_find {d : TlvDec} (hd : d.Valid) {field : UInt8}
    {p : Nat × Nat} (h : d.find field (some width) = some p) :
    (d.value p).length = width ∧ (0 < width → d.buf.getD p.1 0 = (d.value p).getD 0 0) := by
  obtain ⟨_, _, _, _, hvalue⟩ := Checked.find_keeps hd field (some width)
  obtain ⟨hinside, hwidth⟩ := hvalue p h
  obtain rfl := hwidth width rfl
  refine ⟨?_, fun hpos => ?_⟩
  · rw [TlvDec.value, List.length_take, List.length_drop]
    omega
  · rw [TlvDec.value, List.getD_eq_getElem?_getD, List.getD_eq_getElem?_getD,
      List.getElem?_take_of_lt hpos, List.getElem?_drop, Nat.add_zero]

theorem findU8_eq_firstOf {d : TlvDec} (hd : d.Valid) (field : UInt8) :
    d.findU8 field = (firstOf (tlv.split d.buf).1 field (some 1)).map fun v => v.getD 0 0 := by
  rw [firstOf, ← TlvDec.find_eq, Option.map_map]
  exact Option.map_congr fun p hp => (TlvDec.value_of_find hd hp).2 Nat.one_pos

/-- `findU32` and `findU64` are of this form. -/
theorem map_find_eq_firstOf {α : Type} (d : TlvDec) (field : UInt8) (width : Nat)
    (read : List UInt8 → α) : ((d.find field (some width)).map fun r => read (d.value r)) =
      (firstOf (tlv.split d.buf).1 field (some width)).map read := by
  rw [firstOf, ← TlvDec.find_eq, Option.map_map]
  rfl

theorem leNat_take_leBytes (h : n < 256 ^ width) :
    leNat ((leBytes width n).take width) = n := by
  rw [List.take_of_length_le (Nat.le_of_eq (length_leBytes _ _)), leNat_leBytes_of_lt h]

/-- The records of the buffer are these fields, no id twice. -/
structure TlvDec.Holds (d : TlvDec) (fields : List (UInt8 × TlvValue)) : Prop where
  records : (tlv.split d.buf).1 = fields.map record
  nodup : (fields.map Prod.fst).Nodup

namespace TlvDec.Holds

variable {d : TlvDec} {fields : List (UInt8 × TlvValue)} (h : d.Holds fields) {field : UInt8}

include h

theorem nodup_records : ((tlv.split d.buf).1.map Prod.fst).Nodup := by
  rw [h.records, List.map_map]
  exact h.nodup

theorem mem_records {v : TlvValue} (hmem : (field, v) ∈ fields) :
    (field, v.encoded) ∈ (tlv.split d.buf).1 := by
  rw [h.records]
  exact List.mem_map_of_mem (f := record) hmem

theorem findUint_of_mem {α : Type} {v : TlvValue} {ofNat : Nat → α} {a : α}
    (hmem : (field, v) ∈ fields) (hv : v.encoded = leBytes width n) (hn : n < 256 ^ width)
    (ha : ofNat n = a) :
    ((d.find field (some width)).map fun r => ofNat (leNat ((d.value r).take width))) = some a := by
  have hrecord := h.mem_records hmem
  rw [hv] at hrecord
  rw [map_find_eq_firstOf d field width fun bs => ofNat (leNat (bs.take width)),
    firstOf_of_mem h.nodup_records hrecord (.inr (by rw [length_leBytes])), Option.map_some,
    leNat_take_leBytes hn, ha]

theorem findU32_of_mem {n : UInt32} (hmem : (field, .u32 n) ∈ fields) :
    d.findU32 field = some n :=
  h.findUint_of_mem hmem rfl n.toNat_lt UInt32.ofNat_toNat

theorem findU64_of_mem {n : UInt64} (hmem : (field, .u64 n) ∈ fields) :
    d.findU64 field = some n :=
  h.findUint_of_mem hmem rfl n.toNat_lt UInt64.ofNat_toNat

theorem findRaw_of_mem {v : TlvValue} (hmem : (field, v) ∈ fields) :
    d.findRaw field = some v.encoded := by
  rw [findRaw_eq_firstOf, firstOf_of_mem h.nodup_records (h.mem_records hmem) (.inl rfl)]

theorem find_of_notMem (hmem : field ∉ fields.map Prod.fst) (want : Option Nat) :
    d.find field want = none := by
  have hfirst : firstOf (tlv.split d.buf).1 field want = none := by
    refine firstOf_of_notMem ?_
    rw [h.records, List.map_map]
    exact hmem
  rw [firstOf, ← TlvDec.find_eq] at hfirst
  exact Option.map_eq_none_iff.mp hfirst

theorem findU64_of_notMem (hmem : field ∉ fields.map Prod.fst) : d.findU64 field = none := by
  rw [TlvDec.findU64, h.find_of_notMem hmem]
  rfl

end TlvDec.Holds

theorem TlvDec.holds_writeAll {fields : List (UInt8 × TlvValue)}
    (hle : ∀ f ∈ fields, f.2.encoded.length ≤ maxTlv) (hnodup : (fields.map Prod.fst).Nodup) :
    (TlvDec.init (tlv.writeAll (fields.map record))).Holds fields := by
  refine ⟨?_, hnodup⟩
  rw [TlvDec.buf_init, Records.Format.split_writeAll]
  intro r hr
  obtain ⟨f, hf, rfl⟩ := List.mem_map.mp hr
  exact Nat.lt_of_le_of_lt (hle f hf) (by decide)

section Find

variable {rs : List (UInt8 × List UInt8)} {d : TlvDec}

theorem find_eq_firstOf (hbuf : d.buf = tlv.writeAll rs) (hfits : ∀ r ∈ rs, tlv.Fits r)
    (field : UInt8) (want : Option Nat) :
    (d.find field want).map d.value = firstOf rs field want := by
  rw [TlvDec.find_eq, hbuf, Records.Format.split_writeAll hfits]
  rfl

theorem findsNumber (hd : d.Valid) (hbuf : d.buf = tlv.writeAll rs)
    (hfits : ∀ r ∈ rs, tlv.Fits r) (width : Nat) :
    FindsNumber rs d width (Checked.findUint width) := by
  intro field
  obtain ⟨d', hrun, _, hnone⟩ := Checked.findUint_keeps hd width field
  refine ⟨_, d', hrun, ?_⟩
  rw [← find_eq_firstOf hbuf hfits]
  cases hfind : d.find field (some width) with
  | none => exact ⟨rfl, hnone hfind⟩
  | some p => rfl

theorem findsPlace (hd : d.Valid) (hbuf : d.buf = tlv.writeAll rs)
    (hfits : ∀ r ∈ rs, tlv.Fits r) : FindsPlace rs d := by
  intro field
  obtain ⟨d', hrun, _, hnone, _⟩ := Checked.find_keeps hd field none
  refine ⟨_, d', by rw [Checked.findRaw, hrun]; rfl, ?_⟩
  rw [← find_eq_firstOf hbuf hfits]
  cases hfind : d.find field none with
  | none => exact ⟨rfl, hnone hfind⟩
  | some p => exact ⟨p, rfl, rfl⟩

end Find

/-- Every list of fields that fits is decoded in order to the same values; in every buffer of
complete fields, from every position, each search finds the first field with the wanted id and
length, or leaves the position. -/
theorem tlv_roundTrip (fields : List (UInt8 × TlvValue)) (cap maxLen : Nat)
    (hlen : ∀ f ∈ fields, f.2.encoded.length ≤ maxTlv)
    (hmax : ∀ f ∈ fields, f.2.fitsIn maxLen) (hcap : encodedSize fields ≤ cap)
    (hroom : cap + 2 ^ 32 ≤ 2 ^ 64) :
    (∃ e d, encRun (.init cap) (fields.map fun f => f.2.call f.1) =
        (fields.map fun _ => .ok (), e) ∧
      e.buf = tlv.writeAll (fields.map record) ∧
      decodeAll (.init e.buf) (fields.map fun f => (f.1, f.2.type maxLen)) =
        some (fields.map fun f => .ok f.2, d) ∧ Checked.isEmpty d = true) ∧
    ∀ (rs : List (UInt8 × List UInt8)) (d : TlvDec), (∀ r ∈ rs, r.2.length < 2 ^ 32) →
      d.buf = tlv.writeAll rs → d.Valid →
      FindsNumber rs d 1 Checked.findU8 ∧ FindsNumber rs d 4 Checked.findU32 ∧
        FindsNumber rs d 8 Checked.findU64 ∧ FindsPlace rs d := by
  refine ⟨?_, ?_⟩
  · have henc := encRun_eq (e := .init cap) hlen
      (by show 0 + encodedSize fields ≤ cap; omega)
    have hvalid : (TlvDec.init (tlv.writeAll (fields.map record))).Valid :=
      ⟨Nat.zero_le _, by
        show (tlv.writeAll (fields.map record)).length + _ ≤ _
        rw [length_writeAll_record]
        omega⟩
    exact ⟨_, _, henc, rfl, decodeAll_eq hvalid hlen hmax rfl, decide_eq_true (Nat.le_refl _)⟩
  · intro rs d hfits hbuf hd
    exact ⟨findsNumber hd hbuf hfits 1, findsNumber hd hbuf hfits 4, findsNumber hd hbuf hfits 8,
      findsPlace hd hbuf hfits⟩

/-- One field of each type. -/
def oneOfEach : List (UInt8 × TlvValue) :=
  [(1, .u8 7), (2, .u16 300), (3, .string [97, 98]), (4, .u32 70000), (5, .bytes []), (6, .u64 5)]

theorem tlv_roundTrip_oneOfEach : ∃ e d,
    encRun (.init 64) (oneOfEach.map fun f => f.2.call f.1) = (oneOfEach.map fun _ => .ok (), e) ∧
    decodeAll (.init e.buf) (oneOfEach.map fun f => (f.1, f.2.type 16)) =
      some (oneOfEach.map fun f => .ok f.2, d) ∧ Checked.isEmpty d = true ∧
    FindsNumber (oneOfEach.map record) ⟨e.buf, 3⟩ 8 Checked.findU64 := by
  obtain ⟨⟨e, d, henc, hbuf, hdec, hempty⟩, hfind⟩ :=
    tlv_roundTrip oneOfEach 64 16 (by decide) (by decide) (by decide) (by decide)
  refine ⟨e, d, henc, hdec, hempty, ?_⟩
  have hvalid : TlvDec.Valid ⟨e.buf, 3⟩ := by
    rw [hbuf]
    exact ⟨by decide, by decide⟩
  exact (hfind (oneOfEach.map record) ⟨e.buf, 3⟩ (by decide) hbuf hvalid).2.2.1

end PowerFS.Net
