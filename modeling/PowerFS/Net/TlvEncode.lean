import PowerFS.Lib.Runs
import PowerFS.Net.FrameSend
import PowerFS.Net.TlvRecords

namespace PowerFS.Net

/-! The encoder of `powerfs_tlv.c`. The header of a field and its value are written one after the
other, each with its own check of the capacity. -/

/-- `struct powerfs_tlv_enc`: what is encoded so far, and the capacity of the buffer. -/
structure TlvEnc where
  buf : List UInt8
  cap : Nat
  deriving DecidableEq

/-- A pointer argument with its length: bytes, or the null pointer. -/
inductive Payload where
  | bytes (v : List UInt8)
  | null (length : Nat)

def Payload.length : Payload → Nat
  | .bytes v => v.length
  | .null length => length

def Payload.copied : Payload → List UInt8
  | .bytes v => v
  | .null _ => []

namespace TlvEnc

/-- `powerfs_tlv_enc_init`. -/
def init (cap : Nat) : TlvEnc := ⟨[], cap⟩

/-- `powerfs_tlv_enc_write_hdr`. -/
def writeHdr (e : TlvEnc) (field : UInt8) (length : Nat) : Except Errno Unit × TlvEnc :=
  if e.cap < e.buf.length + 5 then (.error .enospc, e)
  else (.ok (), { e with buf := e.buf ++ field :: be32 length })

def writeField (e : TlvEnc) (field : UInt8) (length : Nat) (value : List UInt8) :
    Except Errno Unit × TlvEnc :=
  match e.writeHdr field length with
  | (.error err, e') => (.error err, e')
  | (.ok (), e') =>
    if e'.cap < e'.buf.length + length then (.error .enospc, e')
    else (.ok (), { e' with buf := e'.buf ++ value })

/-- `powerfs_tlv_enc_u8`. -/
def u8 (e : TlvEnc) (field : UInt8) (val : UInt8) : Except Errno Unit × TlvEnc :=
  e.writeField field 1 [val]

/-- `powerfs_tlv_enc_u16`. -/
def u16 (e : TlvEnc) (field : UInt8) (val : UInt16) : Except Errno Unit × TlvEnc :=
  e.writeField field 2 (leBytes 2 val.toNat)

/-- `powerfs_tlv_enc_u32`. -/
def u32 (e : TlvEnc) (field : UInt8) (val : UInt32) : Except Errno Unit × TlvEnc :=
  e.writeField field 4 (leBytes 4 val.toNat)

/-- `powerfs_tlv_enc_u64`. -/
def u64 (e : TlvEnc) (field : UInt8) (val : UInt64) : Except Errno Unit × TlvEnc :=
  e.writeField field 8 (leBytes 8 val.toNat)

/-- The common body of `powerfs_tlv_enc_string` and `powerfs_tlv_enc_bytes`. -/
def data (e : TlvEnc) (field : UInt8) (p : Payload) : Except Errno Unit × TlvEnc :=
  if maxTlv < p.length then (.error .e2big, e) else e.writeField field p.length p.copied

/-- `powerfs_tlv_enc_string`. -/
def string : TlvEnc → UInt8 → Payload → Except Errno Unit × TlvEnc := data

/-- `powerfs_tlv_enc_bytes`. -/
def bytes : TlvEnc → UInt8 → Payload → Except Errno Unit × TlvEnc := data

/-- `powerfs_tlv_enc_nested`. -/
def nested (e : TlvEnc) (field : UInt8) (p : Payload) : Except Errno Unit × TlvEnc :=
  if maxTlv < p.length then (.error .e2big, e) else e.bytes field p

end TlvEnc

inductive EncCall where
  | u8 (field : UInt8) (val : UInt8)
  | u16 (field : UInt8) (val : UInt16)
  | u32 (field : UInt8) (val : UInt32)
  | u64 (field : UInt8) (val : UInt64)
  | string (field : UInt8) (p : Payload)
  | bytes (field : UInt8) (p : Payload)
  | nested (field : UInt8) (p : Payload)

def encExec (e : TlvEnc) : EncCall → Except Errno Unit × TlvEnc
  | .u8 field val => e.u8 field val
  | .u16 field val => e.u16 field val
  | .u32 field val => e.u32 field val
  | .u64 field val => e.u64 field val
  | .string field p => e.string field p
  | .bytes field p => e.bytes field p
  | .nested field p => e.nested field p

namespace EncCall

/-- The value of the field that a call encodes. -/
def payload : EncCall → Payload
  | .u8 _ val => .bytes [val]
  | .u16 _ val => .bytes (leBytes 2 val.toNat)
  | .u32 _ val => .bytes (leBytes 4 val.toNat)
  | .u64 _ val => .bytes (leBytes 8 val.toNat)
  | .string _ p | .bytes _ p | .nested _ p => p

def field : EncCall → UInt8
  | .u8 field _ | .u16 field _ | .u32 field _ | .u64 field _ | .string field _ | .bytes field _
  | .nested field _ => field

end EncCall

theorem encExec_eq (e : TlvEnc) (c : EncCall) : encExec e c = e.data c.field c.payload := by
  have hint : ∀ field width v, v.length = width → width ≤ 8 →
      e.writeField field width v = e.data field (.bytes v) := by
    rintro field _ v rfl hshort
    have hfits : ¬ maxTlv < (Payload.bytes v).length := by
      rw [maxTlv, Payload.length]
      omega
    rw [TlvEnc.data, if_neg hfits]
    rfl
  cases c with
  | u8 field val => exact hint field 1 _ rfl (by decide)
  | u16 field val => exact hint field 2 _ (length_leBytes 2 _) (by decide)
  | u32 field val => exact hint field 4 _ (length_leBytes 4 _) (by decide)
  | u64 field val => exact hint field 8 _ (length_leBytes 8 _) (by decide)
  | string => rfl
  | bytes => rfl
  | nested field p =>
    show e.nested field p = e.data field p
    rw [TlvEnc.nested]
    split
    · next hlong => rw [TlvEnc.data, if_pos hlong]
    · rfl

/-- What encoding a value can do: it is too long, there is no room for the header, or none for the
value behind the header, or the field is written. -/
theorem data_cases (e : TlvEnc) (field : UInt8) (p : Payload) :
    maxTlv < p.length ∧ e.data field p = (.error .e2big, e) ∨
    p.length ≤ maxTlv ∧
      (e.cap < e.buf.length + 5 ∧ e.data field p = (.error .enospc, e) ∨
      e.buf.length + 5 ≤ e.cap ∧
        (e.cap < e.buf.length + 5 + p.length ∧
          e.data field p = (.error .enospc, { e with buf := e.buf ++ field :: be32 p.length }) ∨
        e.buf.length + 5 + p.length ≤ e.cap ∧ e.data field p =
          (.ok (), { e with buf := e.buf ++ field :: be32 p.length ++ p.copied }))) := by
  rw [TlvEnc.data]
  split
  · next hlong => exact .inl ⟨hlong, rfl⟩
  · next hshort =>
    refine .inr ⟨Nat.le_of_not_lt hshort, ?_⟩
    rw [TlvEnc.writeField, TlvEnc.writeHdr]
    by_cases hheader : e.cap < e.buf.length + 5
    · rw [if_pos hheader]
      exact .inl ⟨hheader, rfl⟩
    · rw [if_neg hheader]
      refine .inr ⟨by omega, ?_⟩
      have hlen : (e.buf ++ field :: be32 p.length).length = e.buf.length + 5 := by
        simp [be32]
      simp only [hlen]
      by_cases hvalue : e.cap < e.buf.length + 5 + p.length
      · rw [if_pos hvalue]
        exact .inl ⟨hvalue, rfl⟩
      · rw [if_neg hvalue]
        exact .inr ⟨by omega, rfl⟩

/-- An error leaves the encoded length as it was. -/
def Atomic (e : TlvEnc) (c : EncCall) : Prop :=
  ∀ err, (encExec e c).1 = .error err → (encExec e c).2.buf.length = e.buf.length

/-- The value is too long, there is no room for the header, or there is room for the whole field and
the value is there. -/
def EncOk (e : TlvEnc) (c : EncCall) : Prop :=
  maxTlv < c.payload.length ∨ e.cap < e.buf.length + 5 ∨
    e.buf.length + 5 + c.payload.length ≤ e.cap ∧ c.payload.copied.length = c.payload.length

instance (e : TlvEnc) (c : EncCall) : Decidable (EncOk e c) := inferInstanceAs (Decidable (_ ∨ _))

def EncInit (e : TlvEnc) : Prop := e.buf = []

/-- On well-formed fields, a call is atomic and adds at most a complete field exactly if it meets
the condition. -/
theorem encExec_iff {e : TlvEnc} (h : tlv.WellFormed e.buf) (c : EncCall) :
    Atomic e c ∧ tlv.WellFormed (encExec e c).2.buf ↔ EncOk e c := by
  have hmax : maxTlv < 2 ^ 32 := by decide
  rw [Atomic, encExec_eq]
  obtain ⟨hlong, heq⟩ | ⟨hshort, ⟨hfull, heq⟩ | ⟨hheader, ⟨hcut, heq⟩ | ⟨hroom, heq⟩⟩⟩ :=
    data_cases e c.field c.payload
  · rw [heq]
    exact iff_of_true ⟨fun _ _ => rfl, h⟩ (.inl hlong)
  · rw [heq]
    exact iff_of_true ⟨fun _ _ => rfl, h⟩ (.inr (.inl hfull))
  · -- The header stays in the buffer without its value.
    refine iff_of_false ?_ ?_
    · rintro ⟨hatomic, _⟩
      have hlen := hatomic .enospc (by rw [heq])
      rw [heq] at hlen
      simp [be32] at hlen
    · rintro (hlong | hfull | ⟨hroom, _⟩) <;> omega
  · rw [heq]
    have hok : EncOk e c ↔ c.payload.copied.length = c.payload.length := by
      constructor
      · rintro (hlong | hfull | ⟨_, hcopied⟩)
        · omega
        · omega
        · exact hcopied
      · exact fun hcopied => .inr (.inr ⟨hroom, hcopied⟩)
    rw [hok]
    constructor
    · rintro ⟨_, hwell⟩
      cases hp : c.payload with
      | bytes v => rfl
      | null n =>
        -- A null pointer: the header announces bytes that do not follow.
        rw [hp] at hwell hshort
        by_contra hne
        have hpos : 0 < n := Nat.pos_of_ne_zero fun hzero => hne (by rw [hzero]; rfl)
        have hlt : n < 2 ^ 32 := Nat.lt_of_le_of_lt hshort hmax
        have hread : tlv.read (c.field :: be32 n ++ []) = none := readField_cut c.field hlt hpos
        refine h.not_append hread (List.cons_ne_nil _ _) ?_
        simpa [Payload.copied, Payload.length] using hwell
    · intro hcopied
      refine ⟨fun _ herr => (by cases herr), ?_⟩
      have hfits : tlv.Fits (c.field, c.payload.copied) := by
        show c.payload.copied.length < 2 ^ 32
        omega
      have hwell := h.append_write hfits
      rw [← hcopied, List.append_assoc]
      exact hwell

/-- In every run that meets the condition the buffer holds complete fields, and a failed call leaves
the length as it was. The condition is exact. -/
theorem encAtomic_of_encOk (e : TlvEnc)
    (h : Runs.Reach (fun e c e' => (encExec e c).2 = e') EncOk EncInit e) :
    tlv.WellFormed e.buf ∧
      ∀ c, (Atomic e c ∧ tlv.WellFormed (encExec e c).2.buf ↔ EncOk e c) := by
  have hwell : tlv.WellFormed e.buf := by
    induction h with
    | start hinit =>
      rw [hinit]
      exact .nil
    | next _ hok hs ih =>
      rw [← hs]
      exact ((encExec_iff ih _).mpr hok).2
  exact ⟨hwell, encExec_iff hwell⟩

/-- A field fits, and then not even the header of the next one. -/
theorem encAtomic_twoFields : ∃ e, (encExec (.init 10) (.u8 1 7)).2 = e ∧
    (encExec e (.u64 2 9)).1 = .error .enospc ∧
    Atomic e (.u64 2 9) ∧ tlv.WellFormed (encExec e (.u64 2 9)).2.buf := by
  have hstart : Runs.Reach (fun e c e' => (encExec e c).2 = e') EncOk EncInit (.init 10) :=
    .start rfl
  have hok : EncOk (.init 10) (.u8 1 7) := by decide
  exact ⟨_, rfl, rfl, ((encAtomic_of_encOk _ (hstart.next hok rfl)).2 _).mpr (by decide)⟩

/-- The buffer has room for a header only: the call fails, but the header stays. -/
theorem not_encAtomic_runs : ¬ ∀ e,
    Runs.Reach (fun e c e' => (encExec e c).2 = e') (fun _ _ => True) EncInit e →
      tlv.WellFormed e.buf ∧ ∀ c, Atomic e c := by
  intro h
  have hatomic := (h (.init 5) (.start rfl)).2 (.u8 1 7)
  exact absurd (hatomic .enospc rfl) (by decide)

end PowerFS.Net
