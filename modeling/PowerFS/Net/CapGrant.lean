import PowerFS.Net.Tlv
import Mathlib.Data.List.Basic

namespace PowerFS.Net

/-! The reply to CapOpenGrant and AcquireCap in `powerfs_net_lease.c`. The token goes to a buffer of
the caller, who passes the size of the buffer in `*token_len_out`. -/

def fldLeaseToken : UInt8 := 0x80
def fldLeaseDuration : UInt8 := 0x41
def fldCapSet : UInt8 := 0xc4
def fldCapEpoch : UInt8 := 0xc5
def fldCapSn : UInt8 := 0xc7

abbrev TokenStore := Nat × UInt8

/-- What the caller passes for the results; `none` stands for NULL. -/
structure GrantOut where
  token : Bool
  tokenLen : Option Nat
  capSet : Option UInt8
  epoch : Option UInt64
  sn : Option UInt64
  durationMs : Option UInt64
  deriving DecidableEq

/-- `memcpy` of `bytes` to the start of the buffer. -/
def copyToken (bytes : List UInt8) : List TokenStore := bytes.zipIdx.map Prod.swap

/-- How much of a token of `tlen` bytes is copied. -/
def tokenCopied (tlen : Nat) : Option Nat → Nat
  | some room => if 0 < room then min tlen (room - 1) else tlen
  | none => tlen

/-- The token part of `decode_cap_grant_fields`. -/
def decodeToken (d : TlvDec) (tokenLen : Option Nat) : List TokenStore × Option Nat :=
  match d.findRaw fldLeaseToken with
  | some raw =>
    let cp := tokenCopied raw.length tokenLen
    (copyToken (raw.take cp) ++ [(cp, 0)], tokenLen.map fun _ => raw.length)
  | none =>
    match tokenLen with
    | some _ => ([(0, 0)], some 0)
    | none => ([], none)

/-- `decode_cap_grant_fields`. A field that is missing leaves its result as it was. -/
def decodeCapGrantFields (d : TlvDec) (out : GrantOut) : List TokenStore × GrantOut :=
  let (stores, tokenLen) := if out.token then decodeToken d out.tokenLen else ([], out.tokenLen)
  (stores,
    { out with
      tokenLen := tokenLen
      capSet := out.capSet.map fun v => (d.findU8 fldCapSet).getD v
      epoch := out.epoch.map fun v => (d.findU64 fldCapEpoch).getD v
      sn := out.sn.map fun v => (d.findU64 fldCapSn).getD v
      durationMs := out.durationMs.map fun v => (d.findU64 fldLeaseDuration).getD v })

/-- The results before the request. -/
def GrantOut.reset (out : GrantOut) : GrantOut where
  token := out.token
  tokenLen := out.tokenLen.map fun _ => 0
  capSet := out.capSet.map fun _ => 0
  epoch := out.epoch.map fun _ => 0
  sn := out.sn.map fun _ => 0
  durationMs := out.durationMs.map fun _ => 0

/-- The outcome of a request: its result, the stores to the token buffer and the other results. -/
structure GrantCall where
  ret : Except Errno Unit
  stores : List TokenStore
  out : GrantOut

/-- What both requests do. `valid` is the check of the arguments, `alloc` the allocation of the
reply's buffer and `rpc` the body of the reply. -/
def capRequest (valid : Bool) (out : GrantOut) (alloc : Bool) (rpc : Except Errno (List UInt8)) :
    GrantCall :=
  if !valid then ⟨.error .einval, [], out⟩
  else
    let first : List TokenStore := if out.token then [(0, 0)] else []
    let out := out.reset
    if !alloc then ⟨.error .enomem, first, out⟩
    else match rpc with
      | .error err => ⟨.error err, first, out⟩
      | .ok [] => ⟨.ok (), first, out⟩
      | .ok body =>
        let (stores, out) := decodeCapGrantFields (.init body) out
        ⟨.ok (), first ++ stores, out⟩

def stringFits : Option (List UInt8) → Bool
  | some s => decide (s.length ≠ 0 ∧ s.length ≤ 255)
  | none => false

/-- `powerfs_net_cap_open_grant`. -/
def netCapOpenGrant (ino : UInt64) (clientId : Option (List UInt8)) (out : GrantOut) (alloc : Bool)
    (rpc : Except Errno (List UInt8)) : GrantCall :=
  capRequest (stringFits clientId && ino ≠ 0) out alloc rpc

/-- `powerfs_net_cap_acquire`. -/
def netCapAcquire (ino : UInt64) (clientId token : Option (List UInt8)) (out : GrantOut)
    (alloc : Bool) (rpc : Except Errno (List UInt8)) : GrantCall :=
  capRequest (stringFits clientId && stringFits token && ino ≠ 0) out alloc rpc

/-- The stores stay inside a buffer of `size` bytes. -/
def StoresWithin (size : Nat) (stores : List TokenStore) : Prop := ∀ w ∈ stores, w.1 < size

/-- The reply brings no token that the buffer cannot hold with its terminating zero. -/
def TokenFits (size : Nat) (alloc : Bool) (rpc : Except Errno (List UInt8)) : Prop :=
  ∀ body, alloc = true → rpc = .ok body →
    ∀ raw, (TlvDec.init body).findRaw fldLeaseToken = some raw → raw.length < size

section Stores

variable {size : Nat} {out : GrantOut} {alloc : Bool} {rpc : Except Errno (List UInt8)}

theorem storesWithin_append {a b : List TokenStore} :
    StoresWithin size (a ++ b) ↔ StoresWithin size a ∧ StoresWithin size b := by
  simp [StoresWithin, or_imp, forall_and]

theorem storesWithin_copyToken (bytes : List UInt8) :
    StoresWithin size (copyToken bytes) ↔ bytes.length ≤ size := by
  constructor
  · intro h
    by_contra hlong
    have hmem : size < bytes.length := by omega
    have hstore := h (size, bytes[size]) (by
      refine List.mem_map.mpr ⟨(bytes[size], size), ?_, rfl⟩
      rw [List.mem_zipIdx_iff_getElem?]
      exact List.getElem?_eq_getElem hmem)
    exact Nat.lt_irrefl size hstore
  · intro h w hw
    obtain ⟨⟨b, i⟩, hbi, rfl⟩ := List.mem_map.mp hw
    rw [List.mem_zipIdx_iff_getElem?] at hbi
    have hi := (List.getElem?_eq_some_iff.mp hbi).1
    show i < size
    omega

theorem tokenCopied_reset (tlen : Nat) (tokenLen : Option Nat) :
    tokenCopied tlen (tokenLen.map fun _ => 0) = tlen := by
  cases tokenLen <;> rfl

theorem decodeToken_within (d : TlvDec) (tokenLen : Option Nat) (hsize : 0 < size) :
    StoresWithin size (decodeToken d (tokenLen.map fun _ => 0)).1 ↔
      ∀ raw, d.findRaw fldLeaseToken = some raw → raw.length < size := by
  unfold decodeToken
  cases hraw : d.findRaw fldLeaseToken with
  | none =>
    cases tokenLen with
    | none => simp [StoresWithin]
    | some room => simp [StoresWithin, hsize]
  | some raw =>
    simp only [tokenCopied_reset, List.take_length]
    rw [storesWithin_append, storesWithin_copyToken]
    simp only [StoresWithin, List.mem_singleton, forall_eq, Option.some.injEq, forall_eq']
    omega

theorem decodeCapGrantFields_stores (d : TlvDec) (htoken : out.token = true) :
    (decodeCapGrantFields d out).1 = (decodeToken d out.tokenLen).1 := by
  simp [decodeCapGrantFields, htoken]

theorem capRequest_within (htoken : out.token = true) :
    StoresWithin size (capRequest true out alloc rpc).stores ↔
      0 < size ∧ TokenFits size alloc rpc := by
  have hfirst : StoresWithin size [(0, 0)] ↔ 0 < size := by simp [StoresWithin]
  unfold TokenFits
  cases alloc with
  | false => simp [capRequest, htoken, hfirst]
  | true =>
    cases rpc with
    | error err => simp [capRequest, htoken, hfirst]
    | ok body =>
      cases body with
      | nil =>
        have hnone : (TlvDec.init []).findRaw fldLeaseToken = none := rfl
        simp [capRequest, htoken, hfirst, hnone]
      | cons b body =>
        have hreset : out.reset.token = true := htoken
        simp only [capRequest, htoken, Bool.not_true, Bool.false_eq_true, if_false, if_true,
          storesWithin_append, hfirst, decodeCapGrantFields_stores _ hreset, Except.ok.injEq,
          forall_eq', forall_const]
        exact and_congr_right fun hsize => decodeToken_within _ _ hsize

theorem capRequest_stores_of_null (valid : Bool) (htoken : out.token = false) :
    (capRequest valid out alloc rpc).stores = [] := by
  have hreset : out.reset.token = false := htoken
  cases valid with
  | false => rfl
  | true =>
    cases alloc with
    | false => simp [capRequest, htoken]
    | true =>
      cases rpc with
      | error err => simp [capRequest, htoken]
      | ok body =>
        cases body with
        | nil => simp [capRequest, htoken]
        | cons b body => simp [capRequest, htoken, decodeCapGrantFields, hreset]

theorem capRequest_within_iff (valid : Bool) :
    StoresWithin size (capRequest valid out alloc rpc).stores ↔
      valid = false ∨ out.token = false ∨ (0 < size ∧ TokenFits size alloc rpc) := by
  have hnil : StoresWithin size [] := nofun
  cases valid with
  | false => exact ⟨fun _ => .inl rfl, fun _ => hnil⟩
  | true =>
    cases htoken : out.token with
    | false => simp [capRequest_stores_of_null true htoken, hnil]
    | true => simp [capRequest_within htoken]

end Stores

/-- Both requests store only inside the token buffer if and only if they fail on their arguments,
have no buffer, or get no token that is too long, whatever size the caller passes. -/
theorem netCap_within_iff (size : Nat) (ino : UInt64) (clientId token : Option (List UInt8))
    (out : GrantOut) (alloc : Bool) (rpc : Except Errno (List UInt8)) :
    (StoresWithin size (netCapOpenGrant ino clientId out alloc rpc).stores ↔
      (stringFits clientId && ino ≠ 0) = false ∨ out.token = false ∨
        (0 < size ∧ TokenFits size alloc rpc)) ∧
    (StoresWithin size (netCapAcquire ino clientId token out alloc rpc).stores ↔
      (stringFits clientId && stringFits token && ino ≠ 0) = false ∨ out.token = false ∨
        (0 < size ∧ TokenFits size alloc rpc)) :=
  ⟨capRequest_within_iff _, capRequest_within_iff _⟩

/-- The arguments of `cap_open_grant_and_issue` and `powerfs_check_caps`: `char token[64]`, its size
and the other results. -/
def callerOut : GrantOut := ⟨true, some 64, some 0, some 0, some 0, some 0⟩

def longTokenReply : List UInt8 := [fldLeaseToken, 0, 0, 0, 64] ++ List.replicate 64 0x61

/-- With a token of 64 bytes both requests store a zero behind the buffer of 64 bytes. -/
theorem not_netCap_within :
    (¬ ∀ ino clientId alloc rpc,
      StoresWithin 64 (netCapOpenGrant ino clientId callerOut alloc rpc).stores) ∧
    ¬ ∀ ino clientId token alloc rpc,
      StoresWithin 64 (netCapAcquire ino clientId token callerOut alloc rpc).stores := by
  have hstore : (64, 0) ∈ (capRequest true callerOut true (.ok longTokenReply)).stores := by
    decide
  constructor
  · intro h
    exact Nat.lt_irrefl 64 (h 1 (some [0x63]) true (.ok longTokenReply) _ hstore)
  · intro h
    exact Nat.lt_irrefl 64 (h 1 (some [0x63]) (some [0x74]) true (.ok longTokenReply) _ hstore)

end PowerFS.Net
