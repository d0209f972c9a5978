import PowerFS.Lib.AssocTable
import PowerFS.Net.TlvField

namespace PowerFS.Xattr

open Net

/-! Extended attributes: the `simple_xattr` cache of an inode, the requests of
`powerfs_net_xattr.c`, and the handlers of `powerfs_xattr.c`. -/

/-- The full name of an attribute, of at most `XATTR_NAME_MAX` bytes. -/
abbrev XattrName := { name : List UInt8 // 0 < name.length ∧ name.length ≤ 255 ∧ 0 ∉ name }

/-- `user.a`. -/
def userA : XattrName := ⟨[117, 115, 101, 114, 46, 97], by decide⟩

/-- `user.b`. -/
def userB : XattrName := ⟨[117, 115, 101, 114, 46, 98], by decide⟩

abbrev XattrValue := List UInt8

/-- The attributes of an inode, in the cache or on the Filer. -/
abbrev XattrTable := AssocTable XattrName XattrValue

/-- What `getxattr` returns: a length, and the bytes if there is a buffer. -/
abbrev GetResult := Except Errno (Nat × List UInt8)

/-- `XATTR_CREATE` and `XATTR_REPLACE`. -/
structure SetFlags where
  create : Bool
  replace : Bool
  deriving DecidableEq

def SetFlags.none : SetFlags := ⟨false, false⟩

/-- `XATTR_SIZE_MAX`. -/
def xattrSizeMax : Nat := 65536

/-- A value read into a buffer of `size` bytes; 0 asks for the length. -/
def readValue (v : XattrValue) (size : Nat) : GetResult :=
  if size = 0 then .ok (v.length, [])
  else if size < v.length then .error .erange
  else .ok (v.length, v)

/-- `simple_xattr_get`. -/
def simpleXattrGet (cache : XattrTable) (name : XattrName) (size : Nat) : GetResult :=
  match cache.get name with
  | none => .error .enodata
  | some v => readValue v size

/-- `simple_xattr_set`; no value removes the attribute. -/
def simpleXattrSet (alloc : Bool) (cache : XattrTable) (name : XattrName)
    (value : Option XattrValue) (flags : SetFlags) : Except Errno XattrTable :=
  match value, cache.get name with
  | none, some _ => if flags.create then .error .eexist else .ok (cache.erase name)
  | none, none => if flags.replace then .error .enodata else .ok cache
  | some v, some _ =>
    if !alloc then .error .enomem
    else if flags.create then .error .eexist
    else .ok (cache.put name v)
  | some v, none =>
    if !alloc then .error .enomem
    else if flags.replace then .error .enodata
    else .ok (cache.put name v)

/-- A `simple_xattr_set` whose errors are ignored. -/
def fillCache (alloc : Bool) (cache : XattrTable) (name : XattrName) (value : Option XattrValue)
    (flags : SetFlags) : XattrTable :=
  match simpleXattrSet alloc cache name value flags with
  | .ok cache' => cache'
  | .error _ => cache

/-- `POWERFS_NET_FLD_XATTR_VALUE`. -/
def fldXattrValue : UInt8 := 0xB4

/-- The result of a request: an error, `POWERFS_NET_STATUS_ERR_NOT_FOUND`, or a body. -/
abbrev FilerReply := Except Errno (Option (List UInt8))

/-- The response buffer of `powerfs_net_getxattr`. -/
def getxattrRespCap : Nat := 4096

/-- `powerfs_net_getxattr` into a buffer of `cap` bytes, with `value_len_out`. A body that does not
fit in the response buffer ends the request with `-E2BIG`. -/
def netGetxattr (reply : FilerReply) (cap : Nat) : Except Errno XattrValue × Nat :=
  match reply with
  | .error err => (.error err, 0)
  | .ok none => (.error .enodata, 0)
  | .ok (some body) =>
    if getxattrRespCap < body.length then (.error .e2big, 0)
    else
      let raw := ((TlvDec.init body).findRaw fldXattrValue).getD []
      if raw.length = 0 then (.ok [], 0)
      else if cap < raw.length then (.error .erange, raw.length)
      else (.ok raw, raw.length)

/-- The buffer on the stack that the size probe reads into. -/
def probeCap : Nat := 256

/-- The slow path of `powerfs_xattr_handler_get`. -/
def fetchXattr (alloc : Bool) (cache : XattrTable) (reply : FilerReply) (name : XattrName)
    (size : Nat) : GetResult × XattrTable :=
  if 0 < size then
    match netGetxattr reply size with
    | (.ok v, len) => (.ok (len, v), fillCache alloc cache name (some v) .none)
    | (.error err, _) => (.error err, cache)
  else
    match netGetxattr reply probeCap with
    | (.ok v, len) => (.ok (len, []), fillCache alloc cache name (some v) .none)
    | (.error .erange, len) => (.ok (len, []), cache)
    | (.error err, _) => (.error err, cache)

/-- `powerfs_xattr_handler_get`. -/
def xattrHandlerGet (alloc : Bool) (cache : XattrTable) (reply : FilerReply) (name : XattrName)
    (size : Nat) : GetResult × XattrTable :=
  match simpleXattrGet cache name size with
  | .error .enodata => fetchXattr alloc cache reply name size
  | res => (res, cache)

/-- The value that a SET_XATTR request carries. `powerfs_net_setxattr` does not look at the result
of the encoder, which leaves out a value that is too long. -/
def requestValue (v : XattrValue) : Option XattrValue :=
  match encBytes fldXattrValue v with
  | .ok _ => some v
  | .error _ => none

/-- `powerfs_xattr_handler_set`; `rpc` is the result of its request. -/
def xattrHandlerSet (alloc : Bool) (cache : XattrTable) (rpc : Except Errno Unit)
    (name : XattrName) (value : Option XattrValue) (flags : SetFlags) :
    Except Errno Unit × XattrTable :=
  match value, rpc with
  | none, .error err => (.error err, cache)
  | none, .ok () => (.ok (), fillCache alloc cache name none .none)
  | some v, rpc =>
    if xattrSizeMax < v.length then (.error .e2big, cache)
    else
      match rpc with
      | .error err => (.error err, cache)
      | .ok () => (.ok (), fillCache alloc cache name (some v) flags)

def filerGet (filer : XattrTable) (name : XattrName) : FilerReply :=
  .ok ((filer.get name).map (tlvField fldXattrValue))

/-- SET_XATTR on a Filer. `noValue` is what it makes of a request without a value. -/
def filerSet (filer : XattrTable) (name : XattrName) (value noValue : Option XattrValue) :
    XattrTable :=
  match value, noValue with
  | some v, _ => filer.put name v
  | none, some v => filer.put name v
  | none, none => filer.erase name

section Fill

variable (alloc : Bool) (cache : XattrTable) (name k : XattrName) (flags : SetFlags)

theorem get_fillCache_none :
    (fillCache alloc cache name none .none).get k = if k = name then none else cache.get k := by
  unfold fillCache simpleXattrSet
  cases hname : cache.get name with
  | some v => exact AssocTable.get_erase cache name k
  | none =>
    show cache.get k = _
    split
    · next hk => rw [hk, hname]
    · rfl

theorem get_fillCache_of_ne (value : Option XattrValue) (hk : k ≠ name) :
    (fillCache alloc cache name value flags).get k = cache.get k := by
  have hput (v : XattrValue) : (cache.put name v).get k = cache.get k :=
    cache.get_put_of_ne v hk
  have herase : (cache.erase name).get k = cache.get k := by
    rw [AssocTable.get_erase, if_neg hk]
  unfold fillCache simpleXattrSet
  cases value <;> cases cache.get name <;> cases alloc <;> cases flags.create <;>
    cases flags.replace <;> simp [hput, herase]

theorem get_fillCache_self (v : XattrValue) :
    (fillCache alloc cache name (some v) flags).get name =
      if alloc = true ∧ (flags.create = true → cache.get name = none) ∧
        (flags.replace = true → cache.get name ≠ none) then some v else cache.get name := by
  have hput := cache.get_put_self name v
  unfold fillCache simpleXattrSet
  cases hname : cache.get name <;> cases alloc <;> cases flags.create <;> cases flags.replace <;>
    simp [hname]

end Fill

section Read

variable {name : XattrName}

variable {v : XattrValue}

theorem netGetxattr_of_le (h : v.length + 5 ≤ getxattrRespCap) (cap : Nat) :
    netGetxattr (.ok (some (tlvField fldXattrValue v))) cap =
      if cap < v.length then (.error .erange, v.length) else (.ok v, v.length) := by
  have hcap : getxattrRespCap = 4096 := rfl
  have hraw := findRaw_tlvField fldXattrValue (v := v) (by omega)
  simp only [netGetxattr, length_tlvField, hraw]
  rw [if_neg (by omega)]
  split
  · next hzero =>
    obtain rfl := List.eq_nil_of_length_eq_zero hzero
    rfl
  · rfl

theorem netGetxattr_of_lt (h : getxattrRespCap < v.length + 5) (cap : Nat) :
    netGetxattr (.ok (some (tlvField fldXattrValue v))) cap = (.error .e2big, 0) := by
  simp only [netGetxattr, length_tlvField]
  rw [if_pos h]

theorem xattrHandlerGet_cached {cache : XattrTable}
    (hv : cache.get name = some v) (alloc : Bool) (reply : FilerReply) (size : Nat) :
    xattrHandlerGet alloc cache reply name size = (readValue v size, cache) := by
  simp only [xattrHandlerGet, simpleXattrGet, hv]
  split
  · next hnodata =>
    unfold readValue at hnodata
    split_ifs at hnodata
    cases hnodata
  · rfl

variable {cache filer : XattrTable} (alloc : Bool) (size : Nat)

theorem xattrHandlerGet_miss (hmiss : cache.get name = none) (reply : FilerReply) :
    xattrHandlerGet alloc cache reply name size = fetchXattr alloc cache reply name size := by
  simp only [xattrHandlerGet, simpleXattrGet, hmiss]

theorem fetchXattr_absent (hfiler : filer.get name = none) :
    fetchXattr alloc cache (filerGet filer name) name size = (.error .enodata, cache) := by
  have hnet (cap : Nat) : netGetxattr (filerGet filer name) cap = (.error .enodata, 0) := by
    rw [filerGet, hfiler]
    rfl
  simp only [fetchXattr, hnet, ite_self]

theorem fetchXattr_of_lt (hfiler : filer.get name = some v) (h : getxattrRespCap < v.length + 5) :
    fetchXattr alloc cache (filerGet filer name) name size = (.error .e2big, cache) := by
  have hnet (cap : Nat) : netGetxattr (filerGet filer name) cap = (.error .e2big, 0) := by
    rw [filerGet, hfiler]
    exact netGetxattr_of_lt h cap
  simp only [fetchXattr, hnet, ite_self]

/-- A value that fits in the response buffer is returned, and cached unless it did not fit in the
buffer for it. -/
theorem fetchXattr_of_le (hfiler : filer.get name = some v) (h : v.length + 5 ≤ getxattrRespCap) :
    ∃ cache', fetchXattr alloc cache (filerGet filer name) name size =
        (readValue v size, cache') ∧
      (cache' = cache ∨ cache' = fillCache alloc cache name (some v) .none) := by
  have hnet (cap : Nat) : netGetxattr (filerGet filer name) cap =
      if cap < v.length then (.error .erange, v.length) else (.ok v, v.length) := by
    rw [filerGet, hfiler]
    exact netGetxattr_of_le h cap
  by_cases hsize : 0 < size
  · have hread : readValue v size =
        if size < v.length then .error .erange else .ok (v.length, v) := by
      rw [readValue, if_neg (Nat.pos_iff_ne_zero.mp hsize)]
    rw [fetchXattr, if_pos hsize, hnet, hread]
    by_cases hlong : size < v.length
    · rw [if_pos hlong, if_pos hlong]
      exact ⟨cache, rfl, .inl rfl⟩
    · rw [if_neg hlong, if_neg hlong]
      exact ⟨_, rfl, .inr rfl⟩
  · have hread : readValue v size = .ok (v.length, []) := by
      rw [readValue, if_pos (Nat.eq_zero_of_not_pos hsize)]
    rw [fetchXattr, if_neg hsize, hnet, hread]
    by_cases hlong : probeCap < v.length
    · rw [if_pos hlong]
      exact ⟨cache, rfl, .inl rfl⟩
    · rw [if_neg hlong]
      exact ⟨_, rfl, .inr rfl⟩

end Read

theorem get_filerSet (filer : XattrTable) (name k : XattrName) (value noValue : Option XattrValue) :
    (filerSet filer name value noValue).get k =
      if k = name then value.or noValue else filer.get k := by
  unfold filerSet
  split
  · exact filer.get_put name k _
  · exact filer.get_put name k _
  · exact filer.get_erase name k

theorem requestValue_or_iff (v : XattrValue) (noValue : Option XattrValue) :
    (requestValue v).or noValue = some v ↔ v.length ≤ maxTlv ∨ noValue = some v := by
  unfold requestValue encBytes
  by_cases h : maxTlv < v.length
  · simp [h, Nat.not_le.mpr h]
  · simp [h, Nat.le_of_not_lt h]

end PowerFS.Xattr
