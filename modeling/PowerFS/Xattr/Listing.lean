import PowerFS.Xattr.Cache
import Mathlib.Data.List.Perm.Subperm

namespace PowerFS.Xattr

open Net

/-! `powerfs_listxattr`. -/

/-- Names, each ended by a zero byte. -/
def joinNames (names : List XattrName) : List UInt8 := names.flatMap fun n => n.val ++ [0]

/-- `xattr_is_trusted`: the prefix `trusted.`. -/
def isTrusted (name : XattrName) : Bool :=
  [116, 114, 117, 115, 116, 101, 100, 46].isPrefixOf name.val

/-- The names that `simple_xattr_list` lists for a caller with or without `CAP_SYS_ADMIN`. -/
def visibleNames (admin : Bool) (cache : XattrTable) : List XattrName :=
  cache.keys.filter fun n => admin || !isTrusted n

/-- `simple_xattr_list` into a buffer of `size` bytes; 0 asks for the length. -/
def simpleXattrList (admin : Bool) (cache : XattrTable) (size : Nat) : GetResult :=
  readValue (joinNames (visibleNames admin cache)) size

/-- `POWERFS_NET_FLD_XATTR_KEYS`. -/
def fldXattrKeys : UInt8 := 0xBC

/-- The response buffer on the stack of `powerfs_net_listxattr`, and the one that it allocates. -/
def listRespCap : Nat := 512

def listHeapCap : Nat := 8192

/-- A response into a buffer of `cap` bytes. -/
def receiveList (cap : Nat) : FilerReply → Except Errno (List UInt8)
  | .error err => .error err
  | .ok none => .error .enoent
  | .ok (some body) => if cap < body.length then .error .e2big else .ok body

/-- `powerfs_net_listxattr` into a buffer of `cap` bytes, with `list_len_out`. It asks again if the
first request fails with `-ERANGE`. -/
def netListxattr (first again : FilerReply) (cap : Nat) : Except Errno (List UInt8) × Nat :=
  let response :=
    match receiveList listRespCap first with
    | .error .erange => receiveList listHeapCap again
    | r => r
  match response with
  | .error err => (.error err, 0)
  | .ok body =>
    let raw := ((TlvDec.init body).findRaw fldXattrKeys).getD []
    if body.length = 0 ∨ raw.length = 0 then (.ok [], 0)
    else if cap = 0 ∨ cap < raw.length then (.error .erange, raw.length)
    else (.ok raw, raw.length)

def splitKeys : List UInt8 → List (List UInt8)
  | [] => []
  | b :: bs =>
    match splitKeys bs with
    | [] => if b = 0 then [[]] else [[b]]
    | key :: keys => if b = 0 then [] :: key :: keys else (b :: key) :: keys

/-- What happens around a call of `powerfs_listxattr`. `values` are the replies to the GET_XATTR
requests, and `alloc` says whether the cache gets its memory. -/
structure ListEnv where
  admin : Bool
  first : FilerReply
  again : FilerReply
  values : XattrName → FilerReply
  alloc : XattrName → Bool

/-- One round of the loop that fills the cache. -/
def refillStep (env : ListEnv) (cache : XattrTable) (key : List UInt8) : XattrTable :=
  if h : 0 < key.length ∧ key.length ≤ 255 ∧ 0 ∉ key then
    match netGetxattr (env.values ⟨key, h⟩) xattrSizeMax with
    | (.ok v, _) => fillCache (env.alloc ⟨key, h⟩) cache ⟨key, h⟩ (some v) .none
    | (.error _, _) => cache
  else cache

/-- The slow path of `powerfs_listxattr`. It is taken with a buffer only. -/
def fetchNames (env : ListEnv) (cache : XattrTable) (size : Nat) : GetResult × XattrTable :=
  match netListxattr env.first env.again size with
  | (.error err, _) => (.error err, cache)
  | (.ok bytes, len) => (.ok (len, bytes), (splitKeys bytes).foldl (refillStep env) cache)

/-- `powerfs_listxattr` into a buffer of `size` bytes, and the cache after it. -/
def listxattr (env : ListEnv) (cache : XattrTable) (size : Nat) : GetResult × XattrTable :=
  match simpleXattrList env.admin cache size with
  | .ok (len, bytes) =>
    if 0 < len ∨ size = 0 then (.ok (len, bytes), cache) else fetchNames env cache size
  | .error _ => fetchNames env cache size

def filerList (filer : XattrTable) : FilerReply :=
  .ok (some (if filer.keys = [] then [] else tlvField fldXattrKeys (joinNames filer.keys)))

def ListsAll (filer : XattrTable) (r : GetResult) : Prop :=
  ∃ names : List XattrName, names.Perm filer.keys ∧
    r = .ok ((joinNames names).length, joinNames names)

variable {names : List XattrName}

section Names

theorem joinNames_append (names names' : List XattrName) :
    joinNames (names ++ names') = joinNames names ++ joinNames names' := List.flatMap_append

theorem length_joinNames_of_perm {names' : List XattrName} (h : names.Perm names') :
    (joinNames names).length = (joinNames names').length :=
  (h.flatMap_right _).length_eq

theorem length_joinNames_eq_zero : (joinNames names).length = 0 ↔ names = [] := by
  constructor
  · intro h
    cases names with
    | nil => rfl
    | cons n names => simp [joinNames] at h
  · rintro rfl
    rfl

variable {all : List XattrName}

section

variable (hnodup : names.Nodup) (hsub : names ⊆ all)
include hnodup hsub

theorem exists_rest :
    ∃ rest, all.Perm (names ++ rest) ∧
      (joinNames all).length = (joinNames names).length + (joinNames rest).length := by
  obtain ⟨part, hpart, hsublist⟩ := List.subperm_of_subset hnodup hsub
  obtain ⟨rest, hrest⟩ := hsublist.exists_perm_append
  have hperm : all.Perm (names ++ rest) := hrest.trans (hpart.append_right rest)
  refine ⟨rest, hperm, ?_⟩
  rw [length_joinNames_of_perm hperm, joinNames_append, List.length_append]

theorem length_joinNames_le : (joinNames names).length ≤ (joinNames all).length := by
  obtain ⟨rest, -, hlen⟩ := exists_rest hnodup hsub
  omega

theorem perm_of_length_joinNames (hlen : (joinNames names).length = (joinNames all).length) :
    names.Perm all := by
  obtain ⟨rest, hrest, hbytes⟩ := exists_rest hnodup hsub
  have hempty : rest = [] := length_joinNames_eq_zero.mp (by omega)
  rw [hempty, List.append_nil] at hrest
  exact hrest.symm

end

end Names

section Complete

variable {filer cache : XattrTable} {env : ListEnv}

variable {size : Nat}

theorem netListxattr_of_le (again : FilerReply) (hsize : (joinNames filer.keys).length ≤ size)
    (hfits : (joinNames filer.keys).length + 5 ≤ listRespCap) :
    netListxattr (filerList filer) again size =
      (.ok (joinNames filer.keys), (joinNames filer.keys).length) := by
  have hcap : listRespCap = 512 := rfl
  by_cases hempty : filer.keys = []
  · simp [netListxattr, filerList, hempty, receiveList, joinNames]
  · have hraw := findRaw_tlvField fldXattrKeys (v := joinNames filer.keys) (by omega)
    have hpos : (joinNames filer.keys).length ≠ 0 := by
      rwa [Ne, length_joinNames_eq_zero]
    simp only [netListxattr, filerList, hempty, if_false, receiveList, length_tlvField]
    rw [if_neg (by omega)]
    simp only [hraw, Option.getD_some, length_tlvField]
    rw [if_neg (by omega), if_neg (by omega)]

theorem netListxattr_of_lt (again : FilerReply) (size : Nat)
    (hlong : listRespCap < (joinNames filer.keys).length + 5) :
    netListxattr (filerList filer) again size = (.error .e2big, 0) := by
  have hne : filer.keys ≠ [] := by
    intro hempty
    rw [hempty] at hlong
    exact absurd hlong (by decide)
  simp only [netListxattr, filerList, if_neg hne, receiveList, length_tlvField, if_pos hlong]

theorem visibleNames_subset (admin : Bool) (hcached : cache.keys ⊆ filer.keys) :
    visibleNames admin cache ⊆ filer.keys :=
  List.Subset.trans (List.filter_subset_self _) hcached

theorem nodup_visibleNames (admin : Bool) : (visibleNames admin cache).Nodup :=
  cache.nodup_keys.filter _

theorem perm_visibleNames_iff (admin : Bool) (hcached : cache.keys ⊆ filer.keys) :
    (visibleNames admin cache).Perm filer.keys ↔ filer.keys ⊆ visibleNames admin cache := by
  constructor
  · intro hperm
    exact hperm.symm.subset
  · intro hsub
    apply (List.perm_ext_iff_of_nodup (nodup_visibleNames admin) filer.nodup_keys).mpr
    intro name
    exact ⟨fun h => visibleNames_subset admin hcached h, fun h => hsub h⟩

theorem listsAll_joinNames_iff (hnodup : names.Nodup) (hsub : names ⊆ filer.keys) :
    ListsAll filer (.ok ((joinNames names).length, joinNames names)) ↔ names.Perm filer.keys := by
  constructor
  · rintro ⟨all, hall, heq⟩
    injection heq with heq
    injection heq with hlen
    exact perm_of_length_joinNames hnodup hsub (hlen.trans (length_joinNames_of_perm hall))
  · intro hperm
    exact ⟨names, hperm, rfl⟩

theorem listxattr_probe :
    (listxattr env cache 0).1 = .ok ((joinNames (visibleNames env.admin cache)).length, []) := by
  simp [listxattr, simpleXattrList, readValue]

theorem listxattr_of_le (hpos : 0 < size)
    (hsize : (joinNames (visibleNames env.admin cache)).length ≤ size) :
    listxattr env cache size =
      if visibleNames env.admin cache = [] then fetchNames env cache size
      else (.ok ((joinNames (visibleNames env.admin cache)).length,
        joinNames (visibleNames env.admin cache)), cache) := by
  have hread : simpleXattrList env.admin cache size =
      .ok ((joinNames (visibleNames env.admin cache)).length,
        joinNames (visibleNames env.admin cache)) := by
    rw [simpleXattrList, readValue, if_neg (by omega), if_neg (by omega)]
  have hlen : (joinNames (visibleNames env.admin cache)).length = 0 ↔
      visibleNames env.admin cache = [] := length_joinNames_eq_zero
  simp only [listxattr, hread]
  by_cases hempty : visibleNames env.admin cache = []
  · have hzero := hlen.mpr hempty
    rw [if_neg (by omega), if_pos hempty]
  · have hlong : 0 < (joinNames (visibleNames env.admin cache)).length :=
      Nat.pos_of_ne_zero (fun hzero => hempty (hlen.mp hzero))
    rw [if_pos (.inl hlong), if_neg hempty]

theorem listsAll_fetchNames_iff (hfirst : env.first = filerList filer)
    (hsize : (joinNames filer.keys).length ≤ size) :
    ListsAll filer (fetchNames env cache size).1 ↔
      (joinNames filer.keys).length + 5 ≤ listRespCap := by
  unfold fetchNames
  rw [hfirst]
  by_cases hfits : (joinNames filer.keys).length + 5 ≤ listRespCap
  · rw [netListxattr_of_le env.again hsize hfits]
    exact iff_of_true ⟨filer.keys, .refl _, rfl⟩ hfits
  · rw [netListxattr_of_lt env.again size (Nat.lt_of_not_le hfits)]
    refine iff_of_false ?_ hfits
    rintro ⟨names, -, heq⟩
    cases heq

end Complete

/-- A listing into a large buffer has all names on the Filer exactly if all are cached and visible,
or none is and they fit in the response buffer; the probe returns its size exactly if all are cached
and visible. -/
theorem listsAll_listxattr_iff (env : ListEnv) (filer cache : XattrTable) (size : Nat)
    (hfirst : env.first = filerList filer) (hcached : cache.keys ⊆ filer.keys)
    (hpos : 0 < size) (hsize : (joinNames filer.keys).length ≤ size) :
    (ListsAll filer (listxattr env cache size).1 ↔
      filer.keys ⊆ visibleNames env.admin cache ∨
        visibleNames env.admin cache = [] ∧
          (joinNames filer.keys).length + 5 ≤ listRespCap) ∧
    ((listxattr env cache 0).1 = .ok ((joinNames filer.keys).length, []) ↔
      filer.keys ⊆ visibleNames env.admin cache) := by
  have hsub := visibleNames_subset env.admin hcached
  have hnodup : (visibleNames env.admin cache).Nodup := nodup_visibleNames env.admin
  have hall := perm_visibleNames_iff env.admin hcached
  constructor
  · have hlen := length_joinNames_le hnodup hsub
    rw [listxattr_of_le hpos (Nat.le_trans hlen hsize)]
    by_cases hempty : visibleNames env.admin cache = []
    · rw [if_pos hempty, listsAll_fetchNames_iff hfirst hsize, hempty]
      constructor
      · intro hfits
        exact .inr ⟨rfl, hfits⟩
      · rintro (hnone | ⟨-, hfits⟩)
        · rw [List.subset_nil.mp hnone]
          decide
        · exact hfits
    · rw [if_neg hempty, listsAll_joinNames_iff hnodup hsub, hall]
      simp only [hempty, false_and, or_false]
  · rw [listxattr_probe, ← hall]
    constructor
    · intro heq
      injection heq with heq
      injection heq with hlen
      exact perm_of_length_joinNames hnodup hsub hlen
    · intro hperm
      rw [length_joinNames_of_perm hperm]

def twoNames : XattrTable := (AssocTable.empty.put userA [1]).put userB [2]

def twoNamesEnv : ListEnv :=
  ⟨true, filerList twoNames, filerList twoNames, filerGet twoNames, fun _ => true⟩

/-- With both cached, the listing and the probe have them. -/
theorem listsAll_listxattr_cached :
    (joinNames twoNames.keys).length = 14 ∧
      ListsAll twoNames (listxattr twoNamesEnv twoNames 14).1 ∧
      (listxattr twoNamesEnv twoNames 0).1 = .ok (14, []) := by
  have h := listsAll_listxattr_iff twoNamesEnv twoNames twoNames 14 rfl (List.Subset.refl _)
    (by decide) (by decide)
  exact ⟨rfl, h.1.mpr (.inl (by decide)), h.2.mpr (by decide)⟩

/-- After a read of one name, the listing has that one only. -/
theorem not_listsAll_listxattr :
    ¬ ∀ (env : ListEnv) (filer cache : XattrTable) (size : Nat), env.first = filerList filer →
      cache.keys ⊆ filer.keys → 0 < size → (joinNames filer.keys).length ≤ size →
        ListsAll filer (listxattr env cache size).1 := by
  intro h
  obtain ⟨names, hperm, heq⟩ := h twoNamesEnv twoNames (AssocTable.empty.put userA [1]) 14 rfl
    (by decide) (by decide) (by decide)
  have hlen : (joinNames names).length = 14 := length_joinNames_of_perm hperm
  injection heq with heq
  injection heq with hseven
  rw [hlen] at hseven
  cases hseven

end PowerFS.Xattr
