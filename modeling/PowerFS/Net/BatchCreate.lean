import PowerFS.Net.TlvRoundTrip

namespace PowerFS.Net

/-! The body of a `BatchCreate` request. Every entry is encoded into a buffer of its own, which is
then added as a field; what the encoder returns is ignored. -/

def fldParentIno : UInt8 := 0x01
def fldName : UInt8 := 0x02
def fldMode : UInt8 := 0x03
def fldUid : UInt8 := 0x04
def fldGid : UInt8 := 0x05
def fldIno : UInt8 := 0x07
def fldMtime : UInt8 := 0x09
def fldAtime : UInt8 := 0x0A
def fldCount : UInt8 := 0x24
def fldEntry : UInt8 := 0x25
def fldShardId : UInt8 := 0x70

/-- `NAME_MAX`. -/
def nameMax : Nat := 255

/-- What is sent of a `struct powerfs_dirty_create`. -/
structure EntryFields where
  ino : UInt64
  parentIno : UInt64
  mode : UInt32
  uid : UInt32
  gid : UInt32
  mtime : UInt64
  atime : UInt64
  name : List UInt8
  deriving DecidableEq

/-- An entry whose name fits in its array. -/
structure BatchEntry extends EntryFields where
  name_le : name.length ≤ nameMax
  deriving DecidableEq

def EntryFields.fields (x : EntryFields) : List (UInt8 × TlvValue) :=
  [(fldIno, .u64 x.ino), (fldParentIno, .u64 x.parentIno), (fldName, .string x.name),
    (fldMode, .u32 x.mode), (fldUid, .u32 x.uid), (fldGid, .u32 x.gid)] ++
  (if x.mtime = 0 then [] else [(fldMtime, .u64 x.mtime)]) ++
  if x.atime = 0 then [] else [(fldAtime, .u64 x.atime)]

/-- The size of `entry_buf`. -/
def entryCap : Nat := 80 + nameMax + 1

/-- What is in `entry_buf`. -/
def EntryFields.encode (x : EntryFields) : List UInt8 :=
  (encRun (.init entryCap) (x.fields.map fun f => f.2.call f.1)).2.buf

def batchFields (shardId : UInt64) (entries : List BatchEntry) : List (UInt8 × TlvValue) :=
  (fldShardId, .u64 shardId) :: (fldCount, .u32 (UInt32.ofNat entries.length)) ::
    entries.map fun x => (fldEntry, .bytes x.encode)

/-- The body that `powerfs_net_batch_create` sends; none without entries. -/
def batchCreateBody (shardId : UInt64) (entries : List BatchEntry) : Option (List UInt8) :=
  if entries.length = 0 then none
  else
    let bodyCap := 64 + entries.length * (80 + nameMax + 1)
    some (encRun (.init bodyCap) ((batchFields shardId entries).map fun f => f.2.call f.1)).2.buf

/-- An entry as its receiver reads it; a time that is not sent is 0. -/
def decodeEntry (v : List UInt8) : Option EntryFields := do
  let d := TlvDec.init v
  let ino ← d.findU64 fldIno
  let parentIno ← d.findU64 fldParentIno
  let name ← d.findRaw fldName
  let mode ← d.findU32 fldMode
  let uid ← d.findU32 fldUid
  let gid ← d.findU32 fldGid
  some { ino, parentIno, mode, uid, gid, name
         mtime := (d.findU64 fldMtime).getD 0
         atime := (d.findU64 fldAtime).getD 0 }

def entryValues (body : List UInt8) : List (List UInt8) :=
  ((tlv.split body).1.filter fun r => r.1 = fldEntry).map Prod.snd

/-- The body is made of complete fields, with as many entries as its count says, which are complete
too and read back as the entries that were to be sent. -/
structure BatchDecodes (entries : List BatchEntry) (body : List UInt8) : Prop where
  wellFormed : tlv.WellFormed body
  count : ∃ n, (TlvDec.init body).findU32 fldCount = some n ∧ (entryValues body).length = n.toNat
  entryWellFormed : ∀ v ∈ entryValues body, tlv.WellFormed v
  decoded : (entryValues body).map decodeEntry = entries.map fun x => some x.toEntryFields

namespace EntryFields

variable (x : EntryFields)

/-- The bytes that an entry takes. -/
def size : Nat :=
  58 + x.name.length + (if x.mtime = 0 then 0 else 13) + if x.atime = 0 then 0 else 13

theorem encodedSize_fields : encodedSize x.fields = x.size := by
  rw [size, fields]
  split <;> split <;>
    simp [encodedSize, TlvValue.encoded, length_leBytes] <;> omega

/-- The ids of the fields, without those of times that are not sent. -/
def ids (noMtime noAtime : Bool) : List UInt8 :=
  [fldIno, fldParentIno, fldName, fldMode, fldUid, fldGid] ++
    (if noMtime then [] else [fldMtime]) ++ if noAtime then [] else [fldAtime]

theorem map_fst_fields : x.fields.map Prod.fst = ids (x.mtime = 0) (x.atime = 0) := by
  rw [fields, ids]
  split <;> split <;> simp_all

theorem nodup_fields : (x.fields.map Prod.fst).Nodup := by
  have hnodup : ∀ noMtime noAtime, (ids noMtime noAtime).Nodup := by decide
  rw [map_fst_fields]
  exact hnodup _ _

theorem length_fields_le (h : x.name.length ≤ maxTlv) :
    ∀ f ∈ x.fields, f.2.encoded.length ≤ maxTlv := by
  have hmax : 8 ≤ maxTlv := by decide
  have h4 : 4 ≤ maxTlv := by decide
  rw [fields]
  split <;> split <;> simp [TlvValue.encoded, length_leBytes, h, hmax, h4]

end EntryFields

theorem decodeEntry_of_holds {v : List UInt8} {x : EntryFields}
    (h : (TlvDec.init v).Holds x.fields) : decodeEntry v = some x := by
  have hmtime : ((TlvDec.init v).findU64 fldMtime).getD 0 = x.mtime := by
    by_cases hzero : x.mtime = 0
    · have hids : ∀ noAtime, fldMtime ∉ EntryFields.ids true noAtime := by decide
      rw [h.findU64_of_notMem, hzero]
      · rfl
      · rw [x.map_fst_fields, decide_eq_true hzero]
        exact hids _
    · rw [h.findU64_of_mem (n := x.mtime)]
      · rfl
      · simp [EntryFields.fields, hzero]
  have hatime : ((TlvDec.init v).findU64 fldAtime).getD 0 = x.atime := by
    by_cases hzero : x.atime = 0
    · have hids : ∀ noMtime, fldAtime ∉ EntryFields.ids noMtime true := by decide
      rw [h.findU64_of_notMem, hzero]
      · rfl
      · rw [x.map_fst_fields, decide_eq_true hzero]
        exact hids _
    · rw [h.findU64_of_mem (n := x.atime)]
      · rfl
      · simp [EntryFields.fields, hzero]
  have hino : (TlvDec.init v).findU64 fldIno = some x.ino :=
    h.findU64_of_mem (by simp [EntryFields.fields])
  have hparentIno : (TlvDec.init v).findU64 fldParentIno = some x.parentIno :=
    h.findU64_of_mem (by simp [EntryFields.fields])
  have hname : (TlvDec.init v).findRaw fldName = some x.name :=
    h.findRaw_of_mem (v := .string x.name) (by simp [EntryFields.fields])
  have hmode : (TlvDec.init v).findU32 fldMode = some x.mode :=
    h.findU32_of_mem (by simp [EntryFields.fields])
  have huid : (TlvDec.init v).findU32 fldUid = some x.uid :=
    h.findU32_of_mem (by simp [EntryFields.fields])
  have hgid : (TlvDec.init v).findU32 fldGid = some x.gid :=
    h.findU32_of_mem (by simp [EntryFields.fields])
  simp only [decodeEntry, hino, hparentIno, hname, hmode, huid, hgid, hmtime, hatime]
  rfl

theorem subset_of_decodeEntry {v : List UInt8} {x : EntryFields} (h : decodeEntry v = some x) :
    x.fields.map Prod.fst ⊆ (tlv.split v).1.map Prod.fst := by
  have hfound : ∀ {α : Type} {g : List UInt8 → α} {a field want},
      (firstOf (tlv.split v).1 field want).map g = some a →
        field ∈ (tlv.split v).1.map Prod.fst := by
    intro α g a field want hsome
    obtain ⟨u, hu, _⟩ := Option.map_eq_some_iff.mp hsome
    exact List.mem_map_of_mem (f := Prod.fst) (mem_of_firstOf hu)
  have htime : ∀ {field} {t : UInt64}, t ≠ 0 → ((TlvDec.init v).findU64 field).getD 0 = t →
      field ∈ (tlv.split v).1.map Prod.fst := by
    intro field t hne ht
    cases hfind : (TlvDec.init v).findU64 field with
    | none =>
      rw [hfind] at ht
      exact absurd ht.symm hne
    | some u => exact hfound ((map_find_eq_firstOf _ _ 8 le64).symm.trans hfind)
  simp only [decodeEntry, Option.bind_eq_bind, Option.bind_eq_some_iff] at h
  obtain ⟨ino, hino, parentIno, hparentIno, name, hname, mode, hmode, uid, huid, gid, hgid, hx⟩ := h
  rw [TlvDec.findU64, map_find_eq_firstOf] at hino hparentIno
  rw [TlvDec.findU32, map_find_eq_firstOf] at hmode huid hgid
  rw [findRaw_eq_firstOf] at hname
  obtain rfl := Option.some.inj hx
  intro field hfield
  rw [EntryFields.map_fst_fields] at hfield
  obtain hfield | hfield := List.mem_append.mp hfield
  · obtain hfield | hfield := List.mem_append.mp hfield
    · simp only [List.mem_cons, List.not_mem_nil, or_false] at hfield
      obtain rfl | rfl | rfl | rfl | rfl | rfl := hfield
      · exact hfound hino
      · exact hfound hparentIno
      · exact List.mem_map_of_mem (f := Prod.fst) (mem_of_firstOf hname)
      · exact hfound hmode
      · exact hfound huid
      · exact hfound hgid
    · split at hfield
      · cases hfield
      · next hne =>
        rw [List.mem_singleton.mp hfield]
        exact htime (fun hzero => hne (decide_eq_true hzero)) rfl
  · split at hfield
    · cases hfield
    · next hne =>
      rw [List.mem_singleton.mp hfield]
      exact htime (fun hzero => hne (decide_eq_true hzero)) rfl

theorem length_encode_le (x : EntryFields) : x.encode.length ≤ entryCap := by
  obtain ⟨more, hrun, hle⟩ := encRun_extends (e := .init entryCap) (Nat.zero_le _)
    (x.fields.map fun f => f.2.call f.1)
  rw [EntryFields.encode, hrun]
  exact hle

section Entry

variable {x : EntryFields} (hname : x.name.length ≤ nameMax)

include hname

theorem name_le_maxTlv : x.name.length ≤ maxTlv := Nat.le_trans hname (by decide)

theorem encode_eq (hsize : x.size ≤ entryCap) : x.encode = tlv.writeAll (x.fields.map record) := by
  rw [EntryFields.encode, encRun_eq (x.length_fields_le (name_le_maxTlv hname)) (by
    rw [x.encodedSize_fields]
    show 0 + x.size ≤ entryCap
    omega)]
  rfl

theorem length_encode (hsize : x.size ≤ entryCap) : x.encode.length = x.size := by
  rw [encode_eq hname hsize, length_writeAll_record, x.encodedSize_fields]

theorem fields_fits : ∀ r ∈ x.fields.map record, tlv.Fits r := by
  intro r hr
  obtain ⟨f, hf, rfl⟩ := List.mem_map.mp hr
  exact Nat.lt_of_le_of_lt (x.length_fields_le (name_le_maxTlv hname) f hf) (by decide)

theorem decodeEntry_encode_iff : decodeEntry x.encode = some x ↔ x.size ≤ entryCap := by
  constructor
  · intro hdec
    by_contra hbig
    obtain ⟨k, hk, hsplit⟩ := encRun_cut (e := .init entryCap) .nil (Nat.zero_le _)
      (x.length_fields_le (name_le_maxTlv hname)) (by
        rw [x.encodedSize_fields]
        show entryCap < 0 + x.size
        omega)
    have hsub := subset_of_decodeEntry hdec
    rw [EntryFields.encode, hsplit] at hsub
    have hle := x.nodup_fields.length_le_of_subset hsub
    have hinit : (tlv.split (TlvEnc.init entryCap).buf).1 = [] := rfl
    rw [hinit, List.nil_append, List.length_map, List.length_map, List.length_take] at hle
    omega
  · intro hsize
    rw [encode_eq hname hsize]
    exact decodeEntry_of_holds
      (TlvDec.holds_writeAll (x.length_fields_le (name_le_maxTlv hname)) x.nodup_fields)

end Entry

def BatchFits (entries : List BatchEntry) : Prop :=
  (∀ x ∈ entries, x.size ≤ entryCap) ∧
    22 + (entries.map fun x => x.size + 5).sum ≤ 64 + entries.length * entryCap

instance (entries : List BatchEntry) : Decidable (BatchFits entries) :=
  inferInstanceAs (Decidable (_ ∧ _))

section Batch

variable (shardId : UInt64) (entries : List BatchEntry)

theorem encodedSize_batchFields : encodedSize (batchFields shardId entries) =
    22 + (entries.map fun x => x.encode.length + 5).sum := by
  rw [batchFields, encodedSize_cons, encodedSize_cons, encodedSize, List.map_map]
  simp only [TlvValue.encoded, length_leBytes, Function.comp_def]
  omega

theorem encodedSize_batchFields_of_le (hsize : ∀ x ∈ entries, x.size ≤ entryCap) :
    encodedSize (batchFields shardId entries) =
      22 + (entries.map fun x => x.size + 5).sum := by
  have hmap : (entries.map fun x => x.encode.length + 5) = entries.map fun x => x.size + 5 := by
    apply List.map_congr_left
    intro x hx
    rw [length_encode x.name_le (hsize x hx)]
  rw [encodedSize_batchFields, hmap]

theorem batchFields_le : ∀ f ∈ batchFields shardId entries, f.2.encoded.length ≤ maxTlv := by
  intro f hf
  obtain rfl | hf := List.mem_cons.mp hf
  · simp only [TlvValue.encoded, length_leBytes]
    decide
  obtain rfl | hf := List.mem_cons.mp hf
  · simp only [TlvValue.encoded, length_leBytes]
    decide
  obtain ⟨x, _, rfl⟩ := List.mem_map.mp hf
  exact Nat.le_trans (length_encode_le x.toEntryFields) (by decide)

theorem batchRecords_fits : ∀ r ∈ (batchFields shardId entries).map record, tlv.Fits r := by
  intro r hr
  obtain ⟨f, hf, rfl⟩ := List.mem_map.mp hr
  exact Nat.lt_of_le_of_lt (batchFields_le shardId entries f hf) (by decide)

theorem entryValues_take {body : List UInt8} {k : Nat}
    (h : (tlv.split body).1 = ((batchFields shardId entries).map record).take k) :
    entryValues body = (entries.take (k - 2)).map fun x => x.encode := by
  have hother : fldShardId ≠ fldEntry ∧ fldCount ≠ fldEntry := by decide
  rw [entryValues, h]
  match k with
  | 0 => rfl
  | 1 => rfl
  | k + 2 =>
    have hentries : ((entries.map fun x => record (fldEntry, .bytes x.encode)).take k).filter
        (fun r => r.1 = fldEntry) =
        (entries.take k).map fun x => record (fldEntry, .bytes x.encode) := by
      rw [← List.map_take, List.filter_eq_self]
      intro r hr
      obtain ⟨x, _, rfl⟩ := List.mem_map.mp hr
      exact decide_eq_true rfl
    simp only [batchFields, List.map_cons, List.map_map, List.take_succ_cons, Function.comp_def]
    rw [List.filter_cons_of_neg (by simp [record, hother.1]),
      List.filter_cons_of_neg (by simp [record, hother.2]), hentries, List.map_map]
    rfl

theorem body_eq {cap : Nat} (hcap : encodedSize (batchFields shardId entries) ≤ cap) :
    (encRun (.init cap) ((batchFields shardId entries).map fun f => f.2.call f.1)).2.buf =
      tlv.writeAll ((batchFields shardId entries).map record) := by
  rw [encRun_eq (batchFields_le shardId entries) (by
    show 0 + encodedSize _ ≤ cap
    omega)]
  rfl

theorem entryValues_writeAll :
    entryValues (tlv.writeAll ((batchFields shardId entries).map record)) =
      entries.map fun x => x.encode := by
  have hlength : ((batchFields shardId entries).map record).length = entries.length + 2 := by
    simp [batchFields]
  rw [entryValues_take shardId entries (k := entries.length + 2), Nat.add_sub_cancel,
    List.take_length]
  rw [Records.Format.split_writeAll (batchRecords_fits shardId entries), ← hlength,
    List.take_length]

variable {shardId entries}

theorem batchDecodes_of_fits (hcount : entries.length < 2 ^ 32) (hfits : BatchFits entries)
    {body : List UInt8} (hbody : body ∈ batchCreateBody shardId entries) :
    BatchDecodes entries body := by
  have hcap : encodedSize (batchFields shardId entries) ≤ 64 + entries.length * entryCap := by
    rw [encodedSize_batchFields_of_le shardId entries hfits.1]
    exact hfits.2
  have heq : body = tlv.writeAll ((batchFields shardId entries).map record) := by
    rw [batchCreateBody] at hbody
    split at hbody
    · cases hbody
    · rw [← body_eq shardId entries hcap]
      exact (Option.some.inj hbody).symm
  subst heq
  have hsplit := Records.Format.split_writeAll (batchRecords_fits shardId entries)
  refine ⟨⟨_, batchRecords_fits shardId entries, rfl⟩,
    ⟨UInt32.ofNat entries.length, ?_, ?_⟩, ?_, ?_⟩
  · have hother : fldShardId ≠ fldCount := by decide
    rw [TlvDec.findU32, map_find_eq_firstOf, TlvDec.buf_init, hsplit]
    simp only [batchFields, List.map_cons, firstOf, record, TlvDec.wanted, List.find?_cons,
      TlvValue.encoded, length_leBytes, hother, false_and, decide_false, or_true, and_self,
      decide_true, Option.map_some, le32]
    rw [leNat_take_leBytes (UInt32.toNat_lt _), UInt32.ofNat_toNat]
  · rw [entryValues_writeAll, List.length_map, UInt32.toNat_ofNat_of_lt' hcount]
  · rw [entryValues_writeAll]
    intro v hv
    obtain ⟨x, hx, rfl⟩ := List.mem_map.mp hv
    exact ⟨_, fields_fits x.name_le, encode_eq x.name_le (hfits.1 x hx)⟩
  · rw [entryValues_writeAll, List.map_map]
    apply List.map_congr_left
    intro x hx
    exact (decodeEntry_encode_iff x.name_le).mpr (hfits.1 x hx)

/-- What is read back fits: a field that is cut off leaves too few entries, an entry that is cut off
lacks a field. -/
theorem fits_of_batchDecodes {body : List UInt8} (hbody : body ∈ batchCreateBody shardId entries)
    (h : BatchDecodes entries body) : BatchFits entries := by
  have hvalues : (entryValues body).length = entries.length := by
    have hlength := congrArg List.length h.decoded
    rwa [List.length_map, List.length_map] at hlength
  obtain ⟨hpos, rfl⟩ : entries.length ≠ 0 ∧ (encRun (.init (64 + entries.length * entryCap))
      ((batchFields shardId entries).map fun f => f.2.call f.1)).2.buf = body := by
    rw [batchCreateBody] at hbody
    split at hbody
    · cases hbody
    · next hpos => exact ⟨hpos, Option.some.inj hbody⟩
  have hcap : encodedSize (batchFields shardId entries) ≤ 64 + entries.length * entryCap := by
    by_contra hbig
    obtain ⟨k, hk, hsplit⟩ := encRun_cut (e := .init (64 + entries.length * entryCap)) .nil
      (Nat.zero_le _) (batchFields_le shardId entries) (by
        show 64 + entries.length * entryCap < 0 + _
        omega)
    rw [entryValues_take shardId entries hsplit, List.length_map, List.length_take] at hvalues
    rw [batchFields, List.length_cons, List.length_cons, List.length_map] at hk
    omega
  have hsize : ∀ x ∈ entries, x.size ≤ entryCap := by
    have hdecoded := h.decoded
    rw [body_eq shardId entries hcap, entryValues_writeAll, List.map_map] at hdecoded
    intro x hx
    exact (decodeEntry_encode_iff x.name_le).mp (List.map_inj_left.mp hdecoded x hx)
  rw [encodedSize_batchFields_of_le shardId entries hsize] at hcap
  exact ⟨hsize, hcap⟩

end Batch

/-- The body of a batch holds as many entries as it says, and they read back as what was to be sent,
exactly if every entry fits in its buffer and all of them in the body. -/
theorem batchDecodes_iff (shardId : UInt64) (entries : List BatchEntry)
    (hcount : entries.length < 2 ^ 32) :
    (∀ body ∈ batchCreateBody shardId entries, BatchDecodes entries body) ↔ BatchFits entries := by
  constructor
  · intro h
    cases hbody : batchCreateBody shardId entries with
    | none =>
      rw [batchCreateBody] at hbody
      split at hbody
      · next hnil =>
        rw [List.length_eq_zero_iff.mp hnil]
        decide
      · cases hbody
    | some body => exact fits_of_batchDecodes hbody (h body hbody)
  · exact fun hfits body hbody => batchDecodes_of_fits hcount hfits hbody

/-- An entry with a name of `n` letters, and with times if `touched`. -/
def sampleEntry (n : Nat) (h : n ≤ nameMax) (touched : Bool) : BatchEntry :=
  { ino := 11, parentIno := 1, mode := 0o100644, uid := 1000, gid := 1000
    mtime := if touched then 1700000000 else 0
    atime := if touched then 1700000000 else 0
    name := List.replicate n 97
    name_le := by rw [List.length_replicate]; exact h }

/-- Two files, one of them with its times set. -/
theorem batchDecodes_twoFiles :
    ∃ body, batchCreateBody 3 [sampleEntry 8 (by decide) false, sampleEntry 252 (by decide) true] =
      some body ∧
    BatchDecodes [sampleEntry 8 (by decide) false, sampleEntry 252 (by decide) true] body := by
  refine ⟨_, rfl, ?_⟩
  exact (batchDecodes_iff 3 _ (by decide)).mpr (by decide +kernel) _ rfl

/-- A name of 255 bytes with both times set: 339 bytes for a buffer of 336. -/
theorem not_batchDecodes : ¬ ∀ (shardId : UInt64) (entries : List BatchEntry),
    entries.length < 2 ^ 32 → ∀ body ∈ batchCreateBody shardId entries,
      BatchDecodes entries body := by
  intro h
  cases hbody : batchCreateBody 3 [sampleEntry 255 (by decide) true] with
  | none => cases hbody
  | some body =>
    have hfits := fits_of_batchDecodes hbody (h 3 _ (by decide) body hbody)
    exact absurd hfits (by decide +kernel)

end PowerFS.Net
