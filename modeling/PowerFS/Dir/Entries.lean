import PowerFS.Dir.DirtyCreates
import PowerFS.Errno
import PowerFS.Lib.KeyedList

namespace PowerFS.Dir

open KeyedList

/-! The local directory entries, `dir_entries`. Entries are added under `i_rwsem` of the directory,
so the two holds of `dir_mutex` in `powerfs_add_dir_entry` are one step. -/

/-- `powerfs_dir_entry`. -/
structure DirEntry where
  name : FileName
  ino : UInt64
  type : UInt32
  deleted : Bool
  fetchEpoch : Nat
  deriving DecidableEq

/-- `dir_has_local_entry`. -/
def dirHasLocalEntry (entries : List DirEntry) (name : FileName) : Bool :=
  entries.any fun e => !e.deleted && decide (e.name = name)

/-- `powerfs_add_dir_entry`; `alloc` is the allocation of a new entry. -/
def addDirEntry (entries : List DirEntry) (ino : UInt64) (type : UInt32) (name : FileName)
    (alloc : Bool) : List DirEntry :=
  if entries.any fun e => e.name = name then
    updateFirst (fun e => e.name = name)
      (fun e => { e with deleted := false, ino := ino, type := type, fetchEpoch := 0 }) entries
  else if alloc then entries ++ [⟨name, ino, type, false, 0⟩]
  else entries

/-- `powerfs_remove_dir_entry`. -/
def removeDirEntry (entries : List DirEntry) (name : FileName) : List DirEntry :=
  updateFirst (fun e => decide (e.name = name) && !e.deleted) (fun e => { e with deleted := true })
    entries

/-- `powerfs_compact_dir_entries`. -/
def compactDirEntries (entries : List DirEntry) : List DirEntry :=
  let deleted := entries.countP (·.deleted)
  if deleted < 64 || deleted * 2 < entries.length then entries
  else entries.filter fun e => !e.deleted

/-- What keeps the entries in order: a name is in the list once, and was last seen by a fetch up to
number `epoch`. -/
structure EntriesInv (entries : List DirEntry) (epoch : Nat) : Prop where
  distinct : Distinct DirEntry.name entries
  epochs : ∀ e ∈ entries, e.fetchEpoch ≤ epoch

variable {entries : List DirEntry} {epoch : Nat} {name : FileName}

theorem EntriesInv.updateFirst {p : DirEntry → Bool} {f : DirEntry → DirEntry}
    (h : EntriesInv entries epoch) (hname : ∀ e, (f e).name = e.name)
    (hepoch : ∀ e, e.fetchEpoch ≤ epoch → (f e).fetchEpoch ≤ epoch) :
    EntriesInv (updateFirst p f entries) epoch := by
  refine ⟨h.distinct.updateFirst hname, fun e he => ?_⟩
  obtain he | ⟨e₀, he₀, rfl⟩ := mem_updateFirst he
  · exact h.epochs e he
  · exact hepoch e₀ (h.epochs e₀ he₀)

theorem EntriesInv.append {e : DirEntry} (h : EntriesInv entries epoch)
    (hnew : view DirEntry.name entries e.name = none) (hepoch : e.fetchEpoch ≤ epoch) :
    EntriesInv (entries ++ [e]) epoch := by
  refine ⟨h.distinct.append_new hnew, fun e' he' => ?_⟩
  obtain he' | rfl : e' ∈ entries ∨ e' = e := by simpa using he'
  · exact h.epochs e' he'
  · exact hepoch

theorem view_eq_none_of_not_any (h : ¬ (entries.any fun e => e.name = name) = true) :
    view DirEntry.name entries name = none := by
  rw [any_key_iff] at h
  rwa [← Option.not_isSome_iff_eq_none, Option.isSome_iff_exists]

theorem EntriesInv.add {ino : UInt64} {type : UInt32} {alloc : Bool}
    (h : EntriesInv entries epoch) :
    EntriesInv (addDirEntry entries ino type name alloc) epoch := by
  unfold addDirEntry
  split
  · exact h.updateFirst (fun _ => rfl) fun _ _ => Nat.zero_le _
  · next hnew =>
    split
    · exact h.append (view_eq_none_of_not_any hnew) (Nat.zero_le _)
    · exact h

theorem EntriesInv.remove (h : EntriesInv entries epoch) :
    EntriesInv (removeDirEntry entries name) epoch :=
  h.updateFirst (fun _ => rfl) fun _ => id

theorem EntriesInv.compact (h : EntriesInv entries epoch) :
    EntriesInv (compactDirEntries entries) epoch := by
  simp only [compactDirEntries]
  split
  · exact h
  · exact ⟨h.distinct.filter, fun e he => h.epochs e (List.mem_filter.mp he).1⟩

end PowerFS.Dir
