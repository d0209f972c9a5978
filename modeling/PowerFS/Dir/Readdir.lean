import PowerFS.Dir.Entries

namespace PowerFS.Dir

open KeyedList

/-! The fetch of a directory in `powerfs_readdir`. `dir_mutex` is held while the epoch is raised,
while a page is merged and during the sweep, and not in between: the fetches of several readers
overlap. -/

/-- `powerfs_net_dir_entry`. -/
structure NetDirEntry where
  name : FileName
  ino : UInt64
  mode : UInt32
  deriving DecidableEq

/-- How the loop over the pages ends: with the last page, with an empty one although there are more,
or with a failed page after others. -/
inductive LoopEnd where
  | complete
  | short
  | broken
  deriving DecidableEq

/-- How a fetch ends: with its sweep, with a failed first page and the old entries kept, or with an
error. -/
inductive FetchEnd where
  | swept (loop : LoopEnd)
  | stale
  | failed (err : Errno)

def sIfmt : UInt32 := 0xf000

/-- A received entry that is not in the list yet. -/
def newEntry (epoch : Nat) (ne : NetDirEntry) : DirEntry :=
  ⟨ne.name, ne.ino, ne.mode &&& sIfmt, false, epoch⟩

/-- An entry whose name was received. A deleted entry with the same inode stays deleted, and an
active one keeps its inode. -/
def refetch (epoch : Nat) (ne : NetDirEntry) (de : DirEntry) : DirEntry :=
  if de.deleted && decide (de.ino ≠ ne.ino) then
    { de with deleted := false, ino := ne.ino, type := ne.mode &&& sIfmt, fetchEpoch := epoch }
  else if !de.deleted then { de with fetchEpoch := epoch }
  else de

/-- A page is added to the list. `room` more entries can be allocated; `none` if that was not
enough. -/
def mergePage (epoch : Nat) : List DirEntry → Nat → List NetDirEntry → List DirEntry × Option Nat
  | entries, room, [] => (entries, some room)
  | entries, room, ne :: page =>
    if entries.any fun de => de.name = ne.name then
      mergePage epoch (updateFirst (fun de => de.name = ne.name) (refetch epoch ne) entries) room
        page
    else match room with
      | 0 => (entries, none)
      | room + 1 => mergePage epoch (entries ++ [newEntry epoch ne]) room page

/-- An active entry that an earlier fetch has seen and this one has not. -/
def sweepEntry (epoch : Nat) (e : DirEntry) : DirEntry :=
  if e.deleted then e
  else if e.fetchEpoch = 0 then e
  else if e.fetchEpoch ≠ epoch then { e with deleted := true }
  else e

/-- The fetch of a reader; its loop over the pages has ended if `loop` is set. `start`: the entries
when it began; `pages`: what it has received; `alone`: nobody else has changed the entries since. -/
structure Fetch where
  epoch : Nat
  pulledAny : Bool
  loop : Option LoopEnd
  start : List DirEntry
  pages : List NetDirEntry
  alone : Bool

/-- A fetch that has ended with the entries `after`. -/
structure EndedFetch where
  fin : FetchEnd
  start : List DirEntry
  pages : List NetDirEntry
  after : List DirEntry
  alone : Bool

/-- `dir_entries` and `dir_fetch_epoch`, with the fetch of each reader. -/
structure DirCache where
  entries : List DirEntry
  fetchEpoch : Nat
  fetches : Nat → Option Fetch
  ended : List EndedFetch

namespace DirCache

variable (c : DirCache)

def setFetch (t : Nat) (f : Option Fetch) : DirCache :=
  { c with fetches := Function.update c.fetches t f }

def change (entries : List DirEntry) : DirCache :=
  { c with entries, fetches := fun t => (c.fetches t).map fun f => { f with alone := false } }

def finish (t : Nat) (f : Fetch) (fin : FetchEnd) : DirCache :=
  { c.setFetch t none with ended := ⟨fin, f.start, f.pages, c.entries, f.alone⟩ :: c.ended }

/-- `powerfs_net_readdir_timeout` fails. -/
def pageError (t : Nat) (f : Fetch) (err : Errno) : DirCache :=
  if f.pulledAny then c.setFetch t (some { f with loop := some .broken })
  else if c.entries ≠ [] then c.finish t f .stale
  else if err = .etimedout ∨ err = .enotconn ∨ err = .eshutdown then
    c.finish t f (.failed .eagain)
  else c.finish t f (.failed err)

def addPage (t : Nat) (f : Fetch) (room : Nat) (page : List NetDirEntry) (hasMore : Bool) :
    DirCache :=
  match mergePage f.epoch c.entries room page with
  | (entries, none) => (c.change entries).finish t f (.failed .enomem)
  | (entries, some _) =>
    let loop := if hasMore && decide (page ≠ []) then none
      else some (if hasMore then .short else .complete)
    (c.change entries).setFetch t
      (some { f with pulledAny := true, loop, pages := f.pages ++ page })

end DirCache

/-- A local create, link or rename adds an entry, an unlink or a dentry invalidation removes one,
`rmdir` clears them, `powerfs_readdir` compacts and fetches. The fetch of reader `t` raises the
epoch and allocates its buffer, gets a page or an error, and sweeps. Changes by others show in the
pages. -/
inductive CacheEvent where
  | localCreate (name : FileName) (ino : UInt64) (type : UInt32) (alloc : Bool)
  | localUnlink (name : FileName)
  | invalidate (name : FileName)
  | clear
  | compact
  | bump (t : Nat) (alloc : Bool)
  | error (t : Nat) (err : Errno)
  | page (t room : Nat) (page : List NetDirEntry) (hasMore : Bool)
  | sweep (t : Nat)

/-- One event; `none` if it cannot happen. -/
def cacheExec (c : DirCache) : CacheEvent → Option DirCache
  | .localCreate name ino type alloc => some (c.change (addDirEntry c.entries ino type name alloc))
  | .localUnlink name | .invalidate name => some (c.change (removeDirEntry c.entries name))
  | .clear => some (c.change [])
  | .compact => some (c.change (compactDirEntries c.entries))
  | .bump t alloc =>
    match c.fetches t with
    | some _ => none
    | none =>
      let f : Fetch := ⟨c.fetchEpoch + 1, false, none, c.entries, [], true⟩
      let c' := { c with fetchEpoch := c.fetchEpoch + 1 }
      some (if alloc then c'.setFetch t (some f) else c'.finish t f (.failed .enomem))
  | .error t err =>
    match c.fetches t with
    | some f => if f.loop = none then some (c.pageError t f err) else none
    | none => none
  | .page t room page hasMore =>
    match c.fetches t with
    | some f => if f.loop = none then some (c.addPage t f room page hasMore) else none
    | none => none
  | .sweep t =>
    match c.fetches t with
    | some f => f.loop.map fun loop =>
        (c.change (c.entries.map (sweepEntry f.epoch))).finish t f (.swept loop)
    | none => none

def Active (entries : List DirEntry) (name : FileName) (ino : UInt64) : Prop :=
  ∃ e ∈ entries, e.name = name ∧ e.ino = ino ∧ e.deleted = false

/-- The active names are exactly the Filer's listing. -/
def Converged (entries : List DirEntry) (listing : List NetDirEntry) : Prop :=
  ∀ name ino, Active entries name ino ↔ ∃ ne ∈ listing, ne.name = name ∧ ne.ino = ino

def HidesNothing (filer : List FileName) (before after : List DirEntry) : Prop :=
  ∀ name ino, Active before name ino → name ∈ filer → ∃ ino', Active after name ino'

/-- For a whole fetch: the pages give a name one inode number; an entry that the Filer lists is
active with that inode, or deleted with another one; an active entry that is not listed was seen by
an earlier fetch. -/
structure ListingFits (entries : List DirEntry) (listing : List NetDirEntry) : Prop where
  once : ∀ ne ∈ listing, ∀ ne' ∈ listing, ne.name = ne'.name → ne.ino = ne'.ino
  listed : ∀ e ∈ entries, ∀ ne ∈ listing, ne.name = e.name → (e.deleted = false ↔ e.ino = ne.ino)
  unlisted : ∀ e ∈ entries, e.deleted = false → e.fetchEpoch = 0 →
    ∃ ne ∈ listing, ne.name = e.name

/-- The condition for a fetch that breaks off. An active entry that exists on the Filer was
received, or no fetch has ever seen it. -/
def PagesCover (filer : List FileName) (entries : List DirEntry) (pages : List NetDirEntry) :
    Prop :=
  ∀ e ∈ entries, e.deleted = false → e.name ∈ filer →
    e.fetchEpoch = 0 ∨ ∃ ne ∈ pages, ne.name = e.name

/-- A whole fetch leaves the listing exactly if the entries fit it. One that breaks off hides nothing
exactly if its pages cover the entries, and one that ends without a sweep hides nothing. -/
def EndedFetch.Exact (f : EndedFetch) (filer : List FileName) : Prop :=
  (f.fin = .swept .complete → (Converged f.after f.pages ↔ ListingFits f.start f.pages)) ∧
  (f.fin = .swept .broken ∨ f.fin = .swept .short → (HidesNothing filer f.start f.after ↔
    PagesCover filer f.start f.pages)) ∧
  (f.fin = .stale ∨ (∃ err, f.fin = .failed err) → HidesNothing filer f.start f.after)

variable {entries entries' : List DirEntry} {epoch room : Nat} {name : FileName}

section Merge

def named (k : FileName) (listing : List NetDirEntry) : List NetDirEntry :=
  listing.filter fun ne => ne.name = k

/-- A name after received entries `nes` with that name. -/
def merged (epoch : Nat) (de : Option DirEntry) (nes : List NetDirEntry) : Option DirEntry :=
  nes.foldl (fun de ne => some (de.elim (newEntry epoch ne) (refetch epoch ne))) de

theorem refetch_name (epoch : Nat) (ne : NetDirEntry) (de : DirEntry) :
    (refetch epoch ne de).name = de.name := by
  unfold refetch
  split
  · rfl
  · split <;> rfl

theorem refetch_epoch_le {bound : Nat} (ne : NetDirEntry) {de : DirEntry}
    (h : de.fetchEpoch ≤ bound) (hepoch : epoch ≤ bound) :
    (refetch epoch ne de).fetchEpoch ≤ bound := by
  unfold refetch
  split
  · exact hepoch
  · split
    · exact hepoch
    · exact h

theorem named_append (k : FileName) (a b : List NetDirEntry) :
    named k (a ++ b) = named k a ++ named k b :=
  List.filter_append a b

theorem merged_append (de : Option DirEntry) (a b : List NetDirEntry) :
    merged epoch de (a ++ b) = merged epoch (merged epoch de a) b :=
  List.foldl_append

theorem view_merge_found {ne : NetDirEntry}
    (h : (entries.any fun de => de.name = ne.name) = true) (k : FileName) :
    view DirEntry.name (updateFirst (fun de => de.name = ne.name) (refetch epoch ne) entries) k =
      merged epoch (view DirEntry.name entries k) (named k [ne]) := by
  rw [view_updateFirst (refetch_name epoch ne)]
  obtain ⟨de, hde⟩ := any_key_iff.mp h
  by_cases hk : k = ne.name
  · subst hk
    simp [hde, merged, named]
  · have hne : ne.name ≠ k := fun heq => hk heq.symm
    simp [hk, hne, merged, named]

theorem view_merge_new {ne : NetDirEntry}
    (h : ¬ (entries.any fun de => de.name = ne.name) = true) (k : FileName) :
    view DirEntry.name (entries ++ [newEntry epoch ne]) k =
      merged epoch (view DirEntry.name entries k) (named k [ne]) := by
  have hnone := view_eq_none_of_not_any h
  have happend := @view_append_new _ _ DirEntry.name entries _ (newEntry epoch ne) hnone k
  rw [happend]
  by_cases hk : k = ne.name
  · subst hk
    simp [newEntry, hnone, merged, named]
  · have hne : ne.name ≠ k := fun heq => hk heq.symm
    simp [newEntry, hk, hne, merged, named]

theorem view_mergePage {page : List NetDirEntry} {room' : Nat}
    (h : mergePage epoch entries room page = (entries', some room')) (k : FileName) :
    view DirEntry.name entries' k =
      merged epoch (view DirEntry.name entries k) (named k page) := by
  induction page generalizing entries room with
  | nil =>
    cases h
    rfl
  | cons ne page ih =>
    have hsplit : named k (ne :: page) = named k [ne] ++ named k page := named_append k [ne] page
    simp only [mergePage] at h
    split at h
    · next hfound => rw [ih h, view_merge_found hfound, hsplit, merged_append]
    · next hnew =>
      cases room with
      | zero => cases h
      | succ room => rw [ih h, view_merge_new hnew, hsplit, merged_append]

/-- What the merge of one received entry keeps. -/
structure MergeKeeps (epoch : Nat) (P : List DirEntry → Prop) : Prop where
  found : ∀ {entries : List DirEntry} (ne : NetDirEntry), P entries →
    P (updateFirst (fun de => de.name = ne.name) (refetch epoch ne) entries)
  new : ∀ {entries : List DirEntry} (ne : NetDirEntry),
    view DirEntry.name entries ne.name = none → P entries → P (entries ++ [newEntry epoch ne])

theorem MergeKeeps.mergePage {P : List DirEntry → Prop} (hP : MergeKeeps epoch P)
    {page : List NetDirEntry} (h : P entries) : P (mergePage epoch entries room page).1 := by
  induction page generalizing entries room with
  | nil => exact h
  | cons ne page ih =>
    simp only [Dir.mergePage]
    split
    · exact ih (hP.found ne h)
    · next hnew =>
      cases room with
      | zero => exact h
      | succ room => exact ih (hP.new ne (view_eq_none_of_not_any hnew) h)

theorem mergeKeeps_inv {bound : Nat} (h : epoch ≤ bound) :
    MergeKeeps epoch (EntriesInv · bound) where
  found ne hinv := hinv.updateFirst (refetch_name epoch ne) fun _ he => refetch_epoch_le ne he h
  new _ hnew hinv := hinv.append hnew h

theorem mergeKeeps_active : MergeKeeps epoch fun entries => ∃ ino, Active entries name ino where
  found := by
    rintro entries ne ⟨ino, e, he, hname, hino, hactive⟩
    obtain he | he := @mem_updateFirst_of_mem _ _ (refetch epoch ne)
      (fun de => de.name = ne.name) e he
    · exact ⟨ino, e, he, hname, hino, hactive⟩
    · refine ⟨_, _, he, (refetch_name epoch ne e).trans hname, rfl, ?_⟩
      simp [refetch, hactive]
  new := by
    rintro entries ne - ⟨ino, e, he, hrest⟩
    exact ⟨ino, e, List.mem_append_left _ he, hrest⟩

end Merge

variable {ino : UInt64}

section Sweep

variable {de : DirEntry} {ne : NetDirEntry}

theorem sweepEntry_name (epoch : Nat) (e : DirEntry) : (sweepEntry epoch e).name = e.name := by
  unfold sweepEntry
  repeat' split
  all_goals rfl

theorem sweepEntry_ino (epoch : Nat) (e : DirEntry) : (sweepEntry epoch e).ino = e.ino := by
  unfold sweepEntry
  repeat' split
  all_goals rfl

theorem sweepEntry_active : (sweepEntry epoch de).deleted = false ↔
    de.deleted = false ∧ (de.fetchEpoch = 0 ∨ de.fetchEpoch = epoch) := by
  unfold sweepEntry
  split
  · next hdeleted => simp [hdeleted]
  · next hactive =>
    split
    · next hlocal => simp [hlocal]
    · next hlocal =>
      split
      · next hother => simp [hlocal, hother]
      · next hsame => simp [not_not.mp hsame]

theorem refetch_active (h : de.deleted = false) :
    refetch epoch ne de = { de with fetchEpoch := epoch } := by
  simp [refetch, h]

variable {nes : List NetDirEntry}

theorem merged_active (h : de.deleted = false) (hnes : nes ≠ []) :
    merged epoch (some de) nes = some { de with fetchEpoch := epoch } := by
  induction nes generalizing de with
  | nil => exact absurd rfl hnes
  | cons ne nes ih =>
    have hmark : refetch epoch ne de = { de with fetchEpoch := epoch } := refetch_active h
    have hstep : merged epoch (some de) (ne :: nes) =
        merged epoch (some { de with fetchEpoch := epoch }) nes := by
      rw [← hmark]
      rfl
    rw [hstep]
    cases nes with
    | nil => rfl
    | cons ne' nes => exact @ih { de with fetchEpoch := epoch } h (List.cons_ne_nil _ _)

theorem merged_deleted_same (h : de.deleted = true)
    (hino : ∀ ne ∈ nes, ne.ino = de.ino) : merged epoch (some de) nes = some de := by
  induction nes with
  | nil => rfl
  | cons ne nes ih =>
    have hkeep : refetch epoch ne de = de := by simp [refetch, h, hino ne List.mem_cons_self]
    have hstep : merged epoch (some de) (ne :: nes) = merged epoch (some de) nes := by
      show merged epoch (some (refetch epoch ne de)) nes = _
      rw [hkeep]
    rw [hstep]
    exact ih fun ne' hne' => hino ne' (List.mem_cons_of_mem _ hne')

theorem merged_deleted_other (h : de.deleted = true)
    (hino : de.ino ≠ ne.ino) : ∃ de', merged epoch (some de) (ne :: nes) = some de' ∧
      de'.deleted = false ∧ de'.ino = ne.ino ∧ de'.fetchEpoch = epoch := by
  obtain ⟨de', hde', hactive, hino', hepoch⟩ : ∃ de', refetch epoch ne de = de' ∧
      de'.deleted = false ∧ de'.ino = ne.ino ∧ de'.fetchEpoch = epoch :=
    ⟨_, rfl, by simp [refetch, h, hino], by simp [refetch, h, hino], by simp [refetch, h, hino]⟩
  have hstep : merged epoch (some de) (ne :: nes) = merged epoch (some de') nes := by
    rw [← hde']
    rfl
  rw [hstep]
  cases nes with
  | nil => exact ⟨de', rfl, hactive, hino', hepoch⟩
  | cons ne' nes =>
    rw [merged_active hactive (List.cons_ne_nil _ _)]
    exact ⟨_, rfl, hactive, hino', rfl⟩

theorem merged_new (nes : List NetDirEntry) :
    merged epoch none (ne :: nes) = some (newEntry epoch ne) := by
  cases nes with
  | nil => rfl
  | cons ne' nes => exact merged_active rfl (List.cons_ne_nil _ _)

theorem mem_named {listing : List NetDirEntry} :
    ne ∈ named name listing ↔ ne ∈ listing ∧ ne.name = name := by
  simp [named]

theorem named_eq_nil_iff {listing : List NetDirEntry} :
    named name listing = [] ↔ ¬ ∃ ne ∈ listing, ne.name = name := by
  simp [named]

theorem active_iff (h : Distinct DirEntry.name entries) : Active entries name ino ↔
    ∃ e, view DirEntry.name entries name = some e ∧ e.ino = ino ∧ e.deleted = false := by
  constructor
  · rintro ⟨e, he, hname, hino, hactive⟩
    exact ⟨e, (view_eq_some_iff h).mpr ⟨he, hname⟩, hino, hactive⟩
  · rintro ⟨e, hview, hino, hactive⟩
    exact ⟨e, mem_of_view hview, key_of_view hview, hino, hactive⟩

variable {listing : List NetDirEntry} {filer : List FileName}

/-- `entries'` are the entries after a fetch that has received `listing`, and its sweep. -/
structure Swept (epoch : Nat) (entries : List DirEntry) (listing : List NetDirEntry)
    (entries' : List DirEntry) : Prop where
  start : Distinct DirEntry.name entries
  older : ∀ e ∈ entries, e.fetchEpoch < epoch
  distinct : Distinct DirEntry.name entries'
  view : ∀ k, view DirEntry.name entries' k =
    (merged epoch (view DirEntry.name entries k) (named k listing)).map
      (sweepEntry epoch)

namespace Swept

section

variable (h : Swept epoch entries listing entries')
include h

theorem view_mem (hde : de ∈ entries) :
    KeyedList.view DirEntry.name entries' de.name =
      (merged epoch (some de) (named de.name listing)).map (sweepEntry epoch) := by
  rw [h.view, (view_eq_some_iff h.start).mpr ⟨hde, rfl⟩]

theorem active_listed_iff (hde : de ∈ entries)
    (hactive : de.deleted = false) (hin : ∃ ne ∈ listing, ne.name = de.name) :
    Active entries' de.name ino ↔ de.ino = ino := by
  have hnamed : named de.name listing ≠ [] := fun hnil => named_eq_nil_iff.mp hnil hin
  have hswept : (sweepEntry epoch { de with fetchEpoch := epoch }).deleted = false :=
    sweepEntry_active.mpr ⟨hactive, .inr rfl⟩
  rw [active_iff h.distinct, h.view_mem hde, merged_active hactive hnamed]
  simp [sweepEntry_ino, hswept]

theorem active_deleted_iff (hde : de ∈ entries)
    (hdeleted : de.deleted = true) (hne : ne ∈ listing) (hname : ne.name = de.name)
    (honce : ∀ ne' ∈ listing, ne'.name = de.name → ne'.ino = ne.ino) :
    Active entries' de.name ino ↔ de.ino ≠ ne.ino ∧ ne.ino = ino := by
  have hnamed : ∀ ne' ∈ named de.name listing, ne'.ino = ne.ino := fun ne' hne' =>
    honce ne' (mem_named.mp hne').1 (mem_named.mp hne').2
  rw [active_iff h.distinct, h.view_mem hde]
  by_cases hino : de.ino = ne.ino
  · have hsame : ∀ ne' ∈ named de.name listing, ne'.ino = de.ino := fun ne' hne' =>
      (hnamed ne' hne').trans hino.symm
    rw [merged_deleted_same hdeleted hsame]
    simp [sweepEntry_active, hdeleted, hino]
  · cases hlist : named de.name listing with
    | nil => exact absurd ⟨ne, hne, hname⟩ (named_eq_nil_iff.mp hlist)
    | cons ne' nes =>
      have hhead : ne'.ino = ne.ino := hnamed ne' (hlist ▸ List.mem_cons_self)
      obtain ⟨de', hmerged, hactive, hino', hepoch⟩ :=
        @merged_deleted_other epoch de ne' nes hdeleted (hhead ▸ hino)
      rw [hmerged]
      simp [sweepEntry_ino, sweepEntry_active, hactive, hino', hepoch, hhead, hino]

theorem active_unlisted_iff (hde : de ∈ entries) (hnot : ¬ ∃ ne ∈ listing, ne.name = de.name) :
    Active entries' de.name ino ↔ de.ino = ino ∧ de.deleted = false ∧ de.fetchEpoch = 0 := by
  have hother := Nat.ne_of_lt (h.older de hde)
  rw [active_iff h.distinct, h.view_mem hde, named_eq_nil_iff.mpr hnot]
  simp [merged, sweepEntry_ino, sweepEntry_active, hother]

theorem active_new_iff
    (honce : ∀ ne ∈ listing, ∀ ne' ∈ listing, ne.name = ne'.name → ne.ino = ne'.ino)
    (hnew : ∀ de ∈ entries, de.name ≠ name) :
    Active entries' name ino ↔ ∃ ne ∈ listing, ne.name = name ∧ ne.ino = ino := by
  rw [active_iff h.distinct, h.view, view_eq_none_iff.mpr hnew]
  cases hlist : named name listing with
  | nil =>
    have hnot := named_eq_nil_iff.mp hlist
    constructor
    · rintro ⟨_, ⟨⟩, _⟩
    · rintro ⟨ne, hne, hname, _⟩
      exact absurd ⟨ne, hne, hname⟩ hnot
  | cons ne nes =>
    obtain ⟨hne, hname⟩ := mem_named.mp (hlist ▸ List.mem_cons_self : ne ∈ named name listing)
    have hactive : (sweepEntry epoch (newEntry epoch ne)).deleted = false :=
      sweepEntry_active.mpr ⟨rfl, .inr rfl⟩
    rw [merged_new]
    constructor
    · rintro ⟨_, ⟨⟩, hino, _⟩
      rw [sweepEntry_ino] at hino
      exact ⟨ne, hne, hname, hino⟩
    · rintro ⟨ne', hne', hname', hino⟩
      refine ⟨_, rfl, ?_, hactive⟩
      rw [sweepEntry_ino, ← hino]
      exact honce ne hne ne' hne' (hname.trans hname'.symm)

theorem once_of_converged (hconv : Converged entries' listing) :
    ∀ ne ∈ listing, ∀ ne' ∈ listing, ne.name = ne'.name → ne.ino = ne'.ino := by
  intro ne hne ne' hne' hname
  have hactive := (hconv ne.name ne.ino).mpr ⟨ne, hne, rfl, rfl⟩
  have hactive' := (hconv ne.name ne'.ino).mpr ⟨ne', hne', hname.symm, rfl⟩
  obtain ⟨e, hview, hino, _⟩ := (active_iff h.distinct).mp hactive
  obtain ⟨e', hview', hino', _⟩ := (active_iff h.distinct).mp hactive'
  cases hview.symm.trans hview'
  exact hino.symm.trans hino'

theorem listingFits_of_converged
    (hconv : Converged entries' listing) : ListingFits entries listing := by
  have honce := h.once_of_converged hconv
  refine ⟨honce, fun de hde ne hne hname => ?_, fun de hde hactive hlocal => ?_⟩
  · cases hdeleted : de.deleted with
    | false =>
      have hafter := (h.active_listed_iff hde hdeleted ⟨ne, hne, hname⟩).mpr rfl
      obtain ⟨ne', hne', hname', hino⟩ := (hconv _ _).mp hafter
      have hsame : ne.ino = ne'.ino := honce ne hne ne' hne' (hname.trans hname'.symm)
      simp [hsame, hino]
    | true =>
      have hafter := (hconv _ _).mpr ⟨ne, hne, hname, rfl⟩
      have hother := (h.active_deleted_iff hde hdeleted hne hname fun ne' hne' hname' =>
        honce ne' hne' ne hne (hname'.trans hname.symm)).mp hafter
      simp [hother.1]
  · by_contra hnot
    have hafter := (h.active_unlisted_iff hde hnot).mpr ⟨rfl, hactive, hlocal⟩
    obtain ⟨ne, hne, hname, _⟩ := (hconv _ _).mp hafter
    exact hnot ⟨ne, hne, hname⟩

theorem converged_of_listingFits
    (hfits : ListingFits entries listing) : Converged entries' listing := by
  intro name ino
  by_cases hold : ∃ de ∈ entries, de.name = name
  · obtain ⟨de, hde, rfl⟩ := hold
    by_cases hin : ∃ ne ∈ listing, ne.name = de.name
    · obtain ⟨ne, hne, hname⟩ := hin
      have hiff := hfits.listed de hde ne hne hname
      have honce : ∀ ne' ∈ listing, ne'.name = de.name → ne'.ino = ne.ino :=
        fun ne' hne' hname' => hfits.once ne' hne' ne hne (hname'.trans hname.symm)
      -- Either way the entry ends up active with the listed inode.
      have hafter : Active entries' de.name ino ↔ ne.ino = ino := by
        cases hdeleted : de.deleted with
        | false => rw [h.active_listed_iff hde hdeleted ⟨ne, hne, hname⟩, hiff.mp hdeleted]
        | true =>
          have hother : de.ino ≠ ne.ino := fun hino => by
            cases hdeleted.symm.trans (hiff.mpr hino)
          rw [h.active_deleted_iff hde hdeleted hne hname honce]
          exact and_iff_right hother
      rw [hafter]
      constructor
      · exact fun hino => ⟨ne, hne, hname, hino⟩
      · rintro ⟨ne', hne', hname', hino⟩
        exact (honce ne' hne' hname').symm.trans hino
    · rw [h.active_unlisted_iff hde hin]
      constructor
      · rintro ⟨_, hactive, hlocal⟩
        exact absurd (hfits.unlisted de hde hactive hlocal) hin
      · rintro ⟨ne, hne, hname, _⟩
        exact absurd ⟨ne, hne, hname⟩ hin
  · exact h.active_new_iff hfits.once fun de hde hname => hold ⟨de, hde, hname⟩

theorem hidesNothing_iff :
    HidesNothing filer entries entries' ↔ PagesCover filer entries listing := by
  constructor
  · intro hhides de hde hactive hfiler
    by_cases hin : ∃ ne ∈ listing, ne.name = de.name
    · exact .inr hin
    · obtain ⟨ino, hafter⟩ := hhides de.name de.ino ⟨de, hde, rfl, rfl, hactive⟩ hfiler
      exact .inl ((h.active_unlisted_iff hde hin).mp hafter).2.2
  · rintro hcover _ _ ⟨de, hde, rfl, rfl, hactive⟩ hfiler
    by_cases hin : ∃ ne ∈ listing, ne.name = de.name
    · exact ⟨_, (h.active_listed_iff hde hactive hin).mpr rfl⟩
    · have hlocal := (hcover de hde hactive hfiler).resolve_right hin
      exact ⟨_, (h.active_unlisted_iff hde hin).mpr ⟨rfl, hactive, hlocal⟩⟩

end

end Swept

end Sweep

/-- The entries hold what a fetch found and the pages that it has merged. -/
structure Fetch.Merged (f : Fetch) (entries : List DirEntry) : Prop where
  start : Distinct DirEntry.name f.start
  older : ∀ e ∈ f.start, e.fetchEpoch < f.epoch
  view : ∀ k, view DirEntry.name entries k =
    merged f.epoch (view DirEntry.name f.start k) (named k f.pages)
  active : ∀ name ino, Active f.start name ino → ∃ ino', Active entries name ino'

/-- What holds after every history. -/
structure CacheInv (c : DirCache) : Prop where
  entries : EntriesInv c.entries c.fetchEpoch
  epochs : ∀ t f, c.fetches t = some f → f.epoch ≤ c.fetchEpoch
  running : ∀ t f, c.fetches t = some f → f.alone = true → f.Merged c.entries
  ended : ∀ f ∈ c.ended, f.alone = true → ∀ filer, f.Exact filer

theorem sweepEntry_epoch (epoch : Nat) (e : DirEntry) :
    (sweepEntry epoch e).fetchEpoch = e.fetchEpoch := by
  unfold sweepEntry
  repeat' split
  all_goals rfl

theorem EntriesInv.sweep (h : EntriesInv entries epoch) (epoch' : Nat) :
    EntriesInv (entries.map (sweepEntry epoch')) epoch := by
  refine ⟨h.distinct.map (sweepEntry_name epoch'), fun e he => ?_⟩
  obtain ⟨e₀, he₀, rfl⟩ := List.mem_map.mp he
  rw [sweepEntry_epoch]
  exact h.epochs e₀ he₀

namespace Fetch.Merged

variable {f : Fetch}

theorem page (h : f.Merged entries) {page : List NetDirEntry} {room' : Nat}
    (hpage : mergePage f.epoch entries room page = (entries', some room')) (loop : Option LoopEnd) :
    Merged { f with pulledAny := true, loop, pages := f.pages ++ page } entries' := by
  refine ⟨h.start, h.older, fun k => ?_, fun name ino hactive => ?_⟩
  · rw [view_mergePage hpage, h.view, named_append, merged_append]
  · have hkeeps : ∃ ino, Active (mergePage f.epoch entries room page).1 name ino :=
      mergeKeeps_active.mergePage (h.active name ino hactive)
    rwa [hpage] at hkeeps

theorem swept (h : f.Merged entries) (hdistinct : Distinct DirEntry.name entries) :
    Swept f.epoch f.start f.pages (entries.map (sweepEntry f.epoch)) := by
  refine ⟨h.start, h.older, hdistinct.map (sweepEntry_name f.epoch), fun k => ?_⟩
  rw [view_map (sweepEntry_name f.epoch), h.view]

end Fetch.Merged

theorem exact_of_active {f : EndedFetch} (hfin : ∀ loop, f.fin ≠ .swept loop)
    (h : ∀ name ino, Active f.start name ino → ∃ ino', Active f.after name ino')
    (filer : List FileName) : f.Exact filer :=
  ⟨fun hfin' => absurd hfin' (hfin _), fun hfin' => (hfin'.elim (hfin _) (hfin _)).elim,
    fun _ name ino hactive _ => h name ino hactive⟩

theorem exact_of_swept {f : EndedFetch} {loop : LoopEnd} (hfin : f.fin = .swept loop)
    (h : Swept epoch f.start f.pages f.after) (filer : List FileName) : f.Exact filer := by
  refine ⟨fun _ => ⟨h.listingFits_of_converged, h.converged_of_listingFits⟩,
    fun _ => h.hidesNothing_iff, fun hother => ?_⟩
  rw [hfin] at hother
  obtain hother | ⟨_, hother⟩ := hother <;> cases hother

namespace CacheInv

variable {c : DirCache} {t : Nat}

section

variable (h : CacheInv c)
include h

theorem change (hentries : EntriesInv entries c.fetchEpoch) :
    CacheInv (c.change entries) := by
  refine ⟨hentries, fun t f hf => ?_, fun t f hf halone => ?_, h.ended⟩
  all_goals obtain ⟨f₀, hf₀, rfl⟩ := Option.map_eq_some_iff.mp hf
  · exact h.epochs t f₀ hf₀
  · cases halone

theorem setFetch {g : Option Fetch} (hepoch : ∀ f ∈ g, f.epoch ≤ c.fetchEpoch)
    (hmerged : ∀ f ∈ g, f.alone = true → f.Merged c.entries) : CacheInv (c.setFetch t g) := by
  refine ⟨h.entries, fun u f hf => ?_, fun u f hf => ?_, h.ended⟩
  all_goals by_cases hu : u = t
  · exact hepoch f (by simpa [DirCache.setFetch, hu] using hf)
  · exact h.epochs u f (by simpa [DirCache.setFetch, hu] using hf)
  · exact hmerged f (by simpa [DirCache.setFetch, hu] using hf)
  · exact h.running u f (by simpa [DirCache.setFetch, hu] using hf)

theorem finish {f : Fetch} {fin : FetchEnd} (hexact : f.alone = true →
    ∀ filer, EndedFetch.Exact ⟨fin, f.start, f.pages, c.entries, f.alone⟩ filer) :
    CacheInv (c.finish t f fin) := by
  refine { h.setFetch (g := none) nofun nofun with ended := ?_ }
  rintro _ (_ | ⟨_, hmem⟩)
  · exact hexact
  · exact h.ended _ hmem

theorem bump : CacheInv { c with fetchEpoch := c.fetchEpoch + 1 } :=
  ⟨⟨h.entries.distinct, fun e he => Nat.le_succ_of_le (h.entries.epochs e he)⟩,
    fun t f hf => Nat.le_succ_of_le (h.epochs t f hf), h.running, h.ended⟩

theorem pageError {f : Fetch} (hf : c.fetches t = some f) (err : Errno) :
    CacheInv (c.pageError t f err) := by
  have hactive : f.alone = true → ∀ name ino, Active f.start name ino →
      ∃ ino', Active c.entries name ino' := fun halone => (h.running t f hf halone).active
  unfold DirCache.pageError
  split
  · refine h.setFetch ?_ ?_ <;> rintro _ ⟨⟩
    · exact h.epochs t f hf
    · intro halone
      obtain ⟨hstart, holder, hview, hkept⟩ := h.running t f hf halone
      exact ⟨hstart, holder, hview, hkept⟩
  · repeat' split
    all_goals exact h.finish fun halone => exact_of_active nofun (hactive halone)

theorem addPage {f : Fetch} (hf : c.fetches t = some f) (room : Nat)
    (page : List NetDirEntry) (hasMore : Bool) : CacheInv (c.addPage t f room page hasMore) := by
  have hinv := @MergeKeeps.mergePage c.entries f.epoch room _
    (mergeKeeps_inv (h.epochs t f hf)) page h.entries
  have hactive : ∀ name ino, f.alone = true → Active f.start name ino →
      ∃ ino', Active (mergePage f.epoch c.entries room page).1 name ino' :=
    fun name ino halone hstart => mergeKeeps_active.mergePage
      ((h.running t f hf halone).active name ino hstart)
  unfold DirCache.addPage
  split
  · next hpage =>
    rw [hpage] at hinv hactive
    exact (h.change hinv).finish fun halone =>
      exact_of_active nofun fun name ino => hactive name ino halone
  · next hpage =>
    rw [hpage] at hinv
    refine (h.change hinv).setFetch ?_ ?_ <;> rintro _ ⟨⟩
    · exact h.epochs t f hf
    · exact fun halone => (h.running t f hf halone).page hpage _

theorem sweep {f : Fetch} (hf : c.fetches t = some f) (loop : LoopEnd) :
    CacheInv ((c.change (c.entries.map (sweepEntry f.epoch))).finish t f (.swept loop)) :=
  (h.change (h.entries.sweep f.epoch)).finish fun halone =>
    exact_of_swept rfl ((h.running t f hf halone).swept h.entries.distinct)

theorem step {c' : DirCache} {e : CacheEvent} (hs : cacheExec c e = some c') :
    CacheInv c' := by
  cases e with simp only [cacheExec] at hs
  | localCreate name ino type alloc =>
    cases hs
    exact h.change h.entries.add
  | localUnlink | invalidate =>
    cases hs
    exact h.change h.entries.remove
  | clear =>
    cases hs
    exact h.change ⟨List.nodup_nil, nofun⟩
  | compact =>
    cases hs
    exact h.change h.entries.compact
  | bump t alloc =>
    split at hs <;> cases hs
    split
    · refine h.bump.setFetch ?_ ?_ <;> rintro _ ⟨⟩
      · exact Nat.le_refl _
      · exact fun _ => ⟨h.entries.distinct, fun e he => Nat.lt_succ_of_le (h.entries.epochs e he),
          fun _ => rfl, fun _ ino hactive => ⟨ino, hactive⟩⟩
    · exact h.bump.finish fun _ => exact_of_active nofun fun _ ino hactive => ⟨ino, hactive⟩
  | error t err =>
    split at hs <;> try cases hs
    next hf =>
    split at hs <;> cases hs
    exact h.pageError hf err
  | page t room page hasMore =>
    split at hs <;> try cases hs
    next hf =>
    split at hs <;> cases hs
    exact h.addPage hf room page hasMore
  | sweep t =>
    split at hs <;> try cases hs
    next hf =>
    obtain ⟨loop, -, rfl⟩ := Option.map_eq_some_iff.mp hs
    exact h.sweep hf loop

end

end CacheInv

/-- A directory inode that has just been set up. -/
structure CacheInit (c : DirCache) : Prop where
  entries : c.entries = []
  fetches : c.fetches = fun _ => none
  ended : c.ended = []

theorem CacheInit.inv {c : DirCache} (h : CacheInit c) : CacheInv c := by
  obtain ⟨entries, epoch, fetches, ended⟩ := c
  obtain ⟨rfl, rfl, rfl⟩ := h
  exact ⟨⟨List.nodup_nil, nofun⟩, nofun, nofun, nofun⟩

/-- After every history, fetches of several readers at once included: a fetch during which nobody
else changed the entries does what the listing, or the pages it got, allow. -/
theorem readdirFetch_converges_iff {c : DirCache}
    (hreach : Runs.Reach (fun c e c' => cacheExec c e = some c') (fun _ _ => True) CacheInit c)
    (filer : List FileName) : ∀ f ∈ c.ended, f.alone = true → f.Exact filer := by
  have hinv : CacheInv c :=
    hreach.invariant (fun _ => CacheInit.inv) fun _ _ _ h _ hs => h.step hs
  exact fun f hf halone => hinv.ended f hf halone filer

/-- The Filer's file with a one-letter name. -/
def listed (letter : UInt8) (ino : UInt64) : NetDirEntry := ⟨[letter], ino, 0o100644⟩

theorem not_active_of_forall
    (h : ∀ e ∈ entries, e.name = name → e.deleted = true) : ¬ Active entries name ino := by
  rintro ⟨e, he, hname, _, hactive⟩
  cases hactive.symm.trans (h e he hname)

def emptyCache : DirCache := ⟨[], 0, fun _ => none, []⟩

theorem emptyCache_init : CacheInit emptyCache := ⟨rfl, rfl, rfl⟩

/-- `a` and `b` are fetched. -/
def fetchedTwo : List CacheEvent :=
  [.bump 0 true, .page 0 8 [listed 97 11, listed 98 12] false, .sweep 0]

/-- After `fetchedTwo` another client replaces `b` by `c`. The next fetch is in two pages. -/
def fetchedReplaced : List CacheEvent :=
  fetchedTwo ++ [.bump 0 true, .page 0 8 [listed 97 11] true, .page 0 8 [listed 99 13] false,
    .sweep 0]

theorem readdirFetch_converges_iff_replaced : ∃ c f,
    fetchedReplaced.foldlM cacheExec emptyCache = some c ∧ f ∈ c.ended ∧
      f.pages = [listed 97 11, listed 99 13] ∧ Converged f.after f.pages := by
  obtain ⟨c, f, hrun, hmem, hfin, halone, hpages, hfits⟩ : ∃ c f,
      fetchedReplaced.foldlM cacheExec emptyCache = some c ∧ f ∈ c.ended ∧
        f.fin = .swept .complete ∧ f.alone = true ∧ f.pages = [listed 97 11, listed 99 13] ∧
          ListingFits f.start f.pages :=
    ⟨_, _, rfl, List.mem_cons_self, rfl, rfl, rfl, by decide, by decide, by decide⟩
  have hexact := readdirFetch_converges_iff (.run emptyCache_init hrun) [] f hmem halone
  exact ⟨c, f, hrun, hmem, hpages, (hexact.1 hfin).mpr hfits⟩

/-- A fetch that loses its second page hides `b`, which exists. `a`, once invalidated, stays hidden
although the Filer lists it. And of two fetches at the same time the first to end hides what both
have got. -/
theorem not_readdirFetch_converges :
    (¬ ∀ c, Runs.Reach (fun c e c' => cacheExec c e = some c') (fun _ _ => True) CacheInit c →
      ∀ f ∈ c.ended, f.fin = .swept .broken → ∀ filer, HidesNothing filer f.start f.after) ∧
    (¬ ∀ c, Runs.Reach (fun c e c' => cacheExec c e = some c') (fun _ _ => True) CacheInit c →
      ∀ f ∈ c.ended, f.fin = .swept .complete → f.alone = true → Converged f.after f.pages) ∧
    ¬ ∀ c, Runs.Reach (fun c e c' => cacheExec c e = some c') (fun _ _ => True) CacheInit c →
      ∀ f ∈ c.ended, f.fin = .swept .complete → ListingFits f.start f.pages →
        Converged f.after f.pages := by
  refine ⟨fun h => ?_, fun h => ?_, fun h => ?_⟩
  · obtain ⟨c, f, hrun, hmem, hfin, hold, hgone⟩ : ∃ c f,
        (fetchedTwo ++ [CacheEvent.bump 0 true, .page 0 8 [listed 97 11] true, .error 0 .etimedout,
          .sweep 0]).foldlM cacheExec emptyCache = some c ∧ f ∈ c.ended ∧ f.fin = .swept .broken ∧
          newEntry 1 (listed 98 12) ∈ f.start ∧ ∀ e ∈ f.after, e.name = [98] → e.deleted = true :=
      ⟨_, _, rfl, List.mem_cons_self, rfl, by decide, by decide⟩
    obtain ⟨_, hafter⟩ := h c (.run emptyCache_init hrun) f hmem hfin [[98]] [98] 12
      ⟨_, hold, rfl, rfl, rfl⟩ List.mem_cons_self
    exact not_active_of_forall hgone hafter
  · obtain ⟨c, f, hrun, hmem, hfin, halone, hlisted, hgone⟩ : ∃ c f,
        (fetchedTwo ++ [CacheEvent.invalidate [97], .bump 0 true,
          .page 0 8 [listed 97 11, listed 98 12] false, .sweep 0]).foldlM cacheExec emptyCache =
            some c ∧ f ∈ c.ended ∧ f.fin = .swept .complete ∧ f.alone = true ∧
          listed 97 11 ∈ f.pages ∧ ∀ e ∈ f.after, e.name = [97] → e.deleted = true :=
      ⟨_, _, rfl, List.mem_cons_self, rfl, rfl, by decide, by decide⟩
    have hconv := h c (.run emptyCache_init hrun) f hmem hfin halone
    exact not_active_of_forall hgone ((hconv [97] 11).mpr ⟨_, hlisted, rfl, rfl⟩)
  · obtain ⟨c, f, hrun, hmem, hfin, hfits, hlisted, hgone⟩ : ∃ c f,
        [CacheEvent.bump 0 true, .bump 1 true, .page 0 8 [listed 97 11] false,
          .page 1 8 [listed 97 11] false, .sweep 0].foldlM cacheExec emptyCache = some c ∧
          f ∈ c.ended ∧ f.fin = .swept .complete ∧ ListingFits f.start f.pages ∧
          listed 97 11 ∈ f.pages ∧ ∀ e ∈ f.after, e.name = [97] → e.deleted = true :=
      ⟨_, _, rfl, List.mem_cons_self, rfl, ⟨by decide, by decide, by decide⟩, by decide, by decide⟩
    have hconv := h c (.run emptyCache_init hrun) f hmem hfin hfits
    exact not_active_of_forall hgone ((hconv [97] 11).mpr ⟨_, hlisted, rfl, rfl⟩)

end PowerFS.Dir
