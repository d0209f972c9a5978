import PowerFS.Dir.Listing
import PowerFS.Dir.Readdir

namespace PowerFS.Dir

open KeyedList

/-! Several readers of one directory, next to creates, unlinks, fetches and the compaction that a
reader does when it begins. The buffer of each call has room for all that the call finds. -/

/-- Where a reader stands: in a call before it reads the list, between two calls, or behind a call
that returned nothing. `first` is its first call, which returns the dots as well. -/
inductive PassStage where
  | idle
  | begun (first : Bool)
  | between
  | done
  deriving DecidableEq

def PassStage.reading : PassStage → Bool
  | .begun _ | .between => true
  | .idle | .done => false

/-- The pass of a reader: its position, the names that have been active since it began, and the
names that it was given. -/
structure Pass where
  stage : PassStage
  pos : Int
  since : List FileName
  returned : List FileName

structure ListingState where
  entries : List DirEntry
  readers : Nat → Pass

/-- What can happen. A fetch adds its pages one by one and sweeps at the end. -/
inductive ListingEvent where
  | create (name : FileName) (ino : UInt64) (type : UInt32) (alloc : Bool)
  | unlink (name : FileName)
  | mergePage (epoch room : Nat) (page : List NetDirEntry)
  | sweep (epoch : Nat)
  | clear
  | start (r : Nat)
  | call (r : Nat)
  | emit (r : Nat) (alloc : Bool) (room : Nat)

def Emitted.name? : Emitted → Option FileName
  | .entry name _ _ => some name
  | .dot | .dotdot => none

/-- Names that are not active any more drop out while the pass lasts. -/
def Pass.keep (entries : List DirEntry) (p : Pass) : Pass :=
  if p.stage.reading then { p with since := p.since.filter (dirHasLocalEntry entries) } else p

def ListingState.setEntries (s : ListingState) (entries : List DirEntry) : ListingState :=
  ⟨entries, fun r => (s.readers r).keep entries⟩

def ListingState.setPass (s : ListingState) (r : Nat) (p : Pass) : ListingState :=
  { s with readers := Function.update s.readers r p }

/-- One event; `none` if it cannot happen. -/
def listingExec (reclen : Emitted → Nat) (s : ListingState) : ListingEvent → Option ListingState
  | .create name ino type alloc => some (s.setEntries (addDirEntry s.entries ino type name alloc))
  | .unlink name => some (s.setEntries (removeDirEntry s.entries name))
  | .mergePage epoch room page => some (s.setEntries (mergePage epoch s.entries room page).1)
  | .sweep epoch => some (s.setEntries (s.entries.map (sweepEntry epoch)))
  | .clear => some (s.setEntries [])
  | .start r =>
    match (s.readers r).stage with
    | .begun _ => none
    | .idle | .between | .done =>
      let entries := compactDirEntries s.entries
      some ((s.setEntries entries).setPass r
        ⟨.begun true, 2, (activeEntries entries).map DirEntry.name, []⟩)
  | .call r =>
    match (s.readers r).stage with
    | .between => some (s.setPass r { s.readers r with stage := .begun false })
    | .idle | .begun _ | .done => none
  | .emit r alloc room =>
    match (s.readers r).stage with
    | .begun first =>
      let ctx := emitCached reclen s.entries alloc ⟨(s.readers r).pos, room, [], false⟩
      if ctx.full then none
      else some (s.setPass r
        { s.readers r with
          stage := if first || !ctx.out.isEmpty then .between else .done
          pos := ctx.pos
          returned := (s.readers r).returned ++ ctx.out.filterMap Emitted.name? })
    | .idle | .between | .done => none

/-- Every name that was active during a whole pass was returned once in it. -/
def ListedOnce (s : ListingState) : Prop :=
  ∀ r, (s.readers r).stage = .done →
    ∀ name ∈ (s.readers r).since, (s.readers r).returned.count name = 1

/-- The names before the position of a reader. -/
def Pass.passed (entries : List DirEntry) (p : Pass) : List FileName :=
  (entries.map DirEntry.name).take (p.pos - 2).toNat

/-- The condition. When a reader begins and the list is compacted, no name that was active since
another reader began comes from behind the position of that reader to before it. -/
def ListingOk (s : ListingState) : ListingEvent → Prop
  | .start r => ∀ r', r' ≠ r → (s.readers r').stage.reading = true →
      ∀ name ∈ (s.readers r').since, name ∈ (s.readers r').passed (compactDirEntries s.entries) →
        name ∈ (s.readers r').passed s.entries
  | _ => True

/-- A cached directory that nobody reads yet. -/
structure ListingInit (s : ListingState) : Prop where
  distinct : Distinct DirEntry.name s.entries
  readers : ∀ r, (s.readers r).stage = .idle

/-- What holds in every run. -/
structure ListingInv (s : ListingState) : Prop where
  distinct : Distinct DirEntry.name s.entries
  pos : ∀ r, (s.readers r).stage.reading = true → 2 ≤ (s.readers r).pos
  active : ∀ r, (s.readers r).stage.reading = true →
    ∀ name ∈ (s.readers r).since, dirHasLocalEntry s.entries name = true

/-- The names that were active all the time have been returned just if they are before the
position. -/
def Pass.Sound (entries : List DirEntry) (p : Pass) : Prop :=
  match p.stage with
  | .idle => True
  | .begun _ | .between =>
    ∀ name ∈ p.since, p.returned.count name = if (p.passed entries).contains name then 1 else 0
  | .done => ∀ name ∈ p.since, p.returned.count name = 1

def ListingSound (s : ListingState) : Prop := ∀ r, (s.readers r).Sound s.entries

variable {entries entries' : List DirEntry} {name : FileName}

/-! ### Names in the list -/

theorem dirHasLocalEntry_iff :
    dirHasLocalEntry entries name = true ↔ name ∈ (activeEntries entries).map DirEntry.name := by
  simp [dirHasLocalEntry, activeEntries, and_assoc]

theorem mem_names_of_active (h : dirHasLocalEntry entries name = true) :
    name ∈ entries.map DirEntry.name :=
  (List.filter_sublist.map _).subset (dirHasLocalEntry_iff.mp h)

theorem mem_names_iff_active (hdistinct : Distinct DirEntry.name entries)
    (h : dirHasLocalEntry entries name = true) {part : List DirEntry} (hpart : part ⊆ entries) :
    name ∈ part.map DirEntry.name ↔ name ∈ (activeEntries part).map DirEntry.name := by
  refine ⟨fun hmem => ?_, fun hmem => (List.filter_sublist.map _).subset hmem⟩
  obtain ⟨e, he, rfl⟩ := List.mem_map.mp hmem
  obtain ⟨d, hd, hname⟩ := List.mem_map.mp (dirHasLocalEntry_iff.mp h)
  obtain ⟨hd, hactive⟩ := List.mem_filter.mp hd
  obtain rfl : d = e := List.inj_on_of_nodup_map hdistinct hd (hpart he) hname
  exact List.mem_map_of_mem (List.mem_filter.mpr ⟨he, hactive⟩)

/-- A change after which active names stand where they stood. -/
def Keeps (entries entries' : List DirEntry) : Prop :=
  ∀ i name, dirHasLocalEntry entries name = true → dirHasLocalEntry entries' name = true →
    (name ∈ (entries'.map DirEntry.name).take i ↔ name ∈ (entries.map DirEntry.name).take i)

theorem keeps_of_prefix (hdistinct : Distinct DirEntry.name entries')
    (h : entries.map DirEntry.name <+: entries'.map DirEntry.name) : Keeps entries entries' := by
  intro i name hold _
  obtain ⟨added, hadded⟩ := h
  rw [Distinct, ← hadded] at hdistinct
  rw [← hadded, List.take_append, List.mem_append, or_iff_left]
  intro hmem
  exact (List.nodup_append.mp hdistinct).2.2 _ (mem_names_of_active hold) _
    (List.mem_of_mem_take hmem) rfl

theorem prefix_of_names_eq {entries' : List DirEntry}
    (h : entries'.map DirEntry.name = entries.map DirEntry.name) :
    entries.map DirEntry.name <+: entries'.map DirEntry.name :=
  ⟨[], (List.append_nil _).trans h.symm⟩

theorem prefix_add (ino : UInt64) (type : UInt32) (name : FileName) (alloc : Bool) :
    entries.map DirEntry.name <+: (addDirEntry entries ino type name alloc).map DirEntry.name := by
  unfold addDirEntry
  split
  · exact prefix_of_names_eq (map_key_updateFirst fun _ => rfl)
  · split
    · rw [List.map_append]
      exact List.prefix_append ..
    · exact List.prefix_refl _

theorem mergeKeeps_names (epoch : Nat) (names : List FileName) :
    MergeKeeps epoch fun entries => names <+: entries.map DirEntry.name where
  found ne h := h.trans (prefix_of_names_eq (map_key_updateFirst (refetch_name epoch ne)))
  new ne _ h := by
    rw [List.map_append]
    exact h.trans (List.prefix_append ..)

theorem distinct_add (h : Distinct DirEntry.name entries) (ino : UInt64) (type : UInt32)
    (name : FileName) (alloc : Bool) :
    Distinct DirEntry.name (addDirEntry entries ino type name alloc) := by
  unfold addDirEntry
  split
  · exact h.updateFirst fun _ => rfl
  · next hnew =>
    split
    · exact h.append_new (view_eq_none_of_not_any hnew)
    · exact h

theorem mergeKeeps_distinct (epoch : Nat) : MergeKeeps epoch (Distinct DirEntry.name) where
  found ne h := h.updateFirst (refetch_name epoch ne)
  new _ hnew h := h.append_new hnew

theorem distinct_compact (h : Distinct DirEntry.name entries) :
    Distinct DirEntry.name (compactDirEntries entries) := by
  simp only [compactDirEntries]
  split
  · exact h
  · exact h.filter

theorem dirHasLocalEntry_compact :
    dirHasLocalEntry (compactDirEntries entries) name = dirHasLocalEntry entries name := by
  rw [Bool.eq_iff_iff, dirHasLocalEntry_iff, dirHasLocalEntry_iff, activeEntries_compact]

theorem mem_take_compact {i : Nat} (hdistinct : Distinct DirEntry.name entries)
    (hactive : dirHasLocalEntry entries name = true)
    (h : name ∈ (entries.map DirEntry.name).take i) :
    name ∈ ((compactDirEntries entries).map DirEntry.name).take i := by
  simp only [compactDirEntries]
  split
  · exact h
  · rw [← List.map_take] at h ⊢
    have hpart := (mem_names_iff_active hdistinct hactive (List.take_subset i entries)).mp h
    have hpre : activeEntries (entries.take i) <+: activeEntries entries :=
      (List.take_prefix i entries).filter _
    have hlen : (activeEntries (entries.take i)).length ≤ i :=
      Nat.le_trans (List.length_filter_le ..) (List.length_take_le ..)
    have hsub : activeEntries (entries.take i) ⊆ (activeEntries entries).take i := by
      rw [List.prefix_iff_eq_take.mp hpre]
      exact List.take_subset_take_left _ hlen
    exact List.map_subset _ hsub hpart

/-! ### The events -/

variable {reclen : Emitted → Nat} {s s' : ListingState} {e : ListingEvent} {p : Pass}

theorem keep_stage (entries : List DirEntry) (p : Pass) : (p.keep entries).stage = p.stage := by
  unfold Pass.keep
  split <;> rfl

theorem keep_of_reading (h : p.stage.reading = true) :
    p.keep entries = { p with since := p.since.filter (dirHasLocalEntry entries) } :=
  if_pos h

theorem sound_reading_iff (h : p.stage.reading = true) : p.Sound entries ↔
    ∀ name ∈ p.since, p.returned.count name = if name ∈ p.passed entries then 1 else 0 := by
  have hmem : ∀ name, name ∈ p.passed entries ↔ (p.passed entries).contains name = true :=
    fun _ => List.contains_iff_mem.symm
  simp only [hmem]
  obtain ⟨stage, pos, since, returned⟩ := p
  cases stage with
  | idle => cases h
  | begun first => rfl
  | between => rfl
  | done => cases h

/-- After a change of the list a pass is still right just if the names that are left stand where
they stood. -/
theorem sound_keep_iff (h : p.Sound entries) : (p.keep entries').Sound entries' ↔
    (p.stage.reading = true → ∀ name ∈ p.since, dirHasLocalEntry entries' name = true →
      (name ∈ p.passed entries' ↔ name ∈ p.passed entries)) := by
  cases hread : p.stage.reading with
  | false =>
    rw [Pass.keep]
    refine iff_of_true ?_ fun hfalse => absurd hfalse Bool.false_ne_true
    obtain ⟨stage, pos, since, returned⟩ := p
    cases stage with
    | idle => trivial
    | begun first => cases hread
    | between => cases hread
    | done => exact h
  | true =>
    rw [sound_reading_iff hread] at h
    rw [keep_of_reading hread, imp_iff_right rfl,
      sound_reading_iff (p := { p with since := p.since.filter (dirHasLocalEntry entries') }) hread]
    simp only [List.mem_filter, and_imp]
    refine forall₃_congr fun name hname _ => ?_
    rw [h name hname]
    show (_ = if name ∈ p.passed entries' then 1 else 0) ↔ _
    by_cases hold : name ∈ p.passed entries <;> by_cases hnew : name ∈ p.passed entries' <;>
      simp [hold]

/-- What an event does: it changes the list without moving active names, a reader begins and
compacts the list, or the list stays and one reader goes on. -/
inductive ListingCase (reclen : Emitted → Nat) (s s' : ListingState) (e : ListingEvent) : Prop
  | changed {entries' : List DirEntry} (hs' : s' = s.setEntries entries')
      (hdistinct : ListingInv s → Distinct DirEntry.name entries')
      (hkeeps : ListingInv s → Keeps s.entries entries') (hok : ListingOk s e)
  | started {r : Nat} (he : e = .start r)
      (hs' : s' = (s.setEntries (compactDirEntries s.entries)).setPass r
        ⟨.begun true, 2, (activeEntries (compactDirEntries s.entries)).map DirEntry.name, []⟩)
  | called {r : Nat} (hstage : (s.readers r).stage = .between)
      (hs' : s' = s.setPass r { s.readers r with stage := .begun false }) (hok : ListingOk s e)
  | emitted {r m : Nat} {first : Bool} (hstage : (s.readers r).stage = .begun first)
      (rest : List DirEntry) (hrest : rest = s.entries.drop ((s.readers r).pos - 2).toNat)
      (hs' : s' = s.setPass r
        { s.readers r with
          stage := if first || !(activeEntries (rest.take m)).isEmpty then .between else .done
          pos := (s.readers r).pos + m
          returned := (s.readers r).returned ++ (activeEntries (rest.take m)).map DirEntry.name })
      (hended : activeEntries (rest.take m) = [] → activeEntries rest = []) (hok : ListingOk s e)

theorem filterMap_name_dirent (es : List DirEntry) :
    (es.map dirent).filterMap Emitted.name? = es.map DirEntry.name := by
  induction es with
  | nil => rfl
  | cons e es ih =>
    have hname : Emitted.name? (dirent e) = some e.name := rfl
    rw [List.map_cons, List.filterMap_cons_some hname, ih, List.map_cons]

variable {r room : Nat}

theorem listingCase_emit {alloc : Bool} (hs : listingExec reclen s (.emit r alloc room) = some s') :
    ListingCase reclen s s' (.emit r alloc room) := by
  simp only [listingExec] at hs
  split at hs <;> try cases hs
  next first hstage =>
  split at hs <;> cases hs
  next hfull =>
  obtain ⟨m, k, hcase⟩ :=
    emitCached_case reclen s.entries alloc ⟨(s.readers r).pos, room, [], false⟩
  have hnot := Bool.eq_false_iff.mpr hfull
  have hout := hcase.out
  have hpos := hcase.pos
  rw [hcase.exact_of_not_full hnot] at hpos
  simp only [List.nil_append, Int.natCast_zero, Int.add_zero] at hout hpos
  refine .emitted hstage _ rfl ?_ (hcase.ended (.inr hnot)) trivial
  rw [hout, hpos, filterMap_name_dirent, List.isEmpty_map]

theorem ListingCase.ofMap (hnames : entries'.map DirEntry.name = s.entries.map DirEntry.name)
    (hok : ListingOk s e) : ListingCase reclen s (s.setEntries entries') e := by
  have hdistinct : ListingInv s → Distinct DirEntry.name entries' := by
    intro h
    rw [Distinct, hnames]
    exact h.distinct
  refine .changed rfl hdistinct (fun h => keeps_of_prefix (hdistinct h) ?_) hok
  exact prefix_of_names_eq hnames

theorem listingExec_case (hs : listingExec reclen s e = some s') : ListingCase reclen s s' e := by
  cases e with
  | create name ino type alloc =>
    cases hs
    exact .changed rfl (fun h => distinct_add h.distinct ..)
      (fun h => keeps_of_prefix (distinct_add h.distinct ..) (prefix_add ..)) trivial
  | unlink name =>
    cases hs
    exact .ofMap (map_key_updateFirst fun _ => rfl) trivial
  | mergePage epoch room page =>
    cases hs
    exact .changed rfl (fun h => (mergeKeeps_distinct _).mergePage h.distinct)
      (fun h => keeps_of_prefix ((mergeKeeps_distinct _).mergePage h.distinct)
        ((mergeKeeps_names _ _).mergePage (List.prefix_refl _))) trivial
  | sweep epoch =>
    cases hs
    refine .ofMap ?_ trivial
    rw [List.map_map]
    exact List.map_congr_left fun d _ => sweepEntry_name epoch d
  | clear =>
    cases hs
    exact .changed rfl (fun _ => List.nodup_nil) (fun _ _ _ _ hnew => nomatch hnew) trivial
  | start r =>
    simp only [listingExec] at hs
    split at hs <;> cases hs <;> exact .started rfl rfl
  | call r =>
    simp only [listingExec] at hs
    split at hs <;> cases hs
    next hstage => exact .called hstage rfl trivial
  | emit r alloc room => exact listingCase_emit hs

theorem setPass_self (r : Nat) (p : Pass) : (s.setPass r p).readers r = p := Function.update_self ..

theorem setPass_of_ne {r' : Nat} (h : r' ≠ r) (p : Pass) :
    (s.setPass r p).readers r' = s.readers r' :=
  Function.update_of_ne h ..

theorem ListingInv.setEntries (h : ListingInv s) (hdistinct : Distinct DirEntry.name entries') :
    ListingInv (s.setEntries entries') := by
  refine ⟨hdistinct, fun r hr => ?_, fun r hr name hname => ?_⟩
  all_goals
    have hread : (s.readers r).stage.reading = true := by
      rw [← keep_stage entries']
      exact hr
  · show 2 ≤ ((s.readers r).keep entries').pos
    rw [keep_of_reading hread]
    exact h.pos r hread
  · have hmem : name ∈ ((s.readers r).keep entries').since := hname
    rw [keep_of_reading hread] at hmem
    exact (List.mem_filter.mp hmem).2

theorem ListingInv.setPass (h : ListingInv s) (hpos : p.stage.reading = true → 2 ≤ p.pos)
    (hactive : p.stage.reading = true → ∀ name ∈ p.since, dirHasLocalEntry s.entries name = true) :
    ListingInv (s.setPass r p) := by
  refine ⟨h.distinct, fun r' => ?_, fun r' => ?_⟩
  all_goals by_cases hr : r' = r
  · rw [hr, setPass_self]
    exact hpos
  · rw [setPass_of_ne hr]
    exact h.pos r'
  · rw [hr, setPass_self]
    exact hactive
  · rw [setPass_of_ne hr]
    exact h.active r'

theorem ListingInv.step (h : ListingInv s) (hcase : ListingCase reclen s s' e) :
    ListingInv s' := by
  cases hcase with
  | changed hs' hdistinct hkeeps hok =>
    subst hs'
    exact h.setEntries (hdistinct h)
  | started he hs' =>
    subst hs'
    refine (h.setEntries (distinct_compact h.distinct)).setPass (fun _ => Int.le_refl 2) ?_
    exact fun _ name hname => dirHasLocalEntry_iff.mpr hname
  | @called r hstage hs' hok =>
    subst hs'
    have hread : (s.readers r).stage.reading = true := by rw [hstage]; rfl
    exact h.setPass (fun _ => h.pos r hread) fun _ => h.active r hread
  | @emitted r m first hstage rest hrest hs' hended hok =>
    subst hs'
    have hread : (s.readers r).stage.reading = true := by rw [hstage]; rfl
    have hpos := h.pos r hread
    refine h.setPass (fun _ => ?_) fun _ => h.active r hread
    show 2 ≤ (s.readers r).pos + m
    omega

theorem passed_add (entries : List DirEntry) (hpos : 2 ≤ p.pos) (m : Nat) :
    (entries.map DirEntry.name).take (p.pos + m - 2).toNat =
      p.passed entries ++ ((entries.drop (p.pos - 2).toNat).take m).map DirEntry.name := by
  have hindex : (p.pos + m - 2).toNat = (p.pos - 2).toNat + m := by omega
  rw [hindex, List.take_add, Pass.passed, List.map_take, List.map_drop]

theorem count_append_active {before : List FileName} {part : List DirEntry}
    (hdistinct : Distinct DirEntry.name entries) (hpart : part ⊆ entries)
    (hnodup : (before ++ part.map DirEntry.name).Nodup)
    (hactive : dirHasLocalEntry entries name = true) :
    (if name ∈ before then 1 else 0) + ((activeEntries part).map DirEntry.name).count name =
      if name ∈ before ++ part.map DirEntry.name then 1 else 0 := by
  obtain ⟨-, hnodupPart, hdisjoint⟩ := List.nodup_append.mp hnodup
  have hcount := List.Nodup.count (a := name)
    (hnodupPart.sublist ((List.filter_sublist (p := fun e : DirEntry => !e.deleted)).map _))
  have hmem := mem_names_iff_active hdistinct hactive hpart
  rw [activeEntries] at hmem ⊢
  rw [hcount]
  simp only [← hmem, List.mem_append]
  by_cases hbefore : name ∈ before
  · have hnot : name ∉ part.map DirEntry.name := fun h => hdisjoint _ hbefore _ h rfl
    simp [hnot]
  · simp [hbefore]

theorem sound_emitted {m : Nat} {first : Bool} {rest : List DirEntry} (h : ListingInv s)
    (hsound : (s.readers r).Sound s.entries) (hstage : (s.readers r).stage = .begun first)
    (hrest : rest = s.entries.drop ((s.readers r).pos - 2).toNat)
    (hended : activeEntries (rest.take m) = [] → activeEntries rest = []) :
    Pass.Sound s.entries
      { s.readers r with
        stage := if first || !(activeEntries (rest.take m)).isEmpty then .between else .done
        pos := (s.readers r).pos + m
        returned :=
          (s.readers r).returned ++ (activeEntries (rest.take m)).map DirEntry.name } := by
  generalize hp : s.readers r = p at *
  have hread : p.stage.reading = true := by rw [hstage]; rfl
  have hpos : 2 ≤ p.pos := hp ▸ h.pos r (hp ▸ hread)
  have hactive : ∀ name ∈ p.since, dirHasLocalEntry s.entries name = true :=
    hp ▸ h.active r (hp ▸ hread)
  have hsub : rest ⊆ s.entries := hrest ▸ List.drop_subset ..
  have hadd := passed_add s.entries hpos m
  rw [← hrest] at hadd
  have hcount : ∀ name ∈ p.since,
      (p.returned ++ (activeEntries (rest.take m)).map DirEntry.name).count name =
        if name ∈ p.passed s.entries ++ (rest.take m).map DirEntry.name then 1 else 0 := by
    intro name hname
    rw [List.count_append, (sound_reading_iff hread).mp hsound name hname]
    refine count_append_active h.distinct (fun e he => hsub (List.mem_of_mem_take he)) ?_
      (hactive name hname)
    rw [← hadd]
    exact h.distinct.sublist (List.take_sublist ..)
  by_cases hmore : (first || !(activeEntries (rest.take m)).isEmpty) = true
  · rw [if_pos hmore]
    refine (sound_reading_iff rfl).mpr fun name hname => ?_
    show _ = if name ∈ (s.entries.map DirEntry.name).take (p.pos + m - 2).toNat then 1 else 0
    rw [hadd]
    exact hcount name hname
  · -- The end of the pass: an active name is not in the rest of the list.
    rw [if_neg hmore]
    intro name hname
    refine (hcount name hname).trans (if_pos (List.mem_append_left _ ?_))
    have hnil : activeEntries (rest.take m) = [] := by
      simp only [Bool.or_eq_true, Bool.not_eq_true', not_or, Bool.not_eq_false,
        List.isEmpty_iff] at hmore
      exact hmore.2
    have hnot : name ∉ rest.map DirEntry.name := by
      rw [mem_names_iff_active h.distinct (hactive name hname) hsub, hended hnil]
      exact List.not_mem_nil
    have hmem := mem_names_of_active (hactive name hname)
    rw [← List.take_append_drop (p.pos - 2).toNat s.entries, List.map_append, ← hrest,
      List.mem_append, or_iff_left hnot, List.map_take] at hmem
    exact hmem

theorem listingSound_setPass_iff :
    ListingSound (s.setPass r p) ↔
      p.Sound s.entries ∧ ∀ r', r' ≠ r → (s.readers r').Sound s.entries := by
  constructor
  · intro h
    refine ⟨?_, fun r' hr => ?_⟩
    · have hr := h r
      rwa [setPass_self] at hr
    · have hr' := h r'
      rwa [setPass_of_ne hr] at hr'
  · rintro ⟨hself, hother⟩ r'
    by_cases hr : r' = r
    · rw [hr, setPass_self]
      exact hself
    · rw [setPass_of_ne hr]
      exact hother r' hr

theorem listingSound_step_iff (h : ListingInv s) (hsound : ListingSound s)
    (hcase : ListingCase reclen s s' e) : ListingSound s' ↔ ListingOk s e := by
  cases hcase with
  | changed hs' hdistinct hkeeps hok =>
    subst hs'
    refine iff_of_true (fun r => (sound_keep_iff (hsound r)).mpr ?_) hok
    intro hread name hname hnew
    exact hkeeps h _ name (h.active r hread name hname) hnew
  | @started r he hs' =>
    subst hs' he
    rw [listingSound_setPass_iff, and_iff_right]
    · refine forall₂_congr fun r' _ => (sound_keep_iff (hsound r')).trans ?_
      refine forall₃_congr fun hread name hname => ?_
      have hactive := h.active r' hread name hname
      show (dirHasLocalEntry (compactDirEntries s.entries) name = true → _) ↔ _
      rw [dirHasLocalEntry_compact, imp_iff_right hactive]
      exact ⟨Iff.mp, fun hback => ⟨hback, mem_take_compact h.distinct hactive⟩⟩
    · intro name _
      rfl
  | @called r hstage hs' hok =>
    subst hs'
    refine iff_of_true (listingSound_setPass_iff.mpr ⟨?_, fun r' _ => hsound r'⟩) hok
    have hread : (s.readers r).stage.reading = true := by rw [hstage]; rfl
    exact (sound_reading_iff rfl).mpr ((sound_reading_iff hread).mp (hsound r))
  | @emitted r m first hstage rest hrest hs' hended hok =>
    subst hs'
    refine iff_of_true (listingSound_setPass_iff.mpr ⟨?_, fun r' _ => hsound r'⟩) hok
    exact sound_emitted h (hsound r) hstage hrest hended

theorem ListingInit.sound (h : ListingInit s) : ListingInv s ∧ ListingSound s := by
  have hread : ∀ r, (s.readers r).stage.reading ≠ true := fun r hr => by
    rw [h.readers r] at hr
    cases hr
  refine ⟨⟨h.distinct, fun r hr => absurd hr (hread r), fun r hr => absurd hr (hread r)⟩,
    fun r => ?_⟩
  rw [Pass.Sound, h.readers r]
  trivial

theorem ListingSound.listedOnce (h : ListingSound s) : ListedOnce s := by
  intro r hstage
  have hr := h r
  rw [Pass.Sound, hstage] at hr
  exact hr

/-- In every run that meets the condition a name that is active during a whole pass is returned once
in it. The condition is exact. -/
theorem listedOnce_of_listingOk (reclen : Emitted → Nat) (s : ListingState)
    (h : Runs.Reach (fun s e s' => listingExec reclen s e = some s') ListingOk ListingInit s) :
    ListedOnce s ∧
      ∀ e s', listingExec reclen s e = some s' → (ListingSound s' ↔ ListingOk s e) := by
  obtain ⟨hinv, hsound⟩ : ListingInv s ∧ ListingSound s := by
    refine h.invariant (fun _ hinit => hinit.sound) fun s e s' hinv hok hs => ?_
    have hcase := listingExec_case hs
    exact ⟨hinv.1.step hcase, (listingSound_step_iff hinv.1 hinv.2 hcase).mpr hok⟩
  exact ⟨hsound.listedOnce, fun e s' hs => listingSound_step_iff hinv hsound (listingExec_case hs)⟩

def unread (entries : List DirEntry) : ListingState := ⟨entries, fun _ => ⟨.idle, 0, [], []⟩⟩

def twoReaders : List ListingEvent :=
  [.start 1, .emit 1 true 48, .create [98] 6 0o100000 true, .start 2, .call 1, .emit 1 true 48,
    .call 1, .emit 1 true 48]

theorem listedOnce_of_listingOk_twoReaders :
    ∃ s, twoReaders.foldlM (listingExec fun _ => 24) (unread [cachedEntry 97 false]) = some s ∧
      (s.readers 1).stage = .done ∧ (s.readers 1).returned = [[97], [98]] ∧ ListedOnce s := by
  have hinit : ListingInit (unread [cachedEntry 97 false]) :=
    ⟨List.nodup_singleton _, fun _ => rfl⟩
  have hok : Runs.OkAlong (listingExec fun _ => 24) ListingOk (unread [cachedEntry 97 false])
      twoReaders := by
    refine .cons (fun _ _ hread => (nomatch hread)) rfl ?_
    iterate 2 refine .cons trivial rfl ?_
    refine .cons (fun _ _ _ _ _ hmem => hmem) rfl ?_
    iterate 4 refine .cons trivial rfl ?_
    trivial
  exact ⟨_, rfl, rfl, rfl, (listedOnce_of_listingOk _ _ (.of_run (.start hinit) hok rfl)).1⟩

section Compacted

def letters (n : Nat) : FileName := [UInt8.ofNat (97 + n / 16), UInt8.ofNat (97 + n % 16)]

def goneEntry (n : Nat) : DirEntry := ⟨100 :: letters n, 5, 0o100000, true, 1⟩

def keptEntry (n : Nat) : DirEntry := ⟨letters n, 5, 0o100000, false, 1⟩

/-- One active entry more than a call reads, behind deleted ones that are not quite half of all. -/
def crowded : List DirEntry := (List.range 256).map goneEntry ++ (List.range 257).map keptEntry

theorem letters_inj {n m : Nat} (hn : n < 257) (hm : m < 257) (h : letters n = letters m) :
    n = m := by
  simp only [letters, List.cons.injEq, and_true] at h
  have hhigh := congrArg UInt8.toNat h.1
  have hlow := congrArg UInt8.toNat h.2
  simp only [UInt8.toNat_ofNat'] at hhigh hlow
  omega

theorem distinct_crowded : Distinct DirEntry.name crowded := by
  rw [Distinct, crowded, List.map_append, List.map_map, List.map_map, List.nodup_append]
  refine ⟨?_, ?_, ?_⟩
  · refine List.Nodup.map_on (fun n hn m hm h => ?_) List.nodup_range
    have hn := List.mem_range.mp hn
    have hm := List.mem_range.mp hm
    exact letters_inj (by omega) (by omega) (List.cons.inj h).2
  · refine List.Nodup.map_on (fun n hn m hm h => ?_) List.nodup_range
    exact letters_inj (List.mem_range.mp hn) (List.mem_range.mp hm) h
  · rintro name hgone name' hkept rfl
    obtain ⟨n, -, hn⟩ := List.mem_map.mp hgone
    obtain ⟨m, -, hm⟩ := List.mem_map.mp hkept
    have hlen := congrArg List.length (hn.trans hm.symm)
    cases hlen

theorem compact_crowded : compactDirEntries crowded = crowded := by
  have hfew : (decide (crowded.countP (·.deleted) < 64) ||
      decide (crowded.countP (·.deleted) * 2 < crowded.length)) = true := by decide +kernel
  simp only [compactDirEntries, hfew, if_true]

theorem read_crowded :
    (emitCached (fun _ => 24) crowded true ⟨2, 6144, [], false⟩).pos = 514 ∧
      (emitCached (fun _ => 24) crowded true ⟨2, 6144, [], false⟩).full = false ∧
      letters 256 ∉ (emitCached (fun _ => 24) crowded true ⟨2, 6144, [], false⟩).out.filterMap
        Emitted.name? := by
  have hw : lookedAt readdirMax crowded =
      (List.range 256).map goneEntry ++ (List.range 256).map keptEntry := by decide +kernel
  obtain ⟨hpos, hout, hfull⟩ :=
    @emitCached_true crowded (fun _ => 24) ⟨2, 6144, [], false⟩ _ hw
  refine ⟨hpos.trans (by decide +kernel), hfull.mpr ⟨rfl, by decide +kernel⟩, ?_⟩
  rw [hout]
  decide +kernel

theorem read_compacted :
    (emitCached (fun _ => 24) (compactDirEntries (removeDirEntry crowded (letters 0))) true
        ⟨514, 6144, [], false⟩).full = false ∧
      (emitCached (fun _ => 24) (compactDirEntries (removeDirEntry crowded (letters 0))) true
        ⟨514, 6144, [], false⟩).out = [] := by
  decide +kernel

/-- The first reader has read a batch, and `x` is not in it. -/
structure Waiting (entries : List DirEntry) (stage : PassStage) (x : FileName)
    (s : ListingState) : Prop where
  entries : s.entries = entries
  stage : (s.readers 1).stage = stage
  pos : (s.readers 1).pos = 514
  since : x ∈ (s.readers 1).since
  returned : x ∉ (s.readers 1).returned

theorem Waiting.setEntries {entries entries' : List DirEntry} {x : FileName}
    (h : Waiting entries .between x s) (hactive : dirHasLocalEntry entries' x = true) :
    Waiting entries' .between x (s.setEntries entries') := by
  have hread : (s.readers 1).stage.reading = true := by rw [h.stage]; rfl
  have hkeep : (s.setEntries entries').readers 1 = _ := keep_of_reading hread
  refine ⟨rfl, ?_, ?_, ?_, ?_⟩
  all_goals rw [hkeep]
  · exact h.stage
  · exact h.pos
  · exact List.mem_filter.mpr ⟨h.since, hactive⟩
  · exact h.returned

theorem listingExec_emit {alloc first : Bool} (hstage : (s.readers r).stage = .begun first)
    (hfull : (emitCached reclen s.entries alloc ⟨(s.readers r).pos, room, [], false⟩).full =
      false) :
    listingExec reclen s (.emit r alloc room) = some (s.setPass r
      { s.readers r with
        stage :=
          if first || !(emitCached reclen s.entries alloc
            ⟨(s.readers r).pos, room, [], false⟩).out.isEmpty then .between else .done
        pos := (emitCached reclen s.entries alloc ⟨(s.readers r).pos, room, [], false⟩).pos
        returned := (s.readers r).returned ++
          (emitCached reclen s.entries alloc ⟨(s.readers r).pos, room, [], false⟩).out.filterMap
            Emitted.name? }) := by
  simp only [listingExec, hstage, hfull, Bool.false_eq_true, if_false]

section

variable {entries : List DirEntry} {x : FileName}

theorem exists_waiting (hdistinct : Distinct DirEntry.name entries)
    (hcompact : compactDirEntries entries = entries) (hactive : dirHasLocalEntry entries x = true)
    (hpos : (emitCached reclen entries true ⟨2, room, [], false⟩).pos = 514)
    (hfull : (emitCached reclen entries true ⟨2, room, [], false⟩).full = false)
    (hnot : x ∉ (emitCached reclen entries true ⟨2, room, [], false⟩).out.filterMap
      Emitted.name?) :
    ∃ s, Runs.Reach (fun s e s' => listingExec reclen s e = some s') (fun _ _ => True)
      ListingInit s ∧ Waiting entries .between x s ∧ (s.readers 2).stage = .idle := by
  have hinit : ListingInit (unread entries) := ⟨hdistinct, fun _ => rfl⟩
  have hstart : listingExec reclen (unread entries) (.start 1) = some _ := rfl
  rw [show (unread entries).entries = entries from rfl, hcompact] at hstart
  refine ⟨_, ((Runs.Reach.start hinit).next trivial hstart).next trivial
    (listingExec_emit (r := 1) rfl hfull), ?_, rfl⟩
  exact ⟨rfl, rfl, hpos, dirHasLocalEntry_iff.mp hactive, hnot⟩

theorem Waiting.start (h : Waiting entries .between x s) (hidle : (s.readers 2).stage = .idle)
    (hactive : dirHasLocalEntry entries x = true) :
    ∃ s', listingExec reclen s (.start 2) = some s' ∧
      Waiting (compactDirEntries entries) .between x s' := by
  refine ⟨_, by simp only [listingExec, hidle]; rfl, ?_⟩
  rw [h.entries]
  have hset := h.setEntries (dirHasLocalEntry_compact.trans hactive)
  exact ⟨hset.entries, hset.stage, hset.pos, hset.since, hset.returned⟩

theorem Waiting.call (h : Waiting entries .between x s) :
    ∃ s', listingExec reclen s (.call 1) = some s' ∧ Waiting entries (.begun false) x s' := by
  refine ⟨_, by simp only [listingExec, h.stage]; rfl, ?_⟩
  exact ⟨h.entries, rfl, h.pos, h.since, h.returned⟩

theorem Waiting.lost (h : Waiting entries (.begun false) x s)
    (hfull : (emitCached reclen entries true ⟨514, room, [], false⟩).full = false)
    (hout : (emitCached reclen entries true ⟨514, room, [], false⟩).out = []) :
    ∃ s', listingExec reclen s (.emit 1 true room) = some s' ∧ ¬ ListedOnce s' := by
  rw [← h.entries, ← h.pos] at hfull hout
  refine ⟨_, listingExec_emit h.stage hfull, fun hlisted => h.returned ?_⟩
  have hone := hlisted 1 (by rw [setPass_self]; exact if_neg (by rw [hout]; decide)) x h.since
  rw [setPass_self, hout] at hone
  have hmem := List.count_pos_iff.mp (Nat.lt_of_lt_of_eq Nat.one_pos hone.symm)
  simpa using hmem

end

/-- The first reader reads a batch, one more entry is deleted and a second reader begins: the list
gets shorter than the position of the first reader, which misses the last entry. -/
theorem not_listedOnce_runs :
    ¬ ∀ reclen s, Runs.Reach (fun s e s' => listingExec reclen s e = some s') (fun _ _ => True)
      ListingInit s → ListedOnce s := by
  intro h
  have hlast : dirHasLocalEntry crowded (letters 256) = true := by decide +kernel
  have hlast' : dirHasLocalEntry (removeDirEntry crowded (letters 0)) (letters 256) = true := by
    decide +kernel
  obtain ⟨hpos, hfull, hnot⟩ := read_crowded
  obtain ⟨hfull', hout'⟩ := read_compacted
  obtain ⟨s, hreach, hwait, hidle⟩ :=
    exists_waiting distinct_crowded compact_crowded hlast hpos hfull hnot
  have hreach := hreach.next (e := .unlink (letters 0)) trivial rfl
  rw [hwait.entries] at hreach
  obtain ⟨s', hs', hwait'⟩ := (hwait.setEntries hlast').start ((keep_stage ..).trans hidle) hlast'
  obtain ⟨s₁, hs₁, hwait₁⟩ := hwait'.call
  obtain ⟨s₂, hs₂, hlost⟩ := hwait₁.lost hfull' hout'
  exact hlost (h _ s₂ (((hreach.next trivial hs').next trivial hs₁).next trivial hs₂))

end Compacted

end PowerFS.Dir