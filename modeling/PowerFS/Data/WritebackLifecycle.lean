import Mathlib.Data.List.Destutter
import PowerFS.Data.Trace
import PowerFS.Lib.SharedCount

namespace PowerFS.Data

open Layout SharedCount

/-! The life of a writeback batch: `pending_needles`, `powerfs_wb_final_cleanup` and the end of
the writeback of each page (`end_page_writeback` with `put_page`), in `powerfs_writepage_work_fn`
and the callbacks of the requests it submits. A request whose submission fails has no callback,
every other one has exactly one. -/

variable {α : Type}

inductive ExtentOutcome where
  | noCtx | noBuf | submitFails | submitted
  deriving DecidableEq, Repr

/-- For a whole needle there is also the dedup hit, which leaves out the write. -/
inductive WholeOutcome where
  | noCtx | noBuf | unchanged | submitFails | submitted
  deriving DecidableEq, Repr

/-- What a batch meets: whether the client is stopping, the lookups of the two passes, the file
size read for a group, and what becomes of each group and extent. -/
structure WritebackEnv (α : Type) where
  stopping : Bool
  first : Page α → Option (UInt64 × UInt64)
  second : Page α → Option (UInt64 × UInt64)
  isize : List (Page α) → Nat
  whole : List (Page α) → WholeOutcome
  extent : List (Page α) → ExtentOutcome

/-- The pages that the loops over an index range do not skip. -/
def live (pages : List (Page α)) : List (Page α) := pages.filter fun p => !p.data.isEmpty

/-- One page of the first pass: the needle of the open group, and the groups so far. -/
def countStep (look : Page α → Option (UInt64 × UInt64)) (st : Option (UInt64 × UInt64) × Nat)
    (p : Page α) : Option (UInt64 × UInt64) × Nat :=
  match placeIn look p with
  | none => st
  | some place => if st.1 = some place then st else (some place, st.2 + 1)

def numGroups (look : Page α → Option (UInt64 × UInt64)) (batch : List (Page α)) : Nat :=
  (batch.foldl (countStep look) (none, 0)).2

/-- The pages whose writeback the first pass ends. -/
def endedFirst (look : Page α → Option (UInt64 × UInt64)) (batch : List (Page α)) :
    List (Page α) := batch.filter fun p => (placeIn look p).isNone

/-- `powerfs_wb_fail_pages`. -/
def failPages (pages : List (Page α)) : List (Act (Page α)) := (live pages).map .use

/-- The submission of a whole needle. Without memory the reference is dropped without a test. -/
def wholeActs (outcome : WholeOutcome) (pages : List (Page α)) : List (Act (Page α)) :=
  match outcome with
  | .noCtx | .noBuf => failPages pages ++ [Act.drop false]
  | .unchanged | .submitFails => failPages pages ++ [Act.drop true]
  | .submitted => [.spawn (live pages)]

/-- The loop of `powerfs_wb_submit_blob_extents` over the extents, with `extents_submitted`.
`toEnd` says that the last extent ends where the group ends. -/
def blobActs (outcome : List (Page α) → ExtentOutcome) (toEnd : Bool) :
    List (List (Page α)) → Nat → List (Act (Page α))
  | [], submitted => if submitted = 0 then [.drop true] else []
  | ext :: exts, submitted =>
    match outcome ext with
    | .noCtx | .noBuf =>
      failPages ext ++ ((if submitted = 0 ∧ exts = [] ∧ toEnd then [Act.drop true] else [])
        ++ blobActs outcome toEnd exts submitted)
    | .submitFails =>
      (if submitted = 0 then [] else [Act.hold]) ++ (failPages ext
        ++ Act.drop true :: blobActs outcome toEnd exts submitted)
    | .submitted =>
      (if submitted = 0 then [] else [Act.hold])
        ++ Act.spawn (live ext) :: blobActs outcome toEnd exts (submitted + 1)

/-- The choice between the two ways of submission. -/
def isWhole (env : WritebackEnv α) (pages : List (Page α)) : Bool :=
  let groupOffset := pages.head?.elim 0 (·.offset)
  let needleStart := groupOffset - groupOffset % chunkSize
  needleFullCoverage pages needleStart (min (env.isize pages - needleStart) chunkSize)

def endsLive (pages : List (Page α)) : Bool := pages.getLast?.all fun p => !p.data.isEmpty

def groupActs (env : WritebackEnv α) (pages : List (Page α)) : List (Act (Page α)) :=
  if isWhole env pages then wholeActs (env.whole pages) pages
  else blobActs env.extent (endsLive pages) (blobExtents pages []) 0

/-- The work function when it has counted at least one group. -/
def workActs (env : WritebackEnv α) (batch : List (Page α)) : List (Act (Page α)) :=
  ((endedFirst env.first batch).map Act.use
    ++ (splitGroups env.second batch none).flatMap fun g => groupActs env g.2) ++
      [Act.drop true]

/-- The start of the work function. Nothing reads the counter before it is set, between the two
passes. -/
def batchStart (env : WritebackEnv α) (batch : List (Page α)) : State (Page α) :=
  if env.stopping then ⟨[batch.map Act.use ++ [Act.free]], 0, [], 0⟩
  else if numGroups env.first batch = 0 then
    ⟨[(endedFirst env.first batch).map Act.use ++ [Act.free]], 0, [], 0⟩
  else ⟨[workActs env batch], numGroups env.first batch + 1, [], 0⟩

/-- In every interleaving the batch is cleaned up exactly once, after the work function and all
callbacks, and the writeback of each of its pages is ended exactly once. -/
def BatchClean (env : WritebackEnv α) (batch : List (Page α)) : Prop :=
  Clean (batchStart env batch) batch

/-- How many groups of neighbours with one needle there are among the pages that have one. -/
def needleRuns (look : Page α → Option (UInt64 × UInt64)) (batch : List (Page α)) : Nat :=
  ((batch.filterMap (placeIn look)).destutter (· ≠ ·)).length

/-- A page that is not empty fails its first lookup exactly if it comes before all pages that are
found in the second pass. -/
def EndsOnce (env : WritebackEnv α) (batch : List (Page α)) : Prop :=
  (∀ p ∈ batch.takeWhile fun p => (placeIn env.second p).isNone, placeIn env.first p = none) ∧
    ∀ p ∈ batch.dropWhile fun p => (placeIn env.second p).isNone,
      p.data ≠ [] → env.first p ≠ none

def ExtentOutcome.noMemory : ExtentOutcome → Bool
  | .noCtx | .noBuf => true
  | .submitFails | .submitted => false

/-- References dropped too many for a group sent in extents: one for each failed submission before
the first successful one, and one if none succeeds and the last extent gets no memory. -/
def extraDrops (outcomes : List ExtentOutcome) (toEnd : Bool) : Nat :=
  (outcomes.takeWhile (· ≠ .submitted)).count .submitFails +
    if .submitted ∉ outcomes ∧ toEnd ∧ outcomes.getLast?.any (·.noMemory) then 1 else 0

def groupExtra (env : WritebackEnv α) (pages : List (Page α)) : Nat :=
  if isWhole env pages then 0
  else extraDrops ((blobExtents pages []).map env.extent) (endsLive pages)

section Blob

variable {outcome : List (Page α) → ExtentOutcome} {toEnd : Bool}

section

variable (pages : List (Page α))

theorem owed_failPages : owed (failPages pages) = 0 := owed_uses _

theorem steady_failPages : Steady (failPages pages) := steady_uses _

theorem itemsOf_failPages : itemsOf (failPages pages) = live pages :=
  itemsOf_uses _

theorem free_notMem_failPages : Act.free ∉ failPages pages := by
  simp [failPages]

end

section

variable (exts : List (List (Page α)))

theorem owed_blobActs_succ : ∀ n,
    owed (blobActs outcome toEnd exts (n + 1)) = 0 := by
  induction exts with
  | nil => exact fun n => rfl
  | cons ext exts ih =>
    intro n
    rw [blobActs]
    split <;> simp [owed_failPages, Act.owes, ih]

theorem owed_blobActs :
    owed (blobActs outcome toEnd exts 0) = 1 + extraDrops (exts.map outcome) toEnd := by
  induction exts with
  | nil => simp [blobActs, extraDrops, Act.owes]
  | cons ext exts ih =>
    rw [blobActs, List.map_cons]
    cases hout : outcome ext with
    | submitted =>
      have hzero : extraDrops (.submitted :: exts.map outcome) toEnd = 0 := by
        simp [extraDrops]
      simp [owed_blobActs_succ, Act.owes, hzero]
    | submitFails =>
      have hone : extraDrops (.submitFails :: exts.map outcome) toEnd =
          1 + extraDrops (exts.map outcome) toEnd := by
        cases exts with
        | nil => simp [extraDrops, ExtentOutcome.noMemory]
        | cons e es => simp [extraDrops]; omega
      simp only [if_true, List.nil_append, owed_append, owed_failPages, owed_cons, Act.owes]
      omega
    | noCtx | noBuf =>
      cases exts with
      | nil => cases toEnd <;>
          simp [blobActs, extraDrops, owed_failPages, Act.owes, ExtentOutcome.noMemory]
      | cons e es =>
        have hsame : ∀ o : ExtentOutcome, o.noMemory = true →
            extraDrops (o :: (e :: es).map outcome) toEnd =
              extraDrops ((e :: es).map outcome) toEnd := by
          intro o ho
          have hne : o ≠ .submitted ∧ o ≠ .submitFails := by
            cases o <;> simp [ExtentOutcome.noMemory] at ho ⊢
          simp [extraDrops, hne.1, hne.2, Ne.symm hne.1]
        rw [hsame _ rfl]
        simp [owed_failPages, ih]

theorem steady_blobActs : ∀ n,
    Steady (blobActs outcome toEnd exts n) := by
  induction exts with
  | nil =>
    intro n
    rw [blobActs]
    split
    · exact ⟨Int.one_nonneg, trivial⟩
    · exact trivial
  | cons ext exts ih =>
    intro n
    -- a hold stands right before the submission that pays for it
    have hhold : ∀ t : List (Act (Page α)), Steady t → 1 ≤ owed t →
        Steady ((if n = 0 then [] else [.hold]) ++ t) := by
      intro t ht hpos
      split
      · exact ht
      · refine ⟨?_, ht⟩
        show 0 ≤ Act.owes .hold + owed t
        simp only [Act.owes]
        omega
    have hpaid : ∀ (a : Act (Page α)) m, a.owes = 1 →
        Steady (a :: blobActs outcome toEnd exts m) ∧
          1 ≤ owed (a :: blobActs outcome toEnd exts m) := by
      intro a m ha
      have hrest := (ih m).owed_nonneg
      have howed : owed (a :: blobActs outcome toEnd exts m) =
          1 + owed (blobActs outcome toEnd exts m) := by rw [owed_cons, ha]
      exact ⟨⟨by omega, ih m⟩, by omega⟩
    have hfail : Steady (failPages ext ++ ((if n = 0 ∧ exts = [] ∧ toEnd then [.drop true] else [])
        ++ blobActs outcome toEnd exts n)) := by
      refine (steady_failPages ext).append ?_
      split
      · exact (hpaid (.drop true) n rfl).1
      · exact ih n
    rw [blobActs]
    split
    · exact hfail
    · exact hfail
    · obtain ⟨hsteady, hpos⟩ := hpaid (.drop true) n rfl
      refine hhold _ ((steady_failPages ext).append hsteady) ?_
      rw [owed_append, owed_failPages]
      omega
    · obtain ⟨hsteady, hpos⟩ := hpaid (.spawn (live ext)) (n + 1) rfl
      exact hhold _ hsteady hpos

theorem free_notMem_blobActs : ∀ n,
    Act.free ∉ blobActs outcome toEnd exts n := by
  induction exts with
  | nil =>
    intro n
    rw [blobActs]
    split <;> simp
  | cons ext exts ih =>
    intro n
    rw [blobActs]
    split <;> split <;> simp [free_notMem_failPages, ih]

theorem itemsOf_blobActs : ∀ n,
    itemsOf (blobActs outcome toEnd exts n) = exts.flatMap live := by
  induction exts with
  | nil =>
    intro n
    rw [blobActs]
    split <;> rfl
  | cons ext exts ih =>
    intro n
    rw [blobActs]
    split <;> split <;> simp [itemsOf_failPages, Act.items, ih]

end

end Blob

theorem live_append (ps qs : List (Page α)) : live (ps ++ qs) = live ps ++ live qs :=
  List.filter_append ..

theorem live_of_empty {p : Page α} (h : p.data = []) : live [p] = [] := by
  simp [live, h]

theorem blobExtents_live (ps : List (Page α)) : ∀ ext : List (Page α),
    (blobExtents ps ext).flatMap live = live (ext ++ ps) := by
  induction ps with
  | nil =>
    intro ext
    rw [blobExtents]
    cases ext <;> simp [live]
  | cons p ps ih =>
    intro ext
    rw [blobExtents, List.flatMap_append, ih]
    obtain ⟨hempty, hr⟩ | ⟨-, -, hr⟩ | ⟨-, -, hr⟩ := extentStep_cases ext p
    · have hskip : live (ext ++ p :: ps) = live ext ++ live ps := by
        rw [live_append, ← List.singleton_append, live_append, live_of_empty hempty,
          List.nil_append]
      rw [hr, hskip]
      cases ext <;> simp [live]
    · rw [hr]
      simp
    · rw [hr, List.flatMap_singleton, ← live_append]
      rfl

section Groups

variable (env : WritebackEnv α) (pages : List (Page α))

theorem owed_groupActs : owed (groupActs env pages) = 1 + groupExtra env pages := by
  rw [groupActs, groupExtra]
  split
  · cases env.whole pages <;> simp [wholeActs, owed_failPages, Act.owes]
  · exact owed_blobActs _

theorem steady_groupActs : Steady (groupActs env pages) := by
  rw [groupActs]
  split
  · have hdrop : ∀ tested, Steady (failPages pages ++ [Act.drop tested]) := fun tested =>
      (steady_failPages pages).append ⟨Int.one_nonneg, trivial⟩
    cases env.whole pages with
    | noCtx | noBuf => exact hdrop false
    | unchanged | submitFails => exact hdrop true
    | submitted => exact ⟨Int.one_nonneg, trivial⟩
  · exact steady_blobActs _ 0

theorem free_notMem_groupActs : Act.free ∉ groupActs env pages := by
  rw [groupActs]
  split
  · cases env.whole pages <;> simp [wholeActs, free_notMem_failPages]
  · exact free_notMem_blobActs _ 0

theorem itemsOf_groupActs : itemsOf (groupActs env pages) = live pages := by
  rw [groupActs]
  split
  · cases env.whole pages <;> simp [wholeActs, itemsOf_failPages, Act.items]
  · rw [itemsOf_blobActs, blobExtents_live]
    rfl

end Groups

section Passes

variable {look : Page α → Option (UInt64 × UInt64)}

section

variable (batch : List (Page α))

theorem foldl_countStep : ∀ (cur : Option (UInt64 × UInt64)) (n : Nat),
    (batch.foldl (countStep look) (cur, n)).2 + cur.toList.length =
      n + (cur.elim (List.destutter (· ≠ ·)) (List.destutter' (· ≠ ·))
        (batch.filterMap (placeIn look))).length := by
  induction batch with
  | nil =>
    intro cur n
    cases cur <;> rfl
  | cons p batch ih =>
    intro cur n
    rw [List.foldl_cons]
    cases hp : placeIn look p with
    | none =>
      rw [List.filterMap_cons_none hp, countStep, hp]
      exact ih cur n
    | some place =>
      rw [List.filterMap_cons_some hp, countStep, hp]
      have hopen := ih (some place) (n + 1)
      cases cur with
      | none =>
        simp only [reduceCtorEq, if_false, Option.elim_none, List.destutter, Option.toList_none,
          Option.toList_some, Option.elim_some, List.length_nil, List.length_singleton]
          at hopen ⊢
        omega
      | some c =>
        have hstay := ih (some c) n
        simp only [Option.some.injEq, Option.elim_some, Option.toList_some, List.length_singleton,
          List.destutter'_cons] at hopen hstay ⊢
        by_cases hsame : c = place
        · subst hsame
          rw [if_pos rfl, if_neg (not_not.mpr rfl)]
          exact hstay
        · rw [if_neg hsame, if_pos hsame, List.length_cons]
          omega

theorem numGroups_eq_needleRuns :
    numGroups look batch = needleRuns look batch := by
  have h : numGroups look batch + 0 = 0 + needleRuns look batch := foldl_countStep batch none 0
  omega

theorem splitGroups_length : ∀ cur : Option (Group α), (splitGroups look batch cur).length =
      (cur.elim (List.destutter (· ≠ ·)) (fun g => List.destutter' (· ≠ ·) g.1)
        (batch.filterMap (placeIn look))).length := by
  induction batch with
  | nil =>
    intro cur
    cases cur <;> rfl
  | cons p batch ih =>
    intro cur
    rw [splitGroups, List.length_append, ih]
    cases hp : placeIn look p with
    | none =>
      cases cur <;> simp [splitStep, hp]
    | some place =>
      cases cur with
      | none => simp [splitStep, hp, List.destutter]
      | some g =>
        by_cases hsame : place = g.1
        · simp [splitStep, hp, hsame]
        · simp [splitStep, hp, hsame, Ne.symm hsame, Nat.add_comm]

theorem splitGroups_pages : ∀ cur : Option (Group α), (splitGroups look batch cur).flatMap (·.2) =
      cur.elim (batch.dropWhile fun p => (placeIn look p).isNone) fun g => g.2 ++ batch := by
  induction batch with
  | nil =>
    intro cur
    cases cur <;> simp [splitGroups]
  | cons p batch ih =>
    intro cur
    rw [splitGroups, List.flatMap_append, ih]
    cases hp : placeIn look p with
    | none => cases cur <;> simp [splitStep, hp]
    | some place =>
      cases cur with
      | none => simp [splitStep, hp]
      | some g => by_cases hsame : place = g.1 <;> simp [splitStep, hp, hsame]

end

end Passes

section Work

variable (env : WritebackEnv α) (batch : List (Page α))

theorem owed_workActs : owed (workActs env batch) =
    (needleRuns env.second batch : Int) + 1 +
      (((splitGroups env.second batch none).map fun g => groupExtra env g.2).sum : Nat) := by
  have hgroups : ∀ gs : List (Group α), owed (gs.flatMap fun g => groupActs env g.2) =
      (gs.length : Int) + ((gs.map fun g => groupExtra env g.2).sum : Nat) := by
    intro gs
    induction gs with
    | nil => rfl
    | cons g gs ih =>
      rw [List.flatMap_cons, owed_append, owed_groupActs, List.map_cons, List.sum_cons,
        List.length_cons]
      omega
  have hlen : (splitGroups env.second batch none).length = needleRuns env.second batch :=
    splitGroups_length batch none
  rw [workActs, owed_append, owed_append, owed_uses, hgroups]
  simp only [owed_cons, owed_nil, Act.owes]
  omega

theorem itemsOf_workActs : itemsOf (workActs env batch) =
    endedFirst env.first batch ++
      live (batch.dropWhile fun p => (placeIn env.second p).isNone) := by
  have hgroups : ∀ gs : List (Group α),
      itemsOf (gs.flatMap fun g => groupActs env g.2) = live (gs.flatMap (·.2)) := by
    intro gs
    induction gs with
    | nil => rfl
    | cons g gs ih =>
      rw [List.flatMap_cons, itemsOf_append, ih, itemsOf_groupActs, List.flatMap_cons, live_append]
  have hpages : (splitGroups env.second batch none).flatMap (·.2) =
      batch.dropWhile fun p => (placeIn env.second p).isNone := splitGroups_pages batch none
  rw [workActs, itemsOf_append, itemsOf_append, hgroups, hpages]
  simp [Act.items]

theorem owing_workActs : Owing (workActs env batch) := by
  refine .inr ⟨_, rfl, (steady_uses _).append ?_, ?_⟩
  · generalize splitGroups env.second batch none = gs
    induction gs with
    | nil => exact trivial
    | cons g gs ih => exact (steady_groupActs env g.2).append ih
  · simp [free_notMem_groupActs]

/-- The two passes end the writeback of each page once exactly under the condition on the
lookups. -/
theorem itemsOf_workActs_perm : (itemsOf (workActs env batch)).Perm batch ↔ EndsOnce env batch := by
  classical
  rw [itemsOf_workActs]
  set q : Page α → Bool := fun p => (placeIn env.second p).isNone
  have hsplit : ∀ p, batch.count p = (batch.takeWhile q).count p + (batch.dropWhile q).count p := by
    intro p
    rw [← List.count_append, List.takeWhile_append_dropWhile]
  have hfirst : ∀ p, (endedFirst env.first batch).count p =
      if placeIn env.first p = none then batch.count p else 0 := by
    intro p
    split
    · next h => exact List.count_filter (by simp [h])
    · next h => exact List.count_eq_zero.mpr (by simp [endedFirst, h])
  have hlive : ∀ p, (live (batch.dropWhile q)).count p =
      if p.data = [] then 0 else (batch.dropWhile q).count p := by
    intro p
    split
    · next h => exact List.count_eq_zero.mpr (by simp [live, h])
    · next h => exact List.count_filter (by simp [h])
  have hempty : ∀ p : Page α, p.data = [] → placeIn env.first p = none := by
    intro p h
    simp [placeIn, h]
  have hplace : ∀ p : Page α, p.data ≠ [] → (placeIn env.first p = none ↔ env.first p = none) := by
    intro p h
    simp [placeIn, h]
  rw [List.perm_iff_count]
  simp only [List.count_append, hfirst, hlive]
  constructor
  · intro h
    constructor
    · intro p hp
      by_contra hne
      have hdata : p.data ≠ [] := fun hd => hne (hempty p hd)
      have hcount := h p
      have hpos : 0 < (batch.takeWhile q).count p := List.count_pos_iff.mpr hp
      rw [if_neg hne, if_neg hdata, hsplit p] at hcount
      omega
    · intro p hp hdata hnone
      have hcount := h p
      have hpos : 0 < (batch.dropWhile q).count p := List.count_pos_iff.mpr hp
      rw [if_pos ((hplace p hdata).mpr hnone), if_neg hdata] at hcount
      omega
  · rintro ⟨hbefore, hafter⟩ p
    by_cases hdata : p.data = []
    · rw [if_pos (hempty p hdata), if_pos hdata, Nat.add_zero]
    · rw [if_neg hdata]
      by_cases hnone : placeIn env.first p = none
      · have hzero : (batch.dropWhile q).count p = 0 := List.count_eq_zero.mpr fun hp =>
          hafter p hp hdata ((hplace p hdata).mp hnone)
        rw [if_pos hnone, hzero, Nat.add_zero]
      · have hzero : (batch.takeWhile q).count p = 0 := List.count_eq_zero.mpr fun hp =>
          hnone (hbefore p hp)
        rw [if_neg hnone, hsplit p, hzero]

end Work

/-- A batch is cleaned up once and at the end, and its pages are ended once, if it does not get to
the second pass; or if the first pass ends just the pages that the second one leaves out, and its
count is that of the groups and of what these drop too much. -/
theorem batchClean_iff (env : WritebackEnv α) (batch : List (Page α)) : BatchClean env batch ↔
    env.stopping = true ∨ needleRuns env.first batch = 0 ∨
      EndsOnce env batch ∧ needleRuns env.first batch = needleRuns env.second batch +
        ((splitGroups env.second batch none).map fun g => groupExtra env g.2).sum := by
  rw [BatchClean, batchStart, numGroups_eq_needleRuns]
  split
  · next hstop => exact iff_of_true clean_inline (.inl hstop)
  · next hstop =>
    split
    · next hnone =>
      -- without a group the first pass has ended every page
      have hall : endedFirst env.first batch = batch := by
        have hplaces : batch.filterMap (placeIn env.first) = [] := by
          rw [needleRuns, List.length_eq_zero_iff] at hnone
          cases hmap : batch.filterMap (placeIn env.first) with
          | nil => rfl
          | cons a l =>
            rw [hmap, List.destutter] at hnone
            exact absurd (List.mem_destutter' _ _ a) (by rw [hnone]; exact List.not_mem_nil)
        rw [List.filterMap_eq_nil_iff] at hplaces
        exact List.filter_eq_self.mpr fun p hp => by rw [hplaces p hp]; rfl
      rw [hall]
      exact iff_of_true clean_inline (.inr (.inl hnone))
    · next hnone =>
      have hne : workActs env batch ≠ [] := by simp [workActs]
      rw [clean_iff (owing_workActs env batch) hne, itemsOf_workActs_perm, owed_workActs]
      constructor
      · rintro ⟨hcount, honce⟩
        exact .inr (.inr ⟨honce, by omega⟩)
      · rintro (hstop' | hnone' | ⟨honce, hcount⟩)
        · exact absurd hstop' hstop
        · exact absurd hnone' hnone
        · exact ⟨by omega, honce⟩

/-- One page of one byte, located to the same needle in both passes, whose only extent is not
taken by the connection. -/
def refusedEnv : WritebackEnv UInt8 where
  stopping := false
  first := fun _ => some (7, 100)
  second := fun _ => some (7, 100)
  isize := fun _ => 1
  whole := fun _ => .submitted
  extent := fun _ => .submitFails

/-- The group's reference is dropped twice, so that the batch is cleaned up while the work function
still holds its own. -/
theorem not_batchClean_all :
    ¬ ∀ (env : WritebackEnv UInt8) (batch : List (Page UInt8)), BatchClean env batch := by
  intro hall
  have hrun : ∃ s, [0, 0, 0].foldlM exec (batchStart refusedEnv [⟨0, [5]⟩]) = some s ∧
      s.freed = 1 ∧ s.tasks = [[.drop true]] := ⟨_, rfl, rfl, rfl⟩
  obtain ⟨s, hs, hfreed, htasks⟩ := hrun
  have hreach : Reaches (batchStart refusedEnv [⟨0, [5]⟩]) s :=
    .run rfl hs
  have hdone := (hall refusedEnv [⟨0, [5]⟩]).late s hreach (by omega)
  cases hdone [.drop true] (by rw [htasks]; exact List.mem_singleton_self _)

end PowerFS.Data
