import PowerFS.Xattr.Cache
import PowerFS.Lib.Runs

namespace PowerFS.Xattr

/-! The attributes of an inode as a map: operations of one client whose requests all succeed, next
to the same operations on an abstract map. -/

abbrev XattrMap := XattrName → Option XattrValue

/-- An operation. `alloc` says whether the cache gets the memory it asks for, and `noValue` what the
Filer makes of a SET_XATTR without a value. The inode may leave the memory at any time. -/
inductive XattrOp where
  | set (name : XattrName) (value : XattrValue) (flags : SetFlags) (alloc : Bool)
      (noValue : Option XattrValue)
  | get (name : XattrName) (size : Nat) (alloc : Bool)
  | remove (name : XattrName)
  | evict

inductive XattrResult where
  | done (r : Except Errno Unit)
  | read (r : GetResult)

/-- What an operation should return, and the map after it. -/
def specOp (m : XattrMap) : XattrOp → Option XattrResult × XattrMap
  | .set name value flags _ _ =>
    if xattrSizeMax < value.length then (some (.done (.error .e2big)), m)
    else
      match m name with
      | some _ =>
        if flags.create then (some (.done (.error .eexist)), m)
        else (some (.done (.ok ())), Function.update m name (some value))
      | none =>
        if flags.replace then (some (.done (.error .enodata)), m)
        else (some (.done (.ok ())), Function.update m name (some value))
  | .get name size _ =>
    match m name with
    | some v => (some (.read (readValue v size)), m)
    | none => (some (.read (.error .enodata)), m)
  | .remove name =>
    match m name with
    | some _ => (some (.done (.ok ())), Function.update m name none)
    | none => (some (.done (.error .enodata)), m)
  | .evict => (none, m)

/-- The cache of the client and the attributes on the Filer. -/
structure XattrStore where
  cache : XattrTable
  filer : XattrTable

/-- What an operation returns, and what it leaves. -/
def storeOp (s : XattrStore) : XattrOp → Option XattrResult × XattrStore
  | .set name value flags alloc noValue =>
    let (r, cache) := xattrHandlerSet alloc s.cache (.ok ()) name (some value) flags
    let filer :=
      if xattrSizeMax < value.length then s.filer
      else filerSet s.filer name (requestValue value) noValue
    (some (.done r), ⟨cache, filer⟩)
  | .get name size alloc =>
    let (r, cache) := xattrHandlerGet alloc s.cache (filerGet s.filer name) name size
    (some (.read r), ⟨cache, s.filer⟩)
  | .remove name =>
    match s.filer.get name with
    | some _ =>
      let (r, cache) := xattrHandlerSet true s.cache (.ok ()) name none .none
      (some (.done r), ⟨cache, s.filer.erase name⟩)
    | none =>
      let (r, cache) := xattrHandlerSet true s.cache (.error .enodata) name none .none
      (some (.done r), ⟨cache, s.filer⟩)
  | .evict => (none, ⟨.empty, s.filer⟩)

/-- The store, the abstract map, and for each operation what it returned and should return. -/
structure XattrState where
  store : XattrStore
  abstract : XattrMap
  results : List (Option XattrResult × Option XattrResult)

def xattrExec (s : XattrState) (e : XattrOp) : Option XattrState :=
  some ⟨(storeOp s.store e).2, (specOp s.abstract e).2,
    ((storeOp s.store e).1, (specOp s.abstract e).1) :: s.results⟩

/-- The Filer has the map, and the cache a part of it. -/
structure Represents (s : XattrStore) (m : XattrMap) : Prop where
  filer : ∀ name, s.filer.get name = m name
  cache : ∀ name v, s.cache.get name = some v → m name = some v

/-- The operations have returned what they should, and the attributes are those of the map. -/
structure Agrees (s : XattrState) : Prop where
  results : ∀ r ∈ s.results, r.1 = r.2
  represents : Represents s.store s.abstract

/-- Nothing is cached. -/
structure XattrInit (s : XattrState) : Prop where
  cache : s.store.cache = .empty
  filer : ∀ name, s.store.filer.get name = s.abstract name
  results : s.results = []

/-- A set uses `XATTR_CREATE` for new names and `XATTR_REPLACE` for old ones only, its value fits in
a field, and the cache gets its memory if it has another value; the value of a get is cached or fits
in the response buffer. -/
def XattrOk (s : XattrState) : XattrOp → Prop
  | .set name value flags alloc noValue =>
    value.length ≤ xattrSizeMax →
      (flags.create = true → s.abstract name = none) ∧
      (flags.replace = true → s.abstract name ≠ none) ∧
      (value.length ≤ Net.maxTlv ∨ noValue = some value) ∧
      (alloc = true ∨ s.store.cache.get name = none ∨ s.store.cache.get name = some value)
  | .get name _ _ =>
    s.store.cache.get name = none →
      (s.abstract name).all (fun v => v.length + 5 ≤ getxattrRespCap) = true
  | .remove _ => True
  | .evict => True

instance (s : XattrState) : (e : XattrOp) → Decidable (XattrOk s e)
  | .set .. => inferInstanceAs (Decidable (_ → _ ∧ _ ∧ _ ∧ _))
  | .get .. => inferInstanceAs (Decidable (_ → _))
  | .remove _ | .evict => isTrue trivial

theorem XattrInit.agrees {s : XattrState} (h : XattrInit s) : Agrees s where
  results r hr := by
    rw [h.results] at hr
    cases hr
  represents := {
    filer := h.filer
    cache := fun name v hv => by
      rw [h.cache] at hv
      cases hv }

section Step

variable {s : XattrStore} {m : XattrMap} (h : Represents s m)
include h

theorem Represents.fill {name : XattrName} {v : XattrValue} (hv : m name = some v) (alloc : Bool) :
    Represents ⟨fillCache alloc s.cache name (some v) .none, s.filer⟩ m where
  filer := h.filer
  cache k w hw := by
    by_cases hk : k = name
    · subst hk
      rw [get_fillCache_self] at hw
      split at hw
      · exact hv.trans hw
      · exact h.cache k w hw
    · exact h.cache k w ((get_fillCache_of_ne alloc s.cache name k .none _ hk).symm.trans hw)

theorem Represents.get_iff (name : XattrName) (size : Nat) (alloc : Bool) :
    ((storeOp s (.get name size alloc)).1 = (specOp m (.get name size alloc)).1 ∧
        Represents (storeOp s (.get name size alloc)).2 (specOp m (.get name size alloc)).2) ↔
      (s.cache.get name = none →
        (m name).all (fun v => v.length + 5 ≤ getxattrRespCap) = true) := by
  simp only [storeOp, specOp]
  cases hcache : s.cache.get name with
  | some v =>
    rw [xattrHandlerGet_cached hcache, h.cache name v hcache]
    exact iff_of_true ⟨rfl, h⟩ fun hnone => absurd hnone (Option.some_ne_none v)
  | none =>
    rw [xattrHandlerGet_miss alloc size hcache]
    have hfiler := h.filer name
    cases hm : m name with
    | none =>
      rw [hm] at hfiler
      rw [fetchXattr_absent alloc size hfiler]
      exact iff_of_true ⟨rfl, h⟩ fun _ => rfl
    | some v =>
      rw [hm] at hfiler
      simp only [forall_const, Option.all_some, decide_eq_true_eq]
      by_cases hfits : v.length + 5 ≤ getxattrRespCap
      · obtain ⟨cache', hfetch, hcache'⟩ := fetchXattr_of_le alloc size hfiler hfits
        rw [hfetch]
        refine iff_of_true ⟨rfl, ?_⟩ hfits
        obtain rfl | rfl := hcache'
        · exact h
        · exact h.fill hm alloc
      · rw [fetchXattr_of_lt alloc size hfiler (Nat.lt_of_not_le hfits)]
        refine iff_of_false ?_ hfits
        rintro ⟨hresult, -⟩
        have hread : readValue v size = .error .e2big := by
          injection hresult with hresult
          injection hresult with hresult
          exact hresult.symm
        unfold readValue at hread
        split_ifs at hread
        cases hread

theorem Represents.remove (name : XattrName) :
    (storeOp s (.remove name)).1 = (specOp m (.remove name)).1 ∧
      Represents (storeOp s (.remove name)).2 (specOp m (.remove name)).2 := by
  have hfiler := h.filer name
  simp only [storeOp, specOp]
  cases hm : m name with rw [hm] at hfiler
  | none =>
    rw [hfiler]
    exact ⟨rfl, h⟩
  | some v =>
    rw [hfiler]
    refine ⟨rfl, fun k => ?_, fun k w hw => ?_⟩
    · show (s.filer.erase name).get k = Function.update m name none k
      rw [AssocTable.get_erase, Function.update_apply, h.filer k]
    · replace hw : (fillCache true s.cache name none .none).get k = some w := hw
      show Function.update m name none k = some w
      rw [get_fillCache_none] at hw
      split at hw
      · cases hw
      · next hk =>
        rw [Function.update_of_ne hk]
        exact h.cache k w hw

theorem Represents.evict : Represents (storeOp s .evict).2 m where
  filer := h.filer
  cache _ _ hw := by cases hw

theorem Represents.update_iff {name : XattrName} {v : XattrValue} {flags : SetFlags}
    (hcreate : flags.create = true → m name = none) (alloc : Bool) (noValue : Option XattrValue) :
    Represents ⟨fillCache alloc s.cache name (some v) flags,
        filerSet s.filer name (requestValue v) noValue⟩ (Function.update m name (some v)) ↔
      (v.length ≤ Net.maxTlv ∨ noValue = some v) ∧
      (alloc = true ∨ s.cache.get name = none ∨ s.cache.get name = some v) := by
  -- The cache has nothing of a new name, so `XATTR_CREATE` does not keep the value out of it.
  have hnew : flags.create = true → s.cache.get name = none := by
    intro hflag
    cases hcache : s.cache.get name with
    | none => rfl
    | some w => cases (hcreate hflag).symm.trans (h.cache name w hcache)
  constructor
  · intro h'
    have hfiler := h'.filer name
    have hcache := h'.cache name
    rw [get_filerSet, if_pos rfl, Function.update_self] at hfiler
    refine ⟨(requestValue_or_iff v noValue).mp hfiler, ?_⟩
    rw [get_fillCache_self, Function.update_self] at hcache
    cases alloc with
    | true => exact .inl rfl
    | false =>
      cases hw : s.cache.get name with
      | none => exact .inr (.inl rfl)
      | some w =>
        rw [hcache w hw]
        exact .inr (.inr rfl)
  · rintro ⟨hsent, hmem⟩
    refine ⟨fun k => ?_, fun k w hw => ?_⟩
    · rw [get_filerSet, Function.update_apply, h.filer k, (requestValue_or_iff v noValue).mpr hsent]
    · replace hw : (fillCache alloc s.cache name (some v) flags).get k = some w := hw
      by_cases hk : k = name
      · subst hk
        rw [Function.update_self]
        rw [get_fillCache_self] at hw
        split at hw
        · exact hw
        · next hkept =>
          obtain halloc | hnone | hsame := hmem
          · exfalso
            apply hkept
            refine ⟨halloc, hnew, fun _ hnone => ?_⟩
            cases hnone.symm.trans hw
          · cases hnone.symm.trans hw
          · exact hsame.symm.trans hw
      · rw [get_fillCache_of_ne alloc s.cache name k flags _ hk] at hw
        rw [Function.update_of_ne hk]
        exact h.cache k w hw

theorem Represents.set_iff (name : XattrName) (v : XattrValue) (flags : SetFlags) (alloc : Bool)
    (noValue : Option XattrValue) :
    ((storeOp s (.set name v flags alloc noValue)).1 =
          (specOp m (.set name v flags alloc noValue)).1 ∧
        Represents (storeOp s (.set name v flags alloc noValue)).2
          (specOp m (.set name v flags alloc noValue)).2) ↔
      (v.length ≤ xattrSizeMax →
        (flags.create = true → m name = none) ∧ (flags.replace = true → m name ≠ none) ∧
        (v.length ≤ Net.maxTlv ∨ noValue = some v) ∧
        (alloc = true ∨ s.cache.get name = none ∨ s.cache.get name = some v)) := by
  simp only [storeOp, specOp, xattrHandlerSet]
  by_cases hlong : xattrSizeMax < v.length
  · simp only [hlong, if_true]
    exact iff_of_true ⟨trivial, h⟩ fun hle => absurd hlong (Nat.not_lt.mpr hle)
  · simp only [hlong, Nat.le_of_not_lt hlong, forall_const]
    cases hm : m name with
    | some w =>
      cases hcreate : flags.create with
      | true => simp
      | false =>
        simp only [if_false, false_implies, true_and, ne_eq, reduceCtorEq, not_false_iff,
          implies_true]
        exact h.update_iff (fun hflag => by rw [hcreate] at hflag; cases hflag) alloc noValue
    | none =>
      cases hreplace : flags.replace with
      | true => simp
      | false =>
        simp only [Bool.false_eq_true, if_false, false_implies, true_and, implies_true]
        exact h.update_iff (fun _ => hm) alloc noValue

end Step

variable {s s' : XattrState}

theorem Agrees.step (h : Agrees s) {e : XattrOp} (hs : xattrExec s e = some s') :
    Agrees s' ↔ XattrOk s e := by
  obtain rfl := Option.some.inj hs
  have hsplit : Agrees ⟨(storeOp s.store e).2, (specOp s.abstract e).2,
        ((storeOp s.store e).1, (specOp s.abstract e).1) :: s.results⟩ ↔
      (storeOp s.store e).1 = (specOp s.abstract e).1 ∧
        Represents (storeOp s.store e).2 (specOp s.abstract e).2 := by
    constructor
    · intro h'
      exact ⟨h'.results _ List.mem_cons_self, h'.represents⟩
    · rintro ⟨hresult, hrep⟩
      exact ⟨List.forall_mem_cons.mpr ⟨hresult, h.results⟩, hrep⟩
  rw [hsplit]
  cases e with
  | set name v flags alloc noValue => exact h.represents.set_iff name v flags alloc noValue
  | get name size alloc => exact h.represents.get_iff name size alloc
  | remove name => exact iff_of_true (h.represents.remove name) trivial
  | evict => exact iff_of_true ⟨rfl, h.represents.evict⟩ trivial

/-- In every run that meets the condition all operations have returned what they do on an abstract
map, which the Filer has. The condition is exact. -/
theorem agrees_of_xattrOk (s : XattrState)
    (h : Runs.Reach (fun s e s' => xattrExec s e = some s') XattrOk XattrInit s) :
    Agrees s ∧ ∀ e s', xattrExec s e = some s' → (Agrees s' ↔ XattrOk s e) := by
  have hagrees : Agrees s := by
    apply h.invariant (fun _ hinit => hinit.agrees)
    intro s e s' hagrees hok hs
    exact (hagrees.step hs).mpr hok
  exact ⟨hagrees, fun e s' hs => hagrees.step hs⟩

def noXattrs : XattrState := ⟨⟨.empty, .empty⟩, fun _ => none, []⟩

theorem noXattrs_init : XattrInit noXattrs := ⟨rfl, fun _ => rfl, rfl⟩

/-- A name is created, replaced, read after the inode has left the memory, and removed. -/
def createReplaceGet : List XattrOp :=
  [.set userA [1, 2] ⟨true, false⟩ true none, .set userA [3] ⟨false, true⟩ true none, .evict,
    .get userA 0 true, .get userA 1 true, .remove userA]

theorem agrees_createReplaceGet :
    ∃ s, createReplaceGet.foldlM xattrExec noXattrs = some s ∧ s.results.length = 6 ∧ Agrees s := by
  have hok : Runs.OkAlong xattrExec XattrOk noXattrs createReplaceGet := by decide
  exact ⟨_, rfl, rfl, (agrees_of_xattrOk _ (.of_run (.start noXattrs_init) hok rfl)).1⟩

/-- `XATTR_CREATE` of a name that exists succeeds and changes the value. -/
theorem not_agrees_runs :
    ¬ ∀ s, Runs.Reach (fun s e s' => xattrExec s e = some s') (fun _ _ => True) XattrInit s →
      Agrees s := by
  intro h
  obtain ⟨s, hrun, hresults⟩ : ∃ s,
      [XattrOp.set userA [1] .none true none, .set userA [2] ⟨true, false⟩ true none].foldlM
          xattrExec noXattrs = some s ∧
        s.results.head? = some (some (.done (.ok ())), some (.done (.error .eexist))) :=
    ⟨_, rfl, rfl⟩
  have hagrees := h s (.run noXattrs_init hrun)
  have hresult := hagrees.results _ (List.mem_of_mem_head? hresults)
  cases hresult

end PowerFS.Xattr
