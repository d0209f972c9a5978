import PowerFS.Net.Tlv
import Mathlib.Data.List.Induction
import Mathlib.Data.List.Perm.Basic

namespace PowerFS.Net

/-! The shard map of `powerfs_net_shard.c`. -/

/-- `struct shard_map_entry`. -/
structure ShardRange where
  rangeStart : UInt64
  rangeEnd : UInt64
  shardId : UInt64
  deriving DecidableEq

/-- The range at `k` starts at `inode` or before. -/
def startsBefore (ranges : List ShardRange) (inode : UInt64) (k : Nat) : Bool :=
  ranges[k]?.any fun r => r.rangeStart ≤ inode

/-- The loop of `shard_map_route`, with `left` ranges from `lo` on still to be searched. `idx` is
the last range found that starts at `inode` or before. -/
def searchRanges (ranges : List ShardRange) (inode : UInt64) : Nat → Nat → Nat → Nat → Nat
  | 0, _, _, idx => idx
  | fuel + 1, lo, left, idx =>
    if left = 0 then idx
    else
      let mid := lo + (left - 1) / 2
      if startsBefore ranges inode mid then
        searchRanges ranges inode fuel (mid + 1) (left - 1 - (left - 1) / 2) mid
      else searchRanges ranges inode fuel lo ((left - 1) / 2) idx

/-- `shard_map_route`. A round leaves out at least one range, so that a round per range is
enough. -/
def shardMapRoute (ranges : List ShardRange) (inode : UInt64) : UInt64 :=
  match ranges[searchRanges ranges inode ranges.length 0 ranges.length 0]? with
  | some r => r.shardId
  | none => 0

section Search

variable {ranges : List ShardRange} {inode : UInt64}

theorem startsBefore_of_le (hsorted : ranges.Pairwise fun a b => a.rangeStart ≤ b.rangeStart)
    {j k : Nat} (hjk : j ≤ k) (hk : startsBefore ranges inode k = true) :
    startsBefore ranges inode j = true := by
  obtain rfl | hlt := Nat.eq_or_lt_of_le hjk
  · exact hk
  · obtain ⟨r, hr, hle⟩ := (Option.any_eq_true _ _).mp hk
    obtain ⟨hklt, rfl⟩ := List.getElem?_eq_some_iff.mp hr
    have hrange := List.pairwise_iff_getElem.mp hsorted j k (by omega) hklt hlt
    apply (Option.any_eq_true _ _).mpr
    refine ⟨_, List.getElem?_eq_getElem (by omega), ?_⟩
    exact decide_eq_true (UInt64.le_trans hrange (of_decide_eq_true hle))

/-- `k` is the last range that starts at `inode` or before, or 0 if there is none. -/
def IsLastBefore (ranges : List ShardRange) (inode : UInt64) (k : Nat) : Prop :=
  (k = 0 ∨ startsBefore ranges inode k = true) ∧
    ∀ j, k < j → startsBefore ranges inode j = false

theorem isLastBefore_searchRanges
    (hsorted : ranges.Pairwise fun a b => a.rangeStart ≤ b.rangeStart)
    (fuel lo left idx : Nat) (hfuel : left ≤ fuel)
    (hidx : lo = 0 ∧ idx = 0 ∨ lo = idx + 1 ∧ startsBefore ranges inode idx = true)
    (hright : ∀ j, lo + left ≤ j → startsBefore ranges inode j = false) :
    IsLastBefore ranges inode (searchRanges ranges inode fuel lo left idx) := by
  -- `idx` is just before the window, and the ranges behind it start after `inode`.
  induction fuel generalizing lo left idx with
  | zero =>
    refine ⟨?_, fun j hj => hright j (by simp only [searchRanges] at hj; omega)⟩
    exact hidx.imp And.right And.right
  | succ fuel ih =>
    simp only [searchRanges]
    split
    · next hleft =>
      refine ⟨?_, fun j hj => hright j (by omega)⟩
      exact hidx.imp And.right And.right
    · split
      · next hmid =>
        apply ih _ _ _ (by omega) (.inr ⟨rfl, hmid⟩)
        intro j hj
        exact hright j (by omega)
      · next hmid =>
        apply ih _ _ _ (by omega) hidx
        intro j hj
        by_contra hbefore
        rw [Bool.not_eq_false] at hbefore
        exact hmid (startsBefore_of_le hsorted hj hbefore)

/-- Over sorted ranges, an inode goes to the shard of the last range that starts at it or before,
and to that of the first range if it is before all of them. -/
theorem shardMapRoute_eq (hsorted : ranges.Pairwise fun a b => a.rangeStart ≤ b.rangeStart)
    (hne : ranges ≠ []) :
    ∃ k r, IsLastBefore ranges inode k ∧ ranges[k]? = some r ∧
      shardMapRoute ranges inode = r.shardId := by
  generalize hk : searchRanges ranges inode ranges.length 0 ranges.length 0 = k
  have hlast : IsLastBefore ranges inode k := by
    rw [← hk]
    apply isLastBefore_searchRanges hsorted _ _ _ _ (Nat.le_refl _) (.inl ⟨rfl, rfl⟩)
    intro j hj
    rw [startsBefore, List.getElem?_eq_none (by omega)]
    rfl
  have hlt : k < ranges.length := by
    obtain hzero | hbefore := hlast.1
    · rw [hzero]
      exact List.length_pos_of_ne_nil hne
    · obtain ⟨r, hr, -⟩ := (Option.any_eq_true _ _).mp hbefore
      exact (List.getElem?_eq_some_iff.mp hr).1
  refine ⟨k, ranges[k], hlast, List.getElem?_eq_getElem hlt, ?_⟩
  simp only [shardMapRoute, hk, List.getElem?_eq_getElem hlt]

end Search

section Entries

def blobEntries (blob : List UInt8) : List ShardRange :=
  (List.range (blob.length / 25)).map fun i =>
    { rangeStart := le64 (blob.drop (25 * i))
      rangeEnd := le64 (blob.drop (25 * i + 8))
      shardId := le64 (blob.drop (25 * i + 16)) }

/-- The inner loop of the insertion sort, for `j = n - 1`: larger entries move up by one, and
`tmp` goes behind the first that is not larger. -/
def shiftEntries (tmp : ShardRange) : Nat → List ShardRange → List ShardRange
  | 0, entries => entries.set 0 tmp
  | j + 1, entries =>
    match entries[j]? with
    | none => entries
    | some e =>
      if tmp.rangeStart < e.rangeStart then shiftEntries tmp j (entries.set (j + 1) e)
      else entries.set (j + 1) tmp

def sortRound (entries : List ShardRange) (i : Nat) : List ShardRange :=
  match entries[i]? with
  | none => entries
  | some tmp => shiftEntries tmp i entries

/-- `shard_map_from_entries`: the entries of the new map. -/
def shardMapFromEntries (blob : List UInt8) : Except Errno (List ShardRange) :=
  let count := blob.length / 25
  if count = 0 ∨ 64 < count then .error .einval
  else .ok ((List.range' 1 (count - 1)).foldl sortRound (blobEntries blob))

def SortedByStart (entries : List ShardRange) : Prop :=
  entries.Pairwise fun a b => a.rangeStart ≤ b.rangeStart

def ShardRange.Contains (r : ShardRange) (inode : UInt64) : Prop :=
  r.rangeStart ≤ inode ∧ inode < r.rangeEnd

theorem shiftEntries_spec (tmp x : ShardRange) (p rest : List ShardRange) (hp : SortedByStart p) :
    ∃ q, shiftEntries tmp p.length (p ++ x :: rest) = q ++ rest ∧ q.Perm (tmp :: p) ∧
      SortedByStart q := by
  -- from the right: the place behind `p` is free
  induction p using List.reverseRecOn generalizing x rest with
  | nil => exact ⟨[tmp], rfl, .refl _, List.pairwise_singleton _ _⟩
  | append_singleton p e ih =>
    obtain ⟨hsorted, -, hlast⟩ := List.pairwise_append.mp hp
    have hle : ∀ a ∈ p, a.rangeStart ≤ e.rangeStart := fun a ha => hlast a ha e (by simp)
    have hget : (p ++ [e] ++ x :: rest)[p.length]? = some e := by simp
    have hset : ∀ y, (p ++ [e] ++ x :: rest).set (p.length + 1) y = p ++ e :: y :: rest := by
      intro y
      simp
    rw [List.length_append, List.length_singleton, shiftEntries, hget]
    simp only [hset]
    split
    · next hlt =>
      obtain ⟨q, heq, hperm, hq⟩ := ih e (e :: rest) hsorted
      refine ⟨q ++ [e], by rw [heq]; simp, ?_, List.pairwise_append.mpr ⟨hq, by simp, ?_⟩⟩
      · exact (hperm.append_right [e]).trans (by simp)
      · intro a ha b hb
        rw [List.mem_singleton.mp hb]
        obtain rfl | ha := List.mem_cons.mp (hperm.mem_iff.mp ha)
        · exact UInt64.le_of_lt hlt
        · exact hle a ha
    · next hge =>
      have htmp : e.rangeStart ≤ tmp.rangeStart := UInt64.not_lt.mp hge
      refine ⟨p ++ [e] ++ [tmp], by simp, List.perm_append_singleton _ _,
        List.pairwise_append.mpr ⟨hp, by simp, ?_⟩⟩
      intro a ha b hb
      rw [List.mem_singleton.mp hb]
      obtain ha | ha := List.mem_append.mp ha
      · exact UInt64.le_trans (hle a ha) htmp
      · exact List.mem_singleton.mp ha ▸ htmp

theorem sortRounds_spec (rest p : List ShardRange) (hp : SortedByStart p) :
    SortedByStart ((List.range' p.length rest.length).foldl sortRound (p ++ rest)) ∧
      ((List.range' p.length rest.length).foldl sortRound (p ++ rest)).Perm (p ++ rest) := by
  induction rest generalizing p with
  | nil => simpa using hp
  | cons tmp rest ih =>
    obtain ⟨q, heq, hperm, hq⟩ := shiftEntries_spec tmp tmp p rest hp
    have hround : sortRound (p ++ tmp :: rest) p.length = q ++ rest := by
      rw [sortRound, show (p ++ tmp :: rest)[p.length]? = some tmp by simp]
      exact heq
    have hlen : p.length + 1 = q.length := by rw [hperm.length_eq, List.length_cons]
    rw [List.length_cons, List.range'_succ, List.foldl_cons, hround, hlen]
    obtain ⟨hsorted, hrest⟩ := ih q hq
    refine ⟨hsorted, hrest.trans ((hperm.append_right rest).trans ?_)⟩
    exact List.perm_middle.symm

/-- The stored map is a sorted permutation of the entries; where no range is empty and no inode in
two of them, every inode in a range goes to the shard of the range. -/
theorem shardMapFromEntries_spec (blob : List UInt8) (hone : 1 ≤ blob.length / 25)
    (hmax : blob.length / 25 ≤ 64) :
    ∃ ranges, shardMapFromEntries blob = .ok ranges ∧ ranges.Perm (blobEntries blob) ∧
      SortedByStart ranges ∧
      ((∀ r ∈ blobEntries blob, r.rangeStart < r.rangeEnd) →
        (blobEntries blob).Pairwise (fun a b => ∀ inode, ¬ (a.Contains inode ∧ b.Contains inode)) →
        ∀ inode, ∀ r ∈ blobEntries blob, r.Contains inode →
          shardMapRoute ranges inode = r.shardId) := by
  have hlen : (blobEntries blob).length = blob.length / 25 := by
    rw [blobEntries, List.length_map, List.length_range]
  obtain ⟨first, rest, hblob⟩ := List.exists_cons_of_length_pos (hlen ▸ hone)
  obtain ⟨hsorted, hperm⟩ := sortRounds_spec rest [first] (List.pairwise_singleton _ _)
  rw [hblob, List.length_cons] at hlen
  rw [List.singleton_append, ← hblob, List.length_singleton] at hsorted hperm
  refine ⟨_, by rw [shardMapFromEntries, if_neg (by omega), ← hlen, Nat.add_sub_cancel], hperm,
    hsorted, fun hnonempty hdisjoint inode r hr hin => ?_⟩
  generalize (List.range' 1 rest.length).foldl sortRound (blobEntries blob) = ranges at hsorted hperm ⊢
  have hmem := hperm.mem_iff.mpr hr
  obtain ⟨k, last, ⟨hk, hafter⟩, hlast, hroute⟩ :=
    @shardMapRoute_eq ranges inode hsorted (List.ne_nil_of_mem hmem)
  obtain ⟨j, hj⟩ := List.mem_iff_getElem?.mp hmem
  have hbefore : startsBefore ranges inode j = true := by simp [startsBefore, hj, hin.1]
  have hjk : j ≤ k := by
    by_contra hgt
    rw [hafter j (by omega)] at hbefore
    cases hbefore
  obtain rfl | hlt := Nat.eq_or_lt_of_le hjk
  · rw [hroute, Option.some.inj (hlast.symm.trans hj)]
  · -- the start of a later range would lie in both
    have hstart : last.rangeStart ≤ inode := by
      simpa [startsBefore, hlast] using hk.resolve_left (by omega)
    obtain ⟨hjlt, rfl⟩ := List.getElem?_eq_some_iff.mp hj
    obtain ⟨hklt, rfl⟩ := List.getElem?_eq_some_iff.mp hlast
    have hpairs := hperm.symm.pairwise hdisjoint fun h inode => by
      rw [and_comm]
      exact h inode
    have hle := List.pairwise_iff_getElem.mp hsorted j k hjlt hklt hlt
    refine absurd ⟨⟨hle, UInt64.lt_of_le_of_lt hstart hin.2⟩, UInt64.le_refl _, ?_⟩
      (List.pairwise_iff_getElem.mp hpairs j k hjlt hklt hlt _)
    exact hnonempty _ (hperm.mem_iff.mp (List.getElem_mem hklt))

/-- An entry of small numbers. -/
def entryBytes (start stop shard : UInt8) : List UInt8 :=
  [start, stop, shard].flatMap (fun b => b :: List.replicate 7 0) ++ [0]

theorem shardMapFromEntries_twoRanges :
    ∃ ranges, shardMapFromEntries (entryBytes 100 200 2 ++ entryBytes 0 100 1) = .ok ranges ∧
      shardMapRoute ranges 150 = 2 := by
  obtain ⟨ranges, hok, -, -, hroute⟩ :=
    shardMapFromEntries_spec (entryBytes 100 200 2 ++ entryBytes 0 100 1) (by decide) (by decide)
  have hblob : blobEntries (entryBytes 100 200 2 ++ entryBytes 0 100 1) =
    [⟨100, 200, 2⟩, ⟨0, 100, 1⟩] := by decide +kernel
  rw [hblob] at hroute
  refine ⟨ranges, hok, hroute (by decide) ?_ 150 ⟨100, 200, 2⟩ (by simp) ⟨by decide, by decide⟩⟩
  simp only [List.pairwise_pair]
  rintro inode ⟨⟨hlo, -⟩, -, hhi⟩
  exact absurd (UInt64.lt_of_le_of_lt hlo hhi) (by decide)

/-- An empty range is disjoint from the range it starts in, and takes its inodes from there on. -/
theorem not_shardMapRoute_disjoint :
    ¬ ∀ blob, 1 ≤ blob.length / 25 → blob.length / 25 ≤ 64 →
      ∃ ranges, shardMapFromEntries blob = .ok ranges ∧
        ((blobEntries blob).Pairwise
          (fun a b => ∀ inode, ¬ (a.Contains inode ∧ b.Contains inode)) →
        ∀ inode, ∀ r ∈ blobEntries blob, r.Contains inode →
          shardMapRoute ranges inode = r.shardId) := by
  intro hall
  obtain ⟨ranges, hok, hroute⟩ :=
    hall (entryBytes 0 100 1 ++ entryBytes 50 50 2) (by decide) (by decide)
  have hblob : blobEntries (entryBytes 0 100 1 ++ entryBytes 50 50 2) =
    [⟨0, 100, 1⟩, ⟨50, 50, 2⟩] := by decide +kernel
  have hranges : shardMapFromEntries (entryBytes 0 100 1 ++ entryBytes 50 50 2) =
    .ok [⟨0, 100, 1⟩, ⟨50, 50, 2⟩] := by decide +kernel
  obtain rfl := Except.ok.inj (hranges.symm.trans hok)
  rw [hblob] at hroute
  have hwrong := hroute ?_ 60 ⟨0, 100, 1⟩ (by simp) ⟨by decide, by decide⟩
  · revert hwrong
    decide +kernel
  · simp only [List.pairwise_pair]
    rintro inode ⟨-, hlo, hhi⟩
    exact absurd (UInt64.lt_of_le_of_lt hlo hhi) (by decide)

end Entries

section DefaultMap

/-- `n` ranges of a million inodes each. -/
def equalRanges (n : Nat) : List ShardRange :=
  (List.range n).map fun i =>
    ⟨UInt64.ofNat (i * 1000000), UInt64.ofNat (i * 1000000) + 1000000, UInt64.ofNat i⟩

/-- `shard_map_from_shard_count`. -/
def shardMapFromShardCount (count : UInt64) : List ShardRange :=
  equalRanges (if count = 0 ∨ 64 < count then 1 else count.toNat)

/-- `powerfs_calc_shard_id`. -/
def calcShardId (count inode : UInt64) : UInt64 :=
  if count ≤ 1 then 0 else inode / 1000000 % count

variable {n : Nat} {inode : UInt64}

theorem startsBefore_equalRanges (hn : n ≤ 64) (k : Nat) :
    startsBefore (equalRanges n) inode k = true ↔ k < n ∧ k * 1000000 ≤ inode.toNat := by
  by_cases hk : k < n
  · -- Through `r`: the kernel must not compute with the product.
    obtain ⟨r, hr, hstart⟩ : ∃ r, (equalRanges n)[k]? = some r ∧
        r.rangeStart.toNat = k * 1000000 := by
      refine ⟨_, by rw [equalRanges, List.getElem?_map, List.getElem?_range hk, Option.map_some], ?_⟩
      exact UInt64.toNat_ofNat_of_lt' (by rw [UInt64.size]; omega)
    simp [startsBefore, hr, UInt64.le_iff_toNat_le, hstart, hk]
  · simp [startsBefore, equalRanges, hk]

/-- The route in the default map: what lies behind the last range belongs to the last shard. -/
theorem shardMapRoute_equalRanges (hpos : 0 < n) (hn : n ≤ 64) :
    (shardMapRoute (equalRanges n) inode).toNat = min (inode.toNat / 1000000) (n - 1) := by
  have hsorted : (equalRanges n).Pairwise fun a b => a.rangeStart ≤ b.rangeStart := by
    refine List.pairwise_map.mpr (List.pairwise_lt_range.imp_of_mem fun {i j} hi hj hij => ?_)
    have hj := List.mem_range.mp hj
    rw [UInt64.le_iff_toNat_le, UInt64.toNat_ofNat_of_lt' (by rw [UInt64.size]; omega),
      UInt64.toNat_ofNat_of_lt' (by rw [UInt64.size]; omega)]
    omega
  have hne : equalRanges n ≠ [] := by simp [equalRanges]; omega
  obtain ⟨k, r, ⟨hbefore, hlast⟩, hr, hroute⟩ := @shardMapRoute_eq (equalRanges n) inode hsorted hne
  have hk : k < n := by
    simpa [equalRanges] using (List.getElem?_eq_some_iff.mp hr).1
  have hshard : r.shardId = UInt64.ofNat k := by
    simp [equalRanges, hk] at hr
    rw [← hr]
  have hnext := hlast (k + 1) (Nat.lt_succ_self k)
  rw [Bool.eq_false_iff, ne_eq, startsBefore_equalRanges hn] at hnext
  rw [startsBefore_equalRanges hn] at hbefore
  rw [hroute, hshard, UInt64.toNat_ofNat_of_lt' (by rw [UInt64.size]; omega)]
  omega

/-- Where the two formulas agree. -/
def RoutesAgree (count inode : UInt64) : Prop :=
  count ≤ 1 ∨ if count ≤ 64 then
    inode / 1000000 < count ∨ inode / 1000000 % count = count - 1
  else inode / 1000000 % count = 0

theorem shardMapRoute_eq_calcShardId_iff (count inode : UInt64) :
    shardMapRoute (shardMapFromShardCount count) inode = calcShardId count inode ↔
      RoutesAgree count inode := by
  generalize hn : (if count = 0 ∨ 64 < count then 1 else count.toNat) = n
  have hroute := @shardMapRoute_equalRanges n inode
  have hpred : 1 ≤ count.toNat → (count - 1).toNat = count.toNat - 1 := fun h =>
    UInt64.toNat_sub_of_le _ _ (UInt64.le_iff_toNat_le.mpr h)
  simp only [shardMapFromShardCount, hn, calcShardId, RoutesAgree]
  simp only [← UInt64.toNat_inj, UInt64.lt_iff_toNat_lt, UInt64.le_iff_toNat_le,
    apply_ite UInt64.toNat, UInt64.toNat_mod, UInt64.toNat_div, UInt64.reduceToNat] at hn ⊢
  generalize inode.toNat / 1000000 = q at hroute ⊢
  generalize count.toNat = c at hn hpred ⊢
  have hmod : q < c → q % c = q := Nat.mod_eq_of_lt
  generalize q % c = m at hmod ⊢
  split_ifs at hn ⊢ <;> omega

theorem not_shardMapRoute_eq_calcShardId : ¬ ∀ count inode,
    shardMapRoute (shardMapFromShardCount count) inode = calcShardId count inode := by
  intro h
  exact absurd (h 2 2000000) (by decide +kernel)

end DefaultMap

end PowerFS.Net
