import PowerFS.File.SizeChunks
import PowerFS.Lib.Grouping
import Mathlib.Data.List.Nodup

namespace PowerFS.File

open Layout

/-! The fsync barrier: what `powerfs_sync_inode_size_chunks` has flushed when it returns 0. -/

variable {env : SyncEnv} {pi : Inode}

def ChunkMap.live (cm : ChunkMap) : Bool := cm.volumeId ≠ 0 && cm.needleId ≠ 0

def ChunkMap.place (cm : ChunkMap) : UInt64 × UInt64 := (cm.volumeId, cm.needleId)

def MetaRpc.needles : MetaRpc → List (UInt64 × UInt64)
  | .flushNeedles volume keys _ => keys.map fun key => (volume, key)
  | .updateSizeChunks .. => []

def flushRequest (g : UInt64 × List ChunkMap) : MetaRpc :=
  .flushNeedles g.1 (g.2.map ChunkMap.needleId) true

theorem flushKeys_eq {vid : UInt64} (h : vid ≠ 0) (entries : List ChunkMap) :
    flushKeys vid entries =
      (Grouping.ofKey ChunkMap.volumeId ChunkMap.live vid entries).map ChunkMap.needleId := by
  rw [flushKeys]
  congr 2
  funext cm
  by_cases hvid : cm.volumeId = vid
  · simp [hvid, ChunkMap.live, h]
  · simp [hvid]

theorem flushLoop_groups {before entries : List ChunkMap} {sent : Nat}
    (h : (flushLoop env before entries sent).1 = none) :
    (flushLoop env before entries sent).2 =
      (Grouping.groups ChunkMap.volumeId ChunkMap.live before entries).map flushRequest := by
  induction entries generalizing before sent with
  | nil => rfl
  | cons cm rest ih =>
    rw [flushLoop] at h ⊢
    rw [Grouping.groups]
    by_cases hhole : (cm.volumeId = 0 || cm.needleId = 0) = true
    · have hlive : ChunkMap.live cm = false := by
        simpa [ChunkMap.live, Decidable.or_iff_not_imp_left] using hhole
      simp only [hhole, if_true] at h ⊢
      rw [ih h]
      simp [hlive]
    · have hlive : ChunkMap.live cm = true := by
        simpa [ChunkMap.live] using hhole
      have hvid : cm.volumeId ≠ 0 := by
        simp only [ChunkMap.live, Bool.and_eq_true, decide_eq_true_eq] at hlive
        exact hlive.1
      simp only [hhole, Bool.false_eq_true, if_false] at h ⊢
      by_cases hseen : (before.any fun b => b.volumeId = cm.volumeId) = true
      · simp only [hseen, if_true] at h ⊢
        rw [ih h]
        simp
      · simp only [hseen, Bool.false_eq_true, if_false] at h ⊢
        cases hrpc : env.flush sent with rw [hrpc] at h
        | some err =>
          cases h
        | none =>
          simp only [hlive, Bool.not_false, Bool.and_self, if_true, List.map_cons, ih h,
            flushRequest, flushKeys_eq hvid]

theorem flushLoop_calm (before entries : List ChunkMap) (sent : Nat) :
    (flushLoop .calm before entries sent).1 = none := by
  induction entries generalizing before sent with
  | nil => rfl
  | cons cm rest ih =>
    rw [flushLoop]
    split
    · exact ih _ _
    · split
      · exact ih _ _
      · exact ih _ _

theorem count_needles (entries : List ChunkMap) (p : UInt64 × UInt64) :
    (((Grouping.groups ChunkMap.volumeId ChunkMap.live [] entries).map flushRequest).flatMap
        MetaRpc.needles).count p =
      if p.1 ≠ 0 ∧ p.2 ≠ 0 then
        match entries.find? (fun cm => cm.volumeId = p.1) with
        | some cm =>
          if ChunkMap.live cm then entries.countP (fun cm => ChunkMap.place cm = p) else 0
        | none => 0
      else 0 := by
  have hflat : ((Grouping.groups ChunkMap.volumeId ChunkMap.live [] entries).map
      flushRequest).flatMap MetaRpc.needles =
      ((Grouping.groups ChunkMap.volumeId ChunkMap.live [] entries).flatMap Prod.snd).map
        ChunkMap.place := by
    rw [List.flatMap_map, List.map_flatMap]
    apply List.flatMap_congr
    intro g hg
    simp only [flushRequest, MetaRpc.needles, List.map_map]
    apply List.map_congr_left
    intro cm hcm
    simp only [Function.comp, ChunkMap.place, (Grouping.of_mem_groups hg hcm).1]
  rw [hflat, List.count, List.countP_map]
  split
  · next hp =>
    rw [List.countP_congr (q := fun cm => decide (ChunkMap.place cm = p))
      (fun cm _ => by simp [beq_iff_eq])]
    rw [Grouping.countP_groups (k := p.1)]
    · cases entries.find? (fun cm => decide (cm.volumeId = p.1)) <;> rfl
    · intro cm hcm
      simp only [decide_eq_true_eq] at hcm
      subst hcm
      simpa [ChunkMap.live, ChunkMap.place] using hp
  · next hp =>
    rw [List.countP_eq_zero]
    intro cm hcm heq
    obtain ⟨g, hg, hmem⟩ := List.mem_flatMap.mp hcm
    have hlive := (Grouping.of_mem_groups hg hmem).2
    simp only [Function.comp, beq_iff_eq] at heq
    subst heq
    apply hp
    simpa [ChunkMap.live, ChunkMap.place] using hlive

theorem countP_range_eq_one_iff (q : Nat → Bool) (n : Nat) :
    (List.range n).countP q = 1 ↔ ∃! j, j < n ∧ q j = true := by
  have hmem : ∀ j, j ∈ (List.range n).filter q ↔ j < n ∧ q j = true := by
    intro j
    rw [List.mem_filter, List.mem_range]
  rw [List.countP_eq_length_filter, List.length_eq_one_iff]
  constructor
  · rintro ⟨a, ha⟩
    rw [ha] at hmem
    refine ⟨a, (hmem a).mp (List.mem_singleton_self a), fun j hj => ?_⟩
    exact List.mem_singleton.mp ((hmem j).mpr hj)
  · rintro ⟨a, ha, huniq⟩
    refine ⟨a, List.perm_singleton.mp ?_⟩
    apply (List.perm_ext_iff_of_nodup (List.nodup_range.filter q) (List.nodup_singleton a)).mpr
    intro j
    rw [hmem, List.mem_singleton]
    constructor
    · exact huniq j
    · rintro rfl
      exact ha

variable {size : Nat} {p : UInt64 × UInt64}

/-- The first entry of the volume of `p` has a needle. -/
def FirstLive (pi : Inode) (size : Nat) (p : UInt64 × UInt64) : Prop :=
  ∀ j < syncChunkCount pi size, (syncPlace pi j).1 = p.1 →
    (∀ k < j, (syncPlace pi k).1 ≠ p.1) → (syncPlace pi j).2 ≠ 0

theorem firstLive_iff :
    FirstLive pi size p ↔ ∀ j, ((List.range (syncChunkCount pi size)).find? fun j =>
      (syncPlace pi j).1 = p.1) = some j → (syncPlace pi j).2 ≠ 0 := by
  simp only [List.find?_range_eq_some, decide_eq_true_eq, List.mem_range, Bool.not_eq_true',
    decide_eq_false_iff_not]
  constructor
  · rintro h j ⟨heq, hj, hbefore⟩
    exact h j hj heq hbefore
  · intro h j hj heq hbefore
    exact h j ⟨heq, hj, hbefore⟩

/-- The requests name `p` once if and only if `p` is a needle, exactly one entry is `p`, and the
first entry of its volume is not skipped. -/
theorem count_needles_eq_one_iff :
    (((Grouping.groups ChunkMap.volumeId ChunkMap.live [] (syncChunks pi size)).map
        flushRequest).flatMap MetaRpc.needles).count p = 1 ↔
      p.1 ≠ 0 ∧ p.2 ≠ 0 ∧ FirstLive pi size p ∧
        ∃! j, j < syncChunkCount pi size ∧ syncPlace pi j = p := by
  have hcount : (syncChunks pi size).countP (fun cm => ChunkMap.place cm = p) = 1 ↔
      ∃! j, j < syncChunkCount pi size ∧ syncPlace pi j = p := by
    rw [syncChunks, List.countP_map, countP_range_eq_one_iff]
    simp [ChunkMap.place, syncChunk]
  have hfind : (syncChunks pi size).find? (fun cm => cm.volumeId = p.1) =
      ((List.range (syncChunkCount pi size)).find? fun j => (syncPlace pi j).1 = p.1).map
        (syncChunk pi size (syncChunkCount pi size)) := by
    rw [syncChunks, List.find?_map]
    rfl
  rw [count_needles, hfind, firstLive_iff, ← hcount]
  by_cases hp : p.1 ≠ 0 ∧ p.2 ≠ 0
  · cases hfirst : (List.range (syncChunkCount pi size)).find? fun j =>
        (syncPlace pi j).1 = p.1 with
    | none =>
      -- no entry has the volume, so none is `p`
      have hzero : (syncChunks pi size).countP (fun cm => ChunkMap.place cm = p) = 0 := by
        rw [hfirst, Option.map_none, List.find?_eq_none] at hfind
        refine List.countP_eq_zero.mpr fun cm hcm heq => hfind cm hcm ?_
        rw [← of_decide_eq_true heq]
        exact decide_eq_true rfl
      simp [hzero]
    | some j =>
      have hvol : (syncPlace pi j).1 = p.1 := by simpa using List.find?_some hfirst
      have hlive : ChunkMap.live (syncChunk pi size (syncChunkCount pi size) j) =
          decide ((syncPlace pi j).2 ≠ 0) := by
        simp [ChunkMap.live, syncChunk, hvol, hp.1]
      simp only [Option.map_some, hlive]
      by_cases hneedle : (syncPlace pi j).2 ≠ 0
      · simp [hneedle, hp]
      · simp [hneedle]
  · rw [if_neg hp]
    constructor
    · intro h
      cases h
    · rintro ⟨hv, hn, _⟩
      exact absurd ⟨hv, hn⟩ hp

def MetaRpc.isFlush : MetaRpc → Bool
  | .flushNeedles .. => true
  | .updateSizeChunks .. => false

/-- The requests name `p` exactly once, in a FlushNeedles to its volume that succeeded and before
any metadata request. -/
def Flushed (trace : List MetaRpc) (p : UInt64 × UInt64) : Prop :=
  (∃ pre keys post, trace = pre ++ MetaRpc.flushNeedles p.1 keys true :: post ∧ p.2 ∈ keys ∧
    ∀ r ∈ pre, r.isFlush = true) ∧
  (trace.flatMap MetaRpc.needles).count p = 1

/-- When `powerfs_sync_inode_size_chunks` returns 0, the needle of every offset that the layout
resolves has been flushed. -/
def FsyncBarrier (pi : Inode) (size : Nat) : Prop :=
  ∀ env contentSize maxAttempts,
    (syncInodeSizeChunks env pi size contentSize maxAttempts).ret = none →
      ∀ off p, off < size → located pi off = some p →
        Flushed (syncInodeSizeChunks env pi size contentSize maxAttempts).trace p

theorem updateLoop_needles {chunks : List ChunkMap} {left attempt : Nat} {ret : Option Errno} :
    ∀ r ∈ (updateLoop env size chunks left attempt ret).2, r.needles = [] := by
  induction left generalizing attempt ret with
  | zero =>
    intro r hr
    cases hr
  | succ left ih =>
    rw [updateLoop]
    intro r hr
    split at hr
    · rw [List.mem_singleton] at hr
      subst hr
      rfl
    · rcases List.mem_cons.mp hr with rfl | hr
      · rfl
      · exact ih r hr

theorem sync_trace {contentSize maxAttempts : Nat} (hplacement : pi.placement ≠ .inline)
    (hsize : 0 < size)
    (h : (syncInodeSizeChunks env pi size contentSize maxAttempts).ret = none) :
    (syncReady pi = false ∧
      (syncInodeSizeChunks env pi size contentSize maxAttempts).trace = []) ∨
    (syncReady pi = true ∧ ∃ updates : List MetaRpc,
      (syncInodeSizeChunks env pi size contentSize maxAttempts).trace =
        (Grouping.groups ChunkMap.volumeId ChunkMap.live [] (syncChunks pi size)).map
          flushRequest ++ updates ∧
      ∀ r ∈ updates, r.needles = []) := by
  rw [syncInodeSizeChunks] at h ⊢
  cases hready : syncReady pi with
  | false =>
    left
    simp
  | true =>
    right
    refine ⟨rfl, ?_⟩
    have hgo : (decide (pi.placement = .inline) || decide (size = 0) || !true) = false := by
      simp [hplacement, Nat.pos_iff_ne_zero.mp hsize]
    rw [hready] at h
    simp only [hgo, Bool.false_eq_true, if_false] at h ⊢
    split at h <;> try cases h
    next halloc =>
    simp only [halloc, Bool.false_eq_true, if_false]
    cases hbarrier : (flushLoop env [] (syncChunks pi size) 0).1 with
    | some err =>
      rw [hbarrier] at h
      cases h
    | none =>
      simp only [flushLoop_groups hbarrier]
      split
      · exact ⟨[], by simp, by simp⟩
      · exact ⟨_, rfl, updateLoop_needles⟩

theorem sync_calm : (syncInodeSizeChunks .calm pi size size 1).ret = none := by
  rw [syncInodeSizeChunks]
  split
  · rfl
  · simp only [flushLoop_calm [] (syncChunks pi size) 0]
    rfl

/-- A needle that the requests of a run can name once. -/
def Named (pi : Inode) (size : Nat) (p : UInt64 × UInt64) : Prop :=
  p.1 ≠ 0 ∧ p.2 ≠ 0 ∧ FirstLive pi size p ∧
    ∃! j, j < syncChunkCount pi size ∧ syncPlace pi j = p

theorem flushed_iff {updates : List MetaRpc} (hupdates : ∀ r ∈ updates, r.needles = []) :
    Flushed ((Grouping.groups ChunkMap.volumeId ChunkMap.live [] (syncChunks pi size)).map
      flushRequest ++ updates) p ↔ Named pi size p := by
  have hnone : updates.flatMap MetaRpc.needles = [] := List.flatMap_eq_nil_iff.mpr hupdates
  rw [Named, ← count_needles_eq_one_iff]
  constructor
  · rintro ⟨_, hcount⟩
    rwa [List.flatMap_append, hnone, List.append_nil] at hcount
  · intro hcount
    refine ⟨?_, by rwa [List.flatMap_append, hnone, List.append_nil]⟩
    -- the request that names it is one of the groups'
    have hmem := List.count_pos_iff.mp (by rw [hcount]; exact Nat.one_pos)
    obtain ⟨r, hr, hp⟩ := List.mem_flatMap.mp hmem
    obtain ⟨g, _, rfl⟩ := List.mem_map.mp hr
    obtain ⟨key, hkey, heq⟩ := List.mem_map.mp hp
    obtain ⟨pre, post, hsplit⟩ := List.append_of_mem hr
    subst heq
    refine ⟨pre, _, post ++ updates, by rw [hsplit]; simp [flushRequest], hkey, fun r' hr' => ?_⟩
    have hgroup : r' ∈ (Grouping.groups ChunkMap.volumeId ChunkMap.live [] (syncChunks pi size)).map
        flushRequest := by
      rw [hsplit]
      exact List.mem_append_left _ hr'
    obtain ⟨g', _, rfl⟩ := List.mem_map.mp hgroup
    rfl

theorem fsyncBarrier_iff_named (hplacement : pi.placement ≠ .inline) (hsize : 0 < size) :
    FsyncBarrier pi size ↔ ∀ off p, off < size → located pi off = some p →
      syncReady pi = true ∧ Named pi size p := by
  constructor
  · intro h off p hoff hp
    have hflushed := h .calm size 1 sync_calm off p hoff hp
    rcases sync_trace hplacement hsize (@sync_calm pi size) with
      ⟨_, htrace⟩ | ⟨hready, updates, htrace, hupdates⟩
    · rw [htrace] at hflushed
      cases hflushed.2
    · rw [htrace] at hflushed
      exact ⟨hready, (flushed_iff hupdates).mp hflushed⟩
  · intro h env contentSize maxAttempts hret off p hoff hp
    obtain ⟨hready, hnamed⟩ := h off p hoff hp
    rcases sync_trace hplacement hsize hret with ⟨hfalse, _⟩ | ⟨_, updates, htrace, hupdates⟩
    · rw [hready] at hfalse
      cases hfalse
    · rw [htrace]
      exact (flushed_iff hupdates).mpr hnamed

theorem mul_lt_of_lt_syncChunkCount {j : Nat} (h : j < syncChunkCount pi size) :
    j * pi.chunkSz < size := by
  have hpos := pi.chunkSz_pos
  have hle : syncChunkCount pi size ≤ (size + pi.chunkSz - 1) / pi.chunkSz := by
    rw [syncChunkCount]
    generalize (size + pi.chunkSz - 1) / pi.chunkSz = n
    have hmod := Nat.mod_le n (2 ^ 32)
    split <;> omega
  have hsucc : (j + 1) * pi.chunkSz ≤ size + pi.chunkSz - 1 :=
    (Nat.le_div_iff_mul_le hpos).mp (by omega)
  rw [Nat.succ_mul] at hsucc
  omega

theorem located_eq (hplacement : pi.placement ≠ .inline) (off : Nat) :
    located pi off =
      match listedChunk pi (off / pi.chunkSz) with
      | some q => some q
      | none =>
        if pi.isStriped then some (locateStripe pi off)
        else if pi.isMapped then some (pi.volumeId, pi.fileKey + UInt64.ofNat (off / pi.chunkSz))
        else none := by
  rw [located, locateChunk, if_neg hplacement]
  cases listedChunk pi (off / pi.chunkSz) with
  | some q => rfl
  | none =>
    cases pi.isStriped with
    | true => rfl
    | false => cases pi.isMapped <;> rfl

/-- A Flat file places a whole chunk alike. -/
theorem forall_chunk_iff {P : Nat → Prop} :
    (∀ off < size, P (off / pi.chunkSz)) ↔ ∀ i, i * pi.chunkSz < size → P i := by
  constructor
  · intro h i hi
    rw [← Nat.mul_div_cancel i pi.chunkSz_pos]
    exact h _ hi
  · intro h off hoff
    exact h _ (Nat.lt_of_le_of_lt (Nat.div_mul_le_self off pi.chunkSz) hoff)

/-- The condition on layout and size. `syncChunkCount` is the number of chunks up to 4096. -/
def BarrierOk (pi : Inode) (size : Nat) : Prop :=
  if pi.placement.isStripe then
    if pi.isStriped then
      -- no offset resolves to a zero half, and its needle is that of one chunk of the list
      ∀ off < size, (locateStripe pi off).1 ≠ 0 ∧ (locateStripe pi off).2 ≠ 0 ∧
        ∃! j, j < syncChunkCount pi size ∧ locateStripe pi (j * pi.chunkSz) = locateStripe pi off
    else pi.isMapped = false
  else if pi.isMapped then
    -- a listed chunk lies among the needles counted up from the file key
    ∀ i, i * pi.chunkSz < size →
      match listedChunk pi i with
      | some q => q.1 = pi.volumeId ∧
        ∃ j < syncChunkCount pi size, q.2 = pi.fileKey + UInt64.ofNat j
      | none => i < syncChunkCount pi size ∧ pi.fileKey + UInt64.ofNat i ≠ 0
  else ∀ i, i * pi.chunkSz < size → listedChunk pi i = none

theorem add_ofNat_inj {key : UInt64} {i j : Nat} (hi : i < 2 ^ 64) (hj : j < 2 ^ 64)
    (h : key + UInt64.ofNat i = key + UInt64.ofNat j) : i = j := by
  have heq := congrArg UInt64.toNat ((UInt64.add_right_inj key).mp h)
  rwa [UInt64.toNat_ofNat_of_lt' hi, UInt64.toNat_ofNat_of_lt' hj] at heq

theorem syncChunkCount_le : syncChunkCount pi size ≤ 4096 := by
  simp only [syncChunkCount]
  split <;> omega

theorem named_flat_iff (hflat : pi.placement.isStripe = false) (hmapped : pi.isMapped = true) :
    Named pi size p ↔ p.2 ≠ 0 ∧ p.1 = pi.volumeId ∧
      ∃ j < syncChunkCount pi size, p.2 = pi.fileKey + UInt64.ofNat j := by
  have hplace : ∀ j, syncPlace pi j = (pi.volumeId, pi.fileKey + UInt64.ofNat j) := by
    intro j
    simp [syncPlace, hflat]
  have hle := @syncChunkCount_le pi size
  simp only [Inode.isMapped, Bool.and_eq_true] at hmapped
  have hvid : pi.volumeId ≠ 0 := of_decide_eq_true hmapped.1
  have hkey : pi.fileKey ≠ 0 := of_decide_eq_true hmapped.2
  constructor
  · rintro ⟨_, hn, _, j, ⟨hj, heq⟩, _⟩
    rw [hplace] at heq
    subst heq
    exact ⟨hn, rfl, j, hj, rfl⟩
  · rintro ⟨hn, hv, j, hj, heq⟩
    refine ⟨by rw [hv]; exact hvid, hn, fun k _ _ hbefore => ?_, j,
      ⟨hj, by rw [hplace, ← hv, ← heq]⟩, fun k ⟨hk, hk'⟩ => ?_⟩
    · -- every entry has the volume, so the first one is entry 0
      have hzero : k = 0 := by
        by_contra hne
        exact hbefore 0 (Nat.pos_of_ne_zero hne) (by rw [hplace, hv])
      subst hzero
      simpa [hplace] using hkey
    · rw [hplace] at hk'
      have heq' := (congrArg Prod.snd hk').trans heq
      exact add_ofNat_inj (by omega) (by omega) heq'

theorem isStripe_of_isStriped (h : pi.isStriped = true) : pi.placement.isStripe = true := by
  simp only [Inode.isStriped, Bool.and_eq_true] at h
  exact h.1

theorem placement_ne_inline_of_isStriped (h : pi.isStriped = true) : pi.placement ≠ .inline := by
  intro hinline
  have hstripe := isStripe_of_isStriped h
  rw [hinline] at hstripe
  cases hstripe

theorem named_stripe_iff (hstriped : pi.isStriped = true) :
    Named pi size p ↔ p.1 ≠ 0 ∧ p.2 ≠ 0 ∧
      (∀ j < syncChunkCount pi size, (locateStripe pi (j * pi.chunkSz)).1 = p.1 →
        (∀ k < j, (locateStripe pi (k * pi.chunkSz)).1 ≠ p.1) →
          (locateStripe pi (j * pi.chunkSz)).2 ≠ 0) ∧
      ∃! j, j < syncChunkCount pi size ∧ locateStripe pi (j * pi.chunkSz) = p := by
  have hplace : ∀ j, syncPlace pi j = locateStripe pi (j * pi.chunkSz) := by
    intro j
    simp [syncPlace, isStripe_of_isStriped hstriped, locateChunk,
      placement_ne_inline_of_isStriped hstriped, listedChunk_of_isStriped hstriped, hstriped]
  simp only [Named, FirstLive, hplace]

theorem listedChunk_needle_ne_zero {i : Nat} {q : UInt64 × UInt64}
    (h : listedChunk pi i = some q) : q.2 ≠ 0 := by
  simp only [listedChunk] at h
  split at h
  · cases h
  · split at h
    · cases h
    · split at h
      · next hcm =>
        cases h
        exact hcm.2
      · cases h

theorem fsyncBarrier_of_striped (hstriped : pi.isStriped = true) (hsize : 0 < size) :
    FsyncBarrier pi size ↔ ∀ off < size,
      (locateStripe pi off).1 ≠ 0 ∧ (locateStripe pi off).2 ≠ 0 ∧
      ∃! j, j < syncChunkCount pi size ∧
        locateStripe pi (j * pi.chunkSz) = locateStripe pi off := by
  have hplacement := placement_ne_inline_of_isStriped hstriped
  have hready : syncReady pi = true := by
    simpa [syncReady, isStripe_of_isStriped hstriped] using Inode.volumes_pos hstriped
  rw [fsyncBarrier_iff_named hplacement hsize]
  simp only [located_eq hplacement, listedChunk_of_isStriped hstriped, hstriped, if_true,
    named_stripe_iff hstriped, hready, true_and, Option.some.injEq]
  constructor
  · intro h off hoff
    obtain ⟨hv, hn, _, hone⟩ := h off _ hoff rfl
    exact ⟨hv, hn, hone⟩
  · rintro h off p hoff rfl
    obtain ⟨hv, hn, hone⟩ := h off hoff
    exact ⟨hv, hn, fun j hj _ _ => (h _ (mul_lt_of_lt_syncChunkCount hj)).2.1, hone⟩

theorem fsyncBarrier_of_not_ready (hready : syncReady pi = false)
    (hplacement : pi.placement ≠ .inline) (hsize : 0 < size) :
    FsyncBarrier pi size ↔ ∀ off < size, located pi off = none := by
  rw [fsyncBarrier_iff_named hplacement hsize]
  simp only [hready, Bool.false_eq_true, false_and]
  constructor
  · intro h off hoff
    cases hp : located pi off with
    | none => rfl
    | some p => exact (h off p hoff hp).elim
  · intro h off p hoff hp
    rw [h off hoff] at hp
    cases hp

theorem fsyncBarrier_of_mapped (hflat : pi.placement.isStripe = false)
    (hmapped : pi.isMapped = true) (hplacement : pi.placement ≠ .inline) (hsize : 0 < size)
    (hmax : size < maxOffset) :
    FsyncBarrier pi size ↔ ∀ i, i * pi.chunkSz < size →
      match listedChunk pi i with
      | some q => q.1 = pi.volumeId ∧
        ∃ j < syncChunkCount pi size, q.2 = pi.fileKey + UInt64.ofNat j
      | none => i < syncChunkCount pi size ∧ pi.fileKey + UInt64.ofNat i ≠ 0 := by
  have hready : syncReady pi = true := by simpa [syncReady, hflat] using hmapped
  have hstriped : pi.isStriped = false := by simp [Inode.isStriped, hflat]
  rw [fsyncBarrier_iff_named hplacement hsize, ← forall_chunk_iff]
  simp only [located_eq hplacement, hstriped, hmapped, hready, true_and,
    named_flat_iff hflat hmapped]
  apply forall_congr'
  intro off
  cases hlisted : listedChunk pi (off / pi.chunkSz) with
  | some q =>
    constructor
    · intro h hoff
      exact (h q hoff rfl).2
    · rintro h p hoff ⟨⟩
      exact ⟨listedChunk_needle_ne_zero hlisted, h hoff⟩
  | none =>
    constructor
    · intro h hoff
      obtain ⟨hn, _, j, hj, heq⟩ := h _ hoff rfl
      have hle := @syncChunkCount_le pi size
      have hdiv : off / pi.chunkSz < 2 ^ 64 := by
        have hself := Nat.div_le_self off pi.chunkSz
        have hoff : maxOffset < 2 ^ 64 := by decide
        omega
      have hij : off / pi.chunkSz = j := add_ofNat_inj hdiv (by omega) heq
      exact ⟨hij ▸ hj, hn⟩
    · rintro h p hoff ⟨⟩
      obtain ⟨hlt, hn⟩ := h hoff
      exact ⟨hn, rfl, _, hlt, rfl⟩

/-- The barrier is complete if and only if layout and size meet the condition. -/
theorem fsyncBarrier_iff (pi : Inode) (size : Nat) (hplacement : pi.placement ≠ .inline)
    (hsize : 0 < size) (hmax : size < maxOffset) : FsyncBarrier pi size ↔ BarrierOk pi size := by
  simp only [BarrierOk]
  cases hstripe : pi.placement.isStripe with
  | true =>
    simp only [if_true]
    cases hstriped : pi.isStriped with
    | true =>
      exact fsyncBarrier_of_striped hstriped hsize
    | false =>
      -- the chunks of the Flat mapping would still resolve
      have hready : syncReady pi = false := by
        simpa [syncReady, hstripe, Inode.isStriped] using hstriped
      have hlisted : ∀ i, listedChunk pi i = none := fun i => by simp [listedChunk, hstripe]
      rw [fsyncBarrier_of_not_ready hready hplacement hsize]
      simp only [located_eq hplacement, hlisted, hstriped, Bool.false_eq_true, if_false]
      constructor
      · intro h
        by_contra hmapped
        rw [Bool.not_eq_false] at hmapped
        have hfirst := h 0 hsize
        rw [hmapped] at hfirst
        cases hfirst
      · intro hmapped i _
        rw [hmapped]
        rfl
  | false =>
    cases hmapped : pi.isMapped with
    | true =>
      exact fsyncBarrier_of_mapped hstripe hmapped hplacement hsize hmax
    | false =>
      have hready : syncReady pi = false := by simpa [syncReady, hstripe] using hmapped
      have hstriped : pi.isStriped = false := by simp [Inode.isStriped, hstripe]
      rw [fsyncBarrier_of_not_ready hready hplacement hsize]
      simp only [located_eq hplacement, hstriped, hmapped, Bool.false_eq_true, if_false]
      rw [← forall_chunk_iff]
      apply forall_congr'
      intro off
      cases listedChunk pi (off / pi.chunkSz) <;> simp

def flatInode : Inode := { Inode.fresh with volumeId := 1, fileKey := 1 }

/-- A file of one page meets the condition. -/
theorem fsyncBarrier_iff_flatInode : flatInode.placement ≠ .inline ∧ 4096 < maxOffset ∧
    FsyncBarrier flatInode 4096 := by
  refine ⟨by decide, by decide,
    (fsyncBarrier_iff flatInode 4096 (by decide) (by decide) (by decide)).mpr ?_⟩
  intro i hi
  have hzero : i = 0 := by
    have hchunk : flatInode.chunkSz = 2 ^ 20 := by decide
    rw [hchunk] at hi
    omega
  subst hzero
  exact ⟨by decide, by decide⟩

/-- Of a file of 4 GiB and one byte the last chunk is not flushed. -/
theorem not_fsyncBarrier_all : ¬ ∀ (pi : Inode) (size : Nat), pi.placement ≠ .inline → 0 < size →
    size < maxOffset → FsyncBarrier pi size := by
  intro h
  have hbarrier := h flatInode (2 ^ 32 + 1) (by decide) (by decide) (by decide)
  rw [fsyncBarrier_iff_named (by decide) (by decide)] at hbarrier
  obtain ⟨_, hnamed⟩ := hbarrier (2 ^ 32) (1, 4097) (by decide) (by decide)
  rw [named_flat_iff (by decide) (by decide)] at hnamed
  obtain ⟨_, _, j, hj, heq⟩ := hnamed
  have hcount : syncChunkCount flatInode (2 ^ 32 + 1) = 4096 := by decide
  have hij : 4096 = j := @add_ofNat_inj 1 4096 j (by decide) (by omega) heq
  omega

end PowerFS.File
