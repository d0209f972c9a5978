import PowerFS.Layout.Locate

namespace PowerFS.Layout

open BlockMap

/-! When the needles of `powerfs_locate_chunk` are the blocks of `POWERFS_CHUNK_SIZE` bytes. The
callers address a byte inside its needle by `offset % POWERFS_CHUNK_SIZE`, whatever chunk and
stripe sizes the layout has. -/

theorem chunkSize_dvd_maxOffset : chunkSize ∣ maxOffset :=
  Nat.pow_dvd_pow 2 (by decide : 20 ≤ 63)

/-- What the Filer promises about the needles it hands out: from different (volume, base needle)
pairs the inode never reaches the same needle of one volume. -/
def NeedleRangesDisjoint (pi : Inode) : Prop :=
  ∀ s t, s < maxOffset → t < maxOffset → ∀ p q, chunkBase pi s = some p →
    chunkBase pi t = some q → p.1 ≠ q.1 → needleAt p ≠ needleAt q

/-- The Flat mapping with a chunk list over it: chunks are blocks, the list names no needle
twice, and names the first needle of the mapping only if it also says where chunk 0 is. -/
def FlatAligned (pi : Inode) : Prop :=
  pi.chunkSz = chunkSize ∧
    (∀ i j p, listedChunk pi i = some p → listedChunk pi j = some p → i = j) ∧
    ∀ i, listedChunk pi i = some (pi.volumeId, pi.fileKey) → listedChunk pi 0 ≠ none

/-- A chunk list alone: every listed chunk stays inside one block, and entries share a needle
exactly when they share the block. -/
def ListAligned (pi : Inode) : Prop :=
  ∀ i p, listedChunk pi i = some p → i * pi.chunkSz < maxOffset →
    i * pi.chunkSz / chunkSize = (min ((i + 1) * pi.chunkSz) maxOffset - 1) / chunkSize ∧
    ∀ j q, listedChunk pi j = some q → j * pi.chunkSz < maxOffset →
      (p = q ↔ i * pi.chunkSz / chunkSize = j * pi.chunkSz / chunkSize)

def LayoutAligned (pi : Inode) : Prop :=
  if pi.placement = .inline then True
  else if h : pi.isStriped then
    (stripeGeometry pi h).Aligned (stripeBase pi) chunkSize maxOffset
  else if pi.isMapped then FlatAligned pi
  else ListAligned pi

variable {pi : Inode}

/-- Under the Filer's promise two offsets have one needle only when they have one base and one
distance from it. -/
theorem needleAt_eq_iff (hdisj : NeedleRangesDisjoint pi) {s t : Nat} (hs : s < maxOffset)
    (ht : t < maxOffset) {p q : (UInt64 × UInt64) × Nat} (hp : chunkBase pi s = some p)
    (hq : chunkBase pi t = some q) : needleAt p = needleAt q ↔ p = q := by
  refine ⟨fun heq => ?_, fun heq => by rw [heq]⟩
  have hbase : p.1 = q.1 := by
    by_contra hne
    exact hdisj s t hs ht p q hp hq hne heq
  have hsum : UInt64.ofNat p.2 = UInt64.ofNat q.2 := by
    have hsnd := congrArg Prod.snd heq
    simp only [needleAt, hbase] at hsnd
    exact (UInt64.add_right_inj _).mp hsnd
  have hdist : ∀ x < maxOffset, (UInt64.ofNat x).toNat = x := fun x hx =>
    UInt64.toNat_ofNat_of_lt' (hx.trans (by decide : maxOffset < UInt64.size))
  have hp2 := hdist p.2 ((chunkBase_dist_le hp).trans_lt hs)
  have hq2 := hdist q.2 ((chunkBase_dist_le hq).trans_lt ht)
  exact Prod.ext hbase (by rw [← hp2, ← hq2, hsum])

theorem exact_located_iff (hdisj : NeedleRangesDisjoint pi) :
    Exact (located pi) chunkSize maxOffset ↔ Exact (chunkBase pi) chunkSize maxOffset := by
  constructor
  · intro hexact s t hs ht p q hp hq
    rw [← needleAt_eq_iff hdisj hs ht hp hq]
    exact hexact s t hs ht _ _ (by rw [located_eq_chunkBase, hp]; rfl)
      (by rw [located_eq_chunkBase, hq]; rfl)
  · intro hexact s t hs ht a b ha hb
    rw [located_eq_chunkBase, Option.map_eq_some_iff] at ha hb
    obtain ⟨p, hp, rfl⟩ := ha
    obtain ⟨q, hq, rfl⟩ := hb
    rw [needleAt_eq_iff hdisj hs ht hp hq]
    exact hexact s t hs ht p q hp hq

section

variable (hinline : pi.placement ≠ .inline)
include hinline

theorem chunkBase_striped (h : pi.isStriped = true) (o : Nat) :
    chunkBase pi o = some ((stripeGeometry pi h).place (stripeBase pi) o) := by
  simp only [chunkBase, if_neg hinline, listedChunk_of_isStriped h, dif_pos h]

theorem exact_striped (h : pi.isStriped = true) :
    Exact (chunkBase pi) chunkSize maxOffset ↔
      (stripeGeometry pi h).Aligned (stripeBase pi) chunkSize maxOffset := by
  have hwidth : (stripeGeometry pi h).width * chunkSize < maxOffset :=
    calc (elems pi.volumeIds).length * chunkSize < 2 ^ 32 * chunkSize :=
          Nat.mul_lt_mul_of_pos_right (elems_length_lt _) chunkSize_pos
      _ < maxOffset := by decide
  have hchunk : (stripeGeometry pi h).chunk < maxOffset :=
    pi.chunkSz_lt.trans (by decide)
  rw [← Striping.Geometry.separates_iff_aligned chunkSize_pos chunkSize_dvd_maxOffset
    (by decide) hchunk hwidth]
  simp only [Exact, chunkBase_striped hinline h, Option.some.injEq]
  constructor
  · intro hexact s t hs ht
    exact hexact s t hs ht _ _ rfl rfl
  · rintro hsep s t hs ht _ _ rfl rfl
    exact hsep s t hs ht

theorem chunkBase_listed {o : Nat} {p : UInt64 × UInt64}
    (h : listedChunk pi (o / pi.chunkSz) = some p) : chunkBase pi o = some (p, 0) := by
  simp only [chunkBase, if_neg hinline, h]

section

variable (hstripe : ¬pi.isStriped = true)
include hstripe

theorem chunkBase_unlisted {o : Nat} (h : listedChunk pi (o / pi.chunkSz) = none) : chunkBase pi o =
      if pi.isMapped then some ((pi.volumeId, pi.fileKey), o / pi.chunkSz) else none := by
  simp only [chunkBase, if_neg hinline, h, dif_neg hstripe]

theorem chunkBase_flat (hmap : pi.isMapped = true) (o : Nat) : chunkBase pi o =
      some (match listedChunk pi (o / pi.chunkSz) with
        | some p => (p, 0)
        | none => ((pi.volumeId, pi.fileKey), o / pi.chunkSz)) := by
  cases h : listedChunk pi (o / pi.chunkSz) with
  | some p => rw [chunkBase_listed hinline h]
  | none => rw [chunkBase_unlisted hinline hstripe h, if_pos hmap]

theorem chunkSz_eq_of_exact
    (hmap : pi.isMapped = true) (hexact : Exact (chunkBase pi) chunkSize maxOffset) :
    pi.chunkSz = chunkSize := by
  have hpos := pi.chunkSz_pos
  have hC := chunkSize_pos
  have hCM : chunkSize < maxOffset := by decide
  have hflat := chunkBase_flat hinline hstripe hmap
  -- offsets of one chunk have one base, so they lie in one block
  have hsame : ∀ s t, s < maxOffset → t < maxOffset → s / pi.chunkSz = t / pi.chunkSz →
      s / chunkSize = t / chunkSize := fun s t hs ht hst =>
    (hexact s t hs ht _ _ (hflat s) (hflat t)).mp (by rw [hst])
  have hdvd : pi.chunkSz ∣ chunkSize := by
    by_contra hnd
    have hsucc := Nat.succ_div_of_not_dvd (a := chunkSize - 1) (b := pi.chunkSz)
      (by rwa [Nat.sub_add_cancel hC])
    have hblock := hsame (chunkSize - 1) chunkSize (by omega) hCM hsucc.symm
    rw [Nat.div_self hC, Nat.div_eq_of_lt (by omega)] at hblock
    omega
  by_contra hne
  have hlt : pi.chunkSz < chunkSize := lt_of_le_of_ne (Nat.le_of_dvd hC hdvd) hne
  -- behind the list a block would hold two chunks, with different needles
  obtain ⟨r, hr⟩ := hdvd
  have hidx : ∀ y, y < 2 → (2 ^ 32 * chunkSize + y * pi.chunkSz) / pi.chunkSz
      = 2 ^ 32 * r + y := fun y _ => by
    rw [hr, show 2 ^ 32 * (pi.chunkSz * r) + y * pi.chunkSz = (2 ^ 32 * r + y) * pi.chunkSz by
      ring, Nat.mul_div_cancel _ hpos]
  have hr0 : 0 < r := Nat.pos_of_ne_zero fun h0 => by
    rw [h0] at hr
    omega
  have hbase : ∀ y, y < 2 → chunkBase pi (2 ^ 32 * chunkSize + y * pi.chunkSz)
      = some ((pi.volumeId, pi.fileKey), 2 ^ 32 * r + y) := fun y hy => by
    have hnone : listedChunk pi (2 ^ 32 * r + y) = none := by
      by_contra hsome
      obtain ⟨p, hp⟩ := Option.ne_none_iff_exists'.mp hsome
      have hbound := listedChunk_lt hp
      have : 2 ^ 32 * 1 ≤ 2 ^ 32 * r := Nat.mul_le_mul_left _ hr0
      omega
    rw [hflat, hidx y hy, hnone]
  have hbound : 2 ^ 32 * chunkSize + 1 * pi.chunkSz < maxOffset := by
    have : 2 ^ 32 * chunkSize + 1 * chunkSize < maxOffset := by decide
    omega
  have heq := (hexact _ _ (by omega) hbound _ _ (hbase 0 (by decide)) (hbase 1 (by decide))).mpr
    (by
      rw [Nat.mul_comm (2 ^ 32), Nat.mul_add_div hC, Nat.mul_add_div hC,
        Nat.div_eq_of_lt (by omega), Nat.div_eq_of_lt (by omega)])
  simp at heq

theorem flatAligned_of_exact
    (hmap : pi.isMapped = true) (hexact : Exact (chunkBase pi) chunkSize maxOffset) :
    FlatAligned pi := by
  have hchunk := chunkSz_eq_of_exact hinline hstripe hmap hexact
  have hidx : ∀ i, i * chunkSize / pi.chunkSz = i := fun i => by
    rw [hchunk, Nat.mul_div_cancel i chunkSize_pos]
  have hbound : ∀ i < 2 ^ 32, i * chunkSize < maxOffset := fun i hi =>
    (Nat.mul_lt_mul_of_pos_right hi chunkSize_pos).trans (by decide)
  have hlisted : ∀ i p, listedChunk pi i = some p →
      chunkBase pi (i * chunkSize) = some (p, 0) := fun i p hp =>
    chunkBase_listed hinline (by rw [hidx, hp])
  have hinj : ∀ i j p, i < 2 ^ 32 → j < 2 ^ 32 → chunkBase pi (i * chunkSize) = some p →
      chunkBase pi (j * chunkSize) = some p → i = j := fun i j p hi hj hp hq => by
    have hblock := (hexact _ _ (hbound i hi) (hbound j hj) p p hp hq).mp rfl
    rwa [Nat.mul_div_cancel i chunkSize_pos, Nat.mul_div_cancel j chunkSize_pos] at hblock
  refine ⟨hchunk, ?_, ?_⟩
  · intro i j p hi hj
    exact hinj i j (p, 0) (listedChunk_lt hi) (listedChunk_lt hj) (hlisted i p hi)
      (hlisted j p hj)
  · intro i hi hzero
    -- chunk 0 would be at the first needle of the mapping, where chunk `i` is listed
    have hbase0 : chunkBase pi (0 * chunkSize) = some ((pi.volumeId, pi.fileKey), 0) := by
      rw [chunkBase_flat hinline hstripe hmap, hidx, hzero]
    have hi0 := hinj i 0 _ (listedChunk_lt hi) (by decide) (hlisted i _ hi) hbase0
    rw [hi0, hzero] at hi
    cases hi

theorem exact_of_flatAligned (hmap : pi.isMapped = true) (h : FlatAligned pi) :
    Exact (chunkBase pi) chunkSize maxOffset := by
  obtain ⟨hchunk, hinj, hfirst⟩ := h
  intro s t _ _ p q hp hq
  rw [chunkBase_flat hinline hstripe hmap, Option.some.injEq] at hp hq
  rw [← hp, ← hq, ← hchunk]
  constructor
  · intro heq
    cases hls : listedChunk pi (s / pi.chunkSz) with
    | some a =>
      cases hlt : listedChunk pi (t / pi.chunkSz) with
      | some b =>
        simp only [hls, hlt, Prod.mk.injEq, and_true] at heq
        exact hinj _ _ a hls (by rw [hlt, heq])
      | none =>
        simp only [hls, hlt, Prod.mk.injEq] at heq
        rw [heq.1] at hls
        rw [← heq.2] at hlt
        exact absurd hlt (hfirst _ hls)
    | none =>
      cases hlt : listedChunk pi (t / pi.chunkSz) with
      | some b =>
        simp only [hls, hlt, Prod.mk.injEq] at heq
        rw [← heq.1] at hlt
        rw [heq.2] at hls
        exact absurd hls (hfirst _ hlt)
      | none =>
        simp only [hls, hlt, Prod.mk.injEq, true_and] at heq
        exact heq
  · intro hblock
    rw [hblock]

theorem chunkBase_list_iff (hmap : ¬pi.isMapped = true) {o : Nat} {p : (UInt64 × UInt64) × Nat} :
    chunkBase pi o = some p ↔
      ∃ a, listedChunk pi (o / pi.chunkSz) = some a ∧ p = (a, 0) := by
  cases h : listedChunk pi (o / pi.chunkSz) with
  | some a =>
    rw [chunkBase_listed hinline h]
    simp [eq_comm]
  | none =>
    rw [chunkBase_unlisted hinline hstripe h, if_neg hmap]
    simp

theorem exact_list (hmap : ¬pi.isMapped = true) :
    Exact (chunkBase pi) chunkSize maxOffset ↔ ListAligned pi := by
  have hpos := pi.chunkSz_pos
  have hiff : ∀ {o p}, chunkBase pi o = some p ↔ _ :=
    chunkBase_list_iff hinline hstripe hmap
  constructor
  · intro hexact i p hi hiM
    have hstart : ∀ j q, listedChunk pi j = some q →
        chunkBase pi (j * pi.chunkSz) = some (q, 0) := fun j q hj =>
      chunkBase_listed hinline (by rw [Nat.mul_div_cancel j hpos, hj])
    refine ⟨?_, ?_⟩
    · -- the last offset of the chunk has the same entry as the first
      have hsucc : (i + 1) * pi.chunkSz = i * pi.chunkSz + pi.chunkSz := by ring
      have hlast : (min ((i + 1) * pi.chunkSz) maxOffset - 1) / pi.chunkSz = i := by
        rw [Nat.div_eq_iff hpos]
        omega
      have hend : chunkBase pi (min ((i + 1) * pi.chunkSz) maxOffset - 1) = some (p, 0) :=
        chunkBase_listed hinline (by rw [hlast, hi])
      exact (hexact _ _ hiM (by omega) _ _ (hstart i p hi) hend).mp rfl
    · intro j q hj hjM
      rw [← hexact _ _ hiM hjM _ _ (hstart i p hi) (hstart j q hj)]
      exact ⟨fun h => by rw [h], fun h => congrArg Prod.fst h⟩
  · intro halign s t hs ht p q hp hq
    obtain ⟨a, ha, rfl⟩ := hiff.mp hp
    obtain ⟨b, hb, rfl⟩ := hiff.mp hq
    -- an offset of a listed chunk is in the block of the chunk's start
    have hblock : ∀ o c, o < maxOffset → listedChunk pi (o / pi.chunkSz) = some c →
        o / pi.chunkSz * pi.chunkSz < maxOffset ∧
          o / chunkSize = o / pi.chunkSz * pi.chunkSz / chunkSize := by
      intro o c ho hc
      have hle := Nat.div_mul_le_self o pi.chunkSz
      have hup := Nat.lt_div_mul_add hpos (a := o)
      have hone := (halign _ _ hc (by omega)).1
      have hsucc : (o / pi.chunkSz + 1) * pi.chunkSz
          = o / pi.chunkSz * pi.chunkSz + pi.chunkSz := by ring
      refine ⟨by omega, le_antisymm ?_ (Nat.div_le_div_right hle)⟩
      rw [hone]
      exact Nat.div_le_div_right (by omega)
    obtain ⟨hsM, hsb⟩ := hblock s a hs ha
    obtain ⟨htM, htb⟩ := hblock t b ht hb
    rw [hsb, htb, ← (halign _ _ ha hsM).2 _ _ hb htM, Prod.mk.injEq]
    exact ⟨fun h => h.1, fun h => ⟨h, rfl⟩⟩

end

end

theorem exact_iff_layoutAligned (hdisj : NeedleRangesDisjoint pi) :
    Exact (located pi) chunkSize maxOffset ↔ LayoutAligned pi := by
  rw [exact_located_iff hdisj, LayoutAligned]
  by_cases hinline : pi.placement = .inline
  · rw [if_pos hinline]
    refine iff_true_intro fun s t _ _ p q hp _ => ?_
    rw [chunkBase, if_pos hinline] at hp
    cases hp
  · rw [if_neg hinline]
    by_cases hstripe : pi.isStriped = true
    · rw [dif_pos hstripe, exact_striped hinline hstripe]
    · rw [dif_neg hstripe]
      by_cases hmap : pi.isMapped = true
      · rw [if_pos hmap]
        exact ⟨flatAligned_of_exact hinline hstripe hmap,
          exact_of_flatAligned hinline hstripe hmap⟩
      · rw [if_neg hmap, exact_list hinline hstripe hmap]

end PowerFS.Layout
