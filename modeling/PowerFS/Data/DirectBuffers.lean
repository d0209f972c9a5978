import PowerFS.Data.DirectIo

namespace PowerFS.Data

open Layout Overlay

/-! The two buffers of the direct write path: the one the worker gathers the user's pages into,
and the one `powerfs_net_write` merges a needle in. Both are allocated without zeroing. -/

section Gather

variable {w : DioWork}

theorem length_overlay_max {buf data : List UInt8} {pos : Nat} (h : pos ≤ buf.length) :
    (overlay buf pos data).length = max buf.length (pos + data.length) := by
  simp only [overlay, List.length_append, List.length_take, List.length_drop]
  omega

theorem length_gatherStep {buf page : List UInt8} {i : Nat} (hpage : page.length = pageSize)
    (hlen : w.count ≤ buf.length) (hi : i * pageSize < w.count + w.first) :
    (gatherStep w buf (page, i)).length =
      if i = 0 then max buf.length (min (pageSize - w.first) (w.count + w.first))
      else buf.length := by
  have hfirst := w.first_lt
  rw [gatherStep, length_overlay_max]
  · simp only [List.length_take, List.length_drop, hpage]
    split
    · next hzero =>
      subst hzero
      simp
    · next hzero =>
      -- a later page is cut at the end of the buffer
      have hnext : pageSize ≤ i * pageSize := Nat.le_mul_of_pos_left _ (Nat.pos_of_ne_zero hzero)
      omega
  · dsimp only
    split
    · next hzero => simp [hzero]
    · omega

theorem length_gather_rest {rest : List (List UInt8)} (hpages : ∀ page ∈ rest, page ∈ w.pages)
    {i : Nat} {buf : List UInt8} (hpos : i ≠ 0) (hlen : w.count ≤ buf.length)
    (hend : (i + rest.length) * pageSize < w.count + w.first + pageSize) :
    ((rest.zipIdx i).foldl (gatherStep w) buf).length = buf.length := by
  induction rest generalizing i buf with
  | nil => rfl
  | cons page rest ih =>
    rw [List.length_cons, Nat.add_mul, Nat.succ_mul] at hend
    have hstep := length_gatherStep (w.page_length page (hpages page List.mem_cons_self)) hlen
      (show i * pageSize < w.count + w.first by omega)
    rw [if_neg hpos] at hstep
    rw [List.zipIdx_cons, List.foldl_cons,
      ih (fun q hq => hpages q (List.mem_cons_of_mem _ hq)) (by omega) (hstep ▸ hlen)
        (by rw [Nat.add_mul, Nat.succ_mul]; omega), hstep]

/-- Only the first page can end behind the buffer: its bound is too large by the offset. -/
theorem length_gatherLoop (env : DioEnv) (hpages : w.pages ≠ []) :
    (gatherLoop env w).length = max w.count (min (pageSize - w.first) (w.count + w.first)) := by
  obtain ⟨page, rest, hsplit⟩ := List.exists_cons_of_ne_nil hpages
  have hmem : ∀ q ∈ page :: rest, q ∈ w.pages := fun q hq => hsplit ▸ hq
  have htight := w.tight
  rw [hsplit, List.length_cons, Nat.succ_mul] at htight
  have hstep := @length_gatherStep w ((List.range w.count).map env.uninit) page 0
    (w.page_length page (hmem page List.mem_cons_self)) (by simp) (by omega)
  rw [if_pos rfl, List.length_map, List.length_range] at hstep
  rw [gatherLoop, hsplit, List.zipIdx_cons, List.foldl_cons,
    length_gather_rest (fun q hq => hmem q (List.mem_cons_of_mem _ hq)) (by decide)
      (by rw [hstep]; exact Nat.le_max_left _ _) (by rw [Nat.add_mul]; omega), hstep]

/-- The copy loop stays inside the buffer, and leaves the user's bytes in it, exactly when the
buffer starts with a page or reaches the end of its first one. -/
theorem gatherLoop_eq_bytes_iff (env : DioEnv) (w : DioWork) :
    gatherLoop env w = w.bytes ↔ w.first = 0 ∨ pageSize ≤ w.count + w.first := by
  have hfirst := w.first_lt
  have hcovers := w.covers
  have hbytes : w.bytes.length = w.count := by
    rw [DioWork.bytes, List.length_take, List.length_drop, flatten_length_of_pages w.page_length]
    omega
  by_cases hpages : w.pages = []
  · rw [hpages] at hcovers
    have hzero : w.count = 0 := by simp at hcovers; omega
    have hnil : gatherLoop env w = [] := by simp [gatherLoop, hpages, hzero]
    rw [hnil, eq_comm, ← List.length_eq_zero_iff]
    simp at hcovers
    omega
  · rw [← gatherLoop_take env w, eq_comm, List.take_eq_self_iff, length_gatherLoop env hpages]
    omega

/-- 100 bytes from offset 100 of a page: 200 bytes are copied. -/
def midPage : DioWork where
  count := 100
  first := 100
  pages := [List.replicate pageSize 1]
  page_length := by simp
  first_lt := by decide
  covers := by decide
  tight := by decide

theorem not_gatherLoop_eq_bytes :
    ¬ ∀ (env : DioEnv) (w : DioWork), gatherLoop env w = w.bytes := by
  intro hall
  have hlen := length_gatherLoop (w := midPage) (.calm fun _ => 0) (List.cons_ne_nil _ _)
  have hbytes : midPage.bytes.length ≤ 100 := List.length_take_le _ _
  rw [hall, show max midPage.count (min (pageSize - midPage.first)
    (midPage.count + midPage.first)) = 200 from rfl] at hlen
  omega

end Gather

/-- The needle that should be sent: the old one, with zeros up to the place of the data. -/
def zeroMerged (old : List UInt8) (off : Nat) (data : List UInt8) : List UInt8 :=
  overlay (old ++ List.replicate (off - old.length) 0) off data

section Merge

variable {st st' : Needles} {pi : Inode} {pos : Nat} {data old : List UInt8} {off : Nat}

theorem zeroMerged_eq : zeroMerged old off data =
    dioFront false (fun _ => 0) old off ++ data ++ dioBack false old (off + data.length) := by
  have hfront : (old ++ List.replicate (off - old.length) 0).take off =
      dioFront false (fun _ => 0) old off := by
    rw [List.take_append, List.take_replicate, Nat.min_self, dioFront, if_neg Bool.false_ne_true,
      List.map_const', List.length_range']
  have hback : (old ++ List.replicate (off - old.length) 0).drop (off + data.length) =
      old.drop (off + data.length) := by
    rw [List.drop_append, List.drop_replicate, show off - old.length - _ = 0 by omega]
    exact List.append_nil _
  rw [zeroMerged, overlay, hfront, hback]
  rfl

/-- The right needle is sent whatever is in the fresh memory exactly when nothing is sent, or the
data starts inside the old needle or at its end. -/
theorem netWrite_merges_iff (st : Needles) (pi : Inode) (pos : Nat) (data : List UInt8) :
    (∀ env st', netWrite env st pi pos data = .ok st' →
      st'.content (dioTarget pi pos) =
          zeroMerged (st.content (dioTarget pi pos)) (pos % chunkSize) data ∧
        (st'.content (dioTarget pi pos)).length =
          max (st.content (dioTarget pi pos)).length (pos % chunkSize + data.length)) ↔
    pi.volumeId = 0 ∨ pi.fileKey = 0 ∨ chunkSize < pos % chunkSize + data.length ∨
      pos % chunkSize ≤ (st.content (dioTarget pi pos)).length := by
  set old := st.content (dioTarget pi pos) with hold
  have hlen : ∀ uninit, (dioFront false uninit old (pos % chunkSize)).length = pos % chunkSize :=
    fun uninit => @dioFront_length false uninit old _ nofun
  constructor
  · intro hall
    by_contra hcon
    push Not at hcon
    obtain ⟨hvid, hkey, hfits, hgap⟩ := hcon
    -- fresh memory of ones shows in the gap
    obtain ⟨st', hst⟩ := netWrite_calm (fun _ => 1) hvid hkey hfits
    obtain ⟨-, needle, hneedle, rfl⟩ := netWrite_ok hst
    have hsent := (hall _ _ hst).1
    rw [Needles.content_update_self, hneedle, zeroMerged_eq, List.append_assoc,
      List.append_assoc] at hsent
    have hfront := (List.append_inj hsent (by rw [hlen, hlen])).1
    obtain ⟨gap, hsucc⟩ :=
      Nat.exists_eq_succ_of_ne_zero (show pos % chunkSize - old.length ≠ 0 by omega)
    simp [dioFront, DioEnv.calm, ← hold, hsucc] at hfront
  · intro hcond env st' hst
    obtain ⟨⟨hvid, hkey, hfits⟩, needle, hneedle, rfl⟩ := netWrite_ok hst
    have hin : pos % chunkSize - old.length = 0 := by
      obtain h | h | h | h := hcond
      · exact absurd h hvid
      · exact absurd h hkey
      · omega
      · omega
    rw [Needles.content_update_self, hneedle, zeroMerged_eq, ← hold]
    refine ⟨by simp only [dioFront, hin, List.range'_zero, List.map_nil], ?_⟩
    rw [List.length_append, List.length_append, hlen, dioBack, if_neg Bool.false_ne_true,
      List.length_drop]
    omega

/-- One byte at position 1 of a needle that does not exist: the byte before it is sent as it was
in memory. -/
theorem not_netWrite_merges :
    ¬ ∀ (st : Needles) (pi : Inode) (pos : Nat) (data : List UInt8) (env : DioEnv) (st' : Needles),
      netWrite env st pi pos data = .ok st' → st'.content (dioTarget pi pos) =
        zeroMerged (st.content (dioTarget pi pos)) (pos % chunkSize) data := by
  intro hall
  have hsent := hall (fun _ => none) { Inode.fresh with volumeId := 7, fileKey := 100 } 1 [5]
    (.calm fun _ => 1) _ rfl
  revert hsent
  decide +kernel

end Merge

end PowerFS.Data
