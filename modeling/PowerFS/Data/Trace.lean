import PowerFS.Data.Writeback

namespace PowerFS.Data

open Layout Overlay BlockMap

/-! Where the two data paths put the bytes of a file. A place is a (volume, needle) pair and a
position in the needle. -/

abbrev Place := (UInt64 × UInt64) × Nat

/-- Writeback stores the byte of file offset `o` at place `t`: a run of `powerfs_writepages` over
some dirty pages, each byte labelled with its own offset, sends that label to `t`. -/
def WritesAt (pi : Inode) (o : Nat) (t : Place) : Prop :=
  ∃ batchPages isize isize' dirty, isize ≤ maxOffset ∧ dirty.Pairwise (· < ·) ∧
    (∀ x ∈ dirty, pageSize ∣ x) ∧
    ∃ batch ∈ writepages pi batchPages isize some dirty,
    ∃ w ∈ writepageWork pi isize' none batch,
      w.place = t.1 ∧ w.offset ≤ t.2 ∧ w.bytes[t.2 - w.offset]? = some (some o)

structure LabelledPage (p : Page (Option Nat)) : Prop where
  labels : p.data = (List.range' p.offset p.data.length).map some
  fits : p.offset % chunkSize + p.data.length ≤ chunkSize
  below : p.offset + p.data.length ≤ maxOffset

/-- Pages of one chunk, in ascending order. -/
structure LabelledBatch (b : List (Page (Option Nat))) : Prop where
  pages : ∀ p ∈ b, LabelledPage p
  sorted : b.Pairwise fun p q => p.offset < q.offset
  chunk : ∀ p ∈ b, ∀ q ∈ b, p.offset / chunkSize = q.offset / chunkSize

/-- A group starts with a page that located to its needle, and stays in that page's chunk. -/
def LabelledGroup (pi : Inode) (g : Group (Option Nat)) : Prop :=
  ∃ first rest, g.2 = first :: rest ∧ located pi first.offset = some g.1 ∧
    ∀ p ∈ g.2, LabelledPage p ∧ first.offset ≤ p.offset ∧
      first.offset / chunkSize = p.offset / chunkSize

variable {p : Page (Option Nat)}

variable {o : Nat}

theorem LabelledPage.mem (h : LabelledPage p)
    (ho : some o ∈ p.data) : p.offset ≤ o ∧ o < p.offset + p.data.length := by
  rw [h.labels] at ho
  simp only [List.mem_map, List.mem_range'_1, Option.some.injEq, exists_eq_right] at ho
  exact ho

theorem LabelledPage.same_chunk (h : LabelledPage p)
    (hlo : p.offset ≤ o) (hhi : o < p.offset + p.data.length) :
    p.offset / chunkSize = o / chunkSize := by
  have hfits := h.fits
  exact same_block_of_fits hlo (by omega)

theorem page_fits {offset : Nat} (hpage : pageSize ∣ offset) :
    offset % chunkSize + pageSize ≤ chunkSize := by
  have hdvd : pageSize ∣ chunkSize := by decide
  have hmod : pageSize ∣ offset % chunkSize := (Nat.dvd_mod_iff hdvd).mpr hpage
  have hlt : offset % chunkSize < chunkSize := Nat.mod_lt _ chunkSize_pos
  by_contra hgt
  have := Nat.le_of_lt_add_of_dvd (not_le.mp hgt) hdvd hmod
  omega

variable {α : Type}

theorem cachedPage_length (content : Nat → α) (isize offset : Nat) :
    (cachedPage content isize offset).data.length = min pageSize (isize - offset) := by
  simp [cachedPage]

variable {isize : Nat}

theorem cachedPage_labelled {offset : Nat} (hsize : isize ≤ maxOffset)
    (hlt : offset < isize) (hpage : pageSize ∣ offset) :
    LabelledPage (cachedPage some isize offset) := by
  have hlen := cachedPage_length (some : Nat → Option Nat) isize offset
  have hfits := page_fits hpage
  refine ⟨by rw [hlen]; rfl, ?_, ?_⟩
  · rw [hlen]
    change offset % chunkSize + min pageSize (isize - offset) ≤ chunkSize
    omega
  · rw [hlen]
    change offset + min pageSize (isize - offset) ≤ maxOffset
    omega

/-- What one round of the page loop does: with `cur` the batch kept or emptied before the page,
the page is dropped, or added, and then the batch may be full. -/
theorem collectStep_cases (batchPages isize : Nat) (batch : List (Page (Option Nat))) (x : Nat) :
    ∃ full cur, ((full = [batch] ∧ cur = []) ∨
        (full = [] ∧ cur = batch ∧ leavesChunk batch x = false)) ∧
      let ext := cur ++ [cachedPage some isize x]
      let r := collectStep batchPages isize some batch x
      (isize ≤ x ∧ r = (full, cur)) ∨ (x < isize ∧ r = (full ++ [ext], [])) ∨
        (x < isize ∧ r = (full, ext)) := by
  by_cases hleave : leavesChunk batch x = true
  · refine ⟨[batch], [], .inl ⟨rfl, rfl⟩, ?_⟩
    simp only [collectStep, hleave, if_true]
    split
    · next h => exact .inl ⟨h, rfl⟩
    · next h => split <;> simp [not_le.mp h]
  · rw [Bool.not_eq_true] at hleave
    refine ⟨[], batch, .inr ⟨rfl, rfl, hleave⟩, ?_⟩
    simp only [collectStep, hleave, Bool.false_eq_true, if_false]
    split
    · next h => exact .inl ⟨h, rfl⟩
    · next h => split <;> simp [not_le.mp h]

theorem LabelledBatch.nil : LabelledBatch [] := ⟨by simp, by simp, by simp⟩

theorem LabelledBatch.append {b : List (Page (Option Nat))}
    (hb : LabelledBatch b) (hp : LabelledPage p) (hafter : ∀ q ∈ b, q.offset < p.offset)
    (hchunk : ∀ q ∈ b, q.offset / chunkSize = p.offset / chunkSize) :
    LabelledBatch (b ++ [p]) := by
  refine ⟨?_, ?_, ?_⟩
  · simp only [List.mem_append, List.mem_singleton]
    rintro q (hq | rfl)
    · exact hb.pages q hq
    · exact hp
  · rw [List.pairwise_append]
    refine ⟨hb.sorted, by simp, ?_⟩
    simp only [List.mem_singleton]
    rintro q hq _ rfl
    exact hafter q hq
  · simp only [List.mem_append, List.mem_singleton]
    rintro q (hq | rfl) r (hr | rfl)
    · exact hb.chunk q hq r hr
    · exact hchunk q hq
    · exact (hchunk r hr).symm
    · rfl

theorem LabelledBatch.chunk_of_stays {b : List (Page (Option Nat))} (hb : LabelledBatch b)
    {x : Nat} (h : leavesChunk b x = false) (hp : p ∈ b) :
    p.offset / chunkSize = x / chunkSize := by
  have hlast := b.getLast?_eq_getLast_of_ne_nil (List.ne_nil_of_mem hp)
  simp only [leavesChunk, hlast, decide_not, Bool.not_eq_eq_eq_not, Bool.not_false,
    decide_eq_true_eq] at h
  rw [h]
  exact hb.chunk p hp _ (List.getLast_mem _)

/-- Every batch of `powerfs_writepages` holds pages of one chunk. -/
theorem collectBatches_labelled {batchPages : Nat} (hsize : isize ≤ maxOffset) (dirty : List Nat) :
    ∀ batch : List (Page (Option Nat)), dirty.Pairwise (· < ·) →
      (∀ x ∈ dirty, pageSize ∣ x) → LabelledBatch batch →
      (∀ p ∈ batch, ∀ x ∈ dirty, p.offset < x) →
      ∀ b ∈ collectBatches batchPages isize some dirty batch, LabelledBatch b := by
  induction dirty with
  | nil =>
    intro batch _ _ hbatch _ b hb
    rw [collectBatches] at hb
    split at hb
    · cases hb
    · exact List.mem_singleton.mp hb ▸ hbatch
  | cons x xs ih =>
    intro batch hsorted hpages hbatch hafter b hb
    rw [List.pairwise_cons] at hsorted
    have hpages' : ∀ y ∈ xs, pageSize ∣ y := fun y hy => hpages y (List.mem_cons_of_mem x hy)
    obtain ⟨full, cur, hcur, hstep⟩ := collectStep_cases batchPages isize batch x
    -- what is submitted before the page is the old batch, what is kept is a batch as well
    have hfull : ∀ b ∈ full, LabelledBatch b := by
      rcases hcur with ⟨rfl, -⟩ | ⟨rfl, -⟩
      · exact fun b hb => List.mem_singleton.mp hb ▸ hbatch
      · exact fun b hb => by cases hb
    have hkept : LabelledBatch cur ∧ (∀ p ∈ cur, p.offset / chunkSize = x / chunkSize) ∧
        ∀ p ∈ cur, ∀ y ∈ x :: xs, p.offset < y := by
      rcases hcur with ⟨-, rfl⟩ | ⟨-, rfl, hstays⟩
      · exact ⟨.nil, by simp, by simp⟩
      · exact ⟨hbatch, fun p hp => hbatch.chunk_of_stays hstays hp, hafter⟩
    obtain ⟨hcurB, hchunk, hcurAfter⟩ := hkept
    have hxs : ∀ p ∈ cur, ∀ y ∈ xs, p.offset < y := fun p hp y hy =>
      hcurAfter p hp y (List.mem_cons_of_mem x hy)
    have hext : x < isize → LabelledBatch (cur ++ [cachedPage some isize x]) := fun hlt =>
      hcurB.append (cachedPage_labelled hsize hlt (hpages x List.mem_cons_self))
        (fun p hp => hcurAfter p hp x List.mem_cons_self) hchunk
    rw [collectBatches] at hb
    rcases hstep with ⟨-, hr⟩ | ⟨hlt, hr⟩ | ⟨hlt, hr⟩
    · rw [hr, List.mem_append] at hb
      rcases hb with hb | hb
      · exact hfull b hb
      · exact ih cur hsorted.2 hpages' hcurB hxs b hb
    · rw [hr, List.mem_append, List.mem_append, List.mem_singleton] at hb
      rcases hb with (hb | rfl) | hb
      · exact hfull b hb
      · exact hext hlt
      · exact ih [] hsorted.2 hpages' .nil (by simp) b hb
    · rw [hr, List.mem_append] at hb
      rcases hb with hb | hb
      · exact hfull b hb
      · refine ih _ hsorted.2 hpages' (hext hlt) (fun p hp y hy => ?_) b hb
        rcases List.mem_append.mp hp with hp | hp
        · exact hxs p hp y hy
        · rw [List.mem_singleton.mp hp]
          exact hsorted.1 y hy

def Follows (g : Group (Option Nat)) (ps : List (Page (Option Nat))) : Prop :=
  ∀ p ∈ g.2, ∀ q ∈ ps, p.offset ≤ q.offset ∧ p.offset / chunkSize = q.offset / chunkSize

variable {pi : Inode}

theorem LabelledGroup.append {place : UInt64 × UInt64} {pages : List (Page (Option Nat))}
    (hg : LabelledGroup pi (place, pages)) (hp : LabelledPage p)
    (hfollows : Follows (place, pages) [p]) : LabelledGroup pi (place, pages ++ [p]) := by
  obtain ⟨first, rest, hpages, hloc, hall⟩ := hg
  change pages = first :: rest at hpages
  have hfirst : first ∈ pages := by rw [hpages]; exact List.mem_cons_self
  refine ⟨first, rest ++ [p], by rw [hpages, List.cons_append], hloc, ?_⟩
  simp only [List.mem_append, List.mem_singleton]
  rintro q (hq | rfl)
  · exact hall q hq
  · exact ⟨hp, hfollows first hfirst q (List.mem_singleton_self q)⟩

/-- The second pass does not look at the page. -/
def Unplaced {α : Type} (pi : Inode) (p : Page α) : Prop :=
  p.data = [] ∨ located pi p.offset = none

/-- One page of the grouping pass: it is passed over, joins the open group, or opens a new one
at the needle it was located to. -/
theorem groupStep_cases (pi : Inode) (cur : Option (Group α)) (p : Page α) :
    (cur = none ∧ Unplaced pi p ∧ groupStep pi cur p = ([], none)) ∨
      (∃ c, cur = some c ∧ (Unplaced pi p ∨ located pi p.offset = some c.1) ∧
        groupStep pi cur p = ([], some (c.1, c.2 ++ [p]))) ∨
      ∃ place, (p.data ≠ [] ∧ located pi p.offset = some place) ∧
        groupStep pi cur p = (cur.toList, some (place, [p])) := by
  have hnone : (if p.data.isEmpty then none else located pi p.offset) = none → Unplaced pi p := by
    intro h
    split at h
    · next hempty => exact .inl (List.isEmpty_iff.mp hempty)
    · exact .inr h
  have hsome : ∀ {place}, (if p.data.isEmpty then none else located pi p.offset) = some place →
      p.data ≠ [] ∧ located pi p.offset = some place := by
    intro place h
    split at h
    · cases h
    · next hne => exact ⟨fun hnil => hne (List.isEmpty_iff.mpr hnil), h⟩
  unfold groupStep splitStep placeIn
  split
  · next h => exact .inl ⟨rfl, hnone h, rfl⟩
  · next h => exact .inr (.inl ⟨_, rfl, .inl (hnone h), rfl⟩)
  · next place h => exact .inr (.inr ⟨place, hsome h, rfl⟩)
  · next place c pages h =>
    split
    · next heq => exact .inr (.inl ⟨_, rfl, .inr (by rw [(hsome h).2, heq]), rfl⟩)
    · exact .inr (.inr ⟨place, hsome h, rfl⟩)

theorem groupPages_labelled (ps : List (Page (Option Nat))) :
    ∀ cur : Option (Group (Option Nat)), LabelledBatch ps →
      (∀ g ∈ cur, LabelledGroup pi g ∧ Follows g ps) →
      ∀ g ∈ groupPages pi ps cur, LabelledGroup pi g := by
  induction ps with
  | nil =>
    intro cur _ hcur g hg
    rw [groupPages, splitGroups, Option.mem_toList] at hg
    exact (hcur g hg).1
  | cons p ps ih =>
    intro cur hbatch hcur g hg
    have hp := hbatch.pages p List.mem_cons_self
    have hsorted := List.pairwise_cons.mp hbatch.sorted
    have hps : LabelledBatch ps :=
      ⟨fun q hq => hbatch.pages q (List.mem_cons_of_mem p hq), hsorted.2,
        fun q hq r hr => hbatch.chunk q (List.mem_cons_of_mem p hq) r (List.mem_cons_of_mem p hr)⟩
    have hrest : Follows (g.1, [p]) ps := fun r hr q hq => by
      rw [List.mem_singleton.mp hr]
      exact ⟨(hsorted.1 q hq).le, hbatch.chunk p List.mem_cons_self q (List.mem_cons_of_mem p hq)⟩
    rw [groupPages_cons, List.mem_append] at hg
    rcases groupStep_cases pi cur p with ⟨-, -, hr⟩ | ⟨c, rfl, -, hr⟩ | ⟨place, ⟨-, hplace⟩, hr⟩
    · rw [hr] at hg
      simp only [List.not_mem_nil, false_or] at hg
      exact ih none hps (fun c hc => by cases hc) g hg
    · obtain ⟨hgroup, hfollows⟩ := hcur c rfl
      rw [hr] at hg
      simp only [List.not_mem_nil, false_or] at hg
      refine ih _ hps (fun c' hc => ?_) g hg
      cases hc
      refine ⟨hgroup.append hp fun r hr q hq => ?_, fun r hr q hq => ?_⟩
      · exact hfollows r hr q (List.mem_singleton.mp hq ▸ List.mem_cons_self)
      · rcases List.mem_append.mp hr with hr | hr
        · exact hfollows r hr q (List.mem_cons_of_mem p hq)
        · exact hrest r hr q hq
    · rw [hr, Option.mem_toList] at hg
      rcases hg with hg | hg
      · exact (hcur g hg).1
      · refine ih _ hps (fun c hc => ?_) g hg
        cases hc
        refine ⟨⟨p, [], rfl, hplace, fun q hq => ?_⟩, hrest⟩
        rw [List.mem_singleton.mp hq]
        exact ⟨hp, le_rfl, rfl⟩

/-- The whole-needle buffer holds the byte of offset `o` only at position `o % chunkSize`. -/
theorem directBuffer_label (pages : List (Page (Option Nat))) (hpages : ∀ p ∈ pages, LabelledPage p)
    {j : Nat} (h : (directBuffer none pages)[j]? = some (some o)) :
    j = o % chunkSize ∧ ∃ p ∈ pages, p.offset ≤ o ∧ o < p.offset + p.data.length := by
  -- invariant of the copy loop: a label in the buffer came from a page already copied
  suffices hloop : ∀ (ps : List (Page (Option Nat))) (buf : List (Option Nat)),
      (∀ p ∈ ps, LabelledPage p) → buf.length = chunkSize →
      (ps.foldl (fun buf p => overlay buf (p.offset % chunkSize) p.data) buf)[j]?
        = some (some o) →
      buf[j]? = some (some o) ∨
        (j = o % chunkSize ∧ ∃ p ∈ ps, p.offset ≤ o ∧ o < p.offset + p.data.length) by
    rcases hloop pages _ hpages (by simp) h with hinit | hcopied
    · rw [List.getElem?_replicate] at hinit
      split at hinit <;> simp at hinit
    · exact hcopied
  intro ps
  induction ps with
  | nil => exact fun buf _ _ hbuf => Or.inl hbuf
  | cons p ps ih =>
    intro buf hps hlen hfold
    have hp := hps p List.mem_cons_self
    have hfits := hp.fits
    rcases ih _ (fun q hq => hps q (List.mem_cons_of_mem p hq))
      (by rw [length_overlay (by omega), hlen]) hfold with hover | ⟨hj, q, hq, hqo⟩
    · by_cases hin : p.offset % chunkSize ≤ j ∧ j < p.offset % chunkSize + p.data.length
      · rw [getElem?_overlay_of_mem (by omega) hin.1 hin.2] at hover
        have hlabel := hover
        rw [hp.labels, List.getElem?_map, List.getElem?_range' (by omega)] at hlabel
        simp only [Option.map_some, Option.some.injEq] at hlabel
        have hmem := hp.mem (List.mem_of_getElem? hover)
        have hmod := mod_of_same_block hmem.1 (hp.same_chunk hmem.1 hmem.2)
        exact Or.inr ⟨by omega, p, List.mem_cons_self, hmem⟩
      · rw [getElem?_overlay_of_not_mem (by omega) (by omega)] at hover
        exact Or.inl hover
    · exact Or.inr ⟨hj, q, List.mem_cons_of_mem p hq, hqo⟩

/-- Pages whose labels run on without a gap. -/
def Gapless (ext : List (Page (Option Nat))) : Prop :=
  ∀ first rest, ext = first :: rest → ∃ len,
    ext.flatMap (·.data) = (List.range' first.offset len).map some ∧
    ∀ q, ext.getLast? = some q → first.offset + len = q.offset + q.data.length

theorem Gapless.append {ext : List (Page (Option Nat))}
    (hext : Gapless ext) (hp : LabelledPage p)
    (hjoin : ∀ q, ext.getLast? = some q → p.offset = q.offset + q.data.length) :
    Gapless (ext ++ [p]) := by
  intro first rest heq
  cases ext with
  | nil =>
    obtain ⟨rfl, rfl⟩ := heq
    refine ⟨p.data.length, by simpa using hp.labels, fun q hq => ?_⟩
    simp only [List.nil_append, List.getLast?_singleton, Option.some.injEq] at hq
    rw [hq]
  | cons f ext =>
    rw [List.cons_append, List.cons.injEq] at heq
    obtain ⟨rfl, rfl⟩ := heq
    obtain ⟨len, hlabels, hend⟩ := hext f ext rfl
    have hlast := (f :: ext).getLast?_eq_getLast_of_ne_nil (List.cons_ne_nil f ext)
    have hnext : p.offset = f.offset + len := (hjoin _ hlast).trans (hend _ hlast).symm
    refine ⟨len + p.data.length, ?_, fun q hq => ?_⟩
    · rw [List.flatMap_append, hlabels, List.flatMap_singleton, hp.labels, List.length_map,
        List.length_range', hnext, ← List.map_append, List.range'_append_1]
    · rw [List.getLast?_concat, Option.some.injEq] at hq
      rw [← hq, hnext, Nat.add_assoc]

theorem extentStep_cases (ext : List (Page α)) (p : Page α) :
    (p.data = [] ∧ extentStep ext p = (if ext.isEmpty then [] else [ext], [])) ∨
      (p.data ≠ [] ∧ (∀ q, ext.getLast? = some q → p.offset = q.offset + q.data.length) ∧
        extentStep ext p = ([], ext ++ [p])) ∨
      (p.data ≠ [] ∧ ext ≠ [] ∧ extentStep ext p = ([ext], [p])) := by
  unfold extentStep
  by_cases hempty : p.data.isEmpty = true
  · exact .inl ⟨List.isEmpty_iff.mp hempty, by simp [hempty]⟩
  · have hdata : p.data ≠ [] := fun h => hempty (List.isEmpty_iff.mpr h)
    by_cases hjoin : (ext.getLast?.all fun q => p.offset = q.offset + q.data.length) = true
    · refine .inr (.inl ⟨hdata, fun q hq => ?_, by simp [hempty, hjoin]⟩)
      simpa [hq] using hjoin
    · refine .inr (.inr ⟨hdata, ?_, by simp [hempty, hjoin]⟩)
      rintro rfl
      exact hjoin rfl

theorem blobExtents_gapless (pages ps : List (Page (Option Nat)))
    (hpages : ∀ p ∈ pages, LabelledPage p) :
    ∀ ext, (∀ p ∈ ps, p ∈ pages) → (∀ p ∈ ext, p ∈ pages) → Gapless ext →
      ∀ e ∈ blobExtents ps ext, e ≠ [] ∧ (∀ p ∈ e, p ∈ pages) ∧ Gapless e := by
  have hclose : ∀ ext, (∀ p ∈ ext, p ∈ pages) → Gapless ext →
      ∀ e ∈ (if ext.isEmpty then [] else [ext]), e ≠ [] ∧ (∀ p ∈ e, p ∈ pages) ∧ Gapless e := by
    intro ext hmem hgap e he
    split at he
    · cases he
    · next hne =>
      rw [List.mem_singleton.mp he]
      exact ⟨fun h0 => hne (by rw [h0]; rfl), hmem, hgap⟩
  induction ps with
  | nil => exact fun ext _ hmem hgap => hclose ext hmem hgap
  | cons p ps ih =>
    intro ext hps hmem hgap e he
    have hps' : ∀ q ∈ ps, q ∈ pages := fun q hq => hps q (List.mem_cons_of_mem p hq)
    have hp := hps p List.mem_cons_self
    have hsingle : Gapless ([] ++ [p]) :=
      Gapless.append (fun _ _ h => by cases h) (hpages p hp) (fun q hq => by cases hq)
    rw [blobExtents, List.mem_append] at he
    rcases extentStep_cases ext p with ⟨-, hr⟩ | ⟨-, hjoin, hr⟩ | ⟨-, hne, hr⟩
    · rw [hr] at he
      rcases he with he | he
      · exact hclose ext hmem hgap e he
      · exact ih [] hps' (by simp) (fun _ _ h => by cases h) e he
    · rw [hr] at he
      simp only [List.not_mem_nil, false_or] at he
      refine ih _ hps' (fun q hq => ?_) (hgap.append (hpages p hp) hjoin) e he
      rcases List.mem_append.mp hq with hq | hq
      · exact hmem q hq
      · exact List.mem_singleton.mp hq ▸ hp
    · rw [hr, List.mem_singleton] at he
      rcases he with rfl | he
      · exact ⟨hne, hmem, hgap⟩
      · exact ih [p] hps' (fun q hq => List.mem_singleton.mp hq ▸ hp) hsingle e he

/-- Whichever way a group is submitted, the byte of offset `o` goes to position `o % chunkSize`
of the group's needle. -/
theorem submitGroup_label {g : Group (Option Nat)}
    (hg : LabelledGroup pi g) {w : NeedleWrite (Option Nat)} (hw : w ∈ submitGroup isize none g)
    {j : Nat} (h : w.bytes[j]? = some (some o)) :
    w.place = g.1 ∧ w.offset + j = o % chunkSize ∧
      ∃ p ∈ g.2, p.offset ≤ o ∧ o < p.offset + p.data.length := by
  obtain ⟨first, rest, -, -, hall⟩ := hg
  have hpages : ∀ p ∈ g.2, LabelledPage p := fun p hp => (hall p hp).1
  simp only [submitGroup] at hw
  split at hw
  · rw [List.mem_singleton] at hw
    subst hw
    obtain ⟨hj, hp⟩ := directBuffer_label g.2 hpages h
    exact ⟨rfl, by rw [← hj]; exact Nat.zero_add j, hp⟩
  · rw [List.mem_map] at hw
    obtain ⟨ext, hext, rfl⟩ := hw
    obtain ⟨hne, hmem, hgap⟩ :=
      blobExtents_gapless g.2 g.2 hpages [] (fun _ hp => hp) (by simp) (fun _ _ h => by cases h)
        ext hext
    obtain ⟨e, tail, rfl⟩ := List.exists_cons_of_ne_nil hne
    obtain ⟨len, hlabels, -⟩ := hgap e tail rfl
    change ((e :: tail).flatMap (·.data))[j]? = some (some o) at h
    obtain ⟨p, hp, hpo⟩ := List.mem_flatMap.mp (List.mem_of_getElem? h)
    have hpo' := (hpages p (hmem p hp)).mem hpo
    -- `o` is the `j`-th label after the start of the extent, in the same chunk
    have hoj : o = e.offset + j := by
      rw [hlabels, List.getElem?_map] at h
      obtain ⟨x, hx, hxo⟩ := Option.map_eq_some_iff.mp h
      rw [Option.some.injEq] at hxo
      obtain ⟨hlt, hget⟩ := List.getElem?_eq_some_iff.mp hx
      rw [List.getElem_range'] at hget
      omega
    have he := hall e (hmem e List.mem_cons_self)
    have hchunk : e.offset / chunkSize = o / chunkSize := by
      rw [← he.2.2, (hall p (hmem p hp)).2.2,
        (hpages p (hmem p hp)).same_chunk hpo'.1 hpo'.2]
    refine ⟨rfl, ?_, p, hmem p hp, hpo'⟩
    have hmod := mod_of_same_block (show e.offset ≤ o by omega) hchunk
    change e.offset % chunkSize + j = o % chunkSize
    omega

theorem WritesAt.reaches {t : Place} (h : WritesAt pi o t) :
    Reaches (located pi) chunkSize maxOffset o t := by
  obtain ⟨batchPages, isize, isize', dirty, hsize, hsorted, hpages, batch, hbatch, w, hw, hplace,
    hoff, hbyte⟩ := h
  rw [writepages] at hbatch
  split at hbatch
  · cases hbatch
  have hb := collectBatches_labelled hsize dirty [] hsorted hpages .nil (by simp) batch hbatch
  rw [writepageWork, List.mem_flatMap] at hw
  obtain ⟨g, hg, hw⟩ := hw
  have hgroup := groupPages_labelled batch none hb (fun c hc => by cases hc) g hg
  obtain ⟨hwplace, hpos, p, hp, hpo⟩ := submitGroup_label hgroup hw hbyte
  obtain ⟨first, rest, -, hloc, hall⟩ := hgroup
  obtain ⟨hpage, hle, hchunk⟩ := hall p hp
  have hsame := hpage.same_chunk hpo.1 hpo.2
  have hbelow := hpage.below
  refine ⟨by omega, by omega, first.offset, by omega, hchunk.trans hsame, ?_⟩
  rw [hloc, ← hwplace, hplace]

end PowerFS.Data
