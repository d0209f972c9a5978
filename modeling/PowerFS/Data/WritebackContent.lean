import Mathlib.Data.List.Chain
import PowerFS.Data.Placement

namespace PowerFS.Data

open Layout Overlay BlockMap

/-! What the requests of `powerfs_writepage_work_fn` put into the needles of a chunk. -/

variable {α : Type}

def landed (w : NeedleWrite α) : List (Place × α) :=
  (w.bytes.zipIdx w.offset).map fun e => ((w.place, e.2), e.1)

def pageAt (place : UInt64 × UInt64) (p : Page α) : List (Place × α) :=
  (p.data.zipIdx (p.offset % chunkSize)).map fun e => ((place, e.2), e.1)

def pagePlaced (pi : Inode) (p : Page α) : List (Place × α) :=
  (located pi p.offset).elim [] fun place => pageAt place p

/-- The requests put each byte of the dirty pages that is below the file size into the needle of
its page, at its position in the chunk, exactly once, and nothing else anywhere. -/
structure WritesExactly (pi : Inode) (isize : Nat) (content : Nat → α) (dirty : List Nat)
    (ws : List (NeedleWrite α)) : Prop where
  lands : ∀ (t : Place) (b : α), (t, b) ∈ ws.flatMap landed ↔
    ∃ q ∈ dirty, ∃ o, q ≤ o ∧ o < q + pageSize ∧ o < isize ∧
      located pi q = some t.1 ∧ t.2 = o % chunkSize ∧ b = content o
  once : ((ws.flatMap landed).map (·.1)).Nodup

structure ChunkPages (ps : List (Page α)) : Prop where
  fits : ∀ p ∈ ps, p.offset % chunkSize + p.data.length ≤ chunkSize
  apart : ps.Pairwise fun p q => p.offset + p.data.length ≤ q.offset
  chunk : ∀ p ∈ ps, ∀ q ∈ ps, p.offset / chunkSize = q.offset / chunkSize

theorem ChunkPages.sublist {ps qs : List (Page α)} (h : ChunkPages ps) (hsub : qs.Sublist ps) :
    ChunkPages qs where
  fits p hp := h.fits p (hsub.subset hp)
  apart := h.apart.sublist hsub
  chunk p hp q hq := h.chunk p (hsub.subset hp) q (hsub.subset hq)

theorem pageAt_of_empty (place : UInt64 × UInt64) {p : Page α} (h : p.data = []) :
    pageAt place p = [] := by
  simp [pageAt, h]

section Extents

variable {place : UInt64 × UInt64}

abbrev Joined (ext : List (Page α)) : Prop :=
  ext.IsChain fun p q => q.offset = p.offset + p.data.length

theorem landed_blobWrite {ext : List (Page α)} (hjoined : Joined ext)
    (hchunk : ∀ p ∈ ext, ∀ q ∈ ext, p.offset / chunkSize = q.offset / chunkSize) :
    landed (blobWrite place ext) = ext.flatMap (pageAt place) := by
  induction ext with
  | nil => rfl
  | cons p rest ih =>
    cases rest with
    | nil => simp [landed, blobWrite, pageAt]
    | cons q rest =>
      obtain ⟨hnext, htail⟩ := List.isChain_cons_cons.mp hjoined
      have hih := ih htail fun a ha b hb =>
        hchunk a (List.mem_cons_of_mem p ha) b (List.mem_cons_of_mem p hb)
      have hmod : q.offset % chunkSize = p.offset % chunkSize + p.data.length := by
        have := mod_of_same_block (show p.offset ≤ q.offset by omega)
          (hchunk p (by simp) q (by simp))
        omega
      have hfirst : landed (blobWrite place (p :: q :: rest)) =
          pageAt place p ++ landed (blobWrite place (q :: rest)) := by
        simp only [landed, blobWrite, pageAt, List.head?_cons, Option.elim_some]
        rw [List.flatMap_cons, List.zipIdx_append, List.map_append, hmod]
      rw [hfirst, hih, List.flatMap_cons (x := p)]

theorem blobExtents_landed (ps : List (Page α)) : ∀ ext : List (Page α), Joined ext →
    (∀ p ∈ ext ++ ps, ∀ q ∈ ext ++ ps, p.offset / chunkSize = q.offset / chunkSize) →
    (blobExtents ps ext).flatMap (fun e => landed (blobWrite place e)) =
      (ext ++ ps).flatMap (pageAt place) := by
  have hclose : ∀ ext : List (Page α), Joined ext →
      (∀ p ∈ ext, ∀ q ∈ ext, p.offset / chunkSize = q.offset / chunkSize) →
      (if ext.isEmpty then [] else [ext]).flatMap (fun e => landed (blobWrite place e)) =
        ext.flatMap (pageAt place) := by
    intro ext hjoined hchunk
    cases ext with
    | nil => rfl
    | cons p rest => exact (List.flatMap_singleton ..).trans (landed_blobWrite hjoined hchunk)
  induction ps with
  | nil =>
    intro ext hjoined hchunk
    rw [List.append_nil] at hchunk ⊢
    exact hclose ext hjoined hchunk
  | cons p ps ih =>
    intro ext hjoined hchunk
    have hext : ∀ a ∈ ext, ∀ b ∈ ext, a.offset / chunkSize = b.offset / chunkSize :=
      fun a ha b hb => hchunk a (List.mem_append_left _ ha) b (List.mem_append_left _ hb)
    have hrest : ∀ a ∈ p :: ps, ∀ b ∈ p :: ps, a.offset / chunkSize = b.offset / chunkSize :=
      fun a ha b hb => hchunk a (List.mem_append_right _ ha) b (List.mem_append_right _ hb)
    rw [blobExtents, List.flatMap_append]
    obtain ⟨hempty, hr⟩ | ⟨-, hjoin, hr⟩ | ⟨-, -, hr⟩ := extentStep_cases ext p
    · -- an empty page closes the extent and lands nowhere
      rw [hr, hclose ext hjoined hext, ih [] .nil fun a ha b hb =>
        hrest a (List.mem_cons_of_mem p ha) b (List.mem_cons_of_mem p hb)]
      rw [List.nil_append, List.flatMap_append, List.flatMap_cons,
        pageAt_of_empty place hempty, List.nil_append]
    · have hgrown : Joined (ext ++ [p]) := by
        refine List.isChain_append.mpr ⟨hjoined, .singleton p, fun q hq r hr => ?_⟩
        cases hr
        exact hjoin q hq
      have hassoc : ext ++ [p] ++ ps = ext ++ p :: ps := by simp
      rw [hr, ih _ hgrown (by rw [hassoc]; exact hchunk), hassoc]
      rfl
    · rw [hr, List.flatMap_singleton, landed_blobWrite hjoined hext,
        ih [p] (.singleton p) hrest, ← List.flatMap_append]
      rfl

end Extents

/-- The pages cover the range from `x` to `stop`, one after the other. -/
inductive Tiles (stop : Nat) : Nat → List (Page α) → Prop where
  | nil : Tiles stop stop []
  | empty {x : Nat} {p : Page α} {ps : List (Page α)} (h : p.data = []) (rest : Tiles stop x ps) :
      Tiles stop x (p :: ps)
  | page {p : Page α} {ps : List (Page α)} (rest : Tiles stop (p.offset + p.data.length) ps) :
      Tiles stop p.offset (p :: ps)

namespace Tiles

variable {start stop x : Nat} {ps : List (Page α)}

theorem le (h : Tiles stop x ps) : x ≤ stop := by
  induction h with
  | nil => exact Nat.le_refl _
  | empty _ _ ih => exact ih
  | page _ ih => omega

theorem of_coverLoop {ps : List (Page α)} : ∀ {x : Nat}, x ≤ stop →
    (∀ p ∈ ps, x ≤ p.offset) → ps.Pairwise (fun p q => p.offset + p.data.length ≤ q.offset) →
    coverLoop start stop ps x = true → Tiles stop x ps := by
  induction ps with
  | nil =>
    intro x hle _ _ h
    rw [coverLoop, decide_eq_true_eq] at h
    obtain rfl : x = stop := by omega
    exact .nil
  | cons p ps ih =>
    intro x hle hbehind hapart h
    rw [List.pairwise_cons] at hapart
    rw [coverLoop] at h
    split at h
    · next hempty =>
      exact .empty (List.isEmpty_iff.mp hempty)
        (ih hle (fun q hq => hbehind q (List.mem_cons_of_mem p hq)) hapart.2 h)
    · split at h
      · cases h
      split at h
      · cases h
      · next hout hgap =>
        have hfirst := hbehind p List.mem_cons_self
        obtain rfl : x = p.offset := by omega
        rw [Nat.max_eq_right (Nat.le_add_right _ _)] at h
        exact .page (ih (by omega) hapart.1 hapart.2 h)

section

variable (h : Tiles stop x ps) (hstart : start ≤ x)
  (hmod : ∀ p ∈ ps, p.offset % chunkSize = p.offset - start)
include h hstart hmod

theorem zipIdx_eq : (ps.flatMap (·.data)).zipIdx (x - start) =
      ps.flatMap fun p => p.data.zipIdx (p.offset % chunkSize) := by
  induction h with
  | nil => rfl
  | @empty x p ps hempty _ ih =>
    rw [List.flatMap_cons, List.flatMap_cons, hempty, List.nil_append,
      ih hstart fun q hq => hmod q (List.mem_cons_of_mem p hq)]
    rfl
  | @page p ps _ ih =>
    rw [List.flatMap_cons, List.flatMap_cons, List.zipIdx_append, hmod p List.mem_cons_self,
      ← ih (by omega) fun q hq => hmod q (List.mem_cons_of_mem p hq),
      Nat.sub_add_comm hstart]

theorem foldl_overlay : ∀ buf : List α,
    buf.length = stop - start →
    ps.foldl (fun buf p => overlay buf (p.offset % chunkSize) p.data) buf =
      buf.take (x - start) ++ ps.flatMap (·.data) := by
  induction h with
  | nil =>
    intro buf hlen
    rw [List.foldl_nil, List.flatMap_nil, List.append_nil, ← hlen, List.take_length]
  | @empty x p ps hempty _ ih =>
    intro buf hlen
    rw [List.foldl_cons, hempty, overlay_nil,
      ih hstart (fun q hq => hmod q (List.mem_cons_of_mem p hq)) buf hlen, List.flatMap_cons,
      hempty, List.nil_append]
  | @page p ps rest ih =>
    intro buf hlen
    have hle := rest.le
    rw [List.foldl_cons, hmod p List.mem_cons_self,
      ih (by omega) (fun q hq => hmod q (List.mem_cons_of_mem p hq)) _
        (by rw [length_overlay (by omega), hlen]),
      Nat.sub_add_comm hstart, take_overlay (by omega), List.append_assoc, List.flatMap_cons]

end

end Tiles

theorem ChunkPages.from_start {ps : List (Page α)} (h : ChunkPages ps) {first p : Page α}
    (hfirst : first ∈ ps) (hp : p ∈ ps) :
    first.offset - first.offset % chunkSize ≤ p.offset ∧
      p.offset % chunkSize = p.offset - (first.offset - first.offset % chunkSize) := by
  have hsame := Nat.mod_add_div first.offset chunkSize
  have hown := Nat.mod_add_div p.offset chunkSize
  rw [h.chunk first hfirst p hp] at hsame
  omega

theorem submitGroup_landed {isize : Nat} {zero : α} {g : Group α} (hpages : ChunkPages g.2)
    (hne : g.2 ≠ []) :
    (submitGroup isize zero g).flatMap landed = g.2.flatMap (pageAt g.1) := by
  obtain ⟨first, rest, hg⟩ := List.exists_cons_of_ne_nil hne
  simp only [submitGroup]
  split
  · next hcover =>
    rw [hg] at hcover
    set start := first.offset - first.offset % chunkSize with hstart
    simp only [needleFullCoverage, Bool.and_eq_true, decide_eq_true_eq] at hcover
    obtain ⟨hlen, hcover⟩ := hcover
    rw [hlen] at hcover
    have hfirst : first ∈ g.2 := by rw [hg]; exact List.mem_cons_self
    have hmod : ∀ p ∈ g.2, p.offset % chunkSize = p.offset - start := fun p hp =>
      (hpages.from_start hfirst hp).2
    have hbehind : ∀ p ∈ g.2, start ≤ p.offset := fun p hp => (hpages.from_start hfirst hp).1
    have htiles : Tiles (start + chunkSize) start g.2 :=
      .of_coverLoop (Nat.le_add_right _ _) hbehind hpages.apart (by rw [hg]; exact hcover)
    have hbuffer : directBuffer zero g.2 = g.2.flatMap (·.data) := by
      have := htiles.foldl_overlay (Nat.le_refl _) hmod (List.replicate chunkSize zero)
        (by rw [List.length_replicate]; omega)
      rwa [Nat.sub_self] at this
    have hpos := htiles.zipIdx_eq (Nat.le_refl _) hmod
    rw [Nat.sub_self] at hpos
    rw [List.flatMap_singleton, landed]
    simp only [hbuffer, hpos, List.map_flatMap]
    rfl
  · rw [List.flatMap_map]
    exact blobExtents_landed g.2 [] .nil hpages.chunk

section Groups

variable {pi : Inode}

theorem groupPages_sublist (ps : List (Page α)) : ∀ cur : Option (Group α),
    (∀ c ∈ cur, c.2 ≠ []) → ∀ g ∈ groupPages pi ps cur,
      g.2.Sublist (cur.elim [] (·.2) ++ ps) ∧ g.2 ≠ [] := by
  induction ps with
  | nil =>
    intro cur hcur g hg
    rw [groupPages, splitGroups, Option.mem_toList] at hg
    cases hg
    exact ⟨by simp, hcur g rfl⟩
  | cons p ps ih =>
    intro cur hcur g hg
    rw [groupPages_cons, List.mem_append] at hg
    obtain ⟨rfl, -, hr⟩ | ⟨c, rfl, -, hr⟩ | ⟨place, -, hr⟩ := groupStep_cases pi cur p
    · rw [hr] at hg
      obtain ⟨hsub, hne⟩ := ih none (by simp) g (hg.resolve_left List.not_mem_nil)
      exact ⟨hsub.trans (List.sublist_cons_self p ps), hne⟩
    · rw [hr] at hg
      obtain ⟨hsub, hne⟩ := ih _ (fun c' hc => by cases hc; simp) g
        (hg.resolve_left List.not_mem_nil)
      exact ⟨by simpa using hsub, hne⟩
    · rw [hr] at hg
      obtain hg | hg := hg
      · cases Option.mem_toList.mp hg
        exact ⟨List.sublist_append_left _ _, hcur g rfl⟩
      · obtain ⟨hsub, hne⟩ := ih _ (fun c hc => by cases hc; simp) g hg
        exact ⟨hsub.trans (List.sublist_append_right _ _), hne⟩

theorem pagePlaced_of_unplaced {p : Page α} (h : Unplaced pi p) : pagePlaced pi p = [] := by
  obtain hempty | hnone := h
  · rw [pagePlaced]
    cases located pi p.offset with
    | none => rfl
    | some place => exact pageAt_of_empty place hempty
  · rw [pagePlaced, hnone]
    rfl

theorem pagePlaced_of_located {p : Page α} {place : UInt64 × UInt64}
    (h : located pi p.offset = some place) : pagePlaced pi p = pageAt place p := by
  rw [pagePlaced, h]
  rfl

theorem groupPages_unplaced (ps : List (Page α)) (h : ∀ p ∈ ps, Unplaced pi p) :
    groupPages pi ps none = [] := by
  induction ps with
  | nil => rfl
  | cons p ps ih =>
    have hstep : groupStep pi none p = ([], none) := by
      obtain hempty | hnone := h p List.mem_cons_self
      · simp [groupStep, splitStep, placeIn, hempty]
      · simp [groupStep, splitStep, placeIn, hnone]
    rw [groupPages_cons, hstep]
    exact ih fun q hq => h q (List.mem_cons_of_mem p hq)

theorem groupPages_placed (ps : List (Page α)) : ∀ cur : Option (Group α),
    (∀ p ∈ ps, located pi p.offset ≠ none) →
    (groupPages pi ps cur).flatMap (fun g => g.2.flatMap (pageAt g.1)) =
      cur.toList.flatMap (fun g => g.2.flatMap (pageAt g.1)) ++ ps.flatMap (pagePlaced pi) := by
  induction ps with
  | nil =>
    intro cur _
    rw [groupPages, splitGroups, List.flatMap_nil, List.append_nil]
  | cons p ps ih =>
    intro cur hloc
    have hps : ∀ q ∈ ps, located pi q.offset ≠ none := fun q hq =>
      hloc q (List.mem_cons_of_mem p hq)
    rw [groupPages_cons, List.flatMap_append, List.flatMap_cons]
    obtain ⟨rfl, hun, hr⟩ | ⟨c, rfl, hin, hr⟩ | ⟨place, ⟨-, hplace⟩, hr⟩ := groupStep_cases pi cur p
    · rw [hr, ih none hps, pagePlaced_of_unplaced hun]
      rfl
    · have hpage : pagePlaced pi p = pageAt c.1 p := by
        obtain (hempty | hnone) | hplace := hin
        · rw [pagePlaced_of_unplaced (.inl hempty), pageAt_of_empty c.1 hempty]
        · exact absurd hnone (hloc p List.mem_cons_self)
        · exact pagePlaced_of_located hplace
      rw [hr, ih _ hps, hpage]
      simp [List.flatMap_append]
    · rw [hr, ih _ hps, pagePlaced_of_located hplace]
      simp

end Groups

theorem located_eq_none_congr {pi : Inode} (hsize : pi.chunkSz = chunkSize) {o o' : Nat}
    (h : o / chunkSize = o' / chunkSize) : located pi o = none ↔ located pi o' = none := by
  simp only [located, locateChunk, hsize, h]
  split
  · rfl
  · split
    · rfl
    · split
      · simp [Except.toOption]
      · rfl

theorem writepageWork_landed {pi : Inode} {isize : Nat} {zero : α} {batch : List (Page α)}
    (hsize : pi.chunkSz = chunkSize) (hpages : ChunkPages batch) :
    (writepageWork pi isize zero batch).flatMap landed = batch.flatMap (pagePlaced pi) := by
  have hgroups : (writepageWork pi isize zero batch).flatMap landed =
      (groupPages pi batch none).flatMap fun g => g.2.flatMap (pageAt g.1) := by
    rw [writepageWork, List.flatMap_assoc]
    apply List.flatMap_congr
    intro g hg
    obtain ⟨hsub, hne⟩ := groupPages_sublist batch none (by simp) g hg
    exact submitGroup_landed (hpages.sublist hsub) hne
  rw [hgroups]
  by_cases hloc : ∃ p ∈ batch, located pi p.offset = none
  · obtain ⟨p, hp, hnone⟩ := hloc
    have hall : ∀ q ∈ batch, Unplaced pi q := fun q hq =>
      .inr ((located_eq_none_congr hsize (hpages.chunk p hp q hq)).mp hnone)
    rw [groupPages_unplaced batch hall]
    exact (List.flatMap_eq_nil_iff.mpr fun q hq => pagePlaced_of_unplaced (hall q hq)).symm
  · refine (groupPages_placed batch none fun q hq hnone => hloc ⟨q, hq, hnone⟩).trans ?_
    rfl

section Cached

variable {pi : Inode} {isize : Nat} {content : Nat → α} {dirty : List Nat}

theorem chunkPages_cached {c : Nat} (haligned : ∀ q ∈ dirty, pageSize ∣ q)
    (hsorted : dirty.Pairwise (· < ·)) (hchunk : ∀ q ∈ dirty, q / chunkSize = c) :
    ChunkPages (dirty.map (cachedPage content isize)) where
  fits := by
    rw [List.forall_mem_map]
    intro q hq
    have hfits := page_fits (haligned q hq)
    rw [cachedPage_length]
    show q % chunkSize + min pageSize (isize - q) ≤ chunkSize
    omega
  apart := by
    rw [List.pairwise_map]
    refine hsorted.imp_of_mem fun {q r} hq hr hlt => ?_
    have hstep : q + pageSize ≤ r := by
      obtain ⟨a, rfl⟩ := haligned q hq
      obtain ⟨b, rfl⟩ := haligned r hr
      exact Nat.mul_le_mul_left _ (Nat.lt_of_mul_lt_mul_left hlt)
    rw [cachedPage_length]
    show q + min pageSize (isize - q) ≤ r
    omega
  chunk := by
    simp only [List.forall_mem_map]
    intro q hq r hr
    exact (hchunk q hq).trans (hchunk r hr).symm

theorem mem_pagePlaced_cached {q : Nat} (hq : pageSize ∣ q) {t : Place} {b : α} :
    (t, b) ∈ pagePlaced pi (cachedPage content isize q) ↔
      ∃ o, q ≤ o ∧ o < q + pageSize ∧ o < isize ∧ located pi q = some t.1 ∧
        t.2 = o % chunkSize ∧ b = content o := by
  have hfits := page_fits hq
  have hmod : ∀ j < pageSize, (q + j) % chunkSize = q % chunkSize + j := by
    intro j hj
    rw [Nat.add_mod, Nat.mod_eq_of_lt (show j < chunkSize by omega), Nat.mod_eq_of_lt (by omega)]
  show (t, b) ∈ (located pi q).elim [] _ ↔ _
  cases located pi q with
  | none => simp
  | some place =>
    obtain ⟨place', x⟩ := t
    simp only [Option.elim_some, pageAt, List.mem_map, Prod.exists, Prod.mk.injEq,
      List.mk_mem_zipIdx_iff_le_and_getElem?_sub, cachedPage, List.getElem?_map,
      Option.map_eq_some_iff, Option.some.injEq]
    constructor
    · rintro ⟨b, x, ⟨hle, o, ho, rfl⟩, ⟨rfl, rfl⟩, rfl⟩
      obtain ⟨hlt, rfl⟩ := List.getElem?_eq_some_iff.mp ho
      rw [List.length_range'] at hlt
      rw [List.getElem_range']
      refine ⟨_, Nat.le_add_right _ _, by omega, by omega, rfl, ?_, rfl⟩
      rw [hmod _ (by omega)]
      omega
    · rintro ⟨o, hlo, hhi, hbelow, rfl, rfl, rfl⟩
      obtain ⟨j, rfl⟩ := Nat.exists_eq_add_of_le hlo
      rw [hmod j (by omega)]
      refine ⟨_, _, ⟨Nat.le_add_right _ _, q + j, ?_, rfl⟩, ⟨rfl, rfl⟩, rfl⟩
      rw [Nat.add_sub_cancel_left, List.getElem?_range' (by omega), Nat.one_mul]

theorem pagePlaced_places (p : Page α) : (pagePlaced pi p).map (·.1) =
    (located pi p.offset).elim [] fun place =>
      (List.range' (p.offset % chunkSize) p.data.length).map fun x => (place, x) := by
  rw [pagePlaced]
  cases located pi p.offset with
  | none => rfl
  | some place =>
    simp only [Option.elim_some, pageAt, List.map_map, ← List.zipIdx_map_snd]
    rfl

theorem ChunkPages.places_nodup {ps : List (Page α)} (h : ChunkPages ps) :
    ((ps.flatMap (pagePlaced pi)).map (·.1)).Nodup := by
  rw [List.map_flatMap, List.nodup_flatMap]
  refine ⟨fun p _ => ?_, h.apart.imp_of_mem fun {p q} hp hq hpq => ?_⟩
  · rw [pagePlaced_places]
    cases located pi p.offset with
    | none => exact List.nodup_nil
    | some place =>
      have hrange : (List.range' (p.offset % chunkSize) p.data.length).Nodup := List.nodup_range'
      exact hrange.map fun x y hxy => congrArg Prod.snd hxy
  · have hmod := mod_of_same_block (show p.offset ≤ q.offset by omega) (h.chunk p hp q hq)
    have hpos : ∀ {r : Page α} {t : Place}, t ∈ (pagePlaced pi r).map (·.1) →
        r.offset % chunkSize ≤ t.2 ∧ t.2 < r.offset % chunkSize + r.data.length := by
      intro r t ht
      rw [pagePlaced_places] at ht
      cases hloc : located pi r.offset with
      | none => simp [hloc] at ht
      | some place =>
        simp only [hloc, Option.elim_some, List.mem_map, List.mem_range'_1] at ht
        obtain ⟨x, hx, rfl⟩ := ht
        exact hx
    intro t htp htq
    have hp' := hpos htp
    have hq' := hpos htq
    omega

end Cached

/-- The dirty pages of a chunk are written back byte for byte, whatever the file size is by the
time the batch is worked on. -/
theorem writesExactly_writepageWork (pi : Inode) (isize isize' : Nat) (content : Nat → α) (zero : α)
    (dirty : List Nat) (c : Nat) (hsize : pi.chunkSz = chunkSize)
    (haligned : ∀ q ∈ dirty, pageSize ∣ q) (hsorted : dirty.Pairwise (· < ·))
    (hchunk : ∀ q ∈ dirty, q / chunkSize = c) :
    WritesExactly pi isize content dirty
      (writepageWork pi isize' zero (dirty.map (cachedPage content isize))) := by
  have hpages : ChunkPages (dirty.map (cachedPage content isize)) :=
    chunkPages_cached haligned hsorted hchunk
  have hlanded : (writepageWork pi isize' zero (dirty.map (cachedPage content isize))).flatMap
      landed = (dirty.map (cachedPage content isize)).flatMap (pagePlaced pi) :=
    writepageWork_landed hsize hpages
  constructor
  · intro t b
    rw [hlanded, List.flatMap_map, List.mem_flatMap]
    apply exists_congr
    intro q
    exact and_congr_right fun hq => mem_pagePlaced_cached (haligned q hq)
  · rw [hlanded]
    exact hpages.places_nodup

theorem writesExactly_twoPages : WritesExactly mappedInode 8193 UInt8.ofNat [0, 8192]
    (writepageWork mappedInode 8193 0 ([0, 8192].map (cachedPage UInt8.ofNat 8193))) :=
  writesExactly_writepageWork mappedInode 8193 8193 UInt8.ofNat 0 [0, 8192] 0 (by decide)
    (by decide) (by decide) (by decide)

end PowerFS.Data
