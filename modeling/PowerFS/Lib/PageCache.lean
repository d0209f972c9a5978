import Mathlib.Data.List.Basic

/-!
# A page cache over a backing store

A cache has a slot for each page: the page, if it is there, and its dirty mark. What a reader sees
is the page where there is one and the store elsewhere.
-/

namespace PageCache

variable {α : Type*}

structure Slot (α : Type*) where
  page : Option (ℕ → α)
  dirty : Bool

abbrev Cache (α : Type*) := ℕ → Slot α

/-- What a reader sees at offset `o`, with pages of size `P`. -/
def view (P : ℕ) (store : ℕ → α) (c : Cache α) (o : ℕ) : α :=
  (c (o / P)).page.elim (store o) fun page => page (o % P)

def modifyPages (change : ℕ → Slot α → Slot α) (pgs : List ℕ) (c : Cache α) : Cache α :=
  pgs.foldl (fun c pg => Function.update c pg (change pg (c pg))) c

/-- A page with `z` from `lo` up to `hi`. -/
def fillSegment (z : α) (lo hi : ℕ) (page : ℕ → α) : ℕ → α :=
  fun x => if lo ≤ x ∧ x < hi then z else page x

def cleaned (c : Cache α) : Cache α := fun pg => { c pg with dirty := false }

/-- The store after a writeback of the dirty pages, of which those in `ok` get there. -/
def flushed (P size : ℕ) (ok : ℕ → Bool) (c : Cache α) (store : ℕ → α) : ℕ → α :=
  fun o => if (c (o / P)).dirty ∧ ok (o / P) ∧ o < size then view P store c o else store o

def dropClean (c : Cache α) : Cache α := fun pg => if (c pg).dirty then c pg else ⟨none, false⟩

variable {P : ℕ} {store : ℕ → α} {c : Cache α} {o : ℕ}

theorem view_of_page {page : ℕ → α} (h : (c (o / P)).page = some page) :
    view P store c o = page (o % P) := by
  rw [view, h, Option.elim_some]

theorem view_of_none (h : (c (o / P)).page = none) : view P store c o = store o := by
  rw [view, h, Option.elim_none]

theorem view_eq_getD (P : ℕ) (store : ℕ → α) (c : Cache α) (o : ℕ) : view P store c o =
    ((c (o / P)).page.map fun page => page (o % P)).getD (store o) := by
  rw [view]
  cases (c (o / P)).page <;> rfl

theorem view_congr {c' : Cache α}
    (h : ((c' (o / P)).page.map fun page => page (o % P)) =
      (c (o / P)).page.map fun page => page (o % P)) : view P store c' o = view P store c o := by
  rw [view_eq_getD, view_eq_getD, h]

/-- Each page of the loop is changed once, from what it was at the start. -/
theorem modifyPages_apply (change : ℕ → Slot α → Slot α) {pgs : List ℕ} (hnd : pgs.Nodup)
    (c : Cache α) (pg : ℕ) :
    modifyPages change pgs c pg = if pg ∈ pgs then change pg (c pg) else c pg := by
  induction pgs generalizing c with
  | nil => rfl
  | cons p rest ih =>
    obtain ⟨hp, hrest⟩ := List.nodup_cons.mp hnd
    have hstep : modifyPages change (p :: rest) c =
        modifyPages change rest (Function.update c p (change p (c p))) := rfl
    rw [hstep, ih hrest]
    by_cases hpg : pg = p
    · subst hpg
      rw [if_neg hp, if_pos List.mem_cons_self, Function.update_self]
    · rw [Function.update_of_ne hpg]
      simp only [List.mem_cons, hpg, false_or]

/-- A writeback changes nothing for the reader, whether it succeeds or not. -/
theorem view_flushed (size : ℕ) (ok : ℕ → Bool) :
    view P (flushed P size ok c store) (cleaned c) o = view P store c o := by
  have hsame : (cleaned c (o / P)).page = (c (o / P)).page := rfl
  cases hpage : (c (o / P)).page with
  | some page => rw [view_of_page (hsame.trans hpage), view_of_page hpage]
  | none =>
    rw [view_of_none (hsame.trans hpage), view_of_none hpage, flushed]
    split
    · exact view_of_none hpage
    · rfl

/-- A reader who finds only the dirty pages in the cache. -/
theorem view_dropClean :
    view P store (dropClean c) o = if (c (o / P)).dirty then view P store c o else store o := by
  cases hdirty : (c (o / P)).dirty with
  | true => exact view_congr (by rw [dropClean, hdirty, if_pos rfl])
  | false => exact view_of_none (by rw [dropClean, hdirty, if_neg Bool.false_ne_true])

end PageCache
