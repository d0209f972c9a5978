import Mathlib.Data.Tree.Basic
import Mathlib.Order.Lattice

/-!
# Search trees with a key

A binary tree whose values have a key, searched from the root. Rotations keep `inorder`, and what a
search finds in a tree whose values are sorted depends on nothing else.
-/

namespace SearchTree

variable {α κ : Type*} [LinearOrder κ] {key : α → κ} {x : α} {t : BinaryTree α}

/-- The values from left to right. -/
def inorder : BinaryTree α → List α
  | .nil => []
  | .node x l r => inorder l ++ x :: inorder r

def insertLeaf (key : α → κ) (x : α) : BinaryTree α → BinaryTree α
  | .nil => .node x .nil .nil
  | .node y l r =>
    if key x < key y then .node y (insertLeaf key x l) r else .node y l (insertLeaf key x r)

/-- The first value with the key `k` on the way down. -/
def find (key : α → κ) (k : κ) : BinaryTree α → Option α
  | .nil => none
  | .node y l r => if k < key y then find key k l else if key y < k then find key k r else some y

def Sorted (key : α → κ) (l : List α) : Prop := l.Pairwise fun x y => key x < key y

theorem sorted_middle {l r : List α} :
    Sorted key (l ++ x :: r) ↔
      Sorted key l ∧ Sorted key r ∧ (∀ y ∈ l, key y < key x) ∧ ∀ y ∈ r, key x < key y := by
  rw [Sorted, List.pairwise_append, List.pairwise_cons]
  constructor
  · rintro ⟨hl, ⟨hx, hr⟩, hlr⟩
    exact ⟨hl, hr, fun y hy => hlr y hy x List.mem_cons_self, hx⟩
  · rintro ⟨hl, hr, hlx, hx⟩
    refine ⟨hl, ⟨hx, hr⟩, fun y hy z hz => ?_⟩
    obtain rfl | hz := List.mem_cons.mp hz
    · exact hlx y hy
    · exact (hlx y hy).trans (hx z hz)

theorem mem_of_find {k : κ} (h : find key k t = some x) : x ∈ inorder t := by
  induction t with
  | nil => cases h
  | node y l r ihl ihr =>
    rw [find] at h
    rw [inorder, List.mem_append, List.mem_cons]
    split_ifs at h
    · exact .inl (ihl h)
    · exact .inr (.inr (ihr h))
    · cases h
      exact .inr (.inl rfl)

theorem find_of_sorted (h : Sorted key (inorder t)) (hx : x ∈ inorder t) :
    find key (key x) t = some x := by
  induction t with
  | nil => cases hx
  | node y l r ihl ihr =>
    obtain ⟨hl, hr, hless, hmore⟩ := sorted_middle.mp h
    obtain hx | hx := List.mem_append.mp hx
    · rw [find, if_pos (hless x hx)]
      exact ihl hl hx
    · obtain rfl | hx := List.mem_cons.mp hx
      · rw [find, if_neg (lt_irrefl _), if_neg (lt_irrefl _)]
      · rw [find, if_neg (hmore x hx).not_gt, if_pos (hmore x hx)]
        exact ihr hr hx

/-- Every value is found by its key just in a search tree without double keys. -/
theorem find_iff_sorted (hnodup : (inorder t).Nodup) :
    (∀ x ∈ inorder t, find key (key x) t = some x) ↔ Sorted key (inorder t) := by
  refine ⟨fun h => ?_, fun h x hx => find_of_sorted h hx⟩
  induction t with
  | nil => exact List.Pairwise.nil
  | node y l r ihl ihr =>
    obtain ⟨hl, hyr, hlr⟩ := List.nodup_append.mp hnodup
    obtain ⟨hyr, hr⟩ := List.nodup_cons.mp hyr
    have hleft : ∀ x ∈ inorder l, key x < key y ∧ find key (key x) l = some x := by
      intro x hx
      have hfind := h x (List.mem_append_left _ hx)
      rw [find] at hfind
      split_ifs at hfind with hlt hgt
      · exact ⟨hlt, hfind⟩
      · exact absurd rfl (hlr x hx x (List.mem_cons_of_mem _ (mem_of_find hfind)))
      · exact absurd (Option.some.inj hfind).symm (hlr x hx y List.mem_cons_self)
    have hright : ∀ x ∈ inorder r, key y < key x ∧ find key (key x) r = some x := by
      intro x hx
      have hfind := h x (List.mem_append_right _ (List.mem_cons_of_mem _ hx))
      rw [find] at hfind
      split_ifs at hfind with hlt hgt
      · exact absurd rfl (hlr x (mem_of_find hfind) x (List.mem_cons_of_mem _ hx))
      · exact ⟨hgt, hfind⟩
      · exact absurd hx (Option.some.inj hfind ▸ hyr)
    exact sorted_middle.mpr ⟨ihl hl fun x hx => (hleft x hx).2, ihr hr fun x hx => (hright x hx).2,
      fun x hx => (hleft x hx).1, fun x hx => (hright x hx).1⟩

theorem inorder_insertLeaf (key : α → κ) (x : α) (t : BinaryTree α) :
    (inorder (insertLeaf key x t)).Perm (x :: inorder t) := by
  induction t with
  | nil => exact List.Perm.refl _
  | node y l r ihl ihr =>
    rw [insertLeaf]
    split_ifs
    · exact ihl.append_right _
    · have hfront : (y :: inorder (insertLeaf key x r)).Perm (x :: y :: inorder r) :=
        (ihr.cons y).trans (List.Perm.swap x y _)
      exact (hfront.append_left _).trans List.perm_middle

theorem sorted_insertLeaf_iff (h : Sorted key (inorder t)) :
    Sorted key (inorder (insertLeaf key x t)) ↔ ∀ y ∈ inorder t, key y ≠ key x := by
  induction t with
  | nil => simp [insertLeaf, inorder, Sorted]
  | node z l r ihl ihr =>
    obtain ⟨hl, hr, hless, hmore⟩ := sorted_middle.mp h
    rw [insertLeaf]
    split_ifs with hlt
    · have hright : ∀ y ∈ inorder r, key y ≠ key x := fun y hy =>
        (hlt.trans (hmore y hy)).ne'
      rw [inorder, sorted_middle, ihl hl]
      constructor
      · rintro ⟨hnew, -, -, -⟩ y hy
        obtain hy | hy := List.mem_append.mp hy
        · exact hnew y hy
        · obtain rfl | hy := List.mem_cons.mp hy
          · exact hlt.ne'
          · exact hright y hy
      · intro hnew
        refine ⟨fun y hy => hnew y (List.mem_append_left _ hy), hr, fun y hy => ?_, hmore⟩
        obtain rfl | hy := List.mem_cons.mp ((inorder_insertLeaf key x l).mem_iff.mp hy)
        · exact hlt
        · exact hless y hy
    · have hleft : ∀ y ∈ inorder l, key y ≠ key x := fun y hy =>
        ((hless y hy).trans_le (not_lt.mp hlt)).ne
      rw [inorder, sorted_middle, ihr hr]
      constructor
      · rintro ⟨-, hnew, -, hbehind⟩ y hy
        obtain hy | hy := List.mem_append.mp hy
        · exact hleft y hy
        · obtain rfl | hy := List.mem_cons.mp hy
          · exact (hbehind x ((inorder_insertLeaf key x r).mem_iff.mpr List.mem_cons_self)).ne
          · exact hnew y hy
      · intro hnew
        have hz : key z ≠ key x := hnew z (List.mem_append_right _ List.mem_cons_self)
        refine ⟨hl, fun y hy => ?_, hless, fun y hy => ?_⟩
        · exact hnew y (List.mem_append_right _ (List.mem_cons_of_mem _ hy))
        · obtain rfl | hy := List.mem_cons.mp ((inorder_insertLeaf key x r).mem_iff.mp hy)
          · exact lt_of_le_of_ne (not_lt.mp hlt) hz
          · exact hmore y hy

variable [DecidableEq α]

/-- A new key for one value keeps the list sorted just if it keeps the value's place. -/
theorem sorted_update_iff {l : List α} {k : κ} (h : Sorted key l) (hx : x ∈ l) :
    Sorted (Function.update key x k) l ↔
      ∀ y ∈ l, y ≠ x → key y ≠ k ∧ (key y < k ↔ key y < key x) := by
  obtain ⟨l, r, rfl⟩ := List.append_of_mem hx
  obtain ⟨hl, hr, hless, hmore⟩ := sorted_middle.mp h
  have hne_left : ∀ y ∈ l, y ≠ x := by
    rintro y hy rfl
    exact absurd rfl (hless y hy).ne
  have hne_right : ∀ y ∈ r, y ≠ x := by
    rintro y hy rfl
    exact absurd rfl (hmore y hy).ne
  have hsame {l' : List α} (hne : ∀ y ∈ l', y ≠ x) (hsorted : Sorted key l') :
      Sorted (Function.update key x k) l' := by
    refine hsorted.imp_of_mem fun hy hz hlt => ?_
    rwa [Function.update_of_ne (hne _ hy), Function.update_of_ne (hne _ hz)]
  rw [sorted_middle, Function.update_self]
  constructor
  · rintro ⟨-, -, hless', hmore'⟩ y hy hne
    rw [List.mem_append, List.mem_cons] at hy
    obtain hy | rfl | hy := hy
    · have hlt := hless' y hy
      rw [Function.update_of_ne hne] at hlt
      exact ⟨hlt.ne, iff_of_true hlt (hless y hy)⟩
    · exact absurd rfl hne
    · have hlt := hmore' y hy
      rw [Function.update_of_ne hne] at hlt
      exact ⟨hlt.ne', iff_of_false hlt.not_gt (hmore y hy).not_gt⟩
  · intro hplace
    refine ⟨hsame hne_left hl, hsame hne_right hr, fun y hy => ?_, fun y hy => ?_⟩
    · rw [Function.update_of_ne (hne_left y hy)]
      exact (hplace y (List.mem_append_left _ hy) (hne_left y hy)).2.mpr (hless y hy)
    · rw [Function.update_of_ne (hne_right y hy)]
      obtain ⟨hne, hlt⟩ := hplace y (by simp [hy]) (hne_right y hy)
      exact lt_of_le_of_ne (not_lt.mp fun h => (hmore y hy).not_gt (hlt.mp h)) hne.symm

end SearchTree
