import PowerFS.Lib.KeyedList

/-!
# Association tables

Finite maps as lists of pairs in which no key occurs twice.
-/

/-- A finite map from `κ` to `ν`. -/
structure AssocTable (κ ν : Type*) where
  entries : List (κ × ν)
  distinct : KeyedList.Distinct Prod.fst entries

namespace AssocTable

open KeyedList

variable {κ ν : Type*}

def empty : AssocTable κ ν := ⟨[], List.nodup_nil⟩

def keys (t : AssocTable κ ν) : List κ := t.entries.map Prod.fst

theorem nodup_keys (t : AssocTable κ ν) : t.keys.Nodup := t.distinct

variable [DecidableEq κ]

def get (t : AssocTable κ ν) (k : κ) : Option ν := (view Prod.fst t.entries k).map Prod.snd

/-- Replaces the value of a key in its place, or adds the key at the end. -/
def put (t : AssocTable κ ν) (k : κ) (v : ν) : AssocTable κ ν :=
  if h : view Prod.fst t.entries k = none then ⟨t.entries ++ [(k, v)], t.distinct.append_new h⟩
  else ⟨updateFirst (fun p => p.1 = k) (fun p => (p.1, v)) t.entries,
    t.distinct.updateFirst fun _ => rfl⟩

def erase (t : AssocTable κ ν) (k : κ) : AssocTable κ ν :=
  ⟨t.entries.filter fun p => p.1 ≠ k, t.distinct.filter⟩

variable (t : AssocTable κ ν) (k k' : κ) (v : ν)

@[simp] theorem get_empty : (empty : AssocTable κ ν).get k = none := rfl

theorem get_put : (t.put k v).get k' = if k' = k then some v else t.get k' := by
  unfold put
  split
  · next h =>
    rw [get, view_append_new h]
    split
    · rfl
    · rfl
  · next h =>
    obtain ⟨p, hp⟩ := Option.ne_none_iff_exists'.mp h
    have hview : view Prod.fst (updateFirst (fun p => p.1 = k) (fun p => (p.1, v)) t.entries) k' =
        if k' = k then (view Prod.fst t.entries k).map (fun p => (p.1, v))
        else view Prod.fst t.entries k' := by
      apply view_updateFirst
      intro p
      rfl
    rw [get, hview]
    split
    · rw [hp]
      rfl
    · rfl

@[simp] theorem get_put_self : (t.put k v).get k = some v := by
  rw [get_put, if_pos rfl]

variable {k k'}

@[simp] theorem get_put_of_ne (h : k' ≠ k) : (t.put k v).get k' = t.get k' := by
  rw [get_put, if_neg h]

variable (k k')

theorem get_eq_none_iff : t.get k = none ↔ k ∉ t.keys := by
  simp only [get, Option.map_eq_none_iff, view_eq_none_iff, keys, List.mem_map, not_exists, not_and]

theorem get_erase : (t.erase k).get k' = if k' = k then none else t.get k' := by
  split
  · next h =>
    subst h
    rw [get_eq_none_iff]
    simp [erase, keys]
  · next h =>
    have hview : view Prod.fst (t.entries.filter fun p => p.1 ≠ k) k' =
        view Prod.fst t.entries k' := by
      rw [view, List.find?_filter]
      congr 1
      funext p
      by_cases hp : p.1 = k'
      · simp [hp, h]
      · simp [hp]
    rw [get, get, erase, hview]

@[simp] theorem get_erase_self : (t.erase k).get k = none := by
  rw [get_erase, if_pos rfl]

end AssocTable
