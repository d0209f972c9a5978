import Mathlib.Data.List.Basic

/-!
# Grouping a list by key in one pass

`groups key live before l` goes over `l`, the entries of `before` being behind it. At an entry that
is live and whose key no earlier entry has, it puts the live entries of that key from there on into
one group. A key whose first entry is not live gets no group.
-/

namespace Grouping

variable {κ α : Type*} [DecidableEq κ] (key : α → κ) (live : α → Bool)

def ofKey (k : κ) (l : List α) : List α := l.filter fun a => key a = k && live a

def groups : List α → List α → List (κ × List α)
  | _, [] => []
  | before, a :: rest =>
    if live a && !before.any (fun b => key b = key a) then
      (key a, ofKey key live (key a) (a :: rest)) :: groups (before ++ [a]) rest
    else groups (before ++ [a]) rest

variable {key live}

theorem of_mem_groups {before l : List α} {g : κ × List α} {a : α}
    (hg : g ∈ groups key live before l) (ha : a ∈ g.2) : key a = g.1 ∧ live a = true := by
  induction l generalizing before with
  | nil => cases hg
  | cons b rest ih =>
    rw [groups] at hg
    split at hg
    · rcases List.mem_cons.mp hg with rfl | hg
      · have h := (List.mem_filter.mp ha).2
        simpa only [Bool.and_eq_true, decide_eq_true_eq] using h
      · exact ih hg
    · exact ih hg

/-- How often the groups hold entries that satisfy `q`, a property of live entries of the key `k`:
as often as the list, unless `k` has no group. -/
theorem countP_groups {q : α → Bool} {k : κ} (hq : ∀ a, q a = true → key a = k ∧ live a = true)
    (before l : List α) :
    ((groups key live before l).flatMap Prod.snd).countP q =
      if before.any (fun a => key a = k) then 0
      else match l.find? (fun a => key a = k) with
        | some a => if live a then l.countP q else 0
        | none => 0 := by
  induction l generalizing before with
  | nil => simp [groups]
  | cons b rest ih =>
    have hstep := ih (before ++ [b])
    rw [List.any_append, List.any_cons, List.any_nil, Bool.or_false] at hstep
    by_cases hb : key b = k
    · -- behind the first entry of `k` nothing of `k` is grouped any more
      rw [decide_eq_true hb] at hstep
      rw [groups, List.find?_cons_of_pos (by simpa using hb)]
      cases hbefore : before.any (fun a => key a = k) with
      | true => simp [hb, hbefore, hstep]
      | false =>
        cases hlive : live b with
        | false => simp [hlive, hstep]
        | true =>
          simp only [hb, hbefore, hlive, Bool.not_false, Bool.and_self, if_true, List.flatMap_cons,
            List.countP_append, hstep, ofKey, List.countP_filter]
          apply List.countP_congr
          intro a _
          rw [Bool.and_eq_true]
          constructor
          · exact And.left
          · intro ha
            have h := hq a ha
            exact ⟨ha, by simp [h.1, h.2]⟩
    · have hqb : q b = false := by
        by_contra hne
        rw [Bool.not_eq_false] at hne
        exact hb (hq b hne).1
      rw [decide_eq_false hb, Bool.or_false] at hstep
      rw [List.find?_cons_of_neg (by simpa using hb), List.countP_cons_of_neg (by simp [hqb]),
        ← hstep, groups]
      split
      · -- a group of another key
        rw [List.flatMap_cons, List.countP_append]
        have hzero : (ofKey key live (key b) (b :: rest)).countP q = 0 := by
          rw [List.countP_eq_zero]
          intro a ha hqa
          have h := (List.mem_filter.mp ha).2
          simp only [Bool.and_eq_true, decide_eq_true_eq] at h
          exact hb (h.1.symm.trans (hq a hqa).1)
        rw [hzero, Nat.zero_add]
      · rfl

end Grouping
