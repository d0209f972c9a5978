import Mathlib.Data.List.Perm.Subperm

/-!
# Holdings

A list of owners, each of which holds some items. `held` gives the items of an owner, and the
holdings are those of all owners; they are compared up to order.
-/

namespace Holdings

variable {α ι : Type*} {held : α → List ι} {l : List α} {a : α} {i : Nat}

/-- The owner at `i` gives way to `next`. -/
def replaceAt (l : List α) (i : Nat) (next : List α) : List α := l.take i ++ next ++ l.drop (i + 1)

theorem mem_replaceAt {next : List α} {x : α} (h : x ∈ replaceAt l i next) : x ∈ next ∨ x ∈ l := by
  rw [replaceAt, List.append_assoc, List.mem_append, List.mem_append] at h
  obtain h | h | h := h
  · exact .inr (List.mem_of_mem_take h)
  · exact .inl h
  · exact .inr (List.mem_of_mem_drop h)

/-- When an owner gives way, the holdings of the others stay. -/
theorem exists_rest_replaceAt (held : α → List ι) (h : l[i]? = some a) (next : List α) :
    ∃ rest, (l.flatMap held).Perm (held a ++ rest) ∧
      ((replaceAt l i next).flatMap held).Perm (next.flatMap held ++ rest) := by
  obtain ⟨hi, rfl⟩ := List.getElem?_eq_some_iff.mp h
  refine ⟨(l.take i).flatMap held ++ (l.drop (i + 1)).flatMap held, ?_, ?_⟩
  · have hsplit : l = l.take i ++ l[i] :: l.drop (i + 1) := by
      rw [← List.drop_eq_getElem_cons hi, List.take_append_drop]
    have hheld : l.flatMap held =
        (l.take i).flatMap held ++ (held l[i] ++ (l.drop (i + 1)).flatMap held) := by
      conv_lhs => rw [hsplit]
      rw [List.flatMap_append, List.flatMap_cons]
    rw [hheld]
    exact List.perm_append_comm_assoc _ _ _
  · rw [replaceAt, List.flatMap_append, List.flatMap_append, List.append_assoc]
    exact List.perm_append_comm_assoc _ _ _

/-- Every item of `live` is held. -/
def Covers (holdings live : List ι) : Prop := ∀ x ∈ live, x ∈ holdings

variable {holdings holdings' live live' : List ι} {x : ι}

section

variable (h : Covers holdings live)
include h

theorem Covers.of_perm (hperm : holdings.Perm holdings')
    (hlive : live' ⊆ live) : Covers holdings' live' :=
  fun y hy => hperm.subset (h y (hlive hy))

theorem Covers.gain (hperm : (x :: holdings).Perm holdings') :
    Covers holdings' (x :: live) := by
  intro y hy
  apply hperm.subset
  obtain rfl | hy := List.mem_cons.mp hy
  · exact List.mem_cons_self
  · exact List.mem_cons_of_mem _ (h y hy)

/-- An item that nobody takes is held by someone already. -/
theorem Covers.miss (hperm : holdings.Perm holdings')
    (hx : x ∈ holdings) : Covers holdings' (x :: live) := by
  intro y hy
  apply hperm.subset
  obtain rfl | hy := List.mem_cons.mp hy
  · exact hx
  · exact h y hy

/-- An item that is let go is not live any more, or is held once more. -/
theorem Covers.drop [DecidableEq ι] (hperm : holdings.Perm (x :: holdings')) (hlive : live' ⊆ live)
    (hx : x ∈ live' → x ∈ holdings.erase x) : Covers holdings' live' := by
  have hrest : (holdings.erase x).Perm holdings' :=
    (List.cons_perm_iff_perm_erase.mp hperm.symm).2.symm
  intro y hy
  by_cases hyx : y = x
  · subst hyx
    exact hrest.subset (hx hy)
  · obtain rfl | hy' := List.mem_cons.mp (hperm.subset (h y (hlive hy)))
    · exact absurd rfl hyx
    · exact hy'

end

end Holdings
