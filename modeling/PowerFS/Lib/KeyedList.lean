import Mathlib.Data.List.Nodup

/-!
# Lists with a key

A list whose elements have a key, looked up from the front. `view key l` is the list as a partial
map; every operation here acts on it key by key.
-/

namespace KeyedList

variable {α κ : Type*} {key : α → κ} {l : List α} {f : α → α} {p : α → Bool}

/-- Changes the first element that satisfies `p`. -/
def updateFirst (p : α → Bool) (f : α → α) : List α → List α
  | [] => []
  | a :: l => if p a then f a :: l else a :: updateFirst p f l

def Distinct (key : α → κ) (l : List α) : Prop := (l.map key).Nodup

theorem map_key_updateFirst (hf : ∀ a, key (f a) = key a) :
    (updateFirst p f l).map key = l.map key := by
  induction l with
  | nil => rfl
  | cons a l ih =>
    rw [updateFirst]
    split
    · rw [List.map_cons, List.map_cons, hf]
    · rw [List.map_cons, List.map_cons, ih]

theorem mem_updateFirst {a : α} (h : a ∈ updateFirst p f l) : a ∈ l ∨ ∃ b ∈ l, a = f b := by
  induction l with
  | nil => cases h
  | cons b l ih =>
    rw [updateFirst] at h
    split at h
    · obtain rfl | h := List.mem_cons.mp h
      · exact .inr ⟨b, List.mem_cons_self, rfl⟩
      · exact .inl (List.mem_cons_of_mem _ h)
    · obtain rfl | h := List.mem_cons.mp h
      · exact .inl List.mem_cons_self
      · obtain h | ⟨c, hc, heq⟩ := ih h
        · exact .inl (List.mem_cons_of_mem _ h)
        · exact .inr ⟨c, List.mem_cons_of_mem _ hc, heq⟩

theorem mem_updateFirst_of_mem {a : α} (h : a ∈ l) :
    a ∈ updateFirst p f l ∨ f a ∈ updateFirst p f l := by
  induction l with
  | nil => cases h
  | cons b l ih =>
    rw [updateFirst]
    split
    · obtain rfl | h := List.mem_cons.mp h
      · exact .inr List.mem_cons_self
      · exact .inl (List.mem_cons_of_mem _ h)
    · obtain rfl | h := List.mem_cons.mp h
      · exact .inl List.mem_cons_self
      · exact (ih h).imp (List.mem_cons_of_mem _) (List.mem_cons_of_mem _)

theorem updateFirst_of_forall_not (h : ∀ a ∈ l, ¬ p a = true) : updateFirst p f l = l := by
  induction l with
  | nil => rfl
  | cons b l ih =>
    rw [updateFirst, if_neg (h b List.mem_cons_self),
      ih fun a ha => h a (List.mem_cons_of_mem _ ha)]

/-- The first element that satisfies `p` is exchanged. -/
theorem perm_updateFirst {a : α} (h : l.find? p = some a) :
    (f a :: l).Perm (a :: updateFirst p f l) := by
  induction l with
  | nil => cases h
  | cons b l ih =>
    rw [List.find?_cons] at h
    rw [updateFirst]
    split at h
    · next hb =>
      cases h
      rw [if_pos hb]
      exact .swap ..
    · next hb =>
      rw [if_neg (by rw [hb]; exact Bool.false_ne_true)]
      exact (List.Perm.swap ..).trans (((ih h).cons b).trans (.swap ..))

theorem Distinct.updateFirst (h : Distinct key l) (hf : ∀ a, key (f a) = key a) :
    Distinct key (updateFirst p f l) := by
  rw [Distinct, map_key_updateFirst hf]
  exact h

theorem Distinct.map (h : Distinct key l) (hf : ∀ a, key (f a) = key a) :
    Distinct key (l.map f) := by
  have hkeys : (l.map f).map key = l.map key := by
    rw [List.map_map]
    exact List.map_congr_left fun a _ => hf a
  rw [Distinct, hkeys]
  exact h

theorem Distinct.filter (h : Distinct key l) : Distinct key (l.filter p) :=
  List.Nodup.sublist (List.filter_sublist.map key) h

variable [DecidableEq κ]

def view (key : α → κ) (l : List α) (k : κ) : Option α := l.find? fun a => key a = k

theorem view_cons (a : α) (k : κ) :
    view key (a :: l) k = if key a = k then some a else view key l k := by
  simp only [view]
  split <;> simp_all

theorem key_of_view {k : κ} {a : α} (h : view key l k = some a) : key a = k := by
  simpa using List.find?_some h

theorem mem_of_view {k : κ} {a : α} (h : view key l k = some a) : a ∈ l :=
  List.mem_of_find?_eq_some h

theorem view_eq_none_iff {k : κ} : view key l k = none ↔ ∀ a ∈ l, key a ≠ k := by
  simp [view]

theorem view_eq_some_iff (h : Distinct key l) {k : κ} {a : α} :
    view key l k = some a ↔ a ∈ l ∧ key a = k := by
  constructor
  · exact fun hview => ⟨mem_of_view hview, key_of_view hview⟩
  · rintro ⟨hmem, hkey⟩
    cases hview : view key l k with
    | none => exact absurd hkey (view_eq_none_iff.mp hview a hmem)
    | some b =>
      have hsame : key b = key a := (key_of_view hview).trans hkey.symm
      rw [List.inj_on_of_nodup_map h (mem_of_view hview) hmem hsame]

theorem any_key_iff {k : κ} :
    (l.any fun a => key a = k) = true ↔ ∃ a, view key l k = some a := by
  rw [← Option.isSome_iff_exists]
  simp [view]

theorem view_map (hf : ∀ a, key (f a) = key a) (k : κ) :
    view key (l.map f) k = (view key l k).map f := by
  induction l with
  | nil => rfl
  | cons a l ih =>
    rw [List.map_cons, view_cons, view_cons, hf, ih]
    split <;> rfl

theorem view_append_new {a : α} (h : view key l (key a) = none) (k : κ) :
    view key (l ++ [a]) k = if k = key a then some a else view key l k := by
  by_cases hk : k = key a
  · subst hk
    simp only [view] at h ⊢
    simp [h]
  · have hne : key a ≠ k := fun heq => hk heq.symm
    simp [view, hk, hne]

theorem view_updateFirst (hf : ∀ a, key (f a) = key a) (k k' : κ) :
    view key (updateFirst (fun a => key a = k) f l) k' =
      if k' = k then (view key l k).map f else view key l k' := by
  induction l with
  | nil => simp [updateFirst, view]
  | cons a l ih =>
    by_cases ha : key a = k
    · subst ha
      simp only [updateFirst, decide_true, if_true, view_cons, hf]
      by_cases hk : k' = key a
      · simp [hk]
      · have hne : key a ≠ k' := fun heq => hk heq.symm
        simp [hk, hne]
    · simp only [updateFirst, ha, decide_false, Bool.false_eq_true, if_false, view_cons, ih]
      by_cases hk : k' = k
      · simp [hk, ha]
      · simp [hk]

theorem Distinct.append_new {a : α} (h : Distinct key l) (ha : view key l (key a) = none) :
    Distinct key (l ++ [a]) := by
  rw [Distinct, List.map_append, List.nodup_append']
  refine ⟨h, List.nodup_singleton _, ?_⟩
  intro k hk hk'
  obtain ⟨b, hb, rfl⟩ := List.mem_map.mp hk
  exact view_eq_none_iff.mp ha b hb (List.mem_singleton.mp hk')

end KeyedList
