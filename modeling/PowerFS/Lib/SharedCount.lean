import Mathlib.Algebra.Order.BigOperators.Group.List
import Mathlib.Algebra.Order.Ring.Int
import PowerFS.Lib.Runs

/-!
# Tasks that share a counted object

A task is a list of actions. It uses items of the object, and may hand items to a helper, which
uses them and then drops the reference it came with. Whoever drops the last reference with a test
frees the object. `Clean start items` says of every interleaving that the object is freed exactly
once, when no task has anything left to do, and that then each item has been used exactly once.
-/

namespace SharedCount

variable {ι : Type*}

inductive Act (ι : Type*) where
  | use (i : ι)
  | hold
  | drop (tested : Bool)
  | spawn (items : List ι)
  | free

def helper (items : List ι) : List (Act ι) := items.map Act.use ++ [Act.drop true]

structure State (ι : Type*) where
  tasks : List (List (Act ι))
  count : Int
  used : List ι
  freed : Nat

def act (s : State ι) : Act ι → State ι
  | .use i => { s with used := i :: s.used }
  | .hold => { s with count := s.count + 1 }
  | .drop tested =>
    { s with
      count := s.count - 1
      freed := if tested ∧ s.count - 1 = 0 then s.freed + 1 else s.freed }
  | .spawn items => { s with tasks := s.tasks ++ [helper items] }
  | .free => { s with freed := s.freed + 1 }

/-- Task `k` takes its next action. -/
def exec (s : State ι) (k : Nat) : Option (State ι) :=
  match s.tasks[k]? with
  | some (a :: rest) => some (act { s with tasks := s.tasks.set k rest } a)
  | _ => none

abbrev Reaches (start s : State ι) : Prop :=
  Runs.Reach (fun s k s' => exec s k = some s') (fun _ _ => True) (· = start) s

def State.Done (s : State ι) : Prop := ∀ t ∈ s.tasks, t = []

structure Clean (start : State ι) (items : List ι) : Prop where
  late : ∀ s, Reaches start s → 0 < s.freed → s.Done
  once : ∀ s, Reaches start s → s.Done → s.freed = 1
  uses : ∀ s, Reaches start s → s.Done → s.used.Perm items

/-- What an action takes from the counter, in the end. -/
def Act.owes : Act ι → Int
  | .hold => -1
  | .drop _ | .spawn _ => 1
  | .use _ | .free => 0

def Act.items : Act ι → List ι
  | .use i => [i]
  | .spawn items => items
  | .hold | .drop _ | .free => []

def owed (t : List (Act ι)) : Int := (t.map Act.owes).sum

def itemsOf (t : List (Act ι)) : List ι := t.flatMap Act.items

@[simp] theorem owed_nil : owed ([] : List (Act ι)) = 0 := rfl

@[simp] theorem owed_cons (a : Act ι) (t : List (Act ι)) : owed (a :: t) = a.owes + owed t :=
  List.sum_cons

@[simp] theorem owed_append (t u : List (Act ι)) : owed (t ++ u) = owed t + owed u := by
  rw [owed, List.map_append, List.sum_append]
  rfl

@[simp] theorem owed_uses (items : List ι) : owed (items.map Act.use) = 0 := by
  induction items with
  | nil => rfl
  | cons i items ih => rw [List.map_cons, owed_cons, ih]; rfl

@[simp] theorem itemsOf_nil : itemsOf ([] : List (Act ι)) = [] := rfl

@[simp] theorem itemsOf_cons (a : Act ι) (t : List (Act ι)) :
    itemsOf (a :: t) = a.items ++ itemsOf t := List.flatMap_cons

@[simp] theorem itemsOf_append (t u : List (Act ι)) :
    itemsOf (t ++ u) = itemsOf t ++ itemsOf u := List.flatMap_append

@[simp] theorem itemsOf_uses (items : List ι) : itemsOf (items.map Act.use) = items := by
  induction items with
  | nil => rfl
  | cons i items ih => rw [List.map_cons, itemsOf_cons, ih]; rfl

theorem owed_helper (items : List ι) : owed (helper items) = 1 := by
  simp [helper, Act.owes]

theorem itemsOf_helper (items : List ι) : itemsOf (helper items) = items := by
  simp [helper, Act.items]

def State.owes (s : State ι) : Int := (s.tasks.map owed).sum

variable {start s s' : State ι} {k : Nat}

/-- A step takes the first action off one task. -/
theorem exec_cases (h : exec s k = some s') : ∃ l a rest r,
    s.tasks = l ++ (a :: rest) :: r ∧ s' = act { s with tasks := l ++ rest :: r } a := by
  rw [exec] at h
  split at h
  · next a rest hk =>
    obtain ⟨hlt, hget⟩ := List.getElem?_eq_some_iff.mp hk
    obtain ⟨l, r, htasks, -, hset⟩ : ∃ l r, s.tasks = l ++ s.tasks[k] :: r ∧ l.length = k ∧
      s.tasks.set k rest = l ++ rest :: r := List.exists_of_set hlt
    rw [hget] at htasks
    cases h
    exact ⟨l, a, rest, r, htasks, by rw [hset]⟩
  · cases h

theorem not_exec_of_done (hdone : s.Done) : exec s k = none := by
  rw [exec]
  split
  · next a rest hk => cases hdone _ (List.mem_of_getElem? hk)
  · rfl

/-- The counter less what is owed, and the items used or still to be used, never change. -/
structure Kept (d : Int) (total : List ι) (s : State ι) : Prop where
  count : s.count = s.owes + d
  items : (s.used ++ s.tasks.flatMap itemsOf).Perm total

theorem Kept.step {d : Int} {total : List ι} (hkept : Kept d total s) (h : exec s k = some s') :
    Kept d total s' := by
  obtain ⟨l, a, rest, r, htasks, rfl⟩ := exec_cases h
  have hcount := hkept.count
  have hitems := hkept.items
  rw [State.owes, htasks] at hcount
  rw [htasks] at hitems
  simp only [List.map_append, List.map_cons, owed_cons] at hcount
  simp only [List.flatMap_append, List.flatMap_cons, itemsOf_cons] at hitems
  constructor
  · cases a <;> simp only [act, State.owes, Act.owes, List.map_append, List.map_cons,
      List.map_nil, List.sum_append, List.sum_cons, List.sum_nil, owed_helper] at hcount ⊢ <;> omega
  · refine List.Perm.trans ?_ hitems
    cases a with
    | use i =>
      -- the item moves from its task to the used ones
      simp only [act, List.flatMap_append, List.cons_append, ← List.append_assoc]
      simp only [List.append_assoc]
      rw [← List.append_assoc s.used, ← List.append_assoc s.used]
      exact List.perm_middle.symm
    | hold | drop | free => simp [act, Act.items]
    | spawn items =>
      simp only [act, List.flatMap_append, List.flatMap_cons, List.flatMap_nil, itemsOf_helper,
        List.append_nil, List.append_assoc]
      refine List.Perm.append_left _ (List.Perm.append_left _ ?_)
      rw [← List.append_assoc (itemsOf rest)]
      exact List.perm_append_comm

theorem Kept.reaches {d : Int} {total : List ι} (h : Reaches start s)
    (hstart : Kept d total start) : Kept d total s :=
  h.invariant (fun _ hs => hs ▸ hstart) fun _ _ _ hkept _ hstep => hkept.step hstep

theorem State.Done.owes (h : s.Done) : s.owes = 0 := by
  apply List.sum_eq_zero
  intro x hx
  obtain ⟨t, ht, rfl⟩ := List.mem_map.mp hx
  rw [h t ht]
  rfl

theorem Kept.of_done {d : Int} {total : List ι} (h : Kept d total s) (hdone : s.Done) :
    s.count = d ∧ s.used.Perm total := by
  refine ⟨by rw [h.count, hdone.owes, Int.zero_add], ?_⟩
  have hnone : s.tasks.flatMap itemsOf = [] :=
    List.flatMap_eq_nil_iff.mpr fun t ht => by rw [hdone t ht]; rfl
  have hitems := h.items
  rwa [hnone, List.append_nil] at hitems

section Progress

def Act.cost : Act ι → Nat
  | .spawn items => items.length + 2
  | _ => 1

def cost (t : List (Act ι)) : Nat := (t.map Act.cost).sum

theorem cost_helper (items : List ι) : cost (helper items) = items.length + 1 := by
  have huses : cost (items.map Act.use) = items.length := by
    induction items with
    | nil => rfl
    | cons i items ih =>
      simp only [cost, List.map_cons, List.sum_cons, Act.cost, List.length_cons] at ih ⊢
      omega
  simp only [cost, helper, List.map_append, List.sum_append, List.map_cons, List.map_nil,
    List.sum_cons, List.sum_nil, Act.cost] at huses ⊢
  omega

def State.cost (s : State ι) : Nat := (s.tasks.map SharedCount.cost).sum

theorem exec_cost (h : exec s k = some s') : s'.cost < s.cost := by
  obtain ⟨l, a, rest, r, htasks, rfl⟩ := exec_cases h
  have hhead : SharedCount.cost (a :: rest) = a.cost + SharedCount.cost rest := List.sum_cons
  rw [State.cost, State.cost, htasks]
  simp only [List.map_append, List.map_cons, hhead]
  cases a <;> simp only [act, Act.cost, List.map_append, List.map_cons, List.map_nil,
    List.sum_append, List.sum_cons, List.sum_nil, cost_helper] <;> omega

/-- Every run can be brought to its end. -/
theorem exists_done (h : Reaches start s) : ∃ s', Reaches start s' ∧ s'.Done := by
  induction hn : s.cost using Nat.strongRecOn generalizing s with
  | _ n ih =>
    by_cases hdone : s.Done
    · exact ⟨s, h, hdone⟩
    · simp only [State.Done, not_forall] at hdone
      obtain ⟨t, ht, hne⟩ := hdone
      obtain ⟨k, hk⟩ := List.mem_iff_getElem?.mp ht
      obtain ⟨a, rest, rfl⟩ := List.exists_cons_of_ne_nil hne
      have hstep : exec s k = some (act { s with tasks := s.tasks.set k rest } a) := by
        rw [exec, hk]
      exact ih _ (hn ▸ exec_cost hstep) (h.next trivial hstep) rfl

end Progress

/-- No part of the task still to be done gives back more than it takes. -/
def Steady : List (Act ι) → Prop
  | [] => True
  | a :: t => 0 ≤ owed (a :: t) ∧ Steady t

theorem Steady.owed_nonneg {t : List (Act ι)} (h : Steady t) : 0 ≤ owed t := by
  cases t with
  | nil => exact Int.le_refl 0
  | cons a t => exact h.1

theorem Steady.append {t u : List (Act ι)} (ht : Steady t) (hu : Steady u) : Steady (t ++ u) := by
  induction t with
  | nil => exact hu
  | cons a t ih =>
    refine ⟨?_, ih ht.2⟩
    show 0 ≤ owed ((a :: t) ++ u)
    rw [owed_append]
    have := ht.1
    have := hu.owed_nonneg
    omega

theorem steady_uses (items : List ι) : Steady (items.map Act.use) := by
  induction items with
  | nil => exact trivial
  | cons i items ih =>
    refine ⟨?_, ih⟩
    show 0 ≤ owed ((i :: items).map Act.use)
    exact Int.le_of_eq (owed_uses _).symm

/-- A task that ends with dropping its own reference, and frees nothing else. -/
def Owing (t : List (Act ι)) : Prop :=
  t = [] ∨ ∃ body, t = body ++ [Act.drop true] ∧ Steady body ∧ .free ∉ body

theorem owing_helper (items : List ι) : Owing (helper items) :=
  .inr ⟨_, rfl, steady_uses items, by simp⟩

theorem Owing.owed_pos {t : List (Act ι)} (h : Owing t) (hne : t ≠ []) : 0 < owed t := by
  obtain rfl | ⟨body, rfl, hsteady, -⟩ := h
  · exact absurd rfl hne
  · have := hsteady.owed_nonneg
    simp only [owed_append, owed_cons, owed_nil, Act.owes]
    omega

theorem Owing.owed_nonneg {t : List (Act ι)} (h : Owing t) : 0 ≤ owed t := by
  by_cases hne : t = []
  · subst hne
    exact Int.le_refl 0
  · exact Int.le_of_lt (h.owed_pos hne)

/-- The last action of an owing task is the drop of its reference. -/
theorem Owing.tail {a : Act ι} {rest : List (Act ι)} (h : Owing (a :: rest)) :
    a = .drop true ∧ rest = [] ∨ a ≠ .free ∧ rest ≠ [] ∧ Owing rest := by
  obtain h | ⟨body, hbody, hsteady, hfree⟩ := h
  · cases h
  cases body with
  | nil =>
    cases hbody
    exact .inl ⟨rfl, rfl⟩
  | cons b body =>
    obtain ⟨rfl, rfl⟩ := hbody
    rw [List.mem_cons, not_or] at hfree
    exact .inr ⟨Ne.symm hfree.1, by simp, .inr ⟨body, rfl, hsteady.2, hfree.2⟩⟩

theorem owes_nonneg (h : ∀ t ∈ s.tasks, Owing t) : 0 ≤ s.owes := by
  apply List.sum_nonneg
  intro x hx
  obtain ⟨t, ht, rfl⟩ := List.mem_map.mp hx
  exact (h t ht).owed_nonneg

theorem owes_pos_of_not_done (h : ∀ t ∈ s.tasks, Owing t) (hdone : ¬ s.Done) : 0 < s.owes := by
  simp only [State.Done, not_forall] at hdone
  obtain ⟨t, ht, hne⟩ := hdone
  obtain ⟨l, r, htasks⟩ := List.append_of_mem ht
  have hl : 0 ≤ (State.mk l 0 ([] : List ι) 0).owes :=
    owes_nonneg fun u hu => h u (by rw [htasks]; exact List.mem_append_left _ hu)
  have hr : 0 ≤ (State.mk r 0 ([] : List ι) 0).owes :=
    owes_nonneg fun u hu => h u (by rw [htasks]; simp [hu])
  have hpos := (h t ht).owed_pos hne
  simp only [State.owes] at hl hr ⊢
  rw [htasks, List.map_append, List.map_cons, List.sum_append, List.sum_cons]
  omega

theorem exec_owing (h : ∀ t ∈ s.tasks, Owing t) (hstep : exec s k = some s') :
    ∀ t ∈ s'.tasks, Owing t := by
  obtain ⟨l, a, rest, r, htasks, rfl⟩ := exec_cases hstep
  have hrest : Owing rest := by
    obtain ⟨-, rfl⟩ | ⟨-, -, hrest⟩ := (h (a :: rest) (by rw [htasks]; simp)).tail
    · exact .inl rfl
    · exact hrest
  have hothers : ∀ t ∈ l ++ rest :: r, Owing t := by
    intro t ht
    rw [List.mem_append, List.mem_cons] at ht
    obtain hl | rfl | hr := ht
    · exact h t (by rw [htasks]; exact List.mem_append_left _ hl)
    · exact hrest
    · exact h t (by rw [htasks]; simp [hr])
  cases a with
  | spawn items =>
    intro t ht
    obtain ht | ht := List.mem_append.mp ht
    · exact hothers t ht
    · rw [List.mem_singleton.mp ht]
      exact owing_helper items
  | _ => exact hothers

/-- The counter is what the tasks owe, and the object is freed when they are done. -/
structure Balanced (s : State ι) : Prop where
  count : s.count = s.owes
  owing : ∀ t ∈ s.tasks, Owing t
  freed : s.freed = 0 ∧ ¬ s.Done ∨ s.freed = 1 ∧ s.Done

theorem Balanced.step (h : Balanced s) (hstep : exec s k = some s') : Balanced s' := by
  have howing := exec_owing h.owing hstep
  have hcount : s'.count = s'.owes := by
    have hkept : Kept 0 (s.used ++ s.tasks.flatMap itemsOf) s :=
      ⟨by rw [h.count, Int.add_zero], .refl _⟩
    have := (hkept.step hstep).count
    rwa [Int.add_zero] at this
  have hbusy : s.freed = 0 := by
    obtain ⟨hfreed, -⟩ | ⟨-, hdone⟩ := h.freed
    · exact hfreed
    · cases (not_exec_of_done hdone).symm.trans hstep
  refine ⟨hcount, howing, ?_⟩
  obtain ⟨l, a, rest, r, htasks, rfl⟩ := exec_cases hstep
  obtain ⟨rfl, rfl⟩ | ⟨hfree, hne, -⟩ := (h.owing (a :: rest) (by rw [htasks]; simp)).tail
  · -- the last action of a task: it frees the object if nothing else is left
    by_cases hdone : (act { s with tasks := l ++ [] :: r } (.drop true)).Done
    · refine .inr ⟨?_, hdone⟩
      have hzero : s.count - 1 = 0 := hcount.trans hdone.owes
      simp [act, hzero, hbusy]
    · refine .inl ⟨?_, hdone⟩
      have hpos := owes_pos_of_not_done howing hdone
      rw [← hcount] at hpos
      simp only [act] at hpos ⊢
      rw [if_neg (by omega), hbusy]
  · have hdone : ¬ (act { s with tasks := l ++ rest :: r } a).Done := by
      intro hdone
      refine hne (hdone rest ?_)
      cases a <;> simp [act]
    refine .inl ⟨?_, hdone⟩
    have hpos := owes_pos_of_not_done howing hdone
    rw [← hcount] at hpos
    cases a with
    | drop tested =>
      simp only [act] at hpos ⊢
      rw [if_neg (by omega), hbusy]
    | free => exact absurd rfl hfree
    | _ => exact hbusy

theorem Clean.count_eq_zero {items : List ι} (hclean : Clean start items)
    (hfreed : start.freed = 0) (howing : ∀ t ∈ start.tasks, Owing t) (h : Reaches start s) :
    (∀ t ∈ s.tasks, Owing t) ∧ (s.freed = 0 ∨ s.count = 0) := by
  induction h with
  | start hs =>
    cases hs
    exact ⟨howing, .inl hfreed⟩
  | @next s s' k hreach _ hstep ih =>
    refine ⟨exec_owing ih.1 hstep, ?_⟩
    have hzero : s.freed = 0 := by
      by_contra hne
      have hdone := hclean.late s hreach (Nat.pos_of_ne_zero hne)
      cases (not_exec_of_done hdone).symm.trans hstep
    obtain ⟨l, a, rest, r, htasks, rfl⟩ := exec_cases hstep
    cases a with
    | drop tested =>
      simp only [act]
      split
      · next hlast => exact .inr hlast.2
      · exact .inl hzero
    | free =>
      obtain ⟨hdrop, -⟩ | ⟨hfree, -⟩ := (ih.1 (.free :: rest) (by rw [htasks]; simp)).tail
      · cases hdrop
      · exact absurd rfl hfree
    | _ => exact .inl hzero

/-- One task that keeps a reference of its own to the end is clean exactly when the counter starts
with what it owes and it uses the items once each. -/
theorem clean_iff {t : List (Act ι)} {n : Int} {items : List ι} (howing : Owing t) (hne : t ≠ []) :
    Clean ⟨[t], n, [], 0⟩ items ↔ n = owed t ∧ (itemsOf t).Perm items := by
  have hall : ∀ u ∈ [t], Owing u := fun u hu => List.mem_singleton.mp hu ▸ howing
  have hkept : Kept (n - owed t) (itemsOf t) ⟨[t], n, [], 0⟩ := by
    constructor
    · simp only [State.owes, List.map_cons, List.map_nil, List.sum_cons, List.sum_nil]
      omega
    · simp
  constructor
  · intro hclean
    obtain ⟨s, hreach, hdone⟩ := exists_done (.start rfl : Reaches ⟨[t], n, [], 0⟩ _)
    obtain ⟨hcount, hused⟩ := (hkept.reaches hreach).of_done hdone
    have hzero := (hclean.count_eq_zero rfl hall hreach).2.resolve_left
      (by rw [hclean.once s hreach hdone]; exact Nat.one_ne_zero)
    exact ⟨by omega, hused.symm.trans (hclean.uses s hreach hdone)⟩
  · rintro ⟨rfl, hitems⟩
    have hstart : Balanced ⟨[t], owed t, [], 0⟩ :=
      ⟨by simp [State.owes], hall, .inl ⟨rfl, fun hdone => hne (hdone t (by simp))⟩⟩
    have hbalanced : ∀ s, Reaches ⟨[t], owed t, [], 0⟩ s → Balanced s := fun s hs =>
      hs.invariant (fun _ h => h ▸ hstart) fun _ _ _ h _ hstep => h.step hstep
    refine ⟨fun s hs hfreed => ?_, fun s hs hdone => ?_, fun s hs hdone => ?_⟩
    · obtain ⟨hzero, -⟩ | ⟨-, hdone⟩ := (hbalanced s hs).freed
      · exact absurd hfreed (by omega)
      · exact hdone
    · obtain ⟨-, hbusy⟩ | ⟨hone, -⟩ := (hbalanced s hs).freed
      · exact absurd hdone hbusy
      · exact hone
    · exact ((hkept.reaches hs).of_done hdone).2.trans hitems

/-- One task that uses items and then frees the object itself, at some point of its run. -/
def Inline (s : State ι) : Prop :=
  (∃ rest : List ι, s.tasks = [rest.map Act.use ++ [Act.free]] ∧ s.freed = 0) ∨
    s.tasks = [[]] ∧ s.freed = 1

theorem Inline.step (h : Inline s) (hstep : exec s k = some s') : Inline s' := by
  obtain ⟨rest, htasks, hfreed⟩ | ⟨htasks, -⟩ := h
  · cases k with
    | zero =>
      cases rest with
      | nil =>
        simp only [exec, htasks] at hstep
        cases hstep
        exact .inr ⟨rfl, by simp [act, hfreed]⟩
      | cons i rest =>
        simp only [exec, htasks] at hstep
        cases hstep
        exact .inl ⟨rest, rfl, hfreed⟩
    | succ k => simp [exec, htasks] at hstep
  · simp only [exec, htasks] at hstep
    cases k <;> simp at hstep

theorem clean_inline {items : List ι} {n : Int} :
    Clean ⟨[items.map Act.use ++ [Act.free]], n, [], 0⟩ items := by
  have hkept : Kept n items ⟨[items.map Act.use ++ [Act.free]], n, [], 0⟩ := by
    constructor
    · simp [State.owes, Act.owes]
    · simp [Act.items]
  have hstart : Inline ⟨[items.map Act.use ++ [Act.free]], n, [], 0⟩ := .inl ⟨items, rfl, rfl⟩
  have hinline : ∀ s, Reaches ⟨[items.map Act.use ++ [Act.free]], n, [], 0⟩ s → Inline s :=
    fun s hs => hs.invariant (fun _ h => h ▸ hstart) fun _ _ _ h _ hstep => h.step hstep
  refine ⟨fun s hs hfreed => ?_, fun s hs hdone => ?_, fun s hs hdone => ?_⟩
  · obtain ⟨rest, -, hzero⟩ | ⟨htasks, -⟩ := hinline s hs
    · exact absurd hfreed (by omega)
    · intro t ht
      rw [htasks] at ht
      exact List.mem_singleton.mp ht
  · obtain ⟨rest, htasks, -⟩ | ⟨-, hone⟩ := hinline s hs
    · have hnil := hdone _ (by rw [htasks]; exact List.mem_singleton_self _)
      simp at hnil
    · exact hone
  · exact ((hkept.reaches hs).of_done hdone).2

end SharedCount
