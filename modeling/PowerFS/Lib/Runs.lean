import Mathlib.Logic.Relation

/-!
# Runs of a labelled transition system

`step s e s'` is a transition with label `e`, and `ok s e` a condition on the state before it.
`Reach step ok init` are the states of the runs from `init` whose transitions all meet the
condition.
-/

namespace Runs

variable {σ ε : Type*} {step : σ → ε → σ → Prop} {ok : σ → ε → Prop} {init : σ → Prop}

inductive Reach (step : σ → ε → σ → Prop) (ok : σ → ε → Prop) (init : σ → Prop) : σ → Prop
  | start {s : σ} : init s → Reach step ok init s
  | next {s s' : σ} {e : ε} : Reach step ok init s → ok s e → step s e s' → Reach step ok init s'

/-- What holds at the start and is kept by every transition holds throughout. -/
theorem Reach.invariant {inv : σ → Prop} {s : σ} (h : Reach step ok init s)
    (hinit : ∀ s, init s → inv s)
    (hstep : ∀ s e s', inv s → ok s e → step s e s' → inv s') : inv s := by
  induction h with
  | start hs => exact hinit _ hs
  | next _ hok hs ih => exact hstep _ _ _ ih hok hs

variable {exec : σ → ε → Option σ}

/-- The labels `es`, executed from `s`, all meet the condition. -/
def OkAlong (exec : σ → ε → Option σ) (ok : σ → ε → Prop) : σ → List ε → Prop
  | _, [] => True
  | s, e :: es => ok s e ∧ ∀ s', exec s e = some s' → OkAlong exec ok s' es

theorem okAlong_cons_iff {s s₁ : σ} {e : ε} {es : List ε} (he : exec s e = some s₁) :
    OkAlong exec ok s (e :: es) ↔ ok s e ∧ OkAlong exec ok s₁ es := by
  constructor
  · exact fun h => ⟨h.1, h.2 s₁ he⟩
  · refine fun h => ⟨h.1, fun s' hs' => ?_⟩
    cases he.symm.trans hs'
    exact h.2

theorem OkAlong.cons {s s₁ : σ} {e : ε} {es : List ε} (hok : ok s e) (he : exec s e = some s₁)
    (h : OkAlong exec ok s₁ es) : OkAlong exec ok s (e :: es) :=
  (okAlong_cons_iff he).mpr ⟨hok, h⟩

instance decidableOkAlong [∀ s e, Decidable (ok s e)] :
    (s : σ) → (es : List ε) → Decidable (OkAlong exec ok s es)
  | _, [] => inferInstanceAs (Decidable True)
  | s, e :: es =>
    match he : exec s e with
    | some s₁ =>
      have := decidableOkAlong s₁ es
      decidable_of_iff (ok s e ∧ OkAlong exec ok s₁ es) (okAlong_cons_iff he).symm
    | none =>
      decidable_of_iff (ok s e) ⟨fun h => ⟨h, fun _ hs' => nomatch he.symm.trans hs'⟩, And.left⟩

theorem Reach.of_run {s s' : σ} {es : List ε}
    (h : Reach (fun s e s' => exec s e = some s') ok init s) (hok : OkAlong exec ok s es)
    (hrun : es.foldlM exec s = some s') :
    Reach (fun s e s' => exec s e = some s') ok init s' := by
  induction es generalizing s with
  | nil =>
    cases hrun
    exact h
  | cons e es ih =>
    rw [List.foldlM_cons] at hrun
    cases he : exec s e with rw [he] at hrun
    | none =>
      cases hrun
    | some s₁ =>
      exact ih (h.next hok.1 he) (hok.2 s₁ he) hrun

theorem OkAlong.of_forall {s : σ} {es : List ε} (h : ∀ e ∈ es, ∀ s, ok s e) :
    OkAlong exec ok s es := by
  induction es generalizing s with
  | nil => exact trivial
  | cons e es ih =>
    refine ⟨h e List.mem_cons_self s, fun s' _ => ih fun f hf => ?_⟩
    exact h f (List.mem_cons_of_mem _ hf)

theorem okAlong_true (s : σ) (es : List ε) : OkAlong exec (fun _ _ => True) s es :=
  .of_forall fun _ _ _ => trivial

/-- A run without a condition. -/
theorem Reach.run {s s' : σ} {es : List ε} (hinit : init s) (hrun : es.foldlM exec s = some s') :
    Reach (fun s e s' => exec s e = some s') (fun _ _ => True) init s' :=
  .of_run (.start hinit) (okAlong_true s es) hrun

theorem OkAlong.append {s : σ} {es fs : List ε} (h : OkAlong exec ok s es)
    (hnext : ∀ s', es.foldlM exec s = some s' → OkAlong exec ok s' fs) :
    OkAlong exec ok s (es ++ fs) := by
  induction es generalizing s with
  | nil => exact hnext s rfl
  | cons e es ih =>
    refine ⟨h.1, fun s₁ hs₁ => ih (h.2 s₁ hs₁) fun s' hs' => hnext s' ?_⟩
    rw [List.foldlM_cons, hs₁]
    exact hs'

end Runs
