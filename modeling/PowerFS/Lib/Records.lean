import Mathlib.Data.List.Basic

/-!
# Streams of self-delimiting records

A `Format` writes records of type `α` as symbols of type `β` and reads one record off the front of
a stream. `split` cuts a stream into its complete records and a rest at which no record can be
read. A stream has only one such cut, so whatever scans records one after another sees the list
`(split s).1` and nothing else.
-/

namespace Records

/-- How records are written, and how one is read off the front of a stream. -/
structure Format (α β : Type*) where
  write : α → List β
  read : List β → Option (α × List β)
  Fits : α → Prop
  write_ne_nil : ∀ a, write a ≠ []
  read_write : ∀ {a}, Fits a → ∀ rest, read (write a ++ rest) = some (a, rest)
  eq_write_of_read : ∀ {s a rest}, read s = some (a, rest) → s = write a ++ rest
  fits_of_read : ∀ {s a rest}, read s = some (a, rest) → Fits a

namespace Format

variable {α β : Type*} (F : Format α β)

def writeAll (as : List α) : List β := as.flatMap F.write

/-- At most `n` records off the front of a stream, and the rest. -/
def splitAtMost : Nat → List β → List α × List β
  | 0, s => ([], s)
  | n + 1, s =>
    match F.read s with
    | none => ([], s)
    | some (a, rest) => (a :: (splitAtMost n rest).1, (splitAtMost n rest).2)

/-- The complete records of a stream, and the rest. -/
def split (s : List β) : List α × List β := F.splitAtMost s.length s

/-- A stream of complete records. -/
def WellFormed (s : List β) : Prop := ∃ as, (∀ a ∈ as, F.Fits a) ∧ s = F.writeAll as

@[simp] theorem writeAll_nil : F.writeAll [] = [] := rfl

@[simp] theorem writeAll_cons (a : α) (as : List α) :
    F.writeAll (a :: as) = F.write a ++ F.writeAll as := rfl

theorem writeAll_append (as bs : List α) :
    F.writeAll (as ++ bs) = F.writeAll as ++ F.writeAll bs := List.flatMap_append

theorem length_write_pos (a : α) : 0 < (F.write a).length :=
  List.length_pos_iff.mpr (F.write_ne_nil a)

variable {F}

theorem length_rest_lt {s rest : List β} {a : α} (h : F.read s = some (a, rest)) :
    rest.length < s.length := by
  have hpos := F.length_write_pos a
  rw [F.eq_write_of_read h, List.length_append]
  omega

theorem read_nil : F.read [] = none := by
  cases h : F.read [] with
  | none => rfl
  | some r => exact absurd (length_rest_lt h) (Nat.not_lt_zero _)

theorem splitAtMost_eq {n m : Nat} {s : List β} (hn : s.length ≤ n) (hm : s.length ≤ m) :
    F.splitAtMost n s = F.splitAtMost m s := by
  induction n generalizing m s with
  | zero =>
    cases List.length_eq_zero_iff.mp (Nat.le_zero.mp hn)
    cases m with
    | zero => rfl
    | succ m => rw [splitAtMost, splitAtMost, read_nil]
  | succ n ih =>
    cases m with
    | zero =>
      cases List.length_eq_zero_iff.mp (Nat.le_zero.mp hm)
      rw [splitAtMost, splitAtMost, read_nil]
    | succ m =>
      rw [splitAtMost, splitAtMost]
      cases hread : F.read s with
      | none => rfl
      | some r =>
        have hlt : r.2.length < s.length := length_rest_lt hread
        simp only [ih (m := m) (s := r.2) (by omega) (by omega)]

theorem split_of_read {s rest : List β} {a : α} (h : F.read s = some (a, rest)) :
    F.split s = (a :: (F.split rest).1, (F.split rest).2) := by
  have hlt := length_rest_lt h
  have hrest : F.splitAtMost s.length rest = F.split rest :=
    splitAtMost_eq (by omega) (Nat.le_refl _)
  rw [split, splitAtMost_eq (m := s.length + 1) (Nat.le_refl _) (by omega), splitAtMost, h]
  simp only [hrest]

theorem split_of_read_none {s : List β} (h : F.read s = none) : F.split s = ([], s) := by
  rw [split, splitAtMost_eq (m := s.length + 1) (Nat.le_refl _) (by omega), splitAtMost, h]

/-- Reads a stream record by record. -/
theorem split_induction {P : List β → Prop} (stop : ∀ s, F.read s = none → P s)
    (step : ∀ s a rest, F.read s = some (a, rest) → P rest → P s) (s : List β) : P s := by
  have hall : ∀ n s, s.length ≤ n → P s := by
    intro n
    induction n with
    | zero =>
      intro s hs
      cases List.length_eq_zero_iff.mp (Nat.le_zero.mp hs)
      exact stop [] read_nil
    | succ n ih =>
      intro s hs
      cases hread : F.read s with
      | none => exact stop s hread
      | some r =>
        have hlt : r.2.length < s.length := length_rest_lt hread
        exact step s r.1 r.2 hread (ih r.2 (by omega))
  exact hall s.length s (Nat.le_refl _)

theorem split_writeAll_append {as : List α} (h : ∀ a ∈ as, F.Fits a) (rest : List β) :
    F.split (F.writeAll as ++ rest) = (as ++ (F.split rest).1, (F.split rest).2) := by
  induction as with
  | nil => rfl
  | cons a as ih =>
    rw [writeAll_cons, List.append_assoc,
      split_of_read (F.read_write (h a List.mem_cons_self) _),
      ih fun b hb => h b (List.mem_cons_of_mem a hb)]
    rfl

theorem split_writeAll {as : List α} (h : ∀ a ∈ as, F.Fits a) :
    F.split (F.writeAll as) = (as, []) := by
  have hsplit := split_writeAll_append h []
  rwa [split_of_read_none read_nil, List.append_nil, List.append_nil] at hsplit

theorem eq_writeAll_split (s : List β) : s = F.writeAll (F.split s).1 ++ (F.split s).2 := by
  induction s using split_induction (F := F) with
  | stop s h => rw [split_of_read_none h, writeAll_nil, List.nil_append]
  | step s a rest h ih =>
    rw [split_of_read h, writeAll_cons, List.append_assoc, ← ih]
    exact F.eq_write_of_read h

theorem fits_of_mem_split {s : List β} : ∀ a ∈ (F.split s).1, F.Fits a := by
  induction s using split_induction (F := F) with
  | stop s h =>
    rw [split_of_read_none h]
    exact fun _ ha => nomatch ha
  | step s a rest h ih =>
    rw [split_of_read h]
    intro b hb
    obtain rfl | hb := List.mem_cons.mp hb
    · exact F.fits_of_read h
    · exact ih b hb

theorem wellFormed_iff {s : List β} : F.WellFormed s ↔ (F.split s).2 = [] := by
  constructor
  · rintro ⟨as, hfits, rfl⟩
    rw [split_writeAll hfits]
  · intro h
    refine ⟨(F.split s).1, fits_of_mem_split, ?_⟩
    have heq := F.eq_writeAll_split s
    rwa [h, List.append_nil] at heq

theorem WellFormed.nil : F.WellFormed [] := ⟨[], nofun, rfl⟩

theorem WellFormed.append_write {s : List β} {a : α} (h : F.WellFormed s) (ha : F.Fits a) :
    F.WellFormed (s ++ F.write a) := by
  obtain ⟨as, hfits, rfl⟩ := h
  refine ⟨as ++ [a], ?_, ?_⟩
  · intro b hb
    obtain hb | hb := List.mem_append.mp hb
    · exact hfits b hb
    · rwa [List.mem_singleton.mp hb]
  · rw [writeAll_append, writeAll_cons, writeAll_nil, List.append_nil]

/-- A rest at which nothing can be read adds no record. -/
theorem WellFormed.split_append {s rest : List β} (h : F.WellFormed s)
    (hread : F.read rest = none) : F.split (s ++ rest) = ((F.split s).1, rest) := by
  obtain ⟨as, hfits, rfl⟩ := h
  rw [split_writeAll_append hfits, split_writeAll hfits, split_of_read_none hread, List.append_nil]

theorem WellFormed.not_append {s rest : List β} (h : F.WellFormed s) (hread : F.read rest = none)
    (hne : rest ≠ []) : ¬ F.WellFormed (s ++ rest) := by
  rw [wellFormed_iff, h.split_append hread]
  exact hne

theorem WellFormed.split_append_write {s : List β} {a : α} (h : F.WellFormed s) (ha : F.Fits a) :
    (F.split (s ++ F.write a)).1 = (F.split s).1 ++ [a] := by
  obtain ⟨as, hfits, rfl⟩ := h
  have hread : F.read (F.write a) = some (a, []) := by
    have hwrite := F.read_write ha []
    rwa [List.append_nil] at hwrite
  rw [split_writeAll_append hfits, split_writeAll hfits, split_of_read hread,
    split_of_read_none read_nil]

end Format

end Records
