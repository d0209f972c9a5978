import Mathlib.Tactic.Ring

/-!
# Maps of byte offsets to containers

A store keeps a byte sequence in containers of `C` bytes. A partial map `f` names the container
of an offset, and an access that starts at `s` runs on in the container of `s` up to the next
multiple of `C`. `Reaches` is the resulting relation between offsets and places, and it is one
to one exactly when `f` is constant on the blocks of `C` offsets and separates them.
-/

namespace BlockMap

variable {β : Type*} (f : ℕ → Option β) (C M : ℕ)

/-- Some access below `M` addresses the byte at `o` as byte `p.2` of container `p.1`. -/
def Reaches (o : ℕ) (p : β × ℕ) : Prop :=
  o < M ∧ p.2 = o % C ∧ ∃ s ≤ o, s / C = o / C ∧ f s = some p.1

/-- Two mapped offsets share a container exactly when they lie in one block. -/
def Exact : Prop :=
  ∀ s t, s < M → t < M → ∀ a b, f s = some a → f t = some b → (a = b ↔ s / C = t / C)

variable {f C M}

theorem same_block_of_fits {s o : ℕ} (hso : s ≤ o) (hfits : s % C + (o - s) < C) :
    s / C = o / C := by
  have hsum : o = C * (s / C) + (s % C + (o - s)) := by
    have := Nat.div_add_mod s C
    omega
  rw [hsum, Nat.mul_add_div (by omega), Nat.div_eq_of_lt hfits, Nat.add_zero]

theorem mod_of_same_block {s o : ℕ} (hso : s ≤ o) (hblock : s / C = o / C) :
    o % C = s % C + (o - s) := by
  have hs := Nat.div_add_mod s C
  have ho := Nat.div_add_mod o C
  rw [hblock] at hs
  omega

theorem lastByte_lt (hC : 0 < C) (hM : C ∣ M) {s : ℕ} (hs : s < M) :
    s / C * C + (C - 1) < M := by
  obtain ⟨w, rfl⟩ := hM
  have hlt : s / C < w := Nat.div_lt_of_lt_mul hs
  calc s / C * C + (C - 1) < s / C * C + C := by omega
    _ = (s / C + 1) * C := by ring
    _ ≤ w * C := Nat.mul_le_mul_right C hlt
    _ = C * w := Nat.mul_comm w C

theorem reaches_lastByte (hC : 0 < C) (hM : C ∣ M) {s : ℕ} (hs : s < M) {a : β}
    (ha : f s = some a) : Reaches f C M (s / C * C + (C - 1)) (a, C - 1) := by
  have hlast : C - 1 < C := by omega
  have hdiv : (s / C * C + (C - 1)) / C = s / C := by
    rw [Nat.mul_comm, Nat.mul_add_div hC, Nat.div_eq_of_lt hlast, Nat.add_zero]
  have hmod : (s / C * C + (C - 1)) % C = C - 1 := by
    rw [Nat.mul_comm, Nat.mul_add_mod, Nat.mod_eq_of_lt hlast]
  refine ⟨lastByte_lt hC hM hs, hmod.symm, s, ?_, hdiv.symm, ha⟩
  have hs' := Nat.div_add_mod s C
  have hlt := Nat.mod_lt s hC
  rw [Nat.mul_comm] at hs'
  omega

theorem reaches_of_le {s o : ℕ} {a : β} (ho : o < M) (hso : s ≤ o) (hb : s / C = o / C)
    (ha : f s = some a) : Reaches f C M o (a, o % C) :=
  ⟨ho, rfl, s, hso, hb, ha⟩

/-- Places are used by one offset only, and offsets use one place only, exactly when the map
is exact. -/
theorem biUnique_iff_exact (hC : 0 < C) (hM : C ∣ M) :
    Relator.BiUnique (Reaches f C M) ↔ Exact f C M := by
  constructor
  · rintro ⟨hleft, hright⟩ s t hs ht a b ha hb
    constructor
    · rintro rfl
      -- both blocks end at byte `C - 1` of the shared container
      have heq := hleft (reaches_lastByte hC hM hs ha) (reaches_lastByte hC hM ht hb)
      have hmul : s / C * C = t / C * C := by omega
      exact Nat.eq_of_mul_eq_mul_right hC hmul
    · intro hblock
      -- the later of the two offsets is reached from both
      rcases le_total s t with hst | hts
      · have h := hright (reaches_of_le ht hst hblock ha) (reaches_of_le ht le_rfl rfl hb)
        exact congrArg Prod.fst h
      · have h := hright (reaches_of_le hs le_rfl rfl ha) (reaches_of_le hs hts hblock.symm hb)
        exact congrArg Prod.fst h
  · intro hexact
    refine ⟨?_, ?_⟩
    · rintro o o' ⟨a, x⟩ ⟨ho, hx, s, hs, hsb, ha⟩ ⟨ho', hx', t, ht, htb, hb⟩
      have hblock := (hexact s t (by omega) (by omega) a a ha hb).mp rfl
      have hdiv : o / C = o' / C := by rw [← hsb, ← htb, hblock]
      have hmod : o % C = o' % C := hx.symm.trans hx'
      rw [← Nat.div_add_mod o C, ← Nat.div_add_mod o' C, hdiv, hmod]
    · rintro o ⟨a, x⟩ ⟨b, y⟩ ⟨ho, hx, s, hs, hsb, ha⟩ ⟨-, hy, t, ht, htb, hb⟩
      have hab := (hexact s t (by omega) (by omega) a b ha hb).mpr (hsb.trans htb.symm)
      exact Prod.ext hab (hx.trans hy.symm)

end BlockMap
