import Mathlib.Tactic.Ring

/-!
# Round robin striping

A byte sequence is cut into units of `unit` bytes, the units go to `width` devices in turn, and
a device numbers its bytes in chunks of `chunk` bytes. `rank` is the device of an offset and
`index` its chunk number there. For containers of `C` bytes, `Aligned` is the exact condition
under which (device label, chunk number) tells the blocks of `C` offsets apart and nothing
more, for the offsets below `M`.
-/

namespace Striping

/-- The parameters of a striped sequence. -/
structure Geometry where
  unit : ℕ
  chunk : ℕ
  width : ℕ
  unit_pos : 0 < unit
  chunk_pos : 0 < chunk
  width_pos : 0 < width

namespace Geometry

variable (g : Geometry) {α : Type*} (label : ℕ → α) (C M : ℕ)

def perUnit : ℕ := max 1 (g.unit / g.chunk)

/-- The device of offset `o`. -/
def rank (o : ℕ) : ℕ := o / g.unit % g.width

/-- The chunk number of offset `o` on its device. -/
def index (o : ℕ) : ℕ := o / g.unit / g.width * g.perUnit + o % g.unit / g.chunk

/-- Label of the device and chunk number. -/
def place (o : ℕ) : α × ℕ := (label (g.rank o), g.index o)

/-- Offsets share a place exactly when they share a block of `C` bytes. -/
def Separates : Prop :=
  ∀ s t, s < M → t < M → (g.place label s = g.place label t ↔ s / C = t / C)

/-- The condition. With several chunks in a unit the chunk is the block, units are whole blocks
(unless the second one starts too late) and devices in use have different labels. With one chunk in
a unit a block is a run of `C / unit` units, and exactly the devices of one run share a label. -/
def Aligned : Prop :=
  if g.chunk < g.unit then
    g.chunk = C ∧ (C ∣ g.unit ∨ M ≤ g.unit ∨ (g.width = 1 ∧ M < g.unit + C)) ∧
      ∀ i j, i < g.width → j < g.width → i * g.unit < M → j * g.unit < M →
        label i = label j → i = j
  else
    g.unit ∣ C ∧ C / g.unit ∣ g.width ∧
      ∀ i j, i < g.width → j < g.width →
        (label i = label j ↔ i / (C / g.unit) = j / (C / g.unit))

variable {g label C M}

theorem perUnit_of_le (h : g.unit ≤ g.chunk) : g.perUnit = 1 := by
  have hdiv : g.unit / g.chunk ≤ 1 := by
    calc g.unit / g.chunk ≤ g.chunk / g.chunk := Nat.div_le_div_right h
      _ = 1 := Nat.div_self g.chunk_pos
  exact max_eq_left hdiv

theorem perUnit_of_lt (h : g.chunk < g.unit) : g.perUnit = g.unit / g.chunk :=
  max_eq_right (Nat.div_pos h.le g.chunk_pos)

theorem perUnit_le_unit : g.perUnit ≤ g.unit :=
  max_le g.unit_pos (Nat.div_le_self _ _)

theorem index_le (o : ℕ) : g.index o ≤ o := by
  calc g.index o ≤ o / g.unit * g.unit + o % g.unit :=
        Nat.add_le_add (Nat.mul_le_mul (Nat.div_le_self _ _) perUnit_le_unit)
          (Nat.div_le_self _ _)
    _ = o := Nat.div_add_mod' o g.unit

theorem place_of_lt {o : ℕ} (h : o < g.unit) : g.place label o = (label 0, o / g.chunk) := by
  simp [place, rank, index, Nat.div_eq_of_lt h, Nat.mod_eq_of_lt h]

theorem place_unit_start {i : ℕ} (h : i < g.width) :
    g.place label (i * g.unit) = (label i, 0) := by
  simp [place, rank, index, Nat.mul_div_cancel i g.unit_pos, Nat.mod_eq_of_lt h,
    Nat.div_eq_of_lt h]

/-! ### One chunk in a unit -/

theorem index_of_le (h : g.unit ≤ g.chunk) (o : ℕ) : g.index o = o / g.unit / g.width := by
  have hmod : o % g.unit < g.chunk := (Nat.mod_lt o g.unit_pos).trans_le h
  simp [index, perUnit_of_le h, Nat.div_eq_of_lt hmod]

theorem separates_of_le (h : g.unit ≤ g.chunk) (hdvd : g.unit ∣ C)
    (hwidth : C / g.unit ∣ g.width)
    (hlabel : ∀ i j, i < g.width → j < g.width →
      (label i = label j ↔ i / (C / g.unit) = j / (C / g.unit))) :
    g.Separates label C M := by
  intro s t _ _
  obtain ⟨r, hr⟩ := hdvd
  have hrun : C / g.unit = r := by rw [hr, Nat.mul_div_cancel_left r g.unit_pos]
  rw [hrun] at hwidth hlabel
  obtain ⟨w, hw⟩ := hwidth
  -- with `v = o / C` the rank's run is `v % w` and the index is `v / w`
  have hrank : ∀ o, g.rank o / r = o / C % w := fun o => by
    rw [rank, hw, Nat.mod_mul_right_div_self, Nat.div_div_eq_div_mul, hr]
  have hindex : ∀ o, g.index o = o / C / w := fun o => by
    rw [index_of_le h, hw, ← Nat.div_div_eq_div_mul, Nat.div_div_eq_div_mul o, ← hr]
  have hlt : ∀ o, g.rank o < g.width := fun o => Nat.mod_lt _ g.width_pos
  rw [place, place, Prod.mk.injEq, hlabel _ _ (hlt s) (hlt t), hrank, hrank, hindex, hindex]
  constructor
  · rintro ⟨hmod, hdiv⟩
    rw [← Nat.div_add_mod (s / C) w, ← Nat.div_add_mod (t / C) w, hdiv, hmod]
  · intro hv
    rw [hv]
    exact ⟨rfl, rfl⟩

theorem aligned_of_separates_of_le (h : g.unit ≤ g.chunk) (hC : 0 < C) (hCM : C < M)
    (hwidth : g.width * C < M) (hsep : g.Separates label C M) :
    g.unit ∣ C ∧ C / g.unit ∣ g.width ∧
      ∀ i j, i < g.width → j < g.width →
        (label i = label j ↔ i / (C / g.unit) = j / (C / g.unit)) := by
  have hplace : ∀ o, g.place label o = (label (o / g.unit % g.width), o / g.unit / g.width) :=
    fun o => by rw [place, index_of_le h, rank]
  -- offsets `C - 1` and `C` lie in different blocks, hence in different units
  have hdvd : g.unit ∣ C := by
    by_contra hnd
    have hunit : (C - 1) / g.unit = C / g.unit := by
      have hsucc := Nat.succ_div_of_not_dvd (a := C - 1) (b := g.unit)
        (by rwa [Nat.sub_add_cancel hC])
      rw [Nat.sub_add_cancel hC] at hsucc
      exact hsucc.symm
    have hsame : g.place label (C - 1) = g.place label C := by rw [hplace, hplace, hunit]
    have hblock := (hsep (C - 1) C (by omega) hCM).mp hsame
    rw [Nat.div_self hC, Nat.div_eq_of_lt (by omega)] at hblock
    omega
  obtain ⟨r, hr⟩ := hdvd
  have hr0 : 0 < r := Nat.pos_of_ne_zero fun h0 => by simp [h0] at hr; omega
  have hrun : C / g.unit = r := by rw [hr, Nat.mul_div_cancel_left r g.unit_pos]
  have hunitC : g.unit ≤ C := Nat.le_of_dvd hC ⟨r, hr⟩
  have hblock : ∀ u, u * g.unit / C = u / r := fun u => by
    rw [hr, ← Nat.div_div_eq_div_mul, Nat.mul_div_cancel u g.unit_pos]
  have hlt : ∀ u ≤ g.width, u * g.unit < M := fun u hu =>
    (Nat.mul_le_mul hu hunitC).trans_lt hwidth
  refine ⟨⟨r, hr⟩, ?_, ?_⟩
  · -- the last unit of round 0 and the first of round 1 are in different blocks
    rw [hrun]
    by_contra hnd
    have hpos := g.width_pos
    have hsucc := Nat.succ_div_of_not_dvd (a := g.width - 1) (b := r)
      (by rwa [Nat.sub_add_cancel hpos])
    rw [Nat.sub_add_cancel hpos] at hsucc
    have hsame := (hsep ((g.width - 1) * g.unit) (g.width * g.unit) (hlt _ (by omega))
      (hlt _ le_rfl)).mpr (by rw [hblock, hblock, hsucc])
    rw [hplace, hplace, Nat.mul_div_cancel _ g.unit_pos, Nat.mul_div_cancel _ g.unit_pos] at hsame
    have hidx := congrArg Prod.snd hsame
    simp only [Nat.div_self hpos, Nat.div_eq_of_lt (Nat.sub_lt hpos Nat.one_pos)] at hidx
    omega
  · intro i j hi hj
    rw [hrun, ← hblock i, ← hblock j, ← hsep _ _ (hlt i hi.le) (hlt j hj.le),
      place_unit_start hi, place_unit_start hj, Prod.mk.injEq]
    exact ⟨fun hl => ⟨hl, rfl⟩, fun hl => hl.1⟩

/-! ### Units of whole chunks -/

theorem perUnit_pos : 0 < g.perUnit := le_max_left 1 _

theorem unit_eq_of_dvd (hdvd : g.chunk ∣ g.unit) : g.unit = g.chunk * g.perUnit := by
  have hpos : 0 < g.unit / g.chunk :=
    Nat.div_pos (Nat.le_of_dvd g.unit_pos hdvd) g.chunk_pos
  rw [perUnit, max_eq_right hpos, Nat.mul_div_cancel' hdvd]

theorem rank_of_dvd (hdvd : g.chunk ∣ g.unit) (o : ℕ) :
    g.rank o = o / g.chunk / g.perUnit % g.width := by
  rw [rank, unit_eq_of_dvd hdvd, Nat.div_div_eq_div_mul]

theorem index_of_dvd (hdvd : g.chunk ∣ g.unit) (o : ℕ) :
    g.index o = g.perUnit * (o / g.chunk / g.perUnit / g.width) + o / g.chunk % g.perUnit := by
  rw [index, unit_eq_of_dvd hdvd, Nat.mod_mul_right_div_self, ← Nat.div_div_eq_div_mul,
    Nat.mul_comm]

variable (g) in
/-- The chunk of the sequence that is chunk `n` of device `r`. -/
def chunkAt (r n : ℕ) : ℕ := (n / g.perUnit * g.width + r) * g.perUnit + n % g.perUnit

/-- `chunkAt` is the inverse of `rank` and `index`. -/
theorem rank_index_iff (hdvd : g.chunk ∣ g.unit) {o r n : ℕ} (hr : r < g.width) :
    g.rank o = r ∧ g.index o = n ↔ o / g.chunk = g.chunkAt r n := by
  have hper : 0 < g.perUnit := perUnit_pos
  rw [rank_of_dvd hdvd, index_of_dvd hdvd, chunkAt]
  generalize o / g.chunk = c
  constructor
  · rintro ⟨rfl, rfl⟩
    have hmod : c % g.perUnit < g.perUnit := Nat.mod_lt _ hper
    rw [Nat.mul_add_div hper, Nat.div_eq_of_lt hmod, Nat.mul_add_mod, Nat.mod_mod, Nat.add_zero,
      Nat.div_add_mod', Nat.div_add_mod']
  · rintro rfl
    have hmod : n % g.perUnit < g.perUnit := Nat.mod_lt _ hper
    have hunit : ((n / g.perUnit * g.width + r) * g.perUnit + n % g.perUnit) / g.perUnit
        = g.width * (n / g.perUnit) + r := by
      rw [Nat.mul_comm, Nat.mul_add_div hper, Nat.div_eq_of_lt hmod, Nat.add_zero, Nat.mul_comm]
    have hin : ((n / g.perUnit * g.width + r) * g.perUnit + n % g.perUnit) % g.perUnit
        = n % g.perUnit := by
      rw [Nat.mul_comm, Nat.mul_add_mod, Nat.mod_mod]
    rw [hunit, hin, Nat.mul_add_mod, Nat.mod_eq_of_lt hr, Nat.mul_add_div g.width_pos,
      Nat.div_eq_of_lt hr, Nat.add_zero, Nat.div_add_mod]
    exact ⟨rfl, rfl⟩

theorem rank_lt (o : ℕ) : g.rank o < g.width := Nat.mod_lt _ g.width_pos

/-- Offsets have the same device and chunk number exactly when they are in one chunk. -/
theorem rank_index_eq_iff (hdvd : g.chunk ∣ g.unit) {s t : ℕ} :
    g.rank s = g.rank t ∧ g.index s = g.index t ↔ s / g.chunk = t / g.chunk := by
  rw [rank_index_iff hdvd (rank_lt t), ← (rank_index_iff hdvd (rank_lt t)).mp ⟨rfl, rfl⟩]

/-! ### Several chunks in a unit -/

theorem separates_of_dvd (hchunk : g.chunk = C) (hdvd : C ∣ g.unit)
    (hlabel : ∀ i j, i < g.width → j < g.width → i * g.unit < M → j * g.unit < M →
      label i = label j → i = j) :
    g.Separates label C M := by
  intro s t hs ht
  have hused : ∀ o < M, g.rank o * g.unit < M := fun o ho =>
    calc g.rank o * g.unit ≤ o / g.unit * g.unit := Nat.mul_le_mul_right _ (Nat.mod_le _ _)
      _ ≤ o := Nat.div_mul_le_self _ _
      _ < M := ho
  rw [place, place, Prod.mk.injEq, ← hchunk, ← rank_index_eq_iff (hchunk ▸ hdvd)]
  constructor
  · rintro ⟨hlab, hidx⟩
    exact ⟨hlabel _ _ (rank_lt s) (rank_lt t) (hused s hs) (hused t ht) hlab, hidx⟩
  · rintro ⟨hrank, hidx⟩
    exact ⟨by rw [hrank], hidx⟩

theorem place_second_unit {o : ℕ} (h : g.chunk < g.unit) (hwidth : g.width = 1)
    (hlo : g.unit ≤ o) (hhi : o < g.unit + g.chunk) :
    g.place label o = (label 0, g.perUnit) := by
  have hdiv : o / g.unit = 1 := by
    rw [Nat.div_eq_iff g.unit_pos]
    omega
  have hmod : o % g.unit / g.chunk = 0 := by
    rw [Nat.mod_eq_sub_mod hlo]
    exact Nat.div_eq_of_lt ((Nat.mod_le _ _).trans_lt (by omega))
  simp [place, rank, index, hwidth, hdiv, hmod]

/-- When only the first unit matters, and the second at most completes the last block, the
place is the block number. -/
theorem separates_of_late (h : g.chunk < g.unit) (hchunk : g.chunk = C) (hM : C ∣ M)
    (hCM : 2 * C ≤ M) (hlate : M ≤ g.unit ∨ (g.width = 1 ∧ M < g.unit + C)) :
    g.Separates label C M := by
  have hC : 0 < C := hchunk ▸ g.chunk_pos
  have hplace : ∀ o < M, g.place label o = (label 0, o / C) := by
    intro o ho
    by_cases hunit : o < g.unit
    · rw [place_of_lt hunit, hchunk]
    · obtain ⟨hwidth, hlast⟩ : g.width = 1 ∧ M < g.unit + C := by
        rcases hlate with hle | hlate
        · omega
        · exact hlate
      -- `unit` and `o` both lie in the last block below `M`
      have hblock : g.unit / C = o / C := by
        obtain ⟨w, rfl⟩ := hM
        have hw : 0 < w := Nat.pos_of_ne_zero fun h0 => by simp [h0] at ho
        have hprod : C * w = C * (w - 1) + C := by
          rw [← Nat.mul_succ, Nat.succ_eq_add_one, Nat.sub_add_cancel hw]
        have hfloor : ∀ x, C * (w - 1) ≤ x → x < C * w → x / C = w - 1 := fun x hlo hhi => by
          rw [Nat.div_eq_iff hC, Nat.mul_comm]
          omega
        rw [hfloor g.unit (by omega) (by omega), hfloor o (by omega) ho]
      rw [place_second_unit h hwidth (by omega) (by omega), perUnit_of_lt h, hchunk, hblock]
  intro s t hs ht
  rw [hplace s hs, hplace t ht, Prod.mk.injEq]
  exact ⟨fun hp => hp.2, fun hb => ⟨rfl, hb⟩⟩

/-- The chunk cannot be shorter than a block, nor longer. -/
theorem chunk_eq_of_separates (h : g.chunk < g.unit) (hC : 0 < C) (hCM : C < M)
    (hcM : g.chunk < M) (hsep : g.Separates label C M) : g.chunk = C := by
  have hzero : g.place label 0 = (label 0, 0) := by
    rw [place_of_lt g.unit_pos, Nat.zero_div]
  have hge : C ≤ g.chunk := by
    by_contra hlt
    have hsame := (hsep 0 g.chunk (by omega) hcM).mpr
      (by rw [Nat.zero_div, Nat.div_eq_of_lt (by omega)])
    rw [hzero, place_of_lt h, Nat.div_self g.chunk_pos] at hsame
    simp at hsame
  by_contra hne
  have hsame : g.place label 0 = g.place label C := by
    rw [hzero, place_of_lt (show C < g.unit by omega), Nat.div_eq_of_lt (by omega)]
  have hblock := (hsep 0 C (by omega) hCM).mp hsame
  rw [Nat.zero_div, Nat.div_self hC] at hblock
  omega

/-- On a single device the first chunk of the second unit would straddle a block boundary. -/
theorem late_of_separates (h : g.chunk < g.unit) (hchunk : g.chunk = C) (hC : 0 < C)
    (hsep : g.Separates label C M) (hnd : ¬ C ∣ g.unit) (hunitM : g.unit < M)
    (hwidth : g.width = 1) : M < g.unit + C := by
  by_contra hroom
  have hrem : g.unit % C ≠ 0 := fun h0 => hnd (Nat.dvd_of_mod_eq_zero h0)
  have hsplit := Nat.div_add_mod g.unit C
  have hmodlt := Nat.mod_lt g.unit hC
  have hb : C * (g.unit / C + 1) = C * (g.unit / C) + C := Nat.mul_succ _ _
  have hsame : g.place label g.unit = g.place label (C * (g.unit / C + 1)) := by
    rw [place_second_unit h hwidth le_rfl (by omega),
      place_second_unit h hwidth (by omega) (by omega)]
  have hblock := (hsep _ _ hunitM (by omega)).mp hsame
  rw [Nat.mul_div_cancel_left _ hC] at hblock
  omega

/-- On several devices a block that the second unit cuts would lie on two of them. -/
theorem width_eq_one_of_separates (hchunk : g.chunk = C) (hsep : g.Separates label C M)
    (h : g.chunk < g.unit) (hnd : ¬ C ∣ g.unit) (hunitM : g.unit < M) : g.width = 1 := by
  by_contra hwidth
  have hpos := g.unit_pos
  have hcpos := g.chunk_pos
  have hw2 : 1 < g.width := by
    have := g.width_pos
    omega
  have hsucc := Nat.succ_div_of_not_dvd (a := g.unit - 1) (b := C)
    (by rwa [Nat.sub_add_cancel hpos])
  rw [Nat.sub_add_cancel hpos] at hsucc
  have hsame := (hsep (g.unit - 1) g.unit (by omega) hunitM).mpr hsucc.symm
  have hone : g.place label g.unit = (label 1, 0) := by
    rw [← place_unit_start hw2, Nat.one_mul]
  rw [place_of_lt (by omega), hone, Prod.mk.injEq, Nat.div_eq_zero_iff] at hsame
  omega

/-- Units start in different blocks, so devices in use have different labels. -/
theorem label_injective_of_separates (h : C < g.unit) (hC : 0 < C)
    (hsep : g.Separates label C M) {i j : ℕ} (hi : i < g.width) (hj : j < g.width)
    (hiM : i * g.unit < M) (hjM : j * g.unit < M) (hlabel : label i = label j) : i = j := by
  have hsame : g.place label (i * g.unit) = g.place label (j * g.unit) := by
    rw [place_unit_start hi, place_unit_start hj, hlabel]
  have hblock := (hsep _ _ hiM hjM).mp hsame
  have hmono : ∀ a b, a < b → a * g.unit / C < b * g.unit / C := fun a b hab => by
    have hstep : a * g.unit + C ≤ b * g.unit :=
      calc a * g.unit + C ≤ a * g.unit + g.unit := by omega
        _ = (a + 1) * g.unit := by ring
        _ ≤ b * g.unit := Nat.mul_le_mul_right _ hab
    calc a * g.unit / C < a * g.unit / C + 1 := Nat.lt_succ_self _
      _ = (a * g.unit + C) / C := (Nat.add_div_right _ hC).symm
      _ ≤ b * g.unit / C := Nat.div_le_div_right hstep
  rcases lt_trichotomy i j with hij | hij | hij
  · exact absurd hblock (hmono i j hij).ne
  · exact hij
  · exact absurd hblock (hmono j i hij).ne'

theorem aligned_of_separates_of_lt (h : g.chunk < g.unit) (hC : 0 < C) (hCM : C < M)
    (hcM : g.chunk < M) (hsep : g.Separates label C M) :
    g.chunk = C ∧ (C ∣ g.unit ∨ M ≤ g.unit ∨ (g.width = 1 ∧ M < g.unit + C)) ∧
      ∀ i j, i < g.width → j < g.width → i * g.unit < M → j * g.unit < M →
        label i = label j → i = j := by
  have hchunk := chunk_eq_of_separates h hC hCM hcM hsep
  refine ⟨hchunk, ?_, fun i j hi hj hiM hjM hlabel =>
    label_injective_of_separates (hchunk ▸ h) hC hsep hi hj hiM hjM hlabel⟩
  by_cases hdvd : C ∣ g.unit
  · exact .inl hdvd
  · by_cases hunitM : M ≤ g.unit
    · exact .inr (.inl hunitM)
    · rw [not_le] at hunitM
      have hwidth := width_eq_one_of_separates hchunk hsep h hdvd hunitM
      exact .inr (.inr ⟨hwidth, late_of_separates h hchunk hC hsep hdvd hunitM hwidth⟩)

/-- The alignment condition is exact. -/
theorem separates_iff_aligned (hC : 0 < C) (hM : C ∣ M) (hCM : 2 * C ≤ M) (hcM : g.chunk < M)
    (hwidth : g.width * C < M) : g.Separates label C M ↔ g.Aligned label C M := by
  by_cases h : g.chunk < g.unit
  · rw [Aligned, if_pos h]
    constructor
    · exact aligned_of_separates_of_lt h hC (by omega) hcM
    · rintro ⟨hchunk, hdvd | hlate, hlabel⟩
      · exact separates_of_dvd hchunk hdvd hlabel
      · exact separates_of_late h hchunk hM hCM hlate
  · rw [Aligned, if_neg h]
    rw [not_lt] at h
    constructor
    · exact aligned_of_separates_of_le h hC (by omega) hwidth
    · rintro ⟨hdvd, hdw, hlabel⟩
      exact separates_of_le h hdvd hdw hlabel

end Geometry

end Striping
