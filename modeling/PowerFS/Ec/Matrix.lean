import Mathlib.LinearAlgebra.Matrix.Defs
import PowerFS.Errno
import PowerFS.Ec.Gf

namespace PowerFS.Ec

/-! Matrices of `powerfs_ec.c`. A C buffer `u8 m[rows * cols]` addressed as `m[r * cols + c]`
is a matrix; every loop of the source stays inside its rows and columns. -/

abbrev ByteMatrix (rows cols : Nat) := Matrix (Fin rows) (Fin cols) UInt8

variable {rows cols : Nat}

/-- `vandermonde_matrix`: row `r`, column `c` holds `gf_pow(c, r)`. -/
def vandermondeMatrix (gf : GfTables) (rows cols : Nat) : ByteMatrix rows cols :=
  fun r c => gfPow gf (UInt8.ofNat c.val) r.val

/-- The pivot search both eliminations share: row `d` itself when its entry is not zero,
otherwise the first later row whose entry is not zero. -/
def findPivot (M : ByteMatrix rows cols) (d : Fin rows) (col : Fin cols) : Option (Fin rows) :=
  if M d col ≠ 0 then some d
  else (List.finRange rows).find? fun p => d < p ∧ M p col ≠ 0

/-- Exchange of two rows; with `a = b` nothing moves. -/
def swapRows (M : ByteMatrix rows cols) (a b : Fin rows) : ByteMatrix rows cols :=
  fun r => M (Equiv.swap a b r)

/-- Row `d` multiplied by `x` from column `first` on. -/
def scaleRow (gf : GfTables) (first : Nat) (x : UInt8) (M : ByteMatrix rows cols)
    (d : Fin rows) : ByteMatrix rows cols :=
  Function.update M d fun c => if first ≤ c.val then gfMul gf (M d c) x else M d c

/-- `M[row] ^= M[d] * coef` from column `first` on. -/
def addRow (gf : GfTables) (first : Nat) (coef : UInt8) (M : ByteMatrix rows cols)
    (d row : Fin rows) : ByteMatrix rows cols :=
  Function.update M row fun c =>
    if first ≤ c.val then M row c ^^^ gfMul gf (M d c) coef else M row c

/-- One round of the elimination loop of `vandermonde_to_systematic`. -/
def systematicEliminate (gf : GfTables) (d : Fin rows) (col : Fin cols)
    (M : ByteMatrix rows cols) (row : Fin rows) : ByteMatrix rows cols :=
  if row = d ∨ M row col = 0 then M else addRow gf col.val (M row col) M d row

/-- One round of the column loop of `vandermonde_to_systematic`; the diagonal row of column
`col` is row `col` of the first `k`. -/
def systematicColumn {k m : Nat} (gf : GfTables) (M : ByteMatrix (k + m) k) (col : Fin k) :
    Except Errno (ByteMatrix (k + m) k) :=
  let d := Fin.castAdd m col
  match findPivot M d col with
  | none => .error .einval
  | some pivot =>
    let M := swapRows M d pivot
    let M := scaleRow gf col.val (gfInv gf (M d col)) M d
    .ok ((List.finRange (k + m)).foldl (systematicEliminate gf d col) M)

/-- `vandermonde_to_systematic`. -/
def vandermondeToSystematic {k m : Nat} (gf : GfTables) (M : ByteMatrix (k + m) k) :
    Except Errno (ByteMatrix (k + m) k) :=
  (List.finRange k).foldlM (systematicColumn gf) M

/-- The working pair of `gf_matrix_invert`. -/
structure Augmented (n : Nat) where
  matrix : ByteMatrix n n
  identity : ByteMatrix n n

/-- One round of the elimination loop of `gf_matrix_invert`. -/
def invertEliminate {n : Nat} (gf : GfTables) (col : Fin n) (A : Augmented n) (row : Fin n) :
    Augmented n :=
  if row = col ∨ A.matrix row col = 0 then A
  else
    let coef := A.matrix row col
    { matrix := addRow gf 0 coef A.matrix col row
      identity := addRow gf 0 coef A.identity col row }

/-- One round of the column loop of `gf_matrix_invert`. -/
def invertColumn {n : Nat} (gf : GfTables) (A : Augmented n) (col : Fin n) :
    Except Errno (Augmented n) :=
  match findPivot A.matrix col col with
  | none => .error .einval
  | some pivot =>
    let A : Augmented n := ⟨swapRows A.matrix col pivot, swapRows A.identity col pivot⟩
    let inv := gfInv gf (A.matrix col col)
    let A : Augmented n := ⟨scaleRow gf 0 inv A.matrix col, scaleRow gf 0 inv A.identity col⟩
    .ok ((List.finRange n).foldl (invertEliminate gf col) A)

/-- `gf_matrix_invert`; `alloc` says whether the identity buffer could be allocated. -/
def gfMatrixInvert {n : Nat} (gf : GfTables) (alloc : Bool) (M : ByteMatrix n n) :
    Except Errno (ByteMatrix n n) :=
  if !alloc then .error .enomem
  else do
    let A ← (List.finRange n).foldlM (invertColumn gf)
      ⟨M, fun r c => if r = c then 1 else 0⟩
    return A.identity

theorem findPivot_zero_column {M : ByteMatrix rows cols} {col : Fin cols}
    (h : ∀ r, M r col = 0) (d : Fin rows) : findPivot M d col = none := by
  simp [findPivot, h]

theorem vandermondeToSystematic_zero_column {k m : Nat} (gf : GfTables)
    {M : ByteMatrix (k + m) k} (hk : 0 < k) (h : ∀ r, M r ⟨0, hk⟩ = 0) :
    vandermondeToSystematic gf M = .error .einval := by
  obtain ⟨k, rfl⟩ : ∃ j, k = j + 1 := ⟨k - 1, by omega⟩
  have h0 : ∀ r, M r 0 = 0 := h
  have hcol : systematicColumn gf M 0 = .error .einval := by
    simp only [systematicColumn, findPivot_zero_column h0]
  rw [vandermondeToSystematic, List.finRange_succ, List.foldlM_cons, hcol]
  rfl

/-- Column 0 of the Vandermonde matrix is the column of powers of zero, and `gf_pow` makes all
of them zero, also the one with exponent zero. -/
theorem vandermondeMatrix_column_zero (gf : GfTables) (hc : 0 < cols) (r : Fin rows) :
    vandermondeMatrix gf rows cols r ⟨0, hc⟩ = 0 := by
  simp [vandermondeMatrix]

end PowerFS.Ec
