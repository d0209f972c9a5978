import Mathlib.Algebra.Group.Nat.Defs

namespace PowerFS.Ec

/-! Arithmetic of GF(2^8) by tables, `powerfs_ec.c`. -/

/-- `struct powerfs_gf_tables`. -/
structure GfTables where
  exp : Vector UInt8 512
  log : Vector UInt8 256
  deriving DecidableEq

/-- `POWERFS_GF_POLY`: x^8 + x^4 + x^3 + x^2 + 1. -/
def gfPoly : Nat := 0x11d

/-- One round of the first loop of `gf_init`: `x` is the current power of the generator. -/
def gfInitRound (s : Nat × GfTables) (i : Nat) : Nat × GfTables :=
  let x := s.1 <<< 1
  (if x &&& 0x100 ≠ 0 then x ^^^ gfPoly else x,
    { exp := s.2.exp.setIfInBounds i (UInt8.ofNat s.1)
      log := s.2.log.setIfInBounds s.1 (UInt8.ofNat i) })

/-- The second loop of `gf_init`: `exp[i] = exp[i - 255]` for `255 ≤ i < 512`. -/
def gfExtendExp (exp : Vector UInt8 512) : Vector UInt8 512 :=
  (List.range' 255 257).foldl
    (fun e i => e.setIfInBounds i (e[i - 255]?.getD 0)) exp

/-- `gf_init` on the zeroed tables of a new codec. -/
def gfInit : GfTables :=
  let gf := ((List.range 255).foldl gfInitRound
    (1, ⟨Vector.replicate 512 0, Vector.replicate 256 0⟩)).2
  { exp := gfExtendExp gf.exp, log := gf.log.setIfInBounds 0 0 }

/-- `gf->log[a]` as a number. -/
def GfTables.logOf (gf : GfTables) (a : UInt8) : Nat := (gf.log.get a.toFin).toNat

theorem GfTables.logOf_lt (gf : GfTables) (a : UInt8) : gf.logOf a < 256 :=
  (gf.log.get a.toFin).toNat_lt

/-- `gf_mul`. -/
def gfMul (gf : GfTables) (a b : UInt8) : UInt8 :=
  if a = 0 ∨ b = 0 then 0
  else gf.exp.get ⟨gf.logOf a + gf.logOf b, by
    have ha := gf.logOf_lt a
    have hb := gf.logOf_lt b
    omega⟩

/-- `gf_inv`; the callers guarantee `a ≠ 0`. -/
def gfInv (gf : GfTables) (a : UInt8) : UInt8 :=
  gf.exp.get ⟨255 - gf.logOf a, by omega⟩

/-- `gf_pow`. The test for a zero base comes first, so `gf_pow(0, 0)` is 0. -/
def gfPow (gf : GfTables) (a : UInt8) (e : Nat) : UInt8 :=
  if a = 0 then 0
  else if e = 0 then 1
  else gf.exp.get ⟨(gf.logOf a * e % 2 ^ 32) % 255, by omega⟩

@[simp] theorem gfPow_zero_base (gf : GfTables) (e : Nat) : gfPow gf 0 e = 0 := by
  simp [gfPow]

end PowerFS.Ec
