import Mathlib.Data.Finset.Card
import PowerFS.Ec.Matrix

namespace PowerFS.Ec

/-- `struct powerfs_ec_codec`. The shard counts are the parameters of the type, and
`powerfs_ec_init` never builds a codec in which one of them is zero. -/
structure EcCodec (k m : Nat) where
  gf : GfTables
  encMatrix : ByteMatrix m k
  data_pos : 0 < k
  parity_pos : 0 < m

/-- Which of the allocations of `powerfs_ec_init` succeed. -/
structure InitAlloc where
  codec : Bool
  vmatrix : Bool
  encMatrix : Bool
  deriving DecidableEq

def InitAlloc.all : InitAlloc := ⟨true, true, true⟩

/-- `powerfs_ec_init`. The sum of the shard counts is a `u32`. -/
def powerfsEcInit (alloc : InitAlloc) (k m : Nat) : Except Errno (EcCodec k m) :=
  if h : k = 0 ∨ m = 0 ∨ 255 < (k + m) % 2 ^ 32 then .error .einval
  else if !alloc.codec then .error .enomem
  else if !alloc.vmatrix then .error .enomem
  else match vandermondeToSystematic gfInit (vandermondeMatrix gfInit (k + m) k) with
    | .error e => .error e
    | .ok v =>
      if !alloc.encMatrix then .error .enomem
      else .ok
        { gf := gfInit
          encMatrix := fun p d => v (Fin.natAdd k p) d
          data_pos := by omega
          parity_pos := by omega }

abbrev Shard (size : Nat) := Fin size → UInt8

/-- `u8 **shards`: the shard buffers, data first; `none` is the null pointer. -/
abbrev Shards (n size : Nat) := Fin n → Option (Shard size)

variable {k m size : Nat}

/-- `for (i = 0; i < shard_size; i++) acc[i] ^= gf_mul(src[i], coef)`. The counter is a `u32`
while the length is a `size_t`, so from 4 GiB on the loop does not end (`none`). -/
def mulAddShard (gf : GfTables) (coef : UInt8) (src acc : Shard size) : Option (Shard size) :=
  if size < 2 ^ 32 then some fun i => acc i ^^^ gfMul gf (src i) coef else none

/-- The accumulation loop over the shards `srcs` with their coefficients: a zero coefficient
and a null shard are skipped. -/
def combineShards (gf : GfTables) (s : Shards (k + m) size) :
    List (UInt8 × Fin (k + m)) → Shard size → Option (Shard size)
  | [], acc => some acc
  | (coef, j) :: rest, acc =>
    if coef = 0 then combineShards gf s rest acc
    else match s j with
      | none => combineShards gf s rest acc
      | some src => do
        let acc ← mulAddShard gf coef src acc
        combineShards gf s rest acc

/-- Parity shard `p` computed from the data shards, starting from zeros. -/
def parityShard (codec : EcCodec k m) (s : Shards (k + m) size) (p : Fin m) :
    Option (Shard size) :=
  combineShards codec.gf s
    ((List.finRange k).map fun d => (codec.encMatrix p d, Fin.castAdd m d)) fun _ => 0

/-- What a call on the shard array leaves behind: its return code and the shards. `none` of
`Option (Outcome _ _)` is a call that does not return. -/
abbrev Outcome (n size : Nat) := Except Errno Unit × Shards n size

/-- The loop of `powerfs_ec_encode` over the parity shards. -/
def encodeLoop (codec : EcCodec k m) :
    List (Fin m) → Shards (k + m) size → Option (Outcome (k + m) size)
  | [], s => some (.ok (), s)
  | p :: ps, s =>
    if (s (Fin.natAdd k p)).isNone ∨ (s (Fin.castAdd m ⟨0, codec.data_pos⟩)).isNone then
      some (.error .einval, s)
    else do
      let parity ← parityShard codec s p
      encodeLoop codec ps (Function.update s (Fin.natAdd k p) (some parity))

/-- `powerfs_ec_encode`. -/
def powerfsEcEncode (codec : EcCodec k m) (s : Shards (k + m) size) :
    Option (Outcome (k + m) size) :=
  encodeLoop codec (List.finRange m) s

/-- `powerfs_ec_can_recover`. -/
def powerfsEcCanRecover (_codec : EcCodec k m) (available : Fin (k + m) → Bool) : Bool :=
  k ≤ (List.finRange (k + m)).countP available

/-- Which of the allocations of `powerfs_ec_decode` succeed. -/
structure DecodeAlloc (n : Nat) where
  availIndices : Bool
  missingData : Bool
  subMatrix : Bool
  invMatrix : Bool
  identity : Bool
  shard : Fin n → Bool

def DecodeAlloc.all (n : Nat) : DecodeAlloc n := ⟨true, true, true, true, true, fun _ => true⟩

/-- Rebuild the shards `js` in order, each from the shards as they are by then. A null shard
gets a buffer first; without memory for it the loop stops with `-ENOMEM`. -/
def rebuildLoop (alloc : DecodeAlloc (k + m)) {ι : Type} (at' : ι → Fin (k + m))
    (build : Shards (k + m) size → ι → Option (Shard size)) :
    List ι → Shards (k + m) size → Option (Outcome (k + m) size)
  | [], s => some (.ok (), s)
  | j :: js, s =>
    if (s (at' j)).isNone ∧ !alloc.shard (at' j) then some (.error .enomem, s)
    else do
      let shard ← build s j
      rebuildLoop alloc at' build js (Function.update s (at' j) (some shard))

/-- The loop over the missing parity shards that ends both branches of `powerfs_ec_decode`. -/
def rebuildParity (codec : EcCodec k m) (alloc : DecodeAlloc (k + m))
    (available : Fin (k + m) → Bool) (s : Shards (k + m) size) :
    Option (Outcome (k + m) size) :=
  rebuildLoop alloc (Fin.natAdd k) (parityShard codec)
    ((List.finRange m).filter fun p => !available (Fin.natAdd k p)) s

/-- Row `i` of `sub_matrix`: a unit row for a data shard, the encoding row for a parity shard. -/
def generatorRow (codec : EcCodec k m) (i : Fin (k + m)) : Fin k → UInt8 :=
  Fin.addCases (fun d c => if c = d then 1 else 0) (fun p => codec.encMatrix p) i

/-- `powerfs_ec_decode`. -/
def powerfsEcDecode (codec : EcCodec k m) (alloc : DecodeAlloc (k + m))
    (available : Fin (k + m) → Bool) (s : Shards (k + m) size) :
    Option (Outcome (k + m) size) :=
  if h : powerfsEcCanRecover codec available then
    let availIndices := (List.finRange (k + m)).filter available
    let avail : Fin k → Fin (k + m) := fun i => availIndices.get ⟨i.val, by
      simp only [powerfsEcCanRecover, decide_eq_true_eq, List.countP_eq_length_filter] at h
      exact i.isLt.trans_le h⟩
    let missing := (List.finRange k).filter fun d => !available (Fin.castAdd m d)
    if !alloc.availIndices ∨ !alloc.missingData then some (.error .enomem, s)
    else if missing = [] then rebuildParity codec alloc available s
    else if !alloc.subMatrix ∨ !alloc.invMatrix then some (.error .enomem, s)
    else match gfMatrixInvert codec.gf alloc.identity fun i => generatorRow codec (avail i) with
      | .error e => some (.error e, s)
      | .ok inv => do
        let (ret, s) ← rebuildLoop alloc (Fin.castAdd m)
          (fun s d => combineShards codec.gf s
            ((List.finRange k).map fun i => (inv d i, avail i)) fun _ => 0) missing s
        match ret with
        | .error e => some (.error e, s)
        | .ok () => rebuildParity codec alloc available s
  else some (.error .ebadmsg, s)

end PowerFS.Ec
