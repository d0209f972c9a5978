import PowerFS.Ec.Codec

namespace PowerFS.Ec

variable {k m size : Nat}

/-- The shard array handed to `powerfs_ec_encode`: the data, then parity buffers holding
whatever was in memory. -/
def stripe (data : Fin k → Shard size) (buffers : Fin m → Shard size) : Shards (k + m) size :=
  Fin.addCases (fun d => some (data d)) (fun p => some (buffers p))

/-- With every allocation succeeding, the codec exists, and encoding any data, losing at most `m`
shards (their slots then hold anything) and decoding gives back all shards. -/
def Recovers (k m : Nat) : Prop :=
  ∃ codec, powerfsEcInit .all k m = .ok codec ∧
    ∀ size < 2 ^ 64, ∀ (data : Fin k → Shard size) (buffers : Fin m → Shard size)
      (lost : Finset (Fin (k + m))), lost.card ≤ m →
      ∃ enc, powerfsEcEncode codec (stripe data buffers) = some (.ok (), enc) ∧
        (∀ d, enc (Fin.castAdd m d) = some (data d)) ∧
        ∀ rest : Shards (k + m) size, (∀ i ∉ lost, rest i = enc i) →
          powerfsEcDecode codec (.all _) (fun i => i ∉ lost) rest = some (.ok (), enc)

/-- `powerfs_ec_init` always returns an error: a check refuses the counts, or memory is short, or
the elimination stops at the zero column 0 of the Vandermonde matrix. -/
theorem powerfsEcInit_ne_ok (alloc : InitAlloc) (codec : EcCodec k m) :
    powerfsEcInit alloc k m ≠ .ok codec := by
  intro h
  have hk := codec.data_pos
  have hsys : vandermondeToSystematic gfInit (vandermondeMatrix gfInit (k + m) k)
      = .error .einval :=
    vandermondeToSystematic_zero_column gfInit hk (vandermondeMatrix_column_zero gfInit hk)
  simp only [powerfsEcInit, hsys] at h
  split at h
  · cases h
  · split at h
    · cases h
    · split at h <;> cases h

/-- With memory to spare and counts in range the error is `-EINVAL`. -/
theorem powerfsEcInit_all (hk : 1 ≤ k) (hm : 1 ≤ m) (hkm : k + m ≤ 255) :
    powerfsEcInit .all k m = .error .einval := by
  have hsys : vandermondeToSystematic gfInit (vandermondeMatrix gfInit (k + m) k)
      = .error .einval :=
    vandermondeToSystematic_zero_column gfInit hk (vandermondeMatrix_column_zero gfInit hk)
  have hchecks : ¬(k = 0 ∨ m = 0 ∨ 255 < (k + m) % 2 ^ 32) := by omega
  simp only [powerfsEcInit, dif_neg hchecks, hsys]
  rfl

/-- No choice of shard counts gives an erasure code that recovers. -/
theorem recovers_never (k m : Nat) (hk : 1 ≤ k) (hm : 1 ≤ m) (hkm : k + m ≤ 255) :
    powerfsEcInit .all k m = .error .einval ∧ ¬Recovers k m := by
  refine ⟨powerfsEcInit_all hk hm hkm, ?_⟩
  rintro ⟨codec, hinit, -⟩
  exact powerfsEcInit_ne_ok _ codec hinit

/-- The smallest code, one data and one parity shard. -/
theorem recovers_never_one_one :
    (1 ≤ 1 ∧ 1 + 1 ≤ 255) ∧ powerfsEcInit .all 1 1 = .error .einval ∧ ¬Recovers 1 1 :=
  ⟨by decide, recovers_never 1 1 le_rfl le_rfl (by decide)⟩

/-- The codec promised for every pair of counts is already missing for four data and two parity
shards. -/
theorem not_recovers_all :
    ¬∀ k m, 1 ≤ k → 1 ≤ m → k + m ≤ 255 → Recovers k m := by
  intro h
  obtain ⟨codec, hinit, -⟩ := h 4 2 (by decide) (by decide) (by decide)
  exact powerfsEcInit_ne_ok _ codec hinit

end PowerFS.Ec
