import PowerFS.Layout.Inode

namespace PowerFS.Layout

/-! `powerfs_migrate_inline_out` of `powerfs_addr.c`: the inline payload goes to a volume and the
inode takes the layout of the reply. -/

/-- The (volume, base needle) pairs of a Stripe reply. `powerfs_net_migrate_inline_alloc` accepts
between 1 and 16 of them. -/
def StripeUnits := { units : List (UInt64 × UInt64) // units ≠ [] ∧ units.length ≤ 16 }

namespace StripeUnits

variable (units : StripeUnits)

def first : UInt64 × UInt64 := units.val.head units.property.1

def volumes : Counted UInt64 :=
  ⟨units.val.map (·.1), by
    rw [List.length_map]
    exact Nat.lt_of_le_of_lt units.property.2 (by decide)⟩

def keys : List UInt64 := units.val.map (·.2)

end StripeUnits

/-- `struct powerfs_migrate_alloc_result`. -/
inductive MigrateAlloc where
  | flat (volumeId fileKey : UInt64)
  | stripe (stripeSize : UInt64) (units : StripeUnits)

/-- Volume and needle the payload is written to. -/
def MigrateAlloc.target : MigrateAlloc → UInt64 × UInt64
  | .flat volumeId fileKey => (volumeId, fileKey)
  | .stripe _ units => units.first

/-- The switch of the inode after the payload was written. `arrays` is whether the two stripe
arrays could be allocated; without them the first unit becomes a Flat layout. -/
def switchLayout (arrays : Bool) (pi : Inode) (alloc : MigrateAlloc) : Inode :=
  let pi :=
    { pi with
      volumeId := alloc.target.1
      fileKey := alloc.target.2
      layoutChunkSize := UInt32.ofNat chunkSize
      inlineData := none
      inlineDirty := false }
  match alloc with
  | .flat _ _ => { pi with placement := .flat }
  | .stripe stripeSize units =>
    if arrays then
      { pi with
        placement := .stripe
        volumeIds := some units.volumes
        stripeNeedleKeys := some units.keys
        stripeSize := stripeSize
        stripeCount := UInt32.ofNat units.val.length }
    else { pi with placement := .flat, volumeIds := none, stripeNeedleKeys := none }

/-- What a migration gets from outside: memory for the snapshot, the reply of the Filer, the
result of the write to the volume, and memory for the stripe arrays. -/
structure MigrateEnv where
  snapshot : Bool
  reply : Except Errno MigrateAlloc
  write : Except Errno Unit
  arrays : Bool

/-- `powerfs_migrate_inline_out`, with nothing else running on the inode. A failure leaves the
inode as it was. -/
def migrateInlineOut (env : MigrateEnv) (pi : Inode) : Except Errno Inode :=
  match pi.inlineData with
  | none | some [] => .error .einval
  | some _ =>
    if !env.snapshot then .error .enomem
    else do
      let alloc ← env.reply
      env.write
      return switchLayout env.arrays pi alloc

theorem migrateInlineOut_eq_ok {env : MigrateEnv} {pi pi' : Inode}
    (h : migrateInlineOut env pi = .ok pi') :
    ∃ data alloc, pi.inlineData = some data ∧ data ≠ [] ∧ env.reply = .ok alloc ∧
      env.write = .ok () ∧ pi' = switchLayout env.arrays pi alloc := by
  rcases env with ⟨snapshot, reply, write, arrays⟩
  rcases hdata : pi.inlineData with _ | _ | ⟨byte, data⟩
  · simp [migrateInlineOut, hdata] at h
  · simp [migrateInlineOut, hdata] at h
  · cases snapshot with
    | false => simp [migrateInlineOut, hdata] at h
    | true =>
      cases reply with
      | error err => simp [migrateInlineOut, hdata, bind, Except.bind] at h
      | ok alloc =>
        cases write with
        | error err => simp [migrateInlineOut, hdata, bind, Except.bind] at h
        | ok =>
          simp [migrateInlineOut, hdata, bind, Except.bind, pure, Except.pure] at h
          exact ⟨_, alloc, rfl, List.cons_ne_nil _ _, rfl, rfl, h.symm⟩

end PowerFS.Layout
