import PowerFS.Errno

namespace PowerFS.Caps

/-! Capabilities of an inode, `powerfs.h` and `powerfs_caps.c`. Times are jiffies; `lease` is
`POWERFS_LEASE_DURATION`. An inode has at most one capability: every caller of
`add_cap_for_inode_locked` passes issuer 0, and `i_snap_caps` stays 0. -/

/-- An `unsigned int` of capability bits. -/
abbrev CapMask := BitVec 32

def capPin : CapMask := 1#32 <<< 0
def capAuthShared : CapMask := 1#32 <<< 1
def capAuthExcl : CapMask := 1#32 <<< 2
def capLinkShared : CapMask := 1#32 <<< 3
def capXattrShared : CapMask := 1#32 <<< 4
def capXattrExcl : CapMask := 1#32 <<< 5
def capFileShared : CapMask := 1#32 <<< 6
def capFileCache : CapMask := 1#32 <<< 7
def capFileWr : CapMask := 1#32 <<< 8
def capFileExcl : CapMask := 1#32 <<< 9

/-- `POWERFS_CAP_WR_DATA`. -/
def capWrData : CapMask := capFileWr ||| capFileExcl

/-- `mask & bits` is not zero. -/
def CapMask.has (mask bits : CapMask) : Bool := mask &&& bits ≠ 0

/-- `struct powerfs_cap`. An empty token was never granted by the Filer. -/
structure Cap where
  issued : CapMask
  implemented : CapMask
  seq : UInt64
  issueSeq : UInt64
  capGen : UInt32
  token : List UInt8
  epoch : UInt64
  expire : Nat

/-- A new capability in `add_cap_for_inode_locked`. -/
def Cap.fresh : Cap where
  issued := 0
  implemented := 0
  seq := 0
  issueSeq := 0
  capGen := 1
  token := []
  epoch := 0
  expire := 0

/-- `powerfs_cap_is_valid`; an expiry of 0 means none. -/
def capIsValid (now : Nat) (cap : Cap) : Bool :=
  cap.capGen ≠ 0 && !(cap.expire ≠ 0 && decide (cap.expire ≤ now))

/-- `powerfs_caps_issued`: the bits of a valid capability, without those being revoked. -/
def capsIssued (now : Nat) : Option Cap → CapMask
  | none => 0
  | some cap =>
    (if capIsValid now cap then cap.issued else 0) &&& (~~~cap.implemented ||| cap.issued)

/-- `wire_capset_to_kernel_bits`. -/
def wireCapsetToKernelBits (wire : UInt8) : CapMask :=
  capPin |||
    (if wire &&& 1 ≠ 0 then
      capAuthShared ||| capFileShared ||| capFileCache ||| capXattrShared ||| capLinkShared
    else 0) |||
    (if wire &&& 2 ≠ 0 then capFileWr else 0) |||
    (if wire &&& 4 ≠ 0 then capFileExcl ||| capAuthExcl ||| capXattrExcl else 0)

/-- The effect of `powerfs_cap_issue` on the capability. -/
def capIssue (lease now : Nat) (cap : Cap) (issued : CapMask) : Cap :=
  { cap with
    issued := cap.issued ||| issued
    implemented := cap.implemented ||| issued
    capGen := 1
    expire := now + lease }

/-- What the Filer answers to CapOpenGrant, AcquireCap and an upgrading CapRelease. -/
structure GrantReply where
  token : List UInt8
  caps : UInt8
  epoch : UInt64
  sn : UInt64
  durMs : UInt64

def capUpgrade (lease now : Nat) (cap : Cap) (caps : UInt8) (epoch sn : UInt64) : Cap :=
  capIssue lease now { cap with epoch := epoch, seq := sn, issueSeq := sn }
    (wireCapsetToKernelBits caps)

def recallBits (cap : Cap) (retain : UInt8) : CapMask :=
  cap.issued &&& ~~~wireCapsetToKernelBits retain

/-- A CapRecallNotify up to the point where `powerfs_cap_revoke` drops the lock. -/
def capRecall (cap : Cap) (retain : UInt8) (epoch : UInt64) : Cap :=
  { cap with epoch := epoch, issued := cap.issued &&& ~~~recallBits cap retain }

end PowerFS.Caps
