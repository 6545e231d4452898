import FairCoin.Index

/-!
# Compact targets and the work of a block

`uint256::SetCompact` of `src/uint256.cpp` and `GetBlockProof` of `src/pow.cpp`.

* `setCompact` — the 256-bit number a 32-bit word stands for, with the two flags.
* `getBlockProof` — the expected number of hashes for a target.
-/

namespace FairCoin

/-- What `SetCompact` sets: the number and its two out-parameters. -/
structure CompactTarget where
  bn : UInt256
  fNegative : Bool
  fOverflow : Bool
  deriving DecidableEq, Repr

/-- `uint256::SetCompact`: a size in the top byte, a sign bit, and a mantissa of 23 bits. -/
def setCompact (nCompact : BitVec 32) : CompactTarget :=
  let nSize := (nCompact >>> 24).toNat
  let nMantissa := nCompact &&& 0x007fffff#32
  -- for small sizes the word itself is shifted, and the flags are about what is left of it
  let nWord := if nSize ≤ 3 then nMantissa >>> (8 * (3 - nSize)) else nMantissa
  { bn := if nSize ≤ 3 then nWord.setWidth 256 else nWord.setWidth 256 <<< (8 * (nSize - 3))
    fNegative := decide (nWord ≠ 0) && decide (nCompact &&& 0x00800000#32 ≠ 0)
    fOverflow := decide (nWord ≠ 0) && decide (34 < nSize ∨ 0xff#32 < nWord ∧ 33 < nSize ∨
      0xffff#32 < nWord ∧ 32 < nSize) }

/-- `GetBlockProof`: `2^256 / (bnTarget + 1)`, worked out without the power. -/
def getBlockProof (block : CBlockIndex) : UInt256 :=
  let target := setCompact (BitVec.ofNat 32 block.nBits)
  if target.fNegative || target.fOverflow || target.bn = 0 then 0
  else ~~~target.bn / (target.bn + 1) + 1

/-- A target of one is met by two hashes. -/
example : getBlockProof { nBits := 0x01010000 } = 1#256 <<< 255 := by decide

end FairCoin
