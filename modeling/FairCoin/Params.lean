import FairCoin.Primitives

/-!
# Network parameters

The constants of `src/chainparams.cpp`, `src/main.h` and `src/checkpoints.cpp` that
the modelled code reads.  `regtest` inherits from `testnet` and `unittest` from
`main` in the source, and their entries below are what that inheritance gives.
-/

namespace FairCoin

/-- `CBaseChainParams::Network`. -/
inductive Network
  | main
  | testnet
  | regtest
  | unittest
  deriving DecidableEq, Repr

namespace Network

/-- `LAST_POW_BLOCK()`. -/
def lastPowBlock : Network → ℤ
  | main | unittest => 10000
  | testnet | regtest => 200

/-- `COINBASE_MATURITY()`. -/
def coinbaseMaturity : Network → ℤ
  | main | unittest => 6
  | testnet | regtest => 15

/-- `MaxMoneyOut()`, the same on every network. -/
def maxMoneyOut : Network → ℤ
  | _ => 33000000 * coin

/-- `MasternodeCountDrift()`. -/
def masternodeCountDrift : Network → ℤ
  | main | unittest => 20
  | testnet | regtest => 4

/-- `EnforceBlockUpgradeMajority()`. -/
def enforceBlockUpgradeMajority : Network → ℕ
  | testnet => 51
  | _ => 750

/-- `ToCheckBlockUpgradeMajority()`. -/
def toCheckBlockUpgradeMajority : Network → ℕ
  | testnet => 100
  | _ => 1000

/-- `HashGenesisBlock()`. -/
def hashGenesisBlock : Network → UInt256
  | regtest => 0x2645b6c9857890d9957a2cb5f29f6a66691dbce42bca05ea5a31f384cf39733a#256
  | _ => 0x00000232cb134567cf85cd65748714df75d72fe4ce71cf77d3c3f8a9a1a576e6#256

/-- `Checkpoints::GetTotalBlocksEstimate()`: the height of the last checkpoint. -/
def totalBlocksEstimate : Network → ℤ
  | main | unittest => 11000
  | testnet | regtest => 0

/-- `GetBudgetPaymentCycleBlocks()`. -/
def budgetPaymentCycleBlocks : Network → ℤ
  | main => 43200
  | _ => 144

theorem maxMoneyOut_eq (net : Network) : net.maxMoneyOut = 3300000000000000 := rfl

end Network

/-- `MAX_BLOCK_SIZE`. -/
def maxBlockSize : ℕ := 1000000

/-- `MAX_BLOCK_SIGOPS`. -/
def maxBlockSigOps : ℕ := maxBlockSize / 50

/-- `DEFAULT_BLOCK_MAX_SIZE`. -/
def defaultBlockMaxSize : ℕ := 750000

/-- `MoneyRange`. -/
def moneyRange (net : Network) (nValueOut : ℤ) : Bool :=
  decide (0 ≤ nValueOut) && decide (nValueOut ≤ net.maxMoneyOut)

theorem moneyRange_iff {net : Network} {x : ℤ} :
    moneyRange net x = true ↔ 0 ≤ x ∧ x ≤ 3300000000000000 := by
  rw [moneyRange, net.maxMoneyOut_eq, Bool.and_eq_true, decide_eq_true_iff, decide_eq_true_iff]

end FairCoin
