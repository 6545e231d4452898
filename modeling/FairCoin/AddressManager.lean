import FairCoin.NetAddress
import FairCoin.Primitives
import FairCoin.Lib.Buckets
import FairCoin.Lib.Tally
import FairCoin.Lib.Pointers

/-!
# The address manager

`CAddrMan` of `src/addrman.cpp`: the addresses of other nodes, in tables of buckets that no single
source can fill.

* `CAddrInfo` — an address with its statistics, and the buckets and positions it hashes to.
* `CAddrMan` — the entries by their ids, the ids by their addresses, a vector of all ids in random
  order, a table of entries that were never connected to and one of those that were.
* `add`, `good`, `attempt`, `connected`, `select`, `getAddr` — what the rest of the node calls.
* `check` — `Check_`, the consistency check of a debug build, with its codes.

A function that ends in `none` has failed an assertion.
-/

namespace FairCoin

open Store Buckets Codec

/-- `ADDRMAN_TRIED_BUCKET_COUNT`. -/
def addrmanTriedBucketCount : ℕ := 256

/-- `ADDRMAN_NEW_BUCKET_COUNT`. -/
def addrmanNewBucketCount : ℕ := 1024

/-- `ADDRMAN_BUCKET_SIZE`. -/
def addrmanBucketSize : ℕ := 64

/-- `ADDRMAN_TRIED_BUCKETS_PER_GROUP`. -/
def addrmanTriedBucketsPerGroup : ℕ := 8

/-- `ADDRMAN_NEW_BUCKETS_PER_SOURCE_GROUP`. -/
def addrmanNewBucketsPerSourceGroup : ℕ := 64

/-- `ADDRMAN_NEW_BUCKETS_PER_ADDRESS`. -/
def addrmanNewBucketsPerAddress : ℕ := 8

/-- `ADDRMAN_HORIZON_DAYS`. -/
def addrmanHorizonDays : ℤ := 30

/-- `ADDRMAN_RETRIES`. -/
def addrmanRetries : ℤ := 3

/-- `ADDRMAN_MAX_FAILURES`. -/
def addrmanMaxFailures : ℤ := 10

/-- `ADDRMAN_MIN_FAIL_DAYS`. -/
def addrmanMinFailDays : ℤ := 7

/-- `ADDRMAN_GETADDR_MAX_PCT`. -/
def addrmanGetaddrMaxPct : ℕ := 23

/-- `ADDRMAN_GETADDR_MAX`. -/
def addrmanGetaddrMax : ℕ := 2500

/-! ## Entries -/

/-- `CAddress`; the services are a set of bits, and `nTime` has 32 bits. -/
structure CAddress where
  service : CService := ⟨0, 0⟩
  nServices : BitVec 64 := 1
  nTime : BitVec 32 := 100000000
  deriving DecidableEq, Repr

/-- `CAddrInfo`. -/
structure CAddrInfo extends CAddress where
  source : CNetAddr := 0
  nLastTry : ℤ := 0
  nLastSuccess : ℤ := 0
  nAttempts : ℤ := 0
  nRefCount : ℤ := 0
  fInTried : Bool := false
  nRandomPos : ℤ := -1
  deriving DecidableEq, Repr

instance : Inhabited CAddrInfo := ⟨{}⟩

/-- What `CHashWriter` makes of a vector of bytes. -/
def putVector (bytes : List UInt8) : Bytes := putCompactSize bytes.length ++ bytes

namespace CAddrInfo

variable (hash : Bytes → UInt256) (nKey : UInt256) (info : CAddrInfo)

/-- `GetHash().GetLow64()` of a `CHashWriter` that starts with the key of the manager. -/
def keyedHash (bytes : Bytes) : ℕ := (hash (putLE 32 nKey.toNat ++ bytes)).toNat % 2 ^ 64

/-- `GetTriedBucket`. -/
def getTriedBucket : ℕ :=
  let hash1 := keyedHash hash nKey (putVector info.service.getKey)
  let hash2 := keyedHash hash nKey (putVector info.service.ip.getGroup ++
    putLE 8 (hash1 % addrmanTriedBucketsPerGroup))
  hash2 % addrmanTriedBucketCount

/-- `GetNewBucket`. -/
def getNewBucket (src : CNetAddr) : ℕ :=
  let hash1 := keyedHash hash nKey (putVector info.service.ip.getGroup ++ putVector src.getGroup)
  let hash2 := keyedHash hash nKey (putVector src.getGroup ++
    putLE 8 (hash1 % addrmanNewBucketsPerSourceGroup))
  hash2 % addrmanNewBucketCount

/-- `GetBucketPosition`. -/
def getBucketPosition (fNew : Bool) (nBucket : ℕ) : ℕ :=
  let hash1 := keyedHash hash nKey ((if fNew then 78 else 75) :: putLE 4 nBucket ++
    putVector info.service.getKey)
  hash1 % addrmanBucketSize

/-- `IsTerrible`. -/
def isTerrible (nNow : ℤ) : Bool :=
  if info.nLastTry ≠ 0 ∧ nNow - 60 ≤ info.nLastTry then false
  else if nNow + 10 * 60 < info.nTime.toNat then true
  else if info.nTime = 0 ∨ addrmanHorizonDays * 24 * 60 * 60 < nNow - info.nTime.toNat then true
  else if info.nLastSuccess = 0 ∧ addrmanRetries ≤ info.nAttempts then true
  else decide (addrmanMinFailDays * 24 * 60 * 60 < nNow - info.nLastSuccess ∧
    addrmanMaxFailures ≤ info.nAttempts)

end CAddrInfo

/-! ## The manager -/

/-- `CAddrMan`; `none` stands for `-1` in the tables. -/
structure CAddrMan where
  nKey : UInt256
  nIdCount : ℕ := 0
  mapInfo : Map ℕ CAddrInfo := ∅
  mapAddr : Map CNetAddr ℕ := ∅
  vRandom : List ℕ := []
  nTried : ℤ := 0
  vvTried : Table ℕ ℕ ℕ := fun _ _ => none
  nNew : ℤ := 0
  vvNew : Table ℕ ℕ ℕ := fun _ _ => none

namespace CAddrMan

variable (hash : Bytes → UInt256)

/-- What is in the map under an id is changed. -/
def modify (nId : ℕ) (f : CAddrInfo → CAddrInfo) (m : CAddrMan) : CAddrMan :=
  match m.mapInfo.lookup nId with
  | none => m
  | some info => { m with mapInfo := m.mapInfo.insert nId (f info) }

/-- The reference count of an id. -/
def refCount (nId : ℕ) (m : CAddrMan) : ℤ := ((m.mapInfo.lookup nId).map CAddrInfo.nRefCount).getD 0

/-- `Find`: the id and the entry. -/
def find (addr : CNetAddr) (m : CAddrMan) : Option (ℕ × CAddrInfo) :=
  (m.mapAddr.lookup addr).bind fun nId => (m.mapInfo.lookup nId).map fun info => (nId, info)

/-- `Create`: the new id, and the manager with it. -/
def create (addr : CAddress) (addrSource : CNetAddr) (m : CAddrMan) : ℕ × CAddrMan :=
  (m.nIdCount, { m with
    nIdCount := m.nIdCount + 1
    mapInfo := m.mapInfo.insert m.nIdCount
      { toCAddress := addr, source := addrSource, nRandomPos := m.vRandom.length }
    mapAddr := m.mapAddr.insert addr.service.ip m.nIdCount
    vRandom := m.vRandom ++ [m.nIdCount] })

/-- `SwapRandom`. -/
def swapRandom (nRndPos1 nRndPos2 : ℕ) (m : CAddrMan) : Option CAddrMan :=
  if nRndPos1 = nRndPos2 then some m
  else
    match m.vRandom[nRndPos1]?, m.vRandom[nRndPos2]? with
    | some nId1, some nId2 =>
        if (m.mapInfo.lookup nId1).isSome ∧ (m.mapInfo.lookup nId2).isSome then
          let m := m.modify nId1 fun info => { info with nRandomPos := nRndPos2 }
          let m := m.modify nId2 fun info => { info with nRandomPos := nRndPos1 }
          some { m with vRandom := (m.vRandom.set nRndPos1 nId2).set nRndPos2 nId1 }
        else none
    | _, _ => none

/-- An `int`, or the size of a vector less one, as an `unsigned int`. -/
def toUnsigned (n : ℤ) : ℕ := (n % 2 ^ 32).toNat

/-- `Delete`. -/
def delete (nId : ℕ) (m : CAddrMan) : Option CAddrMan :=
  match m.mapInfo.lookup nId with
  | none => none
  | some info =>
      if info.fInTried = true ∨ info.nRefCount ≠ 0 then none
      else
        (m.swapRandom (toUnsigned info.nRandomPos) (toUnsigned (m.vRandom.length - 1))).map fun m =>
          { m with
            vRandom := m.vRandom.dropLast
            mapAddr := m.mapAddr.erase info.service.ip
            mapInfo := m.mapInfo.erase nId
            nNew := m.nNew - 1 }

/-- `ClearNew`.  An id that is not in the map would be entered there, with a count of zero. -/
def clearNew (nUBucket nUBucketPos : ℕ) (m : CAddrMan) : Option CAddrMan :=
  match m.vvNew nUBucket nUBucketPos with
  | none => some m
  | some nIdDelete =>
      let infoDelete := (m.mapInfo.lookup nIdDelete).getD {}
      if 0 < infoDelete.nRefCount then
        let m := { m with
          mapInfo := m.mapInfo.insert nIdDelete
            { infoDelete with nRefCount := infoDelete.nRefCount - 1 }
          vvNew := put m.vvNew nUBucket nUBucketPos none }
        if infoDelete.nRefCount - 1 = 0 then m.delete nIdDelete else some m
      else none

/-- The first loop of `MakeTried`: a bucket that the entry is taken out of. -/
def sweepNew (info : CAddrInfo) (nId : ℕ) (m : CAddrMan) (bucket : ℕ) : CAddrMan :=
  let pos := info.getBucketPosition hash m.nKey true bucket
  if m.vvNew bucket pos = some nId then
    { m with vvNew := put m.vvNew bucket pos none }.modify nId fun info =>
      { info with nRefCount := info.nRefCount - 1 }
  else m

/-- The middle of `MakeTried`: what stands in the way is moved back to the new table. -/
def evictTried (nKBucket nKBucketPos : ℕ) (m : CAddrMan) : Option CAddrMan :=
  match m.vvTried nKBucket nKBucketPos with
  | none => some m
  | some nIdEvict =>
      match m.mapInfo.lookup nIdEvict with
      | none => none
      | some infoOld =>
          let m := { m with
            mapInfo := m.mapInfo.insert nIdEvict { infoOld with fInTried := false }
            vvTried := put m.vvTried nKBucket nKBucketPos none
            nTried := m.nTried - 1 }
          let nUBucket := infoOld.getNewBucket hash m.nKey infoOld.source
          let nUBucketPos := infoOld.getBucketPosition hash m.nKey true nUBucket
          (m.clearNew nUBucket nUBucketPos).bind fun m =>
            if (m.vvNew nUBucket nUBucketPos).isSome then none
            else
              let m := m.modify nIdEvict fun info => { info with nRefCount := 1 }
              some { m with
                vvNew := put m.vvNew nUBucket nUBucketPos (some nIdEvict)
                nNew := m.nNew + 1 }

/-- The first loop of `MakeTried`. -/
def sweepAll (info : CAddrInfo) (nId : ℕ) (m : CAddrMan) : CAddrMan :=
  (List.range addrmanNewBucketCount).foldl (sweepNew hash info nId) m

/-- The end of `MakeTried`. -/
def enterTried (nId nKBucket nKBucketPos : ℕ) (m : CAddrMan) : Option CAddrMan :=
  if (m.vvTried nKBucket nKBucketPos).isSome then none
  else
    let m := m.modify nId fun info => { info with fInTried := true }
    some { m with
      vvTried := put m.vvTried nKBucket nKBucketPos (some nId)
      nTried := m.nTried + 1 }

/-- `MakeTried`; the entry is the one of the id. -/
def makeTried (nId : ℕ) (m : CAddrMan) : Option CAddrMan :=
  match m.mapInfo.lookup nId with
  | none => none
  | some info =>
      let m := m.sweepAll hash info nId
      let m : CAddrMan := { m with nNew := m.nNew - 1 }
      if m.refCount nId ≠ 0 then none
      else
        let nKBucket := info.getTriedBucket hash m.nKey
        let nKBucketPos := info.getBucketPosition hash m.nKey false nKBucket
        (m.evictTried hash nKBucket nKBucketPos).bind (enterTried nId nKBucket nKBucketPos)

/-- `Good_`; `nRnd` is what `GetRandInt` returns. -/
def good (addr : CService) (nTime : ℤ) (nRnd : ℕ) (m : CAddrMan) : Option CAddrMan :=
  match m.find addr.ip with
  | none => some m
  | some (nId, info) =>
      if info.service ≠ addr then some m
      else
        let m := m.modify nId fun info =>
          { info with nLastSuccess := nTime, nLastTry := nTime, nAttempts := 0 }
        if info.fInTried then some m
        else if (List.range addrmanNewBucketCount).any fun n =>
            let nB := (n + nRnd) % addrmanNewBucketCount
            decide (m.vvNew nB (info.getBucketPosition hash m.nKey true nB) = some nId) then
          m.makeTried hash nId
        else some m

/-- `Attempt_`. -/
def attempt (addr : CService) (nTime : ℤ) (m : CAddrMan) : CAddrMan :=
  match m.find addr.ip with
  | none => m
  | some (nId, info) =>
      if info.service ≠ addr then m
      else m.modify nId fun info =>
        { info with nLastTry := nTime, nAttempts := info.nAttempts + 1 }

/-- `Connected_`. -/
def connected (addr : CService) (nTime : ℤ) (m : CAddrMan) : CAddrMan :=
  match m.find addr.ip with
  | none => m
  | some (nId, info) =>
      if info.service ≠ addr then m
      else if 20 * 60 < nTime - info.nTime.toNat then
        m.modify nId fun info => { info with nTime := BitVec.ofInt 32 nTime }
      else m

/-- What `Add_` updates in an entry that is there. -/
def refresh (addr : CAddress) (nTimePenalty getAdjustedTime : ℤ) (info : CAddrInfo) : CAddrInfo :=
  let nUpdateInterval : ℤ :=
    if getAdjustedTime - addr.nTime.toNat < 24 * 60 * 60 then 60 * 60 else 24 * 60 * 60
  let info :=
    if addr.nTime ≠ 0 ∧ (info.nTime = 0 ∨
        (info.nTime.toNat : ℤ) < addr.nTime.toNat - nUpdateInterval - nTimePenalty) then
      { info with nTime := BitVec.ofInt 32 (max 0 (addr.nTime.toNat - nTimePenalty)) }
    else info
  { info with nServices := info.nServices ||| addr.nServices }

/-- The tests with which `Add_` leaves an entry that is there in its buckets; `nRnd` is what
`GetRandInt` draws from, with more and more values the more buckets the entry is in. -/
def isSettled (addr : CAddress) (nRnd : ℕ) (info : CAddrInfo) : Bool :=
  decide (addr.nTime = 0 ∨ (info.nTime ≠ 0 ∧ addr.nTime ≤ info.nTime)) || info.fInTried ||
    decide (info.nRefCount = addrmanNewBucketsPerAddress) ||
    decide (1 < 2 ^ info.nRefCount.toNat ∧ nRnd % 2 ^ info.nRefCount.toNat ≠ 0)

/-- `fInsert` of `Add_`: whether an entry takes a slot from what stands there. -/
def fInsert (getAdjustedTime : ℤ) (pinfo : CAddrInfo) (slot : Option ℕ) (m : CAddrMan) : Bool :=
  match slot with
  | none => true
  | some nIdExisting =>
      let infoExisting := (m.mapInfo.lookup nIdExisting).getD {}
      infoExisting.isTerrible getAdjustedTime ||
        (decide (1 < infoExisting.nRefCount) && decide (pinfo.nRefCount = 0))

/-- The end of `Add_`: the entry is put into a bucket of the source, or given up. -/
def enterNew (nId : ℕ) (source : CNetAddr) (getAdjustedTime : ℤ) (m : CAddrMan) :
    Option CAddrMan :=
  match m.mapInfo.lookup nId with
  | none => none
  | some pinfo =>
      let nUBucket := pinfo.getNewBucket hash m.nKey source
      let nUBucketPos := pinfo.getBucketPosition hash m.nKey true nUBucket
      if m.vvNew nUBucket nUBucketPos = some nId then some m
      else
        if m.fInsert getAdjustedTime pinfo (m.vvNew nUBucket nUBucketPos) then
          (m.clearNew nUBucket nUBucketPos).map fun m =>
            let m := m.modify nId fun info => { info with nRefCount := info.nRefCount + 1 }
            { m with vvNew := put m.vvNew nUBucket nUBucketPos (some nId) }
        else if pinfo.nRefCount = 0 then m.delete nId
        else some m

/-- `Add_`. -/
def add (addr : CAddress) (source : CNetAddr) (nTimePenalty getAdjustedTime : ℤ) (nRnd : ℕ)
    (m : CAddrMan) : Option (Bool × CAddrMan) :=
  if !addr.service.ip.isRoutable then some (false, m)
  else
    match m.find addr.service.ip with
    | some (nId, info) =>
        let info := refresh addr nTimePenalty getAdjustedTime info
        let m := m.modify nId fun _ => info
        if isSettled addr nRnd info then some (false, m)
        else (m.enterNew hash nId source getAdjustedTime).map fun m => (false, m)
    | none =>
        let (nId, m) := m.create addr source
        let m := m.modify nId fun info =>
          { info with nTime := BitVec.ofInt 32 (max 0 (info.nTime.toNat - nTimePenalty)) }
        let m : CAddrMan := { m with nNew := m.nNew + 1 }
        (m.enterNew hash nId source getAdjustedTime).map fun m => (true, m)

/-- One round of `Select_`: a slot, and whether the entry there passes the test of its chance. -/
structure SelectDraw where
  nBucket : ℕ
  nPos : ℕ
  accepted : Bool

/-- What `Select_` does within some rounds. -/
inductive Selected where
  | searching
  | aborted
  | found (addr : CAddress)

/-- The loop of `Select_`. -/
def selectFrom (m : CAddrMan) (table : Table ℕ ℕ ℕ) : List SelectDraw → Selected
  | [] => .searching
  | draw :: draws =>
      match table draw.nBucket draw.nPos with
      | none => selectFrom m table draws
      | some nId =>
          match m.mapInfo.lookup nId with
          | none => .aborted
          | some info => if draw.accepted then .found info.toCAddress else selectFrom m table draws

/-- `Select_`; `coin` is what `GetRandInt(2)` returns. -/
def select (coin : Bool) (draws : List SelectDraw) (m : CAddrMan) : Selected :=
  if m.vRandom.length = 0 then .found {}
  else if 0 < m.nTried ∧ (m.nNew = 0 ∨ coin = false) then m.selectFrom m.vvTried draws
  else m.selectFrom m.vvNew draws

/-- The loop of `GetAddr_`, for as many rounds from `n` on; `rnd n` is what `GetRandInt` draws
from. -/
def getAddrLoop (getAdjustedTime : ℤ) (nNodes : ℕ) (rnd : ℕ → ℕ) :
    ℕ → ℕ → List CAddress → CAddrMan → Option (List CAddress × CAddrMan)
  | 0, _, vAddr, m => some (vAddr, m)
  | rounds + 1, n, vAddr, m =>
      if nNodes ≤ vAddr.length then some (vAddr, m)
      else
        (m.swapRandom n (rnd n % (m.vRandom.length - n) + n)).bind fun m =>
          (m.vRandom[n]?.bind m.mapInfo.lookup).bind fun ai =>
            getAddrLoop getAdjustedTime nNodes rnd rounds (n + 1)
              (if ai.isTerrible getAdjustedTime then vAddr else vAddr ++ [ai.toCAddress]) m

/-- `GetAddr_` on an empty vector. -/
def getAddr (getAdjustedTime : ℤ) (rnd : ℕ → ℕ) (m : CAddrMan) :
    Option (List CAddress × CAddrMan) :=
  getAddrLoop getAdjustedTime (min addrmanGetaddrMax (addrmanGetaddrMaxPct * m.vRandom.length / 100))
    rnd m.vRandom.length 0 [] m

/-! ## The consistency check -/

/-- The slots of a table, in the order of the loops. -/
def slots (nBuckets : ℕ) : List (ℕ × ℕ) :=
  (List.range nBuckets).flatMap fun n => (List.range addrmanBucketSize).map fun i => (n, i)

/-- What `Check_` says about one entry. -/
def checkInfo (m : CAddrMan) (n : ℕ) (info : CAddrInfo) : Option ℤ :=
  if info.fInTried ∧ info.nLastSuccess = 0 then some (-1)
  else if info.fInTried ∧ info.nRefCount ≠ 0 then some (-2)
  else if ¬info.fInTried ∧ (info.nRefCount < 0 ∨ addrmanNewBucketsPerAddress < info.nRefCount) then
    some (-3)
  else if ¬info.fInTried ∧ info.nRefCount = 0 then some (-4)
  else if (m.mapAddr.lookup info.service.ip).getD 0 ≠ n then some (-5)
  else if info.nRandomPos < 0 ∨ (m.vRandom.length : ℤ) ≤ info.nRandomPos ∨
      m.vRandom[info.nRandomPos.toNat]? ≠ some n then some (-14)
  else if info.nLastTry < 0 then some (-6)
  else if info.nLastSuccess < 0 then some (-8)
  else none

/-- The loop of `Check_` over the tried table: the ids that were not met yet, or a code. -/
def checkTried (m : CAddrMan) : List (ℕ × ℕ) → List ℕ → Except ℤ (List ℕ)
  | [], setTried => .ok setTried
  | (n, i) :: rest, setTried =>
      match m.vvTried n i with
      | none => checkTried m rest setTried
      | some nId =>
          let info := (m.mapInfo.lookup nId).getD {}
          if nId ∉ setTried then .error (-11)
          else if info.getTriedBucket hash m.nKey ≠ n then .error (-17)
          else if info.getBucketPosition hash m.nKey false n ≠ i then .error (-18)
          else checkTried m rest (setTried.erase nId)

/-- The loop of `Check_` over the new table: what is left of the counts, or a code. -/
def checkNew (m : CAddrMan) : List (ℕ × ℕ) → Map ℕ ℤ → Except ℤ (Map ℕ ℤ)
  | [], mapNew => .ok mapNew
  | (n, i) :: rest, mapNew =>
      match m.vvNew n i with
      | none => checkNew m rest mapNew
      | some nId =>
          match mapNew.lookup nId with
          | none => .error (-12)
          | some nCount =>
              if ((m.mapInfo.lookup nId).getD {}).getBucketPosition hash m.nKey true n ≠ i then
                .error (-19)
              else checkNew m rest
                (if nCount - 1 = 0 then mapNew.erase nId else mapNew.insert nId (nCount - 1))

/-- `Check_`. -/
def check (m : CAddrMan) : ℤ :=
  let infos := sortedEntries (fun a b => decide (a ≤ b)) m.mapInfo
  let setTried := (infos.filter fun e => e.2.fInTried).map Prod.fst
  let mapNew : Map ℕ ℤ := mapOfEntries ((infos.filter fun e => !e.2.fInTried).map fun e =>
    (e.1, e.2.nRefCount))
  if (m.vRandom.length : ℤ) ≠ m.nTried + m.nNew then -7
  else
    match infos.findSome? fun e => m.checkInfo e.1 e.2 with
    | some code => code
    | none =>
        if (setTried.length : ℤ) ≠ m.nTried then -9
        else if (mapNew.entries.length : ℤ) ≠ m.nNew then -10
        else
          match m.checkTried hash (slots addrmanTriedBucketCount) setTried with
          | .error code => code
          | .ok setTried =>
              match m.checkNew hash (slots addrmanNewBucketCount) mapNew with
              | .error code => code
              | .ok mapNew =>
                  if setTried ≠ [] then -13
                  else if mapNew.entries.length ≠ 0 then -15
                  else if m.nKey = 0 then -16
                  else 0

end CAddrMan

end FairCoin
