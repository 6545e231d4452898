import FairCoin.Lib.Codec

/-!
# Network addresses

`CNetAddr` and `CService` of `src/netbase.cpp`, as far as the address manager looks at them.

* `isRoutable` — `IsRoutable`, with the ranges it excludes.
* `getGroup` — `GetGroup`: the part of an address that a network operator has in hand.
* `CService.getKey` — `GetKey`: address and port.

An IPv4 address is mapped into the last four bytes.
-/

namespace FairCoin

/-- `CNetAddr`: sixteen bytes. -/
abbrev CNetAddr := BitVec 128

namespace CNetAddr

/-- `GetByte`: from the end. -/
def getByte (a : CNetAddr) (n : ℕ) : ℕ := a.toNat / 256 ^ n % 256

/-- A comparison of the first `16 - n` bytes. -/
def hasPrefix (a : CNetAddr) (n pch : ℕ) : Bool := a.toNat / 256 ^ n == pch

/-- `IsIPv4`. -/
def isIPv4 (a : CNetAddr) : Bool := a.hasPrefix 4 0xFFFF

/-- `IsTor`. -/
def isTor (a : CNetAddr) : Bool := a.hasPrefix 10 0xFD87D87EEB43

/-- `IsRFC1918`. -/
def isRFC1918 (a : CNetAddr) : Bool :=
  a.isIPv4 && (a.getByte 3 == 10 || (a.getByte 3 == 192 && a.getByte 2 == 168) ||
    (a.getByte 3 == 172 && (decide (16 ≤ a.getByte 2) && decide (a.getByte 2 ≤ 31))))

/-- `IsRFC2544`. -/
def isRFC2544 (a : CNetAddr) : Bool :=
  a.isIPv4 && a.getByte 3 == 198 && (a.getByte 2 == 18 || a.getByte 2 == 19)

/-- `IsRFC3927`. -/
def isRFC3927 (a : CNetAddr) : Bool := a.isIPv4 && (a.getByte 3 == 169 && a.getByte 2 == 254)

/-- `IsRFC6598`. -/
def isRFC6598 (a : CNetAddr) : Bool :=
  a.isIPv4 && a.getByte 3 == 100 && decide (64 ≤ a.getByte 2) && decide (a.getByte 2 ≤ 127)

/-- `IsRFC5737`. -/
def isRFC5737 (a : CNetAddr) : Bool :=
  a.isIPv4 && ((a.getByte 3 == 192 && a.getByte 2 == 0 && a.getByte 1 == 2) ||
    (a.getByte 3 == 198 && a.getByte 2 == 51 && a.getByte 1 == 100) ||
    (a.getByte 3 == 203 && a.getByte 2 == 0 && a.getByte 1 == 113))

/-- `IsRFC3849`. -/
def isRFC3849 (a : CNetAddr) : Bool := a.hasPrefix 12 0x20010DB8

/-- `IsRFC3964`. -/
def isRFC3964 (a : CNetAddr) : Bool := a.hasPrefix 14 0x2002

/-- `IsRFC6052`. -/
def isRFC6052 (a : CNetAddr) : Bool := a.hasPrefix 4 0x0064FF9B0000000000000000

/-- `IsRFC4380`. -/
def isRFC4380 (a : CNetAddr) : Bool := a.hasPrefix 12 0x20010000

/-- `IsRFC4862`. -/
def isRFC4862 (a : CNetAddr) : Bool := a.hasPrefix 8 0xFE80000000000000

/-- `IsRFC4193`. -/
def isRFC4193 (a : CNetAddr) : Bool := a.getByte 15 &&& 0xFE == 0xFC

/-- `IsRFC6145`. -/
def isRFC6145 (a : CNetAddr) : Bool := a.hasPrefix 4 0xFFFF0000

/-- `IsRFC4843`. -/
def isRFC4843 (a : CNetAddr) : Bool := a.hasPrefix 13 0x200100 && a.getByte 12 &&& 0xF0 == 0x10

/-- `IsLocal`. -/
def isLocal (a : CNetAddr) : Bool :=
  (a.isIPv4 && (a.getByte 3 == 127 || a.getByte 3 == 0)) || a.toNat == 1

/-- `IsValid`: the first test is for addresses that were read three bytes late. -/
def isValid (a : CNetAddr) : Bool :=
  !a.hasPrefix 7 0xFFFF && a.toNat != 0 && !a.isRFC3849 &&
    !(a.isIPv4 && (a.toNat % 256 ^ 4 == 0xFFFFFFFF || a.toNat % 256 ^ 4 == 0))

/-- `IsRoutable`. -/
def isRoutable (a : CNetAddr) : Bool :=
  a.isValid && !(a.isRFC1918 || a.isRFC2544 || a.isRFC3927 || a.isRFC4862 || a.isRFC6598 ||
    a.isRFC5737 || (a.isRFC4193 && !a.isTor) || a.isRFC4843 || a.isLocal)

/-- The loop of `GetGroup`: whole bytes from `nStartByte` on, and what is left of the bits with the
rest of its byte set. -/
def groupBytes (a : CNetAddr) (nStartByte nBits : ℕ) : List UInt8 :=
  ((List.range (nBits / 8)).map fun k => UInt8.ofNat (a.getByte (15 - (nStartByte + k)))) ++
    if nBits % 8 = 0 then []
    else [UInt8.ofNat (a.getByte (15 - (nStartByte + nBits / 8)) ||| (2 ^ (nBits % 8) - 1))]

/-- `GetGroup`.  The class for local addresses is overwritten: they are not routable. -/
def getGroup (a : CNetAddr) : List UInt8 :=
  if !a.isRoutable then 0 :: a.groupBytes 0 0
  else if a.isIPv4 || a.isRFC6145 || a.isRFC6052 then 1 :: a.groupBytes 12 16
  else if a.isRFC3964 then 1 :: a.groupBytes 2 16
  else if a.isRFC4380 then
    [1, UInt8.ofNat (a.getByte 3) ^^^ 0xFF, UInt8.ofNat (a.getByte 2) ^^^ 0xFF]
  else if a.isTor then 3 :: a.groupBytes 6 4
  else if a.hasPrefix 12 0x20010470 then 2 :: a.groupBytes 0 36
  else 2 :: a.groupBytes 0 32

/-- The sixteen bytes, in network byte order. -/
def bytes (a : CNetAddr) : List UInt8 :=
  (List.range 16).map fun k => UInt8.ofNat (a.getByte (15 - k))

end CNetAddr

/-- `CService`: an address and a port. -/
structure CService where
  ip : CNetAddr
  port : BitVec 16
  deriving DecidableEq, Repr

/-- `GetKey`. -/
def CService.getKey (s : CService) : List UInt8 :=
  s.ip.bytes ++ [UInt8.ofNat (s.port.toNat / 0x100), UInt8.ofNat (s.port.toNat % 0x100)]

/-- 8.8.8.8 is in a group with all of 8.8.0.0/16. -/
example : CNetAddr.isRoutable 0xFFFF08080808 = true ∧
    CNetAddr.getGroup 0xFFFF08080808 = [1, 8, 8] := by decide

end FairCoin
