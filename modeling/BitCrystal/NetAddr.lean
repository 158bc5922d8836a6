import BitCrystal.Serialize

namespace BitCrystal

open Data

/-! # Network addresses -/

/-- The 16 bytes of `ip`, the first of which is the most significant. -/
abbrev CNetAddr := BitVec 128

instance transOrd_netAddr : Std.TransOrd CNetAddr := inferInstance

namespace NetAddr

/-- `ip[15-n]` -/
def getByte (addr : CNetAddr) (n : Nat) : UInt8 := UInt8.ofNat (addr.toNat / 256 ^ n)

/-- The bytes of `ip` in memory order. -/
def ip (addr : CNetAddr) : Bytes := (List.range 16).map fun i => getByte addr (15 - i)

/-- `memcmp(ip, pch, sizeof(pch)) == 0` -/
def startsWith (addr : CNetAddr) (pch : Bytes) : Bool := (ip addr).take pch.length = pch

def pchIPv4 : Bytes := [0, 0, 0, 0, 0, 0, 0, 0, 0, 0, 0xff, 0xff]
def pchOnionCat : Bytes := [0xFD, 0x87, 0xD8, 0x7E, 0xEB, 0x43]

def isIPv4 (addr : CNetAddr) : Bool := startsWith addr pchIPv4
def isTor (addr : CNetAddr) : Bool := startsWith addr pchOnionCat

def isRFC1918 (addr : CNetAddr) : Bool :=
  isIPv4 addr && (getByte addr 3 = 10 || (getByte addr 3 = 192 && getByte addr 2 = 168) ||
    (getByte addr 3 = 172 && (16 ≤ getByte addr 2 && getByte addr 2 ≤ 31)))

def isRFC3927 (addr : CNetAddr) : Bool :=
  isIPv4 addr && (getByte addr 3 = 169 && getByte addr 2 = 254)

def isRFC3849 (addr : CNetAddr) : Bool :=
  getByte addr 15 = 0x20 && getByte addr 14 = 0x01 && getByte addr 13 = 0x0D && getByte addr 12 = 0xB8

def isRFC3964 (addr : CNetAddr) : Bool := getByte addr 15 = 0x20 && getByte addr 14 = 0x02

def isRFC6052 (addr : CNetAddr) : Bool := startsWith addr [0, 0x64, 0xFF, 0x9B, 0, 0, 0, 0, 0, 0, 0, 0]

def isRFC4380 (addr : CNetAddr) : Bool :=
  getByte addr 15 = 0x20 && getByte addr 14 = 0x01 && getByte addr 13 = 0 && getByte addr 12 = 0

def isRFC4862 (addr : CNetAddr) : Bool := startsWith addr [0xFE, 0x80, 0, 0, 0, 0, 0, 0]

def isRFC4193 (addr : CNetAddr) : Bool := getByte addr 15 &&& 0xFE = 0xFC

def isRFC6145 (addr : CNetAddr) : Bool := startsWith addr [0, 0, 0, 0, 0, 0, 0, 0, 0xFF, 0xFF, 0, 0]

def isRFC4843 (addr : CNetAddr) : Bool :=
  getByte addr 15 = 0x20 && getByte addr 14 = 0x01 && getByte addr 13 = 0x00 &&
    getByte addr 12 &&& 0xF0 = 0x10

def isLocal (addr : CNetAddr) : Bool :=
  (isIPv4 addr && (getByte addr 3 = 127 || getByte addr 3 = 0)) || addr = 1

/-- IsValid; the first test is for addresses that are shifted by three bytes. -/
def isValid (addr : CNetAddr) : Bool :=
  !startsWith addr (pchIPv4.drop 3) && addr ≠ 0 && !isRFC3849 addr &&
    !(isIPv4 addr && ((ip addr).drop 12 = [0xff, 0xff, 0xff, 0xff] || (ip addr).drop 12 = [0, 0, 0, 0]))

def isRoutable (addr : CNetAddr) : Bool :=
  isValid addr && !(isRFC1918 addr || isRFC3927 addr || isRFC4862 addr ||
    (isRFC4193 addr && !isTor addr) || isRFC4843 addr || isLocal addr)

def NET_UNROUTABLE : UInt8 := 0
def NET_IPV4 : UInt8 := 1
def NET_IPV6 : UInt8 := 2
def NET_TOR : UInt8 := 3

/-- The class of a group with its first `nBits` bits from `nStartByte` on. -/
def group (addr : CNetAddr) (nClass : UInt8) (nStartByte nBits : Nat) : Bytes :=
  let whole := (List.range (nBits / 8)).map fun i => getByte addr (15 - (nStartByte + i))
  let rest := nBits % 8
  let last := getByte addr (15 - (nStartByte + nBits / 8)) ||| (UInt8.ofNat (2 ^ rest) - 1)
  nClass :: (whole ++ if rest = 0 then [] else [last])

/-- GetGroup. Local addresses are not routable, so their class 255 is always replaced. -/
def getGroup (addr : CNetAddr) : Bytes :=
  if !isRoutable addr then group addr NET_UNROUTABLE 0 0
  else if isIPv4 addr || isRFC6145 addr || isRFC6052 addr then
    group addr NET_IPV4 12 16
  else if isRFC3964 addr then group addr NET_IPV4 2 16
  else if isRFC4380 addr then [NET_IPV4, getByte addr 3 ^^^ 0xFF, getByte addr 2 ^^^ 0xFF]
  else if isTor addr then group addr NET_TOR 6 4
  else if getByte addr 15 = 0x20 && getByte addr 14 = 0x11 && getByte addr 13 = 0x04 &&
      getByte addr 12 = 0x70 then group addr NET_IPV6 0 36
  else group addr NET_IPV6 0 32

end NetAddr

structure CService where
  addr : CNetAddr
  port : UInt16
deriving DecidableEq

def CService.getKey (service : CService) : Bytes :=
  NetAddr.ip service.addr ++ [UInt8.ofNat (service.port.toNat / 0x100), UInt8.ofNat (service.port.toNat % 0x100)]

/-- CAddress; `nLastTry` is set only in CAddrInfo. -/
structure CAddress where
  service : CService
  nServices : UInt64
  nTime : UInt32
deriving DecidableEq

end BitCrystal
