import BitCrystal.Data.Stateful
import BitCrystal.Primitives

namespace BitCrystal

open Data Stateful

/-! # The handshake with a SOCKS5 proxy -/

/-- A connection to a proxy: what the proxy still sends, which calls of send succeed, and what the
program has done so far. -/
structure ProxyConnection where
  stream : Bytes
  sends : List Bool
  /-- the sizes that recv was asked for -/
  asked : List Int
  sent : List Bytes
  /-- whether `closesocket(hSocket)` has been called -/
  closed : Bool

abbrev Handshake := Stateful ProxyConnection String

namespace Handshake

def closesocket : Handshake Unit := modify fun c => { c with closed := true }

def closeUnless (condition : Prop) [Decidable condition] (message : String) : Handshake Unit :=
  if condition then pure ()
  else do
    closesocket
    fail message

/-- `send(hSocket, data, size, MSG_NOSIGNAL)` -/
def send (data : Bytes) : Handshake Int := do
  let c ← get
  modify fun c => { c with sends := c.sends.tail, sent := c.sent ++ [data] }
  return if c.sends.head? = some true then data.length else -1

/-- `recv(hSocket, buffer, n, 0)`, which delivers what it is asked for or fails. The size is
converted to `size_t`. -/
def recv (n : Int) : Handshake (Int × Bytes) := do
  let c ← get
  let size := n % 2 ^ 64
  modify fun c => { c with asked := c.asked ++ [size] }
  if size ≤ c.stream.length then
    modify fun c => { c with stream := c.stream.drop size.toNat }
    return (n, c.stream.take size.toNat)
  else return (-1, [])

/-- `if (recv(hSocket, buffer, n, 0) != n)` the socket is closed. -/
def recvAll (n : Nat) (message : String) : Handshake Bytes := do
  let (ret, bytes) ← recv n
  closeUnless (ret = n) message
  return bytes

/-- `if (ret != nSize)` after a call of send the socket is closed. -/
def sendAll (data : Bytes) : Handshake Unit := do
  let ret ← send data
  closeUnless (ret = data.length) "Error sending to proxy"

/-- The messages of the switch over the reply field. -/
def proxyError : Option UInt8 → String
  | some 0x01 => "Proxy error: general failure"
  | some 0x02 => "Proxy error: connection not allowed"
  | some 0x03 => "Proxy error: network unreachable"
  | some 0x04 => "Proxy error: host unreachable"
  | some 0x05 => "Proxy error: connection refused"
  | some 0x06 => "Proxy error: TTL expired"
  | some 0x07 => "Proxy error: protocol error"
  | some 0x08 => "Proxy error: address type not supported"
  | _ => "Proxy error: unknown"

/-- `ret = recv(hSocket, pchRet3, n, 0) != n` -/
def recvFails (n : Int) : Handshake Bool := do
  let (ret, _) ← recv n
  return ret ≠ n

/-- The switch over the address type; the result is `ret` after it. -/
def recvAddress (type : Option UInt8) : Handshake Bool :=
  match type with
  | some 0x01 => recvFails 4
  | some 0x04 => recvFails 16
  | some 0x03 => do
      let (ret, pchRet3) ← recv 1
      if ret ≠ 1 then fail "Error reading from proxy"
      else
        -- `int nRecv = pchRet3[0];` from a signed char
        let nRecv := (pchRet3[0]?.getD 0).toInt8.toInt
        recvFails nRecv
  | _ => do
      closesocket
      fail "Error: malformed proxy response"

/-- `"\5\1\0\3"`, the length, the name and the port. -/
def request (strDest : Bytes) (port : Int) : Bytes :=
  [0x05, 0x01, 0x00, 0x03, UInt8.ofNat (min strDest.length 255)] ++ strDest ++
    [UInt8.ofNat (port / 256 % 256).toNat, UInt8.ofNat (port % 256).toNat]

def negotiate : Handshake Unit := do
  sendAll [0x05, 0x01, 0x00]
  let pchRet1 ← recvAll 2 "Error reading proxy response"
  closeUnless (pchRet1[0]? = some 0x05 ∧ pchRet1[1]? = some 0x00) "Proxy failed to initialize"

/-- The request and the first four bytes of its reply, of which the address type is the last. -/
def command (strDest : Bytes) (port : Int) : Handshake (Option UInt8) := do
  sendAll (request strDest port)
  let pchRet2 ← recvAll 4 "Error reading proxy response"
  closeUnless (pchRet2[0]? = some 0x05) "Proxy failed to accept request"
  closeUnless (pchRet2[1]? = some 0x00) (proxyError pchRet2[1]?)
  closeUnless (pchRet2[2]? = some 0x00) "Error: malformed proxy response"
  return pchRet2[3]?

def socks5 (strDest : Bytes) (port : Int) : Handshake Unit := do
  closeUnless (strDest.length ≤ 255) "Hostname too long"
  negotiate
  let type ← command strDest port
  let ret ← recvAddress type
  closeUnless (ret = false) "Error reading from proxy"
  let _ ← recvAll 2 "Error reading from proxy"

/-! ## The steps -/

/-- Every recv so far asked for what fits into the buffers. -/
def Bounded (c : ProxyConnection) : Prop := ∀ size ∈ c.asked, 0 ≤ size ∧ size ≤ 256

variable {c : ProxyConnection} {returns : Unit → ProxyConnection → Prop} {fails : ProxyConnection → Prop}

theorem closeUnless_ends {condition : Prop} [Decidable condition] {message : String} (bounded : Bounded c)
    (holds : condition → returns () c)
    (broken : ∀ after, ¬condition → Bounded after → after.closed = true → fails after) :
    Settles (closeUnless condition message) c returns fails := by
  unfold closeUnless
  split
  · rename_i true_
    exact Settles.pure (holds true_)
  · rename_i false_
    apply Settles.bind
    apply Settles.modify
    exact Settles.fail (broken _ false_ bounded rfl)

theorem sendAll_ends {data : Bytes} (bounded : Bounded c)
    (full : ∀ after, c.sends = true :: after.sends → after.stream = c.stream → after.closed = c.closed →
      Bounded after → returns () after)
    (failed : ∀ after, c.sends.head? ≠ some true → Bounded after → after.closed = true → fails after) :
    Settles (sendAll data) c returns fails := by
  apply Settles.bind
  apply Settles.bind
  apply Settles.get
  apply Settles.bind
  apply Settles.modify
  apply Settles.pure
  by_cases sent : c.sends.head? = some true
  · rw [if_pos sent]
    apply closeUnless_ends
    · exact bounded
    · intro _
      apply full
      · cases all : c.sends with
        | nil =>
            rw [all] at sent
            cases sent
        | cons first rest =>
            rw [all] at sent
            cases sent
            rfl
      · rfl
      · rfl
      · exact bounded
    · intro after short
      exact absurd rfl short
  · rw [if_neg sent]
    apply closeUnless_ends
    · exact bounded
    · intro same
      omega
    · intro after _ bounded' closed
      exact failed after sent bounded' closed

theorem Bounded.concat {n : Nat} (bounded : Bounded c) (small : n ≤ 256) :
    ∀ size ∈ c.asked ++ [(n : Int) % 2 ^ 64], 0 ≤ size ∧ size ≤ 256 := by
  intro size member
  cases List.mem_append.mp member with
  | inl before => exact bounded size before
  | inr last =>
      rw [List.mem_singleton.mp last]
      omega

theorem recv_ends {n : Nat} {returns : Int × Bytes → ProxyConnection → Prop} (small : n ≤ 256) (bounded : Bounded c)
    (delivered : ∀ bytes after, bytes.length = n → c.stream = bytes ++ after.stream → after.sends = c.sends →
      after.closed = c.closed → Bounded after → returns (n, bytes) after)
    (failed : ∀ after, c.stream.length < n → after.closed = c.closed → Bounded after → returns (-1, []) after) :
    Settles (recv n) c returns fails := by
  apply Settles.bind
  apply Settles.get
  apply Settles.bind
  apply Settles.modify
  have size : (n : Int) % 2 ^ 64 = n := by omega
  split
  · rename_i within
    apply Settles.bind
    apply Settles.modify
    apply Settles.pure
    rw [size] at within
    apply delivered
    · rw [size, Int.toNat_natCast, List.length_take]
      omega
    · rw [size, Int.toNat_natCast]
      exact (List.take_append_drop n c.stream).symm
    · rfl
    · rfl
    · exact bounded.concat small
  · rename_i beyond
    apply Settles.pure
    rw [size] at beyond
    apply failed
    · omega
    · rfl
    · exact bounded.concat small

theorem recvAll_ends {n : Nat} {message : String} {returns : Bytes → ProxyConnection → Prop} (small : n ≤ 256)
    (bounded : Bounded c)
    (delivered : ∀ bytes after, bytes.length = n → c.stream = bytes ++ after.stream → after.sends = c.sends →
      after.closed = c.closed → Bounded after → returns bytes after)
    (failed : ∀ after, c.stream.length < n → Bounded after → after.closed = true → fails after) :
    Settles (recvAll n message) c returns fails := by
  apply Settles.bind
  apply recv_ends small bounded
  · intro bytes after length split sends open_ bounded'
    apply Settles.bind
    apply closeUnless_ends bounded'
    · intro _
      exact Settles.pure (delivered bytes after length split sends open_ bounded')
    · intro _ different
      exact absurd rfl different
  · intro after short _ bounded'
    apply Settles.bind
    apply closeUnless_ends bounded'
    · intro same
      omega
    · intro closed _ bounded'' shut
      exact failed closed short bounded'' shut

end Handshake

end BitCrystal
