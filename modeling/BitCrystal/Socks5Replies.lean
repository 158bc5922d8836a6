import BitCrystal.Socks5

namespace BitCrystal

open Data Stateful

/-! # What a SOCKS5 proxy replies -/

namespace Handshake

variable {c : ProxyConnection}

/-! ## Well-formed replies -/

/-- An address type with its address: four bytes, sixteen bytes, or a name after its length. -/
inductive ReplyAddress : Bytes → Prop
  | ipv4 {address : Bytes} (length : address.length = 4) : ReplyAddress (0x01 :: address)
  | ipv6 {address : Bytes} (length : address.length = 16) : ReplyAddress (0x04 :: address)
  | domain {n : UInt8} {name : Bytes} (length : name.length = n.toNat) : ReplyAddress (0x03 :: n :: name)

/-- A method reply and a success reply. -/
inductive Replies : Bytes → Prop
  | mk {address port : Bytes} (known : ReplyAddress address) (length : port.length = 2) :
      Replies ([0x05, 0x00] ++ ([0x05, 0x00, 0x00] ++ (address ++ port)))

def HasAddress (type : UInt8) (stream : Bytes) : Prop :=
  ∃ address rest, stream = address ++ rest ∧ ReplyAddress (type :: address)

theorem ReplyAddress.unique {type : UInt8} {address other rest rest' : Bytes} (known : ReplyAddress (type :: address))
    (also : ReplyAddress (type :: other)) (same : address ++ rest = other ++ rest') :
    address = other ∧ rest = rest' := by
  apply List.append_inj same
  cases known with
  | ipv4 length =>
      cases also with
      | ipv4 length' => rw [length, length']
  | ipv6 length =>
      cases also with
      | ipv6 length' => rw [length, length']
  | domain length =>
      cases also with
      | domain length' =>
          obtain ⟨first, -⟩ := List.cons.inj same
          rw [List.length_cons, List.length_cons, length, length', first]

/-- What the switch over the address type leaves behind. -/
structure AddressEnd (type : UInt8) (stream : Bytes) (after : ProxyConnection) (ret : Bool) : Prop where
  bounded : Bounded after
  read : ret = false → ∃ address, stream = address ++ after.stream ∧ ReplyAddress (type :: address)
  unread : ret = true → ¬HasAddress type stream

/-- After a false return: the socket has been closed, and what would have been accepted did not come. -/
structure Refused (accepted : Prop) (after : ProxyConnection) : Prop where
  bounded : Bounded after
  closed : after.closed = true
  refused : ¬accepted

theorem Refused.imp {accepted more : Prop} {after : ProxyConnection} (refused : Refused accepted after)
    (needs : more → accepted) : Refused more after :=
  ⟨refused.bounded, refused.closed, fun holds => refused.refused (needs holds)⟩

theorem recvFails_ends {n : Nat} {fails : ProxyConnection → Prop} (small : n ≤ 256) (bounded : Bounded c) :
    Settles (recvFails n) c (fun ret after => Bounded after ∧
      (ret = false → ∃ body, c.stream = body ++ after.stream ∧ body.length = n) ∧
      (ret = true → c.stream.length < n)) fails := by
  apply Settles.bind
  apply recv_ends small bounded
  · intro bytes after length split _ _ bounded'
    apply Settles.pure
    apply And.intro bounded'
    apply And.intro
    · intro _
      exact ⟨bytes, split, length⟩
    · intro different
      simp at different
  · intro after short _ bounded'
    apply Settles.pure
    apply And.intro bounded'
    apply And.intro
    · intro same
      rw [decide_eq_false_iff_not, not_not] at same
      omega
    · intro _
      exact short

theorem fixedAddress_ends {n : Nat} {type : UInt8} {fails : ProxyConnection → Prop} (small : n ≤ 256)
    (bounded : Bounded c) (address : ∀ body : Bytes, ReplyAddress (type :: body) ↔ body.length = n) :
    Settles (recvFails n) c (fun ret after => AddressEnd type c.stream after ret) fails := by
  apply (recvFails_ends small bounded).mono
  · intro ret after ⟨bounded', read, unread⟩
    apply AddressEnd.mk bounded'
    · intro got
      obtain ⟨body, split, length⟩ := read got
      exact ⟨body, split, (address body).mpr length⟩
    · intro failed ⟨body, rest, split, known⟩
      have short := unread failed
      have length := (address body).mp known
      rw [split, List.length_append] at short
      omega
  · exact fun _ failed => failed

theorem signed_eq (n : UInt8) : n.toInt8.toInt = (n.toNat : Int).bmod (2 ^ 8) := by
  rw [← Int8.toInt_toBitVec, BitVec.toInt_eq_toNat_bmod]
  rfl

theorem signed_small {n : UInt8} (small : n.toNat < 128) : n.toInt8.toInt = (n.toNat : Int) := by
  rw [signed_eq, Int.bmod_eq_of_le_mul_two (by omega) (by omega)]

def ShortName (stream : Bytes) : Prop := ∃ n rest, stream = n :: rest ∧ n.toNat < 128

theorem domainAddress_ends {fails : ProxyConnection → Prop} (bounded : Bounded c) (named : ShortName c.stream) :
    Settles (recvAddress (some 0x03)) c (fun ret after => AddressEnd 0x03 c.stream after ret) fails := by
  obtain ⟨n, rest, stream, small⟩ := named
  apply Settles.bind
  apply recv_ends (n := 1) (by omega) bounded
  · intro bytes between length split _ _ bounded'
    obtain ⟨first, rfl⟩ := List.length_eq_one_iff.mp length
    rw [stream] at split
    obtain ⟨rfl, more⟩ : n = first ∧ rest = between.stream := List.cons.inj split
    dsimp only
    rw [if_neg (by simp)]
    have value : (([n] : Bytes)[0]?.getD 0).toInt8.toInt = (n.toNat : Int) := signed_small small
    rw [value]
    apply (recvFails_ends (by omega) bounded').mono
    · intro ret after ⟨bounded'', read, unread⟩
      rw [stream]
      apply AddressEnd.mk bounded''
      · intro got
        obtain ⟨name, split', length'⟩ := read got
        exact ⟨n :: name, congrArg (n :: ·) (more.trans split'), .domain length'⟩
      · intro failed ⟨body, left, split', known⟩
        have short := unread failed
        cases known with
        | domain length' =>
            obtain ⟨rfl, rest'⟩ := List.cons.inj split'
            have total := congrArg List.length (more.symm.trans rest')
            simp only [List.append_eq, List.length_append] at total
            omega
    · exact fun _ failed => failed
  · intro after short _ _
    rw [stream] at short
    simp at short

theorem recvAddress_ends {type : UInt8} (bounded : Bounded c) (named : type = 0x03 → ShortName c.stream) :
    Settles (recvAddress (some type)) c (fun ret after => AddressEnd type c.stream after ret)
      (fun after => Refused (HasAddress type c.stream) after) := by
  by_cases domain : type = 0x03
  · subst domain
    exact domainAddress_ends bounded (named rfl)
  by_cases ipv4 : type = 0x01
  · subst ipv4
    apply fixedAddress_ends (n := 4) (by omega) bounded
    intro body
    apply Iff.intro
    · intro known
      cases known with
      | ipv4 length => exact length
    · exact .ipv4
  by_cases ipv6 : type = 0x04
  · subst ipv6
    apply fixedAddress_ends (n := 16) (by omega) bounded
    intro body
    apply Iff.intro
    · intro known
      cases known with
      | ipv6 length => exact length
    · exact .ipv6
  · have other : recvAddress (some type) = (do
        closesocket
        fail "Error: malformed proxy response") := by
      unfold recvAddress
      split
      · rename_i same
        exact absurd (Option.some.inj same) ipv4
      · rename_i same
        exact absurd (Option.some.inj same) ipv6
      · rename_i same
        exact absurd (Option.some.inj same) domain
      · rfl
    rw [other]
    apply Settles.bind
    apply Settles.modify
    apply Settles.fail
    have unread : ¬HasAddress type c.stream := by
      intro ⟨body, rest, _, known⟩
      cases known with
      | ipv4 _ => exact ipv4 rfl
      | ipv6 _ => exact ipv6 rfl
      | domain _ => exact domain rfl
    exact ⟨bounded, rfl, unread⟩

/-! ## The whole exchange -/

/-- The request can be made, both messages are sent, and the stream starts with well-formed replies. -/
structure Accepted (strDest : Bytes) (c : ProxyConnection) : Prop where
  length : strDest.length ≤ 255
  sends : ∃ more, c.sends = true :: true :: more
  replies : ∃ used rest, c.stream = used ++ rest ∧ Replies used

/-- The replies start with a success reply for a name, and the stream ends at the length byte or has
one of 128 or more. -/
structure Slips (strDest : Bytes) (c : ProxyConnection) : Prop where
  length : strDest.length ≤ 255
  sends : ∃ more, c.sends = true :: true :: more
  name : ∃ rest, c.stream = 0x05 :: 0x00 :: 0x05 :: 0x00 :: 0x00 :: 0x03 :: rest ∧ ¬ShortName rest

theorem length_four {bytes : Bytes} (length : bytes.length = 4) : ∃ a b c d, bytes = [a, b, c, d] := by
  obtain ⟨a, rest, rfl⟩ := List.exists_cons_of_length_eq_add_one length
  obtain ⟨b, c, d, rfl⟩ := List.length_eq_three.mp (Nat.succ.inj length)
  exact ⟨a, b, c, d, rfl⟩

def Answers (c : ProxyConnection) (form : Bytes → Prop) : Prop :=
  c.sends.head? = some true ∧ ∃ bytes rest, c.stream = bytes ++ rest ∧ form bytes

def Negotiated (bytes : Bytes) : Prop := bytes = [0x05, 0x00]

def Granted (bytes : Bytes) : Prop := ∃ type, bytes = [0x05, 0x00, 0x00, type]

theorem negotiate_ends (bounded : Bounded c) :
    Settles negotiate c (fun _ after => Bounded after ∧ after.closed = c.closed ∧ c.sends = true :: after.sends ∧
      c.stream = [0x05, 0x00] ++ after.stream) (fun after => Refused (Answers c Negotiated) after) := by
  apply Settles.bind
  apply sendAll_ends bounded
  case failed =>
    intro after short bounded closed
    exact ⟨bounded, closed, fun answers => short answers.1⟩
  intro c₁ sends stream open₁ bounded₁
  apply Settles.bind
  apply recvAll_ends (n := 2) (by omega) bounded₁
  case failed =>
    intro after short bounded closed
    refine ⟨bounded, closed, fun ⟨_, bytes, rest, split, form⟩ => ?_⟩
    rw [stream, split, form] at short
    simp only [List.cons_append, List.length_cons] at short
    omega
  intro pchRet1 c₂ length split sends₂ open₂ bounded₂
  obtain ⟨m₀, m₁, rfl⟩ := List.length_eq_two.mp length
  rw [stream] at split
  apply closeUnless_ends bounded₂
  case broken =>
    intro after other bounded closed
    refine ⟨bounded, closed, fun ⟨_, bytes, rest, split', form⟩ => other ?_⟩
    rw [split, form] at split'
    simp only [List.cons_append, List.cons.injEq] at split'
    exact ⟨congrArg some split'.1, congrArg some split'.2.1⟩
  intro ⟨first, second⟩
  cases first
  cases second
  exact ⟨bounded₂, open₂.trans open₁, by rw [sends, sends₂], split⟩

theorem command_ends (bounded : Bounded c) (strDest : Bytes) (port : Int) :
    Settles (command strDest port) c (fun type after => Bounded after ∧ after.closed = c.closed ∧
      c.sends = true :: after.sends ∧ ∃ byte, type = some byte ∧ c.stream = [0x05, 0x00, 0x00, byte] ++ after.stream)
      (fun after => Refused (Answers c Granted) after) := by
  apply Settles.bind
  apply sendAll_ends bounded
  case failed =>
    intro after short bounded closed
    exact ⟨bounded, closed, fun answers => short answers.1⟩
  intro c₁ sends stream open₁ bounded₁
  apply Settles.bind
  apply recvAll_ends (n := 4) (by omega) bounded₁
  case failed =>
    intro after short bounded closed
    refine ⟨bounded, closed, fun ⟨_, bytes, rest, split, type, form⟩ => ?_⟩
    rw [stream, split, form] at short
    simp only [List.cons_append, List.length_cons] at short
    omega
  intro pchRet2 c₂ length split sends₂ open₂ bounded₂
  obtain ⟨r₀, r₁, r₂, r₃, rfl⟩ := length_four length
  rw [stream] at split
  have fields (answers : Answers c Granted) : r₀ = 0x05 ∧ r₁ = 0x00 ∧ r₂ = 0x00 := by
    obtain ⟨_, bytes, rest, split', type, form⟩ := answers
    rw [split, form] at split'
    simp only [List.cons_append, List.cons.injEq] at split'
    exact ⟨split'.1, split'.2.1, split'.2.2.1⟩
  apply Settles.bind
  apply closeUnless_ends bounded₂
  case broken =>
    intro after other bounded closed
    exact ⟨bounded, closed, fun answers => other (congrArg some (fields answers).1)⟩
  intro version
  apply Settles.bind
  apply closeUnless_ends bounded₂
  case broken =>
    intro after other bounded closed
    exact ⟨bounded, closed, fun answers => other (congrArg some (fields answers).2.1)⟩
  intro reply
  apply Settles.bind
  apply closeUnless_ends bounded₂
  case broken =>
    intro after other bounded closed
    exact ⟨bounded, closed, fun answers => other (congrArg some (fields answers).2.2)⟩
  intro reserved
  cases version
  cases reply
  cases reserved
  exact Settles.pure ⟨bounded₂, open₂.trans open₁, by rw [sends, sends₂], r₃, rfl, split⟩

variable {strDest : Bytes}

theorem Accepted.fields (accepted : Accepted strDest c) : ∃ type address rest,
    c.stream = [0x05, 0x00] ++ ([0x05, 0x00, 0x00, type] ++ (address ++ rest)) ∧
      ReplyAddress (type :: address) ∧ 2 ≤ rest.length := by
  obtain ⟨used, rest, stream, replies⟩ := accepted.replies
  cases replies with
  | @mk address port known length =>
      cases address with
      | nil => cases known
      | cons type body =>
          refine ⟨type, body, port ++ rest, ?_, known, ?_⟩
          · rw [stream]
            simp
          · rw [List.length_append]
            omega

/-- What the function leaves behind after it has returned true. -/
structure Connected (strDest : Bytes) (c after : ProxyConnection) : Prop where
  bounded : Bounded after
  accepted : Accepted strDest c
  consumed : ∃ used, Replies used ∧ c.stream = used ++ after.stream

theorem socks5_ends (port : Int) (bounded : Bounded c) (safe : ¬Slips strDest c) :
    Settles (socks5 strDest port) c (fun _ after => Connected strDest c after)
      (fun after => Refused (Accepted strDest c) after) := by
  apply Settles.bind
  apply closeUnless_ends bounded
  case broken => exact fun after long bounded closed => ⟨bounded, closed, fun accepted => long accepted.length⟩
  intro length
  apply Settles.bind
  apply (negotiate_ends bounded).mono
  case failing =>
    intro after refused
    apply refused.imp
    intro accepted
    obtain ⟨more, sends⟩ := accepted.sends
    obtain ⟨type, address, rest, stream, -⟩ := accepted.fields
    exact ⟨by rw [sends]; rfl, _, _, stream, rfl⟩
  intro _ c₁ ⟨bounded₁, _, sends₁, stream₁⟩
  apply Settles.bind
  apply (command_ends bounded₁ strDest port).mono
  case failing =>
    intro after refused
    apply refused.imp
    intro accepted
    obtain ⟨more, sends⟩ := accepted.sends
    obtain ⟨type, address, rest, stream, -⟩ := accepted.fields
    rw [sends₁] at sends
    rw [stream₁] at stream
    exact ⟨by rw [(List.cons.inj sends).2]; rfl, _, _, List.append_cancel_left stream, type, rfl⟩
  intro type c₂ ⟨bounded₂, _, sends₂, byte, same, stream₂⟩
  subst same
  rw [stream₂] at stream₁
  rw [sends₂] at sends₁
  have fields (accepted : Accepted strDest c) : ∃ address rest, c₂.stream = address ++ rest ∧
      ReplyAddress (byte :: address) ∧ 2 ≤ rest.length := by
    obtain ⟨type, address, rest, stream, known, more⟩ := accepted.fields
    rw [stream₁] at stream
    simp only [List.cons_append, List.nil_append, List.cons.injEq, true_and] at stream
    obtain ⟨rfl, body⟩ := stream
    exact ⟨address, rest, body, known, more⟩
  have named : byte = 0x03 → ShortName c₂.stream := by
    intro domain
    apply Classical.byContradiction
    intro slip
    exact safe ⟨length, ⟨_, sends₁⟩, c₂.stream, domain ▸ stream₁, slip⟩
  apply Settles.bind
  apply (recvAddress_ends bounded₂ named).mono
  case failing =>
    intro after refused
    apply refused.imp
    intro accepted
    obtain ⟨address, rest, body, known, -⟩ := fields accepted
    exact ⟨address, rest, body, known⟩
  intro ret c₃ ended
  apply Settles.bind
  apply closeUnless_ends ended.bounded
  case broken =>
    intro after failed bounded closed
    refine ⟨bounded, closed, fun accepted => ended.unread (by simpa using failed) ?_⟩
    obtain ⟨address, rest, body, known, -⟩ := fields accepted
    exact ⟨address, rest, body, known⟩
  intro got
  obtain ⟨address, body, known⟩ := ended.read got
  apply Settles.bind
  apply recvAll_ends (n := 2) (by omega) ended.bounded
  case failed =>
    intro after short bounded closed
    refine ⟨bounded, closed, fun accepted => ?_⟩
    obtain ⟨other, rest, body', also, more⟩ := fields accepted
    obtain ⟨-, rfl⟩ := known.unique also (body.symm.trans body')
    omega
  intro port₂ c₄ portLength stream₄ _ _ bounded₄
  apply Settles.pure
  have used : c.stream = [0x05, 0x00] ++ ([0x05, 0x00, 0x00] ++ ((byte :: address) ++ port₂)) ++ c₄.stream := by
    rw [stream₁, body, stream₄]
    simp
  exact ⟨bounded₄, ⟨length, ⟨_, sends₁⟩, _, _, used, .mk known portLength⟩, _, .mk known portLength, used⟩

/-! ## Where it slips -/

/-- Whatever a computation does, it does not take back a size that recv was asked for. -/
def Keeps {α : Type} (run : Handshake α) (size : Int) : Prop :=
  ∀ c : ProxyConnection, size ∈ c.asked → Settles run c (fun _ after => size ∈ after.asked) fun after => size ∈ after.asked

theorem closeUnless_keeps {condition : Prop} [Decidable condition] {message : String} {size : Int} :
    Keeps (closeUnless condition message) size := by
  intro c asked
  unfold closeUnless
  split
  · exact Settles.pure asked
  · apply Settles.bind
    apply Settles.modify
    exact Settles.fail asked

theorem recv_keeps {n size : Int} : Keeps (recv n) size := by
  intro c asked
  apply Settles.bind
  apply Settles.get
  apply Settles.bind
  apply Settles.modify
  have asked' : size ∈ c.asked ++ [n % 2 ^ 64] := List.mem_append_left _ asked
  split
  · apply Settles.bind
    apply Settles.modify
    exact Settles.pure asked'
  · exact Settles.pure asked'

theorem recvFails_asks {n : Int} :
    Settles (recvFails n) c (fun _ after => n % 2 ^ 64 ∈ after.asked) (fun _ => False) := by
  apply Settles.bind
  apply Settles.bind
  apply Settles.get
  apply Settles.bind
  apply Settles.modify
  have asked : n % 2 ^ 64 ∈ c.asked ++ [n % 2 ^ 64] := List.mem_append_right _ (List.mem_singleton.mpr rfl)
  split
  · apply Settles.bind
    apply Settles.modify
    apply Settles.pure
    exact Settles.pure asked
  · apply Settles.pure
    exact Settles.pure asked

theorem signed_large {n : UInt8} (large : 128 ≤ n.toNat) : 256 < n.toInt8.toInt % 2 ^ 64 := by
  have below := n.toNat_lt
  rw [signed_eq, Int.bmod_def]
  split <;> omega

theorem domainAddress_slips (bounded : Bounded c) (open_ : c.closed = false) (slip : ¬ShortName c.stream) :
    Settles (recvAddress (some 0x03)) c (fun _ after => ∃ size ∈ after.asked, 256 < size)
      (fun after => after.closed = false) := by
  apply Settles.bind
  apply recv_ends (n := 1) (by omega) bounded
  · intro bytes between length split _ _ _
    obtain ⟨n, rfl⟩ := List.length_eq_one_iff.mp length
    dsimp only
    rw [if_neg (by simp)]
    have large : 128 ≤ n.toNat := by
      apply Nat.le_of_not_lt
      intro small
      exact slip ⟨n, between.stream, split, small⟩
    apply recvFails_asks.mono
    · exact fun ret after asked => ⟨_, asked, signed_large large⟩
    · exact fun _ never => never.elim
  · intro after _ closed _
    dsimp only
    rw [if_pos (by decide)]
    exact Settles.fail (closed.trans open_)

theorem socks5_slips (port : Int) (bounded : Bounded c) (open_ : c.closed = false) (slips : Slips strDest c) :
    Settles (socks5 strDest port) c (fun _ after => ¬Bounded after) (fun after => ¬Bounded after ∨ after.closed = false) := by
  obtain ⟨length, ⟨more, sends⟩, rest, stream, slip⟩ := slips
  have many {after : ProxyConnection} {size : Int} (asked : size ∈ after.asked) (large : 256 < size) :
      ¬Bounded after := by
    intro within
    have := (within size asked).2
    omega
  apply Settles.bind
  apply closeUnless_ends bounded
  case broken => exact fun after long _ _ => absurd length long
  intro _
  apply Settles.bind
  apply (negotiate_ends bounded).mono
  case failing =>
    intro after refused
    exact absurd ⟨by rw [sends]; rfl, _, _, stream, rfl⟩ refused.refused
  intro _ c₁ ⟨bounded₁, open₁, sends₁, stream₁⟩
  rw [sends] at sends₁
  rw [stream] at stream₁
  have stream₁' : c₁.stream = [0x05, 0x00, 0x00, 0x03] ++ rest := by
    simp only [List.cons_append, List.nil_append, List.cons.injEq, true_and] at stream₁
    exact stream₁.symm
  apply Settles.bind
  apply (command_ends bounded₁ strDest port).mono
  case failing =>
    intro after refused
    exact absurd ⟨by rw [← (List.cons.inj sends₁).2]; rfl, _, _, stream₁', 0x03, rfl⟩ refused.refused
  intro type c₂ ⟨bounded₂, open₂, _, byte, same, stream₂⟩
  subst same
  rw [stream₁'] at stream₂
  simp only [List.cons_append, List.nil_append, List.cons.injEq, true_and] at stream₂
  obtain ⟨rfl, tail⟩ := stream₂
  apply Settles.bind
  apply (domainAddress_slips bounded₂ (open₂.trans (open₁.trans open_)) (tail ▸ slip)).mono
  case failing => exact fun after still => Or.inr still
  intro ret c₃ ⟨size, asked, large⟩
  apply Settles.bind
  apply (closeUnless_keeps c₃ asked).mono
  case failing => exact fun after kept => Or.inl (many kept large)
  intro _ c₄ kept₄
  apply Settles.bind
  apply Settles.bind
  apply (recv_keeps c₄ kept₄).mono
  case failing => exact fun after kept => Or.inl (many kept large)
  intro _ c₅ kept₅
  apply Settles.bind
  apply (closeUnless_keeps c₅ kept₅).mono
  case failing => exact fun after kept => Or.inl (many kept large)
  intro _ c₆ kept₆
  apply Settles.pure
  exact Settles.pure (many kept₆ large)

/-- What the function should do with a connection. -/
structure Correct (strDest : Bytes) (c : ProxyConnection) (outcome : Except String Unit × ProxyConnection) : Prop where
  bounded : Bounded outcome.2
  accepts : outcome.1 = .ok () ↔ Accepted strDest c
  consumed : outcome.1 = .ok () → ∃ used, Replies used ∧ c.stream = used ++ outcome.2.stream
  closed : outcome.1 ≠ .ok () → outcome.2.closed = true

def connection (stream : Bytes) (sends : List Bool) : ProxyConnection := ⟨stream, sends, [], [], false⟩

/-- The exchange goes as it should, but for names with a length byte of 128 or more or none at all. -/
theorem socks5_correct_iff (strDest : Bytes) (port : Int) (stream : Bytes) (sends : List Bool) :
    Correct strDest (connection stream sends) (socks5 strDest port (connection stream sends)) ↔
      ¬Slips strDest (connection stream sends) := by
  have bounded : Bounded (connection stream sends) := by
    intro size asked
    cases asked
  apply Iff.intro
  · intro correct slips
    have ends := socks5_slips port bounded rfl slips
    unfold Settles at ends
    cases ran : socks5 strDest port (connection stream sends) with
    | mk result after =>
        rw [ran] at ends correct
        cases result with
        | ok _ => exact ends correct.bounded
        | error _ =>
            cases ends with
            | inl many => exact many correct.bounded
            | inr still =>
                have closed := correct.closed (by simp)
                rw [still] at closed
                cases closed
  · intro safe
    have ends := socks5_ends port bounded safe
    unfold Settles at ends
    cases ran : socks5 strDest port (connection stream sends) with
    | mk result after =>
        rw [ran] at ends
        cases result with
        | ok _ => exact ⟨ends.bounded, iff_of_true rfl ends.accepted, fun _ => ends.consumed, fun never => absurd rfl never⟩
        | error _ =>
            refine ⟨ends.bounded, iff_of_false (by simp) ends.refused, fun never => ?_, fun _ => ends.closed⟩
            cases never

/-- A success reply for a name of 128 bytes, all of which the proxy sends. -/
def longName : Bytes := [0x05, 0x00, 0x05, 0x00, 0x00, 0x03, 128] ++ List.replicate 128 0x61 ++ [0x20, 0x8d]

theorem socks5_longName :
    Accepted [0x61] (connection longName [true, true]) ∧
      (socks5 [0x61] 8333 (connection longName [true, true])).2.asked = [2, 4, 1, 18446744073709551488] ∧
      ¬Correct [0x61] (connection longName [true, true]) (socks5 [0x61] 8333 (connection longName [true, true])) ∧
      (socks5 [0x61] 8333 (connection (longName.take 6) [true, true])).2.closed = false := by
  have asked : (socks5 [0x61] 8333 (connection longName [true, true])).2.asked = [2, 4, 1, 18446744073709551488] := by
    decide +kernel
  refine ⟨⟨by decide, ⟨[], rfl⟩, longName, [], (List.append_nil _).symm, ?_⟩, asked, ?_, by decide +kernel⟩
  · have name : ReplyAddress (0x03 :: 128 :: List.replicate 128 0x61) := .domain List.length_replicate
    show Replies ([0x05, 0x00] ++ ([0x05, 0x00, 0x00] ++ ((0x03 :: 128 :: List.replicate 128 0x61) ++ [0x20, 0x8d])))
    exact .mk name rfl
  · intro correct
    have bound := (correct.bounded 18446744073709551488 (by rw [asked]; simp)).2
    omega

end Handshake

end BitCrystal
