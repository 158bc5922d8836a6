import BitCrystal.Messages

namespace BitCrystal

open Data

/-! # Receiving messages -/

structure CNetMessage where
  /-- parsing header (false) or data (true) -/
  inData : Bool
  hdrbuf : Bytes
  hdr : CMessageHeader
  nHdrPos : Nat
  vRecv : Bytes
  nDataPos : Nat
deriving DecidableEq

namespace CNetMessage

/-- `vch.resize(n)` -/
def resize (vch : Bytes) (n : Nat) : Bytes := (vch.take n).rightpad n 0

variable (pchMessageStart : Vector UInt8 4)

/-- The constructor -/
def make : CNetMessage := ⟨false, List.replicate 24 0, .empty pchMessageStart, 0, [], 0⟩

def complete (msg : CNetMessage) : Bool := msg.inData && msg.hdr.nMessageSize.toNat = msg.nDataPos

/-- readHeader, with the number of bytes that it has handled. -/
def readHeader (msg : CNetMessage) (pch : Bytes) : CNetMessage × Int :=
  let nRemaining := 24 - msg.nHdrPos
  let nCopy := min nRemaining pch.length
  let msg := { msg with hdrbuf := writeAt msg.hdrbuf msg.nHdrPos (pch.take nCopy), nHdrPos := msg.nHdrPos + nCopy }
  if msg.nHdrPos < 24 then (msg, nCopy)
  else
    match CMessageHeader.unserialize msg.hdrbuf with
    | none => (msg, -1)
    | some (hdr, rest) =>
        let msg := { msg with hdr, hdrbuf := rest }
        if MAX_SIZE < hdr.nMessageSize.toNat then (msg, -1)
        else ({ msg with inData := true, vRecv := resize msg.vRecv hdr.nMessageSize.toNat }, nCopy)

def readData (msg : CNetMessage) (pch : Bytes) : CNetMessage × Int :=
  let nRemaining := msg.hdr.nMessageSize.toNat - msg.nDataPos
  let nCopy := min nRemaining pch.length
  ({ msg with vRecv := writeAt msg.vRecv msg.nDataPos (pch.take nCopy), nDataPos := msg.nDataPos + nCopy }, nCopy)

def absorb (msg : CNetMessage) (pch : Bytes) : CNetMessage × Int :=
  if !msg.inData then msg.readHeader pch else msg.readData pch

end CNetMessage

section

variable (pchMessageStart : Vector UInt8 4)

/-- The messages before the current incomplete message, which may be a new one. -/
def currentMessage (vRecvMsg : List CNetMessage) : List CNetMessage × CNetMessage :=
  match vRecvMsg.getLast? with
  | none => ([], .make pchMessageStart)
  | some msg => if msg.complete then (vRecvMsg, .make pchMessageStart) else (vRecvMsg.dropLast, msg)

/-- A turn of ReceiveMsgBytes, with the number of bytes handled. -/
def receiveTurn (vRecvMsg : List CNetMessage) (pch : Bytes) : List CNetMessage × Int :=
  let (others, msg) := currentMessage pchMessageStart vRecvMsg
  let (msg, handled) := msg.absorb pch
  (others ++ [msg], handled)

/-- The loop of ReceiveMsgBytes; a turn handles at least one byte, or there is no end. -/
def receiveLoop : Nat → List CNetMessage → Bytes → List CNetMessage × Except Failure Bool
  | 0, vRecvMsg, _ => (vRecvMsg, .error .endless)
  | turns + 1, vRecvMsg, pch =>
      if pch = [] then (vRecvMsg, .ok true)
      else
        let (vRecvMsg, handled) := receiveTurn pchMessageStart vRecvMsg pch
        if handled < 0 then (vRecvMsg, .ok false)
        else receiveLoop turns vRecvMsg (pch.drop handled.toNat)

def receiveMsgBytes (vRecvMsg : List CNetMessage) (pch : Bytes) : List CNetMessage × Except Failure Bool :=
  receiveLoop pchMessageStart (pch.length + 1) vRecvMsg pch

/-- Calls of ReceiveMsgBytes for consecutive pieces of a stream, up to the first that fails. -/
def receiveChunks (vRecvMsg : List CNetMessage) : List Bytes → List CNetMessage × Except Failure Bool
  | [] => (vRecvMsg, .ok true)
  | chunk :: rest =>
      match receiveMsgBytes pchMessageStart vRecvMsg chunk with
      | (vRecvMsg, .ok true) => receiveChunks vRecvMsg rest
      | (vRecvMsg, .ok false) => (vRecvMsg, .ok false)
      | (vRecvMsg, .error failure) => (vRecvMsg, .error failure)

/-- The bytes of the stream that are in the messages. -/
def absorbed (vRecvMsg : List CNetMessage) : Nat := (vRecvMsg.map fun msg => msg.nHdrPos + msg.nDataPos).sum

end

/-! ## One message -/

namespace CNetMessage

variable {msg : CNetMessage} {pch : Bytes}

/-- The bytes that the header or the data still need. -/
def remaining (msg : CNetMessage) : Nat :=
  if !msg.inData then 24 - msg.nHdrPos else msg.hdr.nMessageSize.toNat - msg.nDataPos

theorem of_header (msg : CNetMessage) (parsing : msg.inData = false) :
    msg.remaining = 24 - msg.nHdrPos ∧ ∀ pch, msg.absorb pch = msg.readHeader pch := by
  simp [remaining, absorb, parsing]

theorem of_data (msg : CNetMessage) (parsed : msg.inData = true) :
    msg.remaining = msg.hdr.nMessageSize.toNat - msg.nDataPos ∧ ∀ pch, msg.absorb pch = msg.readData pch := by
  simp [remaining, absorb, parsed]

/-- A message that is not complete, with buffers of the sizes that it needs. -/
inductive Receiving (msg : CNetMessage) : Prop where
  | header (parsing : msg.inData = false) (inside : msg.nHdrPos < 24) (buffer : msg.hdrbuf.length = 24)
      (unread : msg.nDataPos = 0)
  | data (parsed : msg.inData = true) (inside : msg.nDataPos < msg.hdr.nMessageSize.toNat)
      (buffer : msg.vRecv.length = msg.hdr.nMessageSize.toNat) (allowed : msg.hdr.nMessageSize.toNat ≤ MAX_SIZE)

theorem receiving_make (pchMessageStart : Vector UInt8 4) : (make pchMessageStart).Receiving :=
  .header rfl (by simp [make]) (by simp [make]) rfl

theorem Receiving.remaining_pos (receiving : msg.Receiving) : 0 < msg.remaining := by
  cases receiving with
  | header parsing inside => exact (of_header _ parsing).1 ▸ Nat.sub_pos_of_lt inside
  | data parsed inside => exact (of_data _ parsed).1 ▸ Nat.sub_pos_of_lt inside

theorem Receiving.not_complete (receiving : msg.Receiving) : msg.complete = false := by
  cases receiving with
  | header parsing => rw [complete, parsing, Bool.false_and]
  | data parsed inside => simp [complete, parsed, Nat.ne_of_gt inside]

theorem absorb_append (enough : msg.remaining ≤ pch.length) (more : Bytes) : msg.absorb (pch ++ more) = msg.absorb pch := by
  have cut {count : Nat} (le : count ≤ pch.length) :
      min count (pch ++ more).length = count ∧ min count pch.length = count ∧
        (pch ++ more).take count = pch.take count := by
    rw [List.length_append]
    exact ⟨by omega, by omega, List.take_append_of_le_length le⟩
  cases parsing : msg.inData with
  | false =>
      obtain ⟨need, absorbs⟩ := of_header msg parsing
      obtain ⟨whole, part, same⟩ := cut (need ▸ enough)
      simp only [absorbs, readHeader, whole, part, same]
  | true =>
      obtain ⟨need, absorbs⟩ := of_data msg parsing
      obtain ⟨whole, part, same⟩ := cut (need ▸ enough)
      simp only [absorbs, readData, whole, part, same]

theorem Receiving.absorb_part (receiving : msg.Receiving) (few : pch.length < msg.remaining) :
    ∃ next : CNetMessage, msg.absorb pch = (next, (pch.length : Int)) ∧ next.Receiving ∧
      next.nHdrPos + next.nDataPos = msg.nHdrPos + msg.nDataPos + pch.length ∧
      ∀ more, msg.absorb (pch ++ more) =
        ((next.absorb more).1, if (next.absorb more).2 < 0 then (next.absorb more).2 else pch.length + (next.absorb more).2) := by
  have whole : pch.take pch.length = pch := List.take_length
  cases receiving with
  | header parsing inside buffer unread =>
      obtain ⟨need, absorbs⟩ := of_header msg parsing
      rw [need] at few
      have copied : min (24 - msg.nHdrPos) pch.length = pch.length := by omega
      have short : msg.nHdrPos + pch.length < 24 := by omega
      refine ⟨{ msg with hdrbuf := writeAt msg.hdrbuf msg.nHdrPos pch, nHdrPos := msg.nHdrPos + pch.length }, ?_, ?_, ?_, ?_⟩
      · simp only [absorbs, readHeader, copied, whole, if_pos short]
      · exact .header parsing short ((length_writeAt (by omega)).trans buffer) unread
      · change msg.nHdrPos + pch.length + msg.nDataPos = _
        omega
      · intro more
        have both : min (24 - msg.nHdrPos) (pch ++ more).length =
            pch.length + min (24 - (msg.nHdrPos + pch.length)) more.length := by
          rw [List.length_append]
          omega
        have fits : msg.nHdrPos + pch.length +
            (more.take (min (24 - (msg.nHdrPos + pch.length)) more.length)).length ≤ msg.hdrbuf.length := by
          rw [List.length_take]
          omega
        rw [absorbs, (of_header { msg with
          hdrbuf := writeAt msg.hdrbuf msg.nHdrPos pch, nHdrPos := msg.nHdrPos + pch.length } parsing).2]
        simp only [readHeader, both, List.take_length_add_append, writeAt_writeAt fits, ← Nat.add_assoc]
        split
        · rw [if_neg (by omega)]
          push_cast
          rfl
        · split
          · rfl
          · split
            · rfl
            · rw [if_neg (by omega)]
              push_cast
              rfl
  | data parsed inside buffer allowed =>
      obtain ⟨need, absorbs⟩ := of_data msg parsed
      rw [need] at few
      have copied : min (msg.hdr.nMessageSize.toNat - msg.nDataPos) pch.length = pch.length := by omega
      have short : msg.nDataPos + pch.length < msg.hdr.nMessageSize.toNat := by omega
      refine ⟨{ msg with vRecv := writeAt msg.vRecv msg.nDataPos pch, nDataPos := msg.nDataPos + pch.length }, ?_, ?_, ?_, ?_⟩
      · simp only [absorbs, readData, copied, whole]
      · exact .data parsed short ((length_writeAt (by omega)).trans buffer) allowed
      · change msg.nHdrPos + (msg.nDataPos + pch.length) = _
        omega
      · intro more
        have both : min (msg.hdr.nMessageSize.toNat - msg.nDataPos) (pch ++ more).length =
            pch.length + min (msg.hdr.nMessageSize.toNat - (msg.nDataPos + pch.length)) more.length := by
          rw [List.length_append]
          omega
        have fits : msg.nDataPos + pch.length +
            (more.take (min (msg.hdr.nMessageSize.toNat - (msg.nDataPos + pch.length)) more.length)).length ≤
              msg.vRecv.length := by
          rw [List.length_take]
          omega
        rw [absorbs, (of_data { msg with
          vRecv := writeAt msg.vRecv msg.nDataPos pch, nDataPos := msg.nDataPos + pch.length } parsed).2]
        simp only [readData, both, List.take_length_add_append, writeAt_writeAt fits, ← Nat.add_assoc]
        rw [if_neg (by omega)]
        push_cast
        rfl

/-- With the bytes that it needs, the message is refused, or it is complete or goes on with its data. -/
theorem Receiving.absorb_whole (receiving : msg.Receiving) (enough : msg.remaining ≤ pch.length) :
    ∃ (next : CNetMessage) (handled : Int), msg.absorb pch = (next, handled) ∧ (handled < 0 ∨ handled = msg.remaining ∧
      (next.complete = false → next.Receiving)) ∧
      next.nHdrPos + next.nDataPos = msg.nHdrPos + msg.nDataPos + msg.remaining := by
  cases receiving with
  | header parsing inside buffer unread =>
      obtain ⟨need, absorbs⟩ := of_header msg parsing
      rw [need] at enough ⊢
      have copied : min (24 - msg.nHdrPos) pch.length = 24 - msg.nHdrPos := by omega
      have full : msg.nHdrPos + (24 - msg.nHdrPos) = 24 := by omega
      have size : (writeAt msg.hdrbuf msg.nHdrPos (pch.take (24 - msg.nHdrPos))).length = HEADER_SIZE := by
        rw [length_writeAt (by rw [List.length_take]; omega), buffer]
        rfl
      obtain ⟨hdr, read⟩ := CMessageHeader.unserialize_of_length size
      simp only [absorbs, readHeader, copied, full, lt_irrefl, if_false, read]
      split
      case isTrue large =>
        refine ⟨_, _, rfl, .inl (by decide), ?_⟩
        change 24 + msg.nDataPos = _
        omega
      case isFalse small =>
        refine ⟨_, _, rfl, .inr ⟨rfl, fun incomplete => ?_⟩, ?_⟩
        · have apart : hdr.nMessageSize.toNat ≠ msg.nDataPos := by simpa [complete] using incomplete
          refine .data rfl ?_ ?_ (not_lt.mp small)
          · change msg.nDataPos < hdr.nMessageSize.toNat
            omega
          · change (resize msg.vRecv hdr.nMessageSize.toNat).length = hdr.nMessageSize.toNat
            rw [resize, List.rightpad, List.length_append, List.length_replicate, List.length_take]
            omega
        · change 24 + msg.nDataPos = _
          omega
  | data parsed inside buffer allowed =>
      obtain ⟨need, absorbs⟩ := of_data msg parsed
      rw [need] at enough ⊢
      have copied : min (msg.hdr.nMessageSize.toNat - msg.nDataPos) pch.length =
          msg.hdr.nMessageSize.toNat - msg.nDataPos := by omega
      simp only [absorbs, readData, copied]
      refine ⟨_, _, rfl, .inr ⟨rfl, fun incomplete => ?_⟩, ?_⟩
      · have full : msg.hdr.nMessageSize.toNat = msg.nDataPos + (msg.hdr.nMessageSize.toNat - msg.nDataPos) := by omega
        have apart : ¬ msg.hdr.nMessageSize.toNat = msg.nDataPos + (msg.hdr.nMessageSize.toNat - msg.nDataPos) := by
          simpa [complete, parsed] using incomplete
        exact absurd full apart
      · change msg.nHdrPos + (msg.nDataPos + _) = _
        omega

end CNetMessage

/-! ## The messages -/

/-- What ReceiveMsgBytes makes of a list of bytes: the messages, and whether all bytes were accepted. -/
inductive Receives (pchMessageStart : Vector UInt8 4) :
    List CNetMessage → Bytes → List CNetMessage × Bool → Prop where
  | done (vRecvMsg : List CNetMessage) : Receives pchMessageStart vRecvMsg [] (vRecvMsg, true)
  | rejected {vRecvMsg next : List CNetMessage} {pch : Bytes} {handled : Int} (nonempty : pch ≠ [])
      (turn : receiveTurn pchMessageStart vRecvMsg pch = (next, handled)) (negative : handled < 0) :
      Receives pchMessageStart vRecvMsg pch (next, false)
  | turn {vRecvMsg next : List CNetMessage} {pch : Bytes} {handled : Int} {result : List CNetMessage × Bool}
      (nonempty : pch ≠ []) (turn : receiveTurn pchMessageStart vRecvMsg pch = (next, handled))
      (nonnegative : 0 ≤ handled) (rest : Receives pchMessageStart next (pch.drop handled.toNat) result) :
      Receives pchMessageStart vRecvMsg pch result

section

variable {pchMessageStart : Vector UInt8 4} {vRecvMsg next others : List CNetMessage} {msg : CNetMessage} {pch more : Bytes}
  {handled : Int} {result : List CNetMessage × Bool}

def Ready (vRecvMsg : List CNetMessage) : Prop :=
  ∀ msg, vRecvMsg.getLast? = some msg → msg.complete = false → msg.Receiving

theorem ready_concat (receiving : msg.complete = false → msg.Receiving) : Ready (others ++ [msg]) := by
  intro last isLast
  rw [List.getLast?_concat] at isLast
  cases isLast
  exact receiving

theorem currentMessage_concat (receiving : msg.Receiving) :
    currentMessage pchMessageStart (others ++ [msg]) = (others, msg) := by
  simp [currentMessage, receiving.not_complete]

theorem Ready.currentMessage (ready : Ready vRecvMsg) (pchMessageStart : Vector UInt8 4) :
    ∃ others msg, currentMessage pchMessageStart vRecvMsg = (others, msg) ∧ msg.Receiving ∧
      absorbed (others ++ [msg]) = absorbed vRecvMsg := by
  have fresh (others : List CNetMessage) : absorbed (others ++ [.make pchMessageStart]) = absorbed others := by
    simp [absorbed, CNetMessage.make]
  unfold BitCrystal.currentMessage
  cases last : vRecvMsg.getLast? with
  | none =>
      rw [List.getLast?_eq_none_iff.mp last]
      exact ⟨[], _, rfl, CNetMessage.receiving_make pchMessageStart, fresh []⟩
  | some msg =>
      cases incomplete : msg.complete with
      | true => exact ⟨vRecvMsg, _, if_pos incomplete, CNetMessage.receiving_make pchMessageStart, fresh vRecvMsg⟩
      | false =>
          have same : vRecvMsg.dropLast ++ [msg] = vRecvMsg := List.dropLast_append_getLast? msg last
          exact ⟨vRecvMsg.dropLast, msg, if_neg (by simp [incomplete]), ready msg last incomplete, by rw [same]⟩

theorem Receives.unique {other : List CNetMessage × Bool} (left : Receives pchMessageStart vRecvMsg pch result)
    (right : Receives pchMessageStart vRecvMsg pch other) : result = other := by
  induction left with
  | done vRecvMsg =>
      cases right with
      | done => rfl
      | rejected nonempty => exact absurd rfl nonempty
      | turn nonempty => exact absurd rfl nonempty
  | rejected nonempty turn negative =>
      cases right with
      | done => exact absurd rfl nonempty
      | rejected _ turn' _ =>
          rw [turn] at turn'
          cases turn'
          rfl
      | turn _ turn' nonnegative =>
          rw [turn] at turn'
          cases turn'
          omega
  | turn nonempty turn nonnegative _ ih =>
      cases right with
      | done => exact absurd rfl nonempty
      | rejected _ turn' negative =>
          rw [turn] at turn'
          cases turn'
          omega
      | turn _ turn' _ rest =>
          rw [turn] at turn'
          cases turn'
          exact ih rest

/-- A turn takes some of the bytes: the current message refuses them, goes on, or has all that it needs. -/
theorem Ready.turn (ready : Ready vRecvMsg) (pchMessageStart : Vector UInt8 4) (nonempty : pch ≠ []) :
    ∃ next handled taken, receiveTurn pchMessageStart vRecvMsg pch = (next, handled) ∧ 0 < taken ∧ taken ≤ pch.length ∧
      absorbed next = absorbed vRecvMsg + taken ∧ (handled < 0 ∨ handled = taken ∧ Ready next) := by
  have count (others : List CNetMessage) (msg : CNetMessage) :
      absorbed (others ++ [msg]) = absorbed others + (msg.nHdrPos + msg.nDataPos) := by
    simp [absorbed]
  obtain ⟨others, msg, current, receiving, same⟩ := ready.currentMessage pchMessageStart
  have size : 0 < pch.length := List.length_pos_of_ne_nil nonempty
  rw [count] at same
  rcases Nat.lt_or_ge pch.length msg.remaining with few | enough
  · obtain ⟨next, absorb, receiving', held, _⟩ := receiving.absorb_part few
    refine ⟨others ++ [next], pch.length, pch.length, ?_, size, le_rfl, ?_, .inr ⟨rfl, ready_concat fun _ => receiving'⟩⟩
    · rw [receiveTurn, current]
      simp only [absorb]
    · rw [count, held]
      omega
  · obtain ⟨next, handled, absorb, verdict, held⟩ := receiving.absorb_whole enough
    refine ⟨others ++ [next], handled, msg.remaining, ?_, receiving.remaining_pos, enough, ?_, ?_⟩
    · rw [receiveTurn, current]
      simp only [absorb]
    · rw [count, held]
      omega
    · exact verdict.imp_right fun ⟨amount, goesOn⟩ => ⟨amount, ready_concat goesOn⟩

theorem Ready.turn_taken {handled : Int} (ready : Ready vRecvMsg) (nonempty : pch ≠ [])
    (turn : receiveTurn pchMessageStart vRecvMsg pch = (next, handled)) (nonnegative : 0 ≤ handled) :
    ∃ taken : Nat, handled = taken ∧ 0 < taken ∧ taken ≤ pch.length ∧ absorbed next = absorbed vRecvMsg + taken ∧
      Ready next := by
  obtain ⟨_, _, taken, turn', positive, le, held, verdict⟩ := ready.turn pchMessageStart nonempty
  rw [turn] at turn'
  cases turn'
  obtain ⟨amount, ready'⟩ := verdict.resolve_left (by omega)
  exact ⟨taken, amount, positive, le, held, ready'⟩

/-- Bytes that follow those of a turn are not looked at, or they go on where the turn has stopped. -/
theorem Ready.turn_append (ready : Ready vRecvMsg) (pchMessageStart : Vector UInt8 4) (pch : Bytes) :
    (∀ more, receiveTurn pchMessageStart vRecvMsg (pch ++ more) = receiveTurn pchMessageStart vRecvMsg pch) ∨
      ∃ next, receiveTurn pchMessageStart vRecvMsg pch = (next, (pch.length : Int)) ∧
        ∀ more, receiveTurn pchMessageStart vRecvMsg (pch ++ more) =
          ((receiveTurn pchMessageStart next more).1,
            if (receiveTurn pchMessageStart next more).2 < 0 then (receiveTurn pchMessageStart next more).2
            else pch.length + (receiveTurn pchMessageStart next more).2) := by
  obtain ⟨others, msg, current, receiving, _⟩ := ready.currentMessage pchMessageStart
  rcases Nat.lt_or_ge pch.length msg.remaining with few | enough
  · obtain ⟨next, absorb, receiving', _, follows⟩ := receiving.absorb_part few
    refine .inr ⟨others ++ [next], ?_, fun more => ?_⟩
    · rw [receiveTurn, current]
      simp only [absorb]
    · rw [receiveTurn, current, receiveTurn, currentMessage_concat receiving']
      simp only [follows]
  · refine .inl fun more => ?_
    rw [receiveTurn, receiveTurn, current]
    simp only [CNetMessage.absorb_append enough]

theorem Receives.append_rejected (first : Receives pchMessageStart vRecvMsg pch result) (ready : Ready vRecvMsg)
    (rejected : result.2 = false) (more : Bytes) : Receives pchMessageStart vRecvMsg (pch ++ more) result := by
  induction first with
  | done => contradiction
  | @rejected vRecvMsg next pch handled nonempty turn negative =>
      rcases ready.turn_append pchMessageStart pch with whole | ⟨_, part, _⟩
      · exact .rejected (List.append_ne_nil_of_left_ne_nil nonempty more) ((whole more).trans turn) negative
      · rw [part] at turn
        cases turn
        omega
  | @turn vRecvMsg next pch handled result nonempty turn nonnegative rest ih =>
      obtain ⟨taken, rfl, positive, le, _, ready'⟩ := ready.turn_taken nonempty turn nonnegative
      rw [Int.toNat_natCast] at ih
      rcases ready.turn_append pchMessageStart pch with whole | ⟨_, part, _⟩
      · refine .turn (List.append_ne_nil_of_left_ne_nil nonempty more) ((whole more).trans turn) nonnegative ?_
        rw [Int.toNat_natCast, List.drop_append_of_le_length le]
        exact ih ready' rejected
      · rw [part] at turn
        cases turn
        rw [Int.toNat_natCast, List.drop_length] at rest
        rw [rest.unique (.done next)] at rejected
        contradiction

theorem Receives.append {final : List CNetMessage × Bool} (first : Receives pchMessageStart vRecvMsg pch final)
    (ready : Ready vRecvMsg) (accepted : final.2 = true) (second : Receives pchMessageStart final.1 more result) :
    Receives pchMessageStart vRecvMsg (pch ++ more) result := by
  induction first with
  | done => exact second
  | rejected => contradiction
  | @turn vRecvMsg next pch handled final nonempty turn nonnegative rest ih =>
      have nonempty' := List.append_ne_nil_of_left_ne_nil nonempty more
      obtain ⟨taken, rfl, positive, le, _, ready'⟩ := ready.turn_taken nonempty turn nonnegative
      rw [Int.toNat_natCast] at ih
      rcases ready.turn_append pchMessageStart pch with whole | ⟨_, part, follows⟩
      · refine .turn nonempty' ((whole more).trans turn) nonnegative ?_
        rw [Int.toNat_natCast, List.drop_append_of_le_length le]
        exact ih ready' accepted second
      · -- the turn has stopped inside the message, where the first turn of the second run goes on
        rw [part] at turn
        cases turn
        rw [Int.toNat_natCast, List.drop_length] at rest
        rw [rest.unique (.done next)] at second
        cases second with
        | done =>
            rw [List.append_nil]
            exact .turn nonempty part nonnegative (by
              rw [Int.toNat_natCast, List.drop_length]
              exact .done next)
        | rejected _ turn negative =>
            have joined := follows more
            rw [turn, if_pos negative] at joined
            exact .rejected nonempty' joined negative
        | turn _ turn nonnegative' rest' =>
            have joined := follows more
            rw [turn, if_neg (by omega)] at joined
            refine .turn nonempty' joined (by omega) ?_
            rw [Int.toNat_add nonnegative nonnegative', Int.toNat_natCast, List.drop_length_add_append]
            exact rest'

/-- The bytes of the messages grow by those that were accepted; a refusal takes at least one byte. -/
theorem Receives.held (receives : Receives pchMessageStart vRecvMsg pch result) (ready : Ready vRecvMsg) :
    absorbed result.1 ≤ absorbed vRecvMsg + pch.length ∧
      (result.2 = true → absorbed result.1 = absorbed vRecvMsg + pch.length ∧ Ready result.1) ∧
      (result.2 = false → absorbed vRecvMsg < absorbed result.1) := by
  induction receives with
  | done => exact ⟨le_rfl, fun _ => ⟨rfl, ready⟩, by rintro ⟨⟩⟩
  | @rejected vRecvMsg next pch handled nonempty turn negative =>
      obtain ⟨_, _, taken, turn', positive, le, held, _⟩ := ready.turn pchMessageStart nonempty
      rw [turn] at turn'
      cases turn'
      exact ⟨show absorbed next ≤ _ by omega, by rintro ⟨⟩, fun _ => show _ < absorbed next by omega⟩
  | @turn vRecvMsg next pch handled result nonempty turn nonnegative rest ih =>
      obtain ⟨taken, amount, positive, le, held, ready'⟩ := ready.turn_taken nonempty turn nonnegative
      obtain ⟨bound, exact', grown⟩ := ih ready'
      rw [List.length_drop, amount, Int.toNat_natCast] at bound exact'
      exact ⟨by omega, fun accepted => ⟨by have := (exact' accepted).1; omega, (exact' accepted).2⟩,
        fun refused => by have := grown refused; omega⟩

/-! ## Calls -/

theorem Ready.receiveLoop (ready : Ready vRecvMsg) (pchMessageStart : Vector UInt8 4) {turns : Nat} (enough : pch.length < turns) :
    ∃ result, receiveLoop pchMessageStart turns vRecvMsg pch = (result.1, .ok result.2) ∧
      Receives pchMessageStart vRecvMsg pch result := by
  induction turns generalizing vRecvMsg pch with
  | zero => omega
  | succ turns ih =>
      unfold BitCrystal.receiveLoop
      by_cases empty : pch = []
      · subst empty
        exact ⟨(vRecvMsg, true), if_pos rfl, .done vRecvMsg⟩
      · obtain ⟨next, handled, taken, turn, positive, le, _, verdict⟩ :=
          ready.turn pchMessageStart empty
        rw [if_neg empty]
        simp only [turn]
        by_cases negative : handled < 0
        · rw [if_pos negative]
          exact ⟨(next, false), rfl, .rejected empty turn negative⟩
        · obtain ⟨amount, ready'⟩ := verdict.resolve_left negative
          rw [if_neg negative]
          have fewer : (pch.drop handled.toNat).length < turns := by
            rw [List.length_drop, amount, Int.toNat_natCast]
            omega
          obtain ⟨result, run, receives⟩ := ih ready' fewer
          exact ⟨result, run, .turn empty turn (by omega) receives⟩

theorem Ready.receiveChunks (ready : Ready vRecvMsg) (pchMessageStart : Vector UInt8 4) (chunks : List Bytes) :
    ∃ result, receiveChunks pchMessageStart vRecvMsg chunks = (result.1, .ok result.2) ∧
      Receives pchMessageStart vRecvMsg chunks.flatten result := by
  induction chunks generalizing vRecvMsg with
  | nil => exact ⟨(vRecvMsg, true), rfl, .done vRecvMsg⟩
  | cons chunk rest ih =>
      obtain ⟨⟨next, accepted⟩, run, receives⟩ := ready.receiveLoop pchMessageStart
        (Nat.lt_succ_self chunk.length)
      have call : receiveMsgBytes pchMessageStart vRecvMsg chunk = (next, .ok accepted) := run
      rw [BitCrystal.receiveChunks, call, List.flatten_cons]
      cases accepted with
      | false => exact ⟨(next, false), rfl, receives.append_rejected ready rfl _⟩
      | true =>
          have ready' := ((receives.held ready).2.1 rfl).2
          obtain ⟨result, run', receives'⟩ := ih ready'
          exact ⟨result, run', receives.append ready rfl receives'⟩

theorem Receives.take_iff (receives : Receives pchMessageStart vRecvMsg pch result) (ready : Ready vRecvMsg)
    (refused : result.2 = false) {k : Nat} {part : List CNetMessage × Bool}
    (prefix' : Receives pchMessageStart vRecvMsg (pch.take k) part) :
    part.2 = true ↔ absorbed vRecvMsg + k < absorbed result.1 := by
  have held := receives.held ready
  have held' := prefix'.held ready
  rw [List.length_take] at held'
  constructor
  · intro accepted
    obtain ⟨exact', ready'⟩ := held'.2.1 accepted
    obtain ⟨⟨next, accepted'⟩, _, rest⟩ := ready'.receiveLoop pchMessageStart (Nat.lt_succ_self (pch.drop k).length)
    have whole := prefix'.append ready accepted rest
    rw [List.take_append_drop] at whole
    have same := receives.unique whole
    subst same
    have grown := (rest.held ready').2.2 refused
    by_cases inside : k ≤ pch.length
    · omega
    · have empty : pch.drop k = [] := List.drop_eq_nil_of_le (by omega)
      rw [empty] at rest
      rw [rest.unique (.done part.1)] at refused
      contradiction
  · intro before
    by_contra notAccepted
    have refused' : part.2 = false := by simpa using notAccepted
    have whole := prefix'.append_rejected ready refused' (pch.drop k)
    rw [List.take_append_drop] at whole
    have same := receives.unique whole
    subst same
    omega

end

/-! ## Whole messages -/

section

variable {vRecvMsg : List CNetMessage}

def Settled (vRecvMsg : List CNetMessage) : Prop := ∀ msg, vRecvMsg.getLast? = some msg → msg.complete = true

theorem Settled.ready (settled : Settled vRecvMsg) : Ready vRecvMsg := by
  intro msg last incomplete
  rw [settled msg last] at incomplete
  contradiction

theorem Settled.currentMessage (settled : Settled vRecvMsg) (pchMessageStart : Vector UInt8 4) :
    currentMessage pchMessageStart vRecvMsg = (vRecvMsg, .make pchMessageStart) := by
  unfold BitCrystal.currentMessage
  cases last : vRecvMsg.getLast? with
  | none => rw [List.getLast?_eq_none_iff.mp last]
  | some msg => exact if_pos (settled msg last)

variable [Hashing]

/-- The message that EndMessage has sent, once it is received. -/
def receivedMessage (pchMessageStart : Vector UInt8 4) (pszCommand payload : Bytes) : CNetMessage :=
  ⟨true, [], finishedHeader pchMessageStart pszCommand payload, 24, payload, payload.length⟩

/-- The bytes that EndMessage queues. -/
def sentMessage (pchMessageStart : Vector UInt8 4) (pszCommand payload : Bytes) : Bytes :=
  finishMessage ((CMessageHeader.make pchMessageStart pszCommand 0).serialize ++ payload)

theorem Settled.receives_sent (settled : Settled vRecvMsg) (pchMessageStart : Vector UInt8 4) (pszCommand : Bytes)
    {payload : Bytes} (allowed : payload.length ≤ MAX_SIZE) :
    Receives pchMessageStart vRecvMsg (sentMessage pchMessageStart pszCommand payload)
      (vRecvMsg ++ [receivedMessage pchMessageStart pszCommand payload], true) := by
  rw [sentMessage, finishMessage_eq]
  generalize isHeader : finishedHeader pchMessageStart pszCommand payload = hdr
  have size : hdr.nMessageSize.toNat = payload.length := isHeader ▸ finishedHeader_size pchMessageStart pszCommand allowed
  have length : hdr.serialize.length = 24 := hdr.length_serialize
  -- the first turn takes the header
  have first : receiveTurn pchMessageStart vRecvMsg (hdr.serialize ++ payload) =
      (vRecvMsg ++ [⟨true, [], hdr, 24, List.replicate payload.length 0, 0⟩], 24) := by
    have copied : min 24 (hdr.serialize ++ payload).length = 24 := by
      rw [List.length_append]
      omega
    have front : (hdr.serialize ++ payload).take 24 = hdr.serialize := by
      rw [← length, List.take_left]
    have buffer : writeAt (CNetMessage.make pchMessageStart).hdrbuf 0 hdr.serialize = hdr.serialize :=
      writeAt_all (by simp [CNetMessage.make, length])
    have resized : CNetMessage.resize (CNetMessage.make pchMessageStart).vRecv hdr.nMessageSize.toNat =
        List.replicate payload.length 0 := by
      simp [CNetMessage.resize, CNetMessage.make, List.rightpad, size]
    rw [receiveTurn, settled.currentMessage pchMessageStart]
    simp only [(CNetMessage.of_header (.make pchMessageStart) rfl).2, CNetMessage.readHeader]
    simp only [show (CNetMessage.make pchMessageStart).nHdrPos = 0 from rfl, Nat.sub_zero, Nat.zero_add, copied, front, buffer,
      lt_irrefl, if_false, hdr.reads.whole, if_neg (show ¬ MAX_SIZE < hdr.nMessageSize.toNat by omega), resized]
    rfl
  have rest : (hdr.serialize ++ payload).drop (24 : Int).toNat = payload := by
    rw [show (24 : Int).toNat = hdr.serialize.length from length.symm, List.drop_left]
  refine .turn (List.ne_nil_of_length_pos (by rw [List.length_append]; omega)) first (by decide) ?_
  rw [rest]
  by_cases empty : payload = []
  · subst empty
    rw [receivedMessage, isHeader]
    exact .done _
  · -- the second turn takes the data
    have positive : 0 < payload.length := List.length_pos_of_ne_nil empty
    have receiving : CNetMessage.Receiving ⟨true, [], hdr, 24, List.replicate payload.length 0, 0⟩ :=
      .data rfl (size ▸ positive) (by simp [size]) (size ▸ allowed)
    have second : receiveTurn pchMessageStart (vRecvMsg ++ [⟨true, [], hdr, 24, List.replicate payload.length 0, 0⟩]) payload =
        (vRecvMsg ++ [⟨true, [], hdr, 24, payload, payload.length⟩], (payload.length : Int)) := by
      rw [receiveTurn, currentMessage_concat receiving]
      simp only [(CNetMessage.of_data ⟨true, [], hdr, 24, List.replicate payload.length 0, 0⟩ rfl).2, CNetMessage.readData,
        size, Nat.sub_zero, min_self, List.take_length, Nat.zero_add]
      rw [writeAt_all (by simp)]
    refine .turn empty second (by omega) ?_
    rw [Int.toNat_natCast, List.drop_length, receivedMessage, isHeader]
    exact .done _

theorem Settled.receives_messages (settled : Settled vRecvMsg) (pchMessageStart : Vector UInt8 4)
    {messages : List (Bytes × Bytes)} (allowed : ∀ message ∈ messages, message.2.length ≤ MAX_SIZE) :
    Receives pchMessageStart vRecvMsg (messages.flatMap fun message => sentMessage pchMessageStart message.1 message.2)
      (vRecvMsg ++ messages.map fun message => receivedMessage pchMessageStart message.1 message.2, true) := by
  induction messages generalizing vRecvMsg with
  | nil =>
      rw [List.map_nil, List.append_nil]
      exact .done vRecvMsg
  | cons message rest ih =>
      have small := allowed message (List.mem_cons_self ..)
      have first := settled.receives_sent pchMessageStart message.1 small
      have settled' : Settled (vRecvMsg ++ [receivedMessage pchMessageStart message.1 message.2]) := by
        intro last isLast
        rw [List.getLast?_concat] at isLast
        cases isLast
        simp [CNetMessage.complete, receivedMessage, finishedHeader_size pchMessageStart message.1 small]
      have others := ih settled' fun other member => allowed other (List.mem_cons_of_mem _ member)
      rw [List.append_assoc] at others
      exact first.append settled.ready rfl others

/-- The calls of ReceiveMsgBytes end, and what they make of a stream does not depend on the pieces it comes in:
the same messages, with the same partial one, or a refusal at the same byte. A stream of sent messages
is received as these messages. -/
theorem receiveMsgBytes_framing (pchMessageStart : Vector UInt8 4) :
    (∀ stream : Bytes, ∃ vRecvMsg accepted,
      (∀ chunks : List Bytes, chunks.flatten = stream →
        receiveChunks pchMessageStart [] chunks = (vRecvMsg, .ok accepted)) ∧
      (accepted = false → ∀ k, (receiveMsgBytes pchMessageStart [] (stream.take k)).2 =
        .ok (decide (k < absorbed vRecvMsg)))) ∧
    ∀ messages : List (Bytes × Bytes), (∀ message ∈ messages, message.2.length ≤ MAX_SIZE) →
      ∀ chunks : List Bytes,
        (chunks.flatten = messages.flatMap fun message => sentMessage pchMessageStart message.1 message.2) →
        receiveChunks pchMessageStart [] chunks =
          (messages.map fun message => receivedMessage pchMessageStart message.1 message.2, .ok true) := by
  have settled : Settled [] := by rintro _ ⟨⟩
  have run (chunks : List Bytes) := settled.ready.receiveChunks pchMessageStart chunks
  refine ⟨fun stream => ?_, fun messages allowed chunks same => ?_⟩
  · obtain ⟨result, _, receives⟩ := run [stream]
    rw [List.flatten_singleton] at receives
    refine ⟨result.1, result.2, fun chunks same => ?_, fun refused k => ?_⟩
    · obtain ⟨other, calls, receives'⟩ := run chunks
      rw [same] at receives'
      rw [calls, receives'.unique receives]
    · obtain ⟨part, call, prefix'⟩ := settled.ready.receiveLoop pchMessageStart (Nat.lt_succ_self (stream.take k).length)
      have iff := receives.take_iff settled.ready refused prefix'
      rw [show absorbed [] = 0 from rfl, Nat.zero_add] at iff
      rw [receiveMsgBytes, call]
      exact congrArg Except.ok (Bool.eq_iff_iff.mpr (iff.trans decide_eq_true_iff.symm))
  · obtain ⟨result, calls, receives⟩ := run chunks
    have expected := settled.receives_messages pchMessageStart allowed
    rw [same] at receives
    rw [calls, receives.unique expected, List.nil_append]

end

end BitCrystal
