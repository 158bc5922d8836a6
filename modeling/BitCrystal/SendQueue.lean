import BitCrystal.Messages

namespace BitCrystal

open Data

/-! # The send queue of a node -/

/-- What WSAGetLastError says after a failed call of send. -/
inductive SocketError where
  | WSAEWOULDBLOCK
  | WSAEMSGSIZE
  | WSAEINTR
  | WSAEINPROGRESS
  | other
deriving DecidableEq

/-- How a call of send ends: with a number of bytes it takes at most, or with an error. -/
inductive SendAnswer where
  | sent (nBytes : Nat)
  | failed (nErr : SocketError)

/-- What the node sees of its surroundings at each call of send. -/
structure SendEnvironment where
  pchMessageStart : Vector UInt8 4
  send : Nat → SendAnswer
  getTime : Nat → Int

/-- send takes no more bytes than this in one call. -/
def MAX_SEND : Nat := 0x7ffff000

structure SendingNode where
  ssSend : Bytes
  vSendMsg : List Bytes
  nSendSize : Nat
  nSendOffset : Nat
  nSendBytes : UInt64
  nLastSend : Int
  /-- the socket is closed, `fDisconnect` is set -/
  closed : Bool
  /-- the messages that were ever added to `vSendMsg`, one after the other -/
  queued : Bytes
  /-- the bytes that the socket has accepted, and the calls of send -/
  socket : Bytes
  nSends : Nat
deriving DecidableEq

namespace SendingNode

def initial : SendingNode := ⟨[], [], 0, 0, 0, 0, false, [], [], 0⟩

/-- `send(hSocket, data, data.size(), ...)`, which fails on a closed socket. -/
def send (env : SendEnvironment) (node : SendingNode) (data : Bytes) : SendingNode × Except SocketError Nat :=
  let answer := if node.closed then .failed .other else env.send node.nSends
  let node := { node with nSends := node.nSends + 1 }
  match answer with
  | .failed nErr => (node, .error nErr)
  | .sent nBytes =>
      let taken := data.take (min nBytes MAX_SEND)
      ({ node with socket := node.socket ++ taken }, .ok taken.length)

/-- What is done about a failed call of send. -/
def handleError (node : SendingNode) (nErr : SocketError) : SendingNode :=
  if nErr ≠ .WSAEWOULDBLOCK ∧ nErr ≠ .WSAEMSGSIZE ∧ nErr ≠ .WSAEINTR ∧ nErr ≠ .WSAEINPROGRESS then
    { node with closed := true }
  else node

/-- The loop of SocketSendData; the rest of the messages is what `it` has not passed. -/
def sendLoop (env : SendEnvironment) : List Bytes → SendingNode → Except Failure (SendingNode × List Bytes)
  | [], node => .ok (node, [])
  | data :: rest, node =>
      if ¬ node.nSendOffset < data.length then .error (.undefined "assert(data.size() > pnode->nSendOffset)")
      else
        match node.send env (data.drop node.nSendOffset) with
        | (node, .error nErr) => .ok (node.handleError nErr, data :: rest)
        | (node, .ok nBytes) =>
            if nBytes = 0 then .ok (node, data :: rest)
            else
              let node := { node with
                nLastSend := env.getTime node.nSends
                nSendBytes := node.nSendBytes + UInt64.ofNat nBytes
                nSendOffset := node.nSendOffset + nBytes }
              if node.nSendOffset = data.length then
                sendLoop env rest { node with nSendOffset := 0, nSendSize := node.nSendSize - data.length }
              else .ok (node, data :: rest)

def socketSendData (env : SendEnvironment) (node : SendingNode) : Except Failure SendingNode := do
  let (node, it) ← sendLoop env node.vSendMsg node
  if it = [] then
    require (node.nSendOffset = 0) (.undefined "assert(pnode->nSendOffset == 0)")
    require (node.nSendSize = 0) (.undefined "assert(pnode->nSendSize == 0)")
  return { node with vSendMsg := it }

/-- The assertion of BeginMessage -/
def unfinished : Failure := .undefined "assert(ssSend.size() == 0)"

def beginMessage (env : SendEnvironment) (pszCommand : Bytes) (node : SendingNode) : Except Failure SendingNode := do
  require (node.ssSend = []) unfinished
  return { node with ssSend := (CMessageHeader.make env.pchMessageStart pszCommand 0).serialize }

def abortMessage (node : SendingNode) : SendingNode := { node with ssSend := [] }

section

variable [Hashing]

/-- EndMessage, with the random choice of `-dropmessagestest`. -/
def endMessage (env : SendEnvironment) (dropped : Bool) (node : SendingNode) : Except Failure SendingNode :=
  if dropped then .ok node.abortMessage
  else if node.ssSend = [] then .ok node
  else if node.ssSend.length < HEADER_SIZE then
    .error (.undefined "assert(ssSend.size () >= CMessageHeader::CHECKSUM_OFFSET + sizeof(nChecksum))")
  else
    let message := finishMessage node.ssSend
    let wasEmpty := node.vSendMsg = []
    let node := { node with
      ssSend := []
      vSendMsg := node.vSendMsg ++ [message]
      queued := node.queued ++ message
      nSendSize := node.nSendSize + message.length }
    -- if write queue empty, attempt "optimistic write"
    if wasEmpty then node.socketSendData env else .ok node

inductive Call where
  | beginMessage (pszCommand : Bytes)
  /-- `ssSend << ...` of a message that has begun -/
  | write (data : Bytes)
  | abortMessage
  | endMessage (dropped : Bool)
  | socketSendData

def perform (env : SendEnvironment) (node : SendingNode) : Call → Except Failure SendingNode
  | .beginMessage pszCommand => node.beginMessage env pszCommand
  | .write data => .ok (if node.ssSend = [] then node else { node with ssSend := node.ssSend ++ data })
  | .abortMessage => .ok node.abortMessage
  | .endMessage dropped => node.endMessage env dropped
  | .socketSendData => node.socketSendData env

def run (env : SendEnvironment) (calls : List Call) : Except Failure SendingNode := calls.foldlM (perform env) initial

end

/-! ## What is kept -/

/-- The queue holds what the socket has not accepted. -/
structure Delivers (node : SendingNode) : Prop where
  queued : node.queued = node.socket ++ node.vSendMsg.flatten.drop node.nSendOffset
  nSendSize : node.nSendSize = (node.vSendMsg.map List.length).sum
  nSendOffset : ∀ data rest, node.vSendMsg = data :: rest → node.nSendOffset < data.length
  empty : node.vSendMsg = [] → node.nSendOffset = 0
  nonempty : ∀ data ∈ node.vSendMsg, data ≠ []
  ssSend : node.ssSend = [] ∨ HEADER_SIZE ≤ node.ssSend.length

theorem sendLoop_spec (env : SendEnvironment) {messages : List Bytes} {node : SendingNode}
    (delivers : Delivers { node with vSendMsg := messages }) :
    ∃ next it, sendLoop env messages node = .ok (next, it) ∧ Delivers { next with vSendMsg := it } := by
  induction messages generalizing node with
  | nil => exact ⟨node, [], rfl, delivers⟩
  | cons data rest ih =>
      have inside : node.nSendOffset < data.length := delivers.nSendOffset data rest rfl
      have stays {next : SendingNode} (sameQueued : next.queued = node.queued) (sameSocket : next.socket = node.socket)
          (sameSize : next.nSendSize = node.nSendSize) (sameOffset : next.nSendOffset = node.nSendOffset)
          (sameStream : next.ssSend = node.ssSend) : Delivers { next with vSendMsg := data :: rest } := by
        obtain ⟨queued, size, offset, empty, nonempty, stream⟩ := delivers
        exact ⟨by rw [sameQueued, sameSocket, sameOffset]; exact queued, sameSize.trans size,
          by rw [sameOffset]; exact offset, by rintro ⟨⟩, nonempty, by rw [sameStream]; exact stream⟩
      unfold sendLoop
      rw [if_neg (not_not.mpr inside)]
      unfold send
      generalize (if node.closed then SendAnswer.failed .other else env.send node.nSends) = answer
      cases answer with
      | failed nErr =>
          refine ⟨_, _, rfl, ?_⟩
          unfold handleError
          split
          · exact stays rfl rfl rfl rfl rfl
          · exact stays rfl rfl rfl rfl rfl
      | sent nBytes =>
          obtain ⟨queued, size, offset, empty, nonempty, stream⟩ := delivers
          dsimp only at queued size nonempty stream
          have left : (data.drop node.nSendOffset).length = data.length - node.nSendOffset := List.length_drop
          obtain ⟨count, taken, bound⟩ : ∃ count, (data.drop node.nSendOffset).take (min nBytes MAX_SEND) =
              (data.drop node.nSendOffset).take count ∧ count ≤ data.length - node.nSendOffset :=
            ⟨_, List.take_eq_take_min, left ▸ Nat.min_le_right _ _⟩
          have amount : ((data.drop node.nSendOffset).take count).length = count := by
            rw [List.length_take]
            omega
          have behind : (data :: rest).flatten.drop node.nSendOffset = data.drop node.nSendOffset ++ rest.flatten := by
            rw [List.flatten_cons, List.drop_append_of_le_length (le_of_lt inside)]
          rw [behind] at queued
          simp only [taken, amount]
          by_cases nothing : count = 0
          · rw [if_pos nothing]
            refine ⟨_, _, rfl, stays rfl ?_ rfl rfl rfl⟩
            rw [nothing, List.take_zero, List.append_nil]
          · rw [if_neg nothing]
            by_cases whole : node.nSendOffset + count = data.length
            · rw [if_pos whole]
              refine ih ⟨?_, ?_, ?_, fun _ => rfl, fun other member => nonempty other (List.mem_cons_of_mem _ member), stream⟩
              · rw [queued, List.drop_zero, List.take_of_length_le (by omega), List.append_assoc]
              · rw [size, List.map_cons, List.sum_cons, Nat.add_sub_cancel_left]
              · rintro first others rfl
                exact List.length_pos_of_ne_nil (nonempty first (by simp))
            · rw [if_neg whole]
              refine ⟨_, _, rfl, ?_, size, ?_, by rintro ⟨⟩, nonempty, stream⟩
              · dsimp only
                rw [queued, List.flatten_cons, List.drop_append_of_le_length (by omega), ← List.drop_drop,
                  List.append_assoc, ← List.append_assoc (List.take _ _), List.take_append_drop]
              · rintro _ _ ⟨⟩
                change node.nSendOffset + count < data.length
                omega

theorem Delivers.socketSendData {node : SendingNode} (delivers : node.Delivers) (env : SendEnvironment) :
    ∃ next, node.socketSendData env = .ok next ∧ next.Delivers := by
  obtain ⟨next, it, run, delivers'⟩ := sendLoop_spec env delivers
  refine ⟨{ next with vSendMsg := it }, ?_, delivers'⟩
  rw [SendingNode.socketSendData, run, ok_bind]
  dsimp only
  split
  case isTrue done =>
    have offset : next.nSendOffset = 0 := delivers'.empty done
    have size : next.nSendSize = 0 := by
      rw [show next.nSendSize = _ from delivers'.nSendSize, done]
      rfl
    rw [require_of offset, require_of size]
    rfl
  case isFalse => rfl

section

variable [Hashing] {env : SendEnvironment} {node : SendingNode}

theorem length_finishMessage {ssSend : Bytes} (size : HEADER_SIZE ≤ ssSend.length) :
    (finishMessage ssSend).length = ssSend.length := by
  have inside : 24 ≤ ssSend.length := size
  have sized : (writeAt ssSend MESSAGE_SIZE_OFFSET (littleEndian 4 (ssSend.length - HEADER_SIZE))).length = ssSend.length :=
    length_writeAt (by
      rw [littleEndian_length]
      exact le_trans (by decide) size)
  refine (length_writeAt ?_).trans sized
  rw [littleEndian_length, sized]
  exact le_trans (by decide) size

theorem Delivers.endMessage (delivers : node.Delivers) (env : SendEnvironment) (dropped : Bool) :
    ∃ next, node.endMessage env dropped = .ok next ∧ next.Delivers := by
  unfold SendingNode.endMessage
  cases dropped with
  | true => exact ⟨_, rfl, { delivers with ssSend := .inl rfl }⟩
  | false =>
      by_cases none : node.ssSend = []
      · exact ⟨node, by simp [none], delivers⟩
      · have size : HEADER_SIZE ≤ node.ssSend.length := delivers.ssSend.resolve_left none
        have length := length_finishMessage size
        have large : 0 < (finishMessage node.ssSend).length := lt_of_lt_of_le (by decide) (length ▸ size)
        rw [if_neg Bool.false_ne_true, if_neg none, if_neg (not_lt.mpr size)]
        have added : Delivers { node with
            ssSend := []
            vSendMsg := node.vSendMsg ++ [finishMessage node.ssSend]
            queued := node.queued ++ finishMessage node.ssSend
            nSendSize := node.nSendSize + (finishMessage node.ssSend).length } := by
          refine ⟨?_, ?_, ?_, ?_, ?_, .inl rfl⟩
          · dsimp only
            have inside : node.nSendOffset ≤ node.vSendMsg.flatten.length := by
              cases messages : node.vSendMsg with
              | nil => exact (delivers.empty messages).le
              | cons data rest =>
                  have before := delivers.nSendOffset data rest messages
                  rw [List.flatten_cons, List.length_append]
                  omega
            rw [delivers.queued, List.flatten_append, List.flatten_singleton, List.drop_append_of_le_length inside,
              List.append_assoc]
          · simp [delivers.nSendSize]
          · rintro data rest first
            cases messages : node.vSendMsg with
            | nil =>
                simp only [messages, List.nil_append, List.cons.injEq] at first
                rw [← first.1]
                exact (delivers.empty messages).trans_lt large
            | cons data' rest' =>
                simp only [messages, List.cons_append, List.cons.injEq] at first
                rw [← first.1]
                exact delivers.nSendOffset data' rest' messages
          · simp
          · intro data member
            rcases List.mem_append.mp member with old | new
            · exact delivers.nonempty data old
            · rw [List.mem_singleton.mp new]
              exact List.ne_nil_of_length_pos large
        dsimp only
        split
        · exact added.socketSendData env
        · exact ⟨_, rfl, added⟩

theorem Delivers.perform (delivers : node.Delivers) (call : Call) :
    Sat (node.perform env call) Delivers (· = unfinished) := by
  cases call with
  | beginMessage pszCommand =>
      have empty : Sat (require (node.ssSend = []) unfinished) (fun _ => node.ssSend = []) (· = unfinished) :=
        Sat.require rfl
      exact empty.bind fun _ _ => { delivers with ssSend := .inr (CMessageHeader.length_serialize _).ge }
  | write data =>
      rcases delivers.ssSend with none | begun
      · rw [SendingNode.perform, if_pos none]
        exact delivers
      · have some' : node.ssSend ≠ [] := List.ne_nil_of_length_pos (lt_of_lt_of_le (by decide) begun)
        rw [SendingNode.perform, if_neg some']
        exact { delivers with ssSend := .inr (by
          change HEADER_SIZE ≤ (node.ssSend ++ data).length
          rw [List.length_append]
          omega) }
  | abortMessage => exact { delivers with ssSend := .inl rfl }
  | endMessage dropped =>
      obtain ⟨next, run, delivers'⟩ := delivers.endMessage env dropped
      rw [SendingNode.perform, run]
      exact delivers'
  | socketSendData =>
      obtain ⟨next, run, delivers'⟩ := delivers.socketSendData env
      rw [SendingNode.perform, run]
      exact delivers'

theorem Delivers.run (delivers : node.Delivers) (calls : List Call) :
    Sat (calls.foldlM (SendingNode.perform env) node) Delivers (· = unfinished) := by
  exact Sat.foldlM (fun node _ => node.Delivers) (fun node call rest delivers => delivers.perform call) calls node delivers

/-- In every run, whatever the calls of send answer, the socket has accepted the first bytes of the messages in the order
in which they were queued, and the counters are right; no assertion fails but that of a BeginMessage after another one. -/
theorem sendQueue_delivers (env : SendEnvironment) (calls : List Call) :
    Sat (run env calls)
      (fun node => node.queued = node.socket ++ node.vSendMsg.flatten.drop node.nSendOffset ∧
        node.nSendSize = (node.vSendMsg.map List.length).sum ∧
        (∀ data rest, node.vSendMsg = data :: rest → node.nSendOffset < data.length) ∧
        (node.vSendMsg = [] → node.nSendOffset = 0))
      (· = unfinished) := by
  have start : initial.Delivers := ⟨rfl, rfl, by rintro _ _ ⟨⟩, fun _ => rfl, by rintro _ ⟨⟩, .inl rfl⟩
  exact (start.run calls).weaken fun node delivers =>
    ⟨delivers.queued, delivers.nSendSize, delivers.nSendOffset, delivers.empty⟩

end

end SendingNode

end BitCrystal
