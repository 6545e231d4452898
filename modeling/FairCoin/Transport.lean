import FairCoin.Primitives
import FairCoin.Lib.Canonical
import FairCoin.Lib.Run

/-!
# Message transport

How a message gets from one node to another: `BeginMessage`, `EndMessage` and `SocketSendData` on
the one side, `ReceiveMsgBytes` with `readHeader` and `readData` on the other (`src/net.cpp`), and
between them a stream of bytes that the sockets cut where they like.

* `socketSendData` — sends what the socket takes; `none` stands for a failed assertion.
* `receiveMsgBytes` — reads the bytes of one call; `none` stands for a connection that is dropped.
* `Link.step` — a message is queued, the socket is writable, bytes arrive, a complete message is
  processed; every interleaving of these is a run.
* `Parsed`, `Framed` — how far a message, and the whole stream, has been read.
* `transport_lossless` — **what arrives is what was queued**, whatever the sockets do.

The options `-dropmessagestest` and `-fuzzmessagestest`, which damage messages on purpose, are off.
-/

namespace FairCoin

open Codec Run

/-! ## Messages and headers -/

/-- `MAX_PROTOCOL_MESSAGE_LENGTH`. -/
def maxProtocolMessageLength : ℕ := 2 * 1024 * 1024

/-- A message as a caller queues it.  A command is a C string that fits in its field. -/
structure Message where
  command : Bytes
  payload : Bytes
  short : command.length ≤ 12
  noZero : 0 ∉ command

/-- `Params().MessageStart()` and the hash of the payload. -/
structure NetParams where
  messageStart : Bytes
  hash : Bytes → UInt256
  length_messageStart : messageStart.length = 4

/-- `CMessageHeader`. -/
structure CMessageHeader where
  pchMessageStart : Bytes
  pchCommand : Bytes
  nMessageSize : ℕ
  nChecksum : ℕ
  deriving DecidableEq, Repr

namespace CMessageHeader

/-- `memset` and `strncpy` of the constructor. -/
def fieldOf (command : Bytes) : Bytes := (command ++ List.replicate 12 0).take 12

/-- `GetCommand`. -/
def getCommand (hdr : CMessageHeader) : Bytes := hdr.pchCommand.takeWhile (· ≠ 0)

/-- The bytes of a header. -/
def serialize (hdr : CMessageHeader) : Bytes :=
  hdr.pchMessageStart ++ hdr.pchCommand ++ putLE 4 hdr.nMessageSize ++ putLE 4 hdr.nChecksum

/-- A header from 24 bytes. -/
def deserialize (buf : Bytes) : CMessageHeader where
  pchMessageStart := buf.take 4
  pchCommand := (buf.drop 4).take 12
  nMessageSize := ((getLE 4 (buf.drop 16)).map Prod.fst).getD 0
  nChecksum := ((getLE 4 (buf.drop 20)).map Prod.fst).getD 0

end CMessageHeader

/-- `memcpy` into a buffer. -/
def overwrite (buf : Bytes) (pos : ℕ) (bytes : Bytes) : Bytes :=
  buf.take pos ++ bytes ++ buf.drop (pos + bytes.length)

/-- `resize` of a buffer. -/
def resizeBuf (buf : Bytes) (n : ℕ) : Bytes := buf.take n ++ List.replicate (n - buf.length) 0

/-! ## Sending -/

/-- The fields of `CNode` that sending uses. -/
structure SendNode where
  ssSend : Bytes := []
  vSendMsg : List Bytes := []
  nSendOffset : ℕ := 0
  nSendSize : ℕ := 0
  deriving DecidableEq, Repr

/-- The loop of `SocketSendData` over the messages from `it` on; `sends` are the numbers of bytes
the calls of `send` would take.  The messages that are left, the offset, the size and the bytes
that were sent. -/
def sendLoop : List Bytes → List ℕ → ℕ → ℕ → Option (List Bytes × ℕ × ℕ × Bytes)
  | [], _, nSendOffset, nSendSize => some ([], nSendOffset, nSendSize, [])
  | data :: msgs, sends, nSendOffset, nSendSize =>
      if data.length ≤ nSendOffset then none
      else
        let nBytes := min (sends.headD 0) (data.length - nSendOffset)
        let sent := (data.drop nSendOffset).take nBytes
        if 0 < nBytes then
          if nSendOffset + nBytes = data.length then
            (sendLoop msgs sends.tail 0 (nSendSize - data.length)).map fun r =>
              (r.1, r.2.1, r.2.2.1, sent ++ r.2.2.2)
          -- could not send full message
          else some (data :: msgs, nSendOffset + nBytes, nSendSize, sent)
        -- couldn't send anything at all
        else some (data :: msgs, nSendOffset, nSendSize, [])

/-- `SocketSendData`, with the bytes that were sent; `none` when an assertion fails. -/
def socketSendData (sends : List ℕ) (node : SendNode) : Option (SendNode × Bytes) :=
  match sendLoop node.vSendMsg sends node.nSendOffset node.nSendSize with
  | none => none
  | some (vSendMsg, nSendOffset, nSendSize, sent) =>
      if vSendMsg = [] ∧ (nSendOffset ≠ 0 ∨ nSendSize ≠ 0) then none
      else some ({ node with
        vSendMsg := vSendMsg, nSendOffset := nSendOffset, nSendSize := nSendSize }, sent)

section Params

variable (P : NetParams)

/-- `BeginMessage`; `none` when the assertion fails. -/
def beginMessage (command : Bytes) (node : SendNode) : Option SendNode :=
  if node.ssSend.length = 0 then
    let hdr : CMessageHeader := ⟨P.messageStart, CMessageHeader.fieldOf command, 0, 0⟩
    some { node with ssSend := hdr.serialize }
  else none

/-- The size and the checksum of `EndMessage`. -/
def finishMessage (ssSend : Bytes) : Bytes :=
  let nSize := ssSend.length - 24
  let sized := overwrite ssSend 16 (putLE 4 nSize)
  let nChecksum := (P.hash (sized.drop 24)).toNat % 2 ^ 32
  overwrite sized 20 (putLE 4 nChecksum)

/-- `EndMessage`; `none` when an assertion fails. -/
def endMessage (sends : List ℕ) (node : SendNode) : Option (SendNode × Bytes) :=
  if node.ssSend.length = 0 then some (node, [])
  else if node.ssSend.length < 24 then none
  else
    let data := finishMessage P node.ssSend
    let queued := { node with
      ssSend := []
      vSendMsg := node.vSendMsg ++ [data]
      nSendSize := node.nSendSize + data.length }
    -- if the write queue was empty, attempt an optimistic write
    if node.vSendMsg = [] then socketSendData sends queued else some (queued, [])

/-- `PushMessage`: the payload goes between the two. -/
def pushMessage (m : Message) (sends : List ℕ) (node : SendNode) : Option (SendNode × Bytes) :=
  match beginMessage P m.command node with
  | none => none
  | some node => endMessage P sends { node with ssSend := node.ssSend ++ m.payload }

/-! ## Receiving -/

/-- `CNetMessage`. -/
structure CNetMessage where
  in_data : Bool
  hdrbuf : Bytes
  hdr : CMessageHeader
  nHdrPos : ℕ
  vRecv : Bytes
  nDataPos : ℕ
  deriving DecidableEq, Repr

namespace CNetMessage

/-- The constructor. -/
def fresh : CNetMessage where
  in_data := false
  hdrbuf := List.replicate 24 0
  hdr := ⟨P.messageStart, List.replicate 12 0, 2 ^ 32 - 1, 0⟩
  nHdrPos := 0
  vRecv := []
  nDataPos := 0

/-- `complete`. -/
def complete (msg : CNetMessage) : Bool := msg.in_data && msg.hdr.nMessageSize == msg.nDataPos

/-- `readHeader`: the message and the number of bytes handled; `none` when it is negative. -/
def readHeader (msg : CNetMessage) (pch : Bytes) : Option (CNetMessage × ℕ) :=
  let nCopy := min (24 - msg.nHdrPos) pch.length
  let hdrbuf := overwrite msg.hdrbuf msg.nHdrPos (pch.take nCopy)
  let nHdrPos := msg.nHdrPos + nCopy
  if nHdrPos < 24 then some ({ msg with hdrbuf := hdrbuf, nHdrPos := nHdrPos }, nCopy)
  else
    let hdr := CMessageHeader.deserialize hdrbuf
    if 0x02000000 < hdr.nMessageSize then none
    else some ({ msg with hdrbuf := hdrbuf, nHdrPos := nHdrPos, hdr := hdr, in_data := true }, nCopy)

/-- `readData`: the buffer grows up to 256 KiB ahead of the data. -/
def readData (msg : CNetMessage) (pch : Bytes) : CNetMessage × ℕ :=
  let nCopy := min (msg.hdr.nMessageSize - msg.nDataPos) pch.length
  let vRecv :=
    if msg.vRecv.length < msg.nDataPos + nCopy then
      resizeBuf msg.vRecv (min msg.hdr.nMessageSize (msg.nDataPos + nCopy + 256 * 1024))
    else msg.vRecv
  ({ msg with
    vRecv := overwrite vRecv msg.nDataPos (pch.take nCopy)
    nDataPos := msg.nDataPos + nCopy }, nCopy)

/-- A round of `ReceiveMsgBytes`: header or data, and the limit on the size. -/
def absorb (msg : CNetMessage) (pch : Bytes) : Option (CNetMessage × ℕ) :=
  match if msg.in_data then some (msg.readData pch) else msg.readHeader pch with
  | none => none
  | some (msg, handled) =>
      if msg.in_data && decide (maxProtocolMessageLength < msg.hdr.nMessageSize) then none
      else some (msg, handled)

end CNetMessage

/-- The current incomplete message, or a new one, and the messages before it. -/
def current (vRecvMsg : List CNetMessage) : List CNetMessage × CNetMessage :=
  match vRecvMsg.getLast? with
  | none => (vRecvMsg, .fresh P)
  | some msg => if msg.complete then (vRecvMsg, .fresh P) else (vRecvMsg.dropLast, msg)

/-- The loop of `ReceiveMsgBytes`; every round handles a byte at least. -/
def receiveLoop : ℕ → List CNetMessage → Bytes → Option (List CNetMessage)
  | 0, vRecvMsg, _ => some vRecvMsg
  | _ + 1, vRecvMsg, [] => some vRecvMsg
  | n + 1, vRecvMsg, b :: bytes =>
      match (current P vRecvMsg).2.absorb (b :: bytes) with
      | none => none
      | some (msg, handled) =>
          receiveLoop n ((current P vRecvMsg).1 ++ [msg]) ((b :: bytes).drop handled)

/-- `ReceiveMsgBytes`; `none` when it returns false and the connection is dropped. -/
def receiveMsgBytes (vRecvMsg : List CNetMessage) (pch : Bytes) : Option (List CNetMessage) :=
  receiveLoop P pch.length vRecvMsg pch

end Params

/-! ## The link -/

/-- The two nodes and the bytes in flight.  `queued` are the messages queued so far, `received`
the bytes that have arrived and `processed` the messages `ProcessMessages` has taken. -/
structure Link where
  node : SendNode := {}
  wire : Bytes := []
  vRecvMsg : List CNetMessage := []
  queued : List Message := []
  received : Bytes := []
  processed : List CNetMessage := []

/-- What can happen; `sends` is what the socket takes. -/
inductive LinkAction
  | push (m : Message) (sends : List ℕ)
  | send (sends : List ℕ)
  | receive (n : ℕ)
  | process

/-- Why an action fails: an assertion of the sender, bytes the receiver refuses, or because it is
not possible. -/
inductive LinkError
  | assertion
  | refused
  | impossible
  deriving DecidableEq, Repr

/-- One action. -/
def Link.step (P : NetParams) (s : Link) : LinkAction → Except LinkError Link
  | .push m sends =>
      match pushMessage P m sends s.node with
      | none => .error .assertion
      | some (node, sent) =>
          .ok { s with node := node, wire := s.wire ++ sent, queued := s.queued ++ [m] }
  | .send sends =>
      match socketSendData sends s.node with
      | none => .error .assertion
      | some (node, sent) => .ok { s with node := node, wire := s.wire ++ sent }
  | .receive n =>
      match receiveMsgBytes P s.vRecvMsg (s.wire.take n) with
      | none => .error .refused
      | some vRecvMsg =>
          .ok { s with
            vRecvMsg := vRecvMsg
            wire := s.wire.drop n
            received := s.received ++ s.wire.take n }
  | .process =>
      match s.vRecvMsg with
      | msg :: vRecvMsg =>
          if msg.complete then
            .ok { s with vRecvMsg := vRecvMsg, processed := s.processed ++ [msg] }
          else .error .impossible
      | [] => .error .impossible

/-! ## The bytes of a message -/

section Bytes

variable (P : NetParams)

/-- The header of a message. -/
def Message.header (m : Message) : CMessageHeader :=
  ⟨P.messageStart, CMessageHeader.fieldOf m.command, m.payload.length,
    (P.hash m.payload).toNat % 2 ^ 32⟩

/-- The bytes of a message. -/
def Message.encode (m : Message) : Bytes := (m.header P).serialize ++ m.payload

theorem length_fieldOf (command : Bytes) : (CMessageHeader.fieldOf command).length = 12 := by
  rw [CMessageHeader.fieldOf, List.length_take, List.length_append, List.length_replicate]
  omega

/-- A field is read up to its first zero. -/
theorem takeWhile_fieldOf (m : Message) :
    (CMessageHeader.fieldOf m.command).takeWhile (· ≠ 0) = m.command := by
  rw [CMessageHeader.fieldOf, List.take_append, List.take_of_length_le m.short, List.take_replicate,
    List.takeWhile_append_of_pos]
  · cases min (12 - m.command.length) 12 with
    | zero => simp
    | succ n => simp [List.replicate_succ]
  · intro b hb
    simpa using fun h : b = 0 => m.noZero (h ▸ hb)

theorem length_serialize (start command : Bytes) (nSize nChecksum : ℕ) (hstart : start.length = 4) :
    (CMessageHeader.serialize
      ⟨start, CMessageHeader.fieldOf command, nSize, nChecksum⟩).length = 24 := by
  simp only [CMessageHeader.serialize, List.length_append, length_putLE, hstart, length_fieldOf]

theorem length_header (m : Message) : (m.header P).serialize.length = 24 :=
  length_serialize _ _ _ _ P.length_messageStart

theorem length_encode (m : Message) : (m.encode P).length = 24 + m.payload.length := by
  rw [Message.encode, List.length_append, length_header]

theorem overwrite_append {a b c d : Bytes} {n : ℕ} (hpos : a.length = n)
    (hlen : d.length = b.length) : overwrite (a ++ b ++ c) n d = a ++ d ++ c := by
  subst hpos
  rw [overwrite, List.append_assoc a b c, List.take_left, hlen, ← List.drop_drop, List.drop_left,
    List.drop_left]

/-- **What `EndMessage` queues is the message.** -/
theorem finishMessage_eq (m : Message) :
    finishMessage P ((CMessageHeader.serialize ⟨P.messageStart, CMessageHeader.fieldOf m.command, 0,
      0⟩) ++ m.payload) = m.encode P := by
  have hsize : ((CMessageHeader.serialize ⟨P.messageStart, CMessageHeader.fieldOf m.command, 0, 0⟩)
      ++ m.payload).length - 24 = m.payload.length := by
    rw [List.length_append, length_serialize _ _ _ _ P.length_messageStart]
    omega
  have hfirst : overwrite ((CMessageHeader.serialize ⟨P.messageStart,
      CMessageHeader.fieldOf m.command, 0, 0⟩) ++ m.payload) 16 (putLE 4 m.payload.length) =
      (P.messageStart ++ CMessageHeader.fieldOf m.command ++ putLE 4 m.payload.length ++ putLE 4 0)
        ++ m.payload := by
    have hover := overwrite_append (a := P.messageStart ++ CMessageHeader.fieldOf m.command)
      (b := putLE 4 0) (c := putLE 4 0 ++ m.payload) (d := putLE 4 m.payload.length) (n := 16)
      (by rw [List.length_append, P.length_messageStart, length_fieldOf])
      (by rw [length_putLE, length_putLE])
    simpa only [CMessageHeader.serialize, List.append_assoc] using hover
  have hpayload : ((P.messageStart ++ CMessageHeader.fieldOf m.command ++
      putLE 4 m.payload.length ++ putLE 4 0) ++ m.payload).drop 24 = m.payload := by
    have hlen : (P.messageStart ++ CMessageHeader.fieldOf m.command ++
        putLE 4 m.payload.length ++ putLE 4 0).length = 24 := by
      simp only [List.length_append, length_putLE, P.length_messageStart, length_fieldOf]
    rw [← hlen, List.drop_left]
  rw [finishMessage]
  simp only [hsize, hfirst, hpayload]
  have hover := overwrite_append
    (a := P.messageStart ++ CMessageHeader.fieldOf m.command ++ putLE 4 m.payload.length)
    (b := putLE 4 0) (c := m.payload)
    (d := putLE 4 ((P.hash m.payload).toNat % 2 ^ 32)) (n := 20)
    (by simp only [List.length_append, length_putLE, P.length_messageStart, length_fieldOf])
    (by rw [length_putLE, length_putLE])
  rw [hover]
  rfl

/-- **The header is read back.** -/
theorem deserialize_header (m : Message) (hsize : m.payload.length < 256 ^ 4) :
    CMessageHeader.deserialize (m.header P).serialize = m.header P := by
  have hchecksum : (P.hash m.payload).toNat % 2 ^ 32 < 256 ^ 4 := Nat.mod_lt _ (by norm_num)
  have hstart := P.length_messageStart
  have hfield := length_fieldOf m.command
  have h4 : (m.header P).serialize.drop 4 = CMessageHeader.fieldOf m.command ++
      (putLE 4 m.payload.length ++ putLE 4 ((P.hash m.payload).toNat % 2 ^ 32)) := by
    simp only [CMessageHeader.serialize, Message.header, List.append_assoc]
    rw [← hstart, List.drop_left]
  have h16 : (m.header P).serialize.drop 16 =
      putLE 4 m.payload.length ++ putLE 4 ((P.hash m.payload).toNat % 2 ^ 32) := by
    rw [show 16 = 4 + 12 from rfl, ← List.drop_drop, h4, ← hfield, List.drop_left]
  have h20 : (m.header P).serialize.drop 20 =
      putLE 4 ((P.hash m.payload).toNat % 2 ^ 32) ++ [] := by
    rw [show 20 = 16 + 4 from rfl, ← List.drop_drop, h16, List.drop_left' (length_putLE _ _),
      List.append_nil]
  have htake : (m.header P).serialize.take 4 = P.messageStart := by
    simp only [CMessageHeader.serialize, Message.header, List.append_assoc]
    rw [← hstart, List.take_left]
  rw [CMessageHeader.deserialize, h20, h16, h4, htake, getLE_putLE _ hsize, getLE_putLE _ hchecksum,
    ← hfield, List.take_left]
  rfl

end Bytes

/-! ## The sender -/

/-- The offset is inside the first message. -/
def OffsetOk : List Bytes → ℕ → Prop
  | [], nSendOffset => nSendOffset = 0
  | data :: _, nSendOffset => nSendOffset < data.length

/-- The counters of the sender are right. -/
structure SendOk (msgs : List Bytes) (nSendOffset nSendSize : ℕ) : Prop where
  entries : ∀ data ∈ msgs, 0 < data.length
  offset : OffsetOk msgs nSendOffset
  size : nSendSize = (msgs.map List.length).sum

/-- **The loop of the sender.**  No assertion fails, the counters stay right, and what was sent is
what is missing from the queue. -/
theorem sendLoop_spec (msgs : List Bytes) : ∀ (sends : List ℕ) (nSendOffset nSendSize : ℕ),
    SendOk msgs nSendOffset nSendSize →
    ∃ msgs' offset' size' sent,
      sendLoop msgs sends nSendOffset nSendSize = some (msgs', offset', size', sent) ∧
      SendOk msgs' offset' size' ∧
      sent ++ msgs'.flatten.drop offset' = msgs.flatten.drop nSendOffset := by
  induction msgs with
  | nil =>
    intro sends nSendOffset nSendSize h
    exact ⟨[], nSendOffset, nSendSize, [], rfl, h, by simp⟩
  | cons data msgs ih =>
    intro sends nSendOffset nSendSize h
    have hoffset : nSendOffset < data.length := h.offset
    have hsize : nSendSize = data.length + (msgs.map List.length).sum := by
      rw [h.size, List.map_cons, List.sum_cons]
    have hdrop : (data :: msgs).flatten.drop nSendOffset =
        data.drop nSendOffset ++ msgs.flatten := by
      rw [List.flatten_cons, List.drop_append_of_le_length hoffset.le]
    rw [sendLoop, if_neg (by omega)]
    simp only
    generalize hn : min (sends.headD 0) (data.length - nSendOffset) = nBytes
    have hle : nBytes ≤ data.length - nSendOffset := hn ▸ min_le_right _ _
    by_cases hpos : 0 < nBytes
    · rw [if_pos hpos]
      by_cases hfull : nSendOffset + nBytes = data.length
      · rw [if_pos hfull]
        obtain ⟨msgs', offset', size', sent, hloop, hok, hsent⟩ :=
          ih sends.tail 0 (nSendSize - data.length)
            ⟨fun d hd => h.entries d (List.mem_cons_of_mem _ hd), by
              cases msgs with
              | nil => rfl
              | cons d msgs => exact h.entries d (by simp), by omega⟩
        refine ⟨msgs', offset', size', _, by rw [hloop]; rfl, hok, ?_⟩
        have hall : (data.drop nSendOffset).take nBytes = data.drop nSendOffset :=
          List.take_of_length_le (by rw [List.length_drop]; omega)
        rw [hdrop, List.append_assoc, hsent, List.drop_zero, hall]
      · rw [if_neg hfull]
        refine ⟨_, _, _, _, rfl, ⟨h.entries, ?_, h.size⟩, ?_⟩
        · show nSendOffset + nBytes < data.length
          omega
        · have htake : (data.drop nSendOffset).take nBytes =
              ((data :: msgs).flatten.drop nSendOffset).take nBytes := by
            rw [hdrop, List.take_append_of_le_length (by rw [List.length_drop]; exact hle)]
          rw [htake, ← List.drop_drop, List.take_append_drop]
    · rw [if_neg hpos]
      exact ⟨_, _, _, [], rfl, h, rfl⟩

/-- **`SocketSendData`** fails no assertion and sends the front of the queue. -/
theorem socketSendData_spec (node : SendNode) (sends : List ℕ)
    (h : SendOk node.vSendMsg node.nSendOffset node.nSendSize) :
    ∃ node' sent, socketSendData sends node = some (node', sent) ∧
      node'.ssSend = node.ssSend ∧
      SendOk node'.vSendMsg node'.nSendOffset node'.nSendSize ∧
      sent ++ node'.vSendMsg.flatten.drop node'.nSendOffset =
        node.vSendMsg.flatten.drop node.nSendOffset := by
  obtain ⟨msgs', offset', size', sent, hloop, hok, hsent⟩ := sendLoop_spec _ sends _ _ h
  refine ⟨{ node with vSendMsg := msgs', nSendOffset := offset', nSendSize := size' }, sent, ?_,
    rfl, hok, hsent⟩
  have hassert : ¬(msgs' = [] ∧ (offset' ≠ 0 ∨ size' ≠ 0)) := by
    rintro ⟨rfl, hbad⟩
    have hoffset : offset' = 0 := hok.offset
    have hsize : size' = 0 := hok.size
    omega
  rw [socketSendData, hloop]
  simp only
  rw [if_neg hassert]

/-! ## The receiver -/

section Receiver

variable (P : NetParams)

/-- The part `p` of a header has been read. -/
structure HeaderParsed (p : Bytes) (msg : CNetMessage) : Prop where
  short : p.length < 24
  in_data : msg.in_data = false
  nHdrPos : msg.nHdrPos = p.length
  length_hdrbuf : msg.hdrbuf.length = 24
  hdrbuf : msg.hdrbuf.take p.length = p
  vRecv : msg.vRecv = []
  nDataPos : msg.nDataPos = 0

/-- The header and part of the data have been read; `vRecv` may be longer than the data. -/
structure DataParsed (m : Message) (p : Bytes) (msg : CNetMessage) : Prop where
  long : 24 ≤ p.length
  in_data : msg.in_data = true
  hdr : msg.hdr = m.header P
  nDataPos : msg.nDataPos = p.length - 24
  vRecv : msg.vRecv.take msg.nDataPos = p.drop 24
  le_length : msg.nDataPos ≤ msg.vRecv.length
  length_le : msg.vRecv.length ≤ m.payload.length

/-- The part `p` of the message has been read. -/
def Parsed (m : Message) (p : Bytes) (msg : CNetMessage) : Prop :=
  HeaderParsed p msg ∨ DataParsed P m p msg

/-- The whole message has been read. -/
structure Arrived (m : Message) (msg : CNetMessage) : Prop where
  complete : msg.complete = true
  hdr : msg.hdr = m.header P
  vRecv : msg.vRecv = m.payload

variable {P} {m : Message} {p pch : Bytes} {msg : CNetMessage}

theorem parsed_fresh (m : Message) : Parsed P m [] (.fresh P) :=
  .inl ⟨by simp, rfl, rfl, rfl, rfl, rfl, rfl⟩

theorem Parsed.arrived (h : Parsed P m p msg) (hp : p = m.encode P) : Arrived P m msg := by
  have hlen := length_encode P m
  rcases h with h | h
  · have hshort := h.short
    rw [hp] at hshort
    omega
  · have hpos : msg.nDataPos = m.payload.length := by
      rw [h.nDataPos, hp]
      omega
    have hpayload : p.drop 24 = m.payload := by
      rw [hp, Message.encode, List.drop_left' (length_header P m)]
    have hle := h.length_le
    refine ⟨?_, h.hdr, ?_⟩
    · rw [CNetMessage.complete, h.in_data, h.hdr, hpos]
      simp [Message.header]
    · have htake := h.vRecv
      rwa [hpayload, List.take_of_length_le (by omega)] at htake

theorem Parsed.incomplete (h : Parsed P m p msg) (hlt : p.length < (m.encode P).length) :
    msg.complete = false := by
  rw [length_encode] at hlt
  rcases h with h | h
  · rw [CNetMessage.complete, h.in_data]
    rfl
  · have hne : m.payload.length ≠ msg.nDataPos := by
      rw [h.nDataPos]
      have hlong := h.long
      omega
    rw [CNetMessage.complete, h.in_data, h.hdr]
    simpa [Message.header] using hne

theorem length_overwrite {buf bytes : Bytes} {pos : ℕ} (h : pos + bytes.length ≤ buf.length) :
    (overwrite buf pos bytes).length = buf.length := by
  rw [overwrite, List.length_append, List.length_append, List.length_take, List.length_drop]
  omega

theorem take_overwrite {buf : Bytes} (bytes : Bytes) {pos : ℕ} (h : pos ≤ buf.length) :
    (overwrite buf pos bytes).take (pos + bytes.length) = buf.take pos ++ bytes := by
  rw [overwrite]
  apply List.take_left'
  rw [List.length_append, List.length_take, min_eq_left h]

theorem length_resizeBuf (buf : Bytes) (n : ℕ) : (resizeBuf buf n).length = n := by
  rw [resizeBuf, List.length_append, List.length_take, List.length_replicate]
  omega

theorem take_resizeBuf {buf : Bytes} {n k : ℕ} (hn : k ≤ n) (hbuf : k ≤ buf.length) :
    (resizeBuf buf n).take k = buf.take k := by
  rw [resizeBuf, List.take_append_of_le_length (by rw [List.length_take]; omega), List.take_take,
    min_eq_left hn]

/-- The bytes of a message that are read next. -/
theorem prefix_encode {after : Bytes} (hagree : p ++ pch <+: m.encode P ++ after) {n : ℕ}
    (hn : p.length + n ≤ (m.encode P).length) : p ++ pch.take n <+: m.encode P := by
  apply List.prefix_of_prefix_length_le _ (List.prefix_append (m.encode P) after)
  · rw [List.length_append, List.length_take]
    omega
  · exact ((List.prefix_append_right_inj p).2 (List.take_prefix n pch)).trans hagree

variable (hsmall : m.payload.length ≤ maxProtocolMessageLength)

include hsmall

theorem absorb_header {after : Bytes} (h : HeaderParsed p msg) (hpch : 0 < pch.length)
    (hagree : p ++ pch <+: m.encode P ++ after) :
    ∃ msg' n, msg.absorb pch = some (msg', n) ∧ 0 < n ∧ n ≤ pch.length ∧
      p ++ pch.take n <+: m.encode P ∧ Parsed P m (p ++ pch.take n) msg' := by
  have hshort := h.short
  have hlen := length_encode P m
  have hmax : m.payload.length ≤ 2097152 := hsmall
  generalize hn : min (24 - p.length) pch.length = n
  have htake : (pch.take n).length = n := by rw [List.length_take]; omega
  have hinit := prefix_encode hagree (n := n) (by omega)
  have hbuf : (overwrite msg.hdrbuf p.length (pch.take n)).length = 24 := by
    rw [length_overwrite (by rw [htake, h.length_hdrbuf]; omega), h.length_hdrbuf]
  have hread : (overwrite msg.hdrbuf p.length (pch.take n)).take (p.length + n) =
      p ++ pch.take n := by
    have hover := take_overwrite (pch.take n)
      (show p.length ≤ msg.hdrbuf.length by rw [h.length_hdrbuf]; omega)
    rwa [htake, h.hdrbuf] at hover
  have hplen : (p ++ pch.take n).length = p.length + n := by rw [List.length_append, htake]
  rw [CNetMessage.absorb, h.in_data, if_neg (by simp), CNetMessage.readHeader, h.nHdrPos, hn]
  simp only
  by_cases hpart : p.length + n < 24
  · rw [if_pos hpart]
    simp only [h.in_data, Bool.false_and, Bool.false_eq_true, if_false]
    refine ⟨_, n, rfl, by omega, by omega, hinit, .inl ⟨by omega, rfl, hplen.symm, hbuf, ?_,
      h.vRecv, h.nDataPos⟩⟩
    rw [hplen]
    exact hread
  · have hfull : p.length + n = 24 := by omega
    have hheader : p ++ pch.take n = (m.header P).serialize := by
      have heq := List.prefix_iff_eq_take.1 hinit
      rw [hplen, hfull, Message.encode, List.take_left' (length_header P m)] at heq
      exact heq
    have hdr : CMessageHeader.deserialize (overwrite msg.hdrbuf p.length (pch.take n)) =
        m.header P := by
      rw [hfull, List.take_of_length_le hbuf.le] at hread
      rw [hread, hheader, deserialize_header P m (by omega)]
    have hsize : (m.header P).nMessageSize = m.payload.length := rfl
    rw [if_neg hpart, hdr, if_neg (by rw [hsize]; omega)]
    simp only [hsize, Bool.true_and]
    rw [if_neg (by simpa using hsmall)]
    refine ⟨_, n, rfl, by omega, by omega, hinit, .inr ⟨by omega, rfl, rfl, ?_, ?_, ?_, ?_⟩⟩
    · show msg.nDataPos = (p ++ pch.take n).length - 24
      rw [h.nDataPos, hplen, hfull]
    · show msg.vRecv.take msg.nDataPos = (p ++ pch.take n).drop 24
      rw [h.vRecv, List.take_nil, List.drop_eq_nil_of_le (by omega)]
    · show msg.nDataPos ≤ msg.vRecv.length
      rw [h.nDataPos]
      exact Nat.zero_le _
    · show msg.vRecv.length ≤ m.payload.length
      rw [h.vRecv]
      exact Nat.zero_le _

theorem absorb_data {after : Bytes} (h : DataParsed P m p msg) (hpch : 0 < pch.length)
    (hlt : p.length < (m.encode P).length) (hagree : p ++ pch <+: m.encode P ++ after) :
    ∃ msg' n, msg.absorb pch = some (msg', n) ∧ 0 < n ∧ n ≤ pch.length ∧
      p ++ pch.take n <+: m.encode P ∧ Parsed P m (p ++ pch.take n) msg' := by
  have hlong := h.long
  have hpos := h.nDataPos
  have hle := h.le_length
  have hbound := h.length_le
  have hlen := length_encode P m
  generalize hn : min (m.payload.length - msg.nDataPos) pch.length = n
  have htake : (pch.take n).length = n := by rw [List.length_take]; omega
  have hinit := prefix_encode hagree (n := n) (by omega)
  have hplen : (p ++ pch.take n).length = p.length + n := by rw [List.length_append, htake]
  -- the buffer after the allocation holds what is read and is no longer than the message
  obtain ⟨vRecv, hvRecv, hge, hub, hkeep⟩ : ∃ vRecv : Bytes,
      (if msg.vRecv.length < msg.nDataPos + n then
        resizeBuf msg.vRecv (min m.payload.length (msg.nDataPos + n + 256 * 1024))
      else msg.vRecv) = vRecv ∧ msg.nDataPos + n ≤ vRecv.length ∧
      vRecv.length ≤ m.payload.length ∧ vRecv.take msg.nDataPos = p.drop 24 := by
    by_cases hgrow : msg.vRecv.length < msg.nDataPos + n
    · refine ⟨_, if_pos hgrow, ?_, ?_, ?_⟩
      · rw [length_resizeBuf]
        omega
      · rw [length_resizeBuf]
        exact min_le_left _ _
      · rw [take_resizeBuf (by omega) hle]
        exact h.vRecv
    · exact ⟨_, if_neg hgrow, by omega, hbound, h.vRecv⟩
  have hread : (overwrite vRecv msg.nDataPos (pch.take n)).take (msg.nDataPos + n) =
      (p ++ pch.take n).drop 24 := by
    have hover := take_overwrite (pch.take n)
      (show msg.nDataPos ≤ vRecv.length by omega)
    rw [htake, hkeep] at hover
    rw [hover, List.drop_append_of_le_length hlong]
  have hsize : msg.hdr.nMessageSize = m.payload.length := by rw [h.hdr]; rfl
  rw [CNetMessage.absorb, h.in_data, if_pos rfl, CNetMessage.readData]
  simp only [hsize, hn, hvRecv, h.in_data, Bool.true_and]
  rw [if_neg (by simpa using hsmall)]
  refine ⟨_, n, rfl, by omega, by omega, hinit, .inr ⟨by omega, rfl, h.hdr, ?_, hread, ?_, ?_⟩⟩
  · show msg.nDataPos + n = (p ++ pch.take n).length - 24
    rw [hplen]
    omega
  · show msg.nDataPos + n ≤ (overwrite vRecv msg.nDataPos (pch.take n)).length
    rw [length_overwrite (by rw [htake]; exact hge)]
    exact hge
  · show (overwrite vRecv msg.nDataPos (pch.take n)).length ≤ m.payload.length
    rw [length_overwrite (by rw [htake]; exact hge)]
    exact hub

/-- **A round of the receiver.**  Bytes of the message are read, one at least and none of the
message after it. -/
theorem absorb_spec {after : Bytes} (h : Parsed P m p msg) (hpch : 0 < pch.length)
    (hlt : p.length < (m.encode P).length) (hagree : p ++ pch <+: m.encode P ++ after) :
    ∃ msg' n, msg.absorb pch = some (msg', n) ∧ 0 < n ∧ n ≤ pch.length ∧
      p ++ pch.take n <+: m.encode P ∧ Parsed P m (p ++ pch.take n) msg' := by
  rcases h with h | h
  · exact absorb_header hsmall h hpch hagree
  · exact absorb_data hsmall h hpch hlt hagree

omit hsmall

/-! ## The stream -/

variable (P) in
/-- The bytes of messages, one after the other. -/
def stream (msgs : List Message) : Bytes := (msgs.map (Message.encode P)).flatten

theorem stream_append (msgs msgs' : List Message) :
    stream P (msgs ++ msgs') = stream P msgs ++ stream P msgs' := by
  rw [stream, List.map_append, List.flatten_append]
  rfl

theorem stream_cons (m : Message) (msgs : List Message) :
    stream P (m :: msgs) = m.encode P ++ stream P msgs := by
  rw [stream, List.map_cons, List.flatten_cons]
  rfl

variable (P) in
/-- Of the messages `queued` the bytes `received` have arrived and are read: the messages `done`
are complete, and the next one is there in part when there are bytes of it. -/
structure Framed (queued : List Message) (received : Bytes) (msgs : List CNetMessage)
    (done rest : List Message) (p : Bytes) : Prop where
  queued : queued = done ++ rest
  received : received = stream P done ++ p
  next : ∀ m ∈ rest.head?, p <+: m.encode P ∧ p.length < (m.encode P).length
  last : rest = [] → p = []
  msgs : ∃ arrived, List.Forall₂ (Arrived P) done arrived ∧
    ((p = [] ∧ msgs = arrived) ∨
      ∃ msg, p ≠ [] ∧ msgs = arrived ++ [msg] ∧ ∀ m ∈ rest.head?, Parsed P m p msg)

theorem Arrived.getCommand (h : Arrived P m msg) : msg.hdr.getCommand = m.command := by
  rw [h.hdr]
  exact takeWhile_fieldOf m

theorem complete_of_arrived {done : List Message} {arrived : List CNetMessage}
    (h : List.Forall₂ (Arrived P) done arrived) : ∀ msg ∈ arrived, msg.complete = true := by
  induction h with
  | nil => simp
  | cons hm _ ih =>
    intro msg hmsg
    rcases List.mem_cons.1 hmsg with rfl | hmsg
    · exact hm.complete
    · exact ih msg hmsg

/-- Messages that have been processed do not matter to the receiver. -/
theorem current_append {processed vRecvMsg : List CNetMessage}
    (h : ∀ msg ∈ processed, msg.complete = true) :
    current P (processed ++ vRecvMsg) =
      (processed ++ (current P vRecvMsg).1, (current P vRecvMsg).2) := by
  rcases List.eq_nil_or_concat vRecvMsg with rfl | ⟨msgs, msg, rfl⟩
  · rcases List.eq_nil_or_concat processed with rfl | ⟨msgs, msg, rfl⟩
    · rfl
    · have hmsg := h msg (by simp)
      simp [current, hmsg]
  · rw [List.concat_eq_append, ← List.append_assoc]
    cases hc : msg.complete <;> simp [current, hc]

/-- The messages before the one that is read next, and how far that one is read. -/
theorem Framed.current {queued done rest : List Message} {received : Bytes}
    {msgs : List CNetMessage} (h : Framed P queued received msgs done (m :: rest) p) :
    ∃ arrived, List.Forall₂ (Arrived P) done arrived ∧ (current P msgs).1 = arrived ∧
      Parsed P m p (current P msgs).2 := by
  obtain ⟨arrived, harrived, ⟨rfl, rfl⟩ | ⟨msg, hp, rfl, hparsed⟩⟩ := h.msgs
  · have hfresh : current P msgs = (msgs, .fresh P) := by
      rcases List.eq_nil_or_concat msgs with rfl | ⟨msgs, msg, rfl⟩
      · rfl
      · have hmsg := complete_of_arrived harrived msg (by simp)
        simp [FairCoin.current, hmsg]
    rw [hfresh]
    exact ⟨msgs, harrived, rfl, parsed_fresh m⟩
  · have hpart := (hparsed m (by simp)).incomplete (h.next m (by simp)).2
    have hcurrent : FairCoin.current P (arrived ++ [msg]) = (arrived, msg) := by
      simp [FairCoin.current, hpart]
    rw [hcurrent]
    exact ⟨arrived, harrived, rfl, hparsed m (by simp)⟩

/-- **A round of `ReceiveMsgBytes`.** -/
theorem Framed.round {queued done rest : List Message} {received more : Bytes}
    {msgs : List CNetMessage} (h : Framed P queued received msgs done rest p)
    (hsmall : ∀ m ∈ queued, m.payload.length ≤ maxProtocolMessageLength) (hpch : 0 < pch.length)
    (hstream : received ++ pch ++ more = stream P queued) :
    ∃ msg n, (FairCoin.current P msgs).2.absorb pch = some (msg, n) ∧ 0 < n ∧ n ≤ pch.length ∧
      ∃ done' rest' p', Framed P queued (received ++ pch.take n)
        ((FairCoin.current P msgs).1 ++ [msg]) done' rest' p' := by
  have hagree : p ++ pch ++ more = stream P rest := by
    rw [h.received, h.queued, stream_append, List.append_assoc, List.append_assoc,
      List.append_cancel_left_eq] at hstream
    rw [List.append_assoc]
    exact hstream
  cases rest with
  | nil =>
    have hnil : pch = [] := by
      have hempty : p ++ pch ++ more = [] := hagree
      simp only [List.append_eq_nil_iff] at hempty
      exact hempty.1.2
    rw [hnil] at hpch
    exact absurd hpch (by simp)
  | cons m rest =>
    obtain ⟨arrived, harrived, hothers, hparsed⟩ := h.current
    have hlt := (h.next m (by simp)).2
    obtain ⟨msg, n, habsorb, hpos, hle, hinit, hparsed'⟩ :=
      absorb_spec (hsmall m (by rw [h.queued]; simp)) hparsed hpch hlt
        (show p ++ pch <+: m.encode P ++ stream P rest by
          rw [← stream_cons, ← hagree]; exact List.prefix_append _ _)
    refine ⟨msg, n, habsorb, hpos, hle, ?_⟩
    have hne : p ++ pch.take n ≠ [] := by
      intro hnil
      have hlen := congrArg List.length hnil
      rw [List.length_append, List.length_take, List.length_nil] at hlen
      omega
    rw [hothers]
    by_cases hdone : p ++ pch.take n = m.encode P
    · refine ⟨done ++ [m], rest, [], by rw [h.queued, List.append_assoc]; rfl, ?_, ?_, fun _ => rfl,
        arrived ++ [msg], List.rel_append harrived (.cons (hparsed'.arrived hdone) .nil),
        .inl ⟨rfl, rfl⟩⟩
      · rw [h.received, List.append_assoc, hdone, stream_append, List.append_nil]
        simp [stream]
      · intro m' _
        refine ⟨List.nil_prefix, ?_⟩
        rw [length_encode, List.length_nil]
        omega
    · have hshort : (p ++ pch.take n).length < (m.encode P).length := by
        apply lt_of_le_of_ne hinit.length_le
        exact fun heq => hdone (hinit.eq_of_length heq)
      refine ⟨done, m :: rest, p ++ pch.take n, h.queued, ?_, ?_, fun hnil => absurd hnil (by simp),
        arrived, harrived, .inr ⟨msg, hne, rfl, ?_⟩⟩
      · rw [h.received, List.append_assoc]
      · intro m' hm'
        obtain rfl : m = m' := by simpa using hm'
        exact ⟨hinit, hshort⟩
      · intro m' hm'
        obtain rfl : m = m' := by simpa using hm'
        exact hparsed'

/-- **`ReceiveMsgBytes`** reads every byte of a stream of messages, however it is cut. -/
theorem Framed.receiveLoop {queued : List Message} {processed : List CNetMessage}
    (hprocessed : ∀ msg ∈ processed, msg.complete = true)
    (hsmall : ∀ m ∈ queued, m.payload.length ≤ maxProtocolMessageLength) (n : ℕ) :
    ∀ {pch received more p : Bytes} {vRecvMsg : List CNetMessage} {done rest : List Message},
      Framed P queued received (processed ++ vRecvMsg) done rest p → pch.length ≤ n →
      received ++ pch ++ more = stream P queued →
      ∃ vRecvMsg' done' rest' p', FairCoin.receiveLoop P n vRecvMsg pch = some vRecvMsg' ∧
        Framed P queued (received ++ pch) (processed ++ vRecvMsg') done' rest' p' := by
  induction n with
  | zero =>
    intro pch received more p vRecvMsg done rest h hlen _
    obtain rfl : pch = [] := List.length_eq_zero_iff.1 (by omega)
    exact ⟨vRecvMsg, done, rest, p, rfl, by rw [List.append_nil]; exact h⟩
  | succ n ih =>
    intro pch received more p vRecvMsg done rest h hlen hstream
    cases pch with
    | nil => exact ⟨vRecvMsg, done, rest, p, rfl, by rw [List.append_nil]; exact h⟩
    | cons b bytes =>
      obtain ⟨msg, k, habsorb, hpos, hle, done', rest', p', hframed⟩ :=
        h.round hsmall (show 0 < (b :: bytes).length by simp) hstream
      rw [current_append hprocessed] at habsorb hframed
      simp only [List.append_assoc] at hframed
      have hsplit : received ++ (b :: bytes).take k ++ (b :: bytes).drop k ++ more =
          stream P queued := by
        rw [List.append_assoc received, List.take_append_drop]
        exact hstream
      obtain ⟨vRecvMsg', done'', rest'', p'', hloop, hfinal⟩ :=
        ih hframed (by rw [List.length_drop]; omega) hsplit
      refine ⟨vRecvMsg', done'', rest'', p'', ?_, ?_⟩
      · rw [FairCoin.receiveLoop, habsorb]
        exact hloop
      · rwa [List.append_assoc received, List.take_append_drop] at hfinal

end Receiver

/-! ## Runs of the link -/

/-- A payload that is queued is within `MAX_PROTOCOL_MESSAGE_LENGTH`. -/
def LinkAction.Small : LinkAction → Prop
  | .push m _ => m.payload.length ≤ maxProtocolMessageLength
  | _ => True

/-- The invariant of the link. -/
structure Link.Inv (P : NetParams) (s : Link) : Prop where
  ssSend : s.node.ssSend = []
  sender : SendOk s.node.vSendMsg s.node.nSendOffset s.node.nSendSize
  stream : s.received ++ s.wire ++ s.node.vSendMsg.flatten.drop s.node.nSendOffset =
    stream P s.queued
  small : ∀ m ∈ s.queued, m.payload.length ≤ maxProtocolMessageLength
  processed : ∀ msg ∈ s.processed, msg.complete = true
  framed : ∃ done rest p, Framed P s.queued s.received (s.processed ++ s.vRecvMsg) done rest p

section Steps

variable {P : NetParams} {s : Link}

theorem SendOk.append {msgs : List Bytes} {nSendOffset nSendSize : ℕ}
    (h : SendOk msgs nSendOffset nSendSize) {data : Bytes} (hdata : 0 < data.length) :
    SendOk (msgs ++ [data]) nSendOffset (nSendSize + data.length) := by
  refine ⟨?_, ?_, ?_⟩
  · intro d hd
    rcases List.mem_append.1 hd with hd | hd
    · exact h.entries d hd
    · rw [List.mem_singleton.1 hd]
      exact hdata
  · cases msgs with
    | nil =>
      have hzero : nSendOffset = 0 := h.offset
      rw [hzero]
      exact hdata
    | cons d msgs => exact h.offset
  · rw [h.size, List.map_append, List.sum_append]
    simp

theorem SendOk.drop_append {msgs : List Bytes} {nSendOffset nSendSize : ℕ}
    (h : SendOk msgs nSendOffset nSendSize) (data : Bytes) :
    (msgs ++ [data]).flatten.drop nSendOffset = msgs.flatten.drop nSendOffset ++ data := by
  have hle : nSendOffset ≤ msgs.flatten.length := by
    cases msgs with
    | nil =>
      have hzero : nSendOffset = 0 := h.offset
      omega
    | cons d msgs =>
      have hlt : nSendOffset < d.length := h.offset
      rw [List.flatten_cons, List.length_append]
      omega
  rw [List.flatten_append, List.drop_append_of_le_length hle]
  simp

/-- **Queueing a message** fails no assertion; the bytes that are sent at once and those that are
left are those that were left before, and the message. -/
theorem pushMessage_spec (m : Message) (sends : List ℕ) {node : SendNode}
    (hempty : node.ssSend = []) (h : SendOk node.vSendMsg node.nSendOffset node.nSendSize) :
    ∃ node' sent, pushMessage P m sends node = some (node', sent) ∧ node'.ssSend = [] ∧
      SendOk node'.vSendMsg node'.nSendOffset node'.nSendSize ∧
      sent ++ node'.vSendMsg.flatten.drop node'.nSendOffset =
        node.vSendMsg.flatten.drop node.nSendOffset ++ m.encode P := by
  have hlen := length_encode P m
  have hheader := length_serialize P.messageStart m.command 0 0 P.length_messageStart
  have hqueued : SendOk (node.vSendMsg ++ [m.encode P]) node.nSendOffset
      (node.nSendSize + (m.encode P).length) := h.append (by omega)
  rw [pushMessage, beginMessage, if_pos (by rw [hempty]; rfl)]
  simp only [endMessage]
  rw [if_neg (by rw [List.length_append]; omega), if_neg (by rw [List.length_append]; omega),
    finishMessage_eq]
  by_cases hidle : node.vSendMsg = []
  · rw [if_pos hidle]
    obtain ⟨node', sent, hsend, hss, hok, hsent⟩ := socketSendData_spec
      { node with
        ssSend := []
        vSendMsg := node.vSendMsg ++ [m.encode P]
        nSendSize := node.nSendSize + (m.encode P).length } sends hqueued
    exact ⟨node', sent, hsend, hss, hok, hsent.trans (h.drop_append _)⟩
  · rw [if_neg hidle]
    exact ⟨_, [], rfl, rfl, hqueued, h.drop_append _⟩

theorem Framed.queue {queued done rest : List Message} {received p : Bytes}
    {msgs : List CNetMessage} (h : Framed P queued received msgs done rest p) (m : Message) :
    Framed P (queued ++ [m]) received msgs done (rest ++ [m]) p := by
  have hpos : 0 < (m.encode P).length := by
    rw [length_encode]
    omega
  refine ⟨by rw [h.queued, List.append_assoc], h.received, ?_, fun hnil => absurd hnil (by simp), ?_⟩
  · cases rest with
    | nil =>
      rw [h.last rfl]
      intro m' hm'
      obtain rfl : m = m' := by simpa using hm'
      exact ⟨List.nil_prefix, hpos⟩
    | cons m' rest => exact h.next
  · obtain ⟨arrived, harrived, hmsgs⟩ := h.msgs
    refine ⟨arrived, harrived, ?_⟩
    cases rest with
    | nil =>
      rcases hmsgs with hmsgs | ⟨msg, hp, -⟩
      · exact .inl hmsgs
      · exact absurd (h.last rfl) hp
    | cons m' rest => exact hmsgs

/-- **One action.**  It keeps the invariant, and fails only when it is not possible. -/
theorem Link.Inv.step (h : s.Inv P) {a : LinkAction} (ha : a.Small) :
    (∀ s', s.step P a = .ok s' → s'.Inv P) ∧ s.step P a ≠ .error .assertion ∧
      s.step P a ≠ .error .refused := by
  obtain ⟨done, rest, p, hframed⟩ := h.framed
  cases a with
  | push m sends =>
    obtain ⟨node', sent, hpush, hss, hok, hsent⟩ := pushMessage_spec m sends h.ssSend h.sender
    rw [Link.step, hpush]
    refine ⟨?_, by simp, by simp⟩
    rintro s' ⟨⟩
    refine ⟨hss, hok, ?_, ?_, h.processed, done, rest ++ [m], p, hframed.queue m⟩
    · show s.received ++ (s.wire ++ sent) ++ node'.vSendMsg.flatten.drop node'.nSendOffset =
        FairCoin.stream P (s.queued ++ [m])
      rw [stream_append, ← h.stream]
      simp only [List.append_assoc, hsent]
      simp [FairCoin.stream]
    · intro m' hm'
      rcases List.mem_append.1 hm' with hm' | hm'
      · exact h.small m' hm'
      · rw [List.mem_singleton.1 hm']
        exact ha
  | send sends =>
    obtain ⟨node', sent, hsend, hss, hok, hsent⟩ := socketSendData_spec _ sends h.sender
    rw [Link.step, hsend]
    refine ⟨?_, by simp, by simp⟩
    rintro s' ⟨⟩
    refine ⟨hss.trans h.ssSend, hok, ?_, h.small, h.processed, done, rest, p, hframed⟩
    show s.received ++ (s.wire ++ sent) ++ node'.vSendMsg.flatten.drop node'.nSendOffset =
      FairCoin.stream P s.queued
    rw [← h.stream]
    simp only [List.append_assoc, hsent]
  | receive n =>
    have hstream : s.received ++ s.wire.take n ++
        (s.wire.drop n ++ s.node.vSendMsg.flatten.drop s.node.nSendOffset) =
          FairCoin.stream P s.queued := by
      rw [← h.stream]
      simp only [List.append_assoc]
      rw [← List.append_assoc (s.wire.take n), List.take_append_drop]
    obtain ⟨vRecvMsg, done', rest', p', hreceive, hframed'⟩ :=
      Framed.receiveLoop h.processed h.small _ hframed (le_refl _) hstream
    rw [Link.step, receiveMsgBytes, hreceive]
    refine ⟨?_, by simp, by simp⟩
    rintro s' ⟨⟩
    refine ⟨h.ssSend, h.sender, ?_, h.small, h.processed, done', rest', p', hframed'⟩
    simp only [List.append_assoc] at hstream ⊢
    exact hstream
  | process =>
    rw [Link.step]
    split
    · next msg vRecvMsg hvRecvMsg =>
      split
      · next hcomplete =>
        refine ⟨?_, by simp, by simp⟩
        rintro s' ⟨⟩
        refine ⟨h.ssSend, h.sender, h.stream, h.small, ?_, done, rest, p, ?_⟩
        · intro msg' hmsg'
          rcases List.mem_append.1 hmsg' with hmsg' | hmsg'
          · exact h.processed msg' hmsg'
          · rw [List.mem_singleton.1 hmsg']
            exact hcomplete
        · rw [hvRecvMsg] at hframed
          simpa using hframed
      · exact ⟨by simp, by simp, by simp⟩
    · exact ⟨by simp, by simp, by simp⟩

theorem Link.inv_empty : Link.Inv P {} :=
  ⟨rfl, ⟨by simp, rfl, rfl⟩, rfl, by simp, by simp,
    [], [], [], rfl, rfl, by simp, fun _ => rfl, [], .nil, .inl ⟨rfl, rfl⟩⟩

/-- **Every run of the link.** -/
theorem Link.inv_run {actions : List LinkAction} (hsmall : ∀ a ∈ actions, a.Small)
    (hrun : run (Link.step P) {} actions = .ok s) : s.Inv P :=
  run_invariant (C := fun _ a => a.Small) (fun _ _ _ h ha hstep => (h.step ha).1 _ hstep)
    Link.inv_empty (along_of_forall (fun a ha _ => hsmall a ha) _) hrun

/-- The complete messages are those that have arrived. -/
theorem Framed.filter_complete {queued done rest : List Message} {received p : Bytes}
    {msgs : List CNetMessage} (h : Framed P queued received msgs done rest p) :
    List.Forall₂ (Arrived P) done (msgs.filter CNetMessage.complete) ∧
      ∀ msg ∈ msgs.dropLast, msg.complete = true := by
  obtain ⟨arrived, harrived, ⟨-, rfl⟩ | ⟨msg, hp, rfl, hparsed⟩⟩ := h.msgs
  · have hall := complete_of_arrived harrived
    rw [List.filter_eq_self.2 hall]
    exact ⟨harrived, fun msg hmsg => hall msg (List.mem_of_mem_dropLast hmsg)⟩
  · have hall := complete_of_arrived harrived
    cases rest with
    | nil => exact absurd (h.last rfl) hp
    | cons m rest =>
      have hpart := (hparsed m (by simp)).incomplete (h.next m (by simp)).2
      rw [List.filter_append, List.filter_eq_self.2 hall, List.dropLast_concat]
      refine ⟨?_, hall⟩
      simpa [hpart] using harrived

end Steps

/-! ## The main result -/

/-- The message arrives with the command and the payload it was queued with. -/
def Delivered (m : Message) (msg : CNetMessage) : Prop :=
  msg.hdr.getCommand = m.command ∧ msg.vRecv = m.payload

/-- **What arrives is what was queued.**  Whatever the sockets take and however the bytes arrive,
as long as every payload is within `MAX_PROTOCOL_MESSAGE_LENGTH`:

* the complete messages are, in order, the queued ones whose last byte has arrived, and all of
  them once nothing is left to send or on the way;
* an incomplete message is the last one;
* `nSendSize` is the size of what is in `vSendMsg`;
* no assertion fails, and the receiver refuses nothing. -/
theorem transport_lossless (P : NetParams) {actions : List LinkAction} {s : Link}
    (hsmall : ∀ a ∈ actions, a.Small) (hrun : run (Link.step P) {} actions = .ok s) :
    (∃ done rest p, s.queued = done ++ rest ∧ s.received = stream P done ++ p ∧
      (∀ m ∈ rest.head?, p.length < (m.encode P).length) ∧ (rest = [] → p = []) ∧
      List.Forall₂ Delivered done
        ((s.processed ++ s.vRecvMsg).filter CNetMessage.complete)) ∧
    (s.node.vSendMsg = [] → s.wire = [] → List.Forall₂ Delivered s.queued
      ((s.processed ++ s.vRecvMsg).filter CNetMessage.complete)) ∧
    (∀ msg ∈ (s.processed ++ s.vRecvMsg).dropLast, msg.complete = true) ∧
    s.node.nSendSize = (s.node.vSendMsg.map List.length).sum ∧
    ∀ a : LinkAction, a.Small → s.step P a ≠ .error .assertion ∧ s.step P a ≠ .error .refused := by
  have hinv := Link.inv_run hsmall hrun
  obtain ⟨done, rest, p, hframed⟩ := hinv.framed
  obtain ⟨harrived, hlast⟩ := hframed.filter_complete
  have hdelivered : List.Forall₂ Delivered done
      ((s.processed ++ s.vRecvMsg).filter CNetMessage.complete) :=
    harrived.imp fun _ _ h => ⟨h.getCommand, h.vRecv⟩
  refine ⟨⟨done, rest, p, hframed.queued, hframed.received, fun m hm => (hframed.next m hm).2,
    hframed.last, hdelivered⟩, ?_, hlast, hinv.sender.size, fun a ha => (hinv.step ha).2⟩
  intro hsent hwire
  have hstream := hinv.stream
  rw [hsent, hwire, hframed.received, hframed.queued, stream_append] at hstream
  have hp : p = stream P rest := by simpa using hstream
  cases rest with
  | nil =>
    rw [hframed.queued, List.append_nil]
    exact hdelivered
  | cons m rest =>
    have hlt := (hframed.next m (by simp)).2
    rw [hp, stream_cons, List.length_append] at hlt
    omega

/-- The parameters of a network with a hash that does not matter. -/
def exampleParams : NetParams := ⟨[0xa3, 0xd7, 0xe1, 0xb4], fun _ => 0, rfl⟩

/-- The message `ping` with a payload of three bytes. -/
def pingMessage : Message := ⟨[0x70, 0x69, 0x6e, 0x67], [1, 2, 3], by decide, by decide⟩

/-- A ping that the sockets cut inside the header and inside the payload. -/
theorem transport_lossless_of_ping :
    ∃ s, run (Link.step exampleParams) {} [.push pingMessage [5], .receive 3, .send [20],
        .receive 23, .send [9], .receive 9, .process] = .ok s ∧
      s.queued = [pingMessage] ∧
      List.Forall₂ Delivered s.queued
        ((s.processed ++ s.vRecvMsg).filter CNetMessage.complete) := by
  obtain ⟨s, hrun, hqueued, hsent, hwire⟩ : ∃ s, run (Link.step exampleParams) {}
      [.push pingMessage [5], .receive 3, .send [20], .receive 23, .send [9], .receive 9, .process]
        = .ok s ∧ s.queued = [pingMessage] ∧ s.node.vSendMsg = [] ∧ s.wire = [] :=
    ⟨_, rfl, rfl, rfl, rfl⟩
  refine ⟨s, hrun, hqueued, (transport_lossless exampleParams ?_ hrun).2.1 hsent hwire⟩
  intro a ha
  simp only [List.mem_cons, List.not_mem_nil, or_false] at ha
  rcases ha with rfl | rfl | rfl | rfl | rfl | rfl | rfl
  · show 3 ≤ 2 * 1024 * 1024
    decide
  all_goals trivial

end FairCoin
