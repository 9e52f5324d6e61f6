/-
The event listener of the protocol layer (`EventListener`, `unnamed/part_005`): every
message `Read` frames is handed to `handleMessage`, which answers it with an `OpReply`, and
`Write` serializes the answer back onto the connection.

`handleMessage` switches on the message's `OpCode`: the six operations it knows each answer
with a fixed body, and any other code with the error text "不支持的操作".

* `handleMessage_eq` — every answer is `createSuccessResponse` of the request and a short
  body, so it answers the request's `RequestID` with an `OpReply`;
* `frames_serialize` — the read loop over `Read` frames a stream of serialized messages back
  into those messages, each with the `OpCode` of its header;
* `serve_answers_each` — for every stream of well-formed requests, the listener writes one
  reply per request, in order, and a client's read loop frames the replies back, each
  answering its request's `RequestID`.

Design notes: the read loop is `getty`'s use of `PackageHandler.Read`, not part of the
repository: it takes each message `Read` returns off the front of the buffer and hands it
on, and stops when `Read` waits for more data or fails.  Its fuel bounds the number of
messages.  The session, the context and the logger are left out; `handleMessage` never
returns nil, so `OnMessage` always writes.
-/
import XMongoStorage.Protocol

namespace XMongoStorage

namespace Message

/-- `OpUpdate`. -/
def opUpdate : BitVec 32 := 2001

/-- `OpInsert`. -/
def opInsert : BitVec 32 := 2002

/-- `OpQuery`. -/
def opQuery : BitVec 32 := 2004

/-- `OpDelete`. -/
def opDelete : BitVec 32 := 2006

/-- `OpCommand`. -/
def opCommand : BitVec 32 := 2010

/-- `OpMsg`. -/
def opMsg : BitVec 32 := 2013

/-- The handlers of `EventListener`: a success response with a fixed body. -/
def handleWith (body : String) (message : Message) : Message :=
  createSuccessResponse message (stringBytes body)

/-- `handleQuery`. -/
def handleQuery : Message → Message := handleWith "查询结果"

/-- `handleInsert`. -/
def handleInsert : Message → Message := handleWith "插入成功"

/-- `handleUpdate`. -/
def handleUpdate : Message → Message := handleWith "更新成功"

/-- `handleDelete`. -/
def handleDelete : Message → Message := handleWith "删除成功"

/-- `handleCommand`. -/
def handleCommand : Message → Message := handleWith "命令执行成功"

/-- `handleMsg`. -/
def handleMsg : Message → Message := handleWith "消息处理成功"

/-- `handleMessage`: the switch on `message.OpCode`. -/
def handleMessage (message : Message) : Message :=
  if message.opCode = opQuery then handleQuery message
  else if message.opCode = opInsert then handleInsert message
  else if message.opCode = opUpdate then handleUpdate message
  else if message.opCode = opDelete then handleDelete message
  else if message.opCode = opCommand then handleCommand message
  else if message.opCode = opMsg then handleMsg message
  else createErrorResponse message "不支持的操作"

/-- `OnMessage`: the bytes `Write` puts on the connection for the answer. -/
def onMessage (message : Message) : Bytes := serialize (handleMessage message)

/-- The read loop over `Read` (`getty`'s, not the repository's): the messages it takes off
the front of the buffer, at most `fuel` of them, and the bytes it leaves. -/
def frames : Nat → Bytes → Option (List Message × Bytes)
  | 0, data => some ([], data)
  | fuel + 1, data =>
    (read data).bind fun
      | .ok (some (m, n)) => (frames fuel (data.drop n)).map fun r => (m :: r.1, r.2)
      | _ => some ([], data)

/-! ### Answers -/

/-- Every answer is a success response to the request with a body of fewer than
`2^31 - 16` bytes. -/
theorem handleMessage_eq (message : Message) :
    ∃ body : String, handleMessage message = createSuccessResponse message (stringBytes body) ∧
      (stringBytes body).length < 2 ^ 31 - 16 := by
  unfold handleMessage
  split_ifs <;> exact ⟨_, rfl, by decide⟩

/-- An answer is an `OpReply` to its request, whose `MessageLength` is its serialized
length. -/
theorem handleMessage_header (message : Message) :
    (handleMessage message).header.responseTo = message.header.requestID ∧
      (handleMessage message).opCode = opReply ∧ (handleMessage message).header.opCode = opReply ∧
      (handleMessage message).header.messageLength.toInt = 16 + (handleMessage message).body.length := by
  obtain ⟨body, h, hlen⟩ := handleMessage_eq message
  rw [h]
  exact ⟨rfl, rfl, rfl, createSuccessResponse_length message hlen⟩

/-! ### Streams -/

/-- The message `Read` frames from a well-formed message's bytes: the `OpCode` is the
header's. -/
def readBack (m : Message) : Message := { m with opCode := m.header.opCode }

/-- A message whose `MessageLength` is its serialized length. -/
def WellFormed (m : Message) : Prop := m.header.messageLength.toInt = 16 + m.body.length

instance (m : Message) : Decidable (WellFormed m) := inferInstanceAs (Decidable (_ = _))

/-- The read loop frames a stream of well-formed messages back into those messages, with
the fuel at least their number. -/
theorem frames_serialize : ∀ (ms : List Message) (fuel : Nat), ms.length ≤ fuel →
    (∀ m ∈ ms, WellFormed m) → frames fuel (ms.flatMap serialize) = some (ms.map readBack, [])
  | [], 0, _, _ => rfl
  | [], _ + 1, _, _ => rfl
  | m :: ms, fuel + 1, hfuel, hms => by
    have hdrop : (serialize m ++ ms.flatMap serialize).drop (16 + m.body.length) = ms.flatMap serialize :=
      List.drop_left' (serialize_length m)
    simp only [frames, List.flatMap_cons, read_serialize (hms m (List.mem_cons_self _ _)),
      Option.some_bind, hdrop, frames_serialize ms fuel (by simpa using hfuel)
        fun m' hm' => hms m' (List.mem_cons_of_mem _ hm'),
      Option.map_some', List.map_cons, readBack]

/-- **Every request is answered.**  For every stream of well-formed requests, the listener
frames each request and writes one reply per request, in order; and a client's read loop
frames that output back into the replies, each an `OpReply` answering its request's
`RequestID` with the body its `OpCode` selects. -/
theorem serve_answers_each (ms : List Message) (hms : ∀ m ∈ ms, WellFormed m) :
    (frames ms.length (ms.flatMap serialize)).map (fun r => (r.1.flatMap onMessage, r.2)) =
        some ((ms.map readBack).flatMap onMessage, []) ∧
      frames ms.length ((ms.map readBack).flatMap onMessage) =
        some (ms.map fun m => handleMessage (readBack m), []) ∧
      ∀ m ∈ ms, (handleMessage (readBack m)).header.responseTo = m.header.requestID ∧
        (handleMessage (readBack m)).opCode = opReply := by
  have hreplies : ∀ r ∈ ms.map fun m => handleMessage (readBack m), WellFormed r := by
    simp only [List.mem_map]
    rintro _ ⟨m, -, rfl⟩
    exact (handleMessage_header _).2.2.2
  have hback : ∀ m : Message, readBack (handleMessage m) = handleMessage m := fun m => by
    obtain ⟨-, h1, h2, -⟩ := handleMessage_header m
    rw [readBack, h2, ← h1]
  refine ⟨by rw [frames_serialize ms _ le_rfl hms]; rfl, ?_, fun m _ => ?_⟩
  · have := frames_serialize _ ms.length (by simp) hreplies
    simpa [onMessage, List.flatMap_map, hback, List.map_map, Function.comp_def] using this
  · exact ⟨(handleMessage_header _).1, (handleMessage_header _).2.1⟩

/-- A well-formed `OpMsg` request and a request with the unknown code `1`. -/
def twoRequests : List Message :=
  [⟨⟨16, 7, 0, 2013⟩, [], 2013⟩, ⟨⟨17, 8, 0, 1⟩, [5], 1⟩]

theorem twoRequests_answered :
    (∀ m ∈ twoRequests, WellFormed m) ∧
      frames twoRequests.length ((twoRequests.map readBack).flatMap onMessage) =
        some (twoRequests.map fun m => handleMessage (readBack m), []) :=
  ⟨by decide, (serve_answers_each twoRequests (by decide)).2.1⟩

end Message

end XMongoStorage
