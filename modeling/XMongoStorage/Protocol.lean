/-
The wire format of the protocol layer (`handler.go`): a message is a header of four
little-endian `int32` words, `MessageLength`, `RequestID`, `ResponseTo` and `OpCode`,
followed by its body.  `Read` waits until a whole message is in the buffer, then takes
`MessageLength` bytes off the front.

* `readInt32_writeInt32` — one word reads back as written;
* `read_serialize_roundtrip` — a message whose `MessageLength` is its serialized length
  reads back from the front of any stream, and every response the event listener builds
  with a body shorter than `2^31 - 16` bytes has that length;
* `read_panics_on_short_length` — a message `Read` returns always consumes between 16 bytes
  and the whole buffer, but a `MessageLength` below 16 makes `Read` panic.

Design notes: the `int32` words are `BitVec 32`, and `int(MessageLength)` is their signed
value.  `Read` answers `(message, consumed, err)`: `.ok none` is `(nil, 0, nil)`, the
wait for more data, and `none` is a panic, which slicing with a negative length or with a
length below the header's causes.  `Serialize` cannot fail on a message with a header: its
`error` is left out, as is the `getty` session.
-/
import XMongoStorage.Bytes
import Mathlib.Algebra.Group.Nat.Basic

namespace XMongoStorage

/-- `MessageHeader`. -/
structure MessageHeader where
  messageLength : BitVec 32
  requestID : BitVec 32
  responseTo : BitVec 32
  opCode : BitVec 32
  deriving DecidableEq, Repr

/-- `Message`, with a header that is not nil; `opCode` is the `OpCode` field. -/
structure Message where
  header : MessageHeader
  body : Bytes
  opCode : BitVec 32
  deriving DecidableEq, Repr

namespace Message

/-- `OpReply`. -/
def opReply : BitVec 32 := 1

/-- `binary.Write` of an `int32` in little-endian order. -/
def writeInt32 (x : BitVec 32) : Bytes :=
  [UInt8.ofNat x.toNat, UInt8.ofNat (x.toNat >>> 8), UInt8.ofNat (x.toNat >>> 16),
    UInt8.ofNat (x.toNat >>> 24)]

/-- `binary.Read` of an `int32` from four little-endian bytes. -/
def readInt32 (b0 b1 b2 b3 : UInt8) : BitVec 32 :=
  BitVec.ofNat 32 (b0.toNat + b1.toNat * 2 ^ 8 + b2.toNat * 2 ^ 16 + b3.toNat * 2 ^ 24)

/-- `parseMessageHeader`: the four words at the front of `data`. -/
def parseMessageHeader (data : Bytes) : Except String MessageHeader :=
  match data with
  | a0 :: a1 :: a2 :: a3 :: b0 :: b1 :: b2 :: b3 :: c0 :: c1 :: c2 :: c3 :: d0 :: d1 :: d2 :: d3 :: _ =>
    .ok ⟨readInt32 a0 a1 a2 a3, readInt32 b0 b1 b2 b3, readInt32 c0 c1 c2 c3, readInt32 d0 d1 d2 d3⟩
  | _ => .error "数据长度不足"

/-- `parseMessage`: the body is `data[16:]`, which panics on fewer than 16 bytes. -/
def parseMessage (data : Bytes) (header : MessageHeader) : Option Message :=
  if data.length < 16 then none else some ⟨header, data.drop 16, header.opCode⟩

/-- `PackageHandler.Read`. -/
def read (data : Bytes) : Option (Except String (Option (Message × Nat))) :=
  if data.length < 16 then some (.ok none)
  else
    match parseMessageHeader data with
    | .error err => some (.error ("解析消息头失败: " ++ err))
    | .ok header =>
      let messageLength := header.messageLength.toInt
      if (data.length : Int) < messageLength then some (.ok none)
      else if messageLength < 0 then none
      else (parseMessage (data.take messageLength.toNat) header).map fun message =>
        .ok (some (message, messageLength.toNat))

/-- `Serialize`. -/
def serialize (m : Message) : Bytes :=
  writeInt32 m.header.messageLength ++ writeInt32 m.header.requestID ++
    writeInt32 m.header.responseTo ++ writeInt32 m.header.opCode ++ m.body

/-- `generateRequestID`. -/
def generateRequestID : BitVec 32 := 1

/-- `createSuccessResponse`: Go's `int32(16 + len(data))` keeps the low 32 bits. -/
def createSuccessResponse (request : Message) (data : Bytes) : Message :=
  { header :=
      { messageLength := BitVec.ofNat 32 (16 + data.length), requestID := generateRequestID,
        responseTo := request.header.requestID, opCode := opReply },
    body := data, opCode := opReply }

/-- `createErrorResponse`: the same message, with the error text's bytes as its body. -/
def createErrorResponse (request : Message) (errorMsg : String) : Message :=
  createSuccessResponse request (stringBytes errorMsg)

@[simp] theorem writeInt32_length (x : BitVec 32) : (writeInt32 x).length = 4 := rfl

@[simp] theorem serialize_length (m : Message) : (serialize m).length = 16 + m.body.length := by
  simp only [serialize, List.length_append, writeInt32_length]

theorem readInt32_writeInt32 (x : BitVec 32) :
    readInt32 (UInt8.ofNat x.toNat) (UInt8.ofNat (x.toNat >>> 8)) (UInt8.ofNat (x.toNat >>> 16))
      (UInt8.ofNat (x.toNat >>> 24)) = x := by
  apply BitVec.eq_of_toNat_eq
  have := x.isLt
  simp only [readInt32, UInt8.toNat, UInt8.ofNat, BitVec.toNat_ofNat, Nat.shiftRight_eq_div_pow]
  omega

theorem parseMessageHeader_serialize (m : Message) (s : Bytes) :
    parseMessageHeader (serialize m ++ s) = .ok m.header := by
  show Except.ok (MessageHeader.mk (readInt32 _ _ _ _) (readInt32 _ _ _ _) (readInt32 _ _ _ _)
    (readInt32 _ _ _ _)) = (Except.ok m.header : Except String MessageHeader)
  simp only [readInt32_writeInt32]

/-- A message whose `MessageLength` is its serialized length reads back from the front of
any stream. -/
theorem read_serialize {m : Message} (hlen : m.header.messageLength.toInt = 16 + m.body.length)
    (s : Bytes) :
    read (serialize m ++ s) = some (.ok (some ({ m with opCode := m.header.opCode }, 16 + m.body.length))) := by
  have hn : (16 + (m.body.length : Int)).toNat = 16 + m.body.length := by omega
  have htake : (serialize m ++ s).take (16 + m.body.length) = serialize m :=
    List.take_left' (serialize_length m)
  have hdrop : (serialize m).drop 16 = m.body := rfl
  simp only [read, List.length_append, serialize_length, parseMessageHeader_serialize, hlen, hn,
    htake, parseMessage, hdrop]
  split_ifs <;> first | omega | rfl

/-- A response body shorter than `2^31 - 16` bytes gives a `MessageLength` equal to the
serialized length. -/
theorem createSuccessResponse_length (request : Message) {data : Bytes} (h : data.length < 2 ^ 31 - 16) :
    (createSuccessResponse request data).header.messageLength.toInt =
      16 + (createSuccessResponse request data).body.length := by
  simp only [createSuccessResponse, BitVec.toInt_eq_toNat_cond, BitVec.toNat_ofNat]
  split_ifs <;> omega

/-- **Wire round trip.**  A message whose `MessageLength` is `16 + len(Body)` reads back
from the front of any stream, with every header word and the body as written, `OpCode`
taken from the header, and `MessageLength` bytes consumed; every success or error response
whose body is shorter than `2^31 - 16` bytes has that length and reads back as itself. -/
theorem read_serialize_roundtrip :
    (∀ (m : Message) (s : Bytes), m.header.messageLength.toInt = 16 + m.body.length →
      read (serialize m ++ s) =
        some (.ok (some ({ m with opCode := m.header.opCode }, (serialize m).length))) ∧
      ((serialize m).length : Int) = m.header.messageLength.toInt) ∧
    (∀ (request : Message) (data s : Bytes), data.length < 2 ^ 31 - 16 →
      read (serialize (createSuccessResponse request data) ++ s) =
        some (.ok (some (createSuccessResponse request data, 16 + data.length)))) ∧
    (∀ (request : Message) (errorMsg : String) (s : Bytes), (stringBytes errorMsg).length < 2 ^ 31 - 16 →
      read (serialize (createErrorResponse request errorMsg) ++ s) =
        some (.ok (some (createErrorResponse request errorMsg, 16 + (stringBytes errorMsg).length)))) := by
  refine ⟨fun m s hlen => ⟨by rw [read_serialize hlen, serialize_length], by simp [hlen]⟩,
    fun request data s h => read_serialize (createSuccessResponse_length request h) s,
    fun request errorMsg s h => read_serialize (createSuccessResponse_length request h) s⟩

/-- The error response to an unknown operation, followed by one more byte, reads back. -/
theorem errorResponse_reads_back :
    read (serialize (createErrorResponse ⟨⟨16, 7, 0, 9999⟩, [], 9999⟩ "不支持的操作") ++ [0]) =
      some (.ok (some (createErrorResponse ⟨⟨16, 7, 0, 9999⟩, [], 9999⟩ "不支持的操作",
        16 + (stringBytes "不支持的操作").length))) :=
  read_serialize_roundtrip.2.2 _ _ _ (by decide)

/-! ### Framing a stream -/

/-- A message `Read` returns consumed at least the header, at most the buffer, and exactly
the header's `MessageLength`. -/
theorem read_consumed {data : Bytes} {m : Message} {n : Nat}
    (h : read data = some (.ok (some (m, n)))) :
    16 ≤ n ∧ n ≤ data.length ∧ (n : Int) = m.header.messageLength.toInt := by
  unfold read at h
  split_ifs at h with h16
  · cases h
  split at h
  · cases h
  dsimp only at h
  split_ifs at h with hlt hneg
  · cases h
  obtain ⟨msg, hmsg, hm⟩ := Option.map_eq_some'.mp h
  unfold parseMessage at hmsg
  split_ifs at hmsg with hshort
  cases hmsg
  cases hm
  simp only [List.length_take] at hshort
  dsimp only
  omega

/-- A header whose `MessageLength` is below the 16 bytes of the header panics `Read`: a
negative length in `data[:MessageLength]`, a short one in `data[16:]`. -/
theorem read_serialize_short {m : Message} (hlen : m.header.messageLength.toInt < 16)
    (s : Bytes) : read (serialize m ++ s) = none := by
  have hge : 16 ≤ (serialize m ++ s).length := by simp only [List.length_append, serialize_length]; omega
  simp only [read, parseMessageHeader_serialize, if_neg (Nat.not_lt.mpr hge)]
  rw [if_neg (by omega)]
  split_ifs with hneg
  · rfl
  · simp only [parseMessage, List.length_take]
    rw [if_pos (by omega)]
    rfl

/-- **`Read` panics on a short `MessageLength`.**  Every message `Read` returns consumed
between 16 bytes and the whole buffer, exactly its `MessageLength`, so a framing loop that
gets a message makes progress; but a header whose `MessageLength` is below 16 makes `Read`
panic instead of returning, as sixteen zero bytes from a peer do. -/
theorem read_panics_on_short_length :
    (∀ (data : Bytes) (m : Message) (n : Nat), read data = some (.ok (some (m, n))) →
      16 ≤ n ∧ n ≤ data.length ∧ (n : Int) = m.header.messageLength.toInt) ∧
    (∀ (m : Message) (s : Bytes), m.header.messageLength.toInt < 16 → read (serialize m ++ s) = none) ∧
    read (List.replicate 16 0) = none :=
  ⟨fun _ _ _ => read_consumed, fun _ s h => read_serialize_short h s, rfl⟩

end Message

end XMongoStorage
