/-
Reading a document back (`bsonToDocument` in `btree.go`, that is `json.Unmarshal` of
`encoding/json` into a `Document`): the scanner's white space, string literals with their
escapes, numbers, `true`, `false`, `null`, and objects whose members hold such values.

`bsonToDocument` undoes `documentToBSON` on every document a Go program holds:

* `unquoteBytes_jsonQuote` — `unquoteBytes` reads back every string `json.Marshal` writes,
  its escapes and its UTF-8 included;
* `convertNumber_repr` — the number `json.Marshal` writes for an integer converts to the
  `float64` nearest to it, which is the integer itself up to 53 bits (`unmarshal_int_of_lt`);
* `literalStore_encodeValue` — each value reads back as `json.Unmarshal` stores it in an
  `interface{}`;
* `object_fields` — the member loop reads the members in the order `json.Marshal` writes
  them and stores each with `SetMapIndex`;
* `bsonToDocument_documentToBSON` — for a nil map, or a map with distinct names and 64-bit
  integers, whose names and strings are valid UTF-8, `json.Unmarshal` of what
  `json.Marshal` writes is the same map, each name as its bytes and each value as it reads
  back.

Design notes: the decoder reads what `documentToBSON` writes.  Names and strings are Lean
`String`s, valid UTF-8: a Go string holding other bytes is written with U+FFFD in their
place, and is left out.  An object or an array inside
a document and a number with a fraction or an exponent are left out, each an error here.
Go runs the scanner over the whole input before it decodes, and its errors name an offset;
here the first error met is returned, with a shorter text.  A `float64` is held as the
integer it equals, which every number left in is.  On a number past the largest `float64`
Go goes on decoding and returns the error with the map; `Find`, the only caller, drops
both.  A map is held as its entries, the last stored first.
-/
import XMongoStorage.Utf8
import XMongoStorage.Engine

namespace XMongoStorage

/-! ### The scanner and string literals -/

/-- `isSpace` of `encoding/json`. -/
def isSpace (c : UInt8) : Bool := c == 32 || c == 9 || c == 10 || c == 13

/-- `scanSkipSpace`: the bytes from the first that is not white space. -/
def skipSpace : Bytes → Bytes
  | [] => []
  | c :: s => if isSpace c then skipSpace s else c :: s

/-- A hex digit of a `\u` escape, in either case. -/
def hexValue (c : UInt8) : Option Nat :=
  if 48 ≤ c.toNat ∧ c.toNat ≤ 57 then some (c.toNat - 48)
  else if 97 ≤ c.toNat ∧ c.toNat ≤ 102 then some (c.toNat - 87)
  else if 65 ≤ c.toNat ∧ c.toNat ≤ 70 then some (c.toNat - 55)
  else none

/-- `getu4`: the code of the escape `\uXXXX` the bytes start with. -/
def getu4 : Bytes → Option Nat
  | e :: u :: a :: b :: c :: d :: _ =>
    if e = 92 ∧ u = 117 then do
      let a ← hexValue a
      let b ← hexValue b
      let c ← hexValue c
      let d ← hexValue d
      pure (((a * 16 + b) * 16 + c) * 16 + d)
    else none
  | _ => none

/-- The byte a one-letter escape stands for: `\"`, `\\`, `\/`, `\b`, `\f`, `\n`, `\r`,
`\t`. -/
def escapeByte (e : UInt8) : Option UInt8 :=
  if e = 34 ∨ e = 92 ∨ e = 47 then some e
  else if e = 98 then some 8
  else if e = 102 then some 12
  else if e = 110 then some 10
  else if e = 114 then some 13
  else if e = 116 then some 9
  else none

/-- `unquoteBytes`, with the scanner's checks before it, on the bytes after a string's
opening quote: the string's bytes and the bytes after its closing quote.  Each step reads
one byte, one escape or one character of UTF-8; a byte that starts no character is U+FFFD.
The fuel bounds the steps. -/
def unquoteBytes : Nat → Bytes → Except String (Bytes × Bytes)
  | 0, _ => .error "unexpected end of JSON input"
  | _ + 1, [] => .error "unexpected end of JSON input"
  | fuel + 1, c :: s =>
    if c = 34 then .ok ([], s)
    else if c = 92 then
      match s with
      | [] => .error "unexpected end of JSON input"
      | e :: s' =>
        match escapeByte e with
        | some b => (unquoteBytes fuel s').map fun r => (b :: r.1, r.2)
        | none =>
          match getu4 (c :: s) with
          | none => .error "invalid character in string escape code"
          | some rr =>
            if isSurrogate rr then
              let dec := utf16DecodeRune rr (getu4 (s.drop 5))
              if dec ≠ 0xFFFD then (unquoteBytes fuel (s.drop 11)).map fun r => (encodeRune dec ++ r.1, r.2)
              else (unquoteBytes fuel (s.drop 5)).map fun r => (encodeRune 0xFFFD ++ r.1, r.2)
            else (unquoteBytes fuel (s.drop 5)).map fun r => (encodeRune rr ++ r.1, r.2)
    else if c.toNat < 32 then .error "invalid character in string literal"
    else if c.toNat < 128 then (unquoteBytes fuel s).map fun r => (c :: r.1, r.2)
    else
      match decodeRune c s with
      | some n => (unquoteBytes fuel (s.drop (n - 1))).map fun r => (c :: s.take (n - 1) ++ r.1, r.2)
      | none => (unquoteBytes fuel s).map fun r => (encodeRune 0xFFFD ++ r.1, r.2)

/-! ### Numbers -/

/-- The `float64` nearest `n`, ties to even, as `strconv.ParseFloat` rounds a decimal
integer; `none` past the largest `float64`, where it fails with a range error. -/
def roundFloat64 (n : Nat) : Option Nat :=
  if n < 2 ^ 53 then some n
  else
    let shift := Nat.log2 n - 52
    let q := n / 2 ^ shift
    let r := n % 2 ^ shift
    let m := if 2 ^ (shift - 1) < r ∨ (r = 2 ^ (shift - 1) ∧ q % 2 = 1) then q + 1 else q
    if m * 2 ^ shift < 2 ^ 1024 then some (m * 2 ^ shift) else none

/-- A decimal digit. -/
def isDigit (c : UInt8) : Bool := 48 ≤ c.toNat && c.toNat ≤ 57

/-- The value of a run of decimal digits. -/
def digitsValue (ds : Bytes) : Nat := ds.foldl (fun n d => n * 10 + (d.toNat - 48)) 0

/-- The integer part of a JSON number: `0`, or a digit from `1` and the digits after it. -/
def intPart : Bytes → Option (Nat × Bytes)
  | [] => none
  | c :: rest =>
    if c = 48 then some (0, rest)
    else if isDigit c then some (digitsValue (c :: rest.takeWhile isDigit), rest.dropWhile isDigit)
    else none

/-- A JSON number without its sign, as `convertNumber` converts it: the `float64` nearest to
its integer part.  A number with a fraction or an exponent is left out. -/
def convertDigits (s : Bytes) : Except String (Nat × Bytes) :=
  match intPart s with
  | none => .error "invalid character looking for beginning of value"
  | some (n, rest) =>
    if rest.head? = some 46 ∨ rest.head? = some 101 ∨ rest.head? = some 69 then
      .error "a number with a fraction or an exponent is left out"
    else
      match roundFloat64 n with
      | none => .error "json: cannot unmarshal number into Go value of type float64"
      | some f => .ok (f, rest)

/-- `convertNumber` of a JSON number that is an integer: the `float64` nearest to it, with
its sign. -/
def convertNumber : Bytes → Except String (Int × Bytes)
  | [] => .error "unexpected end of JSON input"
  | c :: s =>
    if c = 45 then (convertDigits s).map fun r => (-(r.1 : Int), r.2)
    else (convertDigits (c :: s)).map fun r => ((r.1 : Int), r.2)

/-! ### Documents -/

/-- A value `json.Unmarshal` stores in an `interface{}`: a string as its bytes, a number as
the `float64` it converts to, a boolean, or nil. -/
inductive JsonValue
  | string (b : Bytes)
  | float64 (f : Int)
  | bool (b : Bool)
  | null
  deriving DecidableEq, Repr

/-- `literalStore` into an `interface{}`: the value the bytes start with, and the bytes
after it.  An object or an array inside a document is left out. -/
def literalStore : Bytes → Except String (JsonValue × Bytes)
  | [] => .error "unexpected end of JSON input"
  | c :: s =>
    if c = 34 then (unquoteBytes s.length s).map fun r => (.string r.1, r.2)
    else if c = 116 ∧ s.take 3 = [114, 117, 101] then .ok (.bool true, s.drop 3)
    else if c = 102 ∧ s.take 4 = [97, 108, 115, 101] then .ok (.bool false, s.drop 4)
    else if c = 110 ∧ s.take 3 = [117, 108, 108] then .ok (.null, s.drop 3)
    else if c = 123 ∨ c = 91 then .error "an object or an array inside a document is left out"
    else (convertNumber (c :: s)).map fun r => (.float64 r.1, r.2)

/-- `SetMapIndex` on a map held as its entries: the entry in place of any under its key. -/
def setMapIndex (m : List (Bytes × JsonValue)) (key : Bytes) (v : JsonValue) :
    List (Bytes × JsonValue) :=
  (key, v) :: m.filter fun p => p.1 ≠ key

/-- The byte `b` after white space, and the bytes after it. -/
def expectByte (b : UInt8) (err : String) (data : Bytes) : Except String Bytes :=
  match skipSpace data with
  | c :: s => if c = b then .ok s else .error err
  | [] => .error "unexpected end of JSON input"

/-- `object` on a map, after its `{` and a member: each key, its `:` and its value, stored
into the map, up to the closing `}`.  The fuel bounds the members. -/
def object : Nat → Bytes → List (Bytes × JsonValue) →
    Except String (List (Bytes × JsonValue) × Bytes)
  | 0, _, _ => .error "unexpected end of JSON input"
  | fuel + 1, data, m => do
    let s ← expectByte 34 "invalid character looking for beginning of object key string" data
    let (key, s) ← unquoteBytes s.length s
    let s ← expectByte 58 "invalid character after object key" s
    let (v, s) ← literalStore (skipSpace s)
    match skipSpace s with
    | c :: s =>
      if c = 44 then object fuel s (setMapIndex m key v)
      else if c = 125 then .ok (setMapIndex m key v, s)
      else .error "invalid character after object key:value pair"
    | [] => .error "unexpected end of JSON input"

/-- `bsonToDocument`, that is `json.Unmarshal` into a `Document`: `null` is a nil map and an
object the map of its members; any other value, and bytes that are not one JSON value, an
error. -/
def bsonToDocument (data : Bytes) : Except String (Option (List (Bytes × JsonValue))) :=
  match skipSpace data with
  | c :: s =>
    if c = 123 then do
      let (m, rest) ← if (skipSpace s).head? = some 125 then .ok ([], (skipSpace s).drop 1)
        else object s.length s []
      if skipSpace rest = [] then .ok (some m) else .error "invalid character after top-level value"
    else if c = 110 ∧ s.take 3 = [117, 108, 108] then
      if skipSpace (s.drop 3) = [] then .ok none else .error "invalid character after top-level value"
    else .error "json: cannot unmarshal into Go value of type Document"
  | [] => .error "unexpected end of JSON input"

/-! ### What `json.Unmarshal` gives back -/

/-- The value `json.Unmarshal` gives back for one `json.Marshal` wrote: a string as its bytes
and an integer as the nearest `float64`; none for a value `json.Marshal` rejects, or an
integer past the largest `float64`. -/
def Value.unmarshal : Value → Option JsonValue
  | .string s => some (.string (stringBytes s))
  | .int n => (roundFloat64 n.natAbs).map fun f : Nat => .float64 (if n < 0 then -(f : Int) else f)
  | .bool b => some (.bool b)
  | .null => some .null
  | .unsupported _ => none

/-- A field as `json.Unmarshal` reads it back: its name's bytes and its value. -/
def unmarshalField (f : String × Value) : Option (Bytes × JsonValue) :=
  f.2.unmarshal.map fun j => (stringBytes f.1, j)

/-- What `json.Unmarshal` gives back for a document: nil for a nil map, and for a map its
fields as they read back. -/
def unmarshalDocument (doc : Document) : Option (List (Bytes × JsonValue)) :=
  doc.map fun fields => fields.filterMap unmarshalField

/-- A document a Go program holds: a nil map, or a map, its names distinct, whose integers
are 64-bit. -/
def goMap : Document → Bool
  | none => true
  | some fields => (fields.map Prod.fst).Nodup && fields.all fun f =>
      match f.2 with
      | .int n => n.natAbs < 2 ^ 64
      | _ => true

/-- The integers of the fields are 64-bit, as Go's are. -/
def Ints64 (fields : List (String × Value)) : Prop :=
  ∀ f ∈ fields, ∀ n, f.2 = .int n → n.natAbs < 2 ^ 64

theorem goMap_some {fields : List (String × Value)} :
    goMap (some fields) = true ↔ (fields.map Prod.fst).Nodup ∧ Ints64 fields := by
  simp only [goMap, Bool.and_eq_true, decide_eq_true_eq, List.all_eq_true]
  refine and_congr_right fun _ => forall₂_congr fun f _ => ?_
  cases f.2 <;> simp

/-! ### Strings read back -/

/-- The byte of each hex digit `hex4` writes, read back by `hexValue`. -/
theorem hexDigit_bytes (d : Nat) (h : d < 16) :
    ∃ b, String.utf8EncodeChar (RecordId.hexDigit d) = [b] ∧ hexValue b = some d := by
  have hall : ∀ d < 16, (String.utf8EncodeChar (RecordId.hexDigit d)).map hexValue = [some d] := by
    decide
  have h1 := hall d h
  generalize String.utf8EncodeChar (RecordId.hexDigit d) = l at h1
  rcases l with _ | ⟨b, _ | ⟨b', l⟩⟩
  · simp at h1
  · exact ⟨b, rfl, by simpa using h1⟩
  · simp at h1

/-- `getu4` reads back the code `hex4` writes. -/
theorem getu4_hex4 (n : Nat) (h : n < 65536) (more : Bytes) :
    getu4 (92 :: 117 :: (stringBytes ⟨hex4 n⟩ ++ more)) = some n := by
  obtain ⟨a, ha, hva⟩ := hexDigit_bytes (n / 4096 % 16) (Nat.mod_lt _ (by decide))
  obtain ⟨b, hb, hvb⟩ := hexDigit_bytes (n / 256 % 16) (Nat.mod_lt _ (by decide))
  obtain ⟨c, hc, hvc⟩ := hexDigit_bytes (n / 16 % 16) (Nat.mod_lt _ (by decide))
  obtain ⟨d, hd, hvd⟩ := hexDigit_bytes (n % 16) (Nat.mod_lt _ (by decide))
  simp only [hex4, Bsoncore.stringBytes_cons, Bsoncore.stringBytes_nil, ha, hb, hc, hd,
    List.singleton_append, List.nil_append, List.append_nil, List.cons_append]
  simp [getu4, hva, hvb, hvc, hvd]
  omega

theorem hex4_length (n : Nat) : (stringBytes ⟨hex4 n⟩).length = 4 := by
  obtain ⟨a, ha, -⟩ := hexDigit_bytes (n / 4096 % 16) (Nat.mod_lt _ (by decide))
  obtain ⟨b, hb, -⟩ := hexDigit_bytes (n / 256 % 16) (Nat.mod_lt _ (by decide))
  obtain ⟨c, hc, -⟩ := hexDigit_bytes (n / 16 % 16) (Nat.mod_lt _ (by decide))
  obtain ⟨d, hd, -⟩ := hexDigit_bytes (n % 16) (Nat.mod_lt _ (by decide))
  simp only [hex4, Bsoncore.stringBytes_cons, Bsoncore.stringBytes_nil, ha, hb, hc, hd]
  rfl

/-- One step of `unquoteBytes` on a byte that is neither a quote, a backslash nor a control
character. -/
theorem unquoteBytes_plain {fuel : Nat} {b : UInt8} {s : Bytes} (h34 : b.toNat ≠ 34)
    (h92 : b.toNat ≠ 92) (h32 : 32 ≤ b.toNat) :
    unquoteBytes (fuel + 1) (b :: s) =
      if b.toNat < 128 then (unquoteBytes fuel s).map fun r => (b :: r.1, r.2)
      else match decodeRune b s with
        | some n => (unquoteBytes fuel (s.drop (n - 1))).map fun r => (b :: s.take (n - 1) ++ r.1, r.2)
        | none => (unquoteBytes fuel s).map fun r => (encodeRune 0xFFFD ++ r.1, r.2) := by
  have hb34 : b ≠ 34 := fun h => h34 (by rw [h]; rfl)
  have hb92 : b ≠ 92 := fun h => h92 (by rw [h]; rfl)
  rw [unquoteBytes.eq_def]
  dsimp only
  rw [if_neg hb34, if_neg hb92, if_neg (by omega)]

/-- `unquoteBytes` reads back one character as `encoding/json` escapes it, in one step. -/
theorem unquoteBytes_jsonEscape (c : Char) (fuel : Nat) (more : Bytes) :
    unquoteBytes (fuel + 1) (stringBytes ⟨jsonEscape c⟩ ++ more) =
      (unquoteBytes fuel more).map fun r => (String.utf8EncodeChar c ++ r.1, r.2) := by
  unfold jsonEscape
  dsimp only
  by_cases hq : c.toNat = 34 ∨ c.toNat = 92
  · rw [if_pos hq]
    rcases hq with hq | hq <;>
    · have hc := Char.ofNat_toNat c
      rw [hq] at hc
      subst hc
      rfl
  rw [if_neg hq]
  by_cases hn : c = '\n'
  · subst hn; rfl
  rw [if_neg hn]
  by_cases hr : c = '\r'
  · subst hr; rfl
  rw [if_neg hr]
  by_cases ht : c = '\t'
  · subst ht; rfl
  rw [if_neg ht]
  by_cases hu : c.toNat < 32 ∨ c = '<' ∨ c = '>' ∨ c = '&' ∨ c.toNat = 0x2028 ∨ c.toNat = 0x2029
  · rw [if_pos hu]
    have hlt : c.toNat < 0x2030 := by
      rcases hu with hu | rfl | rfl | rfl | hu | hu <;> first | omega | decide
    have hget := getu4_hex4 c.toNat (by omega) more
    have hsur : isSurrogate c.toNat = false := by simp only [isSurrogate]; simp; omega
    show unquoteBytes (fuel + 1) (92 :: 117 :: (stringBytes ⟨hex4 c.toNat⟩ ++ more)) = _
    rw [unquoteBytes.eq_def]
    dsimp only
    rw [if_neg (by decide), if_pos rfl]
    simp only [show escapeByte 117 = none from rfl, hget, hsur, Bool.false_eq_true, if_false,
      List.drop_succ_cons, List.drop_left' (hex4_length c.toNat), encodeRune_toNat]
  rw [if_neg hu]
  simp only [Bsoncore.stringBytes_cons, Bsoncore.stringBytes_nil, List.append_nil]
  by_cases ha : c.toNat < 128
  · obtain ⟨hc, hb⟩ := utf8EncodeChar_ascii c ha
    rw [hc, List.singleton_append, unquoteBytes_plain (by omega) (by omega) (by omega), if_pos (by omega)]
    rfl
  obtain ⟨b0, tail, hc, hb0, hdec⟩ := decodeRune_utf8EncodeChar c (by omega) more
  rw [hc, List.cons_append, unquoteBytes_plain (by omega) (by omega) (by omega), if_neg (by omega), hdec]
  simp only [Nat.add_sub_cancel, List.drop_left, List.take_left, List.cons_append]

/-- `unquoteBytes` reads back a string as `jsonQuote` writes it, from after its opening
quote, whatever follows it, given a step for each character and one for the closing quote. -/
theorem unquoteBytes_jsonQuote (rest : Bytes) :
    ∀ (cs : List Char) (fuel : Nat), cs.length < fuel →
      unquoteBytes fuel (stringBytes ⟨cs.flatMap jsonEscape ++ [Char.ofNat 34]⟩ ++ rest) =
        .ok (stringBytes ⟨cs⟩, rest)
  | [], fuel + 1, _ => by
    show unquoteBytes (fuel + 1) (34 :: rest) = _
    rw [unquoteBytes.eq_def]
    dsimp only
    rw [if_pos rfl]
    rfl
  | c :: cs, fuel + 1, hfuel => by
    rw [List.flatMap_cons, List.append_assoc, stringBytes_append, List.append_assoc,
      unquoteBytes_jsonEscape, unquoteBytes_jsonQuote rest cs fuel (by simpa using hfuel)]
    rfl

theorem jsonEscape_ne_nil (c : Char) : jsonEscape c ≠ [] := by
  unfold jsonEscape
  split_ifs <;> exact List.cons_ne_nil _ _

theorem length_le_flatMap_jsonEscape : ∀ l : List Char, l.length ≤ (l.flatMap jsonEscape).length
  | [] => le_rfl
  | c :: l => by
    rw [List.flatMap_cons, List.length_append, List.length_cons]
    have := List.length_pos.mpr (jsonEscape_ne_nil c)
    have := length_le_flatMap_jsonEscape l
    omega

/-- `unquoteBytes`, with the fuel `literalStore` and `object` give it, reads back a string
`jsonQuote` wrote. -/
theorem unquoteBytes_jsonQuote_length (s : String) (rest : Bytes) :
    unquoteBytes (stringBytes ⟨s.data.flatMap jsonEscape ++ [Char.ofNat 34]⟩ ++ rest).length
      (stringBytes ⟨s.data.flatMap jsonEscape ++ [Char.ofNat 34]⟩ ++ rest) = .ok (stringBytes s, rest) := by
  have hlen := length_le_flatMap_jsonEscape s.data
  have hlen' := length_le_stringBytes (s.data.flatMap jsonEscape ++ [Char.ofNat 34])
  simp only [List.length_append, List.length_singleton] at hlen'
  exact unquoteBytes_jsonQuote rest s.data _ (by rw [List.length_append]; omega)

/-! ### Integers read back -/

theorem digitChar_toNat : ∀ d < 10, (Nat.digitChar d).toNat = 48 + d := by decide

/-- The digits `Nat.toDigits` puts before `ds`: decimal digits spelling the number, the first
`0` only for zero, alone. -/
theorem toDigitsCore_spec : ∀ (fuel n : Nat) (ds : List Char), n < fuel →
    ∃ l, Nat.toDigitsCore 10 fuel n ds = l ++ ds ∧ l ≠ [] ∧ (∀ c ∈ l, 48 ≤ c.toNat ∧ c.toNat ≤ 57) ∧
      (∀ c ∈ l.head?, c.toNat = 48 → n = 0 ∧ l.length = 1) ∧
      l.foldl (fun a c => a * 10 + (c.toNat - 48)) 0 = n
  | 0, _, _, h => absurd h (Nat.not_lt_zero _)
  | fuel + 1, n, ds, h => by
    have hd := digitChar_toNat (n % 10) (Nat.mod_lt _ (by decide))
    have hstep : Nat.toDigitsCore 10 (fuel + 1) n ds = if n / 10 = 0 then Nat.digitChar (n % 10) :: ds
        else Nat.toDigitsCore 10 fuel (n / 10) (Nat.digitChar (n % 10) :: ds) := rfl
    rw [hstep]
    by_cases hn : n / 10 = 0
    · rw [if_pos hn]
      refine ⟨[Nat.digitChar (n % 10)], rfl, List.cons_ne_nil _ _, ?_, ?_, ?_⟩
      · simp only [List.mem_singleton]
        rintro c rfl
        omega
      · simp only [List.head?_cons, Option.mem_def, Option.some.injEq]
        rintro c rfl h0
        exact ⟨by omega, rfl⟩
      · simp only [List.foldl_cons, List.foldl_nil]
        omega
    · rw [if_neg hn]
      obtain ⟨l, hl, hne, hdig, hhead, hval⟩ := toDigitsCore_spec fuel (n / 10) _ (by omega)
      obtain ⟨c0, l', rfl⟩ := List.exists_cons_of_ne_nil hne
      refine ⟨c0 :: l' ++ [Nat.digitChar (n % 10)], by rw [hl, List.append_assoc, List.singleton_append],
        by simp, ?_, ?_, ?_⟩
      · simp only [List.mem_append, List.mem_singleton]
        rintro c (hc | rfl)
        exacts [hdig c hc, by omega]
      · simp only [List.cons_append, List.head?_cons, Option.mem_def, Option.some.injEq]
        rintro _ rfl h0
        exact absurd (hhead c0 rfl h0).1 hn
      · rw [List.foldl_append, hval]
        simp only [List.foldl_cons, List.foldl_nil]
        omega

/-- The bytes `Nat.repr` writes: a digit, `0` only for zero and then alone, and more digits,
whose value is the number. -/
theorem repr_bytes (m : Nat) : ∃ d ds, stringBytes (Nat.repr m) = d :: ds ∧ isDigit d = true ∧
    ds.all isDigit = true ∧ (d = 48 → m = 0 ∧ ds = []) ∧ digitsValue (d :: ds) = m := by
  obtain ⟨l, hl, hne, hdig, hhead, hval⟩ := toDigitsCore_spec (m + 1) m [] (Nat.lt_succ_self m)
  rw [List.append_nil] at hl
  have hrepr : stringBytes (Nat.repr m) = l.map fun c => c.val.toUInt8 := by
    show stringBytes ⟨Nat.toDigitsCore 10 (m + 1) m []⟩ = _
    rw [hl, stringBytes_ascii l fun c hc => by have := hdig c hc; omega]
  have hbyte : ∀ c ∈ l, c.val.toUInt8.toNat = c.toNat := fun c hc =>
    (utf8EncodeChar_ascii c (by have := hdig c hc; omega)).2
  obtain ⟨c0, l', rfl⟩ := List.exists_cons_of_ne_nil hne
  have hd0 := hdig c0 (List.mem_cons_self _ _)
  have hb0 := hbyte c0 (List.mem_cons_self _ _)
  refine ⟨c0.val.toUInt8, l'.map fun c => c.val.toUInt8, hrepr.trans (List.map_cons _ _ _), ?_, ?_,
    fun h48 => ?_, ?_⟩
  · simp only [isDigit, hb0]
    simp; omega
  · refine List.all_eq_true.mpr fun b hb => ?_
    obtain ⟨c, hc, rfl⟩ := List.mem_map.mp hb
    have := hdig c (List.mem_cons_of_mem _ hc)
    simp only [isDigit, hbyte c (List.mem_cons_of_mem _ hc)]
    simp; omega
  · have := hhead c0 rfl (by rw [← hb0, h48]; rfl)
    refine ⟨this.1, ?_⟩
    have hl' : l'.length = 0 := by simpa using this.2
    simp [List.length_eq_zero.mp hl']
  · show ((c0 :: l').map fun c => c.val.toUInt8).foldl _ 0 = _
    rw [List.foldl_map, ← hval]
    exact List.foldl_ext _ _ _ fun a c hc => by rw [hbyte c hc]

theorem takeWhile_dropWhile_digits {rest : Bytes} (hrest : ∀ b ∈ rest.head?, isDigit b = false) :
    ∀ ds : Bytes, ds.all isDigit = true →
      (ds ++ rest).takeWhile isDigit = ds ∧ (ds ++ rest).dropWhile isDigit = rest
  | [], _ => by
    cases rest with
    | nil => exact ⟨rfl, rfl⟩
    | cons b rest => simp [List.takeWhile, List.dropWhile, hrest b rfl]
  | d :: ds, h => by
    simp only [List.all_cons, Bool.and_eq_true] at h
    obtain ⟨ih1, ih2⟩ := takeWhile_dropWhile_digits hrest ds h.2
    simp [List.takeWhile, List.dropWhile, h.1, ih1, ih2]

/-- The integer part reads back the digits `Nat.repr` writes, up to a byte that is no digit. -/
theorem intPart_repr (m : Nat) {rest : Bytes} (hrest : ∀ b ∈ rest.head?, isDigit b = false) :
    intPart (stringBytes (Nat.repr m) ++ rest) = some (m, rest) := by
  obtain ⟨d, ds, hm, hd, hds, h48, hval⟩ := repr_bytes m
  rw [hm, List.cons_append, intPart]
  by_cases hz : d = 48
  · obtain ⟨rfl, rfl⟩ := h48 hz
    rw [if_pos hz]
    rfl
  obtain ⟨htake, hdrop⟩ := takeWhile_dropWhile_digits hrest ds hds
  rw [if_neg hz, if_pos hd, htake, hdrop, hval]

/-- The bytes after a member's value: a `,` or the object's `}`. -/
def AfterValue (rest : Bytes) : Prop := rest.head? = some 44 ∨ rest.head? = some 125

theorem AfterValue.not_digit {rest : Bytes} (h : AfterValue rest) :
    ∀ b ∈ rest.head?, isDigit b = false := by
  rintro b hb
  rcases h with h | h <;> rw [h] at hb <;> cases hb <;> rfl

theorem AfterValue.not_fraction {rest : Bytes} (h : AfterValue rest) :
    ¬ (rest.head? = some 46 ∨ rest.head? = some 101 ∨ rest.head? = some 69) := by
  rcases h with h | h <;> rw [h] <;> decide

theorem convertDigits_repr (m : Nat) {f : Nat} (hf : roundFloat64 m = some f) {rest : Bytes}
    (hrest : AfterValue rest) : convertDigits (stringBytes (Nat.repr m) ++ rest) = .ok (f, rest) := by
  rw [convertDigits, intPart_repr m hrest.not_digit]
  dsimp only
  rw [if_neg hrest.not_fraction, hf]

/-- `convertNumber` reads back the integer `Int.repr` writes as the `float64` nearest to it. -/
theorem convertNumber_repr (n : Int) {f : Nat} (hf : roundFloat64 n.natAbs = some f) {rest : Bytes}
    (hrest : AfterValue rest) :
    convertNumber (stringBytes (Int.repr n) ++ rest) = .ok (if n < 0 then -(f : Int) else f, rest) := by
  cases n with
  | ofNat m =>
    obtain ⟨d, ds, hm, hd, -⟩ := repr_bytes m
    have hd45 : d ≠ 45 := fun h => by rw [h] at hd; cases hd
    show convertNumber (stringBytes (Nat.repr m) ++ rest) = _
    rw [hm, List.cons_append, convertNumber, if_neg hd45, ← List.cons_append, ← hm,
      convertDigits_repr m hf hrest, if_neg (show ¬ Int.ofNat m < 0 from Int.not_lt.mpr (Int.ofNat_zero_le m))]
    rfl
  | negSucc m =>
    show convertNumber (stringBytes ("-" ++ Nat.repr (m + 1)) ++ rest) = _
    rw [show stringBytes ("-" ++ Nat.repr (m + 1)) = 45 :: stringBytes (Nat.repr (m + 1)) from
      stringBytes_append _ _, List.cons_append, convertNumber, if_pos rfl,
      convertDigits_repr (m + 1) hf hrest, if_pos (Int.negSucc_lt_zero m)]
    rfl

/-- An integer below `2^53` is a `float64`. -/
theorem roundFloat64_of_lt {n : Nat} (h : n < 2 ^ 53) : roundFloat64 n = some n := if_pos h

/-- So an integer of at most 53 bits reads back as the same number. -/
theorem unmarshal_int_of_lt {n : Int} (h : n.natAbs < 2 ^ 53) :
    (Value.int n).unmarshal = some (.float64 n) := by
  rw [Value.unmarshal, roundFloat64_of_lt h, Option.map_some']
  congr 2
  split_ifs <;> omega

/-- Every Go integer, below `2^64`, rounds to a finite `float64`. -/
theorem roundFloat64_of_lt_two_pow_64 {n : Nat} (h : n < 2 ^ 64) : ∃ f, roundFloat64 n = some f := by
  by_cases h53 : n < 2 ^ 53
  · exact ⟨n, roundFloat64_of_lt h53⟩
  rw [roundFloat64, if_neg h53]
  dsimp only
  generalize hs : Nat.log2 n - 52 = s
  have hs11 : s ≤ 11 := by
    have := (Nat.log2_lt (show n ≠ 0 by omega) (k := 64)).mpr h
    omega
  have hp : 2 ^ s ≤ 2 ^ 11 := Nat.pow_le_pow_right (by decide) hs11
  have hq : n / 2 ^ s * 2 ^ s ≤ n := Nat.div_mul_le_self _ _
  refine ⟨_, if_pos ?_⟩
  calc (if 2 ^ (s - 1) < n % 2 ^ s ∨ (n % 2 ^ s = 2 ^ (s - 1) ∧ n / 2 ^ s % 2 = 1) then
          n / 2 ^ s + 1 else n / 2 ^ s) * 2 ^ s
      ≤ (n / 2 ^ s + 1) * 2 ^ s := Nat.mul_le_mul_right _ (by split_ifs <;> omega)
    _ = n / 2 ^ s * 2 ^ s + 2 ^ s := Nat.succ_mul _ _
    _ < 2 ^ 1024 := by omega

/-- The first byte of an integer `Int.repr` writes: its sign or a digit. -/
theorem repr_head (n : Int) : ∃ c s, stringBytes (Int.repr n) = c :: s ∧ (c = 45 ∨ isDigit c = true) := by
  cases n with
  | ofNat m =>
    obtain ⟨d, ds, hm, hd, -⟩ := repr_bytes m
    exact ⟨d, ds, hm, .inr hd⟩
  | negSucc m => exact ⟨45, _, stringBytes_append _ _, .inl rfl⟩

/-! ### Values read back -/

/-- A value `json.Marshal` writes reads back, unless it is an integer past 64 bits. -/
theorem unmarshal_isSome {v : Value} {cs : List Char} (h : encodeValue v = .ok cs)
    (hint : ∀ n, v = .int n → n.natAbs < 2 ^ 64) : v.unmarshal.isSome := by
  cases v with
  | int n =>
    obtain ⟨f, hf⟩ := roundFloat64_of_lt_two_pow_64 (hint n rfl)
    simp [Value.unmarshal, hf]
  | unsupported => cases h
  | _ => rfl

theorem isSpace_eq_false {c : UInt8} (h : 33 ≤ c.toNat) : isSpace c = false := by
  have hne : ∀ n : UInt8, n.toNat < 33 → c ≠ n := fun n hn hc => by rw [hc] at h; omega
  simp [isSpace, hne 32 (by decide), hne 9 (by decide), hne 10 (by decide), hne 13 (by decide)]

theorem skipSpace_cons {c : UInt8} (h : 33 ≤ c.toNat) (s : Bytes) : skipSpace (c :: s) = c :: s := by
  simp [skipSpace, isSpace_eq_false h]

/-- Every value `json.Marshal` writes starts with a byte that is not white space. -/
theorem encodeValue_head {v : Value} {cs : List Char} (h : encodeValue v = .ok cs) :
    ∃ c s, stringBytes ⟨cs⟩ = c :: s ∧ 33 ≤ c.toNat := by
  cases v with
  | string s => cases h; exact ⟨34, _, rfl, by decide⟩
  | int n =>
    cases h
    obtain ⟨c, s, hcs, hc⟩ := repr_head n
    refine ⟨c, s, hcs, ?_⟩
    rcases hc with rfl | hc
    · decide
    · simp only [isDigit, Bool.and_eq_true, decide_eq_true_eq] at hc
      omega
  | bool b => cases h; cases b <;> exact ⟨_, _, rfl, by decide⟩
  | null => cases h; exact ⟨_, _, rfl, by decide⟩
  | unsupported => cases h

theorem skipSpace_encodeValue {v : Value} {cs : List Char} (h : encodeValue v = .ok cs) (rest : Bytes) :
    skipSpace (stringBytes ⟨cs⟩ ++ rest) = stringBytes ⟨cs⟩ ++ rest := by
  obtain ⟨c, s, hcs, hc⟩ := encodeValue_head h
  rw [hcs, List.cons_append, skipSpace_cons hc]

/-- `literalStore` reads back each value as `json.Marshal` writes it, before a `,` or a `}`. -/
theorem literalStore_encodeValue {v : Value} {cs : List Char} (h : encodeValue v = .ok cs)
    {j : JsonValue} (hj : v.unmarshal = some j) {rest : Bytes} (hrest : AfterValue rest) :
    literalStore (stringBytes ⟨cs⟩ ++ rest) = .ok (j, rest) := by
  cases v with
  | string s =>
    cases h
    cases hj
    rw [jsonQuote, List.cons_append, Bsoncore.stringBytes_cons,
      show String.utf8EncodeChar (Char.ofNat 34) = [34] from rfl, List.singleton_append,
      List.cons_append, literalStore, if_pos rfl, unquoteBytes_jsonQuote_length]
    rfl
  | int n =>
    cases h
    obtain ⟨f, hf, rfl⟩ := Option.map_eq_some'.mp hj
    obtain ⟨c, s, hcs, hc⟩ := repr_head n
    have hnot : ∀ k : UInt8, isDigit k = false → k ≠ 45 → c ≠ k := by
      rintro k hk h45 rfl
      rcases hc with hc | hc
      · exact h45 hc
      · rw [hk] at hc; cases hc
    show literalStore (stringBytes (Int.repr n) ++ rest) = _
    rw [hcs, List.cons_append, literalStore, if_neg (hnot 34 rfl (by decide)),
      if_neg fun h => hnot 116 rfl (by decide) h.1, if_neg fun h => hnot 102 rfl (by decide) h.1,
      if_neg fun h => hnot 110 rfl (by decide) h.1,
      if_neg fun h => h.elim (hnot 123 rfl (by decide)) (hnot 91 rfl (by decide)),
      ← List.cons_append, ← hcs, convertNumber_repr n hf hrest]
    rfl
  | bool b =>
    cases h
    cases hj
    cases b <;> rfl
  | null =>
    cases h
    cases hj
    rfl
  | unsupported e => cases h

/-! ### Documents read back -/

theorem except_bind_eq_ok {ε α β : Type} {x : Except ε α} {f : α → Except ε β} {b : β} :
    x >>= f = .ok b ↔ ∃ a, x = .ok a ∧ f a = .ok b := by
  cases x <;> simp [bind, Except.bind]

theorem mapM_eq_ok {ε α β : Type} {f : α → Except ε β} :
    ∀ {l : List α} {r : List β}, l.mapM f = .ok r → List.Forall₂ (fun a b => f a = .ok b) l r
  | [], r, h => by cases h; exact .nil
  | a :: l, r, h => by
    rw [List.mapM_cons] at h
    obtain ⟨b, hb, h⟩ := except_bind_eq_ok.mp h
    obtain ⟨bs, hbs, h⟩ := except_bind_eq_ok.mp h
    cases h
    exact .cons hb (mapM_eq_ok hbs)

theorem expectByte_cons (b : UInt8) (h : 33 ≤ b.toNat) (err : String) (s : Bytes) :
    expectByte b err (b :: s) = .ok s := by
  simp [expectByte, skipSpace_cons h]

/-- `f` is written as the member `p`: its name's string literal, a `:`, and its value. -/
def MemberOf (f : String × Value) (p : List Char) : Prop :=
  ∃ v, encodeValue f.2 = .ok v ∧ p = jsonQuote f.1 ++ [':'] ++ v

/-- `object` reads one member `json.Marshal` wrote, up to the `,` or `}` after it. -/
theorem object_member {k : String} {val : Value} {v : List Char} (hv : encodeValue val = .ok v)
    {j : JsonValue} (hj : val.unmarshal = some j) {sep : UInt8} (hsep : sep = 44 ∨ sep = 125)
    (fuel : Nat) (m : List (Bytes × JsonValue)) (rest : Bytes) :
    object (fuel + 1) (stringBytes ⟨jsonQuote k ++ [':'] ++ v⟩ ++ sep :: rest) m =
      if sep = 44 then object fuel rest (setMapIndex m (stringBytes k) j)
      else .ok (setMapIndex m (stringBytes k) j, rest) := by
  have hafter : AfterValue (sep :: rest) := hsep.imp (congrArg some) (congrArg some)
  have hsep33 : 33 ≤ sep.toNat := by rcases hsep with rfl | rfl <;> decide
  have hdata : stringBytes ⟨jsonQuote k ++ [':'] ++ v⟩ ++ sep :: rest =
      34 :: (stringBytes ⟨k.data.flatMap jsonEscape ++ [Char.ofNat 34]⟩ ++
        58 :: (stringBytes ⟨v⟩ ++ sep :: rest)) := by
    simp only [jsonQuote, stringBytes_append, List.cons_append, Bsoncore.stringBytes_cons,
      List.append_assoc]
    rfl
  rw [hdata, object, expectByte_cons 34 (by decide)]
  simp only [bind, Except.bind, unquoteBytes_jsonQuote_length, expectByte_cons 58 (by decide),
    skipSpace_encodeValue hv, literalStore_encodeValue hv hj hafter, skipSpace_cons hsep33]
  rcases hsep with rfl | rfl <;> rfl

theorem intercalate_cons_cons (p q : List Char) (qs : List (List Char)) :
    List.intercalate [','] (p :: q :: qs) = p ++ ',' :: List.intercalate [','] (q :: qs) := by
  simp [List.intercalate, List.intersperse]

/-- `object` reads the members `json.Marshal` wrote for a document's fields, up to the
closing `}`: the map it builds stores each field in turn by `SetMapIndex`. -/
theorem object_fields {fs : List (String × Value)} {ps : List (List Char)}
    (hps : List.Forall₂ MemberOf fs ps) (hint : Ints64 fs) (hne : ps ≠ [])
    (m : List (Bytes × JsonValue)) (rest : Bytes) {fuel : Nat}
    (hfuel : (stringBytes ⟨List.intercalate [','] ps ++ [Char.ofNat 125]⟩ ++ rest).length ≤ fuel) :
    object fuel (stringBytes ⟨List.intercalate [','] ps ++ [Char.ofNat 125]⟩ ++ rest) m =
      .ok ((fs.filterMap unmarshalField).foldl (fun m q => setMapIndex m q.1 q.2) m, rest) := by
  induction hps generalizing m fuel with
  | nil => exact absurd rfl hne
  | @cons f p fs ps hp hps ih =>
    obtain ⟨v, hv, rfl⟩ := hp
    obtain ⟨j, hj⟩ :=
      Option.isSome_iff_exists.mp (unmarshal_isSome hv (hint f (List.mem_cons_self _ _)))
    have hf : unmarshalField f = some (stringBytes f.1, j) := by simp [unmarshalField, hj]
    rw [List.filterMap_cons_some hf, List.foldl_cons]
    cases hps with
    | nil =>
      have hdata : stringBytes ⟨List.intercalate [','] [jsonQuote f.1 ++ [':'] ++ v] ++
          [Char.ofNat 125]⟩ ++ rest = stringBytes ⟨jsonQuote f.1 ++ [':'] ++ v⟩ ++ 125 :: rest := by
        simp [List.intercalate, stringBytes_append]
        rfl
      rw [hdata] at hfuel ⊢
      cases fuel with
      | zero => simp at hfuel
      | succ fuel => rw [object_member hv hj (.inr rfl)]; rfl
    | @cons g q gs qs hq hqs =>
      have hdata : stringBytes ⟨List.intercalate [','] ((jsonQuote f.1 ++ [':'] ++ v) :: q :: qs) ++
          [Char.ofNat 125]⟩ ++ rest = stringBytes ⟨jsonQuote f.1 ++ [':'] ++ v⟩ ++ 44 ::
            (stringBytes ⟨List.intercalate [','] (q :: qs) ++ [Char.ofNat 125]⟩ ++ rest) := by
        rw [intercalate_cons_cons, List.append_assoc, stringBytes_append, List.cons_append,
          Bsoncore.stringBytes_cons, List.append_assoc]
        rfl
      rw [hdata] at hfuel ⊢
      cases fuel with
      | zero => simp at hfuel
      | succ fuel =>
        rw [object_member hv hj (.inl rfl), if_pos rfl]
        exact ih (fun f hf => hint f (List.mem_cons_of_mem _ hf)) (List.cons_ne_nil _ _) _
          (by simp only [List.length_append, List.length_cons] at hfuel ⊢; omega)

/-- Storing entries under distinct keys, none of them already in the map, puts them in front
of it, the last first. -/
theorem foldl_setMapIndex : ∀ {qs m : List (Bytes × JsonValue)},
    (qs.map Prod.fst).Nodup → (∀ q ∈ qs, ∀ p ∈ m, p.1 ≠ q.1) →
      qs.foldl (fun m q => setMapIndex m q.1 q.2) m = qs.reverse ++ m
  | [], _, _, _ => rfl
  | q :: qs, m, hnd, hdis => by
    rw [List.map_cons, List.nodup_cons] at hnd
    have hset : setMapIndex m q.1 q.2 = q :: m := by
      rw [setMapIndex, List.filter_eq_self.mpr fun p hp => by
        simpa using hdis q (List.mem_cons_self _ _) p hp]
    have hdis' : ∀ r ∈ qs, ∀ p ∈ q :: m, p.1 ≠ r.1 := by
      rintro r hr p hp
      rcases List.mem_cons.mp hp with rfl | hp
      · exact fun h => hnd.1 (h ▸ List.mem_map_of_mem _ hr)
      · exact hdis r (List.mem_cons_of_mem _ hr) p hp
    rw [List.foldl_cons, hset, foldl_setMapIndex hnd.2 hdis', List.reverse_cons, List.append_assoc,
      List.singleton_append]

/-- Fields under distinct names read back under distinct keys. -/
theorem nodup_keys_unmarshal {fields : List (String × Value)} (h : (fields.map Prod.fst).Nodup) :
    ((fields.filterMap unmarshalField).map Prod.fst).Nodup := by
  rw [List.Nodup, List.pairwise_map] at h ⊢
  refine h.filterMap _ fun a b hab q hq r hr hqr => hab (stringBytes_injective ?_)
  obtain ⟨_, -, rfl⟩ := Option.map_eq_some'.mp hq
  obtain ⟨_, -, rfl⟩ := Option.map_eq_some'.mp hr
  exact hqr

theorem intercalate_cons_eq (p : List Char) (ps : List (List Char)) :
    ∃ t, List.intercalate [','] (p :: ps) = p ++ t := by
  cases ps with
  | nil => exact ⟨[], by simp [List.intercalate]⟩
  | cons q qs => exact ⟨_, intercalate_cons_cons p q qs⟩

/-- The fields of a map read back, in some order. -/
theorem bsonToDocument_fields {fields : List (String × Value)} {data : Bytes}
    (h : documentToBSON (some fields) = .ok data) (hkeys : (fields.map Prod.fst).Nodup)
    (hint : Ints64 fields) :
    ∃ m, bsonToDocument data = .ok (some m) ∧ m.Perm (fields.filterMap unmarshalField) := by
  have hperm := List.perm_insertionSort (fun a b : String × Value => a.1 ≤ b.1) fields
  rw [documentToBSON] at h
  generalize fields.insertionSort (fun a b => a.1 ≤ b.1) = sorted at h hperm
  obtain ⟨ps, hps, h⟩ := except_bind_eq_ok.mp h
  cases h
  have hF : List.Forall₂ MemberOf sorted ps := (mapM_eq_ok hps).imp fun f p h => by
    obtain ⟨v, hv, hp⟩ := except_bind_eq_ok.mp h
    exact ⟨v, hv, (Except.ok.inj hp).symm⟩
  cases hF with
  | nil =>
    rw [← hperm.nil_eq]
    exact ⟨[], rfl, .nil⟩
  | @cons f p fs ps hp hps' =>
    obtain ⟨v, hv, rfl⟩ := hp
    obtain ⟨t, ht⟩ := intercalate_cons_eq (jsonQuote f.1 ++ [':'] ++ v) ps
    obtain ⟨X, hX⟩ : ∃ X, stringBytes ⟨List.intercalate [','] ((jsonQuote f.1 ++ [':'] ++ v) :: ps) ++
        [Char.ofNat 125]⟩ = 34 :: X :=
      ⟨_, by rw [ht, jsonQuote]; simp only [List.cons_append, Bsoncore.stringBytes_cons]; rfl⟩
    have hobj := object_fields (.cons ⟨v, hv, rfl⟩ hps') (fun f hf => hint f (hperm.subset hf))
      (List.cons_ne_nil _ _) [] [] le_rfl
    rw [List.append_nil, hX,
      foldl_setMapIndex (nodup_keys_unmarshal ((hperm.map _).nodup_iff.mpr hkeys))
        (fun _ _ _ h => absurd h (List.not_mem_nil _)), List.append_nil] at hobj
    refine ⟨_, ?_, (List.reverse_perm _).trans (hperm.filterMap _)⟩
    rw [List.cons_append, Bsoncore.stringBytes_cons, hX]
    show bsonToDocument (123 :: 34 :: X) = _
    rw [bsonToDocument, skipSpace_cons (by decide)]
    dsimp only
    rw [if_pos rfl, skipSpace_cons (by decide), List.head?_cons, if_neg (by decide), hobj]
    rfl

/-- **`bsonToDocument` reads back what `documentToBSON` writes.**  For every document a Go
program holds whose names and strings are valid UTF-8, `json.Unmarshal` of the bytes
`json.Marshal` writes for it is a nil map for a nil map, and otherwise the map of the same
fields in some order, each name as its bytes and each value as `json.Unmarshal` gives it
back. -/
theorem bsonToDocument_documentToBSON {doc : Document} {data : Bytes}
    (h : documentToBSON doc = .ok data) (hdoc : goMap doc = true) :
    ∃ m, bsonToDocument data = .ok m ∧ Option.Rel List.Perm m (unmarshalDocument doc) := by
  cases doc with
  | none => cases h; exact ⟨none, rfl, .none⟩
  | some fields =>
    obtain ⟨hkeys, hint⟩ := goMap_some.mp hdoc
    obtain ⟨m, hm, hperm⟩ := bsonToDocument_fields h hkeys hint
    exact ⟨some m, hm, .some hperm⟩

theorem escapedField_readBack :
    documentToBSON (some [("s", .string "a\"é<")]) = .ok (stringBytes "\x7b\"s\":\"a\\\"é\\u003c\"\x7d") ∧
      goMap (some [("s", .string "a\"é<")]) = true ∧
      ∃ m, bsonToDocument (stringBytes "\x7b\"s\":\"a\\\"é\\u003c\"\x7d") = .ok m ∧
        Option.Rel List.Perm m (unmarshalDocument (some [("s", .string "a\"é<")])) :=
  have h : documentToBSON (some [("s", .string "a\"é<")]) =
      .ok (stringBytes "\x7b\"s\":\"a\\\"é\\u003c\"\x7d") := rfl
  ⟨h, by decide, bsonToDocument_documentToBSON h (by decide)⟩

end XMongoStorage
