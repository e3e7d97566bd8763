import Immudb.Lib.Bytes

/-!
# `Immudb/Pgsql/Wire.lean` — framing of the PostgreSQL wire protocol

`pkg/pgsql/server/message.go` and `initialize_session.go`. A client opens with the startup
message, its length (four bytes big-endian, counting itself), the protocol version and the
connection parameters, and then sends messages: a type byte, a length of four bytes that counts
itself, and the payload.

The server reads each of these pieces with one `conn.Read` into a buffer of the piece's size and
does not look at how many bytes came. The connection is modelled as the segments the kernel hands
to successive reads (`Conn`): a read takes from the first segment as much as it asks for, and
what it leaves of the segment is read next. Cutting the stream into segments anywhere gives every
behaviour a reader may have that returns at least one byte.

A message whole in one segment is read back as it was sent, with what follows untouched
(`ReadRawMessage_whole`), and messages sent in segments that hold whole messages are read back in
order (`readMessages_whole`). A payload split between two segments is not: the read of the
payload gets the first segment's part and zeros for the rest, and the next message is read from
the middle of this one (`ReadRawMessage_split`). The startup message is read the same way
(`InitializeSession_whole`, `InitializeSession_split`).
-/

set_option autoImplicit false

namespace Immudb.Pgsql

open Bytes

/-- The errors of the pgsql server the model raises, and the runtime panic of an index out of
range. -/
inductive PgError where
  /-- `io.EOF` from the connection or a reader -/
  | EOF
  /-- `ErrUnknowMessageType`, with the byte read -/
  | unknownMessageType (t : UInt8)
  | malformedMessage
  /-- `ErrMessageTooLarge` -/
  | messageTooLarge
  | sslNotSupported
  /-- `ErrInvalidPgsqlProtocolVersion`, with the version read -/
  | invalidProtocolVersion (major minor : Nat)
  | negativeParameterValueLen
  | parametersValueSizeTooLarge
  /-- `strconv.ErrSyntax` and `strconv.ErrRange` of `strconv.Atoi` -/
  | atoiSyntax
  | atoiRange
  /-- the errors of `hex.DecodeString` -/
  | invalidHex
  /-- `cannot convert a slice of %d byte in an INTEGER parameter` -/
  | cannotConvertInteger (len : Nat)
  /-- `portal '%s' already present` -/
  | portalAlreadyPresent (name : List UInt8)
  /-- `statement '%s' not found` -/
  | statementNotFound (name : List UInt8)
  /-- the runtime panic of an index out of range -/
  | indexOutOfRange
  deriving DecidableEq, Repr

/-- `pgmeta.MaxMsgSize`. -/
def MaxMsgSize : Nat := 32 <<< 20

/-- `math.MaxInt32`. -/
def MaxInt32 : Nat := 2 ^ 31 - 1

/-- The keys of `pgmeta.MTypes`: the message types the server knows. -/
def MTypes : List UInt8 :=
  ['Q', 'T', 'D', 'C', 'Z', 'R', 'p', 'U', 'X', 'S', 'E', 'P', 't', 'B', 'H'].map Char.toUInt8

/-! ## 1. The connection -/

/-- A connection: the bytes still to come, in the segments successive reads get. -/
abbrev Conn := List (List UInt8)

/-- What a read leaves of a segment is read first, and an empty rest is no segment. -/
def Conn.putBack (seg : List UInt8) (c : Conn) : Conn := if seg = [] then c else seg :: c

/-- `conn.Read(p)` into a `p` of `n` bytes: the bytes read, at most `n` from the first segment,
and `io.EOF` when nothing is left. A read of no bytes returns at once. -/
def connRead (c : Conn) (n : Nat) : Except PgError (List UInt8 × Conn) :=
  if n = 0 then pure ([], c)
  else
    match c with
    | [] => throw .EOF
    | seg :: rest => pure (seg.take n, Conn.putBack (seg.drop n) rest)

/-- `make([]byte, n)` and one `conn.Read` into it: the bytes read, then zeros. -/
def readInto (c : Conn) (n : Nat) : Except PgError (List UInt8 × Conn) := do
  let (got, c) ← connRead c n
  pure (copyN n got, c)

@[simp] theorem putBack_nil (c : Conn) : Conn.putBack [] c = c := rfl

theorem flatten_putBack (seg : List UInt8) (c : Conn) :
    (Conn.putBack seg c).flatten = seg ++ c.flatten := by
  unfold Conn.putBack
  split_ifs with h
  · simp [h]
  · simp

theorem putBack_cons (x : UInt8) (xs : List UInt8) (c : Conn) :
    Conn.putBack (x :: xs) c = (x :: xs) :: c := rfl

/-- A read of as many bytes as the first segment begins with gets them. -/
theorem readInto_putBack (x more : List UInt8) (c : Conn) :
    readInto (Conn.putBack (x ++ more) c) x.length = pure (x, Conn.putBack more c) := by
  cases x with
  | nil => rfl
  | cons y ys =>
    have hcopy : copyN (ys.length + 1) (y :: ys) = y :: ys := by
      simpa using copyN_append [] (rfl : (y :: ys).length = (y :: ys).length)
    simp only [readInto, connRead, List.cons_append, putBack_cons, List.length_cons,
      Nat.add_one_ne_zero, if_false, List.take_succ_cons, List.drop_succ_cons, List.take_left,
      List.drop_left, pure_bind, hcopy]

/-- A read that asks for more than the first segment holds gets the segment, then zeros. -/
theorem readInto_short {x : List UInt8} {n : Nat} (hx : x ≠ []) (hn : x.length ≤ n) (c : Conn) :
    readInto (x :: c) n = pure (x ++ List.replicate (n - x.length) 0, c) := by
  have hn0 : n ≠ 0 := fun h => hx (List.length_eq_zero_iff.mp (by omega))
  simp only [readInto, connRead, hn0, if_false, List.take_of_length_le hn,
    List.drop_eq_nil_of_le hn, putBack_nil, pure_bind, copyN]

/-! ## 2. `ReadRawMessage` -/

/-- `rawMessage`: the type byte and the payload. -/
structure rawMessage where
  t : UInt8
  payload : List UInt8
  deriving DecidableEq, Repr

/-- A message as a client sends it: its type, its length counting the four bytes of the length,
and the payload. -/
def encodeMessage (m : rawMessage) : List UInt8 := m.t :: be 4 (m.payload.length + 4) ++ m.payload

/-- `messageReader.ReadRawMessage`: a message, each of its pieces read with one `conn.Read`. -/
def ReadRawMessage (c : Conn) : Except PgError (rawMessage × Conn) := do
  let (t, c) ← readInto c 1
  let t := t.headD 0
  if t ∉ MTypes then throw (.unknownMessageType t)
  else do
    let (lb, c) ← readInto c 4
    -- `binary.BigEndian.Uint32(lb) - 4` in `uint32`, which wraps
    let pLen := (ofBE lb + 2 ^ 32 - 4) % 2 ^ 32
    if MaxInt32 < pLen then throw .malformedMessage
    else if MaxMsgSize < pLen then throw .messageTooLarge
    else do
      let (payload, c) ← readInto c pLen
      pure (⟨t, payload⟩, c)

/-- A message the server accepts: a known type, and a payload no longer than `MaxMsgSize`. -/
def rawMessage.Valid (m : rawMessage) : Prop := m.t ∈ MTypes ∧ m.payload.length ≤ MaxMsgSize

/-- The length field of a message gives back the payload's length. -/
theorem payloadLength_be {n : Nat} (hn : n ≤ MaxMsgSize) :
    (ofBE (be 4 (n + 4)) + 2 ^ 32 - 4) % 2 ^ 32 = n := by
  have hlt : n + 4 < 2 ^ (8 * 4) := by
    unfold MaxMsgSize at hn
    norm_num at hn ⊢
    omega
  have hwrap : n + 4 + 2 ^ 32 - 4 = n + 2 ^ 32 := by omega
  rw [ofBE_be, Nat.mod_eq_of_lt hlt, hwrap, Nat.add_mod_right, Nat.mod_eq_of_lt (by omega)]

/-- A message whose type and length come first in the first segment reads as the payload read
after them. -/
theorem ReadRawMessage_of_header {t : UInt8} {pLen : Nat} (ht : t ∈ MTypes)
    (hlen : pLen ≤ MaxMsgSize) (rest : List UInt8) (c : Conn) :
    ReadRawMessage (Conn.putBack (t :: be 4 (pLen + 4) ++ rest) c) =
      (do let (payload, c) ← readInto (Conn.putBack rest c) pLen; pure (⟨t, payload⟩, c)) := by
  have hmax : ¬MaxInt32 < pLen := by
    unfold MaxInt32
    unfold MaxMsgSize at hlen
    norm_num at hlen ⊢
    omega
  have ht₁ := readInto_putBack [t] (be 4 (pLen + 4) ++ rest) c
  have hlb := readInto_putBack (be 4 (pLen + 4)) rest c
  rw [length_be] at hlb
  simp only [List.singleton_append, List.length_singleton] at ht₁
  simp only [List.cons_append, ReadRawMessage, ht₁, List.headD_cons, ht, not_true_eq_false,
    if_false, hlb, payloadLength_be hlen, hmax, Nat.not_lt.mpr hlen, pure_bind]

/-- A message whole in the first segment is read as it was sent, and what follows it is left
to read. -/
theorem ReadRawMessage_whole {m : rawMessage} (hm : m.Valid) (more : List UInt8) (c : Conn) :
    ReadRawMessage (Conn.putBack (encodeMessage m ++ more) c) = pure (m, Conn.putBack more c) := by
  have henc : encodeMessage m ++ more =
      m.t :: be 4 (m.payload.length + 4) ++ (m.payload ++ more) := by
    simp [encodeMessage]
  rw [henc, ReadRawMessage_of_header hm.1 hm.2, readInto_putBack, pure_bind]

/-- A payload split between two segments is read as the part in the first, then zeros; the rest
of it is what the connection reads next. -/
theorem ReadRawMessage_split {m : rawMessage} (hm : m.Valid) {k : Nat} (hk0 : 0 < k)
    (hk : k < m.payload.length) (more : List UInt8) (c : Conn) :
    ReadRawMessage ((m.t :: be 4 (m.payload.length + 4) ++ m.payload.take k) ::
        Conn.putBack (m.payload.drop k ++ more) c) =
      pure (⟨m.t, m.payload.take k ++ List.replicate (m.payload.length - k) 0⟩,
        Conn.putBack (m.payload.drop k ++ more) c) := by
  have hne : m.payload.take k ≠ [] := by
    intro h
    rcases List.take_eq_nil_iff.mp h with h | h
    · omega
    · simp [h] at hk
  have hlen : (m.payload.take k).length = k := by simp; omega
  have hseg : Conn.putBack (m.t :: be 4 (m.payload.length + 4) ++ m.payload.take k)
      (Conn.putBack (m.payload.drop k ++ more) c) =
      (m.t :: be 4 (m.payload.length + 4) ++ m.payload.take k) ::
        Conn.putBack (m.payload.drop k ++ more) c := by
    simp [Conn.putBack]
  obtain ⟨y, ys, hy⟩ := List.exists_cons_of_ne_nil hne
  rw [← hseg, ReadRawMessage_of_header hm.1 hm.2, hy, putBack_cons, ← hy,
    readInto_short hne (by omega), pure_bind, hlen]

/-- The same bytes cut into segments in two ways read as two different messages. Whole in one
segment, a message is read as it was sent. With its payload split, it is read with zeros for the
part that had not come, and the next read starts inside it. -/
theorem ReadRawMessage_depends_on_segments {m : rawMessage} (hm : m.Valid) {k : Nat}
    (hk0 : 0 < k) (hk : k < m.payload.length) (more : List UInt8) (c : Conn) :
    (Conn.putBack (encodeMessage m ++ more) c).flatten =
      ((m.t :: be 4 (m.payload.length + 4) ++ m.payload.take k) ::
        Conn.putBack (m.payload.drop k ++ more) c).flatten ∧
    ReadRawMessage (Conn.putBack (encodeMessage m ++ more) c) = pure (m, Conn.putBack more c) ∧
    ReadRawMessage ((m.t :: be 4 (m.payload.length + 4) ++ m.payload.take k) ::
        Conn.putBack (m.payload.drop k ++ more) c) =
      pure (⟨m.t, m.payload.take k ++ List.replicate (m.payload.length - k) 0⟩,
        Conn.putBack (m.payload.drop k ++ more) c) := by
  refine ⟨?_, ReadRawMessage_whole hm more c, ReadRawMessage_split hm hk0 hk more c⟩
  -- both hold the message, then `more`, then the rest of the connection
  simp only [flatten_putBack, List.flatten_cons, encodeMessage, List.append_assoc,
    List.cons_append]
  rw [← List.append_assoc (m.payload.take k), List.take_append_drop]

/-- A query of two bytes, `Q` with payload `[1, 2]`: in one segment it is read as sent, with its
last byte in a second segment it is read as `[1, 0]`. -/
theorem ReadRawMessage_query_split :
    ReadRawMessage [[81, 0, 0, 0, 6, 1, 2]] = pure (⟨81, [1, 2]⟩, []) ∧
      ReadRawMessage [[81, 0, 0, 0, 6, 1], [2]] = pure (⟨81, [1, 0]⟩, [[2]]) :=
  have h := ReadRawMessage_depends_on_segments (m := ⟨81, [1, 2]⟩) ⟨by decide, by decide⟩ (k := 1)
    (by decide) (by decide) [] []
  ⟨h.2.1, h.2.2⟩

/-- `n` successive calls of `ReadRawMessage`, as the query machine makes them. -/
def readMessages : Nat → Conn → Except PgError (List rawMessage × Conn)
  | 0, c => pure ([], c)
  | n + 1, c => do
    let (m, c) ← ReadRawMessage c
    let (ms, c) ← readMessages n c
    pure (m :: ms, c)

/-- The messages of one segment are read one after the other. -/
theorem readMessages_segment (k : Nat) (c : Conn) :
    ∀ g : List rawMessage, (∀ m ∈ g, m.Valid) →
      readMessages (g.length + k) (Conn.putBack (g.map encodeMessage).flatten c) =
        (do let (ms, c) ← readMessages k c; pure (g ++ ms, c))
  | [], _ => by simp
  | m :: g, hg => by
    have hm := hg m List.mem_cons_self
    have ih := readMessages_segment k c g (fun m' h => hg m' (List.mem_cons_of_mem m h))
    rw [List.length_cons, Nat.add_right_comm, readMessages, List.map_cons, List.flatten_cons,
      ReadRawMessage_whole hm, pure_bind]
    simp only [ih, bind_assoc, pure_bind, List.cons_append]

/-- Messages sent in segments that each hold whole messages are read back in order, whatever
the number of messages in a segment. -/
theorem readMessages_whole (gs : List (List rawMessage)) (hgs : ∀ m ∈ gs.flatten, m.Valid) :
    readMessages gs.flatten.length
        (gs.foldr (fun g c => Conn.putBack (g.map encodeMessage).flatten c) []) =
      pure (gs.flatten, []) := by
  induction gs with
  | nil => rfl
  | cons g gs ih =>
    have hg : ∀ m ∈ g, m.Valid := fun m h => hgs m (List.mem_flatten_of_mem List.mem_cons_self h)
    have hrest : ∀ m ∈ gs.flatten, m.Valid := fun m h => hgs m (by
      rw [List.flatten_cons]
      exact List.mem_append_right g h)
    rw [List.flatten_cons, List.length_append, List.foldr_cons, readMessages_segment _ _ g hg,
      ih hrest, pure_bind]

/-- A query of one byte and a sync in one segment, then a second query in another. -/
theorem readMessages_two_segments :
    readMessages 3 [[81, 0, 0, 0, 5, 1, 83, 0, 0, 0, 4], [81, 0, 0, 0, 5, 2]] =
      pure ([⟨81, [1]⟩, ⟨83, []⟩, ⟨81, [2]⟩], []) :=
  readMessages_whole [[⟨81, [1]⟩, ⟨83, []⟩], [⟨81, [2]⟩]] (by unfold rawMessage.Valid; decide)

/-! ## 3. The startup message -/

/-- `parseProtocolVersion`: the major and the minor version, two bytes each. -/
def parseProtocolVersion (payload : List UInt8) : Nat × Nat :=
  (ofBE (payload.take 2), ofBE ((payload.drop 2).take 2))

/-- `pgmeta.PgsqlProtocolVersion`, `"3.0"`. -/
def PgsqlProtocolVersion : Nat × Nat := (3, 0)

/-- `pgmeta.PgsqlSSLRequestProtocolVersion`, `"1234.5679"`. -/
def PgsqlSSLRequestProtocolVersion : Nat × Nat := (1234, 5679)

/-- `isValidProtocolVersion`, on the versions the strings `"%d.%d"` stand for. -/
def isValidProtocolVersion (v : Nat × Nat) : Bool :=
  v == PgsqlProtocolVersion || v == PgsqlSSLRequestProtocolVersion

/-- `bufio.MaxScanTokenSize`. -/
def MaxScanTokenSize : Nat := 64 * 1024

/-- `bufio.Scanner` over `data` with the split function of `InitializeSession`: the pieces of
`data` ended by zero bytes, and a last piece the data ends. A piece of `MaxScanTokenSize` bytes
or more fills the scanner's buffer and ends the scan. -/
def scanTokens (data : List UInt8) : List (List UInt8) :=
  if h : data = [] then []
  else
    let token := data.takeWhile (· != 0)
    if MaxScanTokenSize ≤ token.length then []
    else token :: scanTokens (data.drop (token.length + 1))
termination_by data.length
decreasing_by
  have := List.length_pos_iff.mpr h
  simp only [List.length_drop]
  omega

/-- `m[key] = value` on a Go map, kept as the list of its entries. -/
def goMapSet {α β : Type} [DecidableEq α] (m : List (α × β)) (key : α) (value : β) :
    List (α × β) :=
  (key, value) :: m.filter (fun e => e.1 ≠ key)

/-- The loop over the tokens: a key, then its value, kept when it is not empty. -/
def startupParams : List (List UInt8) → List (List UInt8 × List UInt8) →
    List (List UInt8 × List UInt8)
  | key :: value :: rest, pmap =>
    startupParams rest (if value ≠ [] then goMapSet pmap key value else pmap)
  | _, pmap => pmap

/-- `session.InitializeSession` on a connection: the connection parameters, and what is left of
the connection. `handshake` is the TLS handshake when the server has certificates; over it the
connection is the decrypted stream. -/
def InitializeSession (handshake : Option (Conn → Except PgError Conn)) (c : Conn) :
    Except PgError (List (List UInt8 × List UInt8) × Conn) := do
  let (lb, c) ← readInto c 4
  let (pvb, c) ← readInto c 4
  -- the SSL request is answered, and the startup message read again after the handshake
  let (lb, pvb, c) ←
    if parseProtocolVersion pvb = PgsqlSSLRequestProtocolVersion then
      match handshake with
      | none => throw .sslNotSupported
      | some hs => do
        let c ← hs c
        let (lb, c) ← readInto c 4
        let (pvb, c) ← readInto c 4
        pure (lb, pvb, c)
    else pure (lb, pvb, c)
  let v := parseProtocolVersion pvb
  if !isValidProtocolVersion v then throw (.invalidProtocolVersion v.1 v.2)
  else
    -- `int(binary.BigEndian.Uint32(lb) - 8)`: the `uint32` subtraction wraps, and its value as
    -- an `int` is never negative
    let connStringLenght := (ofBE lb + 2 ^ 32 - 8) % 2 ^ 32
    if MaxMsgSize < connStringLenght then throw .messageTooLarge
    else do
      let (connString, c) ← readInto c connStringLenght
      pure (startupParams (scanTokens connString) [], c)

/-- A startup message as a client sends it, with protocol version 3.0: its length counting the
eight bytes of the length and the version, then the parameters' bytes. -/
def encodeStartup (connString : List UInt8) : List UInt8 :=
  be 4 (connString.length + 8) ++ be 2 3 ++ be 2 0 ++ connString

/-- The length field of a startup message gives back the parameters' length. -/
theorem startupLength_be {n : Nat} (hn : n ≤ MaxMsgSize) :
    (ofBE (be 4 (n + 8)) + 2 ^ 32 - 8) % 2 ^ 32 = n := by
  have hlt : n + 8 < 2 ^ (8 * 4) := by
    unfold MaxMsgSize at hn
    norm_num at hn ⊢
    omega
  have hwrap : n + 8 + 2 ^ 32 - 8 = n + 2 ^ 32 := by omega
  rw [ofBE_be, Nat.mod_eq_of_lt hlt, hwrap, Nat.add_mod_right, Nat.mod_eq_of_lt (by omega)]

/-- A startup message whose length and version come first in the first segment reads as the
parameters read after them. -/
theorem InitializeSession_of_header {hs : Option (Conn → Except PgError Conn)} {n : Nat}
    (hn : n ≤ MaxMsgSize) (rest : List UInt8) (c : Conn) :
    InitializeSession hs (Conn.putBack (be 4 (n + 8) ++ be 2 3 ++ be 2 0 ++ rest) c) =
      (do let (connString, c) ← readInto (Conn.putBack rest c) n
          pure (startupParams (scanTokens connString) [], c)) := by
  have hlb : readInto (Conn.putBack (be 4 (n + 8) ++ ((be 2 3 ++ be 2 0) ++ rest)) c) 4 =
      pure (be 4 (n + 8), Conn.putBack ((be 2 3 ++ be 2 0) ++ rest) c) :=
    readInto_putBack (be 4 (n + 8)) ((be 2 3 ++ be 2 0) ++ rest) c
  have hpvb : readInto (Conn.putBack ((be 2 3 ++ be 2 0) ++ rest) c) 4 =
      pure (be 2 3 ++ be 2 0, Conn.putBack rest c) :=
    readInto_putBack (be 2 3 ++ be 2 0) rest c
  have hver : parseProtocolVersion (be 2 3 ++ be 2 0) = PgsqlProtocolVersion := by decide
  have hssl : PgsqlProtocolVersion ≠ PgsqlSSLRequestProtocolVersion := by decide
  have hvalid : isValidProtocolVersion PgsqlProtocolVersion = true := by decide
  have hseg : be 4 (n + 8) ++ be 2 3 ++ be 2 0 ++ rest =
      be 4 (n + 8) ++ ((be 2 3 ++ be 2 0) ++ rest) := by
    simp only [List.append_assoc]
  rw [hseg]
  simp only [InitializeSession, hlb, hpvb, pure_bind, hver, hssl, if_false, hvalid,
    Bool.not_true, Bool.false_eq_true, startupLength_be hn, Nat.not_lt.mpr hn]


/-- A startup message whose parameters are split between two segments is read with zeros for
the part that had not come, and the rest of the parameters is what the connection reads next. -/
theorem InitializeSession_split (hs : Option (Conn → Except PgError Conn))
    {connString : List UInt8} (hn : connString.length ≤ MaxMsgSize) {k : Nat} (hk0 : 0 < k)
    (hk : k < connString.length) (more : List UInt8) (c : Conn) :
    InitializeSession hs ((be 4 (connString.length + 8) ++ be 2 3 ++ be 2 0 ++
        connString.take k) :: Conn.putBack (connString.drop k ++ more) c) =
      pure (startupParams (scanTokens (connString.take k ++
          List.replicate (connString.length - k) 0)) [],
        Conn.putBack (connString.drop k ++ more) c) := by
  have hne : connString.take k ≠ [] := by
    intro h
    rcases List.take_eq_nil_iff.mp h with h | h
    · omega
    · simp [h] at hk
  have hlen : (connString.take k).length = k := by simp; omega
  have hseg : Conn.putBack (be 4 (connString.length + 8) ++ be 2 3 ++ be 2 0 ++ connString.take k)
      (Conn.putBack (connString.drop k ++ more) c) =
      (be 4 (connString.length + 8) ++ be 2 3 ++ be 2 0 ++ connString.take k) ::
        Conn.putBack (connString.drop k ++ more) c := by
    unfold Conn.putBack
    rw [if_neg]
    intro h
    simpa using congrArg List.length h
  obtain ⟨y, ys, hy⟩ := List.exists_cons_of_ne_nil hne
  rw [← hseg, InitializeSession_of_header hn, hy, putBack_cons, ← hy,
    readInto_short hne (by omega), pure_bind, hlen]

/-- The same startup message with its value `b` in a second segment: the value is read as zeros,
so the parameter is dropped, and `b` is left for the next read. -/
theorem InitializeSession_split_drops_param :
    InitializeSession none [[0, 0, 0, 12, 0, 3, 0, 0, 97, 0], [98, 0]] = pure ([], [[98, 0]]) := by
  have h : InitializeSession none ((be 4 (([97, 0, 98, 0] : List UInt8).length + 8) ++ be 2 3 ++
      be 2 0 ++ ([97, 0, 98, 0] : List UInt8).take 2) ::
        Conn.putBack (([97, 0, 98, 0] : List UInt8).drop 2 ++ []) []) = _ :=
    InitializeSession_split none (by decide) (by decide) (by decide) [] []
  have hscan : scanTokens (([97, 0, 98, 0] : List UInt8).take 2 ++
      List.replicate (([97, 0, 98, 0] : List UInt8).length - 2) 0) = [[97], [], []] := by
    simp [scanTokens, MaxScanTokenSize]
  rw [hscan] at h
  exact h

end Immudb.Pgsql
