import Immudb.Stream.Receiver

/-!
# `Immudb/Stream/StreamSet.lean` — a batch of key-value pairs over the stream

`pkg/stream/sender.go`, `kvsender.go`, `pkg/client/streams.go` and `pkg/server/streams.go`. The
client sends each pair as two messages, the key's and the value's, with `msgSender.Send`; the
server's `StreamSet` reads them back with `ReadValue`, one after the other, and hands the pairs to
`db.Set`. It reads a key with the chunk size of its `StreamServiceFactory`, which the server
builds from `DefaultOptions().StreamChunkSize`, and a value with `Options.StreamChunkSize`: the
two sizes differ once the server is started with another chunk size, and the model keeps both.

A message that fits one chunk of the sender and one piece of the receiver's `Read` is sent as
one chunk, its length then its bytes (`msgSender_Send_short`), and read back whole from a
receiver that stands between two messages (`Between`, `Read_whole`, `ReadValue_whole`). Pairs of
such messages go through `StreamSet` unchanged (`StreamSet_one_chunk_pairs`). A value of no bytes
does not: `ReadValue` reads its message as `io.EOF`, and `StreamSet` takes that for the end of
the batch, keeps the pair with a `nil` value and drops every pair after it
(`StreamSet_drops_after_empty_value`).

The sender's reader is a `bytes.Buffer` holding the message: a read gives as many bytes as the
buffer has room for. gRPC delivers the chunks as they were sent, each with one `Recv`. The
server's result is the list of pairs it passes to `db.Set`, or the error it returns before.
-/

set_option autoImplicit false

namespace Immudb.Stream

open Bytes

/-! ## 1. The sender -/

set_option linter.unusedVariables false in
/-- The loop of `msgSender.Send(reader, len(msg), nil)` with a buffer of `L` bytes: `cur` is what
the buffer holds, `read` the bytes of `msg` read so far. A read fills as much of the buffer as
`msg` has left (`available = L - len(cur)`); a full buffer is sent, and what is left of it after
the loop. -/
def sendLoop (L : Nat) (hL : 0 < L) (msg : List UInt8) (read : Nat) (cur : List UInt8) :
    List (List UInt8) :=
  if hr : read < msg.length then
    let n := min (L - cur.length) (msg.length - read)
    let cur := cur ++ (msg.drop read).take n
    if L - cur.length = 0 then cur :: sendLoop L hL msg (read + n) []
    else sendLoop L hL msg (read + n) cur
  else if L - cur.length < L then [cur] else []
termination_by 2 * (msg.length - read) + (if L ≤ cur.length then 1 else 0)
decreasing_by
  all_goals
    rename_i hfull
    simp +zetaDelta only [List.length_append, List.length_take, List.length_drop,
      List.length_nil] at hfull ⊢
    split_ifs <;> omega

/-- `msgSender.Send(bytes.NewBuffer(msg), len(msg), nil)` with a buffer of `L` bytes, at least
the eight of the length `PutUint64` writes: the chunks it sends. -/
def msgSender.Send (L : Nat) (hL : 8 ≤ L) (msg : List UInt8) : List (List UInt8) :=
  sendLoop L (by omega) msg 0 (be 8 msg.length)

/-- `kvStreamSender.Send(kv)`: the key's message, then the value's. -/
def kvStreamSender.Send (L : Nat) (hL : 8 ≤ L) (kv : List UInt8 × List UInt8) :
    List (List UInt8) :=
  msgSender.Send L hL kv.1 ++ msgSender.Send L hL kv.2

/-- The loop of `immuClient._streamSet`: the chunks of a batch, pair after pair. -/
def clientStreamSet (L : Nat) (hL : 8 ≤ L) (kvs : List (List UInt8 × List UInt8)) :
    List (List UInt8) :=
  kvs.flatMap (kvStreamSender.Send L hL)

/-- The loop stops with the last chunk once the whole message is read. -/
theorem sendLoop_of_le {L : Nat} {hL : 0 < L} {msg : List UInt8} {read : Nat}
    {cur : List UInt8} (h : msg.length ≤ read) :
    sendLoop L hL msg read cur = if L - cur.length < L then [cur] else [] := by
  rw [sendLoop, dif_neg (by omega)]

/-- A message that leaves room in the buffer for its length goes as one chunk. -/
theorem msgSender_Send_short {L : Nat} {hL : 8 ≤ L} {msg : List UInt8}
    (hm : msg.length + 8 ≤ L) : msgSender.Send L hL msg = [be 8 msg.length ++ msg] := by
  unfold msgSender.Send
  rcases Nat.eq_zero_or_pos msg.length with h0 | hpos
  · -- nothing to read: the header alone is sent
    rw [sendLoop_of_le (by omega), List.length_eq_zero_iff.mp h0, if_pos (by simp; omega)]
    rfl
  · have hn : min (L - (be 8 msg.length).length) (msg.length - 0) = msg.length := by
      simp only [length_be]
      omega
    rw [sendLoop, dif_pos hpos]
    simp only [hn, List.drop_zero, List.take_length, Nat.zero_add]
    split_ifs with hfull
    · -- the message fills the buffer exactly
      rw [sendLoop_of_le (le_refl _), if_neg (by simp)]
    · rw [sendLoop_of_le (le_refl _), if_pos (by simp; omega)]

/-- A pair whose key and value both leave room for their lengths goes as two chunks. -/
theorem kvStreamSender_Send_short {L : Nat} {hL : 8 ≤ L} {k v : List UInt8}
    (hk : k.length + 8 ≤ L) (hv : v.length + 8 ≤ L) :
    kvStreamSender.Send L hL (k, v) = [be 8 k.length ++ k, be 8 v.length ++ v] := by
  simp only [kvStreamSender.Send, msgSender_Send_short hk, msgSender_Send_short hv,
    List.singleton_append]


/-! ## 2. A message read whole -/

/-- The receiver between two messages, with the chunks `cs` still to read: its buffer holds the
first of them whole and the stream the rest; no length read, nothing handed out or owed, and the
end of the stream met only when it is there. -/
structure Between (r : msgReceiver) (cs : List (List UInt8)) : Prop where
  split : ∃ j, r.b = (cs.take j).flatten ∧ r.stream = cs.drop j
  tl : r.tl = 0
  s : r.s = 0
  msgSend : r.msgSend = false
  eof : r.eof = true → r.stream = []

theorem between_NewMsgReceiver (cs : List (List UInt8)) : Between (NewMsgReceiver cs) cs where
  split := ⟨0, rfl, rfl⟩
  tl := rfl
  s := rfl
  msgSend := rfl
  eof := fun h => by cases h

/-- Loading into a buffer of whole chunks loads whole chunks, and the first one into an empty
buffer. -/
theorem bufferLoad_between (n : Nat) (c : List UInt8) (cs : List (List UInt8)) (j : Nat) :
    ∃ j', (bufferLoad n ((c :: cs).take j).flatten ((c :: cs).drop j)).1 =
        c ++ (cs.take j').flatten ∧
      (bufferLoad n ((c :: cs).take j).flatten ((c :: cs).drop j)).2.1 = cs.drop j' := by
  cases j with
  | zero =>
    -- the empty buffer holds no more than `n` bytes, so the first chunk comes in
    obtain ⟨i, h₁, h₂⟩ := bufferLoad_prefix n cs c
    have hstep : bufferLoad n [] (c :: cs) = bufferLoad n c cs := by simp [bufferLoad]
    simp only [List.take_zero, List.flatten_nil, List.drop_zero, hstep]
    exact ⟨i, h₁, h₂⟩
  | succ j =>
    obtain ⟨i, h₁, h₂⟩ := bufferLoad_prefix n (cs.drop j) (c ++ (cs.take j).flatten)
    simp only [List.take_succ_cons, List.drop_succ_cons, List.flatten_cons]
    refine ⟨j + i, ?_, ?_⟩
    · rw [h₁, List.take_add, List.flatten_append, List.append_assoc]
    · rw [h₂, List.drop_drop]

/-- `bufferLoad` says it met the end of the stream only with no chunk left. -/
theorem bufferLoad_eof (n : Nat) (b : List UInt8) (st : List (List UInt8))
    (h : (bufferLoad n b st).2.2 = true) : (bufferLoad n b st).2.1 = [] := by
  rw [bufferLoad_hitEOF] at h
  exact bufferLoad_exhausted n st b (of_decide_eq_true h)

/-- The length at the front of the buffer, eight bytes big-endian. -/
theorem readTrailer_header {r : msgReceiver} {k : Nat} {t : List UInt8} (htl : r.tl = 0)
    (hb : r.b = be 8 k ++ t) : readTrailer r = .ok { r with b := t, tl := goInt (be 8 k) } := by
  have hlen : (be 8 k).length = 8 := length_be 8 k
  unfold readTrailer bufferRead
  rw [if_pos htl, hb, if_neg (fun h => absurd (congrArg List.length h.1) (by simp))]
  have hcopy : copyN 8 (be 8 k) = be 8 k := by simpa using copyN_append [] hlen
  simp only [List.take_left' hlen, List.drop_left' hlen, pure_bind, hcopy]
  rfl

theorem goInt_be {k : Nat} (hk : k < 2 ^ 63) : (goInt (be 8 k)).toInt = k := by
  have hmod : k % 2 ^ (8 * 8) = k := Nat.mod_eq_of_lt (by omega)
  rw [goInt, ofBE_be, hmod, Int64.toInt_ofNat_of_lt hk]

theorem makeBytes_len {n : Int64} {k : Nat} (h : n.toInt = k) :
    makeBytes n = .ok (List.replicate k 0) := by
  unfold makeBytes
  rw [if_neg (fun hn => absurd (Int64.lt_iff_toInt_lt.mp hn) (by rw [h]; simp)), h,
    Int.toNat_natCast]
  rfl

theorem bufferRead_append (m rest : List UInt8) :
    bufferRead (m ++ rest) m.length = .ok (m, rest) := by
  unfold bufferRead
  rw [if_neg (fun h => by simp [List.append_eq_nil_iff.mp h.1] at h), List.take_left,
    List.drop_left]
  rfl

/-- A whole message in the buffer, its length read and nothing of it handed out, goes out in one
piece when it fits the caller's buffer. -/
theorem sendTurn_whole {n : Nat} {r : msgReceiver} {m rest : List UInt8}
    (htl : r.tl.toInt = m.length) (hs : r.s = 0) (hb : r.b = m ++ rest) (hm : m.length ≤ n) :
    sendTurn n r = .ok (.done m) { r with b := rest, tl := 0, msgSend := true, s := 0 } := by
  have hlen : (r.tl - r.s).toInt = m.length := by rw [hs, Int64.sub_zero, htl]
  have hbuf : m.length ≤ r.b.length := by simp [hb]
  unfold sendTurn
  rw [if_neg (fun h => by have := h.2; omega), if_pos ⟨.inr (by omega), by omega⟩,
    makeBytes_len hlen]
  simp only [List.length_replicate, hb, bufferRead_append]
  rw [copyAt_of_le (by simp)]
  simp [List.take_of_length_le hm]

theorem readLoop_of_done {n : Nat} {r r' : msgReceiver} {data : List UInt8}
    (h : readTurn n r = .ok (.done data) r') : readLoop n r = .ok data r' := by
  rw [readLoop]
  split <;> simp_all


/-- From between two messages, `Read` hands out a message sent as one chunk whole when it fits
the caller's buffer, and then owes the `(0, nil)` that ends it. -/
theorem Read_whole {n : Nat} {r : msgReceiver} {m : List UInt8} {cs : List (List UInt8)}
    (hr : Between r ((be 8 m.length ++ m) :: cs)) (hm : m.length ≤ n) (hm63 : m.length < 2 ^ 63) :
    ∃ r', Read n r = .ok m r' ∧ r'.msgSend = true ∧ Between { r' with msgSend := false } cs := by
  obtain ⟨⟨j, hb, hst⟩, htl, hs, hsend, heof⟩ := hr
  obtain ⟨j', hb₁, hst₁⟩ := bufferLoad_between n (be 8 m.length ++ m) cs j
  rw [← hb, ← hst] at hb₁ hst₁
  have heof₁ := bufferLoad_eof n r.b r.stream
  obtain ⟨⟨b₁, st₁, hit⟩, hload⟩ : ∃ l, bufferLoad n r.b r.stream = l := ⟨_, rfl⟩
  rw [hload] at hb₁ hst₁ heof₁
  dsimp only at hb₁ hst₁ heof₁
  -- the end of the stream is met after loading only with no chunk left
  have hend : (r.eof || hit) = true → st₁ = [] := by
    intro h
    rcases Bool.or_eq_true_iff.mp h with he | hh
    · rw [heof he] at hload
      simp only [bufferLoad, Prod.mk.injEq] at hload
      exact hload.2.1.symm
    · exact heof₁ hh
  have hturn : readTurn n r = .ok (.done m) { r with
      b := (cs.take j').flatten, stream := st₁, eof := r.eof || hit, tl := 0, msgSend := true,
      s := 0 } := by
    unfold readTurn
    rw [hload]
    dsimp only
    rw [readTrailer_header (r := { r with b := b₁, stream := st₁, eof := r.eof || hit })
      (k := m.length) (t := m ++ (cs.take j').flatten) htl (by rw [hb₁, List.append_assoc])]
    exact sendTurn_whole (goInt_be hm63) hs rfl hm
  -- at the end of the stream the buffer holds every chunk, so it is not empty
  have hnotend : ¬(r.eof = true ∧ r.b = []) := by
    rintro ⟨he, hb0⟩
    have hdrop : ((be 8 m.length ++ m) :: cs).drop j = [] := hst ▸ heof he
    rw [List.drop_eq_nil_iff] at hdrop
    rw [hb, List.take_of_length_le hdrop, List.flatten_cons] at hb0
    simpa using congrArg List.length hb0
  refine ⟨{ r with
      b := (cs.take j').flatten, stream := st₁, eof := r.eof || hit, tl := 0, msgSend := true,
      s := 0 }, ?_, rfl, ⟨⟨j', rfl, hst₁⟩, rfl, rfl, rfl, hend⟩⟩
  unfold Read
  rw [if_neg (by simp [hsend]), if_neg hnotend]
  exact readLoop_of_done hturn

/-- Between messages with no chunk left, `Read` meets the end of the stream. -/
theorem Read_end {n : Nat} {r : msgReceiver} (hr : Between r []) :
    ∃ r', Read n r = .error .EOF r' := by
  obtain ⟨⟨j, hb, hst⟩, htl, -, hsend, -⟩ := hr
  simp only [List.take_nil, List.flatten_nil, List.drop_nil] at hb hst
  unfold Read
  rw [if_neg (by simp [hsend])]
  split_ifs
  · exact ⟨r, rfl⟩
  · -- nothing comes in, and there is no length to read
    have hturn : readTurn n r =
        .error .EOF { r with b := [], stream := [], eof := r.eof || true } := by
      unfold readTurn
      rw [hb, hst]
      simp only [bufferLoad, List.length_nil, Nat.zero_le, decide_true]
      rw [readTrailer_nil (r := { r with b := [], stream := [], eof := r.eof || true }) htl rfl]
    exact ⟨_, readLoop_of_error hturn⟩

theorem readValueLoop_of_EOF {bufferSize : Nat} {chunk buf : List UInt8} {vl : Nat}
    {r r' : msgReceiver} (h : Read bufferSize r = .error .EOF r') :
    readValueLoop bufferSize chunk buf vl r = .ok (buf ++ chunk, vl) r' := by
  rw [readValueLoop]
  split <;> simp_all

/-- A read of nothing ends `ReadValue`'s loop with the chunk as it was. -/
theorem readValueLoop_of_nil {bufferSize : Nat} {chunk buf : List UInt8} {vl : Nat}
    {r r' : msgReceiver} (h : Read bufferSize r = .ok [] r') :
    readValueLoop bufferSize chunk buf vl r = .ok (buf ++ chunk, vl) r' := by
  rw [readValueLoop]
  split <;> simp_all [copyAt]

theorem readValueLoop_of_data {bufferSize : Nat} {chunk buf data : List UInt8} {vl : Nat}
    {r r' : msgReceiver} (h : Read bufferSize r = .ok data r') (hl : data ≠ []) :
    readValueLoop bufferSize chunk buf vl r =
      readValueLoop bufferSize (copyAt chunk 0 data) (buf ++ copyAt chunk 0 data)
        (vl + data.length) r' := by
  rw [readValueLoop]
  split <;> simp_all


/-- A chunk of `n` zeros with a piece of at most `n` bytes copied to its front. -/
theorem copyAt_replicate {m : List UInt8} {n : Nat} (hm : m.length ≤ n) :
    copyAt (List.replicate n 0) 0 m = m ++ List.replicate (n - m.length) 0 := by
  rw [copyAt_of_le (by simpa using hm)]
  simp

/-- From between two messages, `ReadValue` reads a message of some bytes sent as one chunk, when
it fits the buffer, and leaves the receiver between messages. -/
theorem ReadValue_whole {n : Nat} {r : msgReceiver} {m : List UInt8} {cs : List (List UInt8)}
    (hr : Between r ((be 8 m.length ++ m) :: cs)) (hm0 : m ≠ []) (hm : m.length ≤ n)
    (hm63 : m.length < 2 ^ 63) : ∃ r', ReadValue n r = .ok m r' ∧ Between r' cs := by
  obtain ⟨r₁, hread, hsend, hbet⟩ := Read_whole hr hm hm63
  -- the piece is followed by the `(0, nil)` that ends the message
  have hread₂ : Read n r₁ = .ok [] { r₁ with msgSend := false } := by
    unfold Read
    rw [if_pos hsend]
  -- the buffer gets the chunk twice, the message at its front
  have hloop : readValueLoop n (List.replicate n 0) [] 0 r =
      .ok ((m ++ List.replicate (n - m.length) 0) ++ (m ++ List.replicate (n - m.length) 0),
        m.length) { r₁ with msgSend := false } := by
    rw [readValueLoop_of_data hread hm0, readValueLoop_of_nil hread₂, copyAt_replicate hm]
    simp
  refine ⟨_, ?_, hbet⟩
  unfold ReadValue
  rw [hloop]
  dsimp only
  rw [if_neg (by simpa using hm0), List.append_assoc, bufferRead_append]
  dsimp only
  rw [copyAt_replicate (le_refl _)]
  simp

/-- A message of no bytes reads as `io.EOF`. -/
theorem ReadValue_empty {n : Nat} {r : msgReceiver} {cs : List (List UInt8)}
    (hr : Between r (be 8 0 :: cs)) : ∃ r', ReadValue n r = .error .EOF r' := by
  obtain ⟨r₁, hread, -, -⟩ := Read_whole (m := []) (by simpa using hr) (Nat.zero_le n) (by decide)
  refine ⟨r₁, ?_⟩
  unfold ReadValue
  rw [readValueLoop_of_nil hread]
  rfl

/-- With no chunk left, `ReadValue` meets the end of the stream. -/
theorem ReadValue_end {n : Nat} {r : msgReceiver} (hr : Between r []) :
    ∃ r', ReadValue n r = .error .EOF r' := by
  obtain ⟨r₁, hread⟩ := Read_end (n := n) hr
  refine ⟨r₁, ?_⟩
  unfold ReadValue
  rw [readValueLoop_of_EOF hread]
  rfl


/-! ## 3. `StreamSet` -/

/-- `stream.MaxTxValueLen`. -/
def MaxTxValueLen : Nat := 1 <<< 25

/-- `stream.DefaultChunkSize`, the `StreamChunkSize` of `DefaultOptions()`. -/
def DefaultChunkSize : Nat := 64 * 1024

set_option linter.unusedVariables false in
/-- The loop of `ImmuServer.StreamSet`: a key read with `kvsr.Next()`, that is with `ReadValue` and
the chunk size `keyChunkSize` of the server's `StreamServiceFactory`, and its value with
`ReadValue` and `Options.StreamChunkSize = chunkSize`; the pairs gathered in `kvs` and `vlength`
the bytes of their values. -/
def streamSetLoop (keyChunkSize chunkSize : Nat) (kvs : List (List UInt8 × List UInt8))
    (vlength : Nat) (r : msgReceiver) : Except StreamError (List (List UInt8 × List UInt8)) :=
  match hk : ReadValue keyChunkSize r with
  | .error .EOF _ => .ok kvs
  | .error e _ => .error e
  | .ok key r₁ =>
    match hv : ReadValue chunkSize r₁ with
    -- the value's `io.EOF` ends the batch, with the pair it was read for
    | .error .EOF _ => .ok (kvs ++ [(key, [])])
    | .error e r₂ =>
      -- another error is not returned and the value is `nil`; a panic is no error value
      if e = .makeSliceLen then .error e
      else if MaxTxValueLen < vlength then .error .MaxTxValuesLenExceeded
      else streamSetLoop keyChunkSize chunkSize (kvs ++ [(key, [])]) vlength r₂
    | .ok value r₂ =>
      if MaxTxValueLen < vlength + value.length then .error .MaxTxValuesLenExceeded
      else streamSetLoop keyChunkSize chunkSize (kvs ++ [(key, value)]) (vlength + value.length) r₂
termination_by r.unread
decreasing_by
  · have h₁ := (ReadValue_unread keyChunkSize r).2 key r₁ hk
    have h₂ := (ReadValue_unread chunkSize r₁).1 e r₂ hv
    omega
  · have h₁ := (ReadValue_unread keyChunkSize r).2 key r₁ hk
    have h₂ := (ReadValue_unread chunkSize r₁).2 value r₂ hv
    omega

/-- `ImmuServer.StreamSet` on the chunks a client sent: the pairs it passes to `db.Set`. The
server builds its factory with `DefaultOptions().StreamChunkSize`, so `keyChunkSize` is that
default whatever `Options.StreamChunkSize` is set to. -/
def StreamSet (keyChunkSize chunkSize : Nat) (stream : List (List UInt8)) :
    Except StreamError (List (List UInt8 × List UInt8)) :=
  streamSetLoop keyChunkSize chunkSize [] 0 (NewMsgReceiver stream)


/-- A message the sender puts in one chunk of `L` bytes and `ReadValue` reads in one piece of
`chunkSize`: some bytes, room for the length, and no more bytes than the piece. -/
def OneChunk (L chunkSize : Nat) (m : List UInt8) : Prop :=
  m ≠ [] ∧ m.length + 8 ≤ L ∧ m.length ≤ chunkSize

/-- The key's `io.EOF` ends the batch. -/
theorem streamSetLoop_of_key_EOF {keyChunkSize chunkSize vlength : Nat}
    {kvs : List (List UInt8 × List UInt8)} {r r' : msgReceiver}
    (h : ReadValue keyChunkSize r = .error .EOF r') :
    streamSetLoop keyChunkSize chunkSize kvs vlength r = .ok kvs := by
  rw [streamSetLoop]
  split <;> simp_all

/-- The value's `io.EOF` ends the batch with the pair it was read for. -/
theorem streamSetLoop_of_value_EOF {keyChunkSize chunkSize vlength : Nat}
    {kvs : List (List UInt8 × List UInt8)} {r r₁ r₂ : msgReceiver} {key : List UInt8}
    (hk : ReadValue keyChunkSize r = .ok key r₁) (hv : ReadValue chunkSize r₁ = .error .EOF r₂) :
    streamSetLoop keyChunkSize chunkSize kvs vlength r = .ok (kvs ++ [(key, [])]) := by
  rw [streamSetLoop]
  split
  · simp_all
  · simp_all
  · next key' r₁' heq =>
    rw [hk] at heq
    cases heq
    split <;> simp_all

/-- A key and a value read add the pair, unless the values grow too long. -/
theorem streamSetLoop_of_value {keyChunkSize chunkSize vlength : Nat}
    {kvs : List (List UInt8 × List UInt8)} {r r₁ r₂ : msgReceiver} {key value : List UInt8}
    (hk : ReadValue keyChunkSize r = .ok key r₁) (hv : ReadValue chunkSize r₁ = .ok value r₂) :
    streamSetLoop keyChunkSize chunkSize kvs vlength r =
      if MaxTxValueLen < vlength + value.length then .error .MaxTxValuesLenExceeded
      else streamSetLoop keyChunkSize chunkSize (kvs ++ [(key, value)])
        (vlength + value.length) r₂ := by
  rw [streamSetLoop]
  split
  · simp_all
  · simp_all
  · next key' r₁' heq =>
    rw [hk] at heq
    cases heq
    split <;> simp_all

/-- The end of the stream ends the batch. -/
theorem streamSetLoop_end {keyChunkSize chunkSize vlength : Nat}
    {kvs : List (List UInt8 × List UInt8)} {r : msgReceiver} (hr : Between r []) :
    streamSetLoop keyChunkSize chunkSize kvs vlength r = .ok kvs := by
  obtain ⟨r', h⟩ := ReadValue_end (n := keyChunkSize) hr
  exact streamSetLoop_of_key_EOF h

/-- A pair of messages read whole is added to the batch. -/
theorem streamSetLoop_pair {keyChunkSize chunkSize : Nat} (kvs : List (List UInt8 × List UInt8))
    (vlength : Nat) {r : msgReceiver} {k v : List UInt8} {cs : List (List UInt8)}
    (hr : Between r ((be 8 k.length ++ k) :: (be 8 v.length ++ v) :: cs))
    (hk : k ≠ []) (hkD : k.length ≤ keyChunkSize) (hv : v ≠ []) (hvD : v.length ≤ chunkSize)
    (hK : keyChunkSize < 2 ^ 63) (hD : chunkSize < 2 ^ 63)
    (hmax : vlength + v.length ≤ MaxTxValueLen) :
    ∃ r', Between r' cs ∧ streamSetLoop keyChunkSize chunkSize kvs vlength r =
      streamSetLoop keyChunkSize chunkSize (kvs ++ [(k, v)]) (vlength + v.length) r' := by
  obtain ⟨r₁, hk₁, hr₁⟩ := ReadValue_whole hr hk hkD (by omega)
  obtain ⟨r₂, hv₂, hr₂⟩ := ReadValue_whole hr₁ hv hvD (by omega)
  refine ⟨r₂, hr₂, ?_⟩
  rw [streamSetLoop_of_value hk₁ hv₂, if_neg (by omega)]

/-- A key read whole and a value of no bytes end the batch with that pair. -/
theorem streamSetLoop_empty_value {keyChunkSize chunkSize vlength : Nat}
    {kvs : List (List UInt8 × List UInt8)} {r : msgReceiver} {k : List UInt8}
    {cs : List (List UInt8)} (hr : Between r ((be 8 k.length ++ k) :: be 8 0 :: cs))
    (hk : k ≠ []) (hkD : k.length ≤ keyChunkSize) (hK : keyChunkSize < 2 ^ 63) :
    streamSetLoop keyChunkSize chunkSize kvs vlength r = .ok (kvs ++ [(k, [])]) := by
  obtain ⟨r₁, hk₁, hr₁⟩ := ReadValue_whole hr hk hkD (by omega)
  obtain ⟨r₂, hv₂⟩ := ReadValue_empty (n := chunkSize) hr₁
  exact streamSetLoop_of_value_EOF hk₁ hv₂


/-- The chunks of a pair whose key and value each go as one chunk. -/
theorem clientStreamSet_cons {L : Nat} {hL : 8 ≤ L} {k v : List UInt8}
    {ps : List (List UInt8 × List UInt8)} (hk : k.length + 8 ≤ L) (hv : v.length + 8 ≤ L) :
    clientStreamSet L hL ((k, v) :: ps) =
      (be 8 k.length ++ k) :: (be 8 v.length ++ v) :: clientStreamSet L hL ps := by
  simp [clientStreamSet, kvStreamSender_Send_short hk hv]

theorem clientStreamSet_append {L : Nat} {hL : 8 ≤ L} (ps qs : List (List UInt8 × List UInt8)) :
    clientStreamSet L hL (ps ++ qs) = clientStreamSet L hL ps ++ clientStreamSet L hL qs :=
  List.flatMap_append

/-- Pairs that go as one chunk each, read from between messages, are added to the batch in
order. -/
theorem streamSetLoop_one_chunk_pairs {L keyChunkSize chunkSize : Nat} (hL : 8 ≤ L)
    (hK : keyChunkSize < 2 ^ 63) (hD : chunkSize < 2 ^ 63)
    (cs : List (List UInt8)) (ps : List (List UInt8 × List UInt8))
    (hps : ∀ p ∈ ps, OneChunk L keyChunkSize p.1 ∧ OneChunk L chunkSize p.2) :
    ∀ (kvs : List (List UInt8 × List UInt8)) (vlength : Nat) {r : msgReceiver},
      vlength + (ps.map fun p => p.2.length).sum ≤ MaxTxValueLen →
      Between r (clientStreamSet L hL ps ++ cs) →
      ∃ r', Between r' cs ∧ streamSetLoop keyChunkSize chunkSize kvs vlength r =
        streamSetLoop keyChunkSize chunkSize (kvs ++ ps)
          (vlength + (ps.map fun p => p.2.length).sum) r' := by
  induction ps with
  | nil =>
    intro kvs vlength r _ hr
    exact ⟨r, by simpa [clientStreamSet] using hr, by simp⟩
  | cons p ps ih =>
    intro kvs vlength r hmax hr
    obtain ⟨k, v⟩ := p
    have hkv : OneChunk L keyChunkSize k ∧ OneChunk L chunkSize v := hps (k, v) List.mem_cons_self
    obtain ⟨⟨hk, hkL, hkD⟩, ⟨hv, hvL, hvD⟩⟩ := hkv
    simp only [List.map_cons, List.sum_cons] at hmax ⊢
    rw [clientStreamSet_cons hkL hvL, List.cons_append, List.cons_append] at hr
    -- the first pair, then the rest from where it leaves the receiver
    obtain ⟨r₁, hr₁, heq₁⟩ := streamSetLoop_pair kvs vlength hr hk hkD hv hvD hK hD (by omega)
    obtain ⟨r', hr', heq'⟩ := ih (fun q hq => hps q (List.mem_cons_of_mem _ hq))
      (kvs ++ [(k, v)]) (vlength + v.length) (by omega) hr₁
    refine ⟨r', hr', ?_⟩
    rw [heq₁, heq', List.append_assoc, Nat.add_assoc]
    rfl

/-- Pairs whose keys fit one chunk of the client and one piece of the server's key reader, and
whose values one chunk of the client and one piece of the value reader, with no value empty, go
through `StreamSet` as they were sent. -/
theorem StreamSet_one_chunk_pairs (L : Nat) (hL : 8 ≤ L) (keyChunkSize chunkSize : Nat)
    (hK : keyChunkSize < 2 ^ 63) (hD : chunkSize < 2 ^ 63) (kvs : List (List UInt8 × List UInt8))
    (hkvs : ∀ p ∈ kvs, OneChunk L keyChunkSize p.1 ∧ OneChunk L chunkSize p.2)
    (hmax : (kvs.map fun p => p.2.length).sum ≤ MaxTxValueLen) :
    StreamSet keyChunkSize chunkSize (clientStreamSet L hL kvs) = .ok kvs := by
  have hr := between_NewMsgReceiver (clientStreamSet L hL kvs)
  rw [← List.append_nil (clientStreamSet L hL kvs)] at hr
  obtain ⟨r', hr', heq⟩ :=
    streamSetLoop_one_chunk_pairs hL hK hD [] kvs hkvs [] 0 (by omega) hr
  unfold StreamSet
  rw [List.append_nil] at heq
  rw [heq, streamSetLoop_end hr', List.nil_append]

/-- Two pairs of one byte each, with the key reader of the default chunk size and values read
one byte at a time. -/
theorem StreamSet_two_pairs :
    StreamSet DefaultChunkSize 1 (clientStreamSet 9 (by decide) [([1], [2]), ([3], [4])]) =
      .ok [([1], [2]), ([3], [4])] :=
  StreamSet_one_chunk_pairs 9 (by decide) DefaultChunkSize 1 (by decide) (by decide) _
    (by simp [OneChunk, DefaultChunkSize]) (by decide)


/-- A pair with a value of no bytes ends the batch: `StreamSet` passes the pairs before it and
that pair to `db.Set`, and drops every pair after it. -/
theorem StreamSet_drops_after_empty_value (L : Nat) (hL : 8 ≤ L) (keyChunkSize chunkSize : Nat)
    (hK : keyChunkSize < 2 ^ 63) (hD : chunkSize < 2 ^ 63) (ps : List (List UInt8 × List UInt8))
    (hps : ∀ p ∈ ps, OneChunk L keyChunkSize p.1 ∧ OneChunk L chunkSize p.2)
    (hmax : (ps.map fun p => p.2.length).sum ≤ MaxTxValueLen) (k : List UInt8)
    (hk : OneChunk L keyChunkSize k) (rest : List (List UInt8 × List UInt8)) :
    StreamSet keyChunkSize chunkSize (clientStreamSet L hL (ps ++ (k, []) :: rest)) =
      .ok (ps ++ [(k, [])]) := by
  obtain ⟨hk0, hkL, hkD⟩ := hk
  have hchunks : clientStreamSet L hL (ps ++ (k, []) :: rest) =
      clientStreamSet L hL ps ++ (be 8 k.length ++ k) :: be 8 0 :: clientStreamSet L hL rest := by
    have hcons : clientStreamSet L hL ((k, []) :: rest) = (be 8 k.length ++ k) ::
        (be 8 ([] : List UInt8).length ++ []) :: clientStreamSet L hL rest :=
      clientStreamSet_cons hkL (by simpa using hL)
    simp only [List.length_nil, List.append_nil] at hcons
    rw [clientStreamSet_append, hcons]
  have hr := between_NewMsgReceiver (clientStreamSet L hL (ps ++ (k, []) :: rest))
  rw [hchunks] at hr
  -- the pairs before it go through, then the key is read and its value reads as `io.EOF`
  obtain ⟨r', hr', heq⟩ := streamSetLoop_one_chunk_pairs hL hK hD _ ps hps [] 0 (by omega) hr
  unfold StreamSet
  rw [hchunks, heq, streamSetLoop_empty_value hr' hk0 hkD hK, List.nil_append]

/-- The batch `[([1], []), ([2], [3])]` with chunks of nine bytes, to a server started with a
chunk size of one: the second pair is lost. -/
theorem StreamSet_drops_second_pair :
    StreamSet DefaultChunkSize 1 (clientStreamSet 9 (by decide) [([1], []), ([2], [3])]) =
      .ok [([1], [])] :=
  StreamSet_drops_after_empty_value 9 (by decide) DefaultChunkSize 1 (by decide) (by decide) []
    (by simp) (by decide) [1] ⟨by simp, by decide, by simp [DefaultChunkSize]⟩ [([2], [3])]

end Immudb.Stream
