import Immudb.Lib.Bytes

/-!
# `Immudb/Stream/Receiver.lean` — reading messages back out of a stream of chunks

`pkg/stream/receiver.go` and `kvparser.go`. A message goes over a gRPC stream as chunks: the
first begins with the message's length, eight bytes big-endian, and the data follows in as many
chunks as it takes. `msgReceiver.ReadFully` reads one message whole. `msgReceiver.Read` hands
it out in pieces of at most the caller's buffer: it keeps the bytes received in a buffer `b`,
the message's length in `tl` once read (`tl = 0` until then) and the bytes handed out in `s`,
and after the last piece of a message it answers one call with `(0, nil)` (`msgSend`).
`ReadValue` reads one message through `Read`, buffer by buffer.

Both receivers take the length from bytes the client chose and convert it to a Go `int`. A
length of `2 ^ 63` or more is negative as an `int`; `make([]byte, n)` with a negative `n` panics,
and both come to one (`Read_panics_iff`, `ReadFully_panics_iff`). `ReadFully` also makes its
buffer the declared length before any data has come (`ReadFully_length`).

`Read`'s outer loop is a recursion on the bytes still to come: a turn of it that neither returns
nor fails has received a chunk or read the length (`readTurn_again_size`).

The stream is the list of chunks the client sent, each as one `Recv`; after the last `Recv`
returns `io.EOF`. Errors of the transport, which each function only passes on, and the chunks'
metadata are left out. A Go `int` that holds a length is that length; `tl` and `s`, whose
arithmetic can wrap, are `Int64`.
-/

set_option autoImplicit false

namespace Immudb.Stream

open Bytes

/-- The errors of the receivers and of `StreamSet`, and the runtime panic of `make([]byte, n)`
with `n < 0`. -/
inductive StreamError where
  | EOF
  | ChunkTooSmall
  | MaxTxValuesLenExceeded
  /-- the runtime panic of `make([]byte, n)` with `n < 0` -/
  | makeSliceLen
  deriving DecidableEq, Repr

/-- The runtime panics among the errors. -/
def StreamError.IsPanic (e : StreamError) : Prop := e = .makeSliceLen

/-- `int(binary.BigEndian.Uint64(b))` of eight bytes on a 64-bit platform: two's complement. -/
def goInt (b : List UInt8) : Int64 := Int64.ofNat (ofBE b)

/-- `make([]byte, n)`: `n` zero bytes, or a panic for a negative `n`. -/
def makeBytes (n : Int64) : Except StreamError (List UInt8) :=
  if n < 0 then throw .makeSliceLen else pure (List.replicate n.toInt.toNat 0)

/-- `b.Read(p)` of a `bytes.Buffer` holding `b`, into a `p` of `n` bytes: the bytes read, at most
`n`, and those left; `io.EOF` from an empty buffer unless `p` is empty. -/
def bufferRead (b : List UInt8) (n : Nat) : Except StreamError (List UInt8 × List UInt8) :=
  if b = [] ∧ 0 < n then throw .EOF else pure (b.take n, b.drop n)

/-! ## 1. `ReadFully` -/

/-- The loop of `ReadFully`: chunks are copied into `b` from `read` on while fewer than
`msgSize` bytes have come; the end of the stream before that is `io.EOF`. -/
def readFullyLoop (msgSize : Int) (b : List UInt8) (read : Nat) :
    List (List UInt8) → List UInt8 × Option StreamError
  | [] => if read < msgSize then (b, some .EOF) else (b, none)
  | c :: rest =>
    if read < msgSize then readFullyLoop msgSize (copyAt b read c) (read + c.length) rest
    else (b, none)

/-- `msgReceiver.ReadFully` on the chunks of a stream: the message buffer and the error it is
returned with, or an error before the buffer is made. -/
def ReadFully : List (List UInt8) → Except StreamError (List UInt8 × Option StreamError)
  | [] => throw .EOF
  | firstChunk :: rest => do
    if firstChunk.length < 8 then throw .ChunkTooSmall
    let msgSize := goInt (firstChunk.take 8)
    let b ← makeBytes msgSize
    let b := copyAt b 0 (firstChunk.drop 8)
    pure (readFullyLoop msgSize.toInt b (firstChunk.length - 8) rest)

/-! ## 2. `Read` -/

/-- `msgReceiver`: the chunks still to come, the unread bytes of its buffer `b`, and `eof`, the
message length `tl`, the bytes of the message handed out `s` and `msgSend`. -/
structure msgReceiver where
  stream : List (List UInt8)
  b : List UInt8
  eof : Bool
  tl : Int64
  s : Int64
  msgSend : Bool

/-- `NewMsgReceiver(stream)`. -/
def NewMsgReceiver (stream : List (List UInt8)) : msgReceiver :=
  { stream, b := [], eof := false, tl := 0, s := 0, msgSend := false }

/-- The loop `bufferLoad` of `Read`: while the buffer holds at most `n` bytes, a chunk is received
into it. The buffer and chunks after it, and whether the end of the stream was met. -/
def bufferLoad (n : Nat) (b : List UInt8) :
    List (List UInt8) → List UInt8 × List (List UInt8) × Bool
  | [] => (b, [], decide (b.length ≤ n))
  | c :: rest => if b.length ≤ n then bufferLoad n (b ++ c) rest else (b, c :: rest, false)

/-- The trailer initialization: without a message length (`tl = 0`) the next eight bytes of the
buffer are read as one, zeros standing for those missing. -/
def readTrailer (r : msgReceiver) : Except StreamError msgReceiver :=
  if r.tl = 0 then do
    let (trailer, rest) ← bufferRead r.b 8
    pure { r with b := rest, tl := goInt (copyN 8 trailer) }
  else pure r

/-- How a turn of `Read`'s outer loop ends: with the bytes handed out, or going round again. -/
inductive Turn where
  | done (data : List UInt8)
  | again

/-- The rest of a turn of `Read` into a buffer of `n` bytes, after the length is known: the
message's last piece when it fits the buffer, else a full buffer when there are more bytes. -/
def sendTurn (n : Nat) (r : msgReceiver) : EStateM.Result StreamError msgReceiver Turn :=
  -- no more data in stream but buffer is not enough large to contains the expected value
  if r.eof ∧ (r.b.length : Int) < (r.tl - r.s).toInt then .error .EOF r
  else
    -- `(msgInFirstChunk || lastRead) && !lastMessageSizeTooBig`
    if (r.tl.toInt ≤ r.b.length ∨ (r.tl - r.s).toInt ≤ n) ∧ ¬(n : Int) < (r.tl - r.s).toInt then
      match makeBytes (r.tl - r.s) with
      | .error e => .error e r
      | .ok lmsg =>
        match bufferRead r.b lmsg.length with
        | .error e => .error e r
        | .ok (got, rest) =>
          .ok (.done ((copyAt lmsg 0 got).take n))
            { r with b := rest, tl := 0, msgSend := true, s := 0 }
    else if n < r.b.length then
      match bufferRead r.b n with
      | .error e => .error e r
      | .ok (got, rest) => .ok (.done got) { r with b := rest, s := r.s + Int64.ofNat got.length }
    else .ok .again r

/-- One turn of `Read`'s outer loop. -/
def readTurn (n : Nat) (r : msgReceiver) : EStateM.Result StreamError msgReceiver Turn :=
  let (b, stream, hitEOF) := bufferLoad n r.b r.stream
  let r := { r with b, stream, eof := r.eof || hitEOF }
  match readTrailer r with
  | .error e => .error e r
  | .ok r => sendTurn n r


/-- What is still to be read: the bytes of the buffer, and twice the bytes and the chunks to
come. Receiving a chunk moves its bytes into the buffer and so lowers it. -/
def msgReceiver.unread (r : msgReceiver) : Nat :=
  r.b.length + 2 * (r.stream.flatten.length + r.stream.length)

/-- `bufferLoad` only moves chunks into the buffer. -/
theorem bufferLoad_unread (n : Nat) : ∀ (st : List (List UInt8)) (b : List UInt8),
    (bufferLoad n b st).1.length +
        2 * ((bufferLoad n b st).2.1.flatten.length + (bufferLoad n b st).2.1.length) ≤
      b.length + 2 * (st.flatten.length + st.length)
  | [], b => by simp [bufferLoad]
  | c :: rest, b => by
    unfold bufferLoad
    split_ifs
    · have ih := bufferLoad_unread n rest (b ++ c)
      simp only [List.length_append, List.flatten_cons, List.length_cons] at ih ⊢
      omega
    · exact le_refl _

/-- `bufferLoad` meets the end of the stream exactly when it stops with at most `n` bytes. -/
theorem bufferLoad_hitEOF (n : Nat) : ∀ (st : List (List UInt8)) (b : List UInt8),
    (bufferLoad n b st).2.2 = decide ((bufferLoad n b st).1.length ≤ n)
  | [], b => rfl
  | c :: rest, b => by
    unfold bufferLoad
    split_ifs with h
    · exact bufferLoad_hitEOF n rest (b ++ c)
    · simp [h]

/-- `readTrailer` reads the length from the buffer, or leaves the receiver as it is. -/
theorem readTrailer_ok {r r' : msgReceiver} (h : readTrailer r = .ok r') :
    r' = r ∨ (r.tl = 0 ∧ r'.stream = r.stream ∧ r'.eof = r.eof ∧ r'.b.length < r.b.length) := by
  unfold readTrailer at h
  split_ifs at h with htl
  · -- the eight bytes come from a buffer that is not empty
    unfold bufferRead at h
    split_ifs at h with hb
    · cases h
    · have hne : r.b ≠ [] := fun he => hb ⟨he, by decide⟩
      have hpos : 0 < r.b.length := List.length_pos_iff.mpr hne
      cases h
      exact .inr ⟨htl, rfl, rfl, by simp only [List.length_drop]; omega⟩
  · cases h
    exact .inl rfl

/-- A turn goes round again only with the receiver as it was, at most `n` bytes in the buffer,
more than `n` of the message to come and the stream not ended. -/
theorem sendTurn_again {n : Nat} {r r' : msgReceiver} (h : sendTurn n r = .ok .again r') :
    r' = r ∧ r.b.length ≤ n ∧ (n : Int) < (r.tl - r.s).toInt ∧ r.eof = false := by
  unfold sendTurn at h
  split_ifs at h with heof hsend
  · -- the branch that sends the last piece always ends the turn
    split at h
    · cases h
    · split at h <;> cases h
  · split at h <;> cases h
  · cases h
    have hbig : (n : Int) < (r.tl - r.s).toInt := by
      by_contra hle
      exact hsend ⟨.inr (by omega), hle⟩
    refine ⟨rfl, by omega, hbig, ?_⟩
    cases he : r.eof
    · rfl
    · exact absurd ⟨he, by omega⟩ heof

/-- A turn that goes round again has received a chunk or read the length. -/
theorem readTurn_again_size {n : Nat} {r r' : msgReceiver} (h : readTurn n r = .ok .again r') :
    r'.unread < r.unread := by
  unfold readTurn at h
  obtain ⟨⟨b₁, st₁, hit⟩, hload⟩ : ∃ l, bufferLoad n r.b r.stream = l := ⟨_, rfl⟩
  have hsize := bufferLoad_unread n r.stream r.b
  have hflag := bufferLoad_hitEOF n r.stream r.b
  rw [hload] at h hsize hflag
  simp only at h hsize hflag
  split at h
  · cases h
  · next r₂ htr =>
    obtain ⟨rfl, hle, -, heof⟩ := sendTurn_again h
    rcases readTrailer_ok htr with rfl | ⟨-, hst, heof₂, hshort⟩
    · -- without a length to read the turn would have stopped loading with more than `n` bytes
      simp only [Bool.or_eq_false_iff] at heof
      rw [heof.2] at hflag
      exact absurd hle (by simpa using hflag.symm)
    · dsimp only at hst hshort
      simp only [msgReceiver.unread] at hsize ⊢
      rw [hst]
      omega

set_option linter.unusedVariables false in
/-- `Read`'s outer loop. -/
def readLoop (n : Nat) (r : msgReceiver) : EStateM.Result StreamError msgReceiver (List UInt8) :=
  match h : readTurn n r with
  | .ok (.done data) r' => .ok data r'
  | .ok .again r' => readLoop n r'
  | .error e r' => .error e r'
termination_by r.unread
decreasing_by exact readTurn_again_size h

/-- `msgReceiver.Read(data)` into a buffer of `n` bytes: the bytes handed out. -/
def Read (n : Nat) (r : msgReceiver) : EStateM.Result StreamError msgReceiver (List UInt8) :=
  if r.msgSend then .ok [] { r with msgSend := false }
  -- if message is fully received and there is no more data in stream 0 and EOF is returned
  else if r.eof ∧ r.b = [] then .error .EOF r
  else readLoop n r


/-! ## 3. What a call reads -/

/-- A turn that fails leaves the receiver as it was, but for the chunks it received. -/
theorem sendTurn_error {n : Nat} {r r' : msgReceiver} {e : StreamError}
    (h : sendTurn n r = .error e r') : r' = r := by
  unfold sendTurn at h
  split_ifs at h
  · cases h
    rfl
  · split at h
    · cases h
      rfl
    · split at h
      · cases h
        rfl
      · cases h
  · split at h
    · cases h
      rfl
    · cases h

/-- A turn that hands out bytes takes them from the buffer, and leaves the chunks alone. -/
theorem sendTurn_done {n : Nat} {r r' : msgReceiver} {data : List UInt8}
    (h : sendTurn n r = .ok (.done data) r') :
    r'.stream = r.stream ∧ r'.b.length ≤ r.b.length ∧ (data = [] ∨ r'.b.length < r.b.length) := by
  unfold sendTurn at h
  split_ifs at h with heof hsend hlen
  · split at h
    · cases h
    · next lmsg hmk =>
      unfold bufferRead at h
      split_ifs at h with hb
      cases h
      refine ⟨rfl, by simp, ?_⟩
      -- a piece that is not empty comes from a buffer that is not empty
      by_cases hl : lmsg.length = 0
      · left
        simp [List.length_eq_zero_iff.mp hl, copyAt]
      · right
        have hne : r.b ≠ [] := fun he => hb ⟨he, by omega⟩
        have := List.length_pos_iff.mpr hne
        simp only [List.length_drop]
        omega
  · unfold bufferRead at h
    split_ifs at h
    cases h
    refine ⟨rfl, by simp, ?_⟩
    by_cases hn : n = 0
    · left
      simp [hn]
    · right
      simp only [List.length_drop]
      omega
  · cases h

/-- What a turn reads, it reads from the buffer or the stream. -/
theorem readTurn_unread {n : Nat} {r : msgReceiver} :
    (∀ e r', readTurn n r = .error e r' → r'.unread ≤ r.unread) ∧
    (∀ data r', readTurn n r = .ok (.done data) r' →
      r'.unread ≤ r.unread ∧ (data = [] ∨ r'.unread < r.unread)) := by
  unfold readTurn
  obtain ⟨⟨b₁, st₁, hit⟩, hload⟩ : ∃ l, bufferLoad n r.b r.stream = l := ⟨_, rfl⟩
  have hsize := bufferLoad_unread n r.stream r.b
  rw [hload] at hsize ⊢
  simp only at hsize ⊢
  split
  · next e htr =>
    refine ⟨fun e' r' h => ?_, fun data r' h => (by cases h)⟩
    cases h
    simpa [msgReceiver.unread] using hsize
  · next r₂ htr =>
    -- the length is read from the buffer, so the turn starts from no more than it loaded
    have h₂ : r₂.unread ≤ r.unread := by
      rcases readTrailer_ok htr with rfl | ⟨-, hst, -, hshort⟩
      · simpa [msgReceiver.unread] using hsize
      · dsimp only at hst hshort
        simp only [msgReceiver.unread] at hsize ⊢
        rw [hst]
        omega
    refine ⟨fun e r' h => ?_, fun data r' h => ?_⟩
    · rw [sendTurn_error h]
      exact h₂
    · obtain ⟨hst, hle, hdata⟩ := sendTurn_done h
      simp only [msgReceiver.unread] at h₂ ⊢
      rw [hst]
      exact ⟨by omega, hdata.imp id fun hlt => by omega⟩

/-- What `Read` reads: never more than there was, and something whenever it hands bytes out. -/
theorem readLoop_unread (n : Nat) (r : msgReceiver) :
    (∀ e r', readLoop n r = .error e r' → r'.unread ≤ r.unread) ∧
    (∀ data r', readLoop n r = .ok data r' →
      r'.unread ≤ r.unread ∧ (data = [] ∨ r'.unread < r.unread)) := by
  fun_induction readLoop n r with
  | case1 r data r' h =>
    refine ⟨fun e r'' he => (by cases he), fun d r'' hd => ?_⟩
    cases hd
    exact readTurn_unread.2 data r' h
  | case2 r r' h ih =>
    -- a turn that goes round again has read something, and the rest of the loop no more
    have hlt := readTurn_again_size h
    refine ⟨fun e r'' he => le_of_lt (lt_of_le_of_lt (ih.1 e r'' he) hlt), fun d r'' hd => ?_⟩
    have hle := (ih.2 d r'' hd).1
    exact ⟨le_of_lt (lt_of_le_of_lt hle hlt), .inr (lt_of_le_of_lt hle hlt)⟩
  | case3 r e r' h =>
    refine ⟨fun e' r'' he => ?_, fun d r'' hd => (by cases hd)⟩
    cases he
    exact readTurn_unread.1 e r' h

theorem Read_unread (n : Nat) (r : msgReceiver) :
    (∀ e r', Read n r = .error e r' → r'.unread ≤ r.unread) ∧
    (∀ data r', Read n r = .ok data r' →
      r'.unread ≤ r.unread ∧ (data = [] ∨ r'.unread < r.unread)) := by
  unfold Read
  split_ifs
  · refine ⟨fun e r' h => (by cases h), fun data r' h => ?_⟩
    cases h
    exact ⟨le_refl _, .inl rfl⟩
  · refine ⟨fun e r' h => ?_, fun data r' h => (by cases h)⟩
    cases h
    exact le_refl _
  · exact readLoop_unread n r


/-! ## 4. `ReadValue` -/

set_option linter.unusedVariables false in
/-- The loop of `ReadValue(vr, bufferSize)`: each read overwrites the front of `chunk`, and the
whole of `chunk` is written to the buffer `buf`; `vl` counts the bytes read. -/
def readValueLoop (bufferSize : Nat) (chunk buf : List UInt8) (vl : Nat) (r : msgReceiver) :
    EStateM.Result StreamError msgReceiver (List UInt8 × Nat) :=
  match h : Read bufferSize r with
  | .error .EOF r' => .ok (buf ++ chunk, vl) r'
  | .error e r' => .error e r'
  | .ok data r' =>
    let chunk := copyAt chunk 0 data
    -- a read of nothing is the end of the message
    if hl : data.length = 0 then .ok (buf ++ chunk, vl) r'
    else readValueLoop bufferSize chunk (buf ++ chunk) (vl + data.length) r'
termination_by r.unread
decreasing_by
  rcases ((Read_unread bufferSize r).2 data r' h).2 with hd | hlt
  · exact absurd (by rw [hd]; rfl) hl
  · exact hlt

/-- `ReadValue(vr, bufferSize)`: the message, or `io.EOF` for one of no bytes. -/
def ReadValue (bufferSize : Nat) (r : msgReceiver) :
    EStateM.Result StreamError msgReceiver (List UInt8) :=
  match readValueLoop bufferSize (List.replicate bufferSize 0) [] 0 r with
  | .error e r' => .error e r'
  | .ok (buf, vl) r' =>
    if vl = 0 then .error .EOF r'
    else
      match bufferRead buf vl with
      | .error e => .error e r'
      | .ok (got, _) => .ok (copyAt (List.replicate vl 0) 0 got) r'

/-- `ReadValue`'s loop reads no more than there was, and something when it counts bytes. -/
theorem readValueLoop_unread (bufferSize : Nat) (chunk buf : List UInt8) (vl : Nat)
    (r : msgReceiver) :
    (∀ e r', readValueLoop bufferSize chunk buf vl r = .error e r' → r'.unread ≤ r.unread) ∧
    (∀ buf' vl' r', readValueLoop bufferSize chunk buf vl r = .ok (buf', vl') r' →
      r'.unread ≤ r.unread ∧ (vl' = vl ∨ r'.unread < r.unread)) := by
  fun_induction readValueLoop bufferSize chunk buf vl r with
  | case1 chunk buf vl r r' h =>
    refine ⟨fun e r'' he => (by cases he), fun buf' vl' r'' hok => ?_⟩
    cases hok
    exact ⟨(Read_unread bufferSize r).1 _ r' h, .inl rfl⟩
  | case2 chunk buf vl r e r' hne h =>
    refine ⟨fun e' r'' he => ?_, fun buf' vl' r'' hok => (by cases hok)⟩
    cases he
    exact (Read_unread bufferSize r).1 e r' h
  | case3 chunk buf vl r data r' h chunk' hl =>
    refine ⟨fun e r'' he => (by cases he), fun buf' vl' r'' hok => ?_⟩
    cases hok
    exact ⟨((Read_unread bufferSize r).2 data r' h).1, .inl rfl⟩
  | case4 chunk buf vl r data r' h chunk' hl ih =>
    -- the read handed out bytes, so it took them from what was unread
    have hlt : r'.unread < r.unread := by
      rcases ((Read_unread bufferSize r).2 data r' h).2 with hd | hlt
      · exact absurd (by rw [hd]; rfl) hl
      · exact hlt
    refine ⟨fun e r'' he => le_of_lt (lt_of_le_of_lt (ih.1 e r'' he) hlt),
      fun buf' vl' r'' hok => ?_⟩
    have hle := (ih.2 buf' vl' r'' hok).1
    exact ⟨le_of_lt (lt_of_le_of_lt hle hlt), .inr (lt_of_le_of_lt hle hlt)⟩

/-- A value read whole was taken from what was unread. -/
theorem ReadValue_unread (bufferSize : Nat) (r : msgReceiver) :
    (∀ e r', ReadValue bufferSize r = .error e r' → r'.unread ≤ r.unread) ∧
    (∀ value r', ReadValue bufferSize r = .ok value r' → r'.unread < r.unread) := by
  have hloop := readValueLoop_unread bufferSize (List.replicate bufferSize 0) [] 0 r
  unfold ReadValue
  split
  · next e r' h =>
    refine ⟨fun e' r'' he => ?_, fun v r'' hv => (by cases hv)⟩
    cases he
    exact hloop.1 e r' h
  · next buf vl r' h =>
    obtain ⟨hle, hvl⟩ := hloop.2 buf vl r' h
    split_ifs with h0
    · refine ⟨fun e' r'' he => ?_, fun v r'' hv => (by cases hv)⟩
      cases he
      exact hle
    · -- bytes were counted, so some read handed them out
      have hlt : r'.unread < r.unread := hvl.resolve_left h0
      split
      · refine ⟨fun e' r'' he => ?_, fun v r'' hv => (by cases hv)⟩
        cases he
        exact hle
      · refine ⟨fun e' r'' he => (by cases he), fun v r'' hv => ?_⟩
        cases hv
        exact hlt


/-! ## 5. The length a client declares -/

/-- A result that is a panic. -/
def Panics {α : Type} : Except StreamError α → Prop
  | .ok _ => False
  | .error e => e.IsPanic

/-- A call on a receiver that ends in a panic. -/
def PanicsOn {σ α : Type} : EStateM.Result StreamError σ α → Prop
  | .ok _ _ => False
  | .error e _ => e.IsPanic

/-- Eight bytes read as a Go `int` are negative from `2 ^ 63` on. -/
theorem goInt_neg_iff {b : List UInt8} (hb : b.length = 8) :
    (goInt b).toInt < 0 ↔ 2 ^ 63 ≤ ofBE b := by
  have hlt := ofBE_lt b
  rw [hb] at hlt
  rw [goInt, Int64.toInt_ofNat', Int.bmod_def]
  norm_num [Int64.size] at hlt ⊢
  split_ifs <;> omega

/-- Eight bytes are `2 ^ 63` or more exactly when the top bit of the first is set. -/
theorem two_pow_le_ofBE_iff {x : UInt8} {ys : List UInt8} (h : ys.length = 7) :
    2 ^ 63 ≤ ofBE (x :: ys) ↔ 128 ≤ x.toNat := by
  have hys := ofBE_lt ys
  rw [h] at hys
  rw [ofBE_cons, h]
  norm_num at hys ⊢
  omega

/-- The trailer `Read` makes of a buffer starting with `x`: eight bytes starting with `x`. -/
theorem copyN_trailer (x : UInt8) (t : List UInt8) :
    ∃ ys, copyN 8 ((x :: t).take 8) = x :: ys ∧ ys.length = 7 := by
  refine ⟨t.take 7 ++ List.replicate (8 - (x :: t.take 7).length) 0, ?_, ?_⟩
  · simp [copyN, List.take_succ_cons, List.take_take]
  · simp only [List.length_append, List.length_take, List.length_replicate, List.length_cons]
    omega

/-- The length `Read` takes from a buffer starting with `x` is negative exactly when the top bit
of `x` is set. -/
theorem trailer_neg_iff (x : UInt8) (t : List UInt8) :
    (goInt (copyN 8 ((x :: t).take 8))).toInt < 0 ↔ 128 ≤ x.toNat := by
  obtain ⟨ys, hys, hlen⟩ := copyN_trailer x t
  rw [hys, goInt_neg_iff (by simp [hlen]), two_pow_le_ofBE_iff hlen]

/-- `make([]byte, n)` panics exactly for a negative `n`. -/
theorem makeBytes_panics_iff (n : Int64) : Panics (makeBytes n) ↔ n.toInt < 0 := by
  unfold makeBytes
  by_cases h : n < 0
  · rw [if_pos h]
    exact iff_of_true rfl (Int64.lt_iff_toInt_lt.mp h)
  · rw [if_neg h]
    exact iff_of_false id (by rw [Int64.lt_iff_toInt_lt] at h; exact h)

theorem readFullyLoop_length (msgSize : Int) :
    ∀ (chunks : List (List UInt8)) (b : List UInt8) (read : Nat),
      (readFullyLoop msgSize b read chunks).1.length = b.length
  | [], b, read => by
    unfold readFullyLoop
    split_ifs <;> rfl
  | c :: rest, b, read => by
    unfold readFullyLoop
    split_ifs
    · rw [readFullyLoop_length msgSize rest, length_copyAt]
    · rfl

/-- `ReadFully` panics exactly when the first chunk declares `2 ^ 63` bytes or more. -/
theorem ReadFully_panics_iff (stream : List (List UInt8)) :
    Panics (ReadFully stream) ↔
      ∃ c rest, stream = c :: rest ∧ 8 ≤ c.length ∧ 2 ^ 63 ≤ ofBE (c.take 8) := by
  cases stream with
  | nil => exact iff_of_false (fun h => by cases h) fun ⟨c, rest, h, _⟩ => by cases h
  | cons c rest =>
    simp only [ReadFully]
    by_cases hlen : c.length < 8
    · rw [if_pos hlen]
      refine iff_of_false (fun h => by cases h) fun ⟨c', rest', h, h8, _⟩ => ?_
      cases h
      omega
    · have h8 : (c.take 8).length = 8 := by simp only [List.length_take]; omega
      have hrhs : (∃ c' rest', c :: rest = c' :: rest' ∧ 8 ≤ c'.length ∧
          2 ^ 63 ≤ ofBE (c'.take 8)) ↔ 2 ^ 63 ≤ ofBE (c.take 8) := by
        refine ⟨fun ⟨c', rest', h, _, hp⟩ => ?_, fun hp => ⟨c, rest, rfl, by omega, hp⟩⟩
        cases h
        exact hp
      rw [if_neg hlen, hrhs, ← goInt_neg_iff h8, ← makeBytes_panics_iff]
      -- the buffer is made before any data arrives, from the length alone
      cases makeBytes (goInt (c.take 8)) <;> exact Iff.rfl

/-- `ReadFully` makes the message buffer as long as the first chunk says, whatever comes. -/
theorem ReadFully_length {stream : List (List UInt8)} {b : List UInt8}
    {err : Option StreamError} (h : ReadFully stream = .ok (b, err)) :
    ∃ c rest, stream = c :: rest ∧ b.length = ofBE (c.take 8) := by
  cases stream with
  | nil => cases h
  | cons c rest =>
    simp only [ReadFully] at h
    by_cases hlen : c.length < 8
    · rw [if_pos hlen] at h
      cases h
    rw [if_neg hlen] at h
    have h8 : (c.take 8).length = 8 := by simp only [List.length_take]; omega
    cases hmk : makeBytes (goInt (c.take 8)) with
    | error e =>
      rw [hmk] at h
      cases h
    | ok buf =>
      rw [hmk] at h
      have hb : b = (readFullyLoop (goInt (c.take 8)).toInt (copyAt buf 0 (c.drop 8))
          (c.length - 8) rest).1 := (congrArg Prod.fst (Except.ok.inj h)).symm
      refine ⟨c, rest, rfl, ?_⟩
      rw [hb, readFullyLoop_length, length_copyAt]
      unfold makeBytes at hmk
      split_ifs at hmk with hneg
      cases hmk
      -- a length below `2 ^ 63` is its own value as an `int`
      have hpos : ¬2 ^ 63 ≤ ofBE (c.take 8) := by
        rw [← goInt_neg_iff h8]
        exact fun h => hneg (Int64.lt_iff_toInt_lt.mpr h)
      rw [List.length_replicate, goInt, Int64.toInt_ofNat_of_lt (by omega)]
      simp


/-! ## 6. `Read` on a negative length -/

theorem bufferLoad_prefix (n : Nat) : ∀ (st : List (List UInt8)) (b : List UInt8),
    ∃ j, (bufferLoad n b st).1 = b ++ (st.take j).flatten ∧ (bufferLoad n b st).2.1 = st.drop j
  | [], b => ⟨0, by simp [bufferLoad]⟩
  | c :: rest, b => by
    unfold bufferLoad
    split_ifs
    · obtain ⟨j, h₁, h₂⟩ := bufferLoad_prefix n rest (b ++ c)
      exact ⟨j + 1, by rw [h₁]; simp, by rw [h₂]; simp⟩
    · exact ⟨0, by simp, by simp⟩

/-- `bufferLoad` keeps every byte in its place: the buffer, then the chunks still to come. -/
theorem bufferLoad_append (n : Nat) (st : List (List UInt8)) (b : List UInt8) :
    (bufferLoad n b st).1 ++ (bufferLoad n b st).2.1.flatten = b ++ st.flatten := by
  obtain ⟨j, h₁, h₂⟩ := bufferLoad_prefix n st b
  rw [h₁, h₂, List.append_assoc, ← List.flatten_append, List.take_append_drop]

/-- `bufferLoad` stops with at most `n` bytes only at the end of the stream. -/
theorem bufferLoad_exhausted (n : Nat) : ∀ (st : List (List UInt8)) (b : List UInt8),
    (bufferLoad n b st).1.length ≤ n → (bufferLoad n b st).2.1 = []
  | [], _, _ => rfl
  | c :: rest, b, h => by
    unfold bufferLoad at h ⊢
    split_ifs at h ⊢ with hb
    · exact bufferLoad_exhausted n rest (b ++ c) h
    · exact absurd h hb

theorem bufferRead_error {b : List UInt8} {n : Nat} {e : StreamError}
    (h : bufferRead b n = .error e) : e = .EOF := by
  unfold bufferRead at h
  split_ifs at h
  · exact (Except.error.inj h).symm
  · cases h

theorem makeBytes_error {n : Int64} {e : StreamError} (h : makeBytes n = .error e) :
    e = .makeSliceLen ∧ n.toInt < 0 := by
  unfold makeBytes at h
  split_ifs at h with hn
  · exact ⟨(Except.error.inj h).symm, Int64.lt_iff_toInt_lt.mp hn⟩
  · cases h

theorem readTrailer_error {r : msgReceiver} {e : StreamError} (h : readTrailer r = .error e) :
    e = .EOF := by
  unfold readTrailer at h
  split_ifs at h
  · cases hb : bufferRead r.b 8 with
    | error e' =>
      rw [hb] at h
      exact (Except.error.inj h) ▸ bufferRead_error hb
    | ok p =>
      rw [hb] at h
      cases h
  · cases h

/-- The length read from a buffer that is not empty. -/
theorem readTrailer_of_cons {r : msgReceiver} {x : UInt8} {t : List UInt8} (htl : r.tl = 0)
    (hb : r.b = x :: t) :
    readTrailer r = .ok { r with b := (x :: t).drop 8, tl := goInt (copyN 8 ((x :: t).take 8)) } := by
  unfold readTrailer bufferRead
  rw [if_pos htl, hb, if_neg (by simp)]
  rfl

theorem readTrailer_nil {r : msgReceiver} (htl : r.tl = 0) (hb : r.b = []) :
    readTrailer r = .error .EOF := by
  unfold readTrailer bufferRead
  rw [if_pos htl, hb, if_pos ⟨rfl, by decide⟩]
  rfl

/-- A turn fails with `io.EOF`, or panics on a negative length still to hand out. -/
theorem sendTurn_error_cases {n : Nat} {r r' : msgReceiver} {e : StreamError}
    (h : sendTurn n r = .error e r') :
    e = .EOF ∨ (e = .makeSliceLen ∧ (r.tl - r.s).toInt < 0) := by
  unfold sendTurn at h
  split_ifs at h
  · cases h
    exact .inl rfl
  · split at h
    · next e' hmk =>
      cases h
      exact .inr ⟨(makeBytes_error hmk).1, (makeBytes_error hmk).2⟩
    · split at h
      · next e' _ hrd =>
        cases h
        exact .inl (bufferRead_error hrd)
      · cases h
  · split at h
    · next e' hrd =>
      cases h
      exact .inl (bufferRead_error hrd)
    · cases h

/-- With a negative length still to hand out, a turn panics: the last piece seems to fit. -/
theorem sendTurn_panics {n : Nat} {r : msgReceiver} (hneg : (r.tl - r.s).toInt < 0) :
    sendTurn n r = .error .makeSliceLen r := by
  have hmk : makeBytes (r.tl - r.s) = .error .makeSliceLen := by
    unfold makeBytes
    rw [if_pos (Int64.lt_iff_toInt_lt.mpr (by simpa using hneg))]
    rfl
  unfold sendTurn
  rw [if_neg (fun h => absurd h.2 (by omega)), if_pos ⟨.inr (by omega), by omega⟩, hmk]

theorem readLoop_of_error {n : Nat} {r r' : msgReceiver} {e : StreamError}
    (h : readTurn n r = .error e r') : readLoop n r = .error e r' := by
  rw [readLoop]
  split <;> simp_all


/-- What keeps `Read` off a negative length: nothing of the message handed out yet, a length
that is not negative, and, while none is read, a first byte to come without the top bit. -/
def SafeLength (r : msgReceiver) : Prop :=
  r.s = 0 ∧ 0 ≤ r.tl.toInt ∧ (r.tl = 0 → ∀ x ∈ (r.b ++ r.stream.flatten).head?, x.toNat < 128)

/-- From a `SafeLength` receiver a turn fails only with `io.EOF`, and goes round again to one. -/
theorem readTurn_safe {n : Nat} {r : msgReceiver} (hr : SafeLength r) :
    (∀ e r', readTurn n r = .error e r' → e = .EOF) ∧
    (∀ r', readTurn n r = .ok .again r' → SafeLength r') := by
  obtain ⟨hs, htl, hhead⟩ := hr
  unfold readTurn
  obtain ⟨⟨b₁, st₁, hit⟩, hload⟩ : ∃ l, bufferLoad n r.b r.stream = l := ⟨_, rfl⟩
  have happ := bufferLoad_append n r.stream r.b
  rw [hload] at happ ⊢
  simp only at happ ⊢
  split
  · next e htr =>
    refine ⟨fun e' r' h => ?_, fun r' h => (by cases h)⟩
    cases h
    exact readTrailer_error htr
  · next r₂ htr =>
    -- the length the turn goes on with is not negative
    have h₂ : r₂.s = 0 ∧ 0 ≤ r₂.tl.toInt := by
      by_cases h0 : r.tl = 0
      · cases hb : b₁ with
        | nil =>
          rw [readTrailer_nil (r := { r with b := b₁, stream := st₁, eof := r.eof || hit }) h0 hb]
            at htr
          cases htr
        | cons x t =>
          rw [readTrailer_of_cons (r := { r with b := b₁, stream := st₁, eof := r.eof || hit }) h0 hb]
            at htr
          cases htr
          -- the first byte of the buffer is the first byte still to come
          have hx := hhead h0 x (by rw [← happ, hb]; rfl)
          exact ⟨hs, not_lt.mp fun hneg => absurd ((trailer_neg_iff x t).mp hneg) (by omega)⟩
      · unfold readTrailer at htr
        rw [if_neg h0] at htr
        cases htr
        exact ⟨hs, htl⟩
    refine ⟨fun e r' h => ?_, fun r' h => ?_⟩
    · rcases sendTurn_error_cases h with he | ⟨-, hneg⟩
      · exact he
      · rw [h₂.1, Int64.sub_zero] at hneg
        omega
    · obtain ⟨rfl, -, hbig, -⟩ := sendTurn_again h
      rw [h₂.1, Int64.sub_zero] at hbig
      refine ⟨h₂.1, h₂.2, fun h0 => ?_⟩
      rw [h0, Int64.toInt_zero] at hbig
      omega

/-- From a `SafeLength` receiver `Read`'s loop never panics. -/
theorem readLoop_safe (n : Nat) (r : msgReceiver) (hr : SafeLength r) :
    ¬PanicsOn (readLoop n r) := by
  fun_induction readLoop n r with
  | case1 r data r' h => exact id
  | case2 r r' h ih => exact ih ((readTurn_safe hr).2 r' h)
  | case3 r e r' h =>
    rw [(readTurn_safe hr).1 e r' h]
    intro hp
    cases hp

theorem Read_panics_iff (n : Nat) (stream : List (List UInt8)) :
    PanicsOn (Read n (NewMsgReceiver stream)) ↔
      ∃ x xs, stream.flatten = x :: xs ∧ 128 ≤ x.toNat := by
  have hread : Read n (NewMsgReceiver stream) = readLoop n (NewMsgReceiver stream) := rfl
  rw [hread]
  constructor
  · intro hp
    by_contra hno
    refine readLoop_safe n _ ⟨rfl, le_refl _, fun _ x hx => ?_⟩ hp
    -- the first byte to come has the top bit clear
    simp only [NewMsgReceiver, List.nil_append] at hx
    by_contra hbig
    cases hf : stream.flatten with
    | nil => simp [hf] at hx
    | cons y ys =>
      rw [hf] at hx
      cases hx
      exact hno ⟨x, ys, hf, by omega⟩
  · rintro ⟨x, xs, hf, hx⟩
    -- the first turn loads a buffer that starts with `x` and reads a negative length from it
    obtain ⟨⟨b₁, st₁, hit⟩, hload⟩ : ∃ l, bufferLoad n [] stream = l := ⟨_, rfl⟩
    have happ := bufferLoad_append n stream []
    have hex := bufferLoad_exhausted n stream []
    rw [hload] at happ hex
    simp only [List.nil_append] at happ hex
    obtain ⟨t, hb⟩ : ∃ t, b₁ = x :: t := by
      cases b₁ with
      | nil =>
        rw [hex (by simp)] at happ
        simp [hf] at happ
      | cons y t =>
        rw [hf] at happ
        simp only [List.cons_append, List.cons.injEq] at happ
        exact ⟨t, by rw [happ.1]⟩
    have hturn : readTurn n (NewMsgReceiver stream) = .error .makeSliceLen
        { stream := st₁, b := (x :: t).drop 8, eof := hit,
          tl := goInt (copyN 8 ((x :: t).take 8)), s := 0, msgSend := false } := by
      unfold readTurn
      simp only [NewMsgReceiver] at hload ⊢
      rw [hload]
      simp only [Bool.false_or]
      rw [readTrailer_of_cons
        (r := { stream := st₁, b := b₁, eof := hit, tl := 0, s := 0, msgSend := false }) rfl hb]
      apply sendTurn_panics
      rw [Int64.sub_zero]
      exact (trailer_neg_iff x t).mpr hx
    rw [readLoop_of_error hturn]
    rfl


/-- Both receivers take the message length from the client's first eight bytes: `Read` and
`ReadFully` panic when it reads as a negative `int`, and `ReadFully` otherwise makes its buffer
that long, however little has come. -/
theorem receivers_panic_on_declared_length (n : Nat) (stream : List (List UInt8)) :
    (PanicsOn (Read n (NewMsgReceiver stream)) ↔
      ∃ x xs, stream.flatten = x :: xs ∧ 128 ≤ x.toNat) ∧
    (Panics (ReadFully stream) ↔
      ∃ c rest, stream = c :: rest ∧ 8 ≤ c.length ∧ 2 ^ 63 ≤ ofBE (c.take 8)) ∧
    (∀ b err, ReadFully stream = .ok (b, err) →
      ∃ c rest, stream = c :: rest ∧ b.length = ofBE (c.take 8)) :=
  ⟨Read_panics_iff n stream, ReadFully_panics_iff stream, fun _ _ h => ReadFully_length h⟩

/-- One chunk of eight bytes, `0x80` then zeros: both receivers panic on it. -/
theorem receivers_panic_on_top_bit_header :
    PanicsOn (Read 4096 (NewMsgReceiver [[128, 0, 0, 0, 0, 0, 0, 0]])) ∧
      Panics (ReadFully [[128, 0, 0, 0, 0, 0, 0, 0]]) :=
  ⟨(receivers_panic_on_declared_length 4096 _).1.2 ⟨128, [0, 0, 0, 0, 0, 0, 0], rfl, by decide⟩,
    (receivers_panic_on_declared_length 4096 _).2.1.2 ⟨_, [], rfl, by decide, by decide⟩⟩

end Immudb.Stream
