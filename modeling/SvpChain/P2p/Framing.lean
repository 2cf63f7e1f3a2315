import SvpChain.Lib.Bytes

/-!
# Messages on a byte stream

`Peer.read`, `readFixedSize` and `write` of package `p2p`, which are those of `readWriter` of package
`bincc`: a message goes behind its length in four bytes.  A stream hands over its bytes in chunks, of which
one call of `Read` takes at most one.
-/

namespace SvpChain.P2p

/-- Errors of `read`. -/
inductive ReadError where
  /-- `io.EOF`. -/
  | eof
  /-- `io.ErrUnexpectedEOF`. -/
  | unexpectedEOF
  /-- `big message size %d`. -/
  | bigMessage (size : UInt32)
  deriving DecidableEq

/-- What a stream will hand over; some calls of `Read` may return nothing. -/
abbrev Stream := List Bytes

/-- The loop of `io.ReadFull`, with `size` bytes of the buffer left to fill. -/
def readFull (size : ℕ) (got : Bytes) : Stream → Except ReadError Bytes × Stream
  | [] =>
      if size = 0 then (.ok got, [])
      else if got = [] then (.error .eof, []) else (.error .unexpectedEOF, [])
  | chunk :: chunks =>
      if size = 0 then (.ok got, chunk :: chunks)
      else if chunk.length ≤ size then readFull (size - chunk.length) (got ++ chunk) chunks
      else (.ok (got ++ chunk.take size), chunk.drop size :: chunks)

/-- `readFixedSize`. -/
def readFixedSize (size : UInt32) (stream : Stream) : Except ReadError Bytes × Stream :=
  readFull size.toNat [] stream

/-- `read` with a limit for the size of a message. -/
def readFrame (limit : UInt32) (stream : Stream) : Except ReadError Bytes × Stream :=
  match readFixedSize 4 stream with
  | (.error reason, stream) => (.error reason, stream)
  | (.ok b, stream) =>
      let size := UInt32.ofNat (Bytes.toNat b)
      if limit < size then (.error (.bigMessage size), stream) else readFixedSize size stream

/-- The payload of `write`. -/
def frame (b : Bytes) : Bytes := Bytes.bigEndian 4 (UInt32.ofNat b.length).toNat ++ b

/-- `MessageSizeLimit` of package `p2p`. -/
def messageSizeLimit : UInt32 := 100000000

/-- `Peer.read`. -/
def Peer.read : Stream → Except ReadError Bytes × Stream := readFrame messageSizeLimit

/-- `readWriter.read`, with the limit of package `bincc`. -/
def ReadWriter.read : Stream → Except ReadError Bytes × Stream := readFrame (100 * 1000 * 1000)

/-- `Peer.listen`: messages are read until there is an error. After `rounds` messages it is `none`. -/
def listen (read : Stream → Except ReadError Bytes × Stream) :
    ℕ → Stream → Option (List Bytes × ReadError)
  | 0, _ => none
  | rounds + 1, stream =>
      match read stream with
      | (.error reason, _) => some ([], reason)
      | (.ok msg, stream) => (listen read rounds stream).map fun (msgs, reason) => (msg :: msgs, reason)

/-! ## Reading -/

/-- A full read takes the next bytes of the stream, however they are cut into chunks. -/
theorem readFull_of_le {size : ℕ} {stream : Stream} (enough : size ≤ stream.flatten.length) (got : Bytes) :
    ∃ rest, readFull size got stream = (.ok (got ++ stream.flatten.take size), rest) ∧
      rest.flatten = stream.flatten.drop size := by
  induction stream generalizing size got with
  | nil =>
      obtain rfl : size = 0 := by simpa using enough
      exact ⟨[], by simp [readFull]⟩
  | cons chunk chunks ih =>
      by_cases filled : size = 0
      · exact ⟨chunk :: chunks, by simp [readFull, filled]⟩
      · by_cases fits : chunk.length ≤ size
        · rw [List.flatten_cons, List.length_append] at enough
          obtain ⟨rest, read_eq, rest_eq⟩ := @ih (size - chunk.length) (by omega) (got ++ chunk)
          refine ⟨rest, ?_, ?_⟩
          · simp [readFull, filled, fits, read_eq, List.take_append, List.take_of_length_le fits]
          · simp [rest_eq, List.drop_append, List.drop_of_length_le fits]
        · have shorter : size - chunk.length = 0 := by omega
          exact ⟨chunk.drop size :: chunks, by simp [readFull, filled, fits, List.take_append, shorter],
            by simp [List.drop_append, shorter]⟩

theorem readFull_of_lt {size : ℕ} {stream : Stream} (short : stream.flatten.length < size) (got : Bytes) :
    readFull size got stream =
      (.error (if got ++ stream.flatten = [] then .eof else .unexpectedEOF), []) := by
  have unfilled : size ≠ 0 := by omega
  induction stream generalizing size got with
  | nil => by_cases nothing : got = [] <;> simp [readFull, unfilled, nothing]
  | cons chunk chunks ih =>
      rw [List.flatten_cons, List.length_append] at short
      have fits : chunk.length ≤ size := by omega
      have rest := @ih (size - chunk.length) (by omega) (got ++ chunk) (by omega)
      simpa [readFull, unfilled, fits] using rest

theorem readFull_eq_ok {size : ℕ} {stream rest : Stream} {bytes : Bytes}
    (returned : readFull size [] stream = (.ok bytes, rest)) :
    bytes.length = size ∧ stream.flatten = bytes ++ rest.flatten := by
  have enough : size ≤ stream.flatten.length := by
    by_contra short
    rw [readFull_of_lt (Nat.lt_of_not_le short)] at returned
    cases returned
  obtain ⟨rest', read_eq, rest_eq⟩ := readFull_of_le enough []
  obtain ⟨bytes_eq, rfl⟩ := Prod.mk.inj (returned.symm.trans read_eq)
  obtain rfl : bytes = stream.flatten.take size := by simpa using Except.ok.inj bytes_eq
  exact ⟨by simpa using enough, by rw [rest_eq, List.take_append_drop]⟩

theorem readFrame_eq_ok {limit : UInt32} {stream rest : Stream} {msg : Bytes}
    (returned : readFrame limit stream = (.ok msg, rest)) :
    ∃ header, header.length = 4 ∧ stream.flatten = header ++ msg ++ rest.flatten ∧
      msg.length = Bytes.toNat header ∧ msg.length ≤ limit.toNat := by
  unfold readFrame at returned
  split at returned
  · cases returned
  · next header after header_read =>
      obtain ⟨header_length, split_eq⟩ := readFull_eq_ok header_read
      have header_length : header.length = 4 := header_length
      have header_lt := Bytes.toNat_lt header
      rw [header_length] at header_lt
      have size_eq : (UInt32.ofNat (Bytes.toNat header)).toNat = Bytes.toNat header := by
        rw [UInt32.toNat_ofNat']
        omega
      dsimp only at returned
      split at returned
      · cases returned
      · next within =>
          obtain ⟨length_eq, rest_eq⟩ := readFull_eq_ok returned
          rw [size_eq] at length_eq
          refine ⟨header, header_length, by rw [split_eq, rest_eq, List.append_assoc], length_eq, ?_⟩
          have within := UInt32.le_iff_toNat_le.mp (UInt32.not_lt.mp within)
          rwa [length_eq, ← size_eq]

/-! ## Round trips -/

theorem readFrame_frame {limit : UInt32} {msg after : Bytes} (short : msg.length ≤ limit.toNat)
    {stream : Stream} (delivers : stream.flatten = frame msg ++ after) :
    ∃ rest, readFrame limit stream = (.ok msg, rest) ∧ rest.flatten = after := by
  have length_lt : msg.length < 2 ^ 32 := short.trans_lt limit.toNat_lt
  have size_eq : (UInt32.ofNat msg.length).toNat = msg.length := by
    rw [UInt32.toNat_ofNat']
    omega
  rw [frame, size_eq, List.append_assoc] at delivers
  have header_length : (Bytes.bigEndian 4 msg.length).length = 4 := Bytes.bigEndian_length 4 _
  have enough : (4 : UInt32).toNat ≤ stream.flatten.length := by
    rw [delivers, List.length_append, header_length]
    exact Nat.le_add_right 4 _
  obtain ⟨between, header_read, between_eq⟩ := readFull_of_le enough []
  have header_eq : stream.flatten.take (4 : UInt32).toNat = Bytes.bigEndian 4 msg.length := by
    rw [delivers]
    exact List.take_left' header_length
  have between_eq : between.flatten = msg ++ after := by
    rw [between_eq, delivers]
    exact List.drop_left' header_length
  have enough : msg.length ≤ between.flatten.length := by simp [between_eq]
  obtain ⟨rest, msg_read, rest_eq⟩ := readFull_of_le enough []
  refine ⟨rest, ?_, by simp [rest_eq, between_eq]⟩
  have header_value : Bytes.toNat (Bytes.bigEndian 4 msg.length) = msg.length := by
    rw [Bytes.toNat_bigEndian]
    exact Nat.mod_eq_of_lt length_lt
  have within : ¬ limit < UInt32.ofNat msg.length := by
    rw [UInt32.lt_iff_toNat_lt, size_eq]
    omega
  rw [readFrame, readFixedSize, header_read]
  simp only [List.nil_append, header_eq, header_value, if_neg within]
  rw [readFixedSize, size_eq, msg_read, between_eq]
  simp

theorem readFrame_of_flatten_eq_nil (limit : UInt32) {stream : Stream} (ended : stream.flatten = []) :
    readFrame limit stream = (.error .eof, []) := by
  have short : stream.flatten.length < (4 : UInt32).toNat := by
    rw [ended]
    decide
  rw [readFrame, readFixedSize, readFull_of_lt short, ended]
  rfl

theorem listen_frames {limit : UInt32} {msgs : List Bytes}
    (short : ∀ msg ∈ msgs, msg.length ≤ limit.toNat) {stream : Stream}
    (delivers : stream.flatten = (msgs.map frame).flatten) {rounds : ℕ} (enough : msgs.length < rounds) :
    listen (readFrame limit) rounds stream = some (msgs, .eof) := by
  induction msgs generalizing stream rounds with
  | nil =>
      obtain ⟨rounds, rfl⟩ := Nat.exists_eq_add_of_lt enough
      rw [listen, readFrame_of_flatten_eq_nil limit (by simpa using delivers)]
  | cons msg msgs ih =>
      obtain ⟨rounds, rfl⟩ := Nat.exists_eq_succ_of_ne_zero (Nat.ne_of_gt (Nat.zero_lt_of_lt enough))
      obtain ⟨first_short, short⟩ := List.forall_mem_cons.mp short
      rw [List.map_cons, List.flatten_cons] at delivers
      obtain ⟨rest, read_eq, rest_eq⟩ := readFrame_frame first_short delivers
      rw [Nat.succ_eq_add_one, listen, read_eq]
      simp [ih short rest_eq (Nat.lt_of_succ_lt_succ enough)]

/-- Messages within the limit are read back in their order from any chunks of what was written, followed
by the end of the stream; and on any stream a message has the length in its header and keeps to the limit. -/
theorem framing_round_trip (read : Stream → Except ReadError Bytes × Stream)
    (is_read : read = Peer.read ∨ read = ReadWriter.read) :
    (∀ (msgs : List Bytes) (stream : Stream), (∀ msg ∈ msgs, msg.length ≤ messageSizeLimit.toNat) →
      stream.flatten = (msgs.map frame).flatten →
      ∀ rounds, msgs.length < rounds → listen read rounds stream = some (msgs, .eof)) ∧
    ∀ (stream rest : Stream) (msg : Bytes), read stream = (.ok msg, rest) →
      ∃ header, header.length = 4 ∧ stream.flatten = header ++ msg ++ rest.flatten ∧
        msg.length = Bytes.toNat header ∧ msg.length ≤ messageSizeLimit.toNat := by
  obtain rfl : read = readFrame messageSizeLimit := is_read.elim id id
  exact ⟨fun msgs stream short delivers rounds enough => listen_frames short delivers enough,
    fun stream rest msg returned => readFrame_eq_ok returned⟩

/-- Two messages that arrive in uneven chunks. -/
theorem framing_round_trip_two :
    listen Peer.read 3 [[0, 0, 0], [], [2, 7, 8, 0, 0], [0, 1], [9]] = some ([[7, 8], [9]], .eof) :=
  (framing_round_trip Peer.read (Or.inl rfl)).1 [[7, 8], [9]] _ (by decide) (by decide) 3 (by decide)

end SvpChain.P2p
