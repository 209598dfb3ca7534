import TautShape.Tool.Decode
/-!
# Input frames that come back

An input is put into a frame by casts to `i64` and read out of it by casts back.  The
casts lose nothing of a `u64` or a `u32`, whatever its size.
-/

namespace TautShape.Tool

open TautShape.Log (Bytes Input Cursor)

variable {β ε : Type}

/-- `n as i64` of a `u64` -/
def asI64 (n : UInt64) : Int64 := n.toInt64

def toWireError (e : Log.Error) : LogError where
  code :=
    match e.code with
    | .unknownLog => .unknownLog
    | .producerError => .producerError
    | .internal => .internal
  message := e.message

def encodeInput (w : CborWriter β) : Input → LogMsgType × β
  | .push payload => (.push, LogPush.toCbor w { payload })
  | .seal => (.seal, LogSeal.toCbor w)
  | .close error => (.close, LogClose.toCbor w { error := error.map toWireError })
  | .evict upToSeq => (.evict, LogEvict.toCbor w { upToSeq := asI64 (.ofNat upToSeq) })
  | .read streamId cursor limits timeoutMs =>
      (.read, LogReadRequest.toCbor w {
        logId := "log-A"
        streamId
        cursor := cursor.map fun c => { seq := asI64 (.ofNat c.seq) }
        maxRecords := limits.maxRecords.map fun n => asI64 n.toUInt64
        maxBytes := limits.maxBytes.map asI64
        timeoutMs := timeoutMs.map fun n => asI64 (.ofNat n) })
  | .endStream streamId => (.endStream, LogEndStream.toCbor w { logId := "log-A", streamId })
  | .timerExpired token =>
      (.timerExpired, LogTimerExpired.toCbor w { token := asI64 (.ofNat token) })

def frameOf (message : LogMsgType × β) : Frame β where
  tag := .ofNat message.1.wire
  body := message.2

/-- What the generated codecs promise: each message is read back from its body. -/
structure CodecsRoundTrip (c : CborReader β ε) (w : CborWriter β) : Prop where
  push : ∀ m : LogPush, LogPush.fromCbor c (m.toCbor w) = .ok m
  close : ∀ m : LogClose, LogClose.fromCbor c (m.toCbor w) = .ok m
  read : ∀ m : LogReadRequest, LogReadRequest.fromCbor c (m.toCbor w) = .ok m
  endStream : ∀ m : LogEndStream, LogEndStream.fromCbor c (m.toCbor w) = .ok m
  timerExpired : ∀ m : LogTimerExpired, LogTimerExpired.fromCbor c (m.toCbor w) = .ok m
  evict : ∀ m : LogEvict, LogEvict.fromCbor c (m.toCbor w) = .ok m

structure Inverts (c : CborReader β ε) (w : CborWriter β) : Prop where
  get : ∀ fields key v, fields.lookup key = some v → c.tryGet (w.map fields) key = .ok v
  int : ∀ n, c.tryInt (w.int n) = .ok n
  text : ∀ s, c.tryText (w.text s) = .ok s
  bytes : ∀ b, c.tryBytes (w.bytes b) = .ok b
  isNull : c.isNull w.null = true
  map_ne_null : ∀ fields, c.isNull (w.map fields) = false
  int_ne_null : ∀ n, c.isNull (w.int n) = false
  text_ne_null : ∀ s, c.isNull (w.text s) = false

/-- The numbers of an input that the source holds in a `u64`. -/
def u64s : Input → List Nat
  | .read _ cursor _ timeoutMs => (cursor.map Cursor.seq).toList ++ timeoutMs.toList
  | .timerExpired token => [token]
  | .evict upToSeq => [upToSeq]
  | .push _ | .seal | .close _ | .endStream _ => []

/-! ## The codecs -/

section Codecs

variable {c : CborReader β ε} {w : CborWriter β}

theorem Inverts.optional (h : Inverts c w) {α : Type} {fromCbor : β → Except ε α} {toCbor : α → β}
    (hnull : ∀ v, c.isNull (toCbor v) = false) (hround : ∀ v, fromCbor (toCbor v) = .ok v)
    (o : Option α) : c.optional fromCbor (w.optional toCbor o) = .ok o := by
  cases o with
  | none =>
      rw [CborWriter.optional, CborReader.optional, if_pos h.isNull]
      rfl
  | some v =>
      rw [CborWriter.optional, CborReader.optional, hnull v, hround v]
      rfl

theorem Inverts.cursor (h : Inverts c w) (m : LogCursor) :
    LogCursor.fromCbor c (m.toCbor w) = .ok m := by
  rw [LogCursor.fromCbor, LogCursor.toCbor, h.get _ 1 _ rfl]
  simp only [bind, Except.bind, h.int]
  rfl

theorem Inverts.errorCode (c : CborReader β ε) (code : LogErrorCode) :
    LogErrorCode.fromWire c code.wire = .ok code := by
  cases code <;> rfl

theorem Inverts.error (h : Inverts c w) (m : LogError) :
    LogError.fromCbor c (m.toCbor w) = .ok m := by
  rw [LogError.fromCbor, LogError.toCbor, h.get _ 1 _ rfl, h.get _ 2 _ rfl]
  simp only [bind, Except.bind, h.int, errorCode, h.optional h.text_ne_null h.text]
  rfl

theorem Inverts.readRequest (h : Inverts c w) (m : LogReadRequest) :
    LogReadRequest.fromCbor c (m.toCbor w) = .ok m := by
  have hnull : ∀ m : LogCursor, c.isNull (m.toCbor w) = false := fun m => h.map_ne_null _
  rw [LogReadRequest.fromCbor, LogReadRequest.toCbor, h.get _ 1 _ rfl, h.get _ 2 _ rfl,
    h.get _ 3 _ rfl, h.get _ 4 _ rfl, h.get _ 5 _ rfl, h.get _ 6 _ rfl]
  simp only [bind, Except.bind, h.text, h.optional hnull h.cursor, h.optional h.int_ne_null h.int]
  rfl

theorem Inverts.codecsRoundTrip (h : Inverts c w) : CodecsRoundTrip c w := by
  constructor
  case push =>
    intro m
    rw [LogPush.fromCbor, LogPush.toCbor, h.get _ 1 _ rfl]
    simp only [bind, Except.bind, h.bytes]
    rfl
  case close =>
    intro m
    have hnull : ∀ m : LogError, c.isNull (m.toCbor w) = false := fun m => h.map_ne_null _
    rw [LogClose.fromCbor, LogClose.toCbor, h.get _ 1 _ rfl]
    simp only [bind, Except.bind, h.optional hnull h.error]
    rfl
  case read => exact h.readRequest
  case endStream =>
    intro m
    rw [LogEndStream.fromCbor, LogEndStream.toCbor, h.get _ 1 _ rfl, h.get _ 2 _ rfl]
    simp only [bind, Except.bind, h.text]
    rfl
  case timerExpired =>
    intro m
    rw [LogTimerExpired.fromCbor, LogTimerExpired.toCbor, h.get _ 1 _ rfl]
    simp only [bind, Except.bind, h.int]
    rfl
  case evict =>
    intro m
    rw [LogEvict.fromCbor, LogEvict.toCbor, h.get _ 1 _ rfl]
    simp only [bind, Except.bind, h.int]
    rfl

end Codecs

/-! ## Casts there and back -/

@[simp] theorem asU64_asI64 (n : UInt64) : asU64 (asI64 n) = n := rfl

@[simp] theorem asU32_asI64 (n : UInt32) : asU32 (asI64 n.toUInt64) = n := by
  show (asU64 (asI64 n.toUInt64)).toUInt32 = n
  rw [asU64_asI64, UInt32.toUInt32_toUInt64]

theorem asU64_ofNat {n : Nat} (hn : n < 2 ^ 64) : (asU64 (asI64 (.ofNat n))).toNat = n := by
  rw [asU64_asI64, UInt64.toNat_ofNat']
  exact Nat.mod_eq_of_lt hn

theorem fromWireError_toWireError (e : Log.Error) : fromWireError (toWireError e) = e := by
  obtain ⟨code, message⟩ := e
  cases code <;> rfl

theorem fromWire_wire (tag : LogMsgType) (body : β) :
    LogMsgType.fromWire (frameOf (tag, body)).tag.toNat = some tag := by
  cases tag <;> rfl

/-! ## The round trip -/

theorem readRequest_input (streamId : String) (cursor : Option Cursor) (limits : Log.Limits)
    (timeoutMs : Option Nat) (hcursor : ∀ c ∈ cursor, c.seq < 2 ^ 64)
    (htimeout : ∀ n ∈ timeoutMs, n < 2 ^ 64) :
    LogReadRequest.input {
      logId := "log-A"
      streamId
      cursor := cursor.map fun c => { seq := asI64 (.ofNat c.seq) }
      maxRecords := limits.maxRecords.map fun n => asI64 n.toUInt64
      maxBytes := limits.maxBytes.map asI64
      timeoutMs := timeoutMs.map fun n => asI64 (.ofNat n) } =
      .read streamId cursor limits timeoutMs := by
  have hcursor' : (cursor.map fun c => (⟨asI64 (.ofNat c.seq)⟩ : LogCursor)).map
      (fun c => (⟨(asU64 c.seq).toNat⟩ : Cursor)) = cursor := by
    cases cursor with
    | none => rfl
    | some c => exact congrArg (fun seq => some (Cursor.mk seq)) (asU64_ofNat (hcursor c rfl))
  have htimeout' : (timeoutMs.map fun n => asI64 (.ofNat n)).map
      (fun n => (asU64 n).toNat) = timeoutMs := by
    cases timeoutMs with
    | none => rfl
    | some n => exact congrArg some (asU64_ofNat (htimeout n rfl))
  have hrecords : (limits.maxRecords.map fun n => asI64 n.toUInt64).map asU32 =
      limits.maxRecords := by
    cases limits.maxRecords with
    | none => rfl
    | some n => exact congrArg some (asU32_asI64 n)
  have hbytes : (limits.maxBytes.map asI64).map asU64 = limits.maxBytes := by
    cases limits.maxBytes <;> rfl
  simp only [LogReadRequest.input, hcursor', htimeout', hrecords, hbytes]

/-- **An input comes back from its frame.**  Where the codecs of the messages round trip,
decoding the frame of an encoded input gives the input, over the whole range of its
integers. -/
theorem decodeInput_encodeInput (c : CborReader β ε) (w : CborWriter β)
    (hcodecs : CodecsRoundTrip c w) (input : Input) (hu64 : ∀ n ∈ u64s input, n < 2 ^ 64) :
    decodeInput c (frameOf (encodeInput w input)) = .ok input := by
  have htag : ∀ (tag : LogMsgType) (body : β), encodeInput w input = (tag, body) →
      LogMsgType.fromWire (frameOf (encodeInput w input)).tag.toNat = some tag := by
    intro tag body hencode
    rw [hencode]
    exact fromWire_wire tag body
  cases input with
  | push payload =>
      rw [decodeInput, htag _ _ rfl]
      simp only [frameOf, encodeInput, hcodecs.push]
      rfl
  | «seal» =>
      rw [decodeInput, htag _ _ rfl]
      rfl
  | close error =>
      rw [decodeInput, htag _ _ rfl]
      simp only [frameOf, encodeInput, hcodecs.close]
      show Except.ok (Input.close ((error.map toWireError).map fromWireError)) = _
      cases error with
      | none => rfl
      | some e =>
          have herror := fromWireError_toWireError e
          exact congrArg (fun e => Except.ok (Input.close (some e))) herror
  | read streamId cursor limits timeoutMs =>
      rw [decodeInput, htag _ _ rfl]
      simp only [frameOf, encodeInput, hcodecs.read]
      apply congrArg Except.ok
      apply readRequest_input
      · intro cursor' hcursor
        apply hu64
        rw [hcursor]
        simp [u64s]
      · intro n hn
        apply hu64
        rw [hn]
        simp [u64s]
  | endStream streamId =>
      rw [decodeInput, htag _ _ rfl]
      simp only [frameOf, encodeInput, hcodecs.endStream]
      rfl
  | timerExpired token =>
      rw [decodeInput, htag _ _ rfl]
      simp only [frameOf, encodeInput, hcodecs.timerExpired]
      have htoken := asU64_ofNat (hu64 token (by simp [u64s]))
      exact congrArg (fun n => Except.ok (Input.timerExpired n)) htoken
  | evict upToSeq =>
      rw [decodeInput, htag _ _ rfl]
      simp only [frameOf, encodeInput, hcodecs.evict]
      have hup := asU64_ofNat (hu64 upToSeq (by simp [u64s]))
      exact congrArg (fun n => Except.ok (Input.evict n)) hup

/-- The constructors of an item; no message of a client has an array. -/
def Item.writer : CborWriter Item where
  map := .map
  array := fun items => .map (items.zipIdx.map Prod.swap)
  int := .int
  text := .text
  bytes := .bytes
  null := .null

theorem Item.inverts : Inverts Item.reader Item.writer := by
  constructor
  case get =>
    intro fields key v hlookup
    show Item.tryGet (.map fields) key = .ok v
    rw [Item.tryGet, hlookup]
  all_goals first | exact fun _ => rfl | rfl

/-- A read whose cursor is the greatest `u64` and whose limits are the greatest there are. -/
theorem decodeInput_encodeInput_greatest :
    decodeInput Item.reader (frameOf (encodeInput Item.writer
        (.read "s" (some ⟨2 ^ 64 - 1⟩) ⟨some (2 ^ 32 - 1), some (2 ^ 64 - 1)⟩ (some 0)))) =
      .ok (.read "s" (some ⟨2 ^ 64 - 1⟩) ⟨some (2 ^ 32 - 1), some (2 ^ 64 - 1)⟩ (some 0)) := by
  apply decodeInput_encodeInput _ _ Item.inverts.codecsRoundTrip
  intro n hn
  simp only [u64s, Option.map_some, Option.toList_some, List.mem_append, List.mem_singleton] at hn
  omega

end TautShape.Tool
