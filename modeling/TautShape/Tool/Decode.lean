import TautShape.Tool.Framing
import TautShape.Tool.Messages
/-!
# Input frames of a log

A frame becomes an input of the engine by way of a message, whose integers are `i64` where
the engine has `u64` and `u32`.  They are cast, so that what the engine gets is the integer
on the wire only where its type has that integer.
-/

namespace TautShape.Tool

open TautShape.Log (Bytes Input Cursor)

variable {β ε : Type}

inductive AdapterCode where
  | unsupportedShape
  | unknownTag
  | malformedMessage
  | directionViolation
  | adapterFailure
deriving DecidableEq, Repr

structure AdapterDiagnostic where
  code : AdapterCode
  shape : String
  message : String
deriving DecidableEq, Repr

/-- `n as u64` -/
def asU64 (n : Int64) : UInt64 := n.toUInt64

def asU32 (n : Int64) : UInt32 := n.toUInt64.toUInt32

def fromWireError (e : LogError) : Log.Error where
  code :=
    match e.code with
    | .unknownLog => .unknownLog
    | .producerError => .producerError
    | .internal => .internal
  message := e.message

def orMalformed {α : Type} (c : CborReader β ε) (tag : LogMsgType) :
    Except ε α → Except AdapterDiagnostic α
  | .ok m => .ok m
  | .error e =>
      .error ⟨.malformedMessage, "log", "malformed " ++ tag.debug ++ " body: " ++ c.display e⟩

def LogReadRequest.input (m : LogReadRequest) : Input :=
  .read m.streamId (m.cursor.map fun cursor => ⟨(asU64 cursor.seq).toNat⟩)
    ⟨m.maxRecords.map asU32, m.maxBytes.map asU64⟩ (m.timeoutMs.map fun n => (asU64 n).toNat)

def decodeInput (c : CborReader β ε) (frame : Frame β) : Except AdapterDiagnostic Input :=
  match LogMsgType.fromWire frame.tag.toNat with
  | none =>
      .error ⟨.unknownTag, "log", "unknown frame tag byte " ++ toString frame.tag.toNat⟩
  | some tag =>
      match tag with
      | .push => do
          let m ← orMalformed c tag (LogPush.fromCbor c frame.body)
          return .push m.payload
      | .seal => return .seal
      | .close => do
          let m ← orMalformed c tag (LogClose.fromCbor c frame.body)
          return .close (m.error.map fromWireError)
      | .read => do
          let m ← orMalformed c tag (LogReadRequest.fromCbor c frame.body)
          return m.input
      | .endStream => do
          let m ← orMalformed c tag (LogEndStream.fromCbor c frame.body)
          return .endStream m.streamId
      | .timerExpired => do
          let m ← orMalformed c tag (LogTimerExpired.fromCbor c frame.body)
          return .timerExpired (asU64 m.token).toNat
      | .evict => do
          let m ← orMalformed c tag (LogEvict.fromCbor c frame.body)
          return .evict (asU64 m.upToSeq).toNat
      | .readResponse | .setTimer | .cancelTimer | .producerStop | .diagnostic =>
          .error ⟨.directionViolation, "log",
            "output-only tag " ++ toString tag.wire ++ " on the input channel"⟩

/-! ## The integers of a message and of an input -/

structure Integers where
  cursorSeq : Option Int
  maxRecords : Option Int
  maxBytes : Option Int
  timeoutMs : Option Int
  upToSeq : Option Int
  token : Option Int
deriving DecidableEq

def Integers.none : Integers := ⟨.none, .none, .none, .none, .none, .none⟩

def integersOf : Input → Integers
  | .read _ cursor limits timeoutMs =>
      { Integers.none with
        cursorSeq := cursor.map fun cursor => (cursor.seq : Int)
        maxRecords := limits.maxRecords.map fun n => (n.toNat : Int)
        maxBytes := limits.maxBytes.map fun n => (n.toNat : Int)
        timeoutMs := timeoutMs.map fun n : Nat => (n : Int) }
  | .timerExpired token => { Integers.none with token := some token }
  | .evict upToSeq => { Integers.none with upToSeq := some upToSeq }
  | _ => Integers.none

def LogReadRequest.integers (m : LogReadRequest) : Integers :=
  { Integers.none with
    cursorSeq := m.cursor.map fun cursor => cursor.seq.toInt
    maxRecords := m.maxRecords.map Int64.toInt
    maxBytes := m.maxBytes.map Int64.toInt
    timeoutMs := m.timeoutMs.map Int64.toInt }

def LogTimerExpired.integers (m : LogTimerExpired) : Integers :=
  { Integers.none with token := some m.token.toInt }

def LogEvict.integers (m : LogEvict) : Integers :=
  { Integers.none with upToSeq := some m.upToSeq.toInt }

def integersOfBody {α : Type} (integers : α → Integers) : Except ε α → Integers
  | .ok m => integers m
  | .error _ => Integers.none

def wireIntegers (c : CborReader β ε) (frame : Frame β) : Integers :=
  match LogMsgType.fromWire frame.tag.toNat with
  | some .read => integersOfBody LogReadRequest.integers (LogReadRequest.fromCbor c frame.body)
  | some .timerExpired =>
      integersOfBody LogTimerExpired.integers (LogTimerExpired.fromCbor c frame.body)
  | some .evict => integersOfBody LogEvict.integers (LogEvict.fromCbor c frame.body)
  | _ => Integers.none

/-- Each integer is one that the engine's type for it has. -/
structure Representable (i : Integers) : Prop where
  cursorSeq : ∀ v ∈ i.cursorSeq, 0 ≤ v
  maxRecords : ∀ v ∈ i.maxRecords, 0 ≤ v ∧ v < 2 ^ 32
  maxBytes : ∀ v ∈ i.maxBytes, 0 ≤ v
  timeoutMs : ∀ v ∈ i.timeoutMs, 0 ≤ v
  upToSeq : ∀ v ∈ i.upToSeq, 0 ≤ v
  token : ∀ v ∈ i.token, 0 ≤ v

theorem representable_none : Representable Integers.none := by
  constructor <;> simp [Integers.none]

/-! ## Casts -/

theorem asU64_toNat (v : Int64) : ((asU64 v).toNat : Int) = v.toInt % 2 ^ 64 := by
  have hbits : (asU64 v).toNat = v.toBitVec.toNat := rfl
  have hint : v.toInt = v.toBitVec.toInt := rfl
  rw [hbits, hint, BitVec.toInt_eq_toNat_cond]
  have hlt := v.toBitVec.isLt
  split <;> omega

theorem asU32_toNat (v : Int64) : ((asU32 v).toNat : Int) = v.toInt % 2 ^ 32 := by
  have hbits : (asU32 v).toNat = (asU64 v).toNat % 2 ^ 32 := rfl
  have h64 := asU64_toNat v
  omega

theorem asU64_eq_iff (v : Int64) : ((asU64 v).toNat : Int) = v.toInt ↔ 0 ≤ v.toInt := by
  have hcast := asU64_toNat v
  have hlt := v.toInt_lt
  omega

theorem asU32_eq_iff (v : Int64) :
    ((asU32 v).toNat : Int) = v.toInt ↔ 0 ≤ v.toInt ∧ v.toInt < 2 ^ 32 := by
  have hcast := asU32_toNat v
  omega

/-! ## What is decoded -/

/-- What becomes of a frame: it is refused and carries no integer that can be read, or it is
an input with the integers on the wire exactly if the engine has these. -/
inductive Decodes (c : CborReader β ε) (frame : Frame β) : Prop where
  | refused (d : AdapterDiagnostic) (hdecode : decodeInput c frame = .error d)
      (hnone : wireIntegers c frame = Integers.none)
  | accepted (input : Input) (hdecode : decodeInput c frame = .ok input)
      (hkeeps : integersOf input = wireIntegers c frame ↔ Representable (wireIntegers c frame))

theorem decodes_of {c : CborReader β ε} {frame : Frame β} {α : Type} {tag : LogMsgType}
    {body : Except ε α} {input : α → Input} {integers : α → Integers}
    (hdecode : decodeInput c frame = do return input (← orMalformed c tag body))
    (hwire : wireIntegers c frame = integersOfBody integers body)
    (hkeeps : ∀ m, integersOf (input m) = integers m ↔ Representable (integers m)) :
    Decodes c frame := by
  cases body with
  | ok m =>
      apply Decodes.accepted (input m) hdecode
      rw [hwire]
      exact hkeeps m
  | error e => exact .refused _ hdecode hwire

def noIntegers {α : Type} (_ : α) : Integers := Integers.none

theorem integersOfBody_noIntegers {α : Type} (body : Except ε α) :
    integersOfBody noIntegers body = Integers.none := by
  cases body <;> rfl

theorem plain_keeps {α : Type} (input : α → Input)
    (h : ∀ m, integersOf (input m) = Integers.none) (m : α) :
    integersOf (input m) = noIntegers m ↔ Representable (noIntegers m) :=
  iff_of_true (h m) representable_none

theorem map_keeps_iff {α : Type} {f g : α → Int} (P : Int → Prop)
    (h : ∀ a, f a = g a ↔ P (g a)) (o : Option α) :
    o.map f = o.map g ↔ ∀ v ∈ o.map g, P v := by
  cases o <;> simp [h]

theorem optional_u64_keeps (o : Option Int64) :
    (o.map asU64).map (fun n => (n.toNat : Int)) = o.map Int64.toInt ↔
      ∀ v ∈ o.map Int64.toInt, 0 ≤ v := by
  rw [Option.map_map]
  exact map_keeps_iff (0 ≤ ·) asU64_eq_iff o

theorem optional_u32_keeps (o : Option Int64) :
    (o.map asU32).map (fun n => (n.toNat : Int)) = o.map Int64.toInt ↔
      ∀ v ∈ o.map Int64.toInt, 0 ≤ v ∧ v < 2 ^ 32 := by
  rw [Option.map_map]
  exact map_keeps_iff (fun v => 0 ≤ v ∧ v < 2 ^ 32) asU32_eq_iff o

theorem timeout_keeps (o : Option Int64) :
    (o.map fun n => (asU64 n).toNat).map (fun n : Nat => (n : Int)) = o.map Int64.toInt ↔
      ∀ v ∈ o.map Int64.toInt, 0 ≤ v := by
  rw [Option.map_map]
  exact map_keeps_iff (0 ≤ ·) asU64_eq_iff o

theorem cursor_keeps (o : Option LogCursor) :
    (o.map fun cursor => (⟨(asU64 cursor.seq).toNat⟩ : Cursor)).map
        (fun cursor => (cursor.seq : Int)) = o.map (fun cursor => cursor.seq.toInt) ↔
      ∀ v ∈ o.map (fun cursor => cursor.seq.toInt), 0 ≤ v := by
  rw [Option.map_map]
  exact map_keeps_iff (0 ≤ ·) (fun cursor : LogCursor => asU64_eq_iff cursor.seq) o

theorem read_keeps (m : LogReadRequest) :
    integersOf m.input = m.integers ↔ Representable m.integers := by
  have hcursor := cursor_keeps m.cursor
  have hrecords := optional_u32_keeps m.maxRecords
  have hbytes := optional_u64_keeps m.maxBytes
  have htimeout := timeout_keeps m.timeoutMs
  constructor
  · intro heq
    rw [LogReadRequest.integers, LogReadRequest.input, integersOf, Integers.mk.injEq] at heq
    rw [LogReadRequest.integers]
    exact {
      cursorSeq := hcursor.mp heq.1
      maxRecords := hrecords.mp heq.2.1
      maxBytes := hbytes.mp heq.2.2.1
      timeoutMs := htimeout.mp heq.2.2.2.1
      upToSeq := by simp [Integers.none]
      token := by simp [Integers.none] }
  · intro h
    rw [LogReadRequest.integers, LogReadRequest.input, integersOf, Integers.mk.injEq]
    exact ⟨hcursor.mpr h.cursorSeq, hrecords.mpr h.maxRecords, hbytes.mpr h.maxBytes,
      htimeout.mpr h.timeoutMs, rfl, rfl⟩

theorem timerExpired_keeps (m : LogTimerExpired) :
    integersOf (.timerExpired (asU64 m.token).toNat) = m.integers ↔ Representable m.integers := by
  have htoken := asU64_eq_iff m.token
  constructor
  · intro heq
    rw [LogTimerExpired.integers, integersOf, Integers.mk.injEq] at heq
    have hsame : ((asU64 m.token).toNat : Int) = m.token.toInt := by
      simpa using heq.2.2.2.2.2
    constructor <;> simp [LogTimerExpired.integers, Integers.none, htoken.mp hsame]
  · intro h
    have hsame := htoken.mpr (h.token _ rfl)
    rw [LogTimerExpired.integers, integersOf, hsame]

theorem evict_keeps (m : LogEvict) :
    integersOf (.evict (asU64 m.upToSeq).toNat) = m.integers ↔ Representable m.integers := by
  have hup := asU64_eq_iff m.upToSeq
  constructor
  · intro heq
    rw [LogEvict.integers, integersOf, Integers.mk.injEq] at heq
    have hsame : ((asU64 m.upToSeq).toNat : Int) = m.upToSeq.toInt := by
      simpa using heq.2.2.2.2.1
    constructor <;> simp [LogEvict.integers, Integers.none, hup.mp hsame]
  · intro h
    have hsame := hup.mpr (h.upToSeq _ rfl)
    rw [LogEvict.integers, integersOf, hsame]

theorem decodes (c : CborReader β ε) (frame : Frame β) : Decodes c frame := by
  cases htag : LogMsgType.fromWire frame.tag.toNat with
  | none => exact .refused _ (by rw [decodeInput, htag]) (by rw [wireIntegers, htag])
  | some tag =>
      cases tag with
      | push =>
          have hkeeps := plain_keeps (fun m : LogPush => .push m.payload) fun _ => rfl
          apply decodes_of (by rw [decodeInput, htag]) _ hkeeps
          rw [wireIntegers, htag, integersOfBody_noIntegers]
      | «seal» =>
          have hnone : wireIntegers c frame = Integers.none := by rw [wireIntegers, htag]
          apply Decodes.accepted .seal (by rw [decodeInput, htag]; rfl)
          rw [hnone]
          exact plain_keeps (fun _ : Unit => .seal) (fun _ => rfl) ()
      | close =>
          have hkeeps := plain_keeps (fun m : LogClose => .close (m.error.map fromWireError))
            fun _ => rfl
          apply decodes_of (by rw [decodeInput, htag]) _ hkeeps
          rw [wireIntegers, htag, integersOfBody_noIntegers]
      | read =>
          exact decodes_of (by rw [decodeInput, htag]) (by rw [wireIntegers, htag]) read_keeps
      | endStream =>
          have hkeeps := plain_keeps (fun m : LogEndStream => .endStream m.streamId) fun _ => rfl
          apply decodes_of (by rw [decodeInput, htag]) _ hkeeps
          rw [wireIntegers, htag, integersOfBody_noIntegers]
      | timerExpired =>
          exact decodes_of (by rw [decodeInput, htag]) (by rw [wireIntegers, htag])
            timerExpired_keeps
      | evict =>
          exact decodes_of (by rw [decodeInput, htag]) (by rw [wireIntegers, htag]) evict_keeps
      | readResponse | setTimer | cancelTimer | producerStop | diagnostic =>
          exact .refused _ (by rw [decodeInput, htag]) (by rw [wireIntegers, htag])

/-! ## Which frames keep their integers -/

/-- What comes of a frame has the integers on the wire, and a frame with an integer that the
engine does not have is refused as malformed, exactly if the engine has them all. -/
theorem decode_preserves_iff (c : CborReader β ε) (frame : Frame β) :
    ((∀ input, decodeInput c frame = .ok input → integersOf input = wireIntegers c frame) ∧
        (¬Representable (wireIntegers c frame) →
          ∃ d, decodeInput c frame = .error d ∧ d.code = .malformedMessage)) ↔
      Representable (wireIntegers c frame) := by
  cases decodes c frame with
  | refused d hdecode hnone =>
      rw [hnone]
      apply iff_of_true _ representable_none
      constructor
      · intro input hinput
        rw [hdecode] at hinput
        cases hinput
      · intro hnot
        exact absurd representable_none hnot
  | accepted input hdecode hkeeps =>
      constructor
      · intro h
        exact hkeeps.mp (h.1 input hdecode)
      · intro hrep
        constructor
        · intro input' hinput
          rw [hdecode] at hinput
          cases hinput
          exact hkeeps.mpr hrep
        · intro hnot
          exact absurd hrep hnot

/-- A body that is a map of integers to bodies, as much of one as these messages need. -/
inductive Item where
  | null
  | int (n : Int64)
  | text (s : String)
  | bytes (b : Bytes)
  | map (entries : List (Nat × Item))

namespace Item

def isNull : Item → Bool
  | .null => true
  | _ => false

def tryGet : Item → Nat → Except String Item
  | .map entries, key =>
      match entries.lookup key with
      | some v => .ok v
      | none => .error "missing key"
  | _, _ => .error "not a map"

def tryInt : Item → Except String Int64
  | .int n => .ok n
  | _ => .error "not an int"

def tryText : Item → Except String String
  | .text s => .ok s
  | _ => .error "not a text"

def tryBytes : Item → Except String Bytes
  | .bytes b => .ok b
  | _ => .error "not bytes"

def reader : CborReader Item String where
  tryGet := tryGet
  tryInt := tryInt
  tryText := tryText
  tryBytes := tryBytes
  isNull := isNull
  unknownEnum := fun name _ => "unknown " ++ name
  display := id

end Item

def evictMinusOne : Frame Item := ⟨6, .map [(1, .int (-1))]⟩

theorem evict_wraps :
    ¬∀ input, decodeInput Item.reader evictMinusOne = .ok input →
        integersOf input = wireIntegers Item.reader evictMinusOne := by
  intro h
  have hinput : decodeInput Item.reader evictMinusOne = .ok (.evict (asU64 (-1)).toNat) := rfl
  have hkeeps := h _ hinput
  revert hkeeps
  decide

end TautShape.Tool
