import TautShape.Lib.Cable
import TautShape.Tool.FrameStream
import TautShape.Tool.Encode
import TautShape.Tool.Adapter
/-!
# Frames that arrive in pieces

A call of `read_frame` on a pipe waits until the bytes of its frame have arrived, or the
pipe is closed.  What a client reads then is mostly a response of the node.
-/

namespace TautShape.Tool

open TautShape.Lib
open TautShape.Log (Bytes Response State)

variable {β ε : Type}

/-! ## Frames that arrive -/

/-- Whether a call of `read_frame` finds all that it asks for. -/
def enough (bytes : Bytes) : Bool :=
  let len := ofLittleEndian (bytes.take 4)
  4 ≤ bytes.length && (len = 0 || maxFrameBytes < len || 4 + len ≤ bytes.length)

/-- A call of `read_frame` when these bytes have arrived. -/
def arrivedFrame (codec : Codec β) (closed : Bool) (bytes : Bytes) :
    Option (ReadResult β × Bytes) :=
  if closed || enough bytes then
    let (result, rest) := readFrame codec [.chunk bytes]
    some (result, delivered rest)
  else none

def framing (codec : Codec β) : Framing (Frame β) (ReadResult β) UInt8 where
  wire := wire codec
  next := arrivedFrame codec
  whole := ReadResult.frame
  ended := .ended
  next_open := rfl
  next_closed := rfl

/-- A frame that the reader accepts and whose body comes back. -/
structure Carried (codec : Codec β) (frame : Frame β) : Prop where
  fits : Fits codec frame.body
  back : codec.tryDecode (codec.encode frame.body) = .ok frame.body

theorem enough_wire {codec : Codec β} {frame : Frame β} (hfits : Fits codec frame.body)
    (rest : Bytes) : enough (wire codec frame ++ rest) = true := by
  have hlen := frameLen_of_fits hfits
  have htake : (wire codec frame ++ rest).take 4 = toLittleEndian 4 (frameLen codec frame.body) := by
    rw [wire_eq, List.append_assoc]
    exact List.take_left' (length_toLittleEndian 4 _)
  have hlength : (wire codec frame ++ rest).length = 4 + frameLen codec frame.body + rest.length := by
    rw [List.length_append, length_wire, hlen]
  simp only [enough, htake, ofLittleEndian_toLittleEndian 4 (frameLen_lt frame.body), hlength,
    Bool.and_eq_true, Bool.or_eq_true, decide_eq_true_eq]
  omega

theorem enough_cut {codec : Codec β} {frame : Frame β} (hfits : Fits codec frame.body) {n : Nat}
    (hn : n < (wire codec frame).length) : enough ((wire codec frame).take n) = false := by
  have hlen := frameLen_of_fits hfits
  have hlength : (wire codec frame).length = 4 + (1 + (codec.encode frame.body).length) :=
    length_wire frame
  have hshort : ((wire codec frame).take n).length = n := by
    rw [List.length_take]
    omega
  by_cases hfirst : n < 4
  · simp [enough, hshort, Nat.not_le.mpr hfirst]
  have htake : ((wire codec frame).take n).take 4 = toLittleEndian 4 (frameLen codec frame.body) := by
    rw [List.take_take, Nat.min_eq_left (by omega), wire_eq]
    exact List.take_left' (length_toLittleEndian 4 _)
  have hmax : ¬maxFrameBytes < frameLen codec frame.body := by
    rw [hlen]
    exact Nat.not_lt.mpr hfits
  rw [Bool.eq_false_iff]
  intro henough
  simp only [enough, htake, ofLittleEndian_toLittleEndian 4 (frameLen_lt frame.body), hshort,
    Bool.and_eq_true, Bool.or_eq_true, decide_eq_true_eq] at henough
  omega

theorem Carried.passes {codec : Codec β} {frame : Frame β} (h : Carried codec frame) :
    (framing codec).Passes frame := by
  constructor
  case next_wire =>
    intro closed rest
    have hne : wire codec frame ++ rest ≠ [] := by
      rw [wire_eq]
      simp
    obtain ⟨r', hread, hrest, -⟩ := readFrame_carried (clean_chunk hne) h.fits h.back
      (delivered_chunk (wire codec frame ++ rest))
    show arrivedFrame codec closed (wire codec frame ++ rest) = some (.frame frame, rest)
    rw [arrivedFrame, enough_wire h.fits, Bool.or_true, if_pos rfl, hread, ← hrest]
  case next_cut =>
    intro n hn
    show arrivedFrame codec false ((wire codec frame).take n) = none
    rw [arrivedFrame, enough_cut h.fits hn]
    rfl

/-! ## Responses that a client reads -/

structure ResponseReader (β ε : Type) extends CborReader β ε where
  tryArray : β → Except ε (List β)

def LogState.fromWire (c : CborReader β ε) (v : Int64) : Except ε LogState :=
  if v = 0 then return .data
  else if v = 1 then return .wouldBlock
  else if v = 2 then return .eof
  else if v = 3 then return .closed
  else if v = 4 then return .failed
  else if v = 5 then return .expired
  else throw (c.unknownEnum "LogState" v)

def LogRecord.fromCbor (c : CborReader β ε) (body : β) : Except ε LogRecord := do
  return {
    seq := ← c.tryInt (← c.tryGet body 1)
    payload := ← c.tryBytes (← c.tryGet body 2) }

def LogReadResponse.fromCbor (c : ResponseReader β ε) (body : β) : Except ε LogReadResponse := do
  return {
    logId := ← c.tryText (← c.tryGet body 1)
    streamId := ← c.tryText (← c.tryGet body 2)
    records := ← (← c.tryArray (← c.tryGet body 3)).mapM (LogRecord.fromCbor c.toCborReader)
    nextCursor := ← LogCursor.fromCbor c.toCborReader (← c.tryGet body 4)
    state := ← LogState.fromWire c.toCborReader (← c.tryInt (← c.tryGet body 5))
    error := ← c.optional (LogError.fromCbor c.toCborReader) (← c.tryGet body 6) }

/-- The accessors undo the constructors, those of arrays too. -/
structure InvertsAll (c : ResponseReader β ε) (w : CborWriter β) : Prop
    extends Inverts c.toCborReader w where
  array : ∀ items, c.tryArray (w.array items) = .ok items

section Codecs

variable {c : ResponseReader β ε} {w : CborWriter β}

theorem state_comes_back (c : CborReader β ε) (state : LogState) :
    LogState.fromWire c state.wire = .ok state := by
  cases state <;> rfl

theorem InvertsAll.record (h : InvertsAll c w) (m : LogRecord) :
    LogRecord.fromCbor c.toCborReader (m.toCbor w) = .ok m := by
  rw [LogRecord.fromCbor, LogRecord.toCbor, h.get _ 1 _ rfl, h.get _ 2 _ rfl]
  simp only [bind, Except.bind, h.int, h.bytes]
  rfl

theorem InvertsAll.records (h : InvertsAll c w) (records : List LogRecord) :
    (records.map (LogRecord.toCbor w)).mapM (LogRecord.fromCbor c.toCborReader) =
      .ok records := by
  induction records with
  | nil => rfl
  | cons m records ih =>
      rw [List.map_cons, List.mapM_cons, h.record, ih]
      rfl

theorem InvertsAll.response (h : InvertsAll c w) (m : LogReadResponse) :
    LogReadResponse.fromCbor c (m.toCbor w) = .ok m := by
  have hnull : ∀ m : LogError, c.isNull (m.toCbor w) = false := fun m => h.map_ne_null _
  rw [LogReadResponse.fromCbor, LogReadResponse.toCbor, h.get _ 1 _ rfl, h.get _ 2 _ rfl,
    h.get _ 3 _ rfl, h.get _ 4 _ rfl, h.get _ 5 _ rfl, h.get _ 6 _ rfl]
  simp only [bind, Except.bind, h.text, h.array, h.records, h.cursor, h.int, state_comes_back,
    h.optional hnull h.error]
  rfl

end Codecs

/-! ## Bodies of CBOR -/

/-- A body, with arrays and maps as lists that end with `noItems` and `noEntries`. -/
inductive Body where
  | null
  | int (n : Int64)
  | text (s : String)
  | bytes (b : Bytes)
  | noItems
  | item (first rest : Body)
  | noEntries
  | entry (key : Nat) (value rest : Body)
deriving DecidableEq

namespace Body

def lookup (key : Nat) : Body → Except String Body
  | .entry k value rest => if key = k then .ok value else rest.lookup key
  | .noEntries => .error "missing key"
  | _ => .error "not a map"

def items : Body → Except String (List Body)
  | .item first rest => do return first :: (← rest.items)
  | .noItems => .ok []
  | _ => .error "not an array"

def reader : ResponseReader Body String where
  tryGet body key := body.lookup key
  tryInt
    | .int n => .ok n
    | _ => .error "not an int"
  tryText
    | .text s => .ok s
    | _ => .error "not a text"
  tryBytes
    | .bytes b => .ok b
    | _ => .error "not bytes"
  isNull
    | .null => true
    | _ => false
  unknownEnum := fun name _ => "unknown " ++ name
  display := id
  tryArray := items

def writer : CborWriter Body where
  map := List.foldr (fun entry rest => .entry entry.1 entry.2 rest) .noEntries
  array := List.foldr .item .noItems
  int := .int
  text := .text
  bytes := .bytes
  null := .null

theorem inverts : InvertsAll reader writer := by
  constructor
  case array =>
    intro items
    induction items with
    | nil => rfl
    | cons first items ih =>
        show (do return first :: (← (writer.array items).items)) = Except.ok (first :: items)
        have ih : (writer.array items).items = .ok items := ih
        rw [ih]
        rfl
  constructor
  case get =>
    intro fields key v hlookup
    induction fields with
    | nil => simp at hlookup
    | cons field fields ih =>
        obtain ⟨k, value⟩ := field
        show (if key = k then Except.ok value else (writer.map fields).lookup key) = .ok v
        by_cases heq : key = k
        · subst heq
          simpa using hlookup
        · rw [if_neg heq]
          apply ih
          rwa [List.lookup_cons, beq_false_of_ne heq] at hlookup
  case map_ne_null =>
    intro fields
    cases fields <;> rfl
  all_goals first | exact fun _ => rfl | rfl

def size : Body → Nat
  | .item _ rest | .entry _ _ rest => rest.size + 1
  | _ => 0

/-- The bytes of a body whose lengths and numbers are below 24 and whose texts are ASCII;
`inside` leaves the head of an array or a map out. -/
def cbor : Body → (inside : Bool) → Bytes
  | .null, _ => [0xf6]
  | .int n, _ => [.ofNat n.toNatClampNeg]
  | .text s, _ => .ofNat (0x60 + s.length) :: s.toList.map fun ch => .ofNat ch.toNat
  | .bytes b, _ => .ofNat (0x40 + b.length) :: b
  | .noItems, inside => if inside then [] else [0x80]
  | .item first rest, inside =>
      (if inside then [] else [.ofNat (0x81 + rest.size)]) ++ first.cbor false ++ rest.cbor true
  | .noEntries, inside => if inside then [] else [0xa0]
  | .entry key value rest, inside =>
      (if inside then [] else [.ofNat (0xa1 + rest.size)]) ++ .ofNat key :: value.cbor false ++
        rest.cbor true

def codec (bodies : List Body) : Codec Body where
  encode body := body.cbor false
  tryDecode bytes :=
    match bodies.find? fun body => body.cbor false == bytes with
    | some body => .ok body
    | none => .error "not one of these"

end Body

instance (codec : Codec Body) (frame : Frame Body) : Decidable (Carried codec frame) :=
  have : Decidable (Fits codec frame.body) :=
    inferInstanceAs (Decidable (1 + (codec.encode frame.body).length ≤ maxFrameBytes))
  decidable_of_iff (Fits codec frame.body ∧
      (codec.tryDecode (codec.encode frame.body)).toOption = some frame.body)
    ⟨fun h => ⟨h.1, by
      cases hback : codec.tryDecode (codec.encode frame.body) with
      | ok body => simpa [hback, Except.toOption] using h.2
      | error e => simp [hback, Except.toOption] at h⟩,
    fun h => ⟨h.fits, by rw [h.back]; rfl⟩⟩

end TautShape.Tool
