import TautShape.Stream.Types
/-!
# The stream engine

A ring of the last records, whose readers' positions the node keeps.  A reader that the
ring has overtaken is dropped; a reader that comes back starts at the head.
-/

namespace TautShape.Stream

open TautShape.Lib TautShape.Held
open TautShape.Log (Bytes StopWhen)

structure Reader where
  cursor : Int
  held : Option (HeldRead Request)
deriving DecidableEq, Repr

structure StreamNode where
  capacityRecords : Nat
  /-- `new` asserts it. -/
  capacity_pos : 0 < capacityRecords
  stopWhen : StopWhen
  head : Int
  payloads : BTreeMap Int Bytes
  isSealed : Bool
  isClosed : Bool
  closeError : Option StreamError
  readers : BTreeMap String Reader
  order : List String
  nextToken : Int

def response (streamId : String) (records : List StreamRecord) (position : Int)
    (state : StreamState) (error : Option StreamError) : StreamReadResponse :=
  ⟨streamId, records, ⟨position⟩, state, error⟩

/-- The loop of `resolve` over the records of the range: `used` counts the bytes of those
that were taken. -/
def collect (maxRecords maxBytes : Option Int) :
    List (Int × Bytes) → List StreamRecord → Int → List StreamRecord
  | [], records, _ => records
  | (seq, payload) :: rest, records, used =>
      if maxRecords.any fun limit => limit > 0 && decide ((records.length : Int) ≥ limit) then
        records
      else if maxBytes.any fun limit =>
          limit ≥ 0 && !records.isEmpty && decide (used + (payload.length : Int) > limit) then
        records
      else
        collect maxRecords maxBytes rest (records ++ [⟨seq, payload⟩]) (used + payload.length)

namespace StreamNode

def new (capacityRecords : Nat) (capacity_pos : 0 < capacityRecords) (stopWhen : StopWhen) :
    StreamNode where
  capacityRecords := capacityRecords
  capacity_pos := capacity_pos
  stopWhen := stopWhen
  head := 0
  payloads := ∅
  isSealed := false
  isClosed := false
  closeError := none
  readers := ∅
  order := []
  nextToken := 1

/-- The first key of the ring, or the next one to come. -/
def floor (n : StreamNode) : Int :=
  match n.payloads.toList.head? with
  | none => n.head + 1
  | some (seq, _) => seq

def range (n : StreamNode) (first : Int) : List (Int × Bytes) :=
  n.payloads.toList.filter fun p => first ≤ p.1

/-! ## What a read is answered -/

def resolve (n : StreamNode) (streamId : String) (reader : Reader) (request : Request) :
    Reader × Option StreamReadResponse :=
  if reader.cursor < n.floor - 1 then
    (reader, some (response streamId [] n.head .dropped (some ⟨.slowConsumer, none⟩)))
  else
    let records := collect request.maxRecords request.maxBytes (n.range (reader.cursor + 1)) [] 0
    match records.getLast? with
    | some last =>
        ({ reader with cursor := last.seq }, some (response streamId records last.seq .data none))
    | none =>
        let answer (state : StreamState) (error : Option StreamError) :=
          (reader, some (response streamId [] reader.cursor state error))
        if n.isClosed then
          if n.closeError.isSome then answer .failed n.closeError else answer .closed none
        else if n.isSealed then answer .eof none
        else if request.timeoutMs = some 0 then answer .wouldBlock none
        else (reader, none)

/-! ## Readers -/

def removeFromMap (n : StreamNode) (streamId : String) : StreamNode :=
  { n with readers := n.readers.erase streamId }

def insertReader (n : StreamNode) (streamId : String) (reader : Reader) : StreamNode :=
  { n with readers := n.readers.insert streamId reader }

def ensureReader (n : StreamNode) (streamId : String) : StreamNode :=
  if n.readers.contains streamId then n
  else { n.insertReader streamId ⟨n.head, none⟩ with order := n.order ++ [streamId] }

def stopIfLastReader (n : StreamNode) : List StreamOutput :=
  if n.readers.isEmpty ∧ n.stopWhen = .lastReader then [.producerStop .lastReaderGone] else []

/-- `order.retain` of the others. -/
def forget (n : StreamNode) (streamId : String) : StreamNode :=
  { n with order := n.order.filter (· ≠ streamId) }

/-- The reader that was just ensured is unwrapped in the source. -/
def read (n : StreamNode) (streamId : String) (request : Request) :
    StreamNode × List StreamOutput :=
  let n := n.ensureReader streamId
  match n.readers[streamId]? with
  | none => (n, [])
  | some reader =>
      let out := cancelTimer (reader.held.bind HeldRead.timerToken)
      let n := n.removeFromMap streamId
      match n.resolve streamId { reader with held := none } request with
      | (reader, some response) =>
          if response.state = .dropped then
            let n := n.forget streamId
            (n, out ++ [.readResponse response] ++ n.stopIfLastReader)
          else
            (n.insertReader streamId reader, out ++ [.readResponse response])
      | (reader, none) =>
          match request.timeoutMs.filter (0 < ·) with
          | some ms =>
              ({ n.insertReader streamId { reader with held := some ⟨request, some n.nextToken⟩ }
                  with nextToken := n.nextToken + 1 },
                out ++ [.setTimer n.nextToken ms])
          | none => (n.insertReader streamId { reader with held := some ⟨request, none⟩ }, out)

/-- The body of the sweep over the held reads: the reader is taken out of the map, and put
back unless it is dropped. -/
def answerHeld (n : StreamNode) (streamId : String) : StreamNode × List StreamOutput :=
  match n.readers[streamId]? with
  | none => (n, [])
  | some reader =>
      let n := n.removeFromMap streamId
      match reader.held with
      | none => (n.insertReader streamId reader, [])
      | some held =>
          match n.resolve streamId { reader with held := none } held.request with
          | (reader, none) => (n.insertReader streamId { reader with held := some held }, [])
          | (reader, some response) =>
              let out := cancelTimer held.timerToken ++ [.readResponse response]
              if response.state = .dropped then
                let n := n.forget streamId
                (n, out ++ n.stopIfLastReader)
              else (n.insertReader streamId reader, out)

def answerAllHeld (n : StreamNode) : StreamNode × List StreamOutput :=
  (after answerHeld n n.order, (outputs answerHeld n n.order).flatten)

def removeReader (n : StreamNode) (streamId : String) : StreamNode × List StreamOutput :=
  if n.readers.contains streamId then
    let n := (n.removeFromMap streamId).forget streamId
    (n, n.stopIfLastReader)
  else (n, [])

def endStream (n : StreamNode) (streamId : String) : StreamNode × List StreamOutput :=
  match n.readers[streamId]? with
  | none => (n, [])
  | some reader =>
      let (n, out) := n.removeReader streamId
      (n, cancelTimer (reader.held.bind HeldRead.timerToken) ++ out)

/-- The held read whose timer this is, in creation order. -/
def findTimer (n : StreamNode) (token : Int) : Option (String × HeldRead Request) :=
  n.order.findSome? fun streamId =>
    ((n.readers[streamId]?.bind Reader.held).filter fun held =>
      held.timerToken = some token).map (streamId, ·)

/-- The probe is unwrapped in the source, and its reader is put back whatever the answer. -/
def timerExpired (n : StreamNode) (token : Int) : StreamNode × List StreamOutput :=
  match n.findTimer token with
  | none => (n, [])
  | some (streamId, held) =>
      match n.readers[streamId]? with
      | none => (n, [])
      | some reader =>
          let n := n.removeFromMap streamId
          let (reader, response) := n.resolve streamId { reader with held := none }
            { held.request with timeoutMs := some 0 }
          (n.insertReader streamId reader, response.toList.map .readResponse)

/-! ## The producer -/

def push (n : StreamNode) (payload : Bytes) : StreamNode × List StreamOutput :=
  if n.isSealed || n.isClosed then (n, [.diagnostic ⟨.warn, .pushAfterTerminal⟩])
  else
    let head := n.head + 1
    let payloads := n.payloads.insert head payload
    let payloads := if payloads.size > n.capacityRecords then
        payloads.erase (head - n.capacityRecords)
      else payloads
    { n with head := head, payloads := payloads : StreamNode }.answerAllHeld

def «seal» (n : StreamNode) : StreamNode × List StreamOutput :=
  if n.isSealed || n.isClosed then (n, [])
  else { n with isSealed := true : StreamNode }.answerAllHeld

def close (n : StreamNode) (error : Option StreamError) : StreamNode × List StreamOutput :=
  if n.isClosed then (n, [])
  else
    let (n, out) := { n with isClosed := true, closeError := error : StreamNode }.answerAllHeld
    (n, out ++ [.producerStop (if n.closeError.isSome then .failed else .closed)])

def handle (n : StreamNode) : StreamInput → StreamNode × List StreamOutput
  | .push payload => n.push payload
  | .seal => n.seal
  | .close error => n.close error
  | .read streamId request => n.read streamId request
  | .endStream streamId => n.endStream streamId
  | .timerExpired token => n.timerExpired token

end StreamNode

def run (capacityRecords : Nat) (capacity_pos : 0 < capacityRecords) (stopWhen : StopWhen)
    (inputs : List StreamInput) : StreamNode :=
  after StreamNode.handle (StreamNode.new capacityRecords capacity_pos stopWhen) inputs

end TautShape.Stream
