import TautShape.Lib.Serving
import TautShape.Lib.OrderedMap
import TautShape.Log.Node
/-!
# Readers and their held reads

The atom and the swmr engine keep their readers alike: a map from stream ids to the read
that is held there, the ids in creation order, and a counter of timer tokens.  What is
the same in both stands here once, over the engine's `resolve`, which says what a
request is answered now.  Tokens and milliseconds are `i64` in the source and `Int` here;
any token may come back from outside.

`Streams.desk` is the view under which these functions are turns of a desk.
-/

namespace TautShape.Held

open TautShape.Lib
open TautShape.Log (StopWhen)

inductive StopReason where
  | lastReaderGone
  | closed
  | failed
deriving DecidableEq, Repr

inductive Output (α δ : Type) where
  | readResponse (response : α)
  | setTimer (token ms : Int)
  | cancelTimer (token : Int)
  | producerStop (reason : StopReason)
  | diagnostic (diagnostic : δ)
deriving DecidableEq, Repr

structure HeldRead (ρ : Type) where
  request : ρ
  timerToken : Option Int
deriving DecidableEq, Repr

structure Streams (ρ : Type) where
  streams : BTreeMap String (Option (HeldRead ρ))
  order : List String
  nextToken : Int

variable {ρ α δ : Type}

def cancelTimer : Option Int → List (Output α δ)
  | some token => [.cancelTimer token]
  | none => []

namespace Streams

def new : Streams ρ := ⟨∅, [], 1⟩

def heldOf (t : Streams ρ) (streamId : String) : Option (HeldRead ρ) :=
  t.streams[streamId]?.join

/-- `streams.insert` for a stream that is there. -/
def setHeld (t : Streams ρ) (streamId : String) (held : Option (HeldRead ρ)) : Streams ρ :=
  { t with streams := t.streams.insert streamId held }

def ensureStream (t : Streams ρ) (streamId : String) : Streams ρ :=
  if t.streams.contains streamId then t
  else { t.setHeld streamId none with order := t.order ++ [streamId] }

def read (t : Streams ρ) (resolve : String → ρ → Option α) (timeoutMs : ρ → Option Int)
    (streamId : String) (request : ρ) : Streams ρ × List (Output α δ) :=
  let t := t.ensureStream streamId
  let out := cancelTimer ((t.heldOf streamId).bind HeldRead.timerToken)
  let t := t.setHeld streamId none
  match resolve streamId request with
  | some response => (t, out ++ [.readResponse response])
  | none =>
      match (timeoutMs request).filter (0 < ·) with
      | some ms =>
          ({ t.setHeld streamId (some ⟨request, some t.nextToken⟩) with
              nextToken := t.nextToken + 1 },
            out ++ [.setTimer t.nextToken ms])
      | none => (t.setHeld streamId (some ⟨request, none⟩), out)

def answerHeld (resolve : String → ρ → Option α) (t : Streams ρ) (streamId : String) :
    Streams ρ × List (Output α δ) :=
  match t.heldOf streamId with
  | none => (t, [])
  | some held =>
      match resolve streamId held.request with
      | none => (t, [])
      | some response =>
          (t.setHeld streamId none, cancelTimer held.timerToken ++ [.readResponse response])

def answerAllHeld (t : Streams ρ) (resolve : String → ρ → Option α) :
    Streams ρ × List (Output α δ) :=
  (after (answerHeld (δ := δ) resolve) t t.order,
    (outputs (answerHeld resolve) t t.order).flatten)

def endStream (t : Streams ρ) (stopWhen : StopWhen) (streamId : String) :
    Streams ρ × List (Output α δ) :=
  match t.streams[streamId]? with
  | none => (t, [])
  | some held =>
      let streams := t.streams.erase streamId
      let stop := if streams.isEmpty ∧ stopWhen = .lastReader then
          [Output.producerStop .lastReaderGone]
        else []
      ({ t with streams := streams, order := t.order.filter (· ≠ streamId) },
        cancelTimer (held.bind HeldRead.timerToken) ++ stop)

/-- The held read whose timer this is, in the order of the map. -/
def findTimer (t : Streams ρ) (token : Int) : Option (String × HeldRead ρ) :=
  t.streams.toList.findSome? fun p =>
    (p.2.filter fun held => held.timerToken = some token).map (p.1, ·)

/-- The source unwraps what `probe` returns. -/
def timerExpired (t : Streams ρ) (probe : String → ρ → Option α) (token : Int) :
    Streams ρ × List (Output α δ) :=
  match t.findTimer token with
  | none => (t, [])
  | some (streamId, held) =>
      (t.setHeld streamId none, (probe streamId held.request).toList.map .readResponse)

end Streams

end TautShape.Held
