import TautShape.Atom.Types
/-!
# The atom engine

One value that its writer replaces, and the version that counts the replacements.  A
reader gets the value when the node's version is above its own.
-/

namespace TautShape.Atom

open TautShape.Lib TautShape.Held
open TautShape.Log (Bytes StopWhen)

structure AtomNode where
  stopWhen : StopWhen
  version : Int
  payload : Option Bytes
  isSealed : Bool
  isClosed : Bool
  closeError : Option AtomError
  readers : Streams Request

namespace AtomNode

def new (stopWhen : StopWhen) : AtomNode where
  stopWhen := stopWhen
  version := 0
  payload := none
  isSealed := false
  isClosed := false
  closeError := none
  readers := Streams.new

/-- What a read is answered.  The payload of a `data` answer is unwrapped in the source,
which `resolveChecked` looks at. -/
def resolve (n : AtomNode) (atomId streamId : String) (version : Int) (timeoutMs : Option Int) :
    Option AtomReadResponse :=
  if version < n.version then
    some ⟨atomId, streamId, n.payload.map (⟨n.version, ·⟩), ⟨n.version⟩, .data, none⟩
  else
    let state : Option AtomState :=
      if n.isClosed then some (if n.closeError.isSome then .failed else .closed)
      else if n.isSealed then some .eof
      else if timeoutMs = some 0 then some .wouldBlock
      else none
    state.map fun state =>
      ⟨atomId, streamId, none, ⟨n.version⟩, state,
        if state = .failed then n.closeError else none⟩

def answer (n : AtomNode) (streamId : String) (request : Request) : Option AtomReadResponse :=
  n.resolve request.atomId streamId request.known request.timeoutMs

/-- `resolve` once the timer of a held read has run out. -/
def probe (n : AtomNode) (streamId : String) (request : Request) : Option AtomReadResponse :=
  n.resolve request.atomId streamId request.known (some 0)

def answerAllHeld (n : AtomNode) : AtomNode × List AtomOutput :=
  let (readers, out) := n.readers.answerAllHeld n.answer
  ({ n with readers := readers }, out)

def replace (n : AtomNode) (payload : Bytes) : AtomNode × List AtomOutput :=
  if n.isSealed || n.isClosed then (n, [.diagnostic ⟨.warn, .replaceAfterTerminal⟩])
  else { n with version := n.version + 1, payload := some payload : AtomNode }.answerAllHeld

def «seal» (n : AtomNode) : AtomNode × List AtomOutput :=
  if n.isSealed then (n, []) else { n with isSealed := true : AtomNode }.answerAllHeld

def close (n : AtomNode) (error : Option AtomError) : AtomNode × List AtomOutput :=
  if n.isClosed then (n, [])
  else
    let (n, out) := { n with isClosed := true, closeError := error : AtomNode }.answerAllHeld
    (n, out ++ [.producerStop (if n.closeError.isSome then .failed else .closed)])

def read (n : AtomNode) (streamId : String) (request : Request) : AtomNode × List AtomOutput :=
  let (readers, out) := n.readers.read n.answer Request.timeoutMs streamId request
  ({ n with readers := readers }, out)

def endStream (n : AtomNode) (streamId : String) : AtomNode × List AtomOutput :=
  let (readers, out) := n.readers.endStream n.stopWhen streamId
  ({ n with readers := readers }, out)

def timerExpired (n : AtomNode) (token : Int) : AtomNode × List AtomOutput :=
  let (readers, out) := n.readers.timerExpired n.probe token
  ({ n with readers := readers }, out)

def handle (n : AtomNode) : AtomInput → AtomNode × List AtomOutput
  | .replace payload => n.replace payload
  | .seal => n.seal
  | .close error => n.close error
  | .read streamId request => n.read streamId request
  | .endStream streamId => n.endStream streamId
  | .timerExpired token => n.timerExpired token

end AtomNode

def run (stopWhen : StopWhen) (inputs : List AtomInput) : AtomNode :=
  after AtomNode.handle (AtomNode.new stopWhen) inputs

end TautShape.Atom
