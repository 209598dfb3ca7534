import TautShape.Log.Types
import TautShape.Lib.Wire
/-!
# The data channel

Frames of the tool: a length of four bytes, a tag and a CBOR body.  The codec of the
bodies is not part of this repository, so that it is a parameter here.
-/

namespace TautShape.Tool

open TautShape.Lib
open TautShape.Log (Bytes)

/-- `cbor::encode` and `cbor::try_decode`, whose error is the text of a `DecodeError`. -/
structure Codec (β : Type) where
  encode : β → Bytes
  tryDecode : Bytes → Except String β

def Codec.RoundTrips {β : Type} (codec : Codec β) : Prop :=
  ∀ body, codec.tryDecode (codec.encode body) = .ok body

/-- Whatever is decoded encodes to the bytes it came from. -/
def Codec.Canonical {β : Type} (codec : Codec β) : Prop :=
  ∀ bytes body, codec.tryDecode bytes = .ok body → codec.encode body = bytes

/-- 16 MiB. -/
def maxFrameBytes : Nat := 16 * 1024 * 1024

structure Frame (β : Type) where
  tag : UInt8
  body : β
deriving DecidableEq

inductive FrameError where
  | malformedBody (message : String)
  | badLength (len : Nat)
  | tooLarge (len : Nat)
deriving DecidableEq

/-- What is left of a byte stream; a fault is an I/O error other than an interruption. -/
abbrev Reader : Type := List (Delivery UInt8 String)

def readExactOrEof (len : Nat) (r : Reader) : Except String (Filled UInt8) × Reader := fill len [] r

variable {β : Type}

/-- What a call of `read_frame` returns: an I/O error, a frame that is refused, a frame, or
`none` at the end of the stream. -/
abbrev ReadResult (β : Type) : Type := Except String (Except FrameError (Option (Frame β)))

abbrev ReadResult.frame (frame : Frame β) : ReadResult β := .ok (.ok (some frame))

abbrev ReadResult.ended : ReadResult β := .ok (.ok none)

abbrev ReadResult.refused (error : FrameError) : ReadResult β := .ok (.error error)

def decodeFrame (codec : Codec β) : Bytes → Except FrameError (Option (Frame β))
  | [] => .ok none
  | tagByte :: bodyBytes =>
      match codec.tryDecode bodyBytes with
      | .ok body => .ok (some ⟨tagByte, body⟩)
      | .error message => .error (.malformedBody message)

/-- The rest of a frame, once its length is there. -/
def readBody (codec : Codec β) (len : Nat) (r : Reader) : ReadResult β × Reader :=
  if len = 0 then (.refused (.badLength len), r)
  -- refused before the body is read
  else if maxFrameBytes < len then (.refused (.tooLarge len), r)
  else
    match readExactOrEof len r with
    | (.error error, r) => (.error error, r)
    | (.ok .ended, r) => (.ended, r)
    | (.ok (.filled frameBuf), r) => (.ok (decodeFrame codec frameBuf), r)

def readFrame (codec : Codec β) (r : Reader) : ReadResult β × Reader :=
  match readExactOrEof 4 r with
  | (.error error, r) => (.error error, r)
  | (.ok .ended, r) => (.ended, r)
  | (.ok (.filled lenBuf), r) => readBody codec (ofLittleEndian lenBuf) r

/-- `(encoded.len() + 1) as u32` -/
def frameLen (codec : Codec β) (body : β) : Nat := ((codec.encode body).length + 1) % 2 ^ 32

/-- `w` is what was written before; the writer does not fail. -/
def writeFrame (codec : Codec β) (w : Bytes) (tag : UInt8) (body : β) : Bytes :=
  w ++ toLittleEndian 4 (frameLen codec body) ++ [tag] ++ codec.encode body

def written (codec : Codec β) (frames : List (Frame β)) : Bytes :=
  frames.foldl (fun w frame => writeFrame codec w frame.tag frame.body) []

def readFrames (codec : Codec β) : Nat → Reader → List (ReadResult β)
  | 0, _ => []
  | calls + 1, r => (readFrame codec r).1 :: readFrames codec calls (readFrame codec r).2

end TautShape.Tool
