import TautShape.Tool.FrameStream
import TautShape.Log.Node
/-!
# The cap on frames

The reader refuses a frame above 16 MiB.  The writer does not ask how long a frame is, and
it writes the length of a longer one modulo 2 ^ 32.
-/

namespace TautShape.Tool

open TautShape.Lib
open TautShape.Log (Bytes LogNode)

variable {β : Type} {codec : Codec β} {r : Reader}

theorem tryDecode_of_decodeFrame {tag : UInt8} {bytes : Bytes} {frame : Frame β}
    (h : decodeFrame codec (tag :: bytes) = .ok (some frame)) :
    codec.tryDecode bytes = .ok frame.body := by
  rw [decodeFrame] at h
  cases hbody : codec.tryDecode bytes with
  | ok body =>
      rw [hbody] at h
      cases h
      rfl
  | error message =>
      rw [hbody] at h
      cases h

/-- What is decoded from the front of an encoding is not what was encoded, for it encodes to
no more than that front. -/
theorem length_le_of_tryDecode_take (hcanonical : codec.Canonical) {body : β} {n : Nat}
    (h : codec.tryDecode ((codec.encode body).take n) = .ok body) :
    (codec.encode body).length ≤ n := by
  have hfront := congrArg List.length (hcanonical _ _ h)
  rw [List.length_take] at hfront
  omega

/-- Of a frame that comes back, no byte is above the cap. -/
theorem fits_of_readBody (hcanonical : codec.Canonical) (hclean : ∀ d ∈ r, d.Clean) {len : Nat}
    {tag : UInt8} {body : β} (hdelivered : delivered r = tag :: codec.encode body)
    (hlen : len ≤ (tag :: codec.encode body).length)
    (hread : (readBody codec len r).1 = .frame ⟨tag, body⟩) : Fits codec body := by
  by_cases hzero : len = 0
  · rw [readBody, if_pos hzero] at hread
    cases hread
  by_cases hmax : maxFrameBytes < len
  · rw [readBody, if_neg hzero, if_pos hmax] at hread
    cases hread
  obtain ⟨r', hbody, -⟩ := readBody_enough codec hclean (by omega : 0 < len) (by omega)
    (by rwa [hdelivered])
  obtain ⟨n, rfl⟩ := Nat.exists_eq_succ_of_ne_zero hzero
  rw [hbody, hdelivered, List.take_succ_cons] at hread
  have hdecoded := tryDecode_of_decodeFrame (Except.ok.inj hread)
  have hlength := length_le_of_tryDecode_take hcanonical hdecoded
  show 1 + (codec.encode body).length ≤ maxFrameBytes
  omega

/-- What was written comes back exactly if its length is within the cap. -/
theorem frame_comes_back_iff (codec : Codec β) (hround : codec.RoundTrips)
    (hcanonical : codec.Canonical) (tag : UInt8) (body : β) (r : Reader)
    (hclean : ∀ d ∈ r, d.Clean) (hdelivered : delivered r = writeFrame codec [] tag body) :
    (readFrame codec r).1 = .frame ⟨tag, body⟩ ↔
      1 + (codec.encode body).length ≤ maxFrameBytes := by
  constructor
  · intro hread
    have hwire : delivered r =
        toLittleEndian 4 (frameLen codec body) ++ (tag :: codec.encode body) :=
      hdelivered.trans (wire_eq ⟨tag, body⟩)
    obtain ⟨r', hfirst, hdelivered', hclean'⟩ :=
      readFrame_len codec hclean (frameLen_lt body) hwire
    have hlen : frameLen codec body ≤ (tag :: codec.encode body).length := Nat.mod_le _ _
    rw [hfirst] at hread
    exact fits_of_readBody hcanonical hclean' hdelivered' hlen hread
  · intro hfits
    have hbody : Fits codec (⟨tag, body⟩ : Frame β).body := hfits
    have hwire : delivered r = wire codec ⟨tag, body⟩ ++ [] :=
      hdelivered.trans (List.append_nil _).symm
    obtain ⟨r', hread, -⟩ := readFrame_wire hround hclean hbody hwire
    rw [hread]

theorem smallNumbers_canonical : smallNumbers.Canonical := by
  intro bytes n hdecoded
  match bytes, hdecoded with
  | [byte], hdecoded =>
      by_cases hsmall : byte.toNat < 24
      · simp only [smallNumbers, dif_pos hsmall] at hdecoded
        cases hdecoded
        show [UInt8.ofNat byte.toNat] = [byte]
        rw [UInt8.ofNat_toNat]
      · simp only [smallNumbers, dif_neg hsmall] at hdecoded
        cases hdecoded

theorem frame_comes_back_iff_number :
    (readFrame smallNumbers [.chunk [2, 0], .interrupted, .chunk [0, 0, 7, 5]]).1 =
        .frame ⟨7, 5⟩ ↔
      1 + (smallNumbers.encode 5).length ≤ maxFrameBytes :=
  frame_comes_back_iff smallNumbers smallNumbers_roundTrips smallNumbers_canonical 7 5 _
    (by simp [Delivery.Clean]) (by decide)

/-! ## A response above the cap -/

theorem writeFrame_ne_nil (codec : Codec β) (tag : UInt8) (body : β) :
    writeFrame codec [] tag body ≠ [] := by
  have hlength : (writeFrame codec [] tag body).length = 4 + (1 + (codec.encode body).length) :=
    length_wire ⟨tag, body⟩
  intro hnil
  rw [hnil, List.length_nil] at hlength
  omega

theorem readFrame_refused (hclean : ∀ d ∈ r, d.Clean) {tag : UInt8} {body : β} {len : Nat}
    (hdelivered : delivered r = writeFrame codec [] tag body) (hlen : frameLen codec body = len)
    (habove : maxFrameBytes < len) : (readFrame codec r).1 = .refused (.tooLarge len) := by
  have hwire : delivered r = toLittleEndian 4 len ++ (tag :: codec.encode body) := by
    rw [hdelivered, ← hlen]
    exact wire_eq ⟨tag, body⟩
  obtain ⟨r', hfirst, -⟩ := readFrame_len codec hclean (hlen ▸ frameLen_lt body) hwire
  rw [hfirst, readBody, if_neg (by omega), if_pos habove]

/-- The bodies of the run below: the `Push` of a payload, and the `ReadResponse` that
carries the payload twice. -/
inductive Sample where
  | push
  | response
deriving DecidableEq

namespace Sample

/-- CBOR of a byte string whose length takes four bytes. -/
def byteString (p : Bytes) : Bytes := 0x5a :: (toLittleEndian 4 p.length).reverse ++ p

def record (seq : UInt8) (p : Bytes) : Bytes := [0xa2, 1, seq, 2] ++ byteString p

def encode (p : Bytes) : Sample → Bytes
  | .push => [0xa1, 1] ++ byteString p
  | .response =>
      [0xa6, 1, 0x65, 0x6c, 0x6f, 0x67, 0x2d, 0x41, 2, 0x61, 0x73, 3, 0x82] ++ record 1 p ++
        record 2 p ++ [4, 0xa1, 1, 2, 5, 0, 6, 0xf6]

def cbor (p : Bytes) : Codec Sample where
  encode := encode p
  tryDecode bytes :=
    if bytes = encode p .push then .ok .push
    else if bytes = encode p .response then .ok .response
    else .error "another body"

theorem encode_ne (p : Bytes) : encode p .response ≠ encode p .push := by
  intro h
  have hhead : some (0xa6 : UInt8) = some 0xa1 := congrArg List.head? h
  exact absurd hhead (by decide)

theorem cbor_roundTrips (p : Bytes) : (cbor p).RoundTrips := by
  intro body
  cases body with
  | push => exact if_pos rfl
  | response =>
      simp only [cbor]
      rw [if_neg (encode_ne p), if_pos trivial]

theorem cbor_canonical (p : Bytes) : (cbor p).Canonical := by
  intro bytes body hdecoded
  simp only [cbor] at hdecoded ⊢
  split_ifs at hdecoded with hpush hresponse
  · cases hdecoded
    exact hpush.symm
  · cases hdecoded
    exact hresponse.symm

theorem length_byteString (p : Bytes) : (byteString p).length = 5 + p.length := by
  rw [byteString, List.cons_append, List.length_cons, List.length_append, List.length_reverse,
    length_toLittleEndian]
  omega

theorem length_push (p : Bytes) : (encode p .push).length = 7 + p.length := by
  rw [encode, List.length_append, length_byteString]
  simp only [List.length_cons, List.length_nil]
  omega

theorem length_response (p : Bytes) : (encode p .response).length = 39 + 2 * p.length := by
  rw [encode]
  simp only [record, List.length_append, length_byteString, List.length_cons, List.length_nil]
  omega

variable {p : Bytes}

theorem push_comes_back (hp : p.length = 2 ^ 23) :
    (readFrame (cbor p) [.chunk (writeFrame (cbor p) [] 0 .push)]).1 = .frame ⟨0, .push⟩ := by
  have hfits : Fits (cbor p) push := by
    show 1 + (encode p .push).length ≤ 16 * 1024 * 1024
    rw [length_push, hp]
    norm_num
  have hwire : delivered [(.chunk (writeFrame (cbor p) [] 0 .push) : Delivery _ String)] =
      wire (cbor p) ⟨0, .push⟩ ++ [] := by
    rw [delivered_chunk, List.append_nil]
    rfl
  obtain ⟨r', hread, -⟩ := readFrame_wire (cbor_roundTrips p)
    (clean_chunk (writeFrame_ne_nil _ _ _)) hfits hwire
  rw [hread]

theorem response_refused (hp : p.length = 2 ^ 23) :
    (readFrame (cbor p) [.chunk (writeFrame (cbor p) [] 7 .response)]).1 =
      .refused (.tooLarge (2 ^ 24 + 40)) := by
  have hlen : frameLen (cbor p) response = 2 ^ 24 + 40 := by
    show ((encode p .response).length + 1) % 2 ^ 32 = _
    rw [length_response, hp]
    norm_num
  have habove : maxFrameBytes < 2 ^ 24 + 40 := by norm_num [maxFrameBytes]
  exact readFrame_refused (clean_chunk (writeFrame_ne_nil _ _ _)) (delivered_chunk _) hlen habove

end Sample

/-- Two pushes of 8 MiB come back as they were written, and the response that carries both
of them is refused. -/
theorem response_above_cap :
    let p : Bytes := List.replicate (2 ^ 23) 0
    (Sample.cbor p).RoundTrips ∧ (Sample.cbor p).Canonical ∧
      p.length < (Sample.byteString p).length ∧
      (readFrame (Sample.cbor p) [.chunk (writeFrame (Sample.cbor p) [] 0 .push)]).1 =
        .frame ⟨0, .push⟩ ∧
      outputs LogNode.handle (LogNode.new ⟨.lastReader⟩)
          [.push p, .push p, .read "s" none ⟨none, none⟩ none] =
        [[], [], [.response ⟨"s", [⟨1, p⟩, ⟨2, p⟩], ⟨2⟩, .data, none⟩]] ∧
      (readFrame (Sample.cbor p) [.chunk (writeFrame (Sample.cbor p) [] 7 .response)]).1 =
        .refused (.tooLarge (2 ^ 24 + 40)) := by
  have hrun : ∀ p : Bytes, outputs LogNode.handle (LogNode.new ⟨.lastReader⟩)
      [.push p, .push p, .read "s" none ⟨none, none⟩ none] =
        [[], [], [.response ⟨"s", [⟨1, p⟩, ⟨2, p⟩], ⟨2⟩, .data, none⟩]] := fun _ => rfl
  have hlength : (List.replicate (2 ^ 23) 0 : Bytes).length = 2 ^ 23 := List.length_replicate
  have hstring : (List.replicate (2 ^ 23) 0 : Bytes).length <
      (Sample.byteString (List.replicate (2 ^ 23) 0)).length := by
    rw [Sample.length_byteString]
    omega
  exact ⟨Sample.cbor_roundTrips _, Sample.cbor_canonical _, hstring,
    Sample.push_comes_back hlength, hrun _, Sample.response_refused hlength⟩

end TautShape.Tool
