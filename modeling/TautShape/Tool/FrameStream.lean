import TautShape.Tool.Framing
/-!
# Frames that come back

A frame that was written is read back from however the reader finds its bytes, and a frame
that is cut off is the end of the stream.
-/

namespace TautShape.Tool

open TautShape.Lib
open TautShape.Log (Bytes)

variable {β : Type} {codec : Codec β} {r : Reader}

def wire (codec : Codec β) (frame : Frame β) : Bytes := writeFrame codec [] frame.tag frame.body

/-- The frames that lie wholly in the first `cut` bytes. -/
def whole (codec : Codec β) : Nat → List (Frame β) → List (Frame β)
  | _, [] => []
  | cut, frame :: frames =>
      if (wire codec frame).length ≤ cut then
        frame :: whole codec (cut - (wire codec frame).length) frames
      else []

def Fits (codec : Codec β) (body : β) : Prop := 1 + (codec.encode body).length ≤ maxFrameBytes

/-! ## What is written -/

theorem wire_eq (frame : Frame β) :
    wire codec frame =
      toLittleEndian 4 (frameLen codec frame.body) ++ (frame.tag :: codec.encode frame.body) := by
  show [] ++ _ ++ [frame.tag] ++ codec.encode frame.body = _
  rw [List.nil_append, List.append_assoc]
  rfl

theorem length_wire (frame : Frame β) :
    (wire codec frame).length = 4 + (1 + (codec.encode frame.body).length) := by
  rw [wire_eq, List.length_append, length_toLittleEndian, List.length_cons]
  omega

theorem written_eq (frames : List (Frame β)) :
    written codec frames = frames.flatMap (wire codec) := by
  have hfold : ∀ w : Bytes,
      frames.foldl (fun w frame => writeFrame codec w frame.tag frame.body) w =
        w ++ frames.flatMap (wire codec) := by
    induction frames with
    | nil =>
        intro w
        exact (List.append_nil w).symm
    | cons frame frames ih =>
        intro w
        rw [List.foldl_cons, ih, List.flatMap_cons, wire_eq]
        simp only [writeFrame, List.append_assoc, List.cons_append, List.nil_append]
  exact hfold []

theorem frameLen_lt (body : β) : frameLen codec body < 256 ^ 4 := by
  show ((codec.encode body).length + 1) % 2 ^ 32 < 256 ^ 4
  omega

theorem frameLen_of_fits {body : β} (h : Fits codec body) :
    frameLen codec body = 1 + (codec.encode body).length := by
  have hmax : maxFrameBytes < 2 ^ 32 := by decide
  show ((codec.encode body).length + 1) % 2 ^ 32 = _
  rw [Fits] at h
  omega

/-! ## The reader -/

theorem readExactOrEof_enough {len : Nat} (hclean : ∀ d ∈ r, d.Clean)
    (henough : len ≤ (delivered r).length) :
    ∃ rest, readExactOrEof len r = (.ok (.filled ((delivered r).take len)), rest) ∧
      delivered rest = (delivered r).drop len ∧ ∀ d ∈ rest, d.Clean :=
  fill_enough hclean (Nat.zero_le len) henough

theorem readExactOrEof_short {len : Nat} (hclean : ∀ d ∈ r, d.Clean)
    (hshort : (delivered r).length < len) : readExactOrEof len r = (.ok .ended, []) :=
  fill_short hclean hshort

theorem readFrame_len (codec : Codec β) {len : Nat} (hclean : ∀ d ∈ r, d.Clean)
    (hlen : len < 256 ^ 4) {rest : Bytes}
    (hdelivered : delivered r = toLittleEndian 4 len ++ rest) :
    ∃ r', readFrame codec r = readBody codec len r' ∧ delivered r' = rest ∧
      ∀ d ∈ r', d.Clean := by
  have henough : 4 ≤ (delivered r).length := by
    rw [hdelivered, List.length_append, length_toLittleEndian]
    omega
  obtain ⟨r', hread, hrest, hclean'⟩ := readExactOrEof_enough hclean henough
  refine ⟨r', ?_, ?_, hclean'⟩
  · have htake : (delivered r).take 4 = toLittleEndian 4 len := by
      rw [hdelivered]
      exact List.take_left' (length_toLittleEndian 4 len)
    rw [readFrame, hread]
    show readBody codec (ofLittleEndian ((delivered r).take 4)) r' = _
    rw [htake, ofLittleEndian_toLittleEndian 4 hlen]
  · rw [hrest, hdelivered]
    exact List.drop_left' (length_toLittleEndian 4 len)

/-- Where the bytes a length asks for are there, they are decoded. -/
theorem readBody_enough (codec : Codec β) {len : Nat} (hclean : ∀ d ∈ r, d.Clean) (hpos : 0 < len)
    (hmax : len ≤ maxFrameBytes) (henough : len ≤ (delivered r).length) :
    ∃ r', readBody codec len r = (.ok (decodeFrame codec ((delivered r).take len)), r') ∧
      delivered r' = (delivered r).drop len ∧ ∀ d ∈ r', d.Clean := by
  obtain ⟨r', hread, hrest, hclean'⟩ := readExactOrEof_enough hclean henough
  refine ⟨r', ?_, hrest, hclean'⟩
  rw [readBody, if_neg (by omega), if_neg (by omega), hread]

/-- A frame whose body comes back is read back, and nothing behind it is touched. -/
theorem readFrame_carried (hclean : ∀ d ∈ r, d.Clean) {frame : Frame β}
    (hfits : Fits codec frame.body)
    (hback : codec.tryDecode (codec.encode frame.body) = .ok frame.body) {rest : Bytes}
    (hdelivered : delivered r = wire codec frame ++ rest) :
    ∃ r', readFrame codec r = (.frame frame, r') ∧ delivered r' = rest ∧
      ∀ d ∈ r', d.Clean := by
  have hlen := frameLen_of_fits hfits
  have hlength : (frame.tag :: codec.encode frame.body).length = frameLen codec frame.body := by
    rw [hlen, List.length_cons]
    omega
  rw [wire_eq, List.append_assoc] at hdelivered
  obtain ⟨r₁, hfirst, hdelivered₁, hclean₁⟩ :=
    readFrame_len codec hclean (frameLen_lt frame.body) hdelivered
  have henough : frameLen codec frame.body ≤ (delivered r₁).length := by
    rw [hdelivered₁, List.length_append]
    omega
  obtain ⟨r₂, hbody, hdelivered₂, hclean₂⟩ :=
    readBody_enough codec hclean₁ (by omega) (by rw [hlen]; exact hfits) henough
  refine ⟨r₂, ?_, ?_, hclean₂⟩
  · rw [hfirst, hbody, hdelivered₁, List.take_left' hlength, decodeFrame, hback]
  · rw [hdelivered₂, hdelivered₁, List.drop_left' hlength]

theorem readFrame_wire (hround : codec.RoundTrips) (hclean : ∀ d ∈ r, d.Clean) {frame : Frame β}
    (hfits : Fits codec frame.body) {rest : Bytes}
    (hdelivered : delivered r = wire codec frame ++ rest) :
    ∃ r', readFrame codec r = (.frame frame, r') ∧ delivered r' = rest ∧
      ∀ d ∈ r', d.Clean :=
  readFrame_carried hclean hfits (hround frame.body) hdelivered

/-- A frame that is cut off is the end of the stream. -/
theorem readFrame_cut (hclean : ∀ d ∈ r, d.Clean) {frame : Frame β} (hfits : Fits codec frame.body)
    {cut : Nat} (hcut : cut < (wire codec frame).length)
    (hdelivered : delivered r = (wire codec frame).take cut) :
    readFrame codec r = (.ended, []) := by
  have hlength : (delivered r).length = cut := by
    rw [hdelivered, List.length_take]
    omega
  by_cases hfirst : cut < 4
  · rw [readFrame, readExactOrEof_short hclean (by omega)]
  -- the length is there, and the rest of the frame is not
  have hlen := frameLen_of_fits hfits
  have hbehind : delivered r = toLittleEndian 4 (frameLen codec frame.body) ++
      (frame.tag :: codec.encode frame.body).take (cut - 4) := by
    rw [hdelivered, wire_eq, List.take_append, length_toLittleEndian,
      List.take_of_length_le (by rw [length_toLittleEndian]; omega)]
  obtain ⟨r', hread, hdelivered', hclean'⟩ :=
    readFrame_len codec hclean (frameLen_lt frame.body) hbehind
  have hshort : (delivered r').length < frameLen codec frame.body := by
    rw [length_wire] at hcut
    rw [hdelivered', List.length_take]
    omega
  have hmax : ¬maxFrameBytes < frameLen codec frame.body := by
    rw [hlen]
    exact Nat.not_lt.mpr hfits
  rw [hread, readBody, if_neg (by omega), if_neg hmax, readExactOrEof_short hclean' hshort]

theorem readFrame_ended (hclean : ∀ d ∈ r, d.Clean) (hdelivered : delivered r = []) :
    readFrame codec r = (.ended, []) := by
  have hshort : (delivered r).length < 4 := by
    rw [hdelivered]
    decide
  rw [readFrame, readExactOrEof_short hclean hshort]

theorem readFrames_ended (calls : Nat) :
    readFrames codec calls [] = List.replicate calls .ended := by
  induction calls with
  | zero => rfl
  | succ calls ih =>
      rw [readFrames, readFrame_ended (by simp) rfl, List.replicate_succ]
      exact congrArg _ ih

theorem readFrames_of_ended {calls idle : Nat} (hidle : calls ≤ idle)
    (hread : readFrame codec r = (.ended, [])) :
    readFrames codec calls r = (List.replicate idle ReadResult.ended).take calls := by
  rw [List.take_replicate, Nat.min_eq_left hidle]
  cases calls with
  | zero => rfl
  | succ calls => rw [readFrames, hread, readFrames_ended, List.replicate_succ]

/-! ## Frames one after the other -/

/-- `idle` is how often the end of the stream is told, more often than anyone asks. -/
theorem readFrames_written (hround : codec.RoundTrips) {frames : List (Frame β)}
    (hfits : ∀ frame ∈ frames, Fits codec frame.body) {cut : Nat} (hclean : ∀ d ∈ r, d.Clean)
    (hdelivered : delivered r = (written codec frames).take cut) {calls idle : Nat}
    (hidle : calls ≤ idle) :
    readFrames codec calls r =
      ((whole codec cut frames).map ReadResult.frame ++
        List.replicate idle ReadResult.ended).take calls := by
  induction frames generalizing r cut calls with
  | nil =>
      apply readFrames_of_ended hidle
      apply readFrame_ended hclean
      rw [hdelivered]
      exact List.take_nil
  | cons frame frames ih =>
      have hframe : Fits codec frame.body := hfits frame List.mem_cons_self
      have hrest : ∀ frame ∈ frames, Fits codec frame.body := fun f hf =>
        hfits f (List.mem_cons_of_mem frame hf)
      rw [written_eq, List.flatMap_cons, List.take_append] at hdelivered
      by_cases hcut : (wire codec frame).length ≤ cut
      · rw [whole, if_pos hcut, List.map_cons, List.cons_append]
        rw [List.take_of_length_le hcut, ← written_eq] at hdelivered
        cases calls with
        | zero => rfl
        | succ calls =>
            obtain ⟨r', hread, hdelivered', hclean'⟩ :=
              readFrame_wire hround hclean hframe hdelivered
            rw [readFrames, hread, List.take_succ_cons]
            exact congrArg _ (ih hrest hclean' hdelivered' (by omega))
      · rw [whole, if_neg hcut, List.map_nil, List.nil_append]
        have hnone : cut - (wire codec frame).length = 0 := by omega
        apply readFrames_of_ended hidle
        apply readFrame_cut hclean hframe (Nat.lt_of_not_le hcut)
        rw [hdelivered, hnone, List.take_zero, List.append_nil]

/-- However the stream is cut and delivered, the calls return the frames that lie wholly in
the cut, as they were written, and then the end. -/
theorem frame_stream (codec : Codec β) (hround : codec.RoundTrips) (frames : List (Frame β))
    (hfits : ∀ frame ∈ frames, 1 + (codec.encode frame.body).length ≤ maxFrameBytes)
    (cut : Nat) (r : Reader) (hclean : ∀ d ∈ r, d.Clean)
    (hdelivered : delivered r = (written codec frames).take cut) (calls : Nat) :
    readFrames codec calls r =
      ((whole codec cut frames).map ReadResult.frame ++
        List.replicate calls ReadResult.ended).take calls :=
  readFrames_written hround hfits hclean hdelivered le_rfl

def smallNumbers : Codec (Fin 24) where
  encode n := [UInt8.ofNat n]
  tryDecode
    | [byte] => if h : byte.toNat < 24 then .ok ⟨byte.toNat, h⟩ else .error "not a small number"
    | _ => .error "not a small number"

theorem smallNumbers_roundTrips : smallNumbers.RoundTrips := by
  unfold Codec.RoundTrips
  decide

/-- Two frames in four pieces, of which the second frame is cut in its length. -/
theorem frame_stream_pieces :
    readFrames smallNumbers 3
        [.chunk [2, 0], .interrupted, .chunk [0, 0, 7, 5, 2], .chunk [0, 0]] =
      [.frame ⟨7, 5⟩, .ended, .ended] :=
  frame_stream smallNumbers smallNumbers_roundTrips [⟨7, 5⟩, ⟨0, 6⟩]
    (by decide) 9 _ (by simp [Delivery.Clean]) (by decide) 3

end TautShape.Tool
