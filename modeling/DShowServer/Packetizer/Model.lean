import DShowServer.Packetizer.Reader

/-!
# The packetizer (nal_parser.c, nal_parser.h, dshowserver_decode_data)

`parse_frame` looks for start codes in a chunk of the stream, gathers the bytes
in front of them in a buffer and returns the buffer where a NAL unit begins a
frame. The chunk lies in a memory: a pointer into it is an address, and what is
read behind its end is read from what lies there. Lengths are natural numbers,
and the buffer is as long as it gets; `maxFrameSize` is the length that the
source gives it.
-/

namespace DShow.Packetizer

/-! ## The data -/

/-- `struct seq_parameter_set_rbsp`. -/
structure SeqParameterSet where
  profile_idc : BitVec 8 := 0
  constraint_setN_flag : BitVec 8 := 0
  level_idc : BitVec 8 := 0
  seq_parameter_set_id : BitVec 32 := 0
  chroma_format_idc : BitVec 32 := 0
  residual_colour_transform_flag : BitVec 8 := 0
  bit_depth_luma_minus8 : BitVec 32 := 0
  bit_depth_chroma_minus8 : BitVec 32 := 0
  qpprime_y_zero_transform_bypass_flag : BitVec 8 := 0
  seq_scaling_matrix_present_flag : BitVec 8 := 0
  seq_scaling_lists_present_flag : BitVec 8 := 0
  log2_max_frame_num_minus4 : BitVec 32 := 0
  pic_order_cnt_type : BitVec 32 := 0
  log2_max_pic_order_cnt_lsb_minus4 : BitVec 32 := 0
  delta_pic_order_always_zero_flag : BitVec 8 := 0
  offset_for_non_ref_pic : BitVec 32 := 0
  offset_for_top_to_bottom_field : BitVec 32 := 0
  num_ref_frames_in_pic_order_cnt_cycle : BitVec 8 := 0
  offset_for_ref_frame : Nat → BitVec 32 := fun _ => 0
  num_ref_frames : BitVec 32 := 0
  gaps_in_frame_num_value_allowed_flag : BitVec 8 := 0
  pic_width : BitVec 32 := 0
  pic_height : BitVec 32 := 0
  frame_mbs_only_flag : BitVec 8 := 0
  mb_adaptive_frame_field_flag : BitVec 8 := 0
  direct_8x8_inference_flag : BitVec 8 := 0
  frame_cropping_flag : BitVec 8 := 0
  frame_crop_left_offset : BitVec 32 := 0
  frame_crop_right_offset : BitVec 32 := 0
  frame_crop_top_offset : BitVec 32 := 0
  frame_crop_bottom_offset : BitVec 32 := 0
  vui_parameters_present_flag : BitVec 8 := 0

/-- `struct pic_parameter_set_rbsp`. -/
structure PicParameterSet where
  pic_parameter_set_id : BitVec 32 := 0
  seq_parameter_set_id : BitVec 32 := 0
  entropy_coding_mode_flag : BitVec 8 := 0
  pic_order_present_flag : BitVec 8 := 0
deriving DecidableEq

/-- `struct slice_header`. -/
structure SliceHeader where
  first_mb_in_slice : BitVec 32 := 0
  slice_type : BitVec 32 := 0
  pic_parameter_set_id : BitVec 32 := 0
  frame_num : BitVec 32 := 0
  field_pic_flag : BitVec 8 := 0
  bottom_field_flag : BitVec 8 := 0
  idr_pic_id : BitVec 32 := 0
  pic_order_cnt_lsb : BitVec 32 := 0
  delta_pic_order_cnt_bottom : BitVec 32 := 0
  delta_pic_order_cnt0 : BitVec 32 := 0
  delta_pic_order_cnt1 : BitVec 32 := 0
deriving DecidableEq

/-- The two NAL units of a parser. -/
inductive Which
  | nal0
  | nal1
deriving DecidableEq

def Which.other : Which → Which
  | nal0 => nal1
  | nal1 => nal0

/-- `struct nal_unit`. The parameter sets lie in blocks that the one unit or the
other has allocated, and both may point to the same. -/
structure NalUnit where
  nal_ref_idc : BitVec 8 := 0
  nal_unit_type : BitVec 8 := 0
  sps : Option Which := none
  pps : Option Which := none
  slc : Option SliceHeader := none

/-- What `malloc` hands out: the contents of the fresh blocks of each unit, and the
bytes behind the one that `decode_nal` fills. -/
structure Heap where
  sps : Which → SeqParameterSet
  pps : Which → PicParameterSet
  slc : Which → SliceHeader
  after : Nat → UInt8

/-- Memory in which every byte is 0. -/
def Heap.zero : Heap := ⟨fun _ => {}, fun _ => {}, fun _ => {}, fun _ => 0⟩

/-- `struct nal_parser`: `buf` is the part of the buffer in use, `last_nal` is the
unit that is not `current_nal`, and `spsAt` and `ppsAt` are the blocks. -/
structure NalParser where
  buf : List UInt8
  last_nal_res : Nat
  field : Int
  slice : Nat
  have_top : Nat
  nal : Which → NalUnit
  current_nal : Which
  spsAt : Which → SeqParameterSet
  ppsAt : Which → PicParameterSet
  heap : Heap

/-- `MAX_FRAME_SIZE`. -/
def maxFrameSize : Nat := 1024 * 1024

/-- `init_parser`. -/
def initParser (heap : Heap) : NalParser where
  buf := []
  last_nal_res := 0
  field := -1
  slice := 0
  have_top := 0
  nal := fun _ => {}
  current_nal := .nal0
  spsAt := heap.sps
  ppsAt := heap.pps
  heap := heap

namespace NalParser

variable (p : NalParser)

/-- `*parser->current_nal`. -/
def unit : NalUnit := p.nal p.current_nal

/-- Write to the current unit. -/
def setUnit (nal : NalUnit) : NalParser := { p with nal := Function.update p.nal p.current_nal nal }

/-- `*parser->current_nal->sps`, where it is not null. -/
def sps : Option SeqParameterSet := p.unit.sps.map p.spsAt

/-- `*parser->current_nal->pps`. -/
def pps : Option PicParameterSet := p.unit.pps.map p.ppsAt

end NalParser

/-! ## The parameter sets and the slice header -/

/-- The loop of `decode_nal`: the byte 03 behind two zeros goes where another byte
follows. -/
def decodeNal : List UInt8 → List UInt8
  | 0 :: 0 :: 3 :: x :: xs => 0 :: 0 :: decodeNal (x :: xs)
  | x :: xs => x :: decodeNal xs
  | [] => []

/-- `read_bits(buf, 1)`, into a flag. -/
def readFlag : Read (BitVec 8) := do
  let b ← readBits 1
  pure (b.setWidth 8)

/-- What is read under a condition; otherwise there is the value of before. -/
def readIf {α : Type} (c : Prop) [Decidable c] (x : Read α) (a : α) : Read α :=
  if c then x else pure a

/-- `skip_scaling_list`. -/
def skipScalingList : Nat → Read Unit
  | 0 => pure ()
  | size + 1 => do
    let _ ← readExpGolombS
    skipScalingList size

/-- The loop over the scaling lists, of which the last `n` are left. -/
def skipLists (flags : BitVec 8) : Nat → Read Unit
  | 0 => pure ()
  | n + 1 => do
    readIf ((flags >>> n) &&& 1 ≠ 0) (skipScalingList (if 7 - n < 6 then 16 else 64)) ()
    skipLists flags n

/-- `parse_sps`, the part of the high profiles. -/
def parseChroma (sps : SeqParameterSet) : Read SeqParameterSet := do
  let chroma ← readExpGolomb
  let residual ← readIf (chroma = 3) readFlag sps.residual_colour_transform_flag
  let luma ← readExpGolomb
  let depth ← readExpGolomb
  let bypass ← readFlag
  let present ← readFlag
  let sps := { sps with
    chroma_format_idc := chroma
    residual_colour_transform_flag := residual
    bit_depth_luma_minus8 := luma
    bit_depth_chroma_minus8 := depth
    qpprime_y_zero_transform_bypass_flag := bypass
    seq_scaling_matrix_present_flag := present }
  if present ≠ 0 then
    let flags ← readBits 8
    skipLists (flags.setWidth 8) 8
    pure { sps with seq_scaling_lists_present_flag := flags.setWidth 8 }
  else pure sps

/-- The loop over `offset_for_ref_frame`, of which `n` are left. -/
def readOffsets (offsets : Nat → BitVec 32) (i : Nat) : Nat → Read (Nat → BitVec 32)
  | 0 => pure offsets
  | n + 1 => do
    let x ← readExpGolombS
    readOffsets (Function.update offsets i x) (i + 1) n

/-- `parse_sps`, the part of the picture order. -/
def parseOrder (sps : SeqParameterSet) : Read SeqParameterSet := do
  let type ← readExpGolomb
  let sps := { sps with pic_order_cnt_type := type }
  if type = 0 then
    let lsb ← readExpGolomb
    pure { sps with log2_max_pic_order_cnt_lsb_minus4 := lsb }
  else
    let zero ← readFlag
    let nonRef ← readExpGolombS
    let topToBottom ← readExpGolombS
    let cycle ← readExpGolomb
    let offsets ← readOffsets sps.offset_for_ref_frame 0 (cycle.setWidth 8).toNat
    pure { sps with
      delta_pic_order_always_zero_flag := zero
      offset_for_non_ref_pic := nonRef
      offset_for_top_to_bottom_field := topToBottom
      num_ref_frames_in_pic_order_cnt_cycle := cycle.setWidth 8
      offset_for_ref_frame := offsets }

/-- `parse_sps`, the offsets of the cropping. -/
def parseCropping (sps : SeqParameterSet) : Read SeqParameterSet := do
  let left ← readExpGolomb
  let right ← readExpGolomb
  let top ← readExpGolomb
  let bottom ← readExpGolomb
  pure { sps with
    frame_crop_left_offset := left
    frame_crop_right_offset := right
    frame_crop_top_offset := top
    frame_crop_bottom_offset := bottom }

/-- `parse_sps`, from the size of the picture on. -/
def parseSize (sps : SeqParameterSet) : Read SeqParameterSet := do
  let width ← readExpGolomb
  let height ← readExpGolomb
  let frameMbsOnly ← readFlag
  let adaptive ← readIf (frameMbsOnly = 0) readFlag sps.mb_adaptive_frame_field_flag
  let inference ← readFlag
  let cropping ← readFlag
  let sps := { sps with
    pic_width := 16 * (width + 1)
    pic_height := (2 - frameMbsOnly.setWidth 32) * (16 * (height + 1))
    frame_mbs_only_flag := frameMbsOnly
    mb_adaptive_frame_field_flag := adaptive
    direct_8x8_inference_flag := inference
    frame_cropping_flag := cropping }
  let sps ← readIf (cropping ≠ 0) (parseCropping sps) sps
  let vui ← readFlag
  pure { sps with vui_parameters_present_flag := vui }

/-- The profiles that `parse_sps` knows to have the part of the high profiles. -/
def isHighProfile (profile_idc : BitVec 8) : Prop :=
  profile_idc = 100 ∨ profile_idc = 110 ∨ profile_idc = 122 ∨ profile_idc = 144

instance (profile_idc : BitVec 8) : Decidable (isHighProfile profile_idc) :=
  inferInstanceAs (Decidable (_ ∨ _ ∨ _ ∨ _))

/-- `parse_sps`, from the identifier on. -/
def parseFields (sps : SeqParameterSet) : Read SeqParameterSet := do
  let id ← readExpGolomb
  let sps := { sps with seq_parameter_set_id := id }
  let sps ← readIf (isHighProfile sps.profile_idc) (parseChroma sps) sps
  let frameNum ← readExpGolomb
  let sps ← parseOrder { sps with log2_max_frame_num_minus4 := frameNum }
  let refFrames ← readExpGolomb
  let gaps ← readFlag
  parseSize { sps with num_ref_frames := refFrames, gaps_in_frame_num_value_allowed_flag := gaps }

/-- `parse_sps`: the first three bytes are read whatever the buffer's length. -/
def parseSps (sps : SeqParameterSet) : Read SeqParameterSet := do
  let r ← get
  let profile ← byteAt r.buf
  let constraints ← byteAt (r.buf + 1)
  let level ← byteAt (r.buf + 2)
  set { r with cur_pos := r.buf + 3 }
  parseFields { sps with
    profile_idc := profile.setWidth 8
    constraint_setN_flag := ((constraints >>> 4) &&& 0x0f).setWidth 8
    level_idc := level.setWidth 8 }

/-- `parse_pps`. -/
def parsePps (pps : PicParameterSet) : Read PicParameterSet := do
  let id ← readExpGolomb
  let sps ← readExpGolomb
  let entropy ← readFlag
  let order ← readFlag
  pure { pps with
    pic_parameter_set_id := id
    seq_parameter_set_id := sps
    entropy_coding_mode_flag := entropy
    pic_order_present_flag := order }

/-- `read_bits(buf, x + 4)`; a negative length takes nothing. -/
def readLog2 (x : BitVec 32) : Read (BitVec 32) := readBits (x + 4).toInt.toNat

/-- `parse_slice_header`, the flags of the field. -/
def parseField (sps : SeqParameterSet) (slc : SliceHeader) : Read SliceHeader :=
  if sps.frame_mbs_only_flag = 0 then do
    let field ← readFlag
    let bottom ← readIf (field ≠ 0) readFlag (-1)
    pure { slc with field_pic_flag := field, bottom_field_flag := bottom }
  else pure { slc with field_pic_flag := 0, bottom_field_flag := -1 }

/-- `parse_slice_header`, the picture order. -/
def parseSliceOrder (sps : SeqParameterSet) (pps : PicParameterSet) (slc : SliceHeader) :
    Read SliceHeader :=
  if sps.pic_order_cnt_type = 0 then do
    let lsb ← readLog2 sps.log2_max_pic_order_cnt_lsb_minus4
    let bottom ← readIf (pps.pic_order_present_flag ≠ 0 ∧ slc.field_pic_flag = 0) readExpGolombS
      slc.delta_pic_order_cnt_bottom
    pure { slc with pic_order_cnt_lsb := lsb, delta_pic_order_cnt_bottom := bottom }
  else if sps.pic_order_cnt_type = 1 then do
    let delta0 ← readExpGolombS
    let delta1 ← readIf (pps.pic_order_present_flag ≠ 0 ∧ slc.field_pic_flag = 0) readExpGolombS
      slc.delta_pic_order_cnt1
    pure { slc with delta_pic_order_cnt0 := delta0, delta_pic_order_cnt1 := delta1 }
  else pure slc

/-- `parse_slice_header`. -/
def parseSliceHeader (sps : SeqParameterSet) (pps : PicParameterSet) (nal_unit_type : BitVec 8)
    (slc : SliceHeader) : Read SliceHeader := do
  let firstMb ← readExpGolomb
  let type ← readExpGolomb
  let id ← readExpGolomb
  let frameNum ← readLog2 sps.log2_max_frame_num_minus4
  let slc ← parseField sps { slc with
    first_mb_in_slice := firstMb
    slice_type := type
    pic_parameter_set_id := id
    frame_num := frameNum }
  let idr ← readIf (nal_unit_type = 5) readExpGolomb slc.idr_pic_id
  parseSliceOrder sps pps { slc with idr_pic_id := idr }

/-! ## NAL units -/

namespace NalParser

variable (p : NalParser)

/-- The block of the current unit's sequence parameter set: `malloc` if there is
none, `memset` if there is. -/
def clearSps : NalParser × Which :=
  match p.unit.sps with
  | none => ({ p.setUnit { p.unit with sps := some p.current_nal } with
      spsAt := Function.update p.spsAt p.current_nal (p.heap.sps p.current_nal) }, p.current_nal)
  | some w => ({ p with spsAt := Function.update p.spsAt w {} }, w)

/-- The block of its picture parameter set. -/
def clearPps : NalParser × Which :=
  match p.unit.pps with
  | none => ({ p.setUnit { p.unit with pps := some p.current_nal } with
      ppsAt := Function.update p.ppsAt p.current_nal (p.heap.pps p.current_nal) }, p.current_nal)
  | some w => ({ p with ppsAt := Function.update p.ppsAt w {} }, w)

end NalParser

/-- The NAL unit type in a header byte. -/
def unitType (x : UInt8) : BitVec 8 := x.toBitVec &&& 0x1f

/-- The current unit with the fields of a header byte. -/
def NalParser.header (p : NalParser) (x : UInt8) : NalParser :=
  p.setUnit { p.unit with nal_ref_idc := (x.toBitVec >>> 5) &&& 0x03, nal_unit_type := unitType x }

/-- `parse_nal_header`, the case `NAL_SPS`. -/
def spsHeader (p : NalParser) (buf len : Nat) : Probe (Int × NalParser) := do
  let bytes ← Probe.bytes (buf + 1) (len - 1)
  let ibuf := decodeNal bytes
  let (p, w) := p.clearSps
  let (sps, _) ← Probe.lift
    ((parseSps (p.spsAt w) (.start 0 ibuf.length)).run (.total (Memory.chunk ibuf p.heap.after)))
  pure (7, { p with spsAt := Function.update p.spsAt w sps })

/-- The case `NAL_PPS`. -/
def ppsHeader (p : NalParser) (buf len : Nat) : Probe (Int × NalParser) := do
  let (p, w) := p.clearPps
  let (pps, _) ← parsePps (p.ppsAt w) ⟨buf, buf + 1, len, 8⟩
  pure (8, { p with ppsAt := Function.update p.ppsAt w pps })

/-- The cases of slices; the slice header is cleared if there is one, and
allocated if there is none. -/
def sliceHeader (p : NalParser) (type : BitVec 8) (buf len : Nat) : Probe (Int × NalParser) :=
  match p.sps, p.pps with
  | some sps, some pps => do
    let (slc, _) ← parseSliceHeader sps pps type ((p.unit.slc.map fun _ => {}).getD (p.heap.slc p.current_nal))
      ⟨buf, buf + 1, len, 8⟩
    pure ((type.toNat : Int), p.setUnit { p.unit with slc := some slc })
  | _, _ => pure (-1, p)

/-- `parse_nal_header`, on the `len` bytes at `buf`. -/
def parseNalHeader (p : NalParser) (buf len : Nat) : Probe (Int × NalParser) :=
  if len < 1 then pure (-1, p)
  else do
    let x ← Probe.byte buf
    let type := unitType x
    let p := p.header x
    if type = 7 then spsHeader p buf len
    else if type = 8 then ppsHeader p buf len
    else if 1 ≤ type.toNat ∧ type.toNat ≤ 5 then sliceHeader p type buf len
    else pure ((type.toNat : Int), p)

/-- What `parse_nal` does behind a slice: the fields of the parser, and the other
unit becomes the current one, with the parameter sets of this one if it has none.
The comparison with the slice before has no consequence in the source. -/
def NalParser.swap (p : NalParser) : NalParser :=
  let slc := p.unit.slc.getD (p.heap.slc p.current_nal)
  let have_top := if slc.field_pic_flag = 1 ∧ slc.bottom_field_flag ≠ 0 then p.have_top else 1
  let last := p.unit
  let next := p.nal p.current_nal.other
  { p with
    field := if slc.field_pic_flag = 1 then slc.bottom_field_flag.toInt else -1
    have_top := have_top
    slice := 1
    current_nal := p.current_nal.other
    nal := Function.update p.nal p.current_nal.other
      { next with sps := next.sps <|> last.sps, pps := next.pps <|> last.pps } }

/-- `parse_nal`. -/
def parseNal (p : NalParser) (buf len : Nat) : Probe (Nat × NalParser) := do
  let (res, p) ← parseNalHeader p buf len
  if 1 ≤ res ∧ res ≤ 5 then pure (0, p.swap)
  else if res = 8 ∨ res = 7 then pure (1, p)
  else if res = 9 ∨ res = 6 ∨ 13 ≤ res ∧ res ≤ 18 then pure (1, p)
  else pure (0, p)

/-! ## Frames -/

/-- The condition of `seek_for_nal`, from left to right. -/
def isStartCode (a : Nat) : Probe Bool := do
  if (← Probe.byte a) = 0 then
    if (← Probe.byte (a + 1)) = 0 then
      if (← Probe.byte (a + 2)) = 0 then
        pure ((← Probe.byte (a + 3)) = 1)
      else pure false
    else pure false
  else pure false

/-- The loop of `seek_for_nal`, of `n` rounds more. -/
def seekLoop (buf i : Nat) : Nat → Probe (Option Nat)
  | 0 => pure none
  | n + 1 => do
    if ← isStartCode (buf + i) then pure (some i)
    else seekLoop buf (i + 1) n

/-- `seek_for_nal`, which returns a position or -1. -/
def seekForNal (buf len : Nat) : Probe (Option Nat) := seekLoop buf 0 (len - 3)

/-- What `parse_frame` returns, with the copies that it made into the parser's
buffer: their offset and length. -/
structure Parsed where
  parsed_len : Nat
  ret_buf : Option (List UInt8)
  parser : NalParser
  copies : List (Nat × Nat)

/-- The loop of `parse_frame` and what follows it. -/
def frameLoop (inbuf_len : Nat) :
    Nat → NalParser → Nat → Nat → Nat → List (Nat × Nat) → Probe Parsed
  | 0, _, _, _, _, _ => Probe.lift none
  | fuel + 1, p, inbuf, parsed_len, search_offset, copies => do
    match ← seekForNal (inbuf + search_offset) (inbuf_len - parsed_len) with
    | none =>
      let rest ← Probe.bytes inbuf (inbuf_len - parsed_len)
      pure ⟨parsed_len + (inbuf_len - parsed_len), none, { p with buf := p.buf ++ rest },
        copies ++ [(p.buf.length, inbuf_len - parsed_len)]⟩
    | some next_nal =>
      let n := next_nal + search_offset
      if p.buf.length + n > maxFrameSize then pure ⟨parsed_len, none, p, copies⟩
      else
        let front ← Probe.bytes inbuf n
        let copies := copies ++ [(p.buf.length, n)]
        let (res, p) ← parseNal { p with buf := p.buf ++ front } (inbuf + n + 4)
          (inbuf_len - (parsed_len + n))
        if res = 1 ∧ p.buf.length > 0 then
          pure ⟨parsed_len + n, some p.buf, { p with buf := [], last_nal_res := 0 }, copies⟩
        else frameLoop inbuf_len fuel { p with last_nal_res := res } (inbuf + n) (parsed_len + n) 4 copies

/-- `parse_frame`: every round behind the first passes a start code. -/
def parseFrame (p : NalParser) (inbuf inbuf_len : Nat) : Probe Parsed :=
  frameLoop inbuf_len (inbuf_len + 2) p inbuf 0 0 []

/-! ## Packets -/

/-- What `dshowserver_decode_data` keeps of the sequence parameter set. -/
structure Picture where
  width : BitVec 32
  height : BitVec 32
  compression : BitVec 32
  size_from_nal : Bool
deriving DecidableEq

/-- The picture after a call. -/
def Picture.update (pic : Picture) (p : NalParser) : Picture :=
  match p.sps with
  | none => pic
  | some sps => ⟨sps.pic_width, sps.pic_height, 0x34363248, true⟩

/-- The loop of `dshowserver_decode_data` over the `size` bytes at `content`, of at
most `fuel` calls. -/
def packetLoop (content size : Nat) : Nat → NalParser → Picture → Nat → Probe (NalParser × Picture)
  | 0, _, _, _ => Probe.lift none
  | fuel + 1, p, pic, len =>
    if len < size then do
      let res ← parseFrame p (content + len) (size - len)
      packetLoop content size fuel res.parser (pic.update res.parser) (len + res.parsed_len)
    else pure (p, pic)

end DShow.Packetizer
