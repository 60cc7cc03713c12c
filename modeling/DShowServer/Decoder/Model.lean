import DShowServer.Decoder.Format
import DShowServer.Alloc.Model
import DShowServer.Framework.Bytes

/-!
# The decoder (`DS_VideoDecoder`, `DS_Filter`)

The decoder connects its two pins with the codec's, takes the input samples
from an allocator of one sample, and hands them to the codec's `Receive`. A new
output format (`SetDestFmt`) takes the connections down and up again and puts a
new allocator in the place of the old one; where the codec refuses on the way,
the function returns from where it is.

Whatever the codec answers is an input of these functions, and so is what
`MALLOC` and `REALLOC` return. The calls on the codec's interfaces are listed
with their answers. `none` is an access through `NULL` or outside a block. What
the frames that the codec delivers go through is the ring's.
-/

namespace DShow.Decoder

open Pool Alloc DShow.Protocol

/-! ## Samples and allocators -/

/-- The fields of a `CMediaSample` that its allocator does not look at, the
bytes there are at its block and those that were copied there. -/
structure SampleFields where
  actual_size : Int
  time_start : BitVec 64
  time_end : BitVec 64
  isSyncPoint : Bool
  isPreroll : Bool
  isDiscontinuity : Bool
  room : Nat
  data : List UInt8

/-- After `CMediaSampleCreate`. -/
def SampleFields.created (size : Int) : SampleFields where
  actual_size := 0
  time_start := 0
  time_end := 0
  isSyncPoint := false
  isPreroll := false
  isDiscontinuity := true
  room := wrap32 (wrap32 size + safetyAcel)
  data := []

/-- A `MemAllocator` with its samples. -/
structure Allocator where
  alloc : AllocState
  fields : Nat → SampleFields

/-- The pool leaves all requests to what `MALLOC` is said to return. -/
def noPool : MemStruct := setMemstruct 0 0 0

namespace Allocator

/-- `MemAllocatorCreate` and `SetProperties` for one buffer of `lSampleSize`
bytes. -/
def create (lSampleSize : Int) : Allocator where
  alloc := ⟨.empty, .empty, (setProperties memAllocatorCreate (some (1, int32 lSampleSize))).2⟩
  fields := fun _ => .created 0

/-- `MemAllocator_Commit`; `blocks` is what `MALLOC` returns. -/
def commit (a : Allocator) (blocks : List Nat) : Option Allocator :=
  (Alloc.commit a.alloc noPool blocks).map fun (_, alloc, _) =>
    ⟨alloc, fun p => if p < a.alloc.samples.top then a.fields p else .created a.alloc.me.cbBuffer⟩

def setFields (a : Allocator) (p : Nat) (f : SampleFields) : Allocator :=
  { a with fields := Function.update a.fields p f }

/-- `CMediaSample_SetActualDataLength`; `block` is what `REALLOC` returns. -/
def setActualDataLength (a : Allocator) (p : Nat) (len : Int) (block : Nat) : Option Allocator := do
  let c ← a.alloc.samples.read p
  if c.size < len then
    let (own_block, _) ← noPool.realloc c.own_block (wrap32 (wrap32 len + safetyAcel)) block
    let samples ← a.alloc.samples.modify p fun c => { c with
      own_block := own_block, block := if c.own_block = c.block then own_block else c.block, size := len }
    pure (setFields { a with alloc := { a.alloc with samples := samples } } p { a.fields p with
      actual_size := len, room := wrap32 (wrap32 len + safetyAcel), data := [] })
  else pure (a.setFields p { a.fields p with actual_size := len })

/-- `memcpy(ptr, src, size)` to the pointer of `GetPointer`. -/
def copyTo (a : Allocator) (p : Nat) (src : List UInt8) : Option Allocator := do
  let c ← a.alloc.samples.read p
  if c.block ≠ 0 ∧ src.length ≤ (a.fields p).room then
    pure (a.setFields p { a.fields p with data := src })
  else none

/-- `n` references more. -/
def addRefs : Nat → AllocState → Nat → Option AllocState
  | 0, a, _ => some a
  | n + 1, a, p => (sampleAddRef a p).bind fun a => addRefs n a p

/-- `DS_VideoDecoder_SetPTS`, which releases the sample also where there is
none. -/
def setPts (a : Allocator) (pts : BitVec 64) : Option Allocator := do
  let (sample, alloc) ← getBuffer a.alloc
  match sample with
  | none => none
  | some p =>
    let alloc ← sampleRelease alloc p
    pure (setFields { a with alloc := alloc } p { a.fields p with time_start := pts, time_end := pts + 1 })

end Allocator

/-- What the codec's `Receive` is called with. -/
structure Received where
  data : List UInt8
  actual_size : Int
  time_start : BitVec 64
  isDiscontinuity : Bool
deriving DecidableEq

/-- What happens during a decode command: the block that `REALLOC` returns, and
the references to the sample that the codec keeps. -/
structure DecodeAnswer where
  block : Nat
  keeps : Nat

/-- `DS_VideoDecoder_DecodeInternal` up to the delivered frame; without a sample
it returns -1 (`none` as the result). -/
def Allocator.decodeInternal (a : Allocator) (discontinuity : Bool) (src : List UInt8)
    (ans : DecodeAnswer) : Option (Option Received × Allocator) := do
  let (sample, alloc) ← getBuffer a.alloc
  match sample with
  | none => pure (none, { a with alloc := alloc })
  | some p =>
    let a ← setActualDataLength { a with alloc := alloc } p (int32 src.length) ans.block
    let a ← a.copyTo p src
    let f := { a.fields p with
      isSyncPoint := false, isPreroll := false, isDiscontinuity := discontinuity }
    let alloc ← addRefs ans.keeps a.alloc p
    let alloc ← sampleRelease alloc p
    pure (some ⟨f.data.take f.actual_size.toNat, f.actual_size, f.time_start, f.isDiscontinuity⟩,
      setFields { a with alloc := alloc } p f)

/-! ## The output format -/

/-- `labs` of a `long`. -/
def labs (x : Int) : Int := int32 |int32 x|

/-- The subtype of an RGB format. -/
def rgbSubtype (bits : Int) : Option Guid :=
  if bits = 15 then some subtypeRgb555
  else if bits = 16 then some subtypeRgb565
  else if bits = 24 then some subtypeRgb24
  else if bits = 32 then some subtypeRgb32
  else none

/-- `m_obh` for an RGB format. -/
def rgbHeader (obh : BitmapInfo) (bits : Int) : BitmapInfo :=
  let bitCount := if bits = 15 then 16 else bits
  let header := { obh.header with biBitCount := bitCount }
  if bits = 15 ∨ bits = 16 then {
    header := { header with
      biSize := sizeofBih + 12, biCompression := 3, biSizeImage := labs (2 * header.biWidth * header.biHeight) }
    colors := if bits = 16 then [0xF800, 0x07E0, 0x001F] else [0x7C00, 0x03E0, 0x001F] }
  else {
    header := { header with
      biSize := sizeofBih, biCompression := 0,
      biSizeImage := int32 (labs (header.biWidth * header.biHeight) * ((bitCount + 7) / 8)) }
    colors := obh.colors }

/-- The subtype of a YUV format, and whether the header is set up for it: the
case of YVU9 falls through to the one of unknown formats. -/
def yuvSubtype (csp : Nat) : Option (Guid × Bool) :=
  if csp = mmioFourcc 'Y' 'U' 'Y' '2' then some (subtypeYuy2, true)
  else if csp = mmioFourcc 'Y' 'V' '1' '2' then some (subtypeYv12, true)
  else if csp = mmioFourcc 'I' 'Y' 'U' 'V' then some (subtypeIyuv, true)
  else if csp = mmioFourcc 'I' '4' '2' '0' then some (subtypeI420, true)
  else if csp = mmioFourcc 'U' 'Y' 'V' 'Y' then some (subtypeUyvy, true)
  else if csp = mmioFourcc 'Y' 'V' 'Y' 'U' then some (subtypeYvyu, true)
  else if csp = mmioFourcc 'Y' 'V' 'U' '9' then some (subtypeYvu9, false)
  else none

/-- `m_obh` for a YUV format. -/
def yuvHeader (obh : BitmapInfo) (bits : Int) (csp : Nat) : BitmapInfo :=
  let height := if csp ≠ 0 ∧ csp ≠ 3 ∧ 0 < obh.header.biHeight then -obh.header.biHeight
    else obh.header.biHeight
  let bitCount := bits.bmod (2 ^ 16)
  { obh with header := { obh.header with
    biHeight := height, biSize := sizeofBih, biCompression := csp, biBitCount := bitCount,
    biSizeImage := labs (bitCount * obh.header.biWidth * height) / 8 } }

/-- The two `switch` statements of `SetDestFmt` on the format: the subtype, if it
is one of those known, and `m_obh`. -/
def requested (obh : BitmapInfo) (bits : Int) (csp : Nat) : Option Guid × BitmapInfo :=
  if csp = 0 then
    match rgbSubtype bits with
    | some subtype => (some subtype, rgbHeader obh bits)
    | none => (none, obh)
  else
    match yuvSubtype csp with
    | some (subtype, true) => (some subtype, yuvHeader obh bits csp)
    | some (subtype, false) => (some subtype, obh)
    | none => (none, obh)

/-- An entry of `check[]`. -/
structure Check where
  bits : Int
  fcc : Nat
  subtype : Guid
  cap : Nat

def check : List Check := [
  ⟨16, mmioFourcc 'Y' 'U' 'Y' '2', subtypeYuy2, 1⟩,
  ⟨12, mmioFourcc 'I' 'Y' 'U' 'V', subtypeIyuv, 4⟩,
  ⟨16, mmioFourcc 'U' 'Y' 'V' 'Y', subtypeUyvy, 8⟩,
  ⟨12, mmioFourcc 'Y' 'V' '1' '2', subtypeYv12, 2⟩,
  ⟨16, mmioFourcc 'Y' 'V' 'Y' 'U', subtypeYvyu, 16⟩,
  ⟨12, mmioFourcc 'I' '4' '2' '0', subtypeI420, 32⟩,
  ⟨9, mmioFourcc 'Y' 'V' 'U' '9', subtypeYvu9, 64⟩]

/-- `should_test`: the format is none of `check[]`, or one the codec has
accepted. -/
def shouldTest (caps : Nat) (csp : Nat) : Bool :=
  match check.find? fun c => c.fcc == csp with
  | some c => caps &&& c.cap != 0
  | none => true

/-- What the codec answers to `SetDestFmt`: whether it accepts the output type,
the connection of its input pin and of its output pin; whether there is memory
for an allocator, and what `MALLOC` returns to `Commit`. -/
structure FormatAnswer where
  queryAccept : Bool
  input : Bool
  memory : Bool
  output : Bool
  blocks : List Nat

/-! ## The decoder -/

/-- `enum DecodingState`. -/
inductive DecodingState
  | stop
  | start
deriving DecidableEq

/-- A call on the codec's interfaces with its answer. -/
inductive CodecCall
  | queryAccept (pmt : AmMediaType) (ok : Bool)
  | stop
  | run
  | disconnect
  | receiveInput (pmt : AmMediaType) (ok : Bool)
  | notifyAllocator
  | receiveOutput (pmt : AmMediaType) (ok : Bool)
deriving DecidableEq

/-- `DS_Filter`: the allocator, the types that our two pins have of their own,
and the types the codec's pins are connected with. -/
structure DsFilter where
  m_pAll : Option Allocator
  m_pOurInput : AmMediaType
  m_pOurOutput : AmMediaType
  m_pInputPin : Option AmMediaType
  m_pOutputPin : Option AmMediaType

/-- `DS_VideoDecoder`, and the static `discontinuity`. Of `m_sDestType` the
fields that change. -/
structure DsVideoDecoder where
  m_State : DecodingState
  m_bh : BitmapInfoHeader
  m_obh : BitmapInfo
  m_decoder : BitmapInfo
  m_sOurType : AmMediaType
  destSubtype : Guid
  destSampleSize : Int
  destCbFormat : Int
  m_sVhdr2 : VideoInfoHeader2
  m_Caps : Nat
  m_pDS_Filter : DsFilter
  discontinuity : Bool

namespace DsVideoDecoder

/-- `m_sDestType`. -/
def m_sDestType (d : DsVideoDecoder) : AmMediaType where
  majortype := mediatypeVideo
  subtype := d.destSubtype
  formattype := formatVideoInfo2
  bFixedSizeSamples := true
  bTemporalCompression := false
  lSampleSize := d.destSampleSize
  cbFormat := d.destCbFormat
  pbFormat := .videoInfo2 d.m_sVhdr2

def setFilter (d : DsVideoDecoder) (f : DsFilter → DsFilter) : DsVideoDecoder :=
  { d with m_pDS_Filter := f d.m_pDS_Filter }

/-- `DS_VideoDecoder_StartInternal`, with `DS_Filter_Start`. -/
def startInternal (d : DsVideoDecoder) (blocks : List Nat) : Option (List CodecCall × DsVideoDecoder) := do
  let all ← d.m_pDS_Filter.m_pAll
  let all ← all.commit blocks
  pure ([.run], { d.setFilter fun f => { f with m_pAll := some all } with m_State := .start })

/-- `DS_VideoDecoder_StopInternal`, which is `DS_Filter_Stop`. -/
def stopInternal (d : DsVideoDecoder) : List CodecCall × DsVideoDecoder :=
  match d.m_pDS_Filter.m_pAll with
  | some _ => ([.stop], d.setFilter fun f => { f with m_pAll := none })
  | none => ([], d)

/-- `DS_VideoDecoder_SetInputType`. -/
def setInputType (d : DsVideoDecoder) (format : InputFormat) : Option DsVideoDecoder :=
  format.ourType.map fun ourType => { d with m_bh := format.stored, m_sOurType := ourType }

/-! ## The output format, set -/

/-- `m_sDestType` and `m_sVhdr2` for a header. -/
def useHeader (d : DsVideoDecoder) (h : BitmapInfo) : DsVideoDecoder :=
  { d with
    destSampleSize := h.header.biSizeImage
    m_sVhdr2 := { d.m_sVhdr2 with bmiHeader := { h with header := { h.header with biSize := sizeofBih } } }
    destCbFormat := if h.header.biCompression = 3 then 124 else 112 }

/-- `SetDestFmt` up to the check of the capabilities. -/
def requestFormat (d : DsVideoDecoder) (bits : Int) (csp : Nat) : DsVideoDecoder :=
  let r := requested d.m_obh bits csp
  useHeader { d with destSubtype := r.1.getD d.destSubtype, m_obh := r.2 } r.2

/-- The decoder stopped, if it runs, and its pins disconnected. -/
def takeDown (d : DsVideoDecoder) : List CodecCall × DsVideoDecoder :=
  let (calls, d) :=
    if d.m_State = .start then
      let (calls, d) := d.stopInternal
      (calls, { d with m_State := .stop })
    else ([], d)
  (calls ++ [.disconnect, .disconnect], d.setFilter fun f =>
    { f with m_pInputPin := none, m_pOutputPin := none, m_pOurOutput := d.m_sDestType })

/-- The pins connected again, around a new allocator. -/
def connect (d : DsVideoDecoder) (ans : FormatAnswer) : Bool × List CodecCall × DsVideoDecoder :=
  let calls := [.receiveInput d.m_sOurType ans.input]
  if ¬ ans.input then (false, calls, d)
  else
    let d := d.setFilter fun f => { f with m_pInputPin := some d.m_sOurType }
    if ¬ ans.memory then (false, calls, d.setFilter fun f => { f with m_pAll := none })
    else
      let d := d.setFilter fun f => { f with m_pAll := some (.create d.destSampleSize) }
      let calls := calls ++ [.notifyAllocator, .receiveOutput d.m_sDestType ans.output]
      if ¬ ans.output then (false, calls, d)
      else (true, calls, d.setFilter fun f => { f with m_pOutputPin := some d.m_sDestType })

/-- `SetDestFmt` once the format is accepted. -/
def reconnect (d : DsVideoDecoder) (ans : FormatAnswer) :
    Option (Bool × List CodecCall × DsVideoDecoder) := do
  let stopped := d.m_State = .start
  let (down, d) := d.takeDown
  let (ok, up, d) := d.connect ans
  if ok ∧ stopped then
    let (run, d) ← d.startInternal ans.blocks
    pure (true, down ++ up ++ run, d)
  else pure (ok, down ++ up, d)

/-- `DS_VideoDecoder_SetDestFmt`: whether it returns 0 (otherwise it returns
-1), and the calls on the codec. -/
def setDestFmt (d : DsVideoDecoder) (bits : Int) (csp : Nat) (ans : FormatAnswer) :
    Option (Bool × List CodecCall × DsVideoDecoder) := do
  let d := d.requestFormat bits csp
  let test := shouldTest d.m_Caps csp
  let calls := if test then [.queryAccept d.m_sDestType ans.queryAccept] else []
  if ¬ (test ∧ ans.queryAccept) then pure (false, calls, d.useHeader d.m_decoder)
  else
    let d := { d with m_decoder := d.m_obh, m_bh := { d.m_bh with biBitCount := bits.bmod (2 ^ 16) } }
    let (ok, more, d) ← d.reconnect ans
    pure (ok, calls ++ more, d)

end DsVideoDecoder

end DShow.Decoder
