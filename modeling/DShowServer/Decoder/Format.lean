import DShowServer.Protocol.Layout

/-!
# Headers and media types

A `BITMAPINFOHEADER` with its extradata describes the stream; the decoder wraps
it into the media type its pins connect with (`SetInputType`), for AVC into an
`MPEG2VIDEOINFO` whose sequence header is the converted extradata (`avc_quant`).
Fields that no function here sets are zero and left out.
-/

namespace DShow.Decoder

open Pool DShow.Protocol

/-! ## Media types -/

structure Guid where
  f1 : Nat
  f2 : Nat
  f3 : Nat
  f4 : List Nat
deriving DecidableEq

/-- The GUIDs made from a fourcc end alike. -/
def fourccGuid (f1 : Nat) : Guid := ⟨f1, 0x0000, 0x0010, [0x80, 0x00, 0x00, 0xaa, 0x00, 0x38, 0x9b, 0x71]⟩

/-- So do those of the RGB subtypes. -/
def rgbGuid (f1 : Nat) : Guid := ⟨f1, 0x524f, 0x11ce, [0x9f, 0x53, 0x00, 0x20, 0xaf, 0x0b, 0xa7, 0x70]⟩

def mediatypeVideo : Guid := fourccGuid 0x73646976
def formatVideoInfo : Guid :=
  ⟨0x05589f80, 0xc356, 0x11ce, [0xbf, 0x01, 0x00, 0xaa, 0x00, 0x55, 0x59, 0x5a]⟩
def formatVideoInfo2 : Guid :=
  ⟨0xf72a76A0, 0xeb0a, 0x11d0, [0xac, 0xe4, 0x00, 0x00, 0xc0, 0xcc, 0x16, 0xba]⟩
def formatMpeg2Video : Guid :=
  ⟨0xe06d80e3, 0xdb46, 0x11cf, [0xb4, 0xd1, 0x00, 0x80, 0x5f, 0x6c, 0xbb, 0xea]⟩

def subtypeRgb565 : Guid := rgbGuid 0xe436eb7b
def subtypeRgb555 : Guid := rgbGuid 0xe436eb7c
def subtypeRgb24 : Guid := rgbGuid 0xe436eb7d
def subtypeRgb32 : Guid := rgbGuid 0xe436eb7e
def subtypeIyuv : Guid := fourccGuid 0x56555949
def subtypeYvu9 : Guid := fourccGuid 0x39555659
def subtypeYuy2 : Guid := fourccGuid 0x32595559
def subtypeYvyu : Guid := fourccGuid 0x55595659
def subtypeUyvy : Guid := fourccGuid 0x59565955
def subtypeYv12 : Guid := fourccGuid 0x32315659
def subtypeI420 : Guid := fourccGuid 0x30323449

/-- `mmioFOURCC`. -/
def mmioFourcc (c₀ c₁ c₂ c₃ : Char) : Nat :=
  c₀.toNat + c₁.toNat * 2 ^ 8 + c₂.toNat * 2 ^ 16 + c₃.toNat * 2 ^ 24

structure Rect32 where
  left : Int
  top : Int
  right : Int
  bottom : Int
deriving DecidableEq

/-- `BITMAPINFOHEADER`; `biCompression` is read as an unsigned number. -/
structure BitmapInfoHeader where
  biSize : Int
  biWidth : Int
  biHeight : Int
  biPlanes : Int
  biBitCount : Int
  biCompression : Nat
  biSizeImage : Int
  biXPelsPerMeter : Int
  biYPelsPerMeter : Int
  biClrUsed : Int
  biClrImportant : Int
deriving DecidableEq

/-- `sizeof(BITMAPINFOHEADER)`. -/
def sizeofBih : Int := 40

/-- A header as a client sends it, followed by the extradata it counts. -/
structure InputFormat where
  header : BitmapInfoHeader
  extra : List UInt8
  extra_length : extra.length = (header.biSize - sizeofBih).toNat
deriving DecidableEq

/-- `BitmapInfo`: a header with three colour masks. -/
structure BitmapInfo where
  header : BitmapInfoHeader
  colors : List Int
deriving DecidableEq

/-- `VIDEOINFOHEADER`, with the extradata behind its header. -/
structure VideoInfoHeader where
  rcSource : Rect32
  rcTarget : Rect32
  bmiHeader : BitmapInfoHeader
  extra : List UInt8
deriving DecidableEq

/-- `VIDEOINFOHEADER2`, with the twelve bytes behind it that hold the masks. -/
structure VideoInfoHeader2 where
  rcSource : Rect32
  rcTarget : Rect32
  bmiHeader : BitmapInfo
deriving DecidableEq

/-- `MPEG2VIDEOINFO`; `cbSequenceHeader` is the length of the last field. -/
structure Mpeg2VideoInfo where
  rcSource : Rect32
  rcTarget : Rect32
  dwPictAspectRatioX : Int
  dwPictAspectRatioY : Int
  bmiHeader : BitmapInfoHeader
  dwProfile : Nat
  dwLevel : Nat
  dwFlags : Nat
  dwSequenceHeader : List UInt8
deriving DecidableEq

/-- What `pbFormat` points to. -/
inductive FormatBlock
  | videoInfo (vih : VideoInfoHeader)
  | videoInfo2 (vih : VideoInfoHeader2)
  | mpeg2 (info : Mpeg2VideoInfo)
deriving DecidableEq

/-- `AM_MEDIA_TYPE`, with the contents of its format block. -/
structure AmMediaType where
  majortype : Guid
  subtype : Guid
  formattype : Guid
  bFixedSizeSamples : Bool
  bTemporalCompression : Bool
  lSampleSize : Int
  cbFormat : Int
  pbFormat : FormatBlock
deriving DecidableEq

/-! ## The input type -/

/-- `is_avc`. -/
def isAvc (cc : Nat) : Bool := cc == mmioFourcc 'A' 'V' 'C' '1' || cc == mmioFourcc 'a' 'v' 'c' '1'

/-- A parameter set with the two bytes of its length, read at `p`; `none` is a
read past the extradata. -/
def parameterSet (src : List UInt8) (p : Nat) : Option (List UInt8) := do
  let hi ← src[p]?
  let lo ← src[p + 1]?
  let cnt := hi.toNat * 2 ^ 8 + lo.toNat + 2
  if p + cnt ≤ src.length then some ((src.drop p).take cnt) else none

/-- `avc_quant`: the bytes it writes, of which it returns the number. -/
def avcQuant (src : List UInt8) : Option (List UInt8) := do
  let cnt ← src[5]?
  let version ← src[0]?
  if version ≠ 0x01 ∨ 1 < cnt &&& 0x1f then some src
  else
    let sps ← parameterSet src 6
    let pps ← parameterSet src (6 + sps.length + 1)
    some (sps ++ pps)

/-- `ConvertVIHtoMPEG2VI`: the block and its size. -/
def convertVihToMpeg2Vi (vih : VideoInfoHeader) : Option (Mpeg2VideoInfo × Int) := do
  let extra := (vih.bmiHeader.biSize - sizeofBih).toNat
  let mp2vi : Mpeg2VideoInfo := {
    rcSource := vih.rcSource
    rcTarget := vih.rcTarget
    dwPictAspectRatioX := vih.bmiHeader.biWidth
    dwPictAspectRatioY := vih.bmiHeader.biHeight
    bmiHeader := { vih.bmiHeader with biSize := sizeofBih }
    dwProfile := 0
    dwLevel := 0
    dwFlags := 0
    dwSequenceHeader := [] }
  let mp2vi ←
    if extra = 0 then pure mp2vi
    else if isAvc vih.bmiHeader.biCompression then do
      let lengthSize ← vih.extra[4]?
      let profile ← vih.extra[1]?
      let level ← vih.extra[3]?
      let sequenceHeader ← avcQuant vih.extra
      pure { mp2vi with
        dwProfile := profile.toNat
        dwLevel := level.toNat
        dwFlags := (lengthSize.toNat &&& 0x3) + 1
        dwSequenceHeader := sequenceHeader }
    else pure { mp2vi with dwSequenceHeader := vih.extra }
  pure (mp2vi, 132 + mp2vi.dwSequenceHeader.length)

/-- `m_bh` after `SetInputType`: a header of at least `sizeofBih` bytes. -/
def InputFormat.stored (format : InputFormat) : BitmapInfoHeader :=
  { format.header with
    biSize := if format.header.biSize < sizeofBih then sizeofBih else format.header.biSize }

/-- `m_sVhdr` after `SetInputType`. -/
def InputFormat.vhdr (format : InputFormat) : VideoInfoHeader :=
  let rc : Rect32 := ⟨0, 0, format.header.biWidth, format.header.biHeight⟩
  ⟨rc, rc, format.stored, format.extra⟩

/-- `m_sOurType` after `SetInputType`: the media type built from a header. -/
def InputFormat.ourType (format : InputFormat) : Option AmMediaType := do
  let ourType : AmMediaType := {
    majortype := mediatypeVideo
    subtype := { mediatypeVideo with f1 := format.stored.biCompression }
    formattype := formatVideoInfo
    bFixedSizeSamples := false
    bTemporalCompression := true
    lSampleSize := 0
    cbFormat := format.stored.biSize + 48
    pbFormat := .videoInfo format.vhdr }
  if isAvc format.stored.biCompression then do
    let (mp2vi, size) ← convertVihToMpeg2Vi format.vhdr
    pure { ourType with formattype := formatMpeg2Video, pbFormat := .mpeg2 mp2vi, cbFormat := size }
  else pure ourType

end DShow.Decoder
