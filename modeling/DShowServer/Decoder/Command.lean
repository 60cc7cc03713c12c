import DShowServer.Decoder.Model
import DShowServer.Framework.Run

/-!
# The server's commands on the decoder (`server.c`)

The server opens the decoder with the header it is given, asks for the output
format of its command line and starts; the result of `SetDestFmt` is not looked
at, there or on a reload. Then it serves one command after another (`serve`). A
codec may give a kept reference to a sample back at any time between them.
-/

namespace DShow.Decoder

open Pool Alloc DShow.Protocol

/-! ## Opening the decoder -/

/-- What the codec answers while it is opened: whether its DLL gives a filter
with two pins, whether it accepts the input type, the connection of its input
pin, whether it has an allocator; whether it accepts the first output type and
that connection; whether it accepts rows from the bottom, and each of `check[]`. -/
structure OpenAnswer where
  filter : Bool
  queryInput : Bool
  receiveInput : Bool
  getAllocator : Bool
  queryOutput : Bool
  receiveOutput : Bool
  upsideDown : Bool
  supports : Check → Bool

/-- `DS_FilterCreate`. The codec makes its allocator with `MemAllocatorCreate`,
as that is what is registered for the class. -/
def dsFilterCreate (ourType destType : AmMediaType) (ans : OpenAnswer) : Option DsFilter :=
  if ans.filter ∧ ans.queryInput ∧ ans.receiveInput ∧ ans.getAllocator then
    let filter : DsFilter := {
      m_pAll := some (.create ourType.lSampleSize)
      m_pOurInput := ourType
      m_pOurOutput := destType
      m_pInputPin := some ourType
      m_pOutputPin := none }
    -- Only connect if we can, otherwise `SetDestFmt` does
    if ans.queryOutput then
      if ans.receiveOutput then some { filter with m_pOutputPin := some destType } else none
    else some filter
  else none

/-- The `int` at four bytes. -/
def int32At (l : List UInt8) : Int := int32 (l.foldr (fun (b : UInt8) n => b.toNat + 256 * n) 0)

/-- The masks of `m_obh`, which are copied with the header: what there is of
extradata, and else zeros. -/
def colorsOf (extra : List UInt8) : List Int :=
  let bytes := extra ++ List.replicate 12 0
  [int32At (bytes.take 4), int32At ((bytes.drop 4).take 4), int32At ((bytes.drop 8).take 4)]

namespace DsVideoDecoder

/-- `DS_VideoDecoder_Open`, with `flip` 0. -/
def openDecoder (format : InputFormat) (ans : OpenAnswer) : Option DsVideoDecoder := do
  let ourType ← format.ourType
  let bih := format.stored
  let sampleSize := labs (bih.biWidth * bih.biHeight * 3)
  let obh : BitmapInfo := {
    header := { bih with
      biBitCount := 24, biSize := sizeofBih, biCompression := 0,
      biSizeImage := int32 (labs (bih.biWidth * bih.biHeight) * 3) }
    colors := colorsOf format.extra }
  let vhdr2 : VideoInfoHeader2 := {
    rcSource := format.vhdr.rcSource
    rcTarget := format.vhdr.rcTarget
    bmiHeader := {
      header := { bih with biCompression := 0, biBitCount := 24, biSizeImage := sampleSize }
      colors := [0, 0, 0] } }
  let destType : AmMediaType := {
    majortype := mediatypeVideo
    subtype := subtypeRgb24
    formattype := formatVideoInfo2
    bFixedSizeSamples := true
    bTemporalCompression := false
    lSampleSize := sampleSize
    cbFormat := 112
    pbFormat := .videoInfo2 vhdr2 }
  let filter ← dsFilterCreate ourType destType ans
  let height := if ans.upsideDown then int32 (-bih.biHeight) else bih.biHeight
  let obh := { obh with header := { obh.header with biHeight := height } }
  let header := { vhdr2.bmiHeader.header with biHeight := height }
  pure {
    m_State := .stop
    m_bh := bih
    m_obh := obh
    m_decoder := obh
    m_sOurType := ourType
    destSubtype := subtypeRgb24
    destSampleSize := sampleSize
    destCbFormat := 112
    m_sVhdr2 := { vhdr2 with bmiHeader := { vhdr2.bmiHeader with header := header } }
    m_Caps := check.foldl (fun caps c => if ans.supports c then caps ||| c.cap else caps) 0
    m_pDS_Filter := filter
    discontinuity := true }

/-- `DS_VideoDecoder_SetPTS` and `DS_VideoDecoder_DecodeInternal`. -/
def decode (d : DsVideoDecoder) (pts : BitVec 64) (src : List UInt8) (ans : DecodeAnswer) :
    Option (Option Received × DsVideoDecoder) := do
  let all ← d.m_pDS_Filter.m_pAll
  let all ← all.setPts pts
  let (received, all) ← all.decodeInternal d.discontinuity src ans
  pure (received, { d.setFilter fun f => { f with m_pAll := some all } with
    discontinuity := d.discontinuity && received.isNone })

/-- The codec gives back a reference that it has kept to the sample. -/
def codecRelease (d : DsVideoDecoder) : Option DsVideoDecoder := do
  let all ← d.m_pDS_Filter.m_pAll
  let sample ← all.alloc.within.find? fun p => IsHeld all.alloc p
  let alloc ← sampleRelease all.alloc sample
  pure (d.setFilter fun f => { f with m_pAll := some { all with alloc := alloc } })

end DsVideoDecoder

/-! ## The commands -/

/-- The variables of `main` that the commands use. -/
structure Server where
  width : Nat
  height : Nat
  bits : Nat
  fmt : Nat
  dshowdec : DsVideoDecoder
  exited : Bool

/-- `main` up to its loop: the decoder opened, its format set and started. -/
def Server.start (width height bits fmt : Nat) (format : InputFormat) (opened : OpenAnswer)
    (ans : FormatAnswer) : Option Server := do
  let dshowdec ← DsVideoDecoder.openDecoder format opened
  let (_, _, dshowdec) ← dshowdec.setDestFmt (int32 bits) fmt ans
  let (_, dshowdec) ← dshowdec.startInternal ans.blocks
  pure ⟨width, height, bits, fmt, dshowdec, false⟩

/-- `VD_DECODE`; the result is -1 if nothing was received, and then the server
exits once it has answered. -/
def Server.decode (s : Server) (pts : BitVec 64) (src : List UInt8) (ans : DecodeAnswer) :
    Option (Option Received × Server) := do
  let (received, dshowdec) ← s.dshowdec.decode pts src ans
  pure (received, { s with dshowdec := dshowdec, exited := received.isNone })

/-- `VD_SEEK`. -/
def Server.seek (s : Server) : Server :=
  { s with dshowdec := { s.dshowdec with discontinuity := true } }

/-- The new size is not the old one. -/
def Server.otherSize (s : Server) (format : InputFormat) : Prop :=
  wrap32 format.header.biWidth ≠ s.width ∨ wrap32 format.header.biHeight ≠ s.height

instance (s : Server) (format : InputFormat) : Decidable (s.otherSize format) :=
  inferInstanceAs (Decidable (_ ∨ _))

/-- `VD_RELOAD_BIH`: `vd->ret`, and the calls on the codec. -/
def Server.reloadBih (s : Server) (format : InputFormat) (ans : FormatAnswer) :
    Option (Int × List CodecCall × Server) :=
  if s.otherSize format then some (-1, [], s)
  else do
    let dshowdec ← s.dshowdec.setInputType format
    let (_, calls, dshowdec) ← dshowdec.setDestFmt (int32 s.bits) s.fmt ans
    pure (0, calls, { s with dshowdec := dshowdec })

/-- A command with the packet or the header it comes with, and with what the
codec answers; or the codec gives a reference back. -/
inductive Command
  | decode (pts : BitVec 64) (src : List UInt8) (ans : DecodeAnswer)
  | seek
  | reloadBih (format : InputFormat) (ans : FormatAnswer)
  | codecRelease

/-- One turn of the server's loop; `none` after it has exited. -/
def Server.serve (s : Server) (c : Command) : Option Server :=
  if s.exited then none
  else match c with
    | .decode pts src ans => (s.decode pts src ans).map Prod.snd
    | .seek => some s.seek
    | .reloadBih format ans => (s.reloadBih format ans).map fun r => r.2.2
    | .codecRelease => s.dshowdec.codecRelease.map fun d => { s with dshowdec := d }

/-! ## A codec that agrees -/

/-- It accepts everything. -/
def OpenAnswer.agrees : OpenAnswer := ⟨true, true, true, true, true, true, true, fun _ => true⟩

/-- It accepts everything, and there is memory. -/
def FormatAnswer.agrees : FormatAnswer := ⟨true, true, true, true, [4096]⟩

/-- An MPEG-4 stream of two by two pixels. -/
def smallFormat (extra : List UInt8) : InputFormat where
  header := ⟨sizeofBih + extra.length, 2, 2, 1, 24, mmioFourcc 'X' 'V' 'I' 'D', 12, 0, 0, 0, 0⟩
  extra := extra
  extra_length := by simp

/-- The server with this codec and this stream, started. -/
def Server.small : Server :=
  (Server.start 2 2 24 0 (smallFormat []) .agrees .agrees).get (by decide +kernel)

theorem Server.start_small : Server.start 2 2 24 0 (smallFormat []) .agrees .agrees = some .small :=
  (Option.some_get _).symm

end DShow.Decoder
