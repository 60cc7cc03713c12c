import DShowServer.Decoder.Format

/-!
# The memory that `SetInputType` reads and writes

`InputFormat.ourType` says what the input type is made of; here the same
functions are followed access by access, each beside the block it goes to. The
extradata are copied behind a `VIDEOINFOHEADER`, and for AVC from there into an
`MPEG2VIDEOINFO`, whose block has room for as many bytes as there are extradata,
less the four of `dwSequenceHeader` that `memset` counts. The lengths of the
parameter sets are taken from the extradata as they come.

* `bounded_iff`: the formats for which every access stays in its block;
* `ourType_of_fits`: for these, the size of the format block is the one of
  `InputFormat.ourType`.
-/

namespace DShow.Decoder

/-- The header that `SetInputType` is given, with its extradata, and the blocks
it allocates. -/
inductive Block
  | format
  | bh
  | vhdr
  | mp2vi
deriving DecidableEq

/-- Some bytes of a block, read or written. -/
structure Access where
  block : Block
  offset : Nat
  length : Nat
deriving DecidableEq

def Access.Inside (size : Block → Nat) (a : Access) : Prop := a.offset + a.length ≤ size a.block

instance (size : Block → Nat) (a : Access) : Decidable (a.Inside size) :=
  inferInstanceAs (Decidable (_ ≤ _))

/-- `sizeof(VIDEOINFOHEADER)`, of which `bmiHeader` is the end. -/
def sizeofVideoInfoHeader : Nat := 88

/-- `sizeof(struct MPEG2VIDEOINFO)`, with the four bytes of `dwSequenceHeader`. -/
def sizeofMpeg2VideoInfo : Nat := 136

/-- Bytes of the extradata behind `m_sVhdr`. -/
def extradata (p length : Nat) : Access := ⟨.vhdr, sizeofVideoInfoHeader + p, length⟩

/-- Bytes of `dwSequenceHeader`. -/
def sequenceHeader (d length : Nat) : Access := ⟨.mp2vi, sizeofMpeg2VideoInfo - 4 + d, length⟩

/-- `AV_RB16`. -/
def avRb16 (src : Nat → UInt8) (p : Nat) : Nat := (src p).toNat * 2 ^ 8 + (src (p + 1)).toNat

/-- `avc_quant`: its accesses and the length it returns. The bytes from `src` on
are the extradata and what lies behind them. -/
def avcQuantAccesses (src : Nat → UInt8) (len : Nat) : List Access × Nat :=
  let header := [extradata 5 1, extradata 0 1]
  if src 0 ≠ 0x01 ∨ 1 < src 5 &&& 0x1f then
    (header ++ [extradata 0 len, sequenceHeader 0 len], len)
  else
    let p := 6
    let cnt := avRb16 src p + 2
    let sps := [extradata p 2, extradata p cnt, sequenceHeader 0 cnt]
    let d := cnt
    let p := p + cnt + 1
    let cnt := avRb16 src p + 2
    (header ++ sps ++ [extradata p 2, extradata p cnt, sequenceHeader d cnt], d + cnt)

/-- `ConvertVIHtoMPEG2VI`: its accesses and the size. -/
def convertAccesses (biCompression : Nat) (src : Nat → UInt8) (extra : Nat) : List Access × Nat :=
  let header : List Access := [⟨.vhdr, 48, 4⟩, ⟨.mp2vi, 0, sizeofMpeg2VideoInfo⟩,
    ⟨.vhdr, 0, 48⟩, ⟨.mp2vi, 0, 48⟩, ⟨.vhdr, 52, 8⟩, ⟨.mp2vi, 56, 8⟩,
    ⟨.vhdr, 48, 40⟩, ⟨.mp2vi, 72, 40⟩, ⟨.mp2vi, 72, 4⟩]
  let (body, cbSequenceHeader) : List Access × Nat :=
    if extra = 0 then ([], 0)
    else if isAvc biCompression then
      let (quant, cb) := avcQuantAccesses src extra
      ([extradata 4 1, extradata 1 1, extradata 3 1, ⟨.mp2vi, 120, 12⟩] ++ quant ++ [⟨.mp2vi, 116, 4⟩], cb)
    else ([⟨.mp2vi, 116, 4⟩, extradata 0 extra, sequenceHeader 0 extra], extra)
  (header ++ body ++ [⟨.mp2vi, 116, 4⟩], sizeofMpeg2VideoInfo + cbSequenceHeader - 4)

namespace InputFormat

/-- `bihs`. -/
def bihs (format : InputFormat) : Nat :=
  if format.header.biSize < sizeofBih then 40 else format.header.biSize.toNat

/-- The sizes of the blocks. -/
def blockSize (format : InputFormat) : Block → Nat
  | .format => format.header.biSize.toNat
  | .bh => format.bihs
  | .vhdr => format.bihs + (sizeofVideoInfoHeader - 40)
  | .mp2vi => sizeofMpeg2VideoInfo + (format.bihs - 40) - 4

/-- The header copied, and from there into `m_sVhdr`, where the rectangles are set. -/
def copyAccesses (format : InputFormat) : List Access :=
  let bihs := format.bihs
  [⟨.format, 0, 4⟩, ⟨.format, 0, bihs⟩, ⟨.bh, 0, bihs⟩, ⟨.bh, 0, 4⟩,
    ⟨.vhdr, 0, bihs + (sizeofVideoInfoHeader - 40)⟩, ⟨.bh, 0, bihs⟩, ⟨.vhdr, 48, bihs⟩,
    ⟨.vhdr, 52, 8⟩, ⟨.vhdr, 0, 32⟩, ⟨.vhdr, 64, 4⟩]

/-- What `DS_VideoDecoder_SetInputType` does: its accesses, `cbFormat` and the
block of `pbFormat`. `beyond` is what lies behind the extradata. -/
def setInputType (format : InputFormat) (beyond : Nat → UInt8) : List Access × Nat × Block :=
  if isAvc format.header.biCompression then
    let (convert, size) := convertAccesses format.header.biCompression
      (fun i => format.extra.getD i (beyond i)) (format.bihs - 40)
    (format.copyAccesses ++ convert, size, .mp2vi)
  else (format.copyAccesses, format.bihs + (sizeofVideoInfoHeader - 40), .vhdr)

/-- The accesses stay in their blocks, and so does the format that the input type
announces, whatever lies behind the extradata. -/
def Bounded (format : InputFormat) : Prop :=
  ∀ beyond, let (accesses, cbFormat, pbFormat) := format.setInputType beyond
    (∀ a ∈ accesses, a.Inside format.blockSize) ∧ cbFormat ≤ format.blockSize pbFormat

end InputFormat

/-- A parameter set lies within the extradata, by the length it has before it. -/
def SetFits (src : Nat → UInt8) (len p : Nat) : Prop := p + 2 + avRb16 src p ≤ len

/-- Extradata that can be converted: six bytes or more; and, unless they are of
another version or have several SPS, both parameter sets lie within them. -/
def AvcFits (src : Nat → UInt8) (len : Nat) : Prop :=
  6 ≤ len ∧ (src 0 = 0x01 → src 5 &&& 0x1f ≤ 1 →
    SetFits src len 6 ∧ SetFits src len (6 + (avRb16 src 6 + 2) + 1))

instance (src : Nat → UInt8) (len : Nat) : Decidable (AvcFits src len) :=
  inferInstanceAs (Decidable (6 ≤ len ∧ (src 0 = 0x01 → src 5 &&& 0x1f ≤ 1 →
    6 + 2 + avRb16 src 6 ≤ len ∧ 6 + (avRb16 src 6 + 2) + 1 + 2 + avRb16 src _ ≤ len)))

/-! ## The accesses, one after the other -/

section Accesses

variable {size : Block → Nat} {len : Nat}

/-- The accesses of `avc_quant`: the extradata end where `m_sVhdr` does, and the
block of the `MPEG2VIDEOINFO` has room for as many bytes. -/
theorem avcQuantAccesses_inside (src : Nat → UInt8) (hv : size .vhdr = sizeofVideoInfoHeader + len)
    (hm : size .mp2vi = sizeofMpeg2VideoInfo - 4 + len) :
    ((∀ a ∈ (avcQuantAccesses src len).1, a.Inside size) ∧ (avcQuantAccesses src len).2 ≤ len) ↔
      AvcFits src len := by
  have hx : ∀ p n, (extradata p n).Inside size ↔ p + n ≤ len := fun p n => by
    simp only [extradata, Access.Inside, hv]
    omega
  have hs : ∀ d n, (sequenceHeader d n).Inside size ↔ d + n ≤ len := fun d n => by
    simp only [sequenceHeader, Access.Inside, hm]
    omega
  simp only [avcQuantAccesses, AvcFits, SetFits]
  split
  · rename_i hc
    have hskip : ¬ (src 0 = 0x01 ∧ src 5 &&& 0x1f ≤ 1) := by
      rintro ⟨h₁, h₂⟩
      exact hc.elim (fun h => h h₁) fun h => absurd h (UInt8.not_lt.mpr h₂)
    simp only [List.cons_append, List.nil_append, List.forall_mem_cons, List.not_mem_nil,
      false_implies, implies_true, hx, hs, and_true]
    constructor
    · rintro ⟨h, -⟩
      exact ⟨by omega, fun h₁ h₂ => absurd ⟨h₁, h₂⟩ hskip⟩
    · rintro ⟨h, -⟩
      omega
  · rename_i hc
    push Not at hc
    simp only [List.cons_append, List.nil_append, List.forall_mem_cons, List.not_mem_nil,
      false_implies, implies_true, hx, hs, and_true]
    constructor
    · rintro ⟨h, -⟩
      exact ⟨by omega, fun _ _ => by omega⟩
    · rintro ⟨h, hfit⟩
      obtain ⟨h₁, h₂⟩ := hfit hc.1 (UInt8.not_lt.mp hc.2)
      omega

/-- What fits depends on the extradata only. -/
theorem AvcFits.congr {src src' : Nat → UInt8} (h : ∀ i < len, src' i = src i) (hf : AvcFits src len) :
    AvcFits src' len := by
  obtain ⟨h₆, hfit⟩ := hf
  have hrb : ∀ p, p + 2 ≤ len → avRb16 src' p = avRb16 src p := fun p hp => by
    rw [avRb16, avRb16, h p (by omega), h (p + 1) (by omega)]
  refine ⟨h₆, fun h₁ h₂ => ?_⟩
  obtain ⟨h₃, h₄⟩ := hfit (by rwa [← h 0 (by omega)]) (by rwa [← h 5 (by omega)])
  simp only [SetFits] at h₃ h₄ ⊢
  rw [hrb 6 (by omega), hrb _ (by omega)]
  exact ⟨h₃, h₄⟩

end Accesses

/-! ## The formats that are bounded -/

variable {format : InputFormat}

theorem bihs_eq (h : sizeofBih ≤ format.header.biSize) :
    format.bihs = format.header.biSize.toNat ∧ format.bihs = 40 + format.extra.length := by
  have he := format.extra_length
  have hb : format.bihs = format.header.biSize.toNat := if_neg (by omega)
  simp only [sizeofBih] at h he
  exact ⟨hb, by omega⟩

/-- An AVC format: six bytes of extradata or more are needed as `memset` counts
the four of `dwSequenceHeader` too. -/
theorem convertAccesses_inside {size : Block → Nat} {len biCompression : Nat} (src : Nat → UInt8)
    (hv : size .vhdr = sizeofVideoInfoHeader + len)
    (hm : size .mp2vi = sizeofMpeg2VideoInfo - 4 + len) (ha : isAvc biCompression = true) :
    ((∀ a ∈ (convertAccesses biCompression src len).1, a.Inside size) ∧
      (convertAccesses biCompression src len).2 ≤ size .mp2vi) ↔ AvcFits src len := by
  have hin : ∀ b p n, (⟨b, p, n⟩ : Access).Inside size ↔ p + n ≤ size b := fun _ _ _ => .rfl
  have hquant := avcQuantAccesses_inside src hv hm
  simp only [sizeofVideoInfoHeader, sizeofMpeg2VideoInfo] at hv hm
  simp only [convertAccesses, ha, if_true]
  by_cases h₀ : len = 0
  · have hno : ¬ AvcFits src len := fun h => by
      have := h.1
      omega
    simp only [if_pos h₀, hno, iff_false]
    rintro ⟨h, -⟩
    have hset := h ⟨.mp2vi, 0, sizeofMpeg2VideoInfo⟩ (by simp)
    simp only [hin, sizeofMpeg2VideoInfo] at hset
    omega
  · rw [if_neg h₀, ← hquant]
    generalize avcQuantAccesses src len = quant at hquant ⊢
    simp only [List.cons_append, List.nil_append, List.append_assoc, List.forall_mem_append,
      List.forall_mem_cons, List.not_mem_nil, false_implies, implies_true, and_true, hin, extradata,
      sizeofMpeg2VideoInfo, sizeofVideoInfoHeader, hv, hm]
    constructor
    · rintro ⟨⟨-, -, -, -, -, -, -, -, -, -, -, -, -, h, -⟩, hsize⟩
      exact ⟨h, by omega⟩
    · intro hq
      have h₆ := (hquant.mp hq).1
      refine ⟨⟨by omega, by omega, by omega, by omega, by omega, by omega, by omega, by omega,
        by omega, by omega, by omega, by omega, by omega, hq.1, by omega⟩, by omega⟩

/-- The extradata do not depend on what lies behind them. -/
theorem extra_getElem? (src : List UInt8) (beyond : Nat → UInt8) {i : Nat} (h : i < src.length) :
    src[i]? = some (src.getD i (beyond i)) := by
  rw [List.getD_eq_getElem?_getD, List.getElem?_eq_getElem h]
  rfl

/-- **The memory of `SetInputType`.** Without an AVC tag all accesses stay in their
blocks; with it, where the extradata are as long as they say. -/
theorem bounded_iff (h : sizeofBih ≤ format.header.biSize) : format.Bounded ↔
    isAvc format.header.biCompression = false ∨
      AvcFits (fun i => format.extra.getD i 0) format.extra.length := by
  obtain ⟨hb, hl⟩ := bihs_eq h
  have hextra : format.bihs - 40 = format.extra.length := by omega
  have hv : format.blockSize .vhdr = sizeofVideoInfoHeader + format.extra.length := by
    simp only [InputFormat.blockSize, sizeofVideoInfoHeader]
    omega
  have hm : format.blockSize .mp2vi = sizeofMpeg2VideoInfo - 4 + format.extra.length := by
    simp only [InputFormat.blockSize, sizeofMpeg2VideoInfo]
    omega
  have hcopy : ∀ a ∈ format.copyAccesses, a.Inside format.blockSize := by
    simp only [InputFormat.copyAccesses, List.forall_mem_cons, List.not_mem_nil, false_implies,
      implies_true, and_true, Access.Inside, InputFormat.blockSize, sizeofVideoInfoHeader]
    omega
  cases ha : isAvc format.header.biCompression with
  | false =>
    refine iff_of_true (fun beyond => ?_) (.inl rfl)
    simp only [InputFormat.setInputType, ha, Bool.false_eq_true, if_false]
    exact ⟨hcopy, Nat.le_refl _⟩
  | true =>
    have hin := fun src => convertAccesses_inside src hv hm ha
    simp only [InputFormat.Bounded, InputFormat.setInputType, ha, if_true, hextra,
      List.forall_mem_append]
    refine ⟨fun hf => .inr ?_, fun hf beyond => ?_⟩
    · obtain ⟨⟨-, hconvert⟩, hsize⟩ := hf fun _ => 0
      exact (hin _).mp ⟨hconvert, hsize⟩
    · have hfit := hf.resolve_left (by simp)
      obtain ⟨hconvert, hsize⟩ := (hin _).mpr (hfit.congr fun i hi =>
        Option.some.inj ((extra_getElem? _ beyond hi).symm.trans (extra_getElem? _ (fun _ => 0) hi)))
      exact ⟨⟨hcopy, hconvert⟩, hsize⟩

/-- An AVC stream of two by two pixels. -/
def avcFormat (extra : List UInt8) : InputFormat where
  header := ⟨sizeofBih + extra.length, 2, 2, 1, 24, mmioFourcc 'a' 'v' 'c' '1', 12, 0, 0, 0, 0⟩
  extra := extra
  extra_length := by simp

theorem bounded_iff_record : (avcFormat [1, 66, 0, 30, 255, 225, 0, 1, 103, 1, 0, 1, 104]).Bounded :=
  (bounded_iff (by decide)).mpr (.inr (by decide))

/-- The length of the SPS reaches far behind the extradata. -/
theorem sps_overrun : sizeofBih ≤ (avcFormat [1, 66, 0, 30, 255, 225, 255, 255]).header.biSize ∧
    ¬ (avcFormat [1, 66, 0, 30, 255, 225, 255, 255]).Bounded := by
  refine ⟨by decide, fun h => ?_⟩
  have hread := (h fun _ => 0).1 (extradata 6 65537) (by decide)
  exact absurd hread (by decide)

/-! ## The size of the format block -/

/-- A parameter set that fits is read. -/
theorem parameterSet_of_fits {src : List UInt8} {beyond : Nat → UInt8} {p : Nat}
    (h : SetFits (fun i => src.getD i (beyond i)) src.length p) :
    ∃ set, parameterSet src p = some set ∧
      set.length = avRb16 (fun i => src.getD i (beyond i)) p + 2 := by
  simp only [SetFits, avRb16] at h ⊢
  simp only [parameterSet, extra_getElem? src beyond (i := p) (by omega),
    extra_getElem? src beyond (i := p + 1) (by omega), Option.bind_eq_bind, Option.bind_some]
  rw [if_pos (by omega)]
  refine ⟨_, rfl, ?_⟩
  rw [List.length_take, List.length_drop]
  omega

/-- Extradata that fit are converted, to as many bytes as `avc_quant` returns. -/
theorem avcQuant_of_fits {src : List UInt8} {beyond : Nat → UInt8}
    (h : AvcFits (fun i => src.getD i (beyond i)) src.length) :
    ∃ bytes, avcQuant src = some bytes ∧
      bytes.length = (avcQuantAccesses (fun i => src.getD i (beyond i)) src.length).2 := by
  obtain ⟨h₆, hfit⟩ := h
  have hcnt := extra_getElem? src beyond (i := 5) (by omega)
  have hversion := extra_getElem? src beyond (i := 0) (by omega)
  simp only [avcQuant, avcQuantAccesses, hcnt, hversion, Option.bind_eq_bind, Option.bind_some]
  split
  · exact ⟨src, rfl, rfl⟩
  · rename_i hc
    push Not at hc
    obtain ⟨h₁, h₂⟩ := hfit hc.1 (UInt8.not_lt.mp hc.2)
    obtain ⟨sps, hsps, hl₁⟩ := parameterSet_of_fits h₁
    rw [← hl₁] at h₂
    obtain ⟨pps, hpps, hl₂⟩ := parameterSet_of_fits h₂
    simp only [hsps, hpps, Option.bind_some]
    refine ⟨_, rfl, ?_⟩
    rw [List.length_append, hl₂, ← hl₁]

/-- Where all accesses stay in their blocks, there is an input type, and its format
block is as long as the one that is announced. -/
theorem ourType_of_fits (h : sizeofBih ≤ format.header.biSize) (beyond : Nat → UInt8)
    (hf : isAvc format.header.biCompression = false ∨
      AvcFits (fun i => format.extra.getD i (beyond i)) format.extra.length) :
    ∃ ourType, format.ourType = some ourType ∧
      ourType.cbFormat = (format.setInputType beyond).2.1 := by
  obtain ⟨hb, hl⟩ := bihs_eq h
  have hstored : format.stored.biSize = format.header.biSize := if_neg (by omega)
  have hc : format.stored.biCompression = format.header.biCompression := rfl
  simp only [sizeofBih] at h
  simp only [InputFormat.ourType, InputFormat.setInputType, hc]
  cases ha : isAvc format.header.biCompression with
  | false =>
    refine ⟨_, rfl, ?_⟩
    simp only [hstored, Bool.false_eq_true, if_false, sizeofVideoInfoHeader]
    omega
  | true =>
    have hfit := hf.resolve_left (by simp [ha])
    have h₆ := hfit.1
    have hextra : (format.vhdr.bmiHeader.biSize - sizeofBih).toNat = format.extra.length := by
      simp only [InputFormat.vhdr, hstored, sizeofBih]
      omega
    have hbihs : format.bihs - 40 = format.extra.length := by omega
    obtain ⟨bytes, hquant, hlen⟩ := avcQuant_of_fits hfit
    have ha' : isAvc format.vhdr.bmiHeader.biCompression = true := ha
    have hvhdr : format.vhdr.extra = format.extra := rfl
    simp only [convertVihToMpeg2Vi, convertAccesses, hextra, hbihs, ha, ha', hvhdr, hquant,
      extra_getElem? format.extra beyond (i := 4) (by omega),
      extra_getElem? format.extra beyond (i := 1) (by omega),
      extra_getElem? format.extra beyond (i := 3) (by omega),
      if_neg (show format.extra.length ≠ 0 by omega), if_true, Option.bind_eq_bind,
      Option.bind_some, Option.pure_def]
    refine ⟨_, rfl, ?_⟩
    simp only [← hlen, sizeofMpeg2VideoInfo]
    omega

end DShow.Decoder
