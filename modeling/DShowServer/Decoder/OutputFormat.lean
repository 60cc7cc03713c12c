import DShowServer.Decoder.Reconnect

/-!
# The output format

`SetDestFmt` has three `switch` statements on a format: one sets the subtype,
one the header, one asks for the capability. It writes what it asks the codec
for into the decoder, and on a refusal it takes back the part of it that
`m_decoder` has a copy of.

* `refused_iff`: when a refusal leaves the decoder as it was;
* `honoured_iff`: when a success means the format that was asked for.

Both are about every decoder that a run over `Event` leads to, and both rest on
what `m_obh` is on such a run (`Shaped`).
-/

namespace DShow.Decoder

open Pool Alloc DShow.Protocol Run

/-! ## The formats there are -/

/-- What a format is: its subtype, `biCompression` and `biBitCount`. -/
structure PixelFormat where
  subtype : Guid
  biCompression : Nat
  biBitCount : Int

def fccYVU9 : Nat := mmioFourcc 'Y' 'V' 'U' '9'

/-- The format that is asked for. The subtype of a YUV format has its fourcc in
front; RGB of 15 bits is stored in 16. -/
def pixelFormat (bits : Int) (csp : Nat) : Option PixelFormat :=
  if csp = 0 then
    if bits = 15 then some ⟨subtypeRgb555, 3, 16⟩
    else if bits = 16 then some ⟨subtypeRgb565, 3, 16⟩
    else if bits = 24 then some ⟨subtypeRgb24, 0, 24⟩
    else if bits = 32 then some ⟨subtypeRgb32, 0, 32⟩
    else none
  else if check.any fun c => c.fcc == csp then some ⟨fourccGuid csp, csp, bits⟩
  else none

/-- `m_obh` for a format of the second `switch`. -/
def formatHeader (obh : BitmapInfo) (bits : Int) (csp : Nat) : BitmapInfo :=
  if csp = 0 then rgbHeader obh bits else yuvHeader obh bits csp

theorem yuvSubtype_eq (csp : Nat) : yuvSubtype csp =
    if check.any fun c => c.fcc == csp then some (fourccGuid csp, decide (csp ≠ fccYVU9)) else none := by
  by_cases h : csp ∈ check.map Check.fcc
  · have : ∀ c ∈ check.map Check.fcc, yuvSubtype c =
        if check.any fun e => e.fcc == c then some (fourccGuid c, decide (c ≠ fccYVU9)) else none := by
      decide
    exact this csp h
  · have hno : ¬ check.any (fun c => c.fcc == csp) := by
      simpa [List.any_eq_true] using h
    rw [if_neg hno]
    simp only [check, List.map_cons, List.map_nil, List.mem_cons, List.not_mem_nil, or_false,
      not_or] at h
    obtain ⟨h₁, h₂, h₃, h₄, h₅, h₆, h₇⟩ := h
    simp only [yuvSubtype, h₁, h₂, h₃, h₄, h₅, h₆, h₇, if_false]

/-- The subtype and the header that are asked for. -/
theorem requested_eq (obh : BitmapInfo) (bits : Int) (csp : Nat) : requested obh bits csp =
    match pixelFormat bits csp with
    | none => (none, obh)
    | some p => (some p.subtype, if csp = fccYVU9 then obh else formatHeader obh bits csp) := by
  by_cases hcsp : csp = 0
  · subst hcsp
    have h₀ : ¬ 0 = fccYVU9 := by decide
    simp only [requested, pixelFormat, formatHeader, rgbSubtype, if_true, if_neg h₀]
    split_ifs <;> rfl
  · simp only [requested, pixelFormat, formatHeader, if_neg hcsp, yuvSubtype_eq]
    by_cases hknown : check.any fun c => c.fcc == csp
    · by_cases h₉ : csp = fccYVU9
      · subst h₉
        simp only [hknown, if_true, ne_eq, not_true_eq_false, decide_false]
      · simp only [hknown, h₉, if_true, if_false, ne_eq, not_false_eq_true, decide_true]
    · simp only [if_neg hknown]

theorem formatHeader_biBitCount (obh : BitmapInfo) (bits : Int) {csp : Nat} (h : csp ≠ 0) :
    (formatHeader obh bits csp).header.biBitCount = bits.bmod (2 ^ 16) := by
  rw [formatHeader, if_neg h]
  rfl

theorem pixelFormat_yvu9 (bits : Int) :
    pixelFormat bits fccYVU9 = some ⟨fourccGuid fccYVU9, fccYVU9, bits⟩ := by
  rw [pixelFormat, if_neg (by decide), if_pos (by decide)]

/-- The subtypes of RGB end otherwise than those of YUV. -/
theorem pixelFormat_f2 {bits : Int} {csp : Nat} {p : PixelFormat} (h : pixelFormat bits csp = some p) :
    p.subtype.f2 = if csp = 0 then 0x524f else 0 := by
  simp only [pixelFormat] at h
  split_ifs at h ⊢ <;> cases h <;> rfl

/-- A subtype belongs to one fourcc, and an RGB subtype to one bit count. -/
theorem pixelFormat_inj {bits bits' : Int} {csp csp' : Nat} {p p' : PixelFormat}
    (h : pixelFormat bits csp = some p) (h' : pixelFormat bits' csp' = some p')
    (hs : p.subtype = p'.subtype) : csp = csp' ∧ (csp = 0 → bits = bits') := by
  have hf : (csp = 0) ↔ (csp' = 0) := by
    have hf₂ := pixelFormat_f2 h
    rw [hs, pixelFormat_f2 h'] at hf₂
    split_ifs at hf₂ with h₁ h₂ h₂ <;> simp_all
  by_cases hcsp : csp = 0
  · obtain ⟨rfl, rfl⟩ : csp = 0 ∧ csp' = 0 := ⟨hcsp, hf.mp hcsp⟩
    refine ⟨rfl, fun _ => ?_⟩
    simp only [pixelFormat, if_true] at h h'
    split_ifs at h h' <;> cases h <;> cases h' <;> first | omega | exact absurd hs (by decide)
  · refine ⟨?_, fun h₀ => absurd h₀ hcsp⟩
    simp only [pixelFormat, if_neg hcsp, if_neg (hf.not.mp hcsp)] at h h'
    split_ifs at h h'
    cases h
    cases h'
    exact congrArg Guid.f1 hs

/-- The size of a picture. -/
def imageSize (biBitCount width height : Int) : Int := |biBitCount * width * height| / 8

/-- The media type is the one of this format, for a picture of this size. -/
structure IsFormat (p : PixelFormat) (width height : Int) (pmt : AmMediaType) : Prop where
  subtype : pmt.subtype = p.subtype
  header : ∃ vih, pmt.pbFormat = .videoInfo2 vih ∧ vih.bmiHeader.header.biCompression = p.biCompression ∧
    vih.bmiHeader.header.biBitCount = p.biBitCount ∧
    vih.bmiHeader.header.biSizeImage = imageSize p.biBitCount width height
  lSampleSize : pmt.lSampleSize = imageSize p.biBitCount width height

/-- The output type that a call on the codec is about. -/
def CodecCall.outputType : CodecCall → Option AmMediaType
  | .queryAccept pmt _ => some pmt
  | .receiveOutput pmt _ => some pmt
  | _ => none

/-- The format is known and no YVU9, its bit count is a `short`, and the picture is one that can
be counted in a `LONG`: its bits for YUV, its bytes for RGB. -/
def Settable (bits : Int) (csp : Nat) (width height : Int) : Prop :=
  ∃ p, pixelFormat bits csp = some p ∧ csp ≠ fccYVU9 ∧ p.biBitCount.bmod (2 ^ 16) = p.biBitCount ∧
    (if csp = 0 then imageSize p.biBitCount width height else |p.biBitCount * width * height|) < 2 ^ 31

/-! ## The size of a picture, computed -/

theorem int32_lt (x : Int) : int32 x < 2 ^ 31 := by
  simp only [int32, Int.bmod]
  omega

theorem labs_of_lt {x : Int} (h : |x| < 2 ^ 31) : labs x = |x| := by
  rw [Int.abs_eq_natAbs] at h
  rw [labs, int32_of_lt (x := x) (by omega) (by omega), Int.abs_eq_natAbs,
    int32_of_lt (by omega) (by omega)]

theorem labs_neg (x : Int) : labs (-x) = labs x := by
  simp only [labs, int32, Int.abs_eq_natAbs, Int.bmod]
  omega

/-- For RGB of 15 and 16 bits. -/
theorem labs_mul_two (x : Int) : labs (2 * x) = |16 * x| / 8 ↔ |16 * x| / 8 < 2 ^ 31 := by
  have h₈ : |16 * x| / 8 = |2 * x| := by
    simp only [Int.abs_eq_natAbs]
    omega
  rw [h₈]
  exact ⟨fun h => h ▸ int32_lt _, labs_of_lt⟩

/-- For RGB of 24 and 32 bits. -/
theorem int32_labs_mul (x n : Int) (hn : n = 3 ∨ n = 4) :
    int32 (labs x * n) = |8 * n * x| / 8 ↔ |8 * n * x| / 8 < 2 ^ 31 := by
  have h₈ : |8 * n * x| / 8 = |x| * n := by
    simp only [Int.abs_eq_natAbs]
    obtain rfl | rfl := hn <;> omega
  have hx := abs_nonneg x
  rw [h₈]
  refine ⟨fun h => h ▸ int32_lt _, fun h => ?_⟩
  have hlt : |x| < 2 ^ 31 := by obtain rfl | rfl := hn <;> omega
  rw [labs_of_lt hlt]
  exact int32_of_lt (by obtain rfl | rfl := hn <;> omega) h

/-- For YUV. -/
theorem labs_div (x : Int) : labs x / 8 = |x| / 8 ↔ |x| < 2 ^ 31 := by
  refine ⟨fun h => ?_, fun h => by rw [labs_of_lt h]⟩
  have : labs x < 2 ^ 31 := int32_lt _
  omega

/-- The header that is set up for a format. -/
theorem formatHeader_spec {bits : Int} {csp : Nat} {p : PixelFormat} (obh : BitmapInfo)
    (h : pixelFormat bits csp = some p) :
    (formatHeader obh bits csp).header.biCompression = p.biCompression ∧
    (formatHeader obh bits csp).header.biBitCount = p.biBitCount.bmod (2 ^ 16) ∧
    (p.biBitCount.bmod (2 ^ 16) = p.biBitCount →
      ((formatHeader obh bits csp).header.biSizeImage =
          imageSize p.biBitCount obh.header.biWidth obh.header.biHeight ↔
        (if csp = 0 then imageSize p.biBitCount obh.header.biWidth obh.header.biHeight
          else |p.biBitCount * obh.header.biWidth * obh.header.biHeight|) < 2 ^ 31)) := by
  by_cases hcsp : csp = 0
  · simp only [pixelFormat, formatHeader, imageSize, if_pos hcsp, Int.mul_assoc] at h ⊢
    split_ifs at h with h₁ h₂ h₃ h₄ <;> cases h
    · subst h₁
      rw [rgbHeader, if_pos (.inl rfl)]
      exact ⟨rfl, rfl, fun _ => by simpa only [Int.mul_assoc] using labs_mul_two _⟩
    · subst h₂
      rw [rgbHeader, if_pos (.inr rfl)]
      exact ⟨rfl, rfl, fun _ => by simpa only [Int.mul_assoc] using labs_mul_two _⟩
    · subst h₃
      rw [rgbHeader, if_neg (by decide)]
      exact ⟨rfl, rfl, fun _ => int32_labs_mul _ 3 (.inl rfl)⟩
    · subst h₄
      rw [rgbHeader, if_neg (by decide)]
      exact ⟨rfl, rfl, fun _ => int32_labs_mul _ 4 (.inr rfl)⟩
  · simp only [pixelFormat, formatHeader, if_neg hcsp] at h ⊢
    split_ifs at h
    cases h
    refine ⟨rfl, rfl, fun hbits => ?_⟩
    simp only [yuvHeader, imageSize, hbits]
    rw [← labs_div]
    split
    · rw [Int.mul_neg, labs_neg]
    · rfl

/-! ## Runs -/

namespace DsVideoDecoder

/-- What happens to a decoder that is open; `SetDestFmt` succeeds or not. -/
inductive Event
  | setDestFmt (bits : Int) (csp : Nat) (ans : FormatAnswer)
  | setInputType (format : InputFormat)
  | start (blocks : List Nat)
  | decode (pts : BitVec 64) (src : List UInt8) (ans : DecodeAnswer)
  | seek
  | codecRelease

def step (d : DsVideoDecoder) : Event → Option DsVideoDecoder
  | .setDestFmt bits csp ans => (d.setDestFmt bits csp ans).map fun r => r.2.2
  | .setInputType format => d.setInputType format
  | .start blocks => (d.startInternal blocks).map Prod.snd
  | .decode pts src ans => (d.decode pts src ans).map Prod.snd
  | .seek => some { d with discontinuity := true }
  | .codecRelease => d.codecRelease

/-- If the event is a `SetDestFmt`, it returns 0. -/
def Succeeds (d : DsVideoDecoder) : Event → Prop
  | .setDestFmt bits csp ans => (d.setDestFmt bits csp ans).map Prod.fst = some true
  | _ => True

instance (d : DsVideoDecoder) : (e : Event) → Decidable (d.Succeeds e)
  | .setDestFmt .. => inferInstanceAs (Decidable (_ = _))
  | .setInputType _ | .start _ | .decode .. | .seek | .codecRelease => .isTrue trivial

def Event.setsFormat : Event → Bool
  | .setDestFmt .. => true
  | _ => false

/-- Two decoders with one output format: `m_sDestType`, the header in `m_sVhdr2`,
`m_obh` and `m_decoder`. -/
structure SameFormat (d d' : DsVideoDecoder) : Prop where
  subtype : d'.destSubtype = d.destSubtype
  sampleSize : d'.destSampleSize = d.destSampleSize
  cbFormat : d'.destCbFormat = d.destCbFormat
  vhdr2 : d'.m_sVhdr2 = d.m_sVhdr2
  obh : d'.m_obh = d.m_obh
  decoder : d'.m_decoder = d.m_decoder

section SameFormat

variable {d d' : DsVideoDecoder} {ok : Bool} {calls : List CodecCall} {ans : FormatAnswer}

theorem SameFormat.destType (h : SameFormat d d') : d'.m_sDestType = d.m_sDestType := by
  simp only [m_sDestType, h.1, h.2, h.3, h.4]

theorem SameFormat.of_rewired (h : Rewired d d') : SameFormat d d' := by
  obtain ⟨_, _, rfl, -⟩ := h
  exact ⟨rfl, rfl, rfl, rfl, rfl, rfl⟩

/-- Nothing but `SetDestFmt` touches the output format. -/
theorem step_sameFormat {e : Event} (he : e.setsFormat = false) (h : d.step e = some d') :
    SameFormat d d' := by
  cases e with
  | setDestFmt => cases he
  | seek =>
    cases h
    exact ⟨rfl, rfl, rfl, rfl, rfl, rfl⟩
  | setInputType format =>
    obtain ⟨ourType, -, rfl⟩ := Option.map_eq_some_iff.mp h
    exact ⟨rfl, rfl, rfl, rfl, rfl, rfl⟩
  | start blocks =>
    obtain ⟨⟨calls, _⟩, hs, rfl⟩ := Option.map_eq_some_iff.mp h
    exact .of_rewired (startInternal_rewired hs)
  | decode pts src ans =>
    simp only [step, decode, Option.map_eq_some_iff, Option.bind_eq_bind, Option.bind_eq_some_iff,
      Option.pure_def, Option.some.injEq] at h
    obtain ⟨_, ⟨_, -, _, -, _, -, rfl⟩, rfl⟩ := h
    exact ⟨rfl, rfl, rfl, rfl, rfl, rfl⟩
  | codecRelease =>
    simp only [step, codecRelease, Option.bind_eq_bind, Option.bind_eq_some_iff, Option.pure_def,
      Option.some.injEq] at h
    obtain ⟨_, -, _, -, _, -, rfl⟩ := h
    exact ⟨rfl, rfl, rfl, rfl, rfl, rfl⟩

/-- After a success the header asked for is everywhere. -/
theorem setDestFmt_accepted {bits : Int} {csp : Nat}
    (h : d.setDestFmt bits csp ans = some (true, calls, d')) :
    SameFormat (d.acceptFormat bits csp) d' := by
  obtain ⟨-, hok, -⟩ | ⟨-, more, -, hr⟩ := setDestFmt_cases h
  · cases hok
  · exact .of_rewired (reconnect_rewired hr)

end SameFormat

/-! ## What the descriptions have in common -/

/-- `m_sDestType` and `m_sVhdr2` are those of `m_decoder`. -/
structure Settled (d : DsVideoDecoder) : Prop where
  sampleSize : d.destSampleSize = d.m_decoder.header.biSizeImage
  cbFormat : d.destCbFormat = if d.m_decoder.header.biCompression = 3 then 124 else 112
  header : d.m_sVhdr2.bmiHeader =
    { d.m_decoder with header := { d.m_decoder.header with biSize := sizeofBih } }

/-- `m_obh` is set up for some format, and the subtype is that of this format, or
the one that no header is set up for. -/
def Shaped (d : DsVideoDecoder) : Prop :=
  ∃ bits csp p, pixelFormat bits csp = some p ∧ csp ≠ fccYVU9 ∧
    formatHeader d.m_obh bits csp = d.m_obh ∧
    (d.destSubtype = p.subtype ∨ d.destSubtype = fourccGuid fccYVU9)

variable {d d' : DsVideoDecoder} {ok : Bool} {calls : List CodecCall} {ans : FormatAnswer}
  {bits : Int} {csp : Nat}

theorem Settled.congr (hs : SameFormat d d') (h : d.Settled) : d'.Settled := by
  obtain ⟨h₁, h₂, h₃⟩ := h
  refine ⟨?_, ?_, ?_⟩
  · rw [hs.sampleSize, hs.decoder, h₁]
  · rw [hs.cbFormat, hs.decoder, h₂]
  · rw [hs.vhdr2, hs.decoder, h₃]

theorem Shaped.congr (hs : SameFormat d d') (h : d.Shaped) : d'.Shaped := by
  rw [Shaped, hs.obh, hs.subtype]
  exact h

/-- A header set up for a format is set up for it. -/
theorem formatHeader_formatHeader (obh : BitmapInfo) (bits : Int) (csp : Nat) :
    formatHeader (formatHeader obh bits csp) bits csp = formatHeader obh bits csp := by
  simp only [formatHeader]
  split
  · exact rgbHeader_rgbHeader obh bits
  · exact yuvHeader_yuvHeader obh bits csp

/-- A request leaves the header set up, whatever becomes of it. -/
theorem requestFormat_shaped (h : d.Shaped) : (d.requestFormat bits csp).Shaped := by
  obtain ⟨bits₀, csp₀, p₀, hp₀, h₉, hfix, hsub⟩ := h
  simp only [requestFormat, useHeader, requested_eq, Shaped]
  cases hp : pixelFormat bits csp with
  | none => exact ⟨bits₀, csp₀, p₀, hp₀, h₉, hfix, hsub⟩
  | some p =>
    by_cases hcsp : csp = fccYVU9
    · simp only [if_pos hcsp]
      refine ⟨bits₀, csp₀, p₀, hp₀, h₉, hfix, .inr ?_⟩
      subst hcsp
      cases (pixelFormat_yvu9 bits).symm.trans hp
      rfl
    · simp only [if_neg hcsp]
      exact ⟨bits, csp, p, hp, hcsp, formatHeader_formatHeader _ _ _, .inl rfl⟩

theorem setDestFmt_shaped (h : d.Shaped) (hd : d.setDestFmt bits csp ans = some (ok, calls, d')) :
    d'.Shaped := by
  have hr : (d.requestFormat bits csp).Shaped := requestFormat_shaped h
  obtain ⟨-, -, -, rfl⟩ | ⟨-, more, -, hrec⟩ := setDestFmt_cases hd
  · exact hr
  · exact Shaped.congr (.of_rewired (reconnect_rewired hrec)) hr

theorem step_shaped {e : Event} (h : d.Shaped) (hd : d.step e = some d') : d'.Shaped := by
  cases e with
  | setDestFmt bits csp ans =>
    simp only [step, Option.map_eq_some_iff] at hd
    obtain ⟨⟨ok, calls, _⟩, hs, rfl⟩ := hd
    exact setDestFmt_shaped h hs
  | _ => exact h.congr (step_sameFormat rfl hd)

/-- A success settles the format. -/
theorem setDestFmt_settled (hd : d.setDestFmt bits csp ans = some (true, calls, d')) : d'.Settled := by
  have hs : (d.acceptFormat bits csp).Settled := ⟨rfl, rfl, rfl⟩
  exact hs.congr (setDestFmt_accepted hd)

/-- The decoder is opened for RGB of 24 bits. -/
theorem openDecoder_shaped {format : InputFormat} {opened : OpenAnswer}
    (h : openDecoder format opened = some d) : d.Shaped := by
  simp only [openDecoder, Option.bind_eq_bind, Option.bind_eq_some_iff, Option.pure_def,
    Option.some.injEq] at h
  obtain ⟨ourType, -, filter, -, rfl⟩ := h
  have hsize : ∀ w h : Int, labs (w * int32 (-h)) = labs (w * h) := fun w h => by
    rw [← labs_neg (w * h), ← Int.mul_neg]
    simp only [labs, int32, Int.mul_bmod_bmod]
  refine ⟨24, 0, _, rfl, by decide, ?_, .inl rfl⟩
  rw [formatHeader, if_pos rfl, rgbHeader, if_neg (by decide)]
  cases opened.upsideDown <;> simp [hsize]

/-! ## A small decoder -/

/-- The decoder of a codec that accepts everything, opened. -/
def small : DsVideoDecoder := (openDecoder (smallFormat []) .agrees).get (by decide +kernel)

/-- The same, with RGB of 24 bits set. -/
def smallRgb : DsVideoDecoder := (step small (.setDestFmt 24 0 .agrees)).get (by decide +kernel)

theorem openDecoder_small : openDecoder (smallFormat []) .agrees = some small := (Option.some_get _).symm

theorem exec_small : exec step small [.setDestFmt 24 0 .agrees] = some smallRgb :=
  exec_cons_eq_some.mpr ⟨_, (Option.some_get _).symm, rfl⟩

/-- The codec now refuses every type. -/
def refuses : FormatAnswer := { FormatAnswer.agrees with queryAccept := false }

/-! ## A refusal -/

/-- The request is for the format in force, or for one that is not known: it changes nothing
of the subtype and the header. -/
def InForce (d : DsVideoDecoder) (bits : Int) (csp : Nat) : Prop :=
  ∀ p, pixelFormat bits csp = some p → d.destSubtype = p.subtype ∧
    (csp ≠ 0 → csp ≠ fccYVU9 → d.m_obh.header.biBitCount = bits.bmod (2 ^ 16))

/-- What the request changes. -/
theorem inForce_iff (h : d.Shaped) : d.InForce bits csp ↔
    (requested d.m_obh bits csp).1.getD d.destSubtype = d.destSubtype ∧
      (requested d.m_obh bits csp).2 = d.m_obh := by
  rw [requested_eq, InForce]
  cases hp : pixelFormat bits csp with
  | none => simp
  | some p =>
    simp only [Option.some.injEq, forall_eq', Option.getD_some]
    rw [eq_comm]
    refine and_congr_right fun hsub => ?_
    by_cases h₉ : csp = fccYVU9
    · simp [h₉]
    simp only [ne_eq, not_false_eq_true, forall_const, h₉]
    constructor
    · intro hbits
      obtain ⟨bits₀, csp₀, p₀, hp₀, h₀, hfix, hsub₀⟩ := h
      have hne : d.destSubtype ≠ fourccGuid fccYVU9 := fun h =>
        h₉ (pixelFormat_inj hp (pixelFormat_yvu9 bits) (hsub.trans h)).1
      obtain ⟨rfl, hrgb⟩ := pixelFormat_inj hp₀ hp ((hsub₀.resolve_right hne).symm.trans hsub.symm)
      by_cases hcsp : csp₀ = 0
      · rw [← hrgb hcsp]
        exact hfix
      · have hbits₀ := formatHeader_biBitCount d.m_obh bits₀ hcsp
        rw [hfix, hbits hcsp] at hbits₀
        rw [formatHeader, if_neg hcsp] at hfix ⊢
        rw [yuvHeader, hbits₀]
        exact hfix
    · intro hfix hcsp
      rw [← formatHeader_biBitCount d.m_obh bits hcsp]
      exact congrArg (fun obh => obh.header.biBitCount) hfix.symm

/-- What a refusal leaves as it was. -/
theorem refused_sameFormat : SameFormat d ((d.requestFormat bits csp).useHeader d.m_decoder) ↔
    d.Settled ∧ (requested d.m_obh bits csp).1.getD d.destSubtype = d.destSubtype ∧
      (requested d.m_obh bits csp).2 = d.m_obh := by
  constructor
  · rintro ⟨h₁, h₂, h₃, h₄, h₅, -⟩
    exact ⟨⟨h₂.symm, h₃.symm, (congrArg VideoInfoHeader2.bmiHeader h₄).symm⟩, h₁, h₅⟩
  · rintro ⟨⟨h₁, h₂, h₃⟩, h₄, h₅⟩
    refine ⟨h₄, h₁.symm, h₂.symm, ?_, h₅, rfl⟩
    simp only [requestFormat, useHeader, ← h₃]

theorem setDestFmt_refused (bits : Int) (h : d.accepts csp ans = false) :
    ∃ calls, d.setDestFmt bits csp ans = some (false, calls, (d.requestFormat bits csp).useHeader d.m_decoder) := by
  have hno : ¬ (shouldTest (d.requestFormat bits csp).m_Caps csp = true ∧ ans.queryAccept = true) := by
    simpa [accepts, requestFormat, useHeader] using h
  rw [setDestFmt, if_pos hno]
  exact ⟨_, rfl⟩

/-- Once a format has been set, it is settled. -/
theorem settled_of_success {es : List Event} (hm : Meets step Succeeds d es)
    (hr : exec step d es = some d') (h : d.Settled ∨ ∃ e ∈ es, e.setsFormat = true) : d'.Settled := by
  induction es generalizing d with
  | nil =>
    cases hr
    exact h.resolve_right (by simp)
  | cons e es ih =>
    obtain ⟨u, hu, hr⟩ := exec_cons_eq_some.mp hr
    refine ih (hm.2 u hu) hr ?_
    cases he : e.setsFormat with
    | true =>
      cases e with
      | setDestFmt bits csp ans =>
        obtain ⟨⟨ok, calls, d''⟩, hd, hok⟩ := Option.map_eq_some_iff.mp hm.1
        obtain rfl : ok = true := hok
        simp only [step, hd, Option.map_some, Option.some.injEq] at hu
        exact .inl (hu ▸ setDestFmt_settled hd)
      | _ => cases he
    | false =>
      obtain hs | ⟨f, hf, hset⟩ := h
      · exact .inl (hs.congr (step_sameFormat he hu))
      · obtain rfl | hf := List.mem_cons.mp hf
        · exact absurd hset (by simp [he])
        · exact .inr ⟨f, hf, hset⟩

/-- **A refused format.** The decoder is left as it was if and only if the request is for what
is in force already and, where no format has been set yet, the descriptions agree. -/
theorem refused_iff {format : InputFormat} {opened : OpenAnswer} {d₀ : DsVideoDecoder}
    {es : List Event} (ho : openDecoder format opened = some d₀) (hm : Meets step Succeeds d₀ es)
    (hr : exec step d₀ es = some d) (hd : d.setDestFmt bits csp ans = some (false, calls, d'))
    (hno : d.accepts csp ans = false) : SameFormat d d' ↔
      ((∀ e ∈ es, e.setsFormat = false) → d.Settled) ∧ d.InForce bits csp := by
  have hshaped : d.Shaped := exec_inv' (fun _ _ _ => step_shaped) (openDecoder_shaped ho) hr
  obtain ⟨-, -, -, rfl⟩ | ⟨hacc, -⟩ := setDestFmt_cases hd
  · rw [refused_sameFormat, inForce_iff hshaped]
    refine and_congr_left fun _ => ⟨fun h _ => h, fun h => ?_⟩
    by_cases hset : ∃ e ∈ es, e.setsFormat = true
    · exact settled_of_success hm hr (.inr hset)
    · exact h fun e he => by
        simpa using fun h => hset ⟨e, he, h⟩
  · rw [hno] at hacc
    cases hacc

/-- RGB of 24 bits is refused when it is asked for again. -/
theorem refused_iff_small : ∃ calls d', smallRgb.setDestFmt 24 0 refuses = some (false, calls, d') ∧
    (SameFormat smallRgb d' ↔
      ((∀ e ∈ [Event.setDestFmt 24 0 .agrees], e.setsFormat = false) → smallRgb.Settled) ∧
        smallRgb.InForce 24 0) := by
  have hno : smallRgb.accepts 0 refuses = false := by decide +kernel
  obtain ⟨calls, hd⟩ := setDestFmt_refused 24 hno
  exact ⟨_, _, hd, refused_iff openDecoder_small (by decide +kernel) exec_small hd hno⟩

/-- YV12 is refused: its subtype and header stay. -/
theorem refused_yv12 : ∃ calls d', Meets step Succeeds small [.setDestFmt 24 0 .agrees] ∧
    exec step small [.setDestFmt 24 0 .agrees] = some smallRgb ∧
    smallRgb.setDestFmt 12 (mmioFourcc 'Y' 'V' '1' '2') refuses = some (false, calls, d') ∧
    smallRgb.accepts (mmioFourcc 'Y' 'V' '1' '2') refuses = false ∧ ¬ SameFormat smallRgb d' := by
  have hno : smallRgb.accepts (mmioFourcc 'Y' 'V' '1' '2') refuses = false := by decide +kernel
  obtain ⟨calls, hd⟩ := setDestFmt_refused 12 hno
  refine ⟨calls, _, by decide +kernel, exec_small, hd, hno, fun h => ?_⟩
  exact absurd h.subtype (by decide +kernel)

/-! ## A success -/

/-- The format is known, and the codec has been asked for nothing else. -/
def Honoured (d : DsVideoDecoder) (bits : Int) (csp : Nat) (calls : List CodecCall) : Prop :=
  ∃ p, pixelFormat bits csp = some p ∧ ∀ c ∈ calls, ∀ pmt, c.outputType = some pmt →
    IsFormat p d.m_obh.header.biWidth d.m_obh.header.biHeight pmt

/-- The calls that connect the pins. -/
theorem connect_calls (d : DsVideoDecoder) (ans : FormatAnswer) : ∀ c ∈ (d.connect ans).2.1,
    c = .receiveInput d.m_sOurType ans.input ∨ c = .notifyAllocator ∨
      c = .receiveOutput d.m_sDestType ans.output := by
  intro c hc
  simp only [connect] at hc
  split_ifs at hc <;>
    simp only [List.cons_append, List.nil_append, List.mem_cons, List.not_mem_nil, or_false] at hc
  · exact hc
  · exact hc
  · exact .inl hc
  · exact .inl hc

/-- A reconnection is about the type that the decoder has. -/
theorem reconnect_outputType (h : d.reconnect ans = some (ok, calls, d')) :
    ∀ c ∈ calls, ∀ pmt, c.outputType = some pmt → pmt = d.m_sDestType := by
  obtain ⟨run, rfl, hrun⟩ := reconnect_cases h
  intro c hc pmt hpmt
  rw [List.append_assoc, List.mem_append, List.mem_append] at hc
  obtain hc | hc | hc := hc
  · obtain rfl | rfl := takeDown_calls d c hc <;> cases hpmt
  · obtain rfl | rfl | rfl := connect_calls _ _ c hc <;> cases hpmt
    exact (SameFormat.of_rewired (takeDown_rewired d)).destType
  · obtain ⟨rfl, -⟩ | hs := hrun
    · cases hc
    · rw [startInternal_calls hs, List.mem_singleton] at hc
      subst hc
      cases hpmt

/-- No header is ever set up for YVU9. -/
theorem Shaped.biCompression_ne (h : d.Shaped) : d.m_obh.header.biCompression ≠ fccYVU9 := by
  obtain ⟨bits, csp, p, hp, h₉, hfix, -⟩ := h
  rw [← hfix, (formatHeader_spec _ hp).1]
  simp only [pixelFormat] at hp
  split_ifs at hp <;> cases hp <;> first | exact h₉ | decide

/-- The type that the codec is asked for, with the header that is set up. -/
theorem requestFormat_destType {p : PixelFormat} (hp : pixelFormat bits csp = some p)
    (h₉ : csp ≠ fccYVU9) : (d.requestFormat bits csp).m_sDestType.subtype = p.subtype ∧
      (d.requestFormat bits csp).m_sDestType.lSampleSize =
        (formatHeader d.m_obh bits csp).header.biSizeImage ∧
      (d.requestFormat bits csp).m_sVhdr2.bmiHeader.header =
        { (formatHeader d.m_obh bits csp).header with biSize := sizeofBih } := by
  have hr : requested d.m_obh bits csp = _ := requested_eq d.m_obh bits csp
  simp only [hp, if_neg h₉] at hr
  simp only [m_sDestType, requestFormat, useHeader, hr, Option.getD_some, and_self]

/-- With YVU9 it has the header of another format. -/
theorem requestFormat_yvu9 {p : PixelFormat} {width height : Int} (h : d.Shaped)
    (hp : pixelFormat bits fccYVU9 = some p) :
    ¬ IsFormat p width height (d.requestFormat bits fccYVU9).m_sDestType := by
  rintro ⟨-, ⟨_, hvih, hc, -⟩, -⟩
  cases hvih
  obtain rfl : _ = p := Option.some.inj ((pixelFormat_yvu9 bits).symm.trans hp)
  have hr : requested d.m_obh bits fccYVU9 = _ := requested_eq d.m_obh bits fccYVU9
  simp only [hp, if_true] at hr
  simp only [requestFormat, useHeader, hr] at hc
  exact h.biCompression_ne hc

/-- Whether the codec is asked for the format of the request. -/
theorem requestFormat_isFormat {p : PixelFormat} (h : d.Shaped) (hp : pixelFormat bits csp = some p) :
    IsFormat p d.m_obh.header.biWidth d.m_obh.header.biHeight (d.requestFormat bits csp).m_sDestType ↔
      csp ≠ fccYVU9 ∧ p.biBitCount.bmod (2 ^ 16) = p.biBitCount ∧
      (if csp = 0 then imageSize p.biBitCount d.m_obh.header.biWidth d.m_obh.header.biHeight
        else |p.biBitCount * d.m_obh.header.biWidth * d.m_obh.header.biHeight|) < 2 ^ 31 := by
  by_cases h₉ : csp = fccYVU9
  · subst h₉
    simp only [ne_eq, not_true_eq_false, false_and, iff_false]
    exact requestFormat_yvu9 h hp
  obtain ⟨hc, hb, hsize⟩ := formatHeader_spec d.m_obh hp
  obtain ⟨hsub, hsample, hheader⟩ := requestFormat_destType (d := d) hp h₉
  constructor
  · rintro ⟨-, ⟨_, hv, -, hbits, -⟩, hl⟩
    cases hv
    rw [hheader] at hbits
    have hbits := hb.symm.trans hbits
    exact ⟨h₉, hbits, (hsize hbits).mp (hsample.symm.trans hl)⟩
  · rintro ⟨-, hbits, hlt⟩
    have hl := (hsize hbits).mpr hlt
    refine ⟨hsub, ⟨_, rfl, ?_, ?_, ?_⟩, hsample.trans hl⟩
    · rw [hheader]
      exact hc
    · rw [hheader]
      exact hb.trans hbits
    · rw [hheader]
      exact hl

/-- **An accepted format.** The codec has been asked for the format of the request if and only
if this is one that can be set. -/
theorem honoured_iff {format : InputFormat} {opened : OpenAnswer} {d₀ : DsVideoDecoder}
    {es : List Event} (ho : openDecoder format opened = some d₀) (hr : exec step d₀ es = some d)
    (hd : d.setDestFmt bits csp ans = some (true, calls, d')) : d.Honoured bits csp calls ↔
      Settable bits csp d.m_obh.header.biWidth d.m_obh.header.biHeight := by
  have hshaped : d.Shaped := exec_inv' (fun _ _ _ => step_shaped) (openDecoder_shaped ho) hr
  obtain ⟨-, hok, -⟩ | ⟨-, more, rfl, hrec⟩ := setDestFmt_cases hd
  · cases hok
  refine exists_congr fun p => and_congr_right fun hp => ?_
  rw [← requestFormat_isFormat hshaped hp, List.forall_mem_cons]
  constructor
  · exact fun h => h.1 _ rfl
  · refine fun h => ⟨fun pmt hpmt => ?_, fun c hc pmt hpmt => ?_⟩
    · cases hpmt
      exact h
    · rw [reconnect_outputType hrec c hc pmt hpmt]
      exact h

theorem honoured_iff_small : ∃ calls d', smallRgb.setDestFmt 24 0 .agrees = some (true, calls, d') ∧
    (smallRgb.Honoured 24 0 calls ↔
      Settable 24 0 smallRgb.m_obh.header.biWidth smallRgb.m_obh.header.biHeight) := by
  have hok : (smallRgb.setDestFmt 24 0 .agrees).map Prod.fst = some true := by decide +kernel
  obtain ⟨⟨ok, calls, d'⟩, hd, rfl⟩ := Option.map_eq_some_iff.mp hok
  exact ⟨calls, d', hd, honoured_iff openDecoder_small exec_small hd⟩

/-- YVU9 is accepted with the header of RGB. -/
theorem yvu9_not_honoured : exec step small [.setDestFmt 24 0 .agrees] = some smallRgb ∧
    ∃ calls d', smallRgb.setDestFmt 9 fccYVU9 .agrees = some (true, calls, d') ∧
      ¬ smallRgb.Honoured 9 fccYVU9 calls := by
  have hok : (smallRgb.setDestFmt 9 fccYVU9 .agrees).map Prod.fst = some true := by decide +kernel
  obtain ⟨⟨ok, calls, d'⟩, hd, rfl⟩ := Option.map_eq_some_iff.mp hok
  refine ⟨exec_small, calls, d', hd, ?_⟩
  rintro ⟨p, hp, hall⟩
  obtain ⟨-, hno, -⟩ | ⟨-, more, rfl, -⟩ := setDestFmt_cases hd
  · cases hno
  obtain ⟨-, ⟨_, hv, hc, -⟩, -⟩ := hall _ List.mem_cons_self _ rfl
  cases hv
  cases (pixelFormat_yvu9 9).symm.trans hp
  exact absurd hc (by decide +kernel)

end DsVideoDecoder

end DShow.Decoder
