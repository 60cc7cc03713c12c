import DShowServer.Decoder.Format

/-!
# The parameter sets of an avcC record

The extradata of an AVC stream is a record of the parameter sets the decoder
needs: one SPS as a rule, and any number of PPS, each with its length before it.
`avc_quant` is to write them one after the other, as the sequence header of an
`MPEG2VIDEOINFO`. It steps through the record by hand and takes one PPS
(`avcQuant_bytes`), so that `converts_iff` holds of records that have one.
-/

namespace DShow.Decoder

/-- A parameter set, of a length that two bytes can hold. -/
structure ParameterSet where
  data : List UInt8
  length_lt : data.length < 2 ^ 16

/-- A parameter set with its length before it, the high byte first. -/
def ParameterSet.entry (x : ParameterSet) : List UInt8 :=
  UInt8.ofNat (x.data.length / 2 ^ 8) :: UInt8.ofNat (x.data.length % 2 ^ 8) :: x.data

/-- A well-formed avcC record with one SPS; `spsCount` has three bits more. -/
structure AvcRecord where
  profile : UInt8
  compatibility : UInt8
  level : UInt8
  lengthSize : UInt8
  spsCount : UInt8
  sps : ParameterSet
  pps : List ParameterSet
  one_sps : spsCount &&& 0x1f = 1
  pps_pos : 0 < pps.length
  pps_lt : pps.length < 2 ^ 8

namespace AvcRecord

/-- The header of the record, up to the SPS. -/
def head (r : AvcRecord) : List UInt8 :=
  [0x01, r.profile, r.compatibility, r.level, r.lengthSize, r.spsCount]

/-- The record as extradata. -/
def bytes (r : AvcRecord) : List UInt8 :=
  r.head ++ (r.sps.entry ++ UInt8.ofNat r.pps.length :: r.pps.flatMap ParameterSet.entry)

/-- All its parameter sets. -/
def parameterSets (r : AvcRecord) : List UInt8 :=
  r.sps.entry ++ r.pps.flatMap ParameterSet.entry

/-- The record is converted to its parameter sets, and they become the sequence
header, the length of which `ConvertVIHtoMPEG2VI` stores and adds to the size. -/
def Converts (r : AvcRecord) : Prop :=
  avcQuant r.bytes = some r.parameterSets ∧
  ∀ vih : VideoInfoHeader, vih.extra = r.bytes → vih.bmiHeader.biSize = sizeofBih + r.bytes.length →
    isAvc vih.bmiHeader.biCompression = true →
    ∃ mp2vi : Mpeg2VideoInfo,
      convertVihToMpeg2Vi vih = some (mp2vi, 132 + (r.parameterSets.length : Int)) ∧
        mp2vi.dwSequenceHeader = r.parameterSets

end AvcRecord

/-! ## Stepping through the record -/

theorem length_entry (x : ParameterSet) : x.entry.length = x.data.length + 2 := rfl

/-- A parameter set read where it starts. -/
theorem parameterSet_entry (front back : List UInt8) (x : ParameterSet) :
    parameterSet (front ++ (x.entry ++ back)) front.length = some x.entry := by
  have hlt := x.length_lt
  have h₀ : (front ++ (x.entry ++ back))[front.length]? = some (UInt8.ofNat (x.data.length / 2 ^ 8)) := by
    rw [List.getElem?_append_right (Nat.le_refl _), Nat.sub_self]; rfl
  have h₁ : (front ++ (x.entry ++ back))[front.length + 1]? =
      some (UInt8.ofNat (x.data.length % 2 ^ 8)) := by
    rw [List.getElem?_append_right (Nat.le_add_right ..), Nat.add_sub_cancel_left]; rfl
  have hcnt : (UInt8.ofNat (x.data.length / 2 ^ 8)).toNat * 2 ^ 8 +
      (UInt8.ofNat (x.data.length % 2 ^ 8)).toNat + 2 = x.entry.length := by
    rw [UInt8.toNat_ofNat', UInt8.toNat_ofNat', length_entry]
    omega
  simp only [parameterSet, h₀, h₁, Option.bind_eq_bind, Option.bind_some, hcnt]
  rw [if_pos (by simp only [List.length_append]; omega), List.drop_left, List.take_left]

variable (r : AvcRecord)

/-- `avc_quant` takes the SPS and the first PPS. -/
theorem avcQuant_bytes {first : ParameterSet} {rest : List ParameterSet} (h : r.pps = first :: rest) :
    avcQuant r.bytes = some (r.sps.entry ++ first.entry) := by
  have hcount : r.bytes[5]? = some r.spsCount := rfl
  have hversion : r.bytes[0]? = some 0x01 := rfl
  have hsps : parameterSet r.bytes 6 = some r.sps.entry := parameterSet_entry r.head _ r.sps
  have hpps : parameterSet r.bytes (6 + r.sps.entry.length + 1) = some first.entry := by
    have e : r.bytes = (r.head ++ (r.sps.entry ++ [UInt8.ofNat r.pps.length])) ++
        (first.entry ++ rest.flatMap ParameterSet.entry) := by
      simp only [AvcRecord.bytes, h, List.flatMap_cons, List.append_assoc, List.cons_append,
        List.nil_append]
    have hlen : (r.head ++ (r.sps.entry ++ [UInt8.ofNat r.pps.length])).length =
        6 + r.sps.entry.length + 1 := by
      simp only [List.length_append, AvcRecord.head, List.length_cons, List.length_nil]
      omega
    rw [e, ← hlen]
    exact parameterSet_entry _ _ first
  simp only [avcQuant, hcount, hversion, hsps, hpps, Option.bind_eq_bind, Option.bind_some, r.one_sps]
  rfl

/-- The sequence header is what `avc_quant` writes. -/
theorem convert_bytes {vih : VideoInfoHeader} {sequenceHeader : List UInt8} (he : vih.extra = r.bytes)
    (hs : vih.bmiHeader.biSize = sizeofBih + r.bytes.length)
    (ha : isAvc vih.bmiHeader.biCompression = true) (hq : avcQuant r.bytes = some sequenceHeader) :
    ∃ mp2vi : Mpeg2VideoInfo,
      convertVihToMpeg2Vi vih = some (mp2vi, 132 + (sequenceHeader.length : Int)) ∧
        mp2vi.dwSequenceHeader = sequenceHeader := by
  have hextra : (vih.bmiHeader.biSize - sizeofBih).toNat ≠ 0 := by
    have : 0 < r.bytes.length := Nat.zero_lt_succ _
    omega
  have hbytes : r.bytes[4]? = some r.lengthSize ∧ r.bytes[1]? = some r.profile ∧
      r.bytes[3]? = some r.level := ⟨rfl, rfl, rfl⟩
  simp only [convertVihToMpeg2Vi, if_neg hextra, ha, if_true, he, hbytes, hq, Option.bind_eq_bind,
    Option.bind_some, Option.pure_def]
  exact ⟨_, rfl, rfl⟩

/-- **The sequence header of a record.** It is all parameter sets of the record
if and only if there is one PPS. -/
theorem converts_iff : r.Converts ↔ r.pps.length = 1 := by
  obtain ⟨first, rest, h⟩ : ∃ first rest, r.pps = first :: rest :=
    List.exists_cons_of_length_pos r.pps_pos
  have hq := avcQuant_bytes r h
  constructor
  · intro hc
    have he : r.sps.entry ++ first.entry = r.parameterSets := Option.some.inj (hq.symm.trans hc.1)
    have hlen := congrArg List.length he
    simp only [AvcRecord.parameterSets, h, List.flatMap_cons, List.length_append] at hlen
    cases rest with
    | nil => rw [h]; rfl
    | cons second rest =>
      rw [List.flatMap_cons, List.length_append, length_entry second] at hlen
      omega
  · intro hc
    obtain rfl : rest = [] := by
      rw [h, List.length_cons] at hc
      exact List.length_eq_zero_iff.mp (by omega)
    have he : r.sps.entry ++ first.entry = r.parameterSets := by
      rw [AvcRecord.parameterSets, h, List.flatMap_cons, List.flatMap_nil, List.append_nil]
    rw [he] at hq
    exact ⟨hq, fun vih hv hs ha => convert_bytes r hv hs ha hq⟩

/-- A record with two PPS of one byte: the second is left out. -/
theorem second_pps_lost :
    ∃ r : AvcRecord, r.bytes = [1, 66, 0, 30, 0xff, 0xe1, 0, 1, 0x67, 2, 0, 1, 0x68, 0, 1, 0x68] ∧
      avcQuant r.bytes = some [0, 1, 0x67, 0, 1, 0x68] ∧
      r.parameterSets = [0, 1, 0x67, 0, 1, 0x68, 0, 1, 0x68] ∧ ¬ r.Converts := by
  refine ⟨⟨66, 0, 30, 0xff, 0xe1, ⟨[0x67], by decide⟩, [⟨[0x68], by decide⟩, ⟨[0x68], by decide⟩],
    by decide, by decide, by decide⟩, rfl, by decide, rfl, fun h => ?_⟩
  have hq := h.1
  revert hq
  decide

end DShow.Decoder
