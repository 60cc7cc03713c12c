import DShowServer.Protocol.Layout

/-!
# What the clients copy into the input area

The area between `data` and `picture` holds `width * height` bytes, whatever
the length of the packets. MPlayer and MythTV copy a packet to its start, xine
appends buffers until one ends the frame (a seek in between does not take it
back to the start), and MPlayer and xine put the bitmap header with its
extradata there at start-up. None of them compares a length with the area.

MPlayer goes on where the wait for the server returned a positive number, xine where
it returned 0. `timed_semwait` returns 1 or −1 there, so that xine loses its first
packet (`Xine.first_packet`) and goes on with the second all the same.

* `mplayer`, `mythtv`, `Xine.decodeData`: the copies of each client;
* `Xine.fits_iff`, `Xine.frames_fit_iff`: a buffer, and a run of frames in xine;
* `input_area_iff`: when all copies stay inside the area.
-/

namespace DShow.Protocol

open Run
open Transport (Answers timedSemwait timedSemwait_connects)

/-- The pointers `data` and `picture` of a `ds_mpi_t`, as offsets into the
segment. -/
structure InputArea where
  data : Int
  picture : Int
deriving DecidableEq

/-- A client's area, from two `int`s. -/
def clientArea (width height : Int) : InputArea where
  data := sizeofVdStruct
  picture := sizeofVdStruct + int32 (width * height)

/-- It is that of the layouts of MPlayer and xine. -/
theorem clientLayout_area (g : Geometry) (extra : Nat) :
    clientArea g.width g.height = ⟨(clientLayout g extra).data, (clientLayout g extra).picture⟩ := by
  simp only [clientArea, clientLayout, Geometry.pixels, Nat.cast_mul]

/-- `memcpy(ds_mpi.data + offset, .., length)`, with the pointers of `ds_mpi`
if the segment was mapped. -/
structure Copy where
  area : Option InputArea
  offset : Nat
  length : Nat
deriving DecidableEq

/-- Every byte goes to the area. -/
def Copy.Inside (c : Copy) : Prop :=
  ∀ i < c.length, ∃ a, c.area = some a ∧ a.data + (c.offset + i : Nat) < a.picture

/-- The area holds `n` bytes. -/
def Holds (area : Option InputArea) (n : Nat) : Prop := ∃ a, area = some a ∧ a.data + n ≤ a.picture

instance (area : Option InputArea) (n : Nat) : Decidable (Holds area n) :=
  match area with
  | none => isFalse fun ⟨_, h, _⟩ => by cases h
  | some a => decidable_of_iff (a.data + n ≤ a.picture)
      ⟨fun h => ⟨a, rfl, h⟩, fun ⟨b, hb, h⟩ => by cases hb; exact h⟩

/-! ## MPlayer and MythTV -/

/-- What the clients read of a bitmap header; `biSize` counts the extradata. -/
structure Bih where
  biSize : Nat
  biWidth : Int
  biHeight : Int

/-- `init` of MPlayer: the pointers, if `mmap` succeeds, and the copies. -/
def mplayerInit (width height : Int) (mapped : Bool) (bih : Bih) : Option InputArea × List Copy :=
  if mapped then
    let area := some (clientArea width height)
    (area, if bih.biWidth ≠ 0 ∧ bih.biHeight ≠ 0 then [⟨area, 0, bih.biSize⟩] else [])
  else (none, [])

/-- `decode` of MPlayer. -/
def mplayerDecode (area : Option InputArea) (len : Int) : List Copy :=
  if len ≤ 0 then [] else [⟨area, 0, len.toNat⟩]

/-- MPlayer from start-up, where the wait for the server returned `wait`; it decodes
if `init` succeeded. -/
def mplayer (width height : Int) (mapped : Bool) (wait : Int) (bih : Bih) (lens : List Int) : List Copy :=
  let (area, header) := mplayerInit width height mapped bih
  header ++ if mapped ∧ 0 < wait then lens.flatMap (mplayerDecode area) else []

/-- `DecodeDirectShowVideo` of MythTV. -/
def mythtvDecode (area : Option InputArea) (bufSize : Nat) : Copy := ⟨area, 0, bufSize⟩

/-- MythTV from start-up. It decodes whenever `ds_mpi` was allocated, also
where `mmap` failed. -/
def mythtv (width height : Int) (mapped : Bool) (sizes : List Nat) : List Copy :=
  sizes.map (mythtvDecode (if mapped then some (clientArea width height) else none))

/-! ## xine -/

/-- `sizeof(xine_bmiheader)`. -/
def sizeofBmiheader : Nat := 40

/-- A `buf_element_t`, with what the calls on it return. -/
structure XineBuf where
  preview : Bool
  stdheader : Bool
  frameEnd : Bool
  /-- `decoder_info[2]` of a special buffer with the decoder's configuration. -/
  config : Option Nat
  type : Nat
  size : Nat
  /-- The content, read as a header. -/
  bih : Bih
  /-- The size in the sequence parameter set the parser has reached. -/
  sps : Option (Int × Int)
  /-- `mmap` succeeds. -/
  mapped : Bool
  /-- What `timed_semwait` returns at the first packet, where it waits for the server. -/
  wait : Int

/-- What xine's decoder is given: a buffer, or a seek. -/
inductive XineCall
  | decodeData (buf : XineBuf)
  | reset

/-- The fields of `dshowserver_decoder_t`. -/
structure Xine where
  decoderOk : Bool
  decoderInitialized : Bool
  streamId : Int
  size : Nat
  width : Int
  height : Int
  /-- `biSize` of the header. -/
  bih : Option Nat
  /-- `extradata_size`, if there is extradata. -/
  extradata : Option Nat
  area : Option InputArea

namespace Xine

/-- `open_plugin`: the memory is cleared. -/
def openPlugin : Xine := ⟨false, false, 0, 0, 0, 0, none, none, none⟩

/-- The extradata of a special buffer, the first time. -/
def storeExtradata (x : Xine) (buf : XineBuf) : Xine :=
  match buf.config with
  | some n => if x.extradata.getD 0 = 0 then { x with extradata := some n } else x
  | none => x

/-- The size that the parser finds, before there is a header. -/
def sizeFromNal (x : Xine) (buf : XineBuf) : Option (Int × Int) :=
  if ¬ x.decoderOk ∧ ¬ buf.stdheader then buf.sps else none

/-- The branch that reads a header. -/
def processHeader (x : Xine) (buf : XineBuf) : Xine :=
  let x := match x.sizeFromNal buf with
    | some (width, height) => { x with width := width, height := height }
    | none => { x with
      bih := some buf.bih.biSize, width := buf.bih.biWidth, height := buf.bih.biHeight }
  if buf.type &&& 0xff ≠ 0 then x else { x with decoderOk := true }

/-- `make_bih`, where there is extradata. -/
def makeBih (x : Xine) : Option Nat :=
  match x.extradata with
  | some n => some (sizeofBmiheader + n)
  | none => x.bih

/-- The header that is embedded: one with extradata. -/
def embedded (x : Xine) : Option Nat := x.makeBih.filter (sizeofBmiheader < ·)

/-- The initialisation at the first packet: the copies, and whether the packet
is decoded. -/
def initDecoder (x : Xine) (buf : XineBuf) : List Copy × Xine × Bool :=
  if x.decoderInitialized then ([], x, true)
  else if buf.mapped then
    let area := some (clientArea x.width x.height)
    (x.embedded.toList.map fun n => ⟨area, 0, n⟩,
      { x with decoderInitialized := true, area := area, bih := x.makeBih }, decide (buf.wait = 0))
  else ([], { x with decoderInitialized := true }, false)

/-- The packet is appended, and a frame that it ends is handed over. -/
def append (x : Xine) (buf : XineBuf) : List Copy × Xine :=
  let x := if x.streamId < 0 then { x with streamId := (buf.type &&& 0xff : Nat) } else x
  if x.streamId ≠ (buf.type &&& 0xff : Nat) then ([], x)
  else ([⟨x.area, x.size, buf.size⟩], { x with size := if buf.frameEnd then 0 else x.size + buf.size })

/-- `dshowserver_decode_data`. -/
def decodeData (x : Xine) (buf : XineBuf) : List Copy × Xine :=
  if buf.preview then ([], x)
  else
    let x := x.storeExtradata buf
    if x.decoderOk then
      let (header, x, go) := x.initDecoder buf
      if go then
        let (packet, x) := x.append buf
        (header ++ packet, x)
      else (header, x)
    else if buf.stdheader ∨ (x.sizeFromNal buf).isSome then ([], x.processHeader buf)
    else ([], x)

/-- A call; `dshowserver_reset` keeps what has been appended. -/
def step (x : Xine) : XineCall → List Copy × Xine
  | .decodeData buf => x.decodeData buf
  | .reset => ([], x)

/-- The copies of a run. -/
def copies : Xine → List XineCall → List Copy
  | _, [] => []
  | x, c :: calls => (x.step c).1 ++ copies (x.step c).2 calls

/-! ## The condition -/

/-- The first packet, where the segment is mapped. -/
def Starts (x : Xine) (buf : XineBuf) : Prop :=
  ¬ buf.preview ∧ x.decoderOk ∧ ¬ x.decoderInitialized ∧ buf.mapped

/-- A packet of the decoder's stream, which is copied. -/
def Takes (x : Xine) (buf : XineBuf) : Prop :=
  ¬ buf.preview ∧ x.decoderOk ∧ (x.decoderInitialized ∨ buf.mapped ∧ buf.wait = 0) ∧
    (x.streamId < 0 ∨ x.streamId = (buf.type &&& 0xff : Nat))

instance (x : Xine) (buf : XineBuf) : Decidable (x.Starts buf) := instDecidableAnd

instance (x : Xine) (buf : XineBuf) : Decidable (x.Takes buf) := instDecidableAnd

/-- The area a packet goes to. -/
def areaFor (x : Xine) : Option InputArea :=
  if x.decoderInitialized then x.area else some (clientArea x.width x.height)

/-- The header fits into the area, and the packet does behind what has been
appended of its frame. -/
def Fits (x : Xine) : XineCall → Prop
  | .decodeData buf =>
    (x.Starts buf → ∀ n ∈ (x.storeExtradata buf).embedded, Holds x.areaFor n) ∧
      (x.Takes buf → 0 < buf.size → Holds x.areaFor (x.size + buf.size))
  | .reset => True

end Xine

/-! ## One copy -/

theorem inside_iff {c : Copy} : c.Inside ↔ (0 < c.length → Holds c.area (c.offset + c.length)) := by
  constructor
  · intro h hl
    obtain ⟨a, ha, hlt⟩ := h (c.length - 1) (by omega)
    exact ⟨a, ha, by omega⟩
  · intro h i hi
    obtain ⟨a, ha, hle⟩ := h (by omega)
    exact ⟨a, ha, by omega⟩

/-- A copy of a positive length to the start of a mapped area. -/
theorem holds_clientArea {width height : Int} {n : Nat} :
    Holds (some (clientArea width height)) n ↔ n ≤ int32 (width * height) := by
  simp only [Holds, Option.some.injEq, clientArea]
  constructor
  · rintro ⟨_, rfl, h⟩
    simp only at h
    omega
  · exact fun h => ⟨_, rfl, by simp only; omega⟩

/-- What fits after `m` bytes fits at the start. -/
theorem Holds.mono {area : Option InputArea} {m n : Nat} (h : Holds area n) (hm : m ≤ n) :
    Holds area m := by
  obtain ⟨a, ha, hle⟩ := h
  exact ⟨a, ha, by omega⟩

/-! ## One buffer in xine -/

namespace Xine

variable {x : Xine} {buf : XineBuf}

/-- `storeExtradata` stores the extradata. -/
theorem storeExtradata_eq (x : Xine) (buf : XineBuf) :
    ∃ n, x.storeExtradata buf = { x with extradata := n } := by
  rw [storeExtradata]
  split
  · split
    · exact ⟨_, rfl⟩
    · exact ⟨x.extradata, rfl⟩
  · exact ⟨x.extradata, rfl⟩

/-- The copy of a packet. -/
theorem append_copies (x : Xine) (buf : XineBuf) :
    (x.append buf).1 =
      if x.streamId < 0 ∨ x.streamId = (buf.type &&& 0xff : Nat) then [⟨x.area, x.size, buf.size⟩]
      else [] := by
  by_cases hs : x.streamId < 0
  · simp [append, hs]
  · simp only [append, hs, if_false, false_or]
    by_cases ht : x.streamId = (buf.type &&& 0xff : Nat)
    · rw [if_neg (not_not.mpr ht), if_pos ht]
    · rw [if_pos (show x.streamId ≠ _ from ht), if_neg ht]

theorem decodeData_copies (x : Xine) (buf : XineBuf) :
    (x.decodeData buf).1 =
      (if x.Starts buf then (x.storeExtradata buf).embedded.toList.map fun n => ⟨x.areaFor, 0, n⟩ else []) ++
        if x.Takes buf then [⟨x.areaFor, x.size, buf.size⟩] else [] := by
  obtain ⟨n, e⟩ := storeExtradata_eq x buf
  simp only [decodeData, e, Starts, Takes, areaFor, initDecoder]
  by_cases hp : buf.preview
  · simp [hp]
  by_cases hok : x.decoderOk
  · by_cases hi : x.decoderInitialized
    · simp [hp, hok, hi, append_copies]
    · by_cases hm : buf.mapped
      · by_cases hst : buf.wait = 0 <;> simp [hp, hok, hi, hm, hst, append_copies]
      · simp [hp, hok, hi, hm]
  · simp only [hp, hok, Bool.false_eq_true, if_false, false_and, and_false, List.append_nil]
    split <;> rfl

/-- A call's copies stay inside the area exactly when header and packet fit. -/
theorem fits_iff (x : Xine) (c : XineCall) : (∀ cp ∈ (x.step c).1, cp.Inside) ↔ x.Fits c := by
  cases c with
  | reset => exact ⟨fun _ => trivial, fun _ _ h => by cases h⟩
  | decodeData buf =>
    simp only [step, decodeData_copies, List.mem_append, or_imp, forall_and, Fits]
    refine and_congr ?_ ?_
    · by_cases hs : x.Starts buf
      · have hpos : ∀ n ∈ (x.storeExtradata buf).embedded, 0 < n := fun n hn =>
          Nat.zero_lt_of_lt (of_decide_eq_true (Option.mem_filter_iff.mp hn).2)
        simp only [hs, if_true, List.mem_map, Option.mem_toList, forall_exists_index, and_imp,
          forall_apply_eq_imp_iff₂, inside_iff, Nat.zero_add, true_imp_iff]
        exact forall₂_congr fun n hn => ⟨fun h => h (hpos n hn), fun h _ => h⟩
      · simp [hs]
    · by_cases ht : x.Takes buf
      · simp [ht, inside_iff]
      · simp [ht]

/-- The state after a call. -/
def next (x : Xine) (c : XineCall) : Option Xine := some (x.step c).2

/-- The same over a run. -/
theorem run_fits_iff (x : Xine) (calls : List XineCall) :
    (∀ cp ∈ x.copies calls, cp.Inside) ↔ Meets next Fits x calls := by
  induction calls generalizing x with
  | nil => exact ⟨fun _ => trivial, fun _ _ h => by cases h⟩
  | cons c calls ih =>
    simp only [copies, List.mem_append, or_imp, forall_and, fits_iff, ih, meets_cons, next,
      Option.some.injEq, forall_eq']

/-- Where the wait is that of a host for its connection, the first packet is not
copied, whether or not the server comes. -/
theorem first_packet (hx : ¬ x.decoderInitialized) {sockfd : Int} {errno : Nat} {k : Answers}
    (hw : buf.wait = (timedSemwait (.start true sockfd errno) k).1) : ¬ x.Takes buf := by
  rintro ⟨-, -, h | ⟨-, h⟩, -⟩
  · exact hx h
  · rw [h] at hw
    rcases timedSemwait_connects sockfd errno k with h | h <;> rw [h] at hw <;> cases hw

/-! ## Frames in xine -/

/-- The bytes of each frame, the first of which continues `n` bytes and the
last of which may be unfinished. -/
def frameSizes (stream : Int) : Nat → List XineCall → List Nat
  | n, [] => [n]
  | n, .reset :: calls => frameSizes stream n calls
  | n, .decodeData buf :: calls =>
    if buf.preview ∨ stream ≠ (buf.type &&& 0xff : Nat) then frameSizes stream n calls
    else if buf.frameEnd then (n + buf.size) :: frameSizes stream 0 calls
    else frameSizes stream (n + buf.size) calls

/-- A frame holds at least what it continues. -/
theorem exists_frameSizes (stream : Int) (n : Nat) (calls : List XineCall) :
    ∃ m ∈ frameSizes stream n calls, n ≤ m := by
  induction calls generalizing n with
  | nil => exact ⟨n, List.mem_singleton_self n, Nat.le_refl n⟩
  | cons c calls ih =>
    cases c with
    | reset => exact ih n
    | decodeData buf =>
      rw [frameSizes]
      split
      · exact ih n
      split
      · exact ⟨_, List.mem_cons_self, Nat.le_add_right ..⟩
      · obtain ⟨m, hm, hle⟩ := ih (n + buf.size)
        exact ⟨m, hm, by omega⟩

/-- A decoder that is past its first packet. -/
@[mk_iff started_iff]
structure Started (x : Xine) : Prop where
  ok : x.decoderOk = true
  initialized : x.decoderInitialized = true
  stream : 0 ≤ x.streamId

/-- The buffer is not for the decoder. -/
def Skips (x : Xine) (buf : XineBuf) : Prop :=
  buf.preview ∨ x.streamId ≠ (buf.type &&& 0xff : Nat)

instance (x : Xine) (buf : XineBuf) : Decidable (x.Skips buf) := instDecidableOr

theorem Started.takes_iff (h : x.Started) : x.Takes buf ↔ ¬ x.Skips buf := by
  have hs : ¬ x.streamId < 0 := by have := h.stream; omega
  simp [Takes, Skips, h.ok, h.initialized, hs]

/-- The bytes appended after the buffer. -/
def sizeAfter (x : Xine) (buf : XineBuf) : Nat :=
  if x.Skips buf then x.size else if buf.frameEnd then 0 else x.size + buf.size

/-- It stays so, with the stream and the area it has. -/
theorem Started.decodeData (h : x.Started) (buf : XineBuf) :
    (x.decodeData buf).2.Started ∧ (x.decodeData buf).2.streamId = x.streamId ∧
      (x.decodeData buf).2.area = x.area ∧ (x.decodeData buf).2.size = x.sizeAfter buf := by
  obtain ⟨n, e⟩ := storeExtradata_eq x buf
  have hs : ¬ x.streamId < 0 := by have := h.stream; omega
  simp only [Xine.decodeData, e, h.ok, h.initialized, initDecoder, append, hs, if_true, if_false, sizeAfter,
    Skips]
  by_cases hp : buf.preview
  · simp [hp, h]
  · by_cases ht : x.streamId = (buf.type &&& 0xff : Nat)
    · simp [hp, ht, started_iff]
    · simp [hp, ht, started_iff, h.stream]

/-- **Frames in xine.** For a decoder past its first packet, whatever buffers
and seeks follow, the copies stay inside the area exactly when each frame fits
into it as a whole. -/
theorem frames_fit_iff (h : x.Started) (hx : Holds x.area x.size) (calls : List XineCall) :
    (∀ cp ∈ x.copies calls, cp.Inside) ↔
      ∀ n ∈ frameSizes x.streamId x.size calls, Holds x.area n := by
  induction calls generalizing x with
  | nil => simpa [copies, frameSizes] using hx
  | cons c calls ih =>
    cases c with
    | reset => exact ih h hx
    | decodeData buf =>
      obtain ⟨hy, hstream, harea, hsize⟩ := h.decodeData buf
      have hi : ¬ x.Starts buf := fun hst => hst.2.2.1 h.initialized
      have hfor : x.areaFor = x.area := if_pos h.initialized
      simp only [copies, step, decodeData_copies, hi, hfor, h.takes_iff, if_false, List.nil_append]
      generalize (x.decodeData buf).2 = y at *
      specialize ih hy
      rw [hstream, harea, hsize] at ih
      rw [frameSizes]
      by_cases hsk : x.Skips buf
      · rw [if_pos (show _ ∨ _ from hsk)]
        simp only [sizeAfter, hsk, if_true] at ih
        simp only [hsk, not_true_eq_false, if_false, List.nil_append]
        exact ih hx
      rw [if_neg (show ¬ (_ ∨ _) from hsk)]
      simp only [sizeAfter, hsk, if_false] at ih
      simp only [hsk, not_false_eq_true, if_true, List.singleton_append, List.forall_mem_cons]
      rw [inside_iff]
      by_cases hf : buf.frameEnd
      · simp only [hf, if_true, List.forall_mem_cons] at ih ⊢
        refine and_congr ⟨fun hfit => ?_, fun hfit _ => hfit⟩ (ih (hx.mono (Nat.zero_le _)))
        rcases Nat.eq_zero_or_pos buf.size with h₀ | hpos
        · rw [h₀]; exact hx
        · exact hfit hpos
      · simp only [hf, Bool.false_eq_true, if_false] at ih ⊢
        by_cases hfit : Holds x.area (x.size + buf.size)
        · rw [← ih hfit]
          exact and_iff_right fun _ => hfit
        · refine iff_of_false (fun hc => ?_) fun hc => ?_
          · rcases Nat.eq_zero_or_pos buf.size with h₀ | hpos
            · exact hfit (by rw [h₀]; exact hx)
            · exact hfit (hc.1 hpos)
          · obtain ⟨m, hm, hle⟩ := exists_frameSizes x.streamId (x.size + buf.size) calls
            exact hfit ((hc m hm).mono hle)

end Xine

/-! ## All clients -/

/-- `n` bytes are none, or at most as many as the area has. -/
def FitsArea (width height : Int) (n : Nat) : Prop := 0 < n → n ≤ int32 (width * height)

/-- What MPlayer copies fits: the header if it is embedded, and the packets if
they are decoded. -/
structure MplayerFits (width height : Int) (mapped : Bool) (wait : Int) (bih : Bih) (lens : List Int) :
    Prop where
  header : mapped → bih.biWidth ≠ 0 ∧ bih.biHeight ≠ 0 → FitsArea width height bih.biSize
  packets : mapped → 0 < wait → ∀ len ∈ lens, FitsArea width height len.toNat

/-- What MythTV copies fits, and there is a segment for it. -/
def MythtvFits (width height : Int) (mapped : Bool) (sizes : List Nat) : Prop :=
  ∀ n ∈ sizes, 0 < n → mapped ∧ FitsArea width height n

theorem inside_start {width height : Int} {n : Nat} :
    (⟨some (clientArea width height), 0, n⟩ : Copy).Inside ↔ FitsArea width height n := by
  rw [inside_iff, Nat.zero_add]
  exact imp_congr_right fun _ => holds_clientArea

theorem mplayer_inside_iff {width height : Int} {mapped : Bool} {wait : Int} {bih : Bih} {lens : List Int} :
    (∀ c ∈ mplayer width height mapped wait bih lens, c.Inside) ↔
      MplayerFits width height mapped wait bih lens := by
  cases mapped with
  | false =>
    refine ⟨fun _ => ⟨fun h => (by cases h), fun h => (by cases h)⟩, fun _ c hc => ?_⟩
    simp [mplayer, mplayerInit] at hc
  | true =>
    have hdecode : ∀ len : Int, (∀ c ∈ mplayerDecode (some (clientArea width height)) len, c.Inside) ↔
        FitsArea width height len.toNat := fun len => by
      rw [mplayerDecode]
      split
      · exact ⟨fun _ hpos => by omega, fun _ c hc => by cases hc⟩
      · rw [List.forall_mem_singleton, inside_start]
    simp only [mplayer, mplayerInit, if_true, true_and, List.mem_append, or_imp, forall_and]
    refine Iff.trans (and_congr ?_ ?_) ⟨fun h => ⟨fun _ => h.1, fun _ => h.2⟩, fun h => ⟨h.1 rfl, h.2 rfl⟩⟩
    · by_cases hb : bih.biWidth ≠ 0 ∧ bih.biHeight ≠ 0
      · rw [if_pos hb, List.forall_mem_singleton, inside_start]
        exact ⟨fun h _ => h, fun h => h hb⟩
      · rw [if_neg hb]
        exact ⟨fun _ h => absurd h hb, fun _ c hc => by cases hc⟩
    · by_cases hwait : 0 < wait
      · simp only [hwait, if_true, List.mem_flatMap, forall_exists_index, and_imp, true_imp_iff]
        rw [forall_comm]
        exact forall_congr' fun len => by rw [← hdecode]; exact ⟨fun h hl c => h c hl, fun h c hl => h hl c⟩
      · rw [if_neg hwait]
        exact ⟨fun _ h => absurd h hwait, fun _ c hc => by cases hc⟩

theorem mythtv_inside_iff {width height : Int} {mapped : Bool} {sizes : List Nat} :
    (∀ c ∈ mythtv width height mapped sizes, c.Inside) ↔ MythtvFits width height mapped sizes := by
  simp only [mythtv, List.forall_mem_map, mythtvDecode, MythtvFits]
  refine forall₂_congr fun n _ => ?_
  cases mapped with
  | false => simp [inside_iff, Holds]
  | true =>
    simp only [if_true, inside_start, true_and]
    exact ⟨fun h _ => h, fun h hpos => h hpos hpos⟩

/-- **When the copies stay inside the input area.** For every size and every
sequence of packets, exactly when each packet that MPlayer or MythTV copies and
each header that MPlayer embeds has at most `width * height` bytes (as an
`int`), and in xine, from `open_plugin` on, the embedded header does and every
buffer together with what was appended before it. -/
theorem input_area_iff (width height : Int) :
    (∀ mapped wait bih lens, (∀ c ∈ mplayer width height mapped wait bih lens, c.Inside) ↔
      MplayerFits width height mapped wait bih lens) ∧
    (∀ mapped sizes, (∀ c ∈ mythtv width height mapped sizes, c.Inside) ↔
      MythtvFits width height mapped sizes) ∧
    ∀ calls, (∀ c ∈ Xine.openPlugin.copies calls, c.Inside) ↔
      Meets Xine.next Xine.Fits Xine.openPlugin calls :=
  ⟨fun _ _ _ _ => mplayer_inside_iff, fun _ _ => mythtv_inside_iff, fun _ => Xine.run_fits_iff _ _⟩

/-- The server connects. -/
def accepted : Answers := ⟨.ok 1, .ok 4, .ok 0, .ok 0, .ok 0, .ok 0⟩

/-- Pictures of 16 by 16: a packet of 300 bytes is past the area, and so is the
second of two buffers of 200 that follow xine's first packet. -/
theorem not_inside :
    (∃ c ∈ mplayer 16 16 true (timedSemwait (.start true 3 0) accepted).1 ⟨40, 16, 16⟩ [300], ¬ c.Inside) ∧
    (∃ c ∈ mythtv 16 16 true [300], ¬ c.Inside) ∧
    ∃ c ∈ Xine.openPlugin.copies
      [.decodeData ⟨false, true, true, none, 0, 40, ⟨40, 16, 16⟩, none, true, 1⟩,
        .decodeData ⟨false, false, true, none, 0, 200, ⟨0, 0, 0⟩, none, true,
          (timedSemwait (.start true 3 0) accepted).1⟩,
        .decodeData ⟨false, false, false, none, 0, 200, ⟨0, 0, 0⟩, none, true, 1⟩,
        .decodeData ⟨false, false, true, none, 0, 200, ⟨0, 0, 0⟩, none, true, 1⟩], ¬ c.Inside := by
  refine ⟨⟨⟨some (clientArea 16 16), 0, 300⟩, by decide, fun h => ?_⟩,
    ⟨⟨some (clientArea 16 16), 0, 300⟩, by decide, fun h => ?_⟩,
    ⟨⟨some (clientArea 16 16), 200, 200⟩, by decide, fun h => ?_⟩⟩
  all_goals exact absurd (inside_iff.mp h) (by decide)

end DShow.Protocol
