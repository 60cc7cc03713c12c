import DShowServer.Decoder.Sample

/-!
# A change of the format

What `SetDestFmt` does to the decoder: what it keeps (`setDestFmt_keeps`), which
connections it makes (`reconnected_iff`) and what it leaves the decoder to
decode with (`setDestFmt_supply`). A format that was asked for once stays the same
when it is asked for again (`requested_requested`).
-/

namespace DShow.Decoder

open Pool Alloc DShow.Protocol

/-- The codec accepts both connections, and there is memory for the allocator. -/
def FormatAnswer.connects (ans : FormatAnswer) : Bool := ans.input && ans.memory && ans.output

/-- Both pins have been connected, the input pin with this type. -/
def Reconnected (calls : List CodecCall) (pmt : AmMediaType) : Prop :=
  .receiveInput pmt true ∈ calls ∧ ∃ dest, .receiveOutput dest true ∈ calls

/-! ## The header asked for -/

theorem rgbHeader_rgbHeader (obh : BitmapInfo) (bits : Int) :
    rgbHeader (rgbHeader obh bits) bits = rgbHeader obh bits := by
  simp only [rgbHeader]
  by_cases h : bits = 15 ∨ bits = 16
  · simp only [if_pos h]
  · simp only [if_neg h]

theorem yuvHeader_yuvHeader (obh : BitmapInfo) (bits : Int) (csp : Nat) :
    yuvHeader (yuvHeader obh bits csp) bits csp = yuvHeader obh bits csp := by
  have hneg : ¬ 0 < (yuvHeader obh bits csp).header.biHeight ∨ csp = 0 ∨ csp = 3 := by
    simp only [yuvHeader]
    split <;> omega
  have hsame : (if csp ≠ 0 ∧ csp ≠ 3 ∧ 0 < (yuvHeader obh bits csp).header.biHeight then
      -(yuvHeader obh bits csp).header.biHeight else (yuvHeader obh bits csp).header.biHeight) =
      (yuvHeader obh bits csp).header.biHeight := if_neg (by omega)
  rw [yuvHeader, hsame]
  rfl

/-- The header that a format asks for asks for itself. -/
theorem requested_requested (obh : BitmapInfo) (bits : Int) (csp : Nat) :
    (requested (requested obh bits csp).2 bits csp).2 = (requested obh bits csp).2 := by
  by_cases hcsp : csp = 0
  · simp only [requested, if_pos hcsp]
    cases rgbSubtype bits with
    | none => rfl
    | some => exact rgbHeader_rgbHeader obh bits
  · simp only [requested, if_neg hcsp]
    match yuvSubtype csp with
    | none => rfl
    | some (_, false) => rfl
    | some (_, true) => exact yuvHeader_yuvHeader obh bits csp

namespace DsVideoDecoder

variable {d d' : DsVideoDecoder} {bits : Int} {csp : Nat} {ans : FormatAnswer} {ok : Bool}
  {calls : List CodecCall}

/-- The codec has accepted the format once, and does so again. -/
def accepts (d : DsVideoDecoder) (csp : Nat) (ans : FormatAnswer) : Bool :=
  shouldTest d.m_Caps csp && ans.queryAccept

/-- The decoder is opened stopped, with the input type on our pin and a new allocator. -/
theorem openDecoder_filter {format : InputFormat} {opened : OpenAnswer}
    (h : openDecoder format opened = some d) : d.m_State = .stop ∧
      format.ourType = some d.m_pDS_Filter.m_pOurInput ∧ ∃ n, d.m_pDS_Filter.m_pAll = some (.create n) := by
  simp only [openDecoder, Option.bind_eq_bind, Option.bind_eq_some_iff, Option.pure_def,
    Option.some.injEq] at h
  obtain ⟨ourType, hour, filter, hf, rfl⟩ := h
  rw [hour]
  simp only [dsFilterCreate] at hf
  split at hf
  · split at hf
    · split at hf <;> cases hf
      exact ⟨rfl, rfl, _, rfl⟩
    · cases hf
      exact ⟨rfl, rfl, _, rfl⟩
  · cases hf

/-! ## What is kept -/

/-- What a reconnection leaves alone. -/
structure Keeps (d d' : DsVideoDecoder) : Prop where
  ourType : d'.m_sOurType = d.m_sOurType
  obh : d'.m_obh = d.m_obh
  caps : d'.m_Caps = d.m_Caps
  ourInput : d'.m_pDS_Filter.m_pOurInput = d.m_pDS_Filter.m_pOurInput

/-- Only the state and the connections are others. -/
def Rewired (d d' : DsVideoDecoder) : Prop := ∃ state filter,
  d' = { d with m_State := state, m_pDS_Filter := filter } ∧
    filter.m_pOurInput = d.m_pDS_Filter.m_pOurInput

theorem Rewired.trans {d'' : DsVideoDecoder} (h : Rewired d d') (h' : Rewired d' d'') : Rewired d d'' := by
  obtain ⟨_, _, rfl, hin⟩ := h
  obtain ⟨_, _, rfl, hin'⟩ := h'
  exact ⟨_, _, rfl, hin'.trans hin⟩

theorem Rewired.keeps (h : Rewired d d') : Keeps d d' := by
  obtain ⟨_, _, rfl, hin⟩ := h
  exact ⟨rfl, rfl, rfl, hin⟩

theorem takeDown_rewired (d : DsVideoDecoder) : Rewired d d.takeDown.2 := by
  simp only [takeDown, stopInternal]
  split
  · split <;> exact ⟨_, _, rfl, rfl⟩
  · exact ⟨_, _, rfl, rfl⟩

theorem connect_rewired (d : DsVideoDecoder) (ans : FormatAnswer) : Rewired d (d.connect ans).2.2 := by
  simp only [connect]
  split_ifs <;> exact ⟨_, _, rfl, rfl⟩

theorem startInternal_rewired {blocks : List Nat} (h : d.startInternal blocks = some (calls, d')) :
    Rewired d d' := by
  simp only [startInternal, Option.bind_eq_bind, Option.bind_eq_some_iff] at h
  obtain ⟨_, -, _, -, h⟩ := h
  cases h
  exact ⟨_, _, rfl, rfl⟩

/-- A reconnection is one of the pins, and the start of the decoder if it ran. -/
theorem reconnect_cases (h : d.reconnect ans = some (ok, calls, d')) :
    ∃ run, calls = d.takeDown.1 ++ (d.takeDown.2.connect ans).2.1 ++ run ∧
      (run = [] ∧ d' = (d.takeDown.2.connect ans).2.2 ∨
        (d.takeDown.2.connect ans).2.2.startInternal ans.blocks = some (run, d')) := by
  simp only [reconnect, Option.pure_def] at h
  split at h
  · simp only [Option.bind_eq_bind, Option.bind_eq_some_iff] at h
    obtain ⟨⟨run, d''⟩, hs, h⟩ := h
    cases h
    exact ⟨run, rfl, .inr hs⟩
  · cases h
    exact ⟨[], (List.append_nil _).symm, .inl ⟨rfl, rfl⟩⟩

theorem reconnect_rewired (h : d.reconnect ans = some (ok, calls, d')) : Rewired d d' := by
  have hd := (takeDown_rewired d).trans (connect_rewired _ ans)
  obtain ⟨run, -, ⟨-, rfl⟩ | hs⟩ := reconnect_cases h
  · exact hd
  · exact hd.trans (startInternal_rewired hs)

/-- The decoder once a format is accepted, before its pins are connected again. -/
def acceptFormat (d : DsVideoDecoder) (bits : Int) (csp : Nat) : DsVideoDecoder :=
  let d := d.requestFormat bits csp
  { d with m_decoder := d.m_obh, m_bh := { d.m_bh with biBitCount := bits.bmod (2 ^ 16) } }

/-- A change of the format is refused, and the header of the last one put back, or accepted. -/
theorem setDestFmt_cases (h : d.setDestFmt bits csp ans = some (ok, calls, d')) :
    (¬ d.accepts csp ans ∧ ok = false ∧
      (∀ c ∈ calls, c = .queryAccept (d.requestFormat bits csp).m_sDestType ans.queryAccept) ∧
      d' = (d.requestFormat bits csp).useHeader d.m_decoder) ∨
    (d.accepts csp ans ∧ ∃ more, calls = .queryAccept (d.requestFormat bits csp).m_sDestType true :: more ∧
      (d.acceptFormat bits csp).reconnect ans = some (ok, more, d')) := by
  simp only [setDestFmt, Option.pure_def] at h
  split at h
  · rename_i hno
    simp only [Option.some.injEq, Prod.mk.injEq] at h
    obtain ⟨rfl, rfl, rfl⟩ := h
    refine .inl ⟨by simpa [accepts, requestFormat, useHeader] using hno, rfl, fun c hc => ?_, rfl⟩
    split at hc
    · exact List.mem_singleton.mp hc
    · cases hc
  · rename_i hacc
    rw [not_not] at hacc
    simp only [hacc, if_true, Option.bind_eq_bind, Option.bind_eq_some_iff, Option.some.injEq,
      Prod.mk.injEq] at h
    obtain ⟨⟨ok', more, d''⟩, hr, rfl, rfl, rfl⟩ := h
    exact .inr ⟨by simpa [accepts, requestFormat, useHeader] using hacc, more, rfl, hr⟩

/-- What a change of the format keeps, and the header it asks for. -/
theorem setDestFmt_keeps (h : d.setDestFmt bits csp ans = some (ok, calls, d')) :
    d'.m_sOurType = d.m_sOurType ∧ d'.m_Caps = d.m_Caps ∧
      d'.m_pDS_Filter.m_pOurInput = d.m_pDS_Filter.m_pOurInput ∧
      d'.m_obh = (requested d.m_obh bits csp).2 := by
  obtain ⟨-, -, -, rfl⟩ | ⟨-, more, -, hr⟩ := setDestFmt_cases h
  · exact ⟨rfl, rfl, rfl, rfl⟩
  · obtain ⟨h₁, h₂, h₃, h₄⟩ := (reconnect_rewired hr).keeps
    exact ⟨h₁, h₃, h₄, h₂⟩

/-! ## Which connections are made -/

theorem takeDown_calls (d : DsVideoDecoder) : ∀ c ∈ d.takeDown.1, c = .stop ∨ c = .disconnect := by
  simp only [takeDown, stopInternal]
  split
  · split <;> simp
  · simp

theorem startInternal_calls {blocks : List Nat} (h : d.startInternal blocks = some (calls, d')) :
    calls = [.run] := by
  simp only [startInternal, Option.bind_eq_bind, Option.bind_eq_some_iff] at h
  obtain ⟨_, -, _, -, h⟩ := h
  cases h
  rfl

theorem connect_ok (d : DsVideoDecoder) (ans : FormatAnswer) : (d.connect ans).1 = ans.connects := by
  simp only [connect, FormatAnswer.connects]
  split_ifs <;> simp_all

/-- Both pins are connected if nothing fails, and the input pin with the input type. -/
theorem connect_reconnected {pmt : AmMediaType} : Reconnected (d.connect ans).2.1 pmt ↔
    ans.connects ∧ pmt = d.m_sOurType := by
  simp only [connect, FormatAnswer.connects, Reconnected]
  split_ifs <;> simp_all

/-- Calls that are no connections do not matter. -/
theorem Reconnected.congr {pre mid post : List CodecCall} {pmt : AmMediaType}
    (h : ∀ c ∈ pre ++ post, ∀ t, c ≠ .receiveInput t true ∧ c ≠ .receiveOutput t true) :
    Reconnected (pre ++ mid ++ post) pmt ↔ Reconnected mid pmt := by
  have hmem : ∀ c, (∃ t, c = .receiveInput t true ∨ c = .receiveOutput t true) →
      (c ∈ pre ++ mid ++ post ↔ c ∈ mid) := by
    rintro c ⟨t, hc⟩
    have hno : c ∉ pre ++ post := fun hin => by have := h c hin t; tauto
    simp only [List.mem_append, not_or] at hno ⊢
    tauto
  simp only [Reconnected, hmem _ ⟨_, .inl rfl⟩, hmem _ ⟨_, .inr rfl⟩]

theorem reconnect_reconnected (h : d.reconnect ans = some (ok, calls, d')) {pmt : AmMediaType} :
    Reconnected calls pmt ↔ ans.connects ∧ pmt = d.m_sOurType := by
  obtain ⟨run, rfl, hrun⟩ := reconnect_cases h
  have hrun : ∀ c ∈ run, c = .run := by
    obtain ⟨rfl, -⟩ | hs := hrun
    · simp
    · rw [startInternal_calls hs]
      simp
  rw [Reconnected.congr, connect_reconnected, (takeDown_rewired d).keeps.ourType]
  intro c hc t
  obtain hc | hc := List.mem_append.mp hc
  · obtain rfl | rfl := takeDown_calls d c hc <;> simp
  · rw [hrun c hc]
    simp

/-- **The connections of a change of the format.** -/
theorem reconnected_iff (h : d.setDestFmt bits csp ans = some (ok, calls, d')) {pmt : AmMediaType} :
    Reconnected calls pmt ↔ d.accepts csp ans ∧ ans.connects ∧ pmt = d.m_sOurType := by
  obtain ⟨hno, -, hcalls, -⟩ | ⟨hacc, more, rfl, hr⟩ := setDestFmt_cases h
  · have hnone : ¬ .receiveInput pmt true ∈ calls := fun hin => nomatch hcalls _ hin
    simp only [Reconnected, hnone, hno, false_and, Bool.false_eq_true]
  · have : Reconnected more pmt ↔ _ := reconnect_reconnected hr
    rw [← List.append_nil (_ :: more), ← List.singleton_append, Reconnected.congr, this]
    · simp only [hacc, true_and]
      rfl
    · intro c hc t
      obtain rfl := List.mem_singleton.mp hc
      simp

/-! ## What is left to decode with -/

/-- The state and the allocator. -/
def supply (d : DsVideoDecoder) : DecodingState × Option Allocator := (d.m_State, d.m_pDS_Filter.m_pAll)

theorem takeDown_supply (d : DsVideoDecoder) :
    d.takeDown.2.supply = (.stop, if d.m_State = .start then none else d.m_pDS_Filter.m_pAll) := by
  simp only [takeDown, stopInternal, supply]
  cases hs : d.m_State with
  | start => cases ha : d.m_pDS_Filter.m_pAll <;> simp [setFilter, ha]
  | stop => simp [setFilter, hs]

theorem connect_supply (d : DsVideoDecoder) (ans : FormatAnswer) : (d.connect ans).2.2.supply =
    (d.m_State, if ¬ ans.input then d.m_pDS_Filter.m_pAll else if ¬ ans.memory then none
      else some (.create d.destSampleSize)) := by
  simp only [connect, supply]
  split_ifs <;> rfl

theorem startInternal_supply {all : Allocator} (h : d.m_pDS_Filter.m_pAll = some all) (blocks : List Nat) :
    (d.startInternal blocks).map (fun r => r.2.supply) = (all.commit blocks).map fun a => (.start, some a) := by
  simp only [startInternal, h, Option.bind_eq_bind, Option.bind_some, Option.map_bind]
  cases all.commit blocks <;> rfl

theorem takeDown_size (d : DsVideoDecoder) : d.takeDown.2.destSampleSize = d.destSampleSize := by
  simp only [takeDown, stopInternal]
  split
  · split <;> rfl
  · rfl

/-- The allocator there is where the pins were not connected. -/
def unconnected (d : DsVideoDecoder) (ans : FormatAnswer) (size : Int) : Option Allocator :=
  if ¬ ans.input then if d.m_State = .start then none else d.m_pDS_Filter.m_pAll
  else if ¬ ans.memory then none
  else some (.create size)

/-- A decoder that ran runs again once all is connected, with a new sample. Otherwise it is
stopped. -/
theorem reconnect_supply (d : DsVideoDecoder) (ans : FormatAnswer) :
    (d.reconnect ans).map (fun r => r.2.2.supply) =
      if ans.connects ∧ d.m_State = .start then
        ((Allocator.create d.destSampleSize).commit ans.blocks).map fun a => (.start, some a)
      else some (.stop, d.unconnected ans d.destSampleSize) := by
  have hd : (d.takeDown.2.connect ans).2.2.supply = (.stop, d.unconnected ans d.destSampleSize) := by
    have h := takeDown_supply d
    simp only [supply, Prod.mk.injEq] at h
    rw [connect_supply, takeDown_size, h.1, h.2]
    rfl
  simp only [reconnect, connect_ok, Option.pure_def]
  split
  · rename_i h
    have hin : ans.input ∧ ans.memory := by
      have := h.1
      simp only [FormatAnswer.connects, Bool.and_eq_true] at this
      exact this.1
    have hall : (d.takeDown.2.connect ans).2.2.m_pDS_Filter.m_pAll = some (.create d.destSampleSize) := by
      refine (congrArg Prod.snd hd).trans ?_
      simp [unconnected, hin]
    rw [← startInternal_supply hall]
    cases (d.takeDown.2.connect ans).2.2.startInternal ans.blocks <;> rfl
  · exact congrArg some hd

/-- **What a change of the format leaves to decode with.** -/
theorem setDestFmt_supply (d : DsVideoDecoder) (bits : Int) (csp : Nat) (ans : FormatAnswer) :
    (d.setDestFmt bits csp ans).map (fun r => r.2.2.supply) =
      let size := (requested d.m_obh bits csp).2.header.biSizeImage
      if ¬ d.accepts csp ans then some d.supply
      else if ans.connects ∧ d.m_State = .start then
        ((Allocator.create size).commit ans.blocks).map fun a => (.start, some a)
      else some (.stop, d.unconnected ans size) := by
  have hacc : (¬ (shouldTest (d.requestFormat bits csp).m_Caps csp ∧ ans.queryAccept)) ↔
      ¬ d.accepts csp ans := by simp [accepts, requestFormat, useHeader]
  simp only [setDestFmt, Option.pure_def]
  by_cases h : d.accepts csp ans
  · rw [if_neg (not_not_intro h), if_neg (hacc.not.mpr (not_not_intro h))]
    generalize hd : ({ d.requestFormat bits csp with m_decoder := _, m_bh := _ } : DsVideoDecoder) = d₁
    have hsize : d₁.destSampleSize = (requested d.m_obh bits csp).2.header.biSizeImage := by rw [← hd]; rfl
    have hsup : d₁.supply = d.supply := by rw [← hd]; rfl
    simp only [supply, Prod.mk.injEq] at hsup
    have hr := reconnect_supply d₁ ans
    simp only [hsize, unconnected, hsup.1, hsup.2] at hr
    rw [unconnected, ← hr]
    cases d₁.reconnect ans <;> rfl
  · rw [if_pos h, if_pos (hacc.mpr h)]
    rfl

/-- A decoder that was not started has no allocator but a new one. -/
theorem setDestFmt_new (hs : d.m_State = .stop)
    (hnew : ∀ a ∈ d.m_pDS_Filter.m_pAll, ∃ n, a = Allocator.create n)
    (h : d.setDestFmt bits csp ans = some (ok, calls, d')) :
    ∀ a ∈ d'.m_pDS_Filter.m_pAll, ∃ n, a = Allocator.create n := by
  have hsup := d.setDestFmt_supply bits csp ans
  have hno : ¬ (ans.connects ∧ d.m_State = .start) := by simp [hs]
  simp only [h, Option.map_some, if_neg hno] at hsup
  split at hsup
  · rw [Option.some.injEq, supply, supply, Prod.mk.injEq] at hsup
    rwa [hsup.2]
  · rw [Option.some.injEq, supply, Prod.mk.injEq] at hsup
    rw [hsup.2, unconnected, if_neg (show d.m_State ≠ .start by simp [hs])]
    rintro a ha
    split at ha
    · exact hnew a ha
    · split at ha <;> cases ha
      exact ⟨_, rfl⟩

end DsVideoDecoder

end DShow.Decoder
