import DShowServer.Decoder.Reconnect

/-!
# The reply to a reload (`VD_RELOAD_BIH`)

A reload replies 0 once the size is the old one, whatever becomes of the
connections, and the input pin keeps the type it was created with
(`serve_ourInput`). So the reply says what happened if all goes well and the
new type is that of the start, and in no other case (`reports_iff`).
-/

namespace DShow.Decoder

open Pool Alloc DShow.Protocol Run

instance (calls : List CodecCall) (pmt : AmMediaType) : Decidable (Reconnected calls pmt) :=
  decidable_of_iff (.receiveInput pmt true ∈ calls ∧
      ∃ c ∈ calls, (match c with | .receiveOutput _ ok => ok | _ => false) = true) (by
    refine and_congr_right fun _ => ⟨?_, fun ⟨dest, h⟩ => ⟨_, h, rfl⟩⟩
    rintro ⟨c, hc, h⟩
    cases c with
    | receiveOutput dest ok => obtain rfl : ok = true := h; exact ⟨dest, hc⟩
    | _ => cases h)

/-- `CInputPin_ConnectionMediaType` of our input pin. -/
def DsVideoDecoder.connectionMediaType (d : DsVideoDecoder) : AmMediaType := d.m_pDS_Filter.m_pOurInput

namespace Server

variable {s s' : Server} {format : InputFormat} {ans : FormatAnswer}

/-- The reload reports what happened: there is a reply, it is 0 exactly if both pins were
connected with the type built from the new header, our pin then reports that type, and with
another reply the input type and the connections are as before. -/
def Reports (s : Server) (format : InputFormat) (ans : FormatAnswer) : Prop :=
  match s.reloadBih format ans with
  | none => False
  | some (ret, calls, s') =>
    (ret = 0 ↔ ∃ pmt ∈ format.ourType, Reconnected calls pmt) ∧
    (ret = 0 → format.ourType = some s'.dshowdec.connectionMediaType) ∧
    (ret ≠ 0 → s'.dshowdec.m_sOurType = s.dshowdec.m_sOurType ∧
      s'.dshowdec.m_pDS_Filter.m_pInputPin = s.dshowdec.m_pDS_Filter.m_pInputPin ∧
      s'.dshowdec.m_pDS_Filter.m_pOutputPin = s.dshowdec.m_pDS_Filter.m_pOutputPin)

instance : Decidable (s.Reports format ans) := by
  unfold Reports
  split <;> infer_instance

/-- All goes well: the new header gives the type of the first one, the codec accepts the format
and both connections, and there is memory for the allocator, and for its block if the decoder
is to run again. -/
def AllConnected (s : Server) (first format : InputFormat) (ans : FormatAnswer) : Prop :=
  format.ourType ≠ none ∧ format.ourType = first.ourType ∧ s.dshowdec.accepts s.fmt ans ∧ ans.connects ∧
    (s.dshowdec.m_State = .start → ans.blocks.head? ≠ some 0)

/-- A change of the format goes through if the new sample gets a block. -/
theorem setDestFmt_isSome {d : DsVideoDecoder} {bits : Int} {csp : Nat} :
    (d.setDestFmt bits csp ans).isSome ↔ (d.accepts csp ans → ans.connects → d.m_State = .start →
      ans.blocks.head? ≠ some 0) := by
  have h := congrArg Option.isSome (d.setDestFmt_supply bits csp ans)
  rw [Option.isSome_map] at h
  rw [h]
  simp only
  by_cases hacc : d.accepts csp ans
  · by_cases hrun : ans.connects ∧ d.m_State = .start
    · rw [if_neg (not_not_intro hacc), if_pos hrun, Option.isSome_map]
      simp only [hacc, hrun, forall_const]
      obtain ⟨hc, hb⟩ | ⟨a, hc, hb, -⟩ := Allocator.commit_create
        (requested d.m_obh bits csp).2.header.biSizeImage ans.blocks
      · simp [hc, hb]
      · simp [hc, hb]
    · rw [if_neg (not_not_intro hacc), if_neg hrun]
      simp only [Option.isSome_some, true_iff]
      exact fun _ h₁ h₂ => absurd ⟨h₁, h₂⟩ hrun
  · simp [hacc]

/-- A reload leaves the type alone that our pin reports. -/
theorem reloadBih_ourInput {ret : Int} {calls : List CodecCall}
    (h : s.reloadBih format ans = some (ret, calls, s')) :
    s'.dshowdec.connectionMediaType = s.dshowdec.connectionMediaType := by
  simp only [reloadBih] at h
  split at h
  · cases h; rfl
  simp only [Option.bind_eq_bind, Option.bind_eq_some_iff, Option.pure_def, Option.some.injEq,
    Prod.mk.injEq, DsVideoDecoder.setInputType, Option.map_eq_some_iff] at h
  obtain ⟨_, ⟨_, -, rfl⟩, ⟨ok, calls', d'⟩, hd, -, -, rfl⟩ := h
  exact (DsVideoDecoder.setDestFmt_keeps hd).2.2.1

/-- So does every command. -/
theorem serve_ourInput {c : Command} (h : s.serve c = some s') :
    s'.dshowdec.connectionMediaType = s.dshowdec.connectionMediaType := by
  unfold serve at h
  split at h
  · cases h
  cases c with
  | seek => cases h; rfl
  | reloadBih format ans =>
    change (s.reloadBih format ans).map _ = _ at h
    obtain ⟨⟨ret, calls, _⟩, hr, rfl⟩ := Option.map_eq_some_iff.mp h
    exact reloadBih_ourInput hr
  | decode pts src ans =>
    simp only [decode, DsVideoDecoder.decode, Option.map_eq_some_iff, Option.bind_eq_bind,
      Option.bind_eq_some_iff, Option.pure_def, Option.some.injEq] at h
    obtain ⟨_, ⟨_, ⟨_, -, _, -, _, -, rfl⟩, rfl⟩, rfl⟩ := h
    rfl
  | codecRelease =>
    simp only [DsVideoDecoder.codecRelease, Option.map_eq_some_iff, Option.bind_eq_bind,
      Option.bind_eq_some_iff, Option.pure_def, Option.some.injEq] at h
    obtain ⟨_, ⟨_, -, _, -, _, -, rfl⟩, rfl⟩ := h
    rfl

/-- The pin was created with the type of the first header. -/
theorem start_ourInput {width height bits fmt : Nat} {opened : OpenAnswer}
    (h : Server.start width height bits fmt format opened ans = some s) :
    format.ourType = some s.dshowdec.connectionMediaType := by
  simp only [Server.start, Option.bind_eq_bind, Option.bind_eq_some_iff, Option.pure_def,
    Option.some.injEq] at h
  obtain ⟨d₁, ho, ⟨ok, calls, d₂⟩, hd, ⟨run, d₃⟩, hs, rfl⟩ := h
  have h₂ := (DsVideoDecoder.setDestFmt_keeps hd).2.2.1
  have h₃ := (DsVideoDecoder.startInternal_rewired hs).keeps.ourInput
  rw [(DsVideoDecoder.openDecoder_filter ho).2.1]
  exact congrArg some (h₃.trans h₂).symm

/-- What a reload of the old size comes to. -/
theorem reports_same (hsize : ¬ s.otherSize format) : s.Reports format ans ↔
    format.ourType = some s.dshowdec.connectionMediaType ∧ s.dshowdec.accepts s.fmt ans ∧ ans.connects ∧
      (s.dshowdec.m_State = .start → ans.blocks.head? ≠ some 0) := by
  cases hour : format.ourType with
  | none => simp [Reports, reloadBih, if_neg hsize, DsVideoDecoder.setInputType, hour]
  | some pmt =>
    have hsome : (DsVideoDecoder.setDestFmt { s.dshowdec with m_bh := format.stored, m_sOurType := pmt }
        (int32 s.bits) s.fmt ans).isSome ↔ _ := setDestFmt_isSome
    change _ ↔ (s.dshowdec.accepts s.fmt ans → ans.connects → s.dshowdec.m_State = .start →
      ans.blocks.head? ≠ some 0) at hsome
    simp only [Reports, reloadBih, if_neg hsize, DsVideoDecoder.setInputType, hour, Option.map_some,
      Option.bind_eq_bind, Option.bind_some, Option.pure_def]
    cases hd : DsVideoDecoder.setDestFmt { s.dshowdec with m_bh := format.stored, m_sOurType := pmt }
        (int32 s.bits) s.fmt ans with
    | none =>
      rw [hd] at hsome
      simp only [Option.isSome_none, Bool.false_eq_true, false_iff] at hsome
      simp only [Option.bind_none, false_iff]
      exact fun ⟨_, h₁, h₂, h₃⟩ => hsome fun _ _ => h₃
    | some r =>
      obtain ⟨ok, calls, d'⟩ := r
      rw [hd] at hsome
      have hcon : Reconnected calls pmt ↔ _ := DsVideoDecoder.reconnected_iff hd
      change _ ↔ s.dshowdec.accepts s.fmt ans ∧ _ ∧ pmt = pmt at hcon
      have hkeep : d'.connectionMediaType = s.dshowdec.connectionMediaType :=
        (DsVideoDecoder.setDestFmt_keeps hd).2.2.1
      simp only [Option.isSome_some, true_iff] at hsome
      simp only [Option.bind_some, hkeep, Option.mem_def, Option.some.injEq, exists_eq_left', hcon,
        ne_eq, not_true_eq_false, false_implies, and_true, true_iff, forall_const]
      constructor
      · exact fun ⟨⟨h₁, h₂⟩, h⟩ => ⟨h, h₁, h₂, hsome h₁ h₂⟩
      · exact fun ⟨h, h₁, h₂, _⟩ => ⟨⟨h₁, h₂⟩, h⟩

/-- A reload of another size does nothing, and says so. -/
theorem reports_other (hsize : s.otherSize format) : s.Reports format ans := by
  simp [Reports, reloadBih, if_pos hsize, Reconnected]

end Server

end DShow.Decoder
