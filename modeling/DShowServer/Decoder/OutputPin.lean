import DShowServer.Decoder.MediaType

/-!
# What the output pin accepts

`COutputPin_QueryAccept` and `COutputPin_ReceiveConnection` (`outputpin.c`) both refuse
a type whose major type or subtype is not the pin's, once `SetNewFormat` has set one.
`QueryAccept` then compares the format type with `FORMAT_VideoInfo` and
`FORMAT_VideoInfo2` the wrong way round: no type is both, so that it refuses nothing
more (`queryAccept_eq`), and accepts types of other formats (`negotiates_iff`).
-/

namespace DShow.Decoder

/-- `VFW_E_TYPE_NOT_ACCEPT`. -/
def vfwETypeNotAccept : BitVec 32 := 0x8004022A

/-- `COutputPin`: the address of its `type`, and what else the negotiation uses. -/
structure COutputPin where
  type : Nat
  restrictMediaType : Int
  remote : Nat

namespace COutputPin

/-- The check that both functions make, of a type against the pin's. -/
def refuses (op : COutputPin) (type pmt : MediaType) : Bool :=
  op.restrictMediaType ≠ 0 ∧ (pmt.majortype ≠ type.majortype ∨ pmt.subtype ≠ type.subtype)

/-- `COutputPin_QueryAccept`. -/
def queryAccept (h : Heap) (op : COutputPin) (pmt : Nat) : Option (BitVec 32) := do
  let type ← h.types.read op.type
  let pmt ← h.types.read pmt
  if op.refuses type pmt then pure sFalse
  else if pmt.formattype ≠ formatVideoInfo then pure sOk
  else if pmt.formattype ≠ formatVideoInfo2 then pure sOk
  else pure sFalse

/-- `COutputPin_ReceiveConnection`. -/
def receiveConnection (h : Heap) (op : COutputPin) (pConnector pmt : Nat) : Option (BitVec 32 × COutputPin) := do
  let type ← h.types.read op.type
  let pmt ← h.types.read pmt
  if op.refuses type pmt then pure (vfwETypeNotAccept, op)
  else pure (0, { op with remote := pConnector })

/-- `COutputPin_SetNewFormat`, which does not look at what `CopyMediaType` returns. -/
def setNewFormat (mem : Bool) (h : Heap) (op : COutputPin) (amt : Nat) : Option (Heap × COutputPin) := do
  let (_, h) ← copyMediaType mem h op.type amt
  pure (h, { op with restrictMediaType := 1 })

/-- A video format, and the pin's own major type and subtype if a format has been set. -/
def Fits (op : COutputPin) (type pmt : MediaType) : Prop :=
  (pmt.formattype = formatVideoInfo ∨ pmt.formattype = formatVideoInfo2) ∧
    (op.restrictMediaType ≠ 0 → pmt.majortype = type.majortype ∧ pmt.subtype = type.subtype)

/-- `QueryAccept` accepts what fits, and `ReceiveConnection` what `QueryAccept` accepts. -/
def Negotiates (h : Heap) (op : COutputPin) (pmt : Nat) (type m : MediaType) : Prop :=
  ∃ hr, op.queryAccept h pmt = some hr ∧ (hr = sOk ↔ op.Fits type m) ∧
    ∀ pConnector, ∃ hr' op', op.receiveConnection h pConnector pmt = some (hr', op') ∧
      (hr = sOk ↔ ¬ failed hr')

variable {h : Heap} {op : COutputPin} {pmt : Nat} {type m : MediaType}

theorem refuses_iff : op.refuses type m ↔ op.restrictMediaType ≠ 0 ∧
    (m.majortype ≠ type.majortype ∨ m.subtype ≠ type.subtype) := by
  rw [refuses, decide_eq_true_iff]

/-- No format type is equal to both, so that the second comparison lets through what the first
does not. -/
theorem queryAccept_eq (hop : h.types.read op.type = some type) (hpmt : h.types.read pmt = some m) :
    op.queryAccept h pmt = some (if op.refuses type m then sFalse else sOk) := by
  simp only [queryAccept, hop, hpmt, Option.pure_def, Option.bind_eq_bind, Option.bind_some]
  split
  · rfl
  · by_cases hf : m.formattype = formatVideoInfo
    · rw [if_neg (not_not.mpr hf), if_pos (by rw [hf]; decide)]
    · rw [if_pos hf]

theorem receiveConnection_eq (hop : h.types.read op.type = some type) (hpmt : h.types.read pmt = some m)
    (pConnector : Nat) : op.receiveConnection h pConnector pmt =
      some (if op.refuses type m then (vfwETypeNotAccept, op) else (0, { op with remote := pConnector })) := by
  simp only [receiveConnection, hop, hpmt, Option.pure_def, Option.bind_eq_bind, Option.bind_some]
  split <;> rfl

/-- The two entry points apply one rule. -/
theorem receives_iff (hop : h.types.read op.type = some type) (hpmt : h.types.read pmt = some m)
    (pConnector : Nat) : ∃ hr' op', op.receiveConnection h pConnector pmt = some (hr', op') ∧
      (op.refuses type m = false ↔ ¬ failed hr') := by
  rw [receiveConnection_eq hop hpmt]
  cases op.refuses type m with
  | false => exact ⟨_, _, rfl, by decide⟩
  | true => exact ⟨_, _, rfl, by decide⟩

theorem fits_iff (op : COutputPin) (type m : MediaType) : op.Fits type m ↔
    (m.formattype = formatVideoInfo ∨ m.formattype = formatVideoInfo2) ∧ op.refuses type m = false := by
  have hkeep : op.refuses type m = false ↔
      (op.restrictMediaType ≠ 0 → m.majortype = type.majortype ∧ m.subtype = type.subtype) := by
    rw [← Bool.not_eq_true, refuses_iff, not_and, not_or, not_not, not_not]
  rw [Fits, hkeep]

/-- What goes wrong is a type of another format that the pin does not refuse. -/
theorem negotiates_of_format (hop : h.types.read op.type = some type) (hpmt : h.types.read pmt = some m) :
    op.Negotiates h pmt type m ↔
      (op.refuses type m = false → m.formattype = formatVideoInfo ∨ m.formattype = formatVideoInfo2) := by
  have haccept : (if op.refuses type m then sFalse else sOk) = sOk ↔ op.refuses type m = false := by
    cases op.refuses type m <;> decide
  rw [Negotiates, queryAccept_eq hop hpmt]
  constructor
  · rintro ⟨hr, e, hrule, -⟩ hrefuse
    obtain rfl := Option.some.inj e
    exact ((fits_iff op type m).mp (hrule.mp (haccept.mpr hrefuse))).1
  · intro hformat
    refine ⟨_, rfl, ?_, fun pConnector => ?_⟩
    · rw [haccept, fits_iff]
      exact ⟨fun hrefuse => ⟨hformat hrefuse, hrefuse⟩, And.right⟩
    · obtain ⟨hr', op', hreceive, hiff⟩ := receives_iff hop hpmt pConnector
      exact ⟨hr', op', hreceive, haccept.trans hiff⟩

/-- The rule is the one wanted for the video formats, and where the type is refused anyway. -/
theorem negotiates_iff (hop : h.types.read op.type = some type) (hpmt : h.types.read pmt = some m) :
    op.Negotiates h pmt type m ↔
      m.formattype = formatVideoInfo ∨ m.formattype = formatVideoInfo2 ∨
        (op.restrictMediaType ≠ 0 ∧ (m.majortype ≠ type.majortype ∨ m.subtype ≠ type.subtype)) := by
  have hrefuses := @refuses_iff op type m
  rw [negotiates_of_format hop hpmt, ← Bool.not_eq_true, ← hrefuses]
  tauto

/-- Once a format was set, the pin's type is that format or, if it could not be copied, what it
was; and the restriction is on. -/
theorem setNewFormat_type (mem : Bool) {amt : Nat} (hop : h.types.read op.type = some type)
    (hamt : h.Holds amt m) (hne : amt ≠ op.type) : ∃ h' op' type',
      op.setNewFormat mem h amt = some (h', op') ∧ op'.type = op.type ∧ op'.restrictMediaType ≠ 0 ∧
      h'.types.read op.type = some type' ∧
      (type' = type ∨ type'.majortype = m.majortype ∧ type'.subtype = m.subtype) := by
  obtain ⟨hr, h', hcopy, hend⟩ := copy_ends mem hamt hop hne
  refine ⟨h', { op with restrictMediaType := 1 }, ?_⟩
  have hon : (1 : Int) ≠ 0 := Int.one_ne_zero
  have hset : op.setNewFormat mem h amt = some (h', { op with restrictMediaType := 1 }) := by
    simp [setNewFormat, hcopy]
  cases hend with
  | refused => exact ⟨type, hset, rfl, hon, hop, .inl rfl⟩
  | plain _ _ ht | noMemory _ _ ht | format _ _ _ ht =>
    exact ⟨_, hset, rfl, hon, ht, .inr ⟨rfl, rfl⟩⟩

/-- A pin whose type is at 1, where the types are those of `twoTypes`. -/
def pin (restrictMediaType : Int) : COutputPin := ⟨1, restrictMediaType, 0⟩

/-- A type like the one that was set. -/
theorem negotiates_same : (pin 1).Negotiates (twoTypes (videoType 0 0 0)) 2 (videoType 0 0 0) (videoType 0 0 0) :=
  (negotiates_iff rfl rfl).mpr (.inr (.inl rfl))

/-- The type of an input pin, which has another format. -/
def mpeg2Type : MediaType := { videoType 0 0 0 with formattype := formatMpeg2Video }

theorem not_negotiates : (pin 0).queryAccept (twoTypes mpeg2Type) 1 = some sOk ∧
    ¬ (pin 0).Negotiates (twoTypes mpeg2Type) 1 mpeg2Type mpeg2Type := by
  have hformat : ¬ (mpeg2Type.formattype = formatVideoInfo ∨ mpeg2Type.formattype = formatVideoInfo2) := by
    decide
  rw [queryAccept_eq rfl rfl, negotiates_of_format rfl rfl]
  exact ⟨rfl, fun h => hformat (h rfl)⟩

end COutputPin

end DShow.Decoder
