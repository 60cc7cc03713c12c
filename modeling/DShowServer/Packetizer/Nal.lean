import DShowServer.Packetizer.Model

/-!
# Start codes and NAL units

What `seek_for_nal` finds (`seekForNal_some`, `seekForNal_none`) and what
`parse_nal` says of a NAL unit (`parseNal_spec`): whether it begins a frame
depends on the type in its first byte alone, since after a slice the comparison
with the last one has no consequence. Both always return where every byte may
be read.
-/

namespace DShow.Packetizer

/-! ## Start codes -/

/-- A start code. -/
def Code (m : Memory) (a : Nat) : Prop :=
  m a = some 0 ∧ m (a + 1) = some 0 ∧ m (a + 2) = some 0 ∧ m (a + 3) = some 1

/-- Start codes do not overlap. -/
theorem Code.add_four_le {m : Memory} {a b : Nat} (ha : Code m a) (hb : Code m b) (hlt : a < b) :
    a + 4 ≤ b := by
  by_contra hle
  obtain ⟨_, _, _, hone⟩ := ha
  obtain ⟨h0, h1, h2, _⟩ := hb
  have hne : (some 1 : Option UInt8) ≠ some 0 := by decide
  rcases (by omega : b = a + 3 ∨ b = a + 2 ∨ b = a + 1) with rfl | rfl | rfl
  · exact hne (hone.symm.trans h0)
  · exact hne (hone.symm.trans h1)
  · exact hne (hone.symm.trans h2)

/-- One comparison of a byte, and the ones behind it. -/
theorem check_spec {m : Memory} {a : Nat} {v : UInt8} {k : Probe Bool} {b : Bool}
    (h : (Probe.byte a >>= fun x => if x = v then k else pure false).run m = some b) :
    m a = some v ∧ k.run m = some b ∨ m a ≠ some v ∧ b = false := by
  obtain ⟨x, hx, h⟩ := Probe.bind_eq_some.mp h
  have hx : m a = some x := hx
  rw [Probe.run_ite] at h
  split at h
  · rename_i heq
    exact .inl ⟨heq ▸ hx, h⟩
  · rename_i hne
    exact .inr ⟨fun heq => hne (Option.some.inj (hx.symm.trans heq)), (Option.some.inj h).symm⟩

theorem isStartCode_iff {m : Memory} {a : Nat} {b : Bool} (h : (isStartCode a).run m = some b) :
    b = true ↔ Code m a := by
  rcases check_spec h with ⟨h0, h⟩ | ⟨h0, rfl⟩
  · rcases check_spec h with ⟨h1, h⟩ | ⟨h1, rfl⟩
    · rcases check_spec h with ⟨h2, h⟩ | ⟨h2, rfl⟩
      · obtain ⟨x, hx, h⟩ := Probe.bind_eq_some.mp h
        have hx : m (a + 3) = some x := hx
        rw [← Option.some.inj h, decide_eq_true_iff, Code, hx, Option.some.injEq]
        exact ⟨fun h => ⟨h0, h1, h2, h⟩, fun h => h.2.2.2⟩
      · exact ⟨fun h => (by cases h), fun h => absurd h.2.2.1 h2⟩
    · exact ⟨fun h => (by cases h), fun h => absurd h.2.1 h1⟩
  · exact ⟨fun h => (by cases h), fun h => absurd h.1 h0⟩

theorem isStartCode_total (a : Nat) : (isStartCode a).Total :=
  (Probe.Total.byte a).bind fun _ => .ite ((Probe.Total.byte _).bind fun _ => .ite
    ((Probe.Total.byte _).bind fun _ => .ite ((Probe.Total.byte _).bind fun _ => .pure _) (.pure _))
    (.pure _)) (.pure _)

/-- The search stops at the first start code. -/
theorem seekLoop_spec {m : Memory} {buf i n : Nat} {o : Option Nat}
    (h : (seekLoop buf i n).run m = some o) :
    match o with
    | some j => i ≤ j ∧ j < i + n ∧ Code m (buf + j) ∧ ∀ k, i ≤ k → k < j → ¬ Code m (buf + k)
    | none => ∀ k, i ≤ k → k < i + n → ¬ Code m (buf + k) := by
  induction n generalizing i with
  | zero =>
    cases h
    intro k hk hlt
    omega
  | succ n ih =>
    obtain ⟨b, hb, h⟩ := Probe.bind_eq_some.mp h
    have hb := isStartCode_iff hb
    rw [Probe.run_ite] at h
    split at h
    · rename_i hcode
      cases h
      exact ⟨Nat.le_refl i, by omega, hb.mp hcode, fun k hk hlt => absurd hk (Nat.not_le.mpr hlt)⟩
    · rename_i hcode
      -- the rounds behind the first
      have hfirst : ∀ {k}, i ≤ k → ¬ i + 1 ≤ k → ¬ Code m (buf + k) := by
        intro k hk hlt
        obtain rfl : k = i := by omega
        exact fun h => hcode (hb.mpr h)
      have hrest := ih h
      cases o with
      | some j =>
        obtain ⟨hle, hlt, hj, hbefore⟩ := hrest
        refine ⟨by omega, by omega, hj, fun k hk hkj => ?_⟩
        by_cases hk' : i + 1 ≤ k
        · exact hbefore k hk' hkj
        · exact hfirst hk hk'
      | none =>
        intro k hk hlt
        by_cases hk' : i + 1 ≤ k
        · exact hrest k hk' (by omega)
        · exact hfirst hk hk'

theorem seekLoop_total (buf i n : Nat) : (seekLoop buf i n).Total := by
  induction n generalizing i with
  | zero => exact .pure none
  | succ n ih => exact (isStartCode_total _).bind fun _ => .ite (.pure _) (ih _)

theorem seekForNal_some {m : Memory} {buf len j : Nat} (h : (seekForNal buf len).run m = some (some j)) :
    j + 4 ≤ len ∧ Code m (buf + j) ∧ ∀ k < j, ¬ Code m (buf + k) := by
  obtain ⟨_, hlt, hj, hbefore⟩ := seekLoop_spec h
  exact ⟨by omega, hj, fun k hk => hbefore k (Nat.zero_le k) hk⟩

theorem seekForNal_none {m : Memory} {buf len : Nat} (h : (seekForNal buf len).run m = some none) :
    ∀ k, k + 4 ≤ len → ¬ Code m (buf + k) := fun k hk =>
  seekLoop_spec h k (Nat.zero_le k) (by omega)

/-! ## NAL units -/

/-- The header bytes of NAL units that begin a frame. -/
def Begins (x : UInt8) : Prop :=
  6 ≤ (unitType x).toNat ∧ (unitType x).toNat ≤ 9 ∨ 13 ≤ (unitType x).toNat ∧ (unitType x).toNat ≤ 18

instance (x : UInt8) : Decidable (Begins x) := inferInstanceAs (Decidable (_ ∨ _))

/-! What every parser of a header keeps of the bytes gathered so far. -/

@[simp] theorem NalParser.header_buf (p : NalParser) (x : UInt8) : (p.header x).buf = p.buf := rfl

@[simp] theorem NalParser.swap_buf (p : NalParser) : p.swap.buf = p.buf := rfl

@[simp] theorem NalParser.clearSps_buf (p : NalParser) : p.clearSps.1.buf = p.buf := by
  unfold clearSps
  split <;> rfl

@[simp] theorem NalParser.clearPps_buf (p : NalParser) : p.clearPps.1.buf = p.buf := by
  unfold clearPps
  split <;> rfl

theorem spsHeader_spec {p p' : NalParser} {buf len : Nat} {m : Memory} {res : Int}
    (h : (spsHeader p buf len).run m = some (res, p')) : res = 7 ∧ p'.buf = p.buf := by
  obtain ⟨bytes, -, h⟩ := Probe.bind_eq_some.mp h
  obtain ⟨sps, -, h⟩ := Probe.bind_eq_some.mp h
  cases h
  exact ⟨rfl, p.clearSps_buf⟩

theorem ppsHeader_spec {p p' : NalParser} {buf len : Nat} {m : Memory} {res : Int}
    (h : (ppsHeader p buf len).run m = some (res, p')) : res = 8 ∧ p'.buf = p.buf := by
  obtain ⟨pps, -, h⟩ := Probe.bind_eq_some.mp h
  cases h
  exact ⟨rfl, p.clearPps_buf⟩

theorem sliceHeader_spec {p p' : NalParser} {type : BitVec 8} {buf len : Nat} {m : Memory} {res : Int}
    (h : (sliceHeader p type buf len).run m = some (res, p')) :
    (res = type.toNat ∨ res = -1) ∧ p'.buf = p.buf := by
  unfold sliceHeader at h
  split at h
  · obtain ⟨slc, -, h⟩ := Probe.bind_eq_some.mp h
    cases h
    exact ⟨.inl rfl, rfl⟩
  · cases h
    exact ⟨.inr rfl, rfl⟩

theorem run_parseNalHeader (p : NalParser) (buf : Nat) {len : Nat} (hlen : 0 < len) (m : Memory) :
    (parseNalHeader p buf len).run m = (m buf).bind fun x =>
      if unitType x = 7 then (spsHeader (p.header x) buf len).run m
      else if unitType x = 8 then (ppsHeader (p.header x) buf len).run m
      else if 1 ≤ (unitType x).toNat ∧ (unitType x).toNat ≤ 5 then
        (sliceHeader (p.header x) (unitType x) buf len).run m
      else some ((unitType x).toNat, p.header x) := by
  rw [parseNalHeader, if_neg (by omega), Probe.run_bind, Probe.run_byte]
  congr 1
  funext x
  show (if unitType x = 7 then _ else _ : Probe (Int × NalParser)).run m = _
  rw [Probe.run_ite, Probe.run_ite, Probe.run_ite]
  rfl

/-- `parse_nal_header` returns the type of the unit, or -1 for a slice without
parameter sets and where there is no byte. -/
theorem parseNalHeader_spec {p p' : NalParser} {buf len : Nat} {m : Memory} {res : Int}
    (h : (parseNalHeader p buf len).run m = some (res, p')) :
    p'.buf = p.buf ∧ (len = 0 ∧ res = -1 ∨ 0 < len ∧ ∃ x, m buf = some x ∧
      (res = (unitType x).toNat ∨ res = -1 ∧ 1 ≤ (unitType x).toNat ∧ (unitType x).toNat ≤ 5)) := by
  rcases Nat.eq_zero_or_pos len with rfl | hlen
  · cases h
    exact ⟨rfl, .inl ⟨rfl, rfl⟩⟩
  rw [run_parseNalHeader p buf hlen] at h
  obtain ⟨x, hx, h⟩ := Option.bind_eq_some_iff.mp h
  suffices hsuff : p'.buf = p.buf ∧ (res = (unitType x).toNat ∨
      res = -1 ∧ 1 ≤ (unitType x).toNat ∧ (unitType x).toNat ≤ 5) from
    ⟨hsuff.1, .inr ⟨hlen, x, hx, hsuff.2⟩⟩
  split at h
  · rename_i htype
    obtain ⟨rfl, hbuf⟩ := spsHeader_spec h
    exact ⟨hbuf, .inl (by rw [htype]; rfl)⟩
  · split at h
    · rename_i htype
      obtain ⟨rfl, hbuf⟩ := ppsHeader_spec h
      exact ⟨hbuf, .inl (by rw [htype]; rfl)⟩
    · split at h
      · rename_i hslice
        obtain ⟨hres, hbuf⟩ := sliceHeader_spec h
        exact ⟨hbuf, hres.imp_right fun h => ⟨h, hslice⟩⟩
      · cases h
        exact ⟨rfl, .inl rfl⟩

/-- `parse_nal` returns 1 where a frame begins, and keeps the bytes gathered. -/
theorem parseNal_spec {p p' : NalParser} {buf len : Nat} {m : Memory} {res : Nat}
    (h : (parseNal p buf len).run m = some (res, p')) :
    p'.buf = p.buf ∧ (res = 1 ↔ 0 < len ∧ ∃ x, m buf = some x ∧ Begins x) := by
  obtain ⟨⟨type, p₁⟩, hheader, h⟩ := Probe.bind_eq_some.mp h
  obtain ⟨hbuf, htype⟩ := parseNalHeader_spec hheader
  have hres : p'.buf = p₁.buf ∧ (res = 1 ↔ 6 ≤ type ∧ type ≤ 9 ∨ 13 ≤ type ∧ type ≤ 18) := by
    dsimp only at h
    rw [Probe.run_ite, Probe.run_ite, Probe.run_ite] at h
    split at h
    · cases h
      exact ⟨rfl, by omega⟩
    · split at h
      · cases h
        exact ⟨rfl, by omega⟩
      · split at h
        · cases h
          exact ⟨rfl, by omega⟩
        · cases h
          exact ⟨rfl, by omega⟩
  refine ⟨hres.1.trans hbuf, hres.2.trans ?_⟩
  rcases htype with ⟨rfl, rfl⟩ | ⟨hlen, x, hx, htype⟩
  · exact ⟨fun h => by omega, fun h => absurd h.1 (Nat.lt_irrefl 0)⟩
  · refine ⟨fun h => ⟨hlen, x, hx, ?_⟩, fun ⟨_, y, hy, hb⟩ => ?_⟩
    · unfold Begins
      omega
    · obtain rfl : x = y := Option.some.inj (hx.symm.trans hy)
      unfold Begins at hb
      omega

/-! ## Headers are always parsed -/

namespace Read.Total

theorem readFlag : Total readFlag := (readBits 1).bind fun _ => .pure _

theorem readIf {α : Type} {c : Prop} [Decidable c] {x : Read α} (h : Total x) (a : α) :
    Total (readIf c x a) := .ite h (.pure a)

theorem skipScalingList (size : Nat) : Total (skipScalingList size) := by
  induction size with
  | zero => exact .pure ()
  | succ size ih => exact readExpGolombS.bind fun _ => ih

theorem skipLists (flags : BitVec 8) (n : Nat) : Total (skipLists flags n) := by
  induction n with
  | zero => exact .pure ()
  | succ n ih => exact (readIf (skipScalingList _) ()).bind fun _ => ih

theorem parseChroma (sps : SeqParameterSet) : Total (parseChroma sps) :=
  readExpGolomb.bind fun _ => (readIf readFlag _).bind fun _ => readExpGolomb.bind fun _ =>
    readExpGolomb.bind fun _ => readFlag.bind fun _ => readFlag.bind fun _ => .ite
      ((readBits 8).bind fun _ => (skipLists _ 8).bind fun _ => .pure _) (.pure _)

theorem readOffsets (offsets : Nat → BitVec 32) (i n : Nat) : Total (readOffsets offsets i n) := by
  induction n generalizing offsets i with
  | zero => exact .pure offsets
  | succ n ih => exact readExpGolombS.bind fun _ => ih _ _

theorem parseOrder (sps : SeqParameterSet) : Total (parseOrder sps) :=
  readExpGolomb.bind fun _ => .ite (readExpGolomb.bind fun _ => .pure _)
    (readFlag.bind fun _ => readExpGolombS.bind fun _ => readExpGolombS.bind fun _ =>
      readExpGolomb.bind fun _ => (readOffsets _ _ _).bind fun _ => .pure _)

theorem parseCropping (sps : SeqParameterSet) : Total (parseCropping sps) :=
  readExpGolomb.bind fun _ => readExpGolomb.bind fun _ => readExpGolomb.bind fun _ =>
    readExpGolomb.bind fun _ => .pure _

theorem parseSize (sps : SeqParameterSet) : Total (parseSize sps) :=
  readExpGolomb.bind fun _ => readExpGolomb.bind fun _ => readFlag.bind fun _ =>
    (readIf readFlag _).bind fun _ => readFlag.bind fun _ => readFlag.bind fun _ =>
      (readIf (parseCropping _) _).bind fun _ => readFlag.bind fun _ => .pure _

theorem parseFields (sps : SeqParameterSet) : Total (parseFields sps) :=
  readExpGolomb.bind fun _ => (readIf (parseChroma _) _).bind fun _ => readExpGolomb.bind fun _ =>
    (parseOrder _).bind fun _ => readExpGolomb.bind fun _ => readFlag.bind fun _ => parseSize _

theorem parseSps (sps : SeqParameterSet) : Total (parseSps sps) :=
  get.bind fun _ => (byteAt _).bind fun _ => (byteAt _).bind fun _ => (byteAt _).bind fun _ =>
    (set _).bind fun _ => parseFields _

theorem parsePps (pps : PicParameterSet) : Total (parsePps pps) :=
  readExpGolomb.bind fun _ => readExpGolomb.bind fun _ => readFlag.bind fun _ =>
    readFlag.bind fun _ => .pure _

theorem parseField (sps : SeqParameterSet) (slc : SliceHeader) : Total (parseField sps slc) :=
  .ite (readFlag.bind fun _ => (readIf readFlag _).bind fun _ => .pure _) (.pure _)

theorem parseSliceOrder (sps : SeqParameterSet) (pps : PicParameterSet) (slc : SliceHeader) :
    Total (parseSliceOrder sps pps slc) :=
  .ite ((readBits _).bind fun _ => (readIf readExpGolombS _).bind fun _ => .pure _)
    (.ite (readExpGolombS.bind fun _ => (readIf readExpGolombS _).bind fun _ => .pure _) (.pure _))

theorem parseSliceHeader (sps : SeqParameterSet) (pps : PicParameterSet) (type : BitVec 8)
    (slc : SliceHeader) : Total (parseSliceHeader sps pps type slc) :=
  readExpGolomb.bind fun _ => readExpGolomb.bind fun _ => readExpGolomb.bind fun _ =>
    (readBits _).bind fun _ => (parseField _ _).bind fun _ =>
      (readIf readExpGolomb _).bind fun _ => parseSliceOrder _ _ _

end Read.Total

theorem sliceHeader_total (p : NalParser) (type : BitVec 8) (buf len : Nat) :
    (sliceHeader p type buf len).Total := by
  unfold sliceHeader
  split
  · exact (Read.Total.parseSliceHeader _ _ _ _ _).bind fun _ => .pure _
  · exact .pure _

theorem parseNalHeader_total (p : NalParser) (buf len : Nat) : (parseNalHeader p buf len).Total :=
  .ite (.pure _) <| (Probe.Total.byte buf).bind fun _ =>
    .ite ((Probe.Total.bytes _ _).bind fun _ =>
        (Probe.Total.lift (Read.Total.parseSps _ _ _)).bind fun _ => .pure _) <|
    .ite ((Read.Total.parsePps _ _).bind fun _ => .pure _) <|
    .ite (sliceHeader_total _ _ _ _) (.pure _)

theorem parseNal_total (p : NalParser) (buf len : Nat) : (parseNal p buf len).Total :=
  (parseNalHeader_total p buf len).bind fun _ => .ite (.pure _) (.ite (.pure _) (.ite (.pure _) (.pure _)))

end DShow.Packetizer
