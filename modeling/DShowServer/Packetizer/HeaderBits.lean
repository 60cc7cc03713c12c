import DShowServer.Packetizer.Nal

/-!
# The bits of a NAL unit's header

How many bits `parse_pps` and `parse_slice_header` take depends on the bits
themselves and on the parameter sets of the current unit. `header` reads them as
a syntax, from the bytes of a chunk alone, and follows the parameter sets
(`Sets`); `parseNal_sets` says that `parse_nal` reads no other bytes where it
succeeds, and others where it does not. A sequence parameter set never
suffices: the copy that is made of it goes four bytes behind the chunk.
-/

namespace DShow.Packetizer

open Bits

/-- What the parsers of headers go by: the parameter sets that the units point to. -/
@[ext] structure Sets where
  current : Which
  sps : Which → Option Which
  pps : Which → Option Which
  spsAt : Which → SeqParameterSet
  /-- `pic_order_present_flag`. -/
  orderAt : Which → Bool

namespace Sets

variable (s : Sets)

/-- Behind a picture parameter set. -/
def withPps (order : Bool) : Sets :=
  { s with
    pps := Function.update s.pps s.current (some ((s.pps s.current).getD s.current))
    orderAt := Function.update s.orderAt ((s.pps s.current).getD s.current) order }

/-- Behind a slice. -/
def swap : Sets :=
  { s with
    current := s.current.other
    sps := Function.update s.sps s.current.other (s.sps s.current.other <|> s.sps s.current)
    pps := Function.update s.pps s.current.other (s.pps s.current.other <|> s.pps s.current) }

end Sets

/-- The parameter sets of a parser. -/
def NalParser.sets (p : NalParser) : Sets where
  current := p.current_nal
  sps w := (p.nal w).sps
  pps w := (p.nal w).pps
  spsAt := p.spsAt
  orderAt w := (p.ppsAt w).pic_order_present_flag ≠ 0

/-! ## The syntax -/

/-- Bits that are there under a condition. -/
def bitsIf {α : Type} (c : Prop) [Decidable c] (x : BitReader α) (a : α) : BitReader α :=
  if c then x else pure a

/-- A flag. -/
def flagBit : BitReader Bool := do
  let b ← BitReader.take 1
  pure (b = [true])

/-- A picture parameter set: its `pic_order_present_flag`. -/
def ppsBits : BitReader Bool := do
  let _ ← expGolomb 32
  let _ ← expGolomb 32
  let _ ← flagBit
  flagBit

/-- The length of a number of `log2` and four bits more. -/
def log2Bits (x : BitVec 32) : BitReader Unit := do
  let _ ← BitReader.take (x + 4).toInt.toNat
  pure ()

/-- The flags of the field: `field_pic_flag`. -/
def fieldBits (sps : SeqParameterSet) : BitReader Bool :=
  if sps.frame_mbs_only_flag = 0 then do
    let field ← flagBit
    let _ ← bitsIf (field = true) flagBit false
    pure field
  else pure false

/-- The picture order. -/
def orderBits (sps : SeqParameterSet) (order field : Bool) : BitReader Unit :=
  if sps.pic_order_cnt_type = 0 then do
    let _ ← log2Bits sps.log2_max_pic_order_cnt_lsb_minus4
    let _ ← bitsIf (order = true ∧ field = false) (expGolomb 32) 0
    pure ()
  else if sps.pic_order_cnt_type = 1 then do
    let _ ← expGolomb 32
    let _ ← bitsIf (order = true ∧ field = false) (expGolomb 32) 0
    pure ()
  else pure ()

/-- A slice header. -/
def sliceBits (sps : SeqParameterSet) (order : Bool) (type : BitVec 8) : BitReader Unit := do
  let _ ← expGolomb 32
  let _ ← expGolomb 32
  let _ ← expGolomb 32
  let _ ← log2Bits sps.log2_max_frame_num_minus4
  let field ← fieldBits sps
  let _ ← bitsIf (type = 5) (expGolomb 32) 0
  orderBits sps order field

/-- The header of the NAL unit behind the start code at `q`, read from the bytes
`l` alone: the parameter sets behind it, if the bytes suffice. -/
def header (l : List UInt8) (s : Sets) (q : Nat) : Option Sets :=
  l[q + 4]?.bind fun x =>
    if unitType x = 7 then none
    else if unitType x = 8 then (ppsBits (ofBytes (l.drop (q + 5)))).map fun r => s.withPps r.1
    else if 1 ≤ (unitType x).toNat ∧ (unitType x).toNat ≤ 5 then
      match s.sps s.current, s.pps s.current with
      | some a, some b => (sliceBits (s.spsAt a) (s.orderAt b) (unitType x) (ofBytes (l.drop (q + 5)))).map
          fun _ => s.swap
      | _, _ => some s
    else some s

/-! ## The parsers follow it -/

theorem readIf_follows {α β : Type} {R : α → β → Prop} {c d : Prop} [Decidable c] [Decidable d]
    {x : Read α} {y : BitReader β} {a : α} {b : β} (hcd : c ↔ d) (hx : Follows R x y) (ha : R a b) :
    Follows R (readIf c x a) (bitsIf d y b) := by
  unfold readIf bitsIf
  by_cases hd : d
  · rw [if_pos (hcd.mpr hd), if_pos hd]
    exact hx
  · rw [if_neg (fun hc => hd (hcd.mp hc)), if_neg hd]
    exact .pure ha

/-- A flag is not zero where its bit is set. -/
theorem readFlag_follows : Follows (fun a b => (a = 0 ↔ b = false)) readFlag flagBit := by
  refine (readBits_follows 1).bind fun a bits h => .pure ?_
  obtain ⟨c, rfl⟩ := List.length_eq_one_iff.mp h.1
  rw [h.2 (by decide)]
  cases c <;> decide

theorem parsePps_follows (pps : PicParameterSet) :
    Follows (fun out b => decide (out.pic_order_present_flag ≠ 0) = b) (parsePps pps) ppsBits := by
  refine readExpGolomb_follows.bind fun _ _ _ => readExpGolomb_follows.bind fun _ _ _ =>
    readFlag_follows.bind fun _ _ _ => readFlag_follows.map' fun order b h => ?_
  cases b
  · exact decide_eq_false (fun hne => hne (h.mpr rfl))
  · exact decide_eq_true fun heq => Bool.noConfusion (h.mp heq)

theorem readLog2_follows (x : BitVec 32) : Follows (fun _ _ => True) (readLog2 x) (log2Bits x) :=
  (readBits_follows _).map (fun _ => ()) fun _ _ _ => trivial

theorem parseField_follows (sps : SeqParameterSet) (slc : SliceHeader) :
    Follows (fun out field => (out.field_pic_flag = 0 ↔ field = false)) (parseField sps slc) (fieldBits sps) := by
  unfold parseField fieldBits
  split
  · refine readFlag_follows.bind fun field b hfield => ?_
    have hbottom : Follows (fun _ _ => True) (readIf (field ≠ 0) readFlag (-1)) (bitsIf (b = true) flagBit false) :=
      readIf_follows ((not_congr hfield).trans (by rw [Bool.not_eq_false]))
        (readFlag_follows.imp fun _ _ _ => trivial) trivial
    exact hbottom.bind fun _ _ _ => .pure hfield
  · exact .pure (iff_of_true rfl rfl)

theorem readExpGolombS_if_follows {c d : Prop} [Decidable c] [Decidable d] (h : c ↔ d) (a : BitVec 32) :
    Follows (fun _ _ => True) (readIf c readExpGolombS a) (bitsIf d (expGolomb 32) 0) :=
  readIf_follows h readExpGolombS_follows trivial

theorem parseSliceOrder_follows (sps : SeqParameterSet) (pps : PicParameterSet) (slc : SliceHeader)
    {field : Bool} (hfield : slc.field_pic_flag = 0 ↔ field = false) :
    Follows (fun _ _ => True) (parseSliceOrder sps pps slc)
      (orderBits sps (decide (pps.pic_order_present_flag ≠ 0)) field) := by
  have hcond : pps.pic_order_present_flag ≠ 0 ∧ slc.field_pic_flag = 0 ↔
      decide (pps.pic_order_present_flag ≠ 0) = true ∧ field = false := by
    rw [decide_eq_true_iff, hfield]
  unfold parseSliceOrder orderBits
  split
  · exact (readLog2_follows _).bind fun _ _ _ =>
      (readExpGolombS_if_follows hcond _).bind fun _ _ _ => .pure trivial
  · split
    · exact readExpGolombS_follows.bind fun _ _ _ =>
        (readExpGolombS_if_follows hcond _).bind fun _ _ _ => .pure trivial
    · exact .pure trivial

theorem parseSliceHeader_follows (sps : SeqParameterSet) (pps : PicParameterSet) (type : BitVec 8)
    (slc : SliceHeader) : Follows (fun _ _ => True) (parseSliceHeader sps pps type slc)
      (sliceBits sps (decide (pps.pic_order_present_flag ≠ 0)) type) := by
  have hidr : ∀ a : BitVec 32, Follows (fun _ _ => True) (readIf (type = 5) readExpGolomb a)
      (bitsIf (type = 5) (expGolomb 32) 0) := fun a =>
    readIf_follows Iff.rfl (readExpGolomb_follows.imp fun _ _ _ => trivial) trivial
  exact readExpGolomb_follows.bind fun _ _ _ => readExpGolomb_follows.bind fun _ _ _ =>
    readExpGolomb_follows.bind fun _ _ _ => (readLog2_follows _).bind fun _ _ _ =>
    (parseField_follows _ _).bind fun _ _ hfield => (hidr _).bind fun _ _ _ =>
    parseSliceOrder_follows _ _ _ hfield

/-! ## What a NAL unit makes of the parameter sets -/

namespace NalParser

variable (p : NalParser)

theorem sets_setUnit_sps (nal : NalUnit) :
    (p.setUnit nal).sets.sps = Function.update p.sets.sps p.current_nal nal.sps :=
  Function.comp_update NalUnit.sps p.nal p.current_nal nal

theorem sets_setUnit_pps (nal : NalUnit) :
    (p.setUnit nal).sets.pps = Function.update p.sets.pps p.current_nal nal.pps :=
  Function.comp_update NalUnit.pps p.nal p.current_nal nal

/-- Writing to the current unit, but not to its pointers. -/
theorem sets_setUnit {nal : NalUnit} (hsps : nal.sps = p.unit.sps) (hpps : nal.pps = p.unit.pps) :
    (p.setUnit nal).sets = p.sets := by
  refine Sets.ext rfl ?_ ?_ rfl rfl
  · rw [sets_setUnit_sps, hsps]
    exact Function.update_eq_self _ _
  · rw [sets_setUnit_pps, hpps]
    exact Function.update_eq_self _ _

theorem sets_header (x : UInt8) : (p.header x).sets = p.sets := p.sets_setUnit rfl rfl

theorem sets_swap : p.swap.sets = p.sets.swap :=
  Sets.ext rfl (Function.comp_update NalUnit.sps p.nal _ _) (Function.comp_update NalUnit.pps p.nal _ _) rfl rfl

/-- A picture parameter set, written to the block that is there for it. -/
theorem sets_clearPps (pps : PicParameterSet) :
    { p.clearPps.1 with ppsAt := Function.update p.clearPps.1.ppsAt p.clearPps.2 pps : NalParser }.sets =
      p.sets.withPps (decide (pps.pic_order_present_flag ≠ 0)) := by
  have horder : ∀ w, (fun v => decide ((Function.update p.ppsAt w pps v).pic_order_present_flag ≠ 0)) =
      Function.update p.sets.orderAt w (decide (pps.pic_order_present_flag ≠ 0)) := fun w =>
    Function.comp_update (fun pps : PicParameterSet => decide (pps.pic_order_present_flag ≠ 0)) p.ppsAt w pps
  have hcurrent : p.sets.pps p.sets.current = p.unit.pps := rfl
  unfold clearPps Sets.withPps
  rw [hcurrent]
  cases hpps : p.unit.pps with
  | none =>
    refine Sets.ext rfl ?_ (p.sets_setUnit_pps _) rfl ?_
    · exact (p.sets_setUnit_sps _).trans (Function.update_eq_self _ _)
    · simp only [sets, Function.update_idem]
      exact horder p.current_nal
  | some w =>
    refine Sets.ext rfl rfl ?_ rfl ?_
    · exact (Function.update_eq_self_iff.mpr hpps.symm).symm
    · simp only [sets, Function.update_idem]
      exact horder w

end NalParser

theorem run_parseNal_sets (p : NalParser) (buf len : Nat) (m : Memory) :
    ((parseNal p buf len).run m).map (fun r => r.2.sets) =
      (((parseNalHeader p buf len).run m).map fun r => (r.1, r.2.sets)).map fun r =>
        if 1 ≤ r.1 ∧ r.1 ≤ 5 then r.2.swap else r.2 := by
  rw [parseNal, Probe.run_bind]
  cases (parseNalHeader p buf len).run m with
  | none => rfl
  | some r =>
    rw [Option.bind_some, Option.map_some, Option.map_some, Probe.run_ite, Probe.run_ite, Probe.run_ite]
    split
    · exact congrArg some r.2.sets_swap
    · split
      · rfl
      · split <;> rfl

section

variable {l : List UInt8} {q : Nat}

/-- The bits behind a header byte. -/
theorem left_header {x : UInt8} (h : l[q + 4]? = some x) :
    Left l ⟨q + 4, q + 5, l.length - q, 8⟩ (ofBytes (l.drop (q + 5))) := by
  have hlt : q + 4 < l.length := (List.getElem?_eq_some_iff.mp h).1
  exact ⟨Nat.le_succ _, hlt, by dsimp only; omega, Nat.succ_pos 7, Nat.le_refl 8, rfl⟩

theorem ppsHeader_sets (p : NalParser) {x : UInt8} (h : l[q + 4]? = some x) :
    ((ppsHeader p (q + 4) (l.length - q)).run (.ofList l)).map (fun r => (r.1, r.2.sets)) =
      (ppsBits (ofBytes (l.drop (q + 5)))).map fun r => (8, p.sets.withPps r.1) := by
  have hlt : q + 4 < l.length := (List.getElem?_eq_some_iff.mp h).1
  obtain ⟨hsome, hnone⟩ := parsePps_follows (p.clearPps.1.ppsAt p.clearPps.2) _ _ _ (left_header h)
  rw [ppsHeader]
  dsimp only
  rw [Probe.run_bind]
  cases hbits : ppsBits (ofBytes (l.drop (q + 5))) with
  | none =>
    rw [hnone hbits (by dsimp only; omega)]
    rfl
  | some r =>
    obtain ⟨pps, r', hrun, horder, -⟩ := hsome r.1 r.2 hbits
    rw [hrun, Option.map_some, ← horder, ← p.sets_clearPps pps]
    rfl

theorem sliceHeader_sets (p : NalParser) (type : BitVec 8) {x : UInt8} (h : l[q + 4]? = some x) :
    ((sliceHeader p type (q + 4) (l.length - q)).run (.ofList l)).map (fun r => (r.1, r.2.sets)) =
      match p.sets.sps p.current_nal, p.sets.pps p.current_nal with
      | some a, some b => (sliceBits (p.sets.spsAt a) (p.sets.orderAt b) type (ofBytes (l.drop (q + 5)))).map
          fun _ => ((type.toNat : Int), p.sets)
      | _, _ => some (-1, p.sets) := by
  have hlt : q + 4 < l.length := (List.getElem?_eq_some_iff.mp h).1
  have hsps : p.sets.sps p.current_nal = p.unit.sps := rfl
  have hpps : p.sets.pps p.current_nal = p.unit.pps := rfl
  rw [hsps, hpps, sliceHeader, NalParser.sps, NalParser.pps]
  cases p.unit.sps with
  | none => rfl
  | some a =>
    cases p.unit.pps with
    | none => rfl
    | some b =>
      obtain ⟨hsome, hnone⟩ := parseSliceHeader_follows (p.spsAt a) (p.ppsAt b) type
        ((p.unit.slc.map fun _ => {}).getD (p.heap.slc p.current_nal)) _ _ _ (left_header h)
      simp only [Option.map_some, Probe.run_bind]
      cases hbits : sliceBits (p.spsAt a) (decide ((p.ppsAt b).pic_order_present_flag ≠ 0)) type
          (ofBytes (l.drop (q + 5))) with
      | none =>
        rw [hnone hbits (by dsimp only; omega)]
        exact (congrArg (Option.map _) hbits).symm
      | some r =>
        obtain ⟨slc, r', hrun, -⟩ := hsome r.1 r.2 hbits
        rw [hrun]
        refine Eq.trans ?_ (congrArg (Option.map _) hbits).symm
        exact congrArg (fun s => some ((type.toNat : Int), s)) (p.sets_setUnit rfl rfl)

/-- **A header is read from the bytes of the chunk alone** where they suffice, and
from others where they do not. -/
theorem parseNal_sets (p : NalParser) (hq : q + 4 ≤ l.length) :
    ((parseNal p (q + 4) (l.length - q)).run (.ofList l)).map (fun r => r.2.sets) = header l p.sets q := by
  rw [run_parseNal_sets, run_parseNalHeader p (q + 4) (by omega), header]
  cases hx : l[q + 4]? with
  | none => rw [show Memory.ofList l (q + 4) = none from hx]; rfl
  | some x =>
    rw [show Memory.ofList l (q + 4) = some x from hx, Option.bind_some, Option.bind_some]
    by_cases h7 : unitType x = 7
    · -- the copy goes on behind the chunk
      rw [if_pos h7, if_pos h7, spsHeader, Probe.run_bind, Probe.bytes_short (by omega) (by omega)]
      rfl
    · rw [if_neg h7, if_neg h7]
      by_cases h8 : unitType x = 8
      · rw [if_pos h8, if_pos h8, ppsHeader_sets _ hx, Option.map_map, p.sets_header]
        rfl
      · rw [if_neg h8, if_neg h8]
        by_cases hslice : 1 ≤ (unitType x).toNat ∧ (unitType x).toNat ≤ 5
        · have htype : (1 : Int) ≤ (unitType x).toNat ∧ ((unitType x).toNat : Int) ≤ 5 := by omega
          have hcurrent : (p.header x).current_nal = p.sets.current := rfl
          rw [if_pos hslice, if_pos hslice, sliceHeader_sets _ _ hx, p.sets_header, hcurrent]
          split
          · rw [Option.map_map]
            exact congrArg (Option.map · _) (funext fun _ => if_pos htype)
          · rfl
        · have htype : ¬ ((1 : Int) ≤ (unitType x).toNat ∧ ((unitType x).toNat : Int) ≤ 5) := by omega
          rw [if_neg hslice, if_neg hslice, Option.map_some, Option.map_some]
          exact congrArg some ((if_neg htype).trans (p.sets_header x))

end

end DShow.Packetizer
