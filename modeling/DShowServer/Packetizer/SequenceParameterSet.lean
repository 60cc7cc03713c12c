import DShowServer.Packetizer.Model

/-!
# Sequence parameter sets

The syntax of a sequence parameter set, as bits (`SpsSyntax.bits`), and what
`parse_sps` finds in them. It reads the flags of all scaling lists before the
first list, reads every list to its full size, and takes every picture order
type but 0 for type 1; where none of this matters it recovers the size of the
picture, the length of the frame numbers and the picture order type.
-/

namespace DShow.Packetizer

open Bits

/-! ## The syntax -/

/-- The signed Exp-Golomb code of a number. -/
def golombS (v : Int) : List Bool := golomb (if 0 < v then 2 * v.toNat - 1 else 2 * (-v).toNat)

/-- The numbers of `ue(v)`. -/
def IsUe (x : Nat) : Prop := x + 1 < 2 ^ 32

/-- The numbers of `se(v)`. -/
def IsSe (v : Int) : Prop := -2 ^ 31 < v ∧ v < 2 ^ 31

instance (x : Nat) : Decidable (IsUe x) := inferInstanceAs (Decidable (_ < _))

instance (v : Int) : Decidable (IsSe v) := inferInstanceAs (Decidable (_ ∧ _))

/-- The deltas of a scaling list of so many entries; none follows the one that
makes the scale zero. -/
def IsScalingList : Nat → Int → List Int → Prop
  | 0, _, deltas => deltas = []
  | _ + 1, _, [] => False
  | size + 1, last, d :: deltas => (-128 ≤ d ∧ d ≤ 127) ∧
    if (last + d + 256) % 256 = 0 then deltas = [] else IsScalingList size ((last + d + 256) % 256) deltas

/-- `seq_scaling_list_present_flag[i]` and its list. -/
def listBits : Option (List Int) → List Bool
  | none => [false]
  | some deltas => true :: deltas.flatMap golombS

/-- The fields of the high profiles. -/
structure HighFields where
  chroma_format_idc : Nat
  separate_colour_plane_flag : Bool
  bit_depth_luma_minus8 : Nat
  bit_depth_chroma_minus8 : Nat
  qpprime_y_zero_transform_bypass_flag : Bool
  /-- The scaling lists, where `seq_scaling_matrix_present_flag` is set. -/
  lists : Option (List (Option (List Int)))
  chroma_ue : IsUe chroma_format_idc
  luma_ue : IsUe bit_depth_luma_minus8
  depth_ue : IsUe bit_depth_chroma_minus8
  lists_valid : ∀ ls, lists = some ls → ls.length = 8 ∧
    ∀ i deltas, ls[i]? = some (some deltas) → IsScalingList (if i < 6 then 16 else 64) 8 deltas

def HighFields.bits (h : HighFields) : List Bool :=
  golomb h.chroma_format_idc ++
  ((if h.chroma_format_idc = 3 then [h.separate_colour_plane_flag] else []) ++
  (golomb h.bit_depth_luma_minus8 ++
  (golomb h.bit_depth_chroma_minus8 ++
  ([h.qpprime_y_zero_transform_bypass_flag] ++
  match h.lists with
  | none => [false]
  | some ls => [true] ++ ls.flatMap listBits))))

/-- The fields of the picture order, by its type. -/
inductive PicOrder
  | lsb (log2_max_pic_order_cnt_lsb_minus4 : Nat)
  | cycle (delta_pic_order_always_zero_flag : Bool) (offset_for_non_ref_pic : Int)
    (offset_for_top_to_bottom_field : Int) (offset_for_ref_frame : List Int)
  | output

namespace PicOrder

/-- `pic_order_cnt_type`. -/
def type : PicOrder → Nat
  | lsb _ => 0
  | cycle .. => 1
  | output => 2

def bits : PicOrder → List Bool
  | lsb x => golomb 0 ++ golomb x
  | cycle zero nonRef top offsets => golomb 1 ++ ([zero] ++ (golombS nonRef ++ (golombS top ++
      (golomb offsets.length ++ offsets.flatMap golombS))))
  | output => golomb 2

def Valid : PicOrder → Prop
  | lsb x => IsUe x
  | cycle _ nonRef top offsets => IsSe nonRef ∧ IsSe top ∧ offsets.length ≤ 255 ∧ ∀ v ∈ offsets, IsSe v
  | output => True

end PicOrder

/-- The offsets of the cropping. -/
structure Crop where
  left : Nat
  right : Nat
  top : Nat
  bottom : Nat
  left_ue : IsUe left
  right_ue : IsUe right
  top_ue : IsUe top
  bottom_ue : IsUe bottom

/-- A sequence parameter set, up to `vui_parameters_present_flag`. -/
structure SpsSyntax where
  profile_idc : UInt8
  constraint_flags : UInt8
  level_idc : UInt8
  seq_parameter_set_id : Nat
  high : Option HighFields
  log2_max_frame_num_minus4 : Nat
  order : PicOrder
  num_ref_frames : Nat
  gaps_in_frame_num_value_allowed_flag : Bool
  pic_width_in_mbs_minus1 : Nat
  pic_height_in_map_units_minus1 : Nat
  frame_mbs_only_flag : Bool
  mb_adaptive_frame_field_flag : Bool
  direct_8x8_inference_flag : Bool
  crop : Option Crop
  vui_parameters_present_flag : Bool
  profile_mem : profile_idc ∈ [66, 77, 88, 100, 110, 122]
  high_iff : high.isSome ↔ profile_idc ∈ [100, 110, 122]
  id_ue : IsUe seq_parameter_set_id
  frame_num_ue : IsUe log2_max_frame_num_minus4
  order_valid : order.Valid
  ref_frames_ue : IsUe num_ref_frames
  width_ue : IsUe pic_width_in_mbs_minus1
  height_ue : IsUe pic_height_in_map_units_minus1

namespace SpsSyntax

variable (s : SpsSyntax)

def highBits : List Bool := s.high.elim [] HighFields.bits

def sizeBits : List Bool :=
  golomb s.pic_width_in_mbs_minus1 ++
  (golomb s.pic_height_in_map_units_minus1 ++
  ([s.frame_mbs_only_flag] ++
  ((if s.frame_mbs_only_flag = false then [s.mb_adaptive_frame_field_flag] else []) ++
  ([s.direct_8x8_inference_flag] ++
  ([s.crop.isSome] ++
  (s.crop.elim [] (fun c => golomb c.left ++ (golomb c.right ++ (golomb c.top ++ golomb c.bottom))) ++
  [s.vui_parameters_present_flag]))))))

/-- What follows the first three bytes. -/
def bits : List Bool :=
  golomb s.seq_parameter_set_id ++
  (s.highBits ++
  (golomb s.log2_max_frame_num_minus4 ++
  (s.order.bits ++
  (golomb s.num_ref_frames ++
  ([s.gaps_in_frame_num_value_allowed_flag] ++ s.sizeBits)))))

/-- The bytes of the set: behind its fields come the parameters of the video's
usability, if they are there, and the trailing bits. -/
def Written (bytes : List UInt8) : Prop :=
  ∃ tail rest, bytes = s.profile_idc :: s.constraint_flags :: s.level_idc :: tail ∧
    ofBytes tail = s.bits ++ rest

/-- `parse_sps` finds the size of the picture, the length of the frame numbers and
the picture order type, whatever was in the block before. -/
def Recovers (bytes : List UInt8) : Prop :=
  ∀ sps, ∃ out r, (parseSps sps (.start 0 bytes.length)).run (.ofList bytes) = some (out, r) ∧
    out.pic_width.toNat = 16 * (s.pic_width_in_mbs_minus1 + 1) ∧
    out.pic_height.toNat = 16 * (2 - s.frame_mbs_only_flag.toNat) * (s.pic_height_in_map_units_minus1 + 1) ∧
    out.log2_max_frame_num_minus4.toNat = s.log2_max_frame_num_minus4 ∧
    out.pic_order_cnt_type.toNat = s.order.type

/-- The size of the picture, in samples, is a number of 32 bits. -/
def Sized : Prop :=
  16 * (s.pic_width_in_mbs_minus1 + 1) < 2 ^ 32 ∧
  16 * (2 - s.frame_mbs_only_flag.toNat) * (s.pic_height_in_map_units_minus1 + 1) < 2 ^ 32

/-- The picture order type is not 2, a scaling list is there at most at the last
place, with all its deltas, and the size is not too large. -/
structure Plain : Prop where
  type_ne : s.order.type ≠ 2
  lists : ∀ h ls, s.high = some h → h.lists = some ls →
    ∃ last, ls = List.replicate 7 none ++ [last] ∧ ∀ deltas, last = some deltas → deltas.length = 64
  sized : s.Sized

end SpsSyntax

/-! ## Reading it -/

theorem readFlag_reads (b : Bool) : Reads readFlag [b] fun a => a = BitVec.ofNat 8 b.toNat :=
  (readBits_reads [b] (by decide : 1 ≤ 32)).map fun a ha => by
    rw [ha]
    cases b <;> rfl

theorem golombS_reads {v : Int} (hv : IsSe v) : Reads readExpGolombS (golombS v) fun _ => True := by
  obtain ⟨hlow, hhigh⟩ := hv
  refine readExpGolombS_reads ?_
  split <;> omega

/-- What is read under a condition is there under the same. -/
theorem readIf_reads {α : Type} {c d : Prop} [Decidable c] [Decidable d] {x : Read α} {a : α}
    {bits : List Bool} {P : α → Prop} (hcd : c ↔ d) (hx : d → Reads x bits P) (ha : ¬ d → P a) :
    Reads (readIf c x a) (if d then bits else []) P := by
  unfold readIf
  by_cases hd : d
  · rw [if_pos (hcd.mpr hd), if_pos hd]
    exact hx hd
  · rw [if_neg (fun hc => hd (hcd.mp hc)), if_neg hd]
    exact .pure (ha hd)

theorem ofNat_eq_iff {x y : Nat} (hx : x < 2 ^ 32) (hy : y < 2 ^ 32) :
    BitVec.ofNat 32 x = BitVec.ofNat 32 y ↔ x = y := by
  rw [← BitVec.toNat_inj, BitVec.toNat_ofNat, BitVec.toNat_ofNat, Nat.mod_eq_of_lt hx, Nat.mod_eq_of_lt hy]

theorem skipScalingList_reads {deltas : List Int} (h : ∀ d ∈ deltas, IsSe d) :
    Reads (skipScalingList deltas.length) (deltas.flatMap golombS) fun _ => True := by
  induction deltas with
  | nil => exact .pure trivial
  | cons d deltas ih =>
    obtain ⟨hd, hrest⟩ := List.forall_mem_cons.mp h
    exact (golombS_reads hd).bind fun _ _ => ih hrest

/-- No list is skipped where no flag is set. -/
theorem skipLists_reads_nil {flags : BitVec 8} (n : Nat) (h : ∀ k < n, (flags >>> k) &&& 1 = 0) :
    Reads (skipLists flags n) [] fun _ => True := by
  induction n with
  | zero => exact .pure trivial
  | succ n ih =>
    have hskip : Reads (readIf ((flags >>> n) &&& 1 ≠ 0)
        (skipScalingList (if 7 - n < 6 then 16 else 64)) ()) [] fun _ => True := by
      unfold readIf
      rw [if_neg (fun hne => hne (h n (Nat.lt_succ_self n)))]
      exact .pure trivial
    exact hskip.bind fun _ _ => ih fun k hk => h k (Nat.lt_succ_of_lt hk)

/-- The last list is skipped. -/
theorem skipLists_reads_last {deltas : List Int} (hlen : deltas.length = 64)
    (hse : ∀ d ∈ deltas, IsSe d) (n : Nat) (hn : n < 8) :
    Reads (skipLists 1 (n + 1)) (deltas.flatMap golombS) fun _ => True := by
  induction n with
  | zero =>
    have hlast := (skipScalingList_reads hse).bind_nil fun _ _ =>
      (skipLists_reads_nil 0 nofun : Reads (skipLists 1 0) [] fun _ => True)
    rwa [hlen] at hlast
  | succ n ih =>
    have hskip : Reads (readIf ((1#8 >>> (n + 1)) &&& 1 ≠ 0)
        (skipScalingList (if 7 - (n + 1) < 6 then 16 else 64)) ()) [] fun _ => True := by
      have hzero : (1#8 >>> (n + 1)) &&& 1 = 0 :=
        (by decide : ∀ n < 7, (1#8 >>> (n + 1)) &&& 1 = 0) n (by omega)
      unfold readIf
      rw [if_neg (fun hne => hne hzero)]
      exact .pure trivial
    exact hskip.bind fun _ _ => ih (by omega)

theorem IsScalingList.isSe {size : Nat} {last : Int} {deltas : List Int}
    (h : IsScalingList size last deltas) : ∀ d ∈ deltas, IsSe d := by
  induction size generalizing last deltas with
  | zero =>
    rw [show deltas = [] from h]
    exact List.forall_mem_nil _
  | succ size ih =>
    cases deltas with
    | nil => exact List.forall_mem_nil _
    | cons d deltas =>
      obtain ⟨hd, hrest⟩ := h
      refine List.forall_mem_cons.mpr ⟨⟨by omega, by omega⟩, ?_⟩
      split at hrest
      · rw [hrest]
        exact List.forall_mem_nil _
      · exact ih hrest

theorem parseChroma_reads (h : HighFields) (sps : SeqParameterSet)
    (hplain : ∀ ls, h.lists = some ls → ∃ last, ls = List.replicate 7 none ++ [last] ∧
      ∀ deltas, last = some deltas → deltas.length = 64) :
    Reads (parseChroma sps) h.bits fun _ => True := by
  refine (readExpGolomb_reads h.chroma_ue).bind fun a ha =>
    (readIf_reads ?_ (fun _ => (readFlag_reads _).imp fun _ _ => trivial) (fun _ => trivial)).bind fun _ _ =>
    (readExpGolomb_reads h.luma_ue).bind fun _ _ => (readExpGolomb_reads h.depth_ue).bind fun _ _ =>
    (readFlag_reads _).bind fun _ _ => ?_
  · have hue := h.chroma_ue
    unfold IsUe at hue
    rw [ha]
    exact ofNat_eq_iff (y := 3) (by omega) (by decide)
  · cases hlists : h.lists with
    | none =>
      refine (readFlag_reads false).bind_nil fun a ha => ?_
      rw [ha]
      exact .pure trivial
    | some ls =>
      obtain ⟨last, rfl, hlast⟩ := hplain ls hlists
      refine (readFlag_reads true).bind fun a ha => ?_
      rw [ha, if_pos (by decide)]
      cases last with
      | none =>
        refine (readBits_reads (List.replicate 8 false) (by decide)).bind_nil fun flags hflags => ?_
        rw [hflags]
        exact (skipLists_reads_nil 8 (by decide)).map fun _ _ => trivial
      | some deltas =>
        have hse := ((h.lists_valid _ hlists).2 7 deltas rfl).isSe
        have hbits : (List.replicate 7 none ++ [some deltas]).flatMap listBits =
            (List.replicate 7 false ++ [true]) ++ deltas.flatMap golombS := by
          rw [List.flatMap_append, List.flatMap_singleton]
          rfl
        rw [hbits]
        refine (readBits_reads (List.replicate 7 false ++ [true]) (by decide)).bind fun flags hflags => ?_
        rw [hflags]
        exact (skipLists_reads_last (hlast deltas rfl) hse 7 (by decide)).map fun _ _ => trivial

theorem readOffsets_reads {vs : List Int} (h : ∀ v ∈ vs, IsSe v) (offsets : Nat → BitVec 32) (i : Nat) :
    Reads (readOffsets offsets i vs.length) (vs.flatMap golombS) fun _ => True := by
  induction vs generalizing offsets i with
  | nil => exact .pure trivial
  | cons v vs ih =>
    obtain ⟨hv, hrest⟩ := List.forall_mem_cons.mp h
    exact (golombS_reads hv).bind fun _ _ => ih hrest _ _

theorem parseOrder_reads {order : PicOrder} (hvalid : order.Valid) (htype : order.type ≠ 2)
    (sps : SeqParameterSet) : Reads (parseOrder sps) order.bits fun out =>
      out.pic_order_cnt_type.toNat = order.type ∧
      out.log2_max_frame_num_minus4 = sps.log2_max_frame_num_minus4 := by
  cases order with
  | lsb x =>
    refine (readExpGolomb_reads (by decide)).bind fun type htype => ?_
    rw [htype]
    exact (readExpGolomb_reads hvalid).map fun _ _ => ⟨rfl, rfl⟩
  | cycle zero nonRef top offsets =>
    obtain ⟨hnonRef, htop, hlen, hoffsets⟩ := hvalid
    refine (readExpGolomb_reads (by decide)).bind fun type htype => ?_
    rw [htype]
    refine (readFlag_reads zero).bind fun _ _ => (golombS_reads hnonRef).bind fun _ _ =>
      (golombS_reads htop).bind fun _ _ => (readExpGolomb_reads (by omega)).bind fun cycle hcycle => ?_
    have hcount : (cycle.setWidth 8).toNat = offsets.length := by
      rw [hcycle, BitVec.toNat_setWidth, BitVec.toNat_ofNat]
      omega
    rw [hcount]
    exact (readOffsets_reads hoffsets _ _).map fun _ _ => ⟨rfl, rfl⟩
  | output => exact absurd rfl htype

theorem parseCropping_reads (c : Crop) (sps : SeqParameterSet) : Reads (parseCropping sps)
    (golomb c.left ++ (golomb c.right ++ (golomb c.top ++ golomb c.bottom))) fun out =>
      out.pic_width = sps.pic_width ∧ out.pic_height = sps.pic_height ∧
      out.pic_order_cnt_type = sps.pic_order_cnt_type ∧
      out.log2_max_frame_num_minus4 = sps.log2_max_frame_num_minus4 :=
  (readExpGolomb_reads c.left_ue).bind fun _ _ => (readExpGolomb_reads c.right_ue).bind fun _ _ =>
    (readExpGolomb_reads c.top_ue).bind fun _ _ => (readExpGolomb_reads c.bottom_ue).map fun _ _ =>
      ⟨rfl, rfl, rfl, rfl⟩

/-- The size of the picture, as it is computed. -/
theorem width_toNat {w : Nat} (h : 16 * (w + 1) < 2 ^ 32) :
    (16 * (BitVec.ofNat 32 w + 1) : BitVec 32).toNat = 16 * (w + 1) := by
  have hmul : (16 * (BitVec.ofNat 32 w + 1) : BitVec 32) = BitVec.ofNat 32 (16 * (w + 1)) := by
    rw [BitVec.ofNat_mul, BitVec.ofNat_add]
    rfl
  rw [hmul, BitVec.toNat_ofNat, Nat.mod_eq_of_lt h]

theorem height_toNat (b : Bool) {h : Nat} (hlt : 16 * (2 - b.toNat) * (h + 1) < 2 ^ 32) :
    ((2 - (BitVec.ofNat 8 b.toNat).setWidth 32) * (16 * (BitVec.ofNat 32 h + 1)) : BitVec 32).toNat =
      16 * (2 - b.toNat) * (h + 1) := by
  have hmul : ((2 - (BitVec.ofNat 8 b.toNat).setWidth 32) * (16 * (BitVec.ofNat 32 h + 1)) : BitVec 32) =
      BitVec.ofNat 32 (16 * (2 - b.toNat) * (h + 1)) := by
    have hfactor : (2 - (BitVec.ofNat 8 b.toNat).setWidth 32 : BitVec 32) = BitVec.ofNat 32 (2 - b.toNat) := by
      cases b <;> rfl
    rw [hfactor, Nat.mul_comm 16, Nat.mul_assoc, BitVec.ofNat_mul, BitVec.ofNat_mul, BitVec.ofNat_add]
    rfl
  rw [hmul, BitVec.toNat_ofNat, Nat.mod_eq_of_lt hlt]

theorem parseSize_reads {s : SpsSyntax} (hs : s.Sized) (sps : SeqParameterSet) :
    Reads (parseSize sps) s.sizeBits fun out =>
      out.pic_width.toNat = 16 * (s.pic_width_in_mbs_minus1 + 1) ∧
      out.pic_height.toNat =
        16 * (2 - s.frame_mbs_only_flag.toNat) * (s.pic_height_in_map_units_minus1 + 1) ∧
      out.pic_order_cnt_type = sps.pic_order_cnt_type ∧
      out.log2_max_frame_num_minus4 = sps.log2_max_frame_num_minus4 := by
  refine (readExpGolomb_reads s.width_ue).bind fun width hw =>
    (readExpGolomb_reads s.height_ue).bind fun height hh => (readFlag_reads _).bind fun only honly =>
    (readIf_reads ?_ (fun _ => (readFlag_reads _).imp fun _ _ => trivial) fun _ => trivial).bind fun _ _ =>
    (readFlag_reads _).bind fun _ _ => (readFlag_reads _).bind fun cropping hcropping => ?_
  · rw [honly]
    cases s.frame_mbs_only_flag <;> decide
  · subst hw hh honly hcropping
    refine Reads.bind (P := fun out => out.pic_width = 16 * (BitVec.ofNat 32 s.pic_width_in_mbs_minus1 + 1) ∧
        out.pic_height = (2 - (BitVec.ofNat 8 s.frame_mbs_only_flag.toNat).setWidth 32) *
          (16 * (BitVec.ofNat 32 s.pic_height_in_map_units_minus1 + 1)) ∧
        out.pic_order_cnt_type = sps.pic_order_cnt_type ∧
        out.log2_max_frame_num_minus4 = sps.log2_max_frame_num_minus4) ?_ fun out ⟨ow, oh, otype, olog⟩ =>
      (readFlag_reads _).map fun _ _ => ⟨?_, ?_, otype, olog⟩
    · cases s.crop with
      | none => exact .pure ⟨rfl, rfl, rfl, rfl⟩
      | some c => exact parseCropping_reads c _
    · dsimp only
      rw [ow, width_toNat hs.1]
    · dsimp only
      rw [oh, height_toNat _ hs.2]

theorem isHighProfile_iff (s : SpsSyntax) :
    isHighProfile ((BitVec.ofNat 32 s.profile_idc.toNat).setWidth 8) ↔ s.high.isSome := by
  rw [s.high_iff]
  have hmem := s.profile_mem
  generalize s.profile_idc = x at hmem
  simp only [List.mem_cons, List.not_mem_nil, or_false] at hmem
  rcases hmem with rfl | rfl | rfl | rfl | rfl | rfl <;> decide

/-- Behind the first three bytes. -/
theorem parseFields_reads {s : SpsSyntax} (h : s.Plain) (sps : SeqParameterSet)
    (hprofile : isHighProfile sps.profile_idc ↔ s.high.isSome) : Reads (parseFields sps) s.bits fun out =>
      out.pic_width.toNat = 16 * (s.pic_width_in_mbs_minus1 + 1) ∧
      out.pic_height.toNat =
        16 * (2 - s.frame_mbs_only_flag.toNat) * (s.pic_height_in_map_units_minus1 + 1) ∧
      out.log2_max_frame_num_minus4.toNat = s.log2_max_frame_num_minus4 ∧
      out.pic_order_cnt_type.toNat = s.order.type := by
  have hchroma : ∀ sps : SeqParameterSet, (isHighProfile sps.profile_idc ↔ s.high.isSome) →
      Reads (readIf (isHighProfile sps.profile_idc) (parseChroma sps) sps) s.highBits fun _ => True := by
    intro sps hprofile
    unfold readIf SpsSyntax.highBits
    cases hhigh : s.high with
    | none =>
      rw [if_neg (by rw [hprofile, hhigh]; decide)]
      exact .pure trivial
    | some fields =>
      rw [if_pos (by rw [hprofile, hhigh]; rfl)]
      exact parseChroma_reads fields sps fun ls hls => h.lists fields ls hhigh hls
  refine (readExpGolomb_reads s.id_ue).bind fun id _ => ?_
  refine (hchroma { sps with seq_parameter_set_id := id } hprofile).bind fun sps₁ _ => ?_
  refine (readExpGolomb_reads s.frame_num_ue).bind fun frameNum hframeNum => ?_
  refine (parseOrder_reads s.order_valid h.type_ne _).bind fun sps₂ hsps₂ => ?_
  refine (readExpGolomb_reads s.ref_frames_ue).bind fun _ _ => (readFlag_reads _).bind fun _ _ => ?_
  refine (parseSize_reads h.sized _).imp fun out hout => ?_
  obtain ⟨htype, hlog⟩ := hsps₂
  obtain ⟨hwidth, hheight, htype', hlog'⟩ := hout
  refine ⟨hwidth, hheight, ?_, ?_⟩
  · have hue := s.frame_num_ue
    unfold IsUe at hue
    rw [hlog', hlog, hframeNum, BitVec.toNat_ofNat, Nat.mod_eq_of_lt (by omega)]
  · rw [htype', htype]

/-- Where the picture order type is not 2, no scaling list is there but a whole last
one and the size is a number of 32 bits, `parse_sps` recovers the set. -/
theorem recovers_of_plain (s : SpsSyntax) (h : s.Plain) (bytes : List UInt8) (hw : s.Written bytes) :
    s.Recovers bytes := by
  obtain ⟨tail, rest, rfl, hbits⟩ := hw
  intro sps
  have hleft : Left (s.profile_idc :: s.constraint_flags :: s.level_idc :: tail)
      ⟨0, 3, tail.length + 3, 8⟩ (s.bits ++ rest) :=
    ⟨Nat.zero_le 3, Nat.le_add_left 3 _, Nat.le_of_eq (Nat.zero_add _).symm, Nat.succ_pos 7, Nat.le_refl 8,
      hbits.symm⟩
  obtain ⟨out, r, hrun, hout, -⟩ := parseFields_reads h { sps with
    profile_idc := (BitVec.ofNat 32 s.profile_idc.toNat).setWidth 8
    constraint_setN_flag := ((BitVec.ofNat 32 s.constraint_flags.toNat >>> 4) &&& 0x0f).setWidth 8
    level_idc := (BitVec.ofNat 32 s.level_idc.toNat).setWidth 8 } (isHighProfile_iff s) _ _ rest hleft
  exact ⟨out, r, hrun, hout⟩

/-- A set of the baseline profile, for pictures of 704 by 480 samples. -/
def baseline (order : PicOrder) (h : order.Valid) : SpsSyntax where
  profile_idc := 66
  constraint_flags := 0
  level_idc := 30
  seq_parameter_set_id := 0
  high := none
  log2_max_frame_num_minus4 := 0
  order := order
  num_ref_frames := 1
  gaps_in_frame_num_value_allowed_flag := false
  pic_width_in_mbs_minus1 := 43
  pic_height_in_map_units_minus1 := 29
  frame_mbs_only_flag := true
  mb_adaptive_frame_field_flag := false
  direct_8x8_inference_flag := true
  crop := none
  vui_parameters_present_flag := false
  profile_mem := by decide
  high_iff := by decide
  id_ue := by decide
  frame_num_ue := by decide
  order_valid := h
  ref_frames_ue := by decide
  width_ue := by decide
  height_ue := by decide

theorem recovers_of_plain_baseline : (baseline (.lsb 0) (by decide : IsUe 0)).Plain ∧
    (baseline (.lsb 0) (by decide : IsUe 0)).Written [66, 0, 30, 0xf4, 0x05, 0x81, 0xec, 0x80] ∧
    (baseline (.lsb 0) (by decide : IsUe 0)).Recovers [66, 0, 30, 0xf4, 0x05, 0x81, 0xec, 0x80] := by
  have hplain : (baseline (.lsb 0) (by decide : IsUe 0)).Plain :=
    ⟨by decide, fun _ _ h => (by cases h), by decide, by decide⟩
  have hwritten : (baseline (.lsb 0) (by decide : IsUe 0)).Written [66, 0, 30, 0xf4, 0x05, 0x81, 0xec, 0x80] :=
    ⟨[0xf4, 0x05, 0x81, 0xec, 0x80], [true] ++ List.replicate 7 false, rfl, by decide +kernel⟩
  exact ⟨hplain, hwritten, recovers_of_plain _ hplain _ hwritten⟩

/-- With picture order type 2 the fields of type 1 are taken from those that follow. -/
theorem not_recovers : (baseline .output trivial).Written [66, 0, 30, 0xda, 0x02, 0xc0, 0xf6, 0x40] ∧
    ¬ (baseline .output trivial).Recovers [66, 0, 30, 0xda, 0x02, 0xc0, 0xf6, 0x40] := by
  refine ⟨⟨[0xda, 0x02, 0xc0, 0xf6, 0x40], [true] ++ List.replicate 6 false, rfl, by decide +kernel⟩,
    fun h => ?_⟩
  obtain ⟨out, r, hrun, hwidth, -⟩ := h {}
  have hfound : ((parseSps {} (.start 0 8)).run (.ofList [66, 0, 30, 0xda, 0x02, 0xc0, 0xf6, 0x40])).map
      (fun p => p.1.pic_width.toNat) ≠ some (16 * (43 + 1)) := by decide +kernel
  exact hfound (by rw [show (parseSps {} (.start 0 8)).run _ = _ from hrun, Option.map_some, hwidth]; rfl)

end DShow.Packetizer
