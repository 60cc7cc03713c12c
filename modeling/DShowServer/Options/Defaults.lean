import DShowServer.Options.Model
import Mathlib.Data.List.Infix

/-!
# The defaults of the test mode

`get_default` (`defaults.c`) looks for the first entry of `known_codecs` whose name
occurs in the codec's path. Its loop ends at an entry with no name; the table has
none, so that the loop goes on in what lies behind the table.

`first_match` and `matchLoop_behind` say what the loop does in any table whose entries
have names. So the defaults are right if an entry matches and the output format is
not asked for, and otherwise wrong (`defaultOk_iff`).
-/

namespace DShow.Options

open Numeral

/-- `struct codecs`. -/
structure Codecs where
  name : List Char
  width : BitVec 32
  height : BitVec 32
  fourcc : BitVec 32
  outfmt : BitVec 32
  outbits : BitVec 32
  guid : DsGuid
deriving DecidableEq

/-- `known_codecs`. -/
def knownCodecs : List Codecs := [{
  name := "CoreAVCDecoder.ax".toList
  width := 1280
  height := 720
  fourcc := 0x34363248
  outfmt := 0x30323449
  outbits := 12
  guid := ⟨0x09571a4b, 0xf1fe, 0x4c60, #[0x97, 0x60, 0xde, 0x6d, 0x31, 0x0c, 0x7c, 0x31].toVector⟩ }]

/-! ## The loop over the table -/

section Scan

variable (table : List Codecs) (behind : Nat → Codecs) (str : List Char)

/-- The entry at an index, behind the table what the memory holds there. -/
def entry (i : Nat) : Codecs := table.getD i (behind (i - table.length))

/-- `strstr(str, codec->name)`. -/
def Codecs.occurs (codec : Codecs) : Bool := codec.name <:+: str

/-- The loop, in at most so many rounds: the entries it examines from `i` on, of which the last ends
it. -/
def matchLoop : Nat → Nat → Option (List Nat × Nat)
  | 0, _ => none
  | room + 1, i =>
    let codec := entry table behind i
    if codec.name = [] ∨ codec.occurs str then some ([i], i)
    else (matchLoop room (i + 1)).map fun (examined, last) => (i :: examined, last)

variable {table behind str}

theorem entry_of_lt {i : Nat} (h : i < table.length) : entry table behind i = table[i] := by
  rw [entry, List.getD_eq_getElem?_getD, List.getElem?_eq_getElem h, Option.getD_some]

/-- The loop examines the entries up to the one it ends at, where the others match no more than
they are nameless. -/
theorem matchLoop_spec {room i last : Nat} {examined : List Nat}
    (h : matchLoop table behind str room i = some (examined, last)) :
    i ≤ last ∧ examined = List.range' i (last + 1 - i) ∧
      ((entry table behind last).name = [] ∨ (entry table behind last).occurs str) ∧
      ∀ j, i ≤ j → j < last →
        (entry table behind j).name ≠ [] ∧ (entry table behind j).occurs str = false := by
  induction room generalizing i examined with
  | zero => exact absurd h (by simp [matchLoop])
  | succ room ih =>
    rw [matchLoop] at h
    split at h
    · rename_i hend
      obtain ⟨rfl, rfl⟩ : [i] = examined ∧ i = last := by simpa using h
      refine ⟨Nat.le_refl i, ?_, hend, fun j hij hj => absurd hj (by omega)⟩
      rw [Nat.add_sub_cancel_left]
      rfl
    · rename_i hgo
      obtain ⟨⟨examined', last'⟩, hrest, e⟩ := Option.map_eq_some_iff.mp h
      obtain ⟨rfl, rfl⟩ : i :: examined' = examined ∧ last' = last := by simpa using e
      obtain ⟨hle, hex, hend, hbefore⟩ := ih hrest
      refine ⟨by omega, ?_, hend, fun j hij hj => ?_⟩
      · rw [hex, show last' + 1 - i = last' + 1 - (i + 1) + 1 by omega, List.range'_succ]
      · obtain rfl | hlt : i = j ∨ i + 1 ≤ j := by omega
        · exact ⟨fun hn => hgo (.inl hn), by simpa using fun ho => hgo (.inr ho)⟩
        · exact hbefore j hlt hj

/-- With room for so many rounds the loop gets to an entry that ends it. -/
theorem matchLoop_some {room i n : Nat} (hn : i ≤ n) (hroom : n < i + room)
    (hend : (entry table behind n).name = [] ∨ (entry table behind n).occurs str) :
    ∃ r, matchLoop table behind str room i = some r := by
  induction room generalizing i with
  | zero => omega
  | succ room ih =>
    rw [matchLoop]
    split
    · exact ⟨_, rfl⟩
    · rename_i hgo
      have hne : i ≠ n := by
        rintro rfl
        exact hgo hend
      obtain ⟨r, hr⟩ := ih (i := i + 1) (by omega) (by omega)
      exact ⟨_, by rw [hr, Option.map_some]⟩

/-- The loop ends where an entry of the table matches. -/
theorem exists_matchLoop {codec : Codecs} (hfind : table.find? (·.occurs str) = some codec) :
    ∃ r, matchLoop table behind str table.length 0 = some r := by
  obtain ⟨hocc, n, hn, rfl, -⟩ := List.find?_eq_some_iff_getElem.mp hfind
  exact matchLoop_some (Nat.zero_le n) (by omega) (.inr (by rw [entry_of_lt hn, hocc]))

/-- It is the first such entry. -/
theorem first_match (hnames : ∀ c ∈ table, c.name ≠ []) {codec : Codecs}
    (hfind : table.find? (·.occurs str) = some codec) {room last : Nat} {examined : List Nat}
    (h : matchLoop table behind str room 0 = some (examined, last)) : entry table behind last = codec := by
  obtain ⟨hocc, n, hn, rfl, hfirst⟩ := List.find?_eq_some_iff_getElem.mp hfind
  obtain ⟨-, -, hend, hbefore⟩ := matchLoop_spec h
  rcases Nat.lt_trichotomy last n with hlt | rfl | hgt
  · -- an earlier entry has a name and does not match
    rw [entry_of_lt (by omega)] at hend
    have hno : table[last].occurs str = false := by simpa using hfirst last hlt
    obtain h | h := hend
    · exact absurd h (hnames _ (List.getElem_mem _))
    · exact absurd h (by simp [hno])
  · exact entry_of_lt hn
  · have := (hbefore n (Nat.zero_le n) hgt).2
    rw [entry_of_lt hn, hocc] at this
    exact absurd this (by decide)

/-- When no entry of the table matches and all have names, the loop examines what lies behind. -/
theorem matchLoop_behind (hnames : ∀ c ∈ table, c.name ≠ []) (hfind : table.find? (·.occurs str) = none)
    {room last : Nat} {examined : List Nat}
    (h : matchLoop table behind str room 0 = some (examined, last)) : table.length ∈ examined := by
  obtain ⟨-, rfl, hend, -⟩ := matchLoop_spec h
  have hno : ∀ c ∈ table, c.occurs str = false := by simpa using hfind
  have hlast : table.length ≤ last := by
    by_contra hlt
    rw [entry_of_lt (by omega)] at hend
    obtain h | h := hend
    · exact hnames _ (List.getElem_mem _) h
    · rw [hno _ (List.getElem_mem _)] at h
      exact absurd h (by decide)
  simp only [List.mem_range'_1]
  omega

end Scan

/-! ## `get_default` -/

/-- What is stored at `param`. -/
inductive Value
  | uint32 (x : BitVec 32)
  | dsGuid (g : DsGuid)
deriving DecidableEq

/-- What becomes of a call: something is printed, and then a value is stored or the program ends. -/
inductive Outcome
  | stored (printed : List Char) (value : Value)
  | exit (printed : List Char)
deriving DecidableEq

/-- The entries a call examines, and what becomes of it. -/
structure Call where
  examined : List Nat
  outcome : Outcome
deriving DecidableEq

/-- `printf("Using default <what> for %s: <shown>\n")`. -/
def Codecs.using (codec : Codecs) (what : String) (shown : List Char) : List Char :=
  "Using default ".toList ++ what.toList ++ " for ".toList ++ codec.name ++ ": ".toList ++ shown ++ ['\n']

/-! The parameters, by the names of `defaults.h`. -/

@[match_pattern] abbrev paramWidth : Int := 0
@[match_pattern] abbrev paramHeight : Int := 1
@[match_pattern] abbrev paramFourcc : Int := 2
@[match_pattern] abbrev paramOutfmt : Int := 3
@[match_pattern] abbrev paramOutbits : Int := 4
@[match_pattern] abbrev paramGuid : Int := 5

/-- The `switch` of `get_default`. -/
def Codecs.switch (codec : Codecs) : Int → Outcome
  | paramWidth => .stored (codec.using "width " (decimal codec.width.toInt)) (.uint32 codec.width)
  | paramHeight => .stored (codec.using "height" (decimal codec.height.toInt)) (.uint32 codec.height)
  | paramFourcc => .stored (codec.using "fourcc" ('0' :: 'x' :: padded 8 codec.fourcc.toNat)) (.uint32 codec.fourcc)
  -- the line shows `outfmt`, the value is `fourcc`
  | paramOutfmt => .stored (codec.using "outfmt" ('0' :: 'x' :: padded 8 codec.outfmt.toNat)) (.uint32 codec.fourcc)
  | paramOutbits => .stored (codec.using "outbit" (decimal codec.outbits.toInt)) (.uint32 codec.outbits)
  | paramGuid => .stored (codec.using "GUID  " codec.guid.text) (.dsGuid codec.guid)
  | paramNum => .exit ("Unknown default param ".toList ++ decimal paramNum ++ " requested\n".toList)

/-- `printf("Defaults requested, but codec %s is unknown\n")`. -/
def unknownCodec (str : List Char) : List Char :=
  "Defaults requested, but codec ".toList ++ str ++ " is unknown\n".toList

/-- `get_default`, with what lies behind `known_codecs` and so many rounds for the loop. -/
def getDefault (behind : Nat → Codecs) (room : Nat) (str : List Char) (paramNum : Int) : Option Call :=
  (matchLoop knownCodecs behind str room 0).map fun (examined, last) =>
    let codec := entry knownCodecs behind last
    ⟨examined, if codec.name = [] then .exit (unknownCodec str) else codec.switch paramNum⟩

/-! ## What it is for -/

/-- The field of an entry that a parameter is named for, and that the line printed shows. -/
def Codecs.field (codec : Codecs) : Int → Option Value
  | paramWidth => some (.uint32 codec.width)
  | paramHeight => some (.uint32 codec.height)
  | paramFourcc => some (.uint32 codec.fourcc)
  | paramOutfmt => some (.uint32 codec.outfmt)
  | paramOutbits => some (.uint32 codec.outbits)
  | paramGuid => some (.dsGuid codec.guid)
  | _ => none

/-- A call stores the field of the first entry that matches, or ends the program after it has
examined the table alone. -/
def DefaultOk (behind : Nat → Codecs) (str : List Char) (paramNum : Int) : Prop :=
  ∃ room call, getDefault behind room str paramNum = some call ∧
    match knownCodecs.find? (·.occurs str) with
    | some codec => ∀ value, codec.field paramNum = some value →
        ∃ printed, call.outcome = .stored printed value
    | none => call.outcome = .exit (unknownCodec str) ∧ ∀ i ∈ call.examined, i < knownCodecs.length

theorem knownCodecs_named : ∀ c ∈ knownCodecs, c.name ≠ [] := by decide

theorem knownCodecs_formats : ∀ c ∈ knownCodecs, c.fourcc ≠ c.outfmt := by decide

/-- The output format apart, the value stored is that of the field the parameter is named for. -/
theorem Codecs.switch_field (codec : Codecs) {paramNum : Int} (hp : paramNum ≠ paramOutfmt) {value : Value}
    (hv : codec.field paramNum = some value) : ∃ printed, codec.switch paramNum = .stored printed value := by
  unfold Codecs.field at hv
  split at hv
  case h_4 => exact absurd rfl hp
  case h_7 => exact absurd hv (by simp)
  all_goals
    obtain rfl := Option.some.inj hv
    exact ⟨_, rfl⟩

/-- What a call does where an entry of the table matches. -/
theorem getDefault_of_find {codec : Codecs} {str : List Char}
    (hfind : knownCodecs.find? (·.occurs str) = some codec) {behind : Nat → Codecs} {room : Nat}
    {paramNum : Int} {call : Call} (h : getDefault behind room str paramNum = some call) :
    call.outcome = codec.switch paramNum := by
  obtain ⟨⟨examined, last⟩, hloop, rfl⟩ := Option.map_eq_some_iff.mp h
  have hlast := first_match knownCodecs_named hfind hloop
  simp only [hlast]
  rw [if_neg (knownCodecs_named _ (List.mem_of_find?_eq_some hfind))]

/-- Where no entry matches, the call examines what lies behind the table. -/
theorem not_ok_of_none {str : List Char} (hfind : knownCodecs.find? (·.occurs str) = none)
    (behind : Nat → Codecs) (paramNum : Int) : ¬ DefaultOk behind str paramNum := by
  rintro ⟨room, call, hcall, hok⟩
  rw [hfind] at hok
  obtain ⟨⟨examined, last⟩, hloop, rfl⟩ := Option.map_eq_some_iff.mp hcall
  exact Nat.lt_irrefl _ (hok.2 _ (matchLoop_behind knownCodecs_named hfind hloop))

/-- Where an entry matches, the output format alone goes wrong. -/
theorem ok_iff_of_some {codec : Codecs} {str : List Char}
    (hfind : knownCodecs.find? (·.occurs str) = some codec) (behind : Nat → Codecs) (paramNum : Int) :
    DefaultOk behind str paramNum ↔ paramNum ≠ paramOutfmt := by
  constructor
  · rintro ⟨room, call, hcall, hok⟩ rfl
    rw [hfind] at hok
    obtain ⟨printed, hstored⟩ := hok _ rfl
    rw [getDefault_of_find hfind hcall] at hstored
    obtain ⟨-, hvalue⟩ := Outcome.stored.inj hstored
    exact knownCodecs_formats codec (List.mem_of_find?_eq_some hfind) (Value.uint32.inj hvalue)
  · intro hp
    obtain ⟨r, hloop⟩ : ∃ r, matchLoop knownCodecs behind str knownCodecs.length 0 = some r :=
      exists_matchLoop hfind
    obtain ⟨call, hcall⟩ : ∃ call, getDefault behind knownCodecs.length str paramNum = some call :=
      ⟨_, by rw [getDefault, hloop, Option.map_some]⟩
    refine ⟨_, call, hcall, ?_⟩
    rw [hfind]
    intro value hv
    rw [getDefault_of_find hfind hcall]
    exact codec.switch_field hp hv

/-- The defaults are right where an entry matches and the parameter is not the output format. -/
theorem defaultOk_iff (behind : Nat → Codecs) (str : List Char) (paramNum : Int) :
    DefaultOk behind str paramNum ↔ (∃ c ∈ knownCodecs, c.occurs str) ∧ paramNum ≠ paramOutfmt := by
  cases hfind : knownCodecs.find? (·.occurs str) with
  | none =>
    refine iff_of_false (not_ok_of_none hfind behind paramNum) fun ⟨⟨c, hc, hocc⟩, _⟩ => ?_
    exact absurd hocc (List.find?_eq_none.mp hfind c hc)
  | some codec =>
    rw [ok_iff_of_some hfind, and_iff_right ⟨codec, List.mem_of_find?_eq_some hfind, List.find?_some hfind⟩]

/-- Memory that is zero. -/
def zeros : Nat → Codecs := fun _ => ⟨[], 0, 0, 0, 0, 0, ⟨0, 0, 0, .replicate 8 0⟩⟩

/-- The output format of the codec that is known, and a codec that is not. -/
theorem not_defaultOk : ¬ DefaultOk zeros "CoreAVCDecoder.ax".toList paramOutfmt ∧
    ¬ DefaultOk zeros "ffdshow.ax".toList paramWidth := by
  constructor
  · have hfind : knownCodecs.find? (·.occurs "CoreAVCDecoder.ax".toList) = some knownCodecs[0] := by
      decide +kernel
    rw [ok_iff_of_some hfind]
    exact fun h => h rfl
  · exact not_ok_of_none (by decide +kernel) _ _

end DShow.Options
