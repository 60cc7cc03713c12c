import DShowServer.Options.Model

/-!
# What is handed over on the command line

The line is words with a blank before each (`line_eq`), and the server reads
those of the first 254 characters (`parse_cmd`, `values_read`). A codec path
that is not one plain word is never what the server's ends up as (`codec_ne`).

The server has the client's values on every system if and only if the path is a
plain word, both formats are below `2^31`, and the line is long enough for all
options that are not the server's defaults (`handsOver_iff`).
-/

namespace DShow.Options

open Numeral Getopt Shell

/-! ## Characters of the line -/

theorem digitChar_calm {d : Nat} (hd : d < 16) : isCalm (Nat.digitChar d) := by
  have h : ∀ d < 16, isCalm (Nat.digitChar d) := by decide
  exact h d hd

theorem decimal_calm (x : Int) : ∀ c ∈ decimal x, isCalm c := by
  intro c hc
  obtain rfl | ⟨d, hd, rfl⟩ := mem_decimal hc
  · decide
  · exact digitChar_calm (by omega)

theorem padded_calm (w n : Nat) : ∀ c ∈ padded w n, isCalm c := by
  intro c hc
  obtain ⟨d, hd, rfl⟩ := mem_padded hc
  exact digitChar_calm hd

theorem hex_calm (n : Nat) : ∀ c ∈ hex n, isCalm c := by
  intro c hc
  obtain ⟨d, hd, rfl⟩ := mem_toDigits (by decide) hc
  exact digitChar_calm hd

theorem guid_calm (g : DsGuid) : ∀ c ∈ g.text, isCalm c := by
  have hdash : isCalm '-' := by decide
  simp only [DsGuid.text, List.forall_mem_append, List.forall_mem_cons, List.mem_flatMap,
    forall_exists_index, and_imp]
  exact ⟨⟨⟨padded_calm _ _, hdash, padded_calm _ _⟩, hdash, padded_calm _ _⟩, hdash,
    fun c b _ hc => padded_calm _ _ c hc⟩

/-! ## Numbers through a `long` -/

theorem long_decimal (x : BitVec 32) : long (decimal x.toInt) = x := by
  rw [long, strtol_decimal x.le_toInt x.toInt_lt, BitVec.ofInt_toInt]

/-- The largest `long` in place of what it does not hold. -/
def saturate (x : BitVec 32) : BitVec 32 := BitVec.ofNat 32 (min x.toNat (2 ^ 31 - 1))

theorem long_padded (w : Nat) (x : BitVec 32) : long ('0' :: 'x' :: padded w x.toNat) = saturate x := by
  rw [long, strtol_hex, saturate, ← BitVec.ofInt_natCast]

theorem saturate_eq_iff (x : BitVec 32) : saturate x = x ↔ x.toNat < 2 ^ 31 := by
  rw [saturate, ← BitVec.toNat_inj, BitVec.toNat_ofNat]
  omega

/-- A number that was cut off is right only if it was zero. -/
theorem long_cut {x : BitVec 32} {a b : List Char} (h : decimal x.toInt = a ++ b) (hb : b ≠ []) :
    long a = x ↔ x = 0 := by
  constructor
  · intro ha
    by_contra hx
    have hx' : x.toInt ≠ 0 := fun h => hx (BitVec.toInt_inj.mp (h.trans BitVec.toInt_zero.symm))
    obtain ⟨h₁, h₂⟩ := strtol_fits a
    refine strtol_cut x.le_toInt x.toInt_lt hx' h hb ?_
    rw [← ha, long, BitVec.toInt_ofInt, Int.bmod_eq_of_le] <;> omega
  · rintro rfl
    have ha : a = [] := by
      have hl : 1 = a.length + b.length := List.length_append ▸ congrArg List.length h
      have := List.length_pos_iff.mpr hb
      exact List.length_eq_zero_iff.mp (by omega)
    rw [ha]
    decide

/-! ## The words of the line -/

namespace Client

variable (cl : Client)

/-- The options the client gives. -/
def pairs : List Pair := [
  ⟨"codec".toList, 'c', cl.dll⟩,
  ⟨"size".toList, 's', decimal cl.w.toInt ++ 'x' :: decimal cl.h.toInt⟩,
  ⟨"guid".toList, 'g', cl.guid.text⟩,
  ⟨"fourc".toList, 'f', '0' :: 'x' :: padded 8 cl.format.toNat⟩,
  ⟨"bits".toList, 'b', decimal cl.bpp.toInt⟩,
  ⟨"outfmt".toList, 'o', '0' :: 'x' :: padded 8 cl.outFmt.toNat⟩,
  ⟨"pid".toList, 'p', decimal cl.pid.toInt⟩,
  ⟨"id".toList, 'i', cl.idText⟩,
  ⟨"numpages".toList, 'n', decimal cl.numpages.toInt⟩,
  ⟨"port".toList, 't', decimal cl.port.toInt⟩]

/-- The line up to the argument of the option `k`. -/
def upTo (k : Nat) : List Char := "dshowserver".toList ++ spaced ((cl.pairs.take k).flatMap Pair.words)

theorem length_upTo (k : Nat) :
    (cl.upTo k).length = 11 + (spaced ((cl.pairs.take k).flatMap Pair.words)).length := by
  have hname : "dshowserver".toList.length = 11 := by decide
  unfold upTo
  rewrite [List.length_append, hname]
  rfl

theorem line_eq : cl.line = cl.upTo 10 ++ [' ', '&'] := by
  have hpair : ∀ (name : List Char) (v : Char) (arg : List Char),
      spaced (Pair.mk name v arg).words = ' ' :: '-' :: '-' :: (name ++ ' ' :: arg) := by
    simp [spaced, Pair.words]
  have hall : cl.pairs.take 10 = cl.pairs := List.take_of_length_le (Nat.le_refl 10)
  have h₁ : "dshowserver --codec ".toList =
    "dshowserver".toList ++ ' ' :: '-' :: '-' :: ("codec".toList ++ [' ']) := rfl
  have h₂ : " --size ".toList = ' ' :: '-' :: '-' :: ("size".toList ++ [' ']) := rfl
  have h₃ : " --guid ".toList = ' ' :: '-' :: '-' :: ("guid".toList ++ [' ']) := rfl
  have h₄ : " --fourc 0x".toList = ' ' :: '-' :: '-' :: ("fourc".toList ++ [' ', '0', 'x']) := rfl
  have h₅ : " --bits ".toList = ' ' :: '-' :: '-' :: ("bits".toList ++ [' ']) := rfl
  have h₆ : " --outfmt 0x".toList = ' ' :: '-' :: '-' :: ("outfmt".toList ++ [' ', '0', 'x']) := rfl
  have h₇ : " --pid ".toList = ' ' :: '-' :: '-' :: ("pid".toList ++ [' ']) := rfl
  have h₈ : " --id ".toList = ' ' :: '-' :: '-' :: ("id".toList ++ [' ']) := rfl
  have h₉ : " --numpages ".toList = ' ' :: '-' :: '-' :: ("numpages".toList ++ [' ']) := rfl
  have h₁₀ : " --port ".toList = ' ' :: '-' :: '-' :: ("port".toList ++ [' ']) := rfl
  -- no `rw` here: it would compare the two lines by evaluating them
  unfold upTo
  rewrite [hall]
  unfold line pairs
  rewrite [h₁, h₂, h₃, h₄, h₅, h₆, h₇, h₈, h₉, h₁₀]
  simp only [List.append_assoc, List.flatMap_cons, List.flatMap_nil, spaced_append, hpair,
    List.cons_append, List.nil_append]
  rfl

/-- The line up to the last option that is not the server's default. -/
def needed : List Char := cl.upTo (if cl.port ≠ 0 then 10 else if cl.numpages ≠ 0 then 9 else 8)

/-! ## The words that are left of it -/

theorem pairs_known : ∀ p ∈ cl.pairs, table.valOf p.name = some p.val ∧ table.Silent p.name ∧
    ('-' :: '-' :: p.name).all isCalm := by
  simp only [pairs, List.forall_mem_cons]
  refine ⟨?_, ?_, ?_, ?_, ?_, ?_, ?_, ?_, ?_, ?_, List.forall_mem_nil _⟩ <;> decide

/-- All arguments but the codec's. -/
theorem pairs_calm : ∀ p ∈ cl.pairs.tail, p.arg ≠ [] ∧ ∀ c ∈ p.arg, isCalm c := by
  have h0 : isCalm '0' := by decide
  have hx : isCalm 'x' := by decide
  simp only [pairs, List.tail_cons, List.forall_mem_cons, List.forall_mem_append]
  have hd := fun x : Int => And.intro (decimal_ne_nil x) (decimal_calm x)
  have hp := fun x : BitVec 32 => And.intro (List.cons_ne_nil '0' ('x' :: padded 8 x.toNat))
    (And.intro h0 (And.intro hx (padded_calm 8 x.toNat)))
  refine ⟨⟨by simp, decimal_calm _, hx, decimal_calm _⟩, ⟨by simp [DsGuid.text], guid_calm _⟩, hp _, hd _,
    hp _, hd _, ⟨toDigits_ne_nil _ _, hex_calm _⟩, hd _, hd _, List.forall_mem_nil _⟩

theorem pairs_plain (h : Plain cl.dll) : ∀ w ∈ cl.pairs.flatMap Pair.words, Plain w := by
  have harg : ∀ p ∈ cl.pairs, Plain p.arg :=
    List.forall_mem_cons.mpr ⟨h, fun p hp => .of_calm (cl.pairs_calm p hp).1 (cl.pairs_calm p hp).2⟩
  intro w hw
  obtain ⟨p, hp, hw⟩ := List.mem_flatMap.mp hw
  simp only [Pair.words, List.mem_cons, List.not_mem_nil, or_false] at hw
  obtain rfl | rfl := hw
  · exact .of_calm (List.cons_ne_nil _ _) (List.all_eq_true.mp (cl.pairs_known p hp).2.2)
  · exact harg p hp

/-- The first 254 characters, behind the name. -/
theorem cmd_eq : cl.cmd =
    "dshowserver".toList ++ (spaced (cl.pairs.flatMap Pair.words) ++ [' ', '&']).take 243 := by
  have hall : cl.pairs.take 10 = cl.pairs := List.take_of_length_le (Nat.le_refl 10)
  have hname : "dshowserver".toList.length = 11 := by decide
  unfold cmd
  rewrite [line_eq]
  unfold upTo
  rewrite [hall, List.append_assoc, List.take_append, List.take_of_length_le (by omega), hname]
  rfl

theorem argv_plain (h : Plain cl.dll) (env : Surroundings) :
    argv env cl.cmd = "dshowserver".toList :: cut 243 (cl.pairs.flatMap Pair.words) := by
  rw [cmd_eq]
  exact argv_take (by decide) (cl.pairs_plain h) env 243

end Client

/-! ## The values read -/

namespace Settings

theorem set_id (o : Settings) (c : Char) (a : Option (List Char)) :
    (o.set (.option c a)).id = if c = 'i' then a else o.id := by
  simp only [set]
  split <;> simp_all [scanSize, scanGuid]

theorem set_codec (o : Settings) (c : Char) (a : Option (List Char)) :
    (o.set (.option c a)).codec = if c = 'c' then a else o.codec := by
  simp only [set]
  split <;> simp_all [scanSize, scanGuid]

theorem values_codec (o : Settings) : o.values.codec = o.codec := rfl

theorem values_id (o : Settings) : o.values.id = o.id := rfl

theorem set_numpages (o : Settings) (s : List Char) :
    (o.set (.option 'n' (some s))).values = { o.values with numpages := long s } :=
  rfl

theorem set_port (o : Settings) (s : List Char) :
    (o.set (.option 't' (some s))).values = { o.values with port := long s } :=
  rfl

/-- A text that one option sets was its argument. -/
theorem foldl_set {f : Settings → Option (List Char)} {c : Char}
    (hf : ∀ (o : Settings) d a, f (o.set (.option d a)) = if d = c then a else f o) {es : List Event}
    {o : Settings} {s : List Char} (h : f (es.foldl set o) = some s) :
    f o = some s ∨ .option c (some s) ∈ es := by
  induction es generalizing o with
  | nil => exact .inl h
  | cons e es ih =>
    obtain h | h := ih h
    · cases e with
      | error => exact .inl h
      | option d a =>
        rw [hf] at h
        split_ifs at h with hd
        · rw [hd, h]
          exact .inr List.mem_cons_self
        · exact .inl h
    · exact .inr (List.mem_cons_of_mem _ h)

theorem foldl_errors {es : List Event} (h : ∀ e ∈ es, e = .error) (o : Settings) : es.foldl set o = o := by
  induction es with
  | nil => rfl
  | cons e es ih =>
    obtain ⟨rfl, hes⟩ := List.forall_mem_cons.mp h
    exact ih hes

end Settings

namespace Client

variable (cl : Client)

/-- What the options up to `k` set. -/
def given (k : Nat) : Settings := ((cl.pairs.take k).map Pair.event).foldl Settings.set {}

/-- What follows the option before `k`: nothing, or the front of the argument of `k`. -/
def Rest (k : Nat) (es : List Event) : Prop :=
  (∀ e ∈ es, e = .error) ∨
    ∃ p a b, cl.pairs[k]? = some p ∧ p.arg = a ++ b ∧ b ≠ [] ∧ es = [.option p.val (some a)]

theorem given_eight : (cl.given 8).values = { cl.values with
    fourcc := saturate cl.format, outfmt := saturate cl.outFmt, numpages := 0, port := 0 } := by
  have hsize : sscanf sizeFormat (decimal cl.w.toInt ++ 'x' :: decimal cl.h.toInt) =
      [cl.w.toInt, cl.h.toInt] :=
    sscanf_size cl.w.le_toInt cl.w.toInt_lt cl.h.le_toInt cl.h.toInt_lt
  simp only [given, pairs, List.take_succ_cons, List.take_zero, List.map_cons, List.map_nil, Pair.event,
    List.foldl_cons, List.foldl_nil, Settings.set, Settings.scanSize, Settings.scanGuid, Option.getD_some,
    hsize, long_decimal, long_padded, Settings.values, assigned, List.getElem?_cons_zero,
    List.getElem?_cons_succ, Option.map_some, BitVec.ofInt_toInt, values]

theorem given_succ {k : Nat} {p : Pair} (h : cl.pairs[k]? = some p) :
    cl.given (k + 1) = (cl.given k).set p.event := by
  rw [given, List.take_add_one, h, List.map_append, List.foldl_append]
  rfl

theorem given_nine : (cl.given 9).values = { cl.values with
    fourcc := saturate cl.format, outfmt := saturate cl.outFmt, port := 0 } := by
  rw [cl.given_succ (k := 8) rfl, Pair.event, Settings.set_numpages, given_eight, long_decimal]
  rfl

theorem given_ten : (cl.given 10).values = { cl.values with
    fourcc := saturate cl.format, outfmt := saturate cl.outFmt } := by
  rw [cl.given_succ (k := 9) rfl, Pair.event, Settings.set_port, given_nine, long_decimal]
  rfl

/-- When the line goes on behind the id, only these four values can be others. -/
theorem values_read {k : Nat} {es : List Event} (hk : 8 ≤ k) (hes : cl.Rest k es) : ∃ n t,
    (es.foldl Settings.set (cl.given k)).values = { cl.values with
      fourcc := saturate cl.format, outfmt := saturate cl.outFmt, numpages := n, port := t } ∧
    (n = cl.numpages ↔ (cl.numpages ≠ 0 → 9 ≤ k)) ∧ (t = cl.port ↔ (cl.port ≠ 0 → 10 ≤ k)) := by
  have hcut : ∀ {x y : BitVec 32} {j : Nat}, k < j → (y = x ↔ x = 0) → (y = x ↔ (x ≠ 0 → j ≤ k)) :=
    fun hj h => h.trans ⟨fun h hx => absurd h hx, fun h => by_contra fun hx => absurd (h hx) (by omega)⟩
  have hthere : ∀ {x : BitVec 32} {j : Nat}, j ≤ k → (x = x ↔ (x ≠ 0 → j ≤ k)) :=
    fun hj => iff_of_true rfl fun _ => hj
  obtain rfl | rfl | hk : k = 8 ∨ k = 9 ∨ 10 ≤ k := by omega
  · obtain he | ⟨p, a, b, hp, hab, hb, rfl⟩ := hes
    · refine ⟨0, 0, ?_, hcut (by omega) eq_comm, hcut (by omega) eq_comm⟩
      rw [Settings.foldl_errors he, given_eight]
    · obtain rfl := Option.some.inj hp
      refine ⟨long a, 0, ?_, hcut (by omega) (long_cut hab hb), hcut (by omega) eq_comm⟩
      rw [List.foldl_cons, List.foldl_nil, Settings.set_numpages, given_eight]
  · obtain he | ⟨p, a, b, hp, hab, hb, rfl⟩ := hes
    · refine ⟨cl.numpages, 0, ?_, hthere (by omega), hcut (by omega) eq_comm⟩
      rw [Settings.foldl_errors he, given_nine]
      rfl
    · obtain rfl := Option.some.inj hp
      refine ⟨cl.numpages, long a, ?_, hthere (by omega), hcut (by omega) (long_cut hab hb)⟩
      rw [List.foldl_cons, List.foldl_nil, Settings.set_port, given_nine]
      rfl
  · have hlen : cl.pairs.length ≤ k := hk
    obtain he | ⟨p, a, b, hp, -⟩ := hes
    · refine ⟨cl.numpages, cl.port, ?_, hthere (by omega), hthere (by omega)⟩
      have hgiven : cl.given k = cl.given 10 := by
        rw [given, given, List.take_of_length_le hlen, List.take_of_length_le (Nat.le_refl 10)]
      rw [Settings.foldl_errors he, hgiven, given_ten]
      rfl
    · rw [List.getElem?_eq_none hlen] at hp
      cases hp

/-- Before that there is no id, or only its front. -/
theorem id_ne {k : Nat} {es : List Event} (hk : k < 8) (hes : cl.Rest k es) :
    (es.foldl Settings.set (cl.given k)).id ≠ some cl.idText := by
  intro h
  have hid : ∀ p ∈ cl.pairs, p.val = 'i' → p.arg = cl.idText := by
    simp [pairs]
  have hbefore : ∀ p ∈ cl.pairs.take 7, p.val ≠ 'i' := by
    simp [pairs]
  rw [given, ← List.foldl_append] at h
  obtain h | h := Settings.foldl_set Settings.set_id h
  · cases h
  obtain h | h := List.mem_append.mp h
  · obtain ⟨p, hp, he⟩ := List.mem_map.mp h
    have hval : p.val = 'i' := by
      simp only [Pair.event, Event.option.injEq] at he
      exact he.1
    exact hbefore p (List.take_subset_take_left _ (by omega) hp) hval
  · obtain he | ⟨p, a, b, hp, hab, hb, rfl⟩ := hes
    · cases he _ h
    · simp only [List.mem_singleton, Event.option.injEq, Option.some.injEq] at h
      obtain ⟨hval, rfl⟩ := h
      rw [hid p (List.mem_of_getElem? hp) hval.symm, List.self_eq_append_right] at hab
      exact hb hab

/-! ## The codec's path -/

/-- A system where no pattern matches and no other line runs the server. -/
def bare : Surroundings := ⟨fun _ => [], fun _ => []⟩

theorem mem_argv {line w : List Char} (h : w ∈ argv bare line) :
    ∃ ws, scan .plain none line = some ws ∧ ∃ x ∈ ws, x.expands = false ∧ x.chars = w := by
  rw [argv] at h
  split at h
  · cases h
  · rename_i ws hws
    obtain ⟨x, hx, hw⟩ := List.mem_flatMap.mp h
    split_ifs at hw with he
    · cases hw
    · exact ⟨ws, hws, x, hx, Bool.eq_false_iff.mpr he, (List.mem_singleton.mp hw).symm⟩

/-- The line behind the path. -/
def behind : List Char := spaced (cl.pairs.tail.flatMap Pair.words) ++ [' ', '&']

theorem behind_quiet : Quiet cl.behind := by
  refine Quiet.spaced ?_ ⟨.inl rfl, .inr (.inr ⟨rfl, rfl⟩), trivial⟩
  intro w hw
  obtain ⟨p, hp, hw⟩ := List.mem_flatMap.mp hw
  simp only [Pair.words, List.mem_cons, List.not_mem_nil, or_false] at hw
  obtain rfl | rfl := hw
  · exact List.all_eq_true.mp (cl.pairs_known p (List.mem_of_mem_tail hp)).2.2
  · exact (cl.pairs_calm p hp).2

/-- The first words of the line, and the path as far as it is there. -/
theorem scan_cmd : scan .plain none cl.cmd =
    (scan .plain none (cl.dll.take 234 ++ cl.behind.take (234 - cl.dll.length))).map
      ([.ofText "dshowserver".toList, .ofText "--codec".toList] ++ ·) := by
  have hline : spaced (cl.pairs.flatMap Pair.words) ++ [' ', '&'] =
      spaced ["--codec".toList] ++ ' ' :: (cl.dll ++ cl.behind) := by
    have hpairs : cl.pairs = ⟨"codec".toList, 'c', cl.dll⟩ :: cl.pairs.tail := rfl
    have hname : "--codec".toList = '-' :: '-' :: "codec".toList := rfl
    rewrite [hpairs, List.flatMap_cons, spaced_append, hname]
    simp only [Pair.words, spaced, behind, List.flatMap_cons, List.flatMap_nil, List.append_assoc,
      List.cons_append, List.nil_append]
  have hlen : (spaced ["--codec".toList]).length = 8 := by decide
  have htake : (spaced ["--codec".toList] ++ ' ' :: (cl.dll ++ cl.behind)).take 243 =
      spaced ["--codec".toList] ++ ' ' :: (cl.dll.take 234 ++ cl.behind.take (234 - cl.dll.length)) := by
    rewrite [List.take_append, List.take_of_length_le (by omega), hlen, List.take_succ_cons, List.take_append]
    rfl
  have hblank : ∀ cs, scan .plain none (' ' :: cs) = scan .plain none cs := by
    intro cs
    simp [scan, isBlank]
  have hcodec : ∀ w ∈ ["--codec".toList], Plain w := by decide
  rewrite [cmd_eq, hline, htake, scan_plain (by decide), scan_gap (by rintro _ ⟨⟩; rfl),
    scan_spaced hcodec (by rintro _ ⟨⟩; rfl), hblank, Option.map_map]
  rfl

/-- A path that is no plain word is not what the server has. -/
theorem codec_ne (hp : ¬ Plain cl.dll) : (Settings.parse (argv bare cl.cmd)).codec ≠ some cl.dll := by
  intro h
  have hcalm : ∀ {w : List Char}, w ≠ [] → (∀ c ∈ w, isCalm c) → cl.dll <:+ w →
      ¬ (w = [] ∨ '=' ∈ w ∨ cl.dll ≠ []) := by
    rintro w hne hw hs (h | h | h)
    · exact hne h
    · exact calm_ne (hw _ h) (by decide) rfl
    · exact hp (.of_calm h fun c hc => hw c (hs.subset hc))
  obtain h | h := Settings.foldl_set Settings.set_codec h
  · cases h
  obtain ⟨w, hw, hs, hor⟩ := Table.events_suffix h
  obtain ⟨ws, hws, x, hx, he, rfl⟩ := mem_argv (List.mem_of_mem_tail hw)
  rw [scan_cmd] at hws
  obtain ⟨ws', hws', rfl⟩ := Option.map_eq_some_iff.mp hws
  have hq := cl.behind_quiet.take (234 - cl.dll.length)
  simp only [List.cons_append, List.nil_append, List.mem_cons] at hx
  obtain rfl | rfl | hx := hx
  · rw [Word.chars_ofText] at hs hor
    exact hcalm (by decide) (List.all_eq_true.mp (by decide)) hs hor
  · rw [Word.chars_ofText] at hs hor
    exact hcalm (by decide) (List.all_eq_true.mp (by decide)) hs hor
  by_cases hnil : cl.dll = []
  · rw [hnil, List.take_nil, List.nil_append] at hws'
    obtain ⟨v, -, hv, -⟩ | ⟨hne, hx⟩ := scan_quiet (hnil ▸ hq) hws' x hx
    · cases hv
    · exact hcalm hne hx hs hor
  · have hcut : cl.dll.take 234 = cl.dll ∨
        (cl.dll.take 234).length < cl.dll.length ∧ cl.behind.take (234 - cl.dll.length) = [] := by
      by_cases hl : cl.dll.length ≤ 234
      · exact .inl (List.take_of_length_le hl)
      · refine .inr ⟨by rw [List.length_take]; omega, ?_⟩
        rw [show 234 - cl.dll.length = 0 by omega, List.take_zero]
    exact scan_not_suffix hnil hp hcut hq (head_take _ _) hws' x hx he hs

/-! ## The whole line -/

/-- How the server reads a line with a plain path, on any system. -/
theorem parse_cmd (hp : Plain cl.dll) : ∃ k es, cl.Rest k es ∧
    (∀ env, Settings.parse (argv env cl.cmd) = es.foldl Settings.set (cl.given k)) ∧
    ∀ j ≤ 10, (cl.upTo j).length ≤ 254 ↔ j ≤ k := by
  have hps : ∀ p ∈ cl.pairs, table.valOf p.name = some p.val ∧ table.Silent p.name ∧ p.arg ≠ [] :=
    fun p h => ⟨(cl.pairs_known p h).1, (cl.pairs_known p h).2.1,
      (cl.pairs_plain hp p.arg (List.mem_flatMap.mpr ⟨p, h, by simp [Pair.words]⟩)).1⟩
  obtain ⟨k, es, he, hk, hes⟩ := Table.events_cut hps 243
  refine ⟨k, es, hes, ?_, ?_⟩
  · intro env
    rw [Settings.parse, argv_plain cl hp, List.tail_cons, he, List.foldl_append, given]
  · intro j hj
    have := hk j hj
    rw [length_upTo]
    omega

/-- The line goes on to where it is needed. -/
theorem needed_iff {k : Nat} (hk : ∀ j ≤ 10, (cl.upTo j).length ≤ 254 ↔ j ≤ k) :
    cl.needed.length ≤ 254 ↔ 8 ≤ k ∧ (cl.numpages ≠ 0 → 9 ≤ k) ∧ (cl.port ≠ 0 → 10 ≤ k) := by
  rw [needed]
  split_ifs with hport hpages
  · rw [hk 10 (Nat.le_refl 10)]
    exact ⟨fun h => ⟨by omega, fun _ => by omega, fun _ => h⟩, fun h => h.2.2 hport⟩
  · rw [hk 9 (by omega)]
    exact ⟨fun h => ⟨by omega, fun _ => h, fun h => absurd h hport⟩, fun h => h.2.1 hpages⟩
  · rw [hk 8 (by omega)]
    exact ⟨fun h => ⟨h, fun h => absurd h hpages, fun h => absurd h hport⟩, fun h => h.1⟩

/-- The codec's path is one plain word, both formats fit a `long`, and the line is not cut off
before the last option that is not the server's default. -/
theorem handsOver_iff : cl.HandsOver ↔ Plain cl.dll ∧ cl.format.toNat < 2 ^ 31 ∧
    cl.outFmt.toNat < 2 ^ 31 ∧ cl.needed.length ≤ 254 := by
  by_cases hp : Plain cl.dll
  · obtain ⟨k, es, hes, hparse, hk⟩ := cl.parse_cmd hp
    have hover : cl.HandsOver ↔ (es.foldl Settings.set (cl.given k)).values = cl.values := by
      constructor
      · intro h
        rw [← hparse bare]
        exact h bare
      · intro h env
        rw [hparse env, h]
    rw [hover, cl.needed_iff hk]
    by_cases h8 : 8 ≤ k
    · obtain ⟨n, t, hv, hn, ht⟩ := cl.values_read h8 hes
      rw [hv]
      simp only [values, Values.mk.injEq, true_and, saturate_eq_iff, hn, ht, hp, h8]
    · refine iff_of_false (fun h => cl.id_ne (by omega) hes ?_) fun h => h8 h.2.2.2.1
      rw [← Settings.values_id, h, values]
  · refine iff_of_false (fun h => cl.codec_ne hp ?_) fun h => hp h.1
    rw [← Settings.values_codec, h bare, values]

/-- A codec in a directory that has a blank in its name. -/
def blankPath : Client where
  dll := "/opt/my codecs/CoreAVCDecoder.ax".toList
  w := 1280
  h := 720
  guid := ⟨0x09571a4b, 0xf1fe, 0x4c60, #v[0x97, 0x60, 0xde, 0x6d, 0x31, 0x0c, 0x7c, 0x31]⟩
  format := 0x34363248
  bpp := 16
  outFmt := 0x32595559
  pid := 4242
  id := 0xb7f2a6c0
  numpages := 10
  port := 5000
  dll_string := by decide

/-- The server looks for the first part of that path only. -/
theorem not_handsOver : (Settings.parse (argv bare blankPath.cmd)).codec = some "/opt/my".toList ∧
    ¬ blankPath.HandsOver := by
  have hcodec : (Settings.parse (argv bare blankPath.cmd)).codec = some "/opt/my".toList := by
    decide +kernel
  refine ⟨hcodec, fun h => ?_⟩
  have hall := congrArg Values.codec (h bare)
  rw [Settings.values_codec, hcodec] at hall
  exact absurd hall (by decide)

end Client

end DShow.Options
