import Mathlib.Algebra.Group.Int.Defs
import Mathlib.Algebra.Group.Nat.Defs
import Mathlib.Data.List.Basic
import Mathlib.Data.Option.Basic

/-!
# Numbers, printed and read

`printf` writes a number in decimal (`decimal`) or in hexadecimal with zeros in
front (`padded`); `strtol` takes the base from the text and saturates at the
ends of a 32-bit `long`. A number that fits comes back (`strtol_decimal`,
`strtol_hex`), and a decimal that was cut off does not (`strtol_cut`).
-/

namespace DShow.Numeral

/-! ## Digits -/

/-- The digit that a character is, if it is one in that base. -/
def digit (b : Nat) (c : Char) : Option Nat :=
  let d :=
    if '0' ≤ c ∧ c ≤ '9' then some (c.toNat - 48)
    else if 'a' ≤ c ∧ c ≤ 'f' then some (c.toNat - 87)
    else if 'A' ≤ c ∧ c ≤ 'F' then some (c.toNat - 55)
    else none
  d.filter (· < b)

/-- The number at the front, of at most `room` digits, and what follows it. -/
def readDigits (b : Nat) : Nat → List Char → Nat → Nat × List Char
  | room + 1, c :: cs, n =>
    match digit b c with
    | some d => readDigits b room cs (n * b + d)
    | none => (n, c :: cs)
  | _, cs, n => (n, cs)

theorem digit_digitChar {b d : Nat} (hd : d < b) (hb : b ≤ 16) : digit b (Nat.digitChar d) = some d := by
  have h : ∀ d < 16, digit 16 (Nat.digitChar d) = some d := by decide
  have h' := h d (by omega)
  simp only [digit, Option.filter_eq_some_iff, decide_eq_true_eq] at h' ⊢
  exact ⟨h'.1, hd⟩

/-- The digits of a number are read as that number, behind what was read before. -/
theorem readDigits_toDigits {b : Nat} (hb : 1 < b) (hb' : b ≤ 16) (n acc room : Nat) (cs : List Char) :
    readDigits b (room + (Nat.toDigits b n).length) (Nat.toDigits b n ++ cs) acc =
      readDigits b room cs (acc * b ^ (Nat.toDigits b n).length + n) := by
  induction n using Nat.strongRecOn generalizing acc room cs with
  | ind n ih =>
    rw [Nat.toDigits_eq_if hb]
    by_cases hn : n < b
    · rw [if_pos hn]
      simp only [List.length_singleton, List.singleton_append, readDigits, digit_digitChar hn hb',
        pow_one]
    · rw [if_neg hn, List.length_append, List.length_singleton, List.append_assoc,
        show room + ((Nat.toDigits b (n / b)).length + 1) = room + 1 + (Nat.toDigits b (n / b)).length by omega,
        ih (n / b) (Nat.div_lt_self (by omega) hb)]
      simp only [List.singleton_append, readDigits, digit_digitChar (Nat.mod_lt n (by omega)) hb', pow_succ]
      congr 1
      have := Nat.div_add_mod n b
      rw [Nat.add_mul, ← Nat.mul_assoc, Nat.add_assoc, Nat.mul_comm (n / b), this]

/-- Zeros in front do not matter. -/
theorem readDigits_zeros {b : Nat} (hb : 0 < b) (k room : Nat) (cs : List Char) :
    readDigits b (room + k) (List.replicate k '0' ++ cs) 0 = readDigits b room cs 0 := by
  induction k with
  | zero => rfl
  | succ k ih =>
    have h0 : digit b '0' = some 0 := by
      simp only [digit, Option.filter_eq_some_iff, decide_eq_true_eq]
      exact ⟨by decide, hb⟩
    rw [List.replicate_succ, List.cons_append, show room + (k + 1) = room + k + 1 by omega, readDigits,
      h0]
    simpa using ih

theorem readDigits_nil (b room n : Nat) : readDigits b room [] n = (n, []) := by
  cases room <;> rfl

/-! ## Printing -/

/-- `%d`. -/
def decimal (x : Int) : List Char :=
  if x < 0 then '-' :: Nat.toDigits 10 (-x).toNat else Nat.toDigits 10 x.toNat

/-- `%x`. -/
def hex (n : Nat) : List Char := Nat.toDigits 16 n

/-- `%0wx`. -/
def padded (w n : Nat) : List Char := List.leftpad w '0' (hex n)

/-! ## Reading -/

/-- `isspace`. -/
def isSpace (c : Char) : Bool := c = ' ' || ('\t' ≤ c && c ≤ '\r')

/-- A sign, if there is one: whether it is a minus, and what follows it. -/
def sign : List Char → Bool × List Char
  | [] => (false, [])
  | c :: cs => if c = '-' then (true, cs) else if c = '+' then (false, cs) else (false, c :: cs)

/-- The base that the text is in, and its digits. -/
def withBase : List Char → Nat × List Char
  | '0' :: x :: c :: cs =>
    if (x = 'x' ∨ x = 'X') ∧ (digit 16 c).isSome then (16, c :: cs) else (8, '0' :: x :: c :: cs)
  | '0' :: cs => (8, '0' :: cs)
  | cs => (10, cs)

/-- The value of a `long` of 32 bits that is to hold `n` or `-n`. -/
def clamp (negative : Bool) (n : Nat) : Int := max (-2 ^ 31) (min (2 ^ 31 - 1) (if negative then -n else n))

/-- `strtol` with base 0. -/
def strtol (s : List Char) : Int :=
  let (negative, s) := sign (s.dropWhile isSpace)
  let (base, s) := withBase s
  clamp negative (readDigits base s.length s 0).1

/-- `%d` of `scanf`: the number and what follows it. -/
def scanInt (s : List Char) : Option (Int × List Char) :=
  let (negative, s) := sign (s.dropWhile isSpace)
  let (n, rest) := readDigits 10 s.length s 0
  if rest.length < s.length then some (clamp negative n, rest) else none

/-- `%wx` of `scanf`; a sign and a `0x` count for the width. -/
def scanHex (w : Nat) (s : List Char) : Option (Nat × List Char) :=
  let s := s.dropWhile isSpace
  let (negative, t) := sign (s.take w)
  let t := match t with
    | '0' :: x :: t => if x = 'x' ∨ x = 'X' then t else '0' :: x :: t
    | t => t
  let (n, left) := readDigits 16 t.length t 0
  if left.length < t.length then some (if negative then 2 ^ 32 - n else n, left ++ s.drop w)
  else none

/-- A directive of `scanf`: `%d`, `%wx`, or a character to be there. -/
inductive Directive
  | int
  | hex (w : Nat)
  | lit (c : Char)

/-- The values `sscanf` assigns, as far as the text is of that form. -/
def sscanf : List Directive → List Char → List Int
  | [], _ => []
  | .int :: ds, s =>
    match scanInt s with
    | some (n, s) => n :: sscanf ds s
    | none => []
  | .hex w :: ds, s =>
    match scanHex w s with
    | some (n, s) => n :: sscanf ds s
    | none => []
  | .lit c :: ds, s => if s.head? = some c then sscanf ds s.tail else []

/-! ## Reading what was printed -/

theorem digitChar_ne {d : Nat} (hd : d < 16) : isSpace (Nat.digitChar d) = false ∧
    Nat.digitChar d ≠ '-' ∧ Nat.digitChar d ≠ '+' ∧ Nat.digitChar d ≠ 'x' ∧ Nat.digitChar d ≠ 'X' := by
  have h : ∀ d < 16, isSpace (Nat.digitChar d) = false ∧ Nat.digitChar d ≠ '-' ∧
      Nat.digitChar d ≠ '+' ∧ Nat.digitChar d ≠ 'x' ∧ Nat.digitChar d ≠ 'X' := by decide
  exact h d hd

theorem mem_toDigits {b : Nat} (hb : 1 < b) {n : Nat} {c : Char} (h : c ∈ Nat.toDigits b n) :
    ∃ d < b, c = Nat.digitChar d := by
  induction n using Nat.strongRecOn with
  | ind n ih =>
    rw [Nat.toDigits_eq_if hb] at h
    by_cases hn : n < b
    · rw [if_pos hn, List.mem_singleton] at h
      exact ⟨n, hn, h⟩
    · rw [if_neg hn, List.mem_append, List.mem_singleton] at h
      obtain h | h := h
      · exact ih (n / b) (Nat.div_lt_self (by omega) hb) h
      · exact ⟨n % b, Nat.mod_lt n (by omega), h⟩

theorem mem_decimal {x : Int} {c : Char} (h : c ∈ decimal x) : c = '-' ∨ ∃ d < 10, c = Nat.digitChar d := by
  rw [decimal] at h
  split at h
  · exact (List.mem_cons.mp h).imp_right (mem_toDigits (by decide))
  · exact .inr (mem_toDigits (by decide) h)

theorem toDigits_ne_nil (b n : Nat) : Nat.toDigits b n ≠ [] :=
  List.length_pos_iff.mp Nat.length_toDigits_pos

theorem decimal_ne_nil (x : Int) : decimal x ≠ [] := by
  rw [decimal]
  split
  · exact List.cons_ne_nil _ _
  · exact toDigits_ne_nil _ _

theorem mem_padded {w n : Nat} {c : Char} (h : c ∈ padded w n) : ∃ d < 16, c = Nat.digitChar d := by
  obtain h | h := List.mem_append.mp h
  · exact ⟨0, by decide, (List.mem_replicate.mp h).2⟩
  · exact mem_toDigits (by decide) h

/-- The first digit of a number is not zero, unless it is the only one. -/
theorem toDigits_head {b : Nat} (hb : 1 < b) (hb' : b ≤ 16) (n : Nat) :
    ∃ d cs, d < b ∧ Nat.toDigits b n = Nat.digitChar d :: cs ∧ (d = 0 → n = 0) := by
  induction n using Nat.strongRecOn with
  | ind n ih =>
    rw [Nat.toDigits_eq_if hb]
    by_cases hn : n < b
    · rw [if_pos hn]
      exact ⟨n, [], hn, rfl, id⟩
    · rw [if_neg hn]
      obtain ⟨d, cs, hd, e, h0⟩ := ih (n / b) (Nat.div_lt_self (by omega) hb)
      refine ⟨d, _, hd, by rw [e]; rfl, fun h => ?_⟩
      have := (Nat.div_eq_zero_iff.mp (h0 h))
      omega

/-- What stands in front of a decimal: nothing or a minus. -/
theorem sign_decimal (x : Int) (cs : List Char) :
    sign ((decimal x ++ cs).dropWhile isSpace) = (decide (x < 0), Nat.toDigits 10 x.natAbs ++ cs) := by
  by_cases h : x < 0
  · rw [decimal, if_pos h, show (-x).toNat = x.natAbs by omega]
    simp [sign, isSpace, h]
  · obtain ⟨d, ds, hd, e, -⟩ := toDigits_head (b := 10) (by decide) (by decide) x.natAbs
    obtain ⟨hs, hm, hp, -⟩ := digitChar_ne (d := d) (by omega)
    rw [decimal, if_neg h, show x.toNat = x.natAbs by omega, e, List.cons_append,
      List.dropWhile_cons_of_neg (by simp [hs]), sign, if_neg hm, if_neg hp]
    simp [h]

/-- A decimal is read in base 10, or is zero. -/
theorem withBase_toDigits (n : Nat) : withBase (Nat.toDigits 10 n) =
    (if n = 0 then 8 else 10, Nat.toDigits 10 n) := by
  obtain ⟨d, ds, hd, e, h0⟩ := toDigits_head (b := 10) (by decide) (by decide) n
  by_cases hn : n = 0
  · subst hn; rfl
  · have hne : ∀ d < 10, d ≠ 0 → Nat.digitChar d ≠ '0' := by decide
    have hd0 := hne d hd fun h => hn (h0 h)
    rw [e, if_neg hn, withBase]
    · rintro x c cs h
      exact hd0 (List.cons.inj h).1
    · rintro cs h
      exact hd0 (List.cons.inj h).1

theorem clamp_of_fits {x : Int} (h₁ : -2 ^ 31 ≤ x) (h₂ : x < 2 ^ 31) :
    clamp (decide (x < 0)) x.natAbs = x := by
  simp only [clamp, decide_eq_true_eq]
  split <;> omega

/-- Behind its sign a decimal is read as the number it is. -/
theorem strtol_of_sign {s : List Char} {negative : Bool} {n : Nat}
    (h : sign (s.dropWhile isSpace) = (negative, Nat.toDigits 10 n)) : strtol s = clamp negative n := by
  simp only [strtol, h, withBase_toDigits]
  by_cases hn : n = 0
  · subst hn
    rfl
  · have hr := readDigits_toDigits (b := 10) (by decide) (by decide) n 0 0 []
    rw [List.append_nil, readDigits_nil, Nat.zero_mul, Nat.zero_add, Nat.zero_add] at hr
    rw [if_neg hn, hr]

/-- A number that fits a `long` is read as it was printed. -/
theorem strtol_decimal {x : Int} (h₁ : -2 ^ 31 ≤ x) (h₂ : x < 2 ^ 31) : strtol (decimal x) = x := by
  have hs := sign_decimal x []
  rw [List.append_nil, List.append_nil] at hs
  rw [strtol_of_sign hs, clamp_of_fits h₁ h₂]

theorem strtol_fits (s : List Char) : -2 ^ 31 ≤ strtol s ∧ strtol s < 2 ^ 31 := by
  simp only [strtol, clamp]
  omega

/-- The front of a number's digits is what is left when it is divided. -/
theorem toDigits_prefix {b : Nat} (hb : 1 < b) {p t : List Char} {n : Nat} (h : Nat.toDigits b n = p ++ t)
    (hp : p ≠ []) : p = Nat.toDigits b (n / b ^ t.length) := by
  induction n using Nat.strongRecOn generalizing t with
  | ind n ih =>
    rcases List.eq_nil_or_concat t with rfl | ⟨t, c, rfl⟩
    · rw [List.append_nil] at h
      rw [List.length_nil, Nat.pow_zero, Nat.div_one, h]
    · rw [Nat.toDigits_eq_if hb, List.concat_eq_append, ← List.append_assoc] at h
      by_cases hn : n < b
      · rw [if_pos hn, ← List.nil_append [_]] at h
        obtain ⟨hnil, -⟩ := List.append_inj' h rfl
        exact absurd (List.append_eq_nil_iff.mp hnil.symm).1 hp
      · rw [if_neg hn] at h
        obtain ⟨hpt, -⟩ := List.append_inj' h rfl
        rw [ih (n / b) (Nat.div_lt_self (by omega) hb) hpt, List.concat_eq_append, List.length_append,
          List.length_singleton, Nat.div_div_eq_div_mul, Nat.pow_succ, Nat.mul_comm]

/-- A decimal that was cut off is read as another number, unless it was zero. -/
theorem strtol_cut {x : Int} (h₁ : -2 ^ 31 ≤ x) (h₂ : x < 2 ^ 31) (hx : x ≠ 0) {p t : List Char}
    (h : decimal x = p ++ t) (ht : t ≠ []) : strtol p ≠ x := by
  have hlt : ∀ {t : List Char}, t ≠ [] → x.natAbs / 10 ^ t.length < x.natAbs := fun {t} ht =>
    Nat.div_lt_self (by omega) (Nat.one_lt_pow (by simpa using ht) (by decide))
  have hne : ∀ {negative : Bool} {n : Nat}, n < x.natAbs → clamp negative n ≠ x := by
    rintro (_ | _) n hn <;> simp only [clamp] <;> omega
  have hdigits : ∀ {p : List Char}, Nat.toDigits 10 x.natAbs = p ++ t → p ≠ [] →
      ∃ n < x.natAbs, p = Nat.toDigits 10 n := fun hpt hp =>
    ⟨_, hlt ht, toDigits_prefix (by decide) hpt hp⟩
  by_cases hneg : x < 0
  · rw [decimal, if_pos hneg, show (-x).toNat = x.natAbs by omega] at h
    match p, h with
    | [], _ => exact hx ∘ Eq.symm
    | ['-'], _ => exact hx ∘ Eq.symm
    | m :: c :: p, h =>
      obtain ⟨rfl, hpt⟩ := List.cons.inj h
      obtain ⟨n, hn, e⟩ := hdigits (p := c :: p) hpt (by simp)
      have hs : sign (('-' :: Nat.toDigits 10 n).dropWhile isSpace) = (true, Nat.toDigits 10 n) := rfl
      rw [e, strtol_of_sign hs]
      exact hne hn
  · rw [decimal, if_neg hneg, show x.toNat = x.natAbs by omega] at h
    by_cases hp : p = []
    · rw [hp]
      exact hx ∘ Eq.symm
    · obtain ⟨n, hn, rfl⟩ := hdigits h hp
      have hs := sign_decimal n []
      rw [List.append_nil, List.append_nil, decimal, if_neg (by omega), Int.toNat_natCast] at hs
      rw [strtol_of_sign hs]
      exact hne hn

/-- A padded number starts with a digit. -/
theorem padded_head (w n : Nat) : ∃ d cs, d < 16 ∧ padded w n = Nat.digitChar d :: cs := by
  rw [padded, List.leftpad]
  cases w - (hex n).length with
  | zero =>
    obtain ⟨d, cs, hd, e, -⟩ := toDigits_head (b := 16) (by decide) (by decide) n
    exact ⟨d, cs, hd, e⟩
  | succ k => exact ⟨0, _, by decide, rfl⟩

/-- The digits of a padded number are read as that number. -/
theorem readDigits_padded (w n : Nat) : readDigits 16 (padded w n).length (padded w n) 0 = (n, []) := by
  have hr := readDigits_toDigits (b := 16) (by decide) (by decide) n 0 0 []
  have hz := readDigits_zeros (b := 16) (by decide) (w - (hex n).length) (hex n).length (hex n)
  rw [List.append_nil, readDigits_nil, Nat.zero_mul, Nat.zero_add, Nat.zero_add] at hr
  rw [padded, List.leftpad, List.length_append, List.length_replicate, Nat.add_comm, hz, hex, hr]

/-- A number of 32 bits behind `0x` saturates at the end of a `long`. -/
theorem strtol_hex (w n : Nat) : strtol ('0' :: 'x' :: padded w n) = min n (2 ^ 31 - 1) := by
  obtain ⟨d, cs, hd, e⟩ := padded_head w n
  have hdigit : (digit 16 (Nat.digitChar d)).isSome := by
    rw [digit_digitChar hd (by decide)]
    rfl
  have hsign : sign (('0' :: 'x' :: padded w n).dropWhile isSpace) = (false, '0' :: 'x' :: padded w n) := rfl
  have hbase : withBase ('0' :: 'x' :: padded w n) = (16, padded w n) := by
    rw [e, withBase, if_pos ⟨.inl rfl, hdigit⟩]
  simp only [strtol, hsign, hbase, readDigits_padded, clamp, Bool.false_eq_true, if_false]
  omega

/-- A number that fits the width is padded to just that. -/
theorem length_padded {w n : Nat} (hw : 0 < w) (hn : n < 16 ^ w) : (padded w n).length = w := by
  have := (Nat.length_toDigits_le_iff (b := 16) (by decide) hw).mpr hn
  rw [padded, List.length_leftpad, hex]
  omega

/-- The width stops the scan where the padded number ends, whatever follows. -/
theorem scanHex_padded {w n : Nat} (hw : 0 < w) (hn : n < 16 ^ w) (cs : List Char) :
    scanHex w (padded w n ++ cs) = some (n, cs) := by
  obtain ⟨d, t, hd, e⟩ := padded_head w n
  obtain ⟨hs, hm, hp, -⟩ := digitChar_ne hd
  have hspace : (padded w n ++ cs).dropWhile isSpace = padded w n ++ cs := by
    rw [e, List.cons_append, List.dropWhile_cons_of_neg (by simp [hs])]
  have htake : (padded w n ++ cs).take w = padded w n := List.take_left' (length_padded hw hn)
  have hdrop : (padded w n ++ cs).drop w = cs := List.drop_left' (length_padded hw hn)
  have hsign : sign (padded w n) = (false, padded w n) := by
    rw [e, sign, if_neg hm, if_neg hp]
  -- the second digit is no `x`
  have hbase : (match padded w n with
      | '0' :: x :: t => if x = 'x' ∨ x = 'X' then t else '0' :: x :: t
      | t => t) = padded w n := by
    split
    · rename_i x t h
      obtain ⟨d', hd', rfl⟩ := mem_padded (w := w) (n := n) (c := x) (by rw [h]; simp)
      obtain ⟨-, -, -, hx, hX⟩ := digitChar_ne hd'
      rw [if_neg (not_or.mpr ⟨hx, hX⟩), h]
    · rfl
  simp only [scanHex, hspace, htake, hdrop, hsign, hbase, readDigits_padded, List.length_nil,
    List.nil_append, Bool.false_eq_true, ↓reduceIte]
  rw [if_pos (by rw [length_padded hw hn]; exact hw)]

/-- A decimal before something that is no digit is scanned. -/
theorem scanInt_decimal {x : Int} (h₁ : -2 ^ 31 ≤ x) (h₂ : x < 2 ^ 31) {cs : List Char}
    (hcs : ∀ c ∈ cs.head?, digit 10 c = none) : scanInt (decimal x ++ cs) = some (x, cs) := by
  have hstop : ∀ room n, readDigits 10 room cs n = (n, cs) := by
    intro room n
    match room, cs with
    | 0, _ | _ + 1, [] => rfl
    | room + 1, c :: cs => rw [readDigits, hcs c rfl]
  have hr := readDigits_toDigits (b := 10) (by decide) (by decide) x.natAbs 0 cs.length cs
  rw [hstop, Nat.zero_mul, Nat.zero_add] at hr
  simp only [scanInt, sign_decimal, List.length_append, Nat.add_comm, hr]
  rw [if_pos (by have := Nat.length_toDigits_pos (b := 10) (n := x.natAbs); omega), clamp_of_fits h₁ h₂]

/-- Two numbers with an `x` between them are scanned. -/
theorem sscanf_size {x y : Int} (hx : -2 ^ 31 ≤ x) (hx' : x < 2 ^ 31) (hy : -2 ^ 31 ≤ y) (hy' : y < 2 ^ 31) :
    sscanf [.int, .lit 'x', .int] (decimal x ++ 'x' :: decimal y) = [x, y] := by
  have h : scanInt (decimal y ++ []) = some (y, []) := scanInt_decimal hy hy' (by simp)
  rw [List.append_nil] at h
  have hstop : ∀ c ∈ ('x' :: decimal y).head?, digit 10 c = none := by
    rintro _ ⟨⟩
    decide
  rw [sscanf, scanInt_decimal hx hx' hstop]
  simp only [sscanf, List.head?_cons, if_true, List.tail_cons, h]

theorem sscanf_hex {w n : Nat} (hw : 0 < w) (hn : n < 16 ^ w) (ds : List Directive) (cs : List Char) :
    sscanf (.hex w :: ds) (padded w n ++ cs) = (n : Int) :: sscanf ds cs := by
  rw [sscanf, scanHex_padded hw hn]

theorem sscanf_lit (c : Char) (ds : List Directive) (cs : List Char) :
    sscanf (.lit c :: ds) (c :: cs) = sscanf ds cs := by
  rw [sscanf, List.head?_cons, if_pos rfl, List.tail_cons]

/-- Numbers of one width, one right behind the other. -/
theorem sscanf_run {w : Nat} (hw : 0 < w) {ns : List Nat} (hns : ∀ n ∈ ns, n < 16 ^ w) :
    sscanf (List.replicate ns.length (.hex w)) (ns.flatMap (padded w)) = ns.map Int.ofNat := by
  induction ns with
  | nil => rfl
  | cons n ns ih =>
    rw [List.length_cons, List.replicate_succ, List.flatMap_cons,
      sscanf_hex hw (hns n List.mem_cons_self), ih fun n hn => hns n (List.mem_cons_of_mem _ hn)]
    rfl

end DShow.Numeral
