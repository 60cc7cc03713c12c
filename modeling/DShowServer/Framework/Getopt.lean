import DShowServer.Framework.Shell
import Mathlib.Data.List.TakeWhile
import Mathlib.Data.Option.Basic

/-!
# `getopt_long`

What a loop over `getopt_long` is told by the words of a command line (`events`):
long options by name or by the start of one name only, their arguments behind
`=` or in the next word, short options in one word behind `-`. Words that are no
options are passed over, and `--` ends the options.

Options written out with their arguments are found as far as the line goes
(`events_cut`); an argument is always what one of the words ends in
(`events_suffix`).
-/

namespace DShow.Getopt

open Shell

/-- `struct option` with no flag. -/
structure LongOption where
  name : List Char
  hasArg : Bool
  val : Char

/-- The options there are. -/
structure Table where
  short : List (Char × Bool)
  long : List LongOption

/-- What one call returns before the end. -/
inductive Event
  | option (val : Char) (arg : Option (List Char))
  | error
deriving DecidableEq

/-- A long option with its argument in the next word, and what it is told by. -/
structure Pair where
  name : List Char
  val : Char
  arg : List Char

def Pair.words (p : Pair) : List (List Char) := ['-' :: '-' :: p.name, p.arg]

def Pair.event (p : Pair) : Event := .option p.val (some p.arg)

namespace Table

variable (t : Table)

/-- The option that a name stands for. -/
def lookup (name : List Char) : Option LongOption :=
  match t.long.find? (·.name = name) with
  | some o => some o
  | none =>
    match t.long.filter fun o => name.isPrefixOf o.name with
    | [o] => some o
    | _ => none

/-- A word behind its `--`, and the option that takes the next word as its argument. -/
def longWord (w : List Char) : List Event × Option Char :=
  match t.lookup (w.takeWhile (· ≠ '=')) with
  | none => ([.error], none)
  | some o =>
    match o.hasArg, w.dropWhile (· ≠ '=') with
    | false, [] => ([.option o.val none], none)
    | true, [] => ([], some o.val)
    | true, _ :: v => ([.option o.val (some v)], none)
    | false, _ :: _ => ([.error], none)

/-- A word of short options behind its `-`. -/
def shortWord : List Char → List Event × Option Char
  | [] => ([], none)
  | c :: cs =>
    match t.short.lookup c with
    | none => (.error :: (shortWord cs).1, (shortWord cs).2)
    | some false => (.option c none :: (shortWord cs).1, (shortWord cs).2)
    | some true => if cs = [] then ([], some c) else ([.option c (some cs)], none)

def word : List Char → List Event × Option Char
  | '-' :: '-' :: w => t.longWord w
  | '-' :: c :: cs => t.shortWord (c :: cs)
  | _ => ([], none)

/-- What the words tell, behind an option whose argument is to come. -/
def events : Option Char → List (List Char) → List Event
  | none, [] => []
  | some _, [] => [.error]
  | some v, w :: ws => .option v (some w) :: events none ws
  | none, w :: ws => if w = ['-', '-'] then [] else (t.word w).1 ++ events (t.word w).2 ws

/-! ## Options with their arguments -/

/-- The option that a name which takes an argument is told by. -/
def valOf (name : List Char) : Option Char :=
  if name = [] ∨ '=' ∈ name then none else ((t.lookup name).filter (·.hasArg)).map (·.val)

variable {t}

theorem longWord_of_valOf {name : List Char} {v : Char} (h : t.valOf name = some v) :
    name ≠ [] ∧ t.longWord name = ([], some v) := by
  rw [valOf] at h
  split_ifs at h with hname
  rw [not_or] at hname
  obtain ⟨o, ho, rfl⟩ := Option.map_eq_some_iff.mp h
  obtain ⟨hl, ha⟩ := Option.filter_eq_some_iff.mp ho
  have hne : ∀ c ∈ name, decide (c ≠ '=') = true := fun c hc => decide_eq_true fun h => hname.2 (h ▸ hc)
  refine ⟨hname.1, ?_⟩
  rw [longWord, List.takeWhile_eq_self_iff.mpr hne, List.dropWhile_eq_nil_iff.mpr hne, hl]
  simp only [ha]

/-- An option with its argument. -/
theorem events_pair {p : Pair} (h : t.valOf p.name = some p.val) (ws : List (List Char)) :
    t.events none (p.words ++ ws) = p.event :: t.events none ws := by
  obtain ⟨hne, hw⟩ := longWord_of_valOf h
  rw [Pair.words, List.cons_append, events, if_neg (by simpa using hne), word, hw]
  rfl

/-- An option whose argument is missing. -/
theorem events_missing {name : List Char} {v : Char} (h : t.valOf name = some v) :
    t.events none ['-' :: '-' :: name] = [.error] := by
  obtain ⟨hne, hw⟩ := longWord_of_valOf h
  rw [events, if_neg (by simpa using hne), word, hw]
  rfl

/-! ## Where an argument comes from -/

theorem longWord_suffix {w : List Char} {v : Char} {a : List Char}
    (h : .option v (some a) ∈ (t.longWord w).1) : '=' ∈ w ∧ a <:+ w := by
  rw [longWord] at h
  split at h
  · simp at h
  · split at h <;> simp only [List.mem_singleton, List.not_mem_nil, Event.option.injEq, reduceCtorEq,
      and_false, Option.some.injEq] at h
    rename_i c s _ hd
    obtain ⟨-, rfl⟩ := h
    have hsuf : c :: a <:+ w := hd ▸ List.dropWhile_suffix _
    have hc : c = '=' := by
      have := List.head?_dropWhile_not (· ≠ '=') w
      rw [hd] at this
      simpa using this
    exact ⟨hsuf.subset (hc ▸ List.mem_cons_self), (List.suffix_cons c a).trans hsuf⟩

theorem shortWord_suffix {w : List Char} {v : Char} {a : List Char}
    (h : .option v (some a) ∈ (t.shortWord w).1) : a ≠ [] ∧ a <:+ w := by
  induction w with
  | nil => cases h
  | cons c cs ih =>
    rw [shortWord] at h
    split at h
    · obtain ⟨hne, hs⟩ := ih (by simpa using h)
      exact ⟨hne, hs.trans (List.suffix_cons c cs)⟩
    · obtain ⟨hne, hs⟩ := ih (by simpa using h)
      exact ⟨hne, hs.trans (List.suffix_cons c cs)⟩
    · split_ifs at h with hcs
      · cases h
      · simp only [List.mem_singleton, Event.option.injEq, Option.some.injEq] at h
        obtain ⟨-, rfl⟩ := h
        exact ⟨hcs, List.suffix_cons c a⟩

theorem word_suffix {w : List Char} {v : Char} {a : List Char} (h : .option v (some a) ∈ (t.word w).1) :
    ('=' ∈ w ∨ a ≠ []) ∧ a <:+ w := by
  rw [word.eq_def] at h
  split at h
  · rename_i w
    obtain ⟨he, hs⟩ := longWord_suffix h
    exact ⟨.inl (by simp [he]), hs.trans ⟨['-', '-'], rfl⟩⟩
  · rename_i c cs _
    obtain ⟨hne, hs⟩ := shortWord_suffix h
    exact ⟨.inr hne, hs.trans (List.suffix_cons _ _)⟩
  · cases h

/-- An argument is what a word ends in, and empty only if the word is or has a `=`. -/
theorem events_suffix {p : Option Char} {ws : List (List Char)} {v : Char} {a : List Char}
    (h : .option v (some a) ∈ t.events p ws) : ∃ w ∈ ws, a <:+ w ∧ (w = [] ∨ '=' ∈ w ∨ a ≠ []) := by
  induction ws generalizing p with
  | nil =>
    cases p <;> simp [events] at h
  | cons w ws ih =>
    have hrest : ∀ {p : Option Char}, .option v (some a) ∈ t.events p ws →
        ∃ w' ∈ w :: ws, a <:+ w' ∧ (w' = [] ∨ '=' ∈ w' ∨ a ≠ []) := fun h =>
      let ⟨w', hw', h⟩ := ih h
      ⟨w', List.mem_cons_of_mem _ hw', h⟩
    cases p with
    | none =>
      rw [events] at h
      split_ifs at h
      · cases h
      · obtain h | h := List.mem_append.mp h
        · obtain ⟨hne, hs⟩ := word_suffix h
          exact ⟨w, List.mem_cons_self, hs, .inr hne⟩
        · exact hrest h
    | some v' =>
      rw [events] at h
      obtain h | h := List.mem_cons.mp h
      · simp only [Event.option.injEq, Option.some.injEq] at h
        obtain ⟨-, rfl⟩ := h
        refine ⟨a, List.mem_cons_self, List.suffix_rfl, ?_⟩
        by_cases ha : a = []
        · exact .inl ha
        · exact .inr (.inr ha)
      · exact hrest h

/-! ## A line that is cut off -/

/-- The front of a name tells nothing when the line ends there. -/
def Silent (t : Table) (name : List Char) : Prop :=
  ∀ k < name.length + 2, ∀ e ∈ t.events none [('-' :: '-' :: name).take k], e = .error

instance (name : List Char) : Decidable (t.Silent name) :=
  inferInstanceAs (Decidable (∀ k < name.length + 2, ∀ e ∈ t.events none [('-' :: '-' :: name).take k], e = .error))

/-- A pair that is cut off tells nothing, or the front of its argument. -/
theorem events_cut_pair {p : Pair} (h : t.valOf p.name = some p.val) (hs : t.Silent p.name)
    (ws : List (List Char)) {n : Nat} (hn : n < (spaced p.words).length) :
    (∀ e ∈ t.events none (cut n (p.words ++ ws)), e = .error) ∨
      ∃ a b, p.arg = a ++ b ∧ b ≠ [] ∧ t.events none (cut n (p.words ++ ws)) = [.option p.val (some a)] := by
  have hcut : ∀ {m : Nat} (w : List Char) (ws : List (List Char)), m < w.length →
      cut (m + 1 - w.length) ws = [] := fun _ _ hm => cut_le_one (by omega) _
  simp only [Pair.words, spaced, List.flatMap_cons, List.flatMap_nil, List.length_append,
    List.length_cons, List.length_nil] at hn
  by_cases hone : n ≤ 1
  · rw [cut_le_one hone]
    exact .inl (List.forall_mem_nil _)
  obtain ⟨m, rfl⟩ := Nat.exists_eq_add_of_le' (show 2 ≤ n by omega)
  rw [Pair.words, List.cons_append, cut]
  by_cases hm : m < p.name.length + 1
  · rw [hcut _ _ (by simpa using Nat.lt_succ_of_lt hm)]
    exact .inl (hs (m + 1) (by omega))
  rw [List.take_of_length_le (by simp only [List.length_cons]; omega)]
  by_cases hone : m + 1 - ('-' :: '-' :: p.name).length ≤ 1
  · rw [cut_le_one hone, events_missing h]
    exact .inl (by simp)
  · obtain ⟨r, hr⟩ := Nat.exists_eq_add_of_le' (Nat.lt_of_not_le hone)
    rw [hr, List.cons_append, cut]
    simp only [List.length_cons] at hr
    rw [hcut _ _ (by omega)]
    refine .inr ⟨p.arg.take (r + 1), p.arg.drop (r + 1), (List.take_append_drop _ _).symm, ?_, ?_⟩
    · rw [Ne, List.drop_eq_nil_iff]
      omega
    · exact events_pair (p := ⟨p.name, p.val, p.arg.take (r + 1)⟩) h []

/-- Of a line that is cut off, the options with their arguments are found as far as they are there,
and the next one tells nothing, or the front of its argument. -/
theorem events_cut {ps : List Pair}
    (h : ∀ p ∈ ps, t.valOf p.name = some p.val ∧ t.Silent p.name ∧ p.arg ≠ []) (n : Nat) :
    ∃ k es, t.events none (cut n (ps.flatMap Pair.words)) = (ps.take k).map Pair.event ++ es ∧
      (∀ j ≤ ps.length, (spaced ((ps.take j).flatMap Pair.words)).length ≤ n ↔ j ≤ k) ∧
      ((∀ e ∈ es, e = .error) ∨
        ∃ p a b, ps[k]? = some p ∧ p.arg = a ++ b ∧ b ≠ [] ∧ es = [.option p.val (some a)]) := by
  induction ps generalizing n with
  | nil =>
    refine ⟨0, [], by rw [List.flatMap_nil, cut_nil]; rfl, ?_, .inl (List.forall_mem_nil _)⟩
    intro j hj
    simp [spaced, Nat.le_zero.mp hj]
  | cons p ps ih =>
    obtain ⟨⟨hv, hs, ha⟩, hps⟩ := List.forall_mem_cons.mp h
    have hlen : ∀ j, (spaced ((p :: ps).take (j + 1) |>.flatMap Pair.words)).length =
        (spaced p.words).length + (spaced ((ps.take j).flatMap Pair.words)).length := by
      intro j
      rw [List.take_succ_cons, List.flatMap_cons, spaced_append, List.length_append]
    by_cases hn : n < (spaced p.words).length
    · refine ⟨0, _, (List.nil_append _).symm, ?_, ?_⟩
      · rintro (_ | j) -
        · simp [spaced]
        · have := hlen j
          omega
      · rw [List.flatMap_cons]
        obtain h | ⟨a, b, hab, hb, h⟩ := events_cut_pair hv hs (ps.flatMap Pair.words) hn
        · exact .inl h
        · exact .inr ⟨p, a, b, rfl, hab, hb, h⟩
    · obtain ⟨k, es, he, hk, hes⟩ := ih hps (n - (spaced p.words).length)
      have hwords : ∀ w ∈ p.words, w ≠ [] := by simp [Pair.words, ha]
      refine ⟨k + 1, es, ?_, ?_, hes⟩
      · rw [List.flatMap_cons, cut_append hwords _ (by omega), events_pair hv, he]
        rfl
      · rintro (_ | j) hj
        · simp [spaced]
        · have := hk j (by simpa using hj)
          rw [hlen]
          omega

end Table

end DShow.Getopt
