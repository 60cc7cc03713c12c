import Mathlib.Data.List.Basic
import Mathlib.Data.Option.Basic

/-!
# The words of a shell command

What `sh -c` makes of a line that is one simple command, perhaps with `&` at its
end: words between blanks, with their quotes removed (`scan`). A word that is a
pattern, or has a tilde in front, is what the files and users of the system make
of it; a line with anything else (operators, substitutions, quotes that are not
closed) is left to the surroundings whole.

Plain words are taken as they are (`scan_spaced`). A text that is not plain is
never what a word of its own line ends in (`scan_not_suffix`).
-/

namespace DShow.Shell

/-! ## Characters -/

def isBlank (c : Char) : Bool := c = ' ' || c = '\t'

def isQuote (c : Char) : Bool := c = '\\' || c = '\'' || c = '"'

/-- It ends a command, or is not about words. -/
def isOther (c : Char) : Bool := ['\n', '&', ';', '|', '<', '>', '(', ')', '$', '\x60'].contains c

/-- It is a part of any word that has begun. -/
def isOrdinary (c : Char) : Bool := !isBlank c && !isQuote c && !isOther c

/-! ## Words -/

/-- Characters with no quotes about them. -/
def unquoted (s : List Char) : List (Char × Bool) := s.map (·, false)

/-- Behind `[`: whether the bracket is closed, and not at once or behind a slash. -/
def closes : List (Char × Bool) → Bool
  | [] => false
  | c :: cs =>
    let cs := if c = ('!', false) then cs else c :: cs
    (cs.takeWhile (·.1 ≠ '/')).tail.contains (']', false)

/-- Whether it stands for the files that it matches. -/
def isPattern : List (Char × Bool) → Bool
  | [] => false
  | c :: cs => c = ('*', false) || c = ('?', false) || (c = ('[', false) && closes cs) || isPattern cs

/-- A word as it is written, and its characters, each with whether it was quoted. -/
structure Word where
  raw : List Char
  text : List (Char × Bool)

/-- The word without its quotes. -/
def Word.chars (w : Word) : List Char := w.text.map Prod.fst

/-- The word is not taken as it is. -/
def Word.expands (w : Word) : Bool := w.raw.head? = some '~' || isPattern w.text

/-- A word that is written as it is. -/
def Word.ofText (s : List Char) : Word := ⟨s, unquoted s⟩

/-- A piece added to the word, or a new one. -/
def push (w : Option Word) (raw : List Char) (text : List (Char × Bool)) : Word :=
  ⟨w.elim [] Word.raw ++ raw, w.elim [] Word.text ++ text⟩

/-- A text that is a word by itself. -/
def Plain (s : List Char) : Prop :=
  s ≠ [] ∧ s.all isOrdinary ∧ s.head? ≠ some '#' ∧ (Word.ofText s).expands = false

instance (s : List Char) : Decidable (Plain s) := inferInstanceAs (Decidable (_ ∧ _ ∧ _ ∧ _))

/-! ## Scanning -/

/-- Where the scanner is: outside quotes, behind a backslash, in quotes. -/
inductive Mode
  | plain
  | escape
  | single
  | double
  | doubleEscape
deriving DecidableEq

/-- A character that does not end the word: where the scanner is behind it, and the word. -/
def step (m : Mode) (w : Option Word) (c : Char) : Option (Mode × Option Word) :=
  match m with
  | .plain =>
    if c = '\\' then some (.escape, w)
    else if c = '\'' then some (.single, some (push w [c] []))
    else if c = '"' then some (.double, some (push w [c] []))
    else if isOther c then none
    else some (.plain, some (push w [c] [(c, false)]))
  | .escape =>
    if c = '\n' then some (.plain, w) else some (.plain, some (push w ['\\', c] [(c, true)]))
  | .single =>
    if c = '\'' then some (.plain, some (push w [c] []))
    else some (.single, some (push w [c] [(c, true)]))
  | .double =>
    if c = '"' then some (.plain, some (push w [c] []))
    else if c = '\\' then some (.doubleEscape, w)
    else if c = '$' ∨ c = '\x60' then none
    else some (.double, some (push w [c] [(c, true)]))
  | .doubleEscape =>
    if c = '\n' then some (.double, some (push w ['\\', c] []))
    else if c = '$' ∨ c = '\x60' ∨ c = '"' ∨ c = '\\' then
      some (.double, some (push w ['\\', c] [(c, true)]))
    else some (.double, some (push w ['\\', c] [('\\', true), (c, true)]))

/-- The words of the line, behind the word that has begun; `none` if it is not a simple command. -/
def scan (m : Mode) (w : Option Word) : List Char → Option (List Word)
  | [] => if m = .plain then some w.toList else none
  | c :: cs =>
    if m = .plain ∧ isBlank c then (scan .plain none cs).map (w.toList ++ ·)
    else if m = .plain ∧ c = '#' ∧ w.isNone then if '\n' ∈ cs then none else some []
    else if m = .plain ∧ c = '&' ∧ cs = [] then some w.toList
    else (step m w c).bind fun (m, w) => scan m w cs

/-- What depends on the system the shell runs on, or is not specified. -/
structure Surroundings where
  fields : List Char → List (List Char)
  other : List Char → List (List Char)

/-- The arguments, with its name, of the command that the line is. -/
def argv (env : Surroundings) (line : List Char) : List (List Char) :=
  match scan .plain none line with
  | none => env.other line
  | some ws => ws.flatMap fun w => if w.expands then env.fields w.raw else [w.chars]

/-! ## Plain words -/

theorem ordinary_ne {c : Char} (h : isOrdinary c) :
    isBlank c = false ∧ c ≠ '\\' ∧ c ≠ '\'' ∧ c ≠ '"' ∧ c ≠ '&' ∧ isOther c = false := by
  simp only [isOrdinary, Bool.and_eq_true, Bool.not_eq_true'] at h
  obtain ⟨⟨hb, hq⟩, ho⟩ := h
  simp only [isQuote, Bool.or_eq_false_iff, decide_eq_false_iff_not] at hq
  refine ⟨hb, hq.1.1, hq.1.2, hq.2, ?_, ho⟩
  rintro rfl
  exact absurd ho (by decide)

/-- An ordinary character goes on with the word. -/
theorem scan_ordinary {w : Option Word} {c : Char} (h : isOrdinary c) (hw : w.isNone → c ≠ '#')
    (cs : List Char) : scan .plain w (c :: cs) = scan .plain (some (push w [c] [(c, false)])) cs := by
  obtain ⟨hb, h₁, h₂, h₃, h₄, ho⟩ := ordinary_ne h
  rw [scan, if_neg (by simp [hb]), if_neg fun ⟨_, hc, hn⟩ => hw hn hc, if_neg fun ⟨_, hc, _⟩ => h₄ hc]
  simp [step, h₁, h₂, h₃, ho]

theorem push_push (w : Option Word) (raw raw' : List Char) (text text' : List (Char × Bool)) :
    push (some (push w raw text)) raw' text' = push w (raw ++ raw') (text ++ text') := by
  simp [push]

theorem scan_ordinaries {w : Option Word} {s : List Char} (hs : s ≠ []) (h : ∀ c ∈ s, isOrdinary c)
    (hw : w.isNone → s.head? ≠ some '#') (cs : List Char) :
    scan .plain w (s ++ cs) = scan .plain (some (push w s (unquoted s))) cs := by
  induction s generalizing w with
  | nil => exact absurd rfl hs
  | cons c s ih =>
    rw [List.cons_append, scan_ordinary (h c List.mem_cons_self) fun hn hc => hw hn (by rw [hc]; rfl)]
    cases s with
    | nil => rfl
    | cons d s =>
      rw [ih (by simp) (fun x hx => h x (List.mem_cons_of_mem _ hx)) (by simp), push_push]
      rfl

/-- A plain word. -/
theorem scan_plain {s : List Char} (h : Plain s) (cs : List Char) :
    scan .plain none (s ++ cs) = scan .plain (some (.ofText s)) cs :=
  scan_ordinaries h.1 (List.all_eq_true.mp h.2.1) (fun _ => h.2.2.1) cs

theorem Word.chars_ofText (s : List Char) : (Word.ofText s).chars = s := by
  simp [Word.chars, Word.ofText, unquoted, Function.comp_def]

/-- A word ends where the line does, or at a blank. -/
theorem scan_gap {w : Word} {cs : List Char} (h : ∀ c ∈ cs.head?, c = ' ') :
    scan .plain (some w) cs = (scan .plain none cs).map (w :: ·) := by
  cases cs with
  | nil => rfl
  | cons c cs =>
    obtain rfl := h c rfl
    simp [scan, isBlank]

/-- Words with a blank before each. -/
def spaced (ws : List (List Char)) : List Char := ws.flatMap (' ' :: ·)

/-- Plain words with a blank before each are taken as they are. -/
theorem scan_spaced {ws : List (List Char)} (h : ∀ w ∈ ws, Plain w) {cs : List Char}
    (hcs : ∀ c ∈ cs.head?, c = ' ') :
    scan .plain none (spaced ws ++ cs) = (scan .plain none cs).map (ws.map .ofText ++ ·) := by
  induction ws with
  | nil => simp [spaced]
  | cons w ws ih =>
    have hgap : ∀ c ∈ (spaced ws ++ cs).head?, c = ' ' := by
      cases ws with
      | nil => exact hcs
      | cons => simp [spaced]
    rw [spaced, List.flatMap_cons, List.cons_append, List.cons_append, List.append_assoc]
    simp only [scan, isBlank, decide_true, Bool.true_or, and_self, if_true, Option.toList_none,
      List.nil_append]
    rw [scan_plain (h w List.mem_cons_self), ← spaced, scan_gap hgap,
      ih fun v hv => h v (List.mem_cons_of_mem _ hv)]
    simp [Function.comp_def]

/-! ## Other words -/

/-- A word either has lost characters, or is taken as it is. -/
def Word.Kept (w : Word) : Prop :=
  w.text.length < w.raw.length ∨
    w.text = unquoted w.raw ∧ w.raw ≠ [] ∧ (∀ c ∈ w.raw, isOrdinary c) ∧ w.raw.head? ≠ some '#'

theorem Word.Kept.length_le {w : Word} (h : w.Kept) : w.text.length ≤ w.raw.length := by
  obtain h | ⟨h, -⟩ := h
  · exact Nat.le_of_lt h
  · exact Nat.le_of_eq (by rw [h, unquoted, List.length_map])

/-- A word that is no shorter than it is written, and not expanded, is plain. -/
theorem Word.Kept.plain {w : Word} (h : w.Kept) (he : w.expands = false)
    (hl : w.raw.length ≤ w.text.length) : w.chars = w.raw ∧ Plain w.raw := by
  obtain h | ⟨ht, hne, ho, hh⟩ := h
  · exact absurd h (by omega)
  · have hw : Word.ofText w.raw = w := by
      rw [Word.ofText, ← ht]
    exact ⟨by rw [← hw, Word.chars_ofText, hw], hne, List.all_eq_true.mpr ho, hh, by rw [hw, he]⟩

/-- In quotes the word has lost some already. -/
def Begun : Mode → Option Word → Prop
  | .plain, w | .escape, w => ∀ x ∈ w, x.Kept
  | _, w => ∃ x, w = some x ∧ x.text.length < x.raw.length

/-- A piece that loses characters. -/
theorem push_lost {w : Option Word} {raw : List Char} {text : List (Char × Bool)}
    (hw : ∀ x ∈ w, x.Kept) (h : text.length < raw.length) :
    (push w raw text).text.length < (push w raw text).raw.length := by
  cases w with
  | none => exact h
  | some w =>
    have := (hw w rfl).length_le
    simp only [push, Option.elim_some, List.length_append]
    omega

/-- A piece behind lost characters. -/
theorem push_begun {w : Option Word} {raw : List Char} {text : List (Char × Bool)}
    (hw : ∃ x, w = some x ∧ x.text.length < x.raw.length) (h : text.length ≤ raw.length) :
    (push w raw text).text.length < (push w raw text).raw.length := by
  obtain ⟨x, rfl, hx⟩ := hw
  simp only [push, Option.elim_some, List.length_append]
  omega

/-- Outside quotes a character is kept. -/
theorem push_kept {w : Option Word} {c : Char} (hw : ∀ x ∈ w, x.Kept) (hc : isOrdinary c)
    (hhash : w.isNone → c ≠ '#') : (push w [c] [(c, false)]).Kept := by
  cases w with
  | none => exact .inr ⟨rfl, by simp [push], by simpa [push] using hc, by simpa [push] using hhash⟩
  | some w =>
    obtain hlt | ⟨heq, hne, ho, hh⟩ := hw w rfl
    · exact .inl (by simp only [push, Option.elim_some, List.length_append, List.length_singleton]; omega)
    · refine .inr ⟨by simp [push, heq, unquoted], by simp [push], ?_, ?_⟩
      · simp only [push, Option.elim_some, List.forall_mem_append, List.forall_mem_singleton]
        exact ⟨ho, hc⟩
      · simp only [push, Option.elim_some]
        rwa [List.head?_append_of_ne_nil _ hne]

theorem step_begun {m m' : Mode} {w w' : Option Word} {c : Char} (hw : Begun m w)
    (hb : ¬ (m = .plain ∧ isBlank c)) (hc : ¬ (m = .plain ∧ c = '#' ∧ w.isNone))
    (h : step m w c = some (m', w')) : Begun m' w' := by
  cases m with
  | plain =>
    simp only [step] at h
    split_ifs at h with h₁ h₂ h₃ h₄ <;> cases h
    · exact hw
    · exact ⟨_, rfl, push_lost hw (by simp)⟩
    · exact ⟨_, rfl, push_lost hw (by simp)⟩
    · rintro _ ⟨⟩
      have hord : isOrdinary c := by
        simp only [true_and, Bool.not_eq_true] at hb h₄
        simp [isOrdinary, isQuote, hb, h₁, h₂, h₃, h₄]
      exact push_kept hw hord fun hn h => hc ⟨rfl, h, hn⟩
  | escape =>
    simp only [step] at h
    split_ifs at h <;> cases h
    · exact hw
    · rintro _ ⟨⟩
      exact .inl (push_lost hw (by simp))
  | single =>
    simp only [step] at h
    split_ifs at h <;> cases h
    · rintro _ ⟨⟩
      exact .inl (push_begun hw (by simp))
    · exact ⟨_, rfl, push_begun hw (by simp)⟩
  | double =>
    simp only [step] at h
    split_ifs at h <;> cases h
    · rintro _ ⟨⟩
      exact .inl (push_begun hw (by simp))
    · exact hw
    · exact ⟨_, rfl, push_begun hw (by simp)⟩
  | doubleEscape =>
    simp only [step] at h
    split_ifs at h <;> cases h <;> exact ⟨_, rfl, push_begun hw (by simp)⟩

/-- The words of a line. -/
theorem scan_kept {m : Mode} {w : Option Word} {cs : List Char} {ws : List Word} (hw : Begun m w)
    (h : scan m w cs = some ws) : ∀ x ∈ ws, x.Kept := by
  have hplain : ∀ {w : Option Word}, Begun .plain w → ∀ x ∈ w.toList, x.Kept := fun hw x hx =>
    hw x (Option.mem_toList.mp hx)
  induction cs generalizing m w ws with
  | nil =>
    rw [scan] at h
    split_ifs at h with hm
    cases h
    subst hm
    exact hplain hw
  | cons c cs ih =>
    rw [scan] at h
    split_ifs at h with hb hc hn ha
    · obtain ⟨ws', hws, rfl⟩ := Option.map_eq_some_iff.mp h
      obtain ⟨rfl, -⟩ := hb
      intro x hx
      obtain hx | hx := List.mem_append.mp hx
      · exact hplain hw x hx
      · have hnone : Begun .plain none := fun _ h => by cases h
        exact ih hnone hws x hx
    · cases h
      simp
    · cases h
      obtain ⟨rfl, -⟩ := ha
      exact hplain hw
    · obtain ⟨⟨m', w'⟩, hs, h⟩ := Option.bind_eq_some_iff.mp h
      exact ih (step_begun hw hb hc hs) h

/-! ## A text before plain words -/

/-- It is a part of a word wherever it stands, and of no pattern or assignment. -/
def isCalm (c : Char) : Bool := isOrdinary c && !(['#', '~', '*', '?', '[', '='].contains c)

/-- Words of such characters with blanks between them, and perhaps `&` at the end. -/
def Quiet : List Char → Prop
  | [] => True
  | c :: cs => (c = ' ' ∨ isCalm c ∨ c = '&' ∧ cs = []) ∧ Quiet cs

theorem calm_ordinary {c : Char} (h : isCalm c) : isOrdinary c := (Bool.and_eq_true _ _ ▸ h).1

theorem calm_ne {c d : Char} (h : isCalm c) (hd : isCalm d = false) : c ≠ d := by
  rintro rfl
  rw [hd] at h
  cases h

theorem calm_not_pattern {s : List Char} (h : ∀ c ∈ s, isCalm c) : isPattern (unquoted s) = false := by
  induction s with
  | nil => rfl
  | cons c s ih =>
    obtain ⟨hc, hs⟩ := List.forall_mem_cons.mp h
    have h₁ := calm_ne hc (d := '*') (by decide)
    have h₂ := calm_ne hc (d := '?') (by decide)
    have h₃ := calm_ne hc (d := '[') (by decide)
    rw [unquoted, List.map_cons, isPattern, ← unquoted, ih hs]
    simp [h₁, h₂, h₃]

theorem Plain.of_calm {s : List Char} (h : s ≠ []) (hs : ∀ c ∈ s, isCalm c) : Plain s := by
  have hhead : ∀ d, isCalm d = false → s.head? ≠ some d := fun d hd e =>
    calm_ne (hs d (List.mem_of_mem_head? e)) hd rfl
  refine ⟨h, List.all_eq_true.mpr fun c hc => calm_ordinary (hs c hc), hhead '#' (by decide), ?_⟩
  simp only [Word.expands, Word.ofText, calm_not_pattern hs, Bool.or_false]
  exact decide_eq_false (hhead '~' (by decide))

theorem scan_calm {w : Option Word} {c : Char} (h : isCalm c) (cs : List Char) :
    scan .plain w (c :: cs) = scan .plain (some (push w [c] [(c, false)])) cs :=
  scan_ordinary (calm_ordinary h) (fun _ => calm_ne h (by decide)) cs

theorem chars_push (w : Option Word) (raw : List Char) (text : List (Char × Bool)) :
    (push w raw text).chars = w.elim [] Word.chars ++ text.map Prod.fst := by
  cases w <;> simp [push, Word.chars]

/-- What follows a word, if it is quiet, adds calm characters to it, and calm words. -/
theorem scan_quiet {w : Option Word} {cs : List Char} {ws : List Word} (hq : Quiet cs)
    (h : scan .plain w cs = some ws) : ∀ x ∈ ws,
      (∃ v t, w = some v ∧ x.chars = v.chars ++ t ∧ ∀ c ∈ t, isCalm c) ∨
      x.chars ≠ [] ∧ ∀ c ∈ x.chars, isCalm c := by
  have hself : ∀ {w : Option Word}, ∀ x ∈ w.toList,
      ∃ v t, w = some v ∧ x.chars = v.chars ++ t ∧ ∀ c ∈ t, isCalm c := fun x hx =>
    ⟨x, [], Option.mem_toList.mp hx, (List.append_nil _).symm, List.forall_mem_nil _⟩
  induction cs generalizing w ws with
  | nil =>
    cases h
    exact fun x hx => .inl (hself x hx)
  | cons c cs ih =>
    obtain ⟨rfl | hc | ⟨rfl, rfl⟩, hq⟩ := hq
    · obtain ⟨ws', hws, rfl⟩ := Option.map_eq_some_iff.mp h
      intro x hx
      obtain hx | hx := List.mem_append.mp hx
      · exact .inl (hself x hx)
      · obtain ⟨v, -, hv, -⟩ | hx := ih hq hws x hx
        · cases hv
        · exact .inr hx
    · rw [scan_calm hc] at h
      intro x hx
      obtain ⟨v, t, hv, hxt, ht⟩ | hx := ih hq h x hx
      · cases hv
        have ht' : ∀ d ∈ c :: t, isCalm d := List.forall_mem_cons.mpr ⟨hc, ht⟩
        rw [chars_push, List.append_assoc] at hxt
        cases w with
        | none => exact .inr (by rw [hxt]; exact ⟨by simp, ht'⟩)
        | some w => exact .inl ⟨w, c :: t, rfl, hxt, ht'⟩
      · exact .inr hx
    · cases h
      exact fun x hx => .inl (hself x hx)

/-- Quotes are not closed by what is quiet. -/
theorem scan_unclosed {m : Mode} {w : Option Word} {cs : List Char} (hq : Quiet cs)
    (hm : m ≠ .plain ∧ m ≠ .escape) : scan m w cs = none := by
  induction cs generalizing m w with
  | nil => exact if_neg hm.1
  | cons c cs ih =>
    have hc : c ≠ '\'' ∧ c ≠ '"' ∧ c ≠ '\\' ∧ c ≠ '$' ∧ c ≠ '\x60' ∧ c ≠ '\n' := by
      obtain ⟨rfl | hc | ⟨rfl, -⟩, -⟩ := hq
      · decide
      · refine ⟨?_, ?_, ?_, ?_, ?_, ?_⟩ <;> exact calm_ne hc (by decide)
      · decide
    obtain ⟨h₁, h₂, h₃, h₄, h₅, h₆⟩ := hc
    have ih := fun m w hm => ih (m := m) (w := w) hq.2 hm
    cases m with
    | plain => exact absurd rfl hm.1
    | escape => exact absurd rfl hm.2
    | single => simp [scan, step, h₁, ih]
    | double => simp [scan, step, h₂, h₃, h₄, h₅, ih]
    | doubleEscape => simp [scan, step, h₂, h₃, h₄, h₅, h₆, ih]

/-- The characters of the word so far, with a backslash that waits. -/
def begunLength (m : Mode) (w : Option Word) : Nat :=
  w.elim 0 (fun w => w.raw.length) + if m = .escape ∨ m = .doubleEscape then 1 else 0

theorem step_length {m m' : Mode} {w w' : Option Word} {c : Char} (h : step m w c = some (m', w')) :
    begunLength m' w' ≤ begunLength m w + 1 := by
  have hpush : ∀ (raw : List Char) (text : List (Char × Bool)),
      (push w raw text).raw.length = w.elim 0 (fun w => w.raw.length) + raw.length := by
    intro raw text
    cases w <;> simp [push]
  cases m <;> simp only [step] at h <;> split_ifs at h <;> cases h <;>
    simp only [begunLength, Option.elim_some, hpush, List.length_cons, List.length_nil, reduceCtorEq,
      or_self, or_true, true_or, if_true, if_false] <;> omega

/-- A backslash at the end waits for the next character. -/
def Waits (m : Mode) (cs : List Char) : Prop := cs.getLast? = some '\\' ∨ cs = [] ∧ m = .escape

theorem Waits.cons {m m' : Mode} {w w' : Option Word} {c : Char} {cs : List Char} (h : Waits m' cs)
    (hs : step m w c = some (m', w')) : Waits m (c :: cs) := by
  obtain h | ⟨rfl, rfl⟩ := h
  · exact .inl (by rw [List.getLast?_cons, h]; rfl)
  · refine .inl ?_
    cases m <;> simp only [step] at hs <;> split_ifs at hs <;> simp_all

/-- What a quiet rest makes of where the scanner is: it ends the word, or goes on with it behind a
backslash, and has calm words. -/
theorem scan_rest {m : Mode} {w : Option Word} {tail : List Char} {ws : List Word} (hq : Quiet tail)
    (hgap : ∀ c ∈ tail.head?, c = ' ') (h : scan m w tail = some ws) : ∀ x ∈ ws,
      x ∈ w.toList ∨ (m = .escape ∧ tail ≠ [] ∧ ∃ y t, x.chars = y ++ ' ' :: t ∧ ∀ c ∈ t, isCalm c) ∨
      ∀ c ∈ x.chars, isCalm c := by
  intro x hx
  by_cases hm : m ≠ .plain ∧ m ≠ .escape
  · rw [scan_unclosed hq hm] at h
    cases h
  match m, tail with
  | .plain, [] =>
    cases h
    exact .inl hx
  | .escape, [] => cases h
  | .plain, c :: t =>
    obtain rfl := hgap c rfl
    obtain ⟨ws', hws, rfl⟩ := Option.map_eq_some_iff.mp h
    obtain hx | hx := List.mem_append.mp hx
    · exact .inl hx
    · obtain ⟨v, -, hv, -⟩ | hx := scan_quiet hq.2 hws x hx
      · cases hv
      · exact .inr (.inr hx.2)
  | .escape, c :: t =>
    obtain rfl := hgap c rfl
    have h : scan .plain (some (push w ['\\', ' '] [(' ', true)])) t = some ws := h
    obtain ⟨v, t, hv, hxt, ht⟩ | hx := scan_quiet hq.2 h x hx
    · cases hv
      rw [chars_push, List.append_assoc] at hxt
      exact .inr (.inl ⟨rfl, by simp, _, t, hxt, ht⟩)
    · exact .inr (.inr hx.2)
  | .single, _ | .double, _ | .doubleEscape, _ => exact absurd (by decide) hm

/-- Before a quiet rest, a word is no longer than its text, or goes on behind a backslash, or is
one of the rest. -/
theorem scan_before {m : Mode} {w : Option Word} {cs tail : List Char} {ws : List Word} (hq : Quiet tail)
    (hgap : ∀ c ∈ tail.head?, c = ' ') (h : scan m w (cs ++ tail) = some ws) : ∀ x ∈ ws,
      x.raw.length ≤ begunLength m w + cs.length ∨
      (Waits m cs ∧ tail ≠ [] ∧ ∃ y t, x.chars = y ++ ' ' :: t ∧ ∀ c ∈ t, isCalm c) ∨
      ∀ c ∈ x.chars, isCalm c := by
  have hself : ∀ {m : Mode} {w : Option Word} {n : Nat}, ∀ x ∈ w.toList,
      x.raw.length ≤ begunLength m w + n := by
    intro m w n x hx
    rw [Option.mem_toList.mp hx]
    exact Nat.le_trans (Nat.le_add_right _ _) (Nat.le_add_right _ _)
  induction cs generalizing m w ws with
  | nil =>
    intro x hx
    obtain hx | ⟨hm, hx⟩ | hx := scan_rest hq hgap h x hx
    · exact .inl (hself x hx)
    · exact .inr (.inl ⟨.inr ⟨rfl, hm⟩, hx⟩)
    · exact .inr (.inr hx)
  | cons c cs ih =>
    rw [List.cons_append, scan] at h
    split_ifs at h with hb hc hn ha
    · obtain ⟨ws', hws, rfl⟩ := Option.map_eq_some_iff.mp h
      intro x hx
      obtain hx | hx := List.mem_append.mp hx
      · exact .inl (hself x hx)
      · obtain hl | ⟨hw | ⟨-, hm⟩, hx⟩ | hx := ih hws x hx
        · refine .inl (Nat.le_trans hl ?_)
          simp only [begunLength, Option.elim_none, List.length_cons, reduceCtorEq, or_self, if_false]
          omega
        · exact .inr (.inl ⟨.inl (by rw [List.getLast?_cons, hw]; rfl), hx⟩)
        · cases hm
        · exact .inr (.inr hx)
    · cases h
      simp
    · cases h
      exact fun x hx => .inl (hself x hx)
    · obtain ⟨⟨m', w'⟩, hs, h⟩ := Option.bind_eq_some_iff.mp h
      intro x hx
      obtain hl | ⟨hw, hx⟩ | hx := ih h x hx
      · have := step_length hs
        exact .inl (by rw [List.length_cons]; omega)
      · exact .inr (.inl ⟨hw.cons hs, hx⟩)
      · exact .inr (.inr hx)

/-- A text that is not plain is never what a word of its line ends in, be the line cut off or not. -/
theorem scan_not_suffix {s cs tail : List Char} {ws : List Word} (hs : s ≠ []) (hp : ¬ Plain s)
    (hcut : cs = s ∨ cs.length < s.length ∧ tail = []) (hq : Quiet tail) (hgap : ∀ c ∈ tail.head?, c = ' ')
    (h : scan .plain none (cs ++ tail) = some ws) : ∀ x ∈ ws, x.expands = false → ¬ s <:+ x.chars := by
  intro x hx he hsuf
  have hnone : Begun .plain none := fun _ h => by cases h
  have hkept := scan_kept hnone h x hx
  obtain hl | ⟨hw | ⟨-, hm⟩, ht, y, t, hxt, hcalm⟩ | hcalm := scan_before hq hgap h x hx
  · have hlen : s.length ≤ x.text.length := by
      simpa [Word.chars] using hsuf.length_le
    have hraw : x.raw.length ≤ cs.length := by
      simpa [begunLength] using hl
    have hcs : cs.length ≤ s.length := by
      obtain rfl | ⟨hlt, -⟩ := hcut
      · exact Nat.le_refl _
      · exact Nat.le_of_lt hlt
    have := hkept.length_le
    obtain ⟨hchars, hplain⟩ := hkept.plain he (by omega)
    rw [hchars] at hsuf
    rw [hsuf.eq_of_length (by have := hsuf.length_le; omega)] at hp
    exact hp hplain
  · -- the text ends in a backslash, the word in a blank or a calm character
    obtain rfl | ⟨-, htail⟩ := hcut
    · obtain ⟨z, hz⟩ := hsuf
      have hlast : (y ++ ' ' :: t).getLast? = some '\\' := by
        rw [← hxt, ← hz, List.getLast?_append, hw]
        rfl
      rw [List.getLast?_append, List.getLast?_cons, Option.some_or, Option.some.injEq] at hlast
      cases hc : t.getLast? with
      | none =>
        rw [hc] at hlast
        exact absurd hlast (by decide)
      | some c =>
        rw [hc, Option.getD_some] at hlast
        exact calm_ne (hcalm c (List.mem_of_getLast? hc)) (by decide) hlast
    · exact ht htail
  · cases hm
  · exact hp (.of_calm hs fun c hc => hcalm c (hsuf.subset hc))

/-! ## A line that is cut off -/

theorem Quiet.take {cs : List Char} (h : Quiet cs) (n : Nat) : Quiet (cs.take n) := by
  induction cs generalizing n with
  | nil => rwa [List.take_nil]
  | cons c cs ih =>
    cases n with
    | zero => trivial
    | succ n =>
      refine ⟨?_, ih h.2 n⟩
      obtain hc | hc | ⟨hc, rfl⟩ := h.1
      · exact .inl hc
      · exact .inr (.inl hc)
      · exact .inr (.inr ⟨hc, List.take_nil⟩)

theorem Quiet.append {s cs : List Char} (hs : ∀ c ∈ s, isCalm c) (h : Quiet cs) : Quiet (s ++ cs) := by
  induction s with
  | nil => exact h
  | cons c s ih =>
    obtain ⟨hc, hs⟩ := List.forall_mem_cons.mp hs
    exact ⟨.inr (.inl hc), ih hs⟩

theorem Quiet.spaced {ws : List (List Char)} (hws : ∀ w ∈ ws, ∀ c ∈ w, isCalm c) {cs : List Char}
    (h : Quiet cs) : Quiet (spaced ws ++ cs) := by
  induction ws with
  | nil => exact h
  | cons w ws ih =>
    obtain ⟨hw, hws⟩ := List.forall_mem_cons.mp hws
    rw [Shell.spaced, List.flatMap_cons, List.append_assoc]
    exact ⟨.inl rfl, Quiet.append hw (ih hws)⟩

theorem closes_append {p : List (Char × Bool)} (h : closes p) (t : List (Char × Bool)) :
    closes (p ++ t) := by
  have hsub : ∀ q : List (Char × Bool), ((q.takeWhile (·.1 ≠ '/')).tail.contains (']', false)) →
      (((q ++ t).takeWhile (·.1 ≠ '/')).tail.contains (']', false)) := by
    intro q hq
    have hpre : q.takeWhile (·.1 ≠ '/') <+: (q ++ t).takeWhile (·.1 ≠ '/') := by
      rw [List.takeWhile_append]
      split
      · exact List.IsPrefix.trans (List.takeWhile_prefix _) (List.prefix_append _ _)
      · exact List.prefix_refl _
    obtain ⟨r, hr⟩ := hpre
    have hne : q.takeWhile (·.1 ≠ '/') ≠ [] := by
      intro h
      rw [h] at hq
      cases hq
    rw [List.contains_iff_mem] at hq ⊢
    rw [← hr, List.tail_append_of_ne_nil hne]
    exact List.mem_append_left _ hq
  cases p with
  | nil => cases h
  | cons c p =>
    simp only [closes, List.cons_append] at h ⊢
    by_cases hc : c = ('!', false)
    · rw [if_pos hc] at h ⊢
      exact hsub p h
    · rw [if_neg hc] at h ⊢
      exact hsub (c :: p) h

theorem isPattern_append {p : List (Char × Bool)} (h : isPattern p) (t : List (Char × Bool)) :
    isPattern (p ++ t) := by
  induction p with
  | nil => cases h
  | cons c p ih =>
    simp only [List.cons_append, isPattern, Bool.or_eq_true, Bool.and_eq_true] at h ⊢
    obtain (h | ⟨hc, h⟩) | h := h
    · exact .inl (.inl h)
    · exact .inl (.inr ⟨hc, closes_append h t⟩)
    · exact .inr (ih h)

/-- The front of a plain word is plain. -/
theorem Plain.take {s : List Char} (h : Plain s) {n : Nat} (hn : n ≠ 0) : Plain (s.take n) := by
  obtain ⟨hne, ho, hh, he⟩ := h
  have hhead : (s.take n).head? = s.head? := by rw [List.head?_take, if_neg hn]
  refine ⟨by simp [hne, hn], List.all_eq_true.mpr fun c hc => List.all_eq_true.mp ho c (List.mem_of_mem_take hc),
    by rwa [hhead], ?_⟩
  simp only [Word.expands, Word.ofText, Bool.or_eq_false_iff, hhead] at he ⊢
  refine ⟨he.1, Bool.eq_false_iff.mpr fun hp => ?_⟩
  have := isPattern_append hp (unquoted (s.drop n))
  rw [unquoted, unquoted, ← List.map_append, List.take_append_drop, ← unquoted, he.2] at this
  cases this

/-- The words with a blank before each that the first `n` characters hold. -/
def cut : Nat → List (List Char) → List (List Char)
  | n + 2, w :: ws => w.take (n + 1) :: cut (n + 1 - w.length) ws
  | _, _ => []

theorem cut_nil (n : Nat) : cut n [] = [] := by
  match n with
  | 0 | 1 | _ + 2 => rfl

theorem cut_le_one {n : Nat} (hn : n ≤ 1) (ws : List (List Char)) : cut n ws = [] := by
  match n with
  | 0 | 1 => cases ws <;> rfl

theorem spaced_append (us vs : List (List Char)) : spaced (us ++ vs) = spaced us ++ spaced vs :=
  List.flatMap_append

/-- Words that are all there. -/
theorem cut_append {us : List (List Char)} (hus : ∀ w ∈ us, w ≠ []) (vs : List (List Char)) {n : Nat}
    (hn : (spaced us).length ≤ n) : cut n (us ++ vs) = us ++ cut (n - (spaced us).length) vs := by
  induction us generalizing n with
  | nil => rfl
  | cons w us ih =>
    obtain ⟨hw, hus⟩ := List.forall_mem_cons.mp hus
    have := List.length_pos_iff.mpr hw
    rw [spaced, List.flatMap_cons, ← spaced, List.length_append, List.length_cons] at hn ⊢
    match n with
    | 0 | 1 => omega
    | n + 2 =>
      rw [List.cons_append, cut, List.take_of_length_le (by omega), ih hus (by omega), List.cons_append,
        show n + 1 - w.length - (spaced us).length = n + 2 - (w.length + 1 + (spaced us).length) by omega]

theorem head_take (ws : List (List Char)) (n : Nat) :
    ∀ c ∈ ((spaced ws ++ [' ', '&']).take n).head?, c = ' ' := by
  intro c hc
  rw [List.head?_take] at hc
  split at hc
  · cases hc
  · cases ws <;> simpa [spaced, eq_comm] using hc

theorem cut_plain {ws : List (List Char)} (h : ∀ w ∈ ws, Plain w) (n : Nat) : ∀ w ∈ cut n ws, Plain w := by
  induction ws generalizing n with
  | nil =>
    rw [cut_nil]
    exact List.forall_mem_nil _
  | cons w ws ih =>
    obtain ⟨hw, hws⟩ := List.forall_mem_cons.mp h
    match n with
    | 0 | 1 => exact List.forall_mem_nil _
    | n + 2 => exact List.forall_mem_cons.mpr ⟨hw.take (by omega), ih hws _⟩

theorem scan_take {ws : List (List Char)} (h : ∀ w ∈ ws, Plain w) (n : Nat) :
    scan .plain none ((spaced ws ++ [' ', '&']).take n) = some ((cut n ws).map .ofText) := by
  induction ws generalizing n with
  | nil =>
    match n with
    | 0 | 1 => rfl
    | n + 2 => rw [List.take_of_length_le (by simp [spaced])]; rfl
  | cons w ws ih =>
    obtain ⟨hw, hws⟩ := List.forall_mem_cons.mp h
    match n with
    | 0 | 1 => rfl
    | n + 2 =>
      rw [spaced, List.flatMap_cons, List.append_assoc, List.cons_append, ← spaced, List.take_succ_cons,
        List.take_append, cut]
      simp only [scan, isBlank, decide_true, Bool.true_or, and_self, if_true, Option.toList_none,
        List.nil_append]
      rw [scan_plain (hw.take (by omega)), scan_gap (head_take _ _), ih hws]
      rfl

/-- The arguments in what is left of a line of plain words with `&` at its end. -/
theorem argv_take {name : List Char} {ws : List (List Char)} (hn : Plain name) (h : ∀ w ∈ ws, Plain w)
    (env : Surroundings) (n : Nat) :
    argv env (name ++ (spaced ws ++ [' ', '&']).take n) = name :: cut n ws := by
  have hwords : ∀ {us : List (List Char)}, (∀ w ∈ us, Plain w) →
      (us.map Word.ofText).flatMap (fun w => if w.expands then env.fields w.raw else [w.chars]) = us := by
    intro us hus
    induction us with
    | nil => rfl
    | cons w us ih =>
      obtain ⟨hw, hus⟩ := List.forall_mem_cons.mp hus
      rw [List.map_cons, List.flatMap_cons, ih hus, hw.2.2.2, Word.chars_ofText]
      rfl
  have hscan : scan .plain none (name ++ (spaced ws ++ [' ', '&']).take n) =
      some ((name :: cut n ws).map .ofText) := by
    rw [scan_plain hn, scan_gap (head_take _ _), scan_take h]
    rfl
  rw [argv, hscan]
  exact hwords (List.forall_mem_cons.mpr ⟨hn, cut_plain h n⟩)

end DShow.Shell
