import DShowServer.Framework.Simulate
import DShowServer.Loader.Stub
import Mathlib.Data.List.Find

/-!
# Runs of lookups

A run of lookups over the bytes of the names and of the stubs is one over the table of names, from
which no name is ever taken out (`Stubs.Tracks`, `lookupExternal_track`). So a function once stubbed
keeps its stub and the code of it; what the stub prints stays if it ends before the slot of the next
name, and is run on into that name otherwise (`lookupExternal_stable`).
-/

namespace DShow.Loader

open Registry (CString ascii)
open Bisect (scan)
open Simulate (outputs)
open Ram (Within)

def Stubs.start (w : Win32) : Stubs where
  pos := 0
  exportNames x := (ascii "name1").getD x 0
  code x := if Within w.extcode (maxNumStubs * maxStubSize) x then some 0 else none

section

variable {w : Win32} {s s' t : Stubs} {names : List CString} {n x : CString} {a : BitVec 32} {i k : Nat}

/-- The bytes of the names and of the stubs are those of a table. -/
structure Stubs.Tracks (w : Win32) (s : Stubs) (names : List CString) : Prop where
  pos : s.pos = names.length
  few : names.length ≤ 151
  slots : SlotsAt s.exportNames 0 names
  mapped : ∀ x, Within w.extcode (maxNumStubs * maxStubSize) x → (s.code x).isSome
  code : ∀ i < names.length, s.code.Holds (w.stubAddress i) (w.stubCode i).1

theorem length_patch (pos printf k : Nat) (bs : List UInt8) : (patch pos printf k bs).1.length = bs.length := by
  induction k generalizing bs with
  | zero => rfl
  | succ k ih =>
    match bs with
    | [] | [_] | [_, _] | [_, _, _] => rfl
    | b₀ :: b₁ :: b₂ :: b₃ :: bs =>
      rw [patch]
      simp only [List.length_cons, ih]

theorem length_stubCode : (w.stubCode i).1.length = maxStubSize := (length_patch _ _ _ _).trans w.size

/-- A stub lies in the mapping. -/
theorem within_extcode (hi : i < maxNumStubs) {x : BitVec 32} (hx : Within (w.stubAddress i) maxStubSize x) :
    Within w.extcode (maxNumStubs * maxStubSize) x := by
  refine hx.of_add.mono ?_
  unfold maxNumStubs maxStubSize at *
  omega

/-- Stubs are apart. -/
theorem stubAddress_apart (hik : i < k) (hk : k < maxNumStubs) {x : BitVec 32}
    (hx : Within (w.stubAddress i) maxStubSize x) : ¬ Within (w.stubAddress k) maxStubSize x := by
  unfold maxNumStubs at hk
  unfold Win32.stubAddress maxStubSize at *
  have he : w.extcode + BitVec.ofNat 32 (k * 0x60) - (w.extcode + BitVec.ofNat 32 (i * 0x60)) =
      BitVec.ofNat 32 ((k - i) * 0x60) := by
    refine BitVec.eq_of_toNat_eq ?_
    simp only [BitVec.toNat_sub, BitVec.toNat_add, BitVec.toNat_ofNat]
    have := w.extcode.isLt
    omega
  have hr : w.extcode + BitVec.ofNat 32 (i * 0x60) - (w.extcode + BitVec.ofNat 32 (k * 0x60)) =
      BitVec.ofNat 32 (2 ^ 32 - (k - i) * 0x60) := by
    refine BitVec.eq_of_toNat_eq ?_
    simp only [BitVec.toNat_sub, BitVec.toNat_add, BitVec.toNat_ofNat]
    have := w.extcode.isLt
    omega
  refine Ram.not_within ?_ ?_ hx
  · rw [he, BitVec.toNat_ofNat, Nat.mod_eq_of_lt (by omega)]
    omega
  · rw [hr, BitVec.toNat_ofNat, Nat.mod_eq_of_lt (by omega)]
    omega

theorem isPrefixOf_take (hn : n.chars.length ≤ 32) (cs : List UInt8) :
    n.chars.isPrefixOf cs = n.chars.isPrefixOf (cs.take 32) := by
  rw [Bool.eq_iff_iff, List.isPrefixOf_iff_prefix, List.isPrefixOf_iff_prefix, List.prefix_take_iff]
  exact ⟨fun h => ⟨h, hn⟩, fun h => h.1⟩

theorem slotOf_lt (h : slotOf names n = some i) : i < names.length := List.mem_range.mp (List.mem_of_find?_eq_some h)

/-- A name that fits in its slot is found where it was when more names are put behind. -/
theorem slotOf_append (hn : n.chars.length ≤ 32) : slotOf (names ++ [x]) n =
    (slotOf names n).or (if n.chars.isPrefixOf x.chars then some names.length else none) := by
  have hfind : (List.range names.length).find? (fun i => n.chars.isPrefixOf (slotText ((names ++ [x]).drop i))) =
      slotOf names n := by
    refine List.find?_congr fun i hi => ?_
    rw [List.mem_range] at hi
    rw [List.drop_append_of_le_length (by omega), isPrefixOf_take hn,
      take_slotText_append (List.ne_nil_of_length_pos (by rw [List.length_drop]; omega)), ← isPrefixOf_take hn]
  unfold slotOf at hfind ⊢
  rw [List.length_append, List.length_singleton, List.range_succ, List.find?_append, hfind]
  congr 1
  rw [List.find?_cons, List.drop_left, slotText_singleton]
  split
  · rename_i h
    rw [if_pos h]
  · rename_i h
    rw [if_neg (by rw [h]; exact Bool.false_ne_true)]
    rfl

/-- The search in the bytes. -/
theorem Stubs.Tracks.scan (h : s.Tracks w names) (n : CString) :
    scan (fun i => strncmp s.exportNames (32 * i) n.chars) s.pos 0 = some (slotOf names n) := by
  have hcmp : ∀ i < names.length, ∃ o, strncmp s.exportNames (32 * i) n.chars = some o ∧
      (o = .eq ↔ n.chars.isPrefixOf (slotText (names.drop i)) = true) := by
    intro i hi
    have hd := h.slots.drop i
    rw [Nat.zero_add] at hd
    obtain ⟨ht, hlen⟩ := hd.head (List.ne_nil_of_length_pos (by rw [List.length_drop]; omega))
    exact strncmp_eq ht hlen n.no_nul
  rw [h.pos, Bisect.scan_eq_find fun j _ hj => (hcmp j (by omega)).imp fun _ ho => ho.1, ← List.range_eq_range',
    slotOf]
  congr 1
  refine List.find?_congr fun i hi => ?_
  obtain ⟨o, ho, he⟩ := hcmp i (List.mem_range.mp hi)
  rw [ho, Bool.eq_iff_iff, decide_eq_true_iff, Option.some.injEq, he]

/-- `add_stub` behind the last stub. -/
theorem Stubs.Tracks.addStub (h : s.Tracks w names) (hfound : (w.stubCode names.length).2 = true)
    (hlt : ¬ names.length > 150) {buf : Nat → UInt8} (hbuf : SlotsAt buf 0 (names ++ [n])) :
    ∃ s', w.addStub { s with exportNames := buf } = some (w.stubAddress names.length, s') ∧
      s'.Tracks w (names ++ [n]) := by
  have hpos := h.pos
  have h200 : names.length < maxNumStubs := by
    unfold maxNumStubs
    omega
  have hmap : ∀ x, Within (w.stubAddress names.length) (w.stubCode names.length).1.length x → (s.code x).isSome :=
    fun x hx => h.mapped x (within_extcode h200 (length_stubCode ▸ hx))
  obtain ⟨code, hw, hh, hf, hm⟩ := Ram.writeBytes_spec (by rw [length_stubCode]; decide) hmap
  refine ⟨⟨names.length + 1, buf, code⟩, ?_, ?_⟩
  · unfold Win32.addStub
    dsimp only
    rw [hpos, if_neg (Nat.not_le_of_lt h200), hw, Option.bind_eq_bind, Option.bind_some, if_pos hfound]
  · have hlen : (names ++ [n]).length = names.length + 1 := List.length_append
    refine ⟨hlen.symm, ?_, hbuf, fun x hx => (hm x).trans (h.mapped x hx), fun i hi => ?_⟩
    · rw [List.length_append, List.length_singleton]
      omega
    · rw [List.length_append, List.length_singleton] at hi
      by_cases he : i = names.length
      · subst he
        exact hh
      · refine (h.code i (by omega)).congr (by rw [length_stubCode]; decide) fun x hx => hf x fun hx' => ?_
        exact stubAddress_apart (by omega) h200 (length_stubCode ▸ hx) (length_stubCode ▸ hx')

/-- What the bytes and the table give. -/
abbrev SameStub (w : Win32) (p : BitVec 32 × Stubs) (q : BitVec 32 × List CString) : Prop :=
  p.1 = q.1 ∧ p.2.Tracks w q.2

theorem Stubs.Tracks.noDll (hfound : ∀ i ≤ 150, (w.stubCode i).2 = true) (h : s.Tracks w names) (n : CString) :
    Option.Rel (SameStub w) (w.noDll s n) (w.stubOf names n) := by
  unfold Win32.noDll Win32.stubOf
  rw [h.scan n, Option.bind_eq_bind, Option.bind_some]
  cases slotOf names n with
  | some i => exact .some ⟨rfl, h⟩
  | none =>
    obtain ⟨pos, exportNames, code⟩ := s
    obtain rfl : pos = names.length := h.pos
    dsimp only
    by_cases hlt : names.length > 150
    · rw [if_pos hlt, if_pos hlt]
      exact .some ⟨rfl, h⟩
    · rw [if_neg hlt, if_neg hlt]
      by_cases hlen : 32 * names.length + n.chars.length < exportNamesSize
      · have hc : strcpy exportNames (32 * names.length) n.chars = some _ := if_pos hlen
        have hslots := h.slots.strcpy (by rw [Nat.zero_add]; exact hc) (by rw [Nat.zero_add]; exact hlen)
        obtain ⟨s', hs', ht⟩ := h.addStub (hfound _ (Nat.le_of_not_lt hlt)) hlt hslots
        rw [hc, Option.bind_eq_bind, Option.bind_some, hs', if_pos hlen]
        exact .some ⟨rfl, ht⟩
      · have hc : strcpy exportNames (32 * names.length) n.chars = none := if_neg hlen
        rw [hc, if_neg hlen]
        exact .none

end

/-! ## What stays as it is -/

/-- The name of the stub, if one is needed. -/
def External.stubName : External → Option CString
  | ⟨some library, .ordinal n, _⟩ => expName library n
  | ⟨some _, .name s, _⟩ => some s
  | ⟨none, _, _⟩ => none

section

variable {w : Win32} {s s' t : Stubs} {names names' : List CString} {n x : CString} {a b : BitVec 32} {i : Nat}
  {e : External}

/-- A lookup has its result without the stubs, or is one of the name among them. -/
theorem External.call_cases (w : Win32) (e : External) :
    (∃ a, ∀ (σ : Type) (stub : σ → CString → Option (BitVec 32 × σ)) (s : σ), e.call w stub s = some (a, s)) ∨
    ∀ (σ : Type) (stub : σ → CString → Option (BitVec 32 × σ)) (s : σ),
      e.call w stub s = e.stubName.bind (stub s) := by
  obtain ⟨library, name, native⟩ := e
  unfold External.call lookupExternalByName lookupExternal
  dsimp only
  cases library with
  | none => exact .inl ⟨_, fun _ _ _ => rfl⟩
  | some library =>
    cases name with
    | ordinal n =>
      dsimp only
      cases w.findExport library fun e => e.id = n.toNat with
      | some e => exact .inl ⟨_, fun _ _ _ => rfl⟩
      | none =>
        dsimp only
        split
        · exact .inl ⟨_, fun _ _ _ => rfl⟩
        · exact .inr fun _ _ _ => rfl
    | name s =>
      dsimp only
      cases w.findExport library fun e => e.name = s with
      | some e => exact .inl ⟨_, fun _ _ _ => rfl⟩
      | none =>
        dsimp only
        split
        · exact .inl ⟨_, fun _ _ _ => rfl⟩
        · exact .inr fun _ _ _ => rfl

theorem Stubs.Tracks.call (hfound : ∀ i ≤ 150, (w.stubCode i).2 = true) (h : s.Tracks w names) (e : External) :
    Option.Rel (SameStub w) (e.call w w.noDll s) (e.call w w.stubOf names) := by
  rcases External.call_cases w e with ⟨a, ha⟩ | ha
  · rw [ha _ w.noDll, ha _ w.stubOf]
    exact .some ⟨rfl, h⟩
  · rw [ha _ w.noDll, ha _ w.stubOf]
    cases e.stubName with
    | none => exact .none
    | some n => exact h.noDll hfound n

theorem Stubs.start_tracks : (Stubs.start w).Tracks w [] where
  pos := rfl
  few := Nat.zero_le _
  slots := trivial
  mapped x hx := by
    show (if Within w.extcode (maxNumStubs * maxStubSize) x then some 0 else none).isSome
    rw [if_pos hx]
    rfl
  code i hi := absurd hi (Nat.not_lt_zero i)

/-- Every run of lookups has the results that it has over a table of the names, and fails where that does. -/
theorem lookupExternal_track (hfound : ∀ i ≤ 150, (w.stubCode i).2 = true) (es : List External) :
    Option.Rel (fun p q => p.1 = q.1 ∧ p.2.Tracks w q.2) (outputs (External.call w w.noDll) (.start w) es)
      (outputs (External.call w w.stubOf) [] es) :=
  Simulate.outputs_rel (fun _ _ e h => h.call hfound e) Stubs.start_tracks es

/-- A loader with one function, and with the magic numbers at the start of `ext_stubs`. -/
def oneFunction : Win32 where
  libraries := [⟨CString.ofBytes (ascii "kernel32.dll"), [⟨CString.ofBytes (ascii "Sleep"), -1, 0x8001000⟩]⟩]
  extUnknown := 0x8002000
  printf := 0x8003000
  extcode := 0x30000000
  extStubs := [0xcd, 0xab, 0xad, 0xde, 0xcd, 0xfb, 0xad, 0xde] ++ List.replicate 88 0x90
  size := rfl

theorem oneFunction_found : ∀ i ≤ 150, (oneFunction.stubCode i).2 = true := by decide +kernel

theorem lookupExternal_track_oneFunction : Option.Rel (fun p q => p.1 = q.1 ∧ p.2.Tracks oneFunction q.2)
    (outputs (External.call oneFunction oneFunction.noDll) (.start oneFunction)
      [⟨some (CString.ofBytes (ascii "a.dll")), .name (CString.ofBytes (ascii "GoThere")), 0⟩])
    (some ([0x30000000], [CString.ofBytes (ascii "GoThere")])) :=
  lookupExternal_track oneFunction_found _

/-- The table is left as it is, or the name is put behind the last. -/
theorem stubOf_cases (h : w.stubOf names n = some (a, names')) :
    (names' = names ∧ (slotOf names n = none → 150 < names.length ∧ a = 0) ∧
      ∀ i, slotOf names n = some i → a = w.stubAddress i) ∨
    (slotOf names n = none ∧ names.length ≤ 150 ∧ a = w.stubAddress names.length ∧ names' = names ++ [n]) := by
  unfold Win32.stubOf at h
  cases hs : slotOf names n with
  | some i =>
    rw [hs] at h
    cases h
    exact .inl ⟨rfl, fun h => absurd h (Option.some_ne_none i), fun j hj => congrArg _ (Option.some.inj hj)⟩
  | none =>
    rw [hs] at h
    dsimp only at h
    split at h
    · rename_i hlt
      cases h
      exact .inl ⟨rfl, fun _ => ⟨hlt, rfl⟩, fun i hi => absurd hi.symm (Option.some_ne_none i)⟩
    · rename_i hlt
      split at h
      · cases h
        exact .inr ⟨rfl, Nat.le_of_not_lt hlt, rfl, rfl⟩
      · cases h

/-- The table has an answer for a name. -/
def Answers (w : Win32) (n : CString) (a : BitVec 32) (names : List CString) : Prop :=
  w.stubOf names n = some (a, names)

theorem answers_iff : Answers w n a names ↔
    (∃ i, slotOf names n = some i ∧ a = w.stubAddress i) ∨ slotOf names n = none ∧ 150 < names.length ∧ a = 0 := by
  constructor
  · intro h
    rcases stubOf_cases h with ⟨-, h₁, h₂⟩ | ⟨-, -, -, h⟩
    · cases hs : slotOf names n with
      | some i => exact .inl ⟨i, rfl, h₂ i hs⟩
      | none => exact .inr ⟨rfl, h₁ hs⟩
    · exact absurd (congrArg List.length h) (by rw [List.length_append, List.length_singleton]; omega)
  · unfold Answers Win32.stubOf
    rintro (⟨i, hs, rfl⟩ | ⟨hs, hlt, rfl⟩)
    · rw [hs]
    · rw [hs]
      exact if_pos hlt

theorem answers_stubOf (hn : n.chars.length ≤ 32) (h : w.stubOf names n = some (a, names')) :
    Answers w n a names' := by
  rcases stubOf_cases h with ⟨rfl, -⟩ | ⟨hs, -, rfl, rfl⟩
  · exact h
  · refine answers_iff.mpr (.inl ⟨names.length, ?_, rfl⟩)
    rw [slotOf_append hn, hs, if_pos (List.isPrefixOf_iff_prefix.mpr (List.prefix_refl _))]
    rfl

theorem Answers.stubOf (hn : n.chars.length ≤ 32) (h : Answers w n a names)
    (hx : w.stubOf names x = some (b, names')) : Answers w n a names' := by
  rcases stubOf_cases hx with ⟨rfl, -⟩ | ⟨-, hlt, -, rfl⟩
  · exact h
  · rcases answers_iff.mp h with ⟨i, hs, ha⟩ | ⟨-, h150, -⟩
    · refine answers_iff.mpr (.inl ⟨i, ?_, ha⟩)
      rw [slotOf_append hn, hs]
      rfl
    · omega

theorem Answers.run (hn : n.chars.length ≤ 32) (h : Answers w n a names) {es : List External}
    {rs : List (BitVec 32)} (hr : outputs (External.call w w.stubOf) names es = some (rs, names')) :
    Answers w n a names' := by
  refine Simulate.outputs_inv (Q := fun _ => True) (fun names e r names' h he _ => ?_) h hr fun _ _ => trivial
  rcases External.call_cases w e with ⟨b, hb⟩ | hb
  · rw [hb _ w.stubOf] at he
    cases he
    exact h
  · rw [hb _ w.stubOf] at he
    obtain ⟨x, -, he⟩ := Option.bind_eq_some_iff.mp he
    exact h.stubOf hn he

theorem Stubs.Tracks.run (hfound : ∀ i ≤ 150, (w.stubCode i).2 = true) (h : s.Tracks w names) (es : List External) :
    Option.Rel (fun p q => p.1 = q.1 ∧ p.2.Tracks w q.2) (outputs (External.call w w.noDll) s es)
      (outputs (External.call w w.stubOf) names es) :=
  Simulate.outputs_rel (fun _ _ e h => h.call hfound e) h es

/-- What the table answers, the search in the bytes answers. -/
theorem Stubs.Tracks.answers (h : t.Tracks w names) (ha : Answers w n a names) : w.noDll t n = some (a, t) := by
  have hscan := h.scan n
  rcases answers_iff.mp ha with ⟨i, hs, rfl⟩ | ⟨hs, hlt, rfl⟩
  · rw [Win32.noDll, hscan, hs]
    rfl
  · rw [Win32.noDll, hscan, hs]
    show (if t.pos > 150 then some (0, t) else _) = _
    rw [if_pos (h.pos ▸ hlt)]

/-- What a stub prints as the name: the bytes of its slot, and on up to a NUL. -/
def Prints (buf : Nat → UInt8) (i : Nat) (text : List UInt8) : Prop := HoldsAt buf (32 * i) (text ++ [0]) ∧ 0 ∉ text

theorem not_mem_slotText (names : List CString) : 0 ∉ slotText names := by
  induction names with
  | nil => exact List.not_mem_nil
  | cons n rest ih =>
    unfold slotText
    split
    · exact n.no_nul
    · rw [List.mem_append, not_or]
      exact ⟨fun h => n.no_nul (List.mem_of_mem_take h), ih⟩

theorem Stubs.Tracks.prints (h : s.Tracks w names) (hi : i < names.length) :
    Prints s.exportNames i (slotText (names.drop i)) := by
  have hd := h.slots.drop i
  rw [Nat.zero_add] at hd
  exact ⟨(hd.head (List.ne_nil_of_length_pos (by rw [List.length_drop]; omega))).1, not_mem_slotText _⟩

/-- A lookup writes behind the names that are there. -/
theorem noDll_frame (h : w.noDll s n = some (a, s')) :
    s.pos ≤ s'.pos ∧ ∀ y < 32 * s.pos, s'.exportNames y = s.exportNames y := by
  obtain ⟨o, -, h⟩ := Option.bind_eq_some_iff.mp h
  cases o with
  | some i =>
    cases h
    exact ⟨Nat.le_refl _, fun _ _ => rfl⟩
  | none =>
    dsimp only at h
    split at h
    · cases h
      exact ⟨Nat.le_refl _, fun _ _ => rfl⟩
    · obtain ⟨exportNames, hc, h⟩ := Option.bind_eq_some_iff.mp h
      have hframe := (strcpy_spec hc).2
      unfold Win32.addStub at h
      dsimp only at h
      split at h
      · cases h
        exact ⟨Nat.le_refl _, hframe⟩
      · obtain ⟨code, -, h⟩ := Option.bind_eq_some_iff.mp h
        split at h
        · cases h
          exact ⟨Nat.le_succ _, hframe⟩
        · cases h
          exact ⟨Nat.le_refl _, hframe⟩

theorem run_frame {es : List External} {rs : List (BitVec 32)}
    (hr : outputs (External.call w w.noDll) s es = some (rs, t)) :
    s.pos ≤ t.pos ∧ ∀ y < 32 * s.pos, t.exportNames y = s.exportNames y := by
  refine Simulate.outputs_inv (I := fun t => s.pos ≤ t.pos ∧ ∀ y < 32 * s.pos, t.exportNames y = s.exportNames y)
    (Q := fun _ => True) (fun s₁ e r s₂ h he _ => ?_) ⟨Nat.le_refl _, fun _ _ => rfl⟩ hr fun _ _ => trivial
  rcases External.call_cases w e with ⟨b, hb⟩ | hb
  · rw [hb _ w.noDll] at he
    cases he
    exact h
  · rw [hb _ w.noDll] at he
    obtain ⟨x, -, he⟩ := Option.bind_eq_some_iff.mp he
    obtain ⟨hle, hframe⟩ := noDll_frame he
    exact ⟨Nat.le_trans h.1 hle, fun y hy => (hframe y (by omega)).trans (h.2 y hy)⟩

/-- A name looked up among the stubs is in the table from then on. -/
theorem Stubs.Tracks.stubbed (h : s.Tracks w names) (hfound : ∀ i ≤ 150, (w.stubCode i).2 = true)
    (hn : n.chars.length ≤ 32) (hs : w.noDll s n = some (a, s')) {later : List External} {rs : List (BitVec 32)}
    (hl : outputs (External.call w w.noDll) s' later = some (rs, t)) :
    ∃ names' names'', w.stubOf names n = some (a, names') ∧ s'.Tracks w names' ∧ t.Tracks w names'' ∧
      Answers w n a names' ∧ Answers w n a names'' := by
  obtain ⟨⟨_, names'⟩, hs', rfl, ht'⟩ := Simulate.rel_left (h.noDll hfound n) hs
  obtain ⟨⟨_, names''⟩, hl', -, ht''⟩ := Simulate.rel_left (ht'.run hfound later) hl
  have ha' := answers_stubOf hn hs'
  exact ⟨names', names'', hs', ht', ht'', ha', ha'.run hn hl'⟩

/-- **Lookups stay as they are.** What is once looked up under a name that fits in its slot is found at the same
address after any other lookups. Where that is a stub its code has not changed, and what it prints, which begins with
the name, and is the name where the stub was new, has not if it ended before the slot of the next name. -/
theorem lookupExternal_stable (hfound : ∀ i ≤ 150, (w.stubCode i).2 = true) {es later : List External}
    {rs rs' : List (BitVec 32)} (hr : outputs (External.call w w.noDll) (.start w) es = some (rs, s))
    (hfit : ∀ n ∈ e.stubName, n.chars.length ≤ 32) (hc : e.call w w.noDll s = some (a, s'))
    (hl : outputs (External.call w w.noDll) s' later = some (rs', t)) :
    e.call w w.noDll t = some (a, t) ∧ (a ≠ 0 → ∀ n ∈ e.stubName, w.noDll s n = some (a, s') →
      ∃ i text, i < s'.pos ∧ a = w.stubAddress i ∧ t.code.Holds a (w.stubCode i).1 ∧
        Prints s'.exportNames i text ∧ n.chars <+: text ∧ (s.pos < s'.pos → i = s.pos ∧ text = n.chars) ∧
        (32 * i + text.length < 32 * s'.pos → Prints t.exportNames i text)) := by
  obtain ⟨⟨_, names⟩, -, -, ht⟩ := Simulate.rel_left (Stubs.start_tracks.run hfound es) hr
  refine ⟨?_, fun h0 n hn hs => ?_⟩
  · rcases External.call_cases w e with ⟨b, hb⟩ | hb
    · rw [hb _ w.noDll] at hc ⊢
      cases hc
      rfl
    · rw [hb _ w.noDll] at hc ⊢
      obtain ⟨n, hn, hs⟩ := Option.bind_eq_some_iff.mp hc
      obtain ⟨_, _, -, -, ht'', -, ha''⟩ := ht.stubbed hfound (hfit n hn) hs hl
      rw [hn]
      exact ht''.answers ha''
  · obtain ⟨names', names'', hs', ht', ht'', ha', -⟩ := ht.stubbed hfound (hfit n hn) hs hl
    obtain ⟨hpos, hframe⟩ := run_frame hl
    obtain ⟨i, hi, ha⟩ : ∃ i, slotOf names' n = some i ∧ a = w.stubAddress i :=
      (answers_iff.mp ha').resolve_right fun h => h0 h.2.2
    have hlt := slotOf_lt hi
    have hprints := ht'.prints hlt
    refine ⟨i, slotText (names'.drop i), ht'.pos ▸ hlt, ha, ?_, hprints, ?_, fun hnew => ?_,
      fun hend => ⟨?_, hprints.2⟩⟩
    · rw [ha]
      exact ht''.code i (by have := ht'.pos; have := ht''.pos; omega)
    · have hp := List.find?_some hi
      exact List.isPrefixOf_iff_prefix.mp hp
    · -- the name was put behind the last
      rcases stubOf_cases hs' with ⟨rfl, -⟩ | ⟨hnone, -, -, rfl⟩
      · exact absurd (ht'.pos.trans ht.pos.symm) (Nat.ne_of_gt hnew)
      · rw [slotOf_append (hfit n hn), hnone, if_pos (List.isPrefixOf_iff_prefix.mpr (List.prefix_refl _))] at hi
        cases hi
        rw [List.drop_left, slotText_singleton]
        exact ⟨ht.pos.symm, rfl⟩
    · refine hprints.1.congr fun y hy => hframe y ?_
      rw [List.length_append, List.length_singleton] at hy
      omega

theorem lookupExternal_stable_newName : ∃ s s' t rs rs',
    outputs (External.call oneFunction oneFunction.noDll) (.start oneFunction)
      [⟨some (CString.ofBytes (ascii "a.dll")), .name (CString.ofBytes (ascii "GoThere")), 0⟩] = some (rs, s) ∧
    External.call oneFunction oneFunction.noDll s ⟨some (CString.ofBytes (ascii "b.dll")),
      .name (CString.ofBytes (ascii "Run")), 0⟩ = some (0x30000060, s') ∧
    outputs (External.call oneFunction oneFunction.noDll) s'
      [⟨some (CString.ofBytes (ascii "KERNEL32.DLL")), .name (CString.ofBytes (ascii "Sleep")), 0⟩,
        ⟨some (CString.ofBytes (ascii "a.dll")), .name (CString.ofBytes (ascii "Go")), 0⟩,
        ⟨some (CString.ofBytes (ascii "c.dll")), .ordinal 7, 0⟩] = some (rs', t) ∧
    External.call oneFunction oneFunction.noDll t ⟨some (CString.ofBytes (ascii "b.dll")),
      .name (CString.ofBytes (ascii "Run")), 0⟩ = some (0x30000060, t) ∧
    Prints t.exportNames 1 (ascii "Run") := by
  obtain ⟨⟨rs, s⟩, hs, -, ht⟩ := Simulate.rel_right (Stubs.start_tracks.run oneFunction_found
    [⟨some (CString.ofBytes (ascii "a.dll")), .name (CString.ofBytes (ascii "GoThere")), 0⟩]) rfl
  obtain ⟨⟨a, s'⟩, hs', ha, ht'⟩ := Simulate.rel_right (ht.call oneFunction_found
    ⟨some (CString.ofBytes (ascii "b.dll")), .name (CString.ofBytes (ascii "Run")), 0⟩) rfl
  obtain ⟨⟨rs', t⟩, hl, -, -⟩ := Simulate.rel_right (ht'.run oneFunction_found
    [⟨some (CString.ofBytes (ascii "KERNEL32.DLL")), .name (CString.ofBytes (ascii "Sleep")), 0⟩,
      ⟨some (CString.ofBytes (ascii "a.dll")), .name (CString.ofBytes (ascii "Go")), 0⟩,
      ⟨some (CString.ofBytes (ascii "c.dll")), .ordinal 7, 0⟩]) rfl
  obtain rfl : a = 0x30000060 := ha
  obtain ⟨hagain, hstub⟩ := lookupExternal_stable oneFunction_found hs (fun n hn => by cases hn; decide) hs' hl
  obtain ⟨i, text, -, -, -, -, -, hnew, hp⟩ := hstub (by decide) (CString.ofBytes (ascii "Run")) rfl hs'
  have hpos : s.pos = 1 := ht.pos
  have hpos' : s'.pos = 2 := ht'.pos
  obtain ⟨rfl, rfl⟩ := hnew (by omega)
  rw [hpos, hpos'] at hp
  exact ⟨s, s', t, rs, rs', hs, hs', hl, hagain, hp (by decide)⟩

end

end DShow.Loader
