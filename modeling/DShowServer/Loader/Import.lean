import DShowServer.Loader.Lookup

/-!
# Imported functions

`fixup_imports` counts the descriptors of the import table and then puts, for each, the functions
that its names and ordinals are resolved to into the words of its thunk list, up to a zero.
The names are in a list of their own, or, if a linker left `OriginalFirstThunk` zero, in the
thunk list itself. `Characteristics` is that same field: a table that begins with a descriptor
in which it is not zero ends at the first in which it is.

Where a table lies in memory (`TableAt`) and no function that is put in lies on what is read, each
word of the thunk lists is the function that its import is resolved to, and nothing else changes
(`fixupImports_links`).
-/

namespace DShow.Loader

open Registry (CString ascii)
open Bytes (leBytes ofLeBytes)
open Simulate (outputs)
open Ram (Within)

/-! ## The two loops -/

/-- What is looked up: a name or an ordinal of a library. -/
abbrev Request := Option CString × ProcName

/-- The string at a pointer, unless that is null. -/
def stringAt (m : Ram 32) (a : BitVec 32) : Option (Option CString) :=
  if a = 0 then some none else (cstring m a).map some

/-- What a word of an import list names: `LookupExternalByName` takes a pointer below 0x10000 as a number. -/
def thunkProc (m : Ram 32) (load_addr v : BitVec 32) : Option ProcName :=
  if v &&& 0x80000000 ≠ 0 then some (.ordinal (v.setWidth 16))
  else if load_addr + v + 2 ≤ 0xffff then some (.ordinal ((load_addr + v + 2).setWidth 16))
  else (cstring m (load_addr + v + 2)).map .name

section

variable {σ : Type} (lookup : σ → Request → Option (BitVec 32 × σ)) (load_addr : BitVec 32)

/-- The functions of one descriptor. The import list is a list of its own, or the thunk list. -/
def fillThunks (name : BitVec 32) : Nat → BitVec 32 → BitVec 32 → Ram 32 → σ → Option (Ram 32 × σ)
  | 0, _, _, _, _ => none
  | fuel + 1, import_list, thunk_list, m, s => do
    let v ← word m import_list
    if v = 0 then some (m, s)
    else do
      let library ← stringAt m name
      let proc ← thunkProc m load_addr v
      let (f, s) ← lookup s (library, proc)
      let m ← m.writeBytes thunk_list (leBytes 4 f.toNat)
      fillThunks name fuel (import_list + 4) (thunk_list + 4) m s

/-- The descriptors that are counted, and whether one with no characteristics ends the table. -/
def countImports (m : Ram 32) : Nat → BitVec 32 → Nat → Bool → Option (Nat × Bool)
  | 0, _, _, _ => none
  | fuel + 1, pe_imp, i, detection => do
    let name ← word m (pe_imp + 12)
    if name = 0 then some (i, detection)
    else do
      let characteristics ← word m pe_imp
      let detection := if i = 0 ∧ characteristics = 0 then false else detection
      if detection ∧ characteristics = 0 then some (i, detection)
      else countImports m fuel (pe_imp + 20) (i + 1) detection

def fillImports (detection : Bool) : Nat → BitVec 32 → Ram 32 → σ → Option (Ram 32 × σ)
  | 0, _, _, _ => none
  | fuel + 1, pe_imp, m, s => do
    let name ← word m (pe_imp + 12)
    if name = 0 then some (m, s)
    else do
      let characteristics ← word m pe_imp
      if detection ∧ characteristics = 0 then some (m, s)
      else do
        let firstThunk ← word m (pe_imp + 16)
        let list := if characteristics ≠ 0 then characteristics else firstThunk
        let (m, s) ← fillThunks lookup load_addr (load_addr + name) fuel (load_addr + list)
          (load_addr + firstThunk) m s
        fillImports detection fuel (pe_imp + 20) m s

/-- `fixup_imports`: `nDeps`, and the memory with the functions put in. `fuel` bounds the loops. -/
def fixupImports (fuel : Nat) (pe_import : BitVec 32) (m : Ram 32) (s : σ) : Option (Nat × Ram 32 × σ) :=
  if pe_import = 0 then some (0, m, s)
  else do
    let (i, detection) ← countImports m fuel pe_import 0 true
    if i = 0 then some (0, m, s)
    else do
      let (m, s) ← fillImports lookup load_addr detection fuel pe_import m s
      some (i, m, s)

end

/-! ## Import tables -/

/-- A word of an import list, and what it names. -/
structure Thunk where
  value : BitVec 32
  proc : ProcName

/-- `IMAGE_IMPORT_DESCRIPTOR`, with the library it names and the words of its list. -/
structure ImportDescriptor where
  characteristics : BitVec 32
  name : BitVec 32
  firstThunk : BitVec 32
  library : CString
  thunks : List Thunk

/-- The words from an address on. -/
def wordsFrom (a : BitVec 32) : Nat → List (BitVec 32)
  | 0 => []
  | n + 1 => a :: wordsFrom (a + 4) n

namespace ImportDescriptor

/-- Where the import list lies. -/
def list (d : ImportDescriptor) : BitVec 32 := if d.characteristics ≠ 0 then d.characteristics else d.firstThunk

/-- The words of the thunk list, where the functions are put. -/
def slots (load_addr : BitVec 32) (d : ImportDescriptor) : List (BitVec 32) :=
  wordsFrom (load_addr + d.firstThunk) d.thunks.length

def requests (d : ImportDescriptor) : List Request := d.thunks.map fun t => (some d.library, t.proc)

end ImportDescriptor

/-- The descriptors up to one that ends the table. -/
def resolvedBy (detection : Bool) (ds : List ImportDescriptor) : List ImportDescriptor :=
  ds.takeWhile fun d => !(detection && d.characteristics = 0)

/-- Whether a table ends at a descriptor with no characteristics. -/
def detects : List ImportDescriptor → Bool
  | [] => true
  | d :: _ => d.characteristics ≠ 0

/-- The descriptors that are resolved: all, if the first has no characteristics, or else those before
the first that has none. -/
def resolved (ds : List ImportDescriptor) : List ImportDescriptor := resolvedBy (detects ds) ds

/-- A word, and the name that it points to. -/
def Thunk.At (m : Ram 32) (load_addr : BitVec 32) (t : Thunk) : Prop :=
  t.value ≠ 0 ∧ match t.proc with
  | .ordinal n => t.value &&& 0x80000000 ≠ 0 ∧ n = t.value.setWidth 16
  | .name s => t.value &&& 0x80000000 = 0 ∧ 0xffff < load_addr + t.value + 2 ∧ s.chars.length < 2 ^ 32 - 1 ∧
      m.Holds (load_addr + t.value + 2) (s.chars ++ [0])

/-- A byte of the name. -/
def Thunk.Has (load_addr : BitVec 32) (t : Thunk) (x : BitVec 32) : Prop :=
  match t.proc with
  | .ordinal _ => False
  | .name s => Within (load_addr + t.value + 2) (s.chars.length + 1) x

/-- An import list, up to the zero behind it. -/
def ThunksAt (m : Ram 32) (load_addr : BitVec 32) : BitVec 32 → List Thunk → Prop
  | a, [] => word m a = some 0
  | a, t :: ts => word m a = some t.value ∧ t.At m load_addr ∧ ThunksAt m load_addr (a + 4) ts

/-- A descriptor, its library, its list, and bytes for the functions. -/
structure ImportDescriptor.At (m : Ram 32) (load_addr a : BitVec 32) (d : ImportDescriptor) : Prop where
  characteristics : word m a = some d.characteristics
  name : word m (a + 12) = some d.name
  firstThunk : word m (a + 16) = some d.firstThunk
  name_ne : d.name ≠ 0 ∧ load_addr + d.name ≠ 0
  library : m.Holds (load_addr + d.name) (d.library.chars ++ [0])
  short : d.library.chars.length < 2 ^ 32 - 1
  thunks : ThunksAt m load_addr (load_addr + d.list) d.thunks
  slots : ∀ b ∈ d.slots load_addr, ∀ x, Within b 4 x → (m x).isSome

/-- A byte that is read besides the descriptor and, in a table without a list of its own, the words
that are replaced. -/
def ImportDescriptor.Reads (load_addr : BitVec 32) (d : ImportDescriptor) (x : BitVec 32) : Prop :=
  Within (load_addr + d.name) (d.library.chars.length + 1) x ∨ (∃ t ∈ d.thunks, t.Has load_addr x) ∨
  (d.characteristics ≠ 0 ∧ ∃ b ∈ wordsFrom (load_addr + d.list) d.thunks.length, Within b 4 x) ∨
  Within (load_addr + d.list + BitVec.ofNat 32 (4 * d.thunks.length)) 4 x

/-- A table, up to the descriptor with no name. -/
def TableAt (m : Ram 32) (load_addr : BitVec 32) : BitVec 32 → List ImportDescriptor → Prop
  | a, [] => word m (a + 12) = some 0
  | a, d :: ds => d.At m load_addr a ∧ TableAt m load_addr (a + 20) ds

/-- A byte that is read of a table. -/
def TableReads (load_addr : BitVec 32) : BitVec 32 → List ImportDescriptor → BitVec 32 → Prop
  | a, [], x => Within (a + 12) 4 x
  | a, d :: ds, x => Within a 20 x ∨ d.Reads load_addr x ∨ TableReads load_addr (a + 20) ds x

/-! ## The words of one descriptor -/

/-- Two words have no byte in common. -/
def Apart (a b : BitVec 32) : Prop := ∀ x, Within a 4 x → ¬ Within b 4 x

theorem Apart.symm {a b : BitVec 32} (h : Apart a b) : Apart b a := fun x hb ha => h x ha hb

/-- None of some bytes is in a word that was replaced. -/
def Clear (done : List (BitVec 32)) (p : BitVec 32 → Prop) : Prop := ∀ x, p x → ∀ b ∈ done, ¬ Within b 4 x

/-- Only the words that were replaced have changed. -/
structure Frame (done : List (BitVec 32)) (m m' : Ram 32) : Prop where
  same : ∀ x, (∀ b ∈ done, ¬ Within b 4 x) → m' x = m x
  mapped : ∀ x, (m' x).isSome = (m x).isSome

section

variable {m m' m₁ : Ram 32} {load_addr a name v f : BitVec 32} {done bs : List (BitVec 32)} {s : CString}
  {t : Thunk} {ts : List Thunk} {p : BitVec 32 → Prop}

theorem clear_nil : Clear [] p := fun _ _ _ hb => absurd hb List.not_mem_nil

theorem clear_cons : Clear (a :: done) p ↔ (∀ x, p x → ¬ Within a 4 x) ∧ Clear done p := by
  constructor
  · intro h
    exact ⟨fun x hx => h x hx a List.mem_cons_self, fun x hx b hb => h x hx b (List.mem_cons_of_mem _ hb)⟩
  · intro h x hx b hb
    rcases List.mem_cons.mp hb with rfl | hb
    · exact h.1 x hx
    · exact h.2 x hx b hb

theorem Frame.refl : Frame [] m m := ⟨fun _ _ => rfl, fun _ => rfl⟩

theorem Frame.trans (h : Frame done m m₁) (h' : Frame bs m₁ m') : Frame (bs ++ done) m m' where
  same x hx := by
    rw [h'.same x fun b hb => hx b (List.mem_append_left _ hb), h.same x fun b hb => hx b (List.mem_append_right _ hb)]
  mapped x := (h'.mapped x).trans (h.mapped x)

theorem Frame.word (h : Frame done m m') (hc : Clear done (Within a 4)) : word m' a = word m a :=
  congrArg _ (Ram.readLE_congr (by decide) fun x hx => h.same x (hc x hx))

theorem Frame.cstring (h : Frame done m m') (hs : m.Holds a (s.chars ++ [0])) (hlen : s.chars.length < 2 ^ 32 - 1)
    (hc : Clear done (Within a (s.chars.length + 1))) : cstring m' a = some s := by
  refine cstring_holds (hs.congr ?_ fun x hx => h.same x (hc x ?_)) (by omega)
  · rw [List.length_append, List.length_singleton]
    omega
  · rwa [List.length_append, List.length_singleton] at hx

theorem Frame.thunkProc (h : Frame done m m') (ht : t.At m load_addr) (hc : Clear done (t.Has load_addr)) :
    thunkProc m' load_addr t.value = some t.proc := by
  obtain ⟨v, proc⟩ := t
  obtain ⟨-, ht⟩ := ht
  unfold Loader.thunkProc
  cases proc with
  | ordinal n =>
    rw [ht.2]
    exact if_pos ht.1
  | name s =>
    obtain ⟨hv, hlo, hlen, hs⟩ := ht
    rw [if_neg (not_not_intro hv), if_neg (BitVec.not_le.mpr hlo), h.cstring hs hlen hc]
    rfl

theorem word_of_holds (h : m.Holds a (leBytes 4 f.toNat)) : word m a = some f := by
  have hr := h.readLE
  rw [Bytes.length_leBytes] at hr
  rw [word, hr, Option.map_some, Bytes.ofLeBytes_leBytes f.isLt, BitVec.ofNat_toNat, BitVec.setWidth_eq]

/-- What the loop over a list needs: every word, the name it points to and the name of the library lie
where no function was put before they are read. -/
def Fillable (m : Ram 32) (load_addr name : BitVec 32) (library : CString) :
    List (BitVec 32) → BitVec 32 → BitVec 32 → List Thunk → Prop
  | done, import_list, _, [] => word m import_list = some 0 ∧ Clear done (Within import_list 4)
  | done, import_list, thunk_list, t :: ts =>
    word m import_list = some t.value ∧ Clear done (Within import_list 4) ∧
    t.At m load_addr ∧ Clear done (t.Has load_addr) ∧
    Clear done (Within name (library.chars.length + 1)) ∧ (∀ x, Within thunk_list 4 x → (m x).isSome) ∧
    Fillable m load_addr name library (thunk_list :: done) (import_list + 4) (thunk_list + 4) ts

variable {σ : Type} {lookup : σ → Request → Option (BitVec 32 × σ)} {st st' : σ} {library : CString}
  {import_list thunk_list : BitVec 32} {rs : List (BitVec 32)} {fuel : Nat}

/-- The functions of one descriptor are put in, and nothing else changes. -/
theorem fillThunks_spec (hF : Fillable m load_addr name library done import_list thunk_list ts)
    (hname : name ≠ 0) (hlib : m.Holds name (library.chars ++ [0])) (hlen : library.chars.length < 2 ^ 32 - 1)
    (hm : Frame done m m₁) (hd : (wordsFrom thunk_list ts.length).Pairwise Apart)
    (hr : outputs lookup st (ts.map fun t => (some library, t.proc)) = some (rs, st')) (hfuel : ts.length < fuel) :
    ∃ m', fillThunks lookup load_addr name fuel import_list thunk_list m₁ st = some (m', st') ∧
      Frame (wordsFrom thunk_list ts.length) m₁ m' ∧
      (wordsFrom thunk_list ts.length).map (word m') = rs.map some := by
  obtain ⟨fuel, rfl⟩ := Nat.exists_eq_succ_of_ne_zero (Nat.ne_of_gt (Nat.lt_of_le_of_lt (Nat.zero_le _) hfuel))
  induction ts generalizing done import_list thunk_list m₁ st rs fuel with
  | nil =>
    cases hr
    refine ⟨m₁, ?_, Frame.refl, rfl⟩
    rw [fillThunks, hm.word hF.2, hF.1]
    rfl
  | cons t ts ih =>
    obtain ⟨hv, hvc, ht, htc, hlc, hmap, hF⟩ := hF
    obtain ⟨⟨f, st₁⟩, hf, hr⟩ := Option.bind_eq_some_iff.mp hr
    obtain ⟨⟨rs, st₂⟩, hrs, he⟩ := Option.map_eq_some_iff.mp hr
    cases he
    rw [List.length_cons] at hfuel
    obtain ⟨fuel, rfl⟩ := Nat.exists_eq_succ_of_ne_zero (n := fuel) (by omega)
    rw [List.length_cons, wordsFrom, List.pairwise_cons] at hd
    have hstring : stringAt m₁ name = some (some library) := by
      rw [stringAt, if_neg hname, hm.cstring hlib hlen hlc]
      rfl
    have h4 : (leBytes 4 f.toNat).length = 4 := Bytes.length_leBytes _ _
    have hmap₁ : ∀ x, Within thunk_list (leBytes 4 f.toNat).length x → (m₁ x).isSome := by
      intro x hx
      rw [hm.mapped]
      exact hmap x (h4 ▸ hx)
    obtain ⟨m₂, hw, hh, hfr, hmp⟩ := Ram.writeBytes_spec (by rw [h4]; decide) hmap₁
    have hframe : Frame [thunk_list] m₁ m₂ :=
      ⟨fun x hx => hfr x (h4.symm ▸ hx thunk_list List.mem_cons_self), hmp⟩
    obtain ⟨m', hfill, hm', hws⟩ := ih hF (hm.trans hframe) hd.2 hrs fuel (by omega)
    refine ⟨m', ?_, ?_, ?_⟩
    · rw [fillThunks, hm.word hvc, hv]
      simp only [Option.bind_eq_bind, Option.bind_some, if_neg ht.1, hstring, hm.thunkProc ht htc, hf, hw]
      exact hfill
    · rw [List.length_cons, wordsFrom]
      refine ⟨fun x hx => ?_, fun x => (hm'.mapped x).trans (hmp x)⟩
      rw [List.forall_mem_cons] at hx
      rw [hm'.same x hx.2, hfr x (h4.symm ▸ hx.1)]
    · rw [List.length_cons, wordsFrom, List.map_cons, hws, hm'.word fun x hx b hb => hd.1 b hb x hx,
        word_of_holds hh]
      rfl

/-! ## The table -/

theorem Clear.mono {all : List (BitVec 32)} (h : Clear all p) (hs : ∀ b ∈ done, b ∈ all) : Clear done p :=
  fun x hx b hb => h x hx b (hs b hb)

theorem Clear.imp {q : BitVec 32 → Prop} (h : Clear done p) (hq : ∀ x, q x → p x) : Clear done q :=
  fun x hx => h x (hq x hx)

/-- A list can be filled where nothing that is put into the table lies on what is read of it. -/
theorem ThunksAt.fillable {all : List (BitVec 32)} (h : ThunksAt m load_addr import_list ts)
    (hdone : ∀ b ∈ done, b ∈ all) (hslots : ∀ b ∈ wordsFrom thunk_list ts.length, b ∈ all)
    (hnames : ∀ t ∈ ts, Clear all (t.Has load_addr))
    (hlib : Clear all (Within name (library.chars.length + 1)))
    (hlist : import_list = thunk_list ∨ ∀ b ∈ wordsFrom import_list ts.length, Clear all (Within b 4))
    (hend : Clear all (Within (import_list + BitVec.ofNat 32 (4 * ts.length)) 4))
    (hmap : ∀ b ∈ wordsFrom thunk_list ts.length, ∀ x, Within b 4 x → (m x).isSome)
    (hd : (wordsFrom thunk_list ts.length).Pairwise Apart)
    (hds : ∀ b ∈ wordsFrom thunk_list ts.length, Clear done (Within b 4)) :
    Fillable m load_addr name library done import_list thunk_list ts := by
  induction ts generalizing done import_list thunk_list with
  | nil =>
    refine ⟨h, (hend.mono hdone).imp fun x hx => ?_⟩
    rwa [List.length_nil, Nat.mul_zero, BitVec.add_zero]
  | cons t ts ih =>
    rw [List.length_cons, wordsFrom, List.forall_mem_cons] at hslots hmap hds
    rw [List.length_cons, wordsFrom, List.pairwise_cons] at hd
    rw [List.forall_mem_cons] at hnames
    refine ⟨h.1, ?_, h.2.1, hnames.1.mono hdone, hlib.mono hdone, hmap.1, ih h.2.2 ?_ hslots.2 hnames.2 ?_ ?_
      hmap.2 hd.2 ?_⟩
    · rcases hlist with rfl | hlist
      · exact hds.1
      · exact (hlist _ List.mem_cons_self).mono hdone
    · exact List.forall_mem_cons.mpr ⟨hslots.1, hdone⟩
    · rcases hlist with rfl | hlist
      · exact .inl rfl
      · exact .inr fun b hb => hlist b (List.mem_cons_of_mem _ hb)
    · refine hend.imp fun x hx => ?_
      rw [List.length_cons, show 4 * (ts.length + 1) = 4 + 4 * ts.length by omega, BitVec.ofNat_add, ← BitVec.add_assoc]
      exact hx
    · exact fun b hb => clear_cons.mpr ⟨fun x hx => (hd.1 b hb).symm x hx, hds.2 b hb⟩

variable {ds : List ImportDescriptor} {d : ImportDescriptor} {detection : Bool} {all : List (BitVec 32)} {i : Nat}

theorem resolvedBy_cons : resolvedBy detection (d :: ds) =
    if detection = true ∧ d.characteristics = 0 then [] else d :: resolvedBy detection ds := by
  rw [resolvedBy, List.takeWhile_cons]
  by_cases hc : detection = true ∧ d.characteristics = 0
  · rw [if_pos hc, hc.1, decide_eq_true hc.2]
    rfl
  · have hb : (!(detection && decide (d.characteristics = 0))) = true := by
      rw [Bool.not_eq_true', Bool.and_eq_false_iff, decide_eq_false_iff_not, ← Bool.not_eq_true]
      exact Decidable.not_and_iff_not_or_not.mp hc
    rw [if_neg hc, if_pos hb]
    rfl

theorem ImportDescriptor.At.countImports (h : d.At m load_addr a) (i fuel : Nat) (detection : Bool) :
    countImports m (fuel + 1) a i detection =
      let detection := if i = 0 ∧ d.characteristics = 0 then false else detection
      if detection ∧ d.characteristics = 0 then some (i, detection)
      else Loader.countImports m fuel (a + 20) (i + 1) detection := by
  rw [Loader.countImports, h.name, Option.bind_eq_bind, Option.bind_some, if_neg h.name_ne.1, h.characteristics]
  rfl

theorem countImports_pos (h : TableAt m load_addr a ds) (hi : i ≠ 0) (hfuel : ds.length < fuel) :
    countImports m fuel a i detection = some (i + (resolvedBy detection ds).length, detection) := by
  obtain ⟨fuel, rfl⟩ := Nat.exists_eq_succ_of_ne_zero (Nat.ne_of_gt (Nat.lt_of_le_of_lt (Nat.zero_le _) hfuel))
  induction ds generalizing a i fuel with
  | nil =>
    rw [countImports, show word m (a + 12) = some 0 from h]
    rfl
  | cons d ds ih =>
    rw [List.length_cons] at hfuel
    obtain ⟨fuel, rfl⟩ := Nat.exists_eq_succ_of_ne_zero (n := fuel) (by omega)
    rw [h.1.countImports, if_neg fun h : i = 0 ∧ _ => hi h.1, resolvedBy_cons]
    dsimp only
    split
    · rfl
    · rw [List.length_cons, ih h.2 (Nat.succ_ne_zero i) fuel (by omega), Nat.succ_add, Nat.add_succ]

theorem countImports_eq (h : TableAt m load_addr a ds) (hfuel : ds.length < fuel) :
    countImports m fuel a 0 true = some ((resolved ds).length, detects ds) := by
  obtain ⟨fuel, rfl⟩ := Nat.exists_eq_succ_of_ne_zero (Nat.ne_of_gt (Nat.lt_of_le_of_lt (Nat.zero_le _) hfuel))
  cases ds with
  | nil =>
    rw [countImports, show word m (a + 12) = some 0 from h]
    rfl
  | cons d ds =>
    have hdet : (if 0 = 0 ∧ d.characteristics = 0 then false else true) = detects (d :: ds) := by
      by_cases hc : d.characteristics = 0
      · rw [if_pos ⟨rfl, hc⟩]
        exact (decide_eq_false (not_not_intro hc)).symm
      · rw [if_neg fun h => hc h.2]
        exact (decide_eq_true hc).symm
    have hnot : ¬ (detects (d :: ds) = true ∧ d.characteristics = 0) :=
      fun h => of_decide_eq_true h.1 h.2
    rw [List.length_cons] at hfuel
    rw [h.1.countImports, hdet, resolved, resolvedBy_cons, if_neg hnot, if_neg hnot,
      countImports_pos h.2 (Nat.succ_ne_zero 0) (by omega), List.length_cons, Nat.add_comm]

/-- The words of one descriptor of a table. -/
theorem ImportDescriptor.At.fillable (h : d.At m load_addr a) (hdone : ∀ b ∈ done, b ∈ all)
    (hslots : ∀ b ∈ d.slots load_addr, b ∈ all) (hreads : Clear all (d.Reads load_addr))
    (hd : (d.slots load_addr).Pairwise Apart) (hds : ∀ b ∈ d.slots load_addr, Clear done (Within b 4)) :
    Fillable m load_addr (load_addr + d.name) d.library done (load_addr + d.list) (load_addr + d.firstThunk)
      d.thunks := by
  refine h.thunks.fillable hdone hslots (fun t ht => hreads.imp fun x hx => .inr (.inl ⟨t, ht, hx⟩))
    (hreads.imp fun x hx => .inl hx) ?_ (hreads.imp fun x hx => .inr (.inr (.inr hx))) h.slots hd hds
  by_cases hc : d.characteristics = 0
  · exact .inl (congrArg _ (if_neg (not_not_intro hc)))
  · exact .inr fun b hb => hreads.imp fun x hx => .inr (.inr (.inl ⟨hc, b, hb, hx⟩))

/-- The functions of a table are put in, and nothing else changes. -/
theorem fillImports_spec (all : List (BitVec 32)) (h : TableAt m load_addr a ds) (hm : Frame done m m₁)
    (hdone : ∀ b ∈ done, b ∈ all)
    (hslots : ∀ b ∈ (resolvedBy detection ds).flatMap (ImportDescriptor.slots load_addr), b ∈ all)
    (hreads : Clear all (TableReads load_addr a ds))
    (hd : ((resolvedBy detection ds).flatMap (ImportDescriptor.slots load_addr)).Pairwise Apart)
    (hds : ∀ b ∈ (resolvedBy detection ds).flatMap (ImportDescriptor.slots load_addr), Clear done (Within b 4))
    (hr : outputs lookup st ((resolvedBy detection ds).flatMap ImportDescriptor.requests) = some (rs, st'))
    (hfuel : ds.length + (ds.map fun d => d.thunks.length).sum < fuel) :
    ∃ m', fillImports lookup load_addr detection fuel a m₁ st = some (m', st') ∧
      Frame ((resolvedBy detection ds).flatMap (ImportDescriptor.slots load_addr)) m₁ m' ∧
      ((resolvedBy detection ds).flatMap (ImportDescriptor.slots load_addr)).map (word m') = rs.map some := by
  obtain ⟨fuel, rfl⟩ := Nat.exists_eq_succ_of_ne_zero (Nat.ne_of_gt (Nat.lt_of_le_of_lt (Nat.zero_le _) hfuel))
  induction ds generalizing done a m₁ st rs fuel with
  | nil =>
    cases hr
    refine ⟨m₁, ?_, Frame.refl, rfl⟩
    rw [fillImports, hm.word (hreads.mono hdone), show word m (a + 12) = some 0 from h]
    rfl
  | cons d ds ih =>
    obtain ⟨hd₀, hT⟩ := h
    have hread := hreads.mono hdone
    have hname : word m₁ (a + 12) = some d.name := (hm.word (hread.imp fun x hx =>
      .inl (Within.mono (by decide) (Within.of_add (n := 12) hx)))).trans hd₀.name
    have hchar : word m₁ a = some d.characteristics := (hm.word (hread.imp fun x hx =>
      .inl (Within.mono (by decide) hx))).trans hd₀.characteristics
    have hfirst : word m₁ (a + 16) = some d.firstThunk := (hm.word (hread.imp fun x hx =>
      .inl (Within.mono (by decide) (Within.of_add (n := 16) hx)))).trans hd₀.firstThunk
    rw [resolvedBy_cons] at hslots hd hds hr ⊢
    by_cases hc : detection = true ∧ d.characteristics = 0
    · rw [if_pos hc] at hr ⊢
      cases hr
      refine ⟨m₁, ?_, Frame.refl, rfl⟩
      rw [fillImports, hname, Option.bind_eq_bind, Option.bind_some, if_neg hd₀.name_ne.1, hchar]
      exact if_pos hc
    · rw [if_neg hc] at hslots hd hds hr ⊢
      rw [List.flatMap_cons] at hslots hd hds hr ⊢
      rw [List.pairwise_append] at hd
      rw [List.forall_mem_append] at hslots hds
      obtain ⟨rs₁, st₁, rs₂, hr₁, hr₂, rfl⟩ := Simulate.outputs_append_eq_some hr
      rw [List.map_cons, List.sum_cons, List.length_cons] at hfuel
      obtain ⟨fuel, rfl⟩ := Nat.exists_eq_succ_of_ne_zero (n := fuel) (by omega)
      have hF := hd₀.fillable hdone hslots.1 (hreads.imp fun x hx => .inr (.inl hx)) hd.1 hds.1
      obtain ⟨m₂, hfill, hfr, hws⟩ := fillThunks_spec hF hd₀.name_ne.2 hd₀.library hd₀.short hm hd.1 hr₁
        (show d.thunks.length < fuel + 1 by omega)
      obtain ⟨m', hrest, hfr', hws'⟩ := ih hT (hm.trans hfr) (List.forall_mem_append.mpr ⟨hslots.1, hdone⟩) hslots.2
        (hreads.imp fun x hx => .inr (.inr hx)) hd.2.1 (fun b hb x hx c hc => by
          rcases List.mem_append.mp hc with hc | hc
          · exact fun hxc => hd.2.2 c hc b hb x hxc hx
          · exact hds.2 b hb x hx c hc) hr₂ fuel (by omega)
      refine ⟨m', ?_, ?_, ?_⟩
      · rw [fillImports, hname, Option.bind_eq_bind, Option.bind_some, if_neg hd₀.name_ne.1, hchar]
        simp only [Option.bind_eq_bind, Option.bind_some, if_neg hc, hfirst]
        rw [show (if d.characteristics ≠ 0 then d.characteristics else d.firstThunk) = d.list from rfl, hfill]
        exact hrest
      · refine ⟨fun x hx => ?_, fun x => (hfr'.mapped x).trans (hfr.mapped x)⟩
        rw [List.forall_mem_append] at hx
        rw [hfr'.same x hx.2]
        exact hfr.same x hx.1
      · rw [List.map_append, List.map_append, hws', ← hws]
        congr 1
        refine List.map_congr_left fun b hb => hfr'.word fun x hx c hc => ?_
        exact hd.2.2 b hb c hc x hx

/-- The words into which functions are put. -/
def importSlots (load_addr : BitVec 32) (ds : List ImportDescriptor) : List (BitVec 32) :=
  (resolved ds).flatMap (ImportDescriptor.slots load_addr)

/-- What is looked up, in order. -/
def importRequests (ds : List ImportDescriptor) : List Request := (resolved ds).flatMap ImportDescriptor.requests

/-- Where a table lies in memory and no word of its thunk lists lies on another, or on what is read of the table,
`fixup_imports` puts into these words what their imports are resolved to, in order, and changes nothing else. -/
theorem fixupImports_links {pe_import : BitVec 32} (hne : pe_import ≠ 0) (h : TableAt m load_addr pe_import ds)
    (hreads : ∀ b ∈ importSlots load_addr ds, ∀ x, Within b 4 x → ¬ TableReads load_addr pe_import ds x)
    (hd : (importSlots load_addr ds).Pairwise Apart)
    (hr : outputs lookup st (importRequests ds) = some (rs, st'))
    (hfuel : ds.length + (ds.map fun d => d.thunks.length).sum < fuel) :
    ∃ m', fixupImports lookup load_addr fuel pe_import m st = some ((resolved ds).length, m', st') ∧
      (importSlots load_addr ds).map (word m') = rs.map some ∧
      ∀ x, (∀ b ∈ importSlots load_addr ds, ¬ Within b 4 x) → m' x = m x := by
  obtain ⟨m', hfill, hfr, hws⟩ := fillImports_spec (importSlots load_addr ds) h Frame.refl
    (fun b hb => absurd hb List.not_mem_nil) (fun b hb => hb) (fun x hx b hb hxb => hreads b hb x hxb hx) hd
    (fun b hb => clear_nil) hr hfuel
  have hcount : ds.length < fuel := Nat.lt_of_le_of_lt (Nat.le_add_right _ _) hfuel
  by_cases h0 : (resolved ds).length = 0
  · have hnil := List.eq_nil_of_length_eq_zero h0
    unfold importSlots importRequests at *
    rw [hnil] at hr ⊢
    cases hr
    refine ⟨m, ?_, rfl, fun _ _ => rfl⟩
    rw [fixupImports, if_neg hne, countImports_eq h hcount]
    exact if_pos h0
  · refine ⟨m', ?_, hws, hfr.same⟩
    rw [fixupImports, if_neg hne, countImports_eq h hcount]
    simp only [Option.bind_eq_bind, Option.bind_some, if_neg h0, hfill]

end

/-- Two imports of a library, by its ordinal and by its name. -/
def ownList : ImportDescriptor :=
  ⟨0x200, 0x300, 0x400, CString.ofBytes (ascii "a.dll"),
    [⟨0x80000005, .ordinal 5⟩, ⟨0x310, .name (CString.ofBytes (ascii "Go"))⟩]⟩

/-- An import in the thunk list itself. -/
def sharedList : ImportDescriptor :=
  ⟨0, 0x300, 0x500, CString.ofBytes (ascii "a.dll"), [⟨0x310, .name (CString.ofBytes (ascii "Go"))⟩]⟩

/-- An image at 0x10000000 with both, the table at 0x100. -/
def importImage : Ram 32 := fun x =>
  let o := (x - 0x10000000).toNat
  if o < 0x600 then some (([(0x101, 2), (0x10d, 3), (0x111, 4), (0x121, 3), (0x125, 5), (0x200, 5), (0x203, 0x80),
    (0x204, 0x10), (0x205, 3), (0x300, 97), (0x301, 46), (0x302, 100), (0x303, 108), (0x304, 108), (0x312, 71),
    (0x313, 111), (0x500, 0x10), (0x501, 3)].lookup o).getD 0) else none

/-- How far a byte of the image lies from its start. -/
theorem offset_of_within {b x : BitVec 32} {n : Nat} (hx : Within b n x) (hb : (b - 0x10000000).toNat + n ≤ 2 ^ 32) :
    (b - 0x10000000).toNat ≤ (x - 0x10000000).toNat ∧ (x - 0x10000000).toNat < (b - 0x10000000).toNat + n := by
  unfold Within at hx
  rw [show x - 0x10000000 = x - b + (b - 0x10000000) by grind, BitVec.toNat_add]
  omega

theorem importImage_at : TableAt importImage 0x10000000 0x10000100 [ownList, sharedList] := by
  have hmap : ∀ b : BitVec 32, (b - 0x10000000).toNat + 4 ≤ 0x600 → ∀ x, Within b 4 x →
      (importImage x).isSome := by
    intro b hb x hx
    have hlt := (offset_of_within hx (by omega)).2
    unfold importImage
    rw [if_pos (by omega)]
    rfl
  refine ⟨⟨rfl, rfl, rfl, by decide, rfl, by decide, ?_, ?_⟩, ⟨rfl, rfl, rfl, by decide, rfl, by decide, ?_, ?_⟩, rfl⟩
  · exact ⟨rfl, ⟨by decide, by decide, rfl⟩, rfl, ⟨by decide, rfl, by decide, by decide, rfl⟩, rfl⟩
  · exact List.forall_mem_cons.mpr ⟨hmap _ (by decide), List.forall_mem_cons.mpr ⟨hmap _ (by decide),
      List.forall_mem_nil _⟩⟩
  · exact ⟨rfl, ⟨by decide, rfl, by decide, by decide, rfl⟩, rfl⟩
  · exact List.forall_mem_cons.mpr ⟨hmap _ (by decide), List.forall_mem_nil _⟩

theorem fixupImports_links_mixed : ∃ m', fixupImports
    (fun names r => lookupExternalByName oneFunction oneFunction.stubOf names r.1 r.2 0) 0x10000000 6 0x10000100
      importImage [] = some (1, m', [CString.ofBytes (ascii "a.dll:5"), CString.ofBytes (ascii "Go")]) ∧
    [0x10000400, 0x10000404].map (word m') = [some 0x30000000, some 0x30000060] := by
  have hslots : importSlots 0x10000000 [ownList, sharedList] = [0x10000400, 0x10000404] := rfl
  have hread : ∀ x, TableReads 0x10000000 0x10000100 [ownList, sharedList] x →
      (x - 0x10000000).toNat < 0x400 ∨ 0x500 ≤ (x - 0x10000000).toNat := by
    intro x hx
    have hlo : ∀ b n, (b - 0x10000000).toNat + n ≤ 0x400 → Within b n x →
        (x - 0x10000000).toNat < 0x400 ∨ 0x500 ≤ (x - 0x10000000).toNat := fun b n hb hx =>
      .inl (Nat.lt_of_lt_of_le (offset_of_within hx (by omega)).2 hb)
    rcases hx with hx | (hx | ⟨t, ht, hx⟩ | ⟨-, b, hb, hx⟩ | hx) | hx | (hx | ⟨t, ht, hx⟩ | ⟨h, -⟩ | hx) | hx
    · exact hlo _ _ (by decide) hx
    · exact hlo _ _ (by decide) hx
    · rcases List.mem_cons.mp ht with rfl | ht
      · exact hx.elim
      · obtain rfl := List.mem_singleton.mp ht
        exact hlo _ _ (by decide) hx
    · rcases List.mem_cons.mp hb with rfl | hb
      · exact hlo _ _ (by decide) hx
      · obtain rfl := List.mem_singleton.mp hb
        exact hlo _ _ (by decide) hx
    · exact hlo _ _ (by decide) hx
    · exact hlo _ _ (by decide) hx
    · exact hlo _ _ (by decide) hx
    · obtain rfl := List.mem_singleton.mp ht
      exact hlo _ _ (by decide) hx
    · exact absurd rfl h
    · exact .inr (Nat.le_trans (by decide) (offset_of_within hx (by decide)).1)
    · exact hlo _ _ (by decide) hx
  have hclear : ∀ b : BitVec 32, b = 0x10000400 ∨ b = 0x10000404 → ∀ x, Within b 4 x →
      ¬ TableReads 0x10000000 0x10000100 [ownList, sharedList] x := by
    rintro b (rfl | rfl) x hx hr
    all_goals
      obtain ⟨h₁, h₂⟩ := offset_of_within hx (by decide)
      have hlo : 0x400 ≤ (x - 0x10000000).toNat := Nat.le_trans (by decide) h₁
      have hhi : (x - 0x10000000).toNat < 0x500 := Nat.lt_of_lt_of_le h₂ (by decide)
      have := hread x hr
      omega
  have hr : outputs (fun names (r : Request) => lookupExternalByName oneFunction oneFunction.stubOf names r.1 r.2 0) []
      (importRequests [ownList, sharedList]) =
        some ([0x30000000, 0x30000060], [CString.ofBytes (ascii "a.dll:5"), CString.ofBytes (ascii "Go")]) := rfl
  obtain ⟨m', h, hs, -⟩ := fixupImports_links (by decide) importImage_at
    (by
      rw [hslots]
      exact List.forall_mem_cons.mpr ⟨hclear _ (.inl rfl), List.forall_mem_singleton.mpr (hclear _ (.inr rfl))⟩)
    (by
      rw [hslots, List.pairwise_pair]
      exact fun x => Ram.not_within (by decide) (by decide))
    hr (Nat.lt_succ_self 5)
  exact ⟨m', h, hs⟩

end DShow.Loader
