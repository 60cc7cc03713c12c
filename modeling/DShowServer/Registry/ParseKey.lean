import DShowServer.Registry.Model
import Mathlib.Data.List.DropRight

/-!
# The key on the command line (modify_reg.c)

`parse_key` splits `HKLM\path\key` into two buffers of 256 bytes. It looks for
the first and the last backslash and moves two pointers towards each other over
the separators. What it stores is kept as a list of writes (`parseKey`), each
with the length or the index that the pointers give it, so that a length may be
negative and an index may lie outside its buffer; `parses_iff` says when none does.
-/

namespace DShow.Registry

/-- `'\\'`. -/
def backslash : UInt8 := 0x5c

/-- The buffers of `main`. -/
inductive Buffer
  | path
  | key
deriving DecidableEq

/-- `char path[256], key[256]`. -/
def bufferSize : Nat := 256

/-- `strncpy(dst, src, n)`, or `dst[index] = 0`. -/
inductive Write
  | strncpy (dst : Buffer) (src : List UInt8) (n : Int)
  | terminate (dst : Buffer) (index : Int)
deriving DecidableEq

/-- The length is not negative, and every byte written lies in the buffer. -/
def Write.Inside : Write → Prop
  | .strncpy _ _ n => 0 ≤ n ∧ n ≤ bufferSize
  | .terminate _ index => 0 ≤ index ∧ index < bufferSize

instance : DecidablePred Write.Inside
  | .strncpy .. => instDecidableAnd
  | .terminate .. => instDecidableAnd

/-- What a write inside the buffer leaves there: `strncpy` stops at the end of
its source and fills up with zeros. -/
def Write.apply (w : Write) (b : Buffer) (content : List UInt8) : List UInt8 :=
  match w with
  | .strncpy dst src n =>
    if dst = b then
      src.take n.toNat ++ List.replicate (n.toNat - src.length) 0 ++ content.drop n.toNat
    else content
  | .terminate dst index => if dst = b then content.set index.toNat 0 else content

/-- The buffer after the writes. -/
def stored (writes : List Write) (b : Buffer) (content : List UInt8) : List UInt8 :=
  writes.foldl (fun content w => w.apply b content) content

/-- `strncpy(dst, src, n); dst[n] = 0`. -/
def copyPart (dst : Buffer) (src : List UInt8) (n : Int) : List Write :=
  [.strncpy dst src n, .terminate dst n]

/-- `strrchr(raw, '\\')`. -/
def lastBackslash : List UInt8 → Option Nat
  | [] => none
  | c :: cs =>
    match lastBackslash cs with
    | some i => some (i + 1)
    | none => if c = backslash then some 0 else none

/-- `strchr(raw, '\\')`. -/
def firstBackslash : List UInt8 → Option Nat
  | [] => none
  | c :: cs => if c = backslash then some 0 else (firstBackslash cs).map (· + 1)

/-- `while(*start == '\\') start++`: how far it gets. -/
def skipForward : List UInt8 → Nat
  | [] => 0
  | c :: cs => if c = backslash then skipForward cs + 1 else 0

/-- `while(*(tmpkey-1) == '\\') tmpkey--`. -/
def skipBack (raw : List UInt8) : Nat → Nat
  | 0 => 0
  | i + 1 => if raw[i]? = some backslash then skipBack raw i else i + 1

/-- The root whose name the string begins with. -/
def rootOf (raw : List UInt8) : Option (BitVec 32) :=
  if (ascii "HKEY_CURRENT_USER\\").isPrefixOf raw ∨ (ascii "HKCU\\").isPrefixOf raw then
    some hkeyCurrentUser
  else if (ascii "HKEY_LOCAL_MACHINE\\").isPrefixOf raw ∨ (ascii "HKLM\\").isPrefixOf raw then
    some hkeyLocalMachine
  else none

/-- `parse_key`: what it sets `root` to, if it does not complain instead, and
its writes. Both backslashes are there if one is, and not in front. -/
def parseKey (raw : CString) : Option (BitVec 32) × List Write :=
  match lastBackslash raw.chars, firstBackslash raw.chars with
  | some tmpkey, some start =>
    if tmpkey = 0 ∨ start = 0 then (none, [])
    else match rootOf raw.chars with
    | none => (none, [])
    | some root =>
      let keyLen : Int := (raw.chars.length - tmpkey : Nat) - 1
      let first := start + skipForward (raw.chars.drop start)
      let last := skipBack raw.chars tmpkey
      (some root, copyPart .key (raw.chars.drop (tmpkey + 1)) keyLen ++
        copyPart .path (raw.chars.drop first) (last - first))
  | _, _ => (none, [])

/-! ## What it is to store -/

/-- What stands in front of the first backslash. -/
def rootName (raw : CString) : List UInt8 := raw.chars.takeWhile (· ≠ backslash)

/-- What stands behind the last backslash. -/
def keyPart (raw : CString) : List UInt8 := raw.chars.rtakeWhile (· ≠ backslash)

/-- What stands between these, without the backslashes that separate it. -/
def pathPart (raw : CString) : List UInt8 :=
  (((raw.chars.drop (rootName raw).length).rdrop (keyPart raw).length).dropWhile
    (· = backslash)).rdropWhile (· = backslash)

/-- A string of fewer bytes than the buffer has, with its NUL. -/
def HoldsString (content s : List UInt8) : Prop :=
  content.length = bufferSize ∧ s ++ [0] <+: content

/-- Every write is inside, and then the buffers hold the two parts. -/
def Parses (raw : CString) : Prop :=
  (∀ w ∈ (parseKey raw).2, w.Inside) ∧
    ∀ path key : List UInt8, path.length = bufferSize → key.length = bufferSize →
      HoldsString (stored (parseKey raw).2 .path path) (pathPart raw) ∧
      HoldsString (stored (parseKey raw).2 .key key) (keyPart raw)

/-- There is something between the root and the key, and it and the key fit. -/
def WellSized (raw : CString) : Prop :=
  pathPart raw ≠ [] ∧ (pathPart raw).length < bufferSize ∧ (keyPart raw).length < bufferSize

/-! ## Taking the string apart -/

/-- The string in its parts: where there is no path, the two runs of backslashes
are one. -/
structure Split (raw name path key : List UInt8) (a b : Nat) : Prop where
  eq : raw = name ++ (List.replicate (a + 1) backslash ++ (path ++ (List.replicate b backslash ++ key)))
  name : backslash ∉ name
  key : backslash ∉ key
  path_head : path.head? ≠ some backslash
  path_last : path.getLast? ≠ some backslash
  path_nil : path = [] ↔ b = 0

/-- A list that is all `x` in front: the run and a rest that begins otherwise. -/
theorem exists_run {α : Type*} [DecidableEq α] (x : α) (l : List α) :
    ∃ n rest, l = List.replicate n x ++ rest ∧ rest.head? ≠ some x := by
  induction l with
  | nil => exact ⟨0, [], rfl, by simp⟩
  | cons y l ih =>
    by_cases hy : y = x
    · obtain ⟨n, rest, rfl, hrest⟩ := ih
      exact ⟨n + 1, rest, by rw [hy, List.replicate_succ]; rfl, hrest⟩
    · exact ⟨0, y :: l, rfl, by simpa using hy⟩

theorem exists_run_back {α : Type*} [DecidableEq α] (x : α) (l : List α) :
    ∃ n front, l = front ++ List.replicate n x ∧ front.getLast? ≠ some x := by
  obtain ⟨n, rest, h, hrest⟩ := exists_run x l.reverse
  refine ⟨n, rest.reverse, ?_, by rwa [List.getLast?_reverse]⟩
  rw [← List.reverse_reverse l, h, List.reverse_append, List.reverse_replicate]

theorem exists_split {raw : List UInt8} (h : backslash ∈ raw) :
    ∃ name path key a b, Split raw name path key a b := by
  obtain ⟨name, tail, rfl, hname⟩ := List.eq_append_cons_of_mem h
  obtain ⟨key, front, hkey, hfree⟩ := List.eq_append_cons_of_mem
    (List.mem_reverse.mpr (List.mem_cons_self (a := backslash) (l := tail)))
  have htail : backslash :: tail = front.reverse ++ [backslash] ++ key.reverse := by
    rw [← List.reverse_reverse (backslash :: tail), hkey]
    simp
  -- the separators, the path and the separators before the key
  obtain ⟨n, rest, hrun, hrest⟩ := exists_run backslash (front.reverse ++ [backslash])
  obtain ⟨b, path, rfl, hlast⟩ := exists_run_back backslash rest
  have hn : n ≠ 0 := by
    rintro rfl
    rw [hrun] at htail
    have hhead := congrArg List.head? (hrun.trans (List.nil_append _))
    rw [← hhead] at hrest
    cases hf : front.reverse with
    | nil => rw [hf] at hrest; exact hrest rfl
    | cons c cs =>
      rw [← hrun, hf] at htail
      rw [hf] at hrest
      exact hrest (congrArg some (List.cons.inj htail).1.symm)
  obtain ⟨a, rfl⟩ := Nat.exists_eq_succ_of_ne_zero hn
  refine ⟨name, path, key.reverse, a, b, ?_, hname, fun hm => hfree (List.mem_reverse.mp hm), ?_, hlast, ?_⟩
  · rw [htail, hrun]
    simp only [List.append_assoc]
  · cases path with
    | nil => simp
    | cons c cs => exact hrest
  · constructor
    · rintro rfl
      cases b with
      | zero => rfl
      | succ b => exact absurd rfl hrest
    · rintro rfl
      by_contra hpath
      have := congrArg List.getLast? hrun
      rw [List.getLast?_concat, List.replicate_zero, List.append_nil,
        List.getLast?_append_of_ne_nil _ hpath] at this
      exact hlast this.symm

theorem lastBackslash_of_not_mem {l : List UInt8} (h : backslash ∉ l) : lastBackslash l = none := by
  induction l with
  | nil => rfl
  | cons c cs ih =>
    rw [List.mem_cons, not_or] at h
    rw [lastBackslash, ih h.2, if_neg (Ne.symm h.1)]

theorem lastBackslash_append {front key : List UInt8} (h : backslash ∉ key) :
    lastBackslash (front ++ backslash :: key) = some front.length := by
  induction front with
  | nil => rw [List.nil_append, lastBackslash, lastBackslash_of_not_mem h, if_pos rfl, List.length_nil]
  | cons c cs ih => rw [List.cons_append, lastBackslash, ih, List.length_cons]

theorem firstBackslash_append {name rest : List UInt8} (h : backslash ∉ name) :
    firstBackslash (name ++ backslash :: rest) = some name.length := by
  induction name with
  | nil => rw [List.nil_append, firstBackslash, if_pos rfl, List.length_nil]
  | cons c cs ih =>
    rw [List.mem_cons, not_or] at h
    rw [List.cons_append, firstBackslash, if_neg (Ne.symm h.1), ih h.2, Option.map_some, List.length_cons]

theorem skipForward_replicate (n : Nat) {rest : List UInt8} (h : rest.head? ≠ some backslash) :
    skipForward (List.replicate n backslash ++ rest) = n := by
  induction n with
  | zero =>
    cases rest with
    | nil => rfl
    | cons c cs => rw [List.replicate_zero, List.nil_append, skipForward, if_neg (by simpa using h)]
  | succ n ih => rw [List.replicate_succ, List.cons_append, skipForward, if_pos rfl, ih]

/-- It stops behind the character that is no backslash. -/
theorem skipBack_replicate {front rest : List UInt8} (n : Nat) (h : front.getLast? ≠ some backslash) :
    skipBack (front ++ (List.replicate n backslash ++ rest)) (front.length + n) = front.length := by
  induction n generalizing rest with
  | zero =>
    rw [List.replicate_zero, List.nil_append, Nat.add_zero]
    cases hl : front.length with
    | zero => rfl
    | succ i =>
      rw [skipBack, if_neg]
      rwa [List.getElem?_append_left (by omega), show i = front.length - 1 by omega,
        ← List.getLast?_eq_getElem?]
  | succ n ih =>
    have hi : (front ++ (List.replicate (n + 1) backslash ++ rest))[front.length + n]? =
        some backslash := by
      rw [List.getElem?_append_right (Nat.le_add_right _ _), Nat.add_sub_cancel_left,
        List.getElem?_append_left (by simp), List.getElem?_replicate, if_pos (Nat.lt_succ_self n)]
    rw [← Nat.add_assoc, skipBack, if_pos hi, List.replicate_succ', List.append_assoc]
    exact ih

section Split

variable {raw : CString} {name path key : List UInt8} {a b : Nat}

/-- Where the last backslash stands. -/
theorem Split.eq_last (h : Split raw.chars name path key a b) :
    ∃ front, raw.chars = front ++ backslash :: key ∧
      front.length = name.length + a + path.length + b := by
  cases b with
  | zero =>
    obtain rfl := h.path_nil.mpr rfl
    refine ⟨name ++ List.replicate a backslash, ?_, by simp⟩
    rw [h.eq, List.replicate_succ']
    simp
  | succ b =>
    refine ⟨name ++ (List.replicate (a + 1) backslash ++ (path ++ List.replicate b backslash)), ?_,
      by simp; omega⟩
    rw [h.eq, List.replicate_succ' (n := b)]
    simp

theorem Split.rootName_eq (h : Split raw.chars name path key a b) : rootName raw = name := by
  have hname : ∀ c ∈ name, decide (c ≠ backslash) = true :=
    fun c hc => decide_eq_true (ne_of_mem_of_not_mem hc h.name)
  rw [rootName, h.eq, List.takeWhile_append_of_pos hname, List.replicate_succ, List.cons_append,
    List.takeWhile_cons_of_neg (by simp), List.append_nil]

theorem Split.keyPart_eq (h : Split raw.chars name path key a b) : keyPart raw = key := by
  obtain ⟨front, hraw, -⟩ := h.eq_last
  have hkey : ∀ c ∈ key.reverse, decide (c ≠ backslash) = true :=
    fun c hc => decide_eq_true (ne_of_mem_of_not_mem (List.mem_reverse.mp hc) h.key)
  rw [keyPart, hraw, List.rtakeWhile, List.reverse_append, List.reverse_cons, List.append_assoc,
    List.takeWhile_append_of_pos hkey, List.singleton_append, List.takeWhile_cons_of_neg (by simp),
    List.append_nil, List.reverse_reverse]

theorem dropWhile_replicate (n : Nat) {rest : List UInt8} (h : rest.head? ≠ some backslash) :
    (List.replicate n backslash ++ rest).dropWhile (· = backslash) = rest := by
  rw [List.dropWhile_append_of_pos fun c hc => decide_eq_true (List.eq_of_mem_replicate hc)]
  cases rest with
  | nil => rfl
  | cons c cs => rw [List.dropWhile_cons_of_neg (by simpa using h)]

theorem Split.pathPart_eq (h : Split raw.chars name path key a b) : pathPart raw = path := by
  have hb : (path ++ List.replicate b backslash).head? ≠ some backslash := by
    cases path with
    | nil => obtain rfl := h.path_nil.mp rfl; simp
    | cons c cs => exact h.path_head
  have hlast : path.reverse.head? ≠ some backslash := by rw [List.head?_reverse]; exact h.path_last
  rw [pathPart, h.rootName_eq, h.keyPart_eq, h.eq, List.drop_left', ← List.append_assoc path,
    ← List.append_assoc, List.rdrop_append_length, dropWhile_replicate _ hb, List.rdropWhile,
    List.reverse_append, List.reverse_replicate, dropWhile_replicate _ hlast, List.reverse_reverse]
  rfl

/-- How far apart the two pointers end up: the path, or less than nothing. -/
def pathLength (path : List UInt8) (a : Nat) : Int := if path = [] then -(a + 1) else path.length

theorem Split.skipBack_eq (h : Split raw.chars name path key a b) :
    (skipBack raw.chars (name.length + a + path.length + b) : Int) - (name.length + (a + 1) : Nat) =
      pathLength path a := by
  cases b with
  | zero =>
    obtain rfl := h.path_nil.mpr rfl
    have hlast : name.getLast? ≠ some backslash := fun hl => h.name (List.mem_of_getLast? hl)
    have hraw : raw.chars = name ++ (List.replicate a backslash ++ (backslash :: key)) := by
      rw [h.eq, List.replicate_succ']
      simp
    rw [hraw, List.length_nil, Nat.add_zero, Nat.add_zero, skipBack_replicate a hlast, pathLength,
      if_pos rfl]
    omega
  | succ b =>
    have hpath : path ≠ [] := fun hp => by cases h.path_nil.mp hp
    have hlast : (name ++ (List.replicate (a + 1) backslash ++ path)).getLast? ≠ some backslash := by
      rw [← List.append_assoc, List.getLast?_append_of_ne_nil _ hpath]
      exact h.path_last
    have hraw : raw.chars = name ++ (List.replicate (a + 1) backslash ++ path) ++
        (List.replicate b backslash ++ (backslash :: key)) := by
      rw [h.eq, List.replicate_succ' (n := b)]
      simp
    have hlen : (name ++ (List.replicate (a + 1) backslash ++ path)).length =
        name.length + a + path.length + 1 := by
      simp only [List.length_append, List.length_replicate]; omega
    rw [hraw, show name.length + a + path.length + (b + 1) =
      (name ++ (List.replicate (a + 1) backslash ++ path)).length + b by omega,
      skipBack_replicate b hlast, hlen, pathLength, if_neg hpath]
    omega

/-- The writes, once the root is set. -/
theorem Split.writes_eq (h : Split raw.chars name path key a b) (hr : (parseKey raw).1.isSome) :
    (parseKey raw).2 = copyPart .key key key.length ++
      copyPart .path (path ++ (List.replicate b backslash ++ key)) (pathLength path a) := by
  obtain ⟨front, hraw, hlen⟩ := h.eq_last
  have hlast : lastBackslash raw.chars = some (name.length + a + path.length + b) := by
    rw [hraw, lastBackslash_append h.key, hlen]
  have hfirst : firstBackslash raw.chars = some name.length := by
    rw [h.eq, List.replicate_succ, List.cons_append, firstBackslash_append h.name]
  have hdrop : raw.chars.drop name.length =
      List.replicate (a + 1) backslash ++ (path ++ (List.replicate b backslash ++ key)) := by
    rw [h.eq, List.drop_left']
    rfl
  have hhead : (path ++ (List.replicate b backslash ++ key)).head? ≠ some backslash := by
    cases path with
    | cons c cs => exact h.path_head
    | nil =>
      obtain rfl := h.path_nil.mp rfl
      exact fun hk => h.key (List.mem_of_head? hk)
  have hkey : raw.chars.drop (name.length + a + path.length + b + 1) = key := by
    rw [hraw, ← hlen, ← List.drop_drop, List.drop_left']
    · rfl
    · rfl
  have hsize : (raw.chars.length - (name.length + a + path.length + b) : Nat) - 1 = (key.length : Int) := by
    rw [hraw, List.length_append, hlen, Nat.add_sub_cancel_left, List.length_cons, Int.natCast_succ,
      Int.add_sub_cancel]
  have hsrc : raw.chars.drop (name.length + (a + 1)) = path ++ (List.replicate b backslash ++ key) := by
    rw [← List.drop_drop, hdrop, List.drop_left' (by simp)]
  simp only [parseKey, hlast, hfirst] at hr ⊢
  split at hr <;> [cases hr; rename_i hpos]
  rw [if_neg hpos]
  split at hr <;> [cases hr; skip]
  simp only [hdrop, skipForward_replicate _ hhead, hkey, hsize, hsrc, h.skipBack_eq]

end Split

/-! ## Which strings are stored -/

theorem inside_copyPart (dst : Buffer) (src : List UInt8) (n : Int) :
    (∀ w ∈ copyPart dst src n, w.Inside) ↔ 0 ≤ n ∧ n < bufferSize := by
  simp only [copyPart, List.forall_mem_cons, Write.Inside]
  constructor
  · exact fun h => h.2.1
  · exact fun h => ⟨⟨h.1, by omega⟩, h, List.forall_mem_nil _⟩

theorem stored_append (ws vs : List Write) (b : Buffer) (content : List UInt8) :
    stored (ws ++ vs) b content = stored vs b (stored ws b content) :=
  List.foldl_append

theorem stored_of_ne {dst b : Buffer} (h : dst ≠ b) (src content : List UInt8) (n : Int) :
    stored (copyPart dst src n) b content = content := by
  simp only [copyPart, stored, List.foldl_cons, List.foldl_nil, Write.apply, if_neg h]

theorem holdsString_of_copyPart {s src content : List UInt8} {b : Buffer}
    (hc : content.length = bufferSize) (hs : s.length < bufferSize) (hsrc : s <+: src) :
    HoldsString (stored (copyPart b src s.length) b content) s := by
  obtain ⟨more, rfl⟩ := hsrc
  have hcopy : (Write.strncpy b (s ++ more) s.length).apply b content = s ++ content.drop s.length := by
    simp [Write.apply]
  obtain ⟨c, rest, hrest⟩ : ∃ c rest, content.drop s.length = c :: rest :=
    List.exists_cons_of_ne_nil fun hnil => by
      have := congrArg List.length hnil
      rw [List.length_drop, List.length_nil] at this
      omega
  have hlen : (content.drop s.length).length = rest.length + 1 := by rw [hrest, List.length_cons]
  rw [copyPart, stored, List.foldl_cons, List.foldl_cons, List.foldl_nil, hcopy, hrest, Write.apply,
    if_pos rfl, Int.toNat_natCast, List.set_append_right _ _ (Nat.le_refl _),
    Nat.sub_self, List.set_cons_zero]
  refine ⟨?_, rest, by rw [List.append_assoc]; rfl⟩
  rw [List.length_drop] at hlen
  rw [List.length_append, List.length_cons]
  omega

theorem pathLength_inside (path : List UInt8) (a : Nat) :
    0 ≤ pathLength path a ∧ pathLength path a < bufferSize ↔ path ≠ [] ∧ path.length < bufferSize := by
  unfold pathLength
  split
  · rename_i h
    exact iff_of_false (by omega) (fun hp => hp.1 h)
  · rename_i h
    simp only [ne_eq, h, not_false_eq_true, true_and]
    omega

theorem backslash_mem {raw : CString} (hr : (parseKey raw).1.isSome) : backslash ∈ raw.chars := by
  by_contra hm
  rw [parseKey, lastBackslash_of_not_mem hm] at hr
  cases hr

/-- **Parsing a key.** For every string whose root is found: every length and
index is inside the buffers and these then hold the path and the key, exactly if
there is a path and both fit with their NUL. -/
theorem parses_iff {raw : CString} (hr : (parseKey raw).1.isSome) : Parses raw ↔ WellSized raw := by
  obtain ⟨name, path, key, a, b, h⟩ := exists_split (backslash_mem hr)
  rw [Parses, WellSized, h.writes_eq hr, h.pathPart_eq, h.keyPart_eq, and_assoc.symm,
    ← pathLength_inside path a]
  rw [List.forall_mem_append, inside_copyPart, inside_copyPart]
  constructor
  · rintro ⟨⟨hkey, hpath⟩, -⟩
    exact ⟨hpath, by omega⟩
  · rintro ⟨hpath, hkey⟩
    refine ⟨⟨by omega, hpath⟩, fun pathBuf keyBuf hpl hkl => ?_⟩
    have hlen := (pathLength_inside path a).mp hpath
    have hp : pathLength path a = path.length := if_neg hlen.1
    have hne : Buffer.key ≠ Buffer.path := by decide
    rw [stored_append, stored_append, stored_of_ne hne, stored_of_ne hne.symm, hp]
    exact ⟨holdsString_of_copyPart hpl hlen.2 (List.prefix_append _ _),
      holdsString_of_copyPart hkl hkey (List.prefix_refl _)⟩

/-- A key right below its root: `strncpy(path, start, -1)`. -/
theorem not_parses : (parseKey ⟨ascii "HKLM\\Serial", by decide⟩).1 = some hkeyLocalMachine ∧
    ¬ Parses ⟨ascii "HKLM\\Serial", by decide⟩ := by
  refine ⟨by decide, fun h => absurd (h.1 (.strncpy .path (ascii "Serial") (-1)) ?_) (by decide)⟩
  decide

/-- With a path it works, also with the separators doubled. -/
theorem parses_iff_path : (parseKey ⟨ascii "HKLM\\\\Software\\\\Serial", by decide⟩).1 = some hkeyLocalMachine ∧
    Parses ⟨ascii "HKLM\\\\Software\\\\Serial", by decide⟩ :=
  ⟨by decide, (parses_iff (by decide)).mpr ⟨by decide, by decide, by decide⟩⟩

end DShow.Registry
