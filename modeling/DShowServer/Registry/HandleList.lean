import DShowServer.Registry.Handles
import DShowServer.Registry.Map

/-!
# The handles that are open

Handles are opened with the next value of `generate_handle` and closed with any key, in
any order. A `Ledger` keeps which of them are open and which were closed. As long as
fewer than 2³¹ were opened, their values are new ones (`Ledger.Ok`), and the list in
memory is that of the handles open and of the two roots (`handles_track`).
-/

namespace DShow.Registry

open Process Run

/-! ## Calls -/

/-- A handle opened under a name, or a key closed. -/
inductive HandleCall
  | opened (name : CString)
  | close (key : BitVec 32)

/-- The list in memory, and the variable of `generate_handle`. -/
structure HandleTable where
  list : Handles
  zz : BitVec 32

namespace HandleTable

/-- The table with the two roots. -/
def start : Option HandleTable := do
  let list ← Handles.insertHandle .empty hkeyLocalMachine hklm
  let list ← list.insertHandle hkeyCurrentUser hkcu
  pure ⟨list, 249⟩

/-- `insert_handle` with the next handle, or `RegCloseKey`. -/
def call (s : HandleTable) : HandleCall → Option HandleTable
  | .opened name => do
    let zz := generateHandle s.zz
    let list ← s.list.insertHandle zz name
    pure ⟨list, zz⟩
  | .close key => do
    let (_, list) ← s.list.closeKey key
    pure { s with list }

end HandleTable

/-- The handles that were opened and not closed since, the newest first, and those that were
closed. -/
structure Ledger where
  zz : BitVec 32
  opened : List RegHandle
  closed : List RegHandle

namespace Ledger

def start : Ledger := ⟨249, [], []⟩

def call (g : Ledger) : HandleCall → Ledger
  | .opened name =>
    let zz := generateHandle g.zz
    ⟨zz, ⟨zz, name⟩ :: g.opened, g.closed⟩
  | .close key => { g with
      opened := g.opened.filter fun t => t.handle ≠ key
      closed := (g.opened.filter fun t => t.handle = key) ++ g.closed }

def calls (g : Ledger) (cs : List HandleCall) : Ledger := cs.foldl call g

end Ledger

/-- The handles of the roots, as `init_registry` inserts them. -/
def roots : List RegHandle := [⟨hkeyCurrentUser, hkcu⟩, ⟨hkeyLocalMachine, hklm⟩]

/-- The list in memory is that of the handles open and of the roots; each of them is found under
its name, no two are equal, and a handle that was closed is not found. -/
structure Tracks (s : HandleTable) (g : Ledger) : Prop where
  list : ∃ l, s.list.walk = some l ∧ l.map Prod.snd = g.opened ++ roots ∧ ∀ x ∈ l, s.list.LinkedBack x.1
  resolves : ∀ t ∈ g.opened ++ roots, ∃ a, s.list.findHandle t.handle = some a ∧ s.list.value a = some t
  closed : ∀ t ∈ g.closed, s.list.findHandle t.handle = some 0
  distinct : ((g.opened ++ roots).map RegHandle.handle).Nodup

/-! ## Handles are new -/

/-- How many handles a run of calls opens. -/
def opens (cs : List HandleCall) : Nat := cs.countP fun
  | .opened _ => true
  | .close _ => false

/-- After `n` handles were opened: all are distinct, none is a root, and none is above the last. -/
structure Ledger.Ok (g : Ledger) (n : Nat) : Prop where
  zz : g.zz.toNat ≤ 249 + n ∧ g.zz.toNat < 0x80000001 ∨ 0x80000003 ≤ g.zz.toNat ∧ g.zz.toNat ≤ 251 + n
  given : ∀ t ∈ g.opened ++ g.closed, t.handle.toNat ≤ g.zz.toNat ∧ t.handle ≠ hkeyCurrentUser ∧
    t.handle ≠ hkeyLocalMachine
  nodup : ((g.opened ++ g.closed).map RegHandle.handle).Nodup

theorem Ledger.Ok.start : Ledger.start.Ok 0 := ⟨.inl ⟨by decide, by decide⟩, by simp [Ledger.start], List.nodup_nil⟩

theorem Ledger.Ok.opened {g : Ledger} {n : Nat} (h : g.Ok n) (hn : n < 2 ^ 31) (name : CString) :
    (g.call (.opened name)).Ok (n + 1) := by
  have hzz := h.zz
  obtain ⟨hlt, hu, hm, hnext⟩ := generateHandle_cases (show g.zz.toNat < 2 ^ 32 - 3 by omega)
  refine ⟨?_, ?_, ?_⟩
  · show (generateHandle g.zz).toNat ≤ 249 + (n + 1) ∧ (generateHandle g.zz).toNat < 0x80000001 ∨
      0x80000003 ≤ (generateHandle g.zz).toNat ∧ (generateHandle g.zz).toNat ≤ 251 + (n + 1)
    omega
  · refine List.forall_mem_cons.mpr ⟨⟨Nat.le_refl _, hu, hm⟩, fun t ht => ?_⟩
    obtain ⟨hle, hroot⟩ := h.given t ht
    exact ⟨Nat.le_of_lt (Nat.lt_of_le_of_lt hle hlt), hroot⟩
  · refine List.nodup_cons.mpr ⟨fun hmem => ?_, h.nodup⟩
    obtain ⟨t, ht, e⟩ := List.mem_map.mp hmem
    have := (h.given t ht).1
    rw [e] at this
    exact absurd hlt (Nat.not_lt.mpr this)

/-- Closing a key moves a handle, and changes none. -/
theorem Ledger.Ok.close {g : Ledger} {n : Nat} (h : g.Ok n) (key : BitVec 32) : (g.call (.close key)).Ok n := by
  have hperm : ((g.opened.filter fun t => t.handle ≠ key) ++
      ((g.opened.filter fun t => t.handle = key) ++ g.closed)).Perm (g.opened ++ g.closed) := by
    rw [← List.append_assoc]
    refine List.Perm.append_right _ (List.perm_append_comm.trans ?_)
    simpa using List.filter_append_perm (fun t : RegHandle => decide (t.handle = key)) g.opened
  exact ⟨h.zz, fun t ht => h.given t (hperm.mem_iff.mp ht), (hperm.map _).nodup_iff.mpr h.nodup⟩

theorem Ledger.Ok.distinct {g : Ledger} {n : Nat} (h : g.Ok n) :
    ((g.opened ++ roots).map RegHandle.handle).Nodup := by
  rw [List.map_append, List.nodup_append]
  refine ⟨(List.nodup_append.mp (List.map_append ▸ h.nodup)).1, by decide, ?_⟩
  rintro _ ha _ hb rfl
  obtain ⟨t, ht, rfl⟩ := List.mem_map.mp ha
  obtain ⟨-, hu, hm⟩ := h.given t (List.mem_append_left _ ht)
  simp only [roots, List.map_cons, List.map_nil, List.mem_cons, List.not_mem_nil, or_false] at hb
  exact hb.elim hu hm

/-! ## The list in memory -/

/-- The handles open and the roots, as the list of a process. -/
def Ledger.process (g : Ledger) : Process := ⟨none, g.opened ++ roots, g.zz, none⟩

/-- The list in memory is that of the ledger. -/
structure Follows (s : HandleTable) (g : Ledger) (n : Nat) : Prop where
  ok : g.Ok n
  zz : s.zz = g.zz
  list : s.list.Represents g.process

theorem Follows.start : ∃ s, HandleTable.start = some s ∧ Follows s Ledger.start 0 := by
  obtain ⟨s₁, e₁, h₁⟩ := Handles.Represents.nil.insertHandle hkeyLocalMachine hklm
  obtain ⟨s₂, e₂, h₂⟩ := h₁.insertHandle hkeyCurrentUser hkcu
  refine ⟨⟨s₂, 249⟩, ?_, .start, rfl, h₂⟩
  simp only [HandleTable.start, e₁, e₂, Option.bind_eq_bind, Option.bind_some, Option.pure_def]

/-- Where no two handles are equal, taking out the first with a key is taking out all. -/
theorem eraseP_handle {l : List RegHandle} (hl : (l.map RegHandle.handle).Nodup) (key : BitVec 32) :
    (l.eraseP fun t => t.handle = key) = l.filter fun t => t.handle ≠ key := by
  induction l with
  | nil => rfl
  | cons t l ih =>
    rw [List.map_cons, List.nodup_cons] at hl
    by_cases ht : t.handle = key
    · rw [List.eraseP_cons_of_pos (by simpa using ht), List.filter_cons_of_neg (by simpa using ht), eq_comm,
        List.filter_eq_self]
      rintro u hu
      refine decide_eq_true fun e => hl.1 ?_
      rw [ht, ← e]
      exact List.mem_map_of_mem hu
    · rw [List.eraseP_cons_of_neg (by simpa using ht), List.filter_cons_of_pos (by simpa using ht), ih hl.2]

/-- The handle with a key is found. -/
theorem find_handle {l : List RegHandle} (hl : (l.map RegHandle.handle).Nodup) {t : RegHandle} (ht : t ∈ l) :
    (l.find? fun u => u.handle = t.handle) = some t := by
  induction l with
  | nil => cases ht
  | cons u l ih =>
    rw [List.map_cons, List.nodup_cons] at hl
    obtain rfl | ht := List.mem_cons.mp ht
    · exact List.find?_cons_of_pos (decide_eq_true rfl)
    · have hne : u.handle ≠ t.handle := fun e => hl.1 (by rw [e]; exact List.mem_map_of_mem ht)
      rw [List.find?_cons_of_neg (by simpa using hne), ih hl.2 ht]

/-- What `RegCloseKey` leaves of the list. -/
theorem Ledger.Ok.regCloseKey {g : Ledger} {n : Nat} (h : g.Ok n) (key : BitVec 32) :
    (g.process.regCloseKey key).2.head = (g.call (.close key)).opened ++ roots := by
  have hroot : key = hkeyLocalMachine ∨ key = hkeyCurrentUser →
      g.opened = g.opened.filter fun t => t.handle ≠ key := by
    intro hkey
    refine (List.filter_eq_self.mpr fun t ht => ?_).symm
    obtain ⟨-, hu, hm⟩ := h.given t (List.mem_append_left _ ht)
    rw [decide_eq_true_iff]
    intro e
    exact hkey.elim (fun hk => hm (e.trans hk)) fun hk => hu (e.trans hk)
  have herase : key ≠ hkeyLocalMachine → key ≠ hkeyCurrentUser →
      ((g.opened ++ roots).eraseP fun t => t.handle = key) =
        (g.opened.filter fun t => t.handle ≠ key) ++ roots := by
    intro hm hu
    have hroots : roots.filter (fun t => t.handle ≠ key) = roots :=
      List.filter_eq_self.mpr (by simp [roots, Ne.symm hm, Ne.symm hu])
    rw [eraseP_handle h.distinct, List.filter_append, hroots]
  unfold Process.regCloseKey
  split
  · rename_i hk
    exact congrArg (· ++ roots) (hroot (.inl hk))
  split
  · rename_i hk
    exact congrArg (· ++ roots) (hroot (.inr hk))
  rename_i hm hu
  split
  · rename_i hnone
    rw [Ledger.call, ← herase hm hu, List.eraseP_of_forall_not]
    · rfl
    · exact List.find?_eq_none.mp hnone
  · exact herase hm hu

theorem Follows.opened {s : HandleTable} {g : Ledger} {n : Nat} (h : Follows s g n) (hn : n < 2 ^ 31)
    (name : CString) : ∃ s', s.call (.opened name) = some s' ∧ Follows s' (g.call (.opened name)) (n + 1) := by
  obtain ⟨list, e, hlist⟩ := h.list.insertHandle (generateHandle g.zz) name
  refine ⟨⟨list, generateHandle g.zz⟩, ?_, h.ok.opened hn name, rfl, hlist⟩
  simp only [HandleTable.call, h.zz, e, Option.bind_eq_bind, Option.bind_some, Option.pure_def]

theorem Follows.close {s : HandleTable} {g : Ledger} {n : Nat} (h : Follows s g n) (key : BitVec 32) :
    ∃ s', s.call (.close key) = some s' ∧ Follows s' (g.call (.close key)) n := by
  obtain ⟨list, e, l, hl, hlist⟩ := h.list.closeKey key
  refine ⟨{ s with list }, ?_, h.ok.close key, h.zz, l, hl, hlist.trans (h.ok.regCloseKey key)⟩
  simp only [HandleTable.call, e, Option.bind_eq_bind, Option.bind_some, Option.pure_def]

/-- A run of calls that opens fewer than 2³¹ handles. -/
theorem Follows.run {s : HandleTable} {g : Ledger} {n : Nat} (h : Follows s g n) {cs : List HandleCall}
    (hfew : n + opens cs < 2 ^ 31) :
    ∃ s', exec HandleTable.call s cs = some s' ∧ Follows s' (g.calls cs) (n + opens cs) := by
  induction cs generalizing s g n with
  | nil => exact ⟨s, rfl, h⟩
  | cons c cs ih =>
    cases c with
    | opened name =>
      have hcount : opens (.opened name :: cs) = opens cs + 1 := by simp [opens]
      obtain ⟨s₁, e₁, h₁⟩ := h.opened (by omega) name
      obtain ⟨s₂, e₂, h₂⟩ := ih h₁ (by omega)
      refine ⟨s₂, by rw [exec_cons, e₁, Option.bind_some, e₂], ?_⟩
      rw [hcount, show n + (opens cs + 1) = n + 1 + opens cs by omega]
      exact h₂
    | close key =>
      have hcount : opens (.close key :: cs) = opens cs := by simp [opens]
      obtain ⟨s₁, e₁, h₁⟩ := h.close key
      obtain ⟨s₂, e₂, h₂⟩ := ih h₁ (by omega)
      exact ⟨s₂, by rw [exec_cons, e₁, Option.bind_some, e₂], by rw [hcount]; exact h₂⟩

/-- What a list that follows a ledger is. -/
theorem Follows.tracks {s : HandleTable} {g : Ledger} {n : Nat} (h : Follows s g n) : Tracks s g := by
  have hdistinct := h.ok.distinct
  obtain ⟨l, hl, hlist⟩ := id h.list
  refine ⟨⟨l, hl.walk, hlist, fun x hx => hl.linkedBack hx⟩, fun t ht => ?_, fun t ht => ?_, hdistinct⟩
  · obtain ⟨a, ha, hvalue, -⟩ := h.list.findHandle t.handle
    exact ⟨a, ha, hvalue.trans (find_handle hdistinct ht)⟩
  · obtain ⟨a, ha, -, hnone⟩ := h.list.findHandle t.handle
    refine ha.trans (congrArg some (hnone.mpr (List.find?_eq_none.mpr fun x hx' => ?_)))
    rw [decide_eq_true_eq]
    obtain ⟨-, hu, hm⟩ := h.ok.given t (List.mem_append_right _ ht)
    obtain hx' | hx' := List.mem_append.mp hx'
    · have hn := h.ok.nodup
      rw [List.map_append, List.nodup_append] at hn
      exact hn.2.2 _ (List.mem_map_of_mem hx') _ (List.mem_map_of_mem ht)
    · simp only [roots, List.mem_cons, List.not_mem_nil, or_false] at hx'
      obtain hx' | hx' := hx'
      · rw [hx']
        exact Ne.symm hu
      · rw [hx']
        exact Ne.symm hm

/-- After any run of calls that opens fewer than 2³¹ handles. -/
theorem handles_track (cs : List HandleCall) (hfew : opens cs < 2 ^ 31) :
    ∃ s, (HandleTable.start.bind fun s => exec HandleTable.call s cs) = some s ∧
      Tracks s (Ledger.start.calls cs) := by
  obtain ⟨s, e, h⟩ := Follows.start
  obtain ⟨s', e', h'⟩ := h.run (by omega : 0 + opens cs < 2 ^ 31)
  exact ⟨s', by rw [e, Option.bind_some, e'], h'.tracks⟩

/-- Two handles opened, the first closed, and its key and a root's closed again. -/
theorem handles_track_closed : ∃ s, (HandleTable.start.bind fun s => exec HandleTable.call s
    [.opened hklm, .opened hkcu, .close 250, .close 250, .close hkeyCurrentUser, .opened hklm]) = some s ∧
    Tracks s ⟨252, [⟨252, hklm⟩, ⟨251, hkcu⟩], [⟨250, hklm⟩]⟩ :=
  handles_track [.opened hklm, .opened hkcu, .close 250, .close 250, .close hkeyCurrentUser, .opened hklm]
    (by decide)

end DShow.Registry
