import DShowServer.Framework.Simulate

/-!
# Threads at a monitor

Threads share a state that a mutex guards, and wait on one condition variable. What a
thread does between taking the mutex and giving it back, or waiting, is one turn
(`Turn`): nobody sees the states between. A `Monitor` has the turns of its calls, and those of
a thread that goes on behind a wait.

A thread that waits is blocked until it is woken, by a signal, by a broadcast, because its time is up
or for no reason, and takes its turn some time later. Two disciplines are proved to lose no wakeup: to
wake all who wait for a condition when it comes to hold (`blocked_of_broadcasts`), and to wake one of
them, who ends it (`blocked_of_signals`).
-/

namespace DShow

/-- Which of the threads that are blocked a turn wakes. -/
inductive Wakes
  | none
  | one
  | all
deriving DecidableEq

/-- How a turn ends: with a result, or with a wait. -/
inductive Ending (κ ρ : Type*)
  | returns (r : ρ)
  | waits (k : κ)

structure Turn (σ κ ρ : Type*) where
  shared : σ
  wakes : Wakes
  ending : Ending κ ρ

/-- The turn of a call, and that of a thread that was woken, in time or not. Some waits have no end of their own. -/
structure Monitor (σ α κ ρ : Type*) where
  call : α → σ → Turn σ κ ρ
  resume : κ → Bool → σ → Turn σ κ ρ
  timed : κ → Bool

namespace Monitor

variable {τ σ α κ ρ : Type*}

/-- What is shared, who is blocked, and who has been woken, with whether the time was up. -/
structure State (τ σ κ : Type*) where
  shared : σ
  blocked : List (τ × κ)
  woken : List (τ × κ × Bool)

/-- The state before any call. -/
def State.start (x : σ) : State τ σ κ := ⟨x, [], []⟩

inductive Event (τ α : Type*)
  | call (t : τ) (c : α) (pick : Nat)
  | resume (t : τ) (pick : Nat)
  | timeout (t : τ)
  | spurious (t : τ)

/-- A signal wakes one of those who are blocked, if there is one. -/
def State.wake (s : State τ σ κ) (pick : Nat) : Wakes → Option (State τ σ κ)
  | .none => some s
  | .one =>
    if s.blocked.isEmpty then some s
    else (s.blocked[pick]?).map fun b => ⟨s.shared, s.blocked.eraseIdx pick, (b.1, b.2, false) :: s.woken⟩
  | .all => some ⟨s.shared, [], s.blocked.map (fun b => (b.1, b.2, false)) ++ s.woken⟩

/-- A turn of a thread, and what it returns. -/
def State.take (s : State τ σ κ) (t : τ) (turn : Turn σ κ ρ) (pick : Nat) : Option (Option ρ × State τ σ κ) :=
  (State.wake ⟨turn.shared, s.blocked, s.woken⟩ pick turn.wakes).map fun s =>
    match turn.ending with
    | .returns r => (some r, s)
    | .waits k => (none, ⟨s.shared, (t, k) :: s.blocked, s.woken⟩)

variable {m : Monitor σ α κ ρ} {s s' : State τ σ κ} {r : Option ρ} {turn : Turn σ κ ρ}

/-- A turn that the monitor has in a state. -/
def Has (m : Monitor σ α κ ρ) (x : σ) (turn : Turn σ κ ρ) : Prop :=
  (∃ c, turn = m.call c x) ∨ ∃ k timedOut, turn = m.resume k timedOut x

/-- Who is blocked and who is woken behind a signal. -/
theorem State.wake_cases {pick : Nat} {w : Wakes} (h : s.wake pick w = some s') : s'.shared = s.shared ∧
    ((w = .none ∨ s.blocked = []) ∧ s' = s ∨
      w = .one ∧ s'.blocked.length + 1 = s.blocked.length ∧ s'.woken.length = s.woken.length + 1 ∨
      w = .all ∧ s'.blocked = [] ∧ s'.woken.length = s.woken.length + s.blocked.length) := by
  cases w with
  | none =>
    cases h
    exact ⟨rfl, .inl ⟨.inl rfl, rfl⟩⟩
  | one =>
    rw [State.wake] at h
    split at h
    · rename_i hb
      cases h
      exact ⟨rfl, .inl ⟨.inr (List.isEmpty_iff.mp hb), rfl⟩⟩
    · obtain ⟨b, hb, h⟩ := Option.map_eq_some_iff.mp h
      cases h
      obtain ⟨hlt, -⟩ := List.getElem?_eq_some_iff.mp hb
      refine ⟨rfl, .inr (.inl ⟨rfl, ?_, rfl⟩)⟩
      show (s.blocked.eraseIdx pick).length + 1 = _
      rw [List.length_eraseIdx_of_lt hlt]
      omega
  | all =>
    cases h
    refine ⟨rfl, .inr (.inr ⟨rfl, rfl, ?_⟩)⟩
    rw [List.length_append, List.length_map, Nat.add_comm]

/-- What a turn leaves. -/
theorem State.take_cases {t : τ} {pick : Nat} (h : s.take t turn pick = some (r, s')) :
    ∃ u : State τ σ κ, State.wake ⟨turn.shared, s.blocked, s.woken⟩ pick turn.wakes = some u ∧
      ((∃ x, turn.ending = .returns x ∧ r = some x ∧ s' = u) ∨
        ∃ k, turn.ending = .waits k ∧ r = none ∧ s' = ⟨u.shared, (t, k) :: u.blocked, u.woken⟩) := by
  obtain ⟨u, hu, h⟩ := Option.map_eq_some_iff.mp h
  refine ⟨u, hu, ?_⟩
  split at h
  · rename_i x hx
    cases h
    exact .inl ⟨x, hx, rfl, rfl⟩
  · rename_i k hk
    cases h
    exact .inr ⟨k, hk, rfl, rfl⟩

/-- A turn that wakes at most one thread. -/
theorem State.take_woken {t : τ} {pick : Nat} (h : s.take t turn pick = some (r, s')) (hall : turn.wakes ≠ .all) :
    s'.shared = turn.shared ∧ s'.woken.length ≤ s.woken.length + if turn.wakes = .one then 1 else 0 := by
  obtain ⟨u, hu, hs⟩ := State.take_cases h
  obtain ⟨hsh, hw⟩ := State.wake_cases hu
  have hle : u.woken.length ≤ s.woken.length + if turn.wakes = .one then 1 else 0 := by
    rcases hw with ⟨-, rfl⟩ | ⟨hone, -, hw⟩ | ⟨h, -⟩
    · exact Nat.le_add_right _ _
    · rw [if_pos hone]
      exact Nat.le_of_eq hw
    · exact absurd h hall
  rcases hs with ⟨-, -, -, rfl⟩ | ⟨-, -, -, rfl⟩
  · exact ⟨hsh, hle⟩
  · exact ⟨hsh, hle⟩

/-! ## Disciplines -/

variable {Go : σ → Prop} {x : σ}

/-- Threads wait only where `Go` does not hold, and whoever brings it about wakes them all. -/
structure Broadcasts (m : Monitor σ α κ ρ) (Go : σ → Prop) : Prop where
  waits : ∀ x turn k, m.Has x turn → turn.ending = .waits k → ¬ Go turn.shared
  wakes : ∀ x turn, m.Has x turn → ¬ Go x → Go turn.shared → turn.wakes = .all

theorem Broadcasts.take (h : m.Broadcasts Go) {t : τ} {pick : Nat} (hm : m.Has x turn)
    (ht : s.take t turn pick = some (r, s')) (hs : Go x → s.blocked = []) : Go s'.shared → s'.blocked = [] := by
  obtain ⟨u, hu, ⟨y, -, -, rfl⟩ | ⟨k, hk, -, rfl⟩⟩ := State.take_cases ht
  · intro hgo
    obtain ⟨hsh, hb⟩ := State.wake_cases hu
    rw [hsh] at hgo
    by_cases hx : Go x
    · rcases hb with ⟨-, rfl⟩ | ⟨-, hb, -⟩ | ⟨-, hb, -⟩
      · exact hs hx
      · rw [hs hx] at hb
        cases hb
      · exact hb
    · have hall := h.wakes x turn hm hx hgo
      rcases hb with ⟨hw | hb, rfl⟩ | ⟨hw, -⟩ | ⟨-, hb, -⟩
      · rw [hall] at hw
        cases hw
      · exact hb
      · rw [hall] at hw
        cases hw
      · exact hb
  · intro hgo
    have hsh : u.shared = turn.shared := (State.wake_cases hu).1
    exact absurd (hsh.subst (motive := Go) hgo) (h.waits x turn k hm hk)

/-- Threads wait only where `Go` does not hold, whoever brings it about wakes one of them, and a thread that was
woken ends it, or passes it on. -/
structure Signals (m : Monitor σ α κ ρ) (Go : σ → Prop) : Prop where
  waits : ∀ x turn k, m.Has x turn → turn.ending = .waits k → ¬ Go turn.shared
  wakes : ∀ x turn, m.Has x turn → ¬ Go x → Go turn.shared → turn.wakes ≠ .none
  passes : ∀ x k timedOut, Go (m.resume k timedOut x).shared → (m.resume k timedOut x).wakes ≠ .none

theorem Signals.take (h : m.Signals Go) {t : τ} {pick : Nat} (hm : m.Has x turn)
    (ht : s.take t turn pick = some (r, s'))
    (hs : Go turn.shared → turn.wakes = .none → s.blocked = [] ∨ s.woken ≠ []) :
    Go s'.shared → s'.blocked = [] ∨ s'.woken ≠ [] := by
  obtain ⟨u, hu, ⟨y, -, -, rfl⟩ | ⟨k, hk, -, rfl⟩⟩ := State.take_cases ht
  · intro hgo
    obtain ⟨hsh, hb⟩ := State.wake_cases hu
    rw [hsh] at hgo
    rcases hb with ⟨hw | hb, rfl⟩ | ⟨-, -, hb⟩ | ⟨-, hb, -⟩
    · exact hs hgo hw
    · exact .inl hb
    · exact .inr (List.ne_nil_of_length_eq_add_one hb)
    · exact .inl hb
  · intro hgo
    have hsh : u.shared = turn.shared := (State.wake_cases hu).1
    exact absurd (hsh.subst (motive := Go) hgo) (h.waits x turn k hm hk)

/-! ## Steps -/

variable [DecidableEq τ]

/-- A thread that is blocked is woken, but not by another. -/
def State.rouse (s : State τ σ κ) (t : τ) (timedOut : Bool) (p : κ → Bool) : Option (Option ρ × State τ σ κ) :=
  (s.blocked.find? fun b => b.1 = t ∧ p b.2).map fun b =>
    (none, ⟨s.shared, s.blocked.eraseP fun b => b.1 = t ∧ p b.2, (b.1, b.2, timedOut) :: s.woken⟩)

/-- One step of a thread. -/
def step (m : Monitor σ α κ ρ) (s : State τ σ κ) : Event τ α → Option (Option ρ × State τ σ κ)
  | .call t c pick =>
    if t ∈ s.blocked.map Prod.fst ∨ t ∈ s.woken.map Prod.fst then none else s.take t (m.call c s.shared) pick
  | .resume t pick =>
    (s.woken.find? fun w => w.1 = t).bind fun w =>
      State.take ⟨s.shared, s.blocked, s.woken.eraseP fun w => w.1 = t⟩ t (m.resume w.2.1 w.2.2 s.shared) pick
  | .timeout t => s.rouse t true m.timed
  | .spurious t => s.rouse t false fun _ => true

theorem State.rouse_cases {t : τ} {timedOut : Bool} {p : κ → Bool} (h : s.rouse t timedOut p = some (r, s')) :
    r = none ∧ s'.shared = s.shared ∧ s'.woken.length = s.woken.length + 1 ∧ s'.blocked.Sublist s.blocked := by
  obtain ⟨b, -, h⟩ := Option.map_eq_some_iff.mp h
  cases h
  exact ⟨rfl, rfl, rfl, List.eraseP_sublist⟩

/-! ## Runs -/

variable {es : List (Event τ α)} {rs : List (Option ρ)}

/-- While `Go` holds nobody is blocked. -/
theorem blocked_of_broadcasts (h : m.Broadcasts Go) (hr : Simulate.outputs m.step (.start x) es = some (rs, s))
    (hgo : Go s.shared) : s.blocked = [] := by
  refine Simulate.outputs_inv (Q := fun _ => True) (I := fun s : State τ σ κ => Go s.shared → s.blocked = [])
    (fun s e r s' hs he _ => ?_) (fun _ => rfl) hr (fun _ _ => trivial) hgo
  have hrouse : ∀ {t timedOut p}, s.rouse t timedOut p = some (r, s') → Go s'.shared → s'.blocked = [] := by
    intro t timedOut p he hgo
    obtain ⟨-, hsh, -, hb⟩ := State.rouse_cases he
    exact List.eq_nil_of_sublist_nil (hs (hsh ▸ hgo) ▸ hb)
  cases e with
  | call t c pick =>
    rw [step] at he
    split at he
    · cases he
    · exact h.take (.inl ⟨c, rfl⟩) he hs
  | resume t pick =>
    obtain ⟨w, -, he⟩ := Option.bind_eq_some_iff.mp he
    exact h.take (.inr ⟨_, _, rfl⟩) he hs
  | timeout t => exact hrouse (show s.rouse t true m.timed = _ from he)
  | spurious t => exact hrouse (show s.rouse t false (fun _ => true) = _ from he)

/-- While `Go` holds and somebody is blocked, a thread has been woken. -/
theorem blocked_of_signals (h : m.Signals Go) (hr : Simulate.outputs m.step (.start x) es = some (rs, s))
    (hgo : Go s.shared) : s.blocked = [] ∨ s.woken ≠ [] := by
  refine Simulate.outputs_inv (Q := fun _ => True)
    (I := fun s : State τ σ κ => Go s.shared → s.blocked = [] ∨ s.woken ≠ [])
    (fun s e r s' hs he _ => ?_) (fun _ => .inl rfl) hr (fun _ _ => trivial) hgo
  cases e with
  | call t c pick =>
    rw [step] at he
    split at he
    · cases he
    · have hm : m.Has s.shared (m.call c s.shared) := .inl ⟨c, rfl⟩
      refine h.take hm he fun hgo hw => hs ?_
      by_contra hx
      exact h.wakes _ _ hm hx hgo hw
  | resume t pick =>
    obtain ⟨w, -, he⟩ := Option.bind_eq_some_iff.mp he
    exact h.take (.inr ⟨_, _, rfl⟩) he fun hgo hw => absurd hw (h.passes _ _ _ hgo)
  | timeout t =>
    obtain ⟨-, -, hw, -⟩ := State.rouse_cases (show s.rouse t true m.timed = _ from he)
    exact fun _ => .inr (List.ne_nil_of_length_eq_add_one hw)
  | spurious t =>
    obtain ⟨-, -, hw, -⟩ := State.rouse_cases (show s.rouse t false (fun _ => true) = _ from he)
    exact fun _ => .inr (List.ne_nil_of_length_eq_add_one hw)

end Monitor

end DShow
