import DShowServer.Framework.Run
import Mathlib.Logic.Function.Basic

/-!
# Critical sections

`expEnterCriticalSection` looks at `locked` and `id` before it takes the mutex, so that a thread may enter
again; nothing guards the two against the threads that write them. Here every access is a step of its own, and the
threads interleave in any order.

Two threads are never in the section as long as no thread finds its own number in `id` that it left there before, and
no run without that ends (`section_exclusive`): it does between the two writes by which another thread enters
(`Inv.finds`). How often a thread has entered is not counted, so that the first `LeaveCriticalSection` of one that
has entered twice lets every other thread in (`section_nested`).
-/

namespace DShow.Sync

open Run

/-- Where a thread is in the code. -/
inductive Pc
  | out
  /-- Behind `if(cs->locked)`. -/
  | check
  /-- At `pthread_mutex_lock`. -/
  | lock
  | setLocked
  | setId
  /-- Behind `if (cs->locked)`. -/
  | clear
  /-- At `pthread_mutex_unlock`. -/
  | unlock
deriving DecidableEq

/-- `struct CRITSECT`, with the thread that has the mutex, where the threads are, and how often each has entered and not
left. -/
structure Critsect (τ : Type*) where
  locked : Bool
  id : τ
  mutex : Option τ
  pc : τ → Pc
  depth : τ → Nat

namespace Critsect

variable {τ : Type*}

/-- `expInitializeCriticalSection`; what is in `id` is not set. -/
def start (id : τ) : Critsect τ := ⟨false, id, none, fun _ => .out, fun _ => 0⟩

section

variable [DecidableEq τ]

def goto (s : Critsect τ) (t : τ) (pc : Pc) : Critsect τ := { s with pc := Function.update s.pc t pc }

/-- A thread that returns from `EnterCriticalSection`. -/
def entered (s : Critsect τ) (t : τ) : Critsect τ :=
  { s.goto t .out with depth := Function.update s.depth t (s.depth t + 1) }

/-- A call, or the next access of a thread. -/
inductive Event (τ : Type*)
  | enter (t : τ)
  | leave (t : τ)
  | go (t : τ)

def step (s : Critsect τ) : Event τ → Option (Critsect τ)
  | .enter t => if s.pc t = .out then some (s.goto t (if s.locked then .check else .lock)) else none
  | .leave t =>
    if s.pc t = .out then
      some { s.goto t (if s.locked then .clear else .out) with depth := Function.update s.depth t (s.depth t - 1) }
    else none
  | .go t =>
    match s.pc t with
    | .out => none
    | .check => some (if s.id = t then s.entered t else s.goto t .lock)
    | .lock => if s.mutex = none then some { s.goto t .setLocked with mutex := some t } else none
    | .setLocked => some { s.goto t .setId with locked := true }
    | .setId => some { s.entered t with id := t }
    | .clear => some { s.goto t .unlock with locked := false }
    | .unlock => some { s.goto t .out with mutex := none }

end

/-- A thread that has entered, or is about to. -/
def In (s : Critsect τ) (t : τ) : Prop := 0 < s.depth t ∨ s.mutex = some t

def Exclusive (s : Critsect τ) : Prop := ∀ t u, s.In t → s.In u → t = u

/-- A thread leaves the section that it has entered once. -/
def LeavesOnce (s : Critsect τ) : Event τ → Prop
  | .leave t => s.depth t = 1
  | _ => True

/-- A thread that is not in the section finds its number in `id`. -/
def FindsItself (s : Critsect τ) : Event τ → Prop
  | .go t => s.pc t = .check ∧ s.id = t ∧ s.depth t = 0
  | _ => False

/-! ## The threads -/

/-- Where the thread is that has the mutex. -/
def Owns (s : Critsect τ) (t : τ) : Prop :=
  (s.pc t = .out ∨ s.pc t = .check) ∧ 0 < s.depth t ∧ s.locked = true ∧ s.id = t ∨
    s.depth t = 0 ∧ (s.pc t = .setLocked ∧ s.locked = false ∨ s.pc t = .setId ∧ s.locked = true ∨
      s.pc t = .clear ∧ s.locked = true ∧ s.id = t ∨ s.pc t = .unlock ∧ s.locked = false ∧ s.id = t)

structure Inv (s : Critsect τ) : Prop where
  free : s.mutex = none → s.locked = false
  other : ∀ t, s.mutex ≠ some t → s.depth t = 0 ∧ (s.pc t = .out ∨ s.pc t = .check ∨ s.pc t = .lock)
  owner : ∀ t, s.mutex = some t → s.Owns t
  stale : ∀ t, s.pc t = .check → s.id = t → s.mutex ≠ some t → ∃ u, s.mutex = some u ∧ s.pc u = .setId

variable {s s' : Critsect τ} {t u : τ} {e : Event τ} {es : List (Event τ)}

theorem Inv.exclusive (h : s.Inv) : s.Exclusive := by
  have hin : ∀ t, s.In t → s.mutex = some t := fun t ht => by
    rcases ht with hd | hm
    · by_contra hne
      exact Nat.ne_of_gt hd (h.other t hne).1
    · exact hm
  exact fun t u ht hu => Option.some.inj ((hin t ht).symm.trans (hin u hu))

/-- A thread finds its number only while another is between its two writes. -/
theorem Inv.finds (h : s.Inv) (hf : s.FindsItself (.go t)) : ∃ u, u ≠ t ∧ s.mutex = some u ∧ s.pc u = .setId := by
  obtain ⟨hpc, hid, hd⟩ := hf
  have hne : s.mutex ≠ some t := fun hm => by
    rcases h.owner t hm with ⟨-, hpos, -⟩ | ⟨-, ⟨hp, -⟩ | ⟨hp, -⟩ | ⟨hp, -⟩ | ⟨hp, -⟩⟩
    · omega
    all_goals rw [hpc] at hp; cases hp
  obtain ⟨u, hu, hpu⟩ := h.stale t hpc hid hne
  exact ⟨u, fun he => hne (he ▸ hu), hu, hpu⟩

theorem start_inv (id : τ) : (start id).Inv where
  free _ := rfl
  other _ _ := ⟨rfl, .inl rfl⟩
  owner _ h := nomatch h
  stale _ h := nomatch h

/-- The owner of a section that is locked is between its writes if `id` is not its number. -/
theorem Inv.setting (h : s.Inv) (hm : s.mutex = some t) (hid : s.id ≠ t) (hl : s.locked = true) : s.pc t = .setId := by
  rcases h.owner t hm with ⟨-, -, -, hi⟩ | ⟨-, ⟨-, hn⟩ | ⟨hp, -⟩ | ⟨-, -, hi⟩ | ⟨-, hn, -⟩⟩
  · exact absurd hi hid
  · rw [hl] at hn
    cases hn
  · exact hp
  · exact absurd hi hid
  · rw [hl] at hn
    cases hn

/-- The section with an owner: the other threads are outside it. -/
theorem Inv.of_owner (hm : s.mutex = some t) (ho : s.Owns t)
    (hother : ∀ u, u ≠ t → s.depth u = 0 ∧ (s.pc u = .out ∨ s.pc u = .check ∨ s.pc u = .lock))
    (hstale : ∀ u, u ≠ t → s.pc u = .check → s.id = u → s.pc t = .setId) : s.Inv where
  free h := nomatch hm.symm.trans h
  other u hu := hother u fun he => hu (he ▸ hm)
  owner u hu := by
    obtain rfl : t = u := Option.some.inj (hm.symm.trans hu)
    exact ho
  stale u hpc hid hu := ⟨t, hm, hstale u (fun he => hu (he ▸ hm)) hpc hid⟩

/-- A step of the owner. -/
theorem Inv.move (h : s.Inv) (hm : s.mutex = some t ∨ s.mutex = none) (hpc : ∀ u, u ≠ t → s'.pc u = s.pc u)
    (hd : ∀ u, u ≠ t → s'.depth u = s.depth u) (hm' : s'.mutex = some t) (ho : s'.Owns t)
    (hid : s'.id = t ∨ s'.pc t = .setId ∨ s'.id = s.id ∧ s.pc t ≠ .setId) : s'.Inv := by
  have hne : ∀ u, u ≠ t → s.mutex ≠ some u := fun u hu hmu => by
    rcases hm with hm | hm
    · exact hu (Option.some.inj (hmu.symm.trans hm))
    · cases hm.symm.trans hmu
  refine Inv.of_owner hm' ho (fun u hu => ?_) fun u hu hp hidu => ?_
  · rw [hpc u hu, hd u hu]
    exact h.other u (hne u hu)
  · rcases hid with hid | hid | ⟨hid, hset⟩
    · exact absurd (hidu.symm.trans hid) hu
    · exact hid
    · rw [hpc u hu] at hp
      obtain ⟨v, hv, hpv⟩ := h.stale u hp (hid.symm.trans hidu) (hne u hu)
      rcases hm with hm | hm
      · exact absurd (Option.some.inj (hv.symm.trans hm) ▸ hpv) hset
      · cases hm.symm.trans hv

/-- The owner of the mutex, by where it is. -/
theorem Inv.owner_of_pc (h : s.Inv) (hpc : s.pc t = .setLocked ∨ s.pc t = .setId ∨ s.pc t = .clear ∨ s.pc t = .unlock) :
    s.mutex = some t := by
  by_contra hne
  obtain ⟨-, hp⟩ := h.other t hne
  rcases hp with hp | hp | hp <;> rw [hp] at hpc <;> simp at hpc

section

variable [DecidableEq τ]

@[simp] theorem goto_pc_self (pc : Pc) : (s.goto t pc).pc t = pc := Function.update_self ..

theorem goto_pc_ne (pc : Pc) (h : u ≠ t) : (s.goto t pc).pc u = s.pc u := Function.update_of_ne h ..

/-- A thread without the mutex goes on outside the section. -/
theorem Inv.goto (h : s.Inv) (ht : s.mutex ≠ some t) {pc : Pc} (hpc : pc = .out ∨ pc = .check ∨ pc = .lock)
    (hcheck : pc = .check → s.locked = true) : (s.goto t pc).Inv where
  free := h.free
  other u hu := by
    by_cases he : u = t
    · subst he
      exact ⟨(h.other u hu).1, (goto_pc_self (s := s) (t := u) pc).symm ▸ hpc⟩
    · rw [goto_pc_ne pc he]
      exact h.other u hu
  owner u hu := by
    have he : u ≠ t := fun he => ht (he ▸ hu)
    have ho := h.owner u hu
    unfold Owns at ho ⊢
    rw [goto_pc_ne pc he]
    exact ho
  stale u hp hid hu := by
    have hset : ∃ v, s.mutex = some v ∧ s.pc v = .setId := by
      by_cases he : u = t
      · subst he
        rw [goto_pc_self] at hp
        have hl := hcheck hp
        cases hm : s.mutex with
        | none =>
          rw [h.free hm] at hl
          cases hl
        | some v => exact ⟨v, rfl, h.setting hm (fun he => hu (hid.symm.trans he ▸ hm)) hl⟩
      · rw [goto_pc_ne pc he] at hp
        exact h.stale u hp hid hu
    obtain ⟨v, hv, hpv⟩ := hset
    exact ⟨v, hv, (goto_pc_ne pc fun he : v = t => ht (he ▸ hv)).trans hpv⟩

/-- The mutex given back. -/
theorem Inv.release (h : s.Inv) (hm : s.mutex = some t) (hd : s.depth t = 0) (hl : s.locked = false) (hid : s.id = t) :
    Inv { s.goto t .out with mutex := none } where
  free _ := hl
  other u _ := by
    by_cases he : u = t
    · subst he
      exact ⟨hd, .inl (goto_pc_self _)⟩
    · rw [show Critsect.pc { s.goto t .out with mutex := none } u = s.pc u from goto_pc_ne _ he]
      exact h.other u fun hu => he (Option.some.inj (hu.symm.trans hm))
  owner _ hu := nomatch hu
  stale u hp hidu _ := by
    obtain rfl : t = u := hid.symm.trans hidu
    cases (goto_pc_self Pc.out).symm.trans hp

theorem update_depth_ne {d : Nat} (h : u ≠ t) : Function.update s.depth t d u = s.depth u := Function.update_of_ne h ..

theorem update_depth_self {d : Nat} : Function.update s.depth t d t = d := Function.update_self ..

theorem entered_pos : 0 < (s.entered t).depth t := by
  show 0 < Function.update s.depth t (s.depth t + 1) t
  rw [update_depth_self]
  exact Nat.succ_pos _

/-- Every step keeps the invariant, unless a thread finds itself. -/
theorem Inv.step (h : s.Inv) (hl : s.LeavesOnce e) (hf : ¬ s.FindsItself e) (hs : s.step e = some s') : s'.Inv := by
  cases e with
  | enter t =>
    rw [Critsect.step] at hs
    split at hs
    · rename_i hpc
      cases hs
      by_cases hm : s.mutex = some t
      · have ho := h.owner t hm
        simp only [Owns, hpc, reduceCtorEq, true_and, false_and, or_false, and_false] at ho
        rw [if_pos ho.2.1]
        exact h.move (.inl hm) (fun u hu => goto_pc_ne _ hu) (fun _ _ => rfl) hm
          (.inl ⟨.inr (goto_pc_self _), ho⟩) (.inl ho.2.2)
      · refine h.goto hm ?_ fun hc => ?_
        · split <;> simp
        · by_contra hn
          rw [if_neg hn] at hc
          cases hc
    · cases hs
  | leave t =>
    rw [Critsect.step] at hs
    split at hs
    · rename_i hpc
      cases hs
      have hd : s.depth t = 1 := hl
      have hm : s.mutex = some t := by
        by_contra hm
        rw [(h.other t hm).1] at hd
        cases hd
      have ho := h.owner t hm
      simp only [Owns, hpc, reduceCtorEq, true_and, false_and, or_false, and_false] at ho
      rw [if_pos ho.2.1, hd]
      exact h.move (.inl hm) (fun u hu => goto_pc_ne _ hu) (fun u hu => update_depth_ne hu) hm
        (.inr ⟨update_depth_self, .inr (.inr (.inl ⟨goto_pc_self _, ho.2⟩))⟩) (.inl ho.2.2)
    · cases hs
  | go t =>
    rw [Critsect.step] at hs
    split at hs
    · cases hs
    · rename_i hpc
      cases hs
      by_cases hm : s.mutex = some t
      · have ho := h.owner t hm
        simp only [Owns, hpc, reduceCtorEq, or_true, true_and, false_and, or_false, and_false] at ho
        rw [if_pos ho.2.2]
        exact h.move (.inl hm) (fun u hu => goto_pc_ne _ hu) (fun u hu => update_depth_ne hu) hm
          (.inl ⟨.inl (goto_pc_self _), entered_pos, ho.2⟩) (.inl ho.2.2)
      · rw [if_neg fun hid => hf ⟨hpc, hid, (h.other t hm).1⟩]
        exact h.goto hm (.inr (.inr rfl)) (fun hc => nomatch hc)
    · rename_i hpc
      split at hs
      · rename_i hm
        cases hs
        have hd := (h.other t (fun he => nomatch hm.symm.trans he)).1
        exact h.move (.inr hm) (fun u hu => goto_pc_ne _ hu) (fun _ _ => rfl) rfl
          (.inr ⟨hd, .inl ⟨goto_pc_self _, h.free hm⟩⟩) (.inr (.inr ⟨rfl, by simp [hpc]⟩))
      · cases hs
    · rename_i hpc
      cases hs
      have hm := h.owner_of_pc (.inl hpc)
      have ho := h.owner t hm
      simp only [Owns, hpc, reduceCtorEq, or_self, true_and, false_and, or_false, false_or] at ho
      exact h.move (.inl hm) (fun u hu => goto_pc_ne _ hu) (fun _ _ => rfl) hm
        (.inr ⟨ho.1, .inr (.inl ⟨goto_pc_self _, rfl⟩)⟩) (.inr (.inl (goto_pc_self _)))
    · rename_i hpc
      cases hs
      have hm := h.owner_of_pc (.inr (.inl hpc))
      have ho := h.owner t hm
      simp only [Owns, hpc, reduceCtorEq, or_self, true_and, false_and, or_false, false_or] at ho
      exact h.move (.inl hm) (fun u hu => goto_pc_ne _ hu) (fun u hu => update_depth_ne hu) hm
        (.inl ⟨.inl (goto_pc_self _), entered_pos, ho.2, rfl⟩) (.inl rfl)
    · rename_i hpc
      cases hs
      have hm := h.owner_of_pc (.inr (.inr (.inl hpc)))
      have ho := h.owner t hm
      simp only [Owns, hpc, reduceCtorEq, or_self, true_and, false_and, or_false, false_or] at ho
      exact h.move (.inl hm) (fun u hu => goto_pc_ne _ hu) (fun _ _ => rfl) hm
        (.inr ⟨ho.1, .inr (.inr (.inr ⟨goto_pc_self _, rfl, ho.2.2⟩))⟩) (.inl ho.2.2)
    · rename_i hpc
      cases hs
      have hm := h.owner_of_pc (.inr (.inr (.inr hpc)))
      have ho := h.owner t hm
      simp only [Owns, hpc, reduceCtorEq, or_self, true_and, false_and, false_or] at ho
      exact h.release hm ho.1 ho.2.1 ho.2.2

/-- A thread that finds itself is in the section together with the one that is about to enter. -/
theorem Inv.not_exclusive (h : s.Inv) (hf : s.FindsItself e) (hs : s.step e = some s') : ¬ s'.Exclusive := by
  cases e with
  | enter t => exact hf.elim
  | leave t => exact hf.elim
  | go t =>
    obtain ⟨u, hne, hu, -⟩ := h.finds hf
    rw [Critsect.step, hf.1] at hs
    cases hs
    rw [if_pos hf.2.1]
    exact fun hx => hne (hx u t (.inr hu) (.inl entered_pos))

/-- **Mutual exclusion.** In a run in which every thread leaves the section only if it has entered it once, no two
threads are in it, or about to enter, at any time exactly if no thread that is not in the section finds its own number
in `id`. -/
theorem section_exclusive {id : τ} (hl : Meets Critsect.step LeavesOnce (start id) es)
    (hr : exec Critsect.step (start id) es = some s) :
    Meets Critsect.step (fun s e => ¬ s.FindsItself e) (start id) es ↔
      ∀ fs gs u, es = fs ++ gs → exec Critsect.step (start id) fs = some u → u.Exclusive :=
  meets_iff_of_break (fun _ h => h.exclusive) (fun _ _ _ h hl hf hs => h.step hl hf hs)
    (fun _ _ _ h _ hf hs => h.not_exclusive (not_not.mp hf) hs) (start_inv id) hl hr

instance (s : Critsect τ) : (e : Event τ) → Decidable (s.LeavesOnce e)
  | .enter _ => isTrue trivial
  | .leave t => inferInstanceAs (Decidable (s.depth t = 1))
  | .go _ => isTrue trivial

instance (s : Critsect τ) : (e : Event τ) → Decidable (s.FindsItself e)
  | .enter _ => isFalse not_false
  | .leave _ => isFalse not_false
  | .go t => inferInstanceAs (Decidable (s.pc t = .check ∧ s.id = t ∧ s.depth t = 0))

/-- A thread that was in the section before enters where another has set `locked` and has not yet set `id`. -/
def finding : List (Event Nat) := [.enter 2, .go 2, .go 2, .enter 1, .go 1]

theorem section_exclusive_finding : ¬ ∀ fs gs u, finding = fs ++ gs → exec Critsect.step (start 1) fs = some u →
    u.Exclusive := by
  obtain ⟨s, hr⟩ : ∃ s, exec Critsect.step (start 1) finding = some s := ⟨_, rfl⟩
  exact fun h => absurd ((section_exclusive (by decide) hr).mpr h) (by decide)

/-! ## Entering twice -/

theorem exec_three {a b c : Event τ} {s₁ s₂ s₃ : Critsect τ} (h₁ : s.step a = some s₁) (h₂ : s₁.step b = some s₂)
    (h₃ : s₂.step c = some s₃) : exec Critsect.step s [a, b, c] = some s₃ :=
  exec_cons_eq_some.mpr ⟨s₁, h₁, exec_cons_eq_some.mpr ⟨s₂, h₂, exec_cons_eq_some.mpr ⟨s₃, h₃, rfl⟩⟩⟩

/-- A thread in the section leaves it, whatever its depth. -/
theorem exec_leave (hpc : s.pc t = .out) (hl : s.locked = true) : ∃ s', exec Critsect.step s [.leave t, .go t, .go t] =
    some s' ∧ s'.locked = false ∧ s'.mutex = none ∧ s'.depth t = s.depth t - 1 ∧ ∀ u, u ≠ t → s'.pc u = s.pc u := by
  have h₁ : s.step (.leave t) = some { s.goto t .clear with depth := Function.update s.depth t (s.depth t - 1) } := by
    rw [Critsect.step, if_pos hpc, hl, if_pos rfl]
  generalize hs₁ : ({ s.goto t .clear with depth := Function.update s.depth t (s.depth t - 1) } : Critsect τ) = s₁ at h₁
  have hp₁ : s₁.pc t = .clear := hs₁ ▸ goto_pc_self _
  have h₂ : s₁.step (.go t) = some { s₁.goto t .unlock with locked := false } := by rw [Critsect.step, hp₁]
  generalize hs₂ : ({ s₁.goto t .unlock with locked := false } : Critsect τ) = s₂ at h₂
  have hp₂ : s₂.pc t = .unlock := hs₂ ▸ goto_pc_self _
  have h₃ : s₂.step (.go t) = some { s₂.goto t .out with mutex := none } := by rw [Critsect.step, hp₂]
  subst hs₁ hs₂
  exact ⟨_, exec_three h₁ h₂ h₃, rfl, rfl, update_depth_self,
    fun u hu => (goto_pc_ne _ hu).trans ((goto_pc_ne _ hu).trans (goto_pc_ne _ hu))⟩

/-- A thread enters where the mutex is free, whoever is in the section. -/
theorem exec_enter (hpc : s.pc u = .out) (hl : s.locked = false) (hm : s.mutex = none) :
    ∃ s', exec Critsect.step s [.enter u, .go u, .go u, .go u] = some s' ∧ 0 < s'.depth u ∧
      ∀ t, t ≠ u → s'.depth t = s.depth t := by
  have h₀ : s.step (.enter u) = some (s.goto u .lock) := by
    rw [Critsect.step, if_pos hpc, hl, if_neg Bool.false_ne_true]
  have hp₀ : (s.goto u .lock).pc u = .lock := goto_pc_self _
  have h₁ : (s.goto u .lock).step (.go u) = some { (s.goto u .lock).goto u .setLocked with mutex := some u } := by
    rw [Critsect.step, hp₀]
    exact if_pos hm
  generalize hs₁ : ({ (s.goto u .lock).goto u .setLocked with mutex := some u } : Critsect τ) = s₁ at h₁
  have hp₁ : s₁.pc u = .setLocked := hs₁ ▸ goto_pc_self _
  have h₂ : s₁.step (.go u) = some { s₁.goto u .setId with locked := true } := by rw [Critsect.step, hp₁]
  generalize hs₂ : ({ s₁.goto u .setId with locked := true } : Critsect τ) = s₂ at h₂
  have hp₂ : s₂.pc u = .setId := hs₂ ▸ goto_pc_self _
  have h₃ : s₂.step (.go u) = some { s₂.entered u with id := u } := by rw [Critsect.step, hp₂]
  subst hs₁ hs₂
  exact ⟨_, exec_cons_eq_some.mpr ⟨_, h₀, exec_three h₁ h₂ h₃⟩, entered_pos, fun t ht => update_depth_ne ht⟩

/-- **Entering twice.** After any run in which mutual exclusion holds and threads leave only what they have entered
once, when a thread that has entered more than once leaves for the first time, any other thread can enter, and both
are in the section. -/
theorem section_nested {id : τ} (hl : Meets Critsect.step LeavesOnce (start id) es)
    (hf : Meets Critsect.step (fun s e => ¬ s.FindsItself e) (start id) es)
    (hr : exec Critsect.step (start id) es = some s) (ht : s.pc t = .out) (hd : 2 ≤ s.depth t) (hne : u ≠ t)
    (hu : s.pc u = .out) : ∃ s', exec Critsect.step s
      ([.leave t, .go t, .go t] ++ [.enter u, .go u, .go u, .go u]) = some s' ∧ 0 < s'.depth t ∧ 0 < s'.depth u := by
  have h : s.Inv := exec_inv (fun s e s' h hc hs => h.step hc.1 hc.2 hs) (start_inv id) (hl.and hf) hr
  have hm : s.mutex = some t := by
    by_contra hm
    have := (h.other t hm).1
    omega
  have hlocked : s.locked = true := by
    rcases h.owner t hm with ⟨-, -, hl, -⟩ | ⟨h0, -⟩
    · exact hl
    · omega
  obtain ⟨s₁, h₁, hl₁, hm₁, hd₁, hp₁⟩ := exec_leave ht hlocked
  obtain ⟨s₂, h₂, hu₂, hd₂⟩ := exec_enter ((hp₁ u hne).trans hu) hl₁ hm₁
  refine ⟨s₂, ?_, ?_, hu₂⟩
  · rw [exec_append, h₁, Option.bind_some, h₂]
  · rw [hd₂ t hne.symm, hd₁]
    omega

/-- A thread that enters twice. -/
def enteringTwice : List (Event Nat) := [.enter 1, .go 1, .go 1, .go 1, .enter 1, .go 1]

theorem section_nested_twice : ∃ s s', exec Critsect.step (start 0) enteringTwice = some s ∧
    exec Critsect.step s ([.leave 1, .go 1, .go 1] ++ [.enter 2, .go 2, .go 2, .go 2]) = some s' ∧
      0 < s'.depth 1 ∧ 0 < s'.depth 2 := by
  obtain ⟨s, hr, ht, hd, hu⟩ : ∃ s, exec Critsect.step (start 0) enteringTwice = some s ∧ s.pc 1 = .out ∧
      2 ≤ s.depth 1 ∧ s.pc 2 = .out := ⟨_, rfl, by decide, by decide, by decide⟩
  obtain ⟨s', h⟩ := section_nested (by decide) (by decide) hr ht hd (by decide) hu
  exact ⟨s, s', hr, h⟩

end

end Critsect

end DShow.Sync
