import Mathlib.Algebra.Ring.Nat
import Mathlib.Data.List.Basic
import Mathlib.Data.Option.Basic

/-!
# Two systems with the same results

A system takes events and gives a result for each, if the event can happen.
Two systems whose states stay related, and whose results agree at every event,
agree over every run (`outputs_agree`).
-/

namespace DShow.Simulate

variable {σ τ ε ρ : Type*}

/-- The results of a run and the state it ends in, if every event can happen. -/
def outputs (step : σ → ε → Option (ρ × σ)) : σ → List ε → Option (List ρ × σ)
  | s, [] => some ([], s)
  | s, e :: es => (step s e).bind fun r => (outputs step r.2 es).map fun rs => (r.1 :: rs.1, rs.2)

/-- At this event both systems give the same result, of the kind `Q`, and `R`
relates the states they reach. -/
def Agree (f : σ → ε → Option (ρ × σ)) (g : τ → ε → Option (ρ × τ)) (R : σ → τ → Prop) (Q : ρ → Prop)
    (s : σ) (t : τ) (e : ε) : Prop :=
  ∃ r s' t', f s e = some (r, s') ∧ g t e = some (r, t') ∧ Q r ∧ R s' t'

variable {f : σ → ε → Option (ρ × σ)} {g : τ → ε → Option (ρ × τ)} {R : σ → τ → Prop} {P : ε → Prop}
  {Q : ρ → Prop}

theorem outputs_cons {s s' t : σ} {e : ε} {es : List ε} {r : ρ} {rs : List ρ}
    (hs : f s e = some (r, s')) (hes : outputs f s' es = some (rs, t)) :
    outputs f s (e :: es) = some (r :: rs, t) := by
  rw [outputs, hs, Option.bind_some, hes]
  rfl

theorem outputs_append {s s' t : σ} {es fs : List ε} {rs qs : List ρ}
    (hs : outputs f s es = some (rs, s')) (hf : outputs f s' fs = some (qs, t)) :
    outputs f s (es ++ fs) = some (rs ++ qs, t) := by
  induction es generalizing s rs with
  | nil => cases hs; exact hf
  | cons e es ih =>
    rw [outputs, Option.bind_eq_some_iff] at hs
    obtain ⟨⟨r, u⟩, hu, hs⟩ := hs
    obtain ⟨⟨rs', s''⟩, hes, hrs⟩ := Option.map_eq_some_iff.mp hs
    cases hrs
    exact outputs_cons hu (ih hes)

theorem outputs_append_eq_some {s t : σ} {es fs : List ε} {qs : List ρ} (h : outputs f s (es ++ fs) = some (qs, t)) :
    ∃ rs u ps, outputs f s es = some (rs, u) ∧ outputs f u fs = some (ps, t) ∧ qs = rs ++ ps := by
  induction es generalizing s qs with
  | nil => exact ⟨[], s, qs, rfl, h, rfl⟩
  | cons e es ih =>
    obtain ⟨⟨r, s'⟩, hs, h⟩ := Option.bind_eq_some_iff.mp h
    obtain ⟨⟨qs', t'⟩, hq, he⟩ := Option.map_eq_some_iff.mp h
    cases he
    obtain ⟨rs, u, ps, hrs, hps, rfl⟩ := ih hq
    exact ⟨r :: rs, u, ps, outputs_cons hs hrs, hps, rfl⟩

/-- **The simulation rule.** If the relation is kept, with equal results, at every
event of a kind, then the runs over such events have the same results. -/
theorem outputs_agree (hstep : ∀ s t e, R s t → P e → Agree f g R Q s t e) {s : σ} {t : τ}
    {es : List ε} (h : R s t) (hP : ∀ e ∈ es, P e) : ∃ rs s' t', outputs f s es = some (rs, s') ∧
      outputs g t es = some (rs, t') ∧ rs.length = es.length ∧ (∀ r ∈ rs, Q r) ∧ R s' t' := by
  induction es generalizing s t with
  | nil => exact ⟨[], s, t, rfl, rfl, rfl, List.forall_mem_nil _, h⟩
  | cons e es ih =>
    obtain ⟨r, s', t', hf, hg, hr, h'⟩ := hstep s t e h (hP e List.mem_cons_self)
    obtain ⟨rs, u, v, hu, hv, hlen, hrs, huv⟩ := ih h' fun e he => hP e (List.mem_cons_of_mem _ he)
    exact ⟨r :: rs, u, v, outputs_cons hf hu, outputs_cons hg hv, congrArg Nat.succ hlen,
      List.forall_mem_cons.mpr ⟨hr, hrs⟩, huv⟩

section

variable {α β : Type*} {r : α → β → Prop} {x : Option α} {y : Option β}

theorem rel_left {a : α} (h : Option.Rel r x y) (hx : x = some a) : ∃ b, y = some b ∧ r a b := by
  subst hx
  cases h with
  | some h => exact ⟨_, rfl, h⟩

theorem rel_right {b : β} (h : Option.Rel r x y) (hy : y = some b) : ∃ a, x = some a ∧ r a b := by
  subst hy
  cases h with
  | some h => exact ⟨_, rfl, h⟩

theorem rel_bind {γ δ : Type*} {q : γ → δ → Prop} {f : α → Option γ} {g : β → Option δ} (h : Option.Rel r x y)
    (hfg : ∀ a b, r a b → Option.Rel q (f a) (g b)) : Option.Rel q (x.bind f) (y.bind g) := by
  cases h with
  | none => exact .none
  | some h => exact hfg _ _ h

theorem rel_map {γ δ : Type*} {q : γ → δ → Prop} {f : α → γ} {g : β → δ} (h : Option.Rel r x y)
    (hfg : ∀ a b, r a b → q (f a) (g b)) : Option.Rel q (x.map f) (y.map g) := by
  cases h with
  | none => exact .none
  | some h => exact .some (hfg _ _ h)

theorem rel_imp {q : α → β → Prop} (h : Option.Rel r x y) (hq : ∀ a b, x = some a → y = some b → r a b → q a b) :
    Option.Rel q x y := by
  cases h with
  | none => exact .none
  | some h => exact .some (hq _ _ rfl rfl h)

end

/-- Where the two systems fail at the same events, too, they fail over the same runs. -/
theorem outputs_rel (hstep : ∀ s t e, R s t → Option.Rel (fun p q => p.1 = q.1 ∧ R p.2 q.2) (f s e) (g t e)) {s : σ}
    {t : τ} (h : R s t) (es : List ε) :
    Option.Rel (fun p q => p.1 = q.1 ∧ R p.2 q.2) (outputs f s es) (outputs g t es) := by
  induction es generalizing s t with
  | nil => exact .some ⟨rfl, h⟩
  | cons e es ih =>
    have he := hstep s t e h
    unfold outputs
    revert he
    generalize f s e = p
    generalize g t e = q
    intro he
    cases he with
    | none => exact .none
    | some he =>
      obtain ⟨hr, h'⟩ := he
      rw [Option.bind_some, Option.bind_some]
      have hs := ih h'
      revert hs
      generalize outputs f _ es = p
      generalize outputs g _ es = q
      intro hs
      cases hs with
      | none => exact .none
      | some hs => exact .some ⟨congrArg₂ _ hr hs.1, hs.2⟩

/-- What every event keeps whose result is of a kind, a run keeps whose results all are. -/
theorem outputs_inv {I : σ → Prop} (hstep : ∀ s e r s', I s → f s e = some (r, s') → Q r → I s') {s t : σ}
    {es : List ε} {rs : List ρ} (h : I s) (hr : outputs f s es = some (rs, t)) (hQ : ∀ r ∈ rs, Q r) : I t := by
  induction es generalizing s rs with
  | nil => cases hr; exact h
  | cons e es ih =>
    obtain ⟨⟨r, u⟩, hu, hr⟩ := Option.bind_eq_some_iff.mp hr
    obtain ⟨⟨qs, v⟩, hv, he⟩ := Option.map_eq_some_iff.mp hr
    cases he
    rw [List.forall_mem_cons] at hQ
    exact ih (hstep _ _ _ _ h hu hQ.1) hv hQ.2

/-- What every event of a kind keeps, a run of such events keeps. -/
theorem outputs_inv_of_forall {I : σ → Prop} (hstep : ∀ s e r s', I s → P e → f s e = some (r, s') → I s') {s t : σ}
    {es : List ε} {rs : List ρ} (h : I s) (hP : ∀ e ∈ es, P e) (hr : outputs f s es = some (rs, t)) : I t := by
  induction es generalizing s rs with
  | nil => cases hr; exact h
  | cons e es ih =>
    obtain ⟨⟨r, u⟩, hu, hr⟩ := Option.bind_eq_some_iff.mp hr
    obtain ⟨⟨qs, v⟩, hv, he⟩ := Option.map_eq_some_iff.mp hr
    cases he
    rw [List.forall_mem_cons] at hP
    exact ih (hstep _ _ _ _ h hP.1 hu) hP.2 hv

/-- Where what an event yields is paid for by what the state loses and what the event costs, a run yields no more. -/
theorem outputs_sum {d c : ε → Nat} {a : σ → Nat} (hstep : ∀ s e r s', f s e = some (r, s') → d e + a s' ≤ a s + c e)
    {s t : σ} {es : List ε} {rs : List ρ} (hr : outputs f s es = some (rs, t)) :
    (es.map d).sum + a t ≤ a s + (es.map c).sum := by
  induction es generalizing s rs with
  | nil =>
    cases hr
    exact Nat.le_of_eq (Nat.add_comm _ _)
  | cons e es ih =>
    obtain ⟨⟨r, u⟩, hu, hr⟩ := Option.bind_eq_some_iff.mp hr
    obtain ⟨⟨qs, v⟩, hv, he⟩ := Option.map_eq_some_iff.mp hr
    cases he
    have h₁ := hstep _ _ _ _ hu
    have h₂ := ih hv
    rw [List.map_cons, List.map_cons, List.sum_cons, List.sum_cons]
    dsimp only at h₁ h₂ ⊢
    omega

end DShow.Simulate
