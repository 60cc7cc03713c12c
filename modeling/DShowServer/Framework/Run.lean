import Mathlib.Data.List.Basic
import Mathlib.Data.Option.Basic

/-!
# Runs of a partial step function

A system is a state `σ`, the events `ε` that can happen to it and a partial
function `step`; an event that cannot happen (or that the code does not
survive) has no next state. `exec` is a run over a list of events, `Meets C`
says that every step of a run is taken under the condition `C`, and
`exec_inv` is the induction over runs that every invariant below uses:
what one step preserves under `C`, a run that meets `C` preserves.
-/

namespace DShow.Run

variable {σ ε : Type*}

/-- The state after the events, if each of them can happen. -/
def exec (step : σ → ε → Option σ) : σ → List ε → Option σ
  | s, [] => some s
  | s, e :: es => (step s e).bind fun s' => exec step s' es

/-- Every step of the run is taken under the condition `C`, which may look at
the state before the step and at its event. -/
def Meets (step : σ → ε → Option σ) (C : σ → ε → Prop) : σ → List ε → Prop
  | _, [] => True
  | s, e :: es => C s e ∧ ∀ s', step s e = some s' → Meets step C s' es

variable {step : σ → ε → Option σ}

@[simp] theorem exec_nil (s : σ) : exec step s [] = some s := rfl

theorem exec_cons (s : σ) (e : ε) (es : List ε) :
    exec step s (e :: es) = (step s e).bind fun s' => exec step s' es := rfl

theorem exec_append (s : σ) (es fs : List ε) :
    exec step s (es ++ fs) = (exec step s es).bind fun s' => exec step s' fs := by
  induction es generalizing s with
  | nil => rfl
  | cons e es ih =>
    simp only [List.cons_append, exec_cons, ih]
    cases step s e <;> rfl

/-- A run of one event and a rest: the event can happen and the rest runs
from the state it leads to. -/
theorem exec_cons_eq_some {s t : σ} {e : ε} {es : List ε} :
    exec step s (e :: es) = some t ↔ ∃ u, step s e = some u ∧ exec step u es = some t := by
  rw [exec_cons, Option.bind_eq_some_iff]

/-- A run goes on as long as an invariant holds from which every event can happen. -/
theorem exec_isSome {I : σ → Prop} (hstep : ∀ s e, I s → ∃ s', step s e = some s' ∧ I s') {s : σ}
    (h₀ : I s) (es : List ε) : (exec step s es).isSome := by
  induction es generalizing s with
  | nil => rfl
  | cons e es ih =>
    obtain ⟨u, hu, hi⟩ := hstep s e h₀
    rw [exec_cons, hu, Option.bind_some]
    exact ih hi

section Meets

variable {C : σ → ε → Prop}

theorem meets_cons {s : σ} {e : ε} {es : List ε} :
    Meets step C s (e :: es) ↔ C s e ∧ ∀ s', step s e = some s' → Meets step C s' es := Iff.rfl

instance decidableMeets [∀ s e, Decidable (C s e)] :
    (s : σ) → (es : List ε) → Decidable (Meets step C s es)
  | _, [] => isTrue trivial
  | s, e :: es =>
    match h : step s e with
    | none => decidable_of_iff (C s e) (by simp [meets_cons, h])
    | some s' =>
      have := decidableMeets s' es
      decidable_of_iff (C s e ∧ Meets step C s' es) (by simp [meets_cons, h])

theorem meets_true (s : σ) (es : List ε) : Meets step (fun _ _ => True) s es := by
  induction es generalizing s with
  | nil => trivial
  | cons e es ih => exact ⟨trivial, fun s' _ => ih s'⟩

theorem Meets.and {D : σ → ε → Prop} {s : σ} {es : List ε} (h : Meets step C s es) (h' : Meets step D s es) :
    Meets step (fun s e => C s e ∧ D s e) s es := by
  induction es generalizing s with
  | nil => trivial
  | cons e es ih => exact ⟨⟨h.1, h'.1⟩, fun s' hs => ih (h.2 s' hs) (h'.2 s' hs)⟩

theorem Meets.of_append {s : σ} {es fs : List ε} (h : Meets step C s (es ++ fs)) : Meets step C s es := by
  induction es generalizing s with
  | nil => trivial
  | cons e es ih => exact ⟨h.1, fun s' hs => ih (h.2 s' hs)⟩

/-- A condition on the events alone. -/
theorem meets_of_mem {P : ε → Prop} (s : σ) {es : List ε} (h : ∀ e ∈ es, P e) :
    Meets step (fun _ e => P e) s es := by
  induction es generalizing s with
  | nil => trivial
  | cons e es ih =>
    exact ⟨h e List.mem_cons_self, fun s' _ => ih s' fun e he => h e (List.mem_cons_of_mem _ he)⟩

/-- Two conditions that agree wherever an invariant holds. -/
theorem meets_congr {I : σ → Prop} {D : σ → ε → Prop}
    (hI : ∀ s e s', I s → step s e = some s' → I s') (hCD : ∀ s e, I s → (C s e ↔ D s e)) {s : σ}
    {es : List ε} (hi : I s) : Meets step C s es ↔ Meets step D s es := by
  induction es generalizing s with
  | nil => exact Iff.rfl
  | cons e es ih =>
    exact and_congr (hCD s e hi) (forall_congr' fun s' => imp_congr_right fun hs => ih (hI _ _ _ hi hs))

/-- **Induction over runs.** An invariant that every step under `C` keeps
holds at the end of every run that meets `C`. -/
theorem exec_inv {I : σ → Prop} (hstep : ∀ s e s', I s → C s e → step s e = some s' → I s')
    {s t : σ} {es : List ε} (h₀ : I s) (hm : Meets step C s es) (hr : exec step s es = some t) :
    I t := by
  induction es generalizing s with
  | nil => cases hr; exact h₀
  | cons e es ih =>
    obtain ⟨u, hu, hr⟩ := exec_cons_eq_some.mp hr
    exact ih (hstep _ _ _ h₀ hm.1 hu) (hm.2 u hu) hr

/-- What follows from the invariant and the condition at every step. -/
theorem Meets.imp {I : σ → Prop} {D : σ → ε → Prop}
    (hstep : ∀ s e s', I s → C s e → step s e = some s' → I s') (hD : ∀ s e, I s → C s e → D s e)
    {s : σ} {es : List ε} (h₀ : I s) (hm : Meets step C s es) : Meets step D s es := by
  induction es generalizing s with
  | nil => trivial
  | cons e es ih =>
    exact ⟨hD _ _ h₀ hm.1, fun s' hs => ih (hstep _ _ _ h₀ hm.1 hs) (hm.2 s' hs)⟩

/-- The same for an invariant that speaks of the events so far. -/
theorem exec_inv_events {I : List ε → σ → Prop}
    (hstep : ∀ es s e s', I es s → C s e → step s e = some s' → I (es ++ [e]) s') {s t : σ}
    {es : List ε} (h₀ : I [] s) (hm : Meets step C s es) (hr : exec step s es = some t) : I es t := by
  suffices h : ∀ fs s, I fs s → Meets step C s es → exec step s es = some t → I (fs ++ es) t from
    h [] s h₀ hm hr
  clear h₀ hm hr
  induction es with
  | nil =>
    rintro fs s hi - hr
    cases hr
    rwa [List.append_nil]
  | cons e es ih =>
    intro fs s hi hm hr
    obtain ⟨u, hu, hr⟩ := exec_cons_eq_some.mp hr
    rw [List.append_cons]
    exact ih _ u (hstep _ _ _ _ hi hm.1 hu) (hm.2 u hu) hr

/-- The same for an invariant that every step keeps. -/
theorem exec_inv' {I : σ → Prop} (hstep : ∀ s e s', I s → step s e = some s' → I s')
    {s t : σ} {es : List ε} (h₀ : I s) (hr : exec step s es = some t) : I t :=
  exec_inv (C := fun _ _ => True) (fun s e s' hI _ h => hstep s e s' hI h) h₀ (meets_true _ _) hr

/-- **The exact condition of an invariant.** If a step under `D` keeps `I`, and
from a state in which `M` holds too it keeps `M` exactly when its condition is
met, then a run under `D` meets the condition at every step exactly when `M`
holds in every state of the run. -/
theorem meets_iff {I M : σ → Prop} {D : σ → ε → Prop}
    (hI : ∀ s e s', I s → D s e → step s e = some s' → I s')
    (hM : ∀ s e s', I s → M s → D s e → step s e = some s' → (M s' ↔ C s e))
    {s t : σ} {es : List ε} (hi : I s) (hm : M s) (hD : Meets step D s es)
    (hr : exec step s es = some t) :
    Meets step C s es ↔ ∀ fs gs u, es = fs ++ gs → exec step s fs = some u → M u := by
  induction es generalizing s with
  | nil =>
    refine ⟨fun _ fs gs u he hu => ?_, fun _ => trivial⟩
    obtain ⟨rfl, rfl⟩ := List.append_eq_nil_iff.mp he.symm
    cases hu
    exact hm
  | cons e es ih =>
    obtain ⟨v, hv, hr⟩ := exec_cons_eq_some.mp hr
    constructor
    · rintro ⟨hc, hrest⟩ fs gs u he hu
      cases fs with
      | nil => cases hu; exact hm
      | cons f fs =>
        rw [List.cons_append, List.cons.injEq] at he
        obtain ⟨rfl, rfl⟩ := he
        obtain ⟨w, hw, hu⟩ := exec_cons_eq_some.mp hu
        cases hv.symm.trans hw
        have hmv := (hM _ _ _ hi hm hD.1 hv).mpr hc
        exact (ih (hI _ _ _ hi hD.1 hv) hmv (hD.2 v hv) hr).mp (hrest v hv) fs gs u rfl hu
    · intro hall
      have hmv : M v := hall [e] es v rfl (exec_cons_eq_some.mpr ⟨v, hv, rfl⟩)
      refine ⟨(hM _ _ _ hi hm hD.1 hv).mp hmv, fun w hw => ?_⟩
      cases hv.symm.trans hw
      refine (ih (hI _ _ _ hi hD.1 hv) hmv (hD.2 v hv) hr).mpr fun fs gs u he hu => ?_
      exact hall (e :: fs) gs u (by rw [he]; rfl) (exec_cons_eq_some.mpr ⟨v, hv, hu⟩)

/-- The same where the invariant is stronger than `M`: a step under the condition keeps it, and another breaks `M`. -/
theorem meets_iff_of_break {I M : σ → Prop} {D : σ → ε → Prop} (hI : ∀ s, I s → M s)
    (hC : ∀ s e s', I s → D s e → C s e → step s e = some s' → I s')
    (hbreak : ∀ s e s', I s → D s e → ¬ C s e → step s e = some s' → ¬ M s') {s t : σ} {es : List ε} (hi : I s)
    (hD : Meets step D s es) (hr : exec step s es = some t) :
    Meets step C s es ↔ ∀ fs gs u, es = fs ++ gs → exec step s fs = some u → M u := by
  constructor
  · rintro hm fs gs u rfl hu
    refine hI u (exec_inv (C := fun s e => D s e ∧ C s e) (fun s e s' hi h => hC s e s' hi h.1 h.2) hi ?_ hu)
    exact (hD.and hm).of_append
  · induction es generalizing s with
    | nil => exact fun _ => trivial
    | cons e es ih =>
      intro hall
      obtain ⟨v, hv, hr⟩ := exec_cons_eq_some.mp hr
      have hc : C s e := by
        by_contra hc
        exact hbreak s e v hi hD.1 hc hv (hall [e] es v rfl (exec_cons_eq_some.mpr ⟨v, hv, rfl⟩))
      refine ⟨hc, fun w hw => ?_⟩
      cases hv.symm.trans hw
      refine ih (hC s e v hi hD.1 hc hv) (hD.2 v hv) hr fun fs gs u he hu => ?_
      exact hall (e :: fs) gs u (by rw [he]; rfl) (exec_cons_eq_some.mpr ⟨v, hv, hu⟩)

/-- What holds in every state of a run, looked up one start of the run at a time. -/
theorem forall_of_take {M : σ → Prop} {s : σ} {es : List ε}
    (h : ∀ n ≤ es.length, ∀ u ∈ exec step s (es.take n), M u) :
    ∀ fs gs u, es = fs ++ gs → exec step s fs = some u → M u := by
  rintro fs gs u rfl hu
  refine h fs.length (by simp) u ?_
  rwa [List.take_left]

/-- What every step keeps the loss of holds at the start if it holds at the end. -/
theorem exec_back {I M : σ → Prop} (hI : ∀ s e s', I s → step s e = some s' → I s')
    (hback : ∀ s e s', I s → step s e = some s' → M s' → M s) {s t : σ} {es : List ε} (hi : I s)
    (hr : exec step s es = some t) (ht : M t) : M s := by
  induction es generalizing s with
  | nil => cases hr; exact ht
  | cons e es ih =>
    obtain ⟨v, hv, hr⟩ := exec_cons_eq_some.mp hr
    exact hback _ _ _ hi hv (ih (hI _ _ _ hi hv) hr)

/-- The exact condition of an invariant that is not regained once it is lost:
the end of the run tells. -/
theorem meets_iff_end {I M : σ → Prop} (hI : ∀ s e s', I s → step s e = some s' → I s')
    (hM : ∀ s e s', I s → M s → step s e = some s' → (M s' ↔ C s e))
    (hback : ∀ s e s', I s → step s e = some s' → M s' → M s) {s t : σ} {es : List ε} (hi : I s)
    (hm : M s) (hr : exec step s es = some t) : Meets step C s es ↔ M t := by
  rw [meets_iff (D := fun _ _ => True) (fun s e s' h _ => hI s e s' h)
    (fun s e s' h hm _ => hM s e s' h hm) hi hm (meets_true s es) hr]
  constructor
  · exact fun h => h es [] t (List.append_nil es).symm hr
  · rintro ht fs gs u rfl hu
    rw [exec_append, hu] at hr
    exact exec_back hI hback (exec_inv' hI hi hu) hr ht

/-- **The condition in another system.** Where the states of two systems are
related, the conditions agree, and under them the steps lead to related states
or neither can be taken: then the runs of the one meet its condition exactly
when those of the other meet theirs. -/
theorem meets_sim {τ : Type*} {g : τ → ε → Option τ} {D : τ → ε → Prop} {R : σ → τ → Prop}
    (hCD : ∀ s t e, R s t → (C s e ↔ D t e))
    (hstep : ∀ s t e, R s t → D t e → Option.Rel R (step s e) (g t e)) {s : σ} {t : τ} {es : List ε}
    (h : R s t) : Meets step C s es ↔ Meets g D t es := by
  induction es generalizing s t with
  | nil => exact Iff.rfl
  | cons e es ih =>
    rw [meets_cons, meets_cons, hCD s t e h]
    refine and_congr_right fun hD => ?_
    have hrel := hstep s t e h hD
    generalize step s e = s', g t e = t' at hrel
    cases hrel with
    | none => simp only [reduceCtorEq, false_implies, implies_true]
    | some h' => simp only [Option.some.injEq, forall_eq', ih h']

end Meets

end DShow.Run
