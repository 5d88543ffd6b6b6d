/-
  Icarius.Lib.Run

  Runs of a system whose step function may refuse an event, and the one
  induction every safety result of a development goes through: a property that
  holds initially and is kept by each admitted step holds in every state
  reached.

  `ok s e` says which events are admitted in which state.  A result about all
  runs takes `ok` to be `fun _ _ => True`; a result about the runs whose steps
  all meet a condition takes `ok` to be that condition.
-/

namespace Icarius.Lib

universe u v

variable {σ : Type u} {ε : Type v}

/-- `Runs step ok s₀ es s`: from `s₀` the events `es`, each admitted by `ok` in
    the state it meets, lead to `s`. -/
inductive Runs (step : σ → ε → Option σ) (ok : σ → ε → Prop) (s₀ : σ) :
    List ε → σ → Prop
  | nil : Runs step ok s₀ [] s₀
  | snoc {es : List ε} {s s' : σ} {e : ε} (hrun : Runs step ok s₀ es s)
      (hok : ok s e) (hstep : step s e = some s') : Runs step ok s₀ (es ++ [e]) s'

/-- The condition of an unconditional run. -/
def always (_ : σ) (_ : ε) : Prop := True

instance (s : σ) (e : ε) : Decidable (always s e) := isTrue trivial

/-- Execute a list of events; `none` when one of them is not admitted or has no
    successor. -/
def exec (step : σ → ε → Option σ) (ok : σ → ε → Prop) [∀ s e, Decidable (ok s e)] :
    σ → List ε → Option σ
  | s, [] => some s
  | s, e :: es => if ok s e then (step s e).bind fun s' => exec step ok s' es else none

section Rules

variable {step : σ → ε → Option σ} {ok : σ → ε → Prop} {s₀ s s' : σ} {es es' : List ε}

/-- The invariant rule. -/
theorem Runs.invariant (Inv : σ → Prop) (hrun : Runs step ok s₀ es s) (hinit : Inv s₀)
    (hpres : ∀ s e s', Inv s → ok s e → step s e = some s' → Inv s') : Inv s := by
  induction hrun with
  | nil => exact hinit
  | snoc _ hok hstep ih => exact hpres _ _ _ ih hok hstep

/-- Two runs in a row are a run. -/
theorem Runs.append (h₁ : Runs step ok s₀ es s) (h₂ : Runs step ok s es' s') :
    Runs step ok s₀ (es ++ es') s' := by
  induction h₂ with
  | nil => simpa using h₁
  | snoc _ hok hstep ih =>
      rw [← List.append_assoc]
      exact ih.snoc hok hstep

/-- A run of two lists of events, up to the end of the first one. -/
theorem Runs.of_append (hrun : Runs step ok s₀ (es ++ es') s) :
    ∃ s₁, Runs step ok s₀ es s₁ ∧ Runs step ok s₁ es' s := by
  generalize hall : es ++ es' = all at hrun
  induction hrun generalizing es' with
  | nil =>
      obtain ⟨rfl, rfl⟩ := List.append_eq_nil_iff.mp hall
      exact ⟨s₀, .nil, .nil⟩
  | @snoc es₁ s₁ s₂ e hrun hok hstep ih =>
      rcases List.eq_nil_or_concat es' with rfl | ⟨init, last, rfl⟩
      · rw [List.append_nil] at hall
        exact ⟨s₂, hall ▸ hrun.snoc hok hstep, .nil⟩
      · rw [List.concat_eq_append] at hall ⊢
        rw [← List.append_assoc] at hall
        obtain ⟨hinit, hlast⟩ := List.append_inj' hall rfl
        obtain rfl := (List.cons.inj hlast).1
        obtain ⟨s', hfirst, hlater⟩ := ih hinit
        exact ⟨s', hfirst, hlater.snoc hok hstep⟩

/-- Without an event nothing changes. -/
theorem Runs.eq_of_nil (hrun : Runs step ok s₀ [] s) : s = s₀ := by
  generalize hnil : ([] : List ε) = es at hrun
  cases hrun with
  | nil => rfl
  | @snoc es _ _ e _ _ _ =>
      exact absurd hnil.symm (List.append_ne_nil_of_right_ne_nil es (List.cons_ne_nil e []))

/-- The first step of a run, and the rest of it. -/
theorem Runs.of_cons {e : ε} (hrun : Runs step ok s₀ (e :: es) s) :
    ok s₀ e ∧ ∃ s₁, step s₀ e = some s₁ ∧ Runs step ok s₁ es s := by
  generalize hall : e :: es = all at hrun
  induction hrun generalizing es with
  | nil => cases hall
  | @snoc es' s₁ s₂ e' hrun hok hstep ih =>
      cases es' with
      | nil =>
          -- the last step is the first one
          obtain ⟨rfl, rfl⟩ := List.cons.inj hall
          rw [hrun.eq_of_nil] at hok hstep
          exact ⟨hok, s₂, hstep, .nil⟩
      | cons e'' es' =>
          obtain ⟨rfl, rfl⟩ := List.cons.inj hall
          obtain ⟨hfirst, s', hstep', hrest⟩ := ih rfl
          exact ⟨hfirst, s', hstep', hrest.snoc hok hstep⟩

/-- A run under a stronger condition is a run under a weaker one. -/
theorem Runs.mono {ok' : σ → ε → Prop} (hrun : Runs step ok s₀ es s)
    (himp : ∀ s e, ok s e → ok' s e) : Runs step ok' s₀ es s := by
  induction hrun with
  | nil => exact .nil
  | snoc _ hok hstep ih => exact ih.snoc (himp _ _ hok) hstep

/-- One admitted step in front of a run. -/
theorem Runs.cons {e : ε} (hok : ok s₀ e) (hstep : step s₀ e = some s)
    (hrun : Runs step ok s es s') : Runs step ok s₀ (e :: es) s' := by
  have h₁ : Runs step ok s₀ ([] ++ [e]) s := Runs.nil.snoc hok hstep
  exact h₁.append hrun

/-- Executing events is a run. -/
theorem runs_of_exec [∀ s e, Decidable (ok s e)] (h : exec step ok s₀ es = some s) :
    Runs step ok s₀ es s := by
  induction es generalizing s₀ with
  | nil =>
      simp only [exec, Option.some.injEq] at h
      exact h ▸ .nil
  | cons e es ih =>
      unfold exec at h
      split at h
      · rename_i hok
        obtain ⟨s₁, hstep, hrest⟩ := Option.bind_eq_some_iff.mp h
        exact Runs.cons hok hstep (ih hrest)
      · cases h

end Rules

/-! ## One step -/

theorem ok_bind {α β : Type u} {error : Type v} (a : α) (f : α → Except error β) :
    ((Except.ok a : Except error α) >>= f) = f a := rfl

/-- A computation that returns has come through its first part. -/
theorem exists_of_bind {α β : Type u} {error : Type v} {x : Except error α}
    {f : α → Except error β} {b : β} (h : (x >>= f) = .ok b) : ∃ a, x = .ok a ∧ f a = .ok b := by
  cases x with
  | error e => cases h
  | ok a => exact ⟨a, rfl, h⟩

end Icarius.Lib
