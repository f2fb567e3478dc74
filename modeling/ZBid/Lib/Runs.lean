import Mathlib.Data.List.Basic

/-!
# Logged runs of a partial step function

A step takes a state and an action and either is undefined or yields the next state and the
events it logs. A run keeps the actions taken and the whole log, and every step of it meets a
condition `ok` on the state before it. Nothing here is about a particular system.
-/
namespace Runs

variable {σ τ α β ε : Type}

abbrev Step (σ α ε : Type) := σ → α → Option (σ × List ε)

theorem filterMap_concat {α β : Type} (f : α → Option β) (as : List α) (a : α) :
    (as ++ [a]).filterMap f = as.filterMap f ++ (f a).toList := by
  cases h : f a <;> simp [h]

/-- The runs from `s₀` all of whose steps meet `ok`, with their actions and their log. -/
inductive Run (step : Step σ α ε) (ok : σ → α → Prop) (s₀ : σ) : List α → List ε → σ → Prop where
  | start : Run step ok s₀ [] [] s₀
  | step {as tr s a s' out} : Run step ok s₀ as tr s → ok s a → step s a = some (s', out) →
      Run step ok s₀ (as ++ [a]) (tr ++ out) s'

variable {step : Step σ α ε} {ok ok' : σ → α → Prop} {s₀ s₁ s₂ : σ}

/-- What holds at the start and is kept by every step of a run holds at its end. -/
theorem Run.invariant {P : List α → List ε → σ → Prop} {as : List α} {tr : List ε} {s : σ}
    (run : Run step ok s₀ as tr s) (hstart : P [] [] s₀)
    (hstep : ∀ {as tr s a s' out}, Run step ok s₀ as tr s → P as tr s → ok s a →
      step s a = some (s', out) → P (as ++ [a]) (tr ++ out) s') : P as tr s := by
  induction run with
  | start => exact hstart
  | step hrun hok hs ih => exact hstep hrun ih hok hs

/-- An invariant of the state alone. -/
theorem Run.invariant_state {P : σ → Prop} {as : List α} {tr : List ε} {s : σ}
    (run : Run step ok s₀ as tr s) (hstart : P s₀)
    (hstep : ∀ {s a s' out}, P s → ok s a → step s a = some (s', out) → P s') : P s :=
  run.invariant (P := fun _ _ s => P s) hstart (fun _ h hok hs => hstep h hok hs)

/-- A run under a condition is a run under every weaker one. -/
theorem Run.mono (hweak : ∀ s a, ok s a → ok' s a) {as : List α} {tr : List ε} {s : σ}
    (run : Run step ok s₀ as tr s) : Run step ok' s₀ as tr s := by
  induction run with
  | start => exact .start
  | step _ hok hs ih => exact .step ih (hweak _ _ hok) hs

theorem Run.one {a : α} {s : σ} {out : List ε} (hok : ok s₀ a) (hs : step s₀ a = some (s, out)) :
    Run step ok s₀ [a] out s := by
  simpa using Run.step .start hok hs

/-- Concatenate two runs. -/
theorem Run.trans {as bs : List α} {tr tr' : List ε} (first : Run step ok s₀ as tr s₁)
    (second : Run step ok s₁ bs tr' s₂) : Run step ok s₀ (as ++ bs) (tr ++ tr') s₂ := by
  induction second with
  | start => simpa using first
  | step _ hok hs ih => simpa only [List.append_assoc] using Run.step ih hok hs

/-- The actions of a run determine its log and its end. -/
theorem Run.unique {as : List α} {tr tr' : List ε} {s s' : σ} (first : Run step ok s₀ as tr s)
    (second : Run step ok' s₀ as tr' s') : tr = tr' ∧ s = s' := by
  induction first generalizing tr' s' with
  | start =>
    generalize hbs : [] = bs at second
    cases second with
    | start => exact ⟨rfl, rfl⟩
    | step => simp at hbs
  | @step as tr s a t out _ _ hs ih =>
    generalize hbs : as ++ [a] = bs at second
    cases second with
    | start => simp at hbs
    | step hrun' _ hs' =>
      obtain ⟨rfl, ha⟩ := List.append_inj' hbs rfl
      obtain rfl := List.singleton_inj.mp ha
      obtain ⟨rfl, rfl⟩ := ih hrun'
      obtain ⟨rfl, rfl⟩ := Prod.mk.inj (Option.some.inj (hs.symm.trans hs'))
      exact ⟨rfl, rfl⟩

/-- Take the actions one after the other, checking the condition before each step. -/
def exec (step : Step σ α ε) (ok : σ → α → Prop) [∀ s a, Decidable (ok s a)] :
    σ → List α → Option (σ × List ε)
  | s, [] => some (s, [])
  | s, a :: as =>
    if ok s a then
      (step s a).bind fun (s', out) =>
        (exec step ok s' as).map fun (t, tr) => (t, out ++ tr)
    else none

/-- An execution that completes is a run. -/
theorem run_of_exec [∀ s a, Decidable (ok s a)] {as : List α} {tr : List ε} {s t : σ}
    (h : exec step ok s as = some (t, tr)) : Run step ok s as tr t := by
  induction as generalizing s t tr with
  | nil =>
    simp only [exec, Option.some.injEq, Prod.mk.injEq] at h
    obtain ⟨rfl, rfl⟩ := h
    exact .start
  | cons a as ih =>
    simp only [exec] at h
    split at h
    · rename_i hok
      obtain ⟨⟨s', out⟩, hs, h⟩ := Option.bind_eq_some_iff.mp h
      obtain ⟨⟨u, tr'⟩, hu, h⟩ := Option.map_eq_some_iff.mp h
      simp only [Prod.mk.injEq] at h
      obtain ⟨rfl, rfl⟩ := h
      exact (Run.one hok hs).trans (ih hu)
    · cases h

/-- The run behind an execution that is known to complete. -/
theorem run_of_isSome [∀ s a, Decidable (ok s a)] {as : List α} {s : σ}
    (h : (exec step ok s as).isSome) :
    Run step ok s as ((exec step ok s as).get h).2 ((exec step ok s as).get h).1 :=
  run_of_exec (Option.some_get h).symm

/-- Forward simulation: if every concrete step is answered by an abstract run with the same log,
then every concrete log is an abstract one. -/
theorem Run.simulate {astep : Step τ β ε} {aok : τ → β → Prop} {t₀ : τ} {R : List ε → σ → τ → Prop}
    {as : List α} {tr : List ε} {s : σ} (run : Run step ok s₀ as tr s) (hstart : R [] s₀ t₀)
    (hstep : ∀ {tr s t a s' out}, R tr s t → ok s a → step s a = some (s', out) →
      ∃ bs t', Run astep aok t bs out t' ∧ R (tr ++ out) s' t') :
    ∃ bs t, Run astep aok t₀ bs tr t ∧ R tr s t := by
  induction run with
  | start => exact ⟨[], t₀, .start, hstart⟩
  | step _ hok hs ih =>
    obtain ⟨bs, t, hrun, hR⟩ := ih
    obtain ⟨cs, t', hrun', hR'⟩ := hstep hR hok hs
    exact ⟨bs ++ cs, t', hrun.trans hrun', hR'⟩

/-- Refinement with stuttering: if every concrete step is answered by at most one abstract step,
on an input that the action alone determines, then the inputs of a run are an abstract run. -/
theorem Run.refines {δ : Type} {astep : Step τ β δ} {aok : τ → β → Prop} {t₀ : τ}
    {input : α → Option β} {R : List ε → σ → List δ → τ → Prop} {as : List α} {tr : List ε} {s : σ}
    (run : Run step ok s₀ as tr s) (hstart : R [] s₀ [] t₀)
    (hstep : ∀ {tr s ds t a s' out}, R tr s ds t → ok s a → step s a = some (s', out) →
      ∃ ds' t', Run astep aok t (input a).toList ds' t' ∧ R (tr ++ out) s' (ds ++ ds') t') :
    ∃ ds t, Run astep aok t₀ (as.filterMap input) ds t ∧ R tr s ds t := by
  induction run with
  | start => exact ⟨[], t₀, .start, hstart⟩
  | @step as tr s a s' out _ hok hs ih =>
    obtain ⟨ds, t, hrun, hR⟩ := ih
    obtain ⟨ds', t', hrun', hR'⟩ := hstep hR hok hs
    refine ⟨ds ++ ds', t', ?_, hR'⟩
    rw [filterMap_concat]
    exact hrun.trans hrun'

end Runs
