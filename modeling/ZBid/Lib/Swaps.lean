import ZBid.Lib.Runs

/-!
# Swapping two actions

An action reads some part of the state, its view. If from every state with the same view it is
either never defined, or always makes the same change and shows the same events, then two actions
commute as soon as each leaves the other's view alone and their changes commute.
-/
namespace Runs

variable {σ α ε μ : Type}

/-- The action is undefined in every state of the view. -/
def Blocked (step : Step σ α ε) (view : σ → Prop) (x : α) : Prop := ∀ t, view t → step t x = none

/-- The action makes one change in every state of the view, and shows the same. -/
def Acts (step : Step σ α ε) (shown : ε → Option μ) (view : σ → Prop) (x : α) (change : σ → σ)
    (ms : List μ) : Prop :=
  ∀ t, view t → ∃ out, step t x = some (change t, out) ∧ out.filterMap shown = ms

/-- Both are undefined, or both end in the same state and show the same in some order. -/
def Agree (shown : ε → Option μ) : Option (σ × List ε) → Option (σ × List ε) → Prop
  | none, none => True
  | some (s, out), some (s', out') =>
    s = s' ∧ (out.filterMap shown).Perm (out'.filterMap shown)
  | _, _ => False

variable {step : Step σ α ε} {ok : σ → α → Prop} [∀ s a, Decidable (ok s a)] {shown : ε → Option μ}

theorem exec_pair {s : σ} {x y : α} (hok : ∀ t, ok t x ∧ ok t y) :
    exec step ok s [x, y] = (step s x).bind fun (t, out) =>
      (step t y).map fun (u, out') => (u, out ++ out') := by
  simp only [exec, (hok _).1, (hok _).2, ↓reduceIte]
  cases step s x with
  | none => rfl
  | some first =>
    obtain ⟨t, out⟩ := first
    cases hy : step t y with
    | none => simp [hy]
    | some second => simp [hy]

/-- Two actions that leave each other's views alone can be swapped. -/
theorem exec_swap {s : σ} {x y : α} {view view' : σ → Prop} {Change Change' : (σ → σ) → Prop}
    (hok : ∀ t, ok t x ∧ ok t y) (hs : view s) (hs' : view' s)
    (hx : Blocked step view x ∨ ∃ d ms, Change d ∧ Acts step shown view x d ms)
    (hy : Blocked step view' y ∨ ∃ d ms, Change' d ∧ Acts step shown view' y d ms)
    (keep : ∀ d out, Change d → step s x = some (d s, out) → view' (d s))
    (keep' : ∀ d out, Change' d → step s y = some (d s, out) → view (d s))
    (comm : ∀ d d', Change d → Change' d' → d' (d s) = d (d' s)) :
    Agree shown (exec step ok s [x, y]) (exec step ok s [y, x]) := by
  rw [exec_pair hok, exec_pair fun t => (hok t).symm]
  rcases hx with hx | ⟨d, ms, hd, hx⟩
  · rcases hy with hy | ⟨d', ms', hd', hy⟩
    · simp [hx s hs, hy s hs', Agree]
    · obtain ⟨out, hstep, -⟩ := hy s hs'
      simp [hx s hs, hstep, hx _ (keep' d' out hd' hstep), Agree]
  · obtain ⟨out, hstep, hout⟩ := hx s hs
    have hview := keep d out hd hstep
    rcases hy with hy | ⟨d', ms', hd', hy⟩
    · simp [hstep, hy _ hview, hy s hs', Agree]
    · obtain ⟨out', hstep', hout'⟩ := hy s hs'
      obtain ⟨after, hafter, hshown⟩ := hy _ hview
      obtain ⟨after', hafter', hshown'⟩ := hx _ (keep' d' out' hd' hstep')
      simp only [hstep, hstep', hafter, hafter', Option.bind_some, Option.map_some, Agree,
        List.filterMap_append, hout, hout', hshown, hshown']
      exact ⟨comm d d' hd hd', List.perm_append_comm⟩

end Runs
