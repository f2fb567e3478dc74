import Mathlib.Data.List.Basic

/-!
# Lists with separators

A list is cut at the first occurrence of a separator if nothing before it is the separator, and
at the last one if nothing behind it is. Lines that each end in their only separator can be told
apart in a concatenation of any length.
-/
namespace Separated

variable {α β : Type} {sep : α}

/-- Cut at the first separator. -/
theorem first_inj {x y s t : List α} (hx : sep ∉ x) (hy : sep ∉ y)
    (h : x ++ [sep] ++ s = y ++ [sep] ++ t) : x = y ∧ s = t := by
  simp only [List.append_assoc, List.singleton_append] at h
  induction x generalizing y with
  | nil =>
    cases y with
    | nil => simpa using h
    | cons b y =>
      obtain rfl : sep = b := (List.cons.inj h).1
      exact absurd List.mem_cons_self hy
  | cons a x ih =>
    cases y with
    | nil =>
      obtain rfl : a = sep := (List.cons.inj h).1
      exact absurd List.mem_cons_self hx
    | cons b y =>
      obtain ⟨rfl, hrest⟩ := List.cons.inj h
      obtain ⟨rfl, rfl⟩ :=
        ih (List.not_mem_of_not_mem_cons hx) (List.not_mem_of_not_mem_cons hy) hrest
      exact ⟨rfl, rfl⟩

/-- Cut at the last separator. -/
theorem last_inj {x y s t : List α} (hs : sep ∉ s) (ht : sep ∉ t)
    (h : x ++ [sep] ++ s = y ++ [sep] ++ t) : x = y ∧ s = t := by
  have hback : s.reverse ++ [sep] ++ x.reverse = t.reverse ++ [sep] ++ y.reverse := by
    simpa using congrArg List.reverse h
  have hcut := first_inj (by simpa using hs) (by simpa using ht) hback
  exact ⟨List.reverse_injective hcut.2, List.reverse_injective hcut.1⟩

/-- A separator in one list and not in the other tells them apart. -/
theorem first_ne_nil {x s t : List α} (hne : x ≠ []) (hx : sep ∉ x) :
    x ++ s ≠ sep :: t := by
  intro h
  cases x with
  | nil => exact hne rfl
  | cons a x =>
    obtain rfl : a = sep := (List.cons.inj h).1
    exact hx List.mem_cons_self

/-- Two joined parts can be cut at another place if and only if the separator is inside one of
them: behind the start of the first or before the end of the second. A part is not empty, and its
elements are of a kind that the separator is of too. -/
theorem cut_unique_iff {p : α → Prop} (hsep : p sep) {x y : List α} (hx : x ≠ [])
    (hxp : ∀ a ∈ x, p a) (hy : y ≠ []) (hyp : ∀ a ∈ y, p a) :
    (∀ s t, s ≠ [] → (∀ a ∈ s, p a) → t ≠ [] → (∀ a ∈ t, p a) →
      s ++ [sep] ++ t = x ++ [sep] ++ y → s = x ∧ t = y) ↔ sep ∉ x.tail ∧ sep ∉ y.dropLast := by
  constructor
  · intro hunique
    constructor
    · intro hmem
      obtain ⟨a, x', rfl⟩ := List.exists_cons_of_ne_nil hx
      obtain ⟨u, v, rfl⟩ := List.append_of_mem hmem
      have hcut := hunique (a :: u) (v ++ sep :: y) (by simp) (by grind) (by simp) (by grind)
        (by simp)
      simpa using congrArg List.length hcut.1
    · intro hmem
      obtain ⟨y', b, rfl⟩ : ∃ y' b, y = y' ++ [b] :=
        ⟨_, _, (List.dropLast_append_getLast hy).symm⟩
      rw [List.dropLast_concat] at hmem
      obtain ⟨u, v, rfl⟩ := List.append_of_mem hmem
      have hcut := hunique (x ++ sep :: u) (v ++ [b]) (by simp) (by grind) (by simp) (by grind)
        (by simp)
      simpa using congrArg List.length hcut.1
  · rintro ⟨hnx, hny⟩ s t hs - ht - h
    simp only [List.append_assoc, List.singleton_append] at h
    rcases List.append_eq_append_iff.mp h with ⟨w, rfl, hw⟩ | ⟨w, rfl, hw⟩
    · cases w with
      | nil => simpa using hw
      | cons a w =>
        obtain rfl : sep = a := (List.cons.inj hw).1
        obtain ⟨b, s', rfl⟩ := List.exists_cons_of_ne_nil hs
        exact absurd (by simp) hnx
    · cases w with
      | nil => simpa [eq_comm] using hw
      | cons a w =>
        obtain ⟨rfl, hy'⟩ := List.cons.inj hw
        have hinside : sep ∈ y.dropLast := by
          rw [hy', List.append_eq, List.dropLast_append_of_ne_nil (by simp),
            List.dropLast_cons_of_ne_nil ht]
          simp
        exact absurd hinside hny

/-- Lines that each end in their only separator. A text of such lines tells a list of them apart
from all others if and only if each of its lines tells its own datum. -/
theorem lines_unique_iff {line : β → List α} {P : β → Prop}
    (hline : ∀ b, P b → ∃ front, line b = front ++ [sep] ∧ sep ∉ front) {xs : List β}
    (hxs : ∀ b ∈ xs, P b) :
    (∀ ys : List β, (∀ c ∈ ys, P c) → ys.flatMap line = xs.flatMap line → ys = xs) ↔
      ∀ b ∈ xs, ∀ c, P c → line c = line b → c = b := by
  have hnonempty : ∀ b, P b → ∀ bs : List β, (b :: bs).flatMap line ≠ [] := by
    intro b hb bs hnil
    obtain ⟨front, hfront, -⟩ := hline b hb
    simp [hfront] at hnil
  constructor
  · intro hunique b hb c hc hcb
    obtain ⟨u, v, rfl⟩ := List.append_of_mem hb
    have hsame := hunique (u ++ c :: v) (by grind) (by simp [hcb])
    simpa using hsame
  · intro hinj ys hys h
    induction xs generalizing ys with
    | nil =>
      cases ys with
      | nil => rfl
      | cons c ys => exact absurd h (hnonempty c (hys c List.mem_cons_self) ys)
    | cons b xs ih =>
      have hb := hxs b List.mem_cons_self
      cases ys with
      | nil => exact absurd h.symm (hnonempty b hb xs)
      | cons c ys =>
        have hc := hys c List.mem_cons_self
        obtain ⟨front, hfront, hsep⟩ := hline b hb
        obtain ⟨front', hfront', hsep'⟩ := hline c hc
        simp only [List.flatMap_cons, hfront, hfront'] at h
        obtain ⟨rfl, hrest⟩ := first_inj hsep' hsep h
        obtain rfl := hinj b List.mem_cons_self c hc (hfront'.trans hfront.symm)
        have hmore := ih (fun d hd => hxs d (List.mem_cons_of_mem _ hd))
          (fun d hd => hinj d (List.mem_cons_of_mem _ hd)) ys
          (fun d hd => hys d (List.mem_cons_of_mem _ hd)) hrest
        rw [hmore]

/-- Lines that can all be told apart one by one can be told apart in a whole text. -/
theorem lines_inj {line : β → List α} {P : β → Prop}
    (hline : ∀ b, P b → ∃ front, line b = front ++ [sep] ∧ sep ∉ front)
    (hinj : ∀ b c, P b → P c → line b = line c → b = c) {xs ys : List β}
    (hxs : ∀ b ∈ xs, P b) (hys : ∀ c ∈ ys, P c) (h : xs.flatMap line = ys.flatMap line) :
    xs = ys :=
  (lines_unique_iff hline hys).mpr (fun b hb c hc => hinj c b hc (hys b hb)) xs hxs h

end Separated
