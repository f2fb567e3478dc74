import Mathlib.Data.List.Chain

/-!
# Two-character escapes

A text is escaped by writing a pair of characters for one character, and read back by replacing
every occurrence of the pair. It comes back whole exactly when the pair does not occur in it, and
what is read back never has the pair.
-/
namespace Escapes

variable {α : Type} {a b b' c x : α} {t : List α}

/-- The pair does not occur. -/
def PairFree (a b : α) (t : List α) : Prop := t.IsChain fun x y => ¬ (x = a ∧ y = b)

theorem pairFree_cons : PairFree a b (x :: t) ↔
    (∀ y ∈ t.head?, ¬ (x = a ∧ y = b)) ∧ PairFree a b t := by
  cases t with
  | nil => simp [PairFree]
  | cons y t => simp [PairFree]

variable [DecidableEq α]

instance (a b : α) (t : List α) : Decidable (PairFree a b t) :=
  inferInstanceAs (Decidable (t.IsChain _))

/-- Every occurrence of the pair, from the left, becomes `c`. -/
def replacePair (a b c : α) : List α → List α
  | x :: y :: rest =>
    if x = a ∧ y = b then c :: replacePair a b c rest else x :: replacePair a b c (y :: rest)
  | rest => rest

/-- The pair is written for every `c`. -/
def expand (a b c : α) : List α → List α
  | [] => []
  | x :: t => if x = c then a :: b :: expand a b c t else x :: expand a b c t

theorem head_expand {y : α} (h : y ∈ (expand a b c t).head?) : y = a ∨ y ∈ t.head? := by
  cases t with
  | nil => cases h
  | cons x t =>
    simp only [expand] at h
    split at h <;> simp_all

theorem head_replacePair {y : α} (h : y ∈ (replacePair a b c t).head?) :
    y = c ∨ y ∈ t.head? := by
  cases t with
  | nil => exact Or.inr h
  | cons x t =>
    cases t with
    | nil => exact Or.inr h
    | cons z t =>
      simp only [replacePair] at h
      split at h <;> simp_all

theorem replacePair_ne_nil (h : t ≠ []) : replacePair a b c t ≠ [] := by
  match t, h with
  | [x], _ => exact List.cons_ne_nil x _
  | x :: y :: rest, _ =>
    rw [replacePair]
    split <;> exact List.cons_ne_nil _ _

theorem mem_expand {y : α} (h : y ∈ expand a b c t) : y = a ∨ y = b ∨ y ≠ c ∧ y ∈ t := by
  induction t with
  | nil => cases h
  | cons x t ih =>
    simp only [expand] at h
    split at h
    · simp only [List.mem_cons] at h ⊢
      tauto
    · simp only [List.mem_cons] at h ⊢
      rcases h with rfl | h
      · tauto
      · tauto

/-- A character that begins no pair stays. -/
theorem replacePair_cons (h : ∀ y ∈ t.head?, ¬ (x = a ∧ y = b)) :
    replacePair a b c (x :: t) = x :: replacePair a b c t := by
  cases t with
  | nil => rfl
  | cons y t => rw [replacePair, if_neg (h y rfl)]

/-- What was written without the pair is read back. -/
theorem replacePair_expand (hab : a ≠ b) (h : PairFree a b t) :
    replacePair a b c (expand a b c t) = t := by
  induction t with
  | nil => rfl
  | cons x t ih =>
    obtain ⟨hhead, hrest⟩ := pairFree_cons.mp h
    simp only [expand]
    split
    · rename_i hx
      rw [replacePair, if_pos ⟨rfl, rfl⟩, ih hrest, hx]
    · rw [replacePair_cons, ih hrest]
      rintro y hy ⟨rfl, rfl⟩
      rcases head_expand hy with heq | hmem
      · exact hab heq.symm
      · exact hhead y hmem ⟨rfl, rfl⟩

/-- Writing one pair brings in no other. -/
theorem pairFree_expand (hab : a ≠ b) (hb : b' ≠ b) (ha : b' ≠ a) (h : PairFree a b' t) :
    PairFree a b' (expand a b c t) := by
  induction t with
  | nil => exact h
  | cons x t ih =>
    obtain ⟨hhead, hrest⟩ := pairFree_cons.mp h
    simp only [expand]
    split
    · refine pairFree_cons.mpr ⟨?_, pairFree_cons.mpr ⟨?_, ih hrest⟩⟩
      · rintro y hy ⟨-, rfl⟩
        exact hb (Option.some.inj hy).symm
      · rintro y - ⟨heq, -⟩
        exact hab heq.symm
    · refine pairFree_cons.mpr ⟨?_, ih hrest⟩
      rintro y hy ⟨rfl, rfl⟩
      rcases head_expand hy with heq | hmem
      · exact ha heq
      · exact hhead y hmem ⟨rfl, rfl⟩

/-- Reading back brings in no pair. -/
theorem pairFree_replacePair (ha : c ≠ a) (hb : c ≠ b) : PairFree a b (replacePair a b c t) := by
  fun_induction replacePair a b c t with
  | case1 x y rest hpair ih =>
    refine pairFree_cons.mpr ⟨?_, ih⟩
    rintro y - ⟨heq, -⟩
    exact ha heq
  | case2 x y rest hnot ih =>
    refine pairFree_cons.mpr ⟨?_, ih⟩
    rintro z hz ⟨rfl, rfl⟩
    rcases head_replacePair hz with heq | hmem
    · exact hb heq.symm
    · exact hnot ⟨rfl, (Option.some.inj hmem)⟩
  | case3 rest hshort =>
    match rest, hshort with
    | [], _ => exact .nil
    | [x], _ => exact .singleton x
    | x :: y :: rest, hshort => exact absurd rfl (hshort x y rest)

/-- Reading one pair back brings in no other. -/
theorem pairFree_replacePair_other (ha : c ≠ a) (hb : c ≠ b') (h : PairFree a b' t) :
    PairFree a b' (replacePair a b c t) := by
  fun_induction replacePair a b c t with
  | case1 x y rest hpair ih =>
    have hrest := (pairFree_cons.mp (pairFree_cons.mp h).2).2
    refine pairFree_cons.mpr ⟨?_, ih hrest⟩
    rintro y - ⟨heq, -⟩
    exact ha heq
  | case2 x y rest hnot ih =>
    obtain ⟨hhead, hrest⟩ := pairFree_cons.mp h
    refine pairFree_cons.mpr ⟨?_, ih hrest⟩
    rintro z hz ⟨rfl, rfl⟩
    rcases head_replacePair hz with heq | hmem
    · exact hb heq.symm
    · exact hhead z hmem ⟨rfl, rfl⟩
  | case3 rest => exact h

end Escapes
