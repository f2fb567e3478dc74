import Mathlib.Algebra.GroupWithZero.Nat

/-!
# Pools of threads

A pool is the list of the local states of its threads. A weight counts something in each of them
(a lock held, a unit owed), and its total over the pool changes with one thread at a time.
-/
namespace Pool

variable {σ β : Type}

def total (w : σ → Nat) (pool : List σ) : Nat := (pool.map w).sum

@[simp] theorem total_nil (w : σ → Nat) : total w [] = 0 := rfl

theorem total_append (w : σ → Nat) (pool : List σ) (x : σ) :
    total w (pool ++ [x]) = total w pool + w x := by
  simp [total]

/-- One thread moves from `x` to `y`. -/
theorem total_set (w : σ → Nat) {pool : List σ} {i : Nat} {x : σ} (y : σ)
    (hi : pool[i]? = some x) : total w (pool.set i y) + w x = total w pool + w y := by
  induction pool generalizing i with
  | nil => cases hi
  | cons z pool ih =>
    cases i with
    | zero =>
      obtain rfl := Option.some.inj hi
      simp only [total, List.set_cons_zero, List.map_cons, List.sum_cons]
      omega
    | succ i =>
      have hrest := ih hi
      simp only [total, List.set_cons_succ, List.map_cons, List.sum_cons] at hrest ⊢
      omega

theorem le_total (w : σ → Nat) {pool : List σ} {i : Nat} {x : σ} (hi : pool[i]? = some x) :
    w x ≤ total w pool := by
  induction pool generalizing i with
  | nil => cases hi
  | cons z pool ih =>
    cases i with
    | zero =>
      obtain rfl := Option.some.inj hi
      simp [total]
    | succ i =>
      have hrest := ih hi
      simp only [total, List.map_cons, List.sum_cons] at hrest ⊢
      omega

/-- A thread that comes to carry a value adds it to the values carried. -/
theorem filterMap_set (f : σ → Option β) {pool : List σ} {i : Nat} {x y : σ} {z : β}
    (hi : pool[i]? = some x) (hx : f x = none) (hy : f y = some z) :
    ((pool.set i y).filterMap f).Perm (z :: pool.filterMap f) := by
  induction pool generalizing i with
  | nil => cases hi
  | cons v pool ih =>
    cases i with
    | zero =>
      obtain rfl := Option.some.inj hi
      simp [hx, hy]
    | succ i =>
      simp only [List.set_cons_succ]
      cases hv : f v with
      | none => simpa [hv] using ih hi
      | some b => simpa [hv] using ((ih hi).cons b).trans (List.Perm.swap z b _)

theorem filterMap_set_same (f : σ → Option β) {pool : List σ} {i : Nat} {x y : σ}
    (hi : pool[i]? = some x) (hxy : f y = f x) :
    (pool.set i y).filterMap f = pool.filterMap f := by
  induction pool generalizing i with
  | nil => cases hi
  | cons v pool ih =>
    cases i with
    | zero =>
      obtain rfl := Option.some.inj hi
      simp [List.filterMap_cons, hxy]
    | succ i => simp [List.filterMap_cons, ih hi]

/-- What one thread carries, beside what the others do. -/
theorem filterMap_split (f : σ → Option β) {pool : List σ} {i : Nat} {x : σ}
    (hi : pool[i]? = some x) : ∃ others, (pool.filterMap f).Perm ((f x).toList ++ others) ∧
      ∀ y, ((pool.set i y).filterMap f).Perm ((f y).toList ++ others) := by
  induction pool generalizing i with
  | nil => cases hi
  | cons v pool ih =>
    cases i with
    | zero =>
      obtain rfl := Option.some.inj hi
      refine ⟨pool.filterMap f, ?_, fun y => ?_⟩
      · cases hv : f v <;> simp [hv]
      · cases hy : f y <;> simp [hy]
    | succ i =>
      obtain ⟨others, hpool, hset⟩ := ih hi
      refine ⟨(f v).toList ++ others, ?_, fun y => ?_⟩
      · cases hv : f v with
        | none => simpa [hv] using hpool
        | some b => simpa [hv] using (hpool.cons b).trans List.perm_middle.symm
      · cases hv : f v with
        | none => simpa [hv] using hset y
        | some b => simpa [hv] using ((hset y).cons b).trans List.perm_middle.symm

theorem total_perm (w : σ → Nat) {pool pool' : List σ} (h : pool.Perm pool') :
    total w pool = total w pool' := (h.map w).sum_nat

end Pool
