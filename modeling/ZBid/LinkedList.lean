import ZBid.Lib.CInt
import Mathlib.Data.List.Basic

/-!
# linkedlist.c

A `list_t` is its chain of nodes, head first, and the separate counter `length`. The operations
are partial: `none` stands for a dereference of NULL or an overflow of `length`, where C gives the
program no meaning. An element pointer that may be NULL is an `Option`.
-/
namespace ZBid

open CInt

structure LinkedList (α : Type) where
  nodes : List α
  length : Int
  deriving DecidableEq, Repr

variable {α : Type}

def createList : LinkedList α := ⟨[], 0⟩

/-- The counter agrees with the chain. -/
def LinkedList.WF (l : LinkedList α) : Prop := l.length = l.nodes.length

theorem createList_wf : (createList : LinkedList α).WF := rfl

/-- A NULL element is ignored; a list whose counter is 0 forgets its old chain. -/
def insertAtHead (l : LinkedList α) : Option α → Option (LinkedList α)
  | none => some l
  | some x => do
    let nodes := if l.length = 0 then [] else l.nodes
    let n ← incr l.length
    some ⟨x :: nodes, n⟩

/-- A counter other than 0 over an empty chain makes `current->next` dereference NULL. -/
def insertAtTail (l : LinkedList α) : Option α → Option (LinkedList α)
  | none => some l
  | some x =>
    if l.length = 0 then insertAtHead l (some x)
    else if l.nodes = [] then none
    else do
      let n ← incr l.length
      some ⟨l.nodes ++ [x], n⟩

/-- The loop of `removeByIndex`, at counter `i` and with the chain from `current` on. It runs
into NULL unless the counter meets the index before the chain ends. -/
def removeLoop (index : Int) : Int → List α → Option (α × List α)
  | _, [] => none
  | i, x :: xs =>
    if i = index then some (x, xs)
    else (removeLoop index (i + 1) xs).map fun (y, ys) => (y, x :: ys)

/-- Returns the removed element, or NULL when the index is at or past the length. -/
def removeByIndex (l : LinkedList α) (index : Int) : Option (Option α × LinkedList α) :=
  if l.length ≤ index then some (none, l)
  else if index = 0 then
    match l.nodes with
    | [] => none
    | x :: xs => some (some x, ⟨xs, l.length - 1⟩)
  else (removeLoop index 0 l.nodes).map fun (x, xs) => (some x, ⟨xs, l.length - 1⟩)

@[simp] theorem insertAtTail_null (l : LinkedList α) : insertAtTail l none = some l := rfl

/-- Appending to a list in step with its counter. -/
theorem insertAtTail_spec {l l' : LinkedList α} {x : α} (hwf : l.WF)
    (h : insertAtTail l (some x) = some l') : l'.nodes = l.nodes ++ [x] ∧ l'.WF := by
  simp only [insertAtTail] at h
  split at h
  · rename_i hzero
    have hnil : l.nodes = [] := by
      rw [LinkedList.WF, hzero] at hwf
      exact List.length_eq_zero_iff.mp (by omega)
    obtain ⟨n, hn, h⟩ := Option.bind_eq_some_iff.mp h
    obtain ⟨rfl, -⟩ := incr_eq_some hn
    simp only [hzero, ↓reduceIte, Option.some.injEq] at h
    subst h
    simp [LinkedList.WF, hnil]
  · split at h
    · cases h
    · obtain ⟨n, hn, h⟩ := Option.bind_eq_some_iff.mp h
      obtain ⟨rfl, -⟩ := incr_eq_some hn
      simp only [Option.some.injEq] at h
      subst h
      simp [LinkedList.WF] at hwf ⊢
      omega

theorem insertAtTail_eq {l l' : LinkedList α} {x : α} (hwf : l.WF)
    (h : insertAtTail l (some x) = some l') : l' = ⟨l.nodes ++ [x], l.length + 1⟩ := by
  obtain ⟨hnodes, hwf'⟩ := insertAtTail_spec hwf h
  obtain ⟨nodes, length⟩ := l'
  simp only [LinkedList.WF] at hwf hwf' hnodes
  subst hnodes
  simp only [List.length_append, List.length_singleton] at hwf'
  congr 1
  omega

/-- Appending succeeds while the counter is below INT_MAX. -/
theorem insertAtTail_isSome {l : LinkedList α} (x : α) (hwf : l.WF) (hlt : l.length < intMax) :
    ∃ l', insertAtTail l (some x) = some l' := by
  simp only [insertAtTail, insertAtHead, incr_of_lt hlt]
  split
  · exact ⟨_, rfl⟩
  · rename_i hzero
    have hne : l.nodes ≠ [] := by
      rintro hnil
      simp [LinkedList.WF, hnil] at hwf
      exact hzero hwf
    exact ⟨⟨l.nodes ++ [x], l.length + 1⟩, by simp [hne]⟩

/-- Appending overflows the counter at INT_MAX. -/
theorem length_lt_of_insertAtTail {l l' : LinkedList α} {x : α}
    (h : insertAtTail l (some x) = some l') : l.length < intMax := by
  simp only [insertAtTail, insertAtHead] at h
  split at h
  · simp only [Option.bind_eq_bind, Option.bind_eq_some_iff] at h
    obtain ⟨n, hn, -⟩ := h
    exact (incr_eq_some hn).2
  · split at h
    · cases h
    · simp only [Option.bind_eq_bind, Option.bind_eq_some_iff] at h
      obtain ⟨n, hn, -⟩ := h
      exact (incr_eq_some hn).2

theorem removeLoop_nat (xs : List α) (i k : Nat) (hk : k < xs.length) :
    removeLoop ((i + k : Nat) : Int) i xs = some (xs[k], xs.eraseIdx k) := by
  induction xs generalizing i k with
  | nil => simp at hk
  | cons x xs ih =>
    cases k with
    | zero => simp [removeLoop]
    | succ k =>
      have hne : (i : Int) ≠ ((i + (k + 1) : Nat) : Int) := by omega
      have hlt : k < xs.length := by simpa using hk
      have hrest := ih (i + 1) k hlt
      rw [show i + 1 + k = i + (k + 1) by omega] at hrest
      simp only [removeLoop, if_neg hne]
      rw [show (i : Int) + 1 = ((i + 1 : Nat) : Int) by omega, hrest]
      rfl

/-- A counter that has already passed the index never meets it again. -/
theorem removeLoop_past (xs : List α) {i index : Int} (h : index < i) :
    removeLoop index i xs = none := by
  induction xs generalizing i with
  | nil => rfl
  | cons x xs ih => simp [removeLoop, show i ≠ index by omega, ih (show index < i + 1 by omega)]

theorem removeByIndex_nat {l : LinkedList α} (hwf : l.WF) {k : Nat} (hk : k < l.nodes.length) :
    removeByIndex l k = some (some l.nodes[k], ⟨l.nodes.eraseIdx k, l.length - 1⟩) := by
  have hlt : ¬ l.length ≤ (k : Int) := by rw [hwf]; omega
  simp only [removeByIndex, if_neg hlt]
  cases k with
  | zero =>
    obtain ⟨nodes, length⟩ := l
    cases nodes with
    | nil => simp at hk
    | cons x xs => simp
  | succ k =>
    have h := removeLoop_nat l.nodes 0 (k + 1) hk
    simp only [Nat.zero_add, Nat.cast_zero] at h
    rw [if_neg (by omega), h]
    rfl

/-- The index -1 of a failed search sends the loop past the end of the chain. -/
theorem removeByIndex_neg {l : LinkedList α} (hwf : l.WF) {index : Int} (h : index < 0) :
    removeByIndex l index = none := by
  have hlt : ¬ l.length ≤ index := by rw [hwf]; omega
  simp [removeByIndex, hlt, removeLoop_past _ h, show index ≠ 0 by omega]

/-- What a removal that goes through can be. -/
theorem removeByIndex_cases {l l' : LinkedList α} {index : Int} {r : Option α} (hwf : l.WF)
    (h : removeByIndex l index = some (r, l')) :
    (l.length ≤ index ∧ r = none ∧ l' = l) ∨
    ∃ (k : Nat) (hk : k < l.nodes.length), index = k ∧ r = some l.nodes[k] ∧
      l' = ⟨l.nodes.eraseIdx k, l.length - 1⟩ := by
  by_cases hpast : l.length ≤ index
  · simp only [removeByIndex, if_pos hpast, Option.some.injEq, Prod.mk.injEq] at h
    exact .inl ⟨hpast, h.1.symm, h.2.symm⟩
  · by_cases hneg : index < 0
    · rw [removeByIndex_neg hwf hneg] at h
      cases h
    · obtain ⟨k, rfl⟩ := Int.eq_ofNat_of_zero_le (show 0 ≤ index by omega)
      have hk : k < l.nodes.length := by
        rw [hwf] at hpast
        omega
      rw [removeByIndex_nat hwf hk, Option.some.injEq, Prod.mk.injEq] at h
      exact .inr ⟨k, hk, rfl, h.1.symm, h.2.symm⟩

/-- A removal that goes through keeps the counter in step, whatever the index. -/
theorem removeByIndex_wf {l l' : LinkedList α} {index : Int} {r : Option α} (hwf : l.WF)
    (h : removeByIndex l index = some (r, l')) : l'.WF := by
  obtain ⟨-, -, rfl⟩ | ⟨k, hk, -, -, rfl⟩ := removeByIndex_cases hwf h
  · exact hwf
  · simp [LinkedList.WF, List.length_eraseIdx, hk] at hwf ⊢
    omega

/-- A removal that goes through invents no element. -/
theorem removeByIndex_subset {l l' : LinkedList α} {index : Int} {r : Option α} (hwf : l.WF)
    (h : removeByIndex l index = some (r, l')) : l'.nodes ⊆ l.nodes := by
  obtain ⟨-, -, rfl⟩ | ⟨k, -, -, -, rfl⟩ := removeByIndex_cases hwf h
  · exact List.Subset.refl _
  · exact List.eraseIdx_subset

end ZBid
