import ZBid.Lib.Runs

/-!
# Bounded first-in first-out queues

The specification of a bounded queue: a list of at most `n` items, one end for each operation. The
log of a run tells what was put in and what was taken out, in order, and the items put in are
those taken out followed by those still there.
-/
namespace Fifo

open Runs

variable {α : Type}

inductive Op (α : Type) where
  | put (x : α)
  | take

/-- What an operation did. -/
inductive Mark (α : Type) where
  | put (x : α)
  | take (x : α)
  deriving DecidableEq, Repr

/-- The same operation on what the items stand for. -/
def Mark.map {β : Type} (f : α → β) : Mark α → Mark β
  | .put x => .put (f x)
  | .take x => .take (f x)

/-- A put waits for room and a take for an item. -/
def step (n : Nat) : Step (List α) (Op α) (Mark α)
  | q, .put x => if q.length < n then some (q ++ [x], [.put x]) else none
  | x :: q, .take => some (q, [.take x])
  | [], .take => none

def puts (tr : List (Mark α)) : List α :=
  tr.filterMap fun
    | .put x => some x
    | .take _ => none

def takes (tr : List (Mark α)) : List α :=
  tr.filterMap fun
    | .put _ => none
    | .take x => some x

@[simp] theorem puts_append (xs ys : List (Mark α)) : puts (xs ++ ys) = puts xs ++ puts ys :=
  List.filterMap_append

@[simp] theorem takes_append (xs ys : List (Mark α)) : takes (xs ++ ys) = takes xs ++ takes ys :=
  List.filterMap_append

@[simp] theorem puts_put (x : α) : puts [Mark.put x] = [x] := rfl
@[simp] theorem puts_take (x : α) : puts [Mark.take x] = [] := rfl
@[simp] theorem takes_put (x : α) : takes [Mark.put x] = [] := rfl
@[simp] theorem takes_take (x : α) : takes [Mark.take x] = [x] := rfl

/-- Nothing is lost, duplicated or overtaken, and at most `n` items are there at any time. -/
theorem law {n : Nat} {ok : List α → Op α → Prop} {ops : List (Op α)} {tr : List (Mark α)}
    {q : List α} (run : Run (step n) ok [] ops tr q) :
    puts tr = takes tr ++ q ∧ q.length ≤ n := by
  refine run.invariant (P := fun _ tr q => puts tr = takes tr ++ q ∧ q.length ≤ n)
    ⟨rfl, Nat.zero_le n⟩ ?_
  intro ops tr q op q' out _ hinv _ hstep
  obtain ⟨horder, hlen⟩ := hinv
  match q, op with
  | q, .put x =>
    simp only [step] at hstep
    split at hstep
    · obtain ⟨rfl, rfl⟩ := Prod.mk.inj (Option.some.inj hstep)
      refine ⟨by simp [horder], ?_⟩
      simp only [List.length_append, List.length_cons, List.length_nil]
      omega
    · cases hstep
  | x :: q, .take =>
    obtain ⟨rfl, rfl⟩ := Prod.mk.inj (Option.some.inj hstep)
    refine ⟨by simp [horder], ?_⟩
    simp only [List.length_cons] at hlen
    omega
  | [], .take => cases hstep

end Fifo
