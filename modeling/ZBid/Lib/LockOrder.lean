import Mathlib.Data.List.Count
import Mathlib.Logic.Function.Basic
import Mathlib.Logic.Relation

/-!
# Threads that take semaphores in an order

Threads with operations P and V ahead of them. A thread holds a binary semaphore from its P to its
V; the other semaphores only count. When every thread takes a binary semaphore only above all those
that it holds, no threads wait for each other in a circle.
-/
namespace LockOrder

open Relation

variable {θ κ : Type} [DecidableEq κ]

inductive Op (κ : Type) where
  | P (k : κ)
  | V (k : κ)
  deriving DecidableEq, Repr

/-- A section between the P and the V of a semaphore. -/
def guarded (k : κ) (body : List (Op κ)) : List (Op κ) := .P k :: body ++ [.V k]

/-- The values after an operation. A P on a semaphore at 0 waits, so that it has none. -/
def Op.apply (value : κ → Int) : Op κ → Option (κ → Int)
  | .P k => if 0 < value k then some (Function.update value k (value k - 1)) else none
  | .V k => some (Function.update value k (value k + 1))

/-- Which semaphores are binary, and how high each of them stands. -/
structure Order (κ : Type) where
  binary : κ → Bool
  rank : κ → Nat

/-- What a thread holds after an operation. -/
def Order.after (o : Order κ) (held : List κ) : Op κ → List κ
  | .P k => if o.binary k then k :: held else held
  | .V k => held.erase k

/-- A binary semaphore is taken above all those held, and given back by a thread that holds it. -/
def Order.Allows (o : Order κ) (held : List κ) : Op κ → Prop
  | .P k => o.binary k → ∀ j ∈ held, o.rank j < o.rank k
  | .V k => o.binary k → k ∈ held

/-- The operations keep to the order, and lead from the semaphores held at first to those held at
last. -/
def Order.Leads (o : Order κ) : List κ → List (Op κ) → List κ → Prop
  | held, [], held' => held = held'
  | held, op :: ops, held' => o.Allows held op ∧ o.Leads (o.after held op) ops held'

structure Machine (θ κ : Type) where
  value : κ → Int
  held : θ → List κ
  ahead : θ → List (Op κ)

def Machine.Waits (s : Machine θ κ) (t : θ) (k : κ) : Prop :=
  (s.ahead t).head? = some (.P k) ∧ s.value k ≤ 0

/-- One thread waits for a binary semaphore that another one holds. -/
def Machine.WaitsFor (o : Order κ) (s : Machine θ κ) (t u : θ) : Prop :=
  ∃ k, o.binary k ∧ s.Waits t k ∧ k ∈ s.held u

structure Machine.DeadlockFree (o : Order κ) (s : Machine θ κ) : Prop where
  noSelf : ∀ t k, o.binary k → s.Waits t k → k ∉ s.held t
  noCycle : ∀ t, ¬ TransGen (s.WaitsFor o) t t

/-- Every thread keeps to the order, and will have given back what it holds. -/
def Machine.Orderly (o : Order κ) (s : Machine θ κ) : Prop :=
  ∀ t, o.Leads (s.held t) (s.ahead t) []

/-- A semaphore is free, or one thread holds it and holds it once. -/
def Machine.Exclusive (s : Machine θ κ) (k : κ) : Prop :=
  (s.value k = 1 ∧ ∀ t, k ∉ s.held t) ∨
    (s.value k = 0 ∧ ∃ t, (s.held t).count k = 1 ∧ ∀ u, u ≠ t → k ∉ s.held u)

variable {o : Order κ}

theorem Order.Leads.append {held held' held'' : List κ} {ops ops' : List (Op κ)}
    (first : o.Leads held ops held') (second : o.Leads held' ops' held'') :
    o.Leads held (ops ++ ops') held'' := by
  induction ops generalizing held with
  | nil =>
    obtain rfl : held = held' := first
    exact second
  | cons op ops ih => exact ⟨first.1, ih first.2⟩

theorem Order.Leads.guarded {held : List κ} {k : κ} {body : List (Op κ)} (hk : o.binary k)
    (habove : ∀ j ∈ held, o.rank j < o.rank k) (hbody : o.Leads (k :: held) body (k :: held)) :
    o.Leads held (guarded k body) held := by
  refine ⟨fun _ => habove, ?_⟩
  rw [Order.after, if_pos hk]
  refine hbody.append ⟨fun _ => List.mem_cons_self, ?_⟩
  simp only [Order.Leads, Order.after, List.erase_cons_head]

/-- A P or V of a counting semaphore changes nothing that is held. -/
theorem Order.Leads.count {held held' : List κ} {k : κ} {ops : List (Op κ)}
    (hk : o.binary k = false) (hheld : k ∉ held) (h : o.Leads held ops held') :
    o.Leads held (.P k :: ops) held' ∧ o.Leads held (.V k :: ops) held' := by
  have hnot : ¬ o.binary k := by simp [hk]
  refine ⟨⟨fun hb => absurd hb hnot, ?_⟩, fun hb => absurd hb hnot, ?_⟩
  · rwa [Order.after, if_neg hnot]
  · rwa [Order.after, List.erase_of_not_mem hheld]

/-- The thread that waits holds only semaphores below the one it waits for. -/
theorem Machine.Orderly.rank_lt {s : Machine θ κ} (hs : s.Orderly o) {t : θ} {j k : κ}
    (hk : o.binary k) (hwaits : s.Waits t k) (hj : j ∈ s.held t) : o.rank j < o.rank k := by
  have hleads := hs t
  obtain ⟨ops, hops⟩ := List.head?_eq_some_iff.mp hwaits.1
  rw [hops] at hleads
  exact hleads.1 hk j hj

/-- Along a chain of waiting threads the semaphores rise. -/
theorem Machine.Orderly.chain {s : Machine θ κ} (hs : s.Orderly o) {t u : θ}
    (h : TransGen (s.WaitsFor o) t u) :
    ∃ k, o.binary k ∧ s.Waits t k ∧ ∃ j ∈ s.held u, o.rank k ≤ o.rank j := by
  induction h with
  | single h =>
    obtain ⟨k, hk, hwaits, hheld⟩ := h
    exact ⟨k, hk, hwaits, k, hheld, Nat.le_refl _⟩
  | tail _ h ih =>
    obtain ⟨k, hk, hwaits, i, hi, hle⟩ := ih
    obtain ⟨j, hj, hnext, hheld⟩ := h
    have hlt := hs.rank_lt hj hnext hi
    exact ⟨k, hk, hwaits, j, hheld, Nat.le_trans hle (Nat.le_of_lt hlt)⟩

theorem Machine.Orderly.deadlockFree {s : Machine θ κ} (hs : s.Orderly o) : s.DeadlockFree o where
  noSelf t k hk hwaits hheld := Nat.lt_irrefl _ (hs.rank_lt hk hwaits hheld)
  noCycle t h := by
    obtain ⟨k, hk, hwaits, j, hj, hle⟩ := hs.chain h
    exact absurd (hs.rank_lt hk hwaits hj) (Nat.not_lt.mpr hle)

theorem Machine.Exclusive.value_nonpos {s : Machine θ κ} {k : κ} (hs : s.Exclusive k) {t : θ}
    (ht : k ∈ s.held t) : s.value k ≤ 0 := by
  obtain ⟨-, hfree⟩ | ⟨hvalue, -⟩ := hs
  · exact absurd ht (hfree t)
  · exact Int.le_of_eq hvalue

theorem Machine.Exclusive.of_count_eq {s s' : Machine θ κ} {k : κ} (hs : s.Exclusive k)
    (hvalue : s'.value k = s.value k) (hcount : ∀ t, (s'.held t).count k = (s.held t).count k) :
    s'.Exclusive k := by
  have hmem : ∀ t, k ∈ s'.held t ↔ k ∈ s.held t := by
    intro t
    rw [← List.count_pos_iff, ← List.count_pos_iff, hcount t]
  simpa only [Machine.Exclusive, hvalue, hcount, hmem] using hs

/-- An operation on another semaphore. -/
theorem Order.count_after {k : κ} {op : Op κ} (hne : op ≠ .P k ∧ op ≠ .V k) (held : List κ) :
    (o.after held op).count k = held.count k := by
  cases op with
  | P j =>
    have hj : j ≠ k := fun h => hne.1 (h ▸ rfl)
    rw [Order.after]
    split
    · exact List.count_cons_of_ne hj
    · rfl
  | V j =>
    have hj : k ≠ j := fun h => hne.2 (h ▸ rfl)
    rw [Order.after, List.count_erase_of_ne hj]

theorem Op.apply_of_ne {k : κ} {op : Op κ} (hne : op ≠ .P k ∧ op ≠ .V k) {value value' : κ → Int}
    (h : op.apply value = some value') : value' k = value k := by
  cases op with
  | P j =>
    have hj : k ≠ j := fun h => hne.1 (h ▸ rfl)
    simp only [Op.apply] at h
    split at h
    · obtain rfl := Option.some.inj h
      exact Function.update_of_ne hj _ _
    · cases h
  | V j =>
    have hj : k ≠ j := fun h => hne.2 (h ▸ rfl)
    obtain rfl := Option.some.inj h
    exact Function.update_of_ne hj _ _

variable [DecidableEq θ]

/-- A thread's next operation. -/
def Machine.run (o : Order κ) (s : Machine θ κ) (t : θ) : Option (Op κ × Machine θ κ) :=
  match s.ahead t with
  | [] => none
  | op :: ops => (op.apply s.value).map fun value =>
    (op, ⟨value, Function.update s.held t (o.after (s.held t) op),
      Function.update s.ahead t ops⟩)

/-- A thread has these operations to do before the others. -/
def Machine.enter (s : Machine θ κ) (t : θ) (ops : List (Op κ)) : Machine θ κ :=
  { s with ahead := Function.update s.ahead t (ops ++ s.ahead t) }

/-- What an operation changes, of its own thread and of the others. -/
theorem Machine.run_spec {s s' : Machine θ κ} {t : θ} {op : Op κ}
    (h : s.run o t = some (op, s')) : s.ahead t = op :: s'.ahead t ∧
      op.apply s.value = some s'.value ∧ s'.held t = o.after (s.held t) op ∧
      ∀ u, u ≠ t → s'.held u = s.held u ∧ s'.ahead u = s.ahead u := by
  unfold Machine.run at h
  split at h
  · cases h
  · rename_i op' ops hahead
    obtain ⟨value, hvalue, h⟩ := Option.map_eq_some_iff.mp h
    simp only [Prod.mk.injEq] at h
    obtain ⟨rfl, rfl⟩ := h
    refine ⟨?_, hvalue, Function.update_self .., fun u hu => ?_⟩
    · simp only [hahead, Function.update_self]
    · exact ⟨Function.update_of_ne hu .., Function.update_of_ne hu ..⟩

theorem Machine.Orderly.run {s s' : Machine θ κ} (hs : s.Orderly o) {t : θ} {op : Op κ}
    (h : s.run o t = some (op, s')) : s'.Orderly o := by
  obtain ⟨hahead, -, hheld, hothers⟩ := Machine.run_spec h
  intro u
  by_cases hu : u = t
  · subst hu
    have hleads := hs u
    rw [hahead] at hleads
    rw [hheld]
    exact hleads.2
  · rw [(hothers u hu).1, (hothers u hu).2]
    exact hs u

/-- A thread may turn to operations that give back all they take. -/
theorem Machine.Orderly.enter {s : Machine θ κ} (hs : s.Orderly o) {t : θ} {ops : List (Op κ)}
    (hops : o.Leads (s.held t) ops (s.held t)) : (s.enter t ops).Orderly o := by
  intro u
  by_cases hu : u = t
  · subst hu
    simpa only [Machine.enter, Function.update_self] using hops.append (hs u)
  · simpa only [Machine.enter, Function.update_of_ne hu] using hs u

/-- A binary semaphore keeps its one holder. -/
theorem Machine.Exclusive.run {s s' : Machine θ κ} (hs : s.Orderly o) {k : κ} (hk : o.binary k)
    (hex : s.Exclusive k) {t : θ} {op : Op κ} (h : s.run o t = some (op, s')) :
    s'.Exclusive k := by
  obtain ⟨hahead, hvalue, hheld, hothers⟩ := Machine.run_spec h
  have hleads := hs t
  rw [hahead] at hleads
  by_cases hp : op = .P k
  · -- nobody held it, and now `t` does
    subst hp
    simp only [Op.apply] at hvalue
    split at hvalue
    · have hvalue := Option.some.inj hvalue
      obtain ⟨hone, hfree⟩ | ⟨hzero, -⟩ := hex
      · refine .inr ⟨by simp [← hvalue, hone], t, ?_, fun u hu => ?_⟩
        · rw [hheld, Order.after, if_pos hk, List.count_cons_self,
            List.count_eq_zero.mpr (hfree t)]
        · rw [(hothers u hu).1]
          exact hfree u
      · omega
    · cases hvalue
  by_cases hv : op = .V k
  · -- `t` is the holder, and gives it back
    subst hv
    have hmem : k ∈ s.held t := hleads.1 hk
    have hvalue := Option.some.inj hvalue
    obtain ⟨-, hfree⟩ | ⟨hzero, v, hcount, hrest⟩ := hex
    · exact absurd hmem (hfree t)
    · have hholder : t = v := by
        by_contra hne
        exact hrest t hne hmem
      subst hholder
      refine .inl ⟨by simp [← hvalue, hzero], fun u => ?_⟩
      by_cases hu : u = t
      · rw [hu, hheld, Order.after, ← List.count_eq_zero, List.count_erase_self, hcount]
      · rw [(hothers u hu).1]
        exact hrest u hu
  · refine hex.of_count_eq (Op.apply_of_ne ⟨hp, hv⟩ hvalue) fun u => ?_
    by_cases hu : u = t
    · rw [hu, hheld, Order.count_after ⟨hp, hv⟩]
    · rw [(hothers u hu).1]

end LockOrder
