import ZBid.Lib.CInt
import ZBid.Lib.Fifo
import ZBid.Lib.Pool
import Mathlib.Data.Int.ModEq

/-!
# sbuf.c: the job queue

A shared buffer of `n` cells behind three semaphores, and the threads inside `sbuf_insert` and
`sbuf_remove`. The atomic steps are each P, each V and the body between P and V of the mutex. A P
on a semaphore at 0 waits, so that the thread has no step; a body has none where C leaves it
undefined.
-/
namespace ZBid

open CInt Runs Fifo

variable {α : Type}

structure Sbuf (α : Type) where
  buf : List α
  n : Int
  front : Int
  rear : Int
  mutex : Int
  slots : Int
  items : Int
  deriving DecidableEq, Repr

/-- `calloc` fills the cells with NULL. -/
def sbufInit (null : α) (n : Int) : Sbuf α where
  buf := List.replicate n.toNat null
  n := n
  front := 0
  rear := 0
  mutex := 1
  slots := n
  items := 0

/-- The value a semaphore is left with by a P that does not wait. -/
def semP (v : Int) : Option Int := if 0 < v then some (v - 1) else none

def semV (v : Int) : Int := v + 1

/-- Where a thread is in `sbuf_insert` or `sbuf_remove`; `removeNull` is behind the return of NULL
from the branch for `n == 0`. -/
inductive SbufPc (α : Type) where
  | insertCalled (item : α)
  | insertSlot (item : α)
  | insertLocked (item : α)
  | insertStored
  | insertUnlocked
  | insertReturned
  | removeCalled
  | removeItem
  | removeLocked
  | removeTaken (item : α)
  | removeUnlocked (item : α)
  | removeReturned (item : α)
  | removeNull
  deriving DecidableEq, Repr

/-- The cell that a counter points at; outside the array the access is undefined. -/
def Sbuf.cell (sp : Sbuf α) (counter : Int) : Option Nat :=
  let k := counter.tmod sp.n
  if 0 ≤ k ∧ k < sp.buf.length then some k.toNat else none

/-- `sp->buf[(++sp->rear)%(sp->n)] = item`. -/
def Sbuf.store (sp : Sbuf α) (item : α) : Option (Sbuf α) := do
  let rear ← incr sp.rear
  let k ← sp.cell rear
  some { sp with rear, buf := sp.buf.set k item }

/-- `item = sp->buf[(++sp->front) % (sp->n)]`. -/
def Sbuf.fetch (sp : Sbuf α) : Option (Sbuf α × α) := do
  let front ← incr sp.front
  let k ← sp.cell front
  let item ← sp.buf[k]?
  some ({ sp with front }, item)

/-- The next atomic step of a thread. -/
def SbufPc.next (sp : Sbuf α) : SbufPc α → Option (Sbuf α × SbufPc α × List (Mark α))
  | .insertCalled item => do
    let slots ← semP sp.slots
    some ({ sp with slots }, .insertSlot item, [])
  | .insertSlot item => do
    let mutex ← semP sp.mutex
    some ({ sp with mutex }, .insertLocked item, [])
  | .insertLocked item => do
    let sp' ← sp.store item
    some (sp', .insertStored, [.put item])
  | .insertStored => some ({ sp with mutex := semV sp.mutex }, .insertUnlocked, [])
  | .insertUnlocked => some ({ sp with items := semV sp.items }, .insertReturned, [])
  | .removeCalled => do
    let items ← semP sp.items
    some ({ sp with items }, .removeItem, [])
  | .removeItem => do
    let mutex ← semP sp.mutex
    some ({ sp with mutex }, .removeLocked, [])
  | .removeLocked =>
    if sp.n = 0 then some (sp, .removeNull, [])
    else do
      let (sp', item) ← sp.fetch
      some (sp', .removeTaken item, [.take item])
  | .removeTaken item => some ({ sp with mutex := semV sp.mutex }, .removeUnlocked item, [])
  | .removeUnlocked item => some ({ sp with slots := semV sp.slots }, .removeReturned item, [])
  | .insertReturned | .removeReturned _ | .removeNull => none

/-- The buffer and the threads that have called one of its functions. -/
structure Queue (α : Type) where
  sbuf : Sbuf α
  threads : List (SbufPc α)
  deriving DecidableEq, Repr

def Queue.init (null : α) (n : Int) : Queue α := ⟨sbufInit null n, []⟩

inductive QueueAction (α : Type) where
  | insert (item : α)
  | remove
  | run (i : Nat)

def Queue.step : Step (Queue α) (QueueAction α) (Mark α) := fun s action =>
  match action with
  | .insert item => some ({ s with threads := s.threads ++ [.insertCalled item] }, [])
  | .remove => some ({ s with threads := s.threads ++ [.removeCalled] }, [])
  | .run i => do
    let pc ← s.threads[i]?
    let (sbuf, pc', out) ← pc.next s.sbuf
    some (⟨sbuf, s.threads.set i pc'⟩, out)

/-- Inside `sbuf_insert` or returned from it. -/
@[simp] def SbufPc.inserting : SbufPc α → Nat
  | .insertCalled _ | .insertSlot _ | .insertLocked _ | .insertStored | .insertUnlocked
  | .insertReturned => 1
  | _ => 0

/-- Before the body of `sbuf_insert`. -/
@[simp] def SbufPc.toInsert : SbufPc α → Nat
  | .insertCalled _ | .insertSlot _ | .insertLocked _ => 1
  | _ => 0

@[simp] def SbufPc.holdsMutex : SbufPc α → Nat
  | .insertLocked _ | .insertStored | .removeLocked | .removeTaken _ => 1
  | _ => 0

/-- A slot taken and not yet filled, or emptied and not yet given back. -/
@[simp] def SbufPc.owesSlot : SbufPc α → Nat
  | .insertSlot _ | .insertLocked _ | .removeTaken _ | .removeUnlocked _ => 1
  | _ => 0

/-- An item stored and not yet announced, or claimed and not yet taken. -/
@[simp] def SbufPc.owesItem : SbufPc α → Nat
  | .insertStored | .insertUnlocked | .removeItem | .removeLocked => 1
  | _ => 0

/-- What a call of `sbuf_remove` has taken, and returns in the end. -/
@[simp] def SbufPc.taken : SbufPc α → Option α
  | .removeTaken item | .removeUnlocked item | .removeReturned item => some item
  | _ => none

/-- A thread between P and V of the mutex that is about to run the body. -/
def SbufPc.AtBody : SbufPc α → Prop
  | .insertLocked _ | .removeLocked => True
  | _ => False

/-- Fewer than 2^31 inserts in all. -/
def Queue.Counted (s : Queue α) : QueueAction α → Prop
  | .insert _ => Pool.total SbufPc.inserting s.threads + 1 < 0x80000000
  | _ => True

instance (s : Queue α) : ∀ action, Decidable (s.Counted action)
  | .insert _ => inferInstanceAs (Decidable (_ < _))
  | .remove | .run _ => inferInstanceAs (Decidable True)

/-- The buffer holds the items `q`, oldest first, in the cells behind `front`. -/
structure Sbuf.Holds (sp : Sbuf α) (q : List α) : Prop where
  size : (sp.buf.length : Int) = sp.n
  front : 0 ≤ sp.front
  rear : sp.rear = sp.front + q.length
  cells : ∀ (i : Nat) (x : α), q[i]? = some x →
    sp.buf[((sp.front + 1 + i) % sp.n).toNat]? = some x

/-- Counters less than `n` apart point at different cells. -/
theorem cells_ne {n c i j : Int} (hij : i < j) (hn : j - i < n) : (c + i) % n ≠ (c + j) % n := by
  intro h
  have hdvd : n ∣ (c + j) - (c + i) := Int.ModEq.dvd h
  have hle : n ≤ (c + j) - (c + i) := Int.le_of_dvd (by omega) hdvd
  omega

theorem Sbuf.Holds.cell {sp : Sbuf α} {q : List α} (h : sp.Holds q) (hn : 1 ≤ sp.n) {c : Int}
    (hc : 0 ≤ c) : sp.cell c = some (c % sp.n).toNat := by
  have hsize := h.size
  have hlo := Int.emod_nonneg c (show sp.n ≠ 0 by omega)
  have hhi := Int.emod_lt_of_pos c (show 0 < sp.n by omega)
  simp only [Sbuf.cell, Int.tmod_eq_emod_of_nonneg hc]
  rw [if_pos (by omega)]

/-- The body of `sbuf_insert` appends its item, while there is room. -/
theorem Sbuf.Holds.store {sp : Sbuf α} {q : List α} (h : sp.Holds q) (hn : 1 ≤ sp.n)
    (hroom : (q.length : Int) < sp.n) (hrear : sp.rear < intMax) (item : α) :
    ∃ buf, sp.store item = some { sp with rear := sp.rear + 1, buf } ∧
      Sbuf.Holds { sp with rear := sp.rear + 1, buf } (q ++ [item]) := by
  obtain ⟨hsize, hfront, hrearq, hcells⟩ := h
  have hcell := Sbuf.Holds.cell ⟨hsize, hfront, hrearq, hcells⟩ hn (c := sp.rear + 1) (by omega)
  refine ⟨sp.buf.set ((sp.rear + 1) % sp.n).toNat item, ?_, ?_⟩
  · simp [Sbuf.store, incr_of_lt hrear, hcell]
  have hlo : ∀ c : Int, 0 ≤ c % sp.n := fun c => Int.emod_nonneg c (by omega)
  have hhi : ∀ c : Int, c % sp.n < sp.n := fun c => Int.emod_lt_of_pos c (by omega)
  constructor
  · simpa using hsize
  · exact hfront
  · simp only [List.length_append, List.length_cons, List.length_nil]
    omega
  · intro i x hi
    simp only
    rw [List.getElem?_set]
    rw [List.getElem?_append] at hi
    split at hi
    · rename_i hlt
      have hne := cells_ne (n := sp.n) (c := sp.front + 1) (i := i) (j := q.length)
        (by omega) (by omega)
      rw [show sp.front + 1 + (q.length : Int) = sp.rear + 1 by omega] at hne
      rw [if_neg (by have := hlo (sp.front + 1 + i); have := hlo (sp.rear + 1); omega)]
      exact hcells i x hi
    · have hi' : i = q.length ∧ item = x := by
        have hlen := (List.getElem?_eq_some_iff.mp hi).1
        simp only [List.length_cons, List.length_nil] at hlen
        have hz : i - q.length = 0 := by omega
        rw [hz] at hi
        exact ⟨by omega, by simpa using hi⟩
      obtain ⟨rfl, rfl⟩ := hi'
      have hat : sp.front + 1 + (q.length : Int) = sp.rear + 1 := by omega
      rw [hat, if_pos rfl, if_pos]
      have := hlo (sp.rear + 1)
      have := hhi (sp.rear + 1)
      omega

/-- The body of `sbuf_remove` takes the oldest item. -/
theorem Sbuf.Holds.fetch {sp : Sbuf α} {x : α} {q : List α} (h : sp.Holds (x :: q))
    (hn : 1 ≤ sp.n) (hfront : sp.front < intMax) :
    sp.fetch = some ({ sp with front := sp.front + 1 }, x) ∧
      Sbuf.Holds { sp with front := sp.front + 1 } q := by
  have hcell := h.cell hn (c := sp.front + 1) (by have := h.front; omega)
  obtain ⟨hsize, hlo, hrear, hcells⟩ := h
  have hx := hcells 0 x rfl
  simp only [Nat.cast_zero, Int.add_zero] at hx
  constructor
  · simp [Sbuf.fetch, incr_of_lt hfront, hcell, hx]
  constructor
  · exact hsize
  · simp only
    omega
  · simp only [List.length_cons] at hrear ⊢
    omega
  · intro i y hi
    have hy := hcells (i + 1) y (by simpa using hi)
    simpa [Int.add_assoc, Int.add_comm, Int.add_left_comm] using hy

/-- The three semaphores account for every slot and every item, wherever the threads are. -/
structure QueueInv (n : Int) (s : Queue α) (q : List α) : Prop where
  capacity : s.sbuf.n = n
  holds : s.sbuf.Holds q
  slots : s.sbuf.slots + Pool.total SbufPc.owesSlot s.threads + q.length = n
  items : (q.length : Int) = s.sbuf.items + Pool.total SbufPc.owesItem s.threads
  mutex : s.sbuf.mutex + Pool.total SbufPc.holdsMutex s.threads = 1
  semaphores : 0 ≤ s.sbuf.slots ∧ 0 ≤ s.sbuf.items ∧ 0 ≤ s.sbuf.mutex
  counted : s.sbuf.rear + Pool.total SbufPc.toInsert s.threads =
    Pool.total SbufPc.inserting s.threads
  few : Pool.total SbufPc.inserting s.threads < 0x80000000
  neverNull : .removeNull ∉ s.threads

theorem queueInv_init (null : α) {n : Int} (hn : 1 ≤ n) : QueueInv n (Queue.init null n) [] := by
  constructor
  · rfl
  · constructor
    · simp only [Queue.init, sbufInit, List.length_replicate]
      omega
    all_goals simp [Queue.init, sbufInit]
  all_goals simp [Queue.init, sbufInit]
  omega

/-- One thread moves, and what it gives up or takes on is settled with the semaphores. -/
theorem QueueInv.move {n : Int} {s : Queue α} {q q' : List α} (inv : QueueInv n s q) {i : Nat}
    {pc pc' : SbufPc α} (hi : s.threads[i]? = some pc) {sbuf : Sbuf α}
    (hn : sbuf.n = s.sbuf.n) (holds : sbuf.Holds q')
    (hslots : sbuf.slots + pc'.owesSlot + q'.length = s.sbuf.slots + pc.owesSlot + q.length)
    (hitems : sbuf.items + pc'.owesItem + q.length = s.sbuf.items + pc.owesItem + q'.length)
    (hmutex : sbuf.mutex + pc'.holdsMutex = s.sbuf.mutex + pc.holdsMutex)
    (hcount : sbuf.rear + pc'.toInsert = s.sbuf.rear + pc.toInsert)
    (hins : pc'.inserting = pc.inserting)
    (hsem : 0 ≤ sbuf.slots ∧ 0 ≤ sbuf.items ∧ 0 ≤ sbuf.mutex) (hnull : pc' ≠ .removeNull) :
    QueueInv n ⟨sbuf, s.threads.set i pc'⟩ q' := by
  have slots := Pool.total_set SbufPc.owesSlot pc' hi
  have items := Pool.total_set SbufPc.owesItem pc' hi
  have mutex := Pool.total_set SbufPc.holdsMutex pc' hi
  have before := Pool.total_set SbufPc.toInsert pc' hi
  have inside := Pool.total_set SbufPc.inserting pc' hi
  constructor
  · exact hn.trans inv.capacity
  · exact holds
  · have := inv.slots
    dsimp only
    omega
  · have := inv.items
    dsimp only
    omega
  · have := inv.mutex
    dsimp only
    omega
  · exact hsem
  · have := inv.counted
    dsimp only
    omega
  · have := inv.few
    dsimp only
    omega
  · intro hmem
    cases List.mem_or_eq_of_mem_set hmem with
    | inl hold => exact inv.neverNull hold
    | inr heq => exact hnull heq.symm

theorem semP_eq_some {v w : Int} (h : semP v = some w) : 0 < v ∧ w = v - 1 := by
  simp only [semP] at h
  split at h
  · exact ⟨by assumption, (Option.some.inj h).symm⟩
  · cases h

/-- A thread at the body of `sbuf_insert` finds room, and its counter below INT_MAX. -/
theorem QueueInv.room {n : Int} {s : Queue α} {q : List α} (inv : QueueInv n s q) {i : Nat}
    {item : α} (hi : s.threads[i]? = some (.insertLocked item)) :
    (q.length : Int) < s.sbuf.n ∧ s.sbuf.rear < intMax := by
  have howes := Pool.le_total SbufPc.owesSlot hi
  have hbefore := Pool.le_total SbufPc.toInsert hi
  simp only [SbufPc.owesSlot, SbufPc.toInsert] at howes hbefore
  have hslots := inv.slots
  have hsem := inv.semaphores
  have hcount := inv.counted
  have hfew := inv.few
  have hn := inv.capacity
  simp only [intMax]
  omega

/-- A thread at the body of `sbuf_remove` finds an item, and its counter below INT_MAX. -/
theorem QueueInv.available {n : Int} {s : Queue α} {q : List α} (inv : QueueInv n s q) {i : Nat}
    (hi : s.threads[i]? = some .removeLocked) :
    ∃ x rest, q = x :: rest ∧ s.sbuf.front < intMax := by
  have howes := Pool.le_total SbufPc.owesItem hi
  simp only [SbufPc.owesItem] at howes
  have hitems := inv.items
  have hsem := inv.semaphores
  have hcount := inv.counted
  have hfew := inv.few
  have hrear := inv.holds.rear
  cases q with
  | nil =>
    simp only [List.length_nil] at hitems
    omega
  | cons x rest =>
    refine ⟨x, rest, rfl, ?_⟩
    simp only [List.length_cons] at hrear
    simp only [intMax]
    omega

/-- What the buffer holds does not depend on the semaphores. -/
theorem Sbuf.Holds.semaphores {sp : Sbuf α} {q : List α} (h : sp.Holds q)
    (mutex slots items : Int) : Sbuf.Holds { sp with mutex, slots, items } q :=
  ⟨h.size, h.front, h.rear, h.cells⟩

/-- A thread moves past a semaphore, which pays for what the thread gives up or takes on. -/
structure SemStep (sp sp' : Sbuf α) (pc pc' : SbufPc α) : Prop where
  frame : sp' = { sp with mutex := sp'.mutex, slots := sp'.slots, items := sp'.items }
  slots : sp'.slots + pc'.owesSlot = sp.slots + pc.owesSlot
  items : sp'.items + pc'.owesItem = sp.items + pc.owesItem
  mutex : sp'.mutex + pc'.holdsMutex = sp.mutex + pc.holdsMutex
  toInsert : pc'.toInsert = pc.toInsert
  inserting : pc'.inserting = pc.inserting
  semaphores : 0 ≤ sp.slots ∧ 0 ≤ sp.items ∧ 0 ≤ sp.mutex →
    0 ≤ sp'.slots ∧ 0 ≤ sp'.items ∧ 0 ≤ sp'.mutex
  notNull : pc' ≠ .removeNull

/-- Outside the bodies every step is a P or a V. -/
theorem next_semStep {sp sp' : Sbuf α} {pc pc' : SbufPc α} {out : List (Mark α)}
    (h : pc.next sp = some (sp', pc', out)) (hbody : ¬ pc.AtBody) :
    out = [] ∧ SemStep sp sp' pc pc' := by
  cases pc with
  | insertLocked _ | removeLocked => exact absurd trivial hbody
  | insertReturned | removeReturned _ | removeNull => cases h
  | insertStored | insertUnlocked | removeTaken _ | removeUnlocked _ =>
    simp only [SbufPc.next, Option.some.injEq, Prod.mk.injEq] at h
    obtain ⟨rfl, rfl, rfl⟩ := h
    refine ⟨rfl, ?_⟩
    constructor <;> simp [semV]
    omega
  | insertCalled _ | insertSlot _ | removeCalled | removeItem =>
    simp only [SbufPc.next, Option.bind_eq_bind, Option.bind_eq_some_iff, Option.some.injEq,
      Prod.mk.injEq] at h
    obtain ⟨v, hp, rfl, rfl, rfl⟩ := h
    obtain ⟨hpos, rfl⟩ := semP_eq_some hp
    refine ⟨rfl, ?_⟩
    constructor <;> simp
    omega

theorem QueueInv.semStep {n : Int} {s : Queue α} {q : List α} (inv : QueueInv n s q) {i : Nat}
    {pc pc' : SbufPc α} {sbuf : Sbuf α} (hi : s.threads[i]? = some pc)
    (h : SemStep s.sbuf sbuf pc pc') : QueueInv n ⟨sbuf, s.threads.set i pc'⟩ q := by
  have hn : sbuf.n = s.sbuf.n := by rw [h.frame]
  have hrear : sbuf.rear = s.sbuf.rear := by rw [h.frame]
  have hslots := h.slots
  have hitems := h.items
  have hcount := h.toInsert
  refine inv.move hi hn ?_ (by omega) (by omega) h.mutex (by omega) h.inserting
    (h.semaphores inv.semaphores) h.notNull
  rw [h.frame]
  exact inv.holds.semaphores _ _ _

/-- The body of `sbuf_insert` is a put of the bounded queue. -/
theorem queueInv_put {n : Int} (hn : 1 ≤ n) {s : Queue α} {q : List α} (inv : QueueInv n s q)
    {i : Nat} {item : α} {pc' : SbufPc α} {sbuf : Sbuf α} {out : List (Mark α)}
    (hi : s.threads[i]? = some (.insertLocked item))
    (h : SbufPc.next s.sbuf (.insertLocked item) = some (sbuf, pc', out)) :
    Fifo.step n.toNat q (.put item) = some (q ++ [item], out) ∧
      QueueInv n ⟨sbuf, s.threads.set i pc'⟩ (q ++ [item]) := by
  have hcap := inv.capacity
  have hsem := inv.semaphores
  obtain ⟨hroom, hrear⟩ := inv.room hi
  obtain ⟨buf, hstore, hholds⟩ := inv.holds.store (by omega) hroom hrear item
  simp only [SbufPc.next, hstore, Option.bind_eq_bind, Option.bind_some, Option.some.injEq,
    Prod.mk.injEq] at h
  obtain ⟨rfl, rfl, rfl⟩ := h
  constructor
  · simp only [Fifo.step]
    rw [if_pos (by omega)]
  · refine inv.move hi rfl hholds ?_ ?_ ?_ ?_ ?_ ?_ ?_
    all_goals simp <;> omega

/-- The body of `sbuf_remove` is a take of the bounded queue. -/
theorem queueInv_take {n : Int} (hn : 1 ≤ n) {s : Queue α} {q : List α} (inv : QueueInv n s q)
    {i : Nat} {pc' : SbufPc α} {sbuf : Sbuf α} {out : List (Mark α)}
    (hi : s.threads[i]? = some .removeLocked)
    (h : SbufPc.next s.sbuf .removeLocked = some (sbuf, pc', out)) :
    ∃ q', Fifo.step n.toNat q .take = some (q', out) ∧
      QueueInv n ⟨sbuf, s.threads.set i pc'⟩ q' := by
  have hcap := inv.capacity
  have hsem := inv.semaphores
  obtain ⟨x, rest, rfl, hfront⟩ := inv.available hi
  obtain ⟨hfetch, hholds⟩ := inv.holds.fetch (by omega) hfront
  have hzero : s.sbuf.n ≠ 0 := by omega
  simp only [SbufPc.next, hzero, ↓reduceIte, hfetch, Option.bind_eq_bind, Option.bind_some,
    Option.some.injEq, Prod.mk.injEq] at h
  obtain ⟨rfl, rfl, rfl⟩ := h
  refine ⟨rest, rfl, ?_⟩
  refine inv.move hi rfl hholds ?_ ?_ ?_ ?_ ?_ ?_ ?_
  all_goals simp <;> omega

/-- A step of a thread is a step of the bounded queue, or changes nothing there. -/
theorem queueInv_next {n : Int} (hn : 1 ≤ n) {s : Queue α} {q : List α} (inv : QueueInv n s q)
    {i : Nat} {pc pc' : SbufPc α} {sbuf : Sbuf α} {out : List (Mark α)}
    (hi : s.threads[i]? = some pc) (h : pc.next s.sbuf = some (sbuf, pc', out)) :
    ∃ ops q', Run (Fifo.step n.toNat) (fun _ _ => True) q ops out q' ∧
      QueueInv n ⟨sbuf, s.threads.set i pc'⟩ q' := by
  cases pc with
  | insertLocked item =>
    obtain ⟨hput, hinv⟩ := queueInv_put hn inv hi h
    exact ⟨_, _, .one trivial hput, hinv⟩
  | removeLocked =>
    obtain ⟨q', htake, hinv⟩ := queueInv_take hn inv hi h
    exact ⟨_, _, .one trivial htake, hinv⟩
  | _ =>
    obtain ⟨rfl, hsem⟩ := next_semStep h (by simp [SbufPc.AtBody])
    exact ⟨[], q, .start, inv.semStep hi hsem⟩

/-- A call takes an item in its body and then carries it to its return. -/
theorem next_taken {sp sp' : Sbuf α} {pc pc' : SbufPc α} {out : List (Mark α)}
    (h : pc.next sp = some (sp', pc', out)) :
    takes out = [] ∧ pc'.taken = pc.taken ∨
      ∃ x, takes out = [x] ∧ pc.taken = none ∧ pc'.taken = some x := by
  cases pc with
  | removeLocked =>
    simp only [SbufPc.next] at h
    split at h
    · simp only [Option.some.injEq, Prod.mk.injEq] at h
      obtain ⟨rfl, rfl, rfl⟩ := h
      exact Or.inl ⟨rfl, rfl⟩
    · simp only [Option.bind_eq_bind, Option.bind_eq_some_iff, Option.some.injEq,
        Prod.mk.injEq] at h
      obtain ⟨⟨sp₁, x⟩, -, rfl, rfl, rfl⟩ := h
      exact Or.inr ⟨x, rfl, rfl, rfl⟩
  | insertReturned => cases h
  | removeReturned => cases h
  | removeNull => cases h
  | _ =>
    simp only [SbufPc.next, Option.bind_eq_bind, Option.bind_eq_some_iff, Option.some.injEq,
      Prod.mk.injEq] at h
    grind [SbufPc.taken, takes]

/-- The queue of the code is a bounded queue: every step is answered by one of the specification
with the same log. -/
def Simulates (n : Int) (tr : List (Mark α)) (s : Queue α) (q : List α) : Prop :=
  QueueInv n s q ∧ (s.threads.filterMap SbufPc.taken).Perm (takes tr)

/-- A thread that enters one of the two functions holds nothing. -/
theorem QueueInv.enter {n : Int} {s : Queue α} {q : List α} (inv : QueueInv n s q) {pc : SbufPc α}
    (hslots : pc.owesSlot = 0) (hitems : pc.owesItem = 0) (hmutex : pc.holdsMutex = 0)
    (hcount : pc.toInsert = pc.inserting)
    (hfew : Pool.total SbufPc.inserting s.threads + pc.inserting < 0x80000000)
    (hnull : pc ≠ .removeNull) : QueueInv n { s with threads := s.threads ++ [pc] } q := by
  obtain ⟨capacity, holds, slots, items, mutex, semaphores, counted, few, neverNull⟩ := inv
  constructor
  · exact capacity
  · exact holds
  · simp only [Pool.total_append, hslots]
    exact slots
  · simp only [Pool.total_append, hitems]
    exact items
  · simp only [Pool.total_append, hmutex]
    exact mutex
  · exact semaphores
  · simp only [Pool.total_append]
    omega
  · simpa only [Pool.total_append] using hfew
  · simpa using ⟨neverNull, hnull.symm⟩

theorem simulates_step {n : Int} (hn : 1 ≤ n) {tr : List (Mark α)} {s s' : Queue α} {q : List α}
    {action : QueueAction α} {out : List (Mark α)} (hR : Simulates n tr s q)
    (hok : s.Counted action) (h : Queue.step s action = some (s', out)) :
    ∃ ops q', Run (Fifo.step n.toNat) (fun _ _ => True) q ops out q' ∧
      Simulates n (tr ++ out) s' q' := by
  obtain ⟨inv, htaken⟩ := hR
  cases action with
  | insert item =>
    simp only [Queue.step, Option.some.injEq, Prod.mk.injEq] at h
    obtain ⟨rfl, rfl⟩ := h
    refine ⟨[], q, .start, inv.enter rfl rfl rfl rfl hok (by simp), ?_⟩
    simpa [List.filterMap_cons] using htaken
  | remove =>
    simp only [Queue.step, Option.some.injEq, Prod.mk.injEq] at h
    obtain ⟨rfl, rfl⟩ := h
    refine ⟨[], q, .start, inv.enter rfl rfl rfl rfl inv.few (by simp), ?_⟩
    simpa [List.filterMap_cons] using htaken
  | run i =>
    simp only [Queue.step, Option.bind_eq_bind, Option.bind_eq_some_iff, Option.some.injEq,
      Prod.mk.injEq] at h
    obtain ⟨pc, hi, ⟨sbuf, pc', out'⟩, hnext, rfl, rfl⟩ := h
    obtain ⟨ops, q', hrun, hinv⟩ := queueInv_next hn inv hi hnext
    refine ⟨ops, q', hrun, hinv, ?_⟩
    simp only [takes_append]
    cases next_taken hnext with
    | inl hsame =>
      rw [Pool.filterMap_set_same SbufPc.taken hi hsame.2, hsame.1, List.append_nil]
      exact htaken
    | inr htake =>
      obtain ⟨x, hout, hnone, hsome⟩ := htake
      rw [hout]
      exact (Pool.filterMap_set SbufPc.taken hi hnone hsome).trans
        ((htaken.cons x).trans (List.perm_append_singleton x _).symm)

/-- At a body the increment does not overflow and the cell is in the array. -/
theorem QueueInv.body_defined {n : Int} (hn : 1 ≤ n) {s : Queue α} {q : List α}
    (inv : QueueInv n s q) {i : Nat} {pc : SbufPc α} (hi : s.threads[i]? = some pc)
    (hbody : pc.AtBody) : (Queue.step s (.run i)).isSome := by
  have hcap := inv.capacity
  cases pc with
  | insertLocked item =>
    obtain ⟨hroom, hrear⟩ := inv.room hi
    obtain ⟨buf, hstore, -⟩ := inv.holds.store (by omega) hroom hrear item
    simp [Queue.step, hi, SbufPc.next, hstore]
  | removeLocked =>
    obtain ⟨x, rest, rfl, hfront⟩ := inv.available hi
    obtain ⟨hfetch, -⟩ := inv.holds.fetch (by omega) hfront
    have hzero : s.sbuf.n ≠ 0 := by omega
    simp [Queue.step, hi, SbufPc.next, hzero, hfetch]
  | _ => cases hbody

/-- The items taken out are the first ones put in; those still pending are in the buffer, at most
`n` of them; the calls of `sbuf_remove` carry off each item taken once; no call returns NULL from
the branch for `n == 0`; and no body is undefined. -/
structure QueueLaw (n : Int) (tr : List (Mark α)) (s : Queue α) : Prop where
  order : takes tr <+: puts tr
  pending : ∃ q, puts tr = takes tr ++ q ∧ (q.length : Int) ≤ n ∧ s.sbuf.Holds q
  returned : (s.threads.filterMap SbufPc.taken).Perm (takes tr)
  neverNull : .removeNull ∉ s.threads
  defined : ∀ (i : Nat) (pc : SbufPc α), s.threads[i]? = some pc → pc.AtBody →
    (Queue.step s (.run i)).isSome

/-- The job queue is a bounded queue under every interleaving. -/
theorem queueLaw_run (null : α) {n : Int} (hn : 1 ≤ n) {as : List (QueueAction α)}
    {tr : List (Mark α)} {s : Queue α}
    (run : Run Queue.step Queue.Counted (Queue.init null n) as tr s) : QueueLaw n tr s := by
  obtain ⟨ops, q, hrun, inv, htaken⟩ := run.simulate (R := Simulates n)
    ⟨queueInv_init null hn, by simp [Queue.init, takes]⟩ (simulates_step hn)
  obtain ⟨horder, hlen⟩ := Fifo.law hrun
  exact {
    order := horder ▸ List.prefix_append _ _
    pending := ⟨q, horder, by omega, inv.holds⟩
    returned := htaken
    neverNull := inv.neverNull
    defined := fun i pc hi hbody => inv.body_defined hn hi hbody }

/-- One cell, two inserts and one remove; the second insert waits until the first item is out. -/
def sampleQueue : List (QueueAction Nat) :=
  [.insert 7, .insert 8, .remove, .run 0, .run 0, .run 0, .run 0, .run 0, .run 2, .run 2, .run 2,
    .run 2, .run 2, .run 1, .run 1, .run 1]

theorem sampleQueue_completes :
    (exec Queue.step Queue.Counted (Queue.init 0 1) sampleQueue).isSome := by decide

theorem queueLaw_run_sample :
    QueueLaw 1 ((exec Queue.step Queue.Counted (Queue.init 0 1) sampleQueue).get
        sampleQueue_completes).2
      ((exec Queue.step Queue.Counted (Queue.init 0 1) sampleQueue).get
        sampleQueue_completes).1 :=
  queueLaw_run 0 (by decide) (run_of_isSome sampleQueue_completes)

end ZBid
