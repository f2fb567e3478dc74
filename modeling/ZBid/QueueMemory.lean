import ZBid.Sbuf

/-!
# The memory behind the job queue

`sbuf_init` asks `calloc` for `n` ints and stores pointers there, which are twice as large. The
counters walk through all residues modulo `n`, so the indices stay in the block only until the
insert counter has gone through the first half of them.
-/
namespace ZBid

open CInt Runs Fifo

variable {α : Type}

def sizeofInt : Int := 4

/-- The size of a `job_t*`. -/
def sizeofPtr : Int := 8

/-- The cells of type `job_t*` in the block that `calloc(n, sizeof(int))` returns. -/
def cellsProvided (n : Int) : Int := n * sizeofInt / sizeofPtr

/-- The index that the body which logs a mark uses. -/
def Sbuf.index (sp : Sbuf α) : Mark α → Int
  | .put _ => (sp.rear + 1).tmod sp.n
  | .take _ => (sp.front + 1).tmod sp.n

/-- The queue's step, with the index of the cell beside each mark. -/
def Queue.accessStep : Step (Queue α) (QueueAction α) (Mark α × Int) := fun s action =>
  (Queue.step s action).map fun (s', out) => (s', out.map fun m => (m, s.sbuf.index m))

def InBlock (n k : Int) : Prop := 0 ≤ k ∧ k < cellsProvided n

/-- How many bodies of `sbuf_insert` a log tells of. -/
def inserts (tr : List (Mark α × Int)) : Int := (puts (tr.map Prod.fst)).length

/-- The counters against the log and the semaphores: an item that a thread may take has been put
in before. -/
structure CounterInv (n : Int) (tr : List (Mark α × Int)) (s : Queue α) : Prop where
  capacity : s.sbuf.n = n
  rear : s.sbuf.rear = inserts tr
  front : 0 ≤ s.sbuf.front
  items : s.sbuf.rear = s.sbuf.front + s.sbuf.items + Pool.total SbufPc.owesItem s.threads
  semaphores : 0 ≤ s.sbuf.slots ∧ 0 ≤ s.sbuf.items ∧ 0 ≤ s.sbuf.mutex

theorem counterInv_init (null : α) {n : Int} (hn : 1 ≤ n) :
    CounterInv n [] (Queue.init null n) := by
  refine ⟨rfl, rfl, le_rfl, rfl, ?_, le_rfl, Int.one_nonneg⟩
  exact Int.le_trans Int.one_nonneg hn

/-- A step of a thread is a P or a V, or one of the two bodies. -/
inductive CounterStep (sp : Sbuf α) (pc : SbufPc α) : Sbuf α → SbufPc α → List (Mark α) → Prop where
  | sem {sp' pc'} : SemStep sp sp' pc pc' → CounterStep sp pc sp' pc' []
  | put {pc'} (item : α) (buf : List α) : pc.owesItem = 0 → pc'.owesItem = 1 →
      CounterStep sp pc { sp with rear := sp.rear + 1, buf } pc' [.put item]
  | take {pc'} (item : α) : pc.owesItem = 1 → pc'.owesItem = 0 →
      CounterStep sp pc { sp with front := sp.front + 1 } pc' [.take item]

theorem next_counterStep {sp sp' : Sbuf α} (hn : sp.n ≠ 0) {pc pc' : SbufPc α}
    {out : List (Mark α)} (h : pc.next sp = some (sp', pc', out)) :
    CounterStep sp pc sp' pc' out := by
  cases pc with
  | insertLocked item =>
    simp only [SbufPc.next, Sbuf.store, Option.bind_eq_bind, Option.bind_eq_some_iff,
      Option.some.injEq, Prod.mk.injEq] at h
    obtain ⟨_, ⟨rear, hrear, k, -, rfl⟩, rfl, rfl, rfl⟩ := h
    rw [(incr_eq_some hrear).1]
    exact .put item _ rfl rfl
  | removeLocked =>
    simp only [SbufPc.next, if_neg hn, Sbuf.fetch, Option.bind_eq_bind, Option.bind_eq_some_iff,
      Option.some.injEq, Prod.mk.injEq] at h
    obtain ⟨⟨_, item⟩, ⟨front, hfront, k, -, _, -, rfl, rfl⟩, rfl, rfl, rfl⟩ := h
    rw [(incr_eq_some hfront).1]
    exact .take item rfl rfl
  | _ =>
    obtain ⟨rfl, hsem⟩ := next_semStep h (by simp [SbufPc.AtBody])
    exact .sem hsem

@[simp] theorem inserts_nil : inserts ([] : List (Mark α × Int)) = 0 := rfl

@[simp] theorem inserts_put (tr : List (Mark α × Int)) (item : α) (k : Int) :
    inserts (tr ++ [(.put item, k)]) = inserts tr + 1 := by
  simp [inserts]

@[simp] theorem inserts_take (tr : List (Mark α × Int)) (item : α) (k : Int) :
    inserts (tr ++ [(.take item, k)]) = inserts tr := by
  simp [inserts]

theorem cellsProvided_eq (n : Int) : cellsProvided n = n / 2 := by
  simp only [cellsProvided, sizeofInt, sizeofPtr]
  omega

/-- The arithmetic of one insert: the first index outside is met at half of `n`, or at once. -/
theorem inBlock_next {n k : Int} (hn : 1 ≤ n) (hk : 0 ≤ k) :
    (k = 0 ∨ k < cellsProvided n) ∧ InBlock n ((k + 1).tmod n) ↔ k + 1 < cellsProvided n := by
  simp only [InBlock, cellsProvided_eq, Int.tmod_eq_emod_of_nonneg (show 0 ≤ k + 1 by omega)]
  by_cases hlt : k + 1 < n
  · rw [Int.emod_eq_of_lt (by omega) hlt]
    omega
  · -- Only with one cell does the first insert wrap around at once.
    have hpos := Int.emod_nonneg (k + 1) (show n ≠ 0 by omega)
    omega

/-- An index of `sbuf_remove` follows one of `sbuf_insert`. -/
theorem inBlock_take {n f k : Int} (hf : 0 ≤ f) (hfk : f < k) (hk : k = 0 ∨ k < cellsProvided n) :
    InBlock n ((f + 1).tmod n) := by
  simp only [InBlock, cellsProvided_eq, Int.tmod_eq_emod_of_nonneg (show 0 ≤ f + 1 by omega)]
    at hk ⊢
  rw [Int.emod_eq_of_lt (by omega) (by omega)]
  omega

/-- A call of one of the two functions owes nothing yet. -/
theorem CounterInv.enter {n : Int} {tr : List (Mark α × Int)} {s : Queue α}
    (inv : CounterInv n tr s) {pc : SbufPc α} (hitems : pc.owesItem = 0) :
    CounterInv n tr { s with threads := s.threads ++ [pc] } := by
  refine ⟨inv.capacity, inv.rear, inv.front, ?_, inv.semaphores⟩
  simp only [Pool.total_append, hitems]
  exact inv.items

/-- The indices of a log all lie in the block as long as the inserts are few. -/
def BlockLaw (n : Int) (tr : List (Mark α × Int)) : Prop :=
  (∀ e ∈ tr, InBlock n e.2) ↔ inserts tr = 0 ∨ inserts tr < cellsProvided n

theorem blockLaw_next {n : Int} (hn : 1 ≤ n) {tr : List (Mark α × Int)} {s : Queue α}
    (inv : CounterInv n tr s) (law : BlockLaw n tr) {i : Nat} {pc pc' : SbufPc α} {sbuf : Sbuf α}
    {out : List (Mark α)} (hi : s.threads[i]? = some pc)
    (h : CounterStep s.sbuf pc sbuf pc' out) :
    CounterInv n (tr ++ out.map fun m => (m, s.sbuf.index m)) ⟨sbuf, s.threads.set i pc'⟩ ∧
      BlockLaw n (tr ++ out.map fun m => (m, s.sbuf.index m)) := by
  obtain ⟨capacity, hrear, hfront, hitems, hsem⟩ := inv
  have howes := Pool.total_set SbufPc.owesItem pc' hi
  have hle := Pool.le_total SbufPc.owesItem hi
  cases h with
  | sem hstep =>
    have hpaid := hstep.items
    have hsbuf := hstep.frame
    simp only [List.map_nil, List.append_nil]
    refine ⟨⟨?_, ?_, ?_, ?_, hstep.semaphores hsem⟩, law⟩
    · rw [hsbuf]
      exact capacity
    · rw [hsbuf]
      exact hrear
    · rw [hsbuf]
      exact hfront
    · rw [hsbuf] at hpaid ⊢
      dsimp only at hpaid ⊢
      omega
  | put item buf hzero hone =>
    simp only [List.map_cons, List.map_nil]
    refine ⟨⟨capacity, ?_, hfront, ?_, hsem⟩, ?_⟩
    · simp only [inserts_put, hrear]
    · dsimp only
      omega
    · have hnext := inBlock_next hn (show 0 ≤ inserts tr by omega)
      have hboth := (and_congr_left' law).trans hnext
      simp only [BlockLaw, List.forall_mem_append, List.forall_mem_singleton, inserts_put,
        Sbuf.index, hrear, capacity]
      rw [hboth]
      omega
  | take item hone hzero =>
    simp only [List.map_cons, List.map_nil]
    refine ⟨⟨capacity, ?_, ?_, ?_, hsem⟩, ?_⟩
    · simp only [inserts_take, hrear]
    · dsimp only
      omega
    · dsimp only
      omega
    · have hlt : s.sbuf.front < inserts tr := by omega
      simp only [BlockLaw, List.forall_mem_append, List.forall_mem_singleton, inserts_take,
        Sbuf.index, capacity]
      exact ⟨fun h => law.mp h.1, fun h => ⟨law.mpr h, inBlock_take hfront hlt h⟩⟩

theorem blockLaw_step {n : Int} (hn : 1 ≤ n) {tr out : List (Mark α × Int)} {s s' : Queue α}
    {action : QueueAction α} (inv : CounterInv n tr s) (law : BlockLaw n tr)
    (h : Queue.accessStep s action = some (s', out)) :
    CounterInv n (tr ++ out) s' ∧ BlockLaw n (tr ++ out) := by
  simp only [Queue.accessStep, Option.map_eq_some_iff] at h
  obtain ⟨⟨s₁, marks⟩, hstep, h⟩ := h
  obtain ⟨rfl, rfl⟩ := Prod.mk.inj h
  cases action with
  | insert item =>
    obtain ⟨rfl, rfl⟩ := Prod.mk.inj (Option.some.inj hstep)
    simpa using ⟨inv.enter rfl, law⟩
  | remove =>
    obtain ⟨rfl, rfl⟩ := Prod.mk.inj (Option.some.inj hstep)
    simpa using ⟨inv.enter rfl, law⟩
  | run i =>
    simp only [Queue.step, Option.bind_eq_bind, Option.bind_eq_some_iff, Option.some.injEq,
      Prod.mk.injEq] at hstep
    obtain ⟨pc, hi, ⟨sbuf, pc', out'⟩, hnext, rfl, rfl⟩ := hstep
    have hzero : s.sbuf.n ≠ 0 := by
      have := inv.capacity
      omega
    exact blockLaw_next hn inv law hi (next_counterStep hzero hnext)

/-- Every index of a run lies in the block that `sbuf_init` gets if and only if there is no insert
at all, or there are fewer inserts than the block has cells. -/
theorem blockLaw_run (null : α) {n : Int} (hn : 1 ≤ n) {as : List (QueueAction α)}
    {tr : List (Mark α × Int)} {s : Queue α}
    (run : Run Queue.accessStep (fun _ _ => True) (Queue.init null n) as tr s) :
    (∀ e ∈ tr, InBlock n e.2) ↔ inserts tr = 0 ∨ inserts tr < cellsProvided n := by
  have hboth : CounterInv n tr s ∧ BlockLaw n tr := by
    refine run.invariant (P := fun _ tr s => CounterInv n tr s ∧ BlockLaw n tr) ?_ ?_
    · exact ⟨counterInv_init null hn, by simp [BlockLaw]⟩
    · intro _ _ _ _ _ _ _ hinv _ hstep
      exact blockLaw_step hn hinv.1 hinv.2 hstep
  exact hboth.2

/-- One item goes through the queue. -/
def sampleJourney : List (QueueAction Nat) :=
  [.insert 7, .remove, .run 0, .run 0, .run 0, .run 0, .run 0, .run 1, .run 1, .run 1]

def sampleAccesses : List (Mark Nat × Int) :=
  ((exec Queue.accessStep (fun _ _ => True) (Queue.init 0 4) sampleJourney).get (by decide)).2

/-- Four cells were asked for, and the block has two. -/
theorem blockLaw_run_sample :
    (∀ e ∈ sampleAccesses, InBlock 4 e.2) ↔
      inserts sampleAccesses = 0 ∨ inserts sampleAccesses < cellsProvided 4 :=
  blockLaw_run 0 (by decide) (run_of_isSome (by decide))

/-- With two cells asked for, the first insert already writes behind the block. -/
theorem blockLaw_fails : ¬ ∀ (n : Int), 1 ≤ n → ∀ (as : List (QueueAction Nat)) tr s,
    Run Queue.accessStep (fun _ _ => True) (Queue.init 0 n) as tr s → ∀ e ∈ tr, InBlock n e.2 := by
  intro claim
  have run : Run Queue.accessStep (fun _ _ => True) (Queue.init 0 2) sampleJourney
      [(.put 7, 1), (.take 7, 1)] ⟨⟨[0, 7], 2, 1, 1, 0, 1, 0⟩,
        [.insertReturned, .removeTaken 7]⟩ :=
    run_of_exec (by decide)
  have hin := claim 2 (by decide) _ _ _ run (.put 7, 1) (by simp)
  exact absurd hin.2 (by decide)

end ZBid
