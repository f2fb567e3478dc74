import ZBid.Sbuf
import ZBid.ClientThread
import ZBid.JobOrder
import ZBid.Race

/-!
# The whole program

All the threads together: the accept loop, one client thread for each connection, which reads the
byte stream of its client and queues what it finds, the buffer of sbuf.c at the grain of its
semaphores, any number of job threads, and the tick thread, which walks the list between their
steps. This is what the code is to do: a request is parsed and handled in one step, a client thread
knows a LOGOUT as it reads it, and the buffer has all the cells that were asked for. The code's own
steps and its memory are those of `Process`, which refines it.
-/
namespace ZBid

open CInt CString Runs Framing

/-- A connection, with what its client sends behind the first message, and the client thread,
which may be inside `sbuf_insert`. -/
structure Connection where
  clientFd : Int
  source : List Char
  thread : ClientThread
  call : Option (SbufPc ClientJob)
  deriving DecidableEq, Repr

/-- Each job thread may be inside `sbuf_remove`. -/
structure Program where
  shared : Interleaved
  sbuf : Sbuf ClientJob
  connections : List Connection
  jobThreads : List (Option (SbufPc ClientJob))
  deriving DecidableEq, Repr

/-- `main` passes `BUFFER_SIZE` for `n`. -/
def Program.start (null : ClientJob) (n : Int) (numJobThreads : Nat) : Program :=
  ⟨Interleaved.start, sbufInit null n, [], List.replicate numJobThreads none⟩

inductive ProgramAction where
  | connect (clientFd : Int) (msgType : Nat) (body source : List Char)
  | read (client : Nat) (env : ReadEnv)
  | sbufInsert (client : Nat)
  | sbufRemove (thread : Nat)
  | process (thread : Nat) (env : JobEnv)
  | startTick
  | age
  | close
  deriving DecidableEq, Repr

/-- What the log keeps: what the server did, what a client thread read, what went in and out of the
buffer, and what a job thread has processed. -/
inductive ProgramMark where
  | event (e : Event)
  | read (r : ClientJob)
  | queue (m : Fifo.Mark ClientJob)
  | processed (r : ClientJob)
  deriving DecidableEq, Repr

/-- A client thread goes on when `sbuf_insert` returns. -/
def SbufPc.unlessReturned {α : Type} : SbufPc α → Option (SbufPc α)
  | .insertReturned => none
  | pc => some pc

/-- A step of the tick thread. -/
def Program.tickThread (s : Program) (action : InterleavedAction) :
    Option (Program × List ProgramMark) := do
  let (shared, out) ← Interleaved.step s.shared action
  some ({ s with shared }, out.map .event)

/-- A message that a client thread has read is a call of `sbuf_insert`. A crash ends them all. -/
def Program.step (c : Codec Char) : Step Program ProgramAction ProgramMark := fun s action =>
  if s.shared.tick = .crashed then none
  else
    match action with
    | .connect clientFd msgType body source => do
      let (_, _, started) ← acceptClient s.shared.server clientFd msgType body
      let (shared, out) ← Interleaved.step s.shared (.accept clientFd msgType body)
      let connection : Connection := ⟨clientFd, source, ⟨source, false⟩, none⟩
      some ({ s with
        shared, connections := if started then s.connections ++ [connection] else s.connections },
        out.map .event)
    | .read i env => do
      let x ← s.connections[i]?
      if x.call.isSome then none
      else
        let (thread, jobs) ← processClient c x.clientFd x.thread env
        let call := jobs.head?.map fun job => SbufPc.insertCalled (ClientJob.mk i job)
        some ({ s with connections := s.connections.set i { x with thread, call } },
          jobs.map fun job => .read ⟨i, job⟩)
    | .sbufInsert i => do
      let x ← s.connections[i]?
      let pc ← x.call
      let (sbuf, pc', out) ← pc.next s.sbuf
      some ({ s with
        sbuf, connections := s.connections.set i { x with call := pc'.unlessReturned } },
        out.map .queue)
    | .sbufRemove j => do
      match ← s.jobThreads[j]? with
      | none => some ({ s with jobThreads := s.jobThreads.set j (some .removeCalled) }, [])
      | some pc =>
        let (sbuf, pc', out) ← pc.next s.sbuf
        some ({ s with sbuf, jobThreads := s.jobThreads.set j (some pc') }, out.map .queue)
    | .process j env => do
      match ← s.jobThreads[j]? with
      | some (.removeReturned r) =>
        let (shared, out) ← Interleaved.step s.shared (.job env r.job)
        some ({ s with shared, jobThreads := s.jobThreads.set j none },
          .processed r :: out.map .event)
      | some .removeNull => some ({ s with jobThreads := s.jobThreads.set j none }, [])
      | _ => none
    | .startTick => s.tickThread .startTick
    | .age => s.tickThread .age
    | .close => s.tickThread .close

/-- Where the threads are that have called `sbuf_insert` or `sbuf_remove`. -/
def Program.calls (s : Program) : List (SbufPc ClientJob) :=
  s.connections.filterMap Connection.call ++ s.jobThreads.filterMap id

/-- The requests that job threads have taken out of the buffer and not processed. -/
def Program.held (s : Program) : List ClientJob := s.jobThreads.filterMap (·.bind SbufPc.taken)

/-- The calls of `sbuf_insert` so far: those that have stored their item, and the others. -/
def Program.inserts (s : Program) : Int := s.sbuf.rear + Pool.total SbufPc.toInsert s.calls

/-- What `sbuf_remove` has returned to a job thread. -/
def Program.returnedTo (s : Program) (j : Nat) : Option ClientJob :=
  match s.jobThreads[j]? with
  | some (some (.removeReturned r)) => some r
  | _ => none

/-- What a thread does to the data. -/
def Program.asks (s : Program) : ProgramAction → Option InterleavedAction
  | .connect clientFd msgType body _ => some (.accept clientFd msgType body)
  | .process j env => (s.returnedTo j).map fun r => .job env r.job
  | .startTick => some .startTick
  | .age => some .age
  | .close => some .close
  | .read .. | .sbufInsert _ | .sbufRemove _ => none

/-- `accept` returns fresh descriptors, there are fewer than 2^31 requests, a valid ANCREATE comes
from a recorded descriptor, and `reads` says what is known of the rounds of the client threads. -/
def Program.Sponsored (reads : ClientThread → ReadEnv → Prop) (s : Program) : ProgramAction → Prop
  | .connect clientFd _ _ _ => FreshFd s.shared.server clientFd
  | .read i env => (∀ x ∈ s.connections[i]?, reads x.thread env) ∧ s.inserts + 1 < 0x80000000
  | .process j _ => ∀ r ∈ s.returnedTo j, Creates r.job → Recorded s.shared.server r.job.clientfd
  | _ => True

instance (reads : ClientThread → ReadEnv → Prop) [∀ t env, Decidable (reads t env)] (s : Program) :
    ∀ action, Decidable (s.Sponsored reads action)
  | .connect clientFd _ _ _ => inferInstanceAs (Decidable (FreshFd s.shared.server clientFd))
  | .read i env =>
    inferInstanceAs (Decidable ((∀ x ∈ s.connections[i]?, reads x.thread env) ∧ _ < _))
  | .process j _ => inferInstanceAs (Decidable (∀ r ∈ s.returnedTo j, Creates r.job → _))
  | .sbufInsert _ | .sbufRemove _ | .startTick | .age | .close => inferInstanceAs (Decidable True)

def eventsOf (tr : List ProgramMark) : List Event :=
  tr.filterMap fun
    | .event e => some e
    | _ => none

def readOf (tr : List ProgramMark) : List ClientJob :=
  tr.filterMap fun
    | .read r => some r
    | _ => none

def queueOf (tr : List ProgramMark) : List (Fifo.Mark ClientJob) :=
  tr.filterMap fun
    | .queue m => some m
    | _ => none

def processedOf (tr : List ProgramMark) : List ClientJob :=
  tr.filterMap fun
    | .processed r => some r
    | _ => none

/-- The requests of one client thread. -/
def requestsBy (i : Nat) (rs : List ClientJob) : List ClientJob := rs.filter (·.sender = i)

/-- The item that a call of `sbuf_insert` has yet to store. -/
def SbufPc.storing {α : Type} : SbufPc α → Option α
  | .insertCalled item | .insertSlot item | .insertLocked item => some item
  | _ => none

def InterleavedAction.requested : InterleavedAction → Option Job
  | .job _ asked => some asked
  | _ => none

@[simp] theorem eventsOf_append (tr out : List ProgramMark) :
    eventsOf (tr ++ out) = eventsOf tr ++ eventsOf out := List.filterMap_append
@[simp] theorem readOf_append (tr out : List ProgramMark) :
    readOf (tr ++ out) = readOf tr ++ readOf out := List.filterMap_append
@[simp] theorem queueOf_append (tr out : List ProgramMark) :
    queueOf (tr ++ out) = queueOf tr ++ queueOf out := List.filterMap_append
@[simp] theorem processedOf_append (tr out : List ProgramMark) :
    processedOf (tr ++ out) = processedOf tr ++ processedOf out := List.filterMap_append

@[simp] theorem eventsOf_event (out : List Event) : eventsOf (out.map .event) = out := by
  simp [eventsOf, List.filterMap_map]
@[simp] theorem readOf_event (out : List Event) : readOf (out.map .event) = [] := by
  simp [readOf]
@[simp] theorem queueOf_event (out : List Event) : queueOf (out.map .event) = [] := by
  simp [queueOf]
@[simp] theorem processedOf_event (out : List Event) : processedOf (out.map .event) = [] := by
  simp [processedOf]

@[simp] theorem eventsOf_queue (out : List (Fifo.Mark ClientJob)) :
    eventsOf (out.map .queue) = [] := by
  simp [eventsOf]
@[simp] theorem readOf_queue (out : List (Fifo.Mark ClientJob)) :
    readOf (out.map .queue) = [] := by
  simp [readOf]
@[simp] theorem queueOf_queue (out : List (Fifo.Mark ClientJob)) :
    queueOf (out.map .queue) = out := by
  simp [queueOf, List.filterMap_map]
@[simp] theorem processedOf_queue (out : List (Fifo.Mark ClientJob)) :
    processedOf (out.map .queue) = [] := by
  simp [processedOf]

@[simp] theorem eventsOf_read (i : Nat) (jobs : List Job) :
    eventsOf (jobs.map fun job => .read ⟨i, job⟩) = [] := by
  simp [eventsOf]
@[simp] theorem readOf_read (i : Nat) (jobs : List Job) :
    readOf (jobs.map fun job => .read ⟨i, job⟩) = jobs.map (ClientJob.mk i) := by
  simp [readOf, List.filterMap_map]
@[simp] theorem queueOf_read (i : Nat) (jobs : List Job) :
    queueOf (jobs.map fun job => .read ⟨i, job⟩) = [] := by
  simp [queueOf]
@[simp] theorem processedOf_read (i : Nat) (jobs : List Job) :
    processedOf (jobs.map fun job => .read ⟨i, job⟩) = [] := by
  simp [processedOf]

@[simp] theorem eventsOf_processed (r : ClientJob) (out : List ProgramMark) :
    eventsOf (.processed r :: out) = eventsOf out := rfl
@[simp] theorem readOf_processed (r : ClientJob) (out : List ProgramMark) :
    readOf (.processed r :: out) = readOf out := rfl
@[simp] theorem queueOf_processed (r : ClientJob) (out : List ProgramMark) :
    queueOf (.processed r :: out) = queueOf out := rfl
@[simp] theorem processedOf_processed (r : ClientJob) (out : List ProgramMark) :
    processedOf (.processed r :: out) = r :: processedOf out := rfl

@[simp] theorem requestsBy_append (i : Nat) (rs rs' : List ClientJob) :
    requestsBy i (rs ++ rs') = requestsBy i rs ++ requestsBy i rs' := List.filter_append rs rs'

inductive ProgramEffect (c : Codec Char) (s : Program) :
    ProgramAction → Program → List ProgramMark → Prop where
  | shared {action : ProgramAction} {a : InterleavedAction} {shared : Interleaved}
      {out : List Event} (new : List Connection) : s.asks action = some a →
      Interleaved.step s.shared a = some (shared, out) → a.requested = none →
      (∀ reads, s.Sponsored reads action → s.shared.Sponsored a) →
      (∀ x ∈ new, x.thread = ⟨x.source, false⟩ ∧ x.call = none) →
      ProgramEffect c s action { s with shared, connections := s.connections ++ new }
        (out.map .event)
  | read {i : Nat} {env : ReadEnv} {x : Connection} {thread : ClientThread} {jobs : List Job} :
      s.connections[i]? = some x → x.call = none →
      processClient c x.clientFd x.thread env = some (thread, jobs) →
      ProgramEffect c s (.read i env) { s with
        connections := s.connections.set i { x with
          thread, call := jobs.head?.map fun job => .insertCalled (ClientJob.mk i job) } }
        (jobs.map fun job => .read ⟨i, job⟩)
  | insert {i : Nat} {x : Connection} {pc pc' : SbufPc ClientJob} {sbuf : Sbuf ClientJob}
      {out : List (Fifo.Mark ClientJob)} :
      s.connections[i]? = some x → x.call = some pc → pc.next s.sbuf = some (sbuf, pc', out) →
      ProgramEffect c s (.sbufInsert i) { s with
        sbuf, connections := s.connections.set i { x with call := pc'.unlessReturned } }
        (out.map .queue)
  | call {j : Nat} : s.jobThreads[j]? = some none →
      ProgramEffect c s (.sbufRemove j)
        { s with jobThreads := s.jobThreads.set j (some .removeCalled) } []
  | remove {j : Nat} {pc pc' : SbufPc ClientJob} {sbuf : Sbuf ClientJob}
      {out : List (Fifo.Mark ClientJob)} :
      s.jobThreads[j]? = some (some pc) → pc.next s.sbuf = some (sbuf, pc', out) →
      ProgramEffect c s (.sbufRemove j)
        { s with sbuf, jobThreads := s.jobThreads.set j (some pc') } (out.map .queue)
  | process {j : Nat} {env : JobEnv} {r : ClientJob} {shared : Interleaved} {out : List Event} :
      s.jobThreads[j]? = some (some (.removeReturned r)) →
      Interleaved.step s.shared (.job env r.job) = some (shared, out) →
      ProgramEffect c s (.process j env)
        { s with shared, jobThreads := s.jobThreads.set j none } (.processed r :: out.map .event)
  | null {j : Nat} {env : JobEnv} : s.jobThreads[j]? = some (some .removeNull) →
      ProgramEffect c s (.process j env) { s with jobThreads := s.jobThreads.set j none } []

theorem tickThread_effect {c : Codec Char} {s s' : Program} {action : ProgramAction}
    {a : InterleavedAction} {out : List ProgramMark} (hasks : s.asks action = some a)
    (hjob : a.requested = none) (hok : s.shared.Sponsored a)
    (h : s.tickThread a = some (s', out)) :
    ProgramEffect c s action s' out := by
  simp only [Program.tickThread, Option.bind_eq_bind, Option.bind_eq_some_iff] at h
  obtain ⟨⟨shared, out⟩, hstep, h⟩ := h
  obtain ⟨rfl, rfl⟩ := Prod.mk.inj (Option.some.inj h)
  have heffect : ProgramEffect c s action _ _ :=
    .shared [] hasks hstep hjob (fun _ _ => hok) (by simp)
  simpa using heffect

theorem program_effect {c : Codec Char} {s s' : Program} {action : ProgramAction}
    {out : List ProgramMark} (h : Program.step c s action = some (s', out)) :
    ProgramEffect c s action s' out := by
  simp only [Program.step] at h
  split at h
  · cases h
  cases action with
  | connect clientFd msgType body source =>
    simp only [Option.bind_eq_bind, Option.bind_eq_some_iff] at h
    obtain ⟨⟨_, _, started⟩, -, ⟨shared, out⟩, hstep, h⟩ := h
    obtain ⟨rfl, rfl⟩ := Prod.mk.inj (Option.some.inj h)
    cases started with
    | false =>
      have heffect : ProgramEffect c s (.connect clientFd msgType body source) _ _ :=
        .shared [] rfl hstep rfl (fun _ hok => hok) (by simp)
      simpa using heffect
    | true => exact .shared _ rfl hstep rfl (fun _ hok => hok) (by simp)
  | read i env =>
    obtain ⟨x, hx, h⟩ := Option.bind_eq_some_iff.mp h
    split at h
    · cases h
    · rename_i hcall
      obtain ⟨⟨thread, jobs⟩, hread, h⟩ := Option.bind_eq_some_iff.mp h
      obtain ⟨rfl, rfl⟩ := Prod.mk.inj (Option.some.inj h)
      exact .read hx (by simpa using hcall) hread
  | sbufInsert i =>
    obtain ⟨x, hx, h⟩ := Option.bind_eq_some_iff.mp h
    obtain ⟨pc, hcall, h⟩ := Option.bind_eq_some_iff.mp h
    obtain ⟨⟨sbuf, pc', out⟩, hnext, h⟩ := Option.bind_eq_some_iff.mp h
    obtain ⟨rfl, rfl⟩ := Prod.mk.inj (Option.some.inj h)
    exact .insert hx hcall hnext
  | sbufRemove j =>
    obtain ⟨call, hcall, h⟩ := Option.bind_eq_some_iff.mp h
    cases call with
    | none =>
      obtain ⟨rfl, rfl⟩ := Prod.mk.inj (Option.some.inj h)
      exact .call hcall
    | some pc =>
      obtain ⟨⟨sbuf, pc', out⟩, hnext, h⟩ := Option.bind_eq_some_iff.mp h
      obtain ⟨rfl, rfl⟩ := Prod.mk.inj (Option.some.inj h)
      exact .remove hcall hnext
  | process j env =>
    obtain ⟨call, hcall, h⟩ := Option.bind_eq_some_iff.mp h
    split at h
    · obtain ⟨⟨shared, out⟩, hstep, h⟩ := Option.bind_eq_some_iff.mp h
      obtain ⟨rfl, rfl⟩ := Prod.mk.inj (Option.some.inj h)
      exact .process hcall hstep
    · obtain ⟨rfl, rfl⟩ := Prod.mk.inj (Option.some.inj h)
      exact .null hcall
    · cases h
  | startTick => exact tickThread_effect (a := .startTick) rfl rfl trivial h
  | age => exact tickThread_effect (a := .age) rfl rfl trivial h
  | close => exact tickThread_effect (a := .close) rfl rfl trivial h

/-- What a step does to the data, and what of the log comes from there. -/
theorem program_shared {c : Codec Char} {s s' : Program} {action : ProgramAction}
    {out : List ProgramMark} (h : Program.step c s action = some (s', out)) :
    (s.asks action = none ∧ s'.shared = s.shared ∧ eventsOf out = [] ∧ processedOf out = []) ∨
    ∃ a, s.asks action = some a ∧ Interleaved.step s.shared a = some (s'.shared, eventsOf out) ∧
      (processedOf out).map ClientJob.job = a.requested.toList := by
  cases program_effect h with
  | shared new hasks hstep hjob =>
    refine Or.inr ⟨_, hasks, ?_, ?_⟩
    · rw [eventsOf_event]
      exact hstep
    · rw [processedOf_event, hjob]
      rfl
  | read => exact Or.inl ⟨rfl, rfl, eventsOf_read _ _, processedOf_read _ _⟩
  | insert | remove => exact Or.inl ⟨rfl, rfl, eventsOf_queue _, processedOf_queue _⟩
  | call => exact Or.inl ⟨rfl, rfl, rfl, rfl⟩
  | @process j env r _ _ hj hstep =>
    have hreturned : s.returnedTo j = some r := by simp [Program.returnedTo, hj]
    refine Or.inr ⟨.job env r.job, by rw [Program.asks, hreturned]; rfl, ?_, ?_⟩
    · rw [eventsOf_processed, eventsOf_event]
      exact hstep
    · rw [processedOf_processed, processedOf_event]
      rfl
  | @null j env hj =>
    have hreturned : s.returnedTo j = none := by simp [Program.returnedTo, hj]
    exact Or.inl ⟨by rw [Program.asks, hreturned]; rfl, rfl, rfl, rfl⟩

section Buffered

variable {α : Type} {n : Int} {marks out : List (Fifo.Mark α)} {sbuf sbuf' : Sbuf α}
  {calls calls' : List (SbufPc α)} {pc pc' : SbufPc α}

/-- The buffer is as the calls in progress leave it, together with those that have returned. -/
def Buffered (n : Int) (marks : List (Fifo.Mark α)) (sbuf : Sbuf α)
    (calls : List (SbufPc α)) : Prop :=
  ∃ ops q returned, Run (Fifo.step n.toNat) (fun _ _ => True) [] ops marks q ∧
    QueueInv n ⟨sbuf, calls ++ returned⟩ q ∧ Pool.total SbufPc.toInsert returned = 0

theorem buffered_init (null : α) {n : Int} (hn : 1 ≤ n) :
    Buffered n [] (sbufInit null n) ([] : List (SbufPc α)) :=
  ⟨[], [], [], .start, queueInv_init null hn, rfl⟩

theorem QueueInv.perm {s : Queue α} {q : List α} (inv : QueueInv n s q)
    (h : s.threads.Perm calls) : QueueInv n ⟨s.sbuf, calls⟩ q := by
  obtain ⟨capacity, holds, slots, items, mutex, semaphores, counted, few, neverNull⟩ := inv
  simp only [Pool.total_perm _ h] at slots items mutex counted few
  exact ⟨capacity, holds, slots, items, mutex, semaphores, counted, few,
    fun hnull => neverNull (h.mem_iff.mpr hnull)⟩

theorem Buffered.perm (inv : Buffered n marks sbuf calls) (h : calls.Perm calls') :
    Buffered n marks sbuf calls' := by
  obtain ⟨ops, q, returned, hrun, queue, hdone⟩ := inv
  exact ⟨ops, q, returned, hrun, queue.perm (h.append_right returned), hdone⟩

theorem total_toInsert_append (calls : List (SbufPc α)) {returned : List (SbufPc α)}
    (h : Pool.total SbufPc.toInsert returned = 0) :
    Pool.total SbufPc.toInsert (calls ++ returned) = Pool.total SbufPc.toInsert calls := by
  simp only [Pool.total, List.map_append, List.sum_append] at h ⊢
  omega

/-- There have been fewer than 2^31 calls of `sbuf_insert`. -/
theorem Buffered.few (inv : Buffered n marks sbuf calls) :
    sbuf.rear + Pool.total SbufPc.toInsert calls < 0x80000000 := by
  obtain ⟨ops, q, returned, hrun, queue, hdone⟩ := inv
  have hcounted := queue.counted
  have hfew := queue.few
  simp only [total_toInsert_append calls hdone] at hcounted hfew
  omega

/-- A call begins. -/
theorem Buffered.enter (inv : Buffered n marks sbuf calls) (hslots : pc.owesSlot = 0)
    (hitems : pc.owesItem = 0) (hmutex : pc.holdsMutex = 0) (hcount : pc.toInsert = pc.inserting)
    (hfew : sbuf.rear + Pool.total SbufPc.toInsert calls + pc.inserting < 0x80000000)
    (hnull : pc ≠ .removeNull) : Buffered n marks sbuf (pc :: calls) := by
  obtain ⟨ops, q, returned, hrun, queue, hdone⟩ := inv
  have hcounted := queue.counted
  rw [total_toInsert_append calls hdone] at hcounted
  have hfew' : Pool.total SbufPc.inserting (calls ++ returned) + pc.inserting < 0x80000000 := by
    simp only at hcounted
    omega
  have hnew := queue.enter hslots hitems hmutex hcount hfew' hnull
  exact ⟨ops, q, returned, hrun, hnew.perm (List.perm_append_singleton pc _), hdone⟩

/-- A call makes a step. -/
theorem Buffered.next (hn : 1 ≤ n) (inv : Buffered n marks sbuf (pc :: calls))
    (h : pc.next sbuf = some (sbuf', pc', out)) :
    Buffered n (marks ++ out) sbuf' (pc' :: calls) := by
  obtain ⟨ops, q, returned, hrun, queue, hdone⟩ := inv
  obtain ⟨ops', q', hrun', queue'⟩ := queueInv_next hn queue (i := 0) rfl h
  exact ⟨ops ++ ops', q', returned, hrun.trans hrun', queue', hdone⟩

/-- A call that has nothing left to insert is over. -/
theorem Buffered.leave (inv : Buffered n marks sbuf (pc :: calls)) (h : pc.toInsert = 0) :
    Buffered n marks sbuf calls := by
  obtain ⟨ops, q, returned, hrun, queue, hdone⟩ := inv
  refine ⟨ops, q, pc :: returned, hrun, queue.perm List.perm_middle.symm, ?_⟩
  simp only [Pool.total, List.map_cons, List.sum_cons] at hdone ⊢
  omega

/-- A client thread leaves the call that returns. -/
theorem Buffered.unlessReturned (inv : Buffered n marks sbuf (pc :: calls)) :
    Buffered n marks sbuf (pc.unlessReturned.toList ++ calls) := by
  cases pc with
  | insertReturned => exact inv.leave rfl
  | _ => exact inv

end Buffered

/-- The calls that other threads than this connection's are in. -/
theorem calls_connection {s : Program} {i : Nat} {x : Connection}
    (hx : s.connections[i]? = some x) : ∃ others, s.calls.Perm (x.call.toList ++ others) ∧
      ∀ sbuf y, Program.calls { s with sbuf, connections := s.connections.set i y } |>.Perm
        (y.call.toList ++ others) := by
  obtain ⟨others, hold, hset⟩ := Pool.filterMap_split Connection.call hx
  refine ⟨others ++ s.jobThreads.filterMap id, ?_, ?_⟩
  · simpa [Program.calls] using hold.append_right (s.jobThreads.filterMap id)
  · intro sbuf y
    simpa [Program.calls] using (hset y).append_right (s.jobThreads.filterMap id)

/-- The calls that other threads than this job thread are in. -/
theorem calls_jobThread {s : Program} {j : Nat} {call : Option (SbufPc ClientJob)}
    (hj : s.jobThreads[j]? = some call) : ∃ others, s.calls.Perm (call.toList ++ others) ∧
      ∀ shared sbuf call', Program.calls
        { s with shared, sbuf, jobThreads := s.jobThreads.set j call' } |>.Perm
          (call'.toList ++ others) := by
  obtain ⟨others, hold, hset⟩ := Pool.filterMap_split id hj
  have hswap (l l' : List (SbufPc ClientJob)) :
      (s.connections.filterMap Connection.call ++ (l ++ l')).Perm
        (l ++ (l' ++ s.connections.filterMap Connection.call)) := by
    rw [← List.append_assoc l]
    exact List.perm_append_comm
  refine ⟨others ++ s.connections.filterMap Connection.call, ?_, ?_⟩
  · exact (hold.append_left _).trans (hswap _ _)
  · intro shared sbuf call'
    exact ((hset call').append_left _).trans (hswap _ _)

theorem program_buffered {c : Codec Char} {reads : ClientThread → ReadEnv → Prop} {n : Int}
    (hn : 1 ≤ n) {s s' : Program} {action : ProgramAction} {tr out : List ProgramMark}
    (inv : Buffered n (queueOf tr) s.sbuf s.calls) (hok : s.Sponsored reads action)
    (h : ProgramEffect c s action s' out) :
    Buffered n (queueOf (tr ++ out)) s'.sbuf s'.calls := by
  rw [queueOf_append]
  cases h with
  | shared new _ _ _ _ hnew =>
    have hnone : new.filterMap Connection.call = [] := by
      simpa [List.filterMap_eq_nil_iff] using fun x hx => (hnew x hx).2
    simpa [Program.calls, hnone] using inv
  | @read i env x thread jobs hx hcall =>
    obtain ⟨others, hold, hset⟩ := calls_connection hx
    rw [queueOf_read, List.append_nil]
    refine Buffered.perm ?_ (List.Perm.symm (hset _ _))
    have hfew := hok.2
    rw [Program.inserts, Pool.total_perm _ hold] at hfew
    have hcalls := inv.perm hold
    rw [hcall] at hcalls hfew
    cases jobs with
    | nil => exact hcalls
    | cons job jobs => exact hcalls.enter rfl rfl rfl rfl hfew (by simp)
  | insert hx hcall hnext =>
    obtain ⟨others, hold, hset⟩ := calls_connection hx
    have hcalls := inv.perm hold
    rw [hcall] at hcalls
    rw [queueOf_queue]
    exact (hcalls.next hn hnext).unlessReturned.perm (List.Perm.symm (hset _ _))
  | call hj =>
    obtain ⟨others, hold, hset⟩ := calls_jobThread hj
    have hcalls := inv.perm hold
    have hfew := hcalls.few
    rw [show queueOf [] = [] from rfl, List.append_nil]
    have hbegun : Buffered n _ s.sbuf (.removeCalled :: _) :=
      hcalls.enter rfl rfl rfl rfl (by simpa using hfew) (by simp)
    exact hbegun.perm (List.Perm.symm (hset _ _ _))
  | remove hj hnext =>
    obtain ⟨others, hold, hset⟩ := calls_jobThread hj
    rw [queueOf_queue]
    exact ((inv.perm hold).next hn hnext).perm (List.Perm.symm (hset _ _ _))
  | process hj =>
    obtain ⟨others, hold, hset⟩ := calls_jobThread hj
    simpa using ((inv.perm hold).leave rfl).perm (List.Perm.symm (hset _ _ none))
  | null hj =>
    obtain ⟨others, hold, hset⟩ := calls_jobThread hj
    simpa [queueOf] using ((inv.perm hold).leave rfl).perm (List.Perm.symm (hset _ _ none))

end ZBid
