import ZBid.Program
import ZBid.QueueMemory
import ZBid.Tokenizer

/-!
# The threads as the code has them

`Program` parses and handles a request in one step, gives the buffer all the cells that were asked
for, and lets a client thread see a LOGOUT as it reads it. Here every call of `strtok` is a step on
the one saved pointer, the buffer has the cells of the block that `calloc` returned, and a `job_t`
is a block that `run_jobs` may free before the client thread looks at it again. As long as no thread
calls `strtok` between the calls of another, each step is one of `Program` or none.
-/
namespace ZBid

open CInt CString Runs Framing

/-- A `job_t` on the heap. -/
structure JobBlock where
  block : Nat
  request : ClientJob
  deriving DecidableEq, Repr

/-- Stands for NULL. -/
def JobBlock.null : JobBlock := ⟨0, 0, [], 0, 0⟩

/-- The test behind `sbuf_insert`. -/
def JobBlock.leaves (newJob : JobBlock) : Bool :=
  decide (newJob.request.job.jobMsgType = MsgType.LOGOUT.code)

/-- A connection and its thread. The thread has called `sbuf_insert` for `newJob`, and has yet to
return from it or to test the job. -/
structure ClientConnection where
  clientFd : Int
  source : List Char
  thread : ClientThread
  newJob : Option (JobBlock × SbufPc JobBlock)
  deriving DecidableEq, Repr

/-- Where a job thread is in the loop of `run_jobs`. -/
inductive JobThread where
  | idle
  | removing (pc : SbufPc JobBlock)
  | processing (job : JobBlock)
  | processed (job : JobBlock)
  deriving DecidableEq, Repr

/-- What `run_server` has accepted, with its first message. -/
structure Visitor where
  clientFd : Int
  msgType : Nat
  body : List Char
  source : List Char
  deriving DecidableEq, Repr

/-- `received` is what the calls of `strtok` have returned to a thread, once it has made them
all. -/
structure Process where
  shared : Interleaved
  sbuf : Sbuf JobBlock
  tokenizer : Tokenizer
  received : ThreadId → Option Parse
  visitor : Option Visitor
  clients : List ClientConnection
  jobThreads : List JobThread
  blocks : Nat
  freed : List Nat

/-- The block that `calloc` returns has room for half as many pointers as ints. -/
def Process.start (n : Int) (numJobThreads : Nat) : Process where
  shared := Interleaved.start
  sbuf := { sbufInit JobBlock.null n with
    buf := List.replicate (cellsProvided n).toNat JobBlock.null }
  tokenizer := Tokenizer.start
  received := fun _ => none
  visitor := none
  clients := []
  jobThreads := List.replicate numJobThreads .idle
  blocks := 0
  freed := []

/-- A connection is accepted, parsed and logged in. A job is removed, begun, parsed, handled and
freed. -/
inductive ProcessAction where
  | accept (v : Visitor)
  | strtok (t : ThreadId)
  | connect
  | read (client : Nat) (env : ReadEnv)
  | sbufInsert (client : Nat)
  | test (client : Nat)
  | sbufRemove (thread : Nat)
  | begin (thread : Nat)
  | handle (thread : Nat) (env : JobEnv)
  | free (thread : Nat)
  | startTick
  | age
  | close
  deriving DecidableEq, Repr

/-- What `run_server` parses. -/
def Visitor.kind (v : Visitor) : Option ParseKind :=
  if v.msgType = MsgType.LOGIN.code then some .LOGIN else none

/-- What `processJob` parses. -/
def Job.kind (job : Job) : Option ParseKind :=
  match MsgType.ofCode job.jobMsgType with
  | some .ANCREATE => some .ANCREATE
  | some .ANBID => some .ANBID
  | _ => none

/-- A thread turns to a message, which it may have to parse. -/
def Process.turn (s : Process) (t : ThreadId) (kind : Option ParseKind) (bytes : List Char) :
    Option Process :=
  let received := Function.update s.received t none
  match kind with
  | none => some { s with received }
  | some kind => do
    let (tokenizer, _) ← s.tokenizer.step (.parse t kind bytes)
    some { s with tokenizer, received }

/-- `run_server` behind the two calls of `strtok`. -/
def Server.acceptVisitor (s : Server) (v : Visitor) (received : Option Parse) :
    Option (Server × List Event × Bool) :=
  match v.kind, received.map Parse.obtained with
  | none, _ => acceptClient s v.clientFd v.msgType v.body
  | some _, some [username, password] => do
    let (s', out, result) ← login (s.opened v.clientFd) v.clientFd
      (username.map (CharPtr.mk s.blocks)) (password.map (CharPtr.mk s.blocks))
    if result = -1 then some ({ s' with openFds := s.openFds }, out, false)
    else some (s', out, true)
  | _, _ => none

/-- `processJob` behind the calls of `strtok`. A NULL among the tokens is undefined. -/
def Server.handle (s : Server) (env : JobEnv) (job : Job) (received : Option Parse) :
    Option (Server × List Event) :=
  match job.kind with
  | none => processJob s env job
  | some _ =>
    match received.bind Parse.request with
    | some (.create itemName duration price) =>
      createAuction s env.malloc job.clientfd itemName duration price
    | some (.bid auctionId bid) => bidAuction s job.clientfd auctionId bid
    | _ => none

def markRequest (m : Fifo.Mark JobBlock) : ProgramMark := .queue (m.map JobBlock.request)

/-- A step of the tick thread. -/
def Process.tickThread (s : Process) (action : InterleavedAction) :
    Option (Process × List ProgramMark) := do
  let (shared, out) ← Interleaved.step s.shared action
  some ({ s with shared }, out.map .event)

/-- A client thread that has read a message mallocs a job, inserts it and then tests its type, which
is undefined when the block has been freed. -/
def Process.step (c : Codec Char) : Step Process ProcessAction ProgramMark := fun s action =>
  if s.shared.tick = .crashed then none
  else
    match action with
    | .accept v =>
      if s.visitor.isSome then none
      else (s.turn .main v.kind v.body).map fun s' => ({ s' with visitor := some v }, [])
    | .strtok t => do
      let (tokenizer, done) ← s.tokenizer.step (.strtok t)
      let received := if done = [] then s.received else Function.update s.received t done.head?
      some ({ s with tokenizer, received }, [])
    | .connect => do
      let v ← s.visitor
      let (server, out, started) ← s.shared.server.acceptVisitor v (s.received .main)
      let client : ClientConnection := ⟨v.clientFd, v.source, ⟨v.source, false⟩, none⟩
      some ({ s with
        shared := { s.shared with server }, visitor := none
        clients := if started then s.clients ++ [client] else s.clients }, out.map .event)
    | .read i env => do
      let x ← s.clients[i]?
      if x.newJob.isSome then none
      else
        let (thread, jobs) ← processClient c x.clientFd x.thread env
        let newJob := jobs.head?.map fun job => JobBlock.mk s.blocks ⟨i, job⟩
        let newJob := newJob.map fun newJob => (newJob, SbufPc.insertCalled newJob)
        let thread := { thread with returned := false }
        some ({ s with
          clients := s.clients.set i { x with thread, newJob }, blocks := s.blocks + jobs.length },
          jobs.map fun job => .read ⟨i, job⟩)
    | .sbufInsert i => do
      let x ← s.clients[i]?
      let (newJob, pc) ← x.newJob
      let (sbuf, pc', out) ← pc.next s.sbuf
      some ({ s with sbuf, clients := s.clients.set i { x with newJob := some (newJob, pc') } },
        out.map markRequest)
    | .test i => do
      let x ← s.clients[i]?
      match x.newJob with
      | some (newJob, .insertReturned) =>
        if newJob.block ∈ s.freed then none
        else
          let thread := { x.thread with returned := newJob.leaves }
          some ({ s with clients := s.clients.set i { x with thread, newJob := none } }, [])
      | _ => none
    | .sbufRemove j => do
      match ← s.jobThreads[j]? with
      | .idle => some ({ s with jobThreads := s.jobThreads.set j (.removing .removeCalled) }, [])
      | .removing pc =>
        let (sbuf, pc', out) ← pc.next s.sbuf
        some ({ s with sbuf, jobThreads := s.jobThreads.set j (.removing pc') },
          out.map markRequest)
      | _ => none
    | .begin j => do
      match ← s.jobThreads[j]? with
      | .removing (.removeReturned job) =>
        let s' ← s.turn (.job j) job.request.job.kind job.request.job.jobBuffer
        some ({ s' with jobThreads := s.jobThreads.set j (.processing job) }, [])
      | _ => none
    | .handle j env => do
      match ← s.jobThreads[j]? with
      | .processing job =>
        let (server, out) ← s.shared.server.handle env job.request.job (s.received (.job j))
        some ({ s with
          shared := { s.shared with server }, jobThreads := s.jobThreads.set j (.processed job) },
          .processed job.request :: out.map .event)
      | .removing .removeNull => some ({ s with jobThreads := s.jobThreads.set j .idle }, [])
      | _ => none
    | .free j => do
      match ← s.jobThreads[j]? with
      | .processed job =>
        some ({ s with freed := job.block :: s.freed, jobThreads := s.jobThreads.set j .idle }, [])
      | _ => none
    | .startTick => s.tickThread .startTick
    | .age => s.tickThread .age
    | .close => s.tickThread .close

/-- No thread calls `strtok` between the calls of another. -/
def Process.Uninterrupted (s : Process) : ProcessAction → Prop
  | .strtok t => s.tokenizer.Uninterrupted (.strtok t)
  | _ => True

instance (s : Process) : ∀ action, Decidable (s.Uninterrupted action)
  | .strtok t => inferInstanceAs (Decidable (s.tokenizer.Uninterrupted (.strtok t)))
  | .accept _ | .connect | .read .. | .sbufInsert _ | .test _ | .sbufRemove _ | .begin _
  | .handle .. | .free _ | .startTick | .age | .close => inferInstanceAs (Decidable True)

/-- What the steps of main and of the other threads do. -/
inductive ProcessEffect (c : Codec Char) (s : Process) :
    ProcessAction → Process → List ProgramMark → Prop where
  | accept {v : Visitor} {s' : Process} : s.visitor = none →
      s.turn .main v.kind v.body = some s' →
      ProcessEffect c s (.accept v) { s' with visitor := some v } []
  | strtok {t : ThreadId} {tokenizer : Tokenizer} {done : List Parse} :
      s.tokenizer.step (.strtok t) = some (tokenizer, done) →
      ProcessEffect c s (.strtok t) { s with
        tokenizer
        received := if done = [] then s.received else Function.update s.received t done.head? } []
  | connect {v : Visitor} {server : Server} {out : List Event} {started : Bool} :
      s.visitor = some v →
      s.shared.server.acceptVisitor v (s.received .main) = some (server, out, started) →
      ProcessEffect c s .connect { s with
        shared := { s.shared with server }, visitor := none
        clients := if started then
          s.clients ++ [⟨v.clientFd, v.source, ⟨v.source, false⟩, none⟩] else s.clients }
        (out.map .event)
  | read {i : Nat} {env : ReadEnv} {x : ClientConnection} {thread : ClientThread}
      {jobs : List Job} : s.clients[i]? = some x → x.newJob = none →
      processClient c x.clientFd x.thread env = some (thread, jobs) →
      ProcessEffect c s (.read i env) { s with
        clients := s.clients.set i { x with
          thread := { thread with returned := false }
          newJob := (jobs.head?.map fun job => JobBlock.mk s.blocks ⟨i, job⟩).map
            fun newJob => (newJob, .insertCalled newJob) }
        blocks := s.blocks + jobs.length } (jobs.map fun job => .read ⟨i, job⟩)
  | insert {i : Nat} {x : ClientConnection} {newJob : JobBlock} {pc pc' : SbufPc JobBlock}
      {sbuf : Sbuf JobBlock} {out : List (Fifo.Mark JobBlock)} :
      s.clients[i]? = some x → x.newJob = some (newJob, pc) →
      pc.next s.sbuf = some (sbuf, pc', out) →
      ProcessEffect c s (.sbufInsert i) { s with
        sbuf, clients := s.clients.set i { x with newJob := some (newJob, pc') } }
        (out.map markRequest)
  | test {i : Nat} {x : ClientConnection} {newJob : JobBlock} :
      s.clients[i]? = some x → x.newJob = some (newJob, .insertReturned) →
      newJob.block ∉ s.freed →
      ProcessEffect c s (.test i) { s with
        clients := s.clients.set i { x with
          thread := { x.thread with returned := newJob.leaves }, newJob := none } } []
  | call {j : Nat} : s.jobThreads[j]? = some .idle →
      ProcessEffect c s (.sbufRemove j)
        { s with jobThreads := s.jobThreads.set j (.removing .removeCalled) } []
  | remove {j : Nat} {pc pc' : SbufPc JobBlock} {sbuf : Sbuf JobBlock}
      {out : List (Fifo.Mark JobBlock)} : s.jobThreads[j]? = some (.removing pc) →
      pc.next s.sbuf = some (sbuf, pc', out) →
      ProcessEffect c s (.sbufRemove j)
        { s with sbuf, jobThreads := s.jobThreads.set j (.removing pc') } (out.map markRequest)
  | begin {j : Nat} {job : JobBlock} {s' : Process} :
      s.jobThreads[j]? = some (.removing (.removeReturned job)) →
      s.turn (.job j) job.request.job.kind job.request.job.jobBuffer = some s' →
      ProcessEffect c s (.begin j)
        { s' with jobThreads := s.jobThreads.set j (.processing job) } []
  | handle {j : Nat} {env : JobEnv} {job : JobBlock} {server : Server} {out : List Event} :
      s.jobThreads[j]? = some (.processing job) →
      s.shared.server.handle env job.request.job (s.received (.job j)) = some (server, out) →
      ProcessEffect c s (.handle j env) { s with
        shared := { s.shared with server }, jobThreads := s.jobThreads.set j (.processed job) }
        (.processed job.request :: out.map .event)
  | null {j : Nat} {env : JobEnv} : s.jobThreads[j]? = some (.removing .removeNull) →
      ProcessEffect c s (.handle j env) { s with jobThreads := s.jobThreads.set j .idle } []
  | free {j : Nat} {job : JobBlock} : s.jobThreads[j]? = some (.processed job) →
      ProcessEffect c s (.free j)
        { s with freed := job.block :: s.freed, jobThreads := s.jobThreads.set j .idle } []
  | tick {action : ProcessAction} {a : InterleavedAction} {shared : Interleaved}
      {out : List Event} :
      (action, a) ∈ [(.startTick, .startTick), (.age, .age), (.close, .close)] →
      Interleaved.step s.shared a = some (shared, out) →
      ProcessEffect c s action { s with shared } (out.map .event)

section Effect

variable {c : Codec Char} {s s' : Process} {out : List ProgramMark}

theorem accept_effect (alive : s.shared.tick ≠ .crashed) {v : Visitor}
    (h : Process.step c s (.accept v) = some (s', out)) :
    ProcessEffect c s (.accept v) s' out := by
  simp only [Process.step, if_neg alive] at h
  split at h
  · cases h
  · rename_i hvisitor
    obtain ⟨s₁, hturn, h⟩ := Option.map_eq_some_iff.mp h
    obtain ⟨rfl, rfl⟩ := Prod.mk.inj h
    exact .accept (by simpa using hvisitor) hturn

theorem read_effect (alive : s.shared.tick ≠ .crashed) {i : Nat} {env : ReadEnv}
    (h : Process.step c s (.read i env) = some (s', out)) :
    ProcessEffect c s (.read i env) s' out := by
  simp only [Process.step, if_neg alive] at h
  obtain ⟨x, hx, h⟩ := Option.bind_eq_some_iff.mp h
  split at h
  · cases h
  · rename_i hcall
    obtain ⟨⟨thread, jobs⟩, hread, h⟩ := Option.bind_eq_some_iff.mp h
    obtain ⟨rfl, rfl⟩ := Prod.mk.inj (Option.some.inj h)
    exact .read hx (by simpa using hcall) hread

theorem sbufInsert_effect (alive : s.shared.tick ≠ .crashed) {i : Nat}
    (h : Process.step c s (.sbufInsert i) = some (s', out)) :
    ProcessEffect c s (.sbufInsert i) s' out := by
  simp only [Process.step, if_neg alive] at h
  obtain ⟨x, hx, h⟩ := Option.bind_eq_some_iff.mp h
  obtain ⟨⟨newJob, pc⟩, hcall, h⟩ := Option.bind_eq_some_iff.mp h
  obtain ⟨⟨sbuf, pc', marks⟩, hnext, h⟩ := Option.bind_eq_some_iff.mp h
  obtain ⟨rfl, rfl⟩ := Prod.mk.inj (Option.some.inj h)
  exact .insert hx hcall hnext

/-- The call of `sbuf_insert` has returned, and the job has not been freed. -/
theorem test_effect (alive : s.shared.tick ≠ .crashed) {i : Nat}
    (h : Process.step c s (.test i) = some (s', out)) : ProcessEffect c s (.test i) s' out := by
  simp only [Process.step, if_neg alive] at h
  obtain ⟨x, hx, h⟩ := Option.bind_eq_some_iff.mp h
  split at h
  · rename_i newJob hcall
    split at h
    · cases h
    · rename_i hfreed
      obtain ⟨rfl, rfl⟩ := Prod.mk.inj (Option.some.inj h)
      exact .test hx hcall hfreed
  · cases h

/-- A job thread calls `sbuf_remove`, or is inside it. -/
theorem sbufRemove_effect (alive : s.shared.tick ≠ .crashed) {j : Nat}
    (h : Process.step c s (.sbufRemove j) = some (s', out)) :
    ProcessEffect c s (.sbufRemove j) s' out := by
  simp only [Process.step, if_neg alive] at h
  obtain ⟨thread, hj, h⟩ := Option.bind_eq_some_iff.mp h
  split at h
  · obtain ⟨rfl, rfl⟩ := Prod.mk.inj (Option.some.inj h)
    exact .call hj
  · obtain ⟨⟨sbuf, pc', marks⟩, hnext, h⟩ := Option.bind_eq_some_iff.mp h
    obtain ⟨rfl, rfl⟩ := Prod.mk.inj (Option.some.inj h)
    exact .remove hj hnext
  · cases h

/-- A job thread handles what it has begun, or goes on when it has got NULL. -/
theorem handle_effect (alive : s.shared.tick ≠ .crashed) {j : Nat} {env : JobEnv}
    (h : Process.step c s (.handle j env) = some (s', out)) :
    ProcessEffect c s (.handle j env) s' out := by
  simp only [Process.step, if_neg alive] at h
  obtain ⟨thread, hj, h⟩ := Option.bind_eq_some_iff.mp h
  split at h
  · obtain ⟨⟨server, sent⟩, hhandle, h⟩ := Option.bind_eq_some_iff.mp h
    obtain ⟨rfl, rfl⟩ := Prod.mk.inj (Option.some.inj h)
    exact .handle hj hhandle
  · obtain ⟨rfl, rfl⟩ := Prod.mk.inj (Option.some.inj h)
    exact .null hj
  · cases h

theorem process_alive {action : ProcessAction} (h : Process.step c s action = some (s', out)) :
    s.shared.tick ≠ .crashed := by
  intro hcrashed
  simp [Process.step, hcrashed] at h

theorem process_tick {action : ProcessAction} {a : InterleavedAction}
    (ha : (action, a) ∈ [(.startTick, .startTick), (.age, .age), (.close, .close)])
    (h : s.tickThread a = some (s', out)) : ProcessEffect c s action s' out := by
  simp only [Process.tickThread, Option.bind_eq_bind, Option.bind_eq_some_iff] at h
  obtain ⟨⟨shared, sent⟩, hstep, h⟩ := h
  obtain ⟨rfl, rfl⟩ := Prod.mk.inj (Option.some.inj h)
  exact .tick ha hstep

theorem process_effect {action : ProcessAction} (h : Process.step c s action = some (s', out)) :
    s.shared.tick ≠ .crashed ∧ ProcessEffect c s action s' out := by
  have alive := process_alive h
  refine ⟨alive, ?_⟩
  cases action with
  | accept v => exact accept_effect alive h
  | strtok t =>
    simp only [Process.step, if_neg alive] at h
    obtain ⟨⟨tokenizer, done⟩, hstep, h⟩ := Option.bind_eq_some_iff.mp h
    obtain ⟨rfl, rfl⟩ := Prod.mk.inj (Option.some.inj h)
    exact .strtok hstep
  | connect =>
    simp only [Process.step, if_neg alive] at h
    obtain ⟨v, hv, h⟩ := Option.bind_eq_some_iff.mp h
    obtain ⟨⟨server, sent, started⟩, haccept, h⟩ := Option.bind_eq_some_iff.mp h
    obtain ⟨rfl, rfl⟩ := Prod.mk.inj (Option.some.inj h)
    exact .connect hv haccept
  | read i env => exact read_effect alive h
  | sbufInsert i => exact sbufInsert_effect alive h
  | test i => exact test_effect alive h
  | sbufRemove j => exact sbufRemove_effect alive h
  | begin j =>
    simp only [Process.step, if_neg alive] at h
    obtain ⟨thread, hj, h⟩ := Option.bind_eq_some_iff.mp h
    split at h
    · obtain ⟨s₁, hturn, h⟩ := Option.bind_eq_some_iff.mp h
      obtain ⟨rfl, rfl⟩ := Prod.mk.inj (Option.some.inj h)
      exact .begin hj hturn
    · cases h
  | handle j env => exact handle_effect alive h
  | free j =>
    simp only [Process.step, if_neg alive] at h
    obtain ⟨thread, hj, h⟩ := Option.bind_eq_some_iff.mp h
    split at h
    · obtain ⟨rfl, rfl⟩ := Prod.mk.inj (Option.some.inj h)
      exact .free hj
    · cases h
  | startTick | age | close =>
    simp only [Process.step, if_neg alive] at h
    exact process_tick (by simp) h

end Effect

theorem turn_frame {s s' : Process} {t : ThreadId} {kind : Option ParseKind} {bytes : List Char}
    (h : s.turn t kind bytes = some s') :
    s' = { s with tokenizer := s'.tokenizer, received := s'.received } := by
  cases kind with
  | none =>
    obtain rfl := Option.some.inj h
    rfl
  | some kind =>
    simp only [Process.turn, Option.bind_eq_bind, Option.bind_eq_some_iff] at h
    obtain ⟨_, -, h⟩ := h
    obtain rfl := Option.some.inj h
    rfl

end ZBid
