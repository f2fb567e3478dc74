import ZBid.Lib.WorkQueue
import ZBid.Buffers

/-!
# run_jobs: the order in which requests take effect

The client threads queue the requests of their connections, and each job thread takes the oldest
one with `sbuf_remove` and then runs `processJob` on it. The two are separate steps, so that
another job thread may come between them.
-/
namespace ZBid

open CInt CString Runs WorkQueue

/-- A queued job, with the client thread it comes from. -/
structure ClientJob where
  sender : Nat
  job : Job
  deriving DecidableEq, Repr

/-- The descriptors of the client threads (a thread that queued a LOGOUT has returned), and the
queue with what each job thread has taken out of it. -/
structure Dispatch where
  server : Server
  clients : List (Option Int)
  jobs : WorkQueue.State ClientJob
  deriving DecidableEq, Repr

def Dispatch.start (numJobThreads : Nat) : Dispatch :=
  ⟨Server.start, [], State.init numJobThreads⟩

inductive DispatchAction where
  | connect (clientFd : Int) (msgType : Nat) (body : List Char)
  | request (client : Nat) (msgType : Nat) (body : Text)
  | sbufRemove (thread : Nat)
  | process (thread : Nat) (env : JobEnv)
  | tick
  deriving DecidableEq, Repr

/-- `sbuf_insert` waits while the queue is full, and `sbuf_remove` while it is empty. -/
def Dispatch.step : Step Dispatch DispatchAction (Mark ClientJob) := fun s action =>
  match action with
  | .connect clientFd msgType body => do
    let (server, _, started) ← acceptClient s.server clientFd msgType body
    some ({ s with
      server, clients := if started then s.clients ++ [some clientFd] else s.clients }, [])
  | .request i msgType body =>
    match s.clients[i]? with
    | some (some clientFd) =>
      if msgType = 0 then some (s, [])
      else if s.jobs.queue.length < bufferSize then do
        let (jobs, out) ← WorkQueue.step s.jobs (.send ⟨i, body, msgType, clientFd⟩)
        let client := if msgType = MsgType.LOGOUT.code then none else some clientFd
        some ({ s with clients := s.clients.set i client, jobs }, out)
      else none
    | _ => none
  | .sbufRemove thread => do
    let (jobs, out) ← WorkQueue.step s.jobs (.remove thread)
    some ({ s with jobs }, out)
  | .process thread env =>
    match s.jobs.workers[thread]? with
    | some (some (_, taken)) => do
      let (server, _) ← processJob s.server env taken.job
      let (jobs, out) ← WorkQueue.step s.jobs (.finish thread)
      some ({ s with server, jobs }, out)
    | _ => none
  | .tick => do
    let (server, _) ← tickBody s.server
    some ({ s with server }, [])

/-- Nothing but the descriptors that `accept` returns is restricted. -/
def Dispatch.Admits (s : Dispatch) : DispatchAction → Prop
  | .connect clientFd _ _ => FreshFd s.server clientFd
  | _ => True

instance Dispatch.decidableAdmits (s : Dispatch) : ∀ action, Decidable (s.Admits action)
  | .connect clientFd _ _ => inferInstanceAs (Decidable (FreshFd s.server clientFd))
  | .request _ _ _ | .sbufRemove _ | .process _ _ | .tick => inferInstanceAs (Decidable True)

/-- The requests of a client take effect in the order of sending, iff no job thread processes one
while another job thread holds an earlier one of that client; one thread alone keeps the order. -/
structure EffectOrder (numJobThreads : Nat) (tr : List (Mark ClientJob)) : Prop where
  iff : InOrder ClientJob.sender tr ↔ NoOvertaking ClientJob.sender tr
  single : numJobThreads = 1 → InOrder ClientJob.sender tr

theorem dispatch_jobs {s s' : Dispatch} {action : DispatchAction} {out : List (Mark ClientJob)}
    (h : Dispatch.step s action = some (s', out)) :
    (s'.jobs = s.jobs ∧ out = []) ∨ ∃ op, WorkQueue.step s.jobs op = some (s'.jobs, out) := by
  cases action with
  | connect clientFd msgType body =>
    simp only [Dispatch.step, Option.bind_eq_bind, Option.bind_eq_some_iff] at h
    obtain ⟨_, -, h⟩ := h
    cases h
    exact Or.inl ⟨rfl, rfl⟩
  | request i msgType body =>
    simp only [Dispatch.step] at h
    split at h
    · rename_i clientFd _
      split at h
      · cases h
        exact Or.inl ⟨rfl, rfl⟩
      · split at h
        · obtain ⟨_, hsend, h⟩ := Option.bind_eq_some_iff.mp h
          cases h
          exact Or.inr ⟨_, hsend⟩
        · cases h
    · cases h
  | sbufRemove thread =>
    simp only [Dispatch.step, Option.bind_eq_bind, Option.bind_eq_some_iff] at h
    obtain ⟨_, hremove, h⟩ := h
    cases h
    exact Or.inr ⟨_, hremove⟩
  | process thread env =>
    simp only [Dispatch.step] at h
    split at h
    · obtain ⟨_, -, h⟩ := Option.bind_eq_some_iff.mp h
      obtain ⟨_, hfinish, h⟩ := Option.bind_eq_some_iff.mp h
      cases h
      exact Or.inr ⟨_, hfinish⟩
    · cases h
  | tick =>
    simp only [Dispatch.step, Option.bind_eq_bind, Option.bind_eq_some_iff] at h
    obtain ⟨_, -, h⟩ := h
    cases h
    exact Or.inl ⟨rfl, rfl⟩

/-- Every run of the threads is a run of the queue with the same log. -/
theorem dispatch_simulated {numJobThreads : Nat} {as : List DispatchAction}
    {tr : List (Mark ClientJob)} {s : Dispatch}
    (run : Run Dispatch.step Dispatch.Admits (Dispatch.start numJobThreads) as tr s) :
    ∃ ops, Run WorkQueue.step (fun _ _ => True) (State.init numJobThreads) ops tr s.jobs := by
  have hsim : ∃ ops jobs,
      Run WorkQueue.step (fun _ _ => True) (State.init numJobThreads) ops tr jobs ∧
        s.jobs = jobs := by
    refine run.simulate (R := fun _ s jobs => s.jobs = jobs) rfl ?_
    intro tr s jobs action s' out hjobs _ h
    subst hjobs
    rcases dispatch_jobs h with ⟨hsame, rfl⟩ | ⟨op, hop⟩
    · exact ⟨[], s.jobs, .start, hsame⟩
    · exact ⟨[op], s'.jobs, .one trivial hop, rfl⟩
  obtain ⟨ops, jobs, hrun, rfl⟩ := hsim
  exact ⟨ops, hrun⟩

theorem effectOrder_run {numJobThreads : Nat} {as : List DispatchAction}
    {tr : List (Mark ClientJob)} {s : Dispatch}
    (run : Run Dispatch.step Dispatch.Admits (Dispatch.start numJobThreads) as tr s) :
    EffectOrder numJobThreads tr := by
  obtain ⟨ops, hrun⟩ := dispatch_simulated run
  refine ⟨inOrder_iff hrun, ?_⟩
  rintro rfl
  rw [inOrder_iff hrun]
  intro r others hmem r' hr'
  rw [no_others hrun hmem] at hr'
  cases hr'

/-- A creates an auction, and B queues an ANWATCH and an ANBID of 10 on it. -/
def sampleQueued : List DispatchAction :=
  [.connect 4 MsgType.LOGIN.code ['A', '\r', '\n', 'x'],
    .connect 5 MsgType.LOGIN.code ['B', '\r', '\n', 'y'],
    .request 0 MsgType.ANCREATE.code ['V', '\r', '\n', '3', '\r', '\n', '0'],
    .sbufRemove 0, .process 0 ⟨sampleMalloc, []⟩,
    .request 1 MsgType.ANWATCH.code ['1'],
    .request 1 MsgType.ANBID.code ['1', '\r', '\n', '1', '0'],
    .sbufRemove 0, .sbufRemove 1]

/-- Job thread 0 runs first, and the bid finds its watcher. -/
def sampleInTurn : List DispatchAction :=
  sampleQueued ++ [.process 0 ⟨sampleMalloc, []⟩, .process 1 ⟨sampleMalloc, []⟩]

theorem sampleInTurn_completes :
    (exec Dispatch.step Dispatch.Admits (Dispatch.start 2) sampleInTurn).isSome := by decide

theorem effectOrder_run_sample : EffectOrder 2
    ((exec Dispatch.step Dispatch.Admits (Dispatch.start 2) sampleInTurn).get
      sampleInTurn_completes).2 :=
  effectOrder_run (run_of_isSome sampleInTurn_completes)

/-- Job thread 1 runs first, and the bid is denied before the watch takes effect. -/
def sampleOvertaken : List DispatchAction :=
  sampleQueued ++ [.process 1 ⟨sampleMalloc, []⟩, .process 0 ⟨sampleMalloc, []⟩]

theorem sampleOvertaken_completes :
    (exec Dispatch.step Dispatch.Admits (Dispatch.start 2) sampleOvertaken).isSome := by decide

theorem effectOrder_fails : ¬ ∀ numJobThreads as tr s, 1 ≤ numJobThreads →
    Run Dispatch.step Dispatch.Admits (Dispatch.start numJobThreads) as tr s →
    InOrder ClientJob.sender tr := by
  intro h
  have horder := h 2 _ _ _ (by decide) (run_of_isSome sampleOvertaken_completes) 1
  exact absurd horder (by decide)

end ZBid
