import ZBid.OwnTokens

/-!
# The threads refine the whole program

Each step of the threads is one of `Program`, or does nothing that `Program` has: a request is with
its job thread until it has been handled, a client thread is known to leave when it has read a
LOGOUT, and the buffer has the cells that are not in the block as well.
-/
namespace ZBid

open CInt CString Runs Framing

section Widen

variable {α β : Type} (f : α → β) (null : β)

def SbufPc.map : SbufPc α → SbufPc β
  | .insertCalled item => .insertCalled (f item)
  | .insertSlot item => .insertSlot (f item)
  | .insertLocked item => .insertLocked (f item)
  | .insertStored => .insertStored
  | .insertUnlocked => .insertUnlocked
  | .insertReturned => .insertReturned
  | .removeCalled => .removeCalled
  | .removeItem => .removeItem
  | .removeLocked => .removeLocked
  | .removeTaken item => .removeTaken (f item)
  | .removeUnlocked item => .removeUnlocked (f item)
  | .removeReturned item => .removeReturned (f item)
  | .removeNull => .removeNull

/-- The buffer with all the cells that were asked for. -/
def Sbuf.widen (sp : Sbuf α) : Sbuf β where
  buf := sp.buf.map f ++ List.replicate (sp.n.toNat - sp.buf.length) null
  n := sp.n
  front := sp.front
  rear := sp.rear
  mutex := sp.mutex
  slots := sp.slots
  items := sp.items

variable {sp sp' : Sbuf α} {pc pc' : SbufPc α} {out : List (Fifo.Mark α)}

/-- A cell of the block is a cell of the wide buffer. -/
theorem cell_widen {counter : Int} {k : Nat} (h : sp.cell counter = some k) :
    (sp.widen f null).cell counter = some k ∧ k < sp.buf.length := by
  simp only [Sbuf.cell] at h
  split at h
  · rename_i hin
    have hlt : 0 ≤ counter.tmod sp.n ∧
        counter.tmod sp.n < ((sp.widen f null).buf.length : Nat) := by
      simp only [Sbuf.widen, List.length_append, List.length_map]
      omega
    refine ⟨?_, by grind⟩
    rw [← h]
    exact if_pos hlt
  · cases h

theorem store_widen {item : α} (h : sp.store item = some sp') :
    (sp.widen f null).store (f item) = some (sp'.widen f null) := by
  simp only [Sbuf.store, Option.bind_eq_bind, Option.bind_eq_some_iff, Option.some.injEq] at h
  obtain ⟨rear, hrear, k, hk, rfl⟩ := h
  obtain ⟨hcell, hlt⟩ := cell_widen f null hk
  simp only [Sbuf.store, Option.bind_eq_bind, Option.bind_eq_some_iff, Option.some.injEq]
  refine ⟨rear, hrear, k, hcell, ?_⟩
  have hset : k < (sp.buf.map f).length := by rwa [List.length_map]
  simp [Sbuf.widen, List.set_append_left _ _ hset, List.map_set]

theorem fetch_widen {item : α} (h : sp.fetch = some (sp', item)) :
    (sp.widen f null).fetch = some (sp'.widen f null, f item) := by
  simp only [Sbuf.fetch, Option.bind_eq_bind, Option.bind_eq_some_iff, Option.some.injEq,
    Prod.mk.injEq] at h
  obtain ⟨front, hfront, k, hk, item, hitem, rfl, rfl⟩ := h
  obtain ⟨hcell, hlt⟩ := cell_widen f null hk
  simp only [Sbuf.fetch, Option.bind_eq_bind, Option.bind_eq_some_iff, Option.some.injEq]
  refine ⟨front, hfront, k, hcell, f item, ?_, rfl⟩
  have hget : k < (sp.buf.map f).length := by rwa [List.length_map]
  rw [Sbuf.widen, List.getElem?_append_left hget, List.getElem?_map, hitem, Option.map_some]

/-- A step inside the block is a step of the wide buffer. -/
theorem next_widen (h : pc.next sp = some (sp', pc', out)) :
    (pc.map f).next (sp.widen f null) =
      some (sp'.widen f null, pc'.map f, out.map (Fifo.Mark.map f)) := by
  cases pc with
  | insertLocked item =>
    simp only [SbufPc.next, Option.bind_eq_bind, Option.bind_eq_some_iff, Option.some.injEq,
      Prod.mk.injEq] at h
    obtain ⟨sp', hstore, rfl, rfl, rfl⟩ := h
    simp [SbufPc.map, SbufPc.next, store_widen f null hstore, Fifo.Mark.map]
  | removeLocked =>
    simp only [SbufPc.next] at h
    split at h
    · rename_i hn
      obtain ⟨rfl, rfl, rfl⟩ := by simpa using h
      have hzero : (sp.widen f null).n = 0 := hn
      simp [SbufPc.map, SbufPc.next, hzero]
    · rename_i hn
      simp only [Option.bind_eq_bind, Option.bind_eq_some_iff, Option.some.injEq,
        Prod.mk.injEq] at h
      obtain ⟨⟨sp', item⟩, hfetch, rfl, rfl, rfl⟩ := h
      have hpos : (sp.widen f null).n ≠ 0 := hn
      simp [SbufPc.map, SbufPc.next, hpos, fetch_widen f null hfetch, Fifo.Mark.map]
  | insertCalled | insertSlot | removeCalled | removeItem =>
    simp only [SbufPc.next, Option.bind_eq_bind, Option.bind_eq_some_iff, Option.some.injEq,
      Prod.mk.injEq] at h
    obtain ⟨v, hv, rfl, rfl, rfl⟩ := h
    simp only [SbufPc.map, SbufPc.next, Option.bind_eq_bind, Option.bind_eq_some_iff]
    exact ⟨v, hv, rfl⟩
  | insertStored | insertUnlocked | removeTaken | removeUnlocked =>
    simp only [SbufPc.next, Option.some.injEq, Prod.mk.injEq] at h
    obtain ⟨rfl, rfl, rfl⟩ := h
    rfl
  | insertReturned | removeReturned | removeNull => cases h

end Widen

/-- The thread goes on behind the call that returns, and it is known then whether it leaves. -/
def ClientConnection.connection (x : ClientConnection) : Connection where
  clientFd := x.clientFd
  source := x.source
  thread := match x.newJob with
    | none => x.thread
    | some (newJob, _) => { x.thread with returned := newJob.leaves }
  call := x.newJob.bind fun (_, pc) => (pc.map JobBlock.request).unlessReturned

/-- A request is with its job thread until it has been handled. -/
def JobThread.call : JobThread → Option (SbufPc ClientJob)
  | .idle | .processed _ => none
  | .removing pc => some (pc.map JobBlock.request)
  | .processing job => some (.removeReturned job.request)

def Process.program (s : Process) : Program where
  shared := s.shared
  sbuf := s.sbuf.widen JobBlock.request JobBlock.null.request
  connections := s.clients.map ClientConnection.connection
  jobThreads := s.jobThreads.map JobThread.call

/-- What main has yet to log in. -/
def Visitor.action (v : Visitor) : ProgramAction := .connect v.clientFd v.msgType v.body v.source

def ProcessAction.visit : ProcessAction → Option ProgramAction
  | .accept v => some v.action
  | _ => none

/-- What a step means, but for those of main. -/
def ProcessAction.request : ProcessAction → Option ProgramAction
  | .read i env => some (.read i env)
  | .sbufInsert i => some (.sbufInsert i)
  | .sbufRemove j => some (.sbufRemove j)
  | .handle j env => some (.process j env)
  | .startTick => some .startTick
  | .age => some .age
  | .close => some .close
  | .accept _ | .strtok _ | .connect | .test _ | .begin _ | .free _ => none

def Process.means (s : Process) : ProcessAction → Option ProgramAction
  | .connect => s.visitor.map Visitor.action
  | action => action.request

/-- What is known of the steps of `Program`, of the steps that mean one. -/
def Process.Allows (ok : Program → ProgramAction → Prop) (s : Process) (action : ProcessAction) :
    Prop := (∀ a ∈ s.means action, ok s.program a) ∧ s.Uninterrupted action

instance (ok : Program → ProgramAction → Prop) [∀ s a, Decidable (ok s a)] (s : Process)
    (action : ProcessAction) : Decidable (s.Allows ok action) :=
  inferInstanceAs (Decidable (_ ∧ _))

section Effect

variable {c : Codec Char} {s s' : Process} {action : ProcessAction} {out : List ProgramMark}

/-- A member of the list changes, and what is seen of it does not. -/
theorem map_set_same {α β : Type} (f : α → β) {xs : List α} {i : Nat} {x y : α}
    (hx : xs[i]? = some x) (hy : f y = f x) : (xs.set i y).map f = xs.map f := by
  obtain ⟨hlt, rfl⟩ := List.getElem?_eq_some_iff.mp hx
  have hlt' : i < (xs.map f).length := by simpa using hlt
  have hget : (xs.map f)[i] = f xs[i] := List.getElem_map f
  rw [List.map_set, hy, ← hget, List.set_getElem_self]

theorem connection_get {i : Nat} {x : ClientConnection} (hx : s.clients[i]? = some x) :
    s.program.connections[i]? = some x.connection := by
  simp [Process.program, hx]

theorem jobThread_get {j : Nat} {thread : JobThread} (hj : s.jobThreads[j]? = some thread) :
    s.program.jobThreads[j]? = some thread.call := by
  simp [Process.program, hj]

/-- A call that makes a step has not returned. -/
theorem unlessReturned_of_next {α : Type} {sp : Sbuf α} {pc : SbufPc α}
    {r : Sbuf α × SbufPc α × List (Fifo.Mark α)} (h : pc.next sp = some r) :
    pc.unlessReturned = some pc := by
  cases pc with
  | insertReturned => cases h
  | _ => rfl

theorem queue_marks (out : List (Fifo.Mark JobBlock)) :
    (out.map (Fifo.Mark.map JobBlock.request)).map .queue = out.map markRequest := by
  simp [markRequest, Function.comp_def]

theorem processClient_stays {clientFd : Int} {thread thread' : ClientThread} {env : ReadEnv}
    {jobs : List Job} (h : processClient c clientFd thread env = some (thread', jobs)) :
    thread'.returned =
      (jobs.head?.any fun job => decide (job.jobMsgType = MsgType.LOGOUT.code)) := by
  simp only [processClient] at h
  grind

/-- A client thread turns to what it has read. -/
theorem connection_read {x : ClientConnection} {thread : ClientThread} {jobs : List Job}
    (hstays : thread.returned =
      (jobs.head?.any fun job => decide (job.jobMsgType = MsgType.LOGOUT.code))) (i blocks : Nat) :
    ClientConnection.connection { x with
      thread := { thread with returned := false }
      newJob := (jobs.head?.map fun job => JobBlock.mk blocks ⟨i, job⟩).map
        fun newJob => (newJob, .insertCalled newJob) } =
      { x.connection with
        thread, call := jobs.head?.map fun job => .insertCalled (ClientJob.mk i job) } := by
  obtain ⟨stream, returned⟩ := thread
  simp only at hstays
  subst hstays
  cases jobs.head? <;> rfl

section Answers

variable {i j : Nat} {x : ClientConnection} {newJob job : JobBlock} {pc pc' : SbufPc JobBlock}
  {sbuf : Sbuf JobBlock} {marks : List (Fifo.Mark JobBlock)} {server : Server} {sent : List Event}
  {env : JobEnv}

theorem program_connect (halive : s.shared.tick ≠ .crashed) {v : Visitor} {started : Bool}
    (h : acceptClient s.shared.server v.clientFd v.msgType v.body =
      some (server, sent, started)) :
    Program.step c s.program v.action = some (Process.program { s with
      shared := { s.shared with server }, visitor := none
      clients := if started then
        s.clients ++ [⟨v.clientFd, v.source, ⟨v.source, false⟩, none⟩] else s.clients },
      sent.map .event) := by
  cases started <;>
    simp [Program.step, Visitor.action, Interleaved.step, Server.step, Process.program, halive, h,
      ClientConnection.connection]

theorem program_read (halive : s.shared.tick ≠ .crashed) {env : ReadEnv} {thread : ClientThread}
    {jobs : List Job} (hx : s.clients[i]? = some x) (hcall : x.newJob = none)
    (h : processClient c x.clientFd x.thread env = some (thread, jobs)) :
    Program.step c s.program (.read i env) = some (Process.program { s with
      clients := s.clients.set i { x with
        thread := { thread with returned := false }
        newJob := (jobs.head?.map fun job => JobBlock.mk s.blocks ⟨i, job⟩).map
          fun newJob => (newJob, .insertCalled newJob) }
      blocks := s.blocks + jobs.length }, jobs.map fun job => .read ⟨i, job⟩) := by
  have hnone : x.connection.call = none := by simp [ClientConnection.connection, hcall]
  have hthread : x.connection.thread = x.thread := by simp [ClientConnection.connection, hcall]
  have hread : processClient c x.connection.clientFd x.connection.thread env =
      some (thread, jobs) := by rw [hthread]; exact h
  simp only [Program.step, show s.program.shared.tick ≠ .crashed from halive, if_false,
    connection_get hx, Option.bind_eq_bind, Option.bind_some, hnone, hread, Option.isSome_none,
    Bool.false_eq_true]
  rw [← connection_read (processClient_stays h) i s.blocks]
  simp [Process.program, List.map_set]

theorem program_insert (halive : s.shared.tick ≠ .crashed) (hx : s.clients[i]? = some x)
    (hcall : x.newJob = some (newJob, pc)) (h : pc.next s.sbuf = some (sbuf, pc', marks)) :
    Program.step c s.program (.sbufInsert i) = some (Process.program { s with
      sbuf, clients := s.clients.set i { x with newJob := some (newJob, pc') } },
      marks.map markRequest) := by
  have hwide := next_widen JobBlock.request JobBlock.null.request h
  have hcall' : x.connection.call = some (pc.map JobBlock.request) := by
    simp [ClientConnection.connection, hcall, unlessReturned_of_next hwide]
  have hsbuf : s.program.sbuf = s.sbuf.widen JobBlock.request JobBlock.null.request := rfl
  simp only [Program.step, show s.program.shared.tick ≠ .crashed from halive, if_false,
    connection_get hx, Option.bind_eq_bind, Option.bind_some, hcall', hsbuf, hwide, queue_marks]
  simp [Process.program, List.map_set, ClientConnection.connection, hcall]

/-- The job is tested when `Program` has known its type for a while. -/
theorem program_test (hx : s.clients[i]? = some x)
    (hcall : x.newJob = some (newJob, .insertReturned)) : Process.program { s with
      clients := s.clients.set i { x with
        thread := { x.thread with returned := newJob.leaves }, newJob := none } } = s.program := by
  have hsame : ClientConnection.connection
      { x with thread := { x.thread with returned := newJob.leaves }, newJob := none } =
        x.connection := by
    simp [ClientConnection.connection, hcall, SbufPc.map, SbufPc.unlessReturned]
  simp [Process.program, map_set_same ClientConnection.connection hx hsame]

theorem program_call (halive : s.shared.tick ≠ .crashed) (hj : s.jobThreads[j]? = some .idle) :
    Program.step c s.program (.sbufRemove j) = some (Process.program
      { s with jobThreads := s.jobThreads.set j (.removing .removeCalled) }, []) := by
  simp only [Program.step, show s.program.shared.tick ≠ .crashed from halive, if_false,
    jobThread_get hj, JobThread.call, Option.bind_eq_bind, Option.bind_some]
  simp [Process.program, List.map_set, JobThread.call, SbufPc.map]

theorem program_remove (halive : s.shared.tick ≠ .crashed)
    (hj : s.jobThreads[j]? = some (.removing pc)) (h : pc.next s.sbuf = some (sbuf, pc', marks)) :
    Program.step c s.program (.sbufRemove j) = some (Process.program
      { s with sbuf, jobThreads := s.jobThreads.set j (.removing pc') },
      marks.map markRequest) := by
  have hwide := next_widen JobBlock.request JobBlock.null.request h
  have hsbuf : s.program.sbuf = s.sbuf.widen JobBlock.request JobBlock.null.request := rfl
  simp only [Program.step, show s.program.shared.tick ≠ .crashed from halive, if_false,
    jobThread_get hj, JobThread.call, Option.bind_eq_bind, Option.bind_some, hsbuf, hwide,
    queue_marks]
  simp [Process.program, List.map_set, JobThread.call]

/-- A job thread changes, and `Program` does not see it. -/
theorem program_jobThread {thread thread' : JobThread} (hj : s.jobThreads[j]? = some thread)
    (hsame : thread'.call = thread.call) :
    Process.program { s with jobThreads := s.jobThreads.set j thread' } = s.program := by
  simp [Process.program, map_set_same JobThread.call hj hsame]

theorem program_process (halive : s.shared.tick ≠ .crashed)
    (hj : s.jobThreads[j]? = some (.processing job))
    (h : processJob s.shared.server env job.request.job = some (server, sent)) :
    Program.step c s.program (.process j env) = some (Process.program { s with
      shared := { s.shared with server }, jobThreads := s.jobThreads.set j (.processed job) },
      .processed job.request :: sent.map .event) := by
  have hstep : Interleaved.step s.program.shared (.job env job.request.job) =
      some ({ s.shared with server }, sent) := by
    simp [Process.program, Interleaved.step, Server.step, halive, h]
  simp only [Program.step, show s.program.shared.tick ≠ .crashed from halive, if_false,
    jobThread_get hj, JobThread.call, Option.bind_eq_bind, Option.bind_some, hstep]
  simp [Process.program, List.map_set, JobThread.call]

theorem program_null (halive : s.shared.tick ≠ .crashed)
    (hj : s.jobThreads[j]? = some (.removing .removeNull)) :
    Program.step c s.program (.process j env) =
      some (Process.program { s with jobThreads := s.jobThreads.set j .idle }, []) := by
  simp only [Program.step, show s.program.shared.tick ≠ .crashed from halive, if_false,
    jobThread_get hj, JobThread.call, Option.bind_eq_bind, Option.bind_some, SbufPc.map]
  simp [Process.program, List.map_set, JobThread.call]

end Answers

/-- As long as every thread has had the tokens of its own message, a step is one of `Program`, with
the same log, or none. -/
theorem program_of_effect (halive : s.shared.tick ≠ .crashed) (inv : ParseInv s)
    (h : ProcessEffect c s action s' out) :
    (s.means action = none ∧ s'.program = s.program ∧ out = []) ∨
      ∃ a, s.means action = some a ∧ Program.step c s.program a = some (s'.program, out) := by
  cases h with
  | accept hvisitor hturn =>
    refine Or.inl ⟨rfl, ?_, rfl⟩
    rw [turn_frame hturn]
    rfl
  | strtok => exact Or.inl ⟨rfl, rfl, rfl⟩
  | @connect v _ _ _ hvisitor haccept =>
    obtain ⟨haccept, -⟩ := acceptClient_of_acceptVisitor (inv.visitor hvisitor) haccept
    exact Or.inr ⟨v.action, by simp [Process.means, hvisitor], program_connect halive haccept⟩
  | read hx hcall hread => exact Or.inr ⟨_, rfl, program_read halive hx hcall hread⟩
  | insert hx hcall hnext => exact Or.inr ⟨_, rfl, program_insert halive hx hcall hnext⟩
  | test hx hcall => exact Or.inl ⟨rfl, program_test hx hcall, rfl⟩
  | call hj => exact Or.inr ⟨_, rfl, program_call halive hj⟩
  | remove hj hnext => exact Or.inr ⟨_, rfl, program_remove halive hj hnext⟩
  | begin hj hturn =>
    refine Or.inl ⟨rfl, ?_, rfl⟩
    rw [turn_frame hturn]
    exact program_jobThread hj rfl
  | handle hj hhandle =>
    obtain ⟨hprocess, -⟩ := processJob_of_handle (inv.job hj) hhandle
    exact Or.inr ⟨_, rfl, program_process halive hj hprocess⟩
  | null hj => exact Or.inr ⟨_, rfl, program_null halive hj⟩
  | free hj => exact Or.inl ⟨rfl, program_jobThread hj rfl, rfl⟩
  | tick ha hstep =>
    simp only [List.mem_cons, Prod.mk.injEq, List.not_mem_nil, or_false] at ha
    rcases ha with ⟨rfl, rfl⟩ | ⟨rfl, rfl⟩ | ⟨rfl, rfl⟩ <;>
      exact Or.inr ⟨_, rfl, by
        simp [Program.step, Program.tickThread, Process.program, halive, hstep]⟩

end Effect

def ProgramAction.isConnect : ProgramAction → Bool
  | .connect .. => true
  | _ => false

/-- The steps of `Program` are the connections in the order of acceptance, but for the one that main
has yet to log in, and what the other threads do, in that order. -/
structure Refined (c : Codec Char) (ok : Program → ProgramAction → Prop) (n : Int)
    (numJobThreads : Nat) (as : List ProcessAction) (tr : List ProgramMark) (s : Process)
    (bs : List ProgramAction) : Prop where
  run : Run (Program.step c) ok (Program.start JobBlock.null.request n numJobThreads) bs tr
    s.program
  parses : ParseInv s
  visits : as.filterMap ProcessAction.visit =
    bs.filter ProgramAction.isConnect ++ (s.visitor.map Visitor.action).toList
  requests : as.filterMap ProcessAction.request = bs.filter (!·.isConnect)

theorem cellsProvided_le {n : Int} : (cellsProvided n).toNat ≤ n.toNat := by
  rw [cellsProvided_eq]
  omega

theorem program_start (n : Int) (numJobThreads : Nat) :
    (Process.start n numJobThreads).program =
      Program.start JobBlock.null.request n numJobThreads := by
  have hcells := cellsProvided_le (n := n)
  simp [Process.start, Process.program, Program.start, Sbuf.widen, sbufInit, JobThread.call,
    List.replicate_append_replicate, Nat.add_sub_cancel' hcells]

theorem ParseInv.start (n : Int) (numJobThreads : Nat) :
    ParseInv (Process.start n numJobThreads) where
  kept := .start
  begun t p hp := by cases hp
  obtained t kind message htask p hp := by cases hp

section Effect

variable {c : Codec Char} {s s' : Process} {action : ProcessAction} {out : List ProgramMark}

/-- What main accepts is what it will log in. -/
theorem visits_effect (h : ProcessEffect c s action s' out) :
    (s.visitor.map Visitor.action).toList ++ action.visit.toList =
      (s.means action).toList.filter ProgramAction.isConnect ++
        (s'.visitor.map Visitor.action).toList := by
  cases h with
  | accept hvisitor => simp [hvisitor, ProcessAction.visit, Process.means, ProcessAction.request]
  | connect hvisitor =>
    simp only [Process.means, hvisitor, Option.map_some]
    rfl
  | begin _ hturn =>
    rw [turn_frame hturn]
    simp [ProcessAction.visit, Process.means, ProcessAction.request]
  | tick ha =>
    simp only [List.mem_cons, Prod.mk.injEq, List.not_mem_nil, or_false] at ha
    rcases ha with ⟨rfl, rfl⟩ | ⟨rfl, rfl⟩ | ⟨rfl, rfl⟩ <;>
      simp [ProcessAction.visit, Process.means, ProcessAction.request, ProgramAction.isConnect]
  | _ =>
    simp [ProcessAction.visit, Process.means, ProcessAction.request, ProgramAction.isConnect]

theorem requests_effect (h : ProcessEffect c s action s' out) :
    action.request.toList = (s.means action).toList.filter (!·.isConnect) := by
  cases h with
  | connect hvisitor =>
    simp [hvisitor, ProcessAction.request, Process.means, Visitor.action, ProgramAction.isConnect]
  | tick ha =>
    simp only [List.mem_cons, Prod.mk.injEq, List.not_mem_nil, or_false] at ha
    rcases ha with ⟨rfl, rfl⟩ | ⟨rfl, rfl⟩ | ⟨rfl, rfl⟩ <;>
      simp [Process.means, ProcessAction.request, ProgramAction.isConnect]
  | _ => simp [Process.means, ProcessAction.request, ProgramAction.isConnect]

theorem refined_step {ok : Program → ProgramAction → Prop} {n : Int} {numJobThreads : Nat}
    {as : List ProcessAction} {tr : List ProgramMark} {bs : List ProgramAction}
    (inv : Refined c ok n numJobThreads as tr s bs) (hok : s.Allows ok action)
    (h : Process.step c s action = some (s', out)) :
    ∃ bs', Refined c ok n numJobThreads (as ++ [action]) (tr ++ out) s' bs' := by
  obtain ⟨halive, heffect⟩ := process_effect h
  have hparses := parseInv_effect inv.parses hok.2 heffect
  refine ⟨bs ++ (s.means action).toList, ?_, hparses, ?_, ?_⟩
  · rcases program_of_effect halive inv.parses heffect with
      ⟨hmeans, hsame, rfl⟩ | ⟨a, hmeans, hstep⟩
    · simpa [hmeans, hsame] using inv.run
    · rw [hmeans]
      exact inv.run.step (hok.1 a hmeans) hstep
  · rw [filterMap_concat, inv.visits, List.filter_append, List.append_assoc, List.append_assoc,
      visits_effect heffect]
  · rw [filterMap_concat, inv.requests, List.filter_append, requests_effect heffect]

end Effect

/-- Every run in which no thread calls `strtok` between the calls of another is one of `Program`,
with the same log. -/
theorem process_refines {c : Codec Char} {ok : Program → ProgramAction → Prop} {n : Int}
    {numJobThreads : Nat} {as : List ProcessAction} {tr : List ProgramMark} {s : Process}
    (run : Run (Process.step c) (Process.Allows ok) (Process.start n numJobThreads) as tr s) :
    ∃ bs, Refined c ok n numJobThreads as tr s bs := by
  refine run.invariant (P := fun as tr s => ∃ bs, Refined c ok n numJobThreads as tr s bs) ?_ ?_
  · refine ⟨[], ?_, .start n _, rfl, rfl⟩
    rw [program_start]
    exact .start
  · rintro as tr s action s' out - ⟨bs, inv⟩ hok h
    exact refined_step inv hok h

/-- The buffer is the block that `calloc` has returned, and the inserts so far fit it. -/
structure Sbuf.InBlock {α : Type} (n : Int) (sp : Sbuf α) : Prop where
  capacity : sp.n = n
  size : sp.buf.length = (cellsProvided n).toNat
  rear : 0 ≤ sp.rear
  inserts : sp.rear = 0 ∨ sp.rear < cellsProvided n

section Block

variable {α : Type} {n : Int} {sp sp' : Sbuf α} {pc pc' : SbufPc α} {out : List (Fifo.Mark α)}

theorem cell_isSome (inv : sp.InBlock n) (counter : Int) :
    (sp.cell counter).isSome ↔ InBlock n (counter.tmod n) := by
  have hsize := inv.size
  simp only [Sbuf.cell, inv.capacity, InBlock]
  split
  · simp only [Option.isSome_some, true_iff]
    omega
  · simp only [Option.isSome_none, Bool.false_eq_true, false_iff]
    omega

theorem inBlock_of_next (hn : 1 ≤ n) (inv : sp.InBlock n)
    (h : pc.next sp = some (sp', pc', out)) : sp'.InBlock n := by
  obtain ⟨capacity, size, rear, inserts⟩ := inv
  cases pc with
  | insertLocked item =>
    simp only [SbufPc.next, Sbuf.store, Option.bind_eq_bind, Option.bind_eq_some_iff,
      Option.some.injEq, Prod.mk.injEq] at h
    obtain ⟨_, ⟨rear', hrear, k, hk, rfl⟩, rfl, rfl, rfl⟩ := h
    obtain ⟨rfl, -⟩ := incr_eq_some hrear
    have hcell := (cell_isSome ⟨capacity, size, rear, inserts⟩ _).mp (Option.isSome_of_eq_some hk)
    have hlt := (inBlock_next hn rear).mp ⟨inserts, hcell⟩
    exact ⟨capacity, by simpa using size, by simp only; omega, Or.inr hlt⟩
  | removeLocked =>
    have hpos : sp.n ≠ 0 := by omega
    simp only [SbufPc.next, if_neg hpos, Sbuf.fetch, Option.bind_eq_bind, Option.bind_eq_some_iff,
      Option.some.injEq, Prod.mk.injEq] at h
    obtain ⟨⟨_, item⟩, ⟨front, -, k, -, _, -, rfl, rfl⟩, rfl, rfl, rfl⟩ := h
    exact ⟨capacity, size, rear, inserts⟩
  | _ =>
    obtain ⟨rfl, hsem⟩ := next_semStep h (by simp [SbufPc.AtBody])
    rw [hsem.frame]
    exact ⟨capacity, size, rear, inserts⟩

/-- An insert is defined if and only if it is one of the first that the block has a cell for. -/
theorem insert_defined (hn : 1 ≤ n) (inv : sp.InBlock n) (hrear : sp.rear < intMax) (item : α) :
    ((SbufPc.insertLocked item).next sp).isSome ↔ sp.rear + 1 < cellsProvided n := by
  have hcell := cell_isSome inv (sp.rear + 1)
  have hnext := inBlock_next hn inv.rear
  have hdefined : ((SbufPc.insertLocked item).next sp).isSome ↔ (sp.cell (sp.rear + 1)).isSome := by
    cases hk : sp.cell (sp.rear + 1) <;> simp [SbufPc.next, Sbuf.store, incr_of_lt hrear, hk]
  rw [hdefined, hcell, ← hnext, and_iff_right inv.inserts]

/-- A remove follows an insert. -/
theorem remove_defined (hn : 1 ≤ n) (inv : sp.InBlock n) (hfront : 0 ≤ sp.front)
    (hlt : sp.front < sp.rear) (hmax : sp.front < intMax) :
    ((SbufPc.removeLocked).next sp).isSome := by
  have hpos : sp.n ≠ 0 := by
    have := inv.capacity
    omega
  have hcell := (cell_isSome inv (sp.front + 1)).mpr (inBlock_take hfront hlt inv.inserts)
  obtain ⟨k, hk⟩ := Option.isSome_iff_exists.mp hcell
  have hin : k < sp.buf.length := by
    simp only [Sbuf.cell] at hk
    split at hk <;> grind
  simp [SbufPc.next, hpos, Sbuf.fetch, incr_of_lt hmax, hk, List.getElem?_eq_getElem hin]

end Block

theorem inBlock_effect {c : Codec Char} {n : Int} (hn : 1 ≤ n) {s s' : Process}
    {action : ProcessAction} {out : List ProgramMark} (inv : s.sbuf.InBlock n)
    (h : ProcessEffect c s action s' out) : s'.sbuf.InBlock n := by
  cases h with
  | insert _ _ hnext => exact inBlock_of_next hn inv hnext
  | remove _ hnext => exact inBlock_of_next hn inv hnext
  | accept _ hturn | begin _ hturn =>
    rw [turn_frame hturn]
    exact inv
  | _ => exact inv

theorem inBlock_run {c : Codec Char} {ok : Program → ProgramAction → Prop} {n : Int}
    (hn : 1 ≤ n) {numJobThreads : Nat} {as : List ProcessAction} {tr : List ProgramMark}
    {s : Process}
    (run : Run (Process.step c) (Process.Allows ok) (Process.start n numJobThreads) as tr s) :
    s.sbuf.InBlock n :=
  run.invariant_state (P := fun s => s.sbuf.InBlock n)
    ⟨rfl, List.length_replicate, le_rfl, Or.inl rfl⟩
    fun inv _ h => inBlock_effect hn inv (process_effect h).2

end ZBid
