import ZBid.ProcessRefines

/-!
# From the sockets to the auctions

What holds of the whole program under every interleaving of its threads: what a client has sent is
read once, queued in order, processed at most once, and what the program does is what the data and
the tick thread alone would do on the requests in the order of processing.
-/
namespace ZBid

open CInt CString Runs Framing

section Calls

variable {α : Type} {sp sp' : Sbuf α} {pc pc' : SbufPc α} {out : List (Fifo.Mark α)}

/-- A call of `sbuf_insert` stores its item, once. -/
theorem next_inserting (hkind : pc.inserting = 1) (h : pc.next sp = some (sp', pc', out)) :
    pc'.inserting = 1 ∧ Fifo.takes out = [] ∧
      (Fifo.puts out = [] ∧ pc'.storing = pc.storing ∨
        ∃ x, Fifo.puts out = [x] ∧ pc.storing = some x ∧ pc'.storing = none) := by
  cases pc with
  | insertLocked item =>
    simp only [SbufPc.next, Option.bind_eq_bind, Option.bind_eq_some_iff, Option.some.injEq,
      Prod.mk.injEq] at h
    obtain ⟨_, -, rfl, rfl, rfl⟩ := h
    exact ⟨rfl, rfl, Or.inr ⟨item, rfl, rfl, rfl⟩⟩
  | insertCalled | insertSlot | insertStored | insertUnlocked =>
    simp only [SbufPc.next, Option.bind_eq_bind, Option.bind_eq_some_iff, Option.some.injEq,
      Prod.mk.injEq] at h
    grind [SbufPc.storing, SbufPc.inserting, Fifo.puts, Fifo.takes]
  | insertReturned => cases h
  | _ => cases hkind

/-- A call of `sbuf_remove` stores nothing. -/
theorem next_removing (hkind : pc.inserting = 0) (h : pc.next sp = some (sp', pc', out)) :
    pc'.inserting = 0 ∧ Fifo.puts out = [] := by
  cases pc with
  | removeLocked =>
    simp only [SbufPc.next] at h
    split at h
    · obtain ⟨rfl, rfl, rfl⟩ := by simpa using h
      exact ⟨rfl, rfl⟩
    · simp only [Option.bind_eq_bind, Option.bind_eq_some_iff, Option.some.injEq,
        Prod.mk.injEq] at h
      obtain ⟨_, -, rfl, rfl, rfl⟩ := h
      exact ⟨rfl, rfl⟩
  | removeCalled | removeItem | removeTaken | removeUnlocked =>
    simp only [SbufPc.next, Option.bind_eq_bind, Option.bind_eq_some_iff, Option.some.injEq,
      Prod.mk.injEq] at h
    grind [SbufPc.inserting, Fifo.puts]
  | removeReturned | removeNull => cases h
  | _ => cases hkind

@[simp] theorem unlessReturned_storing (pc : SbufPc α) :
    pc.unlessReturned.bind SbufPc.storing = pc.storing := by
  cases pc <;> rfl

theorem unlessReturned_inserting (h : pc.inserting = 1) :
    ∀ pc' ∈ pc.unlessReturned, pc'.inserting = 1 := by
  cases pc with
  | insertReturned => simp [SbufPc.unlessReturned]
  | _ =>
    intro pc' hpc'
    cases hpc'
    exact h

end Calls

/-- What a connection has queued is what its thread has read, but for the request that the thread
has yet to store. -/
structure ConnectionInv (c : Codec Char) (reads : ClientThread → ReadEnv → Prop)
    (tr : List ProgramMark) (i : Nat) (x : Connection) : Prop where
  thread : ∃ envs, Run (processClient c x.clientFd) reads ⟨x.source, false⟩ envs
    ((requestsBy i (readOf tr)).map ClientJob.job) x.thread
  inserting : ∀ pc ∈ x.call, pc.inserting = 1
  queued : requestsBy i (readOf tr) = requestsBy i (Fifo.puts (queueOf tr)) ++
    (x.call.bind SbufPc.storing).toList

structure ConnectionsInv (c : Codec Char) (reads : ClientThread → ReadEnv → Prop)
    (tr : List ProgramMark) (s : Program) : Prop where
  each : ∀ (i : Nat) (x : Connection), s.connections[i]? = some x → ConnectionInv c reads tr i x
  beyond : ∀ i, s.connections.length ≤ i →
    requestsBy i (readOf tr) = [] ∧ requestsBy i (Fifo.puts (queueOf tr)) = []
  removing : ∀ call ∈ s.jobThreads, ∀ pc ∈ call, pc.inserting = 0

/-- A step that reads and stores nothing of a connection. -/
theorem ConnectionInv.quiet {c : Codec Char} {reads : ClientThread → ReadEnv → Prop}
    {tr out : List ProgramMark} {i : Nat} {x : Connection} (inv : ConnectionInv c reads tr i x)
    (hread : requestsBy i (readOf out) = [])
    (hput : requestsBy i (Fifo.puts (queueOf out)) = []) :
    ConnectionInv c reads (tr ++ out) i x := by
  constructor
  · simpa [hread] using inv.thread
  · exact inv.inserting
  · simpa [hread, hput] using inv.queued

theorem processClient_one {c : Codec Char} {clientFd : Int} {s s' : ClientThread} {env : ReadEnv}
    {jobs : List Job} (h : processClient c clientFd s env = some (s', jobs)) :
    jobs = jobs.head?.toList := by
  simp only [processClient] at h
  grind

theorem requestsBy_mk (i : Nat) (jobs : List Job) :
    requestsBy i (jobs.map (ClientJob.mk i)) = jobs.map (ClientJob.mk i) := by
  simp [requestsBy]

theorem requestsBy_other {i i' : Nat} (hne : i' ≠ i) {rs : List ClientJob}
    (h : ∀ r ∈ rs, r.sender = i) : requestsBy i' rs = [] := by
  simp only [requestsBy, List.filter_eq_nil_iff, decide_eq_true_eq]
  intro r hr heq
  exact hne (heq.symm.trans (h r hr))

theorem mem_requestsBy {i : Nat} {r : ClientJob} {rs : List ClientJob} :
    r ∈ requestsBy i rs ↔ r ∈ rs ∧ r.sender = i := by
  simp [requestsBy]

section Connections

variable {c : Codec Char} {reads : ClientThread → ReadEnv → Prop} {tr out : List ProgramMark}
  {s s' : Program} {i : Nat} {x y : Connection}

/-- One connection moves, and nothing is read or stored for the others. -/
theorem ConnectionsInv.move (inv : ConnectionsInv c reads tr s) (hx : s.connections[i]? = some x)
    (hconnections : s'.connections = s.connections.set i y)
    (hthreads : s'.jobThreads = s.jobThreads)
    (hread : ∀ r ∈ readOf out, r.sender = i) (hput : ∀ r ∈ Fifo.puts (queueOf out), r.sender = i)
    (hy : ConnectionInv c reads (tr ++ out) i y) : ConnectionsInv c reads (tr ++ out) s' := by
  have hlt := (List.getElem?_eq_some_iff.mp hx).1
  constructor
  · intro i' x' hx'
    rw [hconnections, List.getElem?_set] at hx'
    split at hx'
    · rename_i heq
      subst heq
      obtain rfl := Option.some.inj hx'
      exact hy
    · rename_i hne
      have hother := inv.each i' x' hx'
      exact hother.quiet (requestsBy_other (Ne.symm hne) hread)
        (requestsBy_other (Ne.symm hne) hput)
  · intro i' hi'
    rw [hconnections, List.length_set] at hi'
    have hne : i' ≠ i := by omega
    obtain ⟨hread', hput'⟩ := inv.beyond i' hi'
    simp [hread', hput', requestsBy_other hne hread, requestsBy_other hne hput]
  · exact hthreads ▸ inv.removing

/-- Nothing is read or stored, and the connections that come in are new. -/
theorem ConnectionsInv.quiet (inv : ConnectionsInv c reads tr s) {new : List Connection}
    (hnew : ∀ x ∈ new, x.thread = ⟨x.source, false⟩ ∧ x.call = none)
    (hconnections : s'.connections = s.connections ++ new) (hread : readOf out = [])
    (hput : Fifo.puts (queueOf out) = [])
    (hthreads : ∀ call ∈ s'.jobThreads, ∀ pc ∈ call, pc.inserting = 0) :
    ConnectionsInv c reads (tr ++ out) s' := by
  constructor
  · intro i x hx
    rw [hconnections] at hx
    by_cases hi : i < s.connections.length
    · rw [List.getElem?_append_left hi] at hx
      exact (inv.each i x hx).quiet (by simp [hread, requestsBy]) (by simp [hput, requestsBy])
    · rw [List.getElem?_append_right (by omega)] at hx
      obtain ⟨hthread, hcall⟩ := hnew x (List.mem_of_getElem? hx)
      obtain ⟨hread', hput'⟩ := inv.beyond i (by omega)
      constructor
      · refine ⟨[], ?_⟩
        simp only [readOf_append, hread, List.append_nil, hread', List.map_nil, hthread]
        exact .start
      · simp [hcall]
      · simp [hread, hput, hread', hput', hcall]
  · intro i hi
    rw [hconnections, List.length_append] at hi
    simpa [hread, hput] using inv.beyond i (by omega)
  · exact hthreads

/-- What the thread has read is with the call that it makes next. -/
theorem ConnectionsInv.read (inv : ConnectionsInv c reads tr s) {env : ReadEnv}
    {thread : ClientThread} {jobs : List Job} (hx : s.connections[i]? = some x)
    (hcall : x.call = none) (hok : reads x.thread env)
    (hstep : processClient c x.clientFd x.thread env = some (thread, jobs)) :
    ConnectionsInv c reads (tr ++ jobs.map fun job => .read ⟨i, job⟩) { s with
      connections := s.connections.set i { x with
        thread, call := jobs.head?.map fun job => .insertCalled (ClientJob.mk i job) } } := by
  have hone := processClient_one hstep
  have hinv := inv.each i x hx
  obtain ⟨envs, hrun⟩ := hinv.thread
  have hqueued := hinv.queued
  rw [hcall] at hqueued
  refine inv.move hx rfl rfl (by simp +contextual) (by simp [Fifo.puts]) ⟨?_, ?_, ?_⟩
  · refine ⟨envs ++ [env], ?_⟩
    have hnext := hrun.step hok hstep
    simpa [requestsBy_mk, Function.comp_def] using hnext
  · intro pc hpc
    obtain ⟨job, -, rfl⟩ := Option.map_eq_some_iff.mp hpc
    rfl
  · rw [readOf_append, readOf_read, requestsBy_append, requestsBy_mk, hqueued, queueOf_append,
      queueOf_read, List.append_nil, hone]
    cases jobs.head? <;> simp [SbufPc.storing]

/-- What the call stores is the last that the thread has read. -/
theorem ConnectionsInv.insert (inv : ConnectionsInv c reads tr s) {pc pc' : SbufPc ClientJob}
    {sbuf : Sbuf ClientJob} {marks : List (Fifo.Mark ClientJob)}
    (hx : s.connections[i]? = some x) (hcall : x.call = some pc)
    (hnext : pc.next s.sbuf = some (sbuf, pc', marks)) :
    ConnectionsInv c reads (tr ++ marks.map .queue) { s with
      sbuf, connections := s.connections.set i { x with call := pc'.unlessReturned } } := by
  have hinv := inv.each i x hx
  have hqueued := hinv.queued
  rw [hcall] at hqueued
  obtain ⟨hkind, -, hmove⟩ := next_inserting (hinv.inserting pc hcall) hnext
  have hsender : ∀ r ∈ Fifo.puts marks, r.sender = i := by
    rcases hmove with ⟨hnone, -⟩ | ⟨r, hput, hold, -⟩
    · simp [hnone]
    · have hmem : r ∈ requestsBy i (readOf tr) := by
        rw [hqueued]
        simp [hold]
      intro r' hr'
      obtain rfl := List.mem_singleton.mp (hput ▸ hr')
      exact (mem_requestsBy.mp hmem).2
  refine inv.move hx rfl rfl (by simp) (by simpa using hsender) ⟨?_, ?_, ?_⟩
  · simpa using hinv.thread
  · exact unlessReturned_inserting hkind
  · have hown : requestsBy i (Fifo.puts marks) = Fifo.puts marks :=
      List.filter_eq_self.mpr fun r hr => decide_eq_true (hsender r hr)
    rcases hmove with ⟨hnone, hsame⟩ | ⟨r, hput, hold, hnew⟩
    · simpa [hnone, hsame] using hqueued
    · rw [hput] at hown
      simpa [hown, hput, hold, hnew] using hqueued

theorem connectionsInv_effect {action : ProgramAction} (inv : ConnectionsInv c reads tr s)
    (hok : s.Sponsored reads action) (h : ProgramEffect c s action s' out) :
    ConnectionsInv c reads (tr ++ out) s' := by
  have hset {j : Nat} {call : Option (SbufPc ClientJob)} (hcall : ∀ pc ∈ call, pc.inserting = 0) :
      ∀ call' ∈ s.jobThreads.set j call, ∀ pc ∈ call', pc.inserting = 0 := by
    intro call' hmem
    rcases List.mem_or_eq_of_mem_set hmem with hmem | rfl
    · exact inv.removing call' hmem
    · exact hcall
  cases h with
  | shared new _ _ _ _ hnew => exact inv.quiet hnew rfl (by simp) (by simp [Fifo.puts]) inv.removing
  | @read i env x thread jobs hx hcall hstep => exact inv.read hx hcall (hok.1 x hx) hstep
  | insert hx hcall hnext => exact inv.insert hx hcall hnext
  | call hj =>
    exact inv.quiet (List.forall_mem_nil _) (List.append_nil _).symm rfl rfl (hset (by simp))
  | remove hj hnext =>
    obtain ⟨hkind, hput⟩ := next_removing (inv.removing _ (List.mem_of_getElem? hj) _ rfl) hnext
    exact inv.quiet (List.forall_mem_nil _) (List.append_nil _).symm (by simp) (by simpa using hput)
      (hset (by simpa using hkind))
  | process hj =>
    exact inv.quiet (List.forall_mem_nil _) (List.append_nil _).symm (by simp) (by simp [Fifo.puts])
      (hset (by simp))
  | null hj =>
    exact inv.quiet (List.forall_mem_nil _) (List.append_nil _).symm rfl rfl (hset (by simp))

end Connections

/-- What has been taken out of the buffer is processed, or held by a job thread; a single job
thread processes it in that order. -/
structure ThreadsInv (numJobThreads : Nat) (tr : List ProgramMark) (s : Program) : Prop where
  length : s.jobThreads.length = numJobThreads
  taken : (Fifo.takes (queueOf tr)).Perm (processedOf tr ++ s.held)
  single : numJobThreads = 1 → Fifo.takes (queueOf tr) = processedOf tr ++ s.held

section Threads

variable {m : Nat} {tr out : List ProgramMark} {s s' : Program} {j : Nat}
  {call call' : Option (SbufPc ClientJob)}

/-- Nothing is taken, processed or let go of. -/
theorem ThreadsInv.quiet (inv : ThreadsInv m tr s)
    (hlength : s'.jobThreads.length = s.jobThreads.length) (hheld : s'.held = s.held)
    (htakes : Fifo.takes (queueOf out) = []) (hprocessed : processedOf out = []) :
    ThreadsInv m (tr ++ out) s' := by
  constructor
  · exact hlength.trans inv.length
  · simpa [htakes, hprocessed, hheld] using inv.taken
  · simpa [htakes, hprocessed, hheld] using inv.single

theorem single_thread (inv : ThreadsInv 1 tr s) (hj : s.jobThreads[j]? = some call) :
    j = 0 ∧ s.jobThreads = [call] := by
  obtain ⟨call', hthreads⟩ := List.length_eq_one_iff.mp inv.length
  obtain ⟨hlt, hget⟩ := List.getElem?_eq_some_iff.mp hj
  have hzero : j = 0 := by
    rw [inv.length] at hlt
    omega
  subst hzero
  simpa [hthreads] using hj

/-- A job thread takes a request. -/
theorem ThreadsInv.take {r : ClientJob} (inv : ThreadsInv m tr s)
    (hj : s.jobThreads[j]? = some call) (hcall : call.bind SbufPc.taken = none)
    (hcall' : call'.bind SbufPc.taken = some r)
    (hthreads : s'.jobThreads = s.jobThreads.set j call')
    (htakes : Fifo.takes (queueOf out) = [r]) (hprocessed : processedOf out = []) :
    ThreadsInv m (tr ++ out) s' := by
  constructor
  · rw [hthreads, List.length_set, inv.length]
  · have hheld : s'.held.Perm (r :: s.held) := by
      rw [Program.held, hthreads]
      exact Pool.filterMap_set _ hj hcall hcall'
    rw [queueOf_append, Fifo.takes_append, htakes, processedOf_append, hprocessed, List.append_nil]
    calc (Fifo.takes (queueOf tr) ++ [r]).Perm (processedOf tr ++ s.held ++ [r]) :=
          inv.taken.append_right _
      _ |>.Perm (processedOf tr ++ (r :: s.held)) := by
          rw [List.append_assoc]
          exact (List.perm_append_singleton r s.held).append_left _
      _ |>.Perm (processedOf tr ++ s'.held) := hheld.symm.append_left _
  · rintro rfl
    obtain ⟨rfl, hone⟩ := single_thread inv hj
    have hbefore := inv.single rfl
    rw [Program.held, hone] at hbefore
    rw [Program.held, hthreads, hone]
    simp_all

/-- A job thread lets go of what it has processed. -/
theorem ThreadsInv.process {r : ClientJob} (inv : ThreadsInv m tr s)
    (hj : s.jobThreads[j]? = some call) (hcall : call.bind SbufPc.taken = some r)
    (hthreads : s'.jobThreads = s.jobThreads.set j none) (htakes : Fifo.takes (queueOf out) = [])
    (hprocessed : processedOf out = [r]) : ThreadsInv m (tr ++ out) s' := by
  constructor
  · rw [hthreads, List.length_set, inv.length]
  · obtain ⟨others, hold, hset⟩ :=
      Pool.filterMap_split (fun call : Option (SbufPc ClientJob) => call.bind SbufPc.taken) hj
    rw [hcall] at hold
    have hheld : s'.held.Perm others := by
      rw [Program.held, hthreads]
      exact hset none
    rw [queueOf_append, Fifo.takes_append, htakes, processedOf_append, hprocessed, List.append_nil,
      List.append_assoc]
    exact inv.taken.trans ((hold.trans (hheld.symm.cons r)).append_left _)
  · rintro rfl
    obtain ⟨rfl, hone⟩ := single_thread inv hj
    have hbefore := inv.single rfl
    rw [Program.held, hone] at hbefore
    rw [Program.held, hthreads, hone]
    simp_all

theorem threadsInv_effect {c : Codec Char} {reads : ClientThread → ReadEnv → Prop}
    {action : ProgramAction} (inv : ThreadsInv m tr s) (connections : ConnectionsInv c reads tr s)
    (h : ProgramEffect c s action s' out) : ThreadsInv m (tr ++ out) s' := by
  cases h with
  | shared => exact inv.quiet rfl rfl (by simp [Fifo.takes]) (by simp)
  | read => exact inv.quiet rfl rfl (by simp [Fifo.takes]) (by simp)
  | insert hx hcall hnext =>
    have hkind := (connections.each _ _ hx).inserting _ hcall
    obtain ⟨-, htakes, -⟩ := next_inserting hkind hnext
    exact inv.quiet rfl rfl (by simpa using htakes) (by simp)
  | call hj =>
    have hheld := Pool.filterMap_set_same (fun call : Option (SbufPc ClientJob) =>
      call.bind SbufPc.taken) hj (show (some SbufPc.removeCalled).bind SbufPc.taken = none from rfl)
    exact inv.quiet (List.length_set ..) hheld rfl rfl
  | @remove j pc pc' sbuf out hj hnext =>
    rcases next_taken hnext with ⟨htakes, hsame⟩ | ⟨r, htakes, hnone, hsome⟩
    · have hheld := Pool.filterMap_set_same (fun call : Option (SbufPc ClientJob) =>
        call.bind SbufPc.taken) hj (y := some _) hsame
      exact inv.quiet (List.length_set ..) hheld (by simpa using htakes) (by simp)
    · have hnow : (some pc').bind SbufPc.taken = some r := hsome
      exact inv.take hj hnone hnow rfl (by simpa using htakes) (by simp)
  | process hj => exact inv.process hj rfl rfl (by simp [Fifo.takes]) (by simp)
  | null hj =>
    have hheld := Pool.filterMap_set_same (fun call : Option (SbufPc ClientJob) =>
      call.bind SbufPc.taken) hj (show none.bind SbufPc.taken = none from rfl)
    exact inv.quiet (List.length_set ..) hheld rfl rfl

end Threads

/-- The log is that of a run of the data and the tick thread alone, whose jobs are the requests
processed. -/
def Serial (tr : List ProgramMark) (s : Program) : Prop :=
  ∃ bs, Run Interleaved.step Interleaved.Sponsored Interleaved.start bs (eventsOf tr) s.shared ∧
    bs.filterMap InterleavedAction.requested = (processedOf tr).map ClientJob.job

theorem serial_effect {c : Codec Char} {reads : ClientThread → ReadEnv → Prop} {s s' : Program}
    {action : ProgramAction} {tr out : List ProgramMark} (inv : Serial tr s)
    (hok : s.Sponsored reads action) (h : ProgramEffect c s action s' out) :
    Serial (tr ++ out) s' := by
  obtain ⟨bs, hrun, hjobs⟩ := inv
  cases h with
  | @shared _ a _ _ new _ hstep hjob hadmits =>
    refine ⟨bs ++ [a], ?_, by simp [hjobs, hjob]⟩
    simpa using hrun.step (hadmits reads hok) hstep
  | @process j env r _ _ hj hstep =>
    have hreturned : s.returnedTo j = some r := by simp [Program.returnedTo, hj]
    have hadmits : s.shared.Sponsored (.job env r.job) := hok r hreturned
    refine ⟨bs ++ [.job env r.job], ?_, by simp [hjobs, InterleavedAction.requested]⟩
    simpa using hrun.step hadmits hstep
  | read | insert => exact ⟨bs, by simpa using hrun, by simpa using hjobs⟩
  | call | null =>
    rw [List.append_nil]
    exact ⟨bs, hrun, hjobs⟩
  | remove => exact ⟨bs, by simpa using hrun, by simpa using hjobs⟩

theorem held_length (s : Program) : s.held.length ≤ s.jobThreads.length := by
  rw [Program.held]
  exact List.length_filterMap_le ..

/-- What holds of every interleaving of the threads. -/
structure ProgramLaw (c : Codec Char) (reads : ClientThread → ReadEnv → Prop) (n : Int)
    (numJobThreads : Nat) (tr : List ProgramMark) (s : Program) : Prop where
  serial : Serial tr s
  race : RaceLaw (eventsOf tr) s.shared
  connections : ∀ (i : Nat) (x : Connection), s.connections[i]? = some x →
    ConnectionInv c reads tr i x
  buffer : ∃ q, Fifo.puts (queueOf tr) = Fifo.takes (queueOf tr) ++ q ∧ (q.length : Int) ≤ n ∧
    s.sbuf.Holds q
  threads : ThreadsInv numJobThreads tr s
  few : s.held.length ≤ numJobThreads

theorem calls_start (null : ClientJob) (n : Int) (numJobThreads : Nat) :
    (Program.start null n numJobThreads).calls = [] := by
  simp [Program.calls, Program.start]

theorem connectionsInv_start (c : Codec Char) (reads : ClientThread → ReadEnv → Prop)
    (null : ClientJob) (n : Int) (numJobThreads : Nat) :
    ConnectionsInv c reads [] (Program.start null n numJobThreads) where
  each i x hx := by simp [Program.start] at hx
  beyond i _ := ⟨rfl, rfl⟩
  removing call hcall := by
    obtain rfl := List.eq_of_mem_replicate hcall
    simp

theorem threadsInv_start (null : ClientJob) (n : Int) (numJobThreads : Nat) :
    ThreadsInv numJobThreads [] (Program.start null n numJobThreads) := by
  have hheld : (Program.start null n numJobThreads).held = [] := by
    simp [Program.held, Program.start]
  constructor
  · exact List.length_replicate
  · rw [hheld]
    exact .nil
  · intro _
    rw [hheld]
    rfl

theorem program_inv (c : Codec Char) (reads : ClientThread → ReadEnv → Prop) (null : ClientJob)
    {n : Int} (hn : 1 ≤ n) (numJobThreads : Nat) {as : List ProgramAction}
    {tr : List ProgramMark} {s : Program}
    (run : Run (Program.step c) (Program.Sponsored reads) (Program.start null n numJobThreads) as
      tr s) : Buffered n (queueOf tr) s.sbuf s.calls ∧ ConnectionsInv c reads tr s ∧
        ThreadsInv numJobThreads tr s ∧ Serial tr s := by
  refine run.invariant (P := fun _ tr s => Buffered n (queueOf tr) s.sbuf s.calls ∧
    ConnectionsInv c reads tr s ∧ ThreadsInv numJobThreads tr s ∧ Serial tr s) ?_ ?_
  · refine ⟨?_, connectionsInv_start c reads null n _, threadsInv_start null n _, [], .start, rfl⟩
    rw [calls_start]
    exact buffered_init null hn
  · intro as tr s action s' out _ inv hok h
    have heffect := program_effect h
    obtain ⟨hbuffered, hconnections, hthreads, hserial⟩ := inv
    exact ⟨program_buffered hn hbuffered hok heffect,
      connectionsInv_effect hconnections hok heffect,
      threadsInv_effect hthreads hconnections heffect, serial_effect hserial hok heffect⟩

theorem programLaw (c : Codec Char) (reads : ClientThread → ReadEnv → Prop) (null : ClientJob)
    {n : Int} (hn : 1 ≤ n) (numJobThreads : Nat) {as : List ProgramAction}
    {tr : List ProgramMark} {s : Program}
    (run : Run (Program.step c) (Program.Sponsored reads) (Program.start null n numJobThreads) as
      tr s) : ProgramLaw c reads n numJobThreads tr s := by
  obtain ⟨hbuffered, hconnections, hthreads, hserial⟩ := program_inv c reads null hn _ run
  constructor
  · exact hserial
  · obtain ⟨bs, hrun, -⟩ := hserial
    exact raceLaw hrun
  · exact hconnections.each
  · obtain ⟨ops, q, returned, hrun, queue, -⟩ := hbuffered
    obtain ⟨horder, hlen⟩ := Fifo.law hrun
    exact ⟨q, horder, by omega, queue.holds⟩
  · exact hthreads
  · exact hthreads.length ▸ held_length s

/-- What holds of the process. The block that the buffer is has a cell for every `sbuf_remove`, and
for an `sbuf_insert` as long as there have been few. -/
structure ProcessLaw (c : Codec Char) (reads : ClientThread → ReadEnv → Prop) (n : Int)
    (numJobThreads : Nat) (tr : List ProgramMark) (s : Process) : Prop where
  program : ProgramLaw c reads n numJobThreads tr s.program
  inserts : ∀ x ∈ s.clients, ∀ newJob item, x.newJob = some (newJob, .insertLocked item) →
    (((SbufPc.insertLocked item).next s.sbuf).isSome ↔ s.sbuf.rear + 1 < cellsProvided n)
  removes : .removing .removeLocked ∈ s.jobThreads → (SbufPc.removeLocked.next s.sbuf).isSome

theorem mem_calls_connection {s : Process} {x : ClientConnection} (hx : x ∈ s.clients)
    {newJob : JobBlock} {pc : SbufPc JobBlock} (hcall : x.newJob = some (newJob, pc))
    (hpc : pc ≠ .insertReturned) : pc.map JobBlock.request ∈ s.program.calls := by
  refine List.mem_append_left _ (List.mem_filterMap.mpr ⟨_, List.mem_map_of_mem hx, ?_⟩)
  cases pc with
  | insertReturned => exact absurd rfl hpc
  | _ => simp [ClientConnection.connection, hcall, SbufPc.map, SbufPc.unlessReturned]

theorem mem_calls_jobThread {s : Process} {pc : SbufPc JobBlock}
    (hpc : .removing pc ∈ s.jobThreads) : pc.map JobBlock.request ∈ s.program.calls :=
  List.mem_append_right _ (List.mem_filterMap.mpr ⟨_, List.mem_map_of_mem hpc, rfl⟩)

theorem processLaw_run (c : Codec Char) (reads : ClientThread → ReadEnv → Prop) {n : Int}
    (hn : 1 ≤ n) (numJobThreads : Nat) {as : List ProcessAction} {tr : List ProgramMark}
    {s : Process}
    (run : Run (Process.step c) (Process.Allows (Program.Sponsored reads))
      (Process.start n numJobThreads) as tr s) : ProcessLaw c reads n numJobThreads tr s := by
  obtain ⟨bs, refined⟩ := process_refines run
  have block := inBlock_run hn run
  have hbuffered := (program_inv c reads _ hn _ refined.run).1
  obtain ⟨ops, q, returned, -, queue, -⟩ := id hbuffered
  constructor
  · exact programLaw c reads _ hn _ refined.run
  · intro x hx newJob item hcall
    have hmem := mem_calls_connection hx hcall (by simp)
    obtain ⟨k, hk⟩ := List.getElem?_of_mem (List.mem_append_left returned hmem)
    exact insert_defined hn block (queue.room hk).2 item
  · intro hmem
    have hcall := List.mem_append_left returned (mem_calls_jobThread hmem)
    obtain ⟨k, hk⟩ := List.getElem?_of_mem hcall
    obtain ⟨r, rest, rfl, hmax⟩ := queue.available hk
    have hrear := queue.holds.rear
    simp only [List.length_cons] at hrear
    have hlt : s.sbuf.front < s.sbuf.rear := by
      have hsame : s.sbuf.rear = s.sbuf.front + (rest.length + 1 : Nat) := hrear
      omega
    exact remove_defined hn block queue.holds.front hlt hmax

/-- A creates an auction; B watches it and bids. -/
def sampleFromA : List (Frame petrHeader) :=
  [sampleFrame .ANCREATE ['V', '\r', '\n', '3', '\r', '\n', '5'] (by decide)]

def sampleFromB : List (Frame petrHeader) :=
  [sampleFrame .ANWATCH ['1'] (by decide),
    sampleFrame .ANBID ['1', '\r', '\n', '9'] (by decide)]

/-- A connection is accepted, and its LOGIN parsed and carried out. -/
def sampleVisit (clientFd : Int) (body source : List Char) : List ProcessAction :=
  [.accept ⟨clientFd, MsgType.LOGIN.code, body, source⟩, .strtok .main, .strtok .main, .connect]

/-- A client thread reads a message of the length, inserts its job and tests it. -/
def sampleSend (client length : Nat) : List ProcessAction :=
  .read client ⟨⟨0, 0⟩, 0, some length, [], 24⟩ :: List.replicate 5 (.sbufInsert client) ++
    [.test client]

/-- A job thread handles what it has removed, with so many calls of `strtok`. -/
def sampleServe (thread calls : Nat) : List ProcessAction :=
  .begin thread :: List.replicate calls (.strtok (.job thread)) ++
    [.handle thread ⟨sampleMalloc, []⟩, .free thread]

/-- Two job threads, and a block for half of eight cells. Job thread 0 waits for the request of A;
then it takes the first request of B, and job thread 1 the second. -/
def sampleDeal (source : List Char) (first second : Nat) : List ProcessAction := List.flatten [
  sampleVisit 4 ['A', '\r', '\n', 'x'] (stream sampleFromA),
  sampleVisit 5 ['B', '\r', '\n', 'y'] source,
  .sbufRemove 0 :: sampleSend 0 7, [.startTick],
  List.replicate 5 (.sbufRemove 0), sampleServe 0 3, [.startTick, .age],
  sampleSend 1 first, sampleSend 1 second,
  List.replicate 6 (.sbufRemove 0), List.replicate 6 (.sbufRemove 1),
  sampleServe 0 0, sampleServe 1 2, [.startTick]]

def sampleProcess : List ProcessAction := sampleDeal (stream sampleFromB) 1 4

theorem sampleProcess_completes :
    (exec (Process.step petrHeader) (Process.Allows (Program.Sponsored (ReadsWhole petrHeader)))
      (Process.start 8 2) sampleProcess).isSome := by decide

def sampleProcessEnd : Process × List ProgramMark :=
  (exec (Process.step petrHeader) (Process.Allows (Program.Sponsored (ReadsWhole petrHeader)))
    (Process.start 8 2) sampleProcess).get sampleProcess_completes

theorem sampleProcess_run :
    Run (Process.step petrHeader) (Process.Allows (Program.Sponsored (ReadsWhole petrHeader)))
      (Process.start 8 2) sampleProcess sampleProcessEnd.2 sampleProcessEnd.1 :=
  run_of_isSome sampleProcess_completes

theorem processLaw_run_sample :
    sampleProcessEnd.1.shared.server.users.map User.balance = [9, -9] ∧
      ProcessLaw petrHeader (ReadsWhole petrHeader) 8 2 sampleProcessEnd.2 sampleProcessEnd.1 :=
  ⟨by decide +kernel,
    processLaw_run petrHeader (ReadsWhole petrHeader) (by decide) 2 sampleProcess_run⟩

variable {c : Codec Char}

/-- The thread has come to the end, or to a LOGOUT, and is not waiting in `sbuf_insert`. -/
def Connection.Finished (c : Codec Char) (x : Connection) : Prop :=
  x.call = none ∧ (x.thread.returned = true ∨ x.thread.stream.length < c.size)

/-- The buffer is empty, and no job thread holds a request. -/
def Program.Drained (s : Program) : Prop := s.sbuf.front = s.sbuf.rear ∧ s.held = []

instance (x : Connection) : Decidable (x.Finished c) :=
  inferInstanceAs (Decidable (_ = _ ∧ (_ ∨ _)))

instance (s : Program) : Decidable s.Drained := inferInstanceAs (Decidable (_ ∧ _))

/-- No message of a client is processed twice, or not at all, and none that it has not sent; a
single job thread processes them in the order of sending. -/
structure DeliveryLaw (numJobThreads : Nat) (messages : List (Frame c)) (s : Program)
    (x : Connection) (processed : List Job) : Prop where
  once : ∃ done jobs, done <+: upToLogout messages ∧
    List.Forall₂ (Carries x.clientFd) done jobs ∧ processed.Subperm jobs
  order : numJobThreads = 1 →
    ∃ done, done <+: upToLogout messages ∧ List.Forall₂ (Carries x.clientFd) done processed
  all : x.Finished c → s.Drained →
    ∃ jobs, List.Forall₂ (Carries x.clientFd) (upToLogout messages) jobs ∧ processed.Perm jobs
  allInOrder : numJobThreads = 1 → x.Finished c → s.Drained →
    List.Forall₂ (Carries x.clientFd) (upToLogout messages) processed

theorem threadInv_run (clientFd : Int) {messages : List (Frame c)}
    (hkinds : ∀ m ∈ messages, m.kind ≠ 0) (last : Frame c) {cut : Nat}
    (hcut : cut < last.bytes.length) {envs : List ReadEnv} {jobs : List Job} {s : ClientThread}
    (run : Run (processClient c clientFd) (ReadsWhole c)
      ⟨stream messages ++ last.bytes.take cut, false⟩ envs jobs s) :
    ThreadInv clientFd messages (last.bytes.take cut) jobs s :=
  run.invariant (P := fun _ tr s => ThreadInv clientFd messages (last.bytes.take cut) tr s)
    (Or.inl ⟨[], messages, last.bytes.take cut, rfl, rfl, by simp, .nil, rfl, Or.inl rfl⟩)
    fun _ inv hok h => threadInv_step hkinds hcut inv hok h

section Delivered

variable {reads : ClientThread → ReadEnv → Prop} {n : Int} {numJobThreads : Nat}
  {tr : List ProgramMark} {s : Program} {i : Nat} {x : Connection}

/-- Of what a client thread has read, what is not processed is waiting or held. -/
theorem ProgramLaw.processed_subperm (law : ProgramLaw c reads n numJobThreads tr s)
    (hx : s.connections[i]? = some x) :
    (requestsBy i (processedOf tr)).Subperm (requestsBy i (readOf tr)) := by
  obtain ⟨q, hputs, -, -⟩ := law.buffer
  have htaken := law.threads.taken.filter fun r => decide (r.sender = i)
  rw [List.filter_append] at htaken
  have hprocessed : (requestsBy i (processedOf tr)).Subperm
      (requestsBy i (Fifo.takes (queueOf tr))) :=
    (List.sublist_append_left _ _).subperm.trans htaken.symm.subperm
  rw [(law.connections i x hx).queued, hputs, requestsBy_append, List.append_assoc]
  exact hprocessed.trans (List.sublist_append_left _ _).subperm

theorem ProgramLaw.processed_prefix (law : ProgramLaw c reads n 1 tr s)
    (hx : s.connections[i]? = some x) :
    requestsBy i (processedOf tr) <+: requestsBy i (readOf tr) := by
  obtain ⟨q, hputs, -, -⟩ := law.buffer
  rw [(law.connections i x hx).queued, hputs, law.threads.single rfl]
  simp only [requestsBy_append, List.append_assoc]
  exact List.prefix_append _ _

/-- Once everything is drained, what was read is processed. -/
theorem ProgramLaw.processed_all (law : ProgramLaw c reads n numJobThreads tr s)
    (hx : s.connections[i]? = some x) (hcall : x.call = none) (hdrained : s.Drained) :
    (requestsBy i (processedOf tr)).Perm (requestsBy i (readOf tr)) := by
  obtain ⟨q, hputs, -, hholds⟩ := law.buffer
  obtain ⟨hempty, hheld⟩ := hdrained
  have hq : q = [] := by
    have hrear := hholds.rear
    exact List.length_eq_zero_iff.mp (by omega)
  have htaken := law.threads.taken
  rw [hheld, List.append_nil] at htaken
  rw [(law.connections i x hx).queued, hputs, hq, hcall]
  simpa [requestsBy] using htaken.symm.filter fun r => decide (r.sender = i)

end Delivered

theorem deliveryLaw (null : ClientJob) {n : Int} (hn : 1 ≤ n) (numJobThreads : Nat)
    {as : List ProgramAction} {tr : List ProgramMark} {s : Program}
    (run : Run (Program.step c) (Program.Sponsored (ReadsWhole c))
      (Program.start null n numJobThreads) as tr s)
    {i : Nat} {x : Connection} (hx : s.connections[i]? = some x) {messages : List (Frame c)}
    (hkinds : ∀ m ∈ messages, m.kind ≠ 0) (last : Frame c) {cut : Nat}
    (hcut : cut < last.bytes.length) (hsource : x.source = stream messages ++ last.bytes.take cut) :
    DeliveryLaw numJobThreads messages s x
      ((requestsBy i (processedOf tr)).map ClientJob.job) := by
  have law := programLaw c (ReadsWhole c) null hn numJobThreads run
  obtain ⟨envs, hthread⟩ := (law.connections i x hx).thread
  rw [hsource] at hthread
  have framing := (threadInv_run x.clientFd hkinds last hcut hthread).law
  obtain ⟨done, hdone, hcarried⟩ := framing.order
  constructor
  · obtain ⟨those, hperm, hsub⟩ := law.processed_subperm hx
    exact ⟨done, _, hdone, hcarried, those.map ClientJob.job, hperm.map _, hsub.map _⟩
  · rintro rfl
    obtain ⟨rest, hrest⟩ := (law.processed_prefix hx).map ClientJob.job
    rw [← hrest] at hcarried
    exact ⟨_, (List.take_prefix _ _).trans hdone, List.forall₂_take_append _ _ _ hcarried⟩
  · intro hfinished hdrained
    exact ⟨_, framing.all hfinished.2, (law.processed_all hx hfinished.1 hdrained).map _⟩
  · rintro rfl hfinished hdrained
    have hlength := (law.processed_all hx hfinished.1 hdrained).length_eq
    rw [(law.processed_prefix hx).eq_of_length hlength]
    exact framing.all hfinished.2

theorem deliveryLaw_run {n : Int} (hn : 1 ≤ n) (numJobThreads : Nat)
    {as : List ProcessAction} {tr : List ProgramMark} {s : Process}
    (run : Run (Process.step c) (Process.Allows (Program.Sponsored (ReadsWhole c)))
      (Process.start n numJobThreads) as tr s)
    {i : Nat} {x : ClientConnection} (hx : s.clients[i]? = some x) {messages : List (Frame c)}
    (hkinds : ∀ m ∈ messages, m.kind ≠ 0) (last : Frame c) {cut : Nat}
    (hcut : cut < last.bytes.length) (hsource : x.source = stream messages ++ last.bytes.take cut) :
    DeliveryLaw numJobThreads messages s.program x.connection
      ((requestsBy i (processedOf tr)).map ClientJob.job) := by
  obtain ⟨bs, refined⟩ := process_refines run
  exact deliveryLaw _ hn numJobThreads refined.run (connection_get hx) hkinds last hcut hsource

def sampleClient : ClientConnection := sampleProcessEnd.1.clients.getLast (by decide +kernel)

/-- B has come to the end of its messages, and both have been processed. -/
theorem deliveryLaw_run_sample : sampleClient.connection.Finished petrHeader ∧
    sampleProcessEnd.1.program.Drained ∧
      DeliveryLaw 2 sampleFromB sampleProcessEnd.1.program sampleClient.connection
        ((requestsBy 1 (processedOf sampleProcessEnd.2)).map ClientJob.job) := by
  have hx : sampleProcessEnd.1.clients[1]? = some sampleClient := by decide +kernel
  have hsource : sampleClient.source = stream sampleFromB ++ sampleLast.bytes.take 0 := by
    decide +kernel
  exact ⟨by decide +kernel, by decide +kernel, deliveryLaw_run (by decide) 2 sampleProcess_run hx
    (by decide) sampleLast (show 0 < sampleLast.bytes.length by decide) hsource⟩

end ZBid
