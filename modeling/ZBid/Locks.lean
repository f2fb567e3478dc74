import ZBid.Lib.LockOrder
import ZBid.Sbuf
import ZBid.Tokenizer
import ZBid.Closings

/-!
# The semaphores of the server

Every thread goes through its P and V in the order of the source, and the handler of SIGINT puts a P
and a V of `usersMutex` before whatever the thread it interrupts does next. The sections nest in one
order, with `usersMutex` at the top, and so the threads never wait in a circle, unless the handler
interrupts a section of `usersMutex` itself.
-/
namespace ZBid

open CString Runs LockOrder

inductive Semaphore where
  | usersMutex | auctionsMutex | auctionIdMutex
  | mutex | slots | items
  deriving DecidableEq, Repr

/-- The two semaphores of the queue that count cells and jobs are not binary. -/
def lockOrder : Order Semaphore where
  binary
    | .slots | .items => false
    | .usersMutex | .auctionsMutex | .auctionIdMutex | .mutex => true
  rank
    | .auctionsMutex | .mutex | .slots | .items => 0
    | .auctionIdMutex => 1
    | .usersMutex => 2

/-- What a thread inside the queue has still to do; the branch for `n == 0` keeps the mutex. -/
def SbufPc.ops {α : Type} (n : Int) : SbufPc α → List (Op Semaphore)
  | .insertCalled _ => .P .slots :: guarded .mutex [] ++ [.V .items]
  | .insertSlot _ => guarded .mutex [] ++ [.V .items]
  | .insertLocked _ | .insertStored => [.V .mutex, .V .items]
  | .insertUnlocked => [.V .items]
  | .removeCalled =>
    if n = 0 then [.P .items, .P .mutex] else .P .items :: guarded .mutex [] ++ [.V .slots]
  | .removeItem => if n = 0 then [.P .mutex] else guarded .mutex [] ++ [.V .slots]
  | .removeLocked => if n = 0 then [] else [.V .mutex, .V .slots]
  | .removeTaken _ => [.V .mutex, .V .slots]
  | .removeUnlocked _ => [.V .slots]
  | .insertReturned | .removeReturned _ | .removeNull => []

def createAuctionOps (itemName : Text) (duration price : Int) : List (Op Semaphore) :=
  if itemName = [] ∨ duration < 1 ∨ price < 0 then [] else guarded .auctionIdMutex []

/-- The winner's record, if there is one, and the creator's are each changed under the mutex. -/
def closeAuctionOps (currentWinner : CharStar) : List (Op Semaphore) :=
  (if currentWinner.isSome then guarded .usersMutex [] else []) ++ guarded .usersMutex []

/-- ANUPDATE is sent under `auctionIdMutex`. -/
def bidAuctionOps (s : Server) (clientFd auctionId bid : Int) : List (Op Semaphore) :=
  match findUsername s clientFd with
  | none => []
  | some user =>
    match bidExit s user.username auctionId bid with
    | some (.buyNow _) => closeAuctionOps user.username
    | some (.highest _) => guarded .auctionIdMutex []
    | _ => []

/-- The operations of `processJob`, for the state that the handler finds. -/
def processJobOps (s : Server) (job : Job) : List (Op Semaphore) :=
  let messageBuffer := cstr job.jobBuffer
  match MsgType.ofCode job.jobMsgType with
  | some .ANCREATE =>
    match ancreateArgs messageBuffer with
    | none => []
    | some (itemName, duration, price) =>
      guarded .auctionsMutex (createAuctionOps itemName duration price)
  | some .ANLIST | some .ANWATCH | some .ANLEAVE => guarded .auctionsMutex []
  | some .ANBID =>
    match anbidArgs messageBuffer with
    | none => []
    | some (auctionId, bid) =>
      guarded .auctionsMutex (bidAuctionOps s job.clientfd auctionId bid)
  | some .USRLIST | some .USRWINS | some .USRSALES | some .USRBLNC => guarded .usersMutex []
  | _ => []

/-- `sigint_handler`. The runs go on after its `sem_destroy` with the semaphores as they are. -/
def sigintHandlerOps : List (Op Semaphore) := guarded .usersMutex []

/-- One round of a thread's loop: a LOGIN in `run_server`, an insertion in `process_client`, a job
in `run_jobs`, with the state that its handler will find, an auction that `run_tick` closes. -/
inductive Round where
  | login
  | insert (n : Nat)
  | job (n : Nat) (s : Server) (request : Job)
  | close (currentWinner : CharStar)
  deriving DecidableEq, Repr

def Round.thread : Round → ThreadId
  | .login => .main
  | .insert n => .client n
  | .job n _ _ => .job n
  | .close _ => .tick

def Round.ops : Round → List (Op Semaphore)
  | .login => guarded .usersMutex []
  | .insert _ => (SbufPc.insertCalled ()).ops bufferSize
  | .job _ s request =>
    (SbufPc.removeCalled : SbufPc Unit).ops bufferSize ++ processJobOps s request
  | .close currentWinner => guarded .auctionsMutex (closeAuctionOps currentWinner)

/-- The semaphores and the threads; `masked` is how many operations of the handler a thread has
still to do, during which SIGINT is blocked on it. -/
structure Threads where
  machine : Machine ThreadId Semaphore
  masked : ThreadId → Nat

/-- `sbuf_init` and the `sem_init` of `run_server`. -/
def semInit : Semaphore → Int
  | .usersMutex | .auctionsMutex | .auctionIdMutex | .mutex => 1
  | .slots => bufferSize
  | .items => 0

def Threads.start : Threads := ⟨⟨semInit, fun _ => [], fun _ => []⟩, fun _ => 0⟩

inductive LockAction where
  | round (r : Round)
  | run (t : ThreadId)
  | sigint (t : ThreadId)
  deriving DecidableEq, Repr

/-- A thread turns to its next round, or does its next operation, or is interrupted. -/
def Threads.step : Step Threads LockAction (ThreadId × Op Semaphore) := fun s action =>
  match action with
  | .round r =>
    if s.machine.ahead r.thread = [] then
      some ({ s with machine := s.machine.enter r.thread r.ops }, [])
    else none
  | .run t => do
    let (op, machine) ← s.machine.run lockOrder t
    some (⟨machine, Function.update s.masked t (s.masked t - 1)⟩, [(t, op)])
  | .sigint t =>
    if s.masked t = 0 then
      some (⟨s.machine.enter t sigintHandlerOps,
        Function.update s.masked t sigintHandlerOps.length⟩, [])
    else none

/-- SIGINT is delivered to a thread that does not hold `usersMutex`. -/
def Threads.Clear (s : Threads) : LockAction → Prop
  | .sigint t => .usersMutex ∉ s.machine.held t
  | .round _ | .run _ => True

instance Threads.decidableClear (s : Threads) : ∀ action, Decidable (s.Clear action)
  | .sigint t => inferInstanceAs (Decidable (Semaphore.usersMutex ∉ s.machine.held t))
  | .round _ | .run _ => inferInstanceAs (Decidable True)

theorem users_leads {held : List Semaphore}
    (h : ∀ j ∈ held, lockOrder.rank j < lockOrder.rank .usersMutex) :
    lockOrder.Leads held (guarded .usersMutex []) held := .guarded rfl h rfl

theorem auctionId_leads : lockOrder.Leads [.auctionsMutex] (guarded .auctionIdMutex [])
    [.auctionsMutex] := .guarded rfl (by decide) rfl

theorem createAuctionOps_leads (itemName : Text) (duration price : Int) :
    lockOrder.Leads [.auctionsMutex] (createAuctionOps itemName duration price)
      [.auctionsMutex] := by
  unfold createAuctionOps
  split
  · rfl
  · exact auctionId_leads

theorem closeAuctionOps_leads (currentWinner : CharStar) :
    lockOrder.Leads [.auctionsMutex] (closeAuctionOps currentWinner) [.auctionsMutex] := by
  have users : lockOrder.Leads [.auctionsMutex] (guarded .usersMutex []) [.auctionsMutex] :=
    users_leads (by decide)
  unfold closeAuctionOps
  split
  · exact users.append users
  · exact users

theorem bidAuctionOps_leads (s : Server) (clientFd auctionId bid : Int) :
    lockOrder.Leads [.auctionsMutex] (bidAuctionOps s clientFd auctionId bid)
      [.auctionsMutex] := by
  unfold bidAuctionOps
  split
  · rfl
  · split
    · exact closeAuctionOps_leads _
    · exact auctionId_leads
    · rfl

theorem auctions_leads {body : List (Op Semaphore)}
    (h : lockOrder.Leads [.auctionsMutex] body [.auctionsMutex]) :
    lockOrder.Leads [] (guarded .auctionsMutex body) [] := .guarded rfl (by simp) h

theorem processJobOps_leads (s : Server) (job : Job) :
    lockOrder.Leads [] (processJobOps s job) [] := by
  simp only [processJobOps]
  split
  · split
    · rfl
    · exact auctions_leads (createAuctionOps_leads _ _ _)
  · exact auctions_leads rfl
  · exact auctions_leads rfl
  · exact auctions_leads rfl
  · split
    · rfl
    · exact auctions_leads (bidAuctionOps_leads _ _ _ _)
  · exact users_leads (by simp)
  · exact users_leads (by simp)
  · exact users_leads (by simp)
  · exact users_leads (by simp)
  · rfl

/-- In a queue that has cells, every function gives the mutex back. -/
theorem SbufPc.ops_leads {α : Type} {n : Int} (hn : n ≠ 0) :
    (∀ item : α, lockOrder.Leads [] ((SbufPc.insertCalled item).ops n) []) ∧
      lockOrder.Leads [] ((SbufPc.removeCalled : SbufPc α).ops n) [] := by
  have section_leads : lockOrder.Leads [] (guarded .mutex []) [] := .guarded rfl (by simp) rfl
  have nothing : lockOrder.Leads [] [] [] := rfl
  have post : ∀ k, lockOrder.binary k = false → lockOrder.Leads [] [.V k] [] :=
    fun k hk => (Order.Leads.count hk List.not_mem_nil nothing).2
  refine ⟨fun _ => ?_, ?_⟩
  · exact (Order.Leads.count rfl List.not_mem_nil (section_leads.append (post .items rfl))).1
  · rw [SbufPc.ops, if_neg hn]
    exact (Order.Leads.count rfl List.not_mem_nil (section_leads.append (post .slots rfl))).1

/-- Every round takes the semaphores in the order, and gives back all that it takes. -/
theorem Round.ops_leads (r : Round) : lockOrder.Leads [] r.ops [] := by
  have hsize : (bufferSize : Int) ≠ 0 := by decide
  cases r with
  | login => exact users_leads (by simp)
  | insert n => exact (SbufPc.ops_leads hsize).1 ()
  | job n s request => exact (SbufPc.ops_leads hsize).2.append (processJobOps_leads s request)
  | close currentWinner => exact auctions_leads (closeAuctionOps_leads currentWinner)

/-- The semaphores of the queue. -/
def Sbuf.value {α : Type} (sp : Sbuf α) : Semaphore → Int
  | .mutex => sp.mutex
  | .slots => sp.slots
  | .items => sp.items
  | .usersMutex | .auctionsMutex | .auctionIdMutex => 1

theorem Sbuf.apply_P {α : Type} {sp sp' : Sbuf α} {k : Semaphore} {v : Int}
    (hv : semP (sp.value k) = some v) (hsp : sp'.value = Function.update sp.value k v) :
    (Op.P k).apply sp.value = some sp'.value := by
  unfold semP at hv
  split at hv
  · rename_i hpos
    obtain rfl := Option.some.inj hv
    rw [Op.apply, if_pos hpos, hsp]
  · cases hv

theorem Sbuf.apply_V {α : Type} {sp sp' : Sbuf α} {k : Semaphore}
    (hsp : sp'.value = Function.update sp.value k (semV (sp.value k))) :
    (Op.V k).apply sp.value = some sp'.value := by
  rw [Op.apply, hsp, semV]

theorem Sbuf.store_value {α : Type} {sp sp' : Sbuf α} {item : α}
    (h : sp.store item = some sp') : sp'.value = sp.value := by
  simp only [Sbuf.store, Option.bind_eq_bind, Option.bind_eq_some_iff, Option.some.injEq] at h
  obtain ⟨rear, -, k, -, rfl⟩ := h
  rfl

theorem Sbuf.fetch_value {α : Type} {sp sp' : Sbuf α} {item : α}
    (h : sp.fetch = some (sp', item)) : sp'.value = sp.value := by
  simp only [Sbuf.fetch, Option.bind_eq_bind, Option.bind_eq_some_iff, Option.some.injEq,
    Prod.mk.injEq] at h
  obtain ⟨front, -, k, -, item', -, rfl, -⟩ := h
  rfl

/-- A step in the queue is the next P or V of its thread, or the body between them. -/
theorem SbufPc.next_ops {α : Type} {sp sp' : Sbuf α} {pc pc' : SbufPc α}
    {marks : List (Fifo.Mark α)} (hn : sp.n ≠ 0) (h : pc.next sp = some (sp', pc', marks)) :
    (pc.ops sp.n = pc'.ops sp.n ∧ sp'.value = sp.value) ∨
      ∃ op, pc.ops sp.n = op :: pc'.ops sp.n ∧ op.apply sp.value = some sp'.value := by
  cases pc with
  | insertCalled item =>
    simp only [SbufPc.next, Option.bind_eq_bind, Option.bind_eq_some_iff, Option.some.injEq,
      Prod.mk.injEq] at h
    obtain ⟨v, hv, rfl, rfl, -⟩ := h
    exact .inr ⟨.P .slots, rfl, Sbuf.apply_P hv (by funext k; cases k <;> rfl)⟩
  | insertSlot item =>
    simp only [SbufPc.next, Option.bind_eq_bind, Option.bind_eq_some_iff, Option.some.injEq,
      Prod.mk.injEq] at h
    obtain ⟨v, hv, rfl, rfl, -⟩ := h
    exact .inr ⟨.P .mutex, rfl, Sbuf.apply_P hv (by funext k; cases k <;> rfl)⟩
  | insertLocked item =>
    simp only [SbufPc.next, Option.bind_eq_bind, Option.bind_eq_some_iff, Option.some.injEq,
      Prod.mk.injEq] at h
    obtain ⟨sp₁, hstore, rfl, rfl, -⟩ := h
    exact .inl ⟨rfl, Sbuf.store_value hstore⟩
  | insertStored | removeTaken _ =>
    simp only [SbufPc.next, Option.some.injEq, Prod.mk.injEq] at h
    obtain ⟨rfl, rfl, -⟩ := h
    exact .inr ⟨.V .mutex, rfl, Sbuf.apply_V (by funext k; cases k <;> rfl)⟩
  | insertUnlocked =>
    simp only [SbufPc.next, Option.some.injEq, Prod.mk.injEq] at h
    obtain ⟨rfl, rfl, -⟩ := h
    exact .inr ⟨.V .items, rfl, Sbuf.apply_V (by funext k; cases k <;> rfl)⟩
  | removeCalled =>
    simp only [SbufPc.next, Option.bind_eq_bind, Option.bind_eq_some_iff, Option.some.injEq,
      Prod.mk.injEq] at h
    obtain ⟨v, hv, rfl, rfl, -⟩ := h
    refine .inr ⟨.P .items, ?_, Sbuf.apply_P hv (by funext k; cases k <;> rfl)⟩
    rw [SbufPc.ops, SbufPc.ops, if_neg hn, if_neg hn]
    rfl
  | removeItem =>
    simp only [SbufPc.next, Option.bind_eq_bind, Option.bind_eq_some_iff, Option.some.injEq,
      Prod.mk.injEq] at h
    obtain ⟨v, hv, rfl, rfl, -⟩ := h
    refine .inr ⟨.P .mutex, ?_, Sbuf.apply_P hv (by funext k; cases k <;> rfl)⟩
    rw [SbufPc.ops, SbufPc.ops, if_neg hn, if_neg hn]
    rfl
  | removeLocked =>
    rw [SbufPc.next, if_neg hn] at h
    simp only [Option.bind_eq_bind, Option.bind_eq_some_iff, Option.some.injEq,
      Prod.mk.injEq] at h
    obtain ⟨⟨sp₁, item⟩, hfetch, rfl, rfl, -⟩ := h
    exact .inl ⟨if_neg hn, Sbuf.fetch_value hfetch⟩
  | removeUnlocked _ =>
    simp only [SbufPc.next, Option.some.injEq, Prod.mk.injEq] at h
    obtain ⟨rfl, rfl, -⟩ := h
    exact .inr ⟨.V .slots, rfl, Sbuf.apply_V (by funext k; cases k <;> rfl)⟩
  | insertReturned | removeReturned _ | removeNull => cases h

/-- A job changes the auctions under `auctionsMutex`, the counter of ids under `auctionIdMutex`,
and closes an auction with `usersMutex`. -/
structure Guarded (s s' : Server) (out : List Event) (ops : List (Op Semaphore)) : Prop where
  auctions : s'.auctionsList ≠ s.auctionsList ∨ s'.auctions ≠ s.auctions →
    .P .auctionsMutex ∈ ops
  counter : s'.auctionID ≠ s.auctionID → .P .auctionIdMutex ∈ ops
  closes : closings out ≠ [] → .P .usersMutex ∈ ops

theorem bidAuction_closes {s s' : Server} {fd auctionId bid : Int} {out : List Event}
    (h : bidAuction s fd auctionId bid = some (s', out)) (hclose : closings out ≠ []) :
    .P .usersMutex ∈ bidAuctionOps s fd auctionId bid := by
  simp only [bidAuction, Option.bind_eq_bind, Option.bind_eq_some_iff] at h
  obtain ⟨user, huser, exit, hexit, h⟩ := h
  cases exit with
  | buyNow a => simp [bidAuctionOps, huser, hexit, closeAuctionOps, guarded]
  | highest a =>
    simp only [raiseAuction, updateAuction, Option.bind_eq_bind, Option.bind_eq_some_iff,
      Option.some.injEq, Prod.mk.injEq] at h
    obtain ⟨s₁, -, auction, -, updates, ⟨name, -, body, -, fds, -, rfl⟩, -, rfl⟩ := h
    exact absurd (closings_raise ..) hclose
  | emptyList | noMatch | creator | notWatching | low =>
    simp only [Option.some.injEq, Prod.mk.injEq] at h
    obtain ⟨-, rfl⟩ := h
    exact absurd rfl hclose

theorem unlinkAuction_auctionID {s s' : Server} {a : Nat} (h : unlinkAuction s a = some s') :
    s'.auctionID = s.auctionID := by
  simp only [unlinkAuction, Option.bind_eq_bind, Option.bind_eq_some_iff, Option.some.injEq] at h
  obtain ⟨index, -, removed, -, rfl⟩ := h
  rfl

theorem processJob_guarded {s s' : Server} {env : JobEnv} {job : Job} {out : List Event}
    (h : processJob s env job = some (s', out)) : Guarded s s' out (processJobOps s job) := by
  have under : ∀ body, Op.P Semaphore.auctionsMutex ∈ guarded .auctionsMutex body :=
    fun _ => List.mem_cons_self
  cases processJob_effect h with
  | quiet hout =>
    exact ⟨by simp, fun hne => absurd rfl hne, fun hne => absurd (closings_messages hout) hne⟩
  | logout =>
    exact ⟨by simp [Server.setUser], fun hne => absurd rfl hne, fun hne => absurd rfl hne⟩
  | create name duration price us creator list body htype hargs hname hd _ hp =>
    have hops : processJobOps s job = guarded .auctionsMutex (guarded .auctionIdMutex []) := by
      simp only [processJobOps, htype, hargs, createAuctionOps]
      rw [if_neg]
      rintro (hempty | hlow | hneg)
      · exact hname hempty
      · omega
      · omega
    rw [hops]
    exact ⟨fun _ => under _, fun _ => by simp [guarded], fun hne => absurd rfl hne⟩
  | watch a x user watchers body htype =>
    simp only [processJobOps, htype]
    exact ⟨fun _ => under _, fun hne => absurd rfl hne, fun hne => absurd rfl hne⟩
  | leave a x user index removed watchers htype =>
    simp only [processJobOps, htype]
    exact ⟨fun _ => under _, fun hne => absurd rfl hne, fun hne => absurd rfl hne⟩
  | raise a x user bid fds name htype hargs =>
    simp only [processJobOps, htype, hargs]
    exact ⟨fun _ => under _, fun hne => absurd rfl hne,
      fun hne => absurd (closings_raise ..) hne⟩
  | buy a x user bid s₁ _ out htype hargs _ _ _ hclose hunlink =>
    have hbid : bidAuction s job.clientfd x.id bid =
        some (s', .accepted a user.username bid :: out) := by
      simpa [processJob, htype, hargs] using h
    obtain ⟨us, rfl, -⟩ := closeAuction_frame hclose
    simp only [processJobOps, htype, hargs]
    refine ⟨fun _ => under _, fun hne => absurd (unlinkAuction_auctionID hunlink) hne,
      fun hne => ?_⟩
    have hmem := bidAuction_closes hbid hne
    simp [guarded, hmem]

/-- What every step keeps. -/
structure Threads.Inv (s : Threads) : Prop where
  orderly : s.machine.Orderly lockOrder
  exclusive : ∀ k, lockOrder.binary k → s.machine.Exclusive k

theorem Threads.Inv.start : Threads.start.Inv where
  orderly _ := rfl
  exclusive k hk := by
    refine .inl ⟨?_, fun _ => List.not_mem_nil⟩
    cases k <;> first | rfl | cases hk

/-- A thread that has nothing ahead holds nothing. -/
theorem Threads.Inv.held_of_idle {s : Threads} (inv : s.Inv) {t : ThreadId}
    (h : s.machine.ahead t = []) : s.machine.held t = [] := by
  have hleads := inv.orderly t
  rwa [h] at hleads

theorem Threads.Inv.step {s s' : Threads} {action : LockAction}
    {out : List (ThreadId × Op Semaphore)} (inv : s.Inv) (hok : s.Clear action)
    (h : s.step action = some (s', out)) : s'.Inv := by
  cases action with
  | round r =>
    simp only [Threads.step] at h
    split at h
    · rename_i hidle
      simp only [Option.some.injEq, Prod.mk.injEq] at h
      obtain ⟨rfl, -⟩ := h
      refine ⟨inv.orderly.enter ?_, fun k hk => inv.exclusive k hk⟩
      rw [inv.held_of_idle hidle]
      exact r.ops_leads
    · cases h
  | run t =>
    simp only [Threads.step, Option.bind_eq_bind, Option.bind_eq_some_iff] at h
    obtain ⟨⟨op, machine⟩, hrun, h⟩ := h
    simp only [Option.some.injEq, Prod.mk.injEq] at h
    obtain ⟨rfl, -⟩ := h
    exact ⟨inv.orderly.run hrun,
      fun k hk => (inv.exclusive k hk).run inv.orderly hk hrun⟩
  | sigint t =>
    simp only [Threads.step] at h
    split at h
    · simp only [Option.some.injEq, Prod.mk.injEq] at h
      obtain ⟨rfl, -⟩ := h
      refine ⟨inv.orderly.enter (users_leads fun j hj => ?_), fun k hk => inv.exclusive k hk⟩
      cases j with
      | usersMutex => exact absurd hj hok
      | auctionsMutex | auctionIdMutex | mutex | slots | items => decide
    · cases h

/-- The handler on a thread that holds `usersMutex` waits for that thread. -/
theorem Threads.Inv.stuck {s s' : Threads} {t : ThreadId} {out : List (ThreadId × Op Semaphore)}
    (inv : s.Inv) (hheld : .usersMutex ∈ s.machine.held t)
    (h : s.step (.sigint t) = some (s', out)) : ¬ s'.machine.DeadlockFree lockOrder := by
  simp only [Threads.step] at h
  split at h
  · simp only [Option.some.injEq, Prod.mk.injEq] at h
    obtain ⟨rfl, -⟩ := h
    intro free
    refine free.noSelf t .usersMutex rfl ⟨?_, ?_⟩ hheld
    · simp [Machine.enter, sigintHandlerOps, guarded]
    · exact (inv.exclusive .usersMutex rfl).value_nonpos hheld
  · cases h

theorem Threads.inv_run {as : List LockAction} {log : List (ThreadId × Op Semaphore)} {s : Threads}
    (run : Run Threads.step Threads.Clear .start as log s) : s.Inv :=
  run.invariant_state .start fun inv hok hs => inv.step hok hs

/-- In every run in which SIGINT never interrupts a section of `usersMutex`, no state has a
deadlock; and the step that interrupts one leads to a deadlock. -/
theorem deadlockFree_run {as : List LockAction} {log : List (ThreadId × Op Semaphore)}
    {s : Threads} (run : Run Threads.step Threads.Clear .start as log s) :
    s.machine.DeadlockFree lockOrder ∧ ∀ action s' out, s.step action = some (s', out) →
      (s'.machine.DeadlockFree lockOrder ↔ s.Clear action) := by
  have inv := Threads.inv_run run
  refine ⟨inv.orderly.deadlockFree, fun action s' out h => ⟨fun free => ?_, fun hok => ?_⟩⟩
  · cases action with
    | round r => trivial
    | run t => trivial
    | sigint t => exact fun hheld => inv.stuck hheld h free
  · exact (inv.step hok h).orderly.deadlockFree

/-- A job thread is interrupted in its section of `auctionsMutex` while a LOGIN is handled, and an
auction expires: the tick thread waits for the job thread, and its handler for the main thread. -/
def sampleInterrupt : List LockAction :=
  [.round (.insert 0), .run (.client 0), .run (.client 0), .run (.client 0), .run (.client 0),
    .round (.job 0 Server.start
      ⟨['V', '\r', '\n', '3', '\r', '\n', '5'], MsgType.ANCREATE.code, 4⟩),
    .run (.job 0), .run (.job 0), .run (.job 0), .run (.job 0), .run (.job 0),
    .round .login, .run .main, .round (.close none), .sigint (.job 0)]

theorem deadlockFree_run_sample :
    let sample := ((exec Threads.step Threads.Clear .start sampleInterrupt).get (by decide)).1
    sample.machine.WaitsFor lockOrder .tick (.job 0) ∧
      sample.machine.WaitsFor lockOrder (.job 0) .main ∧ sample.machine.DeadlockFree lockOrder :=
  ⟨⟨.auctionsMutex, rfl, ⟨by decide, by decide⟩, by decide⟩,
    ⟨.usersMutex, rfl, ⟨by decide, by decide⟩, by decide⟩,
    (deadlockFree_run (run_of_isSome (by decide))).1⟩

/-- SIGINT arrives while the main thread handles a LOGIN. -/
def sampleSelfWait : List LockAction := [.round .login, .run .main, .sigint .main]

theorem deadlockFree_fails : ¬ ∀ as log s,
    Run Threads.step (fun _ _ => True) .start as log s → s.machine.DeadlockFree lockOrder := by
  intro claim
  have run : Run Threads.step (fun _ _ => True) .start sampleSelfWait _
      ((exec Threads.step (fun _ _ => True) .start sampleSelfWait).get (by decide)).1 :=
    run_of_isSome (by decide)
  exact (claim _ _ _ run).noSelf .main .usersMutex rfl ⟨by decide, by decide⟩ (by decide)

end ZBid
