import ZBid.Alphabet

/-!
# finalsample.c: the shutdown

SIGINT logs everybody out, closes the connections that the records know and frees the buffer of the
last LOGIN, and main leaves its loop when `accept` next returns. Until then the job threads and the
tick thread run on. Where that LOGIN has signed nobody up they do what they would have done, but
whoever was logged in does not hear of it. glibc's `sem_destroy` leaves the semaphores usable.
-/
namespace ZBid

open CInt CString Runs

/-- What `server_init` has returned. -/
def listenFd : Int := 3

/-- A call of `close`, and whether the descriptor was open. -/
structure Close where
  fd : Int
  wasOpen : Bool
  deriving DecidableEq, Repr

def User.muted (u : User) : User := { u with loginFlag := false }

/-- The walk of `sigint_handler` along the users. -/
def sigintLoop : List User → List Int → List User × List Int × List Close
  | [], openFds => ([], openFds, [])
  | u :: us, openFds =>
    let (users, rest, closes) := sigintLoop us (openFds.filter (· ≠ u.fd))
    (u.muted :: users, rest, ⟨u.fd, decide (u.fd ∈ openFds)⟩ :: closes)

/-- The block that `login_buffer` points to: that of the last LOGIN. -/
def Server.loginBuffer (s : Server) : Option Nat :=
  if s.blocks = 0 then none else some (s.blocks - 1)

/-- A record's name or password is in the block. -/
def Server.holds (s : Server) (block : Nat) : Bool :=
  s.users.any fun u => u.username.any (·.block == block) || u.password.any (·.block == block)

/-- The last component is what it frees of the records' memory. The last job's buffer has been
copied, and nothing reads the name of the auction file. -/
def sigintHandler (s : Server) : Server × List Close × Option Nat :=
  let (users, openFds, closes) := sigintLoop s.users s.openFds
  ({ s with
      usersList := { s.usersList with nodes := users }
      openFds := openFds.filter (· ≠ listenFd) },
    closes ++ [⟨listenFd, decide (listenFd ∈ openFds)⟩], s.loginBuffer)

structure Stoppable where
  shared : Interleaved
  intFlag : Bool
  freed : Option Nat
  deriving DecidableEq, Repr

def Stoppable.start : Stoppable := ⟨Interleaved.start, false, none⟩

inductive StoppableAction where
  | step (action : InterleavedAction)
  | sigint
  deriving DecidableEq, Repr

/-- An event, with the client whose connection or job it comes from, or a call of `close`. -/
inductive StoppableMark where
  | event (client : Option Int) (e : Event)
  | close (c : Close)
  deriving DecidableEq, Repr

/-- With `intFlag` set, an `accept` that returns is the end of the process, and a second signal
would free the buffers again. A process that has crashed gets no signal. While a record points into
what has been freed, no step is defined. -/
def Stoppable.step : Step Stoppable StoppableAction StoppableMark := fun s action =>
  match action with
  | .step a =>
    if s.intFlag ∧ a.ofMain then none
    else if s.freed.any s.shared.server.holds then none
    else (Interleaved.step s.shared a).map fun (shared, out) =>
      ({ s with shared }, out.map (.event a.client))
  | .sigint =>
    if s.intFlag ∨ s.shared.tick = .crashed then none
    else
      let (server, closes, freed) := sigintHandler s.shared.server
      some (⟨{ s.shared with server }, true, freed⟩, closes.map .close)

def Stoppable.Sponsored (s : Stoppable) : StoppableAction → Prop
  | .step a => s.shared.Sponsored a
  | .sigint => True

instance Stoppable.decidableSponsored (s : Stoppable) : ∀ action, Decidable (s.Sponsored action)
  | .step a => inferInstanceAs (Decidable (s.shared.Sponsored a))
  | .sigint => inferInstanceAs (Decidable True)

def StoppableAction.taken : StoppableAction → Option InterleavedAction
  | .step a => some a
  | .sigint => none

def eventsIn (tr : List StoppableMark) : List Event :=
  tr.filterMap fun
    | .event _ e => some e
    | .close _ => none

def closesIn (tr : List StoppableMark) : List Close :=
  tr.filterMap fun
    | .event .. => none
    | .close c => some c

theorem sigintLoop_spec {us : List User} {openFds : List Int} (hnodup : (us.map User.fd).Nodup)
    (hopen : ∀ u ∈ us, u.fd ∈ openFds) : sigintLoop us openFds =
      (us.map User.muted, openFds.filter (· ∉ us.map User.fd), us.map fun u => ⟨u.fd, true⟩) := by
  induction us generalizing openFds with
  | nil => simp [sigintLoop]
  | cons u us ih =>
    rw [List.map_cons, List.nodup_cons] at hnodup
    obtain ⟨hnew, hnodup⟩ := hnodup
    have hother : ∀ v ∈ us, v.fd ∈ openFds.filter (· ≠ u.fd) := by
      intro v hv
      have hne : v.fd ≠ u.fd := fun h => hnew (h ▸ List.mem_map_of_mem hv)
      exact List.mem_filter.mpr ⟨hopen v (List.mem_cons_of_mem _ hv), by simpa using hne⟩
    have hrest : (openFds.filter (· ≠ u.fd)).filter (· ∉ us.map User.fd) =
        openFds.filter (· ∉ (u :: us).map User.fd) := by
      rw [List.filter_filter]
      refine List.filter_congr fun fd _ => ?_
      simp only [List.map_cons, List.mem_cons, not_or, Bool.decide_and, Bool.and_comm]
    simp only [sigintLoop, ih hnodup hother, hrest, hopen u List.mem_cons_self, decide_true,
      List.map_cons]

/-- The server with nobody logged in. -/
def Server.muted (openFds : List Int) (s : Server) : Server :=
  { s with usersList := { s.usersList with nodes := s.users.map User.muted }, openFds }

section Muted

variable {o : List Int} {s : Server}

@[simp] theorem users_muted : (s.muted o).users = s.users.map User.muted := rfl

@[simp] theorem auctions_muted : (s.muted o).auctions = s.auctions := rfl

@[simp] theorem auctionsList_muted : (s.muted o).auctionsList = s.auctionsList := rfl

@[simp] theorem User.muted_fd (u : User) : u.muted.fd = u.fd := rfl

@[simp] theorem User.muted_username (u : User) : u.muted.username = u.username := rfl

theorem muted_setAuction (a : Nat) (x : Auction) :
    (s.setAuction a x).muted o = (s.muted o).setAuction a x := rfl

theorem muted_setUser (i : Nat) (u : User) :
    (s.setUser i u).muted o = (s.muted o).setUser i u.muted := by
  simp [Server.muted, Server.setUser, Server.users, List.map_set]

theorem scanByName_muted (name : CharStar) (us : List User) :
    scanByName name (us.map User.muted) = scanByName name us := by
  induction us with
  | nil => rfl
  | cons u us ih => simp only [List.map_cons, scanByName, ih, User.muted_username]

@[simp] theorem findUserStruct_muted (name : CharStar) :
    findUserStruct (s.muted o) name = findUserStruct s name := scanByName_muted name s.users

@[simp] theorem findUsername_muted (fd : Int) :
    findUsername (s.muted o) fd = (findUsername s fd).map User.muted := by
  rw [findUsername, users_muted, List.find?_map]
  rfl

@[simp] theorem findClientFd_muted (name : CharStar) :
    findClientFd (s.muted o) name = findClientFd s name := by
  simp only [findClientFd, users_muted, scanByName_muted, List.getElem?_map, Option.map_map]
  rfl

@[simp] theorem watcherFds_muted (ws : List CharPtr) :
    watcherFds (s.muted o) ws = watcherFds s ws := by
  induction ws with
  | nil => rfl
  | cons w ws ih => simp only [watcherFds, ih, findClientFd_muted]

@[simp] theorem auctionIndexLoop_muted (id r : Int) (nodes : List Nat) :
    auctionIndexLoop (s.muted o) id r nodes = auctionIndexLoop s id r nodes := by
  induction nodes generalizing r with
  | nil => rfl
  | cons a nodes ih => simp only [auctionIndexLoop, auctions_muted, ih]

@[simp] theorem findById_muted (id : Int) (nodes : List Nat) :
    findById (s.muted o) id nodes = findById s id nodes := by
  induction nodes with
  | nil => rfl
  | cons a nodes ih => simp only [findById, auctions_muted, ih]

@[simp] theorem infoLines_muted (info : Auction → Text) (nodes : List Nat) :
    infoLines (s.muted o) info nodes = infoLines s info nodes := by
  induction nodes with
  | nil => rfl
  | cons a nodes ih => simp only [infoLines, auctions_muted, ih]

theorem ownerScan_muted (fd : Int) (a : Nat) (us : List User) (creator : CharStar) :
    ownerScan fd a (us.map User.muted) creator =
      (ownerScan fd a us creator).map fun r => (r.1.map User.muted, r.2) := by
  induction us generalizing creator with
  | nil => rfl
  | cons u us ih =>
    simp only [List.map_cons, ownerScan, ih, User.muted_fd, User.muted_username]
    split
    · simp [Option.bind_map, User.muted]
    · simp [Option.bind_map]

theorem otherNames_muted (fd : Int) (us : List User) :
    otherNames fd (us.map User.muted) = otherNames fd us := by
  induction us with
  | nil => rfl
  | cons u us ih =>
    simp only [List.map_cons, otherNames, ih, User.muted_fd, User.muted_username]
    rfl

/-- The result of a handler, with nobody logged in. -/
def mutedResult (o : List Int) (r : Server × List Event) : Server × List Event := (r.1.muted o, r.2)

theorem debitWinner_muted (a : Nat) (x : Auction) :
    debitWinner (s.muted o) a x = (debitWinner s a x).map (mutedResult o) := by
  simp only [debitWinner]
  split
  · rfl
  · simp [Option.bind_map, Function.comp_def, mutedResult, muted_setUser, User.muted]

theorem creditCreator_muted (a : Nat) (x : Auction) :
    creditCreator (s.muted o) a x = (creditCreator s a x).map (mutedResult o) := by
  simp [creditCreator, Option.bind_map, Function.comp_def, mutedResult, muted_setUser, User.muted]

theorem closeAuction_muted (a : Nat) :
    closeAuction (s.muted o) a = (closeAuction s a).map (mutedResult o) := by
  simp [closeAuction, debitWinner_muted, creditCreator_muted, Option.bind_map, Function.comp_def,
    mutedResult]

theorem unlinkAuction_muted (a : Nat) :
    unlinkAuction (s.muted o) a = (unlinkAuction s a).map (Server.muted o) := by
  simp [unlinkAuction, findAuctionIndex]
  rfl

theorem ageAuction_muted (a : Nat) :
    ageAuction (s.muted o) a = (ageAuction s a).map fun r => (r.1.muted o, r.2) := by
  simp [ageAuction, Function.comp_def, muted_setAuction]

theorem report_muted (fd : Int) (type : MsgType) (info : Auction → Text) (list : LinkedList Nat) :
    report (s.muted o) fd type info list = (report s fd type info list).map (mutedResult o) := by
  simp only [report, infoLines_muted]
  split
  · rfl
  · simp [mutedResult, Function.comp_def]

theorem createAuction_muted (malloc : Auction) (fd : Int) (name : Text) (duration price : Int) :
    createAuction (s.muted o) malloc fd name duration price =
      (createAuction s malloc fd name duration price).map (mutedResult o) := by
  simp only [createAuction]
  split
  · rfl
  split
  · rfl
  split
  · rfl
  simp [ownerScan_muted, Option.bind_map, Function.comp_def, mutedResult]
  rfl

theorem watchAuction_muted (fd auctionId : Int) :
    watchAuction (s.muted o) fd auctionId = (watchAuction s fd auctionId).map (mutedResult o) := by
  simp only [watchAuction, findById_muted, auctionsList_muted]
  cases findById s auctionId s.auctionsList.nodes with
  | none => rfl
  | some found =>
    cases found with
    | none => rfl
    | some a => simp [Option.bind_map, Function.comp_def, mutedResult, muted_setAuction]

theorem leaveAuction_muted (fd auctionId : Int) :
    leaveAuction (s.muted o) fd auctionId = (leaveAuction s fd auctionId).map (mutedResult o) := by
  simp only [leaveAuction, findById_muted, auctionsList_muted, findUsername_muted]
  cases findUsername s fd with
  | none => rfl
  | some user =>
    cases findById s auctionId s.auctionsList.nodes with
    | none => rfl
    | some found =>
      cases found with
      | none => rfl
      | some a => simp [Function.comp_def, mutedResult, muted_setAuction]

theorem updateAuction_muted (x : Auction) (name : CharStar) :
    updateAuction (s.muted o) x name = updateAuction s x name := by
  simp only [updateAuction, watcherFds_muted]

theorem bidExit_muted (name : CharStar) (auctionId bid : Int) :
    bidExit (s.muted o) name auctionId bid = bidExit s name auctionId bid := by
  simp only [bidExit, findById_muted, auctionsList_muted, auctions_muted]

theorem setBid_muted (a : Nat) (name : CharStar) (bid : Int) :
    (s.muted o).setBid a name bid = (s.setBid a name bid).map (Server.muted o) := by
  simp [Server.setBid, Function.comp_def, muted_setAuction]

theorem buyAuction_muted (name : CharStar) (bid : Int) (a : Nat) :
    buyAuction (s.muted o) name bid a = (buyAuction s name bid a).map (mutedResult o) := by
  simp [buyAuction, setBid_muted, closeAuction_muted, unlinkAuction_muted, Option.bind_map,
    Function.comp_def, mutedResult]

theorem raiseAuction_muted (fd : Int) (name : CharStar) (bid : Int) (a : Nat) :
    raiseAuction (s.muted o) fd name bid a =
      (raiseAuction s fd name bid a).map (mutedResult o) := by
  simp [raiseAuction, setBid_muted, updateAuction_muted, Option.bind_map, Function.comp_def,
    mutedResult]

theorem bidAuction_muted (fd auctionId bid : Int) :
    bidAuction (s.muted o) fd auctionId bid =
      (bidAuction s fd auctionId bid).map (mutedResult o) := by
  simp only [bidAuction, findUsername_muted]
  cases findUsername s fd with
  | none => rfl
  | some user =>
    simp only [Option.map_some, Option.bind_eq_bind, Option.bind_some, bidExit_muted,
      User.muted_username]
    cases bidExit s user.username auctionId bid with
    | none => rfl
    | some exit =>
      cases exit with
      | buyNow a => exact buyAuction_muted user.username bid a
      | highest a => exact raiseAuction_muted fd user.username bid a
      | emptyList | noMatch | creator | notWatching | low => rfl

theorem logout_muted (fd : Int) : logout (s.muted o) fd = mutedResult o (logout s fd) := by
  have hindex : (s.muted o).users.findIdx? (fun u => u.fd == fd) =
      s.users.findIdx? fun u => u.fd == fd := by
    rw [users_muted, List.findIdx?_map]
    rfl
  rw [logout, logout, hindex]
  simp only [users_muted, List.getElem?_map]
  cases s.users.findIdx? (fun u => u.fd == fd) with
  | none => rfl
  | some i =>
    dsimp only
    cases s.users[i]? with
    | none => rfl
    | some u => simp [mutedResult, muted_setUser, User.muted]

theorem printUsers_muted (stack : Text) (fd : Int) :
    printUsers (s.muted o) stack fd = (printUsers s stack fd).map (mutedResult o) := by
  simp [printUsers, otherNames_muted, Function.comp_def, mutedResult]

theorem processJob_muted (env : JobEnv) (job : Job) :
    processJob (s.muted o) env job = (processJob s env job).map (mutedResult o) := by
  simp only [processJob]
  split
  · rw [logout_muted, Option.map_some]
  · cases ancreateArgs (cstr job.jobBuffer) with
    | none => rfl
    | some args => exact createAuction_muted env.malloc job.clientfd args.1 args.2.1 args.2.2
  · exact report_muted _ _ _ _
  · exact watchAuction_muted _ _
  · exact leaveAuction_muted _ _
  · cases anbidArgs (cstr job.jobBuffer) with
    | none => rfl
    | some args => exact bidAuction_muted job.clientfd args.1 args.2
  · exact printUsers_muted _ _
  · simp only [usersWins, findUsername_muted]
    cases findUsername s job.clientfd with
    | none => rfl
    | some user => exact report_muted _ _ _ _
  · simp only [usersSales, findUsername_muted]
    cases findUsername s job.clientfd with
    | none => rfl
    | some user => exact report_muted _ _ _ _
  · simp only [userBalance, findUsername_muted]
    cases findUsername s job.clientfd with
    | none => rfl
    | some user => rfl
  · rfl

end Muted

def Interleaved.muted (openFds : List Int) (s : Interleaved) : Interleaved :=
  { s with server := s.server.muted openFds }

/-- Nothing but a login asks who is logged in, or what is open. -/
theorem step_muted {o : List Int} {s : Interleaved} {action : InterleavedAction}
    (hmain : action.ofMain = false) : Interleaved.step (s.muted o) action =
      (Interleaved.step s action).map fun r => (r.1.muted o, r.2) := by
  cases action with
  | accept => cases hmain
  | job env job =>
    cases htick : s.tick <;>
      simp [Interleaved.step, Interleaved.muted, htick, Server.step, processJob_muted,
        Function.comp_def, mutedResult]
  | startTick =>
    cases htick : s.tick with
    | idle => simp [Interleaved.step, Interleaved.muted, htick, Server.muted, Server.users]
    | _ => simp [Interleaved.step, Interleaved.muted, htick]
  | age =>
    cases htick : s.tick with
    | atNode a =>
      by_cases ha : a ∈ s.server.auctionsList.nodes
      · simp [Interleaved.step, Interleaved.muted, htick, ha, ageAuction_muted, Option.bind_map,
          Function.comp_def]
      · simp [Interleaved.step, Interleaved.muted, htick, ha]
    | _ => simp [Interleaved.step, Interleaved.muted, htick]
  | close =>
    cases htick : s.tick with
    | closing a =>
      simp only [Interleaved.step, Interleaved.muted, htick, closeAuction_muted]
      cases closeAuction s.server a with
      | none => rfl
      | some r =>
        simp only [Option.map_some, Option.bind_eq_bind, Option.bind_some, mutedResult,
          unlinkAuction_muted]
        cases unlinkAuction r.1 a <;> rfl
    | _ => simp [Interleaved.step, Interleaved.muted, htick]

/-- The listening socket is open, and nobody's connection. -/
structure Listening (s : Server) : Prop where
  listens : listenFd ∈ s.openFds
  apart : listenFd ∉ s.users.map User.fd

theorem Listening.unmoved {s s' : Server} (inv : Listening s) (h : Unmoved s s') : Listening s' :=
  ⟨h.2 ▸ inv.listens, h.fds ▸ inv.apart⟩

theorem Listening.accept {s s' : Server} {fd : Int} {msgType : Nat} {body : List Char}
    {out : List Event} {started : Bool} (inv : Listening s) (hfresh : FreshFd s fd)
    (h : AcceptOutcome s fd msgType body s' out started) : Listening s' := by
  have hne : fd ≠ listenFd := fun heq => hfresh.2.2 (heq ▸ inv.listens)
  have hopen : listenFd ∈ fd :: s.openFds := List.mem_cons_of_mem _ inv.listens
  have hapart : ∀ u ∈ s.users, u.fd ≠ listenFd :=
    fun u hu heq => inv.apart (heq ▸ List.mem_map_of_mem hu)
  cases h with
  | noLogin | already => exact ⟨hopen, inv.apart⟩
  | wrong => exact ⟨inv.listens, inv.apart⟩
  | again i u _ hu =>
    refine ⟨hopen, fun hmem => ?_⟩
    obtain ⟨v, hv, hfd⟩ := List.mem_map.mp hmem
    rcases List.mem_or_eq_of_mem_set hv with hv | rfl
    · exact hapart v hv hfd
    · exact hne hfd
  | created users _ _ hinsert =>
    refine ⟨hopen, fun hmem => ?_⟩
    obtain ⟨v, hv, hfd⟩ := List.mem_map.mp hmem
    rcases insertAtTail_subset hinsert v hv with hv | rfl
    · exact hapart v hv hfd
    · exact hne hfd

theorem listening_run {as : List InterleavedAction} {tr : List Event} {s : Interleaved}
    (run : Run Interleaved.step Interleaved.Sponsored Interleaved.start as tr s) :
    Listening s.server := by
  refine run.invariant_state (P := fun s => Listening s.server) ?_ ?_
  · exact ⟨by decide, by decide⟩
  · intro s action s' out inv hok h
    cases hmain : action.ofMain with
    | false => exact inv.unmoved (unmoved_of_step hmain h)
    | true =>
      cases action with
      | accept fd msgType body =>
        cases interleaved_effect h with
        | request request hrequest hstep =>
          obtain rfl := Option.some.inj hrequest
          obtain ⟨started, haccept⟩ := step_accept hstep
          exact inv.accept hok haccept
      | _ => cases hmain

/-- What `sigint_handler` closes, all of it open. -/
def Server.shut (s : Server) : List Close := s.users.map (⟨·.fd, true⟩) ++ [⟨listenFd, true⟩]

theorem fd_shut (s : Server) : s.shut.map Close.fd = s.users.map User.fd ++ [listenFd] := by
  simp [Server.shut, Function.comp_def]

theorem sigintHandler_spec {s : Server} (inv : UserInv s) (listening : Listening s) :
    sigintHandler s =
      (s.muted (s.openFds.filter (· ∉ s.shut.map Close.fd)), s.shut, s.loginBuffer) := by
  have hlisten : listenFd ∈ s.openFds.filter (· ∉ s.users.map User.fd) :=
    List.mem_filter.mpr ⟨listening.listens, by simpa using listening.apart⟩
  have hrest : (s.openFds.filter (· ∉ s.users.map User.fd)).filter (· ≠ listenFd) =
      s.openFds.filter (· ∉ s.shut.map Close.fd) := by
    rw [List.filter_filter, fd_shut]
    refine List.filter_congr fun fd _ => ?_
    simp only [List.mem_append, List.mem_singleton, not_or, Bool.decide_and, Bool.and_comm]
  simp only [sigintHandler, sigintLoop_spec inv.fds inv.fdsOpen, hlisten, hrest, decide_true]
  rfl

def StoppableMark.isClose : StoppableMark → Bool
  | .event .. => false
  | .close _ => true

/-- The log from the first call of `close` on. -/
def late (tr : List StoppableMark) : List StoppableMark := tr.dropWhile (!·.isClose)

/-- The run went on as if there had been no signal, but for the descriptors that it closed: those of
all users, which were open, once each, and the listening socket. Afterwards nobody is logged in, and
the only open connection that hears anything is that of the client whose request it answers. -/
structure ShutdownLaw (as : List StoppableAction) (tr : List StoppableMark) (s : Stoppable) :
    Prop where
  unnoticed : ∃ t, Run Interleaved.step Interleaved.Sponsored Interleaved.start
    (as.filterMap StoppableAction.taken) (eventsIn tr) t ∧ s.shared = if s.intFlag then
      t.muted (t.server.openFds.filter (· ∉ (closesIn tr).map Close.fd)) else t
  closes : closesIn tr = if s.intFlag then s.shared.server.shut else []
  once : ((closesIn tr).map Close.fd).Nodup
  heard : ∀ client m, .event client (.sent m) ∈ late tr →
    some m.fd = client ∨ m.fd = -1 ∨ m.fd ∈ (closesIn tr).map Close.fd

theorem eventsIn_events (client : Option Int) (out : List Event) :
    eventsIn (out.map (.event client)) = out := by
  simp [eventsIn, List.filterMap_map]

theorem closesIn_events (client : Option Int) (out : List Event) :
    closesIn (out.map (.event client)) = [] := by
  simp [closesIn, List.filterMap_map]

theorem eventsIn_closes (cs : List Close) : eventsIn (cs.map .close) = [] := by
  simp [eventsIn, List.filterMap_map]

theorem closesIn_closes (cs : List Close) : closesIn (cs.map .close) = cs := by
  simp [closesIn, List.filterMap_map]

theorem eventsIn_append (xs ys : List StoppableMark) :
    eventsIn (xs ++ ys) = eventsIn xs ++ eventsIn ys := List.filterMap_append

theorem closesIn_append (xs ys : List StoppableMark) :
    closesIn (xs ++ ys) = closesIn xs ++ closesIn ys := List.filterMap_append

theorem late_nil_iff {tr : List StoppableMark} : late tr = [] ↔ closesIn tr = [] := by
  rw [late, List.dropWhile_eq_nil_iff, closesIn, List.filterMap_eq_nil_iff]
  refine forall₂_congr fun mark _ => ?_
  cases mark <;> simp [StoppableMark.isClose]

theorem late_append (xs ys : List StoppableMark) :
    late (xs ++ ys) = if closesIn xs = [] then late ys else late xs ++ ys := by
  rw [late, List.dropWhile_append, ← late, ← late]
  simp only [List.isEmpty_iff, late_nil_iff]

theorem shut_ne_nil (s : Server) : s.shut ≠ [] := by simp [Server.shut]

theorem shut_unmoved {s s' : Server} (h : Unmoved s s') : s'.shut = s.shut := by
  have hfds := congrArg (List.map fun fd => Close.mk fd true) h.fds
  simpa [Server.shut, Function.comp_def] using hfds

theorem shut_muted (s : Server) (o : List Int) : (s.muted o).shut = s.shut := by
  simp [Server.shut, Function.comp_def]

theorem shutdownLaw_start : ShutdownLaw [] [] Stoppable.start where
  unnoticed := ⟨_, .start, rfl⟩
  closes := rfl
  once := by simp [closesIn]
  heard := by simp [late]

theorem ShutdownLaw.sigint {as : List StoppableAction} {tr out : List StoppableMark}
    {s s' : Stoppable} (law : ShutdownLaw as tr s)
    (h : Stoppable.step s .sigint = some (s', out)) :
    ShutdownLaw (as ++ [.sigint]) (tr ++ out) s' := by
  simp only [Stoppable.step] at h
  split at h
  · cases h
  rename_i hready
  obtain ⟨hflag, halive⟩ := not_or.mp hready
  obtain ⟨t, run, hshared⟩ := law.unnoticed
  have hnone := law.closes
  rw [if_neg hflag] at hshared hnone
  subst hshared
  have inv := userInv_run run halive
  have listening := listening_run run
  rw [sigintHandler_spec inv listening] at h
  obtain ⟨rfl, rfl⟩ := Prod.mk.inj (Option.some.inj h)
  have hcloses : closesIn (tr ++ s.shared.server.shut.map .close) = s.shared.server.shut := by
    rw [closesIn_append, hnone, closesIn_closes, List.nil_append]
  constructor
  · refine ⟨s.shared, ?_, ?_⟩
    · have hsignal : [StoppableAction.sigint].filterMap StoppableAction.taken = [] := rfl
      rw [List.filterMap_append, hsignal, eventsIn_append, eventsIn_closes, List.append_nil,
        List.append_nil]
      exact run
    · rw [hcloses]
      rfl
  · rw [hcloses]
    exact (shut_muted _ _).symm
  · rw [hcloses, fd_shut, List.nodup_append]
    refine ⟨inv.fds, List.nodup_singleton _, fun fd hfd other hother heq => ?_⟩
    obtain rfl := List.mem_singleton.mp hother
    exact listening.apart (heq ▸ hfd)
  · intro client m hmark
    rw [late_append, if_pos hnone] at hmark
    simpa using (List.dropWhile_suffix _).subset hmark

/-- Before the signal there is nothing to tell. -/
theorem ShutdownLaw.before {as : List StoppableAction} {tr : List StoppableMark} {s : Stoppable}
    (law : ShutdownLaw as tr s) (hflag : s.intFlag = false) {action : InterleavedAction}
    {shared : Interleaved} {out : List Event} (hok : s.shared.Sponsored action)
    (h : Interleaved.step s.shared action = some (shared, out)) :
    ShutdownLaw (as ++ [.step action]) (tr ++ out.map (.event action.client))
      { s with shared } := by
  obtain ⟨t, run, hshared⟩ := law.unnoticed
  have hnone := law.closes
  simp only [hflag, Bool.false_eq_true, if_false] at hshared hnone
  subst hshared
  have hquiet : closesIn (tr ++ out.map (.event action.client)) = [] := by
    rw [closesIn_append, hnone, closesIn_events, List.nil_append]
  constructor
  · refine ⟨shared, ?_, by simp [hflag]⟩
    rw [List.filterMap_append, eventsIn_append, eventsIn_events]
    exact .step run hok h
  · simp [hquiet, hflag]
  · simp [hquiet]
  · simp [late_nil_iff.mpr hquiet]

/-- Any character. -/
def anyChar (_ : Char) : Prop := True

theorem anyChar_alphabet : Alphabet anyChar := ⟨fun _ _ => trivial, fun _ _ => trivial⟩

theorem speltIn_anyChar (t : Text) : SpeltIn anyChar t := fun _ _ => trivial

theorem spelt_anyChar (action : InterleavedAction) : action.Spelt anyChar := by
  cases action with
  | accept => exact fun _ name _ => speltIn_anyChar name
  | job env => exact ⟨fun _ => speltIn_anyChar env.stack, fun _ args _ => speltIn_anyChar args.1⟩
  | startTick | age | close => trivial

theorem sponsored_muted {s : Interleaved} {o : List Int} {action : InterleavedAction}
    (hmain : action.ofMain = false) (h : (s.muted o).Sponsored action) : s.Sponsored action := by
  cases action with
  | accept => cases hmain
  | job env job =>
    intro hcreates
    obtain ⟨u, hu, hfd⟩ := h hcreates
    obtain ⟨v, hv, rfl⟩ := List.mem_map.mp hu
    exact ⟨v, hv, hfd⟩
  | startTick | age | close => trivial

/-- After the signal the step is one that would have been taken without it. -/
theorem ShutdownLaw.after {as : List StoppableAction} {tr : List StoppableMark} {s : Stoppable}
    (law : ShutdownLaw as tr s) (hflag : s.intFlag = true) {action : InterleavedAction}
    (hmain : action.ofMain = false) {shared : Interleaved} {out : List Event}
    (hok : s.shared.Sponsored action)
    (h : Interleaved.step s.shared action = some (shared, out)) :
    ShutdownLaw (as ++ [.step action]) (tr ++ out.map (.event action.client))
      { s with shared } := by
  obtain ⟨t, run, hshared⟩ := law.unnoticed
  have hcloses := law.closes
  rw [if_pos hflag] at hshared hcloses
  have hsame : closesIn (tr ++ out.map (.event action.client)) = closesIn tr := by
    rw [closesIn_append, closesIn_events, List.append_nil]
  have hmoved := unmoved_of_step hmain h
  have halive := alive_of_step h
  obtain ⟨t', ht', rfl⟩ : ∃ t', Interleaved.step t action = some (t', out) ∧
      shared = t'.muted (t.server.openFds.filter (· ∉ (closesIn tr).map Close.fd)) := by
    rw [hshared, step_muted hmain] at h
    obtain ⟨⟨t', sent⟩, ht', h⟩ := Option.map_eq_some_iff.mp h
    obtain ⟨rfl, rfl⟩ := Prod.mk.inj h
    exact ⟨t', ht', rfl⟩
  have hbalances : ∀ u ∈ s.shared.server.users, InInt u.balance := by
    intro u hu
    rw [hshared] at hu
    obtain ⟨v, hv, rfl⟩ := List.mem_map.mp hu
    exact balanced_run run v hv
  constructor
  · refine ⟨t', ?_, ?_⟩
    · rw [List.filterMap_append, eventsIn_append, eventsIn_events]
      exact .step run (sponsored_muted hmain (hshared ▸ hok)) ht'
    · rw [hsame, if_pos hflag, (unmoved_of_step hmain ht').2]
  · rw [hsame, hcloses, if_pos hflag]
    exact (shut_unmoved hmoved).symm
  · rw [hsame]
    exact law.once
  · intro client m hmark
    have hsome : closesIn tr ≠ [] := hcloses ▸ shut_ne_nil _
    rw [late_append, if_neg hsome] at hmark
    rw [hsame]
    rcases List.mem_append.mp hmark with hmark | hmark
    · exact law.heard client m hmark
    · obtain ⟨e, he, hevent⟩ := List.mem_map.mp hmark
      obtain ⟨rfl, rfl⟩ := StoppableMark.event.inj hevent
      have hsound : s.shared.server.Sound anyChar fun fd => some fd = action.client ∨ fd = -1 ∨
          fd ∈ (closesIn tr).map Close.fd := by
        refine ⟨fun _ _ _ _ => speltIn_anyChar _, fun u hu => Or.inr (Or.inr ?_),
          Or.inr (Or.inl rfl), fun _ _ => ⟨speltIn_anyChar _, fun _ _ => speltIn_anyChar _⟩⟩
        rw [hcloses, fd_shut]
        exact List.mem_append_left _ (List.mem_map_of_mem hu)
      exact ((sound_step anyChar_alphabet hsound hbalances (spelt_anyChar action)
        (fun fd hfd => Or.inl hfd.symm) h).2 _ he).2

theorem shutdownLaw_run {as : List StoppableAction} {tr : List StoppableMark} {s : Stoppable}
    (run : Run Stoppable.step Stoppable.Sponsored Stoppable.start as tr s) :
    ShutdownLaw as tr s := by
  refine run.invariant (P := ShutdownLaw) shutdownLaw_start ?_
  intro as tr s action s' out _ law hok h
  cases action with
  | sigint => exact law.sigint h
  | step action =>
    simp only [Stoppable.step] at h
    split at h
    · cases h
    rename_i hmain
    split at h
    · cases h
    obtain ⟨⟨shared, sent⟩, hstep, h⟩ := Option.map_eq_some_iff.mp h
    obtain ⟨rfl, rfl⟩ := Prod.mk.inj h
    by_cases hflag : s.intFlag = true
    · exact law.after hflag (by simpa [hflag] using hmain) hok hstep
    · exact law.before (by simpa using hflag) hok hstep

/-- A tries to log in again. The signal falls between B's watch and her bid, with which she wins. -/
def sampleShutdown : List StoppableAction :=
  (sampleExpiry.take 4).map .step ++ .step (.accept 6 MsgType.LOGIN.code ['A', '\r', '\n', 'x']) ::
    .sigint :: (sampleExpiry.drop 4).map .step

theorem sampleShutdown_completes :
    (exec Stoppable.step Stoppable.Sponsored Stoppable.start sampleShutdown).isSome := by decide

def sampleShutdownEnd : Stoppable × List StoppableMark :=
  (exec Stoppable.step Stoppable.Sponsored Stoppable.start sampleShutdown).get
    sampleShutdown_completes

theorem shutdownLaw_run_sample :
    closesIn sampleShutdownEnd.2 = [⟨4, true⟩, ⟨5, true⟩, ⟨3, true⟩] ∧
      closings (eventsIn (late sampleShutdownEnd.2)) = [0] ∧
      ShutdownLaw sampleShutdown sampleShutdownEnd.2 sampleShutdownEnd.1 :=
  ⟨by decide, by decide, shutdownLaw_run (run_of_isSome sampleShutdown_completes)⟩

end ZBid
