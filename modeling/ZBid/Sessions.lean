import ZBid.Parties

/-!
# Connections, client threads and queued jobs

The server with the threads that `run_server` starts for its connections and the jobs they have
queued. A client thread queues any number of jobs of its connection and ends behind a LOGOUT; the
job threads take the queued jobs in any order. A client thread carries one mark that the C code
does not keep: whether the LOGIN of its connection was answered OK.
-/
namespace ZBid

open CInt CString Runs

structure Client where
  clientFd : Int
  welcomed : Bool
  deriving DecidableEq, Repr

structure System where
  server : Server
  clients : List Client
  pending : List Job
  deriving DecidableEq, Repr

def System.start : System := ⟨Server.start, [], []⟩

inductive SystemAction where
  | connect (clientFd : Int) (msgType : Nat) (body : List Char)
  | request (client : Nat) (msgType : Nat) (body : Text)
  | process (i : Nat) (env : JobEnv)
  | tick
  deriving DecidableEq, Repr

/-- One round of the accept loop, one message read by a client thread, one job, or one tick. -/
def System.step : Step System SystemAction Event := fun s action =>
  match action with
  | .connect clientFd msgType body => do
    let (server, out, started) ← acceptClient s.server clientFd msgType body
    let thread : Client := ⟨clientFd, decide (answer clientFd .OK ∈ out)⟩
    some ({ s with server, clients := if started then s.clients ++ [thread] else s.clients }, out)
  | .request i msgType body => do
    let client ← s.clients[i]?
    if msgType = 0 then some (s, [])
    else some ({ s with
      clients := if msgType = MsgType.LOGOUT.code then s.clients.eraseIdx i else s.clients
      pending := s.pending ++ [⟨body, msgType, client.clientFd⟩] }, [])
  | .process i env => do
    let job ← s.pending[i]?
    let (server, out) ← processJob s.server env job
    some ({ s with server, pending := s.pending.eraseIdx i }, out)
  | .tick => do
    let (server, out) ← tickBody s.server
    some ({ s with server }, out)

/-- Nothing but the descriptors that `accept` returns is restricted. -/
def System.Admits (s : System) : SystemAction → Prop
  | .connect clientFd _ _ => FreshFd s.server clientFd
  | _ => True

/-- Requests come from connections whose LOGIN was answered OK; a LOGOUT is processed when no
other job of its connection is queued; and an ANCREATE comes from a user who has a name. -/
def System.Orderly (s : System) : SystemAction → Prop
  | .connect clientFd _ _ => FreshFd s.server clientFd
  | .request i _ _ => ∀ client ∈ s.clients[i]?, client.welcomed = true
  | .process i _ => ∀ job ∈ s.pending[i]?,
    (job.jobMsgType = MsgType.LOGOUT.code →
      ∀ other ∈ s.pending.eraseIdx i, other.clientfd ≠ job.clientfd) ∧
    (job.jobMsgType = MsgType.ANCREATE.code →
      ∀ u ∈ s.server.users, u.fd = job.clientfd → u.username ≠ none)
  | .tick => True

instance (s : System) : ∀ action, Decidable (s.Admits action)
  | .connect clientFd _ _ => inferInstanceAs (Decidable (FreshFd s.server clientFd))
  | .request _ _ _ | .process _ _ | .tick => inferInstanceAs (Decidable True)

instance (s : System) : ∀ action, Decidable (s.Orderly action)
  | .connect clientFd _ _ => inferInstanceAs (Decidable (FreshFd s.server clientFd))
  | .request i _ _ =>
    inferInstanceAs (Decidable (∀ client ∈ s.clients[i]?, client.welcomed = true))
  | .process i _ => inferInstanceAs (Decidable (∀ job ∈ s.pending[i]?, _ ∧ _))
  | .tick => inferInstanceAs (Decidable True)

def User.session (u : User) : Int × Bool := (u.fd, u.loginFlag)

theorem loggedIn_iff {s : Server} {fd : Int} :
    LoggedIn s fd ↔ (fd, true) ∈ s.users.map User.session := by
  simp [LoggedIn, User.session]

theorem LoggedIn.of_sessions {s s' : Server} {fd : Int}
    (hsame : s'.users.map User.session = s.users.map User.session) (h : LoggedIn s fd) :
    LoggedIn s' fd := by
  rwa [loggedIn_iff, hsame, ← loggedIn_iff]

/-- Overwriting a record leaves the other sessions. -/
theorem LoggedIn.set {s : Server} {fd : Int} {i : Nat} {u v : User} (hi : s.users[i]? = some u)
    (hne : u.session ≠ (fd, true)) (h : LoggedIn s fd) : LoggedIn (s.setUser i v) fd := by
  obtain ⟨w, hw, hfd, hflag⟩ := h
  obtain ⟨j, hj⟩ := List.getElem?_of_mem hw
  have hij : i ≠ j := by
    rintro rfl
    obtain rfl : u = w := by simpa [hi] using hj
    exact hne (by simp [User.session, hfd, hflag])
  refine ⟨w, List.mem_of_getElem? (i := j) ?_, hfd, hflag⟩
  rw [users_setUser, List.getElem?_set_ne hij, hj]

/-- Only a LOGOUT from its own descriptor ends a session. -/
theorem LoggedIn.step {s s' : Server} {action : Action} {out : List Event} {fd : Int}
    (inv : UserInv s) (h : Effect s action s' out)
    (hother : ∀ env job, action = .job env job → job.jobMsgType = MsgType.LOGOUT.code →
      job.clientfd ≠ fd)
    (hin : LoggedIn s fd) : LoggedIn s' fd := by
  cases h with
  | @accept fd' _ _ _ _ _ hacc =>
    cases hacc with
    | again i u _ hu _ hflag =>
      have hopened : LoggedIn (s.opened fd') fd := hin
      exact hopened.set hu (by simp [User.session, hflag])
    | created users _ _ hins =>
      obtain ⟨u, hu, hfd, hflag⟩ := hin
      refine ⟨u, ?_, hfd, hflag⟩
      simp only [Server.users, (insertAtTail_spec inv.wf hins).1]
      exact List.mem_append_left _ hu
    | _ => exact hin
  | quiet => exact hin
  | @logout env job i u htype hu hfd =>
    have hne := hother env job rfl (MsgType.code_of_ofCode htype)
    exact hin.set hu (by simp [User.session, hfd, hne])
  | create name duration price us creator list body _ _ _ _ _ _ _ _ hscan =>
    exact hin.of_sessions (map_eq_of_owned User.session (fun _ _ => rfl) (ownerScan_spec hscan).1)
  | watch => exact hin
  | leave => exact hin
  | raise => exact hin
  | buy a x user bid s₁ _ out _ _ _ _ _ hclose hunlink =>
    obtain ⟨us, rfl, hus⟩ := closeAuction_frame hclose
    obtain ⟨list, rfl⟩ := unlinkAuction_frame hunlink
    exact hin.of_sessions (map_congr_of_map (fun d => (d.fd, d.loginFlag)) hus)
  | tick h =>
    obtain ⟨us, list, store, rfl, hus⟩ := tickLoop_frame h
    exact hin.of_sessions (map_congr_of_map (fun d => (d.fd, d.loginFlag)) hus)

theorem openFds_step {s s' : Server} {action : Action} {out : List Event}
    (h : Effect s action s' out) : s.openFds ⊆ s'.openFds := by
  cases h with
  | accept hacc =>
    cases hacc with
    | wrong => exact List.Subset.refl _
    | _ => exact List.subset_cons_self _ _
  | buy a x user bid s₁ _ out _ _ _ _ _ hclose hunlink =>
    obtain ⟨us, rfl, -⟩ := closeAuction_frame hclose
    obtain ⟨list, rfl⟩ := unlinkAuction_frame hunlink
    exact List.Subset.refl _
  | tick h =>
    obtain ⟨us, list, store, rfl, -⟩ := tickLoop_frame h
    exact List.Subset.refl _
  | _ => exact List.Subset.refl _

/-- A connection that is answered OK is bound to a logged-in user, and one that gets a client
thread stays open. -/
theorem AcceptOutcome.bound {s s' : Server} {fd : Int} {msgType : Nat} {body : List Char}
    {out : List Event} {started : Bool} (inv : UserInv s)
    (h : AcceptOutcome s fd msgType body s' out started) :
    (answer fd .OK ∈ out → LoggedIn s' fd) ∧ (started = true → fd ∈ s'.openFds) := by
  cases h with
  | noLogin => exact ⟨by simp, fun _ => List.mem_cons_self⟩
  | already => exact ⟨by simp [answer], fun _ => List.mem_cons_self⟩
  | again i u _ hu =>
    refine ⟨fun _ => ⟨{ u with loginFlag := true, fd := fd }, ?_, rfl, rfl⟩,
      fun _ => List.mem_cons_self⟩
    exact List.mem_set (List.getElem?_eq_some_iff.mp hu).1 _
  | wrong => exact ⟨by simp [answer], fun h => by cases h⟩
  | created users _ _ hins =>
    refine ⟨fun _ => ⟨newUser fd (loginName s body) (loginPassword s body), ?_, rfl, rfl⟩,
      fun _ => List.mem_cons_self⟩
    simp only [Server.users, (insertAtTail_spec inv.wf hins).1]
    exact List.mem_append_right _ (List.mem_singleton_self _)

/-- The descriptor of a welcomed client thread or of a queued job. -/
def System.Active (s : System) (fd : Int) : Prop :=
  (∃ client ∈ s.clients, client.welcomed = true ∧ client.clientFd = fd) ∨
    ∃ job ∈ s.pending, job.clientfd = fd

structure SessionInv (s : System) : Prop where
  server : ServerInv s.server
  bound : ∀ fd, s.Active fd → LoggedIn s.server fd
  clientsOpen : ∀ client ∈ s.clients, client.clientFd ∈ s.server.openFds
  clients : (s.clients.map Client.clientFd).Nodup
  leaving : ∀ job ∈ s.pending, job.jobMsgType = MsgType.LOGOUT.code →
    ∀ client ∈ s.clients, client.clientFd ≠ job.clientfd
  creators : ∀ (k : Nat) (x : Auction), s.server.auctions[k]? = some x → x.creator ≠ none

theorem sessionInv_start : SessionInv System.start where
  server := serverInv_start
  bound := by simp [System.Active, System.start]
  clientsOpen := by simp [System.start]
  clients := by simp [System.start]
  leaving := by simp [System.start]
  creators := by simp [System.start, Server.start]

/-- A step keeps named creators if the users it lets create auctions have names. -/
theorem creators_step {s s' : Server} {action : Action} {out : List Event} (inv : ListInv s)
    (h : Effect s action s' out)
    (hnamed : ∀ env job, action = .job env job → job.jobMsgType = MsgType.ANCREATE.code →
      Recorded s job.clientfd ∧ ∀ u ∈ s.users, u.fd = job.clientfd → u.username ≠ none)
    (creators : ∀ (k : Nat) (x : Auction), s.auctions[k]? = some x → x.creator ≠ none) :
    ∀ (k : Nat) (x : Auction), s'.auctions[k]? = some x → x.creator ≠ none := by
  intro k y hy
  cases effect_record inv h hy with
  | inl hold =>
    obtain ⟨x, hx, hchange⟩ := hold
    rw [recordChange_creator hchange]
    exact creators k x hx
  | inr hnew =>
    cases hnew.2 with
    | @mk env job _ _ _ us creator htype _ _ _ _ _ _ hscan =>
      obtain ⟨⟨u, hu, hfd⟩, hnames⟩ := hnamed env job rfl (MsgType.code_of_ofCode htype)
      obtain ⟨-, ⟨-, hno⟩ | ⟨v, hv, hvfd, hcreator⟩⟩ := ownerScan_spec hscan
      · exact absurd hfd (hno u hu)
      · exact hcreator ▸ hnames v hv hvfd

theorem SessionInv.active_open {s : System} (inv : SessionInv s) {fd : Int} (h : s.Active fd) :
    fd ∈ s.server.openFds := by
  obtain ⟨u, hu, rfl, -⟩ := inv.bound fd h
  exact inv.server.users.fdsOpen u hu

theorem SessionInv.connect {s : System} (inv : SessionInv s) {fd : Int} {msgType : Nat}
    {body : List Char} {server : Server} {out : List Event} {started : Bool}
    (hfresh : FreshFd s.server fd)
    (h : acceptClient s.server fd msgType body = some (server, out, started)) :
    SessionInv { s with
      server
      clients := if started then s.clients ++ [⟨fd, decide (answer fd .OK ∈ out)⟩]
        else s.clients } := by
  have hacc := acceptClient_spec h
  have heffect : Effect s.server (.accept fd msgType body) server out := .accept hacc
  obtain ⟨hwelcome, hopen⟩ := hacc.bound inv.server.users
  have hopened := openFds_step heffect
  have hold : ∀ fd', s.Active fd' → LoggedIn server fd' :=
    fun fd' hfd => (inv.bound fd' hfd).step inv.server.users heffect (by simp)
  have hnew : ∀ client ∈ s.clients, client.clientFd ≠ fd :=
    fun client hc he => hfresh.2.2 (he ▸ inv.clientsOpen client hc)
  have hmem : ∀ client ∈ (if started then s.clients ++ [⟨fd, decide (answer fd .OK ∈ out)⟩]
      else s.clients), client ∈ s.clients ∨
        started = true ∧ client = ⟨fd, decide (answer fd .OK ∈ out)⟩ := by
    intro client hc
    split at hc
    · rename_i hstarted
      exact (List.mem_append.mp hc).imp_right fun hc => ⟨hstarted, List.mem_singleton.mp hc⟩
    · exact Or.inl hc
  constructor
  · have hok : Sponsored s.server (.accept fd msgType body) := hfresh
    exact serverInv_step inv.server hok heffect
  · intro fd' hactive
    cases hactive with
    | inl hclient =>
      obtain ⟨client, hc, hw, rfl⟩ := hclient
      cases hmem client hc with
      | inl hc => exact hold _ (Or.inl ⟨client, hc, hw, rfl⟩)
      | inr hc =>
        obtain ⟨-, rfl⟩ := hc
        exact hwelcome (by simpa using hw)
    | inr hjob => exact hold _ (Or.inr hjob)
  · intro client hc
    cases hmem client hc with
    | inl hc => exact hopened (inv.clientsOpen client hc)
    | inr hc =>
      obtain ⟨hstarted, rfl⟩ := hc
      exact hopen hstarted
  · dsimp only
    split
    · exact nodup_map_concat inv.clients hnew
    · exact inv.clients
  · intro job hj htype client hc
    cases hmem client hc with
    | inl hc => exact inv.leaving job hj htype client hc
    | inr hc =>
      obtain ⟨-, rfl⟩ := hc
      intro he
      have hjob : job.clientfd ∈ s.server.openFds := inv.active_open (Or.inr ⟨job, hj, rfl⟩)
      rw [← he] at hjob
      exact hfresh.2.2 hjob
  · exact creators_step inv.server.store.toListInv heffect (by simp) inv.creators

theorem SessionInv.request {s : System} (inv : SessionInv s) {i msgType : Nat} {body : Text}
    {client : Client} (hc : s.clients[i]? = some client) (hw : client.welcomed = true) :
    SessionInv { s with
      clients := if msgType = MsgType.LOGOUT.code then s.clients.eraseIdx i else s.clients
      pending := s.pending ++ [⟨body, msgType, client.clientFd⟩] } := by
  have hsub : (if msgType = MsgType.LOGOUT.code then s.clients.eraseIdx i else s.clients).Sublist
      s.clients := by
    split
    · exact List.eraseIdx_sublist ..
    · exact List.Sublist.refl _
  constructor
  · exact inv.server
  · intro fd hactive
    cases hactive with
    | inl hclient =>
      obtain ⟨other, ho, howelcome, rfl⟩ := hclient
      exact inv.bound _ (Or.inl ⟨other, hsub.subset ho, howelcome, rfl⟩)
    | inr hjob =>
      obtain ⟨job, hj, rfl⟩ := hjob
      cases List.mem_append.mp hj with
      | inl hj => exact inv.bound _ (Or.inr ⟨job, hj, rfl⟩)
      | inr hj =>
        obtain rfl := List.mem_singleton.mp hj
        exact inv.bound _ (Or.inl ⟨client, List.mem_of_getElem? hc, hw, rfl⟩)
  · exact fun other ho => inv.clientsOpen other (hsub.subset ho)
  · exact inv.clients.sublist (hsub.map _)
  · intro job hj htype other ho
    cases List.mem_append.mp hj with
    | inl hj => exact inv.leaving job hj htype other (hsub.subset ho)
    | inr hj =>
      obtain rfl := List.mem_singleton.mp hj
      -- the thread that queues a LOGOUT is the only one of its connection, and it ends
      rw [if_pos htype] at ho
      obtain ⟨j, hne, hj⟩ := List.mem_eraseIdx_iff_getElem?.mp ho
      intro he
      exact hne (index_inj inv.clients hj hc he)
  · exact inv.creators

theorem SessionInv.process {s : System} (inv : SessionInv s) {i : Nat} {env : JobEnv} {job : Job}
    {server : Server} {out : List Event} (hjob : s.pending[i]? = some job)
    (hok : s.Orderly (.process i env))
    (h : processJob s.server env job = some (server, out)) :
    SessionInv { s with server, pending := s.pending.eraseIdx i } := by
  have heffect := processJob_effect h
  obtain ⟨hlast, hnamed⟩ := hok job hjob
  have hmem : job ∈ s.pending := List.mem_of_getElem? hjob
  have hsub : (s.pending.eraseIdx i).Sublist s.pending := List.eraseIdx_sublist ..
  have hrecorded : Recorded s.server job.clientfd :=
    (inv.bound _ (Or.inr ⟨job, hmem, rfl⟩)).recorded
  constructor
  · have hok : Sponsored s.server (.job env job) := fun _ => hrecorded
    exact serverInv_step inv.server hok heffect
  · intro fd hactive
    have hold : s.Active fd :=
      hactive.imp_right fun ⟨other, ho, hfd⟩ => ⟨other, hsub.subset ho, hfd⟩
    refine (inv.bound fd hold).step inv.server.users heffect ?_
    intro env' job' haction hlogout hfd
    obtain ⟨-, rfl⟩ := Action.job.inj haction
    cases hactive with
    | inl hclient =>
      obtain ⟨client, hc, -, hcfd⟩ := hclient
      exact inv.leaving job hmem hlogout client hc (hcfd.trans hfd.symm)
    | inr hother =>
      obtain ⟨other, ho, hofd⟩ := hother
      exact hlast hlogout other ho (hofd.trans hfd.symm)
  · exact fun client hc => openFds_step heffect (inv.clientsOpen client hc)
  · exact inv.clients
  · exact fun other ho => inv.leaving other (hsub.subset ho)
  · refine creators_step inv.server.store.toListInv heffect ?_ inv.creators
    intro env' job' haction htype
    obtain ⟨-, rfl⟩ := Action.job.inj haction
    exact ⟨hrecorded, hnamed htype⟩

theorem SessionInv.tick {s : System} (inv : SessionInv s) {server : Server} {out : List Event}
    (h : tickBody s.server = some (server, out)) : SessionInv { s with server } := by
  have heffect : Effect s.server .tick server out := .tick h
  have hok : Sponsored s.server .tick := trivial
  exact {
    server := serverInv_step inv.server hok heffect
    bound := fun fd hfd => (inv.bound fd hfd).step inv.server.users heffect (by simp)
    clientsOpen := fun client hc => openFds_step heffect (inv.clientsOpen client hc)
    clients := inv.clients
    leaving := inv.leaving
    creators := creators_step inv.server.store.toListInv heffect (by simp) inv.creators }

theorem sessionInv_step {s s' : System} {action : SystemAction} {out : List Event}
    (inv : SessionInv s) (hok : s.Orderly action) (h : System.step s action = some (s', out)) :
    SessionInv s' := by
  cases action with
  | connect fd msgType body =>
    simp only [System.step, Option.bind_eq_bind, Option.bind_eq_some_iff, Option.some.injEq,
      Prod.mk.injEq] at h
    obtain ⟨⟨server, out', started⟩, hacc, rfl, rfl⟩ := h
    exact inv.connect hok hacc
  | request i msgType body =>
    simp only [System.step, Option.bind_eq_bind, Option.bind_eq_some_iff] at h
    obtain ⟨client, hc, h⟩ := h
    split at h
    · simp only [Option.some.injEq, Prod.mk.injEq] at h
      exact h.1 ▸ inv
    · simp only [Option.some.injEq, Prod.mk.injEq] at h
      exact h.1 ▸ inv.request hc (hok client hc)
  | process i env =>
    simp only [System.step, Option.bind_eq_bind, Option.bind_eq_some_iff, Option.some.injEq,
      Prod.mk.injEq] at h
    obtain ⟨job, hjob, ⟨server, out'⟩, hstep, rfl, rfl⟩ := h
    exact inv.process hjob hok hstep
  | tick =>
    simp only [System.step, Option.bind_eq_bind, Option.bind_eq_some_iff, Option.some.injEq,
      Prod.mk.injEq] at h
    obtain ⟨⟨server, out'⟩, hstep, rfl, rfl⟩ := h
    exact inv.tick hstep

/-- Exactly one record has the descriptor of the job, and the record that the handlers find is
that of a logged-in user. -/
def Served (s : Server) (job : Job) : Prop :=
  s.users.countP (fun u => u.fd == job.clientfd) = 1 ∧
    ∃ u, findUsername s job.clientfd = some u ∧ u.loginFlag = true

theorem served_of_loggedIn {s : Server} (users : UserInv s) {job : Job}
    (h : LoggedIn s job.clientfd) : Served s job := by
  obtain ⟨u, hu, hfd, hflag⟩ := h
  constructor
  · have hmem : job.clientfd ∈ s.users.map User.fd := List.mem_map.mpr ⟨u, hu, hfd⟩
    have hcount := List.count_eq_one_of_mem users.fds hmem
    rwa [List.count, List.countP_map] at hcount
  · exact ⟨u, hfd ▸ users.findUsername_eq hu, hflag⟩

/-- In an orderly run every queued job comes from exactly one user, who is logged in, and every
auction has the name of a recorded user for its creator. -/
theorem servedLaw_run {as : List SystemAction} {tr : List Event} {s : System}
    (run : Run System.step System.Orderly System.start as tr s) :
    (∀ job ∈ s.pending, Served s.server job) ∧
      ∀ x ∈ s.server.auctions, x.creator ≠ none ∧ s.server.Names x.creator := by
  have inv : SessionInv s := run.invariant_state sessionInv_start sessionInv_step
  constructor
  · intro job hj
    exact served_of_loggedIn inv.server.users (inv.bound _ (Or.inr ⟨job, hj, rfl⟩))
  · intro x hx
    obtain ⟨k, hk⟩ := List.getElem?_of_mem hx
    exact ⟨inv.creators k x hk, (inv.server.parties k x hk).creator⟩

/-- A logs in, creates an auction and queues a balance request; B logs in and queues a LOGOUT. -/
def sampleSessions : List SystemAction :=
  [.connect 4 MsgType.LOGIN.code ['A', '\r', '\n', 'x'],
    .connect 5 MsgType.LOGIN.code ['B', '\r', '\n', 'y'],
    .request 0 MsgType.ANCREATE.code ['V', '\r', '\n', '3', '\r', '\n', '5'],
    .request 1 MsgType.LOGOUT.code [], .process 0 ⟨sampleMalloc, []⟩,
    .request 0 MsgType.USRBLNC.code []]

theorem sampleSessions_completes :
    (exec System.step System.Orderly System.start sampleSessions).isSome := by decide

def sampleSessionsEnd : System :=
  ((exec System.step System.Orderly System.start sampleSessions).get sampleSessions_completes).1

theorem servedLaw_run_sample :
    (∀ job ∈ sampleSessionsEnd.pending, Served sampleSessionsEnd.server job) ∧
      ∀ x ∈ sampleSessionsEnd.server.auctions,
        x.creator ≠ none ∧ sampleSessionsEnd.server.Names x.creator :=
  servedLaw_run (run_of_isSome sampleSessions_completes)

/-- A connection whose first message is no LOGIN gets a client thread and queues a request. -/
def sampleIntruder : List SystemAction :=
  [.connect 4 MsgType.ANLIST.code [], .request 0 MsgType.USRBLNC.code []]

theorem sampleIntruder_completes :
    (exec System.step System.Admits System.start sampleIntruder).isSome := by decide

theorem servedLaw_fails : ¬ ∀ as tr s, Run System.step System.Admits System.start as tr s →
    ∀ job ∈ s.pending, Served s.server job := by
  intro h
  have hserved := h _ _ _ (run_of_isSome sampleIntruder_completes) ⟨[], MsgType.USRBLNC.code, 4⟩
    (by decide)
  exact absurd hserved.1 (by decide)

end ZBid
