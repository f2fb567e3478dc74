import ZBid.Parties

/-!
# The tick thread between the job threads

The sequential server takes a whole tick as one step. Here the tick thread walks the list one node
at a time, without the lock, and takes `auctionsMutex` only to close the auction that it has seen
reach 0; between its steps the job threads run. Every job, with the close and the removal of a
buy-it-now bid, is one step under the lock.
-/
namespace ZBid

open CInt CString Runs

/-- Where the tick thread is: between two ticks, at the node of an auction it is about to age, or
before the lock, about to close an auction. It has crashed when `removeByIndex` ran off the
list. -/
inductive TickPc where
  | idle
  | atNode (a : Nat)
  | closing (a : Nat)
  | crashed
  deriving DecidableEq, Repr

/-- The auction whose node the tick thread holds. -/
def TickPc.held : TickPc → Option Nat
  | .atNode a | .closing a => some a
  | .idle | .crashed => none

def TickPc.ofNode : Option Nat → TickPc
  | some a => .atNode a
  | none => .idle

structure Interleaved where
  server : Server
  tick : TickPc
  deriving DecidableEq, Repr

def Interleaved.start : Interleaved := ⟨Server.start, .idle⟩

inductive InterleavedAction where
  | accept (clientFd : Int) (msgType : Nat) (body : List Char)
  | job (env : JobEnv) (job : Job)
  | startTick
  | age
  | close
  deriving DecidableEq, Repr

/-- `current->next`. -/
def nodeAfter (a : Nat) (nodes : List Nat) : Option Nat := nodes[nodes.idxOf a + 1]?

/-- The atomic steps. The node of an auction that is off the list has been freed, so the tick
thread must not touch it; a close whose removal fails has settled the auction all the same. -/
def Interleaved.step : Step Interleaved InterleavedAction Event := fun s action =>
  if s.tick = .crashed then none
  else
    match action, s.tick with
    | .accept clientFd msgType body, _ =>
      (Server.step s.server (.accept clientFd msgType body)).map fun (server, out) =>
        ({ s with server }, out)
    | .job env job, _ =>
      (Server.step s.server (.job env job)).map fun (server, out) => ({ s with server }, out)
    | .startTick, .idle =>
      some (⟨{ s.server with tick := wrap32 (s.server.tick + 1) },
        .ofNode s.server.auctionsList.nodes.head?⟩, [])
    | .age, .atNode a =>
      if a ∈ s.server.auctionsList.nodes then do
        let (server, duration) ← ageAuction s.server a
        some (⟨server, if duration = 0 then .closing a
          else .ofNode (nodeAfter a server.auctionsList.nodes)⟩, [])
      else none
    | .close, .closing a => do
      let (server, out) ← closeAuction s.server a
      match unlinkAuction server a with
      | some server' => some (⟨server', .idle⟩, out)
      | none => some (⟨server, .crashed⟩, out)
    | _, _ => none

/-- Nothing but the descriptors that `accept` returns is restricted. -/
def Interleaved.Admits (s : Interleaved) : InterleavedAction → Prop
  | .accept clientFd _ _ => FreshFd s.server clientFd
  | _ => True

/-- The job is a bid that buys the auction: from a watcher who is not its creator, and above its
buy-it-now price. -/
def Server.buysOut (s : Server) (job : Job) (a : Nat) : Bool :=
  match s.auctions[a]?, findUsername s job.clientfd, anbidArgs (cstr job.jobBuffer) with
  | some x, some user, some (auctionId, bid) =>
    decide (MsgType.ofCode job.jobMsgType = some .ANBID ∧ a ∈ s.auctionsList.nodes ∧
      x.id = auctionId ∧ samePtr x.creator user.username = false ∧
      userWatches user.username x.watchers.nodes = some true ∧
      x.binFlag = 1 ∧ bid > x.binPrice)
  | _, _, _ => false

/-- No job buys the auction whose node the tick thread holds. -/
def Interleaved.Apart (s : Interleaved) : InterleavedAction → Prop
  | .accept clientFd _ _ => FreshFd s.server clientFd
  | .job _ job => ∀ a ∈ s.tick.held, s.server.buysOut job a = false
  | _ => True

instance Interleaved.decidableAdmits (s : Interleaved) : ∀ action, Decidable (s.Admits action)
  | .accept clientFd _ _ => inferInstanceAs (Decidable (FreshFd s.server clientFd))
  | .job _ _ | .startTick | .age | .close => inferInstanceAs (Decidable True)

instance Interleaved.decidableApart (s : Interleaved) : ∀ action, Decidable (s.Apart action)
  | .accept clientFd _ _ => inferInstanceAs (Decidable (FreshFd s.server clientFd))
  | .job _ _ => inferInstanceAs (Decidable (∀ a ∈ s.tick.held, _))
  | .startTick | .age | .close => inferInstanceAs (Decidable True)

/-- What main or a job thread does. -/
def InterleavedAction.request : InterleavedAction → Option Action
  | .accept clientFd msgType body => some (.accept clientFd msgType body)
  | .job env j => some (.job env j)
  | .startTick | .age | .close => none

theorem request_ne_tick {action : InterleavedAction} {request : Action}
    (h : action.request = some request) : request ≠ .tick := by
  cases action <;> simp [InterleavedAction.request] at h <;> simp [← h]

/-- The requests, and what the tick thread can do where it is. -/
inductive InterleavedEffect (s : Interleaved) :
    InterleavedAction → Interleaved → List Event → Prop where
  | request {action : InterleavedAction} {server : Server} {out : List Event} (request : Action) :
      action.request = some request → Server.step s.server request = some (server, out) →
      InterleavedEffect s action { s with server } out
  | startTick : s.tick = .idle → InterleavedEffect s .startTick
      ⟨s.server.ticked, .ofNode s.server.auctionsList.nodes.head?⟩ []
  | age (a : Nat) (server : Server) (duration : Int) : s.tick = .atNode a →
      a ∈ s.server.auctionsList.nodes → ageAuction s.server a = some (server, duration) →
      InterleavedEffect s .age ⟨server, if duration = 0 then .closing a
        else .ofNode (nodeAfter a server.auctionsList.nodes)⟩ []
  | close {out : List Event} (a : Nat) (server server' : Server) : s.tick = .closing a →
      closeAuction s.server a = some (server, out) → unlinkAuction server a = some server' →
      InterleavedEffect s .close ⟨server', .idle⟩ out
  | crash {out : List Event} (a : Nat) (server : Server) : s.tick = .closing a →
      closeAuction s.server a = some (server, out) → unlinkAuction server a = none →
      InterleavedEffect s .close ⟨server, .crashed⟩ out

theorem alive_of_step {s s' : Interleaved} {action : InterleavedAction} {out : List Event}
    (h : Interleaved.step s action = some (s', out)) : s.tick ≠ .crashed := by
  intro hcrashed
  simp [Interleaved.step, hcrashed] at h

theorem interleaved_effect {s s' : Interleaved} {action : InterleavedAction} {out : List Event}
    (h : Interleaved.step s action = some (s', out)) : InterleavedEffect s action s' out := by
  simp only [Interleaved.step, if_neg (alive_of_step h)] at h
  split at h
  · obtain ⟨⟨server, sent⟩, hstep, h⟩ := Option.map_eq_some_iff.mp h
    obtain ⟨rfl, rfl⟩ := Prod.mk.inj h
    exact .request _ rfl hstep
  · obtain ⟨⟨server, sent⟩, hstep, h⟩ := Option.map_eq_some_iff.mp h
    obtain ⟨rfl, rfl⟩ := Prod.mk.inj h
    exact .request _ rfl hstep
  · rename_i htick
    obtain ⟨rfl, rfl⟩ := Prod.mk.inj (Option.some.inj h)
    exact .startTick htick
  · rename_i a htick
    split at h
    · rename_i ha
      simp only [Option.bind_eq_bind, Option.bind_eq_some_iff] at h
      obtain ⟨⟨server, duration⟩, hage, h⟩ := h
      obtain ⟨rfl, rfl⟩ := Prod.mk.inj (Option.some.inj h)
      exact .age a server duration htick ha hage
    · cases h
  · rename_i a htick
    simp only [Option.bind_eq_bind, Option.bind_eq_some_iff] at h
    obtain ⟨⟨server, sent⟩, hclose, h⟩ := h
    split at h
    · rename_i server' hunlink
      obtain ⟨rfl, rfl⟩ := Prod.mk.inj (Option.some.inj h)
      exact .close a server server' htick hclose hunlink
    · rename_i hunlink
      obtain ⟨rfl, rfl⟩ := Prod.mk.inj (Option.some.inj h)
      exact .crash a server htick hclose hunlink
  · cases h

/-- The auctions whose winner was debited, oldest first. -/
def debits (tr : List Event) : List Nat :=
  tr.filterMap fun
    | .debited a _ => some a
    | _ => none

/-- The auctions whose creator was credited, oldest first. -/
def credits (tr : List Event) : List Nat :=
  tr.filterMap fun
    | .credited a _ => some a
    | _ => none

/-- The entries of all the `auctionsWon` lists. -/
def Server.won (s : Server) : List Nat := s.users.flatMap fun u => u.auctionsWon.nodes

@[simp] theorem debits_append (xs ys : List Event) : debits (xs ++ ys) = debits xs ++ debits ys :=
  List.filterMap_append

@[simp] theorem credits_append (xs ys : List Event) :
    credits (xs ++ ys) = credits xs ++ credits ys := List.filterMap_append

theorem debits_messages {out : List Event} (h : Messages out) : debits out = [] := by
  rw [debits, List.filterMap_eq_nil_iff]
  intro e he
  obtain ⟨m, rfl⟩ := h e he
  rfl

theorem credits_messages {out : List Event} (h : Messages out) : credits out = [] := by
  rw [credits, List.filterMap_eq_nil_iff]
  intro e he
  obtain ⟨m, rfl⟩ := h e he
  rfl

/-- Each close credits once and debits at most once, and the lists of won auctions grow with the
debits. -/
structure Booked (s s' : Server) (out : List Event) : Prop where
  debits : (ZBid.debits out).Sublist (closings out)
  credits : ZBid.credits out = closings out
  won : s'.won.Perm (s.won ++ ZBid.debits out)

/-- A step that logs messages only, and leaves the lists of won auctions. -/
theorem Booked.quiet {s s' : Server} {out : List Event} (hout : Messages out)
    (hwon : s'.won = s.won) : Booked s s' out where
  debits := by simp [debits_messages hout]
  credits := by rw [credits_messages hout, closings_messages hout]
  won := by rw [hwon, debits_messages hout, List.append_nil]

theorem Booked.accepted {s s' : Server} {out : List Event} {a : Nat} {bidder : CharStar}
    {amount : Int} (h : Booked s s' out) : Booked s s' (.accepted a bidder amount :: out) :=
  ⟨h.debits, h.credits, h.won⟩

/-- Only the lists of won auctions count. -/
theorem won_eq {s s' : Server}
    (h : s'.users.map (fun u => u.auctionsWon.nodes) = s.users.map fun u => u.auctionsWon.nodes) :
    s'.won = s.won := by
  rw [Server.won, Server.won, List.flatMap_def, List.flatMap_def, h]

theorem won_setUser {s : Server} {i : Nat} {u v : User} (hu : s.users[i]? = some u)
    (hv : v.auctionsWon = u.auctionsWon) : (s.setUser i v).won = s.won :=
  won_eq (map_set_of_eq (fun u => u.auctionsWon.nodes) hu (by rw [hv]))

/-- One user's list grows by an entry. -/
theorem flatMap_set_perm {us : List User} {i : Nat} {u v : User} {a : Nat} (hi : us[i]? = some u)
    (hv : v.auctionsWon.nodes = u.auctionsWon.nodes ++ [a]) :
    ((us.set i v).flatMap fun u => u.auctionsWon.nodes).Perm
      (us.flatMap (fun u => u.auctionsWon.nodes) ++ [a]) := by
  induction us generalizing i with
  | nil => cases hi
  | cons w us ih =>
    cases i with
    | zero =>
      obtain rfl := Option.some.inj hi
      simp only [List.set_cons_zero, List.flatMap_cons, hv, List.append_assoc]
      exact List.Perm.append_left _ List.perm_append_comm
    | succ i =>
      simp only [List.set_cons_succ, List.flatMap_cons, List.append_assoc]
      exact (ih hi).append_left _

theorem debits_cons_closed (a : Nat) (out : List Event) : debits (.closed a :: out) = debits out :=
  rfl

theorem credits_cons_closed (a : Nat) (out : List Event) :
    credits (.closed a :: out) = credits out := rfl

/-- The winner's side of a settlement adds the auction to his list in the step that debits him. -/
theorem debitWinner_won {s s' : Server} {a : Nat} {x : Auction} {out : List Event}
    (lists : UserLists s) (h : debitWinner s a x = some (s', out)) :
    (debits out).Sublist [a] ∧ credits out = [] ∧ s'.won.Perm (s.won ++ debits out) := by
  obtain ⟨-, rfl, rfl⟩ | ⟨w, i, u, won, -, hu, -, hins, rfl, rfl⟩ := debitWinner_spec h
  · exact ⟨List.nil_sublist _, rfl, by simp [debits]⟩
  · have hwon := (insertAtTail_spec (lists.get hu).2 hins).1
    exact ⟨List.Sublist.refl _, rfl, flatMap_set_perm hu hwon⟩

theorem closeAuction_booked {s s' : Server} {a : Nat} {out : List Event} (lists : UserLists s)
    (h : closeAuction s a = some (s', out)) : Booked s s' out := by
  have hclosings := closeAuction_closings h
  obtain ⟨x, middle, debit, credit, fds, -, hd, hc, -, rfl⟩ := (closeAuction_spec h).some
  have hsent := messages_map fds .ANCLOSED (closedBody x)
  obtain ⟨hdebits, hnone, hwon⟩ := debitWinner_won lists hd
  obtain ⟨i, u, hu, -, rfl, rfl⟩ := creditCreator_spec hc
  have hsame : (middle.setUser i { u with balance := wrap32 (u.balance + x.bid) }).won =
      middle.won := won_setUser hu rfl
  have hd' : debits (.closed a :: debit ++ [.credited a (u.balance + x.bid)] ++
      fds.map fun fd => message fd .ANCLOSED (closedBody x)) = debits debit := by
    rw [debits_append, debits_messages hsent, List.append_nil, List.cons_append,
      debits_cons_closed, debits_append]
    exact List.append_nil _
  constructor
  · rw [hclosings, hd']
    exact hdebits
  · rw [hclosings, credits_append, credits_messages hsent, List.append_nil, List.cons_append,
      credits_cons_closed, credits_append, hnone]
    rfl
  · rw [hsame, hd']
    exact hwon

theorem booked_step {s s' : Server} {action : Action} {out : List Event} (users : UserInv s)
    (lists : UserLists s) (hnotick : action ≠ .tick)
    (h : Effect s action s' out) : Booked s s' out := by
  cases h with
  | @accept fd _ _ _ _ _ hacc =>
    cases hacc with
    | noLogin => exact .quiet messages_nil rfl
    | already => exact .quiet (messages_answer _ _) rfl
    | again i u _ hu =>
      have hsame : (s.setUser i { u with loginFlag := true, fd := fd }).won = s.won :=
        won_setUser hu rfl
      exact .quiet (messages_answer _ _) hsame
    | wrong => exact .quiet (messages_answer _ _) rfl
    | created users' _ _ hins =>
      refine .quiet (messages_answer _ _) ?_
      simp [Server.won, Server.users, (insertAtTail_spec users.wf hins).1, newUser, createList]
  | quiet hout => exact .quiet hout rfl
  | logout i u _ hu =>
    exact .quiet (messages_answer _ _) (won_setUser hu rfl)
  | create name duration price us creator list' body _ _ _ _ _ _ _ _ hscan =>
    exact .quiet (messages_message _ _ _) (won_eq
      (map_eq_of_owned (fun u => u.auctionsWon.nodes) (fun _ _ => rfl) (ownerScan_spec hscan).1))
  | watch => exact .quiet (messages_message _ _ _) rfl
  | leave => exact .quiet (messages_answer _ _) rfl
  | @raise env job a x user bid fds name =>
    have hsent : Messages ((fds.filter (· ≠ -1)).map (fun fd => message fd .ANUPDATE
        (updateBody (x.withBid user.username bid) name)) ++ [answer job.clientfd .OK]) :=
      messages_append (messages_map _ _ _) (messages_answer _ _)
    exact Booked.accepted (.quiet hsent rfl)
  | buy a x user bid s₁ _ out _ _ hon _ _ hclose hunlink =>
    have hset : UserLists (s.setAuction a (x.withBid user.username bid)) := lists
    obtain ⟨hdebits, hcredits, hwon⟩ := closeAuction_booked hset hclose
    obtain ⟨list', rfl⟩ := unlinkAuction_frame hunlink
    exact ⟨hdebits, hcredits, hwon⟩
  | tick => exact absurd rfl hnotick

/-- Only a bid that buys an auction takes it off the list. -/
theorem effect_keeps {s s' : Server} {action : Action} {out : List Event} (list : ListInv s)
    (h : Effect s action s' out) (hnotick : action ≠ .tick) {a : Nat}
    (ha : a ∈ s.auctionsList.nodes)
    (hapart : ∀ env job, action = .job env job → s.buysOut job a = false) :
    a ∈ s'.auctionsList.nodes := by
  cases h with
  | accept hacc => cases hacc <;> exact ha
  | create name duration price us creator list' body _ _ _ _ _ _ _ _ _ hins =>
    rw [(insertAtTail_spec list.wf hins).1]
    exact List.mem_append_left _ ha
  | @buy env job b x user bid s₁ _ out htype hargs hon hflag hprice hclose hunlink =>
    obtain ⟨us, -, -, rfl⟩ := buy_outcome list hon.mem hon.record hclose hunlink
    have hne : a ≠ b := by
      rintro rfl
      have hbuys := hapart env job rfl
      simp [Server.buysOut, hon.record, hon.bidder, hargs, htype, hon.mem, hon.notCreator,
        hon.watching, hflag, hprice] at hbuys
    exact (List.mem_erase_of_ne hne).mpr ha
  | tick => exact absurd rfl hnotick
  | _ => exact ha

/-- Between its steps the tick thread holds a node that is still on the list, and every auction
has been closed as often as the books say. -/
structure InterleavedInv (tr : List Event) (s : Interleaved) : Prop where
  users : UserInv s.server
  lists : UserLists s.server
  list : ListInv s.server
  closed : ClosedInv tr s.server
  held : ∀ a ∈ s.tick.held, a ∈ s.server.auctionsList.nodes
  alive : s.tick ≠ .crashed
  debits : (debits tr).Sublist (closings tr)
  credits : credits tr = closings tr
  won : s.server.won.Perm (ZBid.debits tr)

theorem interleavedInv_start : InterleavedInv [] Interleaved.start where
  users := userInv_start
  lists := by simp [UserLists, Interleaved.start, Server.start, Server.users, createList]
  list := listInv_start
  closed := closedInv_start
  held := by simp [Interleaved.start, TickPc.held]
  alive := by simp [Interleaved.start]
  debits := List.Sublist.refl _
  credits := rfl
  won := List.Perm.refl _

/-- Whatever a step does to the server, the books of the run follow those of the step. -/
theorem InterleavedInv.move {tr out : List Event} {s s' : Interleaved} (inv : InterleavedInv tr s)
    (users : UserInv s'.server) (lists : UserLists s'.server) (list : ListInv s'.server)
    (change : ListChange s.server s'.server out) (booked : Booked s.server s'.server out)
    (held : ∀ a ∈ s'.tick.held, a ∈ s'.server.auctionsList.nodes) (alive : s'.tick ≠ .crashed) :
    InterleavedInv (tr ++ out) s' := by
  constructor
  · exact users
  · exact lists
  · exact list
  · exact closedInv_step inv.list inv.closed change
  · exact held
  · exact alive
  · rw [debits_append, closings_append]
    exact inv.debits.append booked.debits
  · rw [credits_append, closings_append, inv.credits, booked.credits]
  · rw [debits_append]
    exact booked.won.trans (inv.won.append_right _)

theorem mem_ofNode {a : Nat} {node : Option Nat} : a ∈ (TickPc.ofNode node).held ↔ a ∈ node := by
  cases node <;> simp [TickPc.ofNode, TickPc.held]

theorem ofNode_alive (node : Option Nat) : TickPc.ofNode node ≠ .crashed := by
  cases node <;> simp [TickPc.ofNode]

theorem mem_of_nodeAfter {a b : Nat} {nodes : List Nat} (h : b ∈ nodeAfter a nodes) : b ∈ nodes :=
  List.mem_of_getElem? h

/-- A step of the sequential server, while the tick thread waits. -/
theorem InterleavedInv.serverStep {tr out : List Event} {s : Interleaved} {server : Server}
    {action : Action} (inv : InterleavedInv tr s)
    (hok : s.server.Admits (fun _ _ => True) action) (hnotick : action ≠ .tick)
    (hapart : ∀ a ∈ s.tick.held, ∀ env job, action = .job env job →
      s.server.buysOut job a = false)
    (h : Server.step s.server action = some (server, out)) :
    InterleavedInv (tr ++ out) { s with server } := by
  have heffect := step_effect h
  exact inv.move (userInv_step inv.users hok heffect)
    (userLists_step inv.users inv.list inv.lists heffect) (listInv_step inv.list heffect)
    (effect_list inv.list heffect) (booked_step inv.users inv.lists hnotick heffect)
    (fun a ha => effect_keeps inv.list heffect hnotick (inv.held a ha) (hapart a ha)) inv.alive

theorem InterleavedInv.age {tr : List Event} {s : Interleaved} {a : Nat} {server : Server}
    {duration : Int} (inv : InterleavedInv tr s) (ha : a ∈ s.server.auctionsList.nodes)
    (h : ageAuction s.server a = some (server, duration)) :
    InterleavedInv tr ⟨server, if duration = 0 then .closing a
      else .ofNode (nodeAfter a server.auctionsList.nodes)⟩ := by
  obtain ⟨x, -, rfl, -⟩ := ageAuction_spec h
  have hsame : ListChange s.server (s.server.aged [a]) [] :=
    .same rfl rfl (by simp [Server.aged])
  rw [← List.append_nil tr]
  refine inv.move (inv.users.of_users rfl rfl rfl) inv.lists (inv.list.aged [a])
    hsame (.quiet messages_nil rfl) ?_ ?_
  · intro b hb
    dsimp only at hb
    split at hb
    · obtain rfl : a = b := by simpa [TickPc.held] using hb
      exact ha
    · exact mem_of_nodeAfter (mem_ofNode.mp hb)
  · dsimp only
    split
    · simp
    · exact ofNode_alive _

/-- The close of the auction whose node is held settles it and takes it off the list. -/
theorem InterleavedInv.close {tr out : List Event} {s : Interleaved} {a : Nat} {server : Server}
    (inv : InterleavedInv tr s) (ha : a ∈ s.server.auctionsList.nodes)
    (h : closeAuction s.server a = some (server, out)) :
    ∃ server', unlinkAuction server a = some server' ∧
      InterleavedInv (tr ++ out) ⟨server', .idle⟩ := by
  have hclosings := closeAuction_closings h
  have hbooked := closeAuction_booked inv.lists h
  have hlists := inv.lists.close h
  have hkeys := closeAuction_keys h
  obtain ⟨us, rfl, -⟩ := closeAuction_frame h
  have hlist := inv.list.withUsers us
  refine ⟨_, hlist.unlink_eq ha, inv.move ?_ ?_ (hlist.erase ha) ?_ ?_ ?_ ?_⟩
  · exact inv.users.of_keys hkeys rfl le_rfl fun _ h => h
  · exact hlists
  · exact .close a hclosings ha rfl rfl
  · exact ⟨hbooked.debits, hbooked.credits, hbooked.won⟩
  · simp [TickPc.held]
  · simp

theorem interleavedInv_step {tr out : List Event} {s s' : Interleaved}
    {action : InterleavedAction} (inv : InterleavedInv tr s) (hok : s.Apart action)
    (h : Interleaved.step s action = some (s', out)) : InterleavedInv (tr ++ out) s' := by
  cases interleaved_effect h with
  | request request hrequest hstep =>
    cases action with
    | accept fd msgType body =>
      obtain rfl := Option.some.inj hrequest
      have hadmits : s.server.Admits (fun _ _ => True) (.accept fd msgType body) := hok
      exact inv.serverStep hadmits (by simp) (by simp) hstep
    | job env job =>
      obtain rfl := Option.some.inj hrequest
      have hadmits : s.server.Admits (fun _ _ => True) (.job env job) := trivial
      refine inv.serverStep hadmits (by simp) ?_ hstep
      intro a ha env' job' haction
      obtain ⟨-, rfl⟩ := Action.job.inj haction
      exact hok a ha
    | startTick | age | close => cases hrequest
  | startTick =>
    refine inv.move (inv.users.of_users rfl rfl rfl) inv.lists
      (inv.list.of_ids rfl rfl rfl) (.same rfl rfl rfl) (.quiet messages_nil rfl) ?_
      (ofNode_alive _)
    intro a ha
    exact List.mem_of_mem_head? (mem_ofNode.mp ha)
  | age a server duration htick ha hage =>
    rw [List.append_nil]
    exact inv.age ha hage
  | close a server server' htick hclose hunlink =>
    obtain ⟨_, hremoved, hinv⟩ := inv.close (inv.held a (by simp [htick, TickPc.held])) hclose
    obtain rfl := Option.some.inj (hunlink.symm.trans hremoved)
    exact hinv
  | crash a server htick hclose hunlink =>
    obtain ⟨_, hremoved, -⟩ := inv.close (inv.held a (by simp [htick, TickPc.held])) hclose
    exact absurd (hunlink.symm.trans hremoved) (by simp)

/-- The two calls of `closeAuction`: the action that makes it, the auction, and the state it is
made in. -/
inductive Interleaved.Closes (s : Interleaved) : InterleavedAction → Nat → Server → Prop where
  | expire (a : Nat) : s.tick = .closing a → Closes s .close a s.server
  | buy (env : JobEnv) (job : Job) (auctionId bid : Int) (user : User) (a : Nat)
      (before : Server) :
      MsgType.ofCode job.jobMsgType = some .ANBID →
      anbidArgs (cstr job.jobBuffer) = some (auctionId, bid) →
      findUsername s.server job.clientfd = some user →
      bidExit s.server user.username auctionId bid = some (.buyNow a) →
      s.server.setBid a user.username bid = some before → Closes s (.job env job) a before

/-- No auction is closed, debited, credited or won twice; a closed auction is off the list; the
tick thread only touches a node that is there; and whatever is about to be closed has not been
closed, and the index looked up after its close is the index of that auction. -/
structure SettledLaw (tr : List Event) (s : Interleaved) : Prop where
  once : (closings tr).Nodup
  debited : (debits tr).Nodup
  credited : (credits tr).Nodup
  won : s.server.won.Nodup
  removed : ∀ a ∈ closings tr, a ∉ s.server.auctionsList.nodes
  alive : s.tick ≠ .crashed
  node : ∀ a, s.tick = .atNode a → a ∈ s.server.auctionsList.nodes
  calls : ∀ action a before, s.Closes action a before → a ∉ closings tr
  indices : ∀ action a before after out, s.Closes action a before →
    closeAuction before a = some (after, out) →
    ∃ i : Nat, findAuctionIndex after a = some (i : Int) ∧ after.auctionsList.nodes[i]? = some a

/-- Whatever is about to be closed is on the list. -/
theorem Interleaved.Closes.listed {s : Interleaved} {action : InterleavedAction} {a : Nat}
    {before : Server} (h : s.Closes action a before) (list : ListInv s.server)
    (held : ∀ a ∈ s.tick.held, a ∈ s.server.auctionsList.nodes) :
    ListInv before ∧ a ∈ before.auctionsList.nodes ∧
      before.auctionsList = s.server.auctionsList := by
  cases h with
  | expire a htick => exact ⟨list, held a (by simp [htick, TickPc.held]), rfl⟩
  | buy env job auctionId bid user a before _ _ _ hexit hset =>
    simp only [Server.setBid, Option.bind_eq_bind, Option.bind_eq_some_iff,
      Option.some.injEq] at hset
    obtain ⟨x, hx, rfl⟩ := hset
    have hlist : ListInv (s.server.setAuction a (x.withBid user.username bid)) :=
      list.setAuction hx rfl
    rcases bidExit_spec hexit with hno | ⟨b, _, hmem, -, -, -, -, hacc⟩
    · exact absurd rfl (hno a).1
    · obtain ⟨hab, -⟩ | ⟨hab, -⟩ := hacc
      · exact ⟨hlist, BidExit.buyNow.inj hab ▸ hmem, rfl⟩
      · cases hab

theorem InterleavedInv.law {tr : List Event} {s : Interleaved} (inv : InterleavedInv tr s) :
    SettledLaw tr s := by
  have hdebited : (ZBid.debits tr).Nodup := inv.closed.once.sublist inv.debits
  constructor
  · exact inv.closed.once
  · exact hdebited
  · rw [inv.credits]
    exact inv.closed.once
  · exact inv.won.nodup_iff.mpr hdebited
  · exact fun a ha => ((inv.closed.closed a).mp ha).2
  · exact inv.alive
  · intro a htick
    exact inv.held a (by simp [htick, TickPc.held])
  · intro action a before hcloses hmem
    obtain ⟨-, ha, hsame⟩ := hcloses.listed inv.list inv.held
    exact ((inv.closed.closed a).mp hmem).2 (hsame ▸ ha)
  · intro action a before after out hcloses hclose
    obtain ⟨hlist, ha, -⟩ := hcloses.listed inv.list inv.held
    obtain ⟨us, rfl, -⟩ := closeAuction_frame hclose
    have hlt := List.idxOf_lt_length_iff.mpr ha
    refine ⟨_, (hlist.withUsers us).findAuctionIndex_eq ha, ?_⟩
    exact (List.getElem?_eq_getElem hlt).trans (congrArg some (List.getElem_idxOf hlt))

/-- Under every interleaving in which no job buys the auction whose node the tick thread holds. -/
theorem settledLaw_run {as : List InterleavedAction} {tr : List Event} {s : Interleaved}
    (run : Run Interleaved.step Interleaved.Apart Interleaved.start as tr s) : SettledLaw tr s := by
  have inv := run.invariant (P := fun _ tr s => InterleavedInv tr s) interleavedInv_start
    (fun _ inv hok h => interleavedInv_step inv hok h)
  exact inv.law

def sampleTurn (t : MsgType) (fd : Int) (body : Text) : InterleavedAction :=
  .job ⟨sampleMalloc, []⟩ ⟨body, t.code, fd⟩

/-- A and B log in, A creates an auction of one tick with buy-it-now price 5, and B watches it. -/
def sampleShort : List InterleavedAction :=
  [.accept 4 MsgType.LOGIN.code ['A', '\r', '\n', 'x'],
    .accept 5 MsgType.LOGIN.code ['B', '\r', '\n', 'y'],
    sampleTurn .ANCREATE 4 ['V', '\r', '\n', '1', '\r', '\n', '5'], sampleTurn .ANWATCH 5 ['1']]

/-- B bids 3; the auction expires. -/
def sampleExpiry : List InterleavedAction :=
  sampleShort ++ [sampleTurn .ANBID 5 ['1', '\r', '\n', '3'], .startTick, .age, .close]

theorem sampleExpiry_completes :
    (exec Interleaved.step Interleaved.Apart Interleaved.start sampleExpiry).isSome := by decide

theorem settledLaw_run_sample :
    SettledLaw ((exec Interleaved.step Interleaved.Apart Interleaved.start sampleExpiry).get
        sampleExpiry_completes).2
      ((exec Interleaved.step Interleaved.Apart Interleaved.start sampleExpiry).get
        sampleExpiry_completes).1 :=
  settledLaw_run (run_of_isSome sampleExpiry_completes)

/-- The tick thread has seen the auction reach 0 and waits for the lock while B buys it. -/
def sampleRace : List InterleavedAction :=
  sampleShort ++ [.startTick, .age, sampleTurn .ANBID 5 ['1', '\r', '\n', '1', '0'], .close]

theorem sampleRace_completes :
    (exec Interleaved.step Interleaved.Admits Interleaved.start sampleRace).isSome := by decide

theorem sampleRace_closings :
    closings ((exec Interleaved.step Interleaved.Admits Interleaved.start sampleRace).get
      sampleRace_completes).2 = [0, 0] := by decide

theorem settledLaw_fails : ¬ ∀ (as : List InterleavedAction) (tr : List Event) (s : Interleaved),
    Run Interleaved.step Interleaved.Admits Interleaved.start as tr s → SettledLaw tr s := by
  intro h
  have honce := (h _ _ _ (run_of_isSome sampleRace_completes)).once
  rw [sampleRace_closings] at honce
  exact absurd honce (by decide)

theorem nodeAfter_eq {pre rest : List Nat} {a : Nat} (h : (pre ++ a :: rest).Nodup) :
    nodeAfter a (pre ++ a :: rest) = rest.head? := by
  have hnot : a ∉ pre := fun ha => (List.nodup_append.mp h).2.2 a ha a (by simp) rfl
  rw [nodeAfter, List.idxOf_append_of_notMem hnot, List.idxOf_cons_self, Nat.add_zero,
    List.getElem?_append_right (by omega)]
  simp [List.head?_eq_getElem?]

theorem step_age {s s' : Server} {a : Nat} {d : Int} (ha : a ∈ s.auctionsList.nodes)
    (h : ageAuction s a = some (s', d)) :
    Interleaved.step ⟨s, .atNode a⟩ .age = some (⟨s', if d = 0 then .closing a
      else .ofNode (nodeAfter a s'.auctionsList.nodes)⟩, []) := by
  simp [Interleaved.step, ha, h]

theorem step_close {s s' : Server} {a : Nat} {out : List Event}
    (h : expireAuction s a = some (s', out)) :
    Interleaved.step ⟨s, .closing a⟩ .close = some (⟨s', .idle⟩, out) := by
  simp only [expireAuction, Option.bind_eq_bind, Option.bind_eq_some_iff, Option.some.injEq,
    Prod.mk.injEq] at h
  obtain ⟨⟨s₁, out₁⟩, hclose, s₂, hunlink, rfl, rfl⟩ := h
  simp [Interleaved.step, hclose, hunlink]

/-- The walk of the sequential tick along the end of the list is the tick thread walking it. -/
theorem tickLoop_run {pre nodes : List Nat} {s s' : Server} {out : List Event}
    (hnodes : s.auctionsList.nodes = pre ++ nodes) (hnodup : (pre ++ nodes).Nodup)
    (h : tickLoop nodes s = some (s', out)) :
    ∃ as, Run Interleaved.step Interleaved.Apart ⟨s, .ofNode nodes.head?⟩ as out ⟨s', .idle⟩ := by
  induction nodes generalizing pre s with
  | nil =>
    simp only [tickLoop, Option.some.injEq, Prod.mk.injEq] at h
    obtain ⟨rfl, rfl⟩ := h
    exact ⟨[], .start⟩
  | cons a rest ih =>
    simp only [tickLoop, Option.bind_eq_bind, Option.bind_eq_some_iff] at h
    obtain ⟨⟨s₁, d⟩, hage, h⟩ := h
    have ha : a ∈ s.auctionsList.nodes := by simp [hnodes]
    have hstep := step_age ha hage
    obtain ⟨x, -, rfl, -⟩ := ageAuction_spec hage
    have hnodes₁ : (s.aged [a]).auctionsList.nodes = pre ++ a :: rest := hnodes
    have hnext : nodeAfter a (s.aged [a]).auctionsList.nodes = rest.head? := by
      rw [hnodes₁, nodeAfter_eq hnodup]
    rw [hnext] at hstep
    by_cases hd : d = 0
    · rw [if_pos hd] at h hstep
      have hok : Interleaved.Apart ⟨s.aged [a], .closing a⟩ .close := trivial
      exact ⟨_, (Run.one trivial hstep).trans (.one hok (step_close h))⟩
    · rw [if_neg hd] at h hstep
      have hsplit : pre ++ a :: rest = pre ++ [a] ++ rest := by simp
      obtain ⟨as, hrun⟩ := ih (hnodes₁.trans hsplit) (hsplit ▸ hnodup) h
      exact ⟨_, (Run.one trivial hstep).trans hrun⟩

/-- A tick of the sequential server is the tick thread running alone from one wait to the next. -/
theorem tickBody_run {s s' : Server} {out : List Event} (list : ListInv s)
    (h : tickBody s = some (s', out)) :
    ∃ as, Run Interleaved.step Interleaved.Apart ⟨s, .idle⟩ as out ⟨s', .idle⟩ := by
  have hstart : Interleaved.step ⟨s, .idle⟩ .startTick =
      some (⟨s.ticked, .ofNode s.auctionsList.nodes.head?⟩, []) := rfl
  have hloop : tickLoop s.auctionsList.nodes s.ticked = some (s', out) := h
  have hnodes : s.ticked.auctionsList.nodes = [] ++ s.auctionsList.nodes := rfl
  obtain ⟨as, hrun⟩ := tickLoop_run hnodes list.nodup hloop
  exact ⟨_, (Run.one trivial hstart).trans hrun⟩

theorem sequential_step {s s' : Server} {action : Action} {out : List Event} (list : ListInv s)
    (hok : s.Admits (fun _ _ => True) action) (h : Server.step s action = some (s', out)) :
    ∃ bs, Run Interleaved.step Interleaved.Apart ⟨s, .idle⟩ bs out ⟨s', .idle⟩ := by
  cases action with
  | accept clientFd msgType body =>
    have hstep : Interleaved.step ⟨s, .idle⟩ (.accept clientFd msgType body) =
        some (⟨s', .idle⟩, out) := by simp [Interleaved.step, h]
    have hfresh : Interleaved.Apart ⟨s, .idle⟩ (.accept clientFd msgType body) := hok
    exact ⟨_, .one hfresh hstep⟩
  | job env job =>
    have hstep : Interleaved.step ⟨s, .idle⟩ (.job env job) = some (⟨s', .idle⟩, out) := by
      simp [Interleaved.step, h]
    have hapart : Interleaved.Apart ⟨s, .idle⟩ (.job env job) := fun a ha => by cases ha
    exact ⟨_, .one hapart hstep⟩
  | tick => exact tickBody_run list h

/-- Every run of the sequential server is an interleaving in which no job falls into a tick. -/
theorem sequential_run {as : List Action} {tr : List Event} {s : Server}
    (run : Run Server.step (Server.Admits fun _ _ => True) Server.start as tr s) :
    ∃ bs, Run Interleaved.step Interleaved.Apart Interleaved.start bs tr ⟨s, .idle⟩ := by
  have hstart : ListInv Server.start ∧ Interleaved.start = ⟨Server.start, .idle⟩ :=
    ⟨listInv_start, rfl⟩
  have hsim : ∃ bs t, Run Interleaved.step Interleaved.Apart Interleaved.start bs tr t ∧
      ListInv s ∧ t = ⟨s, .idle⟩ := by
    refine run.simulate (R := fun _ s t => ListInv s ∧ t = Interleaved.mk s .idle) hstart ?_
    rintro tr s t action s' out ⟨list, rfl⟩ hok hs
    obtain ⟨bs, hrun⟩ := sequential_step list hok hs
    exact ⟨bs, _, hrun, listInv_step list (step_effect hs), rfl⟩
  obtain ⟨bs, t, hrun, -, rfl⟩ := hsim
  exact ⟨bs, hrun⟩

end ZBid
