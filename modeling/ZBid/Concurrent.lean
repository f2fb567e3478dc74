import ZBid.Walk
import ZBid.HouseRun
import ZBid.Delivery

/-!
# The threads refine the auction house

Between the steps of the tick thread there may be any number of calls. To the house, that thread is
a clock that walks along the lots one at a time, and closes a lot some time after it has seen its
time run out. As long as the tick thread has not crashed, the whole program does what such a house
does, in the order in which its job threads get hold of the data.
-/
namespace ZBid

open CInt CString Runs Bookkeeping AuctionHouse Framing

/-- What main and the job threads do is what the house hears. -/
def InterleavedAction.input (action : InterleavedAction) : Option (Input Text Text Int Text) :=
  action.request.bind Action.input

/-- The tick thread may do what it can. -/
def Interleaved.Attributed (s : Interleaved) (action : InterleavedAction) : Prop :=
  ∀ request ∈ action.request, ZBid.Attributed s.server request

instance Interleaved.decidableAttributed (s : Interleaved) (action : InterleavedAction) :
    Decidable (s.Attributed action) := inferInstanceAs (Decidable (∀ request ∈ action.request, _))

theorem Interleaved.Attributed.sponsored {s : Interleaved} {action : InterleavedAction}
    (hok : s.Attributed action) : s.Sponsored action := by
  cases action with
  | accept | job => exact (hok _ rfl).1
  | _ => trivial

theorem input_tick {action : Action} (h : action.input = some .tick) : action = .tick := by
  cases action <;> simp [Action.input] at h ⊢

theorem named_run {as : List InterleavedAction} {tr : List Event} {s : Interleaved}
    (run : Run Interleaved.step Interleaved.Attributed Interleaved.start as tr s) :
    ∀ u ∈ s.server.users, u.username ≠ none := by
  refine run.invariant (P := fun _ _ s => ∀ u ∈ s.server.users, u.username ≠ none) ?_ ?_
  · simp [Interleaved.start, Server.start, Server.users, createList]
  · intro as tr s action s' out run named hok h
    cases hmain : action.ofMain with
    | false =>
      intro u hu
      have hmem : u.username ∈ s'.server.users.map User.username := List.mem_map_of_mem hu
      rw [(unmoved_of_step hmain h).names] at hmem
      obtain ⟨v, hv, hsame⟩ := List.mem_map.mp hmem
      exact hsame ▸ named v hv
    | true =>
      cases action with
      | accept fd msgType body =>
        have users := userInv_run (run.mono fun _ _ hok => hok.sponsored) (alive_of_step h)
        cases interleaved_effect h with
        | request request hrequest hstep =>
          exact (namedInv_step ⟨users, named⟩ (hok _ hrequest).2 (step_effect hstep)).named
      | _ => cases hmain

theorem callInv_run {as : List InterleavedAction} {tr : List Event} {s : Interleaved}
    (run : Run Interleaved.step Interleaved.Attributed Interleaved.start as tr s)
    (halive : s.tick ≠ .crashed) : CallInv tr s.server := by
  have sponsored := run.mono fun _ _ hok => hok.sponsored
  have users := userInv_run sponsored halive
  rcases interleaved_run booksInv_dateless sponsored with ⟨-, hsequential⟩ | ⟨_, _, _, _, h⟩
  · have list := hsequential.listInv
    obtain ⟨t, ht, inv, hbooks⟩ := hsequential
    have books := booksInv_dateless.redated ht.symm hbooks
    have hdeals : s.server.deals tr = t.deals tr := by
      rw [Server.deals, Server.deals, deal_redated ht]
    have hdealt : ∀ d ∈ t.deals tr, d.Among (t.users.map User.username) := deals_among inv
    rw [← hdeals, ht.users] at hdealt
    obtain ⟨auctions, tick, hrecords⟩ := ht
    refine ⟨users, list, fun k x hx => ?_, fun k x hx => ?_, hdealt, books.1.closed, books.2, users,
      named_run run⟩
    · obtain ⟨d, hd⟩ := dated_get hrecords hx
      have record := inv.store.records k (x.dated d) hd
      exact ⟨record.bid, record.winner, record.price, record.flag, record.watchers⟩
    · obtain ⟨d, hd⟩ := dated_get hrecords hx
      have party := inv.parties k (x.dated d) hd
      exact ⟨party.creator, party.winner, party.others, party.watchers⟩
  · exact absurd h.tick halive

/-- The clock of the house moves along with the tick thread. -/
theorem house_live {tr out : List Event} {s s' : Interleaved} {action : InterleavedAction}
    (inv : CallInv tr s.server) (timed : TimedInv s) (hok : s.Attributed action)
    (h : Interleaved.step s action = some (s', out)) (halive : s'.tick ≠ .crashed) :
    ∃ moments notices, Run House.live House.Piecemeal (s.server.house (closings tr)) moments
        notices (s'.server.house (closings (tr ++ out))) ∧
      moments.filterMap Moment.heard = action.input.toList ∧ told out = rendered notices := by
  cases interleaved_effect h with
  | request request hrequest hstep =>
    have hne := request_ne_tick hrequest
    have hsame : action.input = request.input := by rw [InterleavedAction.input, hrequest]; rfl
    rw [hsame]
    rcases house_request inv (hok request hrequest) hne hstep with
      ⟨input, hinput, hmirrors⟩ | ⟨hinput, hunheard⟩
    · obtain ⟨notices, hhouse, htold⟩ := hmirrors.step
      have hcall : input ≠ .tick := by
        rintro rfl
        exact hne (input_tick hinput)
      exact ⟨[.input input], notices, Run.one (by simpa [House.Piecemeal] using hcall) hhouse,
        by simp [hinput, Moment.heard], htold⟩
    · refine ⟨[], [], ?_, by simp [hinput], hunheard.2.2⟩
      rw [hunheard.house_eq]
      exact .start
  | startTick => exact ⟨[], [], by rw [List.append_nil]; exact .start, rfl, rfl⟩
  | age a server duration htick ha hage =>
    obtain ⟨x, hx⟩ := inv.list.get ha
    have hold := timed.older_duration (by simp [htick]) ha hx
    obtain ⟨rfl, -⟩ := Prod.mk.inj (Option.some.inj ((ageAuction_eq hx).symm.trans hage))
    refine ⟨[.age a], [], Run.one (by simp [House.Piecemeal]) ?_, rfl, rfl⟩
    rw [List.append_nil]
    simp only [House.live, House.age, inv.onSale_eq, ha, ↓reduceIte, house_lots, hx,
      Option.map_some, house_setAuction, older_lot hold]
  | close a server server' htick hclose hunlink =>
    have ha := inv.list.listed_of_unlink hclose hunlink
    obtain ⟨x, hx⟩ := inv.list.get ha
    obtain ⟨-, hzero⟩ := timed.left a ha x hx
    rw [if_pos htick] at hzero
    have names : NamedInv s.server := ⟨inv.users, inv.names.named⟩
    obtain ⟨notices, hnotices, htold, hone⟩ := house_close names (closings tr) hx
      (inv.list.ids a x hx) (inv.parties a x hx).watchers hclose
    obtain ⟨us, rfl, hus⟩ := closeAuction_frame hclose
    obtain ⟨list, rfl⟩ := unlinkAuction_frame hunlink
    refine ⟨[.expire a], notices, Run.one (by simp [House.Piecemeal]) ?_, rfl, htold⟩
    have hhouse := house_withUsers (s := s.server) (closings tr ++ [a]) hus
    have hdue : a ∈ (s.server.house (closings tr)).onSale ∧
        ((s.server.house (closings tr)).lots[a]?).any fun lot => lot.remaining = 0 := by
      rw [inv.onSale_eq, house_lots, hx]
      exact ⟨ha, by simp [Auction.lot, hzero]⟩
    rw [closings_append, hone]
    simp only [House.live, House.expire, if_pos hdue, hnotices]
    exact congrArg (fun h => some (h, notices)) hhouse.symm
  | crash => exact absurd rfl halive

/-- A house that has been told `inputs`, and whose clock has walked along its lots in between, is
the server after a log, and has said what the server has sent. -/
structure LiveLaw (inputs : List (Input Text Text Int Text)) (tr : List Event) (s : Server) :
    Prop where
  run : ∃ moments notices, Run House.live House.Piecemeal House.empty moments notices
    (s.house (closings tr)) ∧ moments.filterMap Moment.heard = inputs ∧ told tr = rendered notices
  onSale : (s.house (closings tr)).onSale = s.auctionsList.nodes
  owned : ∀ u ∈ s.users,
    (s.house (closings tr)).offeredBy (nameOf u.username) = u.auctionsOwned.nodes
  won : ∀ u ∈ s.users, (s.house (closings tr)).wonBy (nameOf u.username) = u.auctionsWon.nodes
  balance : ∀ u ∈ s.users,
    u.balance = wrap32 (balance (nameOf u.username) (s.house (closings tr)).deals)

theorem CallInv.live {inputs : List (Input Text Text Int Text)} {tr : List Event} {s : Server}
    (inv : CallInv tr s) (run : ∃ moments notices,
      Run House.live House.Piecemeal House.empty moments notices (s.house (closings tr)) ∧
      moments.filterMap Moment.heard = inputs ∧ told tr = rendered notices) :
    LiveLaw inputs tr s :=
  ⟨run, inv.onSale_eq, fun _ hu => inv.offeredBy_eq hu, fun _ hu => inv.wonBy_eq hu,
    fun _ hu => inv.balance_eq hu⟩

/-- The tick thread crashes when it closes a lot that is sold, and until then all is well. -/
structure UntilCrash (inputs : List (Input Text Text Int Text)) (tr : List Event)
    (s : Interleaved) : Prop where
  alive : s.tick ≠ .crashed → LiveLaw inputs tr s.server
  crashed : s.tick = .crashed → ∃ earlier out before a, tr = earlier ++ out ∧
    LiveLaw inputs earlier before ∧ a ∈ closings earlier ∧
    closeAuction before a = some (s.server, out)

theorem untilCrash_step {as : List InterleavedAction} {tr out : List Event} {s s' : Interleaved}
    {action : InterleavedAction}
    (run : Run Interleaved.step Interleaved.Attributed Interleaved.start as tr s)
    (inv : UntilCrash (as.filterMap InterleavedAction.input) tr s) (hok : s.Attributed action)
    (h : Interleaved.step s action = some (s', out)) :
    UntilCrash ((as ++ [action]).filterMap InterleavedAction.input) (tr ++ out) s' := by
  have hbefore := alive_of_step h
  have calls := callInv_run run hbefore
  have timed := (timedInv_run run).1
  have live := inv.alive hbefore
  rw [filterMap_concat]
  constructor
  · intro halive
    obtain ⟨moments, notices, hrun, hheard, htold⟩ := live.run
    obtain ⟨moments', notices', hrun', hheard', htold'⟩ :=
      house_live calls timed hok h halive
    refine (callInv_run (run.step hok h) halive).live
      ⟨moments ++ moments', notices ++ notices', hrun.trans hrun', ?_, ?_⟩
    · rw [List.filterMap_append, hheard, hheard']
    · rw [told_append, rendered_append, htold, htold']
  · intro hcrashed
    rcases interleaved_run booksInv_dateless (run.mono fun _ _ hok => hok.sponsored) with
      ⟨-, hsequential⟩ | ⟨_, _, _, _, hdead⟩
    · rcases interleaved_step booksInv_dateless hsequential hok.sponsored h with
        ⟨halive, -⟩ | ⟨a, rfl, htick, ha, -, hclose⟩
      · exact absurd hcrashed halive
      · have hlt := timed.held a (by simp [htick, TickPc.held])
        refine ⟨tr, out, s.server, a, rfl, ?_, (calls.closed.closed a).mpr ⟨hlt, ha⟩, hclose⟩
        exact (List.append_nil _).symm ▸ live
    · exact absurd hdead.tick hbefore

theorem untilCrash_run {as : List InterleavedAction} {tr : List Event} {s : Interleaved}
    (run : Run Interleaved.step Interleaved.Attributed Interleaved.start as tr s) :
    UntilCrash (as.filterMap InterleavedAction.input) tr s := by
  refine run.invariant
    (P := fun as tr s => UntilCrash (as.filterMap InterleavedAction.input) tr s) ?_
    fun run inv hok h => untilCrash_step run inv hok h
  refine ⟨fun halive => ?_, fun hcrashed => by cases hcrashed⟩
  exact (callInv_run .start halive).live ⟨[], [], .start, rfl, rfl⟩

/-- Main, the job threads and the tick thread are an auction house, whatever falls between the
steps of the tick thread, up to the close that crashes it. -/
theorem houseInterleaved_run {as : List InterleavedAction} {tr : List Event} {s : Interleaved}
    (run : Run Interleaved.step Interleaved.Attributed Interleaved.start as tr s) :
    UntilCrash (as.filterMap InterleavedAction.input) tr s := untilCrash_run run

/-- B buys the auction that the tick thread is about to close. -/
theorem houseInterleaved_run_sample :
    let sample := (exec Interleaved.step Interleaved.Attributed Interleaved.start sampleRace).get
      (by decide)
    sample.1.tick = .crashed ∧
      UntilCrash (sampleRace.filterMap InterleavedAction.input) sample.2 sample.1 :=
  ⟨by decide, houseInterleaved_run (run_of_isSome (by decide))⟩

def Program.Attributed (s : Program) (action : ProgramAction) : Prop :=
  ∀ a ∈ s.asks action, s.shared.Attributed a

instance Program.decidableAttributed (s : Program) (action : ProgramAction) :
    Decidable (s.Attributed action) := inferInstanceAs (Decidable (∀ a ∈ s.asks action, _))

/-- The first message of a connection. -/
def ProgramAction.signIn : ProgramAction → Option (Input Text Text Int Text)
  | .connect clientFd msgType body _ => Action.input (.accept clientFd msgType body)
  | _ => none

def Job.input (job : Job) : Option (Input Text Text Int Text) :=
  job.houseCall.map (.call job.clientfd)

theorem signIn_of_none {s : Program} {action : ProgramAction} (h : s.asks action = none) :
    action.signIn = none := by
  cases action <;> first | rfl | cases h

theorem signIn_of_asks {s : Program} {action : ProgramAction} {a : InterleavedAction}
    (h : s.asks action = some a) :
    a.input.toList.filter Input.signsIn = action.signIn.toList := by
  cases action with
  | connect clientFd msgType body source =>
    obtain rfl := Option.some.inj h
    have hinput : InterleavedAction.input (.accept clientFd msgType body) =
        Action.input (.accept clientFd msgType body) := rfl
    rw [hinput, ProgramAction.signIn, Action.input]
    split <;> simp [Input.signsIn]
  | process j env =>
    obtain ⟨r, -, rfl⟩ := Option.map_eq_some_iff.mp h
    have hinput : InterleavedAction.input (.job env r.job) = Job.input r.job := rfl
    rw [hinput, Job.input]
    cases r.job.houseCall <;> simp [ProgramAction.signIn, Input.signsIn]
  | startTick | age | close =>
    obtain rfl := Option.some.inj h
    rfl
  | read | sbufInsert | sbufRemove => cases h

theorem input_requested (a : InterleavedAction) :
    a.input.toList.filter (fun i => !i.signsIn) = a.requested.toList.filterMap Job.input := by
  cases a with
  | accept clientFd msgType body =>
    have hinput : InterleavedAction.input (.accept clientFd msgType body) =
        Action.input (.accept clientFd msgType body) := rfl
    rw [hinput, Action.input]
    split <;> simp [Input.signsIn, InterleavedAction.requested]
  | job env j =>
    have hinput : InterleavedAction.input (.job env j) = Job.input j := rfl
    rw [hinput, InterleavedAction.requested, Job.input]
    cases h : j.houseCall <;> simp [Input.signsIn, Job.input, h]
  | startTick | age | close => rfl

/-- What main makes of a first message. -/
def Visitor.signIn (v : Visitor) : Option (Input Text Text Int Text) := v.action.signIn

def ProcessAction.signIn (action : ProcessAction) : Option (Input Text Text Int Text) :=
  action.visit.bind ProgramAction.signIn

/-- The house hears the first message of every connection, in the order in which they were
accepted, but for the one that main has yet to log in, and the requests of the clients, in the order
in which they were processed. -/
structure Housed (as : List ProcessAction) (tr : List ProgramMark) (s : Process)
    (inputs : List (Input Text Text Int Text)) : Prop where
  house : UntilCrash inputs (eventsOf tr) s.shared
  signIns : as.filterMap ProcessAction.signIn =
    inputs.filter Input.signsIn ++ (s.visitor.bind Visitor.signIn).toList
  calls : inputs.filter (fun i => !i.signsIn) =
    ((processedOf tr).map ClientJob.job).filterMap Job.input

/-- Only main signs anybody in. -/
theorem signIn_connects (bs : List ProgramAction) :
    (bs.filter ProgramAction.isConnect).filterMap ProgramAction.signIn =
      bs.filterMap ProgramAction.signIn := by
  rw [List.filterMap_filter]
  congr 1
  funext a
  cases a <;> rfl

/-- What the threads do to the data, and what the house hears of it. -/
theorem program_inputs {c : Codec Char} {null : ClientJob} {n : Int} {numJobThreads : Nat}
    {as : List ProgramAction} {tr : List ProgramMark} {s : Program}
    (run : Run (Program.step c) Program.Attributed (Program.start null n numJobThreads) as tr s) :
    ∃ bs, Run Interleaved.step Interleaved.Attributed Interleaved.start bs (eventsOf tr) s.shared ∧
      (bs.filterMap InterleavedAction.input).filter Input.signsIn =
        as.filterMap ProgramAction.signIn ∧
      (bs.filterMap InterleavedAction.input).filter (fun i => !i.signsIn) =
        ((processedOf tr).map ClientJob.job).filterMap Job.input := by
  induction run with
  | start => exact ⟨[], .start, rfl, rfl⟩
  | @step as tr s action s' out _ hok h ih =>
    obtain ⟨bs, hrun, hsignIns, hcalls⟩ := ih
    rw [filterMap_concat, eventsOf_append, processedOf_append]
    rcases program_shared h with ⟨hnone, hshared, hquiet, hprocessed⟩ | ⟨a, hasks, hstep, hjobs⟩
    · refine ⟨bs, ?_, ?_, ?_⟩
      · rw [hshared, hquiet, List.append_nil]
        exact hrun
      · rw [hsignIns, signIn_of_none hnone, Option.toList_none, List.append_nil]
      · rw [hcalls, hprocessed, List.append_nil]
    · refine ⟨bs ++ [a], hrun.step (hok a hasks) hstep, ?_, ?_⟩
      · rw [filterMap_concat, List.filter_append, hsignIns, signIn_of_asks hasks]
      · rw [filterMap_concat, List.filter_append, hcalls, input_requested, List.map_append, hjobs,
          List.filterMap_append]

/-- The whole program is an auction house, under every interleaving of its threads. -/
theorem houseProcess_run (c : Codec Char) (n : Int) (numJobThreads : Nat)
    {as : List ProcessAction} {tr : List ProgramMark} {s : Process}
    (run : Run (Process.step c) (Process.Allows Program.Attributed)
      (Process.start n numJobThreads) as tr s) : ∃ inputs, Housed as tr s inputs := by
  obtain ⟨cs, refined⟩ := process_refines run
  obtain ⟨bs, hrun, hsignIns, hcalls⟩ := program_inputs refined.run
  have hvisits := congrArg (List.filterMap ProgramAction.signIn) refined.visits
  rw [List.filterMap_filterMap, List.filterMap_append, signIn_connects, ← hsignIns] at hvisits
  have hpending : (s.visitor.map Visitor.action).toList.filterMap ProgramAction.signIn =
      (s.visitor.bind Visitor.signIn).toList := by
    cases s.visitor with
    | none => rfl
    | some v => cases h : v.signIn <;> simp_all [Visitor.signIn]
  exact ⟨_, untilCrash_run hrun, hvisits.trans (by rw [hpending]), hcalls⟩

theorem houseProcess_run_sample :
    let sample := (exec (Process.step petrHeader) (Process.Allows Program.Attributed)
      (Process.start 8 2) sampleProcess).get (by decide +kernel)
    (sample.1.shared.server.house (closings (eventsOf sample.2))).deals =
        [⟨['A'], some ['B'], 9⟩] ∧
      ∃ inputs, Housed sampleProcess sample.2 sample.1 inputs :=
  ⟨by decide +kernel, houseProcess_run petrHeader 8 2 (run_of_isSome (by decide +kernel))⟩

end ZBid
