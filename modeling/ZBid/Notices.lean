import ZBid.Answers
import ZBid.Refusals
import ZBid.Sessions

/-!
# Who is told

Two functions write to the watchers of an auction, `updateAuction` after a bid and `closeAuction`
at the end, and both look the descriptors up by name when they send. A watcher is told of every bid
and of the close, wherever his record points at that moment, and whether or not he is logged in.
-/
namespace ZBid

open CInt CString Runs

/-- The types that go to the watchers of an auction. -/
def MsgType.isNotice : MsgType → Bool
  | .ANUPDATE | .ANCLOSED => true
  | _ => false

/-- The auction on which a bid is accepted. -/
def BidExit.accepts : BidExit → Option Nat
  | .buyNow a | .highest a => some a
  | _ => none

/-- The auction whose watchers a step tells: the one of an accepted bid, or the one that a tick
closes. -/
def Server.announces (s : Server) : Action → Option Nat
  | .accept _ _ _ => none
  | .tick => s.nextClose
  | .job _ job =>
    match MsgType.ofCode job.jobMsgType with
    | some .ANBID => do
      let (auctionId, bid) ← anbidArgs (cstr job.jobBuffer)
      let user ← findUsername s job.clientfd
      (← bidExit s user.username auctionId bid).accepts
    | _ => none

/-- Only messages, and no notice among them. -/
def NoNotice (out : List Event) : Prop := ∀ e ∈ out, ∃ m, e = .sent m ∧ m.msgType.isNotice = false

theorem noNotice_nil : NoNotice [] := by simp [NoNotice]

theorem noNotice_answer (fd : Int) {t : MsgType} (h : t.isNotice = false) :
    NoNotice [answer fd t] := fun _ he => ⟨_, List.mem_singleton.mp he, h⟩

/-- Only ANBID makes a job write to others. -/
theorem Replied.noNotice {s s' : Server} {fd : Int} {out : List Event}
    (h : Replied s fd s' out) : NoNotice out := by
  have hreply : ∀ t : MsgType, t.isReply = true → t.isNotice = false := by
    intro t
    cases t <;> simp [MsgType.isReply, MsgType.isNotice]
  have herror : ∀ t : MsgType, t.isError = true → t.isNotice = false := by
    intro t
    cases t <;> simp [MsgType.isError, MsgType.isNotice]
  cases h with
  | silent hout => exact hout ▸ noNotice_nil
  | served m hm hout =>
    rw [hout]
    exact fun e he => ⟨m, List.mem_singleton.mp he, hreply _ hm⟩
  | refused t ht hout => exact hout ▸ noNotice_answer fd (herror t ht)

theorem accept_noNotice {s s' : Server} {fd : Int} {msgType : Nat} {body : List Char}
    {out : List Event} {started : Bool} (h : AcceptOutcome s fd msgType body s' out started) :
    NoNotice out := by
  cases h with
  | noLogin => exact noNotice_nil
  | _ => exact noNotice_answer fd rfl

/-- The ways in which a step tells anybody anything that he has not asked for. The descriptors are
those of the watchers' records before the step. -/
inductive Announces (s : Server) : Action → Server → List Event → Prop where
  | nothing {action s' out} : s.announces action = none → NoNotice out → Announces s action s' out
  | raise {env job} (a : Nat) (x : Auction) (user : User) (bid : Int) (name : CharPtr)
      (fds : List Int) :
      s.announces (.job env job) = some a → s.auctions[a]? = some x →
      findUsername s job.clientfd = some user → user.username = some name →
      FdsOf s.users x.watchers.nodes fds →
      Announces s (.job env job) (s.setAuction a (x.withBid user.username bid))
        (.accepted a user.username bid ::
          fds.map (fun fd =>
            message fd .ANUPDATE (updateBody (x.withBid user.username bid) name)) ++
          [answer job.clientfd .OK])
  | close {action s'} (a : Nat) (x y : Auction) (before values : List Event) (fds : List Int) :
      s.announces action = some a → s.auctions[a]? = some x → s'.auctions[a]? = some y →
      y.watchers = x.watchers → s.Knows x.creator → FdsOf s.users x.watchers.nodes fds →
      (∀ e ∈ before, ∃ bidder amount, e = .accepted a bidder amount) →
      (∀ e ∈ values, ∃ v, e = .debited a v ∨ e = .credited a v) →
      Announces s action s' (before ++ .closed a :: values ++
        fds.map (fun fd => message fd .ANCLOSED (closedBody y)))

theorem raiseAuction_announces {s s' : Server} {env : JobEnv} {job : Job} {user : User} {bid : Int}
    {a : Nat} {x : Auction} {out : List Event} (inv : ReachInv s)
    (hannounces : s.announces (.job env job) = some a) (hx : s.auctions[a]? = some x)
    (huser : findUsername s job.clientfd = some user)
    (h : raiseAuction s job.clientfd user.username bid a = some (s', out)) :
    Announces s (.job env job) s' out := by
  have hset := setBid_eq hx user.username bid
  have users : UserInv (s.setAuction a (x.withBid user.username bid)) :=
    inv.users.of_users rfl rfl rfl
  simp only [raiseAuction, hset, setAuction_get _ hx, updateAuction, Option.bind_eq_bind,
    Option.bind_some, Option.bind_eq_some_iff, Option.some.injEq, Prod.mk.injEq] at h
  obtain ⟨notices, ⟨name, hname, body, hbody, fds, hfds, rfl⟩, rfl, rfl⟩ := h
  have hof := watcherFds_spec users (inv.guests a x hx).watchers hfds
  rw [fits_eq_some hbody, hof.sendable users]
  exact .raise a x user bid name fds hannounces hx huser hname hof

theorem buyAuction_announces {s s' : Server} {action : Action} {username : CharStar} {bid : Int}
    {a : Nat} {x : Auction} {out : List Event} (inv : ReachInv s)
    (hannounces : s.announces action = some a) (hmem : a ∈ s.auctionsList.nodes)
    (hx : s.auctions[a]? = some x) (h : buyAuction s username bid a = some (s', out)) :
    Announces s action s' out := by
  have hset := setBid_eq hx username bid
  have users : UserInv (s.setAuction a (x.withBid username bid)) :=
    inv.users.of_users rfl rfl rfl
  simp only [buyAuction, hset, Option.bind_eq_bind, Option.bind_some, Option.bind_eq_some_iff,
    Option.some.injEq, Prod.mk.injEq] at h
  obtain ⟨⟨s₁, closed⟩, hclose, s₂, hunlink, rfl, rfl⟩ := h
  obtain ⟨values, fds, rfl, hvalues, hof⟩ := closeAuction_log (x := x.withBid username bid) users
    (inv.guests a x hx).watchers (setAuction_get _ hx) hclose
  have hknows := knows_of_close (setAuction_get _ hx) hclose
  obtain ⟨us, -, -, rfl⟩ := buy_outcome inv.store.toListInv hmem hx hclose hunlink
  exact .close a x (x.withBid username bid) [.accepted a username bid] values fds hannounces hx
    (setAuction_get _ hx) rfl hknows hof (by simp) hvalues

theorem tick_announces {s s' : Server} {out : List Event} (inv : ReachInv s)
    (h : tickBody s = some (s', out)) : Announces s .tick s' out := by
  cases tick_outcome inv.store.toListInv h with
  | quiet hall => exact .nothing (nextClose_eq_none hall) noNotice_nil
  | expire pre a post x us out hnodes hx hzero hpre hclose _ =>
    have hmem : a ∈ pre ++ [a] := by simp
    have users : UserInv (s.ticked.aged (pre ++ [a])) :=
      inv.users.of_users rfl rfl rfl
    obtain ⟨values, fds, rfl, hvalues, hof⟩ := closeAuction_log (x := x.older) users
      (inv.guests a x hx).watchers (aged_get_mem hmem hx) hclose
    have hknows := knows_of_close (aged_get_mem hmem hx) hclose
    exact .close a x x.older [] values fds (nextClose_eq_some hnodes hx hzero hpre) hx
      (aged_get_mem hmem hx) rfl hknows hof (by simp) hvalues

theorem step_announces {s s' : Server} {action : Action} {out : List Event} (inv : ReachInv s)
    (h : Server.step s action = some (s', out)) : Announces s action s' out := by
  cases action with
  | accept fd msgType body =>
    obtain ⟨_, hacc⟩ := step_accept h
    exact .nothing rfl (accept_noNotice hacc)
  | tick => exact tick_announces inv h
  | job env job =>
    by_cases htype : MsgType.ofCode job.jobMsgType = some .ANBID
    · simp only [Server.step, processJob, htype, bidAuction, Option.bind_eq_bind,
        Option.bind_eq_some_iff] at h
      obtain ⟨⟨auctionId, bid⟩, hargs, user, huser, exit, hexit, h⟩ := h
      have hannounces : s.announces (.job env job) = exit.accepts := by
        simp only [Server.announces, htype, hargs, huser, hexit, Option.bind_eq_bind,
          Option.bind_some]
      have hrefused : ∀ t : MsgType, t.isNotice = false → s.announces (.job env job) = none →
          some (s, [answer job.clientfd t]) = some (s', out) →
          Announces s (.job env job) s' out := by
        intro t ht hnone h
        obtain ⟨-, rfl⟩ := Prod.mk.inj (Option.some.inj h)
        exact .nothing hnone (noNotice_answer job.clientfd ht)
      rcases bidExit_spec hexit with hnot | ⟨a, x, hmem, hx, -, -, -, hkind⟩
      · cases exit with
        | emptyList => exact hrefused .EANNOTFOUND rfl hannounces h
        | noMatch =>
          obtain ⟨-, rfl⟩ := Prod.mk.inj (Option.some.inj h)
          exact .nothing hannounces noNotice_nil
        | creator => exact hrefused .EANDENIED rfl hannounces h
        | notWatching => exact hrefused .EANDENIED rfl hannounces h
        | low => exact hrefused .EBIDLOW rfl hannounces h
        | buyNow a => exact absurd rfl (hnot a).1
        | highest a => exact absurd rfl (hnot a).2
      · rcases hkind with ⟨rfl, -⟩ | ⟨rfl, -⟩
        · exact buyAuction_announces inv hannounces hmem hx h
        · exact raiseAuction_announces inv hannounces hx huser h
    · refine .nothing ?_ (processJob_replied htype h).noNotice
      simp only [Server.announces]

/-- An ANLEAVE of the user with the name, for the auction with the id. -/
def Leaves (s : Server) (name : CharStar) (id : Int) : Action → Prop
  | .job _ job => MsgType.ofCode job.jobMsgType = some .ANLEAVE ∧ atoi (cstr job.jobBuffer) = id ∧
      ∃ user ∈ findUsername s job.clientfd, user.username = name
  | _ => False

instance Server.decidableLeaves (s : Server) (name : CharStar) (id : Int) :
    ∀ action, Decidable (Leaves s name id action)
  | .job _ job => inferInstanceAs (Decidable (_ ∧ _ ∧
      ∃ user ∈ findUsername s job.clientfd, user.username = name))
  | .accept _ _ _ => inferInstanceAs (Decidable False)
  | .tick => inferInstanceAs (Decidable False)

/-- Any step of a sequential run but the user's own ANLEAVE. -/
def Staying (name : CharStar) (id : Int) (s : Server) (action : Action) : Prop :=
  s.Admits Anyone action ∧ ¬ Leaves s name id action

instance (name : CharStar) (id : Int) (s : Server) (action : Action) :
    Decidable (Staying name id s action) := inferInstanceAs (Decidable (_ ∧ ¬ _))

/-- What a step tells the user with the name about the auction, wherever his record points. The
final word comes with the record that the auction keeps. -/
structure Told (s : Server) (name : CharStar) (a : Nat) (s' : Server) (out : List Event) :
    Prop where
  bid : ∀ bidder amount, .accepted a bidder amount ∈ out → .closed a ∉ out →
    ∃ x w, s.auctions[a]? = some x ∧ bidder = some w ∧
      ∀ u ∈ s.users, u.username = name → message u.fd .ANUPDATE (sprintfD x.id ++ crlf ++ x.name ++
        crlf ++ w.text ++ crlf ++ sprintfD amount) ∈ out
  close : .closed a ∈ out → ∃ y, s'.auctions[a]? = some y ∧
    ∀ u ∈ s.users, u.username = name → message u.fd .ANCLOSED (closedBody y) ∈ out
  recorded : s'.Names name
  listed : ∀ w, name = some w → ∃ y, s'.auctions[a]? = some y ∧ w ∈ y.watchers.nodes

/-- The user is recorded, and if he has a name it is on the watchers list. -/
structure OnList (name : CharStar) (a : Nat) (s : Server) : Prop where
  reach : ReachInv s
  recorded : s.Names name
  listed : ∀ w, name = some w → ∃ x, s.auctions[a]? = some x ∧ w ∈ x.watchers.nodes

/-- Only his own ANLEAVE takes a user off a watchers list. -/
theorem watchers_stay {s : Server} {action : Action} {k : Nat} {x y : Auction} {w : CharPtr}
    (inv : ReachInv s) (hx : s.auctions[k]? = some x) (hw : w ∈ x.watchers.nodes)
    (hstay : ¬ Leaves s (some w) x.id action) (h : RecordChange s action k x y) :
    w ∈ y.watchers.nodes := by
  have wf := (inv.store.records k x hx).watchers
  cases h with
  | watched user watchers _ _ _ _ hins =>
    cases hname : user.username with
    | none =>
      rw [hname, insertAtTail_null, Option.some.injEq] at hins
      exact hins ▸ hw
    | some v =>
      rw [Auction.withWatchers, (insertAtTail_spec wf (hname ▸ hins)).1]
      exact List.mem_append_left _ hw
  | left user index removed watchers htype hid _ huser hindex hrem =>
    obtain ⟨j, v, hv, hcmp, hnodes⟩ := leave_spec wf hindex hrem
    rw [Auction.withWatchers, hnodes]
    -- The entry found belongs to the user who leaves, so it is another one than `w`.
    have hne : v ≠ w := by
      rintro rfl
      obtain ⟨u, hu, huv⟩ := (inv.guests k x hx).watchers v (List.mem_of_getElem? hv)
      have hsame := inv.users.cmp_inj (findUsername_spec huser).1 hu (huv ▸ hcmp)
      exact hstay ⟨htype, hid.symm, user, huser, hsame ▸ huv⟩
    obtain ⟨i, hi⟩ := List.getElem?_of_mem hw
    refine List.mem_eraseIdx_iff_getElem?.mpr ⟨i, ?_, hi⟩
    rintro rfl
    exact hne (Option.some.inj (hv.symm.trans hi))
  | _ => exact hw

theorem onList_step {name : CharStar} {a : Nat} {s s' : Server} {action : Action}
    {out : List Event} (inv : OnList name a s) (hok : Staying name (a + 1) s action)
    (h : Effect s action s' out) : OnList name a s' where
  reach := reachInv_step inv.reach hok.1 h
  recorded := Names.mono (effect_names inv.reach.users h) inv.recorded
  listed := by
    rintro w rfl
    obtain ⟨x, hx, hw⟩ := inv.listed w rfl
    have hid := inv.reach.store.ids a x hx
    have hlt : a < s'.auctions.length :=
      (List.getElem?_eq_some_iff.mp hx).1.trans_le
        (effect_list inv.reach.store.toListInv h).length_le
    obtain ⟨y, hy⟩ : ∃ y, s'.auctions[a]? = some y := ⟨_, List.getElem?_eq_getElem hlt⟩
    rcases effect_record inv.reach.store.toListInv h hy with ⟨z, hz, hchange⟩ | ⟨hnew, -⟩
    · obtain rfl : x = z := Option.some.inj (hx.symm.trans hz)
      exact ⟨y, hy, watchers_stay inv.reach hx hw (hid ▸ hok.2) hchange⟩
    · rw [hnew] at hx
      simp at hx

/-- The user's descriptor is among those that a notice goes to. As soon as anybody has a name he
has one too. -/
theorem OnList.fd_mem {name : CharStar} {a : Nat} {s : Server} (inv : OnList name a s)
    {x : Auction} (hx : s.auctions[a]? = some x) {fds : List Int}
    (hof : FdsOf s.users x.watchers.nodes fds) {v : User} (hv : v ∈ s.users)
    (hnamed : v.username ≠ none) : ∀ u ∈ s.users, u.username = name → u.fd ∈ fds := by
  intro u hu hname
  obtain ⟨w, hw⟩ := Option.ne_none_iff_exists'.mp (inv.reach.named hv hnamed u hu)
  obtain ⟨y, hy, hmem⟩ := inv.listed w (hname ▸ hw)
  obtain rfl : x = y := Option.some.inj (hx.symm.trans hy)
  obtain ⟨fd, hfd, u', hu', hname', rfl⟩ := hof.mem_left hmem
  rw [inv.reach.users.name_inj hu hu' (by rw [hw, hname'])]
  exact hfd

theorem OnList.told_bid {name : CharStar} {a : Nat} {s s' : Server} {action : Action}
    {out : List Event} (inv : OnList name a s) (h : Announces s action s' out) {bidder : CharStar}
    {amount : Int} (hacc : .accepted a bidder amount ∈ out) (hopen : .closed a ∉ out) :
    ∃ x w, s.auctions[a]? = some x ∧ bidder = some w ∧
      ∀ u ∈ s.users, u.username = name → message u.fd .ANUPDATE (sprintfD x.id ++ crlf ++ x.name ++
        crlf ++ w.text ++ crlf ++ sprintfD amount) ∈ out := by
  cases h with
  | nothing _ hout =>
    obtain ⟨m, hm, -⟩ := hout _ hacc
    cases hm
  | raise b x user bid w fds _ hx huser hname hof =>
    obtain ⟨rfl, rfl, rfl⟩ : a = b ∧ bidder = user.username ∧ amount = bid := by
      simpa [message, answer] using hacc
    refine ⟨x, w, hx, hname, fun u hu hu' => ?_⟩
    have hfd := inv.fd_mem hx hof (findUsername_spec huser).1 (by simp [hname]) u hu hu'
    exact List.mem_append_left _ (List.mem_cons_of_mem _ (List.mem_map.mpr ⟨u.fd, hfd, rfl⟩))
  | close b x y before values fds _ _ _ _ _ _ hbefore hvalues =>
    have hcases : .accepted a bidder amount ∈ before ∨ .accepted a bidder amount ∈ values := by
      simpa [message] using hacc
    rcases hcases with hacc | hacc
    · obtain ⟨_, _, he⟩ := hbefore _ hacc
      cases he
      simp at hopen
    · obtain ⟨v, he | he⟩ := hvalues _ hacc <;> cases he

theorem OnList.told_close {name : CharStar} {a : Nat} {s s' : Server} {action : Action}
    {out : List Event} (inv : OnList name a s) (h : Announces s action s' out)
    (hclosed : .closed a ∈ out) : ∃ y, s'.auctions[a]? = some y ∧
      ∀ u ∈ s.users, u.username = name → message u.fd .ANCLOSED (closedBody y) ∈ out := by
  cases h with
  | nothing _ hout =>
    obtain ⟨m, hm, -⟩ := hout _ hclosed
    cases hm
  | raise b x user bid w fds => simp [message, answer] at hclosed
  | close b x y before values fds _ hx hy _ hknows hof hbefore hvalues =>
    have hcases : .closed a ∈ before ∨ a = b ∨ .closed a ∈ values := by
      simpa [message] using hclosed
    rcases hcases with hmem | rfl | hmem
    · obtain ⟨_, _, he⟩ := hbefore _ hmem
      cases he
    · obtain ⟨v, hv, hcmp⟩ := hknows
      obtain ⟨p, q, -, hq, -⟩ := strcmpEq_true hcmp
      refine ⟨y, hy, fun u hu hu' => ?_⟩
      have hfd := inv.fd_mem hx hof hv (by simp [hq]) u hu hu'
      exact List.mem_append_right _ (List.mem_map.mpr ⟨u.fd, hfd, rfl⟩)
    · obtain ⟨v, he | he⟩ := hvalues _ hmem <;> cases he

/-- An ANWATCH that is answered puts the user on the list. -/
theorem onList_watch {s s' : Server} {env : JobEnv} {job : Job} {out : List Event} {user : User}
    {a : Nat} {x : Auction} {body : Text} (inv : ReachInv s)
    (htype : MsgType.ofCode job.jobMsgType = some .ANWATCH)
    (huser : findUsername s job.clientfd = some user) (hx : s.auctions[a]? = some x)
    (hid : x.id = atoi (cstr job.jobBuffer))
    (h : Server.step s (.job env job) = some (s', out))
    (hanswer : message job.clientfd .ANWATCH body ∈ out) : OnList user.username a s' := by
  have heffect := step_effect h
  have hok : s.Admits Anyone (.job env job) := trivial
  have hreach := reachInv_step inv hok heffect
  have hrecorded : s'.Names user.username := Names.mono (effect_names inv.users heffect)
    ⟨user, (findUsername_spec huser).1, rfl⟩
  refine ⟨hreach, hrecorded, fun w hw => ?_⟩
  simp only [Server.step, processJob, htype, watchAuction, Option.bind_eq_bind,
    Option.bind_eq_some_iff] at h
  obtain ⟨found, hfound, h⟩ := h
  cases found with
  | none =>
    obtain ⟨-, rfl⟩ := Prod.mk.inj (Option.some.inj h)
    simp [message, answer] at hanswer
  | some b =>
    obtain ⟨-, z, hz, hzid⟩ := findById_some hfound
    obtain rfl : b = a := by
      have hb := inv.store.ids b z hz
      have ha := inv.store.ids a x hx
      omega
    obtain rfl : x = z := Option.some.inj (hx.symm.trans hz)
    simp only [hx, huser, Option.bind_some, Option.bind_eq_some_iff, Option.some.injEq,
      Prod.mk.injEq] at h
    obtain ⟨watchers, hins, body', -, rfl, -⟩ := h
    refine ⟨_, setAuction_get _ hx, ?_⟩
    rw [hw] at hins
    simp [(insertAtTail_spec (inv.store.records b x hx).watchers hins).1]

/-- No notification is lost: from the answer to an ANWATCH on, up to an ANLEAVE of the same user
for the same auction, every step tells him what it does to the auction. -/
theorem told_run {before : List Action} {tr : List Event} {s₀ s₁ s s' : Server}
    (reached : Run Server.step (Server.Admits Anyone) Server.start before tr s₀) {env : JobEnv}
    {job : Job} {user : User} {a : Nat} {x : Auction} {body : Text} {out : List Event}
    (htype : MsgType.ofCode job.jobMsgType = some .ANWATCH)
    (huser : findUsername s₀ job.clientfd = some user) (hx : s₀.auctions[a]? = some x)
    (hid : x.id = atoi (cstr job.jobBuffer))
    (hwatch : Server.step s₀ (.job env job) = some (s₁, out))
    (hanswer : message job.clientfd .ANWATCH body ∈ out) {as : List Action} {tr' : List Event}
    (since : Run Server.step (Staying user.username x.id) s₁ as tr' s) {action : Action}
    {out' : List Event} (hok : Staying user.username x.id s action)
    (hs : Server.step s action = some (s', out')) : Told s user.username a s' out' := by
  have inv := reachInv_run reached
  rw [inv.store.ids a x hx] at since hok
  have hlist : OnList user.username a s :=
    since.invariant_state (onList_watch inv htype huser hx hid hwatch hanswer)
      fun hlist hok hs => onList_step hlist hok (step_effect hs)
  have hannounces := step_announces hlist.reach hs
  have hlist' := onList_step hlist hok (step_effect hs)
  exact ⟨fun _ _ => hlist.told_bid hannounces, hlist.told_close hannounces, hlist'.recorded,
    hlist'.listed⟩

/-- A has an auction of three ticks, and B and C are logged in. -/
def sampleOffer : List Action :=
  sampleLogins ++ [.accept 6 MsgType.LOGIN.code ['C', '\r', '\n', 'z'],
    sampleJob .ANCREATE 4 ['V', '\r', '\n', '3', '\r', '\n', '5', '0']]

def sampleOffered : Server :=
  ((exec Server.step (Server.Admits Anyone) Server.start sampleOffer).get (by decide)).1

def sampleWatch : Job := ⟨['1'], MsgType.ANWATCH.code, 5⟩

def sampleWatched : Server :=
  ((Server.step sampleOffered (.job ⟨sampleMalloc, []⟩ sampleWatch)).get (by decide)).1

/-- C watches too, and B logs out and in again on descriptor 7. -/
def sampleReturn : List Action :=
  [sampleJob .ANWATCH 6 ['1'], sampleJob .LOGOUT 5 [],
    .accept 7 MsgType.LOGIN.code ['B', '\r', '\n', 'y']]

def sampleReturned : Server :=
  ((exec Server.step (Staying (some ⟨1, ['B']⟩) 1) sampleWatched sampleReturn).get (by decide)).1

def sampleRaised : Server × List Event :=
  (Server.step sampleReturned (sampleJob .ANBID 6 ['1', '\r', '\n', '9'])).get (by decide)

/-- B is told of C's bid. -/
theorem told_run_sample :
    Told sampleReturned (some ⟨1, ['B']⟩) 0 sampleRaised.1 sampleRaised.2 := by
  let x : Auction := ⟨1, ['V'], 3, 50, 1, 0, none, some ⟨0, ['A']⟩, ⟨[], 0⟩, 0⟩
  let user : User := ⟨some ⟨1, ['B']⟩, some ⟨1, ['y']⟩, true, 0, 5, ⟨[], 0⟩, ⟨[], 0⟩⟩
  have reached : Run Server.step (Server.Admits Anyone) Server.start sampleOffer _ sampleOffered :=
    run_of_isSome (by decide)
  have huser : findUsername sampleOffered sampleWatch.clientfd = some user := by decide
  have hx : sampleOffered.auctions[0]? = some x := by decide
  have hid : x.id = atoi (cstr sampleWatch.jobBuffer) := by decide
  have hwatch : Server.step sampleOffered (.job ⟨sampleMalloc, []⟩ sampleWatch) =
      some (sampleWatched, [message 5 .ANWATCH ['V', '\r', '\n', '5', '0']]) := by decide
  have since : Run Server.step (Staying user.username x.id) sampleWatched sampleReturn _
      sampleReturned := run_of_isSome (by decide)
  have hok : Staying user.username x.id sampleReturned
      (sampleJob .ANBID 6 ['1', '\r', '\n', '9']) := by decide
  exact told_run reached rfl huser hx hid hwatch (List.mem_singleton_self _) since hok
    (Option.some_get (by decide)).symm

/-- Every watcher of the auction that a step tells of is logged in. -/
def Attended (s : Server) (action : Action) : Prop :=
  ∀ a ∈ s.announces action, ∀ x ∈ s.auctions[a]?, ∀ w ∈ x.watchers.nodes, ∀ u ∈ s.users,
    u.username = some w → u.loginFlag = true

instance (s : Server) (action : Action) : Decidable (Attended s action) :=
  inferInstanceAs (Decidable (∀ a ∈ s.announces action, ∀ x ∈ s.auctions[a]?, _))

def Attending (s : Server) (action : Action) : Prop := s.Admits Anyone action ∧ Attended s action

instance (s : Server) (action : Action) : Decidable (Attending s action) :=
  inferInstanceAs (Decidable (_ ∧ _))

/-- The descriptors of a watchers list are those of logged-in users exactly when all the watchers
are logged in. -/
theorem FdsOf.loggedIn_iff {s : Server} (users : UserInv s) {ws : List CharPtr} {fds : List Int}
    (h : FdsOf s.users ws fds) : (∀ fd ∈ fds, LoggedIn s fd) ↔
      ∀ w ∈ ws, ∀ u ∈ s.users, u.username = some w → u.loginFlag = true := by
  constructor
  · intro hall w hw u hu hname
    obtain ⟨fd, hfd, u', hu', hname', rfl⟩ := h.mem_left hw
    obtain rfl := users.name_inj hu hu' (by rw [hname, hname'])
    obtain ⟨v, hv, hvfd, hflag⟩ := hall _ hfd
    rwa [users.fd_inj hu hv hvfd.symm]
  · intro hall fd hfd
    obtain ⟨w, hw, u, hu, hname, rfl⟩ := h.mem_right fd hfd
    exact ⟨u, hu, rfl, hall w hw u hu hname⟩

/-- In a log, the notices to a list of descriptors behind events that are none. -/
theorem forall_notice {P : Int → Prop} (before after : List Event) {t : MsgType} {body : Text}
    {fds : List Int} (ht : t.isNotice = true)
    (hbefore : ∀ m, .sent m ∈ before → m.msgType.isNotice = false)
    (hafter : ∀ m, .sent m ∈ after → m.msgType.isNotice = false) :
    (∀ m, .sent m ∈ before ++ fds.map (fun fd => message fd t body) ++ after →
      m.msgType.isNotice = true → P m.fd) ↔ ∀ fd ∈ fds, P fd := by
  constructor
  · intro h fd hfd
    have hmem : message fd t body ∈ before ++ fds.map (fun fd => message fd t body) ++ after :=
      List.mem_append_left _ (List.mem_append_right _ (List.mem_map.mpr ⟨fd, hfd, rfl⟩))
    exact h _ hmem ht
  · intro h m hm hnotice
    rw [List.mem_append, List.mem_append] at hm
    rcases hm with (hm | hm) | hm
    · simp [hbefore m hm] at hnotice
    · obtain ⟨fd, hfd, heq⟩ := List.mem_map.mp hm
      obtain rfl := Event.sent.inj heq
      exact h fd hfd
    · simp [hafter m hm] at hnotice

/-- A step writes its notices to logged-in users exactly when all watchers are. -/
theorem Announces.loggedIn_iff {s s' : Server} {action : Action} {out : List Event}
    (users : UserInv s) (h : Announces s action s' out) :
    (∀ m, .sent m ∈ out → m.msgType.isNotice = true → LoggedIn s m.fd) ↔ Attended s action := by
  have hattended : ∀ a x, s.announces action = some a → s.auctions[a]? = some x →
      (Attended s action ↔ ∀ w ∈ x.watchers.nodes, ∀ u ∈ s.users, u.username = some w →
        u.loginFlag = true) := by
    intro a x ha hx
    simp [Attended, ha, hx]
  cases h with
  | nothing hnone hout =>
    refine iff_of_true ?_ (by simp [Attended, hnone])
    intro m hm hnotice
    obtain ⟨m', he, hno⟩ := hout _ hm
    obtain rfl := Event.sent.inj he
    simp [hno] at hnotice
  | @raise env job a x user bid name fds ha hx huser hname hof =>
    rw [hattended a x ha hx, ← hof.loggedIn_iff users]
    refine forall_notice [.accepted a user.username bid] [answer job.clientfd .OK] rfl (by simp) ?_
    simp [answer, MsgType.isNotice]
  | close a x y before values fds ha hx hy hwatchers _ hof hbefore hvalues =>
    rw [hattended a x ha hx, ← hof.loggedIn_iff users]
    rw [← List.append_nil (before ++ .closed a :: values ++ _)]
    refine forall_notice (before ++ .closed a :: values) [] rfl ?_ (by simp)
    intro m hm
    rw [List.mem_append, List.mem_cons] at hm
    rcases hm with hm | hm | hm
    · obtain ⟨_, _, he⟩ := hbefore _ hm
      cases he
    · cases hm
    · obtain ⟨v, he | he⟩ := hvalues _ hm <;> cases he

/-- No step but a LOGIN on it makes a descriptor that of a logged-in user, and `accept` does not
return one that is still open. -/
theorem loggedIn_of_step {s s' : Server} {action : Action} {out : List Event} {fd : Int}
    (users : UserInv s) (hok : s.Admits Anyone action) (h : Effect s action s' out)
    (hopen : fd ∈ s.openFds) (hin : LoggedIn s' fd) : LoggedIn s fd := by
  cases h with
  | @accept fd' _ body _ _ _ hacc =>
    have hne : fd' ≠ fd := fun h => hok.2.2 (h ▸ hopen)
    obtain ⟨v, hv, hfd, hflag⟩ := hin
    cases hacc with
    | again i u =>
      rcases mem_setUser hv with rfl | hv
      · exact absurd hfd hne
      · exact ⟨v, hv, hfd, hflag⟩
    | created list _ _ hins =>
      simp only [Server.users, (insertAtTail_spec users.wf hins).1, List.mem_append,
        List.mem_singleton] at hv
      rcases hv with hv | rfl
      · exact ⟨v, hv, hfd, hflag⟩
      · exact absurd hfd hne
    | _ => exact ⟨v, hv, hfd, hflag⟩
  | logout i u =>
    obtain ⟨v, hv, hfd, hflag⟩ := hin
    rcases mem_setUser hv with rfl | hv
    · cases hflag
    · exact ⟨v, hv, hfd, hflag⟩
  | create name duration price us creator list body _ _ _ _ _ _ _ _ hscan =>
    have hsame := map_eq_of_owned User.session (fun _ _ => rfl) (ownerScan_spec hscan).1
    rw [loggedIn_iff] at hin ⊢
    exact hsame ▸ hin
  | buy a x user bid s₁ _ out _ _ _ _ _ hclose hunlink =>
    obtain ⟨us, rfl, hus⟩ := closeAuction_frame hclose
    obtain ⟨list, rfl⟩ := unlinkAuction_frame hunlink
    exact hin.of_sessions (map_congr_of_map (fun d => (d.fd, d.loginFlag)) hus).symm
  | tick h =>
    obtain ⟨us, list, store, rfl, hus⟩ := tickLoop_frame h
    exact hin.of_sessions (map_congr_of_map (fun d => (d.fd, d.loginFlag)) hus).symm
  | _ => exact hin

/-- A LOGOUT that is answered leaves nobody logged in on its descriptor. -/
theorem loggedOut_of_logout {s s' : Server} {env : JobEnv} {job : Job} (inv : ReachInv s)
    (htype : MsgType.ofCode job.jobMsgType = some .LOGOUT)
    (h : Server.step s (.job env job) = some (s', [answer job.clientfd .OK])) :
    job.clientfd ∈ s'.openFds ∧ ¬ LoggedIn s' job.clientfd := by
  simp only [Server.step, processJob, htype, Option.some.injEq] at h
  rcases logout_spec s job.clientfd with ⟨hl, -⟩ | ⟨i, u, hu, hfd, hl⟩
  · cases (Prod.mk.inj (hl.symm.trans h)).2
  · obtain ⟨rfl, -⟩ := Prod.mk.inj (hl.symm.trans h)
    refine ⟨hfd ▸ inv.users.fdsOpen u (List.mem_of_getElem? hu), ?_⟩
    rintro ⟨v, hv, hvfd, hflag⟩
    obtain ⟨j, hj⟩ := List.getElem?_of_mem hv
    rw [users_setUser, List.getElem?_set] at hj
    split at hj
    · split at hj
      · obtain rfl := Option.some.inj hj
        cases hflag
      · cases hj
    · rename_i hij
      exact hij (index_inj inv.users.fds hu hj (hfd.trans hvfd.symm))

/-- What a logged-out user is spared. -/
structure LogoutLaw (s : Server) : Prop where
  told : ∀ action s' out, s.Admits Anyone action → Server.step s action = some (s', out) →
    ((∀ m, .sent m ∈ out → m.msgType.isNotice = true → LoggedIn s m.fd) ↔ Attended s action)
  logout : ∀ env job s₁ as tr s', MsgType.ofCode job.jobMsgType = some .LOGOUT →
    Server.step s (.job env job) = some (s₁, [answer job.clientfd .OK]) →
    Run Server.step Attending s₁ as tr s' →
    ∀ m, .sent m ∈ tr → m.msgType.isNotice = true → m.fd ≠ job.clientfd

/-- The notices of a step go to logged-in users if and only if every watcher of its auction is
logged in; and in a run all of whose steps are so, none goes to a connection that has logged
out. -/
theorem logoutLaw_run {as : List Action} {tr : List Event} {s : Server}
    (run : Run Server.step (Server.Admits Anyone) Server.start as tr s) : LogoutLaw s := by
  have inv := reachInv_run run
  refine ⟨fun action s' out _ hs => (step_announces inv hs).loggedIn_iff inv.users, ?_⟩
  intro env job s₁ bs tr' s' htype hlogout after
  have hok : s.Admits Anyone (.job env job) := trivial
  have hreach := reachInv_step inv hok (step_effect hlogout)
  have hall : (ReachInv s' ∧ job.clientfd ∈ s'.openFds ∧ ¬ LoggedIn s' job.clientfd) ∧
      ∀ m, .sent m ∈ tr' → m.msgType.isNotice = true → m.fd ≠ job.clientfd := by
    refine after.invariant (P := fun _ tr t => (ReachInv t ∧ job.clientfd ∈ t.openFds ∧
      ¬ LoggedIn t job.clientfd) ∧ ∀ m, .sent m ∈ tr → m.msgType.isNotice = true →
        m.fd ≠ job.clientfd) ⟨⟨hreach, loggedOut_of_logout inv htype hlogout⟩, by simp⟩ ?_
    rintro as tr t action t' out - ⟨⟨hreach, hopen, hout⟩, hquiet⟩ hok hs
    have heffect := step_effect hs
    refine ⟨⟨reachInv_step hreach hok.1 heffect, openFds_step heffect hopen,
      fun hin => hout (loggedIn_of_step hreach.users hok.1 heffect hopen hin)⟩, ?_⟩
    intro m hm hnotice hfd
    rcases List.mem_append.mp hm with hm | hm
    · exact hquiet m hm hnotice hfd
    · have hlogged := ((step_announces hreach hs).loggedIn_iff hreach.users).mpr hok.2 m hm hnotice
      exact hout (hfd ▸ hlogged)
  exact hall.2

theorem logoutLaw_run_sample : LogoutLaw sampleOffered := by
  have run : Run Server.step (Server.Admits Anyone) Server.start sampleOffer _ sampleOffered :=
    run_of_isSome (by decide)
  exact logoutLaw_run run

/-- C watches and bids. -/
def sampleOverbid : List Action :=
  [sampleJob .ANWATCH 6 ['1'], sampleJob .ANBID 6 ['1', '\r', '\n', '9']]

/-- B watches and logs out, and is told of C's bid. -/
theorem logoutLaw_fails : ¬ ∀ as tr s env job s₁ bs tr' s',
    Run Server.step (Server.Admits LoggedIn) Server.start as tr s →
    MsgType.ofCode job.jobMsgType = some .LOGOUT →
    Server.step s (.job env job) = some (s₁, [answer job.clientfd .OK]) →
    Run Server.step (Server.Admits LoggedIn) s₁ bs tr' s' →
    ∀ m, .sent m ∈ tr' → m.msgType.isNotice = true → m.fd ≠ job.clientfd := by
  intro claim
  let first := (exec Server.step (Server.Admits LoggedIn) Server.start
    (sampleOffer ++ [sampleJob .ANWATCH 5 ['1']])).get (by decide)
  let job : Job := ⟨[], MsgType.LOGOUT.code, 5⟩
  let second := (Server.step first.1 (.job ⟨sampleMalloc, []⟩ job)).get (by decide)
  let third := (exec Server.step (Server.Admits LoggedIn) second.1 sampleOverbid).get (by decide)
  have before : Run Server.step (Server.Admits LoggedIn) Server.start _ first.2 first.1 :=
    run_of_isSome (by decide)
  have after : Run Server.step (Server.Admits LoggedIn) second.1 sampleOverbid third.2 third.1 :=
    run_of_isSome (by decide)
  have hlogout : Server.step first.1 (.job ⟨sampleMalloc, []⟩ job) =
      some (second.1, [answer job.clientfd .OK]) := by decide
  let body : Text := ['1', '\r', '\n', 'V', '\r', '\n', 'C', '\r', '\n', '9']
  have htold : message 5 .ANUPDATE body ∈ third.2 := by decide
  exact claim _ _ _ _ job _ _ _ _ before rfl hlogout after _ htold rfl rfl

end ZBid
