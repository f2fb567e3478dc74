import ZBid.Lib.Decimal
import ZBid.Reachable

/-!
# The buffers of the replies

Seven functions concatenate a reply into an array of `BUFFER_SIZE` bytes, and none of them looks
at how much it writes. The length of a reply is a sum over the names and the numbers that go into
it, and past the end of the array the step has no meaning.
-/
namespace ZBid

open CInt CString Runs

/-- The records behind a list of auctions, in list order. -/
def Server.records (s : Server) (l : List Nat) : List Auction :=
  l.filterMap fun k => s.auctions[k]?

/-- The body of the answer to ANWATCH. -/
def watchBody (x : Auction) : Text := x.name ++ crlf ++ sprintfD x.binPrice

/-- A call of one of the seven functions, with what it takes its text from. -/
inductive Reply where
  | listAuctions
  | watchAuction (x : Auction)
  | updateAuction (x : Auction) (fromUsername : CharPtr)
  | closeAuction (x : Auction)
  | printUsers (stack : Text) (clientFd : Int)
  | usersWins (user : User)
  | usersSales (user : User)

/-- The text that the call concatenates. -/
def Server.build (s : Server) : Reply → Option Text
  | .listAuctions => infoLines s auctionInfo s.auctionsList.nodes
  | .watchAuction x => some (watchBody x)
  | .updateAuction x fromUsername => some (updateBody x fromUsername)
  | .closeAuction x => some (closedBody x)
  | .printUsers stack clientFd => (otherNames clientFd s.users).map (stack ++ ·)
  | .usersWins user => infoLines s usersWinsInfo user.auctionsWon.nodes
  | .usersSales user => infoLines s usersSalesInfo user.auctionsOwned.nodes

/-- The calls that a step makes. -/
inductive Builds (s : Server) : Action → Reply → Prop where
  | list {env job} : MsgType.ofCode job.jobMsgType = some .ANLIST →
      s.auctionsList.nodes ≠ [] → Builds s (.job env job) .listAuctions
  | watch {env job} (a : Nat) (x : Auction) (user : User) (watchers : LinkedList CharPtr) :
      MsgType.ofCode job.jobMsgType = some .ANWATCH →
      findById s (atoi (cstr job.jobBuffer)) s.auctionsList.nodes = some (some a) →
      s.auctions[a]? = some x → findUsername s job.clientfd = some user →
      insertAtTail x.watchers user.username = some watchers →
      Builds s (.job env job) (.watchAuction x)
  | raise {env job} (a : Nat) (x : Auction) (user : User) (name : CharPtr) (auctionId bid : Int) :
      MsgType.ofCode job.jobMsgType = some .ANBID →
      anbidArgs (cstr job.jobBuffer) = some (auctionId, bid) →
      findUsername s job.clientfd = some user → user.username = some name →
      bidExit s user.username auctionId bid = some (.highest a) → s.auctions[a]? = some x →
      Builds s (.job env job) (.updateAuction (x.withBid user.username bid) name)
  | buy {env job} (a : Nat) (x : Auction) (user : User) (auctionId bid : Int) :
      MsgType.ofCode job.jobMsgType = some .ANBID →
      anbidArgs (cstr job.jobBuffer) = some (auctionId, bid) →
      findUsername s job.clientfd = some user →
      bidExit s user.username auctionId bid = some (.buyNow a) → s.auctions[a]? = some x →
      Builds s (.job env job) (.closeAuction (x.withBid user.username bid))
  | expire (a : Nat) (x : Auction) : s.nextClose = some a → s.auctions[a]? = some x →
      Builds s .tick (.closeAuction x.older)
  | users {env job} : MsgType.ofCode job.jobMsgType = some .USRLIST →
      Builds s (.job env job) (.printUsers env.stack job.clientfd)
  | wins {env job} (user : User) : MsgType.ofCode job.jobMsgType = some .USRWINS →
      findUsername s job.clientfd = some user → user.auctionsWon.nodes ≠ [] →
      Builds s (.job env job) (.usersWins user)
  | sales {env job} (user : User) : MsgType.ofCode job.jobMsgType = some .USRSALES →
      findUsername s job.clientfd = some user → user.auctionsOwned.nodes ≠ [] →
      Builds s (.job env job) (.usersSales user)

def Auction.infoWidth (x : Auction) : Nat :=
  decimalWidth x.id + x.name.length + decimalWidth x.binPrice +
    decimalWidth x.numberOfWatchers + decimalWidth x.bid + decimalWidth x.duration + 6

def Auction.winsWidth (x : Auction) : Nat :=
  decimalWidth x.id + x.name.length + decimalWidth x.bid + 3

/-- The line of an auction without a winner says None twice. -/
def Auction.salesWidth (x : Auction) : Nat :=
  decimalWidth x.id + x.name.length +
    match x.currentWinner with
    | some winner => winner.text.length + decimalWidth x.bid + 4
    | none => 12

def Auction.closedWidth (x : Auction) : Nat :=
  decimalWidth x.id +
    match x.currentWinner with
    | some winner => winner.text.length + decimalWidth x.bid + 4
    | none => 6

def User.nameWidth (u : User) : Nat := (u.username.elim 0 fun name => name.text.length) + 1

/-- The characters of the names and the numbers in a reply, and of what stands between them. -/
def Server.width (s : Server) : Reply → Nat
  | .listAuctions => (s.listed.map Auction.infoWidth).sum
  | .watchAuction x => x.name.length + decimalWidth x.binPrice + 2
  | .updateAuction x fromUsername =>
    decimalWidth x.id + x.name.length + fromUsername.text.length + decimalWidth x.bid + 6
  | .closeAuction x => x.closedWidth
  | .printUsers stack clientFd =>
    stack.length + ((s.users.filter fun u => u.fd ≠ clientFd).map User.nameWidth).sum
  | .usersWins user => ((s.records user.auctionsWon.nodes).map Auction.winsWidth).sum
  | .usersSales user => ((s.records user.auctionsOwned.nodes).map Auction.salesWidth).sum

theorem auctionInfo_length (x : Auction) : (auctionInfo x).length = x.infoWidth := by
  simp only [auctionInfo, Auction.infoWidth, List.length_append, List.length_singleton,
    sprintfD_length]
  omega

theorem usersWinsInfo_length (x : Auction) : (usersWinsInfo x).length = x.winsWidth := by
  simp only [usersWinsInfo, Auction.winsWidth, List.length_append, List.length_singleton,
    sprintfD_length]
  omega

theorem usersSalesInfo_length (x : Auction) : (usersSalesInfo x).length = x.salesWidth := by
  cases hw : x.currentWinner with
  | none =>
    simp only [usersSalesInfo, Auction.salesWidth, hw, List.length_append, List.length_cons,
      List.length_nil, sprintfD_length]
    omega
  | some w =>
    simp only [usersSalesInfo, Auction.salesWidth, hw, List.length_append, List.length_singleton,
      sprintfD_length]
    omega

theorem crlf_length : crlf.length = 2 := rfl

theorem closedBody_length (x : Auction) : (closedBody x).length = x.closedWidth := by
  cases hw : x.currentWinner with
  | none =>
    simp only [closedBody, Auction.closedWidth, hw, List.length_append, crlf_length,
      sprintfD_length]
  | some w =>
    simp only [closedBody, Auction.closedWidth, hw, List.length_append, crlf_length,
      sprintfD_length]
    omega

theorem infoLines_length {s : Server} {info : Auction → Text} {width : Auction → Nat}
    (hinfo : ∀ x, (info x).length = width x) {l : List Nat} {t : Text}
    (h : infoLines s info l = some t) : t.length = ((s.records l).map width).sum := by
  rw [infoLines_eq h, List.length_flatMap]
  exact congrArg List.sum (List.map_congr_left fun x _ => hinfo x)

theorem otherNames_length {clientFd : Int} {us : List User} {t : Text}
    (h : otherNames clientFd us = some t) :
    t.length = ((us.filter fun u => u.fd ≠ clientFd).map User.nameWidth).sum := by
  induction us generalizing t with
  | nil =>
    simp only [otherNames, Option.some.injEq] at h
    simp [← h]
  | cons u us ih =>
    simp only [otherNames, Option.bind_eq_bind, Option.bind_eq_some_iff] at h
    obtain ⟨rest, hrest, h⟩ := h
    have hlength := ih hrest
    by_cases hfd : u.fd ≠ clientFd
    · rw [if_pos hfd, Option.bind_eq_some_iff] at h
      obtain ⟨name, hname, h⟩ := h
      simp only [Option.some.injEq] at h
      rw [List.filter_cons_of_pos (by simpa using hfd), List.map_cons, List.sum_cons, ← hlength,
        ← h]
      simp only [List.length_append, List.length_singleton, User.nameWidth, hname, Option.elim]
    · rw [if_neg hfd, Option.some.injEq] at h
      rw [List.filter_cons_of_neg (by simpa using hfd), ← hlength, h]

/-- The length of a reply is the sum of its parts. -/
theorem build_length {s : Server} {r : Reply} {t : Text} (h : s.build r = some t) :
    t.length = s.width r := by
  cases r with
  | listAuctions => exact infoLines_length auctionInfo_length h
  | watchAuction x =>
    obtain rfl := Option.some.inj h
    simp only [watchBody, Server.width, List.length_append, crlf_length, sprintfD_length]
    omega
  | updateAuction x name =>
    obtain rfl := Option.some.inj h
    simp only [updateBody, Server.width, List.length_append, crlf_length, sprintfD_length]
    omega
  | closeAuction x =>
    obtain rfl := Option.some.inj h
    exact closedBody_length x
  | printUsers stack clientFd =>
    obtain ⟨names, hnames, rfl⟩ := Option.map_eq_some_iff.mp h
    rw [List.length_append, otherNames_length hnames, Server.width]
  | usersWins user => exact infoLines_length usersWinsInfo_length h
  | usersSales user => exact infoLines_length usersSalesInfo_length h

theorem fits_lt {body t : Text} (h : fits body = some t) : body.length < bufferSize := by
  simp only [fits] at h
  split at h
  · assumption
  · cases h

theorem closeAuction_fits {s : Server} {a : Nat} {x : Auction} {result : Server × List Event}
    (hx : s.auctions[a]? = some x) (h : closeAuction s a = some result) :
    (closedBody x).length < bufferSize := by
  simp only [closeAuction, hx, Option.bind_eq_bind, Option.bind_some,
    Option.bind_eq_some_iff] at h
  obtain ⟨body, hbody, -⟩ := h
  exact fits_lt hbody

theorem report_fits {s : Server} {fd : Int} {t : MsgType} {info : Auction → Text}
    {list : LinkedList Nat} {lines : Text} {result : Server × List Event}
    (hne : list.nodes ≠ []) (hlines : infoLines s info list.nodes = some lines)
    (h : report s fd t info list = some result) : lines.length < bufferSize := by
  simp only [report, if_neg hne, hlines, Option.bind_eq_bind, Option.bind_some,
    Option.bind_eq_some_iff] at h
  obtain ⟨body, hbody, -⟩ := h
  exact fits_lt hbody

/-- A step that completes has room for every reply that it builds. -/
theorem length_lt_of_step {s : Server} {action : Action} {r : Reply} {t : Text}
    {result : Server × List Event} (list : ListInv s) (hbuilds : Builds s action r)
    (ht : s.build r = some t) (h : Server.step s action = some result) :
    t.length < bufferSize := by
  cases hbuilds with
  | list htype hne =>
    simp only [Server.step, processJob, htype] at h
    exact report_fits hne ht h
  | watch a x user watchers htype hfound hx huser hins =>
    obtain rfl := Option.some.inj ht
    simp only [Server.step, processJob, htype, watchAuction, hfound, hx, huser, hins,
      Option.bind_eq_bind, Option.bind_some, Option.bind_eq_some_iff] at h
    obtain ⟨body, hbody, -⟩ := h
    exact fits_lt hbody
  | raise a x user name auctionId bid htype hargs huser hname hexit hx =>
    obtain rfl := Option.some.inj ht
    simp only [Server.step, processJob, htype, hargs, bidAuction, huser, hexit, raiseAuction,
      Server.setBid, hx, Option.bind_eq_bind, Option.bind_some] at h
    rw [setAuction_get _ hx] at h
    simp only [updateAuction, hname, Option.bind_eq_bind, Option.bind_some,
      Option.bind_eq_some_iff] at h
    obtain ⟨out, ⟨body, hbody, -⟩, -⟩ := h
    exact hname ▸ fits_lt hbody
  | buy a x user auctionId bid htype hargs huser hexit hx =>
    obtain rfl := Option.some.inj ht
    simp only [Server.step, processJob, htype, hargs, bidAuction, huser, hexit, buyAuction,
      Server.setBid, hx, Option.bind_eq_bind, Option.bind_some, Option.bind_eq_some_iff] at h
    obtain ⟨closed, hclose, -⟩ := h
    exact closeAuction_fits (setAuction_get _ hx) hclose
  | expire a x hnext hx =>
    obtain rfl := Option.some.inj ht
    obtain ⟨s', out⟩ := result
    have hbody : tickBody s = some (s', out) := h
    cases tick_outcome list hbody with
    | quiet hall =>
      rw [nextClose_eq_none hall] at hnext
      cases hnext
    | expire pre b post y us _ hnodes hy hzero hpre hclose =>
      rw [nextClose_eq_some hnodes hy hzero hpre, Option.some.injEq] at hnext
      subst hnext
      obtain rfl : y = x := Option.some.inj (hy.symm.trans hx)
      exact closeAuction_fits (aged_get_mem (by simp) hx) hclose
  | users htype =>
    obtain ⟨names, hnames, rfl⟩ := Option.map_eq_some_iff.mp ht
    simp only [Server.step, processJob, htype, printUsers, hnames, Option.bind_eq_bind,
      Option.bind_some, Option.bind_eq_some_iff] at h
    obtain ⟨body, hbody, -⟩ := h
    exact fits_lt hbody
  | wins user htype huser hne =>
    simp only [Server.step, processJob, htype, usersWins, huser, Option.bind_eq_bind,
      Option.bind_some] at h
    exact report_fits hne ht h
  | sales user htype huser hne =>
    simp only [Server.step, processJob, htype, usersSales, huser, Option.bind_eq_bind,
      Option.bind_some] at h
    exact report_fits hne ht h

/-- A reply and its terminator fit the array exactly when the characters of the names and the
numbers that go into it leave room for them, and a step that builds a longer one has no
meaning. -/
theorem bufferLaw_run {as : List Action} {tr : List Event} {s : Server}
    (run : Run Server.step (Server.Admits Anyone) Server.start as tr s) {action : Action}
    {r : Reply} {t : Text} (hbuilds : Builds s action r) (ht : s.build r = some t) :
    (t.length + 1 ≤ bufferSize ↔ s.width r < bufferSize) ∧
    (bufferSize ≤ s.width r → Server.step s action = none) := by
  rw [build_length ht]
  refine ⟨Iff.rfl, fun hlong => ?_⟩
  rw [Option.eq_none_iff_forall_ne_some]
  intro result h
  have hlt := length_lt_of_step (reachInv_run run).store.toListInv hbuilds ht h
  rw [build_length ht] at hlt
  omega

def sampleBidder : Server :=
  ((exec Server.step (Server.Admits Anyone) Server.start sampleBid).get (by decide)).1

theorem bufferLaw_run_sample :
    (updateBody ⟨1, ['V'], 2, 50, 1, 9, some ⟨1, ['B']⟩, some ⟨0, ['A']⟩,
      ⟨[⟨1, ['B']⟩], 1⟩, 1⟩ ⟨1, ['B']⟩).length + 1 ≤ bufferSize := by
  have run : Run Server.step (Server.Admits Anyone) Server.start sampleBid _ sampleBidder :=
    run_of_isSome (by decide)
  let x : Auction := ⟨1, ['V'], 2, 50, 1, 7, some ⟨1, ['B']⟩, some ⟨0, ['A']⟩,
    ⟨[⟨1, ['B']⟩], 1⟩, 1⟩
  let user : User := ⟨some ⟨1, ['B']⟩, some ⟨1, ['y']⟩, true, 0, 5, ⟨[], 0⟩, ⟨[], 0⟩⟩
  have hbuilds : Builds sampleBidder (sampleJob .ANBID 5 ['1', '\r', '\n', '9'])
      (.updateAuction (x.withBid user.username 9) ⟨1, ['B']⟩) :=
    .raise 0 x user ⟨1, ['B']⟩ 1 9 rfl (by decide) (by decide) rfl (by decide) (by decide)
  exact (bufferLaw_run run hbuilds rfl).1.mpr (by decide)

/-- The name of an item, longer than the array. -/
def sampleName : Text := List.replicate 1024 'V'

def sampleLongName : List Action :=
  sampleLogins ++ [sampleJob .ANCREATE 4 (sampleName ++ ['\r', '\n', '3', '\r', '\n', '0'])]

def sampleLong : Server :=
  ((exec Server.step (Server.Admits LoggedIn) Server.start sampleLongName).get
    (by decide +kernel)).1

/-- An item whose name is as long as the array. -/
theorem bufferLaw_fails : ¬ ∀ as tr s action r t,
    Run Server.step (Server.Admits LoggedIn) Server.start as tr s → Builds s action r →
    s.build r = some t → t.length + 1 ≤ bufferSize := by
  intro claim
  have run : Run Server.step (Server.Admits LoggedIn) Server.start sampleLongName _ sampleLong :=
    run_of_isSome (by decide +kernel)
  let x : Auction := ⟨1, sampleName, 3, 0, 0, 0, none, some ⟨0, ['A']⟩, ⟨[], 0⟩, 0⟩
  let user : User := ⟨some ⟨1, ['B']⟩, some ⟨1, ['y']⟩, true, 0, 5, ⟨[], 0⟩, ⟨[], 0⟩⟩
  have hbuilds : Builds sampleLong (sampleJob .ANWATCH 5 ['1']) (.watchAuction x) :=
    .watch 0 x user ⟨[⟨1, ['B']⟩], 1⟩ rfl (by decide +kernel) (by decide +kernel)
      (by decide +kernel) (by decide +kernel)
  have ht : sampleLong.build (.watchAuction x) = some (watchBody x) := rfl
  have hfits := claim _ _ _ _ _ _ run hbuilds ht
  rw [build_length ht] at hfits
  exact absurd hfits (by decide +kernel)

end ZBid
