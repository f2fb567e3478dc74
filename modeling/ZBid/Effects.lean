import ZBid.HandlerSpecs

/-!
# What one step of the server can do

`Effect` lists every change a completed step can make to the globals, with the tests that led
there. Each invariant of the server is a case analysis over it.
-/
namespace ZBid

open CInt CString Runs

/-- A log of messages only: no bid accepted, no auction closed. -/
def Messages (out : List Event) : Prop := ∀ e ∈ out, ∃ m, e = .sent m

theorem messages_nil : Messages [] := by simp [Messages]

theorem messages_answer (fd : Int) (t : MsgType) : Messages [answer fd t] := by
  simp [Messages, answer]

theorem messages_message (fd : Int) (t : MsgType) (body : Text) :
    Messages [message fd t body] := by
  simp [Messages, message]

theorem messages_append {xs ys : List Event} (hx : Messages xs) (hy : Messages ys) :
    Messages (xs ++ ys) := by
  intro e he
  rcases List.mem_append.mp he with he | he
  · exact hx e he
  · exact hy e he

theorem messages_map (fds : List Int) (t : MsgType) (body : Text) :
    Messages (fds.map fun fd => message fd t body) := by
  intro e he
  obtain ⟨fd, -, rfl⟩ := List.mem_map.mp he
  exact ⟨_, rfl⟩

/-- The globals when a LOGIN has been read from a fresh connection. -/
def Server.opened (s : Server) (fd : Int) : Server :=
  { s with blocks := s.blocks + 1, openFds := fd :: s.openFds }

@[simp] theorem users_opened (s : Server) (fd : Int) : (s.opened fd).users = s.users := rfl

def loginName (s : Server) (body : List Char) : CharStar :=
  (loginArgs (cstr body)).1.map (CharPtr.mk s.blocks)

def loginPassword (s : Server) (body : List Char) : CharStar :=
  (loginArgs (cstr body)).2.map (CharPtr.mk s.blocks)

/-- A round of the accept loop; the last index tells whether a client thread was started. -/
inductive AcceptOutcome (s : Server) (fd : Int) (msgType : Nat) (body : List Char) :
    Server → List Event → Bool → Prop where
  | noLogin : msgType ≠ MsgType.LOGIN.code →
      AcceptOutcome s fd msgType body { s with openFds := fd :: s.openFds } [] true
  | already (i : Nat) (u : User) : msgType = MsgType.LOGIN.code → s.users[i]? = some u →
      strcmpEq (loginName s body) u.username = some true → u.loginFlag = true →
      AcceptOutcome s fd msgType body (s.opened fd) [answer fd .EUSRLGDIN] true
  | again (i : Nat) (u : User) : msgType = MsgType.LOGIN.code → s.users[i]? = some u →
      strcmpEq (loginName s body) u.username = some true → u.loginFlag = false →
      strcmpEq (loginPassword s body) u.password = some true →
      AcceptOutcome s fd msgType body
        ((s.opened fd).setUser i { u with loginFlag := true, fd := fd }) [answer fd .OK] true
  | wrong (i : Nat) (u : User) : msgType = MsgType.LOGIN.code → s.users[i]? = some u →
      strcmpEq (loginName s body) u.username = some true → u.loginFlag = false →
      strcmpEq (loginPassword s body) u.password = some false →
      AcceptOutcome s fd msgType body { s with blocks := s.blocks + 1 }
        [answer fd .EWRNGPWD] false
  | created (users : LinkedList User) : msgType = MsgType.LOGIN.code →
      scanByName (loginName s body) s.users = some none →
      insertAtTail s.usersList (some (newUser fd (loginName s body) (loginPassword s body))) =
        some users →
      AcceptOutcome s fd msgType body { s.opened fd with usersList := users }
        [answer fd .OK] true

theorem acceptClient_spec {s s' : Server} {fd : Int} {msgType : Nat} {body : List Char}
    {out : List Event} {started : Bool}
    (h : acceptClient s fd msgType body = some (s', out, started)) :
    AcceptOutcome s fd msgType body s' out started := by
  simp only [acceptClient] at h
  split at h
  · rename_i htype
    simp only [Option.bind_eq_bind, Option.bind_eq_some_iff] at h
    obtain ⟨⟨s₁, out₁, r⟩, hlogin, h⟩ := h
    cases login_spec hlogin with
    | already i u hu hcmp hflag =>
      simp only [show ¬ (0 : Int) = -1 by decide, ↓reduceIte, Option.some.injEq,
        Prod.mk.injEq] at h
      obtain ⟨rfl, rfl, rfl⟩ := h
      exact .already i u htype hu hcmp hflag
    | again i u hu hcmp hflag hpw =>
      simp only [show ¬ (0 : Int) = -1 by decide, ↓reduceIte, Option.some.injEq,
        Prod.mk.injEq] at h
      obtain ⟨rfl, rfl, rfl⟩ := h
      exact .again i u htype hu hcmp hflag hpw
    | wrong i u hu hcmp hflag hpw =>
      simp only [↓reduceIte, Option.some.injEq, Prod.mk.injEq] at h
      obtain ⟨rfl, rfl, rfl⟩ := h
      exact .wrong i u htype hu hcmp hflag hpw
    | created users hscan hins =>
      simp only [show ¬ (0 : Int) = -1 by decide, ↓reduceIte, Option.some.injEq,
        Prod.mk.injEq] at h
      obtain ⟨rfl, rfl, rfl⟩ := h
      exact .created users htype hscan hins
  · rename_i htype
    simp only [Option.some.injEq, Prod.mk.injEq] at h
    obtain ⟨rfl, rfl, rfl⟩ := h
    exact .noLogin htype

theorem step_accept {s s' : Server} {fd : Int} {msgType : Nat} {body : List Char}
    {out : List Event} (h : Server.step s (.accept fd msgType body) = some (s', out)) :
    ∃ started, AcceptOutcome s fd msgType body s' out started := by
  simp only [Server.step, Option.map_eq_some_iff] at h
  obtain ⟨⟨t, o, started⟩, hacc, h⟩ := h
  obtain ⟨rfl, rfl⟩ := Prod.mk.inj h
  exact ⟨started, acceptClient_spec hacc⟩

/-- The tests that every accepted bid has passed. -/
structure BidOn (s : Server) (fd : Int) (a : Nat) (auction : Auction) (user : User)
    (bid : Int) : Prop where
  bidder : findUsername s fd = some user
  mem : a ∈ s.auctionsList.nodes
  record : s.auctions[a]? = some auction
  notCreator : samePtr auction.creator user.username = false
  watching : userWatches user.username auction.watchers.nodes = some true
  range : InInt bid

/-- The record after the two assignments of an accepted bid. -/
def Auction.withBid (auction : Auction) (username : CharStar) (bid : Int) : Auction :=
  { auction with bid := bid, currentWinner := username }

def Auction.withWatchers (auction : Auction) (watchers : LinkedList CharPtr) (n : Int) : Auction :=
  { auction with numberOfWatchers := wrap32 n, watchers := watchers }

/-- The record `createAuction` fills in. -/
def newAuction (malloc : Auction) (name : Text) (duration price id : Int) (creator : CharStar) :
    Auction :=
  { malloc with
    name := name, binFlag := if price ≠ 0 then 1 else 0, binPrice := price, duration := duration,
    bid := 0, currentWinner := none, watchers := createList, id := id, creator := creator }

inductive Effect (s : Server) : Action → Server → List Event → Prop where
  | accept {fd msgType body s' out started} :
      AcceptOutcome s fd msgType body s' out started → Effect s (.accept fd msgType body) s' out
  | quiet {env job out} : Messages out → Effect s (.job env job) s out
  | logout {env job} (i : Nat) (u : User) : MsgType.ofCode job.jobMsgType = some .LOGOUT →
      s.users[i]? = some u → u.fd = job.clientfd →
      Effect s (.job env job) (s.setUser i { u with loginFlag := false })
        [answer job.clientfd .OK]
  | create {env job} (name : Text) (duration price : Int) (us : List User) (creator : CharStar)
      (list : LinkedList Nat) (body : Text) :
      MsgType.ofCode job.jobMsgType = some .ANCREATE →
      ancreateArgs (cstr job.jobBuffer) = some (name, duration, price) → name ≠ [] →
      1 ≤ duration → duration ≤ intMax → 0 ≤ price → price ≤ intMax → s.auctionID < intMax →
      ownerScan job.clientfd s.auctions.length s.users env.malloc.creator = some (us, creator) →
      insertAtTail s.auctionsList (some s.auctions.length) = some list →
      Effect s (.job env job) { s.withUsers us with
        auctionsList := list
        auctions := s.auctions ++
          [newAuction env.malloc name duration price (s.auctionID + 1) creator]
        auctionID := s.auctionID + 1 } [message job.clientfd .ANCREATE body]
  | watch {env job} (a : Nat) (auction : Auction) (user : User) (watchers : LinkedList CharPtr)
      (body : Text) :
      MsgType.ofCode job.jobMsgType = some .ANWATCH →
      auction.id = atoi (cstr job.jobBuffer) →
      a ∈ s.auctionsList.nodes → s.auctions[a]? = some auction →
      findUsername s job.clientfd = some user →
      insertAtTail auction.watchers user.username = some watchers →
      Effect s (.job env job)
        (s.setAuction a (auction.withWatchers watchers (auction.numberOfWatchers + 1)))
        [message job.clientfd .ANWATCH body]
  | leave {env job} (a : Nat) (auction : Auction) (user : User) (index : Int)
      (removed : Option CharPtr) (watchers : LinkedList CharPtr) :
      MsgType.ofCode job.jobMsgType = some .ANLEAVE →
      auction.id = atoi (cstr job.jobBuffer) →
      a ∈ s.auctionsList.nodes → s.auctions[a]? = some auction →
      findUsername s job.clientfd = some user →
      findUserIndex auction.watchers user.username = some index →
      removeByIndex auction.watchers index = some (removed, watchers) →
      Effect s (.job env job)
        (s.setAuction a (auction.withWatchers watchers (auction.numberOfWatchers - 1)))
        [answer job.clientfd .OK]
  | raise {env job} (a : Nat) (auction : Auction) (user : User) (bid : Int) (fds : List Int)
      (name : CharPtr) :
      MsgType.ofCode job.jobMsgType = some .ANBID →
      anbidArgs (cstr job.jobBuffer) = some (auction.id, bid) →
      BidOn s job.clientfd a auction user bid →
      ¬ (auction.binFlag = 1 ∧ bid > auction.binPrice) → bid > auction.bid →
      user.username = some name →
      watcherFds (s.setAuction a (auction.withBid user.username bid)) auction.watchers.nodes =
        some fds →
      Effect s (.job env job) (s.setAuction a (auction.withBid user.username bid))
        (.accepted a user.username bid ::
          (fds.filter (· ≠ -1)).map (fun fd => message fd .ANUPDATE
            (updateBody (auction.withBid user.username bid) name)) ++
          [answer job.clientfd .OK])
  | buy {env job} (a : Nat) (auction : Auction) (user : User) (bid : Int) (s₁ s' : Server)
      (out : List Event) :
      MsgType.ofCode job.jobMsgType = some .ANBID →
      anbidArgs (cstr job.jobBuffer) = some (auction.id, bid) →
      BidOn s job.clientfd a auction user bid →
      auction.binFlag = 1 → bid > auction.binPrice →
      closeAuction (s.setAuction a (auction.withBid user.username bid)) a = some (s₁, out) →
      unlinkAuction s₁ a = some s' →
      Effect s (.job env job) s' (.accepted a user.username bid :: out)
  | tick {s' out} : tickBody s = some (s', out) → Effect s .tick s' out

theorem atoi_inInt (t : Text) : InInt (atoi t) := wrap32_inInt _

theorem createAuction_effect {s s' : Server} {env : JobEnv} {job : Job} {name : Text}
    {duration price : Int} {out : List Event}
    (htype : MsgType.ofCode job.jobMsgType = some .ANCREATE)
    (hargs : ancreateArgs (cstr job.jobBuffer) = some (name, duration, price))
    (hd : duration ≤ intMax) (hp : price ≤ intMax)
    (h : createAuction s env.malloc job.clientfd name duration price = some (s', out)) :
    Effect s (.job env job) s' out := by
  simp only [createAuction] at h
  split at h
  · simp only [Option.some.injEq, Prod.mk.injEq] at h
    obtain ⟨rfl, rfl⟩ := h
    exact .quiet (messages_answer _ _)
  rename_i hname
  split at h
  · simp only [Option.some.injEq, Prod.mk.injEq] at h
    obtain ⟨rfl, rfl⟩ := h
    exact .quiet (messages_answer _ _)
  split at h
  · simp only [Option.some.injEq, Prod.mk.injEq] at h
    obtain ⟨rfl, rfl⟩ := h
    exact .quiet (messages_answer _ _)
  · simp only [Option.bind_eq_bind, Option.bind_eq_some_iff] at h
    obtain ⟨newId, hid, ⟨us, creator⟩, hscan, list, hlist, body, hbody, h⟩ := h
    obtain ⟨rfl, hlt⟩ := incr_eq_some hid
    simp only [Option.some.injEq, Prod.mk.injEq] at h
    obtain ⟨rfl, rfl⟩ := h
    exact .create name duration price us creator list body htype hargs hname (by omega) hd
      (by omega) hp hlt hscan hlist

theorem report_messages {s s' : Server} {fd : Int} {t : MsgType} {info : Auction → Text}
    {list : LinkedList Nat} {out : List Event} (h : report s fd t info list = some (s', out)) :
    s' = s ∧ Messages out := by
  simp only [report] at h
  split at h
  · simp only [Option.some.injEq, Prod.mk.injEq] at h
    obtain ⟨rfl, rfl⟩ := h
    exact ⟨rfl, messages_answer _ _⟩
  · simp only [Option.bind_eq_bind, Option.bind_eq_some_iff, Option.some.injEq,
      Prod.mk.injEq] at h
    obtain ⟨lines, -, body, -, rfl, rfl⟩ := h
    exact ⟨rfl, messages_message _ _ _⟩

theorem watchAuction_effect {s s' : Server} {env : JobEnv} {job : Job} {out : List Event}
    (htype : MsgType.ofCode job.jobMsgType = some .ANWATCH)
    (h : watchAuction s job.clientfd (atoi (cstr job.jobBuffer)) = some (s', out)) :
    Effect s (.job env job) s' out := by
  simp only [watchAuction, Option.bind_eq_bind, Option.bind_eq_some_iff] at h
  obtain ⟨found, hfound, h⟩ := h
  cases found with
  | none =>
    simp only [Option.some.injEq, Prod.mk.injEq] at h
    obtain ⟨rfl, rfl⟩ := h
    exact .quiet (messages_answer _ _)
  | some a =>
    simp only [Option.bind_eq_some_iff, Option.some.injEq, Prod.mk.injEq] at h
    obtain ⟨auction, ha, user, huser, watchers, hins, body, -, rfl, rfl⟩ := h
    obtain ⟨hmem, auction', ha', hid⟩ := findById_some hfound
    obtain rfl : auction' = auction := by simpa [ha'] using ha
    exact .watch a auction' user watchers body htype hid hmem ha huser hins

theorem leaveAuction_effect {s s' : Server} {env : JobEnv} {job : Job} {out : List Event}
    (htype : MsgType.ofCode job.jobMsgType = some .ANLEAVE)
    (h : leaveAuction s job.clientfd (atoi (cstr job.jobBuffer)) = some (s', out)) :
    Effect s (.job env job) s' out := by
  simp only [leaveAuction, Option.bind_eq_bind, Option.bind_eq_some_iff] at h
  obtain ⟨user, huser, found, hfound, h⟩ := h
  cases found with
  | none =>
    simp only [Option.some.injEq, Prod.mk.injEq] at h
    obtain ⟨rfl, rfl⟩ := h
    exact .quiet (messages_answer _ _)
  | some a =>
    simp only [Option.bind_eq_some_iff, Option.some.injEq, Prod.mk.injEq] at h
    obtain ⟨auction, ha, index, hindex, ⟨removed, watchers⟩, hrem, rfl, rfl⟩ := h
    obtain ⟨hmem, auction', ha', hid⟩ := findById_some hfound
    obtain rfl : auction' = auction := by simpa [ha'] using ha
    exact .leave a auction' user index removed watchers htype hid hmem ha huser hindex hrem

/-- What the tests of `bidAuction` establish of the auction that it has found. -/
inductive FoundTests (auction : Auction) (username : CharStar) (bid : Int) (a : Nat) :
    BidExit → Prop where
  | creator : samePtr auction.creator username = true →
      FoundTests auction username bid a .creator
  | notWatching : samePtr auction.creator username = false →
      userWatches username auction.watchers.nodes = some false →
      FoundTests auction username bid a .notWatching
  | buyNow : samePtr auction.creator username = false →
      userWatches username auction.watchers.nodes = some true →
      auction.binFlag = 1 ∧ bid > auction.binPrice → FoundTests auction username bid a (.buyNow a)
  | highest : samePtr auction.creator username = false →
      userWatches username auction.watchers.nodes = some true →
      ¬ (auction.binFlag = 1 ∧ bid > auction.binPrice) → bid > auction.bid →
      FoundTests auction username bid a (.highest a)
  | low : samePtr auction.creator username = false →
      userWatches username auction.watchers.nodes = some true →
      ¬ (auction.binFlag = 1 ∧ bid > auction.binPrice) → ¬ bid > auction.bid →
      FoundTests auction username bid a .low

/-- What the tests of `bidAuction` establish at each of its exits. -/
inductive BidTests (s : Server) (username : CharStar) (auctionId bid : Int) : BidExit → Prop where
  | emptyList : s.auctionsList.nodes = [] → BidTests s username auctionId bid .emptyList
  | noMatch : s.auctionsList.nodes ≠ [] → findById s auctionId s.auctionsList.nodes = some none →
      BidTests s username auctionId bid .noMatch
  | found {x : BidExit} (a : Nat) (auction : Auction) : s.auctionsList.nodes ≠ [] →
      findById s auctionId s.auctionsList.nodes = some (some a) →
      s.auctions[a]? = some auction → FoundTests auction username bid a x →
      BidTests s username auctionId bid x

theorem bidExit_tests {s : Server} {username : CharStar} {auctionId bid : Int} {x : BidExit}
    (h : bidExit s username auctionId bid = some x) : BidTests s username auctionId bid x := by
  simp only [bidExit] at h
  split at h
  · obtain rfl := Option.some.inj h
    exact .emptyList (by assumption)
  rename_i hsome
  simp only [Option.bind_eq_bind, Option.bind_eq_some_iff] at h
  obtain ⟨found, hfound, h⟩ := h
  cases found with
  | none =>
    obtain rfl := Option.some.inj h
    exact .noMatch hsome hfound
  | some a =>
    simp only [Option.bind_eq_some_iff] at h
    obtain ⟨auction, ha, h⟩ := h
    refine .found a auction hsome hfound ha ?_
    split at h
    · obtain rfl := Option.some.inj h
      exact .creator (by assumption)
    rename_i hcreator
    have hother : samePtr auction.creator username = false := by simpa using hcreator
    simp only [Option.bind_eq_some_iff] at h
    obtain ⟨watches, hw, h⟩ := h
    cases watches with
    | false =>
      obtain rfl := Option.some.inj h
      exact .notWatching hother hw
    | true =>
      simp only [↓reduceIte] at h
      split at h
      · obtain rfl := Option.some.inj h
        exact .buyNow hother hw (by assumption)
      rename_i hbuy
      split at h
      · obtain rfl := Option.some.inj h
        exact .highest hother hw hbuy (by assumption)
      · obtain rfl := Option.some.inj h
        exact .low hother hw hbuy (by assumption)

/-- What the tests of `bidAuction` have established at each of the two accepting exits. -/
theorem bidExit_spec {s : Server} {username : CharStar} {auctionId bid : Int} {x : BidExit}
    (h : bidExit s username auctionId bid = some x) :
    (∀ a, x ≠ .buyNow a ∧ x ≠ .highest a) ∨
    ∃ a auction, a ∈ s.auctionsList.nodes ∧ s.auctions[a]? = some auction ∧
      auction.id = auctionId ∧
      samePtr auction.creator username = false ∧
      userWatches username auction.watchers.nodes = some true ∧
      ((x = .buyNow a ∧ auction.binFlag = 1 ∧ bid > auction.binPrice) ∨
       (x = .highest a ∧ ¬ (auction.binFlag = 1 ∧ bid > auction.binPrice) ∧
        bid > auction.bid)) := by
  cases bidExit_tests h with
  | emptyList | noMatch => exact Or.inl fun a => ⟨by simp, by simp⟩
  | found a auction _ hfound ha htests =>
    obtain ⟨hmem, auction', ha', hid⟩ := findById_some hfound
    obtain rfl : auction = auction' := Option.some.inj (ha.symm.trans ha')
    cases htests with
    | creator | notWatching | low => exact Or.inl fun a => ⟨by simp, by simp⟩
    | buyNow hother hw hbuy =>
      exact Or.inr ⟨a, auction, hmem, ha, hid, hother, hw, Or.inl ⟨rfl, hbuy⟩⟩
    | highest hother hw hbuy hhigh =>
      exact Or.inr ⟨a, auction, hmem, ha, hid, hother, hw, Or.inr ⟨rfl, hbuy, hhigh⟩⟩

theorem setBid_eq {s : Server} {a : Nat} {auction : Auction}
    (ha : s.auctions[a]? = some auction) (username : CharStar) (bid : Int) :
    s.setBid a username bid = some (s.setAuction a (auction.withBid username bid)) := by
  simp [Server.setBid, ha, Auction.withBid]

theorem setAuction_get {s : Server} {a : Nat} {auction : Auction} (new : Auction)
    (ha : s.auctions[a]? = some auction) : (s.setAuction a new).auctions[a]? = some new := by
  have hlt := (List.getElem?_eq_some_iff.mp ha).1
  simp [Server.setAuction, hlt]

theorem bidAuction_effect {s s' : Server} {env : JobEnv} {job : Job} {auctionId bid : Int}
    {out : List Event} (htype : MsgType.ofCode job.jobMsgType = some .ANBID)
    (hargs : anbidArgs (cstr job.jobBuffer) = some (auctionId, bid)) (hbid : InInt bid)
    (h : bidAuction s job.clientfd auctionId bid = some (s', out)) :
    Effect s (.job env job) s' out := by
  simp only [bidAuction, Option.bind_eq_bind, Option.bind_eq_some_iff] at h
  obtain ⟨user, huser, x, hx, h⟩ := h
  rcases bidExit_spec hx with hno | ⟨a, auction, hmem, ha, rfl, hcreator, hwatch, hacc⟩
  · cases x with
    | buyNow a => exact absurd rfl (hno a).1
    | highest a => exact absurd rfl (hno a).2
    | noMatch =>
      simp only [Option.some.injEq, Prod.mk.injEq] at h
      obtain ⟨rfl, rfl⟩ := h
      exact .quiet messages_nil
    | _ =>
      simp only [Option.some.injEq, Prod.mk.injEq] at h
      obtain ⟨rfl, rfl⟩ := h
      exact .quiet (messages_answer _ _)
  · have hon : BidOn s job.clientfd a auction user bid :=
      ⟨huser, hmem, ha, hcreator, hwatch, hbid⟩
    rcases hacc with ⟨rfl, hflag, hprice⟩ | ⟨rfl, hbuy, hhigh⟩
    · simp only [buyAuction, Option.bind_eq_bind, Option.bind_eq_some_iff] at h
      obtain ⟨s₁, hs₁, ⟨s₂, out₂⟩, hclose, s₃, hunlink, h⟩ := h
      simp only [Option.some.injEq, Prod.mk.injEq] at h
      obtain ⟨rfl, rfl⟩ := h
      obtain rfl := Option.some.inj ((setBid_eq ha _ _).symm.trans hs₁)
      exact .buy a auction user bid s₂ s₃ out₂ htype hargs hon hflag hprice hclose hunlink
    · simp only [raiseAuction, Option.bind_eq_bind, Option.bind_eq_some_iff] at h
      obtain ⟨s₁, hs₁, auction', ha', sends, hupd, h⟩ := h
      simp only [Option.some.injEq, Prod.mk.injEq] at h
      obtain ⟨rfl, rfl⟩ := h
      obtain rfl := Option.some.inj ((setBid_eq ha _ _).symm.trans hs₁)
      rw [setAuction_get _ ha, Option.some.injEq] at ha'
      subst ha'
      simp only [updateAuction, Option.bind_eq_bind, Option.bind_eq_some_iff,
        Option.some.injEq] at hupd
      obtain ⟨name, hname, body, hbody, fds, hfds, rfl⟩ := hupd
      rw [fits_eq_some hbody]
      exact .raise a auction user bid fds name htype hargs hon hbuy hhigh hname hfds

theorem ancreateArgs_inInt {body name : Text} {duration price : Int}
    (h : ancreateArgs body = some (name, duration, price)) : InInt duration ∧ InInt price := by
  simp only [ancreateArgs, Option.bind_eq_bind, Option.bind_eq_some_iff, Option.some.injEq,
    Prod.mk.injEq] at h
  obtain ⟨d, -, p, -, n, -, -, rfl, rfl⟩ := h
  exact ⟨atoi_inInt d, atoi_inInt p⟩

theorem anbidArgs_inInt {body : Text} {auctionId bid : Int}
    (h : anbidArgs body = some (auctionId, bid)) : InInt bid := by
  simp only [anbidArgs, Option.bind_eq_bind, Option.bind_eq_some_iff, Option.some.injEq,
    Prod.mk.injEq] at h
  obtain ⟨i, -, b, -, -, rfl⟩ := h
  exact atoi_inInt b

theorem processJob_effect {s s' : Server} {env : JobEnv} {job : Job} {out : List Event}
    (h : processJob s env job = some (s', out)) : Effect s (.job env job) s' out := by
  simp only [processJob] at h
  split at h
  · rename_i htype
    rcases logout_spec s job.clientfd with ⟨hl, -⟩ | ⟨i, u, hu, hfd, hl⟩
    · rw [hl, Option.some.injEq, Prod.mk.injEq] at h
      obtain ⟨rfl, rfl⟩ := h
      exact .quiet messages_nil
    · rw [hl, Option.some.injEq, Prod.mk.injEq] at h
      obtain ⟨rfl, rfl⟩ := h
      exact .logout i u htype hu hfd
  · rename_i htype
    simp only [Option.bind_eq_bind, Option.bind_eq_some_iff] at h
    obtain ⟨⟨name, duration, price⟩, hargs, h⟩ := h
    have hints := ancreateArgs_inInt hargs
    exact createAuction_effect htype hargs hints.1.2 hints.2.2 h
  · obtain ⟨rfl, hout⟩ := report_messages h
    exact .quiet hout
  · exact watchAuction_effect (by assumption) h
  · exact leaveAuction_effect (by assumption) h
  · simp only [Option.bind_eq_bind, Option.bind_eq_some_iff] at h
    obtain ⟨⟨auctionId, bid⟩, hargs, h⟩ := h
    exact bidAuction_effect (by assumption) hargs (anbidArgs_inInt hargs) h
  · simp only [printUsers, Option.bind_eq_bind, Option.bind_eq_some_iff, Option.some.injEq,
      Prod.mk.injEq] at h
    obtain ⟨names, -, body, -, rfl, rfl⟩ := h
    exact .quiet (messages_message _ _ _)
  · simp only [usersWins, Option.bind_eq_bind, Option.bind_eq_some_iff] at h
    obtain ⟨user, -, h⟩ := h
    obtain ⟨rfl, hout⟩ := report_messages h
    exact .quiet hout
  · simp only [usersSales, Option.bind_eq_bind, Option.bind_eq_some_iff] at h
    obtain ⟨user, -, h⟩ := h
    obtain ⟨rfl, hout⟩ := report_messages h
    exact .quiet hout
  · simp only [userBalance, Option.bind_eq_bind, Option.bind_eq_some_iff, Option.some.injEq,
      Prod.mk.injEq] at h
    obtain ⟨user, -, rfl, rfl⟩ := h
    exact .quiet (messages_message _ _ _)
  · simp only [Option.some.injEq, Prod.mk.injEq] at h
    obtain ⟨rfl, rfl⟩ := h
    exact .quiet messages_nil

/-- Every completed step is one of the listed effects. -/
theorem step_effect {s s' : Server} {action : Action} {out : List Event}
    (h : Server.step s action = some (s', out)) : Effect s action s' out := by
  cases action with
  | accept fd msgType body =>
    obtain ⟨_, hacc⟩ := step_accept h
    exact .accept hacc
  | job env job => exact processJob_effect h
  | tick => exact .tick h

end ZBid
