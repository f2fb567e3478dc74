import ZBid.Answers

/-!
# Requests are local

A request that names an auction touches that auction and, when a bid closes it, the accounts of
its two parties. The handlers look records up by id, by descriptor, by `strcmp` and by index; each
search ends at the record that the request means.
-/
namespace ZBid

open CInt CString Runs

/-- The id that a request names. -/
def Job.auctionId (job : Job) : Option Int :=
  match MsgType.ofCode job.jobMsgType with
  | some .ANWATCH | some .ANLEAVE => some (atoi (cstr job.jobBuffer))
  | some .ANBID => (anbidArgs (cstr job.jobBuffer)).map Prod.fst
  | _ => none

/-- What ANCREATE puts into a record once and for all, apart from the duration, which ages. -/
structure Terms where
  id : Int
  name : Text
  duration : Int
  binPrice : Int
  binFlag : Int
  creator : CharStar

def Auction.terms (x : Auction) : Terms :=
  ⟨x.id, x.name, x.duration, x.binPrice, x.binFlag, x.creator⟩

/-- ANWATCH puts the user's name at the end of the list. A NULL name is not inserted. -/
structure WatchedBy (user : User) (x y : Auction) : Prop where
  frame : y = x.withWatchers y.watchers (x.numberOfWatchers + 1)
  names : y.watchers.nodes = x.watchers.nodes ++ user.username.toList

/-- ANLEAVE takes out one occurrence of the user's name. -/
structure LeftBy (user : User) (x y : Auction) : Prop where
  frame : y = x.withWatchers y.watchers (x.numberOfWatchers - 1)
  names : ∃ pre w post, x.watchers.nodes = pre ++ w :: post ∧
    nameText user.username = some w.text ∧ y.watchers.nodes = pre ++ post

/-- A close changes the balances of the bidder and of the creator, and the bidder's list. -/
def PartyChange (user : User) (x : Auction) (v v' : User) : Prop :=
  (v = user ∧ v' = { v with balance := v'.balance, auctionsWon := v'.auctionsWon }) ∨
  (strcmpEq x.creator v.username = some true ∧ v' = { v with balance := v'.balance })

/-- A bid changes the auction's bid and its winner, may unlink the auction, and rewrites user
records when it does. -/
structure BidBy (s : Server) (a : Nat) (x y : Auction) (s' : Server) (out : List Event) : Prop where
  frame : y = x.withBid y.currentWinner y.bid
  globals : s' = { s.setAuction a y with
    usersList := s'.usersList, auctionsList := s'.auctionsList }
  stays : .closed a ∉ out → s'.usersList = s.usersList ∧ s'.auctionsList = s.auctionsList
  goes : .closed a ∈ out → s'.auctionsList.nodes = s.auctionsList.nodes.erase a

/-- What no request on the auction at `a` goes beyond. -/
structure Confined (s : Server) (user : User) (a : Nat) (x : Auction) (s' : Server)
    (out : List Event) : Prop where
  others : ∀ k, k ≠ a → s'.auctions[k]? = s.auctions[k]?
  order : s'.auctionsList.nodes.filter (· ≠ a) = s.auctionsList.nodes.filter (· ≠ a)
  record : ∃ y, s'.auctions[a]? = some y ∧ y.terms = x.terms
  count : s'.users.length = s.users.length
  users : ∀ (i : Nat) (v : User), s.users[i]? = some v → ∃ v', s'.users[i]? = some v' ∧
    (v' = v ∨ .closed a ∈ out ∧ PartyChange user x v v')

/-- A request of a user that names the auction at `a`. -/
structure Local (s : Server) (job : Job) (user : User) (a : Nat) (x : Auction) (s' : Server)
    (out : List Event) : Prop extends Confined s user a x s' out where
  watch : MsgType.ofCode job.jobMsgType = some .ANWATCH → ∃ y, s' = s.setAuction a y ∧
    (a ∈ s.auctionsList.nodes → WatchedBy user x y) ∧ (a ∉ s.auctionsList.nodes → y = x)
  leave : MsgType.ofCode job.jobMsgType = some .ANLEAVE → ∃ y, s' = s.setAuction a y ∧
    (a ∈ s.auctionsList.nodes → LeftBy user x y) ∧ (a ∉ s.auctionsList.nodes → y = x)
  bid : MsgType.ofCode job.jobMsgType = some .ANBID → ∃ y, BidBy s a x y s' out

/-- The search by id finds the auction that has it, if it is open. -/
theorem ListInv.findById_eq {s : Server} (inv : ListInv s) {a : Nat} {x : Auction}
    (hx : s.auctions[a]? = some x) :
    findById s x.id s.auctionsList.nodes =
      some (if a ∈ s.auctionsList.nodes then some a else none) := by
  obtain ⟨found, hfound⟩ := findById_isSome x.id inv.stored
  rw [hfound]
  cases found with
  | none =>
    have hno : a ∉ s.auctionsList.nodes := fun ha => findById_none hfound a ha x hx rfl
    rw [if_neg hno]
  | some b =>
    obtain ⟨hb, z, hz, hid⟩ := findById_some hfound
    have hza := inv.ids b z hz
    have hxa := inv.ids a x hx
    obtain rfl : b = a := by omega
    rw [if_pos hb]

theorem setAuction_self {s : Server} {a : Nat} {x : Auction} (hx : s.auctions[a]? = some x) :
    s.setAuction a x = s := by
  obtain ⟨hlt, rfl⟩ := List.getElem?_eq_some_iff.mp hx
  simp [Server.setAuction]

theorem confined_setAuction {s : Server} (user : User) {a : Nat} {x y : Auction} (out : List Event)
    (hx : s.auctions[a]? = some x) (hterms : y.terms = x.terms) :
    Confined s user a x (s.setAuction a y) out where
  others := fun _ hk => List.getElem?_set_ne (Ne.symm hk)
  order := rfl
  record := ⟨y, setAuction_get y hx, hterms⟩
  count := rfl
  users := fun _ v hv => ⟨v, hv, Or.inl rfl⟩

theorem watchAuction_local {s s' : Server} (list : ListInv s) {fd : Int} {user : User}
    (huser : findUsername s fd = some user) {a : Nat} {x : Auction} (hx : s.auctions[a]? = some x)
    (wf : x.watchers.WF) {out : List Event} (h : watchAuction s fd x.id = some (s', out)) :
    ∃ y, s' = s.setAuction a y ∧ y.terms = x.terms ∧
      (a ∈ s.auctionsList.nodes → WatchedBy user x y) ∧ (a ∉ s.auctionsList.nodes → y = x) := by
  simp only [watchAuction, list.findById_eq hx, Option.bind_eq_bind, Option.bind_some] at h
  by_cases ha : a ∈ s.auctionsList.nodes
  · simp only [ha, ↓reduceIte, hx, huser, Option.bind_some, Option.bind_eq_some_iff,
      Option.some.injEq, Prod.mk.injEq] at h
    obtain ⟨watchers, hins, body, -, rfl, -⟩ := h
    refine ⟨_, rfl, rfl, fun _ => ⟨rfl, ?_⟩, fun hno => absurd ha hno⟩
    cases hname : user.username with
    | none =>
      rw [hname, insertAtTail_null, Option.some.injEq] at hins
      simp [← hins]
    | some w => exact (insertAtTail_spec wf (hname ▸ hins)).1
  · simp only [ha, ↓reduceIte, Option.some.injEq, Prod.mk.injEq] at h
    obtain ⟨rfl, -⟩ := h
    exact ⟨x, (setAuction_self hx).symm, rfl, fun hmem => absurd hmem ha, fun _ => rfl⟩

theorem leaveAuction_local {s s' : Server} (list : ListInv s) {fd : Int} {user : User}
    (huser : findUsername s fd = some user) {a : Nat} {x : Auction} (hx : s.auctions[a]? = some x)
    (wf : x.watchers.WF) {out : List Event} (h : leaveAuction s fd x.id = some (s', out)) :
    ∃ y, s' = s.setAuction a y ∧ y.terms = x.terms ∧
      (a ∈ s.auctionsList.nodes → LeftBy user x y) ∧ (a ∉ s.auctionsList.nodes → y = x) := by
  simp only [leaveAuction, huser, list.findById_eq hx, Option.bind_eq_bind, Option.bind_some] at h
  by_cases ha : a ∈ s.auctionsList.nodes
  · simp only [ha, ↓reduceIte, hx, Option.bind_some, Option.bind_eq_some_iff, Option.some.injEq,
      Prod.mk.injEq] at h
    obtain ⟨index, hindex, ⟨removed, watchers⟩, hrem, rfl, -⟩ := h
    refine ⟨_, rfl, rfl, fun _ => ⟨rfl, ?_⟩, fun hno => absurd ha hno⟩
    obtain ⟨k, w, hw, hcmp, hnodes⟩ := leave_spec wf hindex hrem
    obtain ⟨p, q, hp, hq, htext⟩ := strcmpEq_true hcmp
    obtain rfl : w = q := Option.some.inj hq
    obtain ⟨hlt, rfl⟩ := List.getElem?_eq_some_iff.mp hw
    refine ⟨x.watchers.nodes.take k, x.watchers.nodes[k], x.watchers.nodes.drop (k + 1), ?_, ?_,
      ?_⟩
    · rw [← List.drop_eq_getElem_cons hlt, List.take_append_drop]
    · rw [hp, nameText, Option.map_some, htext]
    · rw [hnodes, List.eraseIdx_eq_take_drop_succ]
  · simp only [ha, ↓reduceIte, Option.some.injEq, Prod.mk.injEq] at h
    obtain ⟨rfl, -⟩ := h
    exact ⟨x, (setAuction_self hx).symm, rfl, fun hmem => absurd hmem ha, fun _ => rfl⟩

/-- One record is replaced, the others stay where they are. -/
theorem setUser_get {s : Server} {i j : Nat} {u v : User} (hu : s.users[j]? = some u)
    (hv : s.users[i]? = some v) (w : User) :
    ∃ v', (s.setUser j w).users[i]? = some v' ∧ (v' = v ∨ v = u ∧ v' = w) := by
  rw [users_setUser]
  by_cases hij : j = i
  · subst hij
    have hlt := (List.getElem?_eq_some_iff.mp hv).1
    obtain rfl : v = u := Option.some.inj (hv.symm.trans hu)
    exact ⟨w, List.getElem?_set_self hlt, Or.inr ⟨rfl, rfl⟩⟩
  · exact ⟨v, by rw [List.getElem?_set_ne hij, hv], Or.inl rfl⟩

theorem debitWinner_parties {s s' : Server} (users : UserInv s) {a : Nat} {x : Auction}
    {user : User} (hmem : user ∈ s.users) (hwinner : x.currentWinner = user.username)
    {out : List Event} (h : debitWinner s a x = some (s', out)) :
    s'.users.length = s.users.length ∧
    ∀ (i : Nat) (v : User), s.users[i]? = some v → ∃ v', s'.users[i]? = some v' ∧
      (v' = v ∨
        v = user ∧ v' = { v with balance := v'.balance, auctionsWon := v'.auctionsWon }) := by
  rcases debitWinner_spec h with ⟨-, rfl, -⟩ | ⟨w, j, u, won, hw, hu, hcmp, -, rfl, -⟩
  · exact ⟨rfl, fun i v hv => ⟨v, hv, Or.inl rfl⟩⟩
  · -- The scan by name ends at the bidder's own record.
    rw [← hw, hwinner] at hcmp
    obtain rfl := users.cmp_inj hmem (List.mem_of_getElem? hu) hcmp
    refine ⟨by simp, fun i v hv => ?_⟩
    obtain ⟨v', hv', hcase⟩ := setUser_get hu hv
      { user with balance := wrap32 (user.balance - x.bid), auctionsWon := won }
    refine ⟨v', hv', hcase.imp_right ?_⟩
    rintro ⟨rfl, rfl⟩
    exact ⟨rfl, rfl⟩

theorem closeAuction_parties {s s' : Server} (users : UserInv s) {a : Nat} {x : Auction}
    {user : User} (hmem : user ∈ s.users) (hx : s.auctions[a]? = some x)
    (hwinner : x.currentWinner = user.username) {out : List Event}
    (h : closeAuction s a = some (s', out)) :
    s'.users.length = s.users.length ∧
    ∀ (i : Nat) (v : User), s.users[i]? = some v → ∃ v', s'.users[i]? = some v' ∧
      (v' = v ∨ PartyChange user x v v') := by
  obtain ⟨y, mid, debit, credit, fds, hy, hdebit, hcredit, -, -⟩ := (closeAuction_spec h).some
  obtain rfl : x = y := Option.some.inj (hx.symm.trans hy)
  obtain ⟨hcount, hdebited⟩ := debitWinner_parties users hmem hwinner hdebit
  obtain ⟨j, u, hu, hcmp, rfl, -⟩ := creditCreator_spec hcredit
  refine ⟨by simp [hcount], fun i v hv => ?_⟩
  obtain ⟨v₁, hv₁, hcase⟩ := hdebited i v hv
  obtain ⟨v', hv', hcredited⟩ := setUser_get hu hv₁ { u with balance := wrap32 (u.balance + x.bid) }
  refine ⟨v', hv', ?_⟩
  rcases hcredited with rfl | ⟨rfl, rfl⟩
  · rcases hcase with rfl | hdebtor
    · exact Or.inl rfl
    · exact Or.inr (Or.inl hdebtor)
  · rcases hcase with rfl | ⟨rfl, hrest⟩
    · exact Or.inr (Or.inr ⟨hcmp, rfl⟩)
    · refine Or.inr (Or.inl ⟨rfl, ?_⟩)
      rw [hrest]

/-- A bid that changes something has found the auction that it names. -/
theorem bid_target {s : Server} (list : ListInv s) {fd : Int} {a b : Nat} {x y : Auction}
    {user : User} {bid : Int} (hx : s.auctions[a]? = some x) (hon : BidOn s fd b y user bid)
    (hid : y.id = x.id) : b = a ∧ y = x := by
  have hy := list.ids b y hon.record
  have hxa := list.ids a x hx
  obtain rfl : b = a := by omega
  exact ⟨rfl, Option.some.inj (hon.record.symm.trans hx)⟩

theorem filter_erase {l : List Nat} (h : l.Nodup) (a : Nat) :
    (l.erase a).filter (· ≠ a) = l.filter (· ≠ a) := by
  rw [h.erase_eq_filter, List.filter_filter]
  refine List.filter_congr fun b _ => ?_
  simp

/-- A buy-it-now bid of a known user. -/
theorem buy_local {s s₁ s' : Server} (inv : ReachInv s) {user : User} (hmem : user ∈ s.users)
    {a : Nat} {x : Auction} (ha : a ∈ s.auctionsList.nodes) (hx : s.auctions[a]? = some x)
    {bid : Int} {out : List Event}
    (hclose : closeAuction (s.setAuction a (x.withBid user.username bid)) a = some (s₁, out))
    (hunlink : unlinkAuction s₁ a = some s') :
    Confined s user a x s' (.accepted a user.username bid :: out) ∧
      ∃ y, BidBy s a x y s' (.accepted a user.username bid :: out) := by
  have list := inv.store.toListInv
  have hget := setAuction_get (x.withBid user.username bid) hx
  have users : UserInv (s.setAuction a (x.withBid user.username bid)) :=
    inv.users.of_users rfl rfl rfl
  have hwinner : (x.withBid user.username bid).currentWinner = user.username := rfl
  obtain ⟨hcount, hparties⟩ := closeAuction_parties users hmem hget hwinner hclose
  have hclosed : .closed a ∈ .accepted a user.username bid :: out :=
    List.mem_cons_of_mem _ (mem_closings.mp (by simp [closeAuction_closings hclose]))
  obtain ⟨us, rfl, -, rfl⟩ := buy_outcome list ha hx hclose hunlink
  refine ⟨⟨?_, ?_, ?_, hcount, ?_⟩, x.withBid user.username bid, rfl, rfl, ?_, fun _ => rfl⟩
  · exact fun k hk => List.getElem?_set_ne (Ne.symm hk)
  · exact filter_erase list.nodup a
  · exact ⟨x.withBid user.username bid, hget, rfl⟩
  · intro i v hv
    obtain ⟨v', hv', hcase⟩ := hparties i v hv
    exact ⟨v', hv', hcase.imp_right fun hparty => ⟨hclosed, hparty⟩⟩
  · exact fun hopen => absurd hclosed hopen

theorem bid_local {s s' : Server} (inv : ReachInv s) {env : JobEnv} {job : Job} {user : User}
    (huser : findUsername s job.clientfd = some user)
    (htype : MsgType.ofCode job.jobMsgType = some .ANBID) {a : Nat} {x : Auction}
    (hx : s.auctions[a]? = some x)
    (hargs : (anbidArgs (cstr job.jobBuffer)).map Prod.fst = some x.id) {out : List Event}
    (h : Effect s (.job env job) s' out) :
    Confined s user a x s' out ∧ ∃ y, BidBy s a x y s' out := by
  have list := inv.store.toListInv
  have hmem := (findUsername_spec huser).1
  cases h with
  | quiet hout =>
    have hself := setAuction_self hx
    have hnone : .closed a ∉ out := by
      rw [← mem_closings, closings_messages hout]
      exact List.not_mem_nil
    have hsame : Confined s user a x (s.setAuction a x) out := confined_setAuction user out hx rfl
    refine ⟨by rwa [hself] at hsame, x, ?_⟩
    exact ⟨rfl, by rw [hself], fun _ => ⟨rfl, rfl⟩, fun hclosed => absurd hclosed hnone⟩
  | raise b y u bid fds name _ hid hon =>
    rw [hid, Option.map_some, Option.some.injEq] at hargs
    obtain ⟨rfl, rfl⟩ := bid_target list hx hon hargs
    refine ⟨confined_setAuction user _ hx rfl, y.withBid u.username bid, rfl, rfl,
      fun _ => ⟨rfl, rfl⟩, fun hclosed => ?_⟩
    have hin := mem_closings.mpr hclosed
    rw [closings_raise] at hin
    cases hin
  | buy b y u bid s₁ _ out _ hid hon _ _ hclose hunlink =>
    rw [hid, Option.map_some, Option.some.injEq] at hargs
    obtain ⟨rfl, rfl⟩ := bid_target list hx hon hargs
    obtain rfl : u = user := Option.some.inj (hon.bidder.symm.trans huser)
    exact buy_local inv hmem hon.mem hx hclose hunlink
  | logout _ _ ht => simp [htype] at ht
  | create _ _ _ _ _ _ _ ht => simp [htype] at ht
  | watch _ _ _ _ _ ht => simp [htype] at ht
  | leave _ _ _ _ _ _ ht => simp [htype] at ht

/-- Requests are local, for every reachable state and every request of a user that has an end. -/
theorem local_run {as : List Action} {tr : List Event} {s s' : Server}
    (run : Run Server.step (Server.Admits Anyone) Server.start as tr s) {env : JobEnv} {job : Job}
    {out : List Event} (h : processJob s env job = some (s', out)) {user : User}
    (huser : user ∈ s.users) (hfd : user.fd = job.clientfd) {a : Nat} {x : Auction}
    (hx : s.auctions[a]? = some x) (hnamed : job.auctionId = some x.id) :
    Local s job user a x s' out := by
  have inv := reachInv_run run
  have list := inv.store.toListInv
  have wf := (inv.store.records a x hx).watchers
  have hfind : findUsername s job.clientfd = some user := hfd ▸ inv.users.findUsername_eq huser
  simp only [Job.auctionId] at hnamed
  cases htype : MsgType.ofCode job.jobMsgType with
  | none => simp [htype] at hnamed
  | some t =>
    simp only [htype] at hnamed
    cases t with
    | ANWATCH =>
      simp only [processJob, htype, Option.some.inj hnamed] at h
      obtain ⟨y, rfl, hterms, hlaw⟩ := watchAuction_local list hfind hx wf h
      exact ⟨confined_setAuction user out hx hterms, fun _ => ⟨y, rfl, hlaw⟩,
        fun ht => by simp [htype] at ht, fun ht => by simp [htype] at ht⟩
    | ANLEAVE =>
      simp only [processJob, htype, Option.some.inj hnamed] at h
      obtain ⟨y, rfl, hterms, hlaw⟩ := leaveAuction_local list hfind hx wf h
      exact ⟨confined_setAuction user out hx hterms, fun ht => by simp [htype] at ht,
        fun _ => ⟨y, rfl, hlaw⟩, fun ht => by simp [htype] at ht⟩
    | ANBID =>
      have heffect : Effect s (.job env job) s' out := step_effect h
      obtain ⟨hconfined, hbid⟩ := bid_local inv hfind htype hx hnamed heffect
      exact ⟨hconfined, fun ht => by simp [htype] at ht, fun ht => by simp [htype] at ht,
        fun _ => hbid⟩
    | _ => cases hnamed

def sampleBuy : Job := ⟨['1', '\r', '\n', '6', '0'], MsgType.ANBID.code, 5⟩

/-- The auction that is open in `sampleBidder`. -/
def sampleOpen : Auction :=
  ⟨1, ['V'], 2, 50, 1, 7, some ⟨1, ['B']⟩, some ⟨0, ['A']⟩, ⟨[⟨1, ['B']⟩], 1⟩, 1⟩

/-- B buys the auction out. -/
theorem local_run_sample : ∃ s' out, processJob sampleBidder ⟨sampleMalloc, []⟩ sampleBuy =
    some (s', out) ∧ Local sampleBidder sampleBuy
      ⟨some ⟨1, ['B']⟩, some ⟨1, ['y']⟩, true, 0, 5, ⟨[], 0⟩, ⟨[], 0⟩⟩ 0 sampleOpen s' out := by
  have run : Run Server.step (Server.Admits Anyone) Server.start sampleBid _ sampleBidder :=
    run_of_isSome (by decide)
  have hdone : (processJob sampleBidder ⟨sampleMalloc, []⟩ sampleBuy).isSome := by decide
  obtain ⟨⟨s', out⟩, h⟩ := Option.isSome_iff_exists.mp hdone
  exact ⟨s', out, h, local_run run h (by decide) rfl (by decide) (by decide)⟩

/-- `leaveAuction` comes back, has told the client something, and every list and count of
watchers is as before. -/
def LeavesHarmlessly (s : Server) (fd auctionId : Int) : Prop :=
  ∃ s' out, leaveAuction s fd auctionId = some (s', out) ∧ (∃ m, .sent m ∈ out ∧ m.fd = fd) ∧
    ∀ (k : Nat) (x : Auction), s.auctions[k]? = some x → ∃ y, s'.auctions[k]? = some y ∧
      y.watchers = x.watchers ∧ y.numberOfWatchers = x.numberOfWatchers

theorem LeftBy.watches {user : User} {x y : Auction} (h : LeftBy user x y) :
    x.Watches user.username := by
  obtain ⟨pre, w, post, hnodes, hname, -⟩ := h.names
  exact ⟨w, by simp [hnodes], hname⟩

/-- The index -1 of the failed search goes to `removeByIndex`, which runs off the list: in no
reachable state does somebody who is not on the list leave an open auction unharmed. -/
theorem leavesHarmlessly_never {as : List Action} {tr : List Event} {s : Server}
    (run : Run Server.step (Server.Admits Anyone) Server.start as tr s) {user : User}
    (huser : user ∈ s.users) (_hlogin : user.loginFlag = true) {a : Nat} {x : Auction}
    (ha : a ∈ s.auctionsList.nodes) (hx : s.auctions[a]? = some x)
    (hno : ¬ x.Watches user.username) : ¬ LeavesHarmlessly s user.fd x.id := by
  have inv := reachInv_run run
  have hfind := inv.users.findUsername_eq huser
  have wf := (inv.store.records a x hx).watchers
  rintro ⟨s', out, h, -⟩
  obtain ⟨y, -, -, hleft, -⟩ := leaveAuction_local inv.store.toListInv hfind hx wf h
  exact hno (hleft ha).watches

/-- User A in `sampleBidder`. -/
def sampleSeller : User := ⟨some ⟨0, ['A']⟩, some ⟨0, ['x']⟩, true, 0, 4, ⟨[0], 1⟩, ⟨[], 0⟩⟩

/-- A does not watch his own auction. -/
theorem leavesHarmlessly_never_sample : ¬ LeavesHarmlessly sampleBidder sampleSeller.fd 1 := by
  have run : Run Server.step (Server.Admits Anyone) Server.start sampleBid _ sampleBidder :=
    run_of_isSome (by decide)
  have hseller : sampleSeller ∈ sampleBidder.users := by decide
  have hx : sampleBidder.auctions[0]? = some sampleOpen := by decide
  exact leavesHarmlessly_never run hseller rfl (by decide) hx (by decide)

theorem leavesHarmlessly_fails : ¬ ∀ as tr s (user : User) (a : Nat) (x : Auction),
    Run Server.step (Server.Admits LoggedIn) Server.start as tr s → user ∈ s.users →
    user.loginFlag = true → a ∈ s.auctionsList.nodes → s.auctions[a]? = some x →
    ¬ x.Watches user.username → LeavesHarmlessly s user.fd x.id := by
  intro claim
  have run : Run Server.step (Server.Admits LoggedIn) Server.start sampleBid _ sampleBidder :=
    run_of_isSome (by decide)
  have hx : sampleBidder.auctions[0]? = some sampleOpen := by decide
  obtain ⟨s', out, h, -⟩ := claim _ _ _ sampleSeller 0 sampleOpen run (by decide) rfl (by decide)
    hx (by decide)
  have hnone : leaveAuction sampleBidder sampleSeller.fd sampleOpen.id = none := by decide
  rw [hnone] at h
  cases h

end ZBid
