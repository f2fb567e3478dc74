import ZBid.HouseCalls

/-!
# The server refines the auction house

Every step of the server is a step of the house or none at all, and what it sends is what the
house says. The accounts that the house reads off its sales are the balances and the lists that
the users keep.
-/
namespace ZBid

open CInt CString Runs Bookkeeping AuctionHouse

/-- The lots of a user's sales are the auctions of his list. -/
theorem CallInv.offeredBy_eq {tr : List Event} {s : Server} (inv : CallInv tr s) {u : User}
    (hu : u ∈ s.users) :
    (s.house (closings tr)).offeredBy (nameOf u.username) = u.auctionsOwned.nodes := by
  obtain ⟨exact, hexact, -⟩ := inv.funds u hu
  have howned : u.auctionsOwned.nodes = _ := hexact.owned
  rw [howned, House.offeredBy]
  simp only [house_lots]
  rw [show (s.house (closings tr)).lots.length = s.auctions.length by simp [Server.house]]
  refine List.filter_congr fun k hk => ?_
  have hx := List.getElem?_eq_getElem (List.mem_range.mp hk)
  have hcreator := (inv.parties k _ hx).creator
  simp only [Server.createdBy, Server.deal, hx, Option.map_some, Option.any_some, Auction.deal,
    decide_eq_decide]
  exact ⟨fun h => inv.names.nameOf_inj hcreator ⟨u, hu, rfl⟩ h, fun h => congrArg nameOf h⟩

/-- The lots a user has won are the auctions of his other list. -/
theorem CallInv.wonBy_eq {tr : List Event} {s : Server} (inv : CallInv tr s) {u : User}
    (hu : u ∈ s.users) :
    (s.house (closings tr)).wonBy (nameOf u.username) = u.auctionsWon.nodes := by
  obtain ⟨exact, hexact, -⟩ := inv.funds u hu
  have hwon : u.auctionsWon.nodes = _ := hexact.won
  rw [hwon, House.wonBy]
  simp only [house_lots]
  refine List.filter_congr fun k hk => ?_
  obtain ⟨x, hx⟩ : ∃ x, s.auctions[k]? = some x :=
    ⟨_, List.getElem?_eq_getElem ((inv.closed.closed k).mp hk).1⟩
  have party := inv.parties k x hx
  simp only [Server.wonBy, Server.deal, hx, Option.map_some, Option.any_some, Auction.deal,
    decide_eq_decide]
  cases hw : x.currentWinner with
  | none => simp [Auction.lot, hw]
  | some w =>
    have hwinner := party.winner (by simp [hw])
    rw [hw] at hwinner
    simp only [Auction.lot, hw, Option.map_some, Option.some.injEq]
    exact ⟨fun h => inv.names.nameOf_inj hwinner ⟨u, hu, rfl⟩ h, fun h => congrArg nameOf h⟩

theorem deal_lot {x : Auction} (record : RecordInv x) : x.lot.deal = x.deal.map nameOf := by
  rw [Lot.deal, lot_price record]
  cases hw : x.currentWinner <;> simp [Auction.lot, Auction.deal, Deal.map, hw, nameOf_some]

theorem CallInv.deals_eq {tr : List Event} {s : Server} (inv : CallInv tr s) :
    (s.house (closings tr)).deals = (s.deals tr).map (Deal.map nameOf) := by
  simp only [House.deals, Server.deals, List.map_filterMap, house_lots]
  refine List.filterMap_congr fun k _ => ?_
  cases hx : s.auctions[k]? with
  | none => simp [Server.deal, hx]
  | some x => simp [Server.deal, hx, deal_lot (inv.records k x hx)]

/-- A balance is the int that holds what fits of the house's account. -/
theorem CallInv.balance_eq {tr : List Event} {s : Server} (inv : CallInv tr s) {u : User}
    (hu : u ∈ s.users) :
    u.balance = wrap32 (balance (nameOf u.username) (s.house (closings tr)).deals) := by
  have hparties : ∀ p ∈ s.users.map User.username, ∀ q ∈ s.users.map User.username,
      nameOf p = nameOf q → p = q := by
    intro p hp q hq h
    exact inv.names.nameOf_inj (List.mem_map.mp hp) (List.mem_map.mp hq) h
  rw [inv.deals_eq, balance_map hparties (List.mem_map_of_mem hu) (inv.deals)]
  exact (inv.funds u hu).balance_eq

theorem infoLines_entries {s : Server} (sold : List Nat) {info : Auction → Text}
    {line : Nat × Lot Text Text → Text}
    (hinfo : ∀ (k : Nat) (x : Auction), s.auctions[k]? = some x → info x = line (k + 1, x.lot))
    {nodes : List Nat} {lines : Text} (h : infoLines s info nodes = some lines) :
    lines = ((s.house sold).entries nodes).flatMap line ∧
      ((s.house sold).entries nodes = [] → nodes = []) := by
  induction nodes generalizing lines with
  | nil =>
    simp only [infoLines, Option.some.injEq] at h
    exact ⟨h.symm, fun _ => rfl⟩
  | cons k rest ih =>
    simp only [infoLines, Option.bind_eq_bind, Option.bind_eq_some_iff, Option.some.injEq] at h
    obtain ⟨x, hx, more, hmore, rfl⟩ := h
    have hcons : (s.house sold).entries (k :: rest) =
        (k + 1, x.lot) :: (s.house sold).entries rest :=
      List.filterMap_cons_some (by simp [hx])
    rw [hcons, List.flatMap_cons, ← (ih hmore).1, hinfo k x hx]
    exact ⟨rfl, fun h => absurd h (List.cons_ne_nil _ _)⟩

theorem house_report {s s' : Server} {fd : Int} {t : MsgType} {info : Auction → Text}
    {line : Nat × Lot Text Text → Text} {list : LinkedList Nat} {out : List Event}
    (ht : t.Determined)
    (hinfo : ∀ (k : Nat) (x : Auction), s.auctions[k]? = some x → info x = line (k + 1, x.lot))
    (h : report s fd t info list = some (s', out)) (sold : List Nat) :
    s' = s ∧ closings out = [] ∧
      told out = [Msg.lines fd t line ((s.house sold).entries list.nodes)] := by
  obtain ⟨hsame, hout⟩ := report_messages h
  refine ⟨hsame, closings_messages hout, ?_⟩
  simp only [report] at h
  split at h
  · rename_i hnil
    simp only [Option.some.injEq, Prod.mk.injEq] at h
    rw [← h.2, told_answer ht, hnil]
    rfl
  · rename_i hsome
    simp only [Option.bind_eq_bind, Option.bind_eq_some_iff, Option.some.injEq,
      Prod.mk.injEq] at h
    obtain ⟨lines, hlines, body, hbody, -, rfl⟩ := h
    obtain ⟨hflat, hentries⟩ := infoLines_entries sold hinfo hlines
    rw [told_message ht, fits_eq_some hbody, hflat, Msg.lines, if_neg fun h => hsome (hentries h)]

theorem CallInv.winsLine_eq {tr : List Event} {s : Server} (inv : CallInv tr s) (k : Nat)
    (x : Auction) (hx : s.auctions[k]? = some x) : usersWinsInfo x = winsLine (k + 1, x.lot) := by
  rw [usersWinsInfo, winsLine, inv.list.ids k x hx,
    lot_price (inv.records k x hx)]
  rfl

theorem CallInv.salesLine_eq {tr : List Event} {s : Server} (inv : CallInv tr s) (k : Nat)
    (x : Auction) (hx : s.auctions[k]? = some x) :
    usersSalesInfo x = salesLine (k + 1, x.lot) := by
  have hid := inv.list.ids k x hx
  cases hw : x.currentWinner <;> simp [usersSalesInfo, salesLine, Auction.lot, hw, hid]

theorem house_wins {s s' : Server} {tr out : List Event} {fd : Int} (inv : CallInv tr s)
    (h : usersWins s fd = some (s', out)) :
    Mirrors s (closings tr) (.call fd .wins) s' out := by
  simp only [usersWins, Option.bind_eq_bind, Option.bind_eq_some_iff] at h
  obtain ⟨user, huser, h⟩ := h
  have hwon := inv.wonBy_eq (findUsername_spec huser).1
  obtain ⟨rfl, hnone, htold⟩ := house_report (by decide) inv.winsLine_eq h (closings tr)
  refine mirrors_open [(fd, .wins ((s'.house (closings tr)).entries user.auctionsWon.nodes))]
    hnone ?_ htold
  simp only [House.step, House.answer, memberAt_some (closings tr) huser, Option.bind_eq_bind,
    Option.bind_some, User.member, hwon]

theorem house_sales {s s' : Server} {tr out : List Event} {fd : Int} (inv : CallInv tr s)
    (h : usersSales s fd = some (s', out)) :
    Mirrors s (closings tr) (.call fd .sales) s' out := by
  simp only [usersSales, Option.bind_eq_bind, Option.bind_eq_some_iff] at h
  obtain ⟨user, huser, h⟩ := h
  have howned := inv.offeredBy_eq (findUsername_spec huser).1
  obtain ⟨rfl, hnone, htold⟩ := house_report (by decide) inv.salesLine_eq h (closings tr)
  refine mirrors_open [(fd, .sales ((s'.house (closings tr)).entries user.auctionsOwned.nodes))]
    hnone ?_ htold
  simp only [House.step, House.answer, memberAt_some (closings tr) huser, Option.bind_eq_bind,
    Option.bind_some, User.member, howned]

theorem house_funds {s s' : Server} {tr out : List Event} {fd : Int} (inv : CallInv tr s)
    (h : userBalance s fd = some (s', out)) :
    Mirrors s (closings tr) (.call fd .funds) s' out := by
  simp only [userBalance, Option.bind_eq_bind, Option.bind_eq_some_iff, Option.some.injEq,
    Prod.mk.injEq] at h
  obtain ⟨user, huser, rfl, rfl⟩ := h
  have hbalance := inv.balance_eq (findUsername_spec huser).1
  refine mirrors_open
    [(fd, .funds (balance (nameOf user.username) (s.house (closings tr)).deals))]
    (closings_messages (messages_message _ _ _)) ?_ ?_
  · simp only [House.step, House.answer, memberAt_some (closings tr) huser, Option.bind_eq_bind,
      Option.bind_some, User.member]
  · rw [told_message (by decide), hbalance]
    rfl

theorem older_lot {x : Auction} (h : x.older.duration = x.duration - 1) :
    x.older.lot = x.lot.older := by
  have hduration : wrap32 (x.duration - 1) = x.duration - 1 := h
  simp only [Auction.older, Auction.lot, Lot.older, hduration]

theorem due_iff {x : Auction} (opened : OpenInv x) :
    x.lot.remaining = 1 ↔ x.older.duration = 0 := by
  have hduration := opened.older_duration
  change x.duration = 1 ↔ _
  omega

/-- Aging auctions of the list is aging lots. -/
theorem house_aged {s : Server} (store : StoreInv s) (sold : List Nat) {l : List Nat}
    {p : Nat → Bool} (hl : ∀ k ∈ l, k ∈ s.auctionsList.nodes) (hp : ∀ k, p k = true ↔ k ∈ l) :
    (s.ticked.aged l).house sold = (s.house sold).aged p := by
  have hlots : (s.ticked.aged l).auctions.map Auction.lot =
      (s.auctions.map Auction.lot).mapIdx fun k lot => if p k then lot.older else lot := by
    apply List.ext_getElem?
    intro k
    rw [List.getElem?_map, aged_get, List.getElem?_mapIdx, List.getElem?_map]
    change ((s.auctions[k]?).map _).map _ = _
    cases hx : s.auctions[k]? with
    | none => rfl
    | some x =>
      by_cases hk : k ∈ l
      · simp [hk, (hp k).mpr hk, older_lot (store.listed k (hl k hk) x hx).older_duration]
      · simp [hk, Bool.eq_false_iff.mpr fun h => hk ((hp k).mp h)]
  simp only [Server.house, House.aged, hlots]
  rfl

/-- A lot is due when its auction would come to zero. -/
theorem house_lot_due {s : Server} (store : StoreInv s) (sold : List Nat) {k : Nat} {x : Auction}
    (hk : k ∈ s.auctionsList.nodes) (hx : s.auctions[k]? = some x) :
    (((s.house sold).lots[k]?).any fun lot => lot.remaining = 1) = true ↔
      x.older.duration = 0 := by
  rw [house_lots, hx, Option.map_some, Option.any_some, decide_eq_true_eq]
  exact due_iff (store.listed k hk x hx)

/-- In a list in order, what comes up to a member is the part of the list up to it. -/
theorem mem_upTo {l pre post : List Nat} {a : Nat} (hl : l = pre ++ a :: post)
    (hsorted : l.Pairwise (· < ·)) (k : Nat) : k ∈ l ∧ k ≤ a ↔ k ∈ pre ++ [a] := by
  rw [hl, List.pairwise_append] at hsorted
  obtain ⟨-, hpost, hcross⟩ := hsorted
  rw [hl]
  simp only [List.mem_append, List.mem_cons, List.not_mem_nil, or_false]
  constructor
  · rintro ⟨hk | rfl | hk, hle⟩
    · exact Or.inl hk
    · exact Or.inr rfl
    · exact absurd ((List.pairwise_cons.mp hpost).1 k hk) (by omega)
  · rintro (hk | rfl)
    · exact ⟨Or.inl hk, (hcross k hk a List.mem_cons_self).le⟩
    · exact ⟨Or.inr (Or.inl rfl), le_rfl⟩

theorem house_tick {s s' : Server} {tr out : List Event} (inv : HouseInv tr s)
    (h : tickBody s = some (s', out)) : Mirrors s (closings tr) .tick s' out := by
  have store := inv.server.store
  cases tick_outcome store.toListInv h with
  | quiet hall =>
    have hnone : (s.house (closings tr)).due = none := by
      rw [House.due, inv.calls.onSale_eq, List.find?_eq_none]
      intro k hk hone
      obtain ⟨x, hx, hpos⟩ := hall k hk
      exact hpos ((house_lot_due store _ hk hx).mp hone)
    refine mirrors_open [] rfl ?_ rfl
    simp only [House.step, House.tick, hnone, inv.calls.onSale_eq, Option.some.injEq, Prod.mk.injEq,
      and_true]
    exact (house_aged store _ (fun _ h => h) fun k => decide_eq_true_iff).symm
  | expire pre a post x us out hnodes hx hzero hpre hclose hus =>
    have hmem : a ∈ s.auctionsList.nodes := by simp [hnodes]
    have hsome : (s.house (closings tr)).due = some a := by
      rw [House.due, inv.calls.onSale_eq, hnodes, List.find?_eq_some_iff_append]
      refine ⟨(house_lot_due store _ hmem hx).mpr hzero, pre, post, rfl, fun k hk => ?_⟩
      obtain ⟨y, hy, hpos⟩ := hpre k hk
      rw [Bool.not_eq_true', ← Bool.not_eq_true]
      exact fun hone => hpos ((house_lot_due store _ (by simp [hnodes, hk]) hy).mp hone)
    have hpart : ∀ k, decide (k ∈ (s.house (closings tr)).onSale ∧ k ≤ a) = true ↔
        k ∈ pre ++ [a] := by
      intro k
      rw [decide_eq_true_eq, inv.calls.onSale_eq]
      exact mem_upTo hnodes store.sorted k
    have hlisted : ∀ k ∈ pre ++ [a], k ∈ s.auctionsList.nodes :=
      fun k hk => ((mem_upTo hnodes store.sorted k).mpr hk).1
    have haged := house_aged store (closings tr) hlisted hpart
    have names : NamedInv (s.ticked.aged (pre ++ [a])) :=
      ⟨inv.names.users.of_users rfl rfl rfl, inv.names.named⟩
    obtain ⟨notices, hnotices, htold, hone⟩ := house_close names (closings tr)
      (aged_get_mem (by simp) hx) (store.ids a x hx) (inv.server.parties a x hx).watchers hclose
    refine ⟨notices, ?_, htold⟩
    rw [haged] at hnotices
    simp only [House.step, House.tick, hsome, hnotices, hone, Option.some.injEq, Prod.mk.injEq,
      and_true]
    exact (house_withUsers (s := s.ticked.aged (pre ++ [a])) _ hus).symm

theorem told_undetermined {t : MsgType} (h : ¬ t.Determined) (fd : Int) (body : Text) :
    told [answer fd t] = [] ∧ told [message fd t body] = [] := by
  simp [told, answer, message, h]

/-- A step that is no input to the house. -/
def Unheard (s s' : Server) (out : List Event) : Prop :=
  (∀ sold, s'.house sold = s.house sold) ∧ closings out = [] ∧ told out = []

theorem unheard_list {s s' : Server} {fd : Int} {out : List Event}
    (h : listAuctions s fd = some (s', out)) : Unheard s s' out := by
  obtain ⟨rfl, hout⟩ := report_messages h
  refine ⟨fun _ => rfl, closings_messages hout, ?_⟩
  simp only [listAuctions, report] at h
  split at h
  · simp only [Option.some.injEq, Prod.mk.injEq] at h
    rw [← h.2]
    exact (told_undetermined (by decide) fd []).1
  · simp only [Option.bind_eq_bind, Option.bind_eq_some_iff, Option.some.injEq,
      Prod.mk.injEq] at h
    obtain ⟨lines, -, body, -, -, rfl⟩ := h
    exact (told_undetermined (by decide) fd body).2

theorem unheard_users {s s' : Server} {stack : Text} {fd : Int} {out : List Event}
    (h : printUsers s stack fd = some (s', out)) : Unheard s s' out := by
  simp only [printUsers, Option.bind_eq_bind, Option.bind_eq_some_iff, Option.some.injEq,
    Prod.mk.injEq] at h
  obtain ⟨names, -, body, -, rfl, rfl⟩ := h
  exact ⟨fun _ => rfl, closings_messages (messages_message _ _ _),
    (told_undetermined (by decide) fd body).2⟩

/-- An action of the server is an input to the house, or none. -/
theorem house_job {tr out : List Event} {s s' : Server} {env : JobEnv} {job : Job}
    (inv : CallInv tr s) (hok : Attributed s (.job env job))
    (h : processJob s env job = some (s', out)) :
    (∃ input, Action.input (.job env job) = some input ∧ Mirrors s (closings tr) input s' out) ∨
      Action.input (.job env job) = none ∧ Unheard s s' out := by
  simp only [processJob] at h
  split at h
  · rename_i htype
    refine Or.inl ⟨.call job.clientfd .signOut, by simp [Action.input, Job.houseCall, htype], ?_⟩
    exact house_logout inv (Option.some.inj h)
  · rename_i htype
    simp only [Option.bind_eq_bind, Option.bind_eq_some_iff] at h
    obtain ⟨⟨name, duration, price⟩, hargs, h⟩ := h
    refine Or.inl ⟨.call job.clientfd (.offer name duration price),
      by simp [Action.input, Job.houseCall, htype, hargs], ?_⟩
    exact house_create inv hok htype hargs h
  · rename_i htype
    exact Or.inr ⟨by simp [Action.input, Job.houseCall, htype], unheard_list h⟩
  · rename_i htype
    refine Or.inl ⟨.call job.clientfd (.watch (atoi (cstr job.jobBuffer))),
      by simp [Action.input, Job.houseCall, htype], house_watch inv h⟩
  · rename_i htype
    refine Or.inl ⟨.call job.clientfd (.leave (atoi (cstr job.jobBuffer))),
      by simp [Action.input, Job.houseCall, htype], house_leave inv h⟩
  · rename_i htype
    simp only [Option.bind_eq_bind, Option.bind_eq_some_iff] at h
    obtain ⟨⟨auctionId, bid⟩, hargs, h⟩ := h
    refine Or.inl ⟨.call job.clientfd (.bid auctionId bid),
      by simp [Action.input, Job.houseCall, htype, hargs], house_bid inv h⟩
  · rename_i htype
    exact Or.inr ⟨by simp [Action.input, Job.houseCall, htype], unheard_users h⟩
  · rename_i htype
    exact Or.inl ⟨.call job.clientfd .wins, by simp [Action.input, Job.houseCall, htype],
      house_wins inv h⟩
  · rename_i htype
    exact Or.inl ⟨.call job.clientfd .sales, by simp [Action.input, Job.houseCall, htype],
      house_sales inv h⟩
  · rename_i htype
    exact Or.inl ⟨.call job.clientfd .funds, by simp [Action.input, Job.houseCall, htype],
      house_funds inv h⟩
  · simp only [Option.some.injEq, Prod.mk.injEq] at h
    obtain ⟨rfl, rfl⟩ := h
    exact Or.inr ⟨by simp_all [Action.input, Job.houseCall], fun _ => rfl, rfl, rfl⟩

/-- What main and the job threads do is an input to the house, or none. -/
theorem house_request {tr out : List Event} {s s' : Server} {action : Action}
    (inv : CallInv tr s) (hok : Attributed s action) (hne : action ≠ .tick)
    (h : Server.step s action = some (s', out)) :
    (∃ input, action.input = some input ∧ Mirrors s (closings tr) input s' out) ∨
      action.input = none ∧ Unheard s s' out := by
  cases action with
  | accept fd msgType body =>
    obtain ⟨started, hacc⟩ := step_accept h
    by_cases htype : msgType = MsgType.LOGIN.code
    · subst htype
      exact Or.inl (house_login inv hok.2 hacc)
    · cases hacc with
      | noLogin => exact Or.inr ⟨by simp [Action.input, htype], fun _ => rfl, rfl, rfl⟩
      | already _ _ hlogin => exact absurd hlogin htype
      | again _ _ hlogin => exact absurd hlogin htype
      | wrong _ _ hlogin => exact absurd hlogin htype
      | created _ hlogin => exact absurd hlogin htype
  | job env job => exact house_job inv hok h
  | tick => exact absurd rfl hne

theorem Mirrors.step {tr out : List Event} {s s' : Server} {input : Input Text Text Int Text}
    (h : Mirrors s (closings tr) input s' out) :
    ∃ notices, House.step (s.house (closings tr)) input =
      some (s'.house (closings (tr ++ out)), notices) ∧ told out = rendered notices :=
  closings_append tr out ▸ h

theorem Unheard.house_eq {tr out : List Event} {s s' : Server} (h : Unheard s s' out) :
    s'.house (closings (tr ++ out)) = s.house (closings tr) := by
  rw [closings_append, h.2.1, List.append_nil, h.1]

theorem house_step {tr out : List Event} {s s' : Server} {action : Action} (inv : HouseInv tr s)
    (hok : Attributed s action) (h : Server.step s action = some (s', out)) :
    ∃ notices, Run House.step House.Accepts (s.house (closings tr)) action.input.toList notices
      (s'.house (closings (tr ++ out))) ∧ told out = rendered notices := by
  have hcases : (∃ input, action.input = some input ∧ Mirrors s (closings tr) input s' out) ∨
      action.input = none ∧ Unheard s s' out := by
    cases action with
    | tick => exact Or.inl ⟨.tick, rfl, house_tick inv h⟩
    | _ => exact house_request inv.calls hok (by simp) h
  rcases hcases with ⟨input, hinput, hmirrors⟩ | ⟨hinput, hunheard⟩
  · obtain ⟨notices, hstep, htold⟩ := hmirrors.step
    refine ⟨notices, ?_, htold⟩
    rw [hinput, Option.toList_some]
    exact Run.one trivial hstep
  · refine ⟨[], ?_, hunheard.2.2⟩
    rw [hinput, Option.toList_none, hunheard.house_eq]
    exact .start

/-- The server after a log is the house after the inputs, and has sent what the house has said. -/
structure Refines (inputs : List (Input Text Text Int Text)) (tr : List Event) (s : Server) :
    Prop where
  run : ∃ notices, Run House.step House.Accepts House.empty inputs notices
    (s.house (closings tr)) ∧ told tr = rendered notices
  onSale : (s.house (closings tr)).onSale = s.auctionsList.nodes
  owned : ∀ u ∈ s.users,
    (s.house (closings tr)).offeredBy (nameOf u.username) = u.auctionsOwned.nodes
  won : ∀ u ∈ s.users, (s.house (closings tr)).wonBy (nameOf u.username) = u.auctionsWon.nodes
  balance : ∀ u ∈ s.users,
    u.balance = wrap32 (balance (nameOf u.username) (s.house (closings tr)).deals)

theorem house_refines {as : List Action} {tr : List Event} {s : Server}
    (run : Run Server.step Attributed Server.start as tr s) :
    Refines (as.filterMap Action.input) tr s := by
  obtain ⟨notices, h, hrun, inv, rfl, htold⟩ :=
    run.refines
      (R := fun tr s ds h => HouseInv tr s ∧ h = s.house (closings tr) ∧ told tr = rendered ds)
      ⟨houseInv_start, rfl, rfl⟩ (by
        rintro tr s ds h action s' out ⟨inv, rfl, htold⟩ hok hs
        obtain ⟨notices, hrun, hout⟩ := house_step inv hok hs
        refine ⟨notices, _, hrun, houseInv_step inv hok (step_effect hs), rfl, ?_⟩
        rw [told_append, rendered_append, htold, hout])
  exact ⟨⟨notices, hrun, htold⟩, inv.calls.onSale_eq, fun u hu => inv.calls.offeredBy_eq hu,
    fun u hu => inv.calls.wonBy_eq hu, fun u hu => inv.calls.balance_eq hu⟩

/-- The server is an auction house, in every run of attributed actions. -/
theorem house_run {as : List Action} {tr : List Event} {s : Server}
    (run : Run Server.step Attributed Server.start as tr s) :
    Refines (as.filterMap Action.input) tr s := house_refines run

theorem house_run_sample :
    let sample := (exec Server.step Attributed Server.start sampleSale).get (by decide)
    (sample.1.house (closings sample.2)).deals = [⟨['A'], some ['B'], 7⟩] ∧
      Refines (sampleSale.filterMap Action.input) sample.2 sample.1 :=
  ⟨by decide, house_run (run_of_isSome (by decide))⟩

def Msg.redirect (f : Int → Int) (m : Msg) : Msg := { m with fd := f m.fd }

theorem lines_redirect (f : Int → Int) (fd : Int) (t : MsgType)
    (line : Nat × Lot Text Text → Text) (lots : List (Nat × Lot Text Text)) :
    Msg.lines (f fd) t line lots = (Msg.lines fd t line lots).redirect f := by
  simp only [Msg.lines]
  split <;> rfl

/-- What a notice says does not depend on the descriptor it goes to. -/
theorem rendered_redirect (f : Int → Int) (notices : List (Int × Notice Text Text)) :
    rendered (notices.map (AuctionHouse.redirect f)) = (rendered notices).map (Msg.redirect f) := by
  simp only [rendered, List.map_map]
  refine List.map_congr_left fun n _ => ?_
  obtain ⟨fd, notice⟩ := n
  cases notice with
  | wins lots => exact lines_redirect f fd _ _ lots
  | sales lots => exact lines_redirect f fd _ _ lots
  | _ => rfl

/-- Two runs in which the same names do the same, if under other descriptors and passwords. -/
structure SameFor (f : Int → Int) (tr tr' : List Event) (s s' : Server) : Prop where
  told : told tr' = (told tr).map (Msg.redirect f)
  open_ : s'.auctionsList.nodes = s.auctionsList.nodes
  balances : s'.users.map User.balance = s.users.map User.balance
  owned : s'.users.map (fun u => u.auctionsOwned.nodes) =
    s.users.map fun u => u.auctionsOwned.nodes
  won : s'.users.map (fun u => u.auctionsWon.nodes) = s.users.map fun u => u.auctionsWon.nodes

/-- What a user has that can be read off the names in a house. -/
theorem users_rename {β : Type} {s s' : Server} {sold sold' : List Nat} {f : Int → Int}
    {g : Text → Text} (hhouse : s'.house sold' = (s.house sold).rename f g) {F : User → β}
    {G : Text → β} (h : ∀ u ∈ s.users, F u = G (nameOf u.username))
    (h' : ∀ u ∈ s'.users, F u = G (nameOf u.username)) : s'.users.map F = s.users.map F := by
  have hmembers : s'.users.map User.member =
      (s.users.map User.member).map (Member.rename f g) := congrArg House.members hhouse
  have hnames := congrArg (List.map fun m => G m.name) hmembers
  simp only [List.map_map] at hnames
  rw [List.map_congr_left h, List.map_congr_left h']
  exact hnames

/-- Descriptors and passwords are only ever compared, and no answer depends on what `malloc` or
the stack hold: whoever sends the same requests under the same names gets the same answers, and
the users have the same lists and balances. -/
theorem house_blind {as as' : List Action} {tr tr' : List Event} {s s' : Server}
    (run : Run Server.step Attributed Server.start as tr s)
    (run' : Run Server.step Attributed Server.start as' tr' s') {f : Int → Int} {g : Text → Text}
    (hf : Function.Injective f) (hg : Function.Injective g)
    (hinputs : as'.filterMap Action.input =
      (as.filterMap Action.input).map (Input.rename f g)) : SameFor f tr tr' s s' := by
  have first := house_refines run
  have second := house_refines run'
  obtain ⟨notices, hrun, htold⟩ := first.run
  obtain ⟨notices', hrun', htold'⟩ := second.run
  rw [hinputs] at hrun'
  obtain ⟨rfl, hhouse⟩ := hrun'.unique (rename_run hf hg hrun)
  have hdeals : (s'.house (closings tr')).deals = (s.house (closings tr)).deals :=
    by rw [hhouse, rename_deals]
  have howned : ∀ name, (s'.house (closings tr')).offeredBy name =
      (s.house (closings tr)).offeredBy name := fun name => by rw [hhouse, rename_offeredBy]
  have hwon : ∀ name, (s'.house (closings tr')).wonBy name =
      (s.house (closings tr)).wonBy name := fun name => by rw [hhouse, rename_wonBy]
  constructor
  · rw [htold', htold, rendered_redirect]
  · rw [← second.onSale, ← first.onSale, hhouse, rename_onSale]
  · refine users_rename
      (G := fun name => wrap32 (balance name (s.house (closings tr)).deals)) hhouse first.balance
      fun u hu => ?_
    rw [second.balance u hu, hdeals]
  · refine users_rename (G := (s.house (closings tr)).offeredBy) hhouse
      (fun u hu => (first.owned u hu).symm) fun u hu => ?_
    rw [← second.owned u hu, howned]
  · refine users_rename (G := (s.house (closings tr)).wonBy) hhouse
      (fun u hu => (first.won u hu).symm) fun u hu => ?_
    rw [← second.won u hu, hwon]

/-- The sale again: other descriptors and passwords, other bytes from `malloc`, and an ANLIST and
a USRLIST in between. -/
def sampleElsewhere : List Action :=
  let env : JobEnv := ⟨{ sampleMalloc with numberOfWatchers := 90, binPrice := 7 }, ['?']⟩
  let job (t : MsgType) (fd : Int) (body : Text) := Action.job env ⟨body, t.code, fd⟩
  [.accept 7 MsgType.LOGIN.code ['A', '\r', '\n', 'p', 'x'],
    .accept 9 MsgType.LOGIN.code ['B', '\r', '\n', 'p', 'y'], job .USRLIST 9 [],
    job .ANCREATE 7 ['V', '\r', '\n', '3', '\r', '\n', '5', '0'], job .ANLIST 7 [],
    job .ANWATCH 9 ['1'], job .ANBID 9 ['1', '\r', '\n', '7'], .tick, .tick, .tick]

theorem house_blind_sample :
    SameFor (fun fd => 2 * fd - 1)
      ((exec Server.step Attributed Server.start sampleSale).get (by decide)).2
      ((exec Server.step Attributed Server.start sampleElsewhere).get (by decide)).2
      ((exec Server.step Attributed Server.start sampleSale).get (by decide)).1
      ((exec Server.step Attributed Server.start sampleElsewhere).get (by decide)).1 :=
  house_blind (g := fun password => 'p' :: password) (run_of_isSome (by decide))
    (run_of_isSome (by decide)) (fun a b h => by simpa using h) (fun a b h => by simpa using h)
    (by decide)

end ZBid
