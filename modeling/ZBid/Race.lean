import ZBid.Durations
import ZBid.Funds

/-!
# The tick thread against the job threads

Under every interleaving the bids on an auction rise and the books are right, whatever jobs fall
between the steps of the tick thread. There is one race: a bid buys the auction that the tick
thread has seen reach 0. That auction is settled a second time, and the removal of its node then
runs off the list; nothing else goes wrong before, and no money is made by it.
-/
namespace ZBid

open CInt CString Runs Bookkeeping

section Redated

variable {tr : List Event} {s t : Server}

theorem deal_redated (hr : Redated s t) : t.deal = s.deal := by
  obtain ⟨auctions, tick, hrecords⟩ := hr
  funext a
  have hget := congrArg (fun xs => (xs[a]?).map Auction.deal) hrecords
  simp only [List.getElem?_map, Option.map_map] at hget
  exact hget

theorem finalBid_redated (hr : Redated s t) : t.finalBid = s.finalBid := by
  obtain ⟨auctions, tick, hrecords⟩ := hr
  funext a
  have hget := congrArg (fun xs => (xs[a]?).elim 0 Auction.bid) hrecords
  simp only [List.getElem?_map] at hget
  simp only [Server.finalBid]
  change (auctions[a]?).elim 0 Auction.bid = _
  cases h : auctions[a]? <;> cases h' : s.auctions[a]? <;> simp_all [Auction.undated, Auction.dated]

theorem Redated.get {a : Nat} {y : Auction} (hr : Redated s t) (hy : t.auctions[a]? = some y) :
    ∃ x, s.auctions[a]? = some x ∧ y.bid = x.bid ∧ y.currentWinner = x.currentWinner := by
  obtain ⟨auctions, tick, hrecords⟩ := hr
  obtain ⟨d, hd⟩ := dated_get (s := s.dated auctions tick) hrecords.symm hy
  exact ⟨y.dated d, hd, rfl, rfl⟩

theorem Redated.length (hr : Redated s t) : t.auctions.length = s.auctions.length := by
  obtain ⟨auctions, tick, hrecords⟩ := hr
  exact dated_length hrecords

theorem Redated.users (hr : Redated s t) : t.users = s.users := by
  obtain ⟨auctions, tick, hrecords⟩ := hr
  rfl

theorem Redated.nodes (hr : Redated s t) : t.auctionsList = s.auctionsList := by
  obtain ⟨auctions, tick, hrecords⟩ := hr
  rfl

theorem ClosedInv.redated (inv : ClosedInv tr s) (hr : Redated s t) : ClosedInv tr t :=
  ⟨inv.once, fun a => by rw [hr.length, hr.nodes, inv.closed a]⟩

theorem PriceInv.redated (inv : PriceInv tr s) (hr : Redated s t) : PriceInv tr t := by
  refine ⟨fun a y hy => ?_, fun a ha => inv.fresh a (hr.length ▸ ha), inv.closed.redated hr,
    inv.final⟩
  obtain ⟨x, hx, hbid, hwinner⟩ := hr.get hy
  rw [hbid, hwinner]
  exact inv.ascends a x hx

theorem PriceLaw.redated (law : PriceLaw tr s) (hr : Redated s t) : PriceLaw tr t := by
  refine ⟨law.positive, law.rising, fun a y hy => ?_, law.final⟩
  obtain ⟨x, hx, hbid, hwinner⟩ := hr.get hy
  rw [hbid, hwinner]
  exact law.stands a x hx

theorem createdBy_redated (hr : Redated s t) (name : CharStar) :
    t.createdBy name = s.createdBy name := by
  funext a
  rw [Server.createdBy, Server.createdBy, deal_redated hr]

theorem wonBy_redated (hr : Redated s t) (name : CharStar) : t.wonBy name = s.wonBy name := by
  funext a
  rw [Server.wonBy, Server.wonBy, deal_redated hr]

theorem WrappedInv.redated {acc : Account} (inv : WrappedInv tr s acc) (hr : Redated s t) :
    WrappedInv tr t acc := by
  obtain ⟨exact, hexact, hbalance⟩ := inv
  refine ⟨exact, ⟨?_, ?_, ?_⟩, hbalance⟩
  · rw [hr.length, createdBy_redated hr]
    exact hexact.owned
  · rw [wonBy_redated hr]
    exact hexact.won
  · rw [Server.deals, deal_redated hr]
    exact hexact.balance

theorem FundsLaw.redated (law : FundsLaw tr s) (hr : Redated s t) : FundsLaw tr t := by
  constructor
  · intro u hu
    rw [hr.length, createdBy_redated hr]
    exact law.owned u (hr.users ▸ hu)
  · intro u hu
    rw [wonBy_redated hr]
    exact law.won u (hr.users ▸ hu)
  · intro u hu
    rw [createdBy_redated hr, finalBid_redated hr]
    exact law.balance u (hr.users ▸ hu)
  · rw [hr.users]
    exact law.zero

end Redated

/-- The books and the bids. -/
def BooksInv (tr : List Event) (s : Server) : Prop :=
  PriceInv tr s ∧ ∀ u ∈ s.users, WrappedInv tr s u.account

theorem booksInv_dateless : Dateless BooksInv where
  start := ⟨priceInv_start, by simp [Server.start, Server.users, createList]⟩
  step server inv hok h :=
    ⟨priceInv_step server inv.1 h, wrapped_step server inv.1.closed inv.2 hok h⟩
  redated hr inv := ⟨inv.1.redated hr, fun u hu => (inv.2 u (hr.users ▸ hu)).redated hr⟩

/-- Main takes the step. -/
def InterleavedAction.ofMain : InterleavedAction → Bool
  | .accept .. => true
  | _ => false

/-- The same connections are open, and recorded for the same users. -/
def Unmoved (s s' : Server) : Prop :=
  s'.users.map User.key = s.users.map User.key ∧ s'.openFds = s.openFds

theorem Unmoved.fds {s s' : Server} (h : Unmoved s s') :
    s'.users.map User.fd = s.users.map User.fd := map_congr_of_map Prod.snd h.1

theorem Unmoved.names {s s' : Server} (h : Unmoved s s') :
    s'.users.map User.username = s.users.map User.username := map_congr_of_map Prod.fst h.1

theorem unmoved_of_close {s s' : Server} {a : Nat} {out : List Event}
    (h : closeAuction s a = some (s', out)) : Unmoved s s' := by
  obtain ⟨us, rfl, hus⟩ := closeAuction_frame h
  exact ⟨map_congr_of_map (fun i : Identity => (i.username, i.fd)) hus, rfl⟩

theorem unmoved_of_job {s s' : Server} {env : JobEnv} {job : Job} {out : List Event}
    (h : Effect s (.job env job) s' out) : Unmoved s s' := by
  cases h with
  | quiet | watch | leave | raise => exact ⟨rfl, rfl⟩
  | logout i u _ hu => exact ⟨map_set_of_eq User.key hu rfl, rfl⟩
  | create name duration price us creator list body _ _ _ _ _ _ _ _ hscan =>
    exact ⟨map_eq_of_owned User.key (fun _ _ => rfl) (ownerScan_spec hscan).1, rfl⟩
  | buy a auction user bid s₁ _ out _ _ _ _ _ hclose hunlink =>
    have hmoved := unmoved_of_close hclose
    obtain ⟨list, rfl⟩ := unlinkAuction_frame hunlink
    exact hmoved

/-- Only main opens connections. -/
theorem unmoved_of_step {s s' : Interleaved} {action : InterleavedAction} {out : List Event}
    (hmain : action.ofMain = false) (h : Interleaved.step s action = some (s', out)) :
    Unmoved s.server s'.server := by
  cases interleaved_effect h with
  | request request hrequest hstep =>
    cases action with
    | accept => cases hmain
    | job env job =>
      obtain rfl := Option.some.inj hrequest
      exact unmoved_of_job (step_effect hstep)
    | startTick | age | close => cases hrequest
  | startTick => exact ⟨rfl, rfl⟩
  | age a server duration htick ha hage =>
    obtain ⟨x, -, rfl, -⟩ := ageAuction_spec hage
    exact ⟨rfl, rfl⟩
  | close a server server' htick hclose hunlink =>
    have hmoved := unmoved_of_close hclose
    obtain ⟨list, rfl⟩ := unlinkAuction_frame hunlink
    exact hmoved
  | crash a server htick hclose => exact unmoved_of_close hclose

theorem auctionIndexLoop_absent {s : Server}
    (ids : ∀ (k : Nat) (x : Auction), s.auctions[k]? = some x → x.id = k + 1)
    {nodes : List Nat} (hstored : ∀ k ∈ nodes, k < s.auctions.length) {a : Nat} (ha : a ∉ nodes)
    (i : Int) : auctionIndexLoop s (a + 1) i nodes = some (-1) := by
  induction nodes generalizing i with
  | nil => rfl
  | cons k nodes ih =>
    obtain ⟨hak, hrest⟩ := not_or.mp (List.mem_cons.not.mp ha)
    have hlt := hstored k List.mem_cons_self
    have hk := List.getElem?_eq_getElem hlt
    have hid := ids k _ hk
    have hne : ¬ (a : Int) + 1 = s.auctions[k].id := by omega
    simp only [auctionIndexLoop, hk, Option.bind_eq_bind, Option.bind_some, if_neg hne]
    exact ih (fun j hj => hstored j (List.mem_cons_of_mem k hj)) hrest (i + 1)

/-- The node of an auction that is off the list is not found. -/
theorem ListInv.unlink_absent {s : Server} (inv : ListInv s) {a : Nat}
    (ha : a ∉ s.auctionsList.nodes) : unlinkAuction s a = none := by
  cases hx : s.auctions[a]? with
  | none => simp [unlinkAuction, findAuctionIndex, hx]
  | some x =>
    have hindex : findAuctionIndex s a = some (-1) := by
      simp only [findAuctionIndex, hx, Option.bind_eq_bind, Option.bind_some, inv.ids a x hx]
      exact auctionIndexLoop_absent inv.ids inv.stored ha 0
    simp [unlinkAuction, hindex, removeByIndex_neg inv.wf (show (-1 : Int) < 0 by decide)]

/-- After a close the node is found if the auction is on the list, and only then. -/
theorem ListInv.listed_of_unlink {s server server' : Server} {a : Nat} {out : List Event}
    (inv : ListInv s) (hclose : closeAuction s a = some (server, out))
    (hunlink : unlinkAuction server a = some server') : a ∈ s.auctionsList.nodes := by
  obtain ⟨us, rfl, -⟩ := closeAuction_frame hclose
  by_contra ha
  exact absurd (hunlink.symm.trans ((inv.withUsers us).unlink_absent ha)) (by simp)

theorem ListInv.absent_of_unlink {s server : Server} {a : Nat} {out : List Event}
    (inv : ListInv s) (hclose : closeAuction s a = some (server, out))
    (hunlink : unlinkAuction server a = none) : a ∉ s.auctionsList.nodes := by
  obtain ⟨us, rfl, -⟩ := closeAuction_frame hclose
  intro ha
  exact absurd (hunlink.symm.trans ((inv.withUsers us).unlink_eq ha)) (by simp)

/-- A step of an interleaving keeps to the sequential server, or it is the second close of an
auction that is off the list. -/
theorem interleaved_step {P : List Event → Server → Prop} (hP : Dateless P) {tr out : List Event}
    {s s' : Interleaved} {action : InterleavedAction} (inv : Sequential P tr s.server)
    (hok : s.Sponsored action) (h : Interleaved.step s action = some (s', out)) :
    (s'.tick ≠ .crashed ∧ Sequential P (tr ++ out) s'.server) ∨
    ∃ a, action = .close ∧ s.tick = .closing a ∧ a ∉ s.server.auctionsList.nodes ∧
      s'.tick = .crashed ∧ closeAuction s.server a = some (s'.server, out) := by
  have hlist := inv.listInv
  have halive := alive_of_step h
  cases interleaved_effect h with
  | request request hrequest hstep =>
    refine .inl ⟨halive, ?_⟩
    cases action with
    | accept fd msgType body =>
      obtain rfl := Option.some.inj hrequest
      have hok' : ZBid.Sponsored s.server (.accept fd msgType body) := hok
      exact inv.effect hP (by simp) hok' (step_effect hstep)
    | job env job =>
      obtain rfl := Option.some.inj hrequest
      have hok' : ZBid.Sponsored s.server (.job env job) := hok
      exact inv.effect hP (by simp) hok' (step_effect hstep)
    | startTick | age | close => cases hrequest
  | startTick =>
    rw [List.append_nil]
    exact .inl ⟨ofNode_alive _, inv.move (redated_ticked s.server)⟩
  | age a server duration htick ha hage =>
    obtain ⟨x, -, rfl, -⟩ := ageAuction_spec hage
    rw [List.append_nil]
    refine .inl ⟨?_, inv.move (redated_aged s.server _)⟩
    dsimp only
    split
    · simp
    · exact ofNode_alive _
  | close a server server' htick hclose hunlink =>
    have ha := hlist.listed_of_unlink hclose hunlink
    exact .inl ⟨by simp, inv.close hP ha hclose hunlink⟩
  | crash a server htick hclose hunlink =>
    exact .inr ⟨a, rfl, htick, hlist.absent_of_unlink hclose hunlink, rfl, hclose⟩

/-- The tick thread has crashed: `a`, closed before, was settled once more, and then nothing. -/
structure Crashed (P : List Event → Server → Prop) (tr : List Event) (s : Interleaved) (a : Nat)
    (before : Server) (earlier out : List Event) : Prop where
  tick : s.tick = .crashed
  log : tr = earlier ++ out
  sequential : Sequential P earlier before
  absent : a ∉ before.auctionsList.nodes
  again : closeAuction before a = some (s.server, out)

theorem interleaved_run {P : List Event → Server → Prop} (hP : Dateless P)
    {as : List InterleavedAction} {tr : List Event} {s : Interleaved}
    (run : Run Interleaved.step Interleaved.Sponsored Interleaved.start as tr s) :
    (s.tick ≠ .crashed ∧ Sequential P tr s.server) ∨
    ∃ a before earlier out, Crashed P tr s a before earlier out := by
  refine run.invariant (P := fun _ tr s => (s.tick ≠ .crashed ∧ Sequential P tr s.server) ∨
    ∃ a before earlier out, Crashed P tr s a before earlier out) ?_ ?_
  · exact .inl ⟨by simp [Interleaved.start], _, .refl _, serverInv_start, hP.start⟩
  · rintro as tr s action s' out - (⟨halive, inv⟩ | ⟨a, before, earlier, out', hcrashed⟩) hok h
    · rcases interleaved_step hP inv hok h with hinv | ⟨a, -, -, ha, htick, hclose⟩
      · exact .inl hinv
      · exact .inr ⟨a, s.server, tr, out, htick, rfl, inv, ha, hclose⟩
    · exact absurd hcrashed.tick (alive_of_step h)

theorem userInv_run {as : List InterleavedAction} {tr : List Event} {s : Interleaved}
    (run : Run Interleaved.step Interleaved.Sponsored Interleaved.start as tr s)
    (halive : s.tick ≠ .crashed) : UserInv s.server := by
  rcases interleaved_run booksInv_dateless run with ⟨-, hsequential⟩ | ⟨_, _, _, _, h⟩
  · obtain ⟨t, ⟨auctions, tick, -⟩, inv, -⟩ := hsequential
    exact inv.users.of_users rfl rfl rfl
  · exact absurd h.tick halive

/-- The bids rise, the books are right, and an auction is off the list when it has been closed,
which it was once. -/
structure SoundLaw (tr : List Event) (s : Server) : Prop where
  prices : PriceLaw tr s
  funds : FundsLaw tr s
  closed : ClosedInv tr s

theorem Sequential.sound {tr : List Event} {s : Server} (h : Sequential BooksInv tr s) :
    SoundLaw tr s := by
  obtain ⟨t, ht, server, inv⟩ := h
  exact ⟨(priceLaw server inv.1).redated ht.symm, (fundsLaw server inv.2).redated ht.symm,
    inv.1.closed.redated ht.symm⟩

/-- What the close of an auction finds, on the list or not. -/
theorem Sequential.parties {P : List Event → Server → Prop} {tr : List Event} {s : Server}
    (h : Sequential P tr s) {a : Nat} {x : Auction} (hx : s.auctions[a]? = some x) :
    UserInv s ∧ UserLists s ∧ PartyInv s x ∧ x.deal.Among (s.users.map User.username) := by
  obtain ⟨t, ⟨auctions, tick, hrecords⟩, inv, -⟩ := h
  obtain ⟨d, hd⟩ := dated_get hrecords hx
  have party := inv.parties a (x.dated d) hd
  refine ⟨inv.users.of_users rfl rfl rfl, inv.lists,
    ⟨party.creator, party.winner, party.others, party.watchers⟩, ?_⟩
  have hdeal : x.deal ∈ (s.dated auctions tick).deals [.closed a] := by
    refine List.mem_filterMap.mpr ⟨a, by simp [closings], ?_⟩
    rw [Server.deal, show (s.dated auctions tick).auctions[a]? = some (x.dated d) from hd]
    rfl
  exact deals_among inv x.deal hdeal

/-- A settlement, of an auction closed before or not, makes no money. -/
theorem settle_sum {us : List User} {a : Nat} {x : Auction} (hnodup : (us.map User.username).Nodup)
    (among : x.deal.Among (us.map User.username))
    (hnot : ∀ u ∈ us, u.wins x → u.username ≠ x.creator)
    (hwrapped : ∀ u ∈ us, ∃ n, u.balance = wrap32 n) :
    ((us.map (User.settle a x)).map User.balance).sum % 4294967296 =
      (us.map User.balance).sum % 4294967296 := by
  have hone : ∀ u ∈ us, (User.balance ∘ User.settle a x) u % 4294967296 =
      (u.balance + x.deal.amount u.username) % 4294967296 := by
    intro u hu
    obtain ⟨n, hn⟩ := hwrapped u hu
    rw [Function.comp_apply, settle_wrapped (hnot u hu) hn, wrap32_emod, hn, Int.add_emod,
      ← wrap32_emod n, ← Int.add_emod]
  have hzero := Deal.sum_amount hnodup among
  rw [List.map_map] at hzero
  rw [List.map_map, sum_emod_congr hone, List.sum_map_add]
  change ((us.map User.balance).sum + (us.map ((fun p => x.deal.amount p) ∘ User.username)).sum) %
    4294967296 = _
  rw [hzero, Int.add_zero]

/-- What holds in every interleaving. After a crash of the tick thread: an auction that had been
closed before was settled once more, as it had been, and that was the last thing that happened. -/
structure RaceLaw (tr : List Event) (s : Interleaved) : Prop where
  alive : s.tick ≠ .crashed → SoundLaw tr s.server
  crashed : s.tick = .crashed → ∃ (a : Nat) (x : Auction) (before : Server)
    (earlier out : List Event), tr = earlier ++ out ∧ SoundLaw earlier before ∧
      a ∈ closings earlier ∧ closings out = [a] ∧ before.auctions[a]? = some x ∧
      Settles before.users a x s.server.users out
  zero : (s.server.users.map User.balance).sum % 4294967296 = 0

theorem raceLaw {as : List InterleavedAction} {tr : List Event} {s : Interleaved}
    (run : Run Interleaved.step Interleaved.Sponsored Interleaved.start as tr s) :
    RaceLaw tr s := by
  rcases interleaved_run booksInv_dateless run with ⟨halive, inv⟩ | ⟨a, before, earlier, out, h⟩
  · exact ⟨fun _ => inv.sound, fun hcrashed => absurd hcrashed halive, inv.sound.funds.zero⟩
  · obtain ⟨c⟩ := closeAuction_spec h.again
    have hx := c.found
    have law := h.sequential.sound
    obtain ⟨users, lists, party, among⟩ := h.sequential.parties hx
    have hsettles := closeAuction_settles users lists party hx h.again
    refine ⟨fun halive => absurd h.tick halive, fun _ => ?_, ?_⟩
    · have hclosed := (law.closed.closed a).mpr ⟨(List.getElem?_eq_some_iff.mp hx).1, h.absent⟩
      exact ⟨a, c.auction, before, earlier, out, h.log, law, hclosed,
        closeAuction_closings h.again, hx, hsettles⟩
    · rw [hsettles.users, settle_sum users.pointers among (fun u _ => party.not_both)
        (fun u hu => ⟨_, law.funds.balance u hu⟩)]
      exact law.funds.zero

theorem raceLaw_run {as : List InterleavedAction} {tr : List Event} {s : Interleaved}
    (run : Run Interleaved.step Interleaved.Sponsored Interleaved.start as tr s) :
    RaceLaw tr s := raceLaw run

/-- B buys the auction that the tick thread is about to close: B pays 10 twice, to A. -/
theorem raceLaw_run_sample :
    let last := (exec Interleaved.step Interleaved.Sponsored Interleaved.start sampleRace).get
      (by decide)
    last.1.tick = .crashed ∧ last.1.server.users.map User.balance = [20, -20] ∧
      RaceLaw last.2 last.1 :=
  ⟨by decide, by decide, raceLaw_run (run_of_isSome (by decide))⟩

end ZBid
