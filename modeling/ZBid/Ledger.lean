import ZBid.Lib.Bookkeeping
import ZBid.Price

/-!
# The ledger

The lists of a user and his balance repeat what the auction records say. Every closed auction is
a deal between its creator and its highest bidder, and each user's account is what his deals make
of it.
-/
namespace ZBid

open CInt CString Runs Bookkeeping

/-- The deal a record stands for. -/
def Auction.deal (x : Auction) : Deal CharStar := ⟨x.creator, x.currentWinner.map some, x.bid⟩

def Server.deal (s : Server) (a : Nat) : Option (Deal CharStar) := (s.auctions[a]?).map Auction.deal

def Server.createdBy (s : Server) (name : CharStar) (a : Nat) : Bool :=
  (s.deal a).any fun d => d.seller = name

def Server.wonBy (s : Server) (name : CharStar) (a : Nat) : Bool :=
  (s.deal a).any fun d => d.buyer = some name

/-- The deals that the closes of a log stand for. -/
def Server.deals (s : Server) (tr : List Event) : List (Deal CharStar) :=
  (closings tr).filterMap s.deal

/-- An account as the auction records and the closes have it. -/
structure AccountInv (tr : List Event) (s : Server) (acc : Account) : Prop where
  owned : acc.owned.nodes = (List.range s.auctions.length).filter (s.createdBy acc.username)
  won : acc.won.nodes = (closings tr).filter (s.wonBy acc.username)
  balance : acc.balance = balance acc.username (s.deals tr)

theorem recordChange_deal {s : Server} {action : Action} {k : Nat} {x y : Auction}
    (h : RecordChange s action k x y) (hclosed : k ∉ s.auctionsList.nodes) :
    y.deal = x.deal := by
  cases h with
  | bid user bid hon => exact absurd hon.mem hclosed
  | _ => rfl

/-- An old record is found again after the step. -/
theorem effect_kept {s s' : Server} {action : Action} {out : List Event} {k : Nat}
    (inv : ServerInv s) (h : Effect s action s' out) (hlen : s.auctions.length ≤ s'.auctions.length)
    (hk : k < s.auctions.length) :
    ∃ x y, s.auctions[k]? = some x ∧ s'.auctions[k]? = some y ∧ RecordChange s action k x y := by
  have hy := List.getElem?_eq_getElem (hk.trans_le hlen)
  rcases effect_record inv.store.toListInv h hy with ⟨x, hx, hchange⟩ | ⟨rfl, -⟩
  · exact ⟨x, _, hx, hy, hchange⟩
  · exact absurd hk (lt_irrefl _)

/-- What a step leaves alone: the creators of old auctions, and the deals of closed ones. -/
structure DealsKept (tr : List Event) (s s' : Server) : Prop where
  created : ∀ name, (List.range s.auctions.length).filter (s'.createdBy name) =
    (List.range s.auctions.length).filter (s.createdBy name)
  won : ∀ name, (closings tr).filter (s'.wonBy name) = (closings tr).filter (s.wonBy name)
  deals : s'.deals tr = s.deals tr

theorem dealsKept {s s' : Server} {action : Action} {out tr : List Event}
    (inv : ServerInv s) (closed : ClosedInv tr s) (hlen : s.auctions.length ≤ s'.auctions.length)
    (h : Effect s action s' out) : DealsKept tr s s' := by
  have hdeal : ∀ a ∈ closings tr, s'.deal a = s.deal a := by
    intro a ha
    obtain ⟨hlt, hgone⟩ := (closed.closed a).mp ha
    obtain ⟨x, y, hx, hy, hchange⟩ := effect_kept inv h hlen hlt
    simp only [Server.deal, hx, hy, Option.map_some, recordChange_deal hchange hgone]
  constructor
  · intro name
    refine List.filter_congr fun a ha => ?_
    obtain ⟨x, y, hx, hy, hchange⟩ := effect_kept inv h hlen (List.mem_range.mp ha)
    simp only [Server.createdBy, Server.deal, hx, hy, Option.map_some, Option.any_some,
      Auction.deal, recordChange_creator hchange]
  · intro name
    refine List.filter_congr fun a ha => ?_
    simp only [Server.wonBy, hdeal a ha]
  · exact List.filterMap_congr hdeal

theorem AccountInv.quiet {tr out : List Event} {s s' : Server} {acc : Account}
    (inv : AccountInv tr s acc) (kept : DealsKept tr s s') (hnone : closings out = [])
    (hlen : s'.auctions.length = s.auctions.length) : AccountInv (tr ++ out) s' acc := by
  have hclosings : closings (tr ++ out) = closings tr := by
    rw [closings_append, hnone, List.append_nil]
  constructor
  · rw [hlen, kept.created]
    exact inv.owned
  · rw [hclosings, kept.won]
    exact inv.won
  · rw [Server.deals, hclosings, ← Server.deals, kept.deals]
    exact inv.balance

/-- A user nobody has dealt with yet has an empty account. -/
theorem accountInv_new {tr : List Event} {s : Server} (inv : ServerInv s) {name : CharStar}
    (hnew : ¬ s.Names name) : AccountInv tr s ⟨name, createList, createList, 0⟩ := by
  have hstranger : ∀ a d, s.deal a = some d → d.seller ≠ name ∧ d.buyer ≠ some name := by
    intro a d hd
    obtain ⟨x, hx, rfl⟩ := Option.map_eq_some_iff.mp hd
    have party := inv.parties a x hx
    constructor
    · intro h
      exact hnew (h ▸ party.creator)
    · intro h
      obtain ⟨w, hw, rfl⟩ := Option.map_eq_some_iff.mp h
      exact hnew (hw ▸ party.winner (by simp [hw]))
  refine ⟨Eq.symm ?_, Eq.symm ?_, Eq.symm ?_⟩
  · refine List.filter_eq_nil_iff.mpr fun a _ ha => ?_
    obtain ⟨d, hd, hname⟩ := (Option.any_eq_true _ _).mp ha
    exact (hstranger a d hd).1 (by simpa using hname)
  · refine List.filter_eq_nil_iff.mpr fun a _ ha => ?_
    obtain ⟨d, hd, hname⟩ := (Option.any_eq_true _ _).mp ha
    exact (hstranger a d hd).2 (by simpa using hname)
  · refine balance_of_stranger fun d hd => ?_
    obtain ⟨a, -, ha⟩ := List.mem_filterMap.mp hd
    exact hstranger a d ha

/-- A new auction is entered under its creator. -/
theorem AccountInv.create {tr out : List Event} {s s' : Server} {u : User} {x : Auction}
    (inv : AccountInv tr s u.account) (kept : DealsKept tr s s') (hnone : closings out = [])
    (hstore : s'.auctions = s.auctions ++ [x]) :
    AccountInv (tr ++ out) s'
      (if u.username = x.creator then u.own s.auctions.length else u).account := by
  have hclosings : closings (tr ++ out) = closings tr := by
    rw [closings_append, hnone, List.append_nil]
  have hlen : s'.auctions.length = s.auctions.length + 1 := by simp [hstore]
  have hnew : s'.deal s.auctions.length = some x.deal := by simp [Server.deal, hstore]
  have hwon : ∀ name, (closings (tr ++ out)).filter (s'.wonBy name) =
      (closings tr).filter (s.wonBy name) := fun name => by rw [hclosings, kept.won]
  have hdeals : s'.deals (tr ++ out) = s.deals tr := by
    rw [Server.deals, hclosings, ← Server.deals, kept.deals]
  have howned : (List.range s'.auctions.length).filter (s'.createdBy u.username) =
      u.auctionsOwned.nodes ++ if u.username = x.creator then [s.auctions.length] else [] := by
    rw [hlen, List.range_succ, List.filter_append, kept.created]
    refine congrArg₂ _ inv.owned.symm ?_
    simp only [List.filter_singleton, Server.createdBy, hnew, Option.any_some, Auction.deal]
    by_cases h : u.username = x.creator
    · simp [h]
    · simp [h, Ne.symm h]
  by_cases h : u.username = x.creator
  · rw [if_pos h]
    refine ⟨?_, inv.won.trans (hwon _).symm, inv.balance.trans (congrArg _ hdeals.symm)⟩
    rw [if_pos h] at howned
    exact howned.symm
  · rw [if_neg h]
    refine ⟨?_, inv.won.trans (hwon _).symm, inv.balance.trans (congrArg _ hdeals.symm)⟩
    rw [if_neg h, List.append_nil] at howned
    exact howned.symm

/-- The exact value of a settlement is an int. -/
def Event.Fits : Event → Prop
  | .debited _ v => InInt v
  | .credited _ v => InInt v
  | _ => True

instance : ∀ e : Event, Decidable e.Fits
  | .sent _ => inferInstanceAs (Decidable True)
  | .accepted _ _ _ => inferInstanceAs (Decidable True)
  | .closed _ => inferInstanceAs (Decidable True)
  | .debited _ v => inferInstanceAs (Decidable (InInt v))
  | .credited _ v => inferInstanceAs (Decidable (InInt v))

/-- No balance has left the int range so far. -/
def BalancesFit (tr : List Event) : Prop := ∀ e ∈ tr, e.Fits

instance (tr : List Event) : Decidable (BalancesFit tr) := List.decidableBAll _ tr

theorem balancesFit_append {xs ys : List Event} (h : BalancesFit (xs ++ ys)) :
    BalancesFit xs ∧ BalancesFit ys :=
  ⟨fun e he => h e (List.mem_append_left ys he), fun e he => h e (List.mem_append_right xs he)⟩

theorem wins_iff_buyer {u : User} {x : Auction} :
    u.wins x ↔ x.deal.buyer = some u.username := by
  simp only [User.wins, Auction.deal, Option.map_eq_some_iff]
  constructor
  · rintro ⟨hne, hw⟩
    obtain ⟨w, hw'⟩ := Option.ne_none_iff_exists'.mp hne
    exact ⟨w, hw', by rw [hw, hw']⟩
  · rintro ⟨w, hw, hu⟩
    simp [hw, ← hu]

theorem deal_amount (u : User) (x : Auction) : x.deal.amount u.username =
    (if u.username = x.creator then x.bid else 0) + (if u.wins x then -x.bid else 0) := by
  simp only [Deal.amount, ← wins_iff_buyer]
  simp [Auction.deal, eq_comm]

@[simp] theorem settle_username (a : Nat) (x : Auction) (u : User) :
    (u.settle a x).username = u.username := by
  simp only [User.settle]
  split
  · rfl
  · split <;> rfl

@[simp] theorem settle_owned (a : Nat) (x : Auction) (u : User) :
    (u.settle a x).auctionsOwned = u.auctionsOwned := by
  simp only [User.settle]
  split
  · rfl
  · split <;> rfl

theorem settle_won (a : Nat) (x : Auction) (u : User) : (u.settle a x).auctionsWon.nodes =
    u.auctionsWon.nodes ++ if u.wins x then [a] else [] := by
  simp only [User.settle]
  split
  · rfl
  · rw [List.append_nil]
    split <;> rfl

/-- A settlement changes a balance by the amount of the deal, as long as that is an int. -/
theorem settle_balance {a : Nat} {x : Auction} {u : User}
    (hnot : u.wins x → u.username ≠ x.creator) (hdebit : u.wins x → InInt (u.balance - x.bid))
    (hcredit : u.username = x.creator → InInt (u.balance + x.bid)) :
    (u.settle a x).balance = u.balance + x.deal.amount u.username := by
  rw [deal_amount, User.settle]
  by_cases hw : u.wins x
  · rw [if_pos hw, if_pos hw, if_neg (hnot hw)]
    change wrap32 (u.balance - x.bid) = _
    rw [wrap32_of_inInt (hdebit hw)]
    omega
  · rw [if_neg hw, if_neg hw]
    by_cases hc : u.username = x.creator
    · rw [if_pos hc, if_pos hc, Int.add_zero]
      exact wrap32_of_inInt (hcredit hc)
    · rw [if_neg hc, if_neg hc]
      omega

/-- A settlement is entered for both parties, as long as their balances stay ints. -/
theorem AccountInv.close {tr pre out : List Event} {s s' : Server} {u : User} {a : Nat}
    {x : Auction} (inv : AccountInv tr s u.account) (kept : DealsKept tr s s')
    (hnot : u.wins x → u.username ≠ x.creator) (hu : u ∈ s.users)
    (hone : closings (pre ++ out) = [a])
    (hlen : s'.auctions.length = s.auctions.length) (hx : s'.auctions[a]? = some x)
    (hsettles : Settles s.users a x s'.users out)
    (hfit : BalancesFit out) :
    AccountInv (tr ++ (pre ++ out)) s' (u.settle a x).account := by
  have hclosings : closings (tr ++ (pre ++ out)) = closings tr ++ [a] := by
    rw [closings_append, hone]
  have hdeal : s'.deal a = some x.deal := by simp [Server.deal, hx]
  have hbalance := settle_balance (a := a) hnot (fun hw => hfit _ (hsettles.debits u hu hw))
    fun hc => hfit _ (hsettles.credits u hu hc)
  constructor
  · simp only [User.account, settle_owned, settle_username]
    rw [hlen, kept.created]
    exact inv.owned
  · simp only [User.account, settle_won, settle_username]
    rw [hclosings, List.filter_append, kept.won]
    refine congrArg₂ _ inv.won ?_
    simp only [List.filter_singleton, Server.wonBy, hdeal, Option.any_some, wins_iff_buyer]
    simp
  · have hkept : (closings tr).filterMap s'.deal = (closings tr).filterMap s.deal := kept.deals
    have hlast : [a].filterMap s'.deal = [x.deal] := by simp [hdeal]
    simp only [User.account, hbalance, settle_username]
    rw [Server.deals, hclosings, List.filterMap_append, hkept, hlast, balance_concat]
    exact congrArg (· + _) inv.balance

theorem accounts_step {tr out : List Event} {s s' : Server} {action : Action}
    (server : ServerInv s) (closed : ClosedInv tr s)
    (inv : ∀ u ∈ s.users, AccountInv tr s u.account) (hok : Sponsored s action)
    (h : Effect s action s' out) (hfit : BalancesFit out) :
    ∀ u ∈ s'.users, AccountInv (tr ++ out) s' u.account := by
  have hbooks := effect_books server hok h
  have hlist := effect_list server.store.toListInv h
  have kept := dealsKept server closed hlist.length_le h
  have server' := serverInv_step server hok h
  intro u' hu'
  cases hbooks with
  | same hnone hlen haccounts =>
    have hmem : u'.account ∈ s.users.map User.account := haccounts ▸ List.mem_map_of_mem hu'
    obtain ⟨u, hu, hacc⟩ := List.mem_map.mp hmem
    exact hacc ▸ (inv u hu).quiet kept hnone hlen
  | signUp v hnone hstore husers hempty =>
    rw [husers, List.mem_append, List.mem_singleton] at hu'
    rcases hu' with hu' | rfl
    · exact (inv u' hu').quiet kept hnone (by rw [hstore])
    · have hnew : ¬ s.Names u'.username := by
        rintro ⟨w, hw, hname⟩
        have hnodup := server'.users.pointers
        rw [husers, List.map_append, List.nodup_append] at hnodup
        exact hnodup.2.2 _ (List.mem_map_of_mem hw) _ (by simp) hname
      rw [hempty]
      exact (accountInv_new server hnew).quiet kept hnone (by rw [hstore])
  | create x hnone hstore _ husers =>
    rw [husers] at hu'
    obtain ⟨u, hu, rfl⟩ := List.mem_map.mp hu'
    exact (inv u hu).create kept hnone hstore
  | close a x pre out hone hlen hx hsettles =>
    have party : PartyInv s' x := server'.parties a x hx
    rw [hsettles.users] at hu'
    obtain ⟨u, hu, rfl⟩ := List.mem_map.mp hu'
    exact (inv u hu).close kept party.not_both hu hone hlen hx hsettles
      (balancesFit_append hfit).2

def Server.finalBid (s : Server) (a : Nat) : Int := (s.auctions[a]?).elim 0 Auction.bid

/-- What the lists and balances of the users say after a log. An auction of the store is closed
when it is no longer on the list. -/
structure LedgerLaw (tr : List Event) (s : Server) : Prop where
  closed : ∀ a, a ∈ closings tr ↔ a < s.auctions.length ∧ a ∉ s.auctionsList.nodes
  owned : ∀ (a : Nat) (x : Auction), s.auctions[a]? = some x →
    ∃ u ∈ s.users, u.username = x.creator ∧ u.auctionsOwned.nodes.count a = 1 ∧
      ∀ v ∈ s.users, v ≠ u → a ∉ v.auctionsOwned.nodes
  won : ∀ a ∈ closings tr, ∀ x : Auction, s.auctions[a]? = some x → x.currentWinner ≠ none →
    ∃ u ∈ s.users, u.username = x.currentWinner ∧ u.auctionsWon.nodes.count a = 1 ∧
      ∀ v ∈ s.users, v ≠ u → a ∉ v.auctionsWon.nodes
  onlyWon : ∀ u ∈ s.users, ∀ a ∈ u.auctionsWon.nodes, a ∈ closings tr ∧
    ∃ x, s.auctions[a]? = some x ∧ x.currentWinner ≠ none
  balance : ∀ u ∈ s.users, u.balance =
    (((closings tr).filter (s.createdBy u.username)).map s.finalBid).sum -
      (u.auctionsWon.nodes.map s.finalBid).sum
  zero : (s.users.map User.balance).sum = 0

theorem createdBy_iff {s : Server} {name : CharStar} {a : Nat} {x : Auction}
    (hx : s.auctions[a]? = some x) : s.createdBy name a = true ↔ x.creator = name := by
  simp [Server.createdBy, Server.deal, hx, Auction.deal]

theorem wonBy_iff {s : Server} {name : CharStar} {a : Nat} {x : Auction}
    (hx : s.auctions[a]? = some x) :
    s.wonBy name a = true ↔ ∃ w, x.currentWinner = some w ∧ some w = name := by
  simp [Server.wonBy, Server.deal, hx, Auction.deal]

/-- A duplicate-free list holds a selected element exactly once. -/
theorem count_filter_one {l : List Nat} (hl : l.Nodup) {p : Nat → Bool} {a : Nat} (ha : a ∈ l)
    (hp : p a = true) : (l.filter p).count a = 1 :=
  List.count_eq_one_of_mem (hl.filter p) (List.mem_filter.mpr ⟨ha, hp⟩)

/-- The prices of the selected deals are the final bids of the selected auctions. -/
theorem deals_sum {tr : List Event} {s : Server} (p : Deal CharStar → Bool) :
    (((s.deals tr).filter p).map Deal.price).sum =
      (((closings tr).filter fun a => (s.deal a).any p).map s.finalBid).sum := by
  simp only [Server.deals]
  induction closings tr with
  | nil => rfl
  | cons a rest ih =>
    cases hx : s.auctions[a]? with
    | none =>
      have hdeal : s.deal a = none := by simp [Server.deal, hx]
      simpa [List.filterMap_cons, hdeal] using ih
    | some x =>
      have hdeal : s.deal a = some x.deal := by simp [Server.deal, hx]
      have hbid : s.finalBid a = x.deal.price := by simp [Server.finalBid, hx, Auction.deal]
      by_cases hp : p x.deal <;> simp [hdeal, hp, hbid, ih]

/-- Two records with the same pointer for a name are one. -/
theorem ServerInv.username_inj {s : Server} (server : ServerInv s) {u v : User} (hu : u ∈ s.users)
    (hv : v ∈ s.users) (h : u.username = v.username) : u = v :=
  server.users.name_inj hu hv (congrArg nameText h)

/-- Every auction is in its creator's list, once, and in no other. -/
theorem owned_once {tr : List Event} {s : Server} (server : ServerInv s)
    (inv : ∀ u ∈ s.users, AccountInv tr s u.account) {a : Nat} {x : Auction}
    (hx : s.auctions[a]? = some x) :
    ∃ u ∈ s.users, u.username = x.creator ∧ u.auctionsOwned.nodes.count a = 1 ∧
      ∀ v ∈ s.users, v ≠ u → a ∉ v.auctionsOwned.nodes := by
  have hlt := (List.getElem?_eq_some_iff.mp hx).1
  obtain ⟨u, hu, hname⟩ := (server.parties a x hx).creator
  refine ⟨u, hu, hname, ?_, ?_⟩
  · rw [show u.auctionsOwned.nodes = _ from (inv u hu).owned]
    exact count_filter_one List.nodup_range (List.mem_range.mpr hlt)
      ((createdBy_iff hx).mpr hname.symm)
  · intro v hv hne hmem
    rw [show v.auctionsOwned.nodes = _ from (inv v hv).owned, List.mem_filter] at hmem
    have hcreator : x.creator = v.username := (createdBy_iff hx).mp hmem.2
    exact hne (server.username_inj hv hu (hcreator.symm.trans hname.symm))

/-- Every auction that is sold and closed is in its winner's list, once, and in no other. -/
theorem won_once {tr : List Event} {s : Server} (server : ServerInv s) (closed : ClosedInv tr s)
    (inv : ∀ u ∈ s.users, AccountInv tr s u.account) {a : Nat} (ha : a ∈ closings tr) {x : Auction}
    (hx : s.auctions[a]? = some x) (hwinner : x.currentWinner ≠ none) :
    ∃ u ∈ s.users, u.username = x.currentWinner ∧ u.auctionsWon.nodes.count a = 1 ∧
      ∀ v ∈ s.users, v ≠ u → a ∉ v.auctionsWon.nodes := by
  obtain ⟨u, hu, hname⟩ := (server.parties a x hx).winner hwinner
  obtain ⟨w, hw⟩ := Option.ne_none_iff_exists'.mp hwinner
  refine ⟨u, hu, hname, ?_, ?_⟩
  · rw [show u.auctionsWon.nodes = _ from (inv u hu).won]
    have hwon := (wonBy_iff hx).mpr ⟨w, hw, hw.symm.trans hname.symm⟩
    exact count_filter_one closed.once ha hwon
  · intro v hv hne hmem
    rw [show v.auctionsWon.nodes = _ from (inv v hv).won, List.mem_filter] at hmem
    obtain ⟨w', hw', hv'⟩ := (wonBy_iff hx).mp hmem.2
    exact hne (server.username_inj hv hu (hv'.symm.trans (hw'.symm.trans hname.symm)))

/-- Only recorded users deal, and an unsold auction costs nothing. -/
theorem deals_among {tr : List Event} {s : Server} (server : ServerInv s) :
    ∀ d ∈ s.deals tr, d.Among (s.users.map User.username) := by
  intro d hd
  obtain ⟨a, -, ha⟩ := List.mem_filterMap.mp hd
  obtain ⟨x, hx, rfl⟩ := Option.map_eq_some_iff.mp ha
  have party := server.parties a x hx
  refine ⟨List.mem_map.mpr party.creator, ?_, ?_⟩
  · intro b hb
    obtain ⟨w, hw, rfl⟩ := Option.map_eq_some_iff.mp hb
    exact List.mem_map.mpr (hw ▸ party.winner (by simp [hw]))
  · intro hnone
    exact (server.store.records a x hx).winner.mpr (Option.map_eq_none_iff.mp hnone)

theorem ledgerLaw {tr : List Event} {s : Server} (server : ServerInv s) (closed : ClosedInv tr s)
    (inv : ∀ u ∈ s.users, AccountInv tr s u.account) : LedgerLaw tr s := by
  constructor
  · exact closed.closed
  · exact fun a x hx => owned_once server inv hx
  · exact fun a ha x hx hwinner => won_once server closed inv ha hx hwinner
  · intro u hu a ha
    rw [show u.auctionsWon.nodes = _ from (inv u hu).won, List.mem_filter] at ha
    obtain ⟨x, hx⟩ : ∃ x, s.auctions[a]? = some x :=
      ⟨_, List.getElem?_eq_getElem ((closed.closed a).mp ha.1).1⟩
    obtain ⟨w, hw, -⟩ := (wonBy_iff hx).mp ha.2
    exact ⟨ha.1, x, hx, by simp [hw]⟩
  · intro u hu
    have hbalance : u.balance = _ := (inv u hu).balance
    have hwon : u.auctionsWon.nodes = _ := (inv u hu).won
    rw [hbalance, balance_eq, deals_sum, deals_sum, hwon]
    rfl
  · have hmap : s.users.map User.balance =
        (s.users.map User.username).map fun p => balance p (s.deals tr) := by
      rw [List.map_map]
      exact List.map_congr_left fun u hu => (inv u hu).balance
    rw [hmap]
    exact sum_balance server.users.pointers (deals_among server)

theorem accounts_run {as : List Action} {tr : List Event} {s : Server}
    (run : Run Server.step Sponsored Server.start as tr s) (hfit : BalancesFit tr) :
    ∀ u ∈ s.users, AccountInv tr s u.account := by
  have haccounts : BalancesFit tr → ∀ u ∈ s.users, AccountInv tr s u.account :=
    run.invariant (P := fun _ tr s => BalancesFit tr → ∀ u ∈ s.users, AccountInv tr s u.account)
      (fun _ => by simp [Server.start, Server.users, createList])
      fun hrun ih hok hs hfit => accounts_step (serverInv_run hrun) (priceInv_run hrun).closed
        (ih (balancesFit_append hfit).1) hok (step_effect hs) (balancesFit_append hfit).2
  exact haccounts hfit

/-- The ledger law, for every run in which no balance leaves the int range. -/
theorem ledgerLaw_run {as : List Action} {tr : List Event} {s : Server}
    (run : Run Server.step (Server.Admits Recorded) Server.start as tr s) (hfit : BalancesFit tr) :
    LedgerLaw tr s := by
  have hrun := run.mono sponsored_of_recorded
  exact ledgerLaw (serverInv_run hrun) (priceInv_run hrun).closed (accounts_run hrun hfit)

/-- Two more ticks and B has won the auction. -/
def sampleSale : List Action := sampleBid ++ [.tick, .tick]

theorem sampleSale_completes :
    (exec Server.step (Server.Admits Recorded) Server.start sampleSale).isSome := by decide

theorem ledgerLaw_run_sample :
    let sample := (exec Server.step (Server.Admits Recorded) Server.start sampleSale).get
      sampleSale_completes
    sample.1.users.map User.balance = [7, -7] ∧ LedgerLaw sample.2 sample.1 :=
  ⟨by decide, ledgerLaw_run (run_of_isSome sampleSale_completes) (by decide)⟩

end ZBid
