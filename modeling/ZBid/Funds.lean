import ZBid.Overflow

/-!
# Balances modulo 2^32

A balance is an int, and a settlement that leaves the range of an int wraps around. What the lists
of a user say does not depend on that, and a balance is still the books up to multiples of 2^32.
-/
namespace ZBid

open CInt CString Runs Bookkeeping

theorem wrap32_add_left (m n : Int) : wrap32 (wrap32 m + n) = wrap32 (m + n) := by
  simp only [wrap32]
  omega

theorem wrap32_emod (n : Int) : wrap32 n % 4294967296 = n % 4294967296 := by
  simp only [wrap32]
  omega

/-- The account would be right with some exact balance, of which the int holds what fits. -/
def WrappedInv (tr : List Event) (s : Server) (acc : Account) : Prop :=
  ∃ exact, AccountInv tr s { acc with balance := exact } ∧ acc.balance = wrap32 exact

/-- A settlement changes a balance by the amount of the deal, up to multiples of 2^32. -/
theorem settle_wrapped {a : Nat} {x : Auction} {u : User} {exact : Int}
    (hnot : u.wins x → u.username ≠ x.creator) (hbalance : u.balance = wrap32 exact) :
    (u.settle a x).balance = wrap32 (exact + x.deal.amount u.username) := by
  rw [deal_amount, User.settle]
  by_cases hw : u.wins x
  · rw [if_pos hw, if_pos hw, if_neg (hnot hw), Int.zero_add]
    change wrap32 (u.balance + -x.bid) = _
    rw [hbalance, wrap32_add_left]
  · rw [if_neg hw, if_neg hw, Int.add_zero]
    by_cases hc : u.username = x.creator
    · rw [if_pos hc, if_pos hc]
      change wrap32 (u.balance + x.bid) = _
      rw [hbalance, wrap32_add_left]
    · rw [if_neg hc, if_neg hc, Int.add_zero]
      exact hbalance

/-- A settlement is entered in an account that has changed by the deal. -/
theorem AccountInv.settled {tr out : List Event} {s s' : Server} {acc acc' : Account} {a : Nat}
    {x : Auction} (inv : AccountInv tr s acc) (kept : DealsKept tr s s')
    (hone : closings out = [a]) (hlen : s'.auctions.length = s.auctions.length)
    (hx : s'.auctions[a]? = some x) (hname : acc'.username = acc.username)
    (howned : acc'.owned.nodes = acc.owned.nodes)
    (hwon : acc'.won.nodes =
      acc.won.nodes ++ if x.deal.buyer = some acc.username then [a] else [])
    (hbalance : acc'.balance = acc.balance + x.deal.amount acc.username) :
    AccountInv (tr ++ out) s' acc' := by
  have hclosings : closings (tr ++ out) = closings tr ++ [a] := by rw [closings_append, hone]
  have hdeal : s'.deal a = some x.deal := by simp [Server.deal, hx]
  constructor
  · rw [howned, hname, hlen, kept.created]
    exact inv.owned
  · rw [hwon, hname, hclosings, List.filter_append, kept.won, inv.won]
    refine congrArg _ ?_
    simp only [List.filter_singleton, Server.wonBy, hdeal, Option.any_some]
    by_cases h : x.deal.buyer = some acc.username <;> simp [h]
  · have hkept : (closings tr).filterMap s'.deal = (closings tr).filterMap s.deal := kept.deals
    rw [hbalance, hname, Server.deals, hclosings, List.filterMap_append, hkept, inv.balance]
    simp [hdeal, balance_concat, Server.deals]

theorem wrapped_step {tr out : List Event} {s s' : Server} {action : Action}
    (server : ServerInv s) (closed : ClosedInv tr s)
    (inv : ∀ u ∈ s.users, WrappedInv tr s u.account) (hok : Sponsored s action)
    (h : Effect s action s' out) : ∀ u ∈ s'.users, WrappedInv (tr ++ out) s' u.account := by
  have hbooks := effect_books server hok h
  have hlist := effect_list server.store.toListInv h
  have kept := dealsKept server closed hlist.length_le h
  have server' := serverInv_step server hok h
  intro u' hu'
  cases hbooks with
  | same hnone hlen haccounts =>
    have hmem : u'.account ∈ s.users.map User.account := haccounts ▸ List.mem_map_of_mem hu'
    obtain ⟨u, hu, hacc⟩ := List.mem_map.mp hmem
    obtain ⟨exact, hexact, hbalance⟩ := inv u hu
    exact hacc ▸ ⟨exact, hexact.quiet kept hnone hlen, hbalance⟩
  | signUp v hnone hstore husers hempty =>
    rw [husers, List.mem_append, List.mem_singleton] at hu'
    rcases hu' with hu' | rfl
    · obtain ⟨exact, hexact, hbalance⟩ := inv u' hu'
      exact ⟨exact, hexact.quiet kept hnone (by rw [hstore]), hbalance⟩
    · have hnew : ¬ s.Names u'.username := by
        rintro ⟨w, hw, hname⟩
        have hnodup := server'.users.pointers
        rw [husers, List.map_append, List.nodup_append] at hnodup
        exact hnodup.2.2 _ (List.mem_map_of_mem hw) _ (by simp) hname
      rw [hempty]
      exact ⟨0, (accountInv_new server hnew).quiet kept hnone (by rw [hstore]), rfl⟩
  | create x hnone hstore _ husers =>
    rw [husers] at hu'
    obtain ⟨u, hu, rfl⟩ := List.mem_map.mp hu'
    obtain ⟨exact, hexact, hbalance⟩ := inv u hu
    have hnew := AccountInv.create (u := { u with balance := exact }) hexact kept hnone hstore
    refine ⟨exact, ?_, ?_⟩
    · by_cases hc : u.username = x.creator
      · simpa [hc, User.account, User.own] using hnew
      · simpa [hc, User.account] using hnew
    · by_cases hc : u.username = x.creator
      · simpa [hc, User.account, User.own] using hbalance
      · simpa [hc, User.account] using hbalance
  | close a x pre out hone hlen hx hsettles =>
    have party : PartyInv s' x := server'.parties a x hx
    rw [hsettles.users] at hu'
    obtain ⟨u, hu, rfl⟩ := List.mem_map.mp hu'
    obtain ⟨exact, hexact, hbalance⟩ := inv u hu
    refine ⟨exact + x.deal.amount u.username, ?_, settle_wrapped party.not_both hbalance⟩
    refine hexact.settled kept hone hlen hx (settle_username a x u)
      (congrArg LinkedList.nodes (settle_owned a x u)) ?_ rfl
    refine (settle_won a x u).trans (congrArg _ ?_)
    by_cases hw : u.wins x
    · rw [if_pos hw]
      exact (if_pos (wins_iff_buyer.mp hw)).symm
    · rw [if_neg hw]
      exact (if_neg fun h => hw (wins_iff_buyer.mpr h)).symm

theorem wrapped_run {as : List Action} {tr : List Event} {s : Server}
    (run : Run Server.step Sponsored Server.start as tr s) :
    ServerInv s ∧ ClosedInv tr s ∧ ∀ u ∈ s.users, WrappedInv tr s u.account := by
  refine run.invariant (P := fun _ tr s =>
    ServerInv s ∧ ClosedInv tr s ∧ ∀ u ∈ s.users, WrappedInv tr s u.account) ?_ ?_
  · exact ⟨serverInv_start, closedInv_start, by simp [Server.start, Server.users, createList]⟩
  · intro as tr s action s' out _ ih hok hs
    obtain ⟨server, closed, inv⟩ := ih
    have h := step_effect hs
    have list := server.store.toListInv
    exact ⟨serverInv_step server hok h, closedInv_step list closed (effect_list list h),
      wrapped_step server closed inv hok h⟩

/-- What the lists and the balances of the users say after a log, whatever its prices. -/
structure FundsLaw (tr : List Event) (s : Server) : Prop where
  owned : ∀ u ∈ s.users, u.auctionsOwned.nodes =
    (List.range s.auctions.length).filter (s.createdBy u.username)
  won : ∀ u ∈ s.users, u.auctionsWon.nodes = (closings tr).filter (s.wonBy u.username)
  balance : ∀ u ∈ s.users, u.balance =
    wrap32 ((((closings tr).filter (s.createdBy u.username)).map s.finalBid).sum -
      (u.auctionsWon.nodes.map s.finalBid).sum)
  zero : (s.users.map User.balance).sum % 4294967296 = 0

theorem sum_emod_congr {α : Type} {f g : α → Int} {m : Int} {xs : List α}
    (h : ∀ x ∈ xs, f x % m = g x % m) : (xs.map f).sum % m = (xs.map g).sum % m := by
  induction xs with
  | nil => rfl
  | cons x xs ih =>
    have hx := h x List.mem_cons_self
    have hxs := ih fun y hy => h y (List.mem_cons_of_mem x hy)
    rw [List.map_cons, List.sum_cons, Int.add_emod, hx, hxs, ← Int.add_emod, List.map_cons,
      List.sum_cons]

theorem WrappedInv.balance_eq {tr : List Event} {s : Server} {acc : Account}
    (h : WrappedInv tr s acc) : acc.balance = wrap32 (balance acc.username (s.deals tr)) := by
  obtain ⟨exact, hexact, hbalance⟩ := h
  rw [hbalance, show exact = _ from hexact.balance]

theorem fundsLaw {tr : List Event} {s : Server} (server : ServerInv s)
    (inv : ∀ u ∈ s.users, WrappedInv tr s u.account) : FundsLaw tr s := by
  have hbooks : ∀ u ∈ s.users, u.balance = wrap32 (balance u.username (s.deals tr)) :=
    fun u hu => (inv u hu).balance_eq
  constructor
  · intro u hu
    obtain ⟨exact, hexact, -⟩ := inv u hu
    exact hexact.owned
  · intro u hu
    obtain ⟨exact, hexact, -⟩ := inv u hu
    exact hexact.won
  · intro u hu
    obtain ⟨exact, hexact, -⟩ := inv u hu
    have hwon : u.auctionsWon.nodes = _ := hexact.won
    rw [hbooks u hu, Bookkeeping.balance_eq, deals_sum, deals_sum, hwon]
    rfl
  · have among : ∀ d ∈ s.deals tr, d.Among (s.users.map User.username) := deals_among server
    have hsum := sum_balance server.users.pointers among
    have hwrap : ∀ u ∈ s.users, u.balance % 4294967296 =
        balance u.username (s.deals tr) % 4294967296 := by
      intro u hu
      rw [hbooks u hu, wrap32_emod]
    rw [List.map_map] at hsum
    rw [sum_emod_congr hwrap]
    exact congrArg (· % 4294967296) hsum

/-- In every run in which auctions come from recorded users, and with prices of any size. -/
theorem fundsLaw_run {as : List Action} {tr : List Event} {s : Server}
    (run : Run Server.step Sponsored Server.start as tr s) : FundsLaw tr s := by
  obtain ⟨server, -, inv⟩ := wrapped_run run
  exact fundsLaw server inv

/-- In the run in which B spends more than an int holds, the balances wrap. -/
theorem fundsLaw_run_sample :
    let sample := (exec Server.step Sponsored Server.start sampleFortune).get (by decide)
    sample.1.users.map User.balance = [-2, 2] ∧ FundsLaw sample.2 sample.1 :=
  ⟨by decide, fundsLaw_run (run_of_isSome (by decide))⟩

end ZBid
