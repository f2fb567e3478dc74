import ZBid.Ledger

/-!
# Balances in the int range

Nothing limits a bid but the range of an int, and nothing limits the sum of the bids that are
settled on one account. The computed values are ints exactly as long as the sums are: what a user
has earned less what he has spent, after every deal.
-/
namespace ZBid

open CInt CString Runs Bookkeeping

/-- After every deal, what each party has earned less what it has spent is an int. -/
def SumsFit (deals : List (Deal CharStar)) : Prop := ∀ p n, InInt (balance p (deals.take n))

theorem SumsFit.all {deals : List (Deal CharStar)} (h : SumsFit deals) (p : CharStar) :
    InInt (balance p deals) := by
  have hlast := h p deals.length
  rwa [List.take_length] at hlast

theorem SumsFit.left {deals more : List (Deal CharStar)} (h : SumsFit (deals ++ more)) :
    SumsFit deals := by
  intro p n
  have hfit := h p (min n deals.length)
  rwa [List.take_append_of_le_length (min_le_right _ _), ← List.take_eq_take_min] at hfit

theorem sumsFit_concat {deals : List (Deal CharStar)} {d : Deal CharStar} :
    SumsFit (deals ++ [d]) ↔ SumsFit deals ∧ ∀ p, InInt (balance p (deals ++ [d])) := by
  constructor
  · exact fun h => ⟨h.left, h.all⟩
  · rintro ⟨hold, hnew⟩ p n
    rcases Nat.lt_or_ge deals.length n with hn | hn
    · have hlen : (deals ++ [d]).length ≤ n := by
        rw [List.length_append, List.length_singleton]
        exact hn
      rw [List.take_of_length_le hlen]
      exact hnew p
    · rw [List.take_append_of_le_length hn]
      exact hold p n

theorem messages_fit {out : List Event} (h : Messages out) : BalancesFit out := by
  intro e he
  obtain ⟨m, rfl⟩ := h e he
  trivial

/-- A step that closes nothing settles nothing, and one that closes an auction logs the exact
values of its settlement. -/
theorem effect_exact {s s' : Server} {action : Action} {out : List Event} (inv : ServerInv s)
    (h : Effect s action s' out) :
    (closings out = [] ∧ BalancesFit out) ∨
    ∃ a x, closings out = [a] ∧ s'.auctions[a]? = some x ∧ ∀ e ∈ out, e.Exact s.users x := by
  cases h with
  | accept hacc =>
    refine Or.inl ?_
    cases hacc with
    | noLogin => exact ⟨rfl, messages_fit messages_nil⟩
    | _ => exact ⟨rfl, messages_fit (messages_answer _ _)⟩
  | quiet hout => exact Or.inl ⟨closings_messages hout, messages_fit hout⟩
  | logout => exact Or.inl ⟨rfl, messages_fit (messages_answer _ _)⟩
  | create => exact Or.inl ⟨rfl, messages_fit (messages_message _ _ _)⟩
  | watch => exact Or.inl ⟨rfl, messages_fit (messages_message _ _ _)⟩
  | leave => exact Or.inl ⟨rfl, messages_fit (messages_answer _ _)⟩
  | @raise env job a x user bid fds name =>
    have hfit := messages_fit (messages_append (messages_map (fds.filter (· ≠ -1)) .ANUPDATE
      (updateBody (x.withBid user.username bid) name)) (messages_answer job.clientfd .OK))
    refine Or.inl ⟨closings_raise .., fun e he => ?_⟩
    rcases List.mem_cons.mp he with rfl | he
    · trivial
    · exact hfit e he
  | @buy env job a x user bid s₁ _ out _ _ hon hflag hprice hclose hunlink =>
    have party := hon.party env inv ⟨hflag, hprice⟩
    have users : UserInv (s.setAuction a (x.withBid user.username bid)) :=
      inv.users.of_users rfl rfl rfl
    have hget := setAuction_get (x.withBid user.username bid) hon.record
    have hexact := closeAuction_exact users inv.lists party hget hclose
    obtain ⟨us, -, -, rfl⟩ := buy_outcome inv.store.toListInv hon.mem hon.record hclose hunlink
    have hone := (closings_accepted a user.username bid out).trans (closeAuction_closings hclose)
    refine Or.inr ⟨a, x.withBid user.username bid, hone, hget, fun e he => ?_⟩
    rcases List.mem_cons.mp he with rfl | he
    · trivial
    · exact hexact e he
  | tick h =>
    cases tick_outcome inv.store.toListInv h with
    | quiet => exact Or.inl ⟨rfl, messages_fit messages_nil⟩
    | expire pre a post x us _ _ hx _ _ hclose =>
      have hget : (s.ticked.aged (pre ++ [a])).auctions[a]? = some x.older :=
        aged_get_mem (by simp) hx
      have hexact := closeAuction_exact (s := s.ticked.aged (pre ++ [a]))
        (inv.users.of_users rfl rfl rfl) inv.lists ((inv.parties a x hx).older (pre ++ [a])) hget
        hclose
      exact Or.inr ⟨a, x.older, closeAuction_closings hclose, hget, hexact⟩

/-- What a deal adds to the account of a party is the value that its settlement computes. -/
theorem balance_deal {tr : List Event} {s : Server} {u : User} {x : Auction}
    (inv : AccountInv tr s u.account) : balance u.username (s.deals tr ++ [x.deal]) = u.balance +
      ((if u.username = x.creator then x.bid else 0) + (if u.wins x then -x.bid else 0)) := by
  have hbalance : u.balance = balance u.username (s.deals tr) := inv.balance
  rw [balance_concat, deal_amount, ← hbalance]

/-- The values of one settlement are ints exactly if the sums are after the deal. -/
theorem fits_close {tr out : List Event} {s : Server} {a : Nat} {x : Auction} {us' : List User}
    (inv : ∀ u ∈ s.users, AccountInv tr s u.account) (hold : SumsFit (s.deals tr))
    (hnot : ∀ u ∈ s.users, u.wins x → u.username ≠ x.creator) (hcreator : s.Names x.creator)
    (hwinner : x.currentWinner ≠ none → s.Names x.currentWinner)
    (hsettles : Settles s.users a x us' out) {pre : List Event}
    (hexact : ∀ e ∈ pre ++ out, e.Exact s.users x) :
    BalancesFit (pre ++ out) ↔ ∀ p, InInt (balance p (s.deals tr ++ [x.deal])) := by
  constructor
  · intro hfit p
    by_cases hseller : x.creator = p
    · obtain ⟨u, hu, hname⟩ := hcreator
      have hvalue : InInt (u.balance + x.bid) :=
        hfit _ (List.mem_append_right _ (hsettles.credits u hu hname))
      have hloses : ¬ u.wins x := fun hwins => hnot u hu hwins hname
      rw [← hseller, ← hname, balance_deal (inv u hu), if_pos hname, if_neg hloses, Int.add_zero]
      exact hvalue
    · by_cases hbuyer : x.deal.buyer = some p
      · obtain ⟨w, hw, hwp⟩ := Option.map_eq_some_iff.mp hbuyer
        obtain ⟨u, hu, hname⟩ := hwinner (by simp [hw])
        have hwins : u.wins x := ⟨by simp [hw], hname⟩
        have hvalue : InInt (u.balance - x.bid) :=
          hfit _ (List.mem_append_right _ (hsettles.debits u hu hwins))
        rw [← hwp, ← hw, ← hname, balance_deal (inv u hu), if_neg (hnot u hu hwins), if_pos hwins,
          Int.zero_add]
        exact hvalue
      · have hnothing : x.deal.amount p = 0 := by
          have hseller' : x.deal.seller ≠ p := hseller
          simp [Deal.amount, hseller', hbuyer]
        rw [balance_concat, hnothing, Int.add_zero]
        exact hold.all p
  · intro hnew e he
    have hvalue := hexact e he
    cases e with
    | debited b v =>
      obtain ⟨u, hu, hwins, rfl⟩ := hvalue
      have hsum := hnew u.username
      rw [balance_deal (inv u hu), if_neg (hnot u hu hwins), if_pos hwins, Int.zero_add] at hsum
      exact hsum
    | credited b v =>
      obtain ⟨u, hu, hname, rfl⟩ := hvalue
      have hsum := hnew u.username
      rw [balance_deal (inv u hu), if_pos hname, if_neg fun hwins => hnot u hu hwins hname,
        Int.add_zero] at hsum
      exact hsum
    | _ => trivial

theorem deals_step {tr out : List Event} {s s' : Server} (kept : DealsKept tr s s') :
    s'.deals (tr ++ out) = s.deals tr ++ (closings out).filterMap s'.deal := by
  rw [Server.deals, closings_append, List.filterMap_append, ← Server.deals, kept.deals]

theorem fits_step {tr out : List Event} {s s' : Server} {action : Action} (server : ServerInv s)
    (closed : ClosedInv tr s) (inv : ∀ u ∈ s.users, AccountInv tr s u.account)
    (hold : SumsFit (s.deals tr)) (hok : Sponsored s action) (h : Effect s action s' out) :
    BalancesFit out ↔ SumsFit (s'.deals (tr ++ out)) := by
  have hlist := effect_list server.store.toListInv h
  have kept := dealsKept server closed hlist.length_le h
  have server' := serverInv_step server hok h
  have hquiet : closings out = [] → BalancesFit out →
      (BalancesFit out ↔ SumsFit (s'.deals (tr ++ out))) := by
    intro hnone hfit
    refine iff_of_true hfit ?_
    rw [deals_step kept, hnone, List.filterMap_nil, List.append_nil]
    exact hold
  rcases effect_exact server h with ⟨hnone, hfit⟩ | ⟨a, x, hone, hx, hexact⟩
  · exact hquiet hnone hfit
  · cases effect_books server hok h with
    | same hnone => simp [hnone] at hone
    | signUp u hnone => simp [hnone] at hone
    | create y hnone => simp [hnone] at hone
    | close b y pre post hone' _ hy hsettles =>
      obtain rfl : a = b := by simpa using hone.symm.trans hone'
      obtain rfl : x = y := Option.some.inj (hx.symm.trans hy)
      have party := server'.parties a x hx
      have hdeal : s'.deal a = some x.deal := by simp [Server.deal, hx]
      -- A close keeps the usernames, so the parties have been users before.
      have hnames : ∀ name, s'.Names name → s.Names name := by
        rintro name ⟨u, hu, rfl⟩
        rw [hsettles.users] at hu
        obtain ⟨v, hv, rfl⟩ := List.mem_map.mp hu
        exact ⟨v, hv, (settle_username a x v).symm⟩
      rw [deals_step kept, hone, List.filterMap_cons_some hdeal, List.filterMap_nil,
        sumsFit_concat, fits_close inv hold (fun u _ => party.not_both)
          (hnames _ party.creator) (fun hw => hnames _ (party.winner hw)) hsettles hexact]
      exact (and_iff_right hold).symm

/-- The settlements of a run compute ints if and only if what each user has earned less what he
has spent is an int after every close. -/
theorem balancesFit_run {as : List Action} {tr : List Event} {s : Server}
    (run : Run Server.step Sponsored Server.start as tr s) :
    BalancesFit tr ↔ SumsFit (s.deals tr) := by
  refine run.invariant (P := fun _ tr s => BalancesFit tr ↔ SumsFit (s.deals tr)) ?_ ?_
  · have hzero : InInt 0 := by decide
    refine iff_of_true (by simp [BalancesFit]) fun p n => ?_
    simpa [Server.deals, closings, balance] using hzero
  · intro as tr s action s' out hrun ih hok hs
    have heffect := step_effect hs
    have server := serverInv_run hrun
    have closed := (priceInv_run hrun).closed
    by_cases hfit : BalancesFit tr
    · have hstep := fits_step server closed (accounts_run hrun hfit) (ih.mp hfit) hok heffect
      rw [← hstep]
      refine ⟨fun h => (balancesFit_append h).2, fun h e he => ?_⟩
      exact (List.mem_append.mp he).elim (hfit e) (h e)
    · have hlist := effect_list server.store.toListInv heffect
      have kept := dealsKept server closed hlist.length_le heffect
      refine iff_of_false (fun h => hfit (balancesFit_append h).1) fun h => hfit (ih.mpr ?_)
      rw [deals_step kept] at h
      exact h.left

theorem balancesFit_run_sample :
    BalancesFit ((exec Server.step Sponsored Server.start sampleSale).get (by decide)).2 := by
  let sample := (exec Server.step Sponsored Server.start sampleSale).get (by decide)
  have run : Run Server.step Sponsored Server.start sampleSale sample.2 sample.1 :=
    run_of_isSome (by decide)
  have hdeals : sample.1.deals sample.2 =
      [⟨some ⟨0, ['A']⟩, some (some ⟨1, ['B']⟩), 7⟩] := by decide
  refine (balancesFit_run run).mpr fun p n => ?_
  rw [hdeals]
  cases n with
  | zero => exact (by decide : InInt 0)
  | succ n =>
    simp only [List.take_succ_cons, List.take_nil, balance, Deal.amount, List.map_cons,
      List.map_nil, List.sum_cons, List.sum_nil]
    split <;> split <;> decide

/-- A sells two auctions to B, each for the largest amount there is. -/
def sampleFortune : List Action :=
  let bid (id : Char) := sampleJob .ANBID 5
    ([id, '\r', '\n'] ++ ['2', '1', '4', '7', '4', '8', '3', '6', '4', '7'])
  sampleLogins ++ [sampleJob .ANCREATE 4 ['V', '\r', '\n', '1', '\r', '\n', '0'],
    sampleJob .ANCREATE 4 ['W', '\r', '\n', '1', '\r', '\n', '0'],
    sampleJob .ANWATCH 5 ['1'], sampleJob .ANWATCH 5 ['2'], bid '1', bid '2', .tick, .tick]

theorem balancesFit_fails : ¬ ∀ as tr s,
    Run Server.step (Server.Admits LoggedIn) Server.start as tr s → BalancesFit tr := by
  intro claim
  have run : Run Server.step (Server.Admits LoggedIn) Server.start sampleFortune _
      ((exec Server.step (Server.Admits LoggedIn) Server.start sampleFortune).get
        (by decide)).1 := run_of_isSome (by decide)
  exact absurd (claim _ _ _ run) (by decide)

end ZBid
