import ZBid.Lib.Ascending
import ZBid.Settlement

/-!
# The price of an auction

The bids accepted on an auction rise, although the buy-it-now exit of `bidAuction` never looks at
the current bid: as long as the auction is open its bid is at most the buy-it-now price. The
record of an auction always shows the last bid accepted, and that is what its close settles.
-/
namespace ZBid

open CInt CString Runs Ascending

/-- The bids accepted on an auction, oldest first. -/
def bidsOn (a : Nat) (tr : List Event) : List (CharStar × Int) :=
  tr.filterMap fun
    | .accepted b bidder amount => if b = a then some (bidder, amount) else none
    | _ => none

theorem bidsOn_append (a : Nat) (xs ys : List Event) :
    bidsOn a (xs ++ ys) = bidsOn a xs ++ bidsOn a ys := List.filterMap_append

theorem bidsOn_cons (a : Nat) (e : Event) (out : List Event) :
    bidsOn a (e :: out) = bidsOn a [e] ++ bidsOn a out := bidsOn_append a [e] out

theorem bidsOn_messages {a : Nat} {out : List Event} (h : Messages out) : bidsOn a out = [] := by
  rw [bidsOn, List.filterMap_eq_nil_iff]
  intro e he
  obtain ⟨m, rfl⟩ := h e he
  rfl

theorem bidsOn_accepted (a b : Nat) (bidder : CharStar) (amount : Int) :
    bidsOn a [.accepted b bidder amount] = if b = a then [(bidder, amount)] else [] := by
  by_cases h : b = a <;> simp [bidsOn, h]

/-- A close accepts no bid. -/
theorem closeAuction_bids {s s' : Server} {a : Nat} {out : List Event}
    (h : closeAuction s a = some (s', out)) (b : Nat) : bidsOn b out = [] := by
  obtain ⟨c⟩ := closeAuction_spec h
  have hdebit : bidsOn b c.debit = [] := by
    rcases debitWinner_spec c.debits with ⟨-, -, hout⟩ | ⟨_, _, _, _, -, -, -, -, -, hout⟩ <;>
      rw [hout] <;> rfl
  have hcredit : bidsOn b c.credit = [] := by
    obtain ⟨_, _, -, -, -, hout⟩ := creditCreator_spec c.credits
    rw [hout]
    rfl
  rw [c.log, bidsOn_append, bidsOn_messages (messages_map _ _ _), List.append_nil,
    List.cons_append, bidsOn_cons, bidsOn_append, hdebit, hcredit]
  rfl

/-- The record shows the same bid and bidder as before, or it is new and shows none. -/
def SamePrice (s : Server) (k : Nat) (y : Auction) : Prop :=
  (∃ x, s.auctions[k]? = some x ∧ y.bid = x.bid ∧ y.currentWinner = x.currentWinner) ∨
  (k = s.auctions.length ∧ y.bid = 0 ∧ y.currentWinner = none)

/-- A step accepts no bid, or exactly one bid, as the first thing it logs. -/
inductive BidChange (s : Server) : Action → Server → List Event → Prop where
  | quiet {action s' out} : (∀ a, bidsOn a out = []) →
      (∀ (k : Nat) (y : Auction), s'.auctions[k]? = some y → SamePrice s k y) →
      BidChange s action s' out
  | bid {env job s'} (a : Nat) (x : Auction) (user : User) (bid : Int) (rest : List Event) :
      BidOn s job.clientfd a x user bid → x.bid < bid → (∀ b, bidsOn b rest = []) →
      s'.auctions = s.auctions.set a (x.withBid user.username bid) →
      BidChange s (.job env job) s' (.accepted a user.username bid :: rest)

theorem samePrice_self {s : Server} {k : Nat} {y : Auction} (h : s.auctions[k]? = some y) :
    SamePrice s k y := Or.inl ⟨y, h, rfl, rfl⟩

theorem samePrice_set {s : Server} {a k : Nat} {x y z : Auction} (hx : s.auctions[a]? = some x)
    (hbid : y.bid = x.bid) (hwinner : y.currentWinner = x.currentWinner)
    (hz : (s.setAuction a y).auctions[k]? = some z) : SamePrice s k z := by
  rcases setAuction_cases hx hz with ⟨rfl, rfl⟩ | hz
  · exact Or.inl ⟨x, hx, hbid, hwinner⟩
  · exact samePrice_self hz

theorem samePrice_aged {s : Server} {l : List Nat} {k : Nat} {z : Auction}
    (hz : (s.aged l).auctions[k]? = some z) : SamePrice s k z := by
  obtain ⟨x, hx, ⟨-, rfl⟩ | ⟨-, rfl⟩⟩ := aged_cases hz
  · exact Or.inl ⟨x, hx, rfl, rfl⟩
  · exact samePrice_self hx

theorem effect_bids {s s' : Server} {action : Action} {out : List Event} (store : StoreInv s)
    (h : Effect s action s' out) : BidChange s action s' out := by
  cases h with
  | accept hacc => cases hacc <;> exact .quiet (fun _ => rfl) fun _ _ => samePrice_self
  | quiet hout => exact .quiet (fun _ => bidsOn_messages hout) fun _ _ => samePrice_self
  | logout => exact .quiet (fun _ => rfl) fun _ _ => samePrice_self
  | create =>
    refine .quiet (fun _ => rfl) fun k y hy => ?_
    rcases Nat.lt_trichotomy k s.auctions.length with hk | hk | hk
    · exact samePrice_self (by simpa [List.getElem?_append_left hk] using hy)
    · subst hk
      obtain rfl := by simpa using hy
      exact Or.inr ⟨rfl, rfl, rfl⟩
    · rw [List.getElem?_eq_none (by simp; omega)] at hy
      cases hy
  | watch a x user watchers body _ _ _ hx =>
    exact .quiet (fun _ => rfl) fun _ _ => samePrice_set hx rfl rfl
  | leave a x user index removed watchers _ _ _ hx =>
    exact .quiet (fun _ => rfl) fun _ _ => samePrice_set hx rfl rfl
  | @raise env job a x user bid fds name _ _ hon _ hhigh =>
    rw [List.cons_append]
    refine .bid a x user bid _ hon hhigh (fun b => ?_) rfl
    exact bidsOn_messages (messages_append (messages_map _ _ _) (messages_answer job.clientfd .OK))
  | buy a x user bid s₁ _ out _ _ hon hflag hprice hclose hunlink =>
    have hcap := (store.listed a hon.mem x hon.record).cap hflag
    obtain ⟨us, -, -, rfl⟩ := buy_outcome store.toListInv hon.mem hon.record hclose hunlink
    exact .bid a x user bid out hon (by omega) (closeAuction_bids hclose) rfl
  | tick h =>
    cases tick_outcome store.toListInv h with
    | quiet => exact .quiet (fun _ => rfl) fun _ _ hy => samePrice_aged (s := s.ticked) hy
    | expire pre a post x us _ _ _ _ _ hclose =>
      exact .quiet (closeAuction_bids hclose) fun _ _ hy => samePrice_aged (s := s.ticked) hy

/-- What the log of a run says about the auctions in the state reached. -/
structure PriceInv (tr : List Event) (s : Server) : Prop where
  ascends : ∀ (a : Nat) (x : Auction), s.auctions[a]? = some x →
    Ascends 0 none (bidsOn a tr) x.bid x.currentWinner
  fresh : ∀ a, s.auctions.length ≤ a → bidsOn a tr = []
  closed : ClosedInv tr s
  final : ∀ pre a post, tr = pre ++ .closed a :: post → bidsOn a post = []

theorem priceInv_start : PriceInv [] Server.start := by
  refine ⟨?_, ?_, closedInv_start, ?_⟩ <;> simp [Server.start, bidsOn]

/-- Within one step no bid follows a close. -/
theorem BidChange.final {s s' : Server} {action : Action} {out : List Event}
    (h : BidChange s action s' out) {pre : List Event} {a : Nat} {post : List Event}
    (heq : out = pre ++ .closed a :: post) : bidsOn a post = [] := by
  have hsplit : ∀ mid : List Event, bidsOn a (mid ++ .closed a :: post) = [] →
      bidsOn a post = [] := by
    intro mid hnone
    rw [bidsOn_append, bidsOn_cons, List.append_eq_nil_iff, List.append_eq_nil_iff] at hnone
    exact hnone.2.2
  cases h with
  | quiet hnone => exact hsplit pre (heq ▸ hnone a)
  | bid b x user bid rest _ _ hnone =>
    cases pre with
    | nil => cases heq
    | cons e mid =>
      rw [List.cons_append, List.cons.injEq] at heq
      exact hsplit mid (heq.2 ▸ hnone a)

/-- A bid in a step's log is on an auction that was on the list. -/
theorem BidChange.listed {s s' : Server} {action : Action} {out : List Event}
    (h : BidChange s action s' out) {a : Nat} (hbid : bidsOn a out ≠ []) :
    a ∈ s.auctionsList.nodes := by
  cases h with
  | quiet hnone => exact absurd (hnone a) hbid
  | bid b x user bid rest hon _ hnone =>
    rw [bidsOn_cons, bidsOn_accepted, hnone, List.append_nil] at hbid
    by_cases hab : b = a
    · exact hab ▸ hon.mem
    · simp [hab] at hbid

theorem final_step {s s' : Server} {action : Action} {out : List Event} {tr : List Event}
    (inv : PriceInv tr s) (h : BidChange s action s' out) (pre : List Event) (a : Nat)
    (post : List Event) (heq : tr ++ out = pre ++ .closed a :: post) : bidsOn a post = [] := by
  rcases List.append_eq_append_iff.mp heq with ⟨mid, -, hout⟩ | ⟨mid, htr, hpost⟩
  · exact h.final hout
  · cases mid with
    | nil =>
      have hout : out = [] ++ .closed a :: post := hpost.symm
      exact h.final hout
    | cons e mid =>
      rw [List.cons_append, List.cons.injEq] at hpost
      obtain ⟨rfl, rfl⟩ := hpost
      have hclosed : a ∈ closings tr := mem_closings.mpr (by simp [htr])
      have hnone : bidsOn a out = [] := by
        by_contra hbid
        exact ((inv.closed.closed a).mp hclosed).2 (h.listed hbid)
      rw [bidsOn_append, inv.final pre a mid htr, hnone, List.append_nil]

theorem priceInv_step {s s' : Server} {action : Action} {out : List Event} {tr : List Event}
    (server : ServerInv s) (inv : PriceInv tr s) (h : Effect s action s' out) :
    PriceInv (tr ++ out) s' := by
  have hbids := effect_bids server.store h
  have hlist := effect_list server.store.toListInv h
  have hclosed := closedInv_step server.store.toListInv inv.closed hlist
  have hlength := hlist.length_le
  have hfinal := final_step inv hbids
  cases hbids with
  | quiet hnone hsame =>
    have hall : ∀ a, bidsOn a (tr ++ out) = bidsOn a tr := by
      intro a
      rw [bidsOn_append, hnone, List.append_nil]
    refine ⟨?_, fun a ha => (hall a).trans (inv.fresh a (hlength.trans ha)), hclosed, hfinal⟩
    intro a y hy
    rw [hall]
    rcases hsame a y hy with ⟨x, hx, hbid, hwinner⟩ | ⟨rfl, hbid, hwinner⟩
    · rw [hbid, hwinner]
      exact inv.ascends a x hx
    · rw [inv.fresh _ le_rfl, hbid, hwinner]
      exact .start
  | bid a x user bid rest hon hlt hnone hstore =>
    have hlen := (List.getElem?_eq_some_iff.mp hon.record).1
    have hall : ∀ b, bidsOn b (tr ++ .accepted a user.username bid :: rest) =
        bidsOn b tr ++ if a = b then [(user.username, bid)] else [] := by
      intro b
      rw [bidsOn_append, bidsOn_cons, bidsOn_accepted, hnone, List.append_nil]
    refine ⟨?_, ?_, hclosed, hfinal⟩
    · intro b y hy
      rw [hall]
      by_cases hb : a = b
      · subst hb
        have hy' : y = x.withBid user.username bid := by simpa [hstore, hlen] using hy.symm
        rw [hy', if_pos rfl]
        exact .bid user.username bid (inv.ascends a x hon.record) hlt
      · rw [hstore, List.getElem?_set_ne hb] at hy
        rw [if_neg hb, List.append_nil]
        exact inv.ascends b y hy
    · intro b hb
      have hne : a ≠ b := by omega
      rw [hall, if_neg hne, List.append_nil]
      exact inv.fresh b (hlength.trans hb)

/-- The bids accepted on each auction rise, its record shows the last of them, and none comes
after the close. -/
structure PriceLaw (tr : List Event) (s : Server) : Prop where
  positive : ∀ a, ∀ b ∈ bidsOn a tr, 0 < b.2 ∧ b.2 ≤ intMax
  rising : ∀ a, ((bidsOn a tr).map Prod.snd).Pairwise (· < ·)
  stands : ∀ (a : Nat) (x : Auction), s.auctions[a]? = some x →
    (x.currentWinner, x.bid) = (bidsOn a tr).getLast?.getD (none, 0)
  final : ∀ pre a post, tr = pre ++ .closed a :: post → bidsOn a post = []

theorem priceLaw {tr : List Event} {s : Server} (server : ServerInv s) (inv : PriceInv tr s) :
    PriceLaw tr s := by
  have hnone : ∀ a, s.auctions[a]? = none → bidsOn a tr = [] :=
    fun a ha => inv.fresh a (List.getElem?_eq_none_iff.mp ha)
  refine ⟨?_, ?_, fun a x hx => (inv.ascends a x hx).last, inv.final⟩
  · intro a b hb
    cases hx : s.auctions[a]? with
    | none => simp [hnone a hx] at hb
    | some x =>
      have hbids := inv.ascends a x hx
      have hmax := (server.store.records a x hx).bid.2
      exact ⟨hbids.above_floor b hb, (hbids.le_price b hb).trans hmax⟩
  · intro a
    cases hx : s.auctions[a]? with
    | none => simp [hnone a hx]
    | some x => exact (inv.ascends a x hx).rising

/-- The bidder found among the watchers by `strcmp` is there with his own username pointer. -/
theorem BidOn.watches {s : Server} {fd : Int} {a : Nat} {x : Auction} {user : User} {bid : Int}
    (hon : BidOn s fd a x user bid) (inv : ServerInv s) :
    ∃ name, user.username = some name ∧ name ∈ x.watchers.nodes := by
  obtain ⟨w, hw, hcmp⟩ := userWatches_true hon.watching
  obtain ⟨u, hu, huw⟩ := (inv.parties a x hon.record).watchers w hw
  obtain ⟨huser, -⟩ := findUsername_spec hon.bidder
  have hsame : u = user := inv.users.cmp_inj hu huser (huw ▸ hcmp)
  exact ⟨w, hsame ▸ huw, hw⟩

theorem priceInv_run {as : List Action} {tr : List Event} {s : Server}
    (run : Run Server.step Sponsored Server.start as tr s) : PriceInv tr s :=
  run.invariant (P := fun _ tr s => PriceInv tr s) priceInv_start fun hrun inv _ hs =>
    priceInv_step (serverInv_run hrun) inv (step_effect hs)

end ZBid
