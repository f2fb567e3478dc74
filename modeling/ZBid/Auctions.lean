import ZBid.Closings

/-!
# What holds of an auction

Some facts hold of every record for ever, some only while the auction is on the list. The price
of a buy-it-now auction bounds its bid only as long as the auction is open, and a duration is
positive only because the tick that brings it to 0 unlinks the auction.
-/
namespace ZBid

open CInt CString Runs

/-- What holds of every record, open or closed. -/
structure RecordInv (x : Auction) : Prop where
  bid : 0 ≤ x.bid ∧ x.bid ≤ intMax
  winner : x.bid = 0 ↔ x.currentWinner = none
  price : 0 ≤ x.binPrice ∧ x.binPrice ≤ intMax
  flag : x.binFlag = if 0 < x.binPrice then 1 else 0
  watchers : x.watchers.WF

/-- What holds moreover while the auction is on the list. -/
structure OpenInv (x : Auction) : Prop where
  duration : 1 ≤ x.duration ∧ x.duration ≤ intMax
  cap : x.binFlag = 1 → x.bid ≤ x.binPrice

structure StoreInv (s : Server) : Prop extends ListInv s where
  records : ∀ (k : Nat) (x : Auction), s.auctions[k]? = some x → RecordInv x
  listed : ∀ k ∈ s.auctionsList.nodes, ∀ x : Auction, s.auctions[k]? = some x → OpenInv x

theorem storeInv_start : StoreInv Server.start where
  toListInv := listInv_start
  records := by simp [Server.start]
  listed := by simp [Server.start, createList]

/-- Whoever is accepted as a bidder has a name. -/
theorem BidOn.named {s : Server} {fd : Int} {a : Nat} {x : Auction} {user : User} {bid : Int}
    (hon : BidOn s fd a x user bid) : ∃ name, user.username = some name := by
  obtain ⟨w, -, hcmp⟩ := userWatches_true hon.watching
  obtain ⟨p, q, -, hq, -⟩ := strcmpEq_true hcmp
  exact ⟨q, hq⟩

theorem recordInv_new (malloc : Auction) (name : Text) (duration price id : Int)
    (creator : CharStar) (hp : 0 ≤ price ∧ price ≤ intMax) :
    RecordInv (newAuction malloc name duration price id creator) := by
  constructor
  · exact ⟨le_rfl, by simp [newAuction, intMax]⟩
  · simp [newAuction]
  · exact hp
  · simp only [newAuction]
    by_cases h : price = 0
    · simp [h]
    · have hpos : 0 < price := by omega
      simp [h, hpos]
  · exact createList_wf

/-- The amount of an accepted bid is positive and an int. -/
theorem RecordInv.bid_range {x : Auction} (inv : RecordInv x) {bid : Int} (hbid : InInt bid)
    (hacc : (x.binFlag = 1 ∧ bid > x.binPrice) ∨
      ¬ (x.binFlag = 1 ∧ bid > x.binPrice) ∧ bid > x.bid) : 0 < bid ∧ bid ≤ intMax := by
  have hprice := inv.price
  have hold := inv.bid
  have hmax := hbid.2
  omega

theorem recordInv_change {s : Server} {action : Action} {k : Nat} {x y : Auction}
    (inv : RecordInv x) (h : RecordChange s action k x y) : RecordInv y := by
  cases h with
  | same => exact inv
  | older => exact ⟨inv.bid, inv.winner, inv.price, inv.flag, inv.watchers⟩
  | watched user watchers _ _ _ _ hins =>
    refine ⟨inv.bid, inv.winner, inv.price, inv.flag, ?_⟩
    cases hname : user.username with
    | none =>
      rw [hname, insertAtTail_null, Option.some.injEq] at hins
      exact hins ▸ inv.watchers
    | some w => exact (insertAtTail_spec inv.watchers (hname ▸ hins)).2
  | left user index removed watchers _ _ _ _ _ hrem =>
    exact ⟨inv.bid, inv.winner, inv.price, inv.flag, removeByIndex_wf inv.watchers hrem⟩
  | bid user bid hon hacc =>
    obtain ⟨hpos, hmax⟩ := inv.bid_range hon.range hacc
    obtain ⟨name, hname⟩ := hon.named
    refine ⟨⟨hpos.le, hmax⟩, ?_, inv.price, inv.flag, inv.watchers⟩
    simp only [Auction.withBid, hname, reduceCtorEq, iff_false]
    omega

/-- Of an open auction the duration drops by exactly one. -/
theorem OpenInv.older_duration {x : Auction} (inv : OpenInv x) :
    x.older.duration = x.duration - 1 := by
  have hd := inv.duration
  exact wrap32_of_inInt ⟨by simp only [intMin]; omega, by omega⟩

theorem OpenInv.older {x : Auction} (inv : OpenInv x) (h : x.older.duration ≠ 0) :
    OpenInv x.older := by
  have hd := inv.duration
  have hold := inv.older_duration
  exact ⟨by omega, inv.cap⟩

/-- An update of one record. -/
theorem openInv_set {s : Server} (inv : StoreInv s) {a : Nat} {x z : Auction}
    (hx : s.auctions[a]? = some x) (hz : a ∈ s.auctionsList.nodes → OpenInv z) :
    ∀ k ∈ s.auctionsList.nodes, ∀ y, (s.setAuction a z).auctions[k]? = some y → OpenInv y := by
  intro k hk y hy
  rcases setAuction_cases hx hy with ⟨rfl, rfl⟩ | hy
  · exact hz hk
  · exact inv.listed k hk y hy

/-- The auctions that a tick has aged and not unlinked are open, and the others have not
changed. -/
theorem openInv_tick {s s' : Server} {out : List Event} (inv : StoreInv s)
    (h : TickOutcome s s' out) :
    ∀ k ∈ s'.auctionsList.nodes, ∀ y, s'.auctions[k]? = some y → OpenInv y := by
  intro k hk y hy
  have haged : ∀ x, s.auctions[k]? = some x → k ∈ s.auctionsList.nodes →
      (∃ z, s.auctions[k]? = some z ∧ z.older.duration ≠ 0) → OpenInv x.older := by
    rintro x hx hin ⟨z, hz, hne⟩
    obtain rfl : z = x := Option.some.inj (hz.symm.trans hx)
    exact (inv.listed k hin z hz).older hne
  cases h with
  | quiet hall =>
    obtain ⟨x, hx, ⟨-, rfl⟩ | ⟨hnot, -⟩⟩ := aged_cases hy
    · exact haged x hx hk (hall k hk)
    · exact absurd hk hnot
  | expire pre a post x us _ hnodes _ _ hpre =>
    have hnd : (pre ++ a :: post).Nodup := hnodes ▸ inv.nodup
    have hk' : k ∈ (pre ++ a :: post).erase a := erase_of_nodup hnd ▸ hk
    obtain ⟨hne, hin⟩ := (List.Nodup.mem_erase_iff hnd).mp hk'
    have hlisted : k ∈ s.auctionsList.nodes := hnodes ▸ hin
    obtain ⟨z, hz, ⟨hmem, rfl⟩ | ⟨-, rfl⟩⟩ := aged_cases hy
    · have hkpre : k ∈ pre := by simpa [hne] using hmem
      exact haged z hz hlisted (hpre k hkpre)
    · exact inv.listed k hlisted y hz

theorem openInv_step {s s' : Server} {action : Action} {out : List Event} (inv : StoreInv s)
    (h : Effect s action s' out) :
    ∀ k ∈ s'.auctionsList.nodes, ∀ y, s'.auctions[k]? = some y → OpenInv y := by
  cases h with
  | accept hacc => cases hacc <;> exact inv.listed
  | quiet => exact inv.listed
  | logout => exact inv.listed
  | create name duration price us creator list body _ _ _ hd hmax hp _ _ _ hins =>
    intro k hk y hy
    have hnodes := (insertAtTail_spec inv.wf hins).1
    simp only [hnodes, List.mem_append, List.mem_singleton] at hk
    rcases hk with hk | rfl
    · have hlt := inv.stored k hk
      exact inv.listed k hk y (by simpa [List.getElem?_append_left hlt] using hy)
    · obtain rfl := by simpa using hy
      exact ⟨⟨hd, hmax⟩, fun _ => hp⟩
  | watch a x user watchers body _ _ _ hx =>
    exact openInv_set inv hx fun ha => ⟨(inv.listed a ha x hx).duration, (inv.listed a ha x hx).cap⟩
  | leave a x user index removed watchers _ _ _ hx =>
    exact openInv_set inv hx fun ha => ⟨(inv.listed a ha x hx).duration, (inv.listed a ha x hx).cap⟩
  | raise a x user bid fds name _ _ hon hcap =>
    refine openInv_set inv hon.record fun ha => ⟨(inv.listed a ha x hon.record).duration, ?_⟩
    intro hflag
    have hle : ¬ bid > x.binPrice := fun hgt => hcap ⟨hflag, hgt⟩
    exact not_lt.mp hle
  | buy a x user bid s₁ _ out _ _ hon _ _ hclose hunlink =>
    intro k hk y hy
    obtain ⟨us, -, -, rfl⟩ := buy_outcome inv.toListInv hon.mem hon.record hclose hunlink
    obtain ⟨hne, hk⟩ := (List.Nodup.mem_erase_iff inv.nodup).mp hk
    rcases setAuction_cases hon.record hy with ⟨rfl, -⟩ | hy
    · exact absurd rfl hne
    · exact inv.listed k hk y hy
  | tick h => exact openInv_tick inv (tick_outcome inv.toListInv h)

theorem storeInv_step {s s' : Server} {action : Action} {out : List Event} (inv : StoreInv s)
    (h : Effect s action s' out) : StoreInv s' where
  toListInv := listInv_step inv.toListInv h
  records := by
    intro k y hy
    rcases effect_record inv.toListInv h hy with ⟨x, hx, hchange⟩ | ⟨-, hnew⟩
    · exact recordInv_change (inv.records k x hx) hchange
    · cases hnew with
      | mk name duration price us creator _ _ _ _ _ hp hmax =>
        exact recordInv_new _ _ _ _ _ _ ⟨hp, hmax⟩
  listed := openInv_step inv h

end ZBid
