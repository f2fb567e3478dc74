import ZBid.Commuting
import ZBid.Interleaving

/-!
# What durations decide

A duration decides when a tick closes its auction and what ANLIST prints, and nothing else: every
request does the same in a state with other durations, and sends the same but for that list. So
whatever the tick thread has aged so far, what it does when it closes an auction is what a whole
tick does in a state in which that auction is the first to expire. An invariant of the sequential
server that does not speak of durations holds under every interleaving.
-/
namespace ZBid

open CInt CString Runs

/-- The same server with other records and another tick counter. -/
def Server.dated (s : Server) (auctions : List Auction) (tick : Int) : Server :=
  { s with auctions := auctions, tick := tick }

def Auction.dated (x : Auction) (duration : Int) : Auction := { x with duration := duration }

def Auction.undated (x : Auction) : Auction := x.dated 0

/-- Two states that differ in durations and in the tick counter at most. -/
inductive Redated (s : Server) : Server → Prop where
  | mk (auctions : List Auction) (tick : Int) :
      auctions.map Auction.undated = s.auctions.map Auction.undated →
      Redated s (s.dated auctions tick)

theorem Redated.of_frame {s t : Server} {auctions : List Auction} {tick : Int}
    (hframe : t = s.dated auctions tick)
    (hrecords : auctions.map Auction.undated = s.auctions.map Auction.undated) : Redated s t :=
  hframe ▸ .mk auctions tick hrecords

theorem Redated.refl (s : Server) : Redated s s := .mk s.auctions s.tick rfl

theorem Redated.symm {s t : Server} (h : Redated s t) : Redated t s := by
  obtain ⟨auctions, tick, hrecords⟩ := h
  exact .mk s.auctions s.tick hrecords.symm

theorem Redated.trans {s t u : Server} (h : Redated s t) (h' : Redated t u) : Redated s u := by
  obtain ⟨auctions, tick, hrecords⟩ := h
  obtain ⟨auctions', tick', hrecords'⟩ := h'
  exact .mk auctions' tick' (hrecords'.trans hrecords)

section Dated

variable {s : Server} {auctions : List Auction} {tick d : Int} {a : Nat} {x y : Auction}

theorem dated_get (hrecords : auctions.map Auction.undated = s.auctions.map Auction.undated)
    (hx : s.auctions[a]? = some x) : ∃ d, auctions[a]? = some (x.dated d) := by
  have hget := congrArg (·[a]?) hrecords
  simp only [List.getElem?_map, hx, Option.map_some, Option.map_eq_some_iff] at hget
  obtain ⟨y, hy, hsame⟩ := hget
  have hdated : y.undated.dated y.duration = x.undated.dated y.duration := by rw [hsame]
  exact ⟨y.duration, hy.trans (congrArg some hdated)⟩

theorem dated_length (hrecords : auctions.map Auction.undated = s.auctions.map Auction.undated) :
    auctions.length = s.auctions.length := by
  simpa using congrArg List.length hrecords

theorem Redated.set (hrecords : auctions.map Auction.undated = s.auctions.map Auction.undated) :
    Redated (s.setAuction a y) ((s.dated auctions tick).setAuction a (y.dated d)) := by
  refine Redated.mk (s := s.setAuction a y) (auctions.set a (y.dated d)) tick ?_
  simp only [Server.setAuction, List.map_set, hrecords]
  rfl

theorem debitWinner_dated : debitWinner (s.dated auctions tick) a (x.dated d) =
    (debitWinner s a x).map fun p => (p.1.dated auctions tick, p.2) := by
  simp only [debitWinner, Auction.dated]
  cases x.currentWinner with
  | none => rfl
  | some w =>
    simp only [Option.bind_eq_bind, Option.map_bind, Function.comp_def, Option.map_some]
    rfl

theorem creditCreator_dated : creditCreator (s.dated auctions tick) a (x.dated d) =
    (creditCreator s a x).map fun p => (p.1.dated auctions tick, p.2) := by
  simp only [creditCreator, Option.bind_eq_bind, Option.map_bind, Function.comp_def,
    Option.map_some]
  rfl

theorem closeAuction_dated (hx : s.auctions[a]? = some x)
    (hy : auctions[a]? = some (x.dated d)) : closeAuction (s.dated auctions tick) a =
      (closeAuction s a).map fun p => (p.1.dated auctions tick, p.2) := by
  have hfds (u : Server) (ws : List CharPtr) :
      watcherFds (u.dated auctions tick) ws = watcherFds u ws :=
    watcherFds_keys (s := u) (t := u.dated auctions tick) rfl ws
  have hbody : closedBody (x.dated d) = closedBody x := rfl
  have hwatchers : (x.dated d).watchers = x.watchers := rfl
  simp only [closeAuction, hx, show (s.dated auctions tick).auctions[a]? = some (x.dated d) from hy,
    Option.bind_eq_bind, Option.bind_some, debitWinner_dated, creditCreator_dated, hbody,
    hwatchers, Option.map_bind, Option.bind_map, Function.comp_def, hfds, Option.map_some]

end Dated

theorem closeAuction_redated {s s' t : Server} {a : Nat} {out : List Event} (hr : Redated s t)
    (h : closeAuction s a = some (s', out)) :
    ∃ t', closeAuction t a = some (t', out) ∧ Redated s' t' := by
  obtain ⟨auctions, tick, hrecords⟩ := hr
  obtain ⟨c⟩ := closeAuction_spec h
  obtain ⟨us, rfl, -⟩ := closeAuction_frame h
  obtain ⟨d, hd⟩ := dated_get hrecords c.found
  refine ⟨_, ?_, .mk (s := s.withUsers us) auctions tick hrecords⟩
  rw [closeAuction_dated c.found hd, h]
  rfl

theorem ListInv.redated {s t : Server} (inv : ListInv s) (hr : Redated s t) : ListInv t := by
  obtain ⟨auctions, tick, hrecords⟩ := hr
  refine inv.of_ids rfl rfl ?_
  have hids := congrArg (List.map Auction.id) hrecords
  rw [List.map_map, List.map_map] at hids
  exact hids

theorem unlinkAuction_redated {s s' t : Server} {a : Nat} (hr : Redated s t) (inv : ListInv s)
    (ha : a ∈ s.auctionsList.nodes) (h : unlinkAuction s a = some s') :
    ∃ t', unlinkAuction t a = some t' ∧ Redated s' t' := by
  have inv' := inv.redated hr
  obtain ⟨auctions, tick, hrecords⟩ := hr
  obtain rfl := Option.some.inj ((inv.unlink_eq ha).symm.trans h)
  exact ⟨_, inv'.unlink_eq ha, .mk (s := { s with auctionsList := _ }) auctions tick hrecords⟩

/-- What a request does and sends, but for the answers that change nothing, is the same with other
durations. -/
theorem effect_redated {s s' t : Server} {action : Action} {out : List Event} (inv : ListInv s)
    (h : Effect s action s' out) (hnotick : action ≠ .tick) (hr : Redated s t) :
    ∃ t', Effect t action t' out ∧ Redated s' t' := by
  obtain ⟨auctions, tick, hrecords⟩ := hr
  cases h with
  | accept hacc =>
    cases hacc with
    | noLogin htype => exact ⟨_, .accept (.noLogin htype), .of_frame rfl hrecords⟩
    | already i u htype hu hname hflag =>
      exact ⟨_, .accept (.already i u htype hu hname hflag), .of_frame rfl hrecords⟩
    | again i u htype hu hname hflag hpassword =>
      exact ⟨_, .accept (.again i u htype hu hname hflag hpassword), .of_frame rfl hrecords⟩
    | wrong i u htype hu hname hflag hpassword =>
      exact ⟨_, .accept (.wrong i u htype hu hname hflag hpassword), .of_frame rfl hrecords⟩
    | created users htype hscan hins =>
      exact ⟨_, .accept (.created users htype hscan hins), .of_frame rfl hrecords⟩
  | quiet hout => exact ⟨_, .quiet hout, .mk auctions tick hrecords⟩
  | logout i u htype hu hfd =>
    exact ⟨_, .logout i u htype hu hfd, .of_frame rfl hrecords⟩
  | @create env job name duration price us creator list body htype hargs hname hd hd' hp hp' hid
      hscan hins =>
    have hlen := dated_length hrecords
    have hnew : Effect (s.dated auctions tick) (.job env job) _ _ := .create name duration price us
      creator list body htype hargs hname hd hd' hp hp' hid (hlen ▸ hscan) (hlen ▸ hins)
    refine ⟨_, hnew, .of_frame rfl ?_⟩
    exact (List.map_append ..).trans ((congrArg (· ++ _) hrecords).trans (List.map_append ..).symm)
  | watch a x user watchers body htype hid ha hx huser hins =>
    obtain ⟨d, hd⟩ := dated_get hrecords hx
    exact ⟨_, .watch a (x.dated d) user watchers body htype hid ha hd huser hins, .set hrecords⟩
  | leave a x user index removed watchers htype hid ha hx huser hindex hremove =>
    obtain ⟨d, hd⟩ := dated_get hrecords hx
    exact ⟨_, .leave a (x.dated d) user index removed watchers htype hid ha hd huser hindex hremove,
      .set hrecords⟩
  | raise a x user bid fds name htype hargs hon hlow hhigh hname hfds =>
    obtain ⟨d, hd⟩ := dated_get hrecords hon.record
    have hon' : BidOn (s.dated auctions tick) _ a (x.dated d) user bid :=
      ⟨hon.bidder, hon.mem, hd, hon.notCreator, hon.watching, hon.range⟩
    have hfds' : watcherFds ((s.dated auctions tick).setAuction a
        ((x.dated d).withBid user.username bid)) x.watchers.nodes = some fds :=
      (watcherFds_keys (s := s.setAuction a (x.withBid user.username bid))
        (t := (s.dated auctions tick).setAuction a ((x.dated d).withBid user.username bid))
        rfl _).trans hfds
    exact ⟨_, .raise a (x.dated d) user bid fds name htype hargs hon' hlow hhigh hname hfds',
      .set hrecords⟩
  | buy a x user bid s₁ s' out htype hargs hon hflag hprice hclose hunlink =>
    obtain ⟨d, hd⟩ := dated_get hrecords hon.record
    have hon' : BidOn (s.dated auctions tick) _ a (x.dated d) user bid :=
      ⟨hon.bidder, hon.mem, hd, hon.notCreator, hon.watching, hon.range⟩
    have hset : Redated (s.setAuction a (x.withBid user.username bid))
        ((s.dated auctions tick).setAuction a ((x.dated d).withBid user.username bid)) :=
      .set hrecords
    obtain ⟨t₁, hclose', hr₁⟩ := closeAuction_redated hset hclose
    have inv₁ := inv.setAuction hon.record (y := x.withBid user.username bid) rfl
    obtain ⟨us, rfl, -⟩ := closeAuction_frame hclose
    obtain ⟨t', hunlink', hr'⟩ := unlinkAuction_redated hr₁ (inv₁.withUsers us) hon.mem hunlink
    exact ⟨t', .buy a (x.dated d) user bid t₁ t' out htype hargs hon' hflag hprice hclose' hunlink',
      hr'⟩
  | tick => exact absurd rfl hnotick

theorem redated_aged (s : Server) (l : List Nat) : Redated s (s.aged l) := by
  have hframe : s.aged l = s.dated (s.aged l).auctions s.tick := rfl
  refine .of_frame hframe ?_
  refine List.ext_getElem? fun k => ?_
  rw [List.getElem?_map, aged_get, List.getElem?_map, Option.map_map]
  refine congrArg (Option.map · _) (funext fun x => ?_)
  by_cases hk : k ∈ l <;> simp [hk, Auction.older, Auction.undated, Auction.dated]

theorem redated_ticked (s : Server) : Redated s s.ticked := .of_frame rfl rfl

theorem ageAuction_eq {s : Server} {a : Nat} {x : Auction} (hx : s.auctions[a]? = some x) :
    ageAuction s a = some (s.setAuction a x.older, x.older.duration) := by
  simp [ageAuction, hx, Auction.older]

theorem ageAuction_get {s : Server} {a : Nat} {x : Auction} (hx : s.auctions[a]? = some x) :
    ageAuction s a = some (s.aged [a], x.older.duration) := by
  obtain ⟨y, -, hs, -⟩ := ageAuction_spec (ageAuction_eq hx)
  rw [ageAuction_eq hx, hs]

/-- The walk up to the first auction that expires. -/
theorem tickLoop_expire {pre post : List Nat} {a : Nat} {s : Server} {x : Auction}
    (hnodup : (pre ++ a :: post).Nodup)
    (hpre : ∀ k ∈ pre, ∃ y, s.auctions[k]? = some y ∧ y.older.duration ≠ 0)
    (hx : s.auctions[a]? = some x) (hzero : x.older.duration = 0) :
    tickLoop (pre ++ a :: post) s = expireAuction (s.aged (pre ++ [a])) a := by
  induction pre generalizing s with
  | nil => simp [tickLoop, ageAuction_get hx, hzero]
  | cons k pre ih =>
    obtain ⟨y, hy, hne⟩ := hpre k List.mem_cons_self
    obtain ⟨hk, hrest⟩ := List.nodup_cons.mp hnodup
    have hka : k ∉ pre ++ [a] := fun hmem => hk (by simp at hmem ⊢; tauto)
    have hother (j : Nat) (hj : j ∈ pre ++ [a]) : (s.aged [k]).auctions[j]? = s.auctions[j]? := by
      have hjk : j ≠ k := fun hjk => hka (hjk ▸ hj)
      rw [aged_get]
      simp [hjk]
    have hloop := ih (s := s.aged [k]) hrest
      (fun j hj => (hother j (by simp [hj])).symm ▸ hpre j (List.mem_cons_of_mem k hj))
      ((hother a (by simp)).trans hx)
    rw [aged_aged (by simpa using hka)] at hloop
    simpa [tickLoop, ageAuction_get hy, hne] using hloop

/-- The same server, when the auction is the next to expire. -/
def Server.nextToExpire (s : Server) (a : Nat) : Server :=
  s.dated (s.auctions.mapIdx fun k x => x.dated (if k = a then 1 else 2)) s.tick

theorem nextToExpire_get (s : Server) (a k : Nat) : (s.nextToExpire a).auctions[k]? =
    (s.auctions[k]?).map fun x => x.dated (if k = a then 1 else 2) := by
  simp [Server.nextToExpire, Server.dated, List.getElem?_mapIdx]

theorem redated_nextToExpire (s : Server) (a : Nat) : Redated s (s.nextToExpire a) := by
  refine .of_frame rfl (List.ext_getElem? fun k => ?_)
  rw [List.getElem?_map, List.getElem?_map, List.getElem?_mapIdx, Option.map_map]
  rfl

/-- The close of a listed auction is what a tick does when that auction is the next to expire. -/
theorem tick_of_close {s s₁ s' : Server} {a : Nat} {out : List Event} (inv : ListInv s)
    (ha : a ∈ s.auctionsList.nodes) (hclose : closeAuction s a = some (s₁, out))
    (hunlink : unlinkAuction s₁ a = some s') :
    ∃ t', tickBody (s.nextToExpire a) = some (t', out) ∧ Redated s' t' := by
  obtain ⟨pre, post, hnodes⟩ := List.append_of_mem ha
  obtain ⟨x, hx⟩ := inv.get ha
  have hnodup : (pre ++ a :: post).Nodup := hnodes ▸ inv.nodup
  let t := (s.nextToExpire a).ticked
  have hget (k : Nat) : t.auctions[k]? =
      (s.auctions[k]?).map fun x => x.dated (if k = a then 1 else 2) := nextToExpire_get s a k
  have hpre : ∀ k ∈ pre, ∃ y, t.auctions[k]? = some y ∧ y.older.duration ≠ 0 := by
    intro k hk
    obtain ⟨y, hy⟩ := inv.get (show k ∈ s.auctionsList.nodes by simp [hnodes, hk])
    have hka : k ≠ a := by
      rintro rfl
      exact (List.nodup_append.mp hnodup).2.2 k hk k (by simp) rfl
    refine ⟨_, (hget k).trans (by rw [hy]; rfl), ?_⟩
    rw [if_neg hka]
    exact show wrap32 (2 - 1) ≠ 0 by decide
  have hxa : t.auctions[a]? = some (x.dated 1) := by simp [hget, hx]
  have hloop := tickLoop_expire hnodup hpre hxa (show wrap32 (1 - 1) = 0 by decide)
  have hr : Redated s (t.aged (pre ++ [a])) :=
    ((redated_nextToExpire s a).trans (redated_ticked _)).trans (redated_aged _ _)
  obtain ⟨t₁, hclose', hr₁⟩ := closeAuction_redated hr hclose
  obtain ⟨us, rfl, -⟩ := closeAuction_frame hclose
  obtain ⟨t', hunlink', hr'⟩ := unlinkAuction_redated hr₁ (inv.withUsers us) ha hunlink
  refine ⟨t', ?_, hr'⟩
  have hbody : tickBody (s.nextToExpire a) = tickLoop s.auctionsList.nodes t := rfl
  rw [hbody, hnodes, hloop, expireAuction, hclose']
  simp [hunlink']

/-- Durations that an open auction may have keep the invariant of the server. -/
theorem ServerInv.redated {s t : Server} (inv : ServerInv s) (hr : Redated s t)
    (hopen : ∀ k ∈ t.auctionsList.nodes, ∀ y, t.auctions[k]? = some y →
      1 ≤ y.duration ∧ y.duration ≤ intMax) : ServerInv t := by
  have hlist := inv.store.toListInv.redated hr
  obtain ⟨auctions, tick, hrecords⟩ := hr
  have hold {k : Nat} {y : Auction} (hy : auctions[k]? = some y) :
      ∃ x d, s.auctions[k]? = some x ∧ y = x.dated d := by
    obtain ⟨d, hd⟩ := dated_get (s := s.dated auctions tick) hrecords.symm hy
    exact ⟨y.dated d, y.duration, hd, rfl⟩
  refine ⟨inv.users.of_users rfl rfl rfl, inv.lists, ⟨hlist, fun k y hy => ?_, fun k hk y hy => ?_⟩,
    fun k y hy => ?_⟩
  · obtain ⟨x, d, hx, rfl⟩ := hold hy
    have h := inv.store.records k x hx
    exact ⟨h.bid, h.winner, h.price, h.flag, h.watchers⟩
  · have hd := hopen k hk y hy
    obtain ⟨x, d, hx, rfl⟩ := hold hy
    exact ⟨hd, (inv.store.listed k hk x hx).cap⟩
  · obtain ⟨x, d, hx, rfl⟩ := hold hy
    have h := inv.parties k x hx
    exact ⟨h.creator, h.winner, h.others, h.watchers⟩

/-- The descriptors that `accept` returns are fresh, and auctions are created by recorded users. -/
def Interleaved.Sponsored (s : Interleaved) : InterleavedAction → Prop
  | .accept clientFd _ _ => FreshFd s.server clientFd
  | .job _ job => Creates job → Recorded s.server job.clientfd
  | _ => True

instance Interleaved.decidableSponsored (s : Interleaved) : ∀ action, Decidable (s.Sponsored action)
  | .accept clientFd _ _ => inferInstanceAs (Decidable (FreshFd s.server clientFd))
  | .job _ job => inferInstanceAs (Decidable (Creates job → Recorded s.server job.clientfd))
  | .startTick | .age | .close => inferInstanceAs (Decidable True)

/-- An invariant of the sequential server that does not depend on durations. -/
structure Dateless (P : List Event → Server → Prop) : Prop where
  start : P [] Server.start
  step : ∀ {tr s action s' out}, ServerInv s → P tr s → ZBid.Sponsored s action →
    Effect s action s' out → P (tr ++ out) s'
  redated : ∀ {tr s t}, Redated s t → P tr s → P tr t

/-- With other durations, the state is one of the sequential server. -/
def Sequential (P : List Event → Server → Prop) (tr : List Event) (s : Server) : Prop :=
  ∃ t, Redated s t ∧ ServerInv t ∧ P tr t

section Sequential

variable {P : List Event → Server → Prop} {tr out : List Event} {s s' t : Server}

theorem Sequential.move (h : Sequential P tr s) (hr : Redated s s') : Sequential P tr s' := by
  obtain ⟨t, ht, inv, hP⟩ := h
  exact ⟨t, hr.symm.trans ht, inv, hP⟩

theorem Sequential.listInv (h : Sequential P tr s) : ListInv s := by
  obtain ⟨t, ht, inv, -⟩ := h
  exact inv.store.toListInv.redated ht.symm

theorem Sequential.holds (hP : Dateless P) (h : Sequential P tr s) : P tr s := by
  obtain ⟨t, ht, -, hPt⟩ := h
  exact hP.redated ht.symm hPt

/-- A login or a request. -/
theorem Sequential.effect (hP : Dateless P) (h : Sequential P tr s) {action : Action}
    (hnotick : action ≠ .tick) (hok : ZBid.Sponsored s action) (heffect : Effect s action s' out) :
    Sequential P (tr ++ out) s' := by
  have list := h.listInv
  obtain ⟨t, ht, inv, hPt⟩ := h
  obtain ⟨t', heffect', ht'⟩ := effect_redated list heffect hnotick ht
  have hok' : ZBid.Sponsored t action := by
    obtain ⟨auctions, tick, hrecords⟩ := ht
    cases action <;> exact hok
  exact ⟨t', ht', serverInv_step inv hok' heffect', hP.step inv hPt hok' heffect'⟩

/-- The tick thread closes a listed auction. -/
theorem Sequential.close (hP : Dateless P) (h : Sequential P tr s) {a : Nat} {s₁ : Server}
    (ha : a ∈ s.auctionsList.nodes) (hclose : closeAuction s a = some (s₁, out))
    (hunlink : unlinkAuction s₁ a = some s') : Sequential P (tr ++ out) s' := by
  have list := h.listInv
  obtain ⟨t, ht, inv, hPt⟩ := h
  have hr := ht.symm.trans (redated_nextToExpire s a)
  obtain ⟨t', htick, ht'⟩ := tick_of_close list ha hclose hunlink
  have inv' : ServerInv (s.nextToExpire a) := by
    refine inv.redated hr fun k _ y hy => ?_
    rw [nextToExpire_get] at hy
    obtain ⟨x, -, rfl⟩ := Option.map_eq_some_iff.mp hy
    simp only [Auction.dated]
    split <;> decide
  have heffect : Effect (s.nextToExpire a) .tick t' out := .tick htick
  have hok : ZBid.Sponsored (s.nextToExpire a) .tick := trivial
  exact ⟨t', ht', serverInv_step inv' hok heffect,
    hP.step inv' (hP.redated hr hPt) hok heffect⟩

end Sequential

end ZBid
