import ZBid.Commuting
import ZBid.Decoding
import ZBid.Notices
import ZBid.Price

/-!
# What a watcher knows

A watcher who stays on an auction's list, and on one connection, learns all there is to know from
the last notice about the auction: it is what the server has, the bid and the bidder while the
auction is open, and the sale when it is closed. There is no notice after that.
-/
namespace ZBid

open CInt CString Runs Separated

/-- A notice to the descriptor about the auction with the id. -/
def Msg.tells (fd id : Int) (m : Msg) : Bool :=
  decide (m.fd = fd) && m.msgType.isNotice && (sprintfD id ++ crlf).isPrefixOf m.body

/-- The notices about an auction to a descriptor, oldest first. -/
def noticesAbout (fd id : Int) (tr : List Event) : List Msg :=
  (tr.filterMap Event.msg?).filter (Msg.tells fd id)

@[simp] theorem noticesAbout_append (fd id : Int) (xs ys : List Event) :
    noticesAbout fd id (xs ++ ys) = noticesAbout fd id xs ++ noticesAbout fd id ys := by
  simp [noticesAbout]

theorem noticesAbout_noNotice {fd id : Int} {out : List Event} (h : NoNotice out) :
    noticesAbout fd id out = [] := by
  refine List.filter_eq_nil_iff.mpr fun m hm => ?_
  obtain ⟨e, he, hem⟩ := List.mem_filterMap.mp hm
  obtain ⟨m', rfl, hquiet⟩ := h e he
  obtain rfl := Option.some.inj hem
  simp [Msg.tells, hquiet]

theorem noticesAbout_silent {fd id : Int} {out : List Event} (h : ∀ e ∈ out, e.msg? = none) :
    noticesAbout fd id out = [] := by
  rw [noticesAbout, List.filterMap_eq_nil_iff.mpr h]
  rfl

/-- The id of an auction can be read off a body that begins with it. -/
theorem isPrefixOf_id {id id' : Int} {body : Text} (hbody : sprintfD id' ++ crlf <+: body) :
    (sprintfD id ++ crlf).isPrefixOf body = true ↔ id' = id := by
  rw [List.isPrefixOf_iff_prefix]
  constructor
  · rintro ⟨t, ht⟩
    obtain ⟨rest, rfl⟩ := hbody
    have hcut : sprintfD id ++ ['\r'] ++ ('\n' :: t) =
        sprintfD id' ++ ['\r'] ++ ('\n' :: rest) := by
      simpa [crlf] using ht
    exact (sprintfD_injective (first_inj (sprintfD_return id) (sprintfD_return id') hcut).1).symm
  · rintro rfl
    exact hbody

/-- A notice that goes out to a list of descriptors: one for each time that this one is in it. -/
theorem noticesAbout_map (fd id : Int) (fds : List Int) {t : MsgType} (ht : t.isNotice = true)
    {id' : Int} {body : Text} (hbody : sprintfD id' ++ crlf <+: body) :
    noticesAbout fd id (fds.map fun f => message f t body) =
      if id' = id then List.replicate (fds.count fd) ⟨fd, t, body.length + 1, body⟩ else [] := by
  have hprefix : (sprintfD id ++ crlf).isPrefixOf body = decide (id' = id) := by
    rw [Bool.eq_iff_iff, isPrefixOf_id hbody, decide_eq_true_iff]
  induction fds with
  | nil => simp [noticesAbout]
  | cons f fds ih =>
    have hone : noticesAbout fd id [message f t body] =
        if f = fd ∧ id' = id then [⟨fd, t, body.length + 1, body⟩] else [] := by
      by_cases hf : f = fd <;> by_cases hid : id' = id <;>
        simp [noticesAbout, Msg.tells, ht, hprefix, hf, hid]
    have hcons : (f :: fds).map (fun f => message f t body) =
        [message f t body] ++ fds.map fun f => message f t body := rfl
    rw [hcons, noticesAbout_append, hone, ih, List.count_cons]
    by_cases hf : f = fd <;> by_cases hid : id' = id <;> simp [hf, hid, List.replicate_succ]

theorem updateBody_starts (x : Auction) (w : CharPtr) : sprintfD x.id ++ crlf <+: updateBody x w :=
  ⟨x.name ++ crlf ++ w.text ++ crlf ++ sprintfD x.bid, by simp [updateBody]⟩

theorem closedBody_starts (x : Auction) : sprintfD x.id ++ crlf <+: closedBody x :=
  List.prefix_append _ _

/-- A step leaves the auction as it is: its price, its winner and its place on the list. -/
structure Untouched (s : Server) (a : Nat) (s' : Server) : Prop where
  record : ∀ x, s.auctions[a]? = some x →
    ∃ y, s'.auctions[a]? = some y ∧ y.bid = x.bid ∧ y.currentWinner = x.currentWinner
  listed : a ∈ s'.auctionsList.nodes ↔ a ∈ s.auctionsList.nodes

theorem Untouched.refl (s : Server) (a : Nat) : Untouched s a s :=
  ⟨fun x hx => ⟨x, hx, rfl, rfl⟩, Iff.rfl⟩

theorem Untouched.trans {s s' s'' : Server} {a : Nat} (h : Untouched s a s')
    (h' : Untouched s' a s'') : Untouched s a s'' := by
  refine ⟨fun x hx => ?_, h'.listed.trans h.listed⟩
  obtain ⟨y, hy, hbid, hwinner⟩ := h.record x hx
  obtain ⟨z, hz, hbid', hwinner'⟩ := h'.record y hy
  exact ⟨z, hz, hbid'.trans hbid, hwinner'.trans hwinner⟩

/-- The notice says what the server has. -/
inductive Shows (s : Server) (a : Nat) (m : Msg) : Prop where
  | bid (x : Auction) (winner : CharPtr) : s.auctions[a]? = some x → a ∈ s.auctionsList.nodes →
      x.currentWinner = some winner → m.msgType = .ANUPDATE → m.body = updateBody x winner →
      Shows s a m
  | sale (x : Auction) : s.auctions[a]? = some x → a ∉ s.auctionsList.nodes →
      m.msgType = .ANCLOSED → m.body = closedBody x → Shows s a m

theorem untouched_quiet {s s' : Server} {action : Action} {out : List Event} {a : Nat}
    (store : StoreInv s) (ha : a < s.auctions.length) (hout : NoNotice out)
    (h : Effect s action s' out) : Untouched s a s' := by
  have hnot {e : Event} (he : e ∈ out) : ∃ m, e = .sent m := by
    obtain ⟨m, hm, -⟩ := hout e he
    exact ⟨m, hm⟩
  constructor
  · intro x hx
    have hlen := (effect_list store.toListInv h).length_le
    have hy := List.getElem?_eq_getElem (ha.trans_le hlen)
    cases effect_bids store h with
    | quiet _ hsame =>
      rcases hsame a _ hy with ⟨z, hz, hbid, hwinner⟩ | ⟨rfl, -⟩
      · obtain rfl : x = z := Option.some.inj (hx.symm.trans hz)
        exact ⟨_, hy, hbid, hwinner⟩
      · exact absurd ha (lt_irrefl _)
    | bid b =>
      obtain ⟨m, hm⟩ := hnot List.mem_cons_self
      cases hm
  · cases effect_list store.toListInv h with
    | same _ hnodes => rw [hnodes]
    | create _ hnodes =>
      rw [hnodes, List.mem_append, List.mem_singleton]
      exact ⟨fun hmem => hmem.resolve_right (by omega), Or.inl⟩
    | close b hone =>
      obtain ⟨m, hm⟩ := hnot (mem_closings.mp (show b ∈ closings out by simp [hone]))
      cases hm

/-- A step that closes one auction leaves every other as it is. -/
theorem untouched_close {s s' : Server} {action : Action} {out : List Event} {a b : Nat}
    (list : ListInv s) (hab : a ≠ b) (hclosed : b ∈ closings out) (h : Effect s action s' out) :
    Untouched s a s' := by
  constructor
  · intro x hx
    cases h with
    | @buy env job c y user bid s₁ _ out _ _ hon _ _ hclose hunlink =>
      obtain ⟨us, -, -, rfl⟩ := buy_outcome list hon.mem hon.record hclose hunlink
      have hc : b = c := by
        rw [closings_accepted, closeAuction_closings hclose] at hclosed
        exact List.mem_singleton.mp hclosed
      subst hc
      exact ⟨x, (List.getElem?_set_ne hab.symm).trans hx, rfl, rfl⟩
    | tick htick =>
      cases tick_outcome list htick with
      | quiet => cases hclosed
      | expire pre c post y us =>
        by_cases ha : a ∈ pre ++ [c]
        · exact ⟨x.older, aged_get_mem ha hx, rfl, rfl⟩
        · exact ⟨x, (aged_get_not_mem ha).trans hx, rfl, rfl⟩
    | accept hacc => cases hacc <;> cases hclosed
    | quiet hout =>
      rw [closings_messages hout] at hclosed
      cases hclosed
    | raise =>
      rw [closings_raise] at hclosed
      cases hclosed
    | _ => cases hclosed
  · cases effect_list list h with
    | same hnone => exact absurd hclosed (by simp [hnone])
    | create hnone => exact absurd hclosed (by simp [hnone])
    | close c hone _ hnodes =>
      obtain rfl : b = c := by simpa [hone] using hclosed
      rw [hnodes]
      exact List.mem_erase_of_ne hab

theorem taken_off {s s' : Server} {a : Nat} {out : List Event} (list : ListInv s)
    (h : ListChange s s' out) (hclosed : a ∈ closings out) :
    a ∈ s.auctionsList.nodes ∧ a ∉ s'.auctionsList.nodes := by
  cases h with
  | same hnone =>
    rw [hnone] at hclosed
    cases hclosed
  | create hnone =>
    rw [hnone] at hclosed
    cases hclosed
  | close b hone hmem hnodes =>
    rw [hone] at hclosed
    obtain rfl := List.mem_singleton.mp hclosed
    rw [hnodes, list.nodup.mem_erase_iff]
    exact ⟨hmem, fun hin => hin.1 rfl⟩

/-- What a raised bid says about an auction to a connection. -/
theorem noticesAbout_raise {a b : Nat} {x : Auction} (hid : x.id = b + 1) (fd clientFd : Int)
    (bidder : Option CharPtr) (bid : Int) (name : CharPtr) (fds : List Int) :
    noticesAbout fd (a + 1) (.accepted b bidder bid :: fds.map (fun fd =>
      message fd .ANUPDATE (updateBody x name)) ++ [answer clientFd .OK]) =
      if b = a then List.replicate (fds.count fd)
        ⟨fd, .ANUPDATE, (updateBody x name).length + 1, updateBody x name⟩ else [] := by
  have hout : noticesAbout fd (a + 1) (.accepted b bidder bid :: fds.map (fun fd =>
      message fd .ANUPDATE (updateBody x name)) ++ [answer clientFd .OK]) =
      noticesAbout fd (a + 1) (fds.map fun fd => message fd .ANUPDATE (updateBody x name)) := by
    rw [noticesAbout_append, noticesAbout_noNotice (noNotice_answer clientFd rfl),
      List.append_nil]
    rfl
  have hsame : (b : Int) + 1 = a + 1 ↔ b = a := by omega
  rw [hout, noticesAbout_map _ _ _ rfl (updateBody_starts _ name), hid]
  simp only [hsame]

/-- What a closed auction says about an auction to a connection. -/
theorem noticesAbout_close {a b : Nat} {y : Auction} (hid : y.id = b + 1) (fd : Int)
    {before values : List Event} (fds : List Int)
    (hbefore : ∀ e ∈ before, ∃ bidder amount, e = .accepted b bidder amount)
    (hvalues : ∀ e ∈ values, ∃ v, e = .debited b v ∨ e = .credited b v) :
    noticesAbout fd (a + 1) (before ++ .closed b :: values ++
      fds.map (fun fd => message fd .ANCLOSED (closedBody y))) =
      if b = a then List.replicate (fds.count fd)
        ⟨fd, .ANCLOSED, (closedBody y).length + 1, closedBody y⟩ else [] := by
  have hsilent : ∀ e ∈ before ++ .closed b :: values, e.msg? = none := by
    intro e he
    rcases List.mem_append.mp he with he | he
    · obtain ⟨bidder, amount, rfl⟩ := hbefore e he
      rfl
    · rcases List.mem_cons.mp he with rfl | he
      · rfl
      · obtain ⟨v, rfl | rfl⟩ := hvalues e he <;> rfl
  have hsame : (b : Int) + 1 = a + 1 ↔ b = a := by omega
  rw [noticesAbout_append, noticesAbout_silent hsilent, List.nil_append,
    noticesAbout_map _ _ _ rfl (closedBody_starts y), hid]
  simp only [hsame]

theorem notices_step {s s' : Server} {action : Action} {out : List Event} {w : CharPtr} {a : Nat}
    {u : User} (inv : OnList (some w) a s) (ha : a < s.auctions.length)
    (hu : u ∈ s.users) (hname : u.username = some w)
    (h : Server.step s action = some (s', out)) :
    (noticesAbout u.fd (a + 1) out = [] ∧ Untouched s a s') ∨
    ∃ n m, noticesAbout u.fd (a + 1) out = List.replicate (n + 1) m ∧
      a ∈ s.auctionsList.nodes ∧ Shows s' a m := by
  have heffect := step_effect h
  have store := inv.reach.store
  have list := store.toListInv
  cases step_announces inv.reach h with
  | nothing _ hout =>
    exact .inl ⟨noticesAbout_noNotice hout, untouched_quiet store ha hout heffect⟩
  | @raise env job b x user bid name fds _ hx huser hnamed hof =>
    have hid : (x.withBid user.username bid).id = b + 1 := list.ids b x hx
    rw [noticesAbout_raise hid]
    by_cases hba : b = a
    · subst hba
      have hfd := inv.fd_mem hx hof (findUsername_spec huser).1 (by simp [hnamed]) u hu hname
      obtain ⟨n, hn⟩ := Nat.exists_eq_add_one.mpr (List.count_pos_iff.mpr hfd)
      have hlisted : b ∈ s.auctionsList.nodes := by
        refine (effect_bids store heffect).listed ?_
        rw [List.cons_append, bidsOn_cons, bidsOn_accepted, if_pos rfl]
        simp
      rw [if_pos rfl, hn]
      exact .inr ⟨n, _, rfl, hlisted, .bid _ name (setAuction_get _ hx) hlisted hnamed rfl rfl⟩
    · rw [if_neg hba]
      exact .inl ⟨rfl, fun y hy => ⟨y, (List.getElem?_set_ne hba).trans hy, rfl, rfl⟩, Iff.rfl⟩
  | close b x y before values fds _ hx hy hwatchers hknows hof hbefore hvalues =>
    have hid : y.id = b + 1 := (listInv_step list heffect).ids b y hy
    have hclosed : b ∈ closings (before ++ .closed b :: values ++
        fds.map (fun fd => message fd .ANCLOSED (closedBody y))) := mem_closings.mpr (by simp)
    rw [noticesAbout_close hid _ fds hbefore hvalues]
    by_cases hba : b = a
    · subst hba
      obtain ⟨v, hv, hcmp⟩ := hknows
      obtain ⟨-, q, -, hq, -⟩ := strcmpEq_true hcmp
      have hfd := inv.fd_mem hx hof hv (by simp [hq]) u hu hname
      obtain ⟨n, hn⟩ := Nat.exists_eq_add_one.mpr (List.count_pos_iff.mpr hfd)
      rw [if_pos rfl, hn]
      obtain ⟨hmem, hoff⟩ := taken_off list (effect_list list heffect) hclosed
      exact .inr ⟨n, _, rfl, hmem, .sale y hy hoff rfl rfl⟩
    · rw [if_neg hba]
      exact .inl ⟨rfl, untouched_close list (Ne.symm hba) hclosed heffect⟩

/-- The user stays on the list of the auction and on the connection. -/
def Attends (w : CharPtr) (a : Nat) (fd : Int) (s : Server) (action : Action) : Prop :=
  Staying (some w) (a + 1) s action ∧ ∃ u ∈ s.users, u.username = some w ∧ u.fd = fd

instance (w : CharPtr) (a : Nat) (fd : Int) (s : Server) (action : Action) :
    Decidable (Attends w a fd s action) :=
  inferInstanceAs (Decidable (_ ∧ ∃ u ∈ s.users, u.username = some w ∧ u.fd = fd))

/-- What the notices of a run from `s₀` to `s` say of the auction. -/
structure ReplicaLaw (s₀ : Server) (a : Nat) (seen : List Msg) (s : Server) : Prop where
  untold : seen = [] → Untouched s₀ a s
  told : ∀ m, seen.getLast? = some m → Shows s a m
  sold : ∀ m ∈ seen, m.msgType = .ANCLOSED → a ∉ s.auctionsList.nodes
  ended : seen.Pairwise fun m m' => m.msgType = .ANCLOSED → m' = m

theorem ReplicaLaw.start (s₀ : Server) (a : Nat) : ReplicaLaw s₀ a [] s₀ where
  untold _ := .refl s₀ a
  told _ h := by cases h
  sold _ h := by cases h
  ended := .nil

theorem Shows.untouched {s s' : Server} {a : Nat} {m : Msg} (h : Shows s a m)
    (hsame : Untouched s a s') (hid : ∀ x y, s.auctions[a]? = some x → s'.auctions[a]? = some y →
      y.id = x.id ∧ y.name = x.name) : Shows s' a m := by
  cases h with
  | bid x winner hx ha hwinner htype hbody =>
    obtain ⟨y, hy, hbid, hsame'⟩ := hsame.record x hx
    obtain ⟨hyid, hyname⟩ := hid x y hx hy
    refine .bid y winner hy (hsame.listed.mpr ha) (hsame'.trans hwinner) htype ?_
    rw [hbody, updateBody, updateBody, hyid, hyname, hbid]
  | sale x hx ha htype hbody =>
    obtain ⟨y, hy, hbid, hsame'⟩ := hsame.record x hx
    obtain ⟨hyid, -⟩ := hid x y hx hy
    refine .sale y hy (fun hmem => ha (hsame.listed.mp hmem)) htype ?_
    rw [hbody, closedBody, closedBody, hyid, hbid, hsame']

/-- A step that writes no notice. -/
theorem ReplicaLaw.silent {s₀ s s' : Server} {a : Nat} {seen : List Msg}
    (law : ReplicaLaw s₀ a seen s) (hsame : Untouched s a s')
    (hid : ∀ x y, s.auctions[a]? = some x → s'.auctions[a]? = some y →
      y.id = x.id ∧ y.name = x.name) : ReplicaLaw s₀ a seen s' where
  untold h := (law.untold h).trans hsame
  told m h := (law.told m h).untouched hsame hid
  sold m hm htype hmem := law.sold m hm htype (hsame.listed.mp hmem)
  ended := law.ended

/-- A step that writes notices, the same one as often as the connection is on the list. -/
theorem ReplicaLaw.notice {s₀ s s' : Server} {a n : Nat} {seen : List Msg} {m : Msg}
    (law : ReplicaLaw s₀ a seen s) (ha : a ∈ s.auctionsList.nodes) (hm : Shows s' a m) :
    ReplicaLaw s₀ a (seen ++ List.replicate (n + 1) m) s' := by
  have hopen {m' : Msg} (hm' : m' ∈ seen) : m'.msgType ≠ .ANCLOSED :=
    fun htype => law.sold m' hm' htype ha
  refine ⟨fun h => by simp at h, fun m' h => ?_, fun m' hm' htype => ?_, ?_⟩
  · obtain rfl : m = m' := by
      simpa [List.getLast?_append, List.getLast?_replicate] using h
    exact hm
  · rcases List.mem_append.mp hm' with hold | hnew
    · exact absurd htype (hopen hold)
    · obtain rfl := List.eq_of_mem_replicate hnew
      cases hm with
      | bid _ _ _ _ _ hupdate =>
        rw [hupdate] at htype
        cases htype
      | sale _ _ hoff => exact hoff
  · refine List.pairwise_append.mpr ⟨law.ended, ?_, fun m' hm' _ _ htype => ?_⟩
    · exact List.pairwise_replicate.mpr (Or.inr fun _ => rfl)
    · exact absurd htype (hopen hm')

theorem effect_label {s s' : Server} {action : Action} {out : List Event} {a : Nat}
    (list : ListInv s) (ha : a < s.auctions.length) (h : Effect s action s' out) (x y : Auction)
    (hx : s.auctions[a]? = some x) (hy : s'.auctions[a]? = some y) :
    y.id = x.id ∧ y.name = x.name := by
  rcases effect_record list h hy with ⟨z, hz, hchange⟩ | ⟨rfl, -⟩
  · obtain rfl : x = z := Option.some.inj (hx.symm.trans hz)
    cases hchange <;> exact ⟨rfl, rfl⟩
  · exact absurd ha (lt_irrefl _)

/-- The state of a run that a watcher follows. -/
structure Followed (s₀ : Server) (w : CharPtr) (a : Nat) (fd : Int) (tr : List Event)
    (s : Server) : Prop where
  onList : OnList (some w) a s
  created : a < s.auctions.length
  law : ReplicaLaw s₀ a (noticesAbout fd (a + 1) tr) s

theorem followed_step {s₀ s s' : Server} {w : CharPtr} {a : Nat} {fd : Int} {tr out : List Event}
    {action : Action} (inv : Followed s₀ w a fd tr s) (hok : Attends w a fd s action)
    (h : Server.step s action = some (s', out)) : Followed s₀ w a fd (tr ++ out) s' := by
  obtain ⟨hstaying, u, hu, hname, rfl⟩ := hok
  have heffect := step_effect h
  have list := inv.onList.reach.store.toListInv
  have hlen := (effect_list list heffect).length_le
  refine ⟨onList_step inv.onList hstaying heffect, inv.created.trans_le hlen, ?_⟩
  rw [noticesAbout_append]
  rcases notices_step inv.onList inv.created hu hname h with
    ⟨hsilent, hsame⟩ | ⟨n, m, hnotices, ha, hm⟩
  · rw [hsilent, List.append_nil]
    exact inv.law.silent hsame (effect_label list inv.created heffect)
  · rw [hnotices]
    exact inv.law.notice ha hm

/-- From every reachable state in which the user watches the auction. -/
theorem replicaLaw_run {as bs : List Action} {tr tr' : List Event} {s₀ s : Server}
    (run : Run Server.step (Server.Admits Anyone) Server.start as tr s₀) {a : Nat} {x : Auction}
    {w : CharPtr}
    (hx : s₀.auctions[a]? = some x) (hw : w ∈ x.watchers.nodes) {fd : Int}
    (since : Run Server.step (Attends w a fd) s₀ bs tr' s) :
    ReplicaLaw s₀ a (noticesAbout fd (a + 1) tr') s := by
  have reach := reachInv_run run
  have hstart : Followed s₀ w a fd [] s₀ := by
    refine ⟨⟨reach, (reach.guests a x hx).watchers w hw, ?_⟩,
      (List.getElem?_eq_some_iff.mp hx).1, .start s₀ a⟩
    rintro w' ⟨⟩
    exact ⟨x, hx, hw⟩
  exact (since.invariant (P := fun _ tr s => Followed s₀ w a fd tr s) hstart
    fun _ inv hok hs => followed_step inv hok hs).law

/-- B watches the auction; C bids 9 and then buys it. -/
def sampleFollow : List Action :=
  [sampleJob .ANWATCH 6 ['1'], sampleJob .ANBID 6 ['1', '\r', '\n', '9'],
    sampleJob .ANBID 6 ['1', '\r', '\n', '6', '0']]

theorem replicaLaw_run_sample :
    let last := (exec Server.step (Attends ⟨1, ['B']⟩ 0 5) sampleWatched sampleFollow).get
      (by decide)
    (noticesAbout 5 1 last.2).map Msg.msgType = [.ANUPDATE, .ANCLOSED] ∧
      ReplicaLaw sampleWatched 0 (noticesAbout 5 1 last.2) last.1 := by
  let x : Auction := ⟨1, ['V'], 3, 50, 1, 0, none, some ⟨0, ['A']⟩, ⟨[⟨1, ['B']⟩], 1⟩, 1⟩
  have watched : exec Server.step (Server.Admits Anyone) Server.start
      (sampleOffer ++ [.job ⟨sampleMalloc, []⟩ sampleWatch]) =
        some (sampleWatched, [answer 4 .OK, answer 5 .OK, answer 6 .OK,
          message 4 .ANCREATE ['1'], message 5 .ANWATCH (['V'] ++ crlf ++ ['5', '0'])]) := by decide
  have hx : sampleWatched.auctions[0]? = some x := by decide
  exact ⟨by decide, replicaLaw_run (run_of_exec watched) hx (by decide) (run_of_isSome (by decide))⟩

end ZBid
