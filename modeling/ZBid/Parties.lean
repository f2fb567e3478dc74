import ZBid.Auctions

/-!
# Creators, winners and watchers

Usernames are never forgotten and never change, so the pointers that an auction keeps to its
creator, its highest bidder and its watchers stay pointers to the names of recorded users. With
the facts on single records this gives the invariant of the auction store.
-/
namespace ZBid

open CInt CString Runs

/-- The pointer is the username of a recorded user. -/
def Server.Names (s : Server) (name : CharStar) : Prop := ∃ u ∈ s.users, u.username = name

structure PartyInv (s : Server) (x : Auction) : Prop where
  creator : s.Names x.creator
  winner : x.currentWinner ≠ none → s.Names x.currentWinner
  others : x.currentWinner ≠ none → nameText x.currentWinner ≠ nameText x.creator
  watchers : ∀ w ∈ x.watchers.nodes, s.Names (some w)

theorem prefix_of_eq {α : Type} {xs ys : List α} (h : ys = xs) : xs <+: ys :=
  h ▸ List.prefix_refl ys

def User.credentials (u : User) : CharStar × CharStar := (u.username, u.password)

/-- A step keeps the usernames and the passwords, or it is a LOGIN that adds its own. -/
theorem effect_credentials {s s' : Server} {action : Action} {out : List Event} (inv : UserInv s)
    (h : Effect s action s' out) :
    s'.users.map User.credentials = s.users.map User.credentials ∨
    ∃ fd body, action = .accept fd MsgType.LOGIN.code body ∧
      scanByName (loginName s body) s.users = some none ∧
      s'.users.map User.credentials =
        s.users.map User.credentials ++ [(loginName s body, loginPassword s body)] := by
  cases h with
  | @accept fd msgType body _ _ _ hacc =>
    cases hacc with
    | again i u _ hu => exact Or.inl (map_set_of_eq User.credentials hu rfl)
    | created users htype hscan hins =>
      have hnodes := (insertAtTail_spec inv.wf hins).1
      refine Or.inr ⟨fd, body, by rw [htype], hscan, ?_⟩
      simp only [Server.users, hnodes, List.map_append]
      rfl
    | _ => exact Or.inl rfl
  | quiet => exact Or.inl rfl
  | logout i u _ hu => exact Or.inl (map_set_of_eq User.credentials hu rfl)
  | create name duration price us creator list body _ _ _ _ _ _ _ _ hscan =>
    exact Or.inl (map_eq_of_owned User.credentials (fun _ _ => rfl) (ownerScan_spec hscan).1)
  | watch => exact Or.inl rfl
  | leave => exact Or.inl rfl
  | raise => exact Or.inl rfl
  | buy a x user bid s₁ _ out _ _ _ _ _ hclose hunlink =>
    obtain ⟨us, rfl, hus⟩ := closeAuction_frame hclose
    obtain ⟨list, rfl⟩ := unlinkAuction_frame hunlink
    exact Or.inl (map_congr_of_map (fun d : Identity => (d.username, d.password)) hus)
  | tick h =>
    obtain ⟨us, list, store, rfl, hus⟩ := tickLoop_frame h
    exact Or.inl (map_congr_of_map (fun d : Identity => (d.username, d.password)) hus)

/-- The same for the usernames alone. -/
theorem effect_usernames {s s' : Server} {action : Action} {out : List Event} (inv : UserInv s)
    (h : Effect s action s' out) :
    s'.users.map User.username = s.users.map User.username ∨
    ∃ fd body, action = .accept fd MsgType.LOGIN.code body ∧
      scanByName (loginName s body) s.users = some none ∧
      s'.users.map User.username = s.users.map User.username ++ [loginName s body] := by
  rcases effect_credentials inv h with hsame | ⟨fd, body, haction, hscan, hnew⟩
  · exact Or.inl (map_congr_of_map Prod.fst hsame)
  · refine Or.inr ⟨fd, body, haction, hscan, ?_⟩
    have hnames := congrArg (List.map Prod.fst) hnew
    rw [List.map_map, List.map_append, List.map_map] at hnames
    exact hnames

/-- The usernames of a step's result start with those before it. -/
theorem effect_names {s s' : Server} {action : Action} {out : List Event} (inv : UserInv s)
    (h : Effect s action s' out) :
    s.users.map User.username <+: s'.users.map User.username := by
  rcases effect_usernames inv h with hsame | ⟨fd, body, -, -, hnew⟩
  · exact prefix_of_eq hsame
  · rw [hnew]
    exact List.prefix_append _ _

theorem Names.mono {s s' : Server} {name : CharStar}
    (h : s.users.map User.username <+: s'.users.map User.username) (hname : s.Names name) :
    s'.Names name := by
  obtain ⟨u, hu, rfl⟩ := hname
  have hmem := h.subset (List.mem_map_of_mem (f := User.username) hu)
  exact List.mem_map.mp hmem

theorem PartyInv.mono {s s' : Server} {x : Auction}
    (h : s.users.map User.username <+: s'.users.map User.username) (inv : PartyInv s x) :
    PartyInv s' x where
  creator := Names.mono h inv.creator
  winner := fun hw => Names.mono h (inv.winner hw)
  others := inv.others
  watchers := fun w hw => Names.mono h (inv.watchers w hw)

/-- Two recorded users with the same username are the same user. -/
theorem UserInv.name_inj {s : Server} (inv : UserInv s) {u v : User} (hu : u ∈ s.users)
    (hv : v ∈ s.users) (h : nameText u.username = nameText v.username) : u = v :=
  record_inj inv.names hu hv h

/-- An accepted bidder is somebody else than the creator, in pointer and in text. -/
theorem BidOn.stranger {s : Server} {fd : Int} {a : Nat} {x : Auction} {user : User} {bid : Int}
    (hon : BidOn s fd a x user bid) (inv : UserInv s) (hcreator : s.Names x.creator) :
    nameText user.username ≠ nameText x.creator := by
  intro h
  obtain ⟨c, hc, hcx⟩ := hcreator
  obtain ⟨hu, -⟩ := findUsername_spec hon.bidder
  have hsame : user = c := inv.name_inj hu hc (hcx ▸ h)
  have hptr := (inv.samePtr_iff hc hu).mpr (congrArg User.username hsame.symm)
  rw [hcx, hon.notCreator] at hptr
  cases hptr

theorem recordChange_creator {s : Server} {action : Action} {k : Nat} {x y : Auction}
    (h : RecordChange s action k x y) : y.creator = x.creator := by
  cases h <;> rfl

/-- Whoever gets onto a watchers list is a recorded user. -/
theorem watchers_change {s : Server} {action : Action} {k : Nat} {x y : Auction}
    (wf : x.watchers.WF) (inv : ∀ w ∈ x.watchers.nodes, s.Names (some w))
    (h : RecordChange s action k x y) : ∀ w ∈ y.watchers.nodes, s.Names (some w) := by
  cases h with
  | same => exact inv
  | older => exact inv
  | bid => exact inv
  | watched user watchers _ _ _ huser hins =>
    cases hname : user.username with
    | none =>
      rw [hname, insertAtTail_null, Option.some.injEq] at hins
      exact hins ▸ inv
    | some v =>
      intro w hw
      rw [Auction.withWatchers, (insertAtTail_spec wf (hname ▸ hins)).1, List.mem_append,
        List.mem_singleton] at hw
      rcases hw with hw | rfl
      · exact inv w hw
      · exact ⟨user, (findUsername_spec huser).1, hname⟩
  | left user index removed watchers _ _ _ _ _ hrem =>
    exact fun w hw => inv w (removeByIndex_subset wf hrem hw)

theorem partyInv_change {s : Server} {action : Action} {k : Nat} {x y : Auction}
    (users : UserInv s) (wf : x.watchers.WF) (inv : PartyInv s x)
    (h : RecordChange s action k x y) : PartyInv s y := by
  have hwatchers := watchers_change wf inv.watchers h
  cases h with
  | bid user bid hon =>
    have hmem := (findUsername_spec hon.bidder).1
    exact ⟨inv.creator, fun _ => ⟨user, hmem, rfl⟩,
      fun _ => hon.stranger users inv.creator, hwatchers⟩
  | _ => exact ⟨inv.creator, inv.winner, inv.others, hwatchers⟩

def User.ListsWF (u : User) : Prop := u.auctionsOwned.WF ∧ u.auctionsWon.WF

def UserLists (s : Server) : Prop := ∀ u ∈ s.users, u.ListsWF

theorem UserLists.get {s : Server} (inv : UserLists s) {i : Nat} {u : User}
    (hu : s.users[i]? = some u) : u.ListsWF := inv u (List.mem_of_getElem? hu)

theorem mem_setUser {s : Server} {i : Nat} {u u' : User} (h : u' ∈ (s.setUser i u).users) :
    u' = u ∨ u' ∈ s.users :=
  (List.mem_or_eq_of_mem_set h).symm

/-- A close appends the auction to lists of wins, and leaves the other lists alone. -/
theorem closeAuction_lists {s s' : Server} {a : Nat} {out : List Event}
    (h : closeAuction s a = some (s', out)) {u' : User} (hu' : u' ∈ s'.users) :
    ∃ u ∈ s.users, u'.auctionsOwned = u.auctionsOwned ∧
      (u'.auctionsWon = u.auctionsWon ∨
        insertAtTail u.auctionsWon (some a) = some u'.auctionsWon) := by
  obtain ⟨c⟩ := closeAuction_spec h
  have hcredited : ∃ v ∈ c.middle.users, u'.auctionsOwned = v.auctionsOwned ∧
      u'.auctionsWon = v.auctionsWon := by
    obtain ⟨i, v, hv, -, hs', -⟩ := creditCreator_spec c.credits
    rcases mem_setUser (hs' ▸ hu') with rfl | hmem
    · exact ⟨v, List.mem_of_getElem? hv, rfl, rfl⟩
    · exact ⟨u', hmem, rfl, rfl⟩
  obtain ⟨v, hv, howned, hwon⟩ := hcredited
  rw [howned, hwon]
  rcases debitWinner_spec c.debits with ⟨-, hm, -⟩ | ⟨w, i, u, won, -, hu, -, hins, hm, -⟩
  · exact ⟨v, hm ▸ hv, rfl, Or.inl rfl⟩
  · rcases mem_setUser (hm ▸ hv) with rfl | hmem
    · exact ⟨u, List.mem_of_getElem? hu, rfl, Or.inr hins⟩
    · exact ⟨v, hmem, rfl, Or.inl rfl⟩

theorem UserLists.close {s s' : Server} {a : Nat} {out : List Event} (inv : UserLists s)
    (h : closeAuction s a = some (s', out)) : UserLists s' := by
  intro u' hu'
  obtain ⟨u, hu, howned, hwon⟩ := closeAuction_lists h hu'
  refine ⟨howned ▸ (inv u hu).1, ?_⟩
  rcases hwon with hsame | hins
  · exact hsame ▸ (inv u hu).2
  · exact (insertAtTail_spec (inv u hu).2 hins).2

theorem ownerScan_lists {fd : Int} {a : Nat} {us us' : List User}
    (h : List.Forall₂ (Owned fd a) us us') : ∀ u' ∈ us', ∃ u ∈ us,
      (u'.auctionsOwned = u.auctionsOwned ∨
        insertAtTail u.auctionsOwned (some a) = some u'.auctionsOwned) ∧
      u'.auctionsWon = u.auctionsWon := by
  induction h with
  | nil => simp
  | @cons u v us vs hu _ ih =>
    intro u' hu'
    rcases List.mem_cons.mp hu' with rfl | hu'
    · refine ⟨u, List.mem_cons_self, ?_⟩
      simp only [Owned] at hu
      split at hu
      · obtain ⟨owned, hins, rfl⟩ := hu
        exact ⟨Or.inr hins, rfl⟩
      · exact hu ▸ ⟨Or.inl rfl, rfl⟩
    · obtain ⟨w, hw, hlists⟩ := ih u' hu'
      exact ⟨w, List.mem_cons_of_mem _ hw, hlists⟩

/-- What a step can do to the lists of a user: append the auction it creates to the one, or the
auction it closes to the other. -/
structure ListsChange (s s' : Server) (out : List Event) (u u' : User) : Prop where
  owned : u'.auctionsOwned = u.auctionsOwned ∨ s'.auctions.length = s.auctions.length + 1 ∧
    insertAtTail u.auctionsOwned (some s.auctions.length) = some u'.auctionsOwned
  won : u'.auctionsWon = u.auctionsWon ∨ ∃ a, closings out = [a] ∧
    insertAtTail u.auctionsWon (some a) = some u'.auctionsWon

/-- Every user after a step is a user from before it, or new and with empty lists. -/
theorem effect_user {s s' : Server} {action : Action} {out : List Event} (users : UserInv s)
    (list : ListInv s) (h : Effect s action s' out) {u' : User} (hu' : u' ∈ s'.users) :
    (∃ u ∈ s.users, ListsChange s s' out u u') ∨
      u'.auctionsOwned = createList ∧ u'.auctionsWon = createList := by
  have hold : u' ∈ s.users → (∃ u ∈ s.users, ListsChange s s' out u u') ∨
      u'.auctionsOwned = createList ∧ u'.auctionsWon = createList :=
    fun hu' => Or.inl ⟨u', hu', Or.inl rfl, Or.inl rfl⟩
  cases h with
  | @accept fd msgType body _ _ _ hacc =>
    cases hacc with
    | again i u _ hu =>
      rcases mem_setUser hu' with rfl | hu'
      · exact Or.inl ⟨u, List.mem_of_getElem? hu, Or.inl rfl, Or.inl rfl⟩
      · exact hold hu'
    | created users' _ _ hins =>
      have hnodes := (insertAtTail_spec users.wf hins).1
      simp only [Server.users, hnodes, List.mem_append, List.mem_singleton] at hu'
      rcases hu' with hu' | rfl
      · exact hold hu'
      · exact Or.inr ⟨rfl, rfl⟩
    | _ => exact hold hu'
  | quiet => exact hold hu'
  | logout i u _ hu =>
    rcases mem_setUser hu' with rfl | hu'
    · exact Or.inl ⟨u, List.mem_of_getElem? hu, Or.inl rfl, Or.inl rfl⟩
    · exact hold hu'
  | create name duration price us creator l body _ _ _ _ _ _ _ _ hscan =>
    obtain ⟨u, hu, howned, hwon⟩ := ownerScan_lists (ownerScan_spec hscan).1 u' hu'
    exact Or.inl ⟨u, hu, howned.imp_right fun hins => ⟨by simp, hins⟩, Or.inl hwon⟩
  | watch => exact hold hu'
  | leave => exact hold hu'
  | raise => exact hold hu'
  | buy a x user bid s₁ _ out _ _ hon _ _ hclose hunlink =>
    have hlists := fun v (hv : v ∈ s₁.users) => closeAuction_lists hclose hv
    have hone := (closings_accepted a user.username bid out).trans (closeAuction_closings hclose)
    obtain ⟨us, rfl, -, rfl⟩ := buy_outcome list hon.mem hon.record hclose hunlink
    obtain ⟨u, hu, howned, hwon⟩ := hlists u' hu'
    exact Or.inl ⟨u, hu, Or.inl howned, hwon.imp_right fun hins => ⟨a, hone, hins⟩⟩
  | tick h =>
    cases tick_outcome list h with
    | quiet => exact hold hu'
    | expire pre a post x us _ _ _ _ _ hclose =>
      have hone := closeAuction_closings hclose
      obtain ⟨u, hu, howned, hwon⟩ := closeAuction_lists hclose hu'
      exact Or.inl ⟨u, hu, Or.inl howned, hwon.imp_right fun hins => ⟨a, hone, hins⟩⟩

theorem userLists_step {s s' : Server} {action : Action} {out : List Event} (users : UserInv s)
    (list : ListInv s) (inv : UserLists s) (h : Effect s action s' out) : UserLists s' := by
  intro u' hu'
  rcases effect_user users list h hu' with ⟨u, hu, change⟩ | ⟨howned, hwon⟩
  · obtain ⟨hwfOwned, hwfWon⟩ := inv u hu
    constructor
    · rcases change.owned with hsame | ⟨-, hins⟩
      · exact hsame ▸ hwfOwned
      · exact (insertAtTail_spec hwfOwned hins).2
    · rcases change.won with hsame | ⟨a, -, hins⟩
      · exact hsame ▸ hwfWon
      · exact (insertAtTail_spec hwfWon hins).2
  · exact ⟨howned ▸ createList_wf, hwon ▸ createList_wf⟩

/-- An ANCREATE that passes the checks of `createAuction`. -/
def Creates (job : Job) : Prop :=
  MsgType.ofCode job.jobMsgType = some .ANCREATE ∧
    ∀ args ∈ ancreateArgs (cstr job.jobBuffer), args.1 ≠ [] ∧ 1 ≤ args.2.1 ∧ 0 ≤ args.2.2

instance (job : Job) : Decidable (Creates job) := inferInstanceAs (Decidable (_ ∧ _))

theorem creates_of_args {job : Job} {name : Text} {duration price : Int}
    (htype : MsgType.ofCode job.jobMsgType = some .ANCREATE)
    (hargs : ancreateArgs (cstr job.jobBuffer) = some (name, duration, price)) (hname : name ≠ [])
    (hd : 1 ≤ duration) (hp : 0 ≤ price) : Creates job := by
  refine ⟨htype, fun args h => ?_⟩
  obtain rfl := Option.some.inj (hargs.symm.trans h)
  exact ⟨hname, hd, hp⟩

/-- Jobs may come from any descriptor, but whoever creates an auction is recorded. -/
def Sponsored (s : Server) : Action → Prop
  | .accept clientFd _ _ => FreshFd s clientFd
  | .job _ job => Creates job → Recorded s job.clientfd
  | .tick => True

instance Server.decidableSponsored (s : Server) : ∀ action, Decidable (Sponsored s action)
  | .accept clientFd _ _ => inferInstanceAs (Decidable (FreshFd s clientFd))
  | .job _ job => inferInstanceAs (Decidable (Creates job → Recorded s job.clientfd))
  | .tick => inferInstanceAs (Decidable True)

theorem Sponsored.admits {s : Server} {action : Action} (h : Sponsored s action) :
    s.Admits (fun _ _ => True) action := by
  cases action with
  | accept => exact h
  | _ => trivial

theorem sponsored_of_recorded (s : Server) (action : Action) (h : s.Admits Recorded action) :
    Sponsored s action := by
  cases action with
  | accept => exact h
  | job => exact fun _ => h
  | tick => trivial

theorem LoggedIn.recorded {s : Server} {fd : Int} (h : LoggedIn s fd) : Recorded s fd := by
  obtain ⟨u, hu, hfd, -⟩ := h
  exact ⟨u, hu, hfd⟩

theorem sponsored_of_loggedIn (s : Server) (action : Action) (h : s.Admits LoggedIn action) :
    Sponsored s action := by
  cases action with
  | accept => exact h
  | job => exact fun _ => LoggedIn.recorded h
  | tick => trivial

/-- The invariants of a sequential run in which every auction comes from a recorded user. -/
structure ServerInv (s : Server) : Prop where
  users : UserInv s
  lists : UserLists s
  store : StoreInv s
  parties : ∀ (k : Nat) (x : Auction), s.auctions[k]? = some x → PartyInv s x

theorem serverInv_start : ServerInv Server.start where
  users := userInv_start
  lists := by simp [UserLists, Server.start, Server.users, createList]
  store := storeInv_start
  parties := by simp [Server.start]

theorem serverInv_step {s s' : Server} {action : Action} {out : List Event} (inv : ServerInv s)
    (hok : Sponsored s action) (h : Effect s action s' out) : ServerInv s' where
  users := userInv_step inv.users hok.admits h
  lists := userLists_step inv.users inv.store.toListInv inv.lists h
  store := storeInv_step inv.store h
  parties := by
    intro k y hy
    have hnames := effect_names inv.users h
    rcases effect_record inv.store.toListInv h hy with ⟨x, hx, hchange⟩ | ⟨-, hnew⟩
    · have hwf := (inv.store.records k x hx).watchers
      exact (partyInv_change inv.users hwf (inv.parties k x hx) hchange).mono hnames
    · cases hnew with
      | @mk env job name duration price us creator htype hargs hname hd _ hp _ hscan =>
        refine PartyInv.mono hnames ⟨?_, fun h => absurd rfl h, fun h => absurd rfl h, ?_⟩
        · obtain ⟨u, hu, hfd⟩ := hok (creates_of_args htype hargs hname hd hp)
          rcases (ownerScan_spec hscan).2 with ⟨-, hno⟩ | ⟨v, hv, -, hv'⟩
          · exact absurd hfd (hno u hu)
          · exact ⟨v, hv, hv'.symm⟩
        · intro w hw
          cases hw

theorem serverInv_run {as : List Action} {tr : List Event} {s : Server}
    (run : Run Server.step Sponsored Server.start as tr s) : ServerInv s :=
  run.invariant_state serverInv_start fun inv hok hs => serverInv_step inv hok (step_effect hs)

/-- The records of the auctions on the list, in list order. -/
def Server.listed (s : Server) : List Auction :=
  s.auctionsList.nodes.filterMap fun k => s.auctions[k]?

/-- What a client may rely on of an auction on the list. A creator or a watcher is the username
pointer of a recorded user. -/
structure ListedLaw (s : Server) (x : Auction) : Prop where
  duration : 1 ≤ x.duration
  bid : 0 ≤ x.bid
  winner : x.bid = 0 ↔ x.currentWinner = none
  flag : (x.binFlag = 1 ↔ 0 < x.binPrice) ∧ (x.binFlag ≠ 1 → x.binFlag = 0)
  cap : x.binFlag = 1 → x.bid ≤ x.binPrice
  others : ∀ w, x.currentWinner = some w → nameText (some w) ≠ nameText x.creator
  creator : s.Names x.creator
  winnerNames : ∀ w, x.currentWinner = some w → s.Names (some w)
  watchers : ∀ w ∈ x.watchers.nodes, s.Names (some w)

/-- The list is as long as its counter says, its ids rise strictly between 1 and the counter of
ids, no two auctions ever created share an id, and every listed auction obeys `ListedLaw`. -/
structure StoreLaw (s : Server) : Prop where
  length : s.auctionsList.length = s.auctionsList.nodes.length
  stored : s.listed.length = s.auctionsList.nodes.length
  increasing : (s.listed.map Auction.id).Pairwise (· < ·)
  range : ∀ x ∈ s.listed, 1 ≤ x.id ∧ x.id ≤ s.auctionID
  unique : (s.auctions.map Auction.id).Nodup
  listed : ∀ x ∈ s.listed, ListedLaw s x

/-- The ids along a list of stored positions are the positions plus one. -/
theorem ListInv.ids_of_stored {s : Server} (inv : ListInv s) {nodes : List Nat}
    (hstored : ∀ k ∈ nodes, k < s.auctions.length) :
    (nodes.filterMap fun k => s.auctions[k]?).map Auction.id =
      nodes.map fun k : Nat => ((k : Int) + 1) := by
  induction nodes with
  | nil => rfl
  | cons k rest ih =>
    have hx := List.getElem?_eq_getElem (hstored k List.mem_cons_self)
    have hrest := ih fun m hm => hstored m (List.mem_cons_of_mem _ hm)
    rw [List.filterMap_cons_some hx, List.map_cons, List.map_cons, inv.ids k _ hx, hrest]

theorem ListInv.listed_ids {s : Server} (inv : ListInv s) :
    s.listed.map Auction.id = s.auctionsList.nodes.map fun k : Nat => ((k : Int) + 1) :=
  inv.ids_of_stored inv.stored

theorem ListInv.ids_nodup {s : Server} (inv : ListInv s) : (s.auctions.map Auction.id).Nodup := by
  have hids : s.auctions.map Auction.id =
      (List.range s.auctions.length).map fun k : Nat => ((k : Int) + 1) := by
    apply List.ext_getElem
    · simp
    · intro k h₁ h₂
      have hk : k < s.auctions.length := by simpa using h₁
      simpa using inv.ids k _ (List.getElem?_eq_getElem hk)
  rw [hids]
  exact List.nodup_range.map fun i j h => by simpa using h

theorem mem_listed {s : Server} {x : Auction} (h : x ∈ s.listed) :
    ∃ k ∈ s.auctionsList.nodes, s.auctions[k]? = some x := by
  simpa [Server.listed] using h

theorem ServerInv.listed {s : Server} (inv : ServerInv s) {x : Auction} (h : x ∈ s.listed) :
    ListedLaw s x := by
  obtain ⟨k, hk, hx⟩ := mem_listed h
  have record := inv.store.records k x hx
  have opened := inv.store.listed k hk x hx
  have party := inv.parties k x hx
  have hflag := record.flag
  constructor
  · exact opened.duration.1
  · exact record.bid.1
  · exact record.winner
  · rw [hflag]
    by_cases hp : 0 < x.binPrice <;> simp [hp]
  · exact opened.cap
  · intro w hw
    exact hw ▸ party.others (by simp [hw])
  · exact party.creator
  · intro w hw
    exact hw ▸ party.winner (by simp [hw])
  · exact party.watchers

/-- The auction store is sound in every state that logged-in users can bring about. -/
theorem storeLaw_run {as : List Action} {tr : List Event} {s : Server}
    (run : Run Server.step (Server.Admits LoggedIn) Server.start as tr s) : StoreLaw s := by
  have inv : ServerInv s := serverInv_run (run.mono sponsored_of_loggedIn)
  have hids := inv.store.listed_ids
  constructor
  · exact inv.store.wf
  · simpa using congrArg List.length hids
  · rw [hids, List.pairwise_map]
    exact inv.store.sorted.imp fun h => by omega
  · intro x hx
    obtain ⟨k, hk, hget⟩ := mem_listed hx
    have hid := inv.store.ids k x hget
    have hlt := inv.store.stored k hk
    have hcounter := inv.store.counter
    omega
  · exact inv.store.ids_nodup
  · exact fun x hx => inv.listed hx

/-- The bytes a fresh `auctions_t` happens to hold in the sample runs. -/
def sampleMalloc : Auction := ⟨0, [], 0, 0, 0, 0, none, none, createList, 0⟩

def sampleJob (t : MsgType) (fd : Int) (body : Text) : Action :=
  .job ⟨sampleMalloc, []⟩ ⟨body, t.code, fd⟩

/-- User A logs in on descriptor 4 and user B on descriptor 5. -/
def sampleLogins : List Action :=
  [.accept 4 MsgType.LOGIN.code ['A', '\r', '\n', 'x'],
    .accept 5 MsgType.LOGIN.code ['B', '\r', '\n', 'y']]

/-- A creates an auction of three ticks with buy-it-now price 50, B watches it and bids 7. -/
def sampleBid : List Action :=
  sampleLogins ++ [sampleJob .ANCREATE 4 ['V', '\r', '\n', '3', '\r', '\n', '5', '0'],
    sampleJob .ANWATCH 5 ['1'], sampleJob .ANBID 5 ['1', '\r', '\n', '7'], .tick]

theorem sampleBid_completes :
    (exec Server.step (Server.Admits LoggedIn) Server.start sampleBid).isSome := by decide

theorem storeLaw_run_sample :
    StoreLaw ((exec Server.step (Server.Admits LoggedIn) Server.start sampleBid).get
      sampleBid_completes).1 :=
  storeLaw_run (run_of_isSome sampleBid_completes)

end ZBid
