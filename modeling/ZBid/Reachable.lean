import ZBid.Parties

/-!
# What holds of every run

Nothing is assumed here of who sends a job. The connection of an ANCREATE may be in no record, and
then the auction has no creator; but a bidder or a watcher is always a recorded user, the lists of
a user only hold auctions of the store, and a user without a name is the only one.
-/
namespace ZBid

open CInt CString Runs

/-- A job may come from any descriptor. -/
def Anyone (_ : Server) (_ : Int) : Prop := True

instance (s : Server) (fd : Int) : Decidable (Anyone s fd) := inferInstanceAs (Decidable True)

/-- The lists of a user: auctions of the store, none twice, and none won that is still open. -/
structure Holds (s : Server) (u : User) : Prop where
  owned : u.auctionsOwned.nodes.Nodup
  ownedStored : ∀ a ∈ u.auctionsOwned.nodes, a < s.auctions.length
  won : u.auctionsWon.nodes.Nodup
  wonStored : ∀ a ∈ u.auctionsWon.nodes, a < s.auctions.length
  wonClosed : ∀ a ∈ u.auctionsWon.nodes, a ∉ s.auctionsList.nodes

/-- The users that a record names, its creator aside. -/
structure GuestInv (s : Server) (x : Auction) : Prop where
  winner : x.currentWinner ≠ none → s.Names x.currentWinner
  watchers : ∀ w ∈ x.watchers.nodes, s.Names (some w)

structure ReachInv (s : Server) : Prop where
  users : UserInv s
  lists : UserLists s
  store : StoreInv s
  holds : ∀ u ∈ s.users, Holds s u
  guests : ∀ (k : Nat) (x : Auction), s.auctions[k]? = some x → GuestInv s x
  alone : none ∈ s.users.map User.username → s.users.map User.username = [none]

theorem reachInv_start : ReachInv Server.start where
  users := userInv_start
  lists := by simp [UserLists, Server.start, Server.users, createList]
  store := storeInv_start
  holds := by simp [Server.start, Server.users, createList]
  guests := by simp [Server.start]
  alone := by simp [Server.start, Server.users, createList]

/-- An auction that is off the list stays off it. -/
theorem ListChange.off {s s' : Server} {out : List Event} (h : ListChange s s' out) {a : Nat}
    (hstored : a < s.auctions.length) (hoff : a ∉ s.auctionsList.nodes) :
    a ∉ s'.auctionsList.nodes := by
  cases h with
  | same _ hnodes => exact hnodes ▸ hoff
  | create _ hnodes =>
    rw [hnodes, List.mem_append, List.mem_singleton]
    rintro (h | h)
    · exact hoff h
    · omega
  | close b _ _ hnodes =>
    rw [hnodes]
    exact fun h => hoff (List.mem_of_mem_erase h)

/-- The auction that a step closes was open, and no longer is. -/
theorem ListChange.closed {s s' : Server} {out : List Event} (list : ListInv s)
    (h : ListChange s s' out) {a : Nat} (hone : closings out = [a]) :
    a ∈ s.auctionsList.nodes ∧ a ∉ s'.auctionsList.nodes := by
  cases h with
  | same hnone => simp [hone] at hnone
  | create hnone => simp [hone] at hnone
  | close b hb hmem hnodes =>
    obtain rfl : a = b := by simpa using hone.symm.trans hb
    rw [hnodes, list.nodup.mem_erase_iff]
    exact ⟨hmem, fun h => h.1 rfl⟩

theorem nodup_concat {l : List Nat} {a : Nat} (h : l.Nodup) (ha : a ∉ l) : (l ++ [a]).Nodup := by
  refine List.nodup_append.mpr ⟨h, List.nodup_singleton a, ?_⟩
  intro b hb c hc hbc
  rw [List.mem_singleton] at hc
  exact ha (hc ▸ hbc ▸ hb)

theorem holds_step {s s' : Server} {out : List Event} {u u' : User} (list : ListInv s)
    (wf : u.ListsWF) (inv : Holds s u) (hlist : ListChange s s' out)
    (change : ListsChange s s' out u u') : Holds s' u' := by
  have hlen := hlist.length_le
  obtain ⟨howned, hownedStored⟩ : u'.auctionsOwned.nodes.Nodup ∧
      ∀ a ∈ u'.auctionsOwned.nodes, a < s'.auctions.length := by
    rcases change.owned with hsame | ⟨hmore, hins⟩
    · rw [hsame]
      exact ⟨inv.owned, fun a ha => (inv.ownedStored a ha).trans_le hlen⟩
    · rw [(insertAtTail_spec wf.1 hins).1]
      refine ⟨nodup_concat inv.owned fun h => lt_irrefl _ (inv.ownedStored _ h), ?_⟩
      intro a ha
      rcases List.mem_append.mp ha with ha | ha
      · exact (inv.ownedStored a ha).trans_le hlen
      · rw [List.mem_singleton] at ha
        omega
  rcases change.won with hsame | ⟨b, hone, hins⟩
  · refine ⟨howned, hownedStored, hsame ▸ inv.won, ?_, ?_⟩
    · exact hsame ▸ fun a ha => (inv.wonStored a ha).trans_le hlen
    · exact hsame ▸ fun a ha => hlist.off (inv.wonStored a ha) (inv.wonClosed a ha)
  · obtain ⟨hb, hoff⟩ := hlist.closed list hone
    have hnodes := (insertAtTail_spec wf.2 hins).1
    refine ⟨howned, hownedStored, ?_, ?_, ?_⟩
    · exact hnodes ▸ nodup_concat inv.won fun h => inv.wonClosed b h hb
    · intro a ha
      rcases List.mem_append.mp (hnodes ▸ ha) with ha | ha
      · exact (inv.wonStored a ha).trans_le hlen
      · exact List.mem_singleton.mp ha ▸ (list.stored b hb).trans_le hlen
    · intro a ha
      rcases List.mem_append.mp (hnodes ▸ ha) with ha | ha
      · exact hlist.off (inv.wonStored a ha) (inv.wonClosed a ha)
      · exact List.mem_singleton.mp ha ▸ hoff

/-- A new user's lists are empty. -/
theorem holds_new {s : Server} {u : User} (howned : u.auctionsOwned = createList)
    (hwon : u.auctionsWon = createList) : Holds s u := by
  constructor <;> simp [howned, hwon, createList]

theorem guestInv_change {s : Server} {action : Action} {k : Nat} {x y : Auction}
    (wf : x.watchers.WF) (inv : GuestInv s x) (h : RecordChange s action k x y) :
    GuestInv s y := by
  refine ⟨?_, watchers_change wf inv.watchers h⟩
  cases h with
  | bid user bid hon => exact fun _ => ⟨user, (findUsername_spec hon.bidder).1, rfl⟩
  | _ => exact inv.winner

theorem GuestInv.mono {s s' : Server} {x : Auction}
    (h : s.users.map User.username <+: s'.users.map User.username) (inv : GuestInv s x) :
    GuestInv s' x where
  winner := fun hw => Names.mono h (inv.winner hw)
  watchers := fun w hw => Names.mono h (inv.watchers w hw)

/-- A LOGIN that compares its name with a NULL one does not come back. -/
theorem alone_step {s s' : Server} {action : Action} {out : List Event} (users : UserInv s)
    (alone : none ∈ s.users.map User.username → s.users.map User.username = [none])
    (h : Effect s action s' out) :
    none ∈ s'.users.map User.username → s'.users.map User.username = [none] := by
  rcases effect_usernames users h with hsame | ⟨fd, body, -, hscan, hnew⟩
  · exact hsame ▸ alone
  · rw [hnew]
    cases hus : s.users with
    | nil =>
      intro hmem
      simpa [eq_comm] using hmem
    | cons u us =>
      intro hmem
      have hall : ∀ v ∈ s.users, loginName s body ≠ none ∧ v.username ≠ none := by
        intro v hv
        obtain ⟨p, q, hp, hq, -⟩ := strcmpEq_false (scanByName_none hscan v hv)
        simp [hp, hq]
      have hname := (hall u (by simp [hus])).1
      rw [List.mem_append, List.mem_singleton] at hmem
      rcases hmem with hmem | hmem
      · obtain ⟨v, hv, hnone⟩ := List.mem_map.mp hmem
        exact absurd hnone (hall v (hus ▸ hv)).2
      · exact absurd hmem.symm hname

theorem reachInv_step {s s' : Server} {action : Action} {out : List Event} (inv : ReachInv s)
    (hok : s.Admits Anyone action) (h : Effect s action s' out) : ReachInv s' where
  users := userInv_step inv.users hok h
  lists := userLists_step inv.users inv.store.toListInv inv.lists h
  store := storeInv_step inv.store h
  holds := by
    intro u' hu'
    have list := inv.store.toListInv
    rcases effect_user inv.users list h hu' with ⟨u, hu, change⟩ | ⟨howned, hwon⟩
    · exact holds_step list (inv.lists u hu) (inv.holds u hu) (effect_list list h) change
    · exact holds_new howned hwon
  guests := by
    intro k y hy
    have hnames := effect_names inv.users h
    rcases effect_record inv.store.toListInv h hy with ⟨x, hx, hchange⟩ | ⟨-, hnew⟩
    · have hwf := (inv.store.records k x hx).watchers
      exact (guestInv_change hwf (inv.guests k x hx) hchange).mono hnames
    · cases hnew with
      | mk name duration price us creator =>
        exact ⟨fun h => absurd rfl h, by simp [newAuction, createList]⟩
  alone := alone_step inv.users inv.alone h

theorem reachInv_run {as : List Action} {tr : List Event} {s : Server}
    (run : Run Server.step (Server.Admits Anyone) Server.start as tr s) : ReachInv s :=
  run.invariant_state reachInv_start fun inv hok hs => reachInv_step inv hok (step_effect hs)

/-- Where a record has a name, every record has. -/
theorem ReachInv.named {s : Server} (inv : ReachInv s) {u : User} (hu : u ∈ s.users)
    (hname : u.username ≠ none) : ∀ v ∈ s.users, v.username ≠ none := by
  intro v hv hnone
  have hall := inv.alone (hnone ▸ List.mem_map_of_mem hv)
  have hmem : u.username ∈ s.users.map User.username := List.mem_map_of_mem hu
  rw [hall, List.mem_singleton] at hmem
  exact hname hmem

/-- A list of stored auctions without repetition is at most as long as the store. -/
theorem length_le_stored {s : Server} {l : List Nat} (hl : l.Nodup)
    (hstored : ∀ a ∈ l, a < s.auctions.length) : l.length ≤ s.auctions.length := by
  have hsub : l ⊆ List.range s.auctions.length := fun a ha => List.mem_range.mpr (hstored a ha)
  simpa using (hl.subperm hsub).length_le

/-- The auction that the next tick closes: the first one of the list whose duration reaches 0. -/
def Server.nextClose (s : Server) : Option Nat :=
  s.auctionsList.nodes.find? fun k => (s.auctions[k]?).any fun x => x.older.duration = 0

theorem nextClose_eq_none {s : Server}
    (h : ∀ k ∈ s.auctionsList.nodes, ∃ x, s.auctions[k]? = some x ∧ x.older.duration ≠ 0) :
    s.nextClose = none := by
  rw [Server.nextClose, List.find?_eq_none]
  intro k hk
  obtain ⟨x, hx, hne⟩ := h k hk
  simp [hx, hne]

theorem nextClose_eq_some {s : Server} {pre post : List Nat} {a : Nat} {x : Auction}
    (hnodes : s.auctionsList.nodes = pre ++ a :: post) (hx : s.auctions[a]? = some x)
    (hzero : x.older.duration = 0)
    (hpre : ∀ k ∈ pre, ∃ y, s.auctions[k]? = some y ∧ y.older.duration ≠ 0) :
    s.nextClose = some a := by
  have hnone : pre.find? (fun k => (s.auctions[k]?).any fun x => x.older.duration = 0) = none := by
    rw [List.find?_eq_none]
    intro k hk
    obtain ⟨y, hy, hne⟩ := hpre k hk
    simp [hy, hne]
  rw [Server.nextClose, hnodes, List.find?_append, hnone, Option.none_or, List.find?_cons_of_pos]
  simp [hx, hzero]

end ZBid
