import ZBid.Parties

/-!
# Settlements

A close changes exactly two user records: the winner's, who pays the bid and gets the auction on
his list of wins, and the creator's, who is paid. All the others stay as they are.
-/
namespace ZBid

open CInt CString Runs

/-- The user is the highest bidder of the auction. -/
def User.wins (x : Auction) (u : User) : Prop :=
  x.currentWinner ≠ none ∧ u.username = x.currentWinner

instance (x : Auction) (u : User) : Decidable (u.wins x) := inferInstanceAs (Decidable (_ ∧ _))

def User.debit (a : Nat) (amount : Int) (u : User) : User :=
  { u with
    balance := wrap32 (u.balance - amount)
    auctionsWon := ⟨u.auctionsWon.nodes ++ [a], u.auctionsWon.length + 1⟩ }

def User.credit (amount : Int) (u : User) : User :=
  { u with balance := wrap32 (u.balance + amount) }

def User.settle (a : Nat) (x : Auction) (u : User) : User :=
  if u.wins x then u.debit a x.bid
  else if u.username = x.creator then u.credit x.bid
  else u

/-- Changing the only record with a given key is a map over all records. -/
theorem set_eq_map {β : Type} [DecidableEq β] {us : List User} {i : Nat} {u : User} {f : User → β}
    (hnodup : (us.map f).Nodup) (hu : us[i]? = some u) (g : User → User) :
    us.set i (g u) = us.map fun v => if f v = f u then g v else v := by
  apply List.ext_getElem?
  intro k
  rw [List.getElem?_map]
  by_cases hk : i = k
  · subst hk
    obtain ⟨hlt, rfl⟩ := List.getElem?_eq_some_iff.mp hu
    simp [hlt]
  · rw [List.getElem?_set_ne hk]
    cases hv : us[k]? with
    | none => rfl
    | some v =>
      have hne : f v ≠ f u := fun h => hk (index_inj hnodup hu hv h.symm)
      simp [hne]

/-- Distinct texts come from distinct pointers. -/
theorem UserInv.pointers {s : Server} (inv : UserInv s) : (s.users.map User.username).Nodup :=
  List.Nodup.of_map nameText (by rw [List.map_map]; exact inv.names)

/-- The record a `strcmp` search meets is the one whose username is the pointer searched for. -/
theorem UserInv.username_eq {s : Server} (inv : UserInv s) {name : CharStar} {i : Nat} {u : User}
    (hu : s.users[i]? = some u) (hname : s.Names name)
    (hcmp : strcmpEq name u.username = some true) : u.username = name := by
  obtain ⟨v, hv, rfl⟩ := hname
  rw [inv.cmp_inj hv (List.mem_of_getElem? hu) hcmp]

theorem debitWinner_users {s s' : Server} {a : Nat} {x : Auction} {out : List Event}
    (users : UserInv s) (lists : UserLists s) (party : PartyInv s x)
    (h : debitWinner s a x = some (s', out)) :
    s' = s.withUsers (s.users.map fun u => if u.wins x then u.debit a x.bid else u) := by
  rcases debitWinner_spec h with ⟨hnone, rfl, -⟩ | ⟨w, i, u, won, hw, hu, hcmp, hwon, rfl, -⟩
  · simp only [User.wins, hnone, ne_eq, not_true_eq_false, false_and, ↓reduceIte, List.map_id']
    rfl
  · have hname : u.username = x.currentWinner :=
      users.username_eq hu (party.winner (by simp [hw])) (hw ▸ hcmp)
    have hdebit : { u with balance := wrap32 (u.balance - x.bid), auctionsWon := won } =
        u.debit a x.bid := by
      rw [insertAtTail_eq (lists.get hu).2 hwon]
      rfl
    rw [setUser_eq, hdebit, set_eq_map users.pointers hu (User.debit a x.bid), hname]
    simp only [User.wins, hw, ne_eq, reduceCtorEq, not_false_eq_true, true_and]

theorem creditCreator_users {s s' : Server} {a : Nat} {x : Auction} {out : List Event}
    (users : UserInv s) (party : PartyInv s x) (h : creditCreator s a x = some (s', out)) :
    s' = s.withUsers (s.users.map fun u =>
      if u.username = x.creator then u.credit x.bid else u) := by
  obtain ⟨i, u, hu, hcmp, rfl, -⟩ := creditCreator_spec h
  have hname : u.username = x.creator := users.username_eq hu party.creator hcmp
  have hcredit : { u with balance := wrap32 (u.balance + x.bid) } = u.credit x.bid := rfl
  rw [setUser_eq, hcredit, set_eq_map users.pointers hu (User.credit x.bid), hname]

/-- The invariants are still there when the creator's turn comes. -/
theorem debitWinner_inv {s s' : Server} {a : Nat} {x : Auction} {out : List Event}
    (users : UserInv s) (lists : UserLists s) (party : PartyInv s x)
    (h : debitWinner s a x = some (s', out)) : UserInv s' ∧ PartyInv s' x := by
  obtain rfl := debitWinner_users users lists party h
  have hkeys : (s.users.map fun u => if u.wins x then u.debit a x.bid else u).map User.key =
      s.users.map User.key := by
    rw [List.map_map]
    refine List.map_congr_left fun u _ => ?_
    simp only [Function.comp_apply]
    split <;> rfl
  exact ⟨users.of_keys hkeys rfl le_rfl fun _ h => h,
    party.mono (prefix_of_eq (map_congr_of_map Prod.fst hkeys))⟩

/-- Nobody is both the highest bidder and the creator. -/
theorem PartyInv.not_both {s : Server} {x : Auction} {u : User} (party : PartyInv s x)
    (hwins : u.wins x) : u.username ≠ x.creator := by
  intro heq
  exact party.others hwins.1 (by rw [← heq, hwins.2])

/-- The users after a close are the users before it, the two parties settled. -/
theorem closeAuction_users {s s' : Server} {a : Nat} {x : Auction} {out : List Event}
    (users : UserInv s) (lists : UserLists s) (party : PartyInv s x)
    (hx : s.auctions[a]? = some x) (h : closeAuction s a = some (s', out)) :
    s' = s.withUsers (s.users.map (User.settle a x)) := by
  obtain ⟨y, mid, debit, credit, fds, hy, hdebit, hcredit, -, -⟩ := (closeAuction_spec h).some
  obtain rfl : x = y := Option.some.inj (hx.symm.trans hy)
  obtain ⟨husers, hparty⟩ := debitWinner_inv users lists party hdebit
  rw [creditCreator_users husers hparty hcredit, debitWinner_users users lists party hdebit]
  simp only [users_withUsers, List.map_map]
  refine congrArg s.withUsers (List.map_congr_left fun u _ => ?_)
  simp only [Function.comp_apply, User.settle]
  by_cases hwins : u.wins x
  · simp [hwins, User.debit, party.not_both hwins]
  · simp [hwins]

/-- Each pointer of the list is a user's name, and the descriptor beside it is that user's. -/
def FdsOf (us : List User) : List CharPtr → List Int → Prop :=
  List.Forall₂ fun w fd => ∃ u ∈ us, u.username = some w ∧ u.fd = fd

theorem FdsOf.of_keys {us us' : List User} {ws : List CharPtr} {fds : List Int}
    (hkeys : us'.map User.key = us.map User.key) (h : FdsOf us' ws fds) : FdsOf us ws fds := by
  refine h.imp fun w fd hw => ?_
  obtain ⟨u, hu, hname, hfd⟩ := hw
  have hkey : u.key ∈ us.map User.key := hkeys ▸ List.mem_map_of_mem hu
  obtain ⟨v, hv, hvu⟩ := List.mem_map.mp hkey
  simp only [User.key, Prod.mk.injEq] at hvu
  exact ⟨v, hv, hvu.1.trans hname, hvu.2.trans hfd⟩

theorem FdsOf.mem_left {us : List User} {ws : List CharPtr} {fds : List Int}
    (h : FdsOf us ws fds) {w : CharPtr} (hw : w ∈ ws) :
    ∃ fd ∈ fds, ∃ u ∈ us, u.username = some w ∧ u.fd = fd := by
  induction h with
  | nil => cases hw
  | @cons v fd ws fds hv _ ih =>
    rcases List.mem_cons.mp hw with rfl | hw
    · exact ⟨fd, List.mem_cons_self, hv⟩
    · obtain ⟨fd', hfd', hof⟩ := ih hw
      exact ⟨fd', List.mem_cons_of_mem _ hfd', hof⟩

theorem findClientFd_spec {s : Server} (users : UserInv s) {w : CharPtr} {fd : Int}
    (hname : s.Names (some w)) (h : findClientFd s (some w) = some fd) :
    ∃ u ∈ s.users, u.username = some w ∧ u.fd = fd := by
  simp only [findClientFd, Option.bind_eq_bind, Option.bind_eq_some_iff] at h
  obtain ⟨found, hscan, h⟩ := h
  cases found with
  | none =>
    obtain ⟨v, hv, hvw⟩ := hname
    have hfalse := scanByName_none hscan v hv
    rw [hvw] at hfalse
    simp [strcmpEq] at hfalse
  | some i =>
    obtain ⟨u, hu, hcmp⟩ := scanByName_some hscan
    simp only [hu, Option.map_some, Option.some.injEq] at h
    exact ⟨u, List.mem_of_getElem? hu, users.username_eq hu hname hcmp, h⟩

theorem watcherFds_spec {s : Server} (users : UserInv s) {ws : List CharPtr} {fds : List Int}
    (hnames : ∀ w ∈ ws, s.Names (some w)) (h : watcherFds s ws = some fds) :
    FdsOf s.users ws fds := by
  induction ws generalizing fds with
  | nil =>
    simp only [watcherFds, Option.some.injEq] at h
    exact h ▸ .nil
  | cons w ws ih =>
    simp only [watcherFds, Option.bind_eq_bind, Option.bind_eq_some_iff, Option.some.injEq] at h
    obtain ⟨fd, hfd, rest, hrest, rfl⟩ := h
    have hw := findClientFd_spec users (hnames w List.mem_cons_self) hfd
    exact .cons hw (ih (fun v hv => hnames v (List.mem_cons_of_mem _ hv)) hrest)

/-- What a close logs: at most two changes of balances, and one ANCLOSED for each watcher. -/
theorem closeAuction_log {s s' : Server} {a : Nat} {x : Auction} {out : List Event}
    (users : UserInv s) (hnamed : ∀ w ∈ x.watchers.nodes, s.Names (some w))
    (hx : s.auctions[a]? = some x) (h : closeAuction s a = some (s', out)) :
    ∃ values fds, out = .closed a :: values ++
        fds.map (fun fd => message fd .ANCLOSED (closedBody x)) ∧
      (∀ e ∈ values, ∃ v, e = .debited a v ∨ e = .credited a v) ∧
      FdsOf s.users x.watchers.nodes fds := by
  have hkeys := closeAuction_keys h
  have hframe := closeAuction_frame h
  obtain ⟨y, mid, debit, credit, fds, hy, hdebit, hcredit, hfds, rfl⟩ := (closeAuction_spec h).some
  obtain rfl : x = y := Option.some.inj (hx.symm.trans hy)
  refine ⟨debit ++ credit, fds, by simp, ?_, ?_⟩
  · intro e he
    rcases List.mem_append.mp he with he | he
    · rcases debitWinner_spec hdebit with ⟨-, -, rfl⟩ | ⟨_, _, u, _, -, -, -, -, -, rfl⟩
      · cases he
      · exact ⟨u.balance - x.bid, Or.inl (List.mem_singleton.mp he)⟩
    · obtain ⟨_, u, -, -, -, rfl⟩ := creditCreator_spec hcredit
      exact ⟨u.balance + x.bid, Or.inr (List.mem_singleton.mp he)⟩
  · have users' : UserInv s' := by
      obtain ⟨us, rfl, -⟩ := hframe
      exact users.of_keys hkeys rfl le_rfl fun _ h => h
    have hnames := prefix_of_eq (map_congr_of_map Prod.fst hkeys)
    exact (watcherFds_spec users' (fun w hw => Names.mono hnames (hnamed w hw)) hfds).of_keys hkeys

/-- A close of `a` with record `x`: the two parties are settled, and every watcher is told the
highest bidder and the bid. -/
structure Settles (us : List User) (a : Nat) (x : Auction) (us' : List User) (out : List Event) :
    Prop where
  users : us' = us.map (User.settle a x)
  debits : ∀ u ∈ us, u.wins x → .debited a (u.balance - x.bid) ∈ out
  credits : ∀ u ∈ us, u.username = x.creator → .credited a (u.balance + x.bid) ∈ out
  log : ∃ values fds, out = .closed a :: values ++
      fds.map (fun fd => message fd .ANCLOSED (closedBody x)) ∧
    (∀ e ∈ values, ∃ v, e = .debited a v ∨ e = .credited a v) ∧ FdsOf us x.watchers.nodes fds

/-- The winner's debit is logged with the exact difference. -/
theorem debitWinner_log {s s' : Server} {a : Nat} {x : Auction} {out : List Event}
    (users : UserInv s) (party : PartyInv s x) (h : debitWinner s a x = some (s', out)) :
    ∀ u ∈ s.users, u.wins x → .debited a (u.balance - x.bid) ∈ out := by
  intro u hu hwins
  rcases debitWinner_spec h with ⟨hnone, -, rfl⟩ | ⟨w, i, v, won, hw, hv, hcmp, -, -, rfl⟩
  · exact absurd hnone hwins.1
  · have hname := users.username_eq hv (party.winner hwins.1) (hw ▸ hcmp)
    obtain rfl := users.name_inj (List.mem_of_getElem? hv) hu (by rw [hname, hwins.2])
    simp

theorem creditCreator_log {s s' : Server} {a : Nat} {x : Auction} {out : List Event}
    (users : UserInv s) (party : PartyInv s x) (h : creditCreator s a x = some (s', out)) :
    ∀ u ∈ s.users, u.username = x.creator → .credited a (u.balance + x.bid) ∈ out := by
  intro u hu hcreator
  obtain ⟨i, v, hv, hcmp, -, rfl⟩ := creditCreator_spec h
  have hname := users.username_eq hv party.creator hcmp
  obtain rfl := users.name_inj (List.mem_of_getElem? hv) hu (by rw [hname, hcreator])
  simp

theorem closeAuction_settles {s s' : Server} {a : Nat} {x : Auction} {out : List Event}
    (users : UserInv s) (lists : UserLists s) (party : PartyInv s x)
    (hx : s.auctions[a]? = some x) (h : closeAuction s a = some (s', out)) :
    Settles s.users a x s'.users out := by
  have hs' := congrArg Server.users (closeAuction_users users lists party hx h)
  have hlog := closeAuction_log users party.watchers hx h
  obtain ⟨y, mid, debit, credit, fds, hy, hdebit, hcredit, hfds, rfl⟩ := (closeAuction_spec h).some
  obtain rfl : x = y := Option.some.inj (hx.symm.trans hy)
  obtain ⟨husers, hparty⟩ := debitWinner_inv users lists party hdebit
  refine ⟨hs', ?_, ?_, hlog⟩
  · intro u hu hwins
    have hmem := debitWinner_log users party hdebit u hu hwins
    simp [hmem]
  · intro u hu hseller
    have hsame : u ∈ mid.users := by
      rw [debitWinner_users users lists party hdebit, users_withUsers, List.mem_map]
      exact ⟨u, hu, if_neg fun hwins => party.not_both hwins hseller⟩
    have hmem := creditCreator_log husers hparty hcredit u hsame hseller
    simp [hmem]

/-- The value that an event reports is a party's balance before the close, less or plus the bid. -/
def Event.Exact (us : List User) (x : Auction) : Event → Prop
  | .debited _ v => ∃ u ∈ us, u.wins x ∧ v = u.balance - x.bid
  | .credited _ v => ∃ u ∈ us, u.username = x.creator ∧ v = u.balance + x.bid
  | _ => True

theorem closeAuction_exact {s s' : Server} {a : Nat} {x : Auction} {out : List Event}
    (users : UserInv s) (lists : UserLists s) (party : PartyInv s x)
    (hx : s.auctions[a]? = some x) (h : closeAuction s a = some (s', out)) :
    ∀ e ∈ out, e.Exact s.users x := by
  obtain ⟨y, mid, debit, credit, fds, hy, hdebit, hcredit, -, rfl⟩ := (closeAuction_spec h).some
  obtain rfl : x = y := Option.some.inj (hx.symm.trans hy)
  obtain ⟨husers, hparty⟩ := debitWinner_inv users lists party hdebit
  have hmid := congrArg Server.users (debitWinner_users users lists party hdebit)
  intro e he
  rw [List.cons_append, List.cons_append, List.mem_cons, List.mem_append, List.mem_append] at he
  rcases he with rfl | (he | he) | he
  · trivial
  · rcases debitWinner_spec hdebit with ⟨-, -, rfl⟩ | ⟨w, i, u, won, hw, hu, hcmp, -, -, rfl⟩
    · cases he
    · obtain rfl := List.mem_singleton.mp he
      have hname := users.username_eq hu (party.winner (by simp [hw])) (hw ▸ hcmp)
      exact ⟨u, List.mem_of_getElem? hu, ⟨by simp [hw], hname⟩, rfl⟩
  · obtain ⟨i, u, hu, hcmp, -, rfl⟩ := creditCreator_spec hcredit
    obtain rfl := List.mem_singleton.mp he
    have hname := husers.username_eq hu hparty.creator hcmp
    -- The debit has not touched the creator's record.
    have hmem := List.mem_of_getElem? hu
    rw [hmid, users_withUsers, List.mem_map] at hmem
    obtain ⟨v, hv, rfl⟩ := hmem
    by_cases hwins : v.wins x
    · rw [if_pos hwins] at hname
      exact absurd hname (party.not_both hwins)
    · rw [if_neg hwins] at hname ⊢
      exact ⟨v, hv, hname, rfl⟩
  · obtain ⟨fd, -, rfl⟩ := List.mem_map.mp he
    trivial

/-- The part of a user record that is his account. -/
structure Account where
  username : CharStar
  owned : LinkedList Nat
  won : LinkedList Nat
  balance : Int

def User.account (u : User) : Account := ⟨u.username, u.auctionsOwned, u.auctionsWon, u.balance⟩

def User.own (a : Nat) (u : User) : User :=
  { u with auctionsOwned := ⟨u.auctionsOwned.nodes ++ [a], u.auctionsOwned.length + 1⟩ }

/-- A step either leaves the accounts alone, opens an empty account, enters a new auction under
its creator, or settles an auction. -/
inductive BookChange (s : Server) : Server → List Event → Prop where
  | same {s' out} : closings out = [] → s'.auctions.length = s.auctions.length →
      s'.users.map User.account = s.users.map User.account → BookChange s s' out
  | signUp {s' out} (u : User) : closings out = [] → s'.auctions = s.auctions →
      s'.users = s.users ++ [u] → u.account = ⟨u.username, createList, createList, 0⟩ →
      BookChange s s' out
  | create {s' out} (x : Auction) : closings out = [] → s'.auctions = s.auctions ++ [x] →
      s.Names x.creator →
      s'.users = s.users.map (fun u =>
        if u.username = x.creator then u.own s.auctions.length else u) → BookChange s s' out
  | close {s'} (a : Nat) (x : Auction) (pre out : List Event) : closings (pre ++ out) = [a] →
      s'.auctions.length = s.auctions.length → s'.auctions[a]? = some x →
      Settles s.users a x s'.users out → BookChange s s' (pre ++ out)

/-- The loop of `createAuction` hands the auction to the user whose name it stores as creator. -/
theorem ownerScan_users {s : Server} {fd : Int} {a : Nat} {us : List User} {c₀ creator : CharStar}
    (inv : ServerInv s) (hfd : Recorded s fd) (h : ownerScan fd a s.users c₀ = some (us, creator)) :
    s.Names creator ∧ us = s.users.map fun u => if u.username = creator then u.own a else u := by
  obtain ⟨hall, hcreator⟩ := ownerScan_spec h
  obtain ⟨c, hc, hcfd, rfl⟩ : ∃ c ∈ s.users, c.fd = fd ∧ creator = c.username := by
    obtain ⟨u, hu, hufd⟩ := hfd
    rcases hcreator with ⟨-, hno⟩ | hsome
    · exact absurd hufd (hno u hu)
    · exact hsome
  refine ⟨⟨c, hc, rfl⟩, ?_⟩
  have hmap : ∀ xs ys, List.Forall₂ (Owned fd a) xs ys → (∀ u ∈ xs, u ∈ s.users) →
      ys = xs.map fun u => if u.username = c.username then u.own a else u := by
    intro xs ys hxy
    induction hxy with
    | nil => exact fun _ => rfl
    | @cons u v us vs hu _ ih =>
      intro hin
      have husers := hin u List.mem_cons_self
      have hiff : u.fd = fd ↔ u.username = c.username := by
        constructor
        · intro h
          rw [inv.users.fd_inj husers hc (h.trans hcfd.symm)]
        · intro h
          rw [inv.users.name_inj husers hc (congrArg nameText h), hcfd]
      rw [List.map_cons, ih fun w hw => hin w (List.mem_cons_of_mem _ hw)]
      congr 1
      simp only [Owned] at hu
      by_cases h : u.fd = fd
      · obtain ⟨owned, hins, rfl⟩ := (if_pos h ▸ hu :)
        rw [if_pos (hiff.mp h), insertAtTail_eq (inv.lists u husers).1 hins]
        rfl
      · rw [if_neg h] at hu
        rw [if_neg fun hname => h (hiff.mpr hname), hu]
  exact hmap _ _ hall fun _ h => h

theorem PartyInv.older {s : Server} {x : Auction} (h : PartyInv s x) (l : List Nat) :
    PartyInv (s.ticked.aged l) x.older := ⟨h.creator, h.winner, h.others, h.watchers⟩

/-- The close of an auction that has just aged settles it with the bid it has. -/
theorem expire_settles {s s' : Server} {l : List Nat} {a : Nat} {x : Auction} {out : List Event}
    (inv : ServerInv s) (ha : a ∈ l) (hx : s.auctions[a]? = some x)
    (h : closeAuction (s.ticked.aged l) a = some (s', out)) :
    Settles s.users a x.older s'.users out := by
  exact closeAuction_settles (s := s.ticked.aged l) (inv.users.of_users rfl rfl rfl) inv.lists
    ((inv.parties a x hx).older l) (aged_get_mem ha hx) h

/-- The parties of the auction that an accepted bid leaves. -/
theorem BidOn.party {s : Server} (env : JobEnv) {job : Job} {a : Nat} {x : Auction} {user : User}
    {bid : Int} (inv : ServerInv s) (hon : BidOn s job.clientfd a x user bid)
    (hacc : x.binFlag = 1 ∧ bid > x.binPrice) :
    PartyInv (s.setAuction a (x.withBid user.username bid)) (x.withBid user.username bid) := by
  have hchange : RecordChange s (.job env job) a x (x.withBid user.username bid) :=
    .bid user bid hon (Or.inl hacc)
  have wf := (inv.store.records a x hon.record).watchers
  exact PartyInv.mono (s := s) (List.prefix_refl _)
    (partyInv_change inv.users wf (inv.parties a x hon.record) hchange)

theorem effect_books {s s' : Server} {action : Action} {out : List Event} (inv : ServerInv s)
    (hok : Sponsored s action) (h : Effect s action s' out) : BookChange s s' out := by
  cases h with
  | @accept fd _ body _ _ _ hacc =>
    cases hacc with
    | again i u _ hu => exact .same rfl rfl (map_set_of_eq User.account hu rfl)
    | created users _ _ hins =>
      exact .signUp (newUser fd (loginName s body) (loginPassword s body)) rfl rfl
        (insertAtTail_spec inv.users.wf hins).1 rfl
    | _ => exact .same rfl rfl rfl
  | quiet hout => exact .same (closings_messages hout) rfl rfl
  | logout i u _ hu => exact .same rfl rfl (map_set_of_eq User.account hu rfl)
  | create name duration price us creator list body htype hargs hname hd _ hp _ _ hscan =>
    have hrecorded := hok (creates_of_args htype hargs hname hd hp)
    obtain ⟨hnames, hus⟩ := ownerScan_users inv hrecorded hscan
    exact .create _ rfl rfl hnames hus
  | watch => exact .same rfl (by simp [Server.setAuction]) rfl
  | leave => exact .same rfl (by simp [Server.setAuction]) rfl
  | raise => exact .same (closings_raise ..) (by simp [Server.setAuction]) rfl
  | @buy env job a x user bid s₁ _ out _ _ hon hflag hprice hclose hunlink =>
    have party := hon.party env inv ⟨hflag, hprice⟩
    have hsettles := closeAuction_settles (s := s.setAuction a (x.withBid user.username bid))
      (inv.users.of_users rfl rfl rfl) inv.lists party
      (setAuction_get _ hon.record) hclose
    obtain ⟨us, rfl, -, rfl⟩ := buy_outcome inv.store.toListInv hon.mem hon.record hclose hunlink
    have hone := (closings_accepted a user.username bid out).trans (closeAuction_closings hclose)
    exact .close a (x.withBid user.username bid) [.accepted a user.username bid] out hone
      (by simp [Server.setAuction, Server.withUsers]) (setAuction_get _ hon.record) hsettles
  | tick h =>
    cases tick_outcome inv.store.toListInv h with
    | quiet => exact .same rfl (by simp [Server.aged, Server.ticked]) rfl
    | expire pre a post x us _ _ hx _ _ hclose =>
      have hmem : a ∈ pre ++ [a] := by simp
      have hsettles := expire_settles inv hmem hx hclose
      exact .close a x.older [] out (closeAuction_closings hclose)
        (by simp [Server.aged, Server.ticked, Server.withUsers]) (aged_get_mem hmem hx) hsettles

end ZBid
