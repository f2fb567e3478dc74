import ZBid.Lib.Swaps
import ZBid.Locality
import ZBid.Settlement

/-!
# Bids commute

Two bids of distinct users on distinct auctions share the users' names and descriptors, which no
bid changes, and the accounts, to which a close adds and from which it subtracts. Each bid makes
one and the same change, whether the other has run or not, and the changes commute.
-/
namespace ZBid

open CInt CString Runs

/-- The job is an ANBID of the logged in user on the open auction at `a`, of some amount. -/
structure Server.Bids (s : Server) (job : Job) (user : User) (a : Nat) : Prop where
  type : MsgType.ofCode job.jobMsgType = some .ANBID
  known : user ∈ s.users
  fd : user.fd = job.clientfd
  loggedIn : user.loginFlag = true
  listed : a ∈ s.auctionsList.nodes
  names : ∃ x bid, s.auctions[a]? = some x ∧ anbidArgs (cstr job.jobBuffer) = some (x.id, bid)

/-- The message of an event. It names the descriptor that it is sent to. -/
def Event.msg? : Event → Option Msg
  | .sent m => some m
  | _ => none

@[simp] theorem msg?_message (fd : Int) (t : MsgType) (body : Text) :
    (message fd t body).msg? = some ⟨fd, t, body.length + 1, body⟩ := rfl
@[simp] theorem msg?_answer (fd : Int) (t : MsgType) :
    (answer fd t).msg? = some ⟨fd, t, 0, []⟩ := rfl
@[simp] theorem msg?_accepted (a : Nat) (name : CharStar) (bid : Int) :
    (Event.accepted a name bid).msg? = none := rfl
@[simp] theorem msg?_closed (a : Nat) : (Event.closed a).msg? = none := rfl
@[simp] theorem msg?_debited (a : Nat) (value : Int) : (Event.debited a value).msg? = none := rfl
@[simp] theorem msg?_credited (a : Nat) (value : Int) : (Event.credited a value).msg? = none := rfl

/-- The record that a bid leaves, and the positions of the winner and the creator if it buys. -/
structure BidEdit where
  auction : Nat
  record : Auction
  parties : Option (Nat × Nat)

def settleParties (a : Nat) (price : Int) (winner creator : Nat) (us : List User) : List User :=
  (us.modify winner (User.debit a price)).modify creator (User.credit price)

def BidEdit.apply (c : BidEdit) (s : Server) : Server :=
  match c.parties with
  | none => s.setAuction c.auction c.record
  | some (winner, creator) =>
    { (s.setAuction c.auction c.record).withUsers
        (settleParties c.auction c.record.bid winner creator s.users) with
      auctionsList := ⟨s.auctionsList.nodes.erase c.auction, s.auctionsList.length - 1⟩ }

/-- The change of a bid on the auction at `a` by the user at position `i`. -/
structure BidEdit.Of (c : BidEdit) (i a : Nat) : Prop where
  auction : c.auction = a
  winner : ∀ p ∈ c.parties, p.1 = i

theorem modify_comm {α : Type} {f g : α → α} {i j : Nat} (us : List α)
    (h : i ≠ j ∨ ∀ u, f (g u) = g (f u)) :
    (us.modify i f).modify j g = (us.modify j g).modify i f := by
  by_cases hij : i = j
  · subst hij
    have hfg : g ∘ f = f ∘ g := funext fun u => ((h.resolve_left fun hne => hne rfl) u).symm
    rw [List.modify_modify_eq, List.modify_modify_eq, hfg]
  · exact List.modify_modify_ne f g us hij

theorem debit_credit (a : Nat) (p q : Int) (u : User) :
    User.debit a p (User.credit q u) = User.credit q (User.debit a p u) := by
  simp only [User.debit, User.credit, User.mk.injEq, true_and, and_true, wrap32]
  omega

theorem credit_credit (p q : Int) (u : User) :
    User.credit p (User.credit q u) = User.credit q (User.credit p u) := by
  simp only [User.credit, User.mk.injEq, true_and, and_true, wrap32]
  omega

/-- Settlements with distinct winners commute, whoever the creators are. -/
theorem settleParties_comm (a b : Nat) (p q : Int) {i j : Nat} (hij : i ≠ j) (k l : Nat)
    (us : List User) :
    settleParties b q j l (settleParties a p i k us) =
      settleParties a p i k (settleParties b q j l us) := by
  simp only [settleParties]
  calc (((us.modify i (User.debit a p)).modify k (User.credit p)).modify j
          (User.debit b q)).modify l (User.credit q)
      = (((us.modify i (User.debit a p)).modify j (User.debit b q)).modify k
          (User.credit p)).modify l (User.credit q) := by
        rw [modify_comm _ (Or.inr fun u => (debit_credit b q p u).symm)]
    _ = (((us.modify j (User.debit b q)).modify i (User.debit a p)).modify l
          (User.credit q)).modify k (User.credit p) := by
        rw [modify_comm us (Or.inl hij), modify_comm _ (Or.inr fun u => credit_credit p q u)]
    _ = (((us.modify j (User.debit b q)).modify l (User.credit q)).modify i
          (User.debit a p)).modify k (User.credit p) := by
        rw [modify_comm (us.modify j (User.debit b q)) (Or.inr fun u => debit_credit a p q u)]

theorem BidEdit.apply_comm {c c' : BidEdit} {i j a b : Nat} (hc : c.Of i a) (hc' : c'.Of j b)
    (hij : i ≠ j) (hab : a ≠ b) (s : Server) : c'.apply (c.apply s) = c.apply (c'.apply s) := by
  obtain ⟨a₁, x, parties⟩ := c
  obtain ⟨b₁, y, parties'⟩ := c'
  obtain rfl : a = a₁ := hc.auction.symm
  obtain rfl : b = b₁ := hc'.auction.symm
  have hset : (s.auctions.set a x).set b y = (s.auctions.set b y).set a x :=
    List.set_comm x y hab
  rcases parties with _ | ⟨i', k⟩ <;> rcases parties' with _ | ⟨j', l⟩
  · simp [BidEdit.apply, Server.setAuction, hset]
  · simp [BidEdit.apply, Server.setAuction, Server.withUsers, Server.users, hset]
  · simp [BidEdit.apply, Server.setAuction, Server.withUsers, Server.users, hset]
  · obtain rfl : i' = i := hc.winner _ rfl
    obtain rfl : j' = j := hc'.winner _ rfl
    have husers := settleParties_comm a b x.bid y.bid hij k l s.users
    have herase : (s.auctionsList.nodes.erase a).erase b = (s.auctionsList.nodes.erase b).erase a :=
      List.erase_comm a b
    simp only [BidEdit.apply, Server.setAuction, Server.withUsers, Server.users] at husers ⊢
    rw [hset, herase, husers]

/-- What the bid of the user at position `i` on the auction at `a` reads of a state is as in `s`. -/
structure BidView (s : Server) (i a : Nat) (t : Server) : Prop where
  inv : ReachInv t
  keys : t.users.map User.key = s.users.map User.key
  won : (t.users[i]?).map User.auctionsWon = (s.users[i]?).map User.auctionsWon
  record : t.auctions[a]? = s.auctions[a]?
  listed : a ∈ t.auctionsList.nodes

theorem getElem?_keys {us us' : List User} (h : us'.map User.key = us.map User.key) (i : Nat) :
    (us'[i]?).map User.key = (us[i]?).map User.key := by
  rw [← List.getElem?_map, ← List.getElem?_map, h]

/-- The bidder's record. -/
theorem BidView.user {s t : Server} {i a : Nat} (view : BidView s i a t) {u : User}
    (hu : s.users[i]? = some u) :
    ∃ v, t.users[i]? = some v ∧ v.username = u.username ∧ v.fd = u.fd := by
  obtain ⟨v, hv, hkey⟩ := Option.map_eq_some_iff.mp
    ((getElem?_keys view.keys i).trans (by rw [hu, Option.map_some]))
  exact ⟨v, hv, Prod.mk.inj hkey⟩

/-- The searches by name look at names and descriptors only. -/
theorem scanByName_keys {us us' : List User} (h : us'.map User.key = us.map User.key)
    (name : CharStar) : scanByName name us' = scanByName name us := by
  induction us generalizing us' with
  | nil => rw [List.map_eq_nil_iff.mp h]
  | cons u us ih =>
    obtain ⟨u', rest, rfl, hkey, hrest⟩ := List.map_eq_cons_iff.mp h
    have hname : u'.username = u.username := congrArg Prod.fst hkey
    simp only [scanByName, hname, ih hrest]

theorem findClientFd_keys {s t : Server} (h : t.users.map User.key = s.users.map User.key)
    (name : CharStar) : findClientFd t name = findClientFd s name := by
  have hfd (i : Nat) : (t.users[i]?).map User.fd = (s.users[i]?).map User.fd := by
    simpa [User.key, Function.comp_def] using congrArg (Option.map Prod.snd) (getElem?_keys h i)
  simp only [findClientFd, scanByName_keys h]
  refine bind_congr fun found => ?_
  cases found with
  | none => rfl
  | some i => exact hfd i

theorem watcherFds_keys {s t : Server} (h : t.users.map User.key = s.users.map User.key)
    (ws : List CharPtr) : watcherFds t ws = watcherFds s ws := by
  induction ws with
  | nil => rfl
  | cons w ws ih => simp only [watcherFds, findClientFd_keys h, ih]

theorem updateAuction_keys {s t : Server} (h : t.users.map User.key = s.users.map User.key)
    (x : Auction) (name : CharStar) : updateAuction t x name = updateAuction s x name := by
  simp only [updateAuction, watcherFds_keys h]

/-- The ANCLOSED messages to some descriptors. -/
def closedMsgs (x : Auction) (fds : List Int) : List Msg :=
  fds.map fun fd => ⟨fd, .ANCLOSED, (closedBody x).length + 1, closedBody x⟩

/-- What a close finds of the record `x` at `a`, which `w` wins: the parties at `i` and at `k`, room
in the winner's list, and the watchers' descriptors. -/
structure CloseReads (s : Server) (a : Nat) (x : Auction) (w : CharPtr) (i k : Nat)
    (fds : List Int) : Prop where
  room : (closedBody x).length < bufferSize
  winner : scanByName (some w) s.users = some (some i)
  won : ∃ l, (s.users[i]?).map User.auctionsWon = some l ∧ (insertAtTail l (some a)).isSome
  creator : scanByName x.creator s.users = some (some k)
  told : watcherFds s x.watchers.nodes = some fds

theorem CloseReads.of_keys {s t : Server} {a : Nat} {x : Auction} {w : CharPtr} {i k : Nat}
    {fds : List Int} (h : CloseReads s a x w i k fds)
    (hkeys : t.users.map User.key = s.users.map User.key)
    (hwon : (t.users[i]?).map User.auctionsWon = (s.users[i]?).map User.auctionsWon) :
    CloseReads t a x w i k fds where
  room := h.room
  winner := by rw [scanByName_keys hkeys, h.winner]
  won := by rw [hwon]; exact h.won
  creator := by rw [scanByName_keys hkeys, h.creator]
  told := by rw [watcherFds_keys hkeys, h.told]

theorem keys_modify {f : User → User} (hf : ∀ u, (f u).key = u.key) (i : Nat) (us : List User) :
    (us.modify i f).map User.key = us.map User.key := by
  refine List.ext_getElem (by simp) fun k _ _ => ?_
  rw [List.getElem_map, List.getElem_map, List.getElem_modify]
  split
  · exact hf _
  · rfl

theorem keys_debit (a : Nat) (price : Int) (i : Nat) (us : List User) :
    (us.modify i (User.debit a price)).map User.key = us.map User.key :=
  keys_modify (f := User.debit a price) (fun _ => rfl) i us

theorem keys_settle (a : Nat) (price : Int) (i k : Nat) (us : List User) :
    (settleParties a price i k us).map User.key = us.map User.key :=
  (keys_modify (f := User.credit price) (fun _ => rfl) k _).trans (keys_debit a price i us)

theorem modify_eq_set {us : List User} {i : Nat} {u : User} (hi : us[i]? = some u)
    (f : User → User) : us.modify i f = us.set i (f u) := by
  obtain ⟨hlt, rfl⟩ := List.getElem?_eq_some_iff.mp hi
  refine List.ext_getElem (by simp) fun k _ _ => ?_
  rw [List.getElem_modify, List.getElem_set]
  split
  · subst i
    rfl
  · rfl

@[simp] theorem withUsers_withUsers (s : Server) (us us' : List User) :
    (s.withUsers us).withUsers us' = s.withUsers us' := rfl

theorem debitWinner_eq {s : Server} (lists : UserLists s) {a : Nat} {x : Auction} {w : CharPtr}
    {i : Nat} {u : User} {won : LinkedList Nat} (hw : x.currentWinner = some w)
    (hi : scanByName (some w) s.users = some (some i)) (hu : s.users[i]? = some u)
    (hwon : insertAtTail u.auctionsWon (some a) = some won) :
    debitWinner s a x = some (s.withUsers (s.users.modify i (User.debit a x.bid)),
      [.debited a (u.balance - x.bid)]) := by
  simp only [debitWinner, hw, findUserStruct, hi, hu, hwon, Option.bind_eq_bind, Option.bind_some,
    modify_eq_set hu, insertAtTail_eq (lists.get hu).2 hwon]
  rfl

theorem creditCreator_eq {s : Server} (a : Nat) {x : Auction} {k : Nat} {v : User}
    (hk : scanByName x.creator s.users = some (some k)) (hv : s.users[k]? = some v) :
    creditCreator s a x = some (s.withUsers (s.users.modify k (User.credit x.bid)),
      [.credited a (v.balance + x.bid)]) := by
  simp only [creditCreator, findUserStruct, hk, hv, Option.bind_eq_bind, Option.bind_some,
    modify_eq_set hv, User.credit]
  rfl

theorem closeReads_of {s s' : Server} (lists : UserLists s) {a : Nat} {x : Auction}
    {w : CharPtr} {out : List Event}
    (hx : s.auctions[a]? = some x) (hw : x.currentWinner = some w)
    (h : closeAuction s a = some (s', out)) : ∃ i k fds, CloseReads s a x w i k fds := by
  simp only [closeAuction, hx, Option.bind_eq_bind, Option.bind_some,
    Option.bind_eq_some_iff] at h
  obtain ⟨body, hbody, ⟨s₁, debit⟩, hdebit, ⟨s₂, credit⟩, hcredit, fds, hfds, -⟩ := h
  obtain ⟨i, u, won, hi, hu, hwon⟩ : ∃ i u won, scanByName (some w) s.users = some (some i) ∧
      s.users[i]? = some u ∧ insertAtTail u.auctionsWon (some a) = some won := by
    simp only [debitWinner, hw, findUserStruct, Option.bind_eq_bind, Option.bind_eq_some_iff]
      at hdebit
    obtain ⟨_, hi, i, rfl, u, hu, won, hwon, -⟩ := hdebit
    exact ⟨i, u, won, hi, hu, hwon⟩
  obtain ⟨k, hk⟩ : ∃ k, scanByName x.creator s₁.users = some (some k) := by
    simp only [creditCreator, findUserStruct, Option.bind_eq_bind, Option.bind_eq_some_iff]
      at hcredit
    obtain ⟨_, hk, k, rfl, -⟩ := hcredit
    exact ⟨k, hk⟩
  obtain ⟨v, hv, -⟩ := scanByName_some hk
  obtain ⟨rfl, -⟩ : s.withUsers (s.users.modify i (User.debit a x.bid)) = s₁ ∧ _ := by
    simpa [debitWinner_eq lists hw hi hu hwon] using hdebit
  obtain ⟨rfl, -⟩ : s.withUsers (settleParties a x.bid i k s.users) = s₂ ∧ _ := by
    simpa [creditCreator_eq a hk hv, settleParties] using hcredit
  rw [users_withUsers, scanByName_keys (keys_debit ..)] at hk
  have htold := watcherFds_keys (s := s) (t := s.withUsers (settleParties a x.bid i k s.users))
    (keys_settle a x.bid i k s.users) x.watchers.nodes
  exact ⟨i, k, fds, fits_lt hbody, hi,
    ⟨u.auctionsWon, by rw [hu]; rfl, Option.isSome_of_eq_some hwon⟩, hk, htold ▸ hfds⟩

theorem CloseReads.close {s : Server} {a : Nat} {x : Auction} {w : CharPtr} {i k : Nat}
    {fds : List Int} (h : CloseReads s a x w i k fds) (lists : UserLists s)
    (hx : s.auctions[a]? = some x) (hw : x.currentWinner = some w) :
    ∃ out, closeAuction s a = some (s.withUsers (settleParties a x.bid i k s.users), out) ∧
      out.filterMap Event.msg? = closedMsgs x fds := by
  obtain ⟨l, hl, hroom⟩ := h.won
  obtain ⟨u, hu, rfl⟩ := Option.map_eq_some_iff.mp hl
  obtain ⟨won, hwon⟩ := Option.isSome_iff_exists.mp hroom
  have hfits : fits (closedBody x) = some (closedBody x) := if_pos h.room
  have hk : scanByName x.creator (s.withUsers (s.users.modify i (User.debit a x.bid))).users =
      some (some k) := by
    rw [users_withUsers, scanByName_keys (keys_debit ..), h.creator]
  obtain ⟨v, hv, -⟩ := scanByName_some hk
  have htold : watcherFds (s.withUsers (settleParties a x.bid i k s.users)) x.watchers.nodes =
      some fds := by
    have hkeys := watcherFds_keys (s := s) (t := s.withUsers (settleParties a x.bid i k s.users))
      (keys_settle a x.bid i k s.users) x.watchers.nodes
    rw [hkeys, h.told]
  refine ⟨.closed a :: [.debited a (u.balance - x.bid)] ++ [.credited a (v.balance + x.bid)] ++
    fds.map fun fd => message fd .ANCLOSED (closedBody x), ?_, ?_⟩
  · simp only [closeAuction, hx, hfits, debitWinner_eq lists hw h.winner hu hwon,
      creditCreator_eq a hk hv, Option.bind_eq_bind, Option.bind_some]
    simp only [withUsers_withUsers, users_withUsers]
    rw [← settleParties, htold, Option.bind_some]
  · simp [List.filterMap_cons, List.filterMap_map, Function.comp_def, closedMsgs]

/-- A handler either has no meaning in any state of the view, or makes one change in all of them. -/
def Uniform (s : Server) (i a : Nat) (f : Server → Option (Server × List Event)) : Prop :=
  (∀ t, BidView s i a t → f t = none) ∨
  ∃ (c : BidEdit) (ms : List Msg), c.Of i a ∧
    ∀ t, BidView s i a t → ∃ out, f t = some (c.apply t, out) ∧ out.filterMap Event.msg? = ms

section Bid

variable {s : Server} {i a : Nat} {x : Auction}

theorem uniform_refuse (hx : s.auctions[a]? = some x) (out : List Event) :
    Uniform s i a fun t => some (t, out) := by
  refine Or.inr ⟨⟨a, x, none⟩, _, ⟨rfl, by simp⟩, fun t view => ⟨out, ?_, rfl⟩⟩
  rw [BidEdit.apply, setAuction_self (view.record.trans hx)]

theorem uniform_raise (hx : s.auctions[a]? = some x) (fd : Int) (name : CharStar) (bid : Int) :
    Uniform s i a fun t => raiseAuction t fd name bid a := by
  let y := x.withBid name bid
  have hraise (t : Server) (view : BidView s i a t) : raiseAuction t fd name bid a =
      (updateAuction s y name).map fun out =>
        (t.setAuction a y, .accepted a name bid :: out ++ [answer fd .OK]) := by
    have hxt := view.record.trans hx
    have hupdate : updateAuction (t.setAuction a y) y name = updateAuction s y name :=
      updateAuction_keys (t := t.setAuction a y) view.keys y name
    simp only [raiseAuction, setBid_eq hxt, setAuction_get _ hxt, Option.bind_eq_bind,
      Option.bind_some]
    rw [hupdate]
    cases updateAuction s y name <;> rfl
  cases hout : updateAuction s y name with
  | none =>
    refine Or.inl fun t view => (hraise t view).trans ?_
    rw [hout, Option.map_none]
  | some out =>
    let log := .accepted a name bid :: out ++ [answer fd .OK]
    refine Or.inr ⟨⟨a, y, none⟩, log.filterMap Event.msg?, ⟨rfl, by simp⟩,
      fun t view => ⟨log, (hraise t view).trans ?_, rfl⟩⟩
    rw [hout, Option.map_some, BidEdit.apply]

/-- The winner is found at his own position. -/
theorem CloseReads.winner_at {w : CharPtr} {k n : Nat} {fds : List Int} (users : UserInv s)
    (h : CloseReads s a x w k n fds) {u : User} (hu : s.users[i]? = some u)
    (hname : u.username = some w) : k = i := by
  obtain ⟨v, hv, hcmp⟩ := scanByName_some h.winner
  obtain rfl := users.cmp_inj (List.mem_of_getElem? hu) (List.mem_of_getElem? hv) (hname ▸ hcmp)
  exact index_inj users.fds hv hu rfl

theorem reads_of_buy (lists : UserLists s) {name : CharStar} {bid : Int} {w : CharPtr}
    (hname : name = some w) (hx : s.auctions[a]? = some x) {result : Server × List Event}
    (h : buyAuction s name bid a = some result) :
    ∃ k n fds,
      CloseReads (s.setAuction a (x.withBid name bid)) a (x.withBid name bid) w k n fds := by
  simp only [buyAuction, setBid_eq hx, Option.bind_eq_bind, Option.bind_some,
    Option.bind_eq_some_iff] at h
  obtain ⟨⟨s₂, out⟩, hclose, -⟩ := h
  exact closeReads_of (s := s.setAuction a _) lists (setAuction_get _ hx) hname hclose

/-- A buy-it-now bid makes the change of its positions and sends the ANCLOSED messages. -/
theorem buy_of_reads (inv : ReachInv s) (ha : a ∈ s.auctionsList.nodes) {name : CharStar}
    {bid : Int} {w : CharPtr} (hname : name = some w) (hx : s.auctions[a]? = some x) {k n : Nat}
    {fds : List Int}
    (h : CloseReads (s.setAuction a (x.withBid name bid)) a (x.withBid name bid) w k n fds) :
    ∃ out, buyAuction s name bid a =
        some (BidEdit.apply ⟨a, x.withBid name bid, some (k, n)⟩ s, out) ∧
      out.filterMap Event.msg? = closedMsgs (x.withBid name bid) fds := by
  obtain ⟨out, hclose, hout⟩ := h.close inv.lists (setAuction_get _ hx) hname
  have hset : ListInv (s.setAuction a (x.withBid name bid)) :=
    inv.store.toListInv.setAuction hx rfl
  have hlist := hset.withUsers (settleParties a bid k n s.users)
  refine ⟨.accepted a name bid :: out, ?_, by simpa [List.filterMap_cons] using hout⟩
  simp only [buyAuction, setBid_eq hx, hclose, Option.bind_eq_bind, Option.bind_some]
  exact congrArg (Option.bind · _) (hlist.unlink_eq ha)

theorem uniform_buy (view : BidView s i a s) {u : User} (hu : s.users[i]? = some u) {w : CharPtr}
    (hname : u.username = some w) (hx : s.auctions[a]? = some x) (bid : Int) :
    Uniform s i a fun t => buyAuction t u.username bid a := by
  let y := x.withBid u.username bid
  by_cases hreads : ∃ k n fds, CloseReads (s.setAuction a y) a y w k n fds
  · obtain ⟨k, n, fds, hreads⟩ := hreads
    have users : UserInv (s.setAuction a y) := view.inv.users.of_users rfl rfl rfl
    obtain rfl := hreads.winner_at users hu hname
    refine Or.inr ⟨⟨a, y, some (k, n)⟩, closedMsgs y fds, ⟨rfl, by simp⟩, fun t view' => ?_⟩
    have hreads' : CloseReads (t.setAuction a y) a y w k n fds :=
      hreads.of_keys view'.keys view'.won
    exact buy_of_reads view'.inv view'.listed hname (view'.record.trans hx) hreads'
  · refine Or.inl fun t view' => Option.eq_none_iff_forall_ne_some.mpr fun result h => hreads ?_
    obtain ⟨v, hv, hname', -⟩ := view'.user hu
    obtain ⟨k, n, fds, hreads'⟩ := reads_of_buy view'.inv.lists hname (view'.record.trans hx) h
    have users : UserInv (t.setAuction a y) := view'.inv.users.of_users rfl rfl rfl
    obtain rfl := hreads'.winner_at users hv (hname'.trans hname)
    exact ⟨k, n, fds, hreads'.of_keys view'.keys.symm view'.won.symm⟩

theorem Uniform.congr {f g : Server → Option (Server × List Event)} (h : Uniform s i a g)
    (hfg : ∀ t, BidView s i a t → f t = g t) : Uniform s i a f := by
  rcases h with hnone | ⟨c, ms, hc, hsome⟩
  · exact Or.inl fun t view => (hfg t view).trans (hnone t view)
  · refine Or.inr ⟨c, ms, hc, fun t view => ?_⟩
    rw [hfg t view]
    exact hsome t view

/-- The tests read the auction's record and the bidder's name, which the view fixes. -/
theorem BidView.bidAuction_eq {t : Server} (view : BidView s i a t) {u : User}
    (hu : s.users[i]? = some u) (hx : s.auctions[a]? = some x) (bid : Int) :
    bidAuction t u.fd x.id bid =
      if samePtr x.creator u.username then some (t, [answer u.fd .EANDENIED])
      else if x.Watches u.username then
        if x.binFlag = 1 ∧ bid > x.binPrice then buyAuction t u.username bid a
        else if bid > x.bid then raiseAuction t u.fd u.username bid a
        else some (t, [answer u.fd .EBIDLOW])
      else some (t, [answer u.fd .EANDENIED]) := by
  have hxt := view.record.trans hx
  obtain ⟨v, hv, hname, hfd⟩ := view.user hu
  have hmem := List.mem_of_getElem? hv
  have hfound : findUsername t u.fd = some v := hfd ▸ view.inv.users.findUsername_eq hmem
  have htarget := view.inv.store.toListInv.findById_eq hxt
  rw [if_pos view.listed] at htarget
  have hexit := bidExit_found htarget hxt (view.inv.named_or_unwatched hmem hxt) bid
  rw [hname] at hexit
  simp only [bidAuction, hfound, hexit, hname, Option.bind_eq_bind, Option.bind_some]
  split_ifs <;> rfl

/-- The user at position `i` bids on the open auction at `a`. -/
theorem uniform_bid (view : BidView s i a s) {u : User} (hu : s.users[i]? = some u)
    (hx : s.auctions[a]? = some x) (bid : Int) :
    Uniform s i a fun t => bidAuction t u.fd x.id bid := by
  refine Uniform.congr ?_ fun t view => view.bidAuction_eq hu hx bid
  by_cases hcreator : samePtr x.creator u.username = true
  · simp only [hcreator, ↓reduceIte]
    exact uniform_refuse hx _
  by_cases hwatches : x.Watches u.username
  · obtain ⟨w, hw⟩ : ∃ w, u.username = some w := by
      obtain ⟨_, -, htext⟩ := hwatches
      obtain ⟨w, hw, -⟩ := Option.map_eq_some_iff.mp htext
      exact ⟨w, hw⟩
    by_cases hbuy : x.binFlag = 1 ∧ bid > x.binPrice
    · simp only [hcreator, hwatches, hbuy, ↓reduceIte, Bool.false_eq_true, and_self]
      exact uniform_buy view hu hw hx bid
    · by_cases hhigh : bid > x.bid
      · simp only [hcreator, hwatches, hbuy, hhigh, ↓reduceIte, Bool.false_eq_true]
        exact uniform_raise hx u.fd u.username bid
      · simp only [hcreator, hwatches, hbuy, hhigh, ↓reduceIte, Bool.false_eq_true]
        exact uniform_refuse hx _
  · simp only [hcreator, hwatches, ↓reduceIte, Bool.false_eq_true]
    exact uniform_refuse hx _

end Bid

/-- The step of a bid, in every state. -/
theorem Server.Bids.step {s : Server} {job : Job} {user : User} {a : Nat}
    (h : s.Bids job user a) : ∃ x bid, s.auctions[a]? = some x ∧
      ∀ env t, Server.step t (.job env job) = bidAuction t user.fd x.id bid := by
  obtain ⟨x, bid, hx, hargs⟩ := h.names
  refine ⟨x, bid, hx, fun env t => ?_⟩
  simp only [Server.step, processJob, h.type, hargs, h.fd, Option.bind_eq_bind, Option.bind_some]

theorem bidView_refl {s : Server} (inv : ReachInv s) (i : Nat) {a : Nat}
    (ha : a ∈ s.auctionsList.nodes) : BidView s i a s := ⟨inv, rfl, rfl, rfl, ha⟩

theorem Server.Bids.acts {s : Server} {job : Job} {user : User} {a : Nat}
    (h : s.Bids job user a) (inv : ReachInv s) {i : Nat} (hi : s.users[i]? = some user)
    (env : JobEnv) : Blocked Server.step (BidView s i a) (.job env job) ∨
      ∃ d ms, (∃ c : BidEdit, c.Of i a ∧ d = c.apply) ∧
        Acts Server.step Event.msg? (BidView s i a) (.job env job) d ms := by
  obtain ⟨x, bid, hx, hstep⟩ := h.step
  rcases uniform_bid (bidView_refl inv i h.listed) hi hx bid with hnone | ⟨c, ms, hc, hsome⟩
  · exact Or.inl fun t view => (hstep env t).trans (hnone t view)
  · refine Or.inr ⟨c.apply, ms, ⟨c, hc, rfl⟩, fun t view => ?_⟩
    rw [hstep env t]
    exact hsome t view

/-- A settlement adds to the winner's list and to no other. -/
theorem settleParties_won (a : Nat) (price : Int) {i j : Nat} (hij : i ≠ j) (k : Nat)
    (us : List User) : ((settleParties a price i k us)[j]?).map User.auctionsWon =
      (us[j]?).map User.auctionsWon := by
  rw [settleParties, ← List.getElem?_modify_ne (User.debit a price) us hij]
  generalize us.modify i (User.debit a price) = vs
  by_cases hkj : k = j
  · subst hkj
    rw [List.getElem?_modify_eq]
    cases vs[k]? <;> rfl
  · rw [List.getElem?_modify_ne _ _ hkj]

/-- A bid leaves alone what a bid of another user on another auction reads. -/
theorem BidEdit.keeps {s : Server} {c : BidEdit} {i j a b : Nat}
    (hc : c.Of i a) (hij : i ≠ j) (hab : a ≠ b) (hb : b ∈ s.auctionsList.nodes)
    (hinv : ReachInv (c.apply s)) : BidView s j b (c.apply s) := by
  obtain ⟨a₁, x, parties⟩ := c
  obtain rfl : a = a₁ := hc.auction.symm
  have hrecord : (s.auctions.set a x)[b]? = s.auctions[b]? := List.getElem?_set_ne hab
  rcases parties with _ | ⟨i', k⟩
  · exact ⟨hinv, rfl, rfl, hrecord, hb⟩
  · obtain rfl : i' = i := hc.winner _ rfl
    exact ⟨hinv, keys_settle a x.bid i' k s.users, settleParties_won a x.bid hij k s.users,
      hrecord, (List.mem_erase_of_ne hab.symm).mpr hb⟩

/-- Bids of two users on two open auctions can be processed in either order: both orders have no
meaning, or they end in the same globals, with balances that are the same ints, and send the same
messages to the same descriptors. -/
theorem bids_commute {as : List Action} {tr : List Event} {s : Server}
    (run : Run Server.step (Server.Admits Anyone) Server.start as tr s) {job job' : Job}
    {user user' : User} {a b : Nat} (h : s.Bids job user a) (h' : s.Bids job' user' b)
    (husers : user ≠ user') (hauctions : a ≠ b) (env env' : JobEnv) :
    Agree Event.msg?
      (exec Server.step (Server.Admits Anyone) s [.job env job, .job env' job'])
      (exec Server.step (Server.Admits Anyone) s [.job env' job', .job env job]) := by
  have inv := reachInv_run run
  obtain ⟨i, hi⟩ := List.getElem?_of_mem h.known
  obtain ⟨j, hj⟩ := List.getElem?_of_mem h'.known
  have hij : i ≠ j := by
    rintro rfl
    exact husers (Option.some.inj (hi.symm.trans hj))
  have hreach {x : Job} {e : JobEnv} {t : Server} {out : List Event}
      (hstep : Server.step s (.job e x) = some (t, out)) : ReachInv t := by
    have hadmits : s.Admits Anyone (.job e x) := trivial
    exact reachInv_step inv hadmits (step_effect hstep)
  refine exec_swap (fun _ => ⟨trivial, trivial⟩) (bidView_refl inv i h.listed)
    (bidView_refl inv j h'.listed) (h.acts inv hi env) (h'.acts inv hj env') ?_ ?_ ?_
  · rintro _ out ⟨c, hc, rfl⟩ hstep
    exact c.keeps hc hij hauctions h'.listed (hreach hstep)
  · rintro _ out ⟨c, hc, rfl⟩ hstep
    exact c.keeps hc hij.symm hauctions.symm h.listed (hreach hstep)
  · rintro _ _ ⟨c, hc, rfl⟩ ⟨c', hc', rfl⟩
    exact BidEdit.apply_comm hc hc' hij hauctions s

/-- A and B each sell an item to be bought above 5, and each watches the other's. -/
def sampleCross : List Action :=
  sampleLogins ++ [sampleJob .ANCREATE 4 ['V', '\r', '\n', '3', '\r', '\n', '5'],
    sampleJob .ANCREATE 5 ['W', '\r', '\n', '3', '\r', '\n', '5'],
    sampleJob .ANWATCH 5 ['1'], sampleJob .ANWATCH 4 ['2']]

theorem sampleCross_completes :
    (exec Server.step (Server.Admits Anyone) Server.start sampleCross).isSome := by decide

def sampleCrossed : Server :=
  ((exec Server.step (Server.Admits Anyone) Server.start sampleCross).get
    sampleCross_completes).1

/-- A buys the item of B for 9, and B the item of A for 8. -/
theorem bids_commute_sample :
    let first := sampleJob .ANBID 4 ['2', '\r', '\n', '9']
    let second := sampleJob .ANBID 5 ['1', '\r', '\n', '8']
    Agree Event.msg?
      (exec Server.step (Server.Admits Anyone) sampleCrossed [first, second])
      (exec Server.step (Server.Admits Anyone) sampleCrossed [second, first]) ∧
    (exec Server.step (Server.Admits Anyone) sampleCrossed [first, second]).isSome := by
  let x : Auction := ⟨1, ['V'], 3, 5, 1, 0, none, some ⟨0, ['A']⟩, ⟨[⟨1, ['B']⟩], 1⟩, 1⟩
  let y : Auction := ⟨2, ['W'], 3, 5, 1, 0, none, some ⟨1, ['B']⟩, ⟨[⟨0, ['A']⟩], 1⟩, 1⟩
  let userA : User := ⟨some ⟨0, ['A']⟩, some ⟨0, ['x']⟩, true, 0, 4, ⟨[0], 1⟩, ⟨[], 0⟩⟩
  let userB : User := ⟨some ⟨1, ['B']⟩, some ⟨1, ['y']⟩, true, 0, 5, ⟨[1], 1⟩, ⟨[], 0⟩⟩
  have hA : sampleCrossed.Bids ⟨['2', '\r', '\n', '9'], MsgType.ANBID.code, 4⟩ userA 1 :=
    ⟨rfl, by decide, rfl, rfl, by decide, y, 9, by decide, by decide⟩
  have hB : sampleCrossed.Bids ⟨['1', '\r', '\n', '8'], MsgType.ANBID.code, 5⟩ userB 0 :=
    ⟨rfl, by decide, rfl, rfl, by decide, x, 8, by decide, by decide⟩
  exact ⟨bids_commute (run_of_isSome sampleCross_completes) hA hB (by decide) (by decide) _ _,
    by decide⟩

end ZBid
