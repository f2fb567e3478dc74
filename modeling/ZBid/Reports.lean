import Mathlib.Algebra.Order.BigOperators.Group.List
import ZBid.Buffers
import ZBid.Ledger

/-!
# The account reports

USRSALES reads the list of a user's auctions, which is filled when they are created, and USRWINS
and USRBLNC read what is filled when auctions close. A highest bid on an open auction is in the
first report already and in the others not yet.
-/
namespace ZBid

open CInt CString Runs Bookkeeping

/-- A line of USRSALES. -/
structure SaleLine where
  id : Int
  item : Text
  sold : Option (Text × Int)

def SaleLine.text (line : SaleLine) : Text :=
  sprintfD line.id ++ [';'] ++ line.item ++ [';'] ++
    match line.sold with
    | some (winner, price) => winner ++ [';'] ++ sprintfD price ++ ['\n']
    | none => ['N', 'o', 'n', 'e', ';', 'N', 'o', 'n', 'e', '\n']

/-- The price of a line with a winner. -/
def SaleLine.price (line : SaleLine) : Option Int := line.sold.map Prod.snd

/-- A line of USRWINS. -/
structure WinLine where
  id : Int
  item : Text
  price : Int

def WinLine.text (line : WinLine) : Text :=
  sprintfD line.id ++ [';'] ++ line.item ++ [';'] ++ sprintfD line.price ++ ['\n']

def Auction.saleLine (x : Auction) : SaleLine :=
  ⟨x.id, x.name, x.currentWinner.map fun winner => (winner.text, x.bid)⟩

def Auction.winLine (x : Auction) : WinLine := ⟨x.id, x.name, x.bid⟩

theorem usersSalesInfo_line (x : Auction) : usersSalesInfo x = x.saleLine.text := by
  cases hw : x.currentWinner <;> simp [usersSalesInfo, Auction.saleLine, SaleLine.text, hw]

theorem usersWinsInfo_line (x : Auction) : usersWinsInfo x = x.winLine.text := rfl

def Server.saleLines (s : Server) (user : User) : List SaleLine :=
  (s.records user.auctionsOwned.nodes).map Auction.saleLine

def Server.winLines (s : Server) (user : User) : List WinLine :=
  (s.records user.auctionsWon.nodes).map Auction.winLine

/-- The reply that carries the lines; no line makes a reply without a body. -/
def lineReply {α : Type} (fd : Int) (t : MsgType) (text : α → Text) (lines : List α) : Event :=
  if lines = [] then answer fd t else message fd t (lines.flatMap text)

/-- The three replies to a user's questions about his account. -/
structure Reports (s : Server) (fd : Int) (sales : List SaleLine) (wins : List WinLine)
    (balance : Int) : Prop where
  sales : ∀ s' out, usersSales s fd = some (s', out) →
    out = [lineReply fd .USRSALES SaleLine.text sales]
  wins : ∀ s' out, usersWins s fd = some (s', out) →
    out = [lineReply fd .USRWINS WinLine.text wins]
  balance : userBalance s fd = some (s, [message fd .USRBLNC (sprintfD balance)])

theorem report_lines {α : Type} {s s' : Server} {fd : Int} {t : MsgType} {info : Auction → Text}
    {line : Auction → α} {text : α → Text} {list : LinkedList Nat} {out : List Event}
    (hline : ∀ x, info x = text (line x)) (h : report s fd t info list = some (s', out)) :
    out = [lineReply fd t text ((s.records list.nodes).map line)] := by
  by_cases hempty : list.nodes = []
  · simp only [report, hempty, ↓reduceIte, Option.some.injEq, Prod.mk.injEq] at h
    simp [← h.2, Server.records, lineReply, hempty]
  · simp only [report, hempty, ↓reduceIte, Option.bind_eq_bind, Option.bind_eq_some_iff,
      Option.some.injEq, Prod.mk.injEq] at h
    obtain ⟨lines, hlines, body, hbody, -, rfl⟩ := h
    have hne : (s.records list.nodes).map line ≠ [] := by
      obtain ⟨a, rest, hnodes⟩ := List.exists_cons_of_ne_nil hempty
      rw [hnodes] at hlines ⊢
      simp only [infoLines, Option.bind_eq_bind, Option.bind_eq_some_iff] at hlines
      obtain ⟨x, hx, -⟩ := hlines
      simp [Server.records, hx]
    have hinfo : info = text ∘ line := funext hline
    rw [lineReply, if_neg hne, List.flatMap_map, fits_eq_some hbody, infoLines_eq hlines, hinfo]
    rfl

theorem reports_of_user {s : Server} {fd : Int} {user : User}
    (huser : findUsername s fd = some user) :
    Reports s fd (s.saleLines user) (s.winLines user) user.balance := by
  constructor
  · intro s' out h
    simp only [usersSales, huser, Option.bind_eq_bind, Option.bind_some] at h
    exact report_lines usersSalesInfo_line h
  · intro s' out h
    simp only [usersWins, huser, Option.bind_eq_bind, Option.bind_some] at h
    exact report_lines usersWinsInfo_line h
  · simp [userBalance, huser]

/-- An auction without a winner has no bid, so the lines with a winner sum up all bids. -/
theorem saleLines_sum {s : Server} (store : StoreInv s) (l : List Nat) :
    (((s.records l).map Auction.saleLine).filterMap SaleLine.price).sum =
      (l.map s.finalBid).sum := by
  induction l with
  | nil => rfl
  | cons a rest ih =>
    cases hx : s.auctions[a]? with
    | none => simpa [Server.records, hx, Server.finalBid] using ih
    | some x =>
      have hbid := (store.records a x hx).winner
      have hrecords : s.records (a :: rest) = x :: s.records rest := by simp [Server.records, hx]
      have hfinal : s.finalBid a = x.bid := by simp [Server.finalBid, hx]
      rw [hrecords, List.map_cons, List.map_cons, List.sum_cons, ← ih, hfinal]
      cases hw : x.currentWinner with
      | none =>
        have hprice : x.saleLine.price = none := by simp [SaleLine.price, Auction.saleLine, hw]
        rw [List.filterMap_cons_none hprice, hbid.mpr hw, Int.zero_add]
      | some w =>
        have hprice : x.saleLine.price = some x.bid := by
          simp [SaleLine.price, Auction.saleLine, hw]
        rw [List.filterMap_cons_some hprice, List.sum_cons]

theorem winLines_sum (s : Server) (l : List Nat) :
    (((s.records l).map Auction.winLine).map WinLine.price).sum = (l.map s.finalBid).sum := by
  induction l with
  | nil => rfl
  | cons a rest ih =>
    cases hx : s.auctions[a]? with
    | none => simpa [Server.records, hx, Server.finalBid] using ih
    | some x => simpa [Server.records, hx, Server.finalBid, Auction.winLine] using ih

/-- The auctions of a list, those that are open first. -/
theorem sum_split (f : Nat → Int) (p : Nat → Bool) (l : List Nat) :
    (l.map f).sum = ((l.filter p).map f).sum + ((l.filter fun a => !p a).map f).sum := by
  rw [← List.sum_append, ← List.map_append]
  exact ((List.filter_append_perm p l).map f).sum_eq.symm

/-- The sales of a user are the closed auctions that he has created, and the open ones. -/
theorem AccountInv.sales_sum {tr : List Event} {s : Server} {u : User}
    (inv : AccountInv tr s u.account) (closed : ClosedInv tr s) :
    (u.auctionsOwned.nodes.map s.finalBid).sum =
      ((u.auctionsOwned.nodes.filter (· ∈ s.auctionsList.nodes)).map s.finalBid).sum +
        (((closings tr).filter (s.createdBy u.username)).map s.finalBid).sum := by
  have howned : u.auctionsOwned.nodes = _ := inv.owned
  rw [sum_split s.finalBid (· ∈ s.auctionsList.nodes)]
  refine congrArg _ (List.Perm.sum_eq (List.Perm.map _ ?_))
  have hnodup : u.auctionsOwned.nodes.Nodup := by
    rw [howned]
    exact List.nodup_range.filter _
  refine (List.perm_ext_iff_of_nodup (hnodup.filter _) (closed.once.filter _)).mpr fun a => ?_
  rw [howned]
  simp only [List.mem_filter, List.mem_range, Bool.not_eq_eq_eq_not, Bool.not_true,
    decide_eq_false_iff_not, closed.closed]
  exact and_right_comm

def SoldTotal (sales : List SaleLine) : Int := (sales.filterMap SaleLine.price).sum

def SpentTotal (wins : List WinLine) : Int := (wins.map WinLine.price).sum

/-- The user has no auction on the list that somebody has bid on. -/
def NothingPending (s : Server) (user : User) : Prop :=
  ∀ a ∈ s.auctionsList.nodes, ∀ x, s.auctions[a]? = some x → x.creator = user.username →
    x.currentWinner = none

theorem pending_sum_eq_zero {tr : List Event} {s : Server} (store : StoreInv s) {u : User}
    (inv : AccountInv tr s u.account) :
    ((u.auctionsOwned.nodes.filter (· ∈ s.auctionsList.nodes)).map s.finalBid).sum = 0 ↔
      NothingPending s u := by
  have howned : u.auctionsOwned.nodes = _ := inv.owned
  have hnonneg : ∀ n ∈ (u.auctionsOwned.nodes.filter (· ∈ s.auctionsList.nodes)).map s.finalBid,
      0 ≤ n := by
    intro n hn
    obtain ⟨a, -, rfl⟩ := List.mem_map.mp hn
    cases hx : s.auctions[a]? with
    | none => simp [Server.finalBid, hx]
    | some x => simpa [Server.finalBid, hx] using (store.records a x hx).bid.1
  constructor
  · intro hsum a ha x hx hcreator
    have hmem : a ∈ u.auctionsOwned.nodes.filter (· ∈ s.auctionsList.nodes) := by
      rw [howned]
      simp only [List.mem_filter, List.mem_range, decide_eq_true_eq]
      exact ⟨⟨store.stored a ha, (createdBy_iff hx).mpr hcreator⟩, ha⟩
    have hzero := List.all_zero_of_le_zero_le_of_sum_eq_zero hnonneg hsum
      (List.mem_map_of_mem (f := s.finalBid) hmem)
    simp only [Server.finalBid, hx, Option.elim] at hzero
    exact (store.records a x hx).winner.mp hzero
  · intro hpending
    refine List.sum_eq_zero fun n hn => ?_
    obtain ⟨a, ha, rfl⟩ := List.mem_map.mp hn
    rw [howned] at ha
    simp only [List.mem_filter, List.mem_range, decide_eq_true_eq] at ha
    obtain ⟨⟨hlt, hcreated⟩, hopen⟩ := ha
    have hx := List.getElem?_eq_getElem hlt
    have hnone := hpending a hopen _ hx ((createdBy_iff hx).mp hcreated)
    simp only [Server.finalBid, hx, Option.elim]
    exact (store.records a _ hx).winner.mpr hnone

/-- The three reports agree on a user's account if and only if nothing of his is pending. -/
theorem reportsAgree_run {as : List Action} {tr : List Event} {s : Server}
    (run : Run Server.step Sponsored Server.start as tr s) (hfit : BalancesFit tr) {fd : Int}
    {user : User} (huser : findUsername s fd = some user) :
    Reports s fd (s.saleLines user) (s.winLines user) user.balance ∧
    (SoldTotal (s.saleLines user) - SpentTotal (s.winLines user) = user.balance ↔
      NothingPending s user) := by
  refine ⟨reports_of_user huser, ?_⟩
  have store := (serverInv_run run).store
  have closed := (priceInv_run run).closed
  have inv := accounts_run run hfit user (findUsername_spec huser).1
  have hwon : user.auctionsWon.nodes = _ := inv.won
  have hbalance : user.balance =
      (((closings tr).filter (s.createdBy user.username)).map s.finalBid).sum -
        (((closings tr).filter (s.wonBy user.username)).map s.finalBid).sum := by
    rw [show user.balance = _ from inv.balance, balance_eq, deals_sum, deals_sum]
    rfl
  have hspent : SpentTotal (s.winLines user) =
      (((closings tr).filter (s.wonBy user.username)).map s.finalBid).sum := by
    rw [SpentTotal, Server.winLines, winLines_sum, hwon]
    rfl
  rw [← pending_sum_eq_zero store inv, SoldTotal, Server.saleLines, saleLines_sum store, hspent,
    inv.sales_sum closed, hbalance]
  omega

def sampleSold : Server × List Event :=
  (exec Server.step Sponsored Server.start sampleSale).get (by decide)

/-- A has sold the auction, and nothing else of his is open. -/
theorem reportsAgree_run_sample :
    let user : User := ⟨some ⟨0, ['A']⟩, some ⟨0, ['x']⟩, true, 7, 4, ⟨[0], 1⟩, ⟨[], 0⟩⟩
    SoldTotal (sampleSold.1.saleLines user) - SpentTotal (sampleSold.1.winLines user) = 7 := by
  intro user
  have run : Run Server.step Sponsored Server.start sampleSale sampleSold.2 sampleSold.1 :=
    run_of_isSome (by decide)
  have huser : findUsername sampleSold.1 4 = some user := by decide
  have hlist : sampleSold.1.auctionsList.nodes = [] := by decide
  refine (reportsAgree_run run (by decide) huser).2.mpr fun a ha => ?_
  rw [hlist] at ha
  cases ha

/-- A's auction has a bid and is still open. -/
theorem reportsAgree_fails : ¬ ∀ as tr s fd user,
    Run Server.step (Server.Admits LoggedIn) Server.start as tr s → BalancesFit tr →
    findUsername s fd = some user → user.loginFlag = true →
    SoldTotal (s.saleLines user) - SpentTotal (s.winLines user) = user.balance := by
  intro claim
  let user : User := ⟨some ⟨0, ['A']⟩, some ⟨0, ['x']⟩, true, 0, 4, ⟨[0], 1⟩, ⟨[], 0⟩⟩
  let sample := (exec Server.step (Server.Admits LoggedIn) Server.start sampleBid).get (by decide)
  have run : Run Server.step (Server.Admits LoggedIn) Server.start sampleBid sample.2 sample.1 :=
    run_of_isSome (by decide)
  have huser : findUsername sample.1 4 = some user := by decide
  exact absurd (claim _ _ _ 4 user run (by decide) huser rfl) (by decide)

end ZBid
