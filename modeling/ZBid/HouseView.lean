import ZBid.House
import ZBid.Lookups
import ZBid.Ledger

/-!
# The server seen as an auction house

What of the globals the house knows of, which inputs the actions of the server are to the house,
and the message that each notice of the house becomes. ANLIST and USRLIST are no inputs. They
answer with bytes that nobody has written: the one with the `numberOfWatchers` that `malloc`
handed back, the other with the text that an earlier call left on the stack.
-/
namespace ZBid

open CInt CString Runs AuctionHouse

/-- The text behind a username pointer. -/
def nameOf (name : CharStar) : Text := (nameText name).getD []

def User.member (u : User) : Member Text Text Int :=
  ⟨nameOf u.username, nameOf u.password, u.loginFlag, u.fd⟩

def Auction.lot (x : Auction) : Lot Text Text where
  item := x.name
  seller := nameOf x.creator
  remaining := x.duration
  limit := if x.binPrice = 0 then none else some x.binPrice
  best := x.currentWinner.map fun w => (w.text, x.bid)
  watchers := x.watchers.nodes.map CharPtr.text

/-- The server as a house in which the auctions of `sold` have been closed, in that order. -/
def Server.house (s : Server) (sold : List Nat) : House Text Text Int Text :=
  ⟨s.users.map User.member, s.auctions.map Auction.lot, sold⟩

def Job.houseCall (job : Job) : Option (Call Text) :=
  let messageBuffer := cstr job.jobBuffer
  match MsgType.ofCode job.jobMsgType with
  | some .LOGOUT => some .signOut
  | some .ANCREATE => (ancreateArgs messageBuffer).map fun (itemName, duration, price) =>
      .offer itemName duration price
  | some .ANWATCH => some (.watch (atoi messageBuffer))
  | some .ANLEAVE => some (.leave (atoi messageBuffer))
  | some .ANBID => (anbidArgs messageBuffer).map fun (auctionId, bid) => .bid auctionId bid
  | some .USRWINS => some .wins
  | some .USRSALES => some .sales
  | some .USRBLNC => some .funds
  | _ => none

/-- What an action of the server is to the house. It is read off the action alone. -/
def Action.input : Action → Option (Input Text Text Int Text)
  | .accept clientFd msgType body =>
    if msgType = MsgType.LOGIN.code then
      let (username, password) := loginArgs (cstr body)
      some (.signIn clientFd (username.getD []) (password.getD []))
    else none
  | .job _ j => j.houseCall.map (.call j.clientfd)
  | .tick => some .tick

/-- The answers that do not depend on uninitialised memory. -/
def MsgType.Determined (t : MsgType) : Prop := t ≠ .ANLIST ∧ t ≠ .USRLIST

instance (t : MsgType) : Decidable t.Determined := inferInstanceAs (Decidable (_ ∧ _))

/-- The messages in a log, the answers to ANLIST and USRLIST aside. -/
def told (tr : List Event) : List Msg :=
  tr.filterMap fun
    | .sent m => if m.msgType.Determined then some m else none
    | _ => none

def Msg.plain (fd : Int) (t : MsgType) : Msg := ⟨fd, t, 0, []⟩

def Msg.text (fd : Int) (t : MsgType) (body : Text) : Msg := ⟨fd, t, body.length + 1, body⟩

/-- A report has one line for each lot; one without lines has no body. -/
def Msg.lines (fd : Int) (t : MsgType) (line : Nat × Lot Text Text → Text)
    (lots : List (Nat × Lot Text Text)) : Msg :=
  if lots = [] then Msg.plain fd t else Msg.text fd t (lots.flatMap line)

def winsLine (entry : Nat × Lot Text Text) : Text :=
  sprintfD entry.1 ++ [';'] ++ entry.2.item ++ [';'] ++ sprintfD entry.2.price ++ ['\n']

def salesLine (entry : Nat × Lot Text Text) : Text :=
  sprintfD entry.1 ++ [';'] ++ entry.2.item ++ [';'] ++
    match entry.2.best with
    | some (winner, amount) => winner ++ [';'] ++ sprintfD amount ++ ['\n']
    | none => ['N', 'o', 'n', 'e', ';', 'N', 'o', 'n', 'e', '\n']

def closedText (number : Nat) (best : Option (Text × Int)) : Text :=
  sprintfD number ++ crlf ++
    match best with
    | none => crlf ++ crlf
    | some (winner, amount) => winner ++ crlf ++ sprintfD amount

/-- The message for a notice. A balance is sent as the int it is stored in. -/
def render (fd : Int) : Notice Text Text → Msg
  | .done => Msg.plain fd .OK
  | .present => Msg.plain fd .EUSRLGDIN
  | .refused => Msg.plain fd .EWRNGPWD
  | .invalid => Msg.plain fd .EINVALIDARG
  | .notFound => Msg.plain fd .EANNOTFOUND
  | .denied => Msg.plain fd .EANDENIED
  | .low => Msg.plain fd .EBIDLOW
  | .offered number => Msg.text fd .ANCREATE (sprintfD number)
  | .watching item limit => Msg.text fd .ANWATCH (item ++ crlf ++ sprintfD (limit.getD 0))
  | .raised number item bidder amount => Msg.text fd .ANUPDATE
      (sprintfD number ++ crlf ++ item ++ crlf ++ bidder ++ crlf ++ sprintfD amount)
  | .closed number best => Msg.text fd .ANCLOSED (closedText number best)
  | .wins lots => Msg.lines fd .USRWINS winsLine lots
  | .sales lots => Msg.lines fd .USRSALES salesLine lots
  | .funds amount => Msg.text fd .USRBLNC (sprintfD (wrap32 amount))

/-- What the house says to an address, as messages. -/
def rendered (notices : List (Int × Notice Text Text)) : List Msg :=
  notices.map fun n => render n.1 n.2

/-- The house takes the input, ends up as the server does and says what the server sends. -/
def Mirrors (s : Server) (sold : List Nat) (input : Input Text Text Int Text) (s' : Server)
    (out : List Event) : Prop :=
  ∃ notices, House.step (s.house sold) input = some (s'.house (sold ++ closings out), notices) ∧
    told out = rendered notices

theorem told_append (xs ys : List Event) : told (xs ++ ys) = told xs ++ told ys :=
  List.filterMap_append

@[simp] theorem rendered_append (xs ys : List (Int × Notice Text Text)) :
    rendered (xs ++ ys) = rendered xs ++ rendered ys := List.map_append

@[simp] theorem told_nil : told [] = [] := rfl

@[simp] theorem told_accepted (a : Nat) (bidder : CharStar) (amount : Int) (out : List Event) :
    told (.accepted a bidder amount :: out) = told out := rfl

@[simp] theorem told_closed (a : Nat) (out : List Event) : told (.closed a :: out) = told out := rfl

theorem told_answer {fd : Int} {t : MsgType} (h : t.Determined) :
    told [answer fd t] = [Msg.plain fd t] := by
  simp [told, answer, Msg.plain, h]

theorem told_message {fd : Int} {t : MsgType} (h : t.Determined) (body : Text) :
    told [message fd t body] = [Msg.text fd t body] := by
  simp [told, message, Msg.text, h]

/-- The same text to a list of descriptors. -/
theorem told_messages {t : MsgType} (h : t.Determined) (body : Text) (fds : List Int) :
    told (fds.map fun fd => message fd t body) = fds.map fun fd => Msg.text fd t body := by
  induction fds with
  | nil => rfl
  | cons fd rest ih =>
    rw [List.map_cons, List.map_cons, ← ih]
    exact (told_append [message fd t body] _).trans (congrArg (· ++ _) (told_message h body))

/-- A step without a close. -/
theorem mirrors_open {s s' : Server} {sold : List Nat} {input : Input Text Text Int Text}
    {out : List Event} (notices : List (Int × Notice Text Text)) (hnone : closings out = [])
    (hstep : House.step (s.house sold) input = some (s'.house sold, notices))
    (htold : told out = rendered notices) : Mirrors s sold input s' out :=
  ⟨notices, by rw [hnone, List.append_nil, hstep], htold⟩

/-- A single answer and nothing else. -/
theorem mirrors_answer {s s' : Server} {sold : List Nat} {input : Input Text Text Int Text}
    {fd : Int} {t : MsgType} (notice : Notice Text Text) (ht : t.Determined)
    (hstep : House.step (s.house sold) input = some (s'.house sold, [(fd, notice)]))
    (hrender : render fd notice = Msg.plain fd t) : Mirrors s sold input s' [answer fd t] :=
  mirrors_open _ (closings_messages (messages_answer _ _)) hstep
    (by rw [told_answer ht, ← hrender]; rfl)

/-- The settlements of balances are not told. -/
theorem told_values {a : Nat} {values : List Event}
    (h : ∀ e ∈ values, ∃ v, e = .debited a v ∨ e = .credited a v) : told values = [] := by
  refine List.filterMap_eq_nil_iff.mpr fun e he => ?_
  obtain ⟨v, rfl | rfl⟩ := h e he <;> rfl

@[simp] theorem house_lots (s : Server) (sold : List Nat) (k : Nat) :
    (s.house sold).lots[k]? = (s.auctions[k]?).map Auction.lot := by simp [Server.house]

theorem house_setAuction (s : Server) (sold : List Nat) (a : Nat) (x : Auction) :
    (s.setAuction a x).house sold = (s.house sold).setLot a x.lot := by
  simp [Server.house, Server.setAuction, House.setLot, Server.users, List.map_set]

/-- Users that agree in what identifies them are the same members. -/
theorem house_withUsers {s : Server} {us : List User} (sold : List Nat)
    (h : us.map User.identity = s.users.map User.identity) :
    (s.withUsers us).house sold = s.house sold := by
  have hmembers : us.map User.member = s.users.map User.member :=
    map_congr_of_map (fun d : Identity =>
      (⟨nameOf d.username, nameOf d.password, d.loginFlag, d.fd⟩ : Member Text Text Int)) h
  simp only [Server.house, users_withUsers, hmembers]
  rfl

theorem house_memberAt (s : Server) (sold : List Nat) (fd : Int) :
    (s.house sold).memberAt fd = (findUsername s fd).map User.member := by
  simp only [House.memberAt, Server.house, List.find?_map, findUsername]
  rfl

/-- The list of the server is what the house has on sale. -/
theorem house_onSale {tr : List Event} {s : Server} (list : ListInv s) (closed : ClosedInv tr s) :
    (s.house (closings tr)).onSale = s.auctionsList.nodes := by
  have hnodup : ((s.house (closings tr)).onSale).Nodup := List.nodup_range.filter _
  have hsorted : ((s.house (closings tr)).onSale).Pairwise (· < ·) :=
    List.pairwise_lt_range.filter _
  refine List.Perm.eq_of_pairwise (fun a b _ _ hab hba => absurd hab (Nat.lt_asymm hba)) hsorted
    list.sorted ?_
  refine (List.perm_ext_iff_of_nodup hnodup list.nodup).mpr fun a => ?_
  have hclosed := closed.closed a
  have hstored := list.stored a
  rw [mem_onSale]
  simp only [Server.house, List.length_map]
  constructor
  · rintro ⟨hlt, hnot⟩
    by_contra hoff
    exact hnot (hclosed.mpr ⟨hlt, hoff⟩)
  · intro hmem
    exact ⟨hstored hmem, fun ha => (hclosed.mp ha).2 hmem⟩

/-- The search of the handlers is the house's. -/
theorem house_find {tr : List Event} {s : Server} (list : ListInv s) (closed : ClosedInv tr s)
    {id : Int} {found : Option Nat} (h : findById s id s.auctionsList.nodes = some found) :
    (s.house (closings tr)).find id = found := by
  rw [House.find, house_onSale list closed]
  have hsearch : ∀ nodes : List Nat, (∀ k ∈ nodes, k < s.auctions.length) →
      findById s id nodes = some found →
      nodes.find? (fun k : Nat => (k : Int) + 1 = id) = found := by
    intro nodes
    induction nodes with
    | nil => exact fun _ h => Option.some.inj h
    | cons k rest ih =>
      intro hstored h
      have hk := List.getElem?_eq_getElem (hstored k List.mem_cons_self)
      simp only [findById, hk, Option.bind_eq_bind, Option.bind_some, list.ids k _ hk] at h
      by_cases hid : (k : Int) + 1 = id
      · rw [if_pos hid, Option.some.injEq] at h
        simp [hid, h]
      · rw [if_neg hid] at h
        simpa [hid] using ih (fun j hj => hstored j (List.mem_cons_of_mem _ hj)) h
  exact hsearch _ list.stored h

theorem lot_price {x : Auction} (record : RecordInv x) : x.lot.price = x.bid := by
  cases hw : x.currentWinner with
  | none => simp [Auction.lot, Lot.price, hw, record.winner.mpr hw]
  | some w => simp [Auction.lot, Lot.price, hw]

end ZBid
