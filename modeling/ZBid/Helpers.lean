import ZBid.Structs

/-!
# helpers.c

The searches and the request handlers, as the code computes them. Each handler takes the server's
globals and either has no defined behaviour (`none`: a NULL pointer is dereferenced, a buffer or
a counter overflows) or yields the new globals and what it logs.
-/
namespace ZBid

open CInt CString

/-- The scan that compares a name with every username: the position of the first match. -/
def scanByName (username : CharStar) : List User → Option (Option Nat)
  | [] => some none
  | u :: us => do
    if ← strcmpEq username u.username then some (some 0)
    else (scanByName username us).map (Option.map (· + 1))

def findUsername (s : Server) (clientFd : Int) : Option User :=
  s.users.find? fun u => u.fd == clientFd

/-- The pointer to a user record is its position in `usersList`. -/
def findUserStruct (s : Server) (username : CharStar) : Option (Option Nat) :=
  scanByName username s.users

def findClientFd (s : Server) (username : CharStar) : Option Int := do
  match ← scanByName username s.users with
  | none => some (-1)
  | some i => (s.users[i]?).map User.fd

def auctionIndexLoop (s : Server) (id : Int) : Int → List Nat → Option Int
  | _, [] => some (-1)
  | result, x :: xs => do
    let currentAuction ← s.auctions[x]?
    if id = currentAuction.id then some result else auctionIndexLoop s id (result + 1) xs

def findAuctionIndex (s : Server) (a : Nat) : Option Int := do
  let auction ← s.auctions[a]?
  auctionIndexLoop s auction.id 0 s.auctionsList.nodes

def userIndexLoop (username : CharStar) : Int → List CharPtr → Option Int
  | _, [] => some (-1)
  | result, w :: ws => do
    if ← strcmpEq username (some w) then some result else userIndexLoop username (result + 1) ws

def findUserIndex (list : LinkedList CharPtr) (username : CharStar) : Option Int :=
  userIndexLoop username 0 list.nodes

/-- LOGIN. The result is the int that `login` returns. -/
def login (s : Server) (clientFd : Int) (username password : CharStar) :
    Option (Server × List Event × Int) := do
  match ← scanByName username s.users with
  | some i => do
    let currentUser ← s.users[i]?
    if currentUser.loginFlag then some (s, [answer clientFd .EUSRLGDIN], 0)
    else if ← strcmpEq password currentUser.password then
      some (s.setUser i { currentUser with loginFlag := true, fd := clientFd },
        [answer clientFd .OK], 0)
    else some (s, [answer clientFd .EWRNGPWD], -1)
  | none => do
    let newUser : User := {
      username, password, fd := clientFd, loginFlag := true, balance := 0,
      auctionsOwned := createList, auctionsWon := createList }
    let users ← insertAtTail s.usersList (some newUser)
    some ({ s with usersList := users }, [answer clientFd .OK], 0)

/-- LOGOUT. A descriptor in no record is not answered. -/
def logout (s : Server) (clientFd : Int) : Server × List Event :=
  match s.users.findIdx? (fun u => u.fd == clientFd) with
  | none => (s, [])
  | some i =>
    match s.users[i]? with
    | none => (s, [])
    | some u => (s.setUser i { u with loginFlag := false }, [answer clientFd .OK])

/-- The loop of `createAuction` over all users: every record with the descriptor gets the new
auction appended to `auctionsOwned`, and the last one is the creator. -/
def ownerScan (clientFd : Int) (a : Nat) : List User → CharStar → Option (List User × CharStar)
  | [], creator => some ([], creator)
  | u :: us, creator => do
    if u.fd = clientFd then
      let owned ← insertAtTail u.auctionsOwned (some a)
      let (us', creator') ← ownerScan clientFd a us u.username
      some ({ u with auctionsOwned := owned } :: us', creator')
    else
      let (us', creator') ← ownerScan clientFd a us creator
      some (u :: us', creator')

/-- ANCREATE. The new record starts from whatever bytes `malloc` hands back. -/
def createAuction (s : Server) (malloc : Auction) (clientFd : Int) (itemName : Text)
    (duration price : Int) : Option (Server × List Event) :=
  if itemName = [] then some (s, [answer clientFd .EINVALIDARG])
  else if duration < 1 then some (s, [answer clientFd .EINVALIDARG])
  else if price < 0 then some (s, [answer clientFd .EINVALIDARG])
  else do
    let a := s.auctions.length
    let newId ← incr s.auctionID
    let (users, creator) ← ownerScan clientFd a s.users malloc.creator
    let newAuction : Auction := { malloc with
      name := itemName
      binFlag := if price ≠ 0 then 1 else 0
      binPrice := price
      duration := duration
      bid := 0
      currentWinner := none
      watchers := createList
      id := newId
      creator := creator }
    let auctions ← insertAtTail s.auctionsList (some a)
    let body ← fits (sprintfD newId)
    some ({ s with
      usersList := { s.usersList with nodes := users }
      auctionsList := auctions
      auctions := s.auctions ++ [newAuction]
      auctionID := newId }, [message clientFd .ANCREATE body])

/-- The body of ANCLOSED. -/
def closedBody (auction : Auction) : Text :=
  sprintfD auction.id ++ crlf ++
    match auction.currentWinner with
    | none => crlf ++ crlf
    | some winner => winner.text ++ crlf ++ sprintfD auction.bid

/-- The winner's side of a settlement. -/
def debitWinner (s : Server) (a : Nat) (auction : Auction) : Option (Server × List Event) :=
  match auction.currentWinner with
  | none => some (s, [])
  | some w => do
    let i ← (← findUserStruct s (some w))
    let winner ← s.users[i]?
    let won ← insertAtTail winner.auctionsWon (some a)
    let value := winner.balance - auction.bid
    some (s.setUser i { winner with balance := wrap32 value, auctionsWon := won },
      [.debited a value])

/-- The creator's side of a settlement. -/
def creditCreator (s : Server) (a : Nat) (auction : Auction) : Option (Server × List Event) := do
  let i ← (← findUserStruct s auction.creator)
  let creator ← s.users[i]?
  let value := creator.balance + auction.bid
  some (s.setUser i { creator with balance := wrap32 value }, [.credited a value])

/-- The descriptors of the watchers, in list order. -/
def watcherFds (s : Server) : List CharPtr → Option (List Int)
  | [] => some []
  | w :: ws => do
    let fd ← findClientFd s (some w)
    let fds ← watcherFds s ws
    some (fd :: fds)

/-- ANCLOSED: settle the auction and tell every watcher. -/
def closeAuction (s : Server) (a : Nat) : Option (Server × List Event) := do
  let auction ← s.auctions[a]?
  let body ← fits (closedBody auction)
  let (s₁, debit) ← debitWinner s a auction
  let (s₂, credit) ← creditCreator s₁ a auction
  let fds ← watcherFds s₂ auction.watchers.nodes
  some (s₂, .closed a :: debit ++ credit ++ fds.map (fun fd => message fd .ANCLOSED body))

/-- The two calls that follow every `closeAuction`. -/
def unlinkAuction (s : Server) (a : Nat) : Option Server := do
  let index ← findAuctionIndex s a
  let (_, auctions) ← removeByIndex s.auctionsList index
  some { s with auctionsList := auctions }

def auctionInfo (auction : Auction) : Text :=
  sprintfD auction.id ++ [';'] ++ auction.name ++ [';'] ++ sprintfD auction.binPrice ++ [';'] ++
    sprintfD auction.numberOfWatchers ++ [';'] ++ sprintfD auction.bid ++ [';'] ++
    sprintfD auction.duration ++ ['\n']

/-- The loops that append one line for each auction of a list. -/
def infoLines (s : Server) (info : Auction → Text) : List Nat → Option Text
  | [] => some []
  | a :: rest => do
    let auction ← s.auctions[a]?
    let lines ← infoLines s info rest
    some (info auction ++ lines)

/-- A report with one line for each auction; an empty list is answered without a body. -/
def report (s : Server) (clientFd : Int) (t : MsgType) (info : Auction → Text)
    (list : LinkedList Nat) : Option (Server × List Event) :=
  if list.nodes = [] then some (s, [answer clientFd t])
  else do
    let lines ← infoLines s info list.nodes
    let body ← fits lines
    some (s, [message clientFd t body])

/-- ANLIST. -/
def listAuctions (s : Server) (clientFd : Int) : Option (Server × List Event) :=
  report s clientFd .ANLIST auctionInfo s.auctionsList

/-- The search of the handlers for the auction with an id. -/
def findById (s : Server) (auctionId : Int) : List Nat → Option (Option Nat)
  | [] => some none
  | a :: rest => do
    let currentAuction ← s.auctions[a]?
    if currentAuction.id = auctionId then some (some a) else findById s auctionId rest

/-- ANWATCH. -/
def watchAuction (s : Server) (clientFd auctionId : Int) : Option (Server × List Event) := do
  match ← findById s auctionId s.auctionsList.nodes with
  | none => some (s, [answer clientFd .EANNOTFOUND])
  | some a => do
    let auction ← s.auctions[a]?
    let user ← findUsername s clientFd
    let watchers ← insertAtTail auction.watchers user.username
    let body ← fits (auction.name ++ crlf ++ sprintfD auction.binPrice)
    some (s.setAuction a { auction with
        numberOfWatchers := wrap32 (auction.numberOfWatchers + 1), watchers },
      [message clientFd .ANWATCH body])

/-- ANLEAVE. -/
def leaveAuction (s : Server) (clientFd auctionId : Int) : Option (Server × List Event) := do
  let user ← findUsername s clientFd
  match ← findById s auctionId s.auctionsList.nodes with
  | none => some (s, [answer clientFd .EANNOTFOUND])
  | some a => do
    let auction ← s.auctions[a]?
    let index ← findUserIndex auction.watchers user.username
    let (_, watchers) ← removeByIndex auction.watchers index
    some (s.setAuction a { auction with
        numberOfWatchers := wrap32 (auction.numberOfWatchers - 1), watchers },
      [answer clientFd .OK])

/-- The body of ANUPDATE. -/
def updateBody (auction : Auction) (fromUsername : CharPtr) : Text :=
  sprintfD auction.id ++ crlf ++ auction.name ++ crlf ++ fromUsername.text ++ crlf ++
    sprintfD auction.bid

/-- ANUPDATE: tell every watcher that has a descriptor. -/
def updateAuction (s : Server) (auction : Auction) (fromUsername : CharStar) :
    Option (List Event) := do
  let name ← fromUsername
  let body ← fits (updateBody auction name)
  let fds ← watcherFds s auction.watchers.nodes
  some ((fds.filter (· ≠ -1)).map fun fd => message fd .ANUPDATE body)

/-- The exits of `bidAuction`; `noMatch` is the loop running off the end of the list. -/
inductive BidExit where
  | emptyList | noMatch | creator | notWatching | low
  | buyNow (a : Nat)
  | highest (a : Nat)
  deriving DecidableEq, Repr

/-- The loop over the watchers, looking for the bidder. -/
def userWatches (username : CharStar) : List CharPtr → Option Bool
  | [] => some false
  | w :: ws => do
    if ← strcmpEq (some w) username then some true else userWatches username ws

/-- The tests of `bidAuction`, in its order. The creator is recognised by pointer, a watcher by
`strcmp`, and a buy-it-now bid is not compared with the current bid. -/
def bidExit (s : Server) (username : CharStar) (auctionId bid : Int) : Option BidExit :=
  if s.auctionsList.nodes = [] then some .emptyList
  else do
    match ← findById s auctionId s.auctionsList.nodes with
    | none => some .noMatch
    | some a => do
      let auction ← s.auctions[a]?
      if samePtr auction.creator username then some .creator
      else if ← userWatches username auction.watchers.nodes then
        if auction.binFlag = 1 ∧ bid > auction.binPrice then some (.buyNow a)
        else if bid > auction.bid then some (.highest a)
        else some .low
      else some .notWatching

/-- The two assignments of an accepted bid. -/
def Server.setBid (s : Server) (a : Nat) (username : CharStar) (bid : Int) : Option Server := do
  let auction ← s.auctions[a]?
  some (s.setAuction a { auction with bid := bid, currentWinner := username })

/-- The buy-it-now exit. -/
def buyAuction (s : Server) (username : CharStar) (bid : Int) (a : Nat) :
    Option (Server × List Event) := do
  let s₁ ← s.setBid a username bid
  let (s₂, out) ← closeAuction s₁ a
  let s₃ ← unlinkAuction s₂ a
  some (s₃, .accepted a username bid :: out)

/-- The exit that takes a new highest bid. -/
def raiseAuction (s : Server) (clientFd : Int) (username : CharStar) (bid : Int) (a : Nat) :
    Option (Server × List Event) := do
  let s₁ ← s.setBid a username bid
  let auction ← s₁.auctions[a]?
  let out ← updateAuction s₁ auction username
  some (s₁, .accepted a username bid :: out ++ [answer clientFd .OK])

/-- ANBID. -/
def bidAuction (s : Server) (clientFd auctionId bid : Int) : Option (Server × List Event) := do
  let user ← findUsername s clientFd
  match ← bidExit s user.username auctionId bid with
  | .emptyList => some (s, [answer clientFd .EANNOTFOUND])
  | .noMatch => some (s, [])
  | .creator => some (s, [answer clientFd .EANDENIED])
  | .notWatching => some (s, [answer clientFd .EANDENIED])
  | .low => some (s, [answer clientFd .EBIDLOW])
  | .buyNow a => buyAuction s user.username bid a
  | .highest a => raiseAuction s clientFd user.username bid a

/-- The names `printUsers` appends: all users but the requester, each with a newline. -/
def otherNames (clientFd : Int) : List User → Option Text
  | [] => some []
  | u :: us => do
    let rest ← otherNames clientFd us
    if u.fd ≠ clientFd then do
      let name ← u.username
      some (name.text ++ ['\n'] ++ rest)
    else some rest

/-- USRLIST. The buffer starts with `stack`, the text an earlier call left in it. -/
def printUsers (s : Server) (stack : Text) (clientFd : Int) : Option (Server × List Event) := do
  let names ← otherNames clientFd s.users
  let body ← fits (stack ++ names)
  some (s, [message clientFd .USRLIST body])

/-- USRBLNC. -/
def userBalance (s : Server) (clientFd : Int) : Option (Server × List Event) := do
  let user ← findUsername s clientFd
  some (s, [message clientFd .USRBLNC (sprintfD user.balance)])

def usersWinsInfo (auction : Auction) : Text :=
  sprintfD auction.id ++ [';'] ++ auction.name ++ [';'] ++ sprintfD auction.bid ++ ['\n']

/-- USRWINS. -/
def usersWins (s : Server) (clientFd : Int) : Option (Server × List Event) := do
  let user ← findUsername s clientFd
  report s clientFd .USRWINS usersWinsInfo user.auctionsWon

def usersSalesInfo (auction : Auction) : Text :=
  sprintfD auction.id ++ [';'] ++ auction.name ++ [';'] ++
    match auction.currentWinner with
    | some winner => winner.text ++ [';'] ++ sprintfD auction.bid ++ ['\n']
    | none => ['N', 'o', 'n', 'e', ';', 'N', 'o', 'n', 'e', '\n']

/-- USRSALES. -/
def usersSales (s : Server) (clientFd : Int) : Option (Server × List Event) := do
  let user ← findUsername s clientFd
  report s clientFd .USRSALES usersSalesInfo user.auctionsOwned

end ZBid
