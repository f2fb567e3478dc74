import ZBid.Lib.Runs
import ZBid.Helpers

/-!
# finalsample.c: the sequential server

One iteration of the accept loop, one call of `processJob` and one body of the tick loop are the
actions of the sequential server. What the C code takes from outside (the descriptor `accept`
returns, the message, the bytes `malloc` hands back, the text left on the stack) is part of the
action.
-/
namespace ZBid

open CInt CString Runs

def MsgType.all : List MsgType :=
  [.OK, .LOGIN, .LOGOUT, .EUSRLGDIN, .EWRNGPWD, .ANCREATE, .ANCLOSED, .ANLIST, .ANWATCH, .ANLEAVE,
    .ANBID, .ANUPDATE, .EANFULL, .EANNOTFOUND, .EANDENIED, .EBIDLOW, .EINVALIDARG, .USRLIST,
    .USRWINS, .USRSALES, .USRBLNC, .ESERV]

def MsgType.ofCode (code : Nat) : Option MsgType := MsgType.all.find? fun t => t.code == code

@[simp] theorem MsgType.ofCode_code (t : MsgType) : MsgType.ofCode t.code = some t := by
  cases t <;> rfl

theorem MsgType.code_of_ofCode {code : Nat} {t : MsgType} (h : MsgType.ofCode code = some t) :
    code = t.code := by
  rw [MsgType.ofCode] at h
  have hcode := List.find?_some h
  exact (beq_iff_eq.mp hcode).symm

/-- The two tokens of a LOGIN body. Either may be NULL. -/
def loginArgs (loginBuffer : Text) : Option Text × Option Text :=
  let (username, saved) := strtok crOrLf loginBuffer
  (username, (strtok crOrLf saved).1)

/-- The parsing of ANCREATE: `atoi` of NULL is undefined. -/
def ancreateArgs (messageBuffer : Text) : Option (Text × Int × Int) := do
  let (itemName, saved) := strtok crOrLf messageBuffer
  let (durationStr, saved) := strtok crOrLf saved
  let durationStr ← durationStr
  let (priceStr, _) := strtok crOrLf saved
  let priceStr ← priceStr
  let itemName ← itemName
  some (itemName, atoi durationStr, atoi priceStr)

/-- The parsing of ANBID. -/
def anbidArgs (messageBuffer : Text) : Option (Int × Int) := do
  let (auctionIdStr, saved) := strtok crOrLf messageBuffer
  let auctionIdStr ← auctionIdStr
  let (bidStr, _) := strtok crOrLf saved
  let bidStr ← bidStr
  some (atoi auctionIdStr, atoi bidStr)

/-- What a job finds in memory: the bytes of a fresh `auctions_t` and the text in `randBuffer`. -/
structure JobEnv where
  malloc : Auction
  stack : Text
  deriving DecidableEq, Repr

def processJob (s : Server) (env : JobEnv) (job : Job) : Option (Server × List Event) :=
  let messageBuffer := cstr job.jobBuffer
  match MsgType.ofCode job.jobMsgType with
  | some .LOGOUT => some (logout s job.clientfd)
  | some .ANCREATE => do
    let (itemName, duration, price) ← ancreateArgs messageBuffer
    createAuction s env.malloc job.clientfd itemName duration price
  | some .ANLIST => listAuctions s job.clientfd
  | some .ANWATCH => watchAuction s job.clientfd (atoi messageBuffer)
  | some .ANLEAVE => leaveAuction s job.clientfd (atoi messageBuffer)
  | some .ANBID => do
    let (auctionId, bid) ← anbidArgs messageBuffer
    bidAuction s job.clientfd auctionId bid
  | some .USRLIST => printUsers s env.stack job.clientfd
  | some .USRWINS => usersWins s job.clientfd
  | some .USRSALES => usersSales s job.clientfd
  | some .USRBLNC => userBalance s job.clientfd
  | _ => some (s, [])

/-- The tick thread's unlocked step on one auction: its duration drops by one. -/
def ageAuction (s : Server) (a : Nat) : Option (Server × Int) := do
  let currentAuction ← s.auctions[a]?
  let duration := wrap32 (currentAuction.duration - 1)
  some (s.setAuction a { currentAuction with duration := duration }, duration)

/-- The section of `run_tick` under `auctionsMutex`. -/
def expireAuction (s : Server) (a : Nat) : Option (Server × List Event) := do
  let (s₁, out) ← closeAuction s a
  let s₂ ← unlinkAuction s₁ a
  some (s₂, out)

/-- The walk of `run_tick` along the list. The first auction that reaches 0 ends it. -/
def tickLoop : List Nat → Server → Option (Server × List Event)
  | [], s => some (s, [])
  | a :: rest, s => do
    let (s', duration) ← ageAuction s a
    if duration = 0 then expireAuction s' a else tickLoop rest s'

/-- One tick: the body of `run_tick`'s loop, in either mode. -/
def tickBody (s : Server) : Option (Server × List Event) :=
  tickLoop s.auctionsList.nodes { s with tick := wrap32 (s.tick + 1) }

/-- One round of `run_server`, from the descriptor that `accept` returned and the first message
read from it. The last component tells whether a client thread was started. -/
def acceptClient (s : Server) (clientFd : Int) (msgType : Nat) (body : List Char) :
    Option (Server × List Event × Bool) :=
  let opened := { s with openFds := clientFd :: s.openFds }
  if msgType = MsgType.LOGIN.code then do
    let (username, password) := loginArgs (cstr body)
    let block := s.blocks
    let (s', out, result) ← login { opened with blocks := block + 1 } clientFd
      (username.map (CharPtr.mk block)) (password.map (CharPtr.mk block))
    if result = -1 then some ({ s' with openFds := s.openFds }, out, false)
    else some (s', out, true)
  else some (opened, [], true)

inductive Action where
  | accept (clientFd : Int) (msgType : Nat) (body : List Char)
  | job (env : JobEnv) (job : Job)
  | tick
  deriving DecidableEq, Repr

/-- One step of the sequential server. -/
def Server.step : Step Server Action Event := fun s action =>
  match action with
  | .accept clientFd msgType body =>
    (acceptClient s clientFd msgType body).map fun (s', out, _) => (s', out)
  | .job env job => processJob s env job
  | .tick => tickBody s

/-- `accept` returns a descriptor that is not open in the process. -/
def FreshFd (s : Server) (fd : Int) : Prop := 0 ≤ fd ∧ fd ≤ intMax ∧ fd ∉ s.openFds

instance (s : Server) (fd : Int) : Decidable (FreshFd s fd) :=
  inferInstanceAs (Decidable (_ ∧ _ ∧ _))

/-- The descriptor is recorded in a user. -/
def Recorded (s : Server) (fd : Int) : Prop := ∃ u ∈ s.users, u.fd = fd

instance (s : Server) (fd : Int) : Decidable (Recorded s fd) :=
  inferInstanceAs (Decidable (∃ u ∈ s.users, _))

/-- The descriptor is recorded in a user who is logged in. -/
def LoggedIn (s : Server) (fd : Int) : Prop := ∃ u ∈ s.users, u.fd = fd ∧ u.loginFlag = true

instance (s : Server) (fd : Int) : Decidable (LoggedIn s fd) :=
  inferInstanceAs (Decidable (∃ u ∈ s.users, _ ∧ _))

/-- The steps of a sequential run; `fromClient` is what is known of the descriptor of a job. -/
def Server.Admits (fromClient : Server → Int → Prop) (s : Server) : Action → Prop
  | .accept clientFd _ _ => FreshFd s clientFd
  | .job _ job => fromClient s job.clientfd
  | .tick => True

instance (fromClient : Server → Int → Prop) [∀ s fd, Decidable (fromClient s fd)] (s : Server) :
    ∀ action, Decidable (s.Admits fromClient action)
  | .accept clientFd _ _ => inferInstanceAs (Decidable (FreshFd s clientFd))
  | .job _ job => inferInstanceAs (Decidable (fromClient s job.clientfd))
  | .tick => inferInstanceAs (Decidable True)

end ZBid
