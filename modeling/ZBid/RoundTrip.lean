import ZBid.Lib.Decimal
import ZBid.Requests

/-!
# Requests read back

How a client writes the requests that carry data, and that the server takes each of them for what
it is: the tokens of `strtok` and the numbers of `atoi` are the fields that were written.
-/
namespace ZBid

open CInt CString

/-- A request with data; its fields are what the handler of its type is called with. -/
inductive Command where
  | login (username password : Text)
  | create (itemName : Text) (duration price : Int)
  | watch (auctionId : Int)
  | leave (auctionId : Int)
  | bid (auctionId amount : Int)
  deriving DecidableEq, Repr

def Command.msgType : Command → MsgType
  | .login _ _ => .LOGIN
  | .create _ _ _ => .ANCREATE
  | .watch _ => .ANWATCH
  | .leave _ => .ANLEAVE
  | .bid _ _ => .ANBID

/-- The body of the message, as a client writes it. -/
def Command.body : Command → Text
  | .login username password => username ++ crlf ++ password
  | .create itemName duration price =>
    itemName ++ crlf ++ (sprintfD duration ++ crlf ++ sprintfD price)
  | .watch auctionId | .leave auctionId => sprintfD auctionId
  | .bid auctionId amount => sprintfD auctionId ++ crlf ++ sprintfD amount

/-- Names are not empty and have no CR and no LF; numbers are ints. -/
def Command.WellFormed : Command → Prop
  | .login username password => Plain crOrLf username ∧ Plain crOrLf password
  | .create itemName duration price => Plain crOrLf itemName ∧ InInt duration ∧ InInt price
  | .watch auctionId | .leave auctionId => InInt auctionId
  | .bid auctionId amount => InInt auctionId ∧ InInt amount

/-- What the server reads from the text of a message, if no field of it is NULL. -/
def parse (t : MsgType) (text : Text) : Option Command :=
  match t with
  | .LOGIN => do
    let (username, password) := loginArgs text
    some (.login (← username) (← password))
  | .ANCREATE => (ancreateArgs text).map fun (itemName, duration, price) =>
    .create itemName duration price
  | .ANWATCH => some (.watch (atoi text))
  | .ANLEAVE => some (.leave (atoi text))
  | .ANBID => (anbidArgs text).map fun (auctionId, amount) => .bid auctionId amount
  | _ => none

/-- The step in which the server handles a message: a round of the accept loop for a LOGIN, a job
for any other. -/
def messageAction (t : MsgType) (env : JobEnv) (clientFd : Int) (body : List Char) : Action :=
  if t = .LOGIN then .accept clientFd t.code body else .job env ⟨body, t.code, clientFd⟩

/-- The call of the handler, with the fields as its arguments. -/
def Command.call (s : Server) (env : JobEnv) (clientFd : Int) :
    Command → Option (Server × List Event)
  | .login username password =>
    s.welcome clientFd (some ⟨s.blocks, username⟩) (some ⟨s.blocks, password⟩)
  | .create itemName duration price =>
    createAuction s env.malloc clientFd itemName duration price
  | .watch auctionId => watchAuction s clientFd auctionId
  | .leave auctionId => leaveAuction s clientFd auctionId
  | .bid auctionId amount => bidAuction s clientFd auctionId amount

/-- The step of a message is the call of the handler with what is read from it. -/
theorem step_of_parse (s : Server) (env : JobEnv) (clientFd : Int) {t : MsgType}
    {body : List Char} {c : Command} (h : parse t (cstr body) = some c) :
    Server.step s (messageAction t env clientFd body) = c.call s env clientFd := by
  cases t with
  | LOGIN =>
    simp only [parse, Option.bind_eq_bind, Option.bind_eq_some_iff] at h
    obtain ⟨u, hu, p, hp, h⟩ := h
    obtain rfl := Option.some.inj h
    have hpassed : (Incoming.login clientFd body).passed = some (.login u p) := by
      simp [Incoming.passed, Incoming.text, hu, hp]
    exact step_of_passed s hpassed
  | ANCREATE =>
    simp only [parse, Option.map_eq_some_iff] at h
    obtain ⟨⟨n, d, p⟩, hargs, rfl⟩ := h
    have hpassed : (Incoming.create env clientFd body).passed = some (.create n d p) := by
      simp [Incoming.passed, Incoming.text, hargs]
    exact step_of_passed s hpassed
  | ANBID =>
    simp only [parse, Option.map_eq_some_iff] at h
    obtain ⟨⟨i, b⟩, hargs, rfl⟩ := h
    have hpassed : (Incoming.bid env clientFd body).passed = some (.bid i b) := by
      simp [Incoming.passed, Incoming.text, hargs]
    exact step_of_passed s hpassed
  | ANWATCH =>
    obtain rfl := Option.some.inj h
    rfl
  | ANLEAVE =>
    obtain rfl := Option.some.inj h
    rfl
  | _ => cases h

/-- A printed int is one token, and `atoi` gives it back. -/
theorem sprintfD_field {n : Int} (h : InInt n) :
    Plain crOrLf (sprintfD n) ∧ atoi (sprintfD n) = n :=
  ⟨plain_of_decimal (decimal?_sprintfD n), atoi_sprintfD h⟩

/-- What a client has written is what the server reads. -/
theorem parse_body {c : Command} (hc : c.WellFormed) : parse c.msgType c.body = some c := by
  cases c with
  | login username password =>
    obtain ⟨hu, hp⟩ := hc
    simp only [Command.msgType, Command.body, parse, loginArgs_tokens, tokens_two hu hp]
    rfl
  | create itemName duration price =>
    obtain ⟨hn, hd, hp⟩ := hc
    obtain ⟨hdp, hdi⟩ := sprintfD_field hd
    obtain ⟨hpp, hpi⟩ := sprintfD_field hp
    have htokens : tokens crOrLf (Command.create itemName duration price).body =
        [itemName, sprintfD duration, sprintfD price] := by
      rw [Command.body, tokens_crlf, tokens_plain hn, tokens_two hdp hpp]
      rfl
    have hargs := ancreateArgs_eq_some.mpr ⟨_, _, [], htokens, hdi, hpi⟩
    simp only [Command.msgType, parse, hargs]
    rfl
  | watch auctionId => simp only [Command.msgType, Command.body, parse, atoi_sprintfD hc]
  | leave auctionId => simp only [Command.msgType, Command.body, parse, atoi_sprintfD hc]
  | bid auctionId amount =>
    obtain ⟨hi, hb⟩ := hc
    obtain ⟨hip, hii⟩ := sprintfD_field hi
    obtain ⟨hbp, hbi⟩ := sprintfD_field hb
    have hargs := anbidArgs_eq_some.mpr ⟨_, _, [], tokens_two hip hbp, hii, hbi⟩
    simp only [Command.msgType, Command.body, parse, hargs]
    rfl

/-- A message whose text is a request, up to the first NUL of its body, makes the server call the
handler with the fields of that request and no others. -/
theorem request_parses (s : Server) (env : JobEnv) (clientFd : Int) {c : Command}
    (hc : c.WellFormed) {body : List Char} (hbody : cstr body = c.body) :
    parse c.msgType (cstr body) = some c ∧
      Server.step s (messageAction c.msgType env clientFd body) = c.call s env clientFd := by
  have hparse : parse c.msgType (cstr body) = some c := hbody ▸ parse_body hc
  exact ⟨hparse, step_of_parse s env clientFd hparse⟩

/-- A body of more bytes than its text: a bid of INT_MIN on auction INT_MAX. -/
theorem request_parses_sample :
    let env : JobEnv := ⟨⟨0, [], 0, 0, 0, 0, none, none, createList, 0⟩, []⟩
    let body := sprintfD intMax ++ crlf ++ sprintfD intMin ++ ['\x00', '9']
    parse .ANBID (cstr body) = some (.bid intMax intMin) ∧
      Server.step Server.start (.job env ⟨body, MsgType.ANBID.code, 4⟩) =
        bidAuction Server.start 4 intMax intMin :=
  request_parses Server.start _ 4 (c := .bid intMax intMin) ⟨by decide, by decide⟩ (by decide)

end ZBid
