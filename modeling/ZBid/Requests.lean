import ZBid.Lib.Fields
import ZBid.Effects

/-!
# Requests as they are written

The body of a LOGIN, an ANCREATE or an ANBID writes its fields between CR LFs, and its numbers in
decimal. The code takes the tokens of the body instead, and reads the numbers with `atoi`. This
file says for which bodies the two are the same, and which of the other bodies are refused.
-/
namespace ZBid

open CInt CString Runs

/-- A message with fields, its sender, and what a job for it finds in memory. A LOGIN is the first
message of a connection, the only one that the server parses. -/
inductive Incoming where
  | login (clientFd : Int) (body : List Char)
  | create (env : JobEnv) (clientFd : Int) (body : List Char)
  | bid (env : JobEnv) (clientFd : Int) (body : List Char)

inductive Request where
  | login (username password : Text)
  | create (itemName : Text) (duration price : Int)
  | bid (auctionId bid : Int)
  deriving DecidableEq

def Incoming.clientFd : Incoming → Int
  | .login clientFd _ | .create _ clientFd _ | .bid _ clientFd _ => clientFd

def Incoming.text : Incoming → Text
  | .login _ body | .create _ _ body | .bid _ _ body => cstr body

def Incoming.tokens (m : Incoming) : List Text := CString.tokens crOrLf m.text

/-- The step in which the server handles the message. -/
def Incoming.action : Incoming → Action
  | .login clientFd body => .accept clientFd MsgType.LOGIN.code body
  | .create env clientFd body => .job env ⟨body, MsgType.ANCREATE.code, clientFd⟩
  | .bid env clientFd body => .job env ⟨body, MsgType.ANBID.code, clientFd⟩

/-- A decimal number that fits an int. -/
def numeral (t : Text) : Option Int := (decimal? t).filter fun n => decide (InInt n)

/-- The request that the code hands to the handler, when no field of it is NULL. -/
def Incoming.passed (m : Incoming) : Option Request :=
  match m with
  | .login _ _ => do
    let (username, password) := loginArgs m.text
    some (.login (← username) (← password))
  | .create _ _ _ => (ancreateArgs m.text).map fun (itemName, duration, price) =>
    .create itemName duration price
  | .bid _ _ _ => (anbidArgs m.text).map fun (auctionId, amount) => .bid auctionId amount

/-- The rest of a round of the accept loop, after the two `strtok` calls. -/
def Server.welcome (s : Server) (clientFd : Int) (username password : CharStar) :
    Option (Server × List Event) := do
  let (s', out, result) ← login (s.opened clientFd) clientFd username password
  some (if result = -1 then { s' with openFds := s.openFds } else s', out)

/-- The handler's call for a request. -/
def Server.perform (s : Server) (m : Incoming) : Request → Option (Server × List Event)
  | .login username password =>
    s.welcome m.clientFd (some ⟨s.blocks, username⟩) (some ⟨s.blocks, password⟩)
  | .create itemName duration price =>
    match m with
    | .create env clientFd _ => createAuction s env.malloc clientFd itemName duration price
    | _ => none
  | .bid auctionId bid => bidAuction s m.clientFd auctionId bid

def MsgType.isError : MsgType → Bool
  | .EUSRLGDIN | .EWRNGPWD | .EANFULL | .EANNOTFOUND | .EANDENIED | .EBIDLOW | .EINVALIDARG
  | .ESERV => true
  | _ => false

/-- The right number of fields, every one of them plain, and numbers that fit an int. -/
def Incoming.WellFormed (m : Incoming) : Prop :=
  match m with
  | .login _ _ => ∃ u p, m.text = u ++ crlf ++ p ∧ Plain crOrLf u ∧ Plain crOrLf p
  | .create _ _ _ => ∃ n d p, m.text = n ++ crlf ++ (d ++ crlf ++ p) ∧ Plain crOrLf n ∧
      (numeral d).isSome ∧ (numeral p).isSome
  | .bid _ _ _ => ∃ a b, m.text = a ++ crlf ++ b ∧ (numeral a).isSome ∧ (numeral b).isSome

theorem loginArgs_tokens (t : Text) :
    loginArgs t = ((tokens crOrLf t).head?, (tokens crOrLf t).tail.head?) := by
  have h₁ := strtok_tokens crOrLf t
  have h₂ := strtok_tokens crOrLf (strtok crOrLf t).2
  simp only [loginArgs, h₁.1, h₂.1, h₁.2]

theorem ancreateArgs_eq_some {t n : Text} {i j : Int} : ancreateArgs t = some (n, i, j) ↔
    ∃ d p rest, tokens crOrLf t = n :: d :: p :: rest ∧ atoi d = i ∧ atoi p = j := by
  have h₁ := strtok_tokens crOrLf t
  have h₂ := strtok_tokens crOrLf (strtok crOrLf t).2
  have h₃ := strtok_tokens crOrLf (strtok crOrLf (strtok crOrLf t).2).2
  simp only [ancreateArgs, h₁.1, h₂.1, h₃.1, h₁.2, h₂.2]
  rcases tokens crOrLf t with _ | ⟨n', _ | ⟨d, _ | ⟨p, rest⟩⟩⟩
  · simp
  · simp
  · simp
  · simp [eq_comm, and_assoc]

theorem anbidArgs_eq_some {t : Text} {i j : Int} : anbidArgs t = some (i, j) ↔
    ∃ a b rest, tokens crOrLf t = a :: b :: rest ∧ atoi a = i ∧ atoi b = j := by
  have h₁ := strtok_tokens crOrLf t
  have h₂ := strtok_tokens crOrLf (strtok crOrLf t).2
  simp only [anbidArgs, h₁.1, h₂.1, h₁.2]
  rcases tokens crOrLf t with _ | ⟨a, _ | ⟨b, rest⟩⟩
  · simp
  · simp
  · simp

/-- A duration of 2^32 + 3 comes out as 3. -/
example : ancreateArgs (['V'] ++ crlf ++ sprintfD 4294967299 ++ crlf ++ ['5']) =
    some (['V'], 3, 5) := by decide

/-- The step of a message whose fields are all there is the handler's call on them. -/
theorem step_of_passed (s : Server) {m : Incoming} {r : Request} (h : m.passed = some r) :
    Server.step s m.action = s.perform m r := by
  cases m with
  | login fd body =>
    simp only [Incoming.passed, Incoming.text, Option.bind_eq_bind, Option.bind_eq_some_iff] at h
    obtain ⟨u, hu, p, hp, h⟩ := h
    obtain rfl := Option.some.inj h
    have hargs : loginArgs (cstr body) = (some u, some p) := Prod.ext hu hp
    simp only [Server.step, Incoming.action, acceptClient, hargs, Server.perform, Server.welcome,
      Incoming.clientFd, ↓reduceIte, Option.map_some, Option.bind_eq_bind]
    have hopened : { s with blocks := s.blocks + 1, openFds := fd :: s.openFds } = s.opened fd :=
      rfl
    cases hl : login (s.opened fd) fd (some ⟨s.blocks, u⟩) (some ⟨s.blocks, p⟩) with
    | none => simp [hopened, hl]
    | some x =>
      simp only [hopened, hl, Option.bind_some]
      split <;> rfl
  | create env fd body =>
    simp only [Incoming.passed, Incoming.text, Option.map_eq_some_iff] at h
    obtain ⟨⟨n, i, j⟩, hargs, rfl⟩ := h
    simp only [Server.step, Incoming.action, processJob, MsgType.ofCode_code, hargs]
    rfl
  | bid env fd body =>
    simp only [Incoming.passed, Incoming.text, Option.map_eq_some_iff] at h
    obtain ⟨⟨i, j⟩, hargs, rfl⟩ := h
    simp only [Server.step, Incoming.action, processJob, MsgType.ofCode_code, hargs]
    rfl

theorem tokens_two {a b : Text} (ha : Plain crOrLf a) (hb : Plain crOrLf b) :
    tokens crOrLf (a ++ crlf ++ b) = [a, b] := by
  rw [tokens_crlf, tokens_plain ha, tokens_plain hb]
  rfl

/-- The name scan goes through when every record has a name. -/
theorem scanByName_isSome (name : CharPtr) {us : List User} (h : ∀ u ∈ us, u.username ≠ none) :
    ∃ found, scanByName (some name) us = some found := by
  induction us with
  | nil => exact ⟨none, rfl⟩
  | cons u us ih =>
    obtain ⟨q, hq⟩ := Option.ne_none_iff_exists'.mp (h u List.mem_cons_self)
    obtain ⟨found, hfound⟩ := ih fun v hv => h v (List.mem_cons_of_mem _ hv)
    by_cases htext : name.text = q.text
    · exact ⟨some 0, by simp [scanByName, strcmpEq, hq, htext]⟩
    · exact ⟨found.map (· + 1), by simp [scanByName, strcmpEq, hq, htext, hfound]⟩

/-- A log without an error in it. -/
def NoError (out : List Event) : Prop := ∀ m, .sent m ∈ out → m.msgType.isError = false

theorem closeAuction_noError {s s' : Server} {a : Nat} {out : List Event}
    (h : closeAuction s a = some (s', out)) : NoError out := by
  obtain ⟨c⟩ := closeAuction_spec h
  intro m hm
  have hdebit : .sent m ∉ c.debit := by
    obtain ⟨-, -, hout⟩ | ⟨_, _, _, _, -, -, -, -, -, hout⟩ := debitWinner_spec c.debits <;>
      simp [hout]
  have hcredit : .sent m ∉ c.credit := by
    obtain ⟨_, _, -, -, -, hout⟩ := creditCreator_spec c.credits
    simp [hout]
  simp only [c.log, List.cons_append, List.mem_cons, List.mem_append, hdebit, hcredit,
    List.mem_map, message, reduceCtorEq, false_or, Event.sent.injEq] at hm
  obtain ⟨fd, -, rfl⟩ := hm
  rfl

/-- The error of an exit that turns the bid away. -/
def BidExit.refusal : BidExit → Option MsgType
  | .emptyList => some .EANNOTFOUND
  | .creator | .notWatching => some .EANDENIED
  | .low => some .EBIDLOW
  | .noMatch | .buyNow _ | .highest _ => none

theorem bidAuction_of_refusal {s : Server} {fd auctionId bid : Int} {user : User} {x : BidExit}
    {t : MsgType} (huser : findUsername s fd = some user)
    (hx : bidExit s user.username auctionId bid = some x) (ht : x.refusal = some t) :
    bidAuction s fd auctionId bid = some (s, [answer fd t]) := by
  simp only [bidAuction, huser, hx, Option.bind_eq_bind, Option.bind_some]
  cases x <;> simp_all [BidExit.refusal]

theorem bidAuction_noError {s s' : Server} {fd auctionId bid : Int} {user : User} {x : BidExit}
    {out : List Event} (huser : findUsername s fd = some user)
    (hx : bidExit s user.username auctionId bid = some x) (hr : x.refusal = none)
    (h : bidAuction s fd auctionId bid = some (s', out)) : NoError out := by
  simp only [bidAuction, huser, hx, Option.bind_eq_bind, Option.bind_some] at h
  cases x with
  | noMatch =>
    simp only [Option.some.injEq, Prod.mk.injEq] at h
    intro m hm
    simp [← h.2] at hm
  | buyNow a =>
    simp only [buyAuction, Option.bind_eq_bind, Option.bind_eq_some_iff, Option.some.injEq,
      Prod.mk.injEq] at h
    obtain ⟨s₁, -, ⟨s₂, out₂⟩, hclose, s₃, -, -, rfl⟩ := h
    intro m hm
    exact closeAuction_noError hclose m (by simpa using hm)
  | highest a =>
    simp only [raiseAuction, updateAuction, Option.bind_eq_bind, Option.bind_eq_some_iff,
      Option.some.injEq, Prod.mk.injEq] at h
    obtain ⟨s₁, -, auction, -, out₂, ⟨name, -, body, -, fds, -, rfl⟩, -, rfl⟩ := h
    intro m hm
    simp only [List.cons_append, List.mem_cons, List.mem_append, List.mem_map, message, answer,
      reduceCtorEq, false_or, Event.sent.injEq, List.not_mem_nil, or_false] at hm
    obtain ⟨fd', -, rfl⟩ | rfl := hm <;> rfl
  | _ => simp [BidExit.refusal] at hr

end ZBid
