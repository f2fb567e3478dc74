import ZBid.Parties
import ZBid.Requests

/-!
# Errors

Every handler makes its checks before it changes anything. A step that sends an error sends
nothing else, and it leaves the users, the auctions, their lists and the counter of ids as they
were.
-/
namespace ZBid

open CInt CString Runs

/-- The descriptor whose message a step handles. -/
def Action.clientFd : Action → Option Int
  | .accept clientFd _ _ => some clientFd
  | .job _ ⟨_, _, clientfd⟩ => some clientfd
  | .tick => none

/-- The same users, the same auctions, and the same lists and counters. A user's lists are in his
record, an auction's watchers in its own. -/
structure SameData (s s' : Server) : Prop where
  users : s'.usersList = s.usersList
  list : s'.auctionsList = s.auctionsList
  auctions : s'.auctions = s.auctions
  counter : s'.auctionID = s.auctionID
  ticks : s'.tick = s.tick

theorem SameData.refl (s : Server) : SameData s s := ⟨rfl, rfl, rfl, rfl, rfl⟩

/-- Either no error is sent, or a single one, to `fd`, and nothing has changed. -/
inductive Verdict (s : Server) (fd : Int) (s' : Server) (out : List Event) : Prop where
  | served : NoError out → Verdict s fd s' out
  | refused (t : MsgType) : out = [answer fd t] → SameData s s' → Verdict s fd s' out

/-- The types of the messages that answer a request which is granted. -/
def MsgType.isReply : MsgType → Bool
  | .OK | .ANCREATE | .ANLIST | .ANWATCH | .USRLIST | .USRWINS | .USRSALES | .USRBLNC => true
  | _ => false

/-- What a job that is no bid sends: nothing, or one reply, or one error after which nothing has
changed. -/
inductive Replied (s : Server) (fd : Int) (s' : Server) (out : List Event) : Prop where
  | silent : out = [] → Replied s fd s' out
  | served (m : Msg) : m.msgType.isReply = true → out = [.sent m] → Replied s fd s' out
  | refused (t : MsgType) : t.isError = true → out = [answer fd t] → SameData s s' →
      Replied s fd s' out

theorem replied_refused (s : Server) (fd : Int) {t : MsgType} (ht : t.isError = true) :
    Replied s fd s [answer fd t] := .refused t ht rfl (.refl s)

theorem report_replied {s s' : Server} {fd : Int} {t : MsgType} {info : Auction → Text}
    {list : LinkedList Nat} {out : List Event} (ht : t.isReply = true)
    (h : report s fd t info list = some (s', out)) : Replied s fd s' out := by
  simp only [report] at h
  split at h
  · simp only [Option.some.injEq, Prod.mk.injEq] at h
    exact .served _ ht h.2.symm
  · simp only [Option.bind_eq_bind, Option.bind_eq_some_iff, Option.some.injEq,
      Prod.mk.injEq] at h
    obtain ⟨lines, -, body, -, -, rfl⟩ := h
    exact .served _ ht rfl

theorem createAuction_replied {s s' : Server} {malloc : Auction} {fd : Int} {name : Text}
    {duration price : Int} {out : List Event}
    (h : createAuction s malloc fd name duration price = some (s', out)) :
    Replied s fd s' out := by
  have hrefused : some (s, [answer fd .EINVALIDARG]) = some (s', out) → Replied s fd s' out := by
    intro h
    obtain ⟨rfl, rfl⟩ := Prod.mk.inj (Option.some.inj h)
    exact replied_refused s fd rfl
  simp only [createAuction] at h
  split at h
  · exact hrefused h
  · split at h
    · exact hrefused h
    · split at h
      · exact hrefused h
      · simp only [Option.bind_eq_bind, Option.bind_eq_some_iff, Option.some.injEq,
          Prod.mk.injEq] at h
        obtain ⟨newId, -, owners, -, auctions, -, body, -, -, rfl⟩ := h
        exact .served _ rfl rfl

theorem watchAuction_replied {s s' : Server} {fd auctionId : Int} {out : List Event}
    (h : watchAuction s fd auctionId = some (s', out)) : Replied s fd s' out := by
  simp only [watchAuction, Option.bind_eq_bind, Option.bind_eq_some_iff] at h
  obtain ⟨found, -, h⟩ := h
  cases found with
  | none =>
    simp only [Option.some.injEq, Prod.mk.injEq] at h
    obtain ⟨rfl, rfl⟩ := h
    exact replied_refused s fd rfl
  | some a =>
    simp only [Option.bind_eq_some_iff, Option.some.injEq, Prod.mk.injEq] at h
    obtain ⟨x, -, user, -, watchers, -, body, -, -, rfl⟩ := h
    exact .served _ rfl rfl

theorem leaveAuction_replied {s s' : Server} {fd auctionId : Int} {out : List Event}
    (h : leaveAuction s fd auctionId = some (s', out)) : Replied s fd s' out := by
  simp only [leaveAuction, Option.bind_eq_bind, Option.bind_eq_some_iff] at h
  obtain ⟨user, -, found, -, h⟩ := h
  cases found with
  | none =>
    simp only [Option.some.injEq, Prod.mk.injEq] at h
    obtain ⟨rfl, rfl⟩ := h
    exact replied_refused s fd rfl
  | some a =>
    simp only [Option.bind_eq_some_iff, Option.some.injEq, Prod.mk.injEq] at h
    obtain ⟨x, -, index, -, removed, -, -, rfl⟩ := h
    exact .served _ rfl rfl

theorem logout_replied {s s' : Server} {fd : Int} {out : List Event}
    (h : logout s fd = (s', out)) : Replied s fd s' out := by
  rcases logout_spec s fd with ⟨hl, -⟩ | ⟨i, u, -, -, hl⟩
  · exact .silent (Prod.mk.inj (hl.symm.trans h)).2.symm
  · exact .served _ rfl (Prod.mk.inj (hl.symm.trans h)).2.symm

theorem processJob_replied {s s' : Server} {env : JobEnv} {job : Job} {out : List Event}
    (htype : MsgType.ofCode job.jobMsgType ≠ some .ANBID)
    (h : processJob s env job = some (s', out)) : Replied s job.clientfd s' out := by
  simp only [processJob] at h
  split at h
  · exact logout_replied (Option.some.inj h)
  · simp only [Option.bind_eq_bind, Option.bind_eq_some_iff] at h
    obtain ⟨args, -, h⟩ := h
    exact createAuction_replied h
  · exact report_replied rfl h
  · exact watchAuction_replied h
  · exact leaveAuction_replied h
  · rename_i hbid
    exact absurd hbid htype
  · simp only [printUsers, Option.bind_eq_bind, Option.bind_eq_some_iff, Option.some.injEq,
      Prod.mk.injEq] at h
    obtain ⟨names, -, body, -, -, rfl⟩ := h
    exact .served _ rfl rfl
  · simp only [usersWins, Option.bind_eq_bind, Option.bind_eq_some_iff] at h
    obtain ⟨user, -, h⟩ := h
    exact report_replied rfl h
  · simp only [usersSales, Option.bind_eq_bind, Option.bind_eq_some_iff] at h
    obtain ⟨user, -, h⟩ := h
    exact report_replied rfl h
  · simp only [userBalance, Option.bind_eq_bind, Option.bind_eq_some_iff, Option.some.injEq,
      Prod.mk.injEq] at h
    obtain ⟨user, -, -, rfl⟩ := h
    exact .served _ rfl rfl
  · simp only [Option.some.injEq, Prod.mk.injEq] at h
    exact .silent h.2.symm

theorem noError_nil : NoError [] := by simp [NoError]

theorem noError_sent {m : Msg} (h : m.msgType.isError = false) : NoError [.sent m] := by
  intro m' hm
  obtain rfl : m' = m := by simpa using hm
  exact h

theorem Replied.verdict {s s' : Server} {fd : Int} {out : List Event}
    (h : Replied s fd s' out) : Verdict s fd s' out := by
  have herr : ∀ t : MsgType, t.isReply = true → t.isError = false := by
    intro t
    cases t <;> simp [MsgType.isReply, MsgType.isError]
  cases h with
  | silent hout => exact .served (hout ▸ noError_nil)
  | served m hm hout => exact .served (hout ▸ noError_sent (herr _ hm))
  | refused t _ hout hsame => exact .refused t hout hsame

theorem bidAuction_verdict {s s' : Server} {fd auctionId bid : Int} {out : List Event}
    (h : bidAuction s fd auctionId bid = some (s', out)) : Verdict s fd s' out := by
  have hparts := h
  simp only [bidAuction, Option.bind_eq_bind, Option.bind_eq_some_iff] at hparts
  obtain ⟨user, huser, x, hx, -⟩ := hparts
  cases hr : x.refusal with
  | none => exact .served (bidAuction_noError huser hx hr h)
  | some t =>
    rw [bidAuction_of_refusal huser hx hr, Option.some.injEq, Prod.mk.injEq] at h
    obtain ⟨rfl, rfl⟩ := h
    exact .refused t rfl (.refl s)

theorem processJob_verdict {s s' : Server} {env : JobEnv} {job : Job} {out : List Event}
    (h : processJob s env job = some (s', out)) : Verdict s job.clientfd s' out := by
  by_cases htype : MsgType.ofCode job.jobMsgType = some .ANBID
  · simp only [processJob, htype, Option.bind_eq_bind, Option.bind_eq_some_iff] at h
    obtain ⟨args, -, h⟩ := h
    exact bidAuction_verdict h
  · exact (processJob_replied htype h).verdict

/-- The accept loop changes the supply of buffers and descriptors in any case. -/
theorem accept_verdict {s s' : Server} {fd : Int} {msgType : Nat} {body : List Char}
    {out : List Event} {started : Bool} (h : AcceptOutcome s fd msgType body s' out started) :
    Verdict s fd s' out := by
  cases h with
  | noLogin => exact .served noError_nil
  | already => exact .refused .EUSRLGDIN rfl ⟨rfl, rfl, rfl, rfl, rfl⟩
  | again => exact .served (noError_sent rfl)
  | wrong => exact .refused .EWRNGPWD rfl ⟨rfl, rfl, rfl, rfl, rfl⟩
  | created => exact .served (noError_sent rfl)

theorem expireAuction_noError {s s' : Server} {a : Nat} {out : List Event}
    (h : expireAuction s a = some (s', out)) : NoError out := by
  simp only [expireAuction, Option.bind_eq_bind, Option.bind_eq_some_iff, Option.some.injEq,
    Prod.mk.injEq] at h
  obtain ⟨⟨s₁, out₁⟩, hclose, s₂, -, -, rfl⟩ := h
  exact closeAuction_noError hclose

theorem tickLoop_noError {nodes : List Nat} {s s' : Server} {out : List Event}
    (h : tickLoop nodes s = some (s', out)) : NoError out := by
  induction nodes generalizing s with
  | nil =>
    simp only [tickLoop, Option.some.injEq, Prod.mk.injEq] at h
    exact h.2 ▸ noError_nil
  | cons a rest ih =>
    simp only [tickLoop, Option.bind_eq_bind, Option.bind_eq_some_iff] at h
    obtain ⟨⟨s₁, d⟩, -, h⟩ := h
    split at h
    · exact expireAuction_noError h
    · exact ih h

/-- Errors are atomic: whatever the state, a step that sends an error answers with it the message
that it handles, sends nothing else, and changes no user, no auction and no list. -/
theorem errorLaw_step {s s' : Server} {action : Action} {out : List Event} {m : Msg}
    (h : Server.step s action = some (s', out)) (hm : .sent m ∈ out)
    (herr : m.msgType.isError = true) :
    action.clientFd = some m.fd ∧ out = [.sent m] ∧ SameData s s' := by
  have hrefused : ∀ fd, action.clientFd = some fd → Verdict s fd s' out →
      action.clientFd = some m.fd ∧ out = [.sent m] ∧ SameData s s' := by
    intro fd hfd hverdict
    cases hverdict with
    | served hno => simp [hno m hm] at herr
    | refused t hout hsame =>
      obtain rfl : m = ⟨fd, t, 0, []⟩ := by simpa [hout, answer] using hm
      exact ⟨hfd, hout, hsame⟩
  cases action with
  | accept fd msgType body =>
    obtain ⟨_, hacc⟩ := step_accept h
    exact hrefused fd rfl (accept_verdict hacc)
  | job env job => exact hrefused job.clientfd rfl (processJob_verdict h)
  | tick =>
    have hno := tickLoop_noError h m hm
    simp [hno] at herr

/-- User A is logged in, and somebody else tries A's name and password. -/
theorem errorLaw_step_sample :
    let s := ((exec Server.step (Server.Admits LoggedIn) Server.start sampleLogins).get
      (by decide)).1
    SameData s (s.opened 6) := by
  intro s
  have h : Server.step s (.accept 6 MsgType.LOGIN.code ['A', '\r', '\n', 'x']) =
      some (s.opened 6, [answer 6 .EUSRLGDIN]) := by decide
  exact (errorLaw_step h (List.mem_singleton_self _) rfl).2.2

end ZBid
