import ZBid.MiniClient
import ZBid.RoundTrip

/-!
# From the keyboard to the handlers

A user types requests into miniclient.py. What he means by a line is a call of a handler, and the
server makes that call, with what he typed for its arguments.
-/
namespace ZBid

open CInt CString Runs Framing

/-- What a user asks for: a request that is only its type, or one with data. -/
inductive Ask where
  | bare (t : MsgType)
  | carrying (command : Command)
  deriving DecidableEq, Repr

def Ask.msgType : Ask → MsgType
  | .bare t => t
  | .carrying command => command.msgType

def Ask.body : Ask → Option Text
  | .bare _ => none
  | .carrying command => some command.body

/-- How the client calls a message type. -/
def commandOf (code : Nat) : Text :=
  ((clientProtocol.find? fun p => p.2 = code).map Prod.fst).getD []

/-- The line that the user types. -/
def Ask.line (ask : Ask) : Text := commandLine (commandOf ask.msgType.code) ask.body

/-- The call that the user means. -/
def Ask.call (s : Server) (env : JobEnv) (clientFd : Int) : Ask → Option (Server × List Event)
  | .bare .LOGOUT => some (logout s clientFd)
  | .bare .ANLIST => listAuctions s clientFd
  | .bare .USRLIST => printUsers s env.stack clientFd
  | .bare .USRWINS => usersWins s clientFd
  | .bare .USRSALES => usersSales s clientFd
  | .bare .USRBLNC => userBalance s clientFd
  | .bare _ => none
  | .carrying command => command.call s env clientFd

/-- Names and numbers are as the server takes them, and can be typed; the body has room. -/
def Ask.Legible : Ask → Prop
  | .bare t => t ∈ [MsgType.LOGOUT, .ANLIST, .USRLIST, .USRWINS, .USRSALES, .USRBLNC]
  | .carrying command => command.WellFormed ∧ Typable command.body ∧
    '\x00' ∉ command.body ∧ command.body.length + 1 < 0x100000000

/-- A request of a client thread; the LOGIN goes to the accept loop. -/
def Ask.ToThread (ask : Ask) : Prop := ask.Legible ∧ ask.msgType ≠ .LOGIN

instance : (command : Command) → Decidable command.WellFormed
  | .login u p => inferInstanceAs (Decidable (Plain crOrLf u ∧ Plain crOrLf p))
  | .create n d p => inferInstanceAs (Decidable (Plain crOrLf n ∧ InInt d ∧ InInt p))
  | .watch a | .leave a => inferInstanceAs (Decidable (InInt a))
  | .bid a amount => inferInstanceAs (Decidable (InInt a ∧ InInt amount))

instance : (ask : Ask) → Decidable ask.Legible
  | .bare t => inferInstanceAs (Decidable (t ∈ [MsgType.LOGOUT, _, _, _, _, _]))
  | .carrying command => inferInstanceAs (Decidable (command.WellFormed ∧ Typable command.body ∧
    '\x00' ∉ command.body ∧ command.body.length + 1 < 0x100000000))

instance (ask : Ask) : Decidable ask.ToThread :=
  inferInstanceAs (Decidable (ask.Legible ∧ ask.msgType ≠ .LOGIN))

/-- The message is what the client sends for the request. -/
def Ask.Writes (ask : Ask) (message : Frame petrHeader) : Prop :=
  message.kind = ask.msgType.code ∧ message.body = messageBytes ask.body

/-- Nothing behind a LOGOUT is sent. -/
def untilLogout : List Ask → List Ask
  | [] => []
  | ask :: asks => if ask.msgType = .LOGOUT then [ask] else ask :: untilLogout asks

/-- Processing the job is the call that the user meant, whenever it happens. -/
def Executes (clientFd : Int) (ask : Ask) (job : Job) : Prop :=
  job.clientfd = clientFd ∧ ∀ s env, processJob s env job = ask.call s env clientFd

theorem MsgType.code_inj {t t' : MsgType} (h : t.code = t'.code) : t = t' := by
  have heq := congrArg MsgType.ofCode h
  simpa using heq

theorem cstr_plain {t : Text} (h : '\x00' ∉ t) : cstr t = t := by
  rw [cstr, List.takeWhile_eq_self_iff]
  intro c hc
  simpa using fun heq : c = '\x00' => h (heq ▸ hc)

/-- The text of a body that has been sent with a NUL. -/
theorem cstr_carried {message : Frame petrHeader} {body : Text} {clientFd : Int} {job : Job}
    (hbytes : message.body = body ++ ['\x00']) (hnul : '\x00' ∉ body)
    (hcarries : Carries clientFd message job) : cstr job.jobBuffer = body := by
  obtain ⟨-, -, hbuffer | hbuffer⟩ := hcarries
  · rw [← hbuffer, hbytes]
    exact cstr_append_nul (fun b hb heq => hnul (heq ▸ hb)) []
  · have hsame : body = job.jobBuffer := List.append_cancel_right (hbytes.symm.trans hbuffer)
    rw [← hsame, cstr_plain hnul]

/-- The job of a message is the call that its line means. -/
theorem executes_of_carries {clientFd : Int} {ask : Ask} {message : Frame petrHeader} {job : Job}
    (hask : ask.ToThread) (hwrites : ask.Writes message) (hcarries : Carries clientFd message job) :
    Executes clientFd ask job := by
  obtain ⟨hlegible, hlogin⟩ := hask
  obtain ⟨hkind, hbytes⟩ := hwrites
  obtain ⟨htype, hfd, -⟩ := id hcarries
  refine ⟨hfd, fun s env => ?_⟩
  rw [hkind] at htype
  cases ask with
  | bare t =>
    have hcode : MsgType.ofCode job.jobMsgType = some t := by
      rw [htype]
      exact MsgType.ofCode_code t
    simp only [Ask.Legible, List.mem_cons, List.not_mem_nil, or_false] at hlegible
    rcases hlegible with rfl | rfl | rfl | rfl | rfl | rfl <;>
      simp only [processJob, hcode, hfd, Ask.call]
  | carrying command =>
    obtain ⟨hformed, -, hnul, -⟩ := hlegible
    have hparse : parse command.msgType (cstr job.jobBuffer) = some command := by
      rw [cstr_carried hbytes hnul hcarries]
      exact parse_body hformed
    have hstep := step_of_parse s env clientFd hparse
    have hjob : command.msgType ≠ .LOGIN := hlogin
    rw [messageAction, if_neg hjob] at hstep
    obtain ⟨jobBuffer, jobMsgType, clientfd⟩ := job
    dsimp only [Ask.msgType] at htype hfd
    subst htype hfd
    exact hstep

theorem commandOf_mem {ask : Ask} (h : ask.Legible) :
    (commandOf ask.msgType.code, ask.msgType.code) ∈ clientProtocol := by
  have hall : ∀ t ∈ [MsgType.LOGOUT, .ANLIST, .USRLIST, .USRWINS, .USRSALES, .USRBLNC, .LOGIN,
      .ANCREATE, .ANWATCH, .ANLEAVE, .ANBID], (commandOf t.code, t.code) ∈ clientProtocol := by
    decide
  refine hall _ ?_
  cases ask with
  | bare t => exact List.mem_append_left [_, _, _, _, _] h
  | carrying command => cases command <;> simp [Ask.msgType, Command.msgType]

theorem typable_body {ask : Ask} (h : ask.Legible) : ∀ text ∈ ask.body, Typable text := by
  cases ask with
  | bare t => simp [Ask.body]
  | carrying command => simpa [Ask.body] using h.2.1

/-- Each legible request has its message. -/
theorem exists_writes {ask : Ask} (h : ask.Legible) : ∃ message, ask.Writes message := by
  have hfits : ask.msgType.code < 0x100 ∧ (messageBytes ask.body).length < 0x100000000 := by
    refine ⟨ask.msgType.code_lt, ?_⟩
    cases ask with
    | bare t => simp [Ask.body, messageBytes]
    | carrying command => simpa [Ask.body, messageBytes] using h.2.2.2
  exact ⟨⟨_, _, hfits⟩, rfl, rfl⟩

/-- The client sends the messages of the requests, up to a LOGOUT. -/
theorem clientLoop_asks {asks : List Ask} (h : ∀ ask ∈ asks, ask.Legible) :
    List.Forall₂ Ask.Writes (untilLogout asks) (clientLoop (asks.map Ask.line)) := by
  induction asks with
  | nil => exact .nil
  | cons ask asks ih =>
    have hask := h ask List.mem_cons_self
    have hrest := ih fun a ha => h a (List.mem_cons_of_mem _ ha)
    obtain ⟨message, hkind, hbytes⟩ := exists_writes hask
    have hcmd := commandOf_mem hask
    rw [List.map_cons, Ask.line, untilLogout]
    rw [← hkind] at hcmd ⊢
    rw [clientLoop_line hcmd hbytes (typable_body hask), hkind]
    by_cases hlogout : ask.msgType = .LOGOUT
    · rw [if_pos hlogout, if_pos (congrArg MsgType.code hlogout)]
      exact .cons ⟨hkind, hbytes⟩ .nil
    · rw [if_neg hlogout, if_neg fun heq => hlogout (MsgType.code_inj heq)]
      exact .cons ⟨hkind, hbytes⟩ hrest

/-- The standard input of a client that signs in and then asks. -/
def typedInput (username password : Text) (asks : List Ask) : Text :=
  ((Ask.carrying (.login username password)).line :: asks.map Ask.line).flatten

theorem line_plain {ask : Ask} (h : ask.Legible) :
    ∃ w : Text, ask.line = w ++ ['\n'] ∧ '\n' ∉ w := by
  obtain ⟨-, hcapital, -⟩ := clientProtocol_spec _ (commandOf_mem h)
  exact plain_line (List.all_eq_true.mp hcapital) ask.body

/-- The first message signs the user in, and the others are those of his requests. -/
theorem miniclient_typed {username password : Text} {asks : List Ask}
    (hlogin : (Ask.carrying (.login username password)).Legible)
    (hasks : ∀ ask ∈ asks, ask.Legible) {first : Frame petrHeader}
    {rest : List (Frame petrHeader)}
    (hsent : miniclient (typedInput username password asks) = first :: rest) :
    (Ask.carrying (.login username password)).Writes first ∧
      List.Forall₂ Ask.Writes (untilLogout asks) rest := by
  have hall : ∀ ask ∈ Ask.carrying (.login username password) :: asks, ask.Legible := by
    intro ask hask
    rcases List.mem_cons.mp hask with rfl | hask
    · exact hlogin
    · exact hasks ask hask
  have hlines : ∀ line ∈ (Ask.carrying (.login username password) :: asks).map Ask.line,
      ∃ w : Text, line = w ++ ['\n'] ∧ '\n' ∉ w := by
    intro line hline
    obtain ⟨ask, hask, rfl⟩ := List.mem_map.mp hline
    exact line_plain (hall ask hask)
  have hwrites := clientLoop_asks hall
  rw [← miniclient_lines hlines] at hwrites
  rw [typedInput, ← List.map_cons] at hsent
  rw [hsent] at hwrites
  cases hwrites with
  | cons hfirst hrest => exact ⟨hfirst, hrest⟩

section Related

variable {α β : Type} {R : α → β → Prop} {as : List α} {bs bs' : List β}

theorem forall₂_sublist (h : List.Forall₂ R as bs) (hsub : bs'.Sublist bs) :
    ∃ as', as'.Sublist as ∧ List.Forall₂ R as' bs' := by
  induction hsub generalizing as with
  | slnil => exact ⟨[], List.nil_sublist _, .nil⟩
  | cons b _ ih =>
    cases h with
    | cons _ hrest =>
      obtain ⟨as', hsub', hall⟩ := ih hrest
      exact ⟨as', hsub'.cons _, hall⟩
  | cons_cons b _ ih =>
    cases h with
    | cons hb hrest =>
      obtain ⟨as', hsub', hall⟩ := ih hrest
      exact ⟨_ :: as', hsub'.cons_cons _, .cons hb hall⟩

theorem forall₂_perm (h : List.Forall₂ R as bs) (hperm : bs'.Perm bs) :
    ∃ as', as'.Perm as ∧ List.Forall₂ R as' bs' := by
  have hcomp : Relation.Comp (List.Forall₂ R) List.Perm as bs' := ⟨bs, h, hperm.symm⟩
  rw [List.forall₂_comp_perm_eq_perm_comp_forall₂] at hcomp
  obtain ⟨as', hperm', hall⟩ := hcomp
  exact ⟨as', hperm'.symm, hall⟩

theorem forall₂_subperm (h : List.Forall₂ R as bs) (hsub : bs'.Subperm bs) :
    ∃ as', as'.Subperm as ∧ List.Forall₂ R as' bs' := by
  obtain ⟨bs₁, hperm, hsub⟩ := hsub
  obtain ⟨as₁, hsub', hall⟩ := forall₂_sublist h hsub
  obtain ⟨as', hperm', hall'⟩ := forall₂_perm hall hperm.symm
  exact ⟨as', ⟨as₁, hperm'.symm, hsub'⟩, hall'⟩

end Related

theorem mem_untilLogout {ask : Ask} {asks : List Ask} (h : ask ∈ untilLogout asks) :
    ask ∈ asks := by
  induction asks with
  | nil => exact h
  | cons a asks ih =>
    rw [untilLogout] at h
    split at h
    · exact List.mem_singleton.mp h ▸ List.mem_cons_self
    · rcases List.mem_cons.mp h with rfl | h
      · exact List.mem_cons_self
      · exact List.mem_cons_of_mem _ (ih h)

/-- The jobs of messages that carry requests are the calls that these mean. -/
theorem forall₂_executes {clientFd : Int} {asks : List Ask} {messages : List (Frame petrHeader)}
    {jobs : List Job} (hasks : ∀ ask ∈ asks, ask.ToThread)
    (hwrites : List.Forall₂ Ask.Writes asks messages)
    (hcarries : List.Forall₂ (Carries clientFd) messages jobs) :
    List.Forall₂ (Executes clientFd) asks jobs := by
  induction hwrites generalizing jobs with
  | nil =>
    cases hcarries
    exact .nil
  | cons hask _ ih =>
    cases hcarries with
    | cons hjob hrest =>
      exact .cons (executes_of_carries (hasks _ List.mem_cons_self) hask hjob)
        (ih (fun a ha => hasks a (List.mem_cons_of_mem _ ha)) hrest)

/-- The accept loop does what the first line means. -/
theorem step_of_login {username password : Text} {first : Frame petrHeader}
    (hlogin : (Ask.carrying (.login username password)).Legible)
    (hwrites : (Ask.carrying (.login username password)).Writes first) (s : Server) (env : JobEnv)
    (clientFd : Int) : Server.step s (.accept clientFd first.kind first.body) =
      (Command.login username password).call s env clientFd := by
  obtain ⟨hformed, -, hnul, -⟩ := hlogin
  obtain ⟨hkind, hbytes⟩ := hwrites
  have htext : cstr first.body = (Command.login username password).body := by
    rw [hbytes]
    exact cstr_append_nul (fun b hb heq => hnul (heq ▸ hb)) []
  have hparse : parse .LOGIN (cstr first.body) = some (.login username password) := by
    rw [htext]
    exact parse_body hformed
  have hstep := step_of_parse s env clientFd hparse
  rw [hkind]
  exact hstep

/-- What is behind the first message of the client. -/
theorem miniclient_rest {stdin : Text} {first : Frame petrHeader} {rest : List (Frame petrHeader)}
    (hsent : miniclient stdin = first :: rest) (hlogin : first.kind ≠ MsgType.LOGOUT.code) :
    (∀ m ∈ rest, m.kind ≠ 0) ∧ upToLogout rest = rest := by
  obtain ⟨hsendable, hlogout⟩ := clientLoop_sends (linesOf stdin)
  rw [← miniclient, hsent] at hsendable hlogout
  constructor
  · intro m hm
    obtain ⟨p, hp, hcode⟩ := List.mem_map.mp (hsendable m (List.mem_cons_of_mem _ hm)).known
    obtain ⟨-, -, -, -, hzero, -⟩ := clientProtocol_spec p hp
    exact hcode ▸ hzero
  · rw [upToLogout, if_neg hlogin] at hlogout
    exact (List.cons.inj hlogout).2

/-- Each line that a user types, up to LOGOUT, is carried out at most once, as it was meant, and
nothing else is in his name; in the end each line is; and one job thread keeps to their order. -/
structure TypedLaw (numJobThreads : Nat) (asks : List Ask) (s : Program) (x : Connection)
    (processed : List Job) : Prop where
  once : ∃ done, done.Subperm asks ∧ List.Forall₂ (Executes x.clientFd) done processed
  order : numJobThreads = 1 →
    ∃ done, done <+: asks ∧ List.Forall₂ (Executes x.clientFd) done processed
  all : x.Finished petrHeader → s.Drained →
    ∃ done, done.Perm asks ∧ List.Forall₂ (Executes x.clientFd) done processed
  allInOrder : numJobThreads = 1 → x.Finished petrHeader → s.Drained →
    List.Forall₂ (Executes x.clientFd) asks processed

theorem typedLaw_run {n : Int} (hn : 1 ≤ n) (numJobThreads : Nat)
    {as : List ProcessAction} {tr : List ProgramMark} {s : Process}
    (run : Run (Process.step petrHeader)
      (Process.Allows (Program.Sponsored (ReadsWhole petrHeader)))
      (Process.start n numJobThreads) as tr s)
    {username password : Text} (hlogin : (Ask.carrying (.login username password)).Legible)
    {asks : List Ask} (hasks : ∀ ask ∈ asks, ask.ToThread) {first : Frame petrHeader}
    {rest : List (Frame petrHeader)}
    (hsent : miniclient (typedInput username password asks) = first :: rest)
    {i : Nat} {x : ClientConnection} (hx : s.clients[i]? = some x)
    (hsource : x.source = stream rest) :
    (∀ (s : Server) env clientFd, Server.step s (.accept clientFd first.kind first.body) =
        (Command.login username password).call s env clientFd) ∧
      TypedLaw numJobThreads (untilLogout asks) s.program x.connection
        ((requestsBy i (processedOf tr)).map ClientJob.job) := by
  obtain ⟨⟨hkind, hbytes⟩, hwrites⟩ :=
    miniclient_typed hlogin (fun ask hask => (hasks ask hask).1) hsent
  have hthread : ∀ ask ∈ untilLogout asks, ask.ToThread :=
    fun ask hask => hasks ask (mem_untilLogout hask)
  refine ⟨fun s env clientFd => step_of_login hlogin ⟨hkind, hbytes⟩ s env clientFd, ?_⟩
  have hcode : first.kind ≠ MsgType.LOGOUT.code :=
    hkind.trans_ne (show MsgType.LOGIN.code ≠ MsgType.LOGOUT.code by decide)
  obtain ⟨hkinds, hlogout⟩ := miniclient_rest hsent hcode
  have hcut : 0 < first.bytes.length := by
    rw [first.length_bytes]
    exact Nat.lt_add_right _ (show 0 < petrHeader.size by decide)
  obtain ⟨bs, refined⟩ := process_refines run
  have hsource' : x.connection.source = stream rest ++ first.bytes.take 0 := by
    rw [List.take_zero, List.append_nil]
    exact hsource
  have law := deliveryLaw _ hn numJobThreads refined.run (connection_get hx) hkinds first hcut
    hsource'
  have hpart {done : List (Frame petrHeader)} {jobs : List Job} (hdone : done <+: upToLogout rest)
      (hcarried : List.Forall₂ (Carries x.connection.clientFd) done jobs) :
      List.Forall₂ (Executes x.connection.clientFd) ((untilLogout asks).take done.length) jobs := by
    rw [hlogout] at hdone
    obtain ⟨later, rfl⟩ := hdone
    exact forall₂_executes (fun ask h => hthread ask (List.mem_of_mem_take h))
      (List.forall₂_take_append _ _ _ hwrites) hcarried
  constructor
  · obtain ⟨done, jobs, hdone, hcarried, hsub⟩ := law.once
    obtain ⟨those, hthose, hall⟩ := forall₂_subperm (hpart hdone hcarried) hsub
    exact ⟨those, hthose.trans (List.take_sublist _ _).subperm, hall⟩
  · intro hone
    obtain ⟨done, hdone, hcarried⟩ := law.order hone
    exact ⟨_, List.take_prefix _ _, hpart hdone hcarried⟩
  · intro hfinished hdrained
    obtain ⟨jobs, hcarried, hperm⟩ := law.all hfinished hdrained
    rw [hlogout] at hcarried
    exact forall₂_perm (forall₂_executes hthread hwrites hcarried) hperm
  · intro hone hfinished hdrained
    have hcarried := law.allInOrder hone hfinished hdrained
    rw [hlogout] at hcarried
    exact forall₂_executes hthread hwrites hcarried

/-- B types that he watches auction 1 and bids 9 on it. -/
def sampleAsks : List Ask := [.carrying (.watch 1), .carrying (.bid 1 9)]

def sampleStdin : Text := typedInput ['B'] ['y'] sampleAsks

def sampleTyped : List ProcessAction := sampleDeal (stream (miniclient sampleStdin).tail) 2 5

theorem sampleTyped_completes :
    (exec (Process.step petrHeader) (Process.Allows (Program.Sponsored (ReadsWhole petrHeader)))
      (Process.start 8 2) sampleTyped).isSome := by decide +kernel

def sampleTypedEnd : Process × List ProgramMark :=
  (exec (Process.step petrHeader) (Process.Allows (Program.Sponsored (ReadsWhole petrHeader)))
    (Process.start 8 2) sampleTyped).get sampleTyped_completes

theorem sampleTyped_run :
    Run (Process.step petrHeader) (Process.Allows (Program.Sponsored (ReadsWhole petrHeader)))
      (Process.start 8 2) sampleTyped sampleTypedEnd.2 sampleTypedEnd.1 :=
  run_of_isSome sampleTyped_completes

def sampleTypist : ClientConnection := sampleTypedEnd.1.clients.getLast (by decide +kernel)

theorem typedLaw_run_sample : sampleTypist.connection.Finished petrHeader ∧
    sampleTypedEnd.1.program.Drained ∧
      TypedLaw 2 (untilLogout sampleAsks) sampleTypedEnd.1.program sampleTypist.connection
        ((requestsBy 1 (processedOf sampleTypedEnd.2)).map ClientJob.job) := by
  have hx : sampleTypedEnd.1.clients[1]? = some sampleTypist := by decide +kernel
  have hsource : sampleTypist.source = stream (miniclient sampleStdin).tail := by decide +kernel
  have hne : miniclient sampleStdin ≠ [] := by decide
  exact ⟨by decide +kernel, by decide +kernel, (typedLaw_run (by decide) 2 sampleTyped_run
    (by decide) (by decide) (List.cons_head_tail hne).symm hx hsource).2⟩

end ZBid
