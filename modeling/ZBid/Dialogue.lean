import ZBid.Screen

/-!
# The client and the server together

As long as it is clients that talk to the server, and the text that USRLIST finds on the stack is
ASCII, the client can read and print every reply that the server writes, and the line that it prints
tells which message it was.
-/
namespace ZBid

open CInt CString Runs Framing

/-- What comes in beside the connections is ASCII: the first message of each, and what USRLIST finds
on the stack. -/
def ProgramAction.InAscii : ProgramAction → Prop
  | .connect _ _ body _ => Ascii body
  | .process _ env => Ascii env.stack
  | _ => True

def ProcessAction.InAscii : ProcessAction → Prop
  | .accept v => Ascii v.body
  | .handle _ env => Ascii env.stack
  | _ => True

instance : ∀ a : ProcessAction, Decidable a.InAscii
  | .accept v => inferInstanceAs (Decidable (Ascii v.body))
  | .handle _ env => inferInstanceAs (Decidable (Ascii env.stack))
  | .strtok _ | .connect | .read .. | .sbufInsert _ | .test _ | .sbufRemove _ | .begin _ | .free _
  | .startTick | .age | .close => inferInstanceAs (Decidable True)

/-- The connection carries messages that a client sends, the last of them perhaps torn. -/
structure Connection.FromClient (x : Connection) (messages : List (Frame petrHeader)) : Prop where
  sendable : ∀ m ∈ messages, Sendable m
  carried : ∃ (last : Frame petrHeader) (cut : Nat), cut < last.bytes.length ∧
    x.source = stream messages ++ last.bytes.take cut

theorem strtok_subset {sep : Char → Bool} (t : Text) :
    (∀ x ∈ (strtok sep t).1, x ⊆ t) ∧ (strtok sep t).2 ⊆ t := by
  have hdrop : t.dropWhile sep ⊆ t := (List.dropWhile_suffix sep).subset
  rw [strtok]
  split
  · simp
  · rename_i c cs hcut
    rw [hcut] at hdrop
    constructor
    · intro x hx
      obtain rfl := Option.some.inj hx
      exact List.Subset.trans (List.takeWhile_subset _) hdrop
    · exact List.Subset.trans (List.tail_subset _)
        (List.Subset.trans (List.dropWhile_suffix _).subset hdrop)

theorem cstr_subset (t : List Char) : cstr t ⊆ t := List.takeWhile_subset _

theorem loginArgs_subset {body name : Text} (h : name ∈ (loginArgs (cstr body)).1) : name ⊆ body :=
  List.Subset.trans ((strtok_subset _).1 name h) (cstr_subset body)

theorem ancreateArgs_subset {body : Text} {args : Text × Int × Int}
    (h : args ∈ ancreateArgs (cstr body)) : args.1 ⊆ body := by
  simp only [ancreateArgs, Option.mem_def, Option.bind_eq_bind, Option.bind_eq_some_iff] at h
  obtain ⟨durationStr, -, priceStr, -, name, hname, h⟩ := h
  obtain rfl := Option.some.inj h
  exact List.Subset.trans ((strtok_subset _).1 name hname) (cstr_subset body)

/-- A connection keeps its place and what its client sends. -/
theorem connections_step {c : Codec Char} {s s' : Program} {action : ProgramAction}
    {out : List ProgramMark} (h : ProgramEffect c s action s' out) {x : Connection}
    (hx : x ∈ s.connections) : ∃ x' ∈ s'.connections, x'.source = x.source := by
  have hset {i : Nat} {y z : Connection} (hy : s.connections[i]? = some y)
      (hsource : z.source = y.source) : ∃ x' ∈ s.connections.set i z, x'.source = x.source := by
    obtain ⟨k, hk⟩ := List.getElem?_of_mem hx
    by_cases hik : i = k
    · subst k
      obtain rfl := Option.some.inj (hy.symm.trans hk)
      exact ⟨z, List.mem_set (List.getElem?_eq_some_iff.mp hy).1 z, hsource⟩
    · exact ⟨x, List.mem_of_getElem? ((List.getElem?_set_ne hik).trans hk), rfl⟩
  cases h with
  | shared new => exact ⟨x, List.mem_append_left _ hx, rfl⟩
  | read hi => exact hset hi rfl
  | insert hi => exact hset hi rfl
  | call | remove | process | null => exact ⟨x, hx, rfl⟩

/-- What clients send is ASCII. -/
theorem Sendable.ascii {m : Frame petrHeader} (h : Sendable m) : Ascii m.body := by
  rcases h.typable with hnil | ⟨body, hbody, htypable⟩
  · rw [hnil]
    exact List.forall_mem_nil _
  · rw [hbody]
    exact List.forall_mem_append.mpr ⟨htypable.ascii, List.forall_mem_singleton.mpr (by decide)⟩

theorem Sendable.kind_ne_zero {m : Frame petrHeader} (h : Sendable m) : m.kind ≠ 0 := by
  obtain ⟨p, hp, hcode⟩ := List.mem_map.mp h.known
  obtain ⟨-, -, -, -, hzero, -⟩ := clientProtocol_spec p hp
  exact hcode ▸ hzero

theorem upToLogout_subset (ms : List (Frame petrHeader)) : upToLogout ms ⊆ ms := by
  induction ms with
  | nil => exact List.Subset.refl _
  | cons m ms ih =>
    rw [upToLogout]
    split
    · simp
    · exact List.cons_subset_cons m ih

theorem forall₂_mem_right {α β : Type} {R : α → β → Prop} {xs : List α} {ys : List β}
    (h : List.Forall₂ R xs ys) {y : β} (hy : y ∈ ys) : ∃ x ∈ xs, R x y := by
  induction h with
  | nil => cases hy
  | cons hR _ ih =>
    rcases List.mem_cons.mp hy with rfl | hy
    · exact ⟨_, List.mem_cons_self, hR⟩
    · obtain ⟨x, hx, hxy⟩ := ih hy
      exact ⟨x, List.mem_cons_of_mem _ hx, hxy⟩

section Runs

variable {null : ClientJob} {n : Int} {numJobThreads : Nat} {as : List ProgramAction}
  {tr : List ProgramMark} {s : Program}

/-- A request that a job thread holds has come from a client. -/
theorem held_ascii (hn : 1 ≤ n)
    (run : Run (Program.step petrHeader) (Program.Sponsored (ReadsWhole petrHeader))
      (Program.start null n numJobThreads) as tr s)
    (hclients : ∀ x ∈ s.connections, ∃ messages, x.FromClient messages)
    {r : ClientJob} (hr : r ∈ s.held) : SpeltIn IsAscii r.job.jobBuffer := by
  obtain ⟨-, hconnections, -, -⟩ := program_inv petrHeader (ReadsWhole petrHeader) null hn _ run
  have law := programLaw petrHeader (ReadsWhole petrHeader) null hn numJobThreads run
  obtain ⟨q, hputs, -, -⟩ := law.buffer
  have htaken : r ∈ Fifo.takes (queueOf tr) :=
    law.threads.taken.symm.subset (List.mem_append_right _ hr)
  have hput : r ∈ requestsBy r.sender (Fifo.puts (queueOf tr)) := by
    rw [hputs]
    exact List.mem_filter.mpr ⟨List.mem_append_left _ htaken, by simp⟩
  cases hx : s.connections[r.sender]? with
  | none =>
    have hbeyond := (hconnections.beyond _ (List.getElem?_eq_none_iff.mp hx)).2
    simp [hbeyond] at hput
  | some x =>
    obtain ⟨messages, hsendable, last, cut, hcut, hsource⟩ := hclients x (List.mem_of_getElem? hx)
    have inv := hconnections.each _ x hx
    obtain ⟨envs, hthread⟩ := inv.thread
    rw [hsource] at hthread
    have hkinds : ∀ m ∈ messages, m.kind ≠ 0 := fun m hm => (hsendable m hm).kind_ne_zero
    obtain ⟨done, hdone, hcarried⟩ := (threadInv_run x.clientFd hkinds last hcut hthread).law.order
    have hjob : r.job ∈ (requestsBy r.sender (readOf tr)).map ClientJob.job := by
      rw [inv.queued]
      exact List.mem_map_of_mem (List.mem_append_left _ hput)
    obtain ⟨m, hm, -, -, hbody⟩ := forall₂_mem_right hcarried hjob
    have hascii := (hsendable m (upToLogout_subset _ (hdone.subset hm))).ascii
    rcases hbody with hbody | hbody
    · exact hbody ▸ hascii
    · rw [hbody] at hascii
      exact (List.forall_mem_append.mp hascii).1

theorem mem_held {j : Nat} {r : ClientJob} (h : s.returnedTo j = some r) : r ∈ s.held := by
  simp only [Program.returnedTo] at h
  split at h
  · rename_i r' hj
    obtain rfl := Option.some.inj h
    exact List.mem_filterMap.mpr ⟨_, List.mem_of_getElem? hj, rfl⟩
  · cases h

/-- As long as clients talk to it, everything that the server writes is legible to a client. -/
theorem legible_program (hn : 1 ≤ n)
    (run : Run (Program.step petrHeader) (Program.Sponsored (ReadsWhole petrHeader))
      (Program.start null n numJobThreads) as tr s) (hascii : ∀ a ∈ as, a.InAscii)
    (hclients : ∀ x ∈ s.connections, ∃ messages, x.FromClient messages) :
    s.shared.server.Sound IsAscii anyFd ∧ ∀ e ∈ eventsOf tr, e.Legible IsAscii := by
  induction run with
  | start => exact ⟨sound_start trivial, List.forall_mem_nil _⟩
  | @step as tr s action s' out run hok h ih =>
    obtain ⟨hbefore, haction⟩ := List.forall_mem_append.mp hascii
    have hearlier : ∀ x ∈ s.connections, ∃ messages, x.FromClient messages := by
      intro x hx
      obtain ⟨x', hx', hsource⟩ := connections_step (program_effect h) hx
      obtain ⟨messages, hsendable, hcarried⟩ := hclients x' hx'
      exact ⟨messages, hsendable, hsource ▸ hcarried⟩
    obtain ⟨hsound, hlegible⟩ := ih hbefore hearlier
    have hout : s'.shared.server.Sound IsAscii anyFd ∧ ∀ e ∈ eventsOf out, e.Legible IsAscii := by
      rcases program_shared h with ⟨-, hshared, hquiet, -⟩ | ⟨a, hasks, hstep, -⟩
      · rw [hshared, hquiet]
        exact ⟨hsound, List.forall_mem_nil _⟩
      · obtain ⟨-, -, -, bs, hserial, -⟩ :=
          program_inv petrHeader (ReadsWhole petrHeader) null hn _ run
        have hbalances := balanced_run hserial
        suffices haction : a.Spelt IsAscii by
          obtain ⟨hsound, hsent⟩ :=
            sound_step alphabet_ascii hsound hbalances haction (fun _ _ => trivial) hstep
          exact ⟨hsound, fun e he => (hsent e he).1⟩
        cases action with
        | connect fd msgType body source =>
          obtain rfl := Option.some.inj hasks
          have hbody : SpeltIn IsAscii body := haction _ List.mem_cons_self
          exact fun _ name hname => hbody.subset (loginArgs_subset hname)
        | process j env =>
          obtain ⟨r, hr, rfl⟩ := Option.map_eq_some_iff.mp hasks
          have hstack : SpeltIn IsAscii env.stack := haction _ List.mem_cons_self
          have hjob := held_ascii hn run hearlier (mem_held hr)
          exact ⟨fun _ => hstack, fun _ args hargs => hjob.subset (ancreateArgs_subset hargs)⟩
        | startTick | age | close =>
          obtain rfl := Option.some.inj hasks
          trivial
        | read | sbufInsert | sbufRemove => cases hasks
    rw [eventsOf_append]
    exact ⟨hout.1, List.forall_mem_append.mpr ⟨hlegible, hout.2⟩⟩

end Runs

/-- The messages written to a descriptor, oldest first. -/
def repliesTo (fd : Int) (tr : List Event) : List Msg :=
  (tr.filterMap Event.msg?).filter (·.fd = fd)

/-- The client prints the replies in order, however many of them it has read, and each line tells
the reply that it was printed for. -/
structure ScreenLaw (replies : List Msg) : Prop where
  printed : ∀ n ≤ replies.length, readReplies n (replies.flatMap Msg.wire) =
    some ((replies.take n).map Msg.line, (replies.drop n).flatMap Msg.wire)
  told : ∀ m ∈ replies, ∀ m' ∈ replies, m.line = m'.line → m.SameReply m'

/-- What comes in with the steps of `Program` has come in. -/
theorem Refined.inAscii {ok : Program → ProgramAction → Prop} {n : Int} {numJobThreads : Nat}
    {as : List ProcessAction} {tr : List ProgramMark} {s : Process} {bs : List ProgramAction}
    (refined : Refined petrHeader ok n numJobThreads as tr s bs) (hascii : ∀ a ∈ as, a.InAscii) :
    ∀ b ∈ bs, b.InAscii := by
  intro b hb
  cases hconnect : b.isConnect with
  | true =>
    have hvisit : b ∈ as.filterMap ProcessAction.visit := by
      rw [refined.visits]
      exact List.mem_append_left _ (List.mem_filter.mpr ⟨hb, hconnect⟩)
    obtain ⟨a, ha, hab⟩ := List.mem_filterMap.mp hvisit
    have hin := hascii a ha
    cases a with
    | accept v =>
      obtain rfl := Option.some.inj hab
      exact hin
    | _ => cases hab
  | false =>
    have hrequest : b ∈ as.filterMap ProcessAction.request := by
      rw [refined.requests]
      exact List.mem_filter.mpr ⟨hb, by simp [hconnect]⟩
    obtain ⟨a, ha, hab⟩ := List.mem_filterMap.mp hrequest
    have hin := hascii a ha
    cases a with
    | handle j env =>
      obtain rfl := Option.some.inj hab
      exact hin
    | read | sbufInsert | sbufRemove | startTick | age | close =>
      obtain rfl := Option.some.inj hab
      trivial
    | accept | strtok | connect | test | begin | free => cases hab

/-- A descriptor may have had an earlier connection: a part of what was written to it is what the
client of one connection reads. -/
theorem screenLaw_run {n : Int} (hn : 1 ≤ n) (numJobThreads : Nat)
    {as : List ProcessAction} {tr : List ProgramMark} {s : Process}
    (run : Run (Process.step petrHeader)
      (Process.Allows (Program.Sponsored (ReadsWhole petrHeader)))
      (Process.start n numJobThreads) as tr s) (hascii : ∀ a ∈ as, a.InAscii)
    (hclients : ∀ x ∈ s.clients, ∃ messages, x.connection.FromClient messages) {fd : Int}
    {replies : List Msg} (hreplies : replies <:+: repliesTo fd (eventsOf tr)) :
    ScreenLaw replies := by
  obtain ⟨bs, refined⟩ := process_refines run
  have hconnections : ∀ x ∈ s.program.connections, ∃ messages, x.FromClient messages := by
    intro x hx
    obtain ⟨y, hy, rfl⟩ := List.mem_map.mp hx
    exact hclients y hy
  obtain ⟨-, hlegible⟩ := legible_program hn refined.run (refined.inAscii hascii) hconnections
  have hreadable : ∀ m ∈ replies, m.Legible IsAscii := by
    intro m hm
    obtain ⟨e, he, hmsg⟩ := List.mem_filterMap.mp (List.mem_of_mem_filter (hreplies.subset hm))
    cases e with
    | sent m' =>
      obtain rfl := Option.some.inj hmsg
      exact hlegible _ he
    | accepted | closed | debited | credited => cases hmsg
  exact ⟨fun k hk => readReplies_wire hreadable hk,
    fun m hm m' hm' h => (hreadable m hm).line_inj (hreadable m' hm') h⟩

/-- A types that he creates an auction, and asks for the users. -/
def sampleTalker : Text :=
  typedInput ['A'] ['x'] [.carrying (.create ['V'] 3 5), .bare .USRLIST]

/-- C and B sign in and say nothing more. -/
def sampleTalk : List ProcessAction := List.flatten [
  sampleVisit 4 ['A', '\r', '\n', 'x', '\x00'] (stream (miniclient sampleTalker).tail),
  sampleVisit 5 ['C', '\r', '\n', 'z', '\x00'] [],
  sampleVisit 6 ['B', '\r', '\n', 'y', '\x00'] [],
  sampleSend 0 8, List.replicate 6 (.sbufRemove 0), sampleServe 0 3,
  sampleSend 0 0, List.replicate 6 (.sbufRemove 0), sampleServe 0 0]

theorem sampleTalk_completes :
    (exec (Process.step petrHeader) (Process.Allows (Program.Sponsored (ReadsWhole petrHeader)))
      (Process.start 8 1) sampleTalk).isSome := by decide +kernel

def sampleTalkEnd : Process × List ProgramMark :=
  (exec (Process.step petrHeader) (Process.Allows (Program.Sponsored (ReadsWhole petrHeader)))
    (Process.start 8 1) sampleTalk).get sampleTalk_completes

theorem sampleTalk_run :
    Run (Process.step petrHeader) (Process.Allows (Program.Sponsored (ReadsWhole petrHeader)))
      (Process.start 8 1) sampleTalk sampleTalkEnd.2 sampleTalkEnd.1 :=
  run_of_isSome sampleTalk_completes

/-- What A sees. -/
def sampleScreen : List Text :=
  [received ++ ['O', 'K'],
    received ++ ['A', 'N', 'C', 'R', 'E', 'A', 'T', 'E'] ++
      [' ', '\x27', '1', '\\', 'x', '0', '0', '\x27'],
    received ++ usrlist ++
      [' ', '\x27', 'B', '\\', 'n', 'C', '\\', 'n', '\\', 'x', '0', '0', '\x27']]

theorem screenLaw_run_sample :
    (repliesTo 4 (eventsOf sampleTalkEnd.2)).map Msg.line = sampleScreen ∧
      ScreenLaw (repliesTo 4 (eventsOf sampleTalkEnd.2)) := by
  refine ⟨by decide +kernel, screenLaw_run (by decide) 1 sampleTalk_run (by decide) ?_
    (List.infix_refl _)⟩
  have hsources : ∀ x ∈ sampleTalkEnd.1.clients,
      x.connection.source = stream (miniclient sampleTalker).tail ∨ x.connection.source = [] := by
    decide +kernel
  have hcut : 0 < sampleLast.bytes.length := by decide
  intro x hx
  rcases hsources x hx with hsource | hsource
  · refine ⟨(miniclient sampleTalker).tail, ?_, sampleLast, 0, hcut, by simpa using hsource⟩
    exact fun m hm => (clientLoop_sends _).1 m (List.mem_of_mem_tail hm)
  · exact ⟨[], by simp, sampleLast, 0, hcut, by simpa using hsource⟩

end ZBid
