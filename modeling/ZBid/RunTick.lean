import ZBid.Reachable

/-!
# run_tick: the two loops

Without a period the loop ticks for each line that `getline` returns from stdin, with a period of
`m` seconds when the clock says so. `main` chooses between the two from its options. The other
threads act between the passes of a loop; a pass that ticks is one tick of the server.
-/
namespace ZBid

open CInt CString Runs

/-- A pass through the loop, or an action of another thread. -/
inductive LoopAction (ι : Type) where
  | pass (input : ι)
  | other (action : Action)

/-- The other threads accept and process jobs; only this thread ticks. -/
def OtherThreads (s : Server) : Action → Prop
  | .accept clientFd _ _ => FreshFd s clientFd
  | .job _ _ => True
  | .tick => False

instance Server.decidableOtherThreads (s : Server) : ∀ action, Decidable (OtherThreads s action)
  | .accept clientFd _ _ => inferInstanceAs (Decidable (FreshFd s clientFd))
  | .job _ _ => inferInstanceAs (Decidable True)
  | .tick => inferInstanceAs (Decidable False)

/-- The globals before a pass and after it are one tick apart. -/
def OneTick (before after : Server) : Prop := ∃ out, tickBody before = some (after, out)

theorem oneTick_tick {before after : Server} (h : OneTick before after) :
    after.tick = wrap32 (before.tick + 1) := by
  obtain ⟨out, h⟩ := h
  obtain ⟨us, list, store, rfl, -⟩ := tickLoop_frame h
  rfl

/-- A tick is always seen on the counter. -/
theorem oneTick_ne {before after : Server} (h : OneTick before after) :
    after.tick ≠ before.tick := by
  rw [oneTick_tick h]
  simp only [wrap32]
  omega

theorem not_oneTick_self (s : Server) : ¬ OneTick s s := fun h => oneTick_ne h rfl

/-- The counter is the tick thread's own. -/
theorem effect_tick {s s' : Server} {action : Action} {out : List Event}
    (hother : OtherThreads s action) (h : Effect s action s' out) : s'.tick = s.tick := by
  cases h with
  | accept hacc => cases hacc <;> rfl
  | buy a x user bid s₁ _ out _ _ _ _ _ hclose hunlink =>
    obtain ⟨us, rfl, -⟩ := closeAuction_frame hclose
    obtain ⟨list, rfl⟩ := unlinkAuction_frame hunlink
    rfl
  | tick => exact hother.elim
  | _ => rfl

/-- A line as `getline` counts it, with its newline, so that it is not empty. -/
def InputLine : Type := { line : Text // line ≠ [] }

structure StdinLoop where
  server : Server
  stdin : List InputLine

/-- The length of the next line, or -1 at the end of the file; and what is left. -/
def getline : List InputLine → Int × List InputLine
  | [] => (-1, [])
  | line :: rest => (line.val.length, rest)

/-- A pass: the line it read, and the globals before and after it. -/
structure StdinPass where
  line : Option InputLine
  before : Server
  after : Server

def stdinStep : Step StdinLoop (LoopAction Unit) StdinPass := fun s action =>
  match action with
  | .pass () =>
    let (result, rest) := getline s.stdin
    if result ≠ 0 then
      (tickBody s.server).map fun (server, _) =>
        (⟨server, rest⟩, [⟨s.stdin.head?, s.server, server⟩])
    else some (⟨s.server, rest⟩, [⟨s.stdin.head?, s.server, s.server⟩])
  | .other action =>
    (Server.step s.server action).map fun (server, _) => ({ s with server }, [])

def StdinLoop.Admits (s : StdinLoop) : LoopAction Unit → Prop
  | .pass _ => True
  | .other action => OtherThreads s.server action

instance StdinLoop.decidableAdmits (s : StdinLoop) : ∀ action, Decidable (s.Admits action)
  | .pass _ => inferInstanceAs (Decidable True)
  | .other action => inferInstanceAs (Decidable (OtherThreads s.server action))

/-- One tick for each line: the passes have read the lines in order, a pass that read one ticked
once, a pass that read none neither ticked nor aged an auction, and the counter is not above the
number of lines. -/
structure LineLaw (stdin : List InputLine) (tr : List StdinPass) (s : StdinLoop) : Prop where
  lines : tr.filterMap StdinPass.line ++ s.stdin = stdin
  once : ∀ e ∈ tr, e.line ≠ none → OneTick e.before e.after
  idle : ∀ e ∈ tr, e.line = none →
    e.after.tick = e.before.tick ∧ e.after.auctions = e.before.auctions
  counter : s.server.tick ≤ stdin.length

/-- The result of `getline` is never 0, so every pass ticks. -/
theorem stdinStep_pass (s : StdinLoop) : stdinStep s (.pass ()) =
    (tickBody s.server).map fun (server, _) =>
      (⟨server, s.stdin.tail⟩, [⟨s.stdin.head?, s.server, server⟩]) := by
  obtain ⟨server, stdin⟩ := s
  cases stdin with
  | nil => rfl
  | cons line rest =>
    have hlength : (line.val.length : Int) ≠ 0 := by
      have := List.length_pos_iff.mpr line.property
      omega
    simp only [stdinStep, getline, ne_eq, hlength, not_false_eq_true, ↓reduceIte,
      List.head?_cons, List.tail_cons]

structure StdinInv (stdin : List InputLine) (tr : List StdinPass) (s : StdinLoop) : Prop where
  lines : tr.filterMap StdinPass.line ++ s.stdin = stdin
  ticks : ∀ e ∈ tr, OneTick e.before e.after
  ended : (∃ e ∈ tr, e.line = none) → s.stdin = []
  counter : s.server.tick = wrap32 tr.length

theorem wrap32_succ (n : Int) : wrap32 (wrap32 n + 1) = wrap32 (n + 1) := by
  simp only [wrap32]
  omega

theorem stdinInv_step {stdin : List InputLine} {tr out : List StdinPass} {s s' : StdinLoop}
    {action : LoopAction Unit} (inv : StdinInv stdin tr s) (hok : s.Admits action)
    (h : stdinStep s action = some (s', out)) : StdinInv stdin (tr ++ out) s' := by
  cases action with
  | other action =>
    simp only [stdinStep, Option.map_eq_some_iff] at h
    obtain ⟨⟨server, log⟩, hstep, h⟩ := h
    obtain ⟨rfl, rfl⟩ := Prod.mk.inj h
    rw [List.append_nil]
    exact ⟨inv.lines, inv.ticks, inv.ended,
      (effect_tick hok (step_effect hstep)).trans inv.counter⟩
  | pass input =>
    rw [stdinStep_pass, Option.map_eq_some_iff] at h
    obtain ⟨⟨server, log⟩, htick, h⟩ := h
    obtain ⟨rfl, rfl⟩ := Prod.mk.inj h
    have hone : OneTick s.server server := ⟨log, htick⟩
    constructor
    · rw [List.filterMap_append, ← inv.lines, List.append_assoc]
      cases s.stdin <;> rfl
    · rw [List.forall_mem_append, List.forall_mem_singleton]
      exact ⟨inv.ticks, hone⟩
    · rintro ⟨e, he, hnone⟩
      rcases List.mem_append.mp he with he | he
      · rw [inv.ended ⟨e, he, hnone⟩]
        rfl
      · rw [List.mem_singleton] at he
        rw [he, List.head?_eq_none_iff] at hnone
        rw [hnone]
        rfl
    · rw [oneTick_tick hone, inv.counter, wrap32_succ, List.length_append]
      rfl

/-- Every line is read by one pass; so there are more passes than lines exactly when some pass
read none. -/
theorem StdinInv.length_le_iff {stdin : List InputLine} {tr : List StdinPass} {s : StdinLoop}
    (inv : StdinInv stdin tr s) :
    tr.length ≤ stdin.length ↔ ∀ e ∈ tr, e.line ≠ none := by
  have hlines := congrArg List.length inv.lines
  rw [List.length_append] at hlines
  constructor
  · intro hle e he hnone
    rw [inv.ended ⟨e, he, hnone⟩, List.length_nil] at hlines
    have hfew := List.length_filterMap_le StdinPass.line tr
    have hall := List.filterMap_length_eq_length.mp (show (tr.filterMap StdinPass.line).length =
      tr.length by omega) e he
    simp [hnone] at hall
  · intro hall
    have hlength := List.filterMap_length_eq_length (f := StdinPass.line) (l := tr) |>.mpr
      fun e he => Option.isSome_iff_ne_none.mpr (hall e he)
    omega

/-- There is one tick for each line if and only if the loop has not gone on behind the last line,
for every content of stdin and any number of passes. -/
theorem lineLaw_run {stdin : List InputLine} {as : List (LoopAction Unit)} {tr : List StdinPass}
    {s : StdinLoop} (run : Run stdinStep StdinLoop.Admits ⟨Server.start, stdin⟩ as tr s) :
    LineLaw stdin tr s ↔ tr.length ≤ stdin.length := by
  have inv : StdinInv stdin tr s := by
    refine run.invariant (P := fun _ tr s => StdinInv stdin tr s) ?_ ?_
    · exact ⟨rfl, by simp, by simp, rfl⟩
    · exact fun _ inv hok hs => stdinInv_step inv hok hs
  rw [inv.length_le_iff]
  constructor
  · intro law e he hnone
    exact oneTick_ne (inv.ticks e he) (law.idle e he hnone).1
  · intro hall
    have hle := inv.length_le_iff.mpr hall
    refine ⟨inv.lines, fun e he _ => inv.ticks e he, fun e he hnone => absurd hnone (hall e he),
      ?_⟩
    rw [inv.counter]
    simp only [wrap32]
    omega

def sampleNewline : InputLine := ⟨['\n'], by decide⟩

/-- One line and one pass, after a login. -/
def samplePasses : List (LoopAction Unit) :=
  [.other (.accept 4 MsgType.LOGIN.code ['A', '\r', '\n', 'x']), .pass ()]

theorem lineLaw_run_sample : LineLaw [sampleNewline]
    ((exec stdinStep StdinLoop.Admits ⟨Server.start, [sampleNewline]⟩ samplePasses).get
      (by decide)).2
    ((exec stdinStep StdinLoop.Admits ⟨Server.start, [sampleNewline]⟩ samplePasses).get
      (by decide)).1 :=
  (lineLaw_run (run_of_isSome (by decide))).mpr (by decide)

/-- With stdin closed the first pass already ticks. -/
theorem lineLaw_fails : ¬ ∀ stdin as tr s,
    Run stdinStep StdinLoop.Admits ⟨Server.start, stdin⟩ as tr s → LineLaw stdin tr s := by
  intro claim
  have run : Run stdinStep StdinLoop.Admits ⟨Server.start, []⟩ [.pass ()] _
      ((exec stdinStep StdinLoop.Admits ⟨Server.start, []⟩ [.pass ()]).get (by decide)).1 :=
    run_of_isSome (by decide)
  exact absurd (claim _ _ _ _ run).counter (by decide)

/-- The clock is the last value that `time(NULL)` has returned. -/
structure TimedLoop where
  server : Server
  previousTime : Int
  clock : Int

structure TimedPass where
  previousTime : Int
  currentTime : Int
  before : Server
  after : Server

/-- The input of a pass is the reading at its head, and the one that ends it if it ticks. -/
def timedStep (m : Int) : Step TimedLoop (LoopAction (Int × Int)) TimedPass := fun s action =>
  match action with
  | .pass (currentTime, reread) =>
    let difference := currentTime - s.previousTime
    if difference = m then
      (tickBody s.server).map fun (server, _) =>
        (⟨server, reread, reread⟩, [⟨s.previousTime, currentTime, s.server, server⟩])
    else
      some ({ s with clock := currentTime }, [⟨s.previousTime, currentTime, s.server, s.server⟩])
  | .other action =>
    (Server.step s.server action).map fun (server, _) => ({ s with server }, [])

/-- The clock does not go back. -/
def TimedLoop.Admits (s : TimedLoop) : LoopAction (Int × Int) → Prop
  | .pass (currentTime, reread) => s.clock ≤ currentTime ∧ currentTime ≤ reread
  | .other action => OtherThreads s.server action

instance TimedLoop.decidableAdmits (s : TimedLoop) : ∀ action, Decidable (s.Admits action)
  | .pass (_, _) => inferInstanceAs (Decidable (_ ∧ _))
  | .other action => inferInstanceAs (Decidable (OtherThreads s.server action))

/-- How far a pass found the clock ahead of `previousTime`. -/
def TimedPass.elapsed (e : TimedPass) : Int := e.currentTime - e.previousTime

/-- A tick at every reading that is at least `m` seconds after `previousTime`, and at no other. -/
def PeriodLaw (m : Int) (tr : List TimedPass) : Prop :=
  ∀ e ∈ tr, OneTick e.before e.after ↔ m ≤ e.elapsed

/-- What a pass does: it ticks if exactly `m` seconds have gone by, and only then moves
`previousTime`. -/
theorem timedStep_pass {m currentTime reread : Int} {s s' : TimedLoop} {out : List TimedPass}
    (h : timedStep m s (.pass (currentTime, reread)) = some (s', out)) :
    ∃ e, out = [e] ∧ e.previousTime = s.previousTime ∧ e.currentTime = currentTime ∧
      (OneTick e.before e.after ↔ e.elapsed = m) ∧
      (e.elapsed ≠ m → s'.previousTime = s.previousTime ∧ s'.clock = currentTime) := by
  simp only [timedStep] at h
  split at h
  · rename_i hequal
    rw [Option.map_eq_some_iff] at h
    obtain ⟨⟨server, log⟩, htick, h⟩ := h
    obtain ⟨rfl, rfl⟩ := Prod.mk.inj h
    exact ⟨_, rfl, rfl, rfl, iff_of_true ⟨log, htick⟩ hequal, fun hne => absurd hequal hne⟩
  · rename_i hne
    obtain ⟨rfl, rfl⟩ := Prod.mk.inj (Option.some.inj h)
    exact ⟨_, rfl, rfl, rfl, iff_of_false (not_oneTick_self _) hne, fun _ => ⟨rfl, rfl⟩⟩

/-- The loop ticks exactly at the readings that hit the period. -/
theorem timed_ticks {m : Int} {s₀ s : TimedLoop} {as : List (LoopAction (Int × Int))}
    {tr : List TimedPass} (run : Run (timedStep m) TimedLoop.Admits s₀ as tr s) :
    ∀ e ∈ tr, OneTick e.before e.after ↔ e.elapsed = m := by
  refine run.invariant (P := fun _ tr _ => ∀ e ∈ tr, OneTick e.before e.after ↔ e.elapsed = m)
    (by simp) ?_
  intro as tr s action s' out _ inv _ hs
  rw [List.forall_mem_append]
  refine ⟨inv, ?_⟩
  cases action with
  | other action =>
    simp only [timedStep, Option.map_eq_some_iff] at hs
    obtain ⟨⟨server, log⟩, -, hs⟩ := hs
    obtain ⟨-, rfl⟩ := Prod.mk.inj hs
    simp
  | pass input =>
    obtain ⟨e, rfl, -, -, hticks, -⟩ := timedStep_pass hs
    rwa [List.forall_mem_singleton]

/-- Once the clock has jumped over the period, the loop never ticks again. -/
theorem timed_stuck {m : Int} {s₀ s : TimedLoop} (hjump : m < s₀.clock - s₀.previousTime)
    {as : List (LoopAction (Int × Int))} {tr : List TimedPass}
    (run : Run (timedStep m) TimedLoop.Admits s₀ as tr s) :
    ∀ e ∈ tr, ¬ OneTick e.before e.after := by
  have hboth : m < s.clock - s.previousTime ∧ ∀ e ∈ tr, m < e.elapsed := by
    refine run.invariant (P := fun _ tr s => m < s.clock - s.previousTime ∧
      ∀ e ∈ tr, m < e.elapsed) ⟨hjump, by simp⟩ ?_
    intro as tr s action s' out _ inv hok hs
    rw [List.forall_mem_append]
    cases action with
    | other action =>
      simp only [timedStep, Option.map_eq_some_iff] at hs
      obtain ⟨⟨server, log⟩, -, hs⟩ := hs
      obtain ⟨rfl, rfl⟩ := Prod.mk.inj hs
      exact ⟨inv.1, inv.2, by simp⟩
    | pass input =>
      obtain ⟨e, rfl, hprev, hcurrent, -, hstays⟩ := timedStep_pass hs
      have hlate : m < e.elapsed := by
        have hclock := hok.1
        have hahead := inv.1
        rw [TimedPass.elapsed, hprev, hcurrent]
        omega
      obtain ⟨hsame, hclock⟩ := hstays (by omega)
      refine ⟨?_, inv.2, by rwa [List.forall_mem_singleton]⟩
      rw [hsame, hclock, ← hprev, ← hcurrent]
      exact hlate
  intro e he htick
  have hequal := (timed_ticks run e he).mp htick
  have hlate := hboth.2 e he
  omega

/-- So the loop keeps to its period if and only if no reading is late. -/
theorem periodLaw_iff {m : Int} {s₀ s : TimedLoop} {as : List (LoopAction (Int × Int))}
    {tr : List TimedPass} (run : Run (timedStep m) TimedLoop.Admits s₀ as tr s) :
    PeriodLaw m tr ↔ ∀ e ∈ tr, e.elapsed ≤ m := by
  refine forall₂_congr fun e he => ?_
  rw [timed_ticks run e he]
  omega

/-- What `getopt` returns for "hjt:". The `j` has no colon behind it, so its `optarg` is NULL. -/
inductive CommandOption where
  | h
  | j
  | t (optarg : Text)
  | unknown

/-- The variables of `main` that its options are kept in. -/
structure MainVars where
  j : Int
  t : Int
  numJobThreads : Int
  numTick : Int

/-- The body of the option loop; `none` is an exit, or the `atoi` of NULL. -/
def optionCase (v : MainVars) : CommandOption → Option MainVars
  | .h => none
  | .j => none
  | .t optarg => some { v with numTick := atoi optarg }
  | .unknown => none

def optionLoop : MainVars → List CommandOption → Option MainVars
  | v, [] => some v
  | v, opt :: rest => do
    let v' ← optionCase v opt
    optionLoop v' rest

/-- The argument that `main` passes to the tick thread. -/
def tickArgument (v : MainVars) : Option Int := if v.t ≠ 0 then some v.numTick else none

/-- The loop that `run_tick` enters. -/
inductive TickMode where
  | timed (m : Int)
  | uponInput
  deriving DecidableEq

def runTick (num : Option Int) : TickMode :=
  let m := num.getD 0
  if m ≠ 0 then .timed m else .uponInput

/-- The loop that the tick thread is in, once `main` has read its options. -/
def mainTickMode (options : List CommandOption) : Option TickMode :=
  (optionLoop ⟨0, 0, 0, 0⟩ options).map fun v => runTick (tickArgument v)

/-- Nothing in the option loop assigns `t`. -/
theorem optionLoop_t {v v' : MainVars} {options : List CommandOption}
    (h : optionLoop v options = some v') : v'.t = v.t := by
  induction options generalizing v with
  | nil =>
    obtain rfl := Option.some.inj h
    rfl
  | cons opt rest ih =>
    simp only [optionLoop, Option.bind_eq_bind, Option.bind_eq_some_iff] at h
    obtain ⟨v₁, hcase, h⟩ := h
    cases opt with
    | t optarg =>
      obtain rfl := Option.some.inj hcase
      have hrest := ih h
      exact hrest
    | _ => cases hcase

theorem mainTickMode_eq {options : List CommandOption} {mode : TickMode}
    (h : mainTickMode options = some mode) : mode = .uponInput := by
  obtain ⟨v, hv, rfl⟩ := Option.map_eq_some_iff.mp h
  have ht : v.t = 0 := optionLoop_t hv
  simp [tickArgument, ht, runTick]

/-- What `-t M` is for: the timed loop, and a tick at every reading that is due. -/
def TimedTicks (options : List CommandOption) (m : Int) (tr : List TimedPass) : Prop :=
  mainTickMode options = some (.timed m) ∧ PeriodLaw m tr

/-- For no options, no period and no clock are there timed ticks: `main` never starts the timed
loop. Had it been started, it would keep to its period exactly while no reading is late. -/
theorem timedTicks_never (options : List CommandOption) {m : Int} (_hm : 1 ≤ m) {start : Int}
    {as : List (LoopAction (Int × Int))} {tr : List TimedPass} {s : TimedLoop}
    (run : Run (timedStep m) TimedLoop.Admits ⟨Server.start, start, start⟩ as tr s) :
    ¬ TimedTicks options m tr ∧ (PeriodLaw m tr ↔ ∀ e ∈ tr, e.elapsed ≤ m) := by
  refine ⟨fun h => ?_, periodLaw_iff run⟩
  have hmode := mainTickMode_eq h.1
  cases hmode

/-- A period of 2 seconds; the clock reads 1 and then 2. -/
theorem timedTicks_never_sample : ¬ TimedTicks [.t ['2']] 2
    ((exec (timedStep 2) TimedLoop.Admits ⟨Server.start, 0, 0⟩ [.pass (1, 1), .pass (2, 2)]).get
      (by decide)).2 :=
  (timedTicks_never [.t ['2']] (by decide) (run_of_isSome (by decide))).1

theorem timedTicks_fails : ¬ ∀ (options : List CommandOption) (m : Int) start as tr s, 1 ≤ m →
    (∃ optarg, .t optarg ∈ options ∧ atoi optarg = m) →
    Run (timedStep m) TimedLoop.Admits ⟨Server.start, start, start⟩ as tr s →
    TimedTicks options m tr := by
  intro claim
  have hlaw := claim [.t ['2']] 2 0 [] [] _ (by decide) ⟨['2'], by simp, by decide⟩ .start
  have hmode : mainTickMode [.t ['2']] = some .uponInput := by decide
  rw [TimedTicks, hmode] at hlaw
  cases hlaw.1

end ZBid
