import ZBid.Process

/-!
# Each thread has the tokens of its own message

As long as no thread calls `strtok` between the calls of another, what main makes of a LOGIN and a
job thread of a job is what it would make of it alone.
-/
namespace ZBid

open CInt CString Runs Framing

/-- The message that a job thread is on, when it is one to parse. -/
def JobThread.task : JobThread → Option (ParseKind × Text)
  | .processing job =>
    job.request.job.kind.map fun kind => (kind, cstr job.request.job.jobBuffer)
  | _ => none

/-- The message that a thread is on, when it is one to parse. -/
def Process.task (s : Process) : ThreadId → Option (ParseKind × Text)
  | .main => s.visitor.bind fun v => v.kind.map fun kind => (kind, cstr v.body)
  | .job j => s.jobThreads[j]?.bind JobThread.task
  | .client _ | .tick => none

/-- A thread calls `strtok` on the message it is on, and what it has in the end are the tokens of
that message. -/
structure ParseInv (s : Process) : Prop where
  kept : s.tokenizer.Kept
  begun : ∀ t, ∀ p ∈ s.tokenizer.parses t, s.task t = some (p.kind, p.message) ∧ s.received t = none
  obtained : ∀ t kind message, s.task t = some (kind, message) → ∀ p ∈ s.received t,
    p = ⟨kind, message, (strtoks crOrLf kind.calls message).1⟩

section Parsing

variable {s s' : Process} {t : ThreadId}

theorem turn_received {kind : Option ParseKind} {bytes : List Char} {s₁ : Process}
    (h : s.turn t kind bytes = some s₁) : s₁.received = Function.update s.received t none := by
  cases kind with
  | none =>
    obtain rfl := Option.some.inj h
    rfl
  | some kind =>
    simp only [Process.turn, Option.bind_eq_bind, Option.bind_eq_some_iff] at h
    obtain ⟨_, -, h⟩ := h
    obtain rfl := Option.some.inj h
    rfl

/-- A thread that was not parsing turns to a message: the parses of the others are as they were. -/
theorem turn_parses {kind : Option ParseKind} {bytes : List Char} {s₁ : Process}
    (h : s.turn t kind bytes = some s₁) (kept : s.tokenizer.Kept)
    (hidle : s.tokenizer.parses t = none) :
    s₁.tokenizer.Kept ∧ ∀ u, ∀ p ∈ s₁.tokenizer.parses u,
      u = t ∧ kind = some p.kind ∧ p.message = cstr bytes ∨
        u ≠ t ∧ p ∈ s.tokenizer.parses u := by
  cases kind with
  | none =>
    obtain rfl := Option.some.inj h
    refine ⟨kept, fun u p hp => Or.inr ⟨?_, hp⟩⟩
    rintro rfl
    rw [hidle] at hp
    cases hp
  | some kind =>
    simp only [Process.turn, Option.bind_eq_bind, Option.bind_eq_some_iff] at h
    obtain ⟨⟨tokenizer, done⟩, hparse, h⟩ := h
    obtain rfl := Option.some.inj h
    have hok : s.tokenizer.Uninterrupted (.parse t kind bytes) := trivial
    refine ⟨(kept.step hok hparse).1, fun u p hp => ?_⟩
    obtain ⟨t, kind, bytes, heq, -, -, rfl⟩ | ⟨t, p, heq, -⟩ := Tokenizer.step_cases hparse
    · obtain ⟨rfl, rfl, rfl⟩ := TokenAction.parse.inj heq
      by_cases hu : u = t
      · subst hu
        obtain rfl : _ = p := by simpa using hp
        exact Or.inl ⟨rfl, rfl, rfl⟩
      · exact Or.inr ⟨hu, by simpa [Function.update_of_ne hu] using hp⟩
    · cases heq

/-- A thread turns to a message. -/
theorem ParseInv.turn (inv : ParseInv s) {kind : Option ParseKind} {bytes : List Char}
    {s₁ : Process} (h : s.turn t kind bytes = some s₁) (hidle : s.task t = none)
    (htokenizer : s'.tokenizer = s₁.tokenizer) (hreceived : s'.received = s₁.received)
    (htask : s'.task = Function.update s.task t (kind.map fun kind => (kind, cstr bytes))) :
    ParseInv s' := by
  have hparses : s.tokenizer.parses t = none := by
    by_contra hsome
    obtain ⟨p, hp⟩ := Option.ne_none_iff_exists'.mp hsome
    exact absurd (hidle.symm.trans (inv.begun t p hp).1) (by simp)
  obtain ⟨hkept, hothers⟩ := turn_parses h inv.kept hparses
  rw [turn_received h] at hreceived
  constructor
  · exact htokenizer ▸ hkept
  · intro u p hp
    rw [htask, hreceived]
    rcases hothers u p (htokenizer ▸ hp) with ⟨rfl, hkind, hmessage⟩ | ⟨hu, hp⟩
    · simp [hkind, hmessage]
    · rw [Function.update_of_ne hu, Function.update_of_ne hu]
      exact inv.begun u p hp
  · intro u k message hu p hp
    rw [hreceived] at hp
    by_cases hut : u = t
    · subst hut
      simp at hp
    · rw [htask, Function.update_of_ne hut] at hu
      rw [Function.update_of_ne hut] at hp
      exact inv.obtained u k message hu p hp

/-- A thread is done with its message: it had none to parse, or has made all the calls. -/
theorem ParseInv.leave (inv : ParseInv s) (hdone : s.task t = none ∨ (s.received t).isSome)
    (htokenizer : s'.tokenizer = s.tokenizer) (hreceived : s'.received = s.received)
    (htask : s'.task = Function.update s.task t none) : ParseInv s' := by
  constructor
  · exact htokenizer ▸ inv.kept
  · intro u p hp
    obtain ⟨hu, hnone⟩ := inv.begun u p (htokenizer ▸ hp)
    have hut : u ≠ t := by
      rintro rfl
      rcases hdone with hdone | hdone
      · exact absurd (hdone.symm.trans hu) (by simp)
      · simp [hnone] at hdone
    rw [htask, hreceived, Function.update_of_ne hut]
    exact ⟨hu, hnone⟩
  · intro u k message hu p hp
    by_cases hut : u = t
    · subst hut
      simp [htask] at hu
    · rw [htask, Function.update_of_ne hut] at hu
      exact inv.obtained u k message hu p (hreceived ▸ hp)

/-- No thread turns to a message or leaves one. -/
theorem ParseInv.same (inv : ParseInv s) (htokenizer : s'.tokenizer = s.tokenizer)
    (hreceived : s'.received = s.received) (htask : s'.task = s.task) : ParseInv s' := by
  constructor
  · exact htokenizer ▸ inv.kept
  · intro u p hp
    rw [htask, hreceived]
    exact inv.begun u p (htokenizer ▸ hp)
  · intro u k message hu p hp
    exact inv.obtained u k message (htask ▸ hu) p (hreceived ▸ hp)

/-- A thread makes one of its calls. -/
theorem ParseInv.strtok (inv : ParseInv s) (hok : s.tokenizer.Uninterrupted (.strtok t))
    {done : List Parse} (h : s.tokenizer.step (.strtok t) = some (s'.tokenizer, done))
    (hreceived : s'.received =
      if done = [] then s.received else Function.update s.received t done.head?)
    (htask : s'.task = s.task) : ParseInv s' := by
  obtain ⟨hkept, hdone⟩ := inv.kept.step hok h
  obtain ⟨_, _, _, heq, -⟩ | ⟨t, p, heq, hp, -, -, hcases⟩ := Tokenizer.step_cases h
  · cases heq
  obtain rfl := TokenAction.strtok.inj heq
  obtain ⟨hpt, hnone⟩ := inv.begun _ p hp
  constructor
  · exact hkept
  · intro u q hq
    rw [htask, hreceived]
    obtain ⟨-, hparses, rfl⟩ | ⟨-, hparses, rfl⟩ := hcases
    · by_cases hu : u = t
      · simp [hparses, hu] at hq
      · rw [hparses, Function.update_of_ne hu] at hq
        simpa [Function.update_of_ne hu] using inv.begun u q hq
    · by_cases hu : u = t
      · subst hu
        obtain rfl : _ = q := by simpa [hparses] using hq
        exact ⟨hpt, by simpa using hnone⟩
      · rw [hparses, Function.update_of_ne hu] at hq
        simpa using inv.begun u q hq
  · intro u k message hu q hq
    rw [htask] at hu
    rw [hreceived] at hq
    obtain ⟨-, -, rfl⟩ | ⟨-, -, rfl⟩ := hcases
    · by_cases hut : u = t
      · subst hut
        obtain ⟨rfl, rfl⟩ := Prod.mk.inj (Option.some.inj (hpt.symm.trans hu))
        obtain rfl : _ = q := by simpa using hq
        simpa [Parse.called] using hdone _ List.mem_cons_self
      · exact inv.obtained u k message hu q (by simpa [Function.update_of_ne hut] using hq)
    · exact inv.obtained u k message hu q (by simpa using hq)

end Parsing

/-- With the tokens of its own message, a job thread does what `processJob` does alone. -/
theorem processJob_of_handle {s : Server} {env : JobEnv} {job : Job} {received : Option Parse}
    {result : Server × List Event}
    (hown : ∀ kind, job.kind = some kind → ∀ p ∈ received,
      p = ⟨kind, cstr job.jobBuffer, (strtoks crOrLf kind.calls (cstr job.jobBuffer)).1⟩)
    (h : s.handle env job received = some result) :
    processJob s env job = some result ∧ (job.kind = none ∨ received.isSome) := by
  cases hkind : job.kind with
  | none => exact ⟨by simpa [Server.handle, hkind] using h, Or.inl rfl⟩
  | some kind =>
    cases received with
    | none => simp [Server.handle, hkind] at h
    | some p =>
      refine ⟨?_, Or.inr rfl⟩
      have hp := hown kind hkind p rfl
      have hrequest : p.request = p.alone := request_of_own (by rw [hp])
      simp only [Server.handle, hkind, Option.bind_some, hrequest] at h
      simp only [Parse.alone, hp] at h
      simp only [Job.kind] at hkind
      split at hkind
      · rename_i htype
        obtain rfl := Option.some.inj hkind
        simp only [processJob, htype]
        cases hargs : ancreateArgs (cstr job.jobBuffer) with
        | none => simp [hargs] at h
        | some args => simpa [hargs] using h
      · rename_i htype
        obtain rfl := Option.some.inj hkind
        simp only [processJob, htype]
        cases hargs : anbidArgs (cstr job.jobBuffer) with
        | none => simp [hargs] at h
        | some args => simpa [hargs] using h
      · cases hkind

/-- With the tokens of its own message, main does what `acceptClient` does. -/
theorem acceptClient_of_acceptVisitor {s : Server} {v : Visitor} {received : Option Parse}
    {result : Server × List Event × Bool}
    (hown : ∀ kind, v.kind = some kind → ∀ p ∈ received,
      p = ⟨kind, cstr v.body, (strtoks crOrLf kind.calls (cstr v.body)).1⟩)
    (h : s.acceptVisitor v received = some result) :
    acceptClient s v.clientFd v.msgType v.body = some result ∧
      (v.kind = none ∨ received.isSome) := by
  cases hkind : v.kind with
  | none => exact ⟨by simpa [Server.acceptVisitor, hkind] using h, Or.inl rfl⟩
  | some kind =>
    cases received with
    | none => simp [Server.acceptVisitor, hkind] at h
    | some p =>
      refine ⟨?_, Or.inr rfl⟩
      have hp := hown kind hkind p rfl
      simp only [Visitor.kind] at hkind
      split at hkind
      · rename_i htype
        obtain rfl := Option.some.inj hkind
        simpa [Server.acceptVisitor, Visitor.kind, htype, hp, strtoks, ParseKind.calls,
          acceptClient, loginArgs, Server.opened] using h
      · cases hkind

section Effect

variable {c : Codec Char} {s s' : Process} {action : ProcessAction} {out : List ProgramMark}

theorem task_same (hvisitor : s'.visitor = s.visitor) (hthreads : s'.jobThreads = s.jobThreads) :
    s'.task = s.task := by
  funext u
  cases u <;> simp [Process.task, hvisitor, hthreads]

theorem task_jobThread {j : Nat} {thread thread' : JobThread}
    (hj : s.jobThreads[j]? = some thread) (hvisitor : s'.visitor = s.visitor)
    (hthreads : s'.jobThreads = s.jobThreads.set j thread') :
    s'.task = Function.update s.task (.job j) thread'.task := by
  have hlt := (List.getElem?_eq_some_iff.mp hj).1
  funext u
  cases u with
  | job k =>
    by_cases hk : k = j
    · subst hk
      simp [Process.task, hthreads, hlt]
    · have hne : ThreadId.job k ≠ .job j := fun h => hk (ThreadId.job.inj h)
      rw [Function.update_of_ne hne]
      simp [Process.task, hthreads, List.getElem?_set_ne (Ne.symm hk)]
  | main => simp [Process.task, hvisitor]
  | client | tick => simp [Process.task]

theorem task_visitor (hthreads : s'.jobThreads = s.jobThreads) : s'.task =
    Function.update s.task .main
      (s'.visitor.bind fun v => v.kind.map fun kind => (kind, cstr v.body)) := by
  funext u
  cases u with
  | main => simp [Process.task]
  | job | client | tick => simp [Process.task, hthreads]

/-- A job thread is done with its message. -/
theorem ParseInv.leaveJob (inv : ParseInv s) {j : Nat} {thread thread' : JobThread}
    (hj : s.jobThreads[j]? = some thread)
    (hdone : thread.task = none ∨ (s.received (.job j)).isSome)
    (htokenizer : s'.tokenizer = s.tokenizer) (hreceived : s'.received = s.received)
    (hvisitor : s'.visitor = s.visitor) (hthreads : s'.jobThreads = s.jobThreads.set j thread')
    (hnew : thread'.task = none) : ParseInv s' := by
  refine inv.leave ?_ htokenizer hreceived (hnew ▸ task_jobThread hj hvisitor hthreads)
  exact hdone.imp_left fun hnone => by simp [Process.task, hj, hnone]

/-- Main has the tokens of the first message of the connection. -/
theorem ParseInv.visitor (inv : ParseInv s) {v : Visitor} (hvisitor : s.visitor = some v)
    (kind : ParseKind) (hkind : v.kind = some kind) : ∀ p ∈ s.received .main,
      p = ⟨kind, cstr v.body, (strtoks crOrLf kind.calls (cstr v.body)).1⟩ :=
  inv.obtained .main kind _ (by simp [Process.task, hvisitor, hkind])

/-- A job thread has the tokens of its job. -/
theorem ParseInv.job (inv : ParseInv s) {j : Nat} {job : JobBlock}
    (hj : s.jobThreads[j]? = some (.processing job)) (kind : ParseKind)
    (hkind : job.request.job.kind = some kind) : ∀ p ∈ s.received (.job j),
      p = ⟨kind, cstr job.request.job.jobBuffer,
        (strtoks crOrLf kind.calls (cstr job.request.job.jobBuffer)).1⟩ :=
  inv.obtained (.job j) kind _ (by simp [Process.task, hj, JobThread.task, hkind])

theorem parseInv_effect (inv : ParseInv s) (hok : s.Uninterrupted action)
    (h : ProcessEffect c s action s' out) : ParseInv s' := by
  cases h with
  | @accept v s₁ hvisitor hturn =>
    have hframe := turn_frame hturn
    refine inv.turn hturn (by simp [Process.task, hvisitor]) rfl rfl ?_
    have hthreads : s₁.jobThreads = s.jobThreads := by rw [hframe]
    have htask : Process.task { s₁ with visitor := some v } = _ := task_visitor hthreads
    exact htask
  | strtok hstep => exact inv.strtok hok hstep rfl (task_same rfl rfl)
  | @connect v _ _ _ hvisitor haccept =>
    obtain ⟨-, hdone⟩ := acceptClient_of_acceptVisitor (inv.visitor hvisitor) haccept
    refine inv.leave (t := .main) ?_ rfl rfl (task_visitor rfl)
    exact hdone.imp_left fun hkind => by simp [Process.task, hvisitor, hkind]
  | read | insert | test | tick => exact inv.same rfl rfl (task_same rfl rfl)
  | @begin j job s₁ hj hturn =>
    have hframe := turn_frame hturn
    have hvisitor : s₁.visitor = s.visitor := by rw [hframe]
    have htask : Process.task { s₁ with jobThreads := s.jobThreads.set j (.processing job) } =
        Function.update s.task (.job j) (JobThread.processing job).task :=
      task_jobThread hj hvisitor rfl
    exact inv.turn hturn (by simp [Process.task, hj, JobThread.task]) rfl rfl htask
  | @handle j _ job _ _ hj hhandle =>
    obtain ⟨-, hdone⟩ := processJob_of_handle (inv.job hj) hhandle
    refine inv.leaveJob hj ?_ rfl rfl rfl rfl rfl
    exact hdone.imp_left fun hkind => by simp [JobThread.task, hkind]
  | call hj | remove hj | null hj | free hj =>
    exact inv.leaveJob hj (Or.inl rfl) rfl rfl rfl rfl rfl

end Effect

end ZBid
