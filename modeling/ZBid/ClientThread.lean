import ZBid.Lib.Framing
import ZBid.Sessions
import Mathlib.Data.List.TakeWhile

/-!
# process_client: from the byte stream to the jobs

One client thread, from the start of its loop. `rd_msgheader` belongs to the protocol library, and
how it writes a header is a parameter; it leaves the header as it is when no whole one is left in
the stream, and its result is not looked at. What the reads return, and what happens to stand in
memory, is part of each action.
-/
namespace ZBid

open CString Runs Framing

/-- The connection as the thread reads it, and whether the thread has returned. -/
structure ClientThread where
  stream : List Char
  returned : Bool
  deriving DecidableEq, Repr

/-- What one round of the loop meets: the header variable and the bytes lost behind a failed
`rd_msgheader`, the result of `read` (`none` is -1), the bytes behind the body's buffer, and the
size of the block that `malloc(sizeof(header.msg_len))` hands out for the copy of the body. -/
structure ReadEnv where
  header : Header
  skipped : Nat
  count : Option Nat
  beyond : List Char
  room : Nat
  deriving DecidableEq, Repr

/-- The header after `rd_msgheader`, and the rest of the stream. -/
def rdMsgheader (c : Codec Char) (stream : List Char) (env : ReadEnv) : Header × List Char :=
  if c.size ≤ stream.length then (c.decode (stream.take c.size), stream.drop c.size)
  else (env.header, stream.drop env.skipped)

/-- One round of the loop of `process_client`; the log has the jobs it inserts. The buffer of the
body is zeroed before `read`, and copied as a C string; a copy past its block is undefined. -/
def processClient (c : Codec Char) (clientFd : Int) : Step ClientThread ReadEnv Job :=
  fun s env =>
    if s.returned then none
    else
      let (header, rest) := rdMsgheader c s.stream env
      if header.kind = 0 then some (⟨rest, false⟩, [])
      else
        match env.count with
        | none => some (⟨rest, false⟩, [])
        | some receivedSize =>
          if receivedSize ≤ header.length ∧ receivedSize ≤ rest.length then
            let jobBuffer := rest.take receivedSize ++
              List.replicate (header.length - receivedSize) '\x00'
            let newJob : Job := ⟨cstr (jobBuffer ++ env.beyond), header.kind, clientFd⟩
            if newJob.jobBuffer.length < env.room then
              some (⟨rest.drop receivedSize, decide (header.kind = MsgType.LOGOUT.code)⟩,
                [newJob])
            else none
          else none

/-- A `read` that does not fail, and a block of the four bytes that the code asks for. -/
def Permitted (_ : ClientThread) (env : ReadEnv) : Prop := env.count ≠ none ∧ 4 ≤ env.room

instance (s : ClientThread) (env : ReadEnv) : Decidable (Permitted s env) :=
  inferInstanceAs (Decidable (_ ≠ _ ∧ _))

/-- A body with no NUL but perhaps its last byte; without that one, a NUL stands behind it. -/
def CleanBody (body beyond : List Char) : Prop :=
  (∀ b ∈ body.dropLast, b ≠ '\x00') ∧
    (body.getLast? = some '\x00' ∨ ∀ b ∈ beyond.head?, b = '\x00')

/-- A round in which a header that is there has a whole, clean body behind it that `read` returns
at once and whose copy has room, and in which a failed `rd_msgheader` finds type 0 in the header
variable. -/
def ReadsWhole (c : Codec Char) (s : ClientThread) (env : ReadEnv) : Prop :=
  if c.size ≤ s.stream.length then
    let header := c.decode (s.stream.take c.size)
    let rest := s.stream.drop c.size
    header.length ≤ rest.length ∧ env.count = some header.length ∧
      CleanBody (rest.take header.length) env.beyond ∧
      (cstr (rest.take header.length ++ env.beyond)).length < env.room
  else env.header.kind = 0

instance (body beyond : List Char) : Decidable (CleanBody body beyond) :=
  have : Decidable (∀ b ∈ body.dropLast, b ≠ '\x00') := List.decidableBAll _ _
  have : Decidable (∀ b ∈ beyond.head?, b = '\x00') := Option.decidableForallMem _
  inferInstanceAs (Decidable (_ ∧ (_ ∨ _)))

instance (c : Codec Char) (s : ClientThread) (env : ReadEnv) : Decidable (ReadsWhole c s env) :=
  inferInstanceAs (Decidable (ite _ _ _))

variable {c : Codec Char}

/-- The job of a message: its type, its sender, and its whole body as a C string. -/
def Carries (clientFd : Int) (m : Frame c) (job : Job) : Prop :=
  job.jobMsgType = m.kind ∧ job.clientfd = clientFd ∧
    (m.body = job.jobBuffer ∨ m.body = job.jobBuffer ++ ['\x00'])

/-- The messages up to the first LOGOUT, and that one. -/
def upToLogout : List (Frame c) → List (Frame c)
  | [] => []
  | m :: ms => if m.kind = MsgType.LOGOUT.code then [m] else m :: upToLogout ms

/-- The jobs are those of the first messages, in order; and of all of them, once the thread has
returned or no header is left in the stream. -/
structure FramingLaw (clientFd : Int) (messages : List (Frame c)) (tr : List Job)
    (s : ClientThread) : Prop where
  order : ∃ done, done <+: upToLogout messages ∧ List.Forall₂ (Carries clientFd) done tr
  all : s.returned = true ∨ s.stream.length < c.size →
    List.Forall₂ (Carries clientFd) (upToLogout messages) tr

theorem cstr_append_nul {t : List Char} (h : ∀ b ∈ t, b ≠ '\x00') (rest : List Char) :
    cstr (t ++ '\x00' :: rest) = t := by
  rw [cstr, List.takeWhile_append_of_pos (by simpa using h)]
  simp

theorem cstr_clean {body beyond : List Char} (h : CleanBody body beyond) :
    body = cstr (body ++ beyond) ∨ body = cstr (body ++ beyond) ++ ['\x00'] := by
  obtain ⟨hfront, hlast⟩ := h
  by_cases hnul : body.getLast? = some '\x00'
  · obtain ⟨init, rfl⟩ := List.getLast?_eq_some_iff.mp hnul
    rw [List.dropLast_concat] at hfront
    rw [List.append_assoc, List.singleton_append, cstr_append_nul hfront]
    exact Or.inr rfl
  · have hbeyond := hlast.resolve_left hnul
    have hbody : ∀ b ∈ body, b ≠ '\x00' := by
      cases List.eq_nil_or_concat body with
      | inl hnil => simp [hnil]
      | inr hconcat =>
        obtain ⟨init, b, rfl⟩ := hconcat
        simp only [List.concat_eq_append, List.dropLast_concat, List.getLast?_concat,
          Option.some.injEq] at hfront hnul
        rw [List.concat_eq_append]
        intro d hd
        cases List.mem_append.mp hd with
        | inl hd => exact hfront d hd
        | inr hd => exact List.mem_singleton.mp hd ▸ hnul
    refine Or.inl ?_
    cases beyond with
    | nil => rw [List.append_nil, cstr, List.takeWhile_eq_self_iff.mpr (by simpa using hbody)]
    | cons b beyond =>
      obtain rfl : b = '\x00' := hbeyond b rfl
      rw [cstr_append_nul hbody]

/-- A round that finds a message inserts its job and goes on behind it. -/
theorem processClient_message {clientFd : Int} {m : Frame c} {after : List Char}
    {s s' : ClientThread} {env : ReadEnv} {out : List Job} (hstream : s.stream = m.bytes ++ after)
    (hkind : m.kind ≠ 0) (hok : ReadsWhole c s env)
    (h : processClient c clientFd s env = some (s', out)) :
    ∃ job, out = [job] ∧ Carries clientFd m job ∧
      s' = ⟨after, decide (m.kind = MsgType.LOGOUT.code)⟩ := by
  have hlen : c.size ≤ s.stream.length := by
    rw [hstream, List.length_append, m.length_bytes]
    omega
  have hheader : c.decode (s.stream.take c.size) = m.header := hstream ▸ m.decode_bytes after
  have hrest : s.stream.drop c.size = m.body ++ after := hstream ▸ m.drop_bytes after
  have hbody : (m.body ++ after).take m.body.length = m.body := List.take_left
  simp only [ReadsWhole, if_pos hlen, hheader, hrest, Frame.header, hbody] at hok
  obtain ⟨-, hcount, hclean, hroom⟩ := hok
  simp only [processClient, rdMsgheader, if_pos hlen, hheader, hrest, Frame.header, hcount, hkind,
    ↓reduceIte] at h
  split at h
  · cases h
  rw [if_pos ⟨le_rfl, by simp⟩] at h
  simp only [hbody, Nat.sub_self, List.replicate_zero, List.append_nil, List.drop_left, hroom,
    ↓reduceIte, Option.some.injEq, Prod.mk.injEq] at h
  obtain ⟨rfl, rfl⟩ := h
  exact ⟨_, rfl, ⟨rfl, rfl, cstr_clean hclean⟩, rfl⟩

theorem processClient_end {clientFd : Int} {s s' : ClientThread} {env : ReadEnv} {out : List Job}
    (hshort : s.stream.length < c.size) (hok : ReadsWhole c s env)
    (h : processClient c clientFd s env = some (s', out)) :
    out = [] ∧ s' = ⟨s.stream.drop env.skipped, false⟩ := by
  have hlen : ¬ c.size ≤ s.stream.length := by omega
  simp only [ReadsWhole, if_neg hlen] at hok
  simp only [processClient, rdMsgheader, if_neg hlen, hok, ↓reduceIte] at h
  split at h
  · cases h
  · simp only [Option.some.injEq, Prod.mk.injEq] at h
    exact ⟨h.2.symm, h.1.symm⟩

theorem upToLogout_append {done rest : List (Frame c)}
    (h : ∀ m ∈ done, m.kind ≠ MsgType.LOGOUT.code) :
    upToLogout (done ++ rest) = done ++ upToLogout rest := by
  induction done with
  | nil => rfl
  | cons m done ih =>
    have hm := h m List.mem_cons_self
    have hrest := ih fun f hf => h f (List.mem_cons_of_mem _ hf)
    simp [upToLogout, hm, hrest]

/-- A round of a client thread of the system is a request there, or queues nothing; the thread
returns exactly when the system lets it go. -/
theorem processClient_request {sys : System} {i : Nat} {client : Client} {s s' : ClientThread}
    {env : ReadEnv} {out : List Job} (hi : sys.clients[i]? = some client)
    (h : processClient c client.clientFd s env = some (s', out)) :
    (out = [] ∧ s'.returned = false) ∨ ∃ job, out = [job] ∧
      System.step sys (.request i job.jobMsgType job.jobBuffer) = some ({ sys with
        clients := if s'.returned then sys.clients.eraseIdx i else sys.clients
        pending := sys.pending ++ [job] }, []) := by
  simp only [processClient] at h
  split at h
  · cases h
  split at h
  · obtain ⟨rfl, rfl⟩ := Prod.mk.inj (Option.some.inj h)
    exact Or.inl ⟨rfl, rfl⟩
  rename_i hkind
  split at h
  · obtain ⟨rfl, rfl⟩ := Prod.mk.inj (Option.some.inj h)
    exact Or.inl ⟨rfl, rfl⟩
  split at h
  · split at h
    · obtain ⟨rfl, rfl⟩ := Prod.mk.inj (Option.some.inj h)
      exact Or.inr ⟨_, rfl, by simp [System.step, hi, hkind]⟩
    · cases h
  · cases h

/-- While the thread reads: the messages behind it, without a LOGOUT, gave the jobs; those before
it are in the stream, with the torn end behind them. -/
structure Reading (clientFd : Int) (messages : List (Frame c)) (torn : List Char) (tr : List Job)
    (s : ClientThread) (done rest : List (Frame c)) (tail : List Char) : Prop where
  reading : s.returned = false
  split : messages = done ++ rest
  noLogout : ∀ m ∈ done, m.kind ≠ MsgType.LOGOUT.code
  jobs : List.Forall₂ (Carries clientFd) done tr
  stream : s.stream = Framing.stream rest ++ tail
  tail : tail = torn ∨ rest = [] ∧ tail.length < c.size

/-- The thread reads on, or it has returned behind the first LOGOUT. -/
def ThreadInv (clientFd : Int) (messages : List (Frame c)) (torn : List Char) (tr : List Job)
    (s : ClientThread) : Prop :=
  (∃ done rest tail, Reading clientFd messages torn tr s done rest tail) ∨
    s.returned = true ∧ List.Forall₂ (Carries clientFd) (upToLogout messages) tr

theorem forall₂_concat {fd : Int} {done : List (Frame c)} {m : Frame c} {tr : List Job} {job : Job}
    (h : List.Forall₂ (Carries fd) done tr) (hm : Carries fd m job) :
    List.Forall₂ (Carries fd) (done ++ [m]) (tr ++ [job]) := by
  induction h with
  | nil => exact .cons hm .nil
  | cons hd _ ih => exact .cons hd ih

/-- The thread is at a message. -/
theorem Reading.message {clientFd : Int} {messages : List (Frame c)} {torn tail : List Char}
    {tr out : List Job} {s s' : ClientThread} {m : Frame c} {done rest : List (Frame c)}
    {env : ReadEnv} (inv : Reading clientFd messages torn tr s done (m :: rest) tail)
    (hkind : m.kind ≠ 0) (hok : ReadsWhole c s env)
    (h : processClient c clientFd s env = some (s', out)) :
    ThreadInv clientFd messages torn (tr ++ out) s' := by
  have hstream : s.stream = m.bytes ++ (Framing.stream rest ++ tail) := by
    rw [inv.stream, stream_cons, List.append_assoc]
  obtain ⟨job, rfl, hcarries, rfl⟩ := processClient_message hstream hkind hok h
  have hjobs := forall₂_concat inv.jobs hcarries
  by_cases hlogout : m.kind = MsgType.LOGOUT.code
  · refine Or.inr ⟨by simpa using hlogout, ?_⟩
    rw [inv.split, upToLogout_append inv.noLogout]
    simpa [upToLogout, hlogout] using hjobs
  · refine Or.inl ⟨done ++ [m], rest, tail, ?_⟩
    constructor
    · simpa using hlogout
    · simp [inv.split]
    · intro f hf
      cases List.mem_append.mp hf with
      | inl hf => exact inv.noLogout f hf
      | inr hf => exact List.mem_singleton.mp hf ▸ hlogout
    · exact hjobs
    · rfl
    · exact inv.tail.imp_right fun ⟨hnil, _⟩ => by cases hnil

/-- The thread is behind the last message: a header that is still there has no whole body behind
it, so that only a failed `rd_msgheader` is left. -/
theorem Reading.ended {clientFd : Int} {messages : List (Frame c)} {tail : List Char}
    {tr out : List Job} {s s' : ClientThread} {done : List (Frame c)} {env : ReadEnv}
    {last : Frame c} {cut : Nat} (hcut : cut < last.bytes.length)
    (inv : Reading clientFd messages (last.bytes.take cut) tr s done [] tail)
    (hok : ReadsWhole c s env) (h : processClient c clientFd s env = some (s', out)) :
    ThreadInv clientFd messages (last.bytes.take cut) (tr ++ out) s' := by
  have hstream : s.stream = tail := by simpa using inv.stream
  have hshort : s.stream.length < c.size := by
    cases inv.tail with
    | inr hshort => exact hstream ▸ hshort.2
    | inl htorn =>
      by_contra hlong
      have hlen : c.size ≤ s.stream.length := by omega
      have hsize : c.size ≤ cut := by
        rw [hstream, htorn, List.length_take] at hlen
        omega
      have hheader : c.decode (s.stream.take c.size) = last.header := by
        rw [hstream, htorn]
        exact last.decode_take hsize
      simp only [ReadsWhole, if_pos hlen, hheader, Frame.header] at hok
      have hbody := hok.1
      rw [List.length_drop, hstream, htorn, List.length_take] at hbody
      have hbytes := last.length_bytes
      omega
  obtain ⟨rfl, rfl⟩ := processClient_end hshort hok h
  rw [List.append_nil]
  refine Or.inl ⟨done, [], s.stream.drop env.skipped, ?_⟩
  exact ⟨rfl, inv.split, inv.noLogout, inv.jobs, by simp, Or.inr ⟨rfl, by simp; omega⟩⟩

theorem threadInv_step {clientFd : Int} {messages : List (Frame c)}
    (hkinds : ∀ m ∈ messages, m.kind ≠ 0) {last : Frame c} {cut : Nat}
    (hcut : cut < last.bytes.length) {tr out : List Job} {s s' : ClientThread} {env : ReadEnv}
    (inv : ThreadInv clientFd messages (last.bytes.take cut) tr s) (hok : ReadsWhole c s env)
    (h : processClient c clientFd s env = some (s', out)) :
    ThreadInv clientFd messages (last.bytes.take cut) (tr ++ out) s' := by
  cases inv with
  | inl hreading =>
    obtain ⟨done, rest, tail, inv⟩ := hreading
    cases rest with
    | nil => exact inv.ended hcut hok h
    | cons m rest => exact inv.message (hkinds m (by simp [inv.split])) hok h
  | inr hreturned => simp [processClient, hreturned.1] at h

theorem ThreadInv.law {clientFd : Int} {messages : List (Frame c)} {torn : List Char}
    {tr : List Job} {s : ClientThread} (inv : ThreadInv clientFd messages torn tr s) :
    FramingLaw clientFd messages tr s := by
  cases inv with
  | inl hreading =>
    obtain ⟨done, rest, tail, inv⟩ := hreading
    have hsplit : upToLogout messages = done ++ upToLogout rest :=
      inv.split ▸ upToLogout_append inv.noLogout
    refine ⟨⟨done, hsplit ▸ List.prefix_append _ _, inv.jobs⟩, ?_⟩
    intro hend
    cases rest with
    | nil =>
      rw [hsplit]
      simpa [upToLogout] using inv.jobs
    | cons m rest =>
      have hshort := hend.resolve_left (by simp [inv.reading])
      rw [inv.stream, stream_cons, List.length_append, List.length_append, m.length_bytes] at hshort
      omega
  | inr hreturned => exact ⟨⟨_, List.prefix_refl _, hreturned.2⟩, fun _ => hreturned.2⟩

/-- Whatever is sent and wherever the stream breaks off, a thread whose rounds read whole queues
the jobs of the complete messages and no others. -/
theorem framingLaw_run (clientFd : Int) {messages : List (Frame c)}
    (hkinds : ∀ m ∈ messages, m.kind ≠ 0) (last : Frame c) {cut : Nat}
    (hcut : cut < last.bytes.length) {envs : List ReadEnv} {tr : List Job} {s : ClientThread}
    (run : Run (processClient c clientFd) (ReadsWhole c)
      ⟨stream messages ++ last.bytes.take cut, false⟩ envs tr s) :
    FramingLaw clientFd messages tr s := by
  have hstart : ThreadInv clientFd messages (last.bytes.take cut) []
      ⟨stream messages ++ last.bytes.take cut, false⟩ :=
    Or.inl ⟨[], messages, last.bytes.take cut, rfl, rfl, by simp, .nil, rfl, Or.inl rfl⟩
  have inv := run.invariant (P := fun _ tr s =>
    ThreadInv clientFd messages (last.bytes.take cut) tr s) hstart
    (fun _ inv hok h => threadInv_step hkinds hcut inv hok h)
  exact inv.law

/-- The byte of a number at a place: 1 for the lowest, 0x100 for the next. -/
def byte (n place : Nat) : Char := Char.ofNat (n / place % 0x100)

theorem byte_toNat (n place : Nat) : (byte n place).toNat = n / place % 0x100 := by
  have hlt : n / place % 0x100 < 0x100 := Nat.mod_lt _ (by decide)
  have hvalid : (n / place % 0x100).isValidChar := Or.inl (by omega)
  rw [byte, Char.ofNat, dif_pos hvalid]
  rfl

/-- A `petr_header` in memory: `msg_len` in four bytes, `msg_type` in one, and the padding. -/
def petrHeader : Codec Char where
  size := 8
  Fits h := h.kind < 0x100 ∧ h.length < 0x100000000
  encode h := [byte h.length 1, byte h.length 0x100, byte h.length 0x10000, byte h.length 0x1000000,
    byte h.kind 1, '\x00', '\x00', '\x00']
  decode
    | [a, b, c, d, t, _, _, _] =>
      ⟨t.toNat, a.toNat + 0x100 * b.toNat + 0x10000 * c.toNat + 0x1000000 * d.toNat⟩
    | _ => ⟨0, 0⟩
  encode_length _ := rfl
  decode_encode := by
    rintro ⟨kind, length⟩ ⟨hkind, hlength⟩
    simp only [byte_toNat, Header.mk.injEq]
    dsimp only at hkind hlength
    omega

/-- Every message type fits the byte of the header. -/
theorem MsgType.code_lt (t : MsgType) : t.code < 0x100 := by
  cases t <;> decide

def sampleFrame (t : MsgType) (body : List Char) (h : body.length < 0x100000000) :
    Frame petrHeader := ⟨t.code, body, t.code_lt, h⟩

/-- An ANWATCH, a USRBLNC, and then a connection that breaks off in the header of a LOGOUT. -/
def sampleMessages : List (Frame petrHeader) :=
  [sampleFrame .ANWATCH ['1', '\x00'] (by decide), sampleFrame .USRBLNC [] (by decide)]

def sampleLast : Frame petrHeader := sampleFrame .LOGOUT [] (by decide)

def sampleReads : List ReadEnv :=
  [⟨⟨0, 0⟩, 0, some 2, [], 4⟩, ⟨⟨0, 0⟩, 0, some 0, [], 4⟩, ⟨⟨0, 0⟩, 3, some 0, [], 4⟩]

def sampleThread : ClientThread :=
  ⟨stream sampleMessages ++ sampleLast.bytes.take 3, false⟩

theorem sampleReads_complete :
    (exec (processClient petrHeader 4) (ReadsWhole petrHeader) sampleThread
      sampleReads).isSome := by decide

theorem framingLaw_run_sample :
    FramingLaw 4 sampleMessages ((exec (processClient petrHeader 4) (ReadsWhole petrHeader)
        sampleThread sampleReads).get sampleReads_complete).2
      ((exec (processClient petrHeader 4) (ReadsWhole petrHeader) sampleThread
        sampleReads).get sampleReads_complete).1 :=
  framingLaw_run 4 (by decide) sampleLast (show 3 < sampleLast.bytes.length by decide)
    (run_of_isSome sampleReads_complete)

/-- A USRBLNC, and then the end of the stream: the header variable still holds its type. -/
def sampleReplay : List ReadEnv :=
  [⟨⟨0, 0⟩, 0, some 0, [], 4⟩, ⟨⟨MsgType.USRBLNC.code, 0⟩, 0, some 0, [], 4⟩]

def sampleReplayThread : ClientThread :=
  ⟨stream [sampleFrame .USRBLNC [] (by decide)] ++ sampleLast.bytes.take 0, false⟩

theorem sampleReplay_completes :
    (exec (processClient petrHeader 4) Permitted sampleReplayThread sampleReplay).isSome := by
  decide

theorem framingLaw_fails : ¬ ∀ (messages : List (Frame petrHeader)) (last : Frame petrHeader)
    (cut : Nat) (envs : List ReadEnv) (tr : List Job) (s : ClientThread),
    (∀ m ∈ messages, m.kind ≠ 0) → cut < last.bytes.length →
    Run (processClient petrHeader 4) Permitted ⟨stream messages ++ last.bytes.take cut, false⟩
      envs tr s → FramingLaw 4 messages tr s := by
  intro h
  have hlaw := h [sampleFrame .USRBLNC [] (by decide)] sampleLast 0 sampleReplay _ _ (by decide)
    (by decide) (run_of_isSome sampleReplay_completes)
  obtain ⟨done, hprefix, hjobs⟩ := hlaw.order
  have hdone := hprefix.length_le
  have htwo := hjobs.length_eq
  have hlen : ((exec (processClient petrHeader 4) Permitted sampleReplayThread sampleReplay).get
      sampleReplay_completes).2.length = 2 := by decide
  rw [hlen] at htwo
  rw [htwo] at hdone
  exact absurd hdone (by decide)

end ZBid
