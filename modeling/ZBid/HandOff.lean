import ZBid.ClientThread

/-!
# Handing a request over

The bytes of a request are copied three times: from the socket into `job_buffer`, from there into
the job, and from the job into the buffer that `processJob` parses. The three blocks are sized by
three expressions, and two of the copies go by the terminating NUL.
-/
namespace ZBid

open CInt CString Runs Framing

/-- The bytes of an allocated block; there are as many as were asked for. -/
abbrev Block := List Char

/-- `malloc` hands out whatever was there. -/
def malloc (size : Nat) (garbage : Nat → Char) : Block := (List.range size).map garbage

/-- `calloc(n, sizeof(char))` of an int. A negative one is converted to a size that no memory
has, and the result is NULL. -/
def callocInt (n : Int) : Option Block :=
  if n < 0 then none else some (List.replicate n.toNat '\x00')

/-- `read` writes what it received to the front of a block. -/
def readInto (block : Block) (received : List Char) : Option Block :=
  if received.length ≤ block.length then some (received ++ block.drop received.length) else none

/-- `strcpy` reads its source up to the first NUL and writes as much; past the end of either
block that is undefined. -/
def strcpy (dest src : Block) : Option Block :=
  if '\x00' ∈ src ∧ (cstr src).length < dest.length then
    some (cstr src ++ '\x00' :: dest.drop ((cstr src).length + 1))
  else none

def strlen (src : Block) : Option Nat := if '\x00' ∈ src then some (cstr src).length else none

/-- `sizeof(header.msg_len)`, which is a `uint32_t`. -/
def sizeofMsgLen : Nat := 4

/-- The fields of a `job_t` that come from the message. -/
structure QueuedJob where
  jobBuffer : Block
  jobMsgLength : Int

/-- `process_client` between `rd_msgheader` and `sbuf_insert`. -/
def prepareJob (msgLen : Nat) (received : List Char) (garbage : Nat → Char) :
    Option QueuedJob := do
  let jobBuffer ← readInto (List.replicate msgLen '\x00') received
  let copy ← strcpy (malloc sizeofMsgLen garbage) jobBuffer
  some { jobBuffer := copy, jobMsgLength := wrap32 msgLen }

/-- The first lines of `processJob`; both calls of `strcpy` write through a NULL `messageBuffer`. -/
def unpackJob (job : QueuedJob) : Option Block := do
  let messageBuffer ← callocInt job.jobMsgLength
  if 0 < (← strlen job.jobBuffer) then strcpy messageBuffer job.jobBuffer
  else strcpy messageBuffer ['\x00']

/-- The three copies stay in their blocks, and what `processJob` parses is the body as the client
sent it, up to its first NUL. -/
def HandsOver (msgLen : Nat) (received : List Char) (garbage : Nat → Char) : Prop :=
  ∃ job messageBuffer, prepareJob msgLen received garbage = some job ∧
    unpackJob job = some messageBuffer ∧ '\x00' ∈ messageBuffer ∧
    cstr messageBuffer = cstr received

/-- There is a NUL among the first four bytes of `job_buffer`, which are the body's as far as it
was received. -/
def EndsEarly (msgLen : Nat) (received : List Char) : Prop :=
  '\x00' ∈ (received ++ List.replicate (msgLen - received.length) '\x00').take sizeofMsgLen

instance (msgLen : Nat) (received : List Char) : Decidable (EndsEarly msgLen received) :=
  inferInstanceAs (Decidable ('\x00' ∈ _))

theorem nul_not_mem_cstr (t : List Char) : ∀ b ∈ cstr t, b ≠ '\x00' := by
  intro b hb
  simpa using List.mem_takeWhile_imp hb

/-- The text of a block up to a NUL, and the NUL, are within its first `k` bytes. -/
theorem nul_mem_take (k : Nat) (t : List Char) :
    '\x00' ∈ t.take k ↔ '\x00' ∈ t ∧ (cstr t).length < k := by
  induction t generalizing k with
  | nil => simp
  | cons b t ih =>
    cases k with
    | zero => simp
    | succ k =>
      by_cases hb : b = '\x00'
      · simp [hb, cstr]
      · have hcons : cstr (b :: t) = b :: cstr t := by simp [cstr, hb]
        have hne : '\x00' ≠ b := Ne.symm hb
        simp only [List.take_succ_cons, List.mem_cons, hne, false_or, ih, hcons, List.length_cons,
          Nat.add_lt_add_iff_right]

theorem cstr_copy (t : List Char) (rest : List Char) : cstr (cstr t ++ '\x00' :: rest) = cstr t :=
  cstr_append_nul (nul_not_mem_cstr t) rest

theorem strcpy_eq_some {dest src block : Block} (h : strcpy dest src = some block) :
    '\x00' ∈ src ∧ (cstr src).length < dest.length ∧ '\x00' ∈ block ∧ cstr block = cstr src := by
  simp only [strcpy] at h
  split at h
  · rename_i hin
    obtain rfl := Option.some.inj h
    exact ⟨hin.1, hin.2, by simp, cstr_copy _ _⟩
  · cases h

theorem strcpy_of_fits {dest src : Block} (hnul : '\x00' ∈ src)
    (hroom : (cstr src).length < dest.length) : ∃ block, strcpy dest src = some block :=
  ⟨_, if_pos ⟨hnul, hroom⟩⟩

/-- Nothing behind the NUL is read. -/
theorem cstr_append_of_mem {t : List Char} (h : '\x00' ∈ t) (rest : List Char) :
    cstr (t ++ rest) = cstr t := by
  have hlt := ((nul_mem_take t.length t).mp (by simpa using h)).2
  rw [cstr, List.takeWhile_append]
  exact if_neg (Nat.ne_of_lt hlt)

/-- The zeros of `calloc` behind the body do not change its text. -/
theorem cstr_zeros (t : List Char) (k : Nat) : cstr (t ++ List.replicate k '\x00') = cstr t := by
  cases k with
  | zero => simp
  | succ k =>
    by_cases hnul : '\x00' ∈ t
    · exact cstr_append_of_mem hnul _
    · have hall : ∀ b ∈ t, b ≠ '\x00' := fun b hb h => hnul (h ▸ hb)
      have hself : cstr t = t := List.takeWhile_eq_self_iff.mpr (by simpa using hall)
      rw [List.replicate_succ, cstr_append_nul hall, hself]

/-- A length of the header is an int or becomes a negative one. -/
theorem wrap32_nonneg_iff {n : Nat} (h : n < 4294967296) : 0 ≤ wrap32 n ↔ (n : Int) ≤ intMax := by
  simp only [wrap32, intMax]
  omega

/-- The copy into the job has four bytes. -/
theorem prepareJob_spec {msgLen : Nat} {received : List Char} (hlen : received.length ≤ msgLen)
    (garbage : Nat → Char) {job : QueuedJob} (h : prepareJob msgLen received garbage = some job) :
    EndsEarly msgLen received ∧ job.jobMsgLength = wrap32 msgLen ∧ '\x00' ∈ job.jobBuffer ∧
      cstr job.jobBuffer = cstr received := by
  simp only [prepareJob, readInto, List.length_replicate, hlen, ↓reduceIte, List.drop_replicate,
    Option.bind_eq_bind, Option.bind_some, Option.bind_eq_some_iff, Option.some.injEq] at h
  obtain ⟨copy, hcopy, rfl⟩ := h
  obtain ⟨hnul, hroom, hcopied, htext⟩ := strcpy_eq_some hcopy
  rw [malloc, List.length_map, List.length_range] at hroom
  exact ⟨(nul_mem_take _ _).mpr ⟨hnul, hroom⟩, rfl, hcopied, htext.trans (cstr_zeros _ _)⟩

theorem prepareJob_of_endsEarly {msgLen : Nat} {received : List Char}
    (hlen : received.length ≤ msgLen) (garbage : Nat → Char) (h : EndsEarly msgLen received) :
    ∃ job, prepareJob msgLen received garbage = some job := by
  obtain ⟨hnul, hroom⟩ := (nul_mem_take _ _).mp h
  have hblock : (cstr (received ++ List.replicate (msgLen - received.length) '\x00')).length <
      (malloc sizeofMsgLen garbage).length := by
    simpa [malloc] using hroom
  obtain ⟨copy, hcopy⟩ := strcpy_of_fits hnul hblock
  refine ⟨⟨copy, wrap32 msgLen⟩, ?_⟩
  simp [prepareJob, readInto, hlen, hcopy]

/-- `processJob` gets its buffer if the length is an int, and if the text has room there. -/
theorem unpackJob_spec {job : QueuedJob} {block : Block} (h : unpackJob job = some block) :
    0 ≤ job.jobMsgLength ∧ '\x00' ∈ block ∧ cstr block = cstr job.jobBuffer := by
  simp only [unpackJob, callocInt, strlen, Option.bind_eq_bind, Option.bind_eq_some_iff] at h
  obtain ⟨messageBuffer, hbuffer, n, hn, h⟩ := h
  split at hbuffer
  · cases hbuffer
  rename_i hneg
  split at hn
  · obtain rfl := Option.some.inj hn
    split at h
    · obtain ⟨-, -, hnul, htext⟩ := strcpy_eq_some h
      exact ⟨by omega, hnul, htext⟩
    · rename_i hzero
      obtain ⟨-, -, hnul, htext⟩ := strcpy_eq_some h
      have hempty : cstr job.jobBuffer = [] := List.length_eq_zero_iff.mp (by omega)
      exact ⟨by omega, hnul, htext.trans hempty.symm⟩
  · cases hn

theorem unpackJob_of_room {job : QueuedJob} (hnul : '\x00' ∈ job.jobBuffer)
    (hroom : ((cstr job.jobBuffer).length : Int) < job.jobMsgLength) :
    ∃ block, unpackJob job = some block := by
  have hpos : ¬ job.jobMsgLength < 0 := by omega
  simp only [unpackJob, callocInt, strlen, hpos, hnul, ↓reduceIte, Option.bind_eq_bind,
    Option.bind_some]
  split
  · exact strcpy_of_fits hnul (by rw [List.length_replicate]; omega)
  · exact strcpy_of_fits (List.mem_singleton_self _) (by simp [cstr]; omega)

/-- A request is handed over within the blocks if and only if a NUL ends it within four bytes and
its length is an int. -/
theorem handsOver_iff {msgLen : Nat} {received : List Char} (hlen : received.length ≤ msgLen)
    (hrange : msgLen < 4294967296) (garbage : Nat → Char) :
    HandsOver msgLen received garbage ↔ EndsEarly msgLen received ∧ (msgLen : Int) ≤ intMax := by
  constructor
  · rintro ⟨job, block, hprepare, hunpack, -⟩
    obtain ⟨hearly, hlength, -⟩ := prepareJob_spec hlen garbage hprepare
    obtain ⟨hnonneg, -⟩ := unpackJob_spec hunpack
    rw [hlength, wrap32_nonneg_iff hrange] at hnonneg
    exact ⟨hearly, hnonneg⟩
  · rintro ⟨hearly, hmax⟩
    obtain ⟨job, hprepare⟩ := prepareJob_of_endsEarly hlen garbage hearly
    obtain ⟨-, hlength, hnul, htext⟩ := prepareJob_spec hlen garbage hprepare
    -- The NUL of the body is one of its bytes, so the text is shorter than the length says.
    have hshort : (cstr job.jobBuffer).length < msgLen := by
      have hinside := List.mem_of_mem_take hearly
      have hall :
          (received ++ List.replicate (msgLen - received.length) '\x00').length ≤ msgLen := by
        simp only [List.length_append, List.length_replicate]
        omega
      rw [← List.take_of_length_le hall, nul_mem_take, cstr_zeros, ← htext] at hinside
      exact hinside.2
    obtain ⟨block, hunpack⟩ := unpackJob_of_room hnul (by
      rw [hlength, wrap32_of_inInt ⟨by simp only [intMin]; omega, hmax⟩]
      exact Int.ofNat_lt.mpr hshort)
    obtain ⟨-, hblock, hparsed⟩ := unpackJob_spec hunpack
    exact ⟨job, block, hprepare, hunpack, hblock, hparsed.trans htext⟩

/-- An ANWATCH of auction 1. -/
theorem handsOver_iff_sample : HandsOver 2 ['1', '\x00'] fun _ => 'x' :=
  (handsOver_iff (by decide) (by decide) _).mpr (by decide)

/-- The five bytes of a bid of 9 on auction 1 do not fit into the job's four. -/
theorem handsOver_fails : ¬ ∀ (body : List Char) garbage, body.length < 4294967296 →
    HandsOver body.length body garbage := by
  intro claim
  obtain ⟨job, block, hprepare, -⟩ :=
    claim ['1', '\r', '\n', '9', '\x00'] (fun _ => 'x') (by decide)
  have hnone : prepareJob 5 ['1', '\r', '\n', '9', '\x00'] (fun _ => 'x') = none := by
    simp [prepareJob, readInto, strcpy, malloc, sizeofMsgLen, cstr]
  exact absurd (hprepare.symm.trans hnone) (by simp)

/-- A message that is handed over becomes the job that `processClient` logs. -/
theorem processClient_of_handsOver {c : Codec Char} {clientFd : Int} {s : ClientThread}
    {env : ReadEnv} {header : Header} {received rest : List Char} (hopen : s.returned = false)
    (hread : rdMsgheader c s.stream env = (header, received ++ rest)) (hkind : header.kind ≠ 0)
    (hcount : env.count = some received.length) (hlen : received.length ≤ header.length)
    (hroom : env.room = sizeofMsgLen) {garbage : Nat → Char}
    (h : HandsOver header.length received garbage) :
    ∃ s', processClient c clientFd s env =
      some (s', [⟨cstr received, header.kind, clientFd⟩]) := by
  obtain ⟨job, block, hprepare, -⟩ := h
  obtain ⟨hearly, -⟩ := prepareJob_spec hlen garbage hprepare
  obtain ⟨hnul, hshort⟩ := (nul_mem_take _ _).mp hearly
  have htext := cstr_append_of_mem hnul env.beyond
  rw [cstr_zeros] at htext hshort
  simp only [processClient, hopen, hread, hkind, hcount, Bool.false_eq_true, ↓reduceIte, hlen,
    List.length_append, Nat.le_add_right, and_self, List.take_left, htext, hroom, hshort]
  exact ⟨_, rfl⟩

end ZBid
