import ZBid.HandOff
import ZBid.Ticks

/-!
# What USRLIST sends

`printUsers` collects the names in an array that it does not initialise, so that the first
`strcat` appends to the text which an earlier call has left on the stack. The loop is given here
on the bytes of the array, and `printUsers` as the handlers have it is what comes of it.
-/
namespace ZBid

open CInt CString Runs

/-- `strcat` writes a text behind the text that is in the destination. It reads the destination up
to its first NUL, and past the end of the block reading and writing are undefined. -/
def strcat (dest : Block) (src : Text) : Option Block :=
  if '\x00' ∈ dest ∧ (cstr dest).length + src.length < dest.length then
    some (cstr dest ++ src ++ '\x00' :: dest.drop ((cstr dest).length + src.length + 1))
  else none

/-- The loop of `printUsers`. -/
def usrlistLoop (clientFd : Int) : List User → Block → Option Block
  | [], randBuffer => some randBuffer
  | u :: us, randBuffer =>
    if u.fd ≠ clientFd then do
      let name ← u.username
      let randBuffer ← strcat randBuffer name.text
      let randBuffer ← strcat randBuffer ['\n']
      usrlistLoop clientFd us randBuffer
    else usrlistLoop clientFd us randBuffer

/-- `printUsers` on the bytes that `randBuffer` holds at its entry. -/
def printUsersBytes (s : Server) (randBuffer : Block) (clientFd : Int) :
    Option (Server × List Event) := do
  let randBuffer ← usrlistLoop clientFd s.users randBuffer
  let randBuffer ← strcat randBuffer []
  let size ← strlen randBuffer
  some (s, [.sent ⟨clientFd, .USRLIST, size + 1, cstr randBuffer⟩])

/-- The usernames are C strings. -/
def CNames (us : List User) : Prop := ∀ u ∈ us, ∀ name ∈ u.username, '\x00' ∉ name.text

theorem strcat_eq_some {dest block : Block} {src : Text} (h : strcat dest src = some block) :
    '\x00' ∈ dest ∧ (cstr dest).length + src.length < dest.length ∧
      block = cstr dest ++ src ++ '\x00' :: dest.drop ((cstr dest).length + src.length + 1) := by
  simp only [strcat] at h
  split at h
  · rename_i hroom
    exact ⟨hroom.1, hroom.2, (Option.some.inj h).symm⟩
  · cases h

theorem cstr_strcat {dest block : Block} {src : Text} (hsrc : '\x00' ∉ src)
    (h : strcat dest src = some block) :
    cstr block = cstr dest ++ src ∧ '\x00' ∈ block ∧ block.length = dest.length := by
  obtain ⟨-, hroom, rfl⟩ := strcat_eq_some h
  have hfree : ∀ b ∈ cstr dest ++ src, b ≠ '\x00' := by
    intro b hb
    rcases List.mem_append.mp hb with hb | hb
    · exact nul_not_mem_cstr dest b hb
    · exact fun hnul => hsrc (hnul ▸ hb)
  refine ⟨cstr_append_nul hfree _, by simp, ?_⟩
  simp only [List.length_append, List.length_cons, List.length_drop]
  omega

/-- Two texts appended one after the other are appended as one. -/
theorem strcat_strcat {dest : Block} {x : Text} (hx : '\x00' ∉ x) (y : Text) :
    (strcat dest x).bind (strcat · y) = strcat dest (x ++ y) := by
  cases hfirst : strcat dest x with
  | none =>
    refine (if_neg ?_).symm
    rintro ⟨hnul, hroom⟩
    rw [List.length_append] at hroom
    simp [strcat, hnul, show (cstr dest).length + x.length < dest.length by omega] at hfirst
  | some block =>
    obtain ⟨hdest, -, hblock⟩ := strcat_eq_some hfirst
    obtain ⟨htext, hnul, hlength⟩ := cstr_strcat hx hfirst
    have hrest : block.drop ((cstr dest).length + (x.length + (y.length + 1))) =
        dest.drop ((cstr dest).length + (x.length + (y.length + 1))) := by
      have hsum : (cstr dest).length + (x.length + (y.length + 1)) =
          (cstr dest ++ x).length + (y.length + 1) := by
        rw [List.length_append, Nat.add_assoc]
      rw [hblock, hsum, List.drop_length_add_append, List.drop_succ_cons, List.drop_drop,
        List.length_append]
      congr 1
      omega
    simp only [Option.bind_some, strcat, htext, hnul, hlength, hdest, List.length_append,
      Nat.add_assoc, List.append_assoc, hrest]

/-- The loop appends the names as one text. -/
theorem usrlistLoop_eq (clientFd : Int) {us : List User} (hus : CNames us) (dest : Block) :
    (usrlistLoop clientFd us dest).bind (strcat · []) =
      (otherNames clientFd us).bind (strcat dest) := by
  induction us generalizing dest with
  | nil => rfl
  | cons u us ih =>
    have hrest : CNames us := fun v hv => hus v (List.mem_cons_of_mem _ hv)
    by_cases hfd : u.fd = clientFd
    · simp [usrlistLoop, otherNames, hfd, ih hrest]
    · cases hname : u.username with
      | none => simp [usrlistLoop, otherNames, hfd, hname]
      | some name =>
        have hfree : '\x00' ∉ name.text := hus u List.mem_cons_self name hname
        simp only [usrlistLoop, otherNames, hfd, hname, ne_eq, not_false_eq_true, ↓reduceIte,
          Option.bind_eq_bind, Option.bind_some, Option.bind_assoc, ih hrest]
        cases otherNames clientFd us with
        | none => simp
        | some rest =>
          have hline (block : Block) : (strcat block ['\n']).bind (strcat · rest) =
              strcat block (['\n'] ++ rest) := strcat_strcat (by decide) rest
          simp only [Option.bind_some, hline, strcat_strcat hfree, List.append_assoc]

theorem otherNames_free {clientFd : Int} {us : List User} (hus : CNames us) {names : Text}
    (h : otherNames clientFd us = some names) : '\x00' ∉ names := by
  induction us generalizing names with
  | nil =>
    obtain rfl := Option.some.inj h
    simp
  | cons u us ih =>
    have hrest : CNames us := fun v hv => hus v (List.mem_cons_of_mem _ hv)
    simp only [otherNames, Option.bind_eq_bind, Option.bind_eq_some_iff] at h
    obtain ⟨rest, hothers, h⟩ := h
    have hfree := ih hrest hothers
    split at h
    · obtain ⟨name, hname, h⟩ := Option.bind_eq_some_iff.mp h
      obtain rfl := Option.some.inj h
      simp [hus u List.mem_cons_self name hname, hfree]
    · obtain rfl := Option.some.inj h
      exact hfree

/-- A text that is shorter than its block ends there. -/
theorem nul_mem_of_short {block : Block} (h : (cstr block).length < block.length) :
    '\x00' ∈ block := by
  by_contra hno
  have hall : ∀ b ∈ block, b ≠ '\x00' := fun b hb hnul => hno (hnul ▸ hb)
  have hself : cstr block = block := List.takeWhile_eq_self_iff.mpr (by simpa using hall)
  rw [hself] at h
  exact Nat.lt_irrefl _ h

/-- Appending to an array of `BUFFER_SIZE` bytes is undefined when the whole text does not fit. -/
theorem strcat_fits {dest : Block} (hsize : dest.length = bufferSize) (src : Text) :
    (strcat dest src).isSome = (fits (cstr dest ++ src)).isSome := by
  have hiff : ('\x00' ∈ dest ∧ (cstr dest).length + src.length < dest.length) ↔
      (cstr dest ++ src).length < bufferSize := by
    rw [List.length_append, hsize]
    exact ⟨And.right, fun h => ⟨nul_mem_of_short (by omega), h⟩⟩
  simp only [strcat, fits, hiff]
  split <;> rfl

/-- What `printUsers` sends depends on the text that the array holds at its entry. -/
theorem printUsersBytes_eq {s : Server} (hus : CNames s.users) {randBuffer : Block}
    (hsize : randBuffer.length = bufferSize) (clientFd : Int) :
    printUsersBytes s randBuffer clientFd = printUsers s (cstr randBuffer) clientFd := by
  have hloop := usrlistLoop_eq clientFd hus randBuffer
  simp only [printUsersBytes, printUsers, Option.bind_eq_bind, ← Option.bind_assoc, hloop]
  cases hnames : otherNames clientFd s.users with
  | none => rfl
  | some names =>
    have hsome := strcat_fits hsize names
    simp only [Option.bind_some]
    cases hblock : strcat randBuffer names with
    | none =>
      have hnone : fits (cstr randBuffer ++ names) = none := by simpa [hblock] using hsome.symm
      simp [hnone]
    | some block =>
      obtain ⟨htext, hnul, -⟩ := cstr_strcat (otherNames_free hus hnames) hblock
      rw [hblock, Option.isSome_some, eq_comm] at hsome
      obtain ⟨body, hbody⟩ := Option.isSome_iff_exists.mp hsome
      obtain rfl := fits_eq_some hbody
      simp only [Option.bind_some, strlen, hnul, ↓reduceIte, htext, hbody]
      rfl

/-- The names of the users whose descriptor is another one, in list order. -/
def Listed (clientFd : Int) (us : List User) (names : List CharPtr) : Prop :=
  (us.filter fun u => u.fd ≠ clientFd).map User.username = names.map some

instance listedDecidable (clientFd : Int) (us : List User) (names : List CharPtr) :
    Decidable (Listed clientFd us names) :=
  inferInstanceAs (Decidable (_ = _))

/-- The names, each followed by a newline. -/
def usrlistBody (names : List CharPtr) : Text := names.flatMap fun name => name.text ++ ['\n']

/-- Two calls of `printUsers` that differ in the bytes they find in the array send the names and
nothing else, and so the same. -/
structure UsrlistLaw (s : Server) (clientFd : Int) (names : List CharPtr)
    (randBuffer randBuffer' : Block) : Prop where
  first : printUsers s (cstr randBuffer) clientFd =
    some (s, [message clientFd .USRLIST (usrlistBody names)])
  second : printUsers s (cstr randBuffer') clientFd =
    some (s, [message clientFd .USRLIST (usrlistBody names)])
  same : printUsers s (cstr randBuffer) clientFd = printUsers s (cstr randBuffer') clientFd

theorem otherNames_eq {clientFd : Int} {us : List User} {names : List CharPtr}
    (h : Listed clientFd us names) : otherNames clientFd us = some (usrlistBody names) := by
  induction us generalizing names with
  | nil =>
    obtain rfl : names = [] := by simpa [Listed] using h
    rfl
  | cons u us ih =>
    by_cases hfd : u.fd = clientFd
    · have hrest : Listed clientFd us names := by simpa [Listed, hfd] using h
      simp [otherNames, hfd, ih hrest]
    · cases names with
      | nil => simp [Listed, hfd] at h
      | cons name names =>
        obtain ⟨hname, hrest⟩ : u.username = some name ∧ Listed clientFd us names := by
          simpa [Listed, hfd] using h
        simp [otherNames, hfd, hname, ih hrest, usrlistBody]

/-- One call sends just the names if and only if the array starts with a NUL. -/
theorem printUsers_iff {s : Server} {clientFd : Int} {names : List CharPtr}
    (hnames : Listed clientFd s.users names) (hfit : (usrlistBody names).length < bufferSize)
    {randBuffer : Block} (hsize : randBuffer.length = bufferSize) :
    printUsers s (cstr randBuffer) clientFd =
      some (s, [message clientFd .USRLIST (usrlistBody names)]) ↔
      randBuffer.head? = some '\x00' := by
  have hempty : cstr randBuffer = [] ↔ randBuffer.head? = some '\x00' := by
    cases randBuffer with
    | nil => cases hsize
    | cons b rest => simp [cstr, List.takeWhile_cons]
  rw [← hempty]
  simp only [printUsers, otherNames_eq hnames, Option.bind_eq_bind, Option.bind_some]
  constructor
  · intro h
    obtain ⟨body, hbody, h⟩ := Option.bind_eq_some_iff.mp h
    obtain rfl := fits_eq_some hbody
    have htext : cstr randBuffer ++ usrlistBody names = usrlistBody names := by
      simpa [message] using h
    exact List.append_left_eq_self.mp htext
  · intro h
    rw [h, List.nil_append, fits, if_pos hfit]
    rfl

/-- Two calls keep to the names if and only if both arrays start with a NUL. -/
theorem usrlistLaw_iff {s : Server} {clientFd : Int} {names : List CharPtr}
    (hnames : Listed clientFd s.users names) (hfit : (usrlistBody names).length < bufferSize)
    {randBuffer randBuffer' : Block} (hsize : randBuffer.length = bufferSize)
    (hsize' : randBuffer'.length = bufferSize) :
    UsrlistLaw s clientFd names randBuffer randBuffer' ↔
      randBuffer.head? = some '\x00' ∧ randBuffer'.head? = some '\x00' := by
  rw [← printUsers_iff hnames hfit hsize, ← printUsers_iff hnames hfit hsize']
  constructor
  · exact fun law => ⟨law.first, law.second⟩
  · exact fun ⟨hfirst, hsecond⟩ => ⟨hfirst, hsecond, hfirst.trans hsecond.symm⟩

/-- What is left in the array is sent whole: calls that differ in it send different messages. -/
theorem printUsers_inj {s : Server} {clientFd : Int} {stack stack' : Text}
    {result : Server × List Event} (h : printUsers s stack clientFd = some result)
    (h' : printUsers s stack' clientFd = some result) : stack = stack' := by
  simp only [printUsers, Option.bind_eq_bind, Option.bind_eq_some_iff] at h h'
  obtain ⟨names, hnames, body, hbody, h⟩ := h
  obtain ⟨names', hnames', body', hbody', h'⟩ := h'
  obtain rfl := Option.some.inj (hnames.symm.trans hnames')
  obtain rfl := fits_eq_some hbody
  obtain rfl := fits_eq_some hbody'
  have htext : (stack ++ names).length = (stack' ++ names).length ∧
      stack ++ names = stack' ++ names := by
    simpa [message] using h.trans h'.symm
  exact List.append_cancel_right htext.2

/-- An array with one byte at its start and another one everywhere else. -/
def sampleArray (first rest : Char) : Block := first :: List.replicate 1023 rest

theorem sampleArray_size (first rest : Char) : (sampleArray first rest).length = bufferSize :=
  congrArg Nat.succ List.length_replicate

/-- A is told of B, whatever is behind the NUL. -/
theorem usrlistLaw_iff_sample : UsrlistLaw sampleCreator 4 [⟨1, ['B']⟩] (sampleArray '\x00' 'x')
    (sampleArray '\x00' 'y') :=
  (usrlistLaw_iff (by decide) (by decide) (sampleArray_size _ _) (sampleArray_size _ _)).mpr
    ⟨rfl, rfl⟩

/-- The array holds the end of an earlier reply. -/
theorem usrlistLaw_fails : ¬ ∀ as tr (s : Server) clientFd names randBuffer randBuffer',
    Run Server.step (Server.Admits LoggedIn) Server.start as tr s → Listed clientFd s.users names →
    (usrlistBody names).length < bufferSize → randBuffer.length = bufferSize →
    randBuffer'.length = bufferSize → UsrlistLaw s clientFd names randBuffer randBuffer' := by
  intro claim
  have run : Run Server.step (Server.Admits LoggedIn) Server.start sampleLogins _ sampleCreator :=
    run_of_isSome (by decide)
  have hnames : Listed 4 sampleCreator.users [⟨1, ['B']⟩] := by decide
  have hsize := sampleArray_size '7' '\x00'
  have law := claim _ _ _ _ _ _ _ run hnames (by decide) hsize hsize
  have hhead := (printUsers_iff hnames (by decide) hsize).mp law.first
  exact absurd hhead (by decide)

end ZBid
