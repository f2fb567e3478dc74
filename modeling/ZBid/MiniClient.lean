import ZBid.Lib.Escapes
import ZBid.Delivery

/-!
# miniclient.py: the other end of the connection

The client reads commands from its standard input and sends one message for each. The control
characters of a message are typed as `\r` and `\n`.
-/
namespace ZBid

open CInt CString Runs Framing Escapes

/-- `for line in sys.stdin`: on Linux a line ends at a newline only, and keeps it; a return is a
character like others. The last line may have no newline. -/
def linesOf : Text → List Text
  | [] => []
  | c :: rest =>
    if c = '\n' then [c] :: linesOf rest
    else
      match linesOf rest with
      | [] => [[c]]
      | line :: lines => (c :: line) :: lines

/-- What `\s` matches in a Python pattern, and what `strip` takes off. -/
def pySpace (c : Char) : Bool :=
  let n := c.toNat
  (9 ≤ n && n ≤ 13) || (28 ≤ n && n ≤ 32) || n == 0x85 || n == 0xa0 || n == 0x1680 ||
    (0x2000 ≤ n && n ≤ 0x200a) || n == 0x2028 || n == 0x2029 || n == 0x202f || n == 0x205f ||
    n == 0x3000

def capital (c : Char) : Bool := 'A'.toNat ≤ c.toNat && c.toNat ≤ 'Z'.toNat

/-- `(?P<cmd>[A-Z]+)(\s(?P<arg>.+))?\n` at the front of a line. A shorter run of capitals would
have a capital behind it, and a shorter argument no newline. -/
def commandRe (line : Text) : Option (Text × Option Text) :=
  let cmd := line.takeWhile capital
  if cmd = [] then none
  else
    match line.dropWhile capital with
    | [] => none
    | c :: rest =>
      let arg := rest.takeWhile (· ≠ '\n')
      if pySpace c ∧ arg ≠ [] ∧ '\n' ∈ rest then some (cmd, some arg)
      else if c = '\n' then some (cmd, none)
      else none

/-- The dictionary of the commands. -/
def clientProtocol : List (Text × Nat) :=
  [(['L', 'O', 'G', 'I', 'N'], 0x10),
    (['L', 'O', 'G', 'O', 'U', 'T'], 0x11),
    (['A', 'N', 'C', 'R', 'E', 'A', 'T', 'E'], 0x20),
    (['A', 'N', 'L', 'I', 'S', 'T'], 0x23),
    (['A', 'N', 'W', 'A', 'T', 'C', 'H'], 0x24),
    (['A', 'N', 'L', 'E', 'A', 'V', 'E'], 0x25),
    (['A', 'N', 'B', 'I', 'D'], 0x26),
    (['A', 'N', 'U', 'P', 'D', 'A', 'T', 'E'], 0x27),
    (['U', 'S', 'R', 'L', 'I', 'S', 'T'], 0x32),
    (['U', 'S', 'R', 'W', 'I', 'N', 'S'], 0x33),
    (['U', 'S', 'R', 'S', 'A', 'L', 'E', 'S'], 0x34),
    (['U', 'S', 'R', 'B', 'L', 'N', 'C'], 0x35)]

/-- The two replacements, one after the other. -/
def unescape (input : Text) : Text :=
  replacePair '\\' 'n' '\n' (replacePair '\\' 'r' '\r' input)

/-- `header_bytes` and the body behind it; `pack` fails where a field has no room. -/
def packed (msgType : Nat) (body : Text) : Option (Frame petrHeader) :=
  if h : msgType < 0x100 ∧ body.length < 0x100000000 then some ⟨msgType, body, h⟩ else none

/-- What `encode('ascii')` takes. -/
def Ascii (t : Text) : Prop := ∀ c ∈ t, c.toNat < 0x80

instance (t : Text) : Decidable (Ascii t) := List.decidableBAll _ t

/-- A body gets a NUL, and must be ASCII. -/
def sendMsg (msgType : Nat) : Option Text → Option (Frame petrHeader)
  | none | some [] => packed msgType []
  | some msgBody =>
    if Ascii msgBody then packed msgType (msgBody ++ ['\x00']) else none

/-- The loop over the lines: empty lines and those that are no command are passed over; an unknown
command, or a body that cannot be sent, ends the client, and so does LOGOUT. The replies, which
are only printed, are taken to be readable. -/
def clientLoop : List Text → List (Frame petrHeader)
  | [] => []
  | line :: lines =>
    if line.all pySpace then clientLoop lines
    else
      match commandRe line with
      | none => clientLoop lines
      | some (cmd, arg) =>
        match (clientProtocol.lookup cmd).bind fun code => sendMsg code (arg.map unescape) with
        | none => []
        | some message =>
          message :: if cmd = ['L', 'O', 'G', 'O', 'U', 'T'] then [] else clientLoop lines

/-- What the client sends for a standard input. -/
def miniclient (stdin : Text) : List (Frame petrHeader) :=
  clientLoop (linesOf stdin)

/-- A body that the client can send, without its NUL. -/
structure Typable (body : Text) : Prop where
  nonempty : body ≠ []
  ascii : Ascii body
  noReturn : PairFree '\\' 'r' body
  noNewline : PairFree '\\' 'n' body

instance (body : Text) : Decidable (Typable body) :=
  decidable_of_iff (body ≠ [] ∧ Ascii body ∧ PairFree '\\' 'r' body ∧ PairFree '\\' 'n' body)
    ⟨fun ⟨h₁, h₂, h₃, h₄⟩ => ⟨h₁, h₂, h₃, h₄⟩, fun ⟨h₁, h₂, h₃, h₄⟩ => ⟨h₁, h₂, h₃, h₄⟩⟩

/-- A message of one of the commands, with no body or a typable one. -/
structure Sendable (message : Frame petrHeader) : Prop where
  known : message.kind ∈ clientProtocol.map Prod.snd
  typable : message.body = [] ∨ ∃ body, message.body = body ++ ['\x00'] ∧ Typable body

theorem mem_of_lookup {α β : Type} [BEq α] [LawfulBEq α] {table : List (α × β)} {key : α}
    {value : β} (h : table.lookup key = some value) : (key, value) ∈ table := by
  obtain ⟨front, back, heq, -⟩ := List.lookup_eq_some_iff.mp h
  rw [heq]
  simp

/-- The commands are told apart by their codes, and written in capitals. -/
theorem clientProtocol_spec : ∀ p ∈ clientProtocol, p.1 ≠ [] ∧ p.1.all capital ∧
    clientProtocol.lookup p.1 = some p.2 ∧ p.2 < 0x100 ∧ p.2 ≠ 0 ∧
    (p.2 = MsgType.LOGOUT.code ↔ p.1 = ['L', 'O', 'G', 'O', 'U', 'T']) := by
  decide

/-- What `unescape` gives can be typed again. -/
theorem unescape_typable {arg : Text} (hne : arg ≠ [])
    (hascii : Ascii (unescape arg)) : Typable (unescape arg) := by
  constructor
  · exact replacePair_ne_nil (replacePair_ne_nil hne)
  · exact hascii
  · exact pairFree_replacePair_other (by decide) (by decide)
      (pairFree_replacePair (by decide) (by decide))
  · exact pairFree_replacePair (by decide) (by decide)

theorem packed_eq_some {msgType : Nat} {body : Text} {message : Frame petrHeader}
    (h : packed msgType body = some message) : message.kind = msgType ∧ message.body = body := by
  simp only [packed] at h
  split at h
  · cases h
    exact ⟨rfl, rfl⟩
  · cases h

theorem packed_of_fits (message : Frame petrHeader) :
    packed message.kind message.body = some message := dif_pos message.fits

theorem commandRe_nonempty {line cmd arg : Text} (h : commandRe line = some (cmd, some arg)) :
    arg ≠ [] := by
  simp only [commandRe] at h
  grind

/-- What is sent for a command and what was typed behind it. -/
theorem sendMsg_sendable {cmd : Text} {code : Nat} {arg : Option Text} {message : Frame petrHeader}
    (hcode : clientProtocol.lookup cmd = some code) (harg : ∀ text ∈ arg, text ≠ [])
    (h : sendMsg code (arg.map unescape) = some message) :
    message.kind = code ∧ Sendable message := by
  have hknown := List.mem_map_of_mem (f := Prod.snd) (mem_of_lookup hcode)
  cases arg with
  | none =>
    obtain ⟨hkind, hbody⟩ := packed_eq_some h
    exact ⟨hkind, hkind ▸ hknown, Or.inl hbody⟩
  | some text =>
    have hne : unescape text ≠ [] := replacePair_ne_nil (replacePair_ne_nil (harg text rfl))
    obtain ⟨c, rest, hcons⟩ := List.exists_cons_of_ne_nil hne
    simp only [Option.map_some, hcons, sendMsg] at h
    split at h
    · rename_i hascii
      obtain ⟨hkind, hbody⟩ := packed_eq_some h
      refine ⟨hkind, hkind ▸ hknown, Or.inr ⟨unescape text, hcons ▸ hbody, ?_⟩⟩
      exact unescape_typable (harg text rfl) (hcons ▸ hascii)
    · cases h

/-- The client sends commands, and nothing behind a LOGOUT. -/
theorem clientLoop_sends (lines : List Text) : (∀ message ∈ clientLoop lines, Sendable message) ∧
    upToLogout (clientLoop lines) = clientLoop lines := by
  induction lines with
  | nil => exact ⟨List.forall_mem_nil _, rfl⟩
  | cons line lines ih =>
    simp only [clientLoop]
    split
    · exact ih
    split
    · exact ih
    · rename_i cmd arg hcommand
      split
      · exact ⟨List.forall_mem_nil _, rfl⟩
      · rename_i message hmessage
        obtain ⟨code, hcode, hsend⟩ := Option.bind_eq_some_iff.mp hmessage
        have harg : ∀ text ∈ arg, text ≠ [] := by
          rintro text rfl
          exact commandRe_nonempty hcommand
        obtain ⟨hkind, hmsg⟩ := sendMsg_sendable hcode harg hsend
        obtain ⟨-, -, -, -, -, hlogout⟩ := clientProtocol_spec _ (mem_of_lookup hcode)
        constructor
        · intro m hm
          rcases List.mem_cons.mp hm with rfl | hm
          · exact hmsg
          · split at hm
            · cases hm
            · exact ih.1 m hm
        · by_cases hcmd : cmd = ['L', 'O', 'G', 'O', 'U', 'T']
          · rw [if_pos hcmd, upToLogout, hkind, if_pos (hlogout.mpr hcmd)]
          · rw [if_neg hcmd, upToLogout, hkind, if_neg (hcmd ∘ hlogout.mp), ih.2]

def escape (body : Text) : Text := expand '\\' 'r' '\r' (expand '\\' 'n' '\n' body)

theorem unescape_escape {body : Text} (h : Typable body) : unescape (escape body) = body := by
  have hfree : PairFree '\\' 'r' (expand '\\' 'n' '\n' body) :=
    pairFree_expand (by decide) (by decide) (by decide) h.noReturn
  rw [unescape, escape, replacePair_expand (by decide) hfree,
    replacePair_expand (by decide) h.noNewline]

theorem plain_escape (body : Text) : '\n' ∉ escape body := by
  intro h
  rcases mem_expand h with heq | heq | ⟨-, hmem⟩
  · exact absurd heq (by decide)
  · exact absurd heq (by decide)
  · rcases mem_expand hmem with heq | heq | ⟨hne, -⟩
    · exact absurd heq (by decide)
    · exact absurd heq (by decide)
    · exact hne rfl

theorem linesOf_cons {w rest : Text} (h : '\n' ∉ w) :
    linesOf (w ++ '\n' :: rest) = (w ++ ['\n']) :: linesOf rest := by
  induction w with
  | nil => simp [linesOf]
  | cons c w ih =>
    obtain ⟨hc, hw⟩ := not_or.mp (List.mem_cons.not.mp h)
    rw [List.cons_append, linesOf, if_neg (Ne.symm hc), ih hw]
    rfl

/-- The line for a command, with the body that is to be sent. -/
def commandLine (cmd : Text) (body : Option Text) : Text :=
  cmd ++ (body.elim [] fun text => ' ' :: escape text) ++ ['\n']

theorem takeWhile_capital {cmd : Text} (h : ∀ x ∈ cmd, capital x) {c : Char}
    (hc : capital c = false) (rest : Text) : (cmd ++ c :: rest).takeWhile capital = cmd ∧
      (cmd ++ c :: rest).dropWhile capital = c :: rest := by
  constructor
  · rw [List.takeWhile_append_of_pos h]
    simp [hc]
  · rw [List.dropWhile_append_of_pos h]
    simp [hc]

theorem commandRe_line {cmd : Text} (hne : cmd ≠ []) (h : ∀ c ∈ cmd, capital c)
    {body : Option Text} (hbody : ∀ text ∈ body, escape text ≠ []) :
    commandRe (commandLine cmd body) = some (cmd, body.map escape) := by
  rw [commandLine]
  cases body with
  | none =>
    obtain ⟨htake, hdrop⟩ := takeWhile_capital h (show capital '\n' = false by decide) []
    simp [commandRe, htake, hdrop, hne]
  | some text =>
    obtain ⟨htake, hdrop⟩ := takeWhile_capital h (show capital ' ' = false by decide)
      (escape text ++ ['\n'])
    have hplain : ∀ c ∈ escape text, decide (c ≠ '\n') = true := by
      intro c hc
      rw [decide_eq_true_eq]
      rintro rfl
      exact plain_escape text hc
    have hrest : (escape text ++ ['\n']).takeWhile (· ≠ '\n') = escape text := by
      rw [List.takeWhile_append_of_pos hplain]
      simp
    have hspace : pySpace ' ' := by decide
    simp only [commandRe, Option.elim_some, List.append_assoc, List.cons_append, htake, hdrop,
      hrest, hne, hspace]
    simp [hbody text rfl]

theorem capital_spec {c : Char} (h : capital c) : pySpace c = false ∧ c ≠ '\n' := by
  simp only [capital, Bool.and_eq_true, decide_eq_true_eq] at h
  have hlow : 65 ≤ c.toNat := h.1
  have hhigh : c.toNat ≤ 90 := h.2
  constructor
  · simp only [pySpace]
    grind
  · rintro rfl
    exact absurd hlow (by decide)

theorem escape_ne_nil {body : Text} (h : Typable body) : escape body ≠ [] := by
  intro hnil
  have hback := unescape_escape h
  rw [hnil] at hback
  exact h.nonempty hback.symm

/-- The bytes of a message with a body or none. -/
def messageBytes (body : Option Text) : Text := body.elim [] (· ++ ['\x00'])

/-- The line of a command is one line, and makes the client send its message. -/
theorem clientLoop_line {cmd : Text} {message : Frame petrHeader} {body : Option Text}
    (hcmd : (cmd, message.kind) ∈ clientProtocol) (hbytes : message.body = messageBytes body)
    (hbody : ∀ text ∈ body, Typable text) (lines : List Text) :
    clientLoop (commandLine cmd body :: lines) =
      message :: if message.kind = MsgType.LOGOUT.code then [] else clientLoop lines := by
  obtain ⟨hne, hall, hlookup, -, -, hlogout⟩ := clientProtocol_spec _ hcmd
  dsimp only at hne hall hlookup hlogout
  have hcapital := List.all_eq_true.mp hall
  have hspace : (commandLine cmd body).all pySpace = false := by
    obtain ⟨c, cmd', rfl⟩ := List.exists_cons_of_ne_nil hne
    simp [commandLine, (capital_spec (hcapital c List.mem_cons_self)).1]
  have hsend : sendMsg message.kind ((body.map escape).map unescape) = some message := by
    have hfits := packed_of_fits message
    rw [hbytes] at hfits
    cases body with
    | none => exact hfits
    | some text =>
      have htypable := hbody text rfl
      obtain ⟨c, rest, rfl⟩ := List.exists_cons_of_ne_nil htypable.nonempty
      simp only [Option.map_some, unescape_escape htypable, sendMsg, if_pos htypable.ascii]
      exact hfits
  have hcommand := commandRe_line hne hcapital fun text h => escape_ne_nil (hbody text h)
  simp only [clientLoop, hspace, hcommand, hlookup, Option.bind_some, hsend, hlogout]
  rfl

theorem plain_line {cmd : Text} (hcmd : ∀ c ∈ cmd, capital c) (body : Option Text) :
    ∃ w : Text, commandLine cmd body = w ++ ['\n'] ∧ '\n' ∉ w := by
  refine ⟨_, rfl, fun hmem => ?_⟩
  rcases List.mem_append.mp hmem with hmem | hmem
  · exact (capital_spec (hcmd _ hmem)).2 rfl
  · cases body with
    | none => cases hmem
    | some text =>
      rcases List.mem_cons.mp hmem with heq | hmem
      · exact absurd heq (by decide)
      · exact plain_escape text hmem

/-- Lines typed one after the other. -/
theorem miniclient_lines {lines : List Text}
    (h : ∀ line ∈ lines, ∃ w : Text, line = w ++ ['\n'] ∧ '\n' ∉ w) :
    miniclient lines.flatten = clientLoop lines := by
  suffices hlines : linesOf lines.flatten = lines by rw [miniclient, hlines]
  induction lines with
  | nil => rfl
  | cons line lines ih =>
    obtain ⟨w, rfl, hplain⟩ := h line List.mem_cons_self
    have hlines := ih fun line hline => h line (List.mem_cons_of_mem _ hline)
    rw [List.flatten_cons, List.append_assoc, List.singleton_append, linesOf_cons hplain, hlines]

/-- Any sendable messages can be typed, up to a LOGOUT. -/
theorem sendable_lines {messages : List (Frame petrHeader)} (h : ∀ m ∈ messages, Sendable m) :
    ∃ lines : List Text,
      (∀ line ∈ lines, ∃ w : Text, line = w ++ ['\n'] ∧ '\n' ∉ w) ∧
        clientLoop lines = upToLogout messages := by
  induction messages with
  | nil => exact ⟨[], List.forall_mem_nil _, rfl⟩
  | cons message messages ih =>
    obtain ⟨lines, hlines, hsent⟩ := ih fun m hm => h m (List.mem_cons_of_mem _ hm)
    have hsendable := h message List.mem_cons_self
    obtain ⟨⟨cmd, code⟩, hcmd, rfl⟩ := List.mem_map.mp hsendable.known
    obtain ⟨body, hbytes, hbody⟩ : ∃ body, message.body = messageBytes body ∧
        ∀ text ∈ body, Typable text := by
      rcases hsendable.typable with hnil | ⟨text, hbytes, htypable⟩
      · exact ⟨none, hnil, by simp⟩
      · exact ⟨some text, hbytes, by simpa using htypable⟩
    obtain ⟨-, hcapital, -⟩ := clientProtocol_spec _ hcmd
    refine ⟨commandLine cmd body :: lines, ?_, ?_⟩
    · intro line hline
      rcases List.mem_cons.mp hline with rfl | hline
      · exact plain_line (List.all_eq_true.mp hcapital) body
      · exact hlines line hline
    · rw [clientLoop_line hcmd hbytes hbody, hsent, upToLogout]
      split <;> rfl

/-- The client can send these sequences of messages and no others: commands, with bodies that are
ASCII and have no typed control character in them, and nothing behind a LOGOUT. -/
theorem miniclient_iff (messages : List (Frame petrHeader)) :
    (∃ stdin, miniclient stdin = messages) ↔
      (∀ message ∈ messages, Sendable message) ∧ upToLogout messages = messages := by
  constructor
  · rintro ⟨stdin, rfl⟩
    exact clientLoop_sends _
  · rintro ⟨hsendable, hlogout⟩
    obtain ⟨lines, hlines, hsent⟩ := sendable_lines hsendable
    exact ⟨lines.flatten, by rw [miniclient_lines hlines, hsent, hlogout]⟩

end ZBid
