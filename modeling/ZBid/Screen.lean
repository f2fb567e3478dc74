import ZBid.Lib.PyRepr
import ZBid.Alphabet
import ZBid.Typed
import Mathlib.Data.List.Sort

/-!
# miniclient.py: what the user sees

The client polls its socket after each message that it sends, and prints the replies that it finds
there, one line for each. The exceptions of this code (a type that is not in its dictionary, a body
that is not ASCII, a header cut short) end the client.
-/
namespace ZBid

open CInt CString Runs Framing PyRepr

/-- The dictionary of the replies. -/
def serverProtocol : List (Nat × Text) :=
  [(0x0, ['O', 'K']),
    (0x20, ['A', 'N', 'C', 'R', 'E', 'A', 'T', 'E']),
    (0x22, ['A', 'N', 'C', 'L', 'O', 'S', 'E', 'D']),
    (0x23, ['A', 'N', 'L', 'I', 'S', 'T']),
    (0x24, ['A', 'N', 'W', 'A', 'T', 'C', 'H']),
    (0x27, ['A', 'N', 'U', 'P', 'D', 'A', 'T', 'E']),
    (0x32, ['U', 'S', 'R', 'L', 'I', 'S', 'T']),
    (0x33, ['U', 'S', 'R', 'W', 'I', 'N', 'S']),
    (0x34, ['U', 'S', 'R', 'S', 'A', 'L', 'E', 'S']),
    (0x35, ['U', 'S', 'R', 'B', 'L', 'N', 'C']),
    (0x1a, ['E', 'U', 'S', 'R', 'L', 'G', 'D', 'I', 'N']),
    (0x1b, ['E', 'W', 'R', 'N', 'G', 'P', 'W', 'D']),
    (0x2b, ['E', 'A', 'N', 'F', 'U', 'L', 'L']),
    (0x2c, ['E', 'A', 'N', 'N', 'O', 'T', 'F', 'O', 'U', 'N', 'D']),
    (0x2d, ['E', 'A', 'N', 'D', 'E', 'N', 'I', 'E', 'D']),
    (0x2e, ['E', 'B', 'I', 'D', 'L', 'O', 'W']),
    (0x2f, ['E', 'I', 'N', 'V', 'A', 'L', 'I', 'D', 'A', 'R', 'G']),
    (0xff, ['E', 'S', 'E', 'R', 'V'])]

def usrlist : Text := ['U', 'S', 'R', 'L', 'I', 'S', 'T']

/-- `<=` of two Python strings. -/
def textLe : Text → Text → Bool
  | [], _ => true
  | _ :: _, [] => false
  | c :: t, d :: u => decide (c.toNat < d.toNat) || (c == d && textLe t u)

/-- The names of a USRLIST are sorted, but for the NUL at the end. -/
def sortedNames (body : Text) : Text :=
  let names := body.splitOn '\n'
  if 1 < names.length then
    if names.getLast? = some ['\x00'] then
      ['\n'].intercalate (names.dropLast.insertionSort (textLe · ·) ++ [['\x00']])
    else ['\n'].intercalate (names.insertionSort (textLe · ·))
  else body

/-- What stands in front of every reply. -/
def received : Text := ['R', 'E', 'C', 'V', ' ', '<', '-', ' ']

/-- The line for a reply. No body and an empty one are alike. -/
def printRecv (respType : Nat) (body : Text) : Option Text := do
  let name ← serverProtocol.lookup respType
  let shown := if name = usrlist then sortedNames body else body
  some (received ++ name ++ if body = [] then [] else ' ' :: pyRepr shown)

/-- A turn of the loop of `read_all`: the line that is printed, and the rest of the stream. -/
def readReply (stream : Text) : Option (Text × Text) :=
  if petrHeader.size ≤ stream.length then
    let header := petrHeader.decode (stream.take petrHeader.size)
    let rest := stream.drop petrHeader.size
    let body := rest.take header.length
    if Ascii body then
      (printRecv header.kind body).map fun line => (line, rest.drop header.length)
    else none
  else none

/-- What is printed for the first replies of a stream, and what of it remains. -/
def readReplies : Nat → Text → Option (List Text × Text)
  | 0, stream => some ([], stream)
  | n + 1, stream => do
    let (line, rest) ← readReply stream
    let (lines, rest) ← readReplies n rest
    some (line :: lines, rest)

/-- The bytes of the buffer that go behind the header. -/
def Msg.bytes (m : Msg) : Text := (m.body ++ ['\x00']).take m.msgLen

/-- What `wr_msg` writes to the socket. -/
def Msg.wire (m : Msg) : Text := petrHeader.encode ⟨m.msgType.code, m.msgLen⟩ ++ m.bytes

/-- The line that the client prints for a message. -/
def Msg.line (m : Msg) : Text := (printRecv m.msgType.code m.bytes).getD []

abbrev IsAscii (c : Char) : Prop := c.toNat < 0x80

theorem alphabet_ascii : Alphabet IsAscii where
  digits c hc := by
    simp only [Char.isDigit, Bool.and_eq_true, decide_eq_true_eq] at hc
    have hle : c.toNat ≤ 57 := hc.2
    omega
  marks := by decide

theorem Msg.Legible.length_bytes {A : Char → Prop} {m : Msg} (hm : m.Legible A) :
    m.bytes.length = m.msgLen := by
  rcases hm.framed with ⟨hlen, -⟩ | ⟨hlen, -⟩ <;> simp [Msg.bytes, hlen]

theorem Msg.Legible.ascii {m : Msg} (hm : m.Legible IsAscii) : Ascii m.bytes := by
  intro c hc
  rcases List.mem_append.mp (List.mem_of_mem_take hc) with hc | hc
  · exact hm.spelt c hc
  · obtain rfl := List.mem_singleton.mp hc
    decide

/-- Every type that the server sends is in the dictionary. -/
theorem lookup_replyTypes : ∀ t ∈ replyTypes, (serverProtocol.lookup t.code).isSome := by decide

theorem Msg.Legible.line_eq {m : Msg} {A : Char → Prop} (hm : m.Legible A) :
    printRecv m.msgType.code m.bytes = some m.line := by
  obtain ⟨name, hname⟩ := Option.isSome_iff_exists.mp (lookup_replyTypes _ hm.known)
  simp [Msg.line, printRecv, hname]

theorem Msg.Legible.fits {A : Char → Prop} {m : Msg} (hm : m.Legible A) :
    petrHeader.Fits ⟨m.msgType.code, m.bytes.length⟩ := by
  have hlt : m.bytes.length < 0x100000000 := by
    rw [hm.length_bytes]
    rcases hm.framed with ⟨hlen, -⟩ | ⟨hlen, hlt⟩
    · omega
    · rw [bufferSize] at hlt
      omega
  exact ⟨m.msgType.code_lt, hlt⟩

/-- The message as a frame of the protocol. -/
def Msg.Legible.frame {A : Char → Prop} {m : Msg} (hm : m.Legible A) : Frame petrHeader :=
  ⟨m.msgType.code, m.bytes, hm.fits⟩

theorem Msg.Legible.wire_eq {A : Char → Prop} {m : Msg} (hm : m.Legible A) :
    m.wire = hm.frame.bytes := by
  rw [Msg.wire, Frame.bytes, Frame.header, Msg.Legible.frame, hm.length_bytes]

theorem readReply_wire {m : Msg} (hm : m.Legible IsAscii) (rest : Text) :
    readReply (m.wire ++ rest) = some (m.line, rest) := by
  have hlong : petrHeader.size ≤ (hm.frame.bytes ++ rest).length := by
    rw [List.length_append, Frame.length_bytes, Nat.add_assoc]
    exact Nat.le_add_right _ _
  have hbody : (m.bytes ++ rest).take m.bytes.length = m.bytes := List.take_left
  have hrest : (m.bytes ++ rest).drop m.bytes.length = rest := List.drop_left
  rw [hm.wire_eq, readReply, if_pos hlong]
  simp only [Frame.decode_bytes, Frame.drop_bytes]
  simp only [Msg.Legible.frame, Frame.header, hbody, hrest, if_pos hm.ascii, hm.line_eq,
    Option.map_some]

/-- The replies are printed one after the other. -/
theorem readReplies_wire {ms : List Msg} (hms : ∀ m ∈ ms, m.Legible IsAscii) {n : Nat}
    (hn : n ≤ ms.length) : readReplies n (ms.flatMap Msg.wire) =
      some ((ms.take n).map Msg.line, (ms.drop n).flatMap Msg.wire) := by
  induction n generalizing ms with
  | zero => rfl
  | succ n ih =>
    cases ms with
    | nil => simp at hn
    | cons m ms =>
      have hread := readReply_wire (hms m List.mem_cons_self) (ms.flatMap Msg.wire)
      have hmore := ih (fun x hx => hms x (List.mem_cons_of_mem _ hx)) (Nat.le_of_succ_le_succ hn)
      simp only [readReplies, List.flatMap_cons, hread, Option.bind_eq_bind, Option.bind_some,
        hmore]
      rfl

theorem mem_splitOn {t piece : Text} (h : piece ∈ t.splitOn '\n') : '\n' ∉ piece := by
  induction t generalizing piece with
  | nil =>
    obtain rfl := List.mem_singleton.mp h
    simp
  | cons c t ih =>
    rw [List.splitOn_cons_eq_if_modifyHead] at h
    split at h
    · rcases List.mem_cons.mp h with rfl | h
      · simp
      · exact ih h
    · rename_i hc
      obtain ⟨first, pieces, hcons⟩ := List.exists_cons_of_ne_nil (List.splitOn_ne_nil '\n' t)
      rw [hcons, List.modifyHead_cons] at h
      rcases List.mem_cons.mp h with rfl | h
      · have hfirst := ih (hcons ▸ List.mem_cons_self)
        simp only [List.mem_cons, not_or]
        exact ⟨fun heq => hc (beq_iff_eq.mpr heq.symm), hfirst⟩
      · exact ih (hcons ▸ List.mem_cons_of_mem _ h)

/-- The names of a USRLIST are all there, in some order. -/
theorem splitOn_sortedNames (body : Text) :
    ((sortedNames body).splitOn '\n').Perm (body.splitOn '\n') := by
  have hsplit {pieces : List Text} (hperm : pieces.Perm (body.splitOn '\n')) :
      ((['\n'].intercalate pieces).splitOn '\n').Perm (body.splitOn '\n') := by
    rw [List.splitOn_intercalate]
    · exact hperm
    · exact fun piece hpiece => mem_splitOn (hperm.subset hpiece)
    · rintro rfl
      exact List.splitOn_ne_nil '\n' body hperm.nil_eq.symm
  simp only [sortedNames]
  split
  · split
    · rename_i hlast
      refine hsplit ?_
      obtain ⟨names, hnames⟩ := List.getLast?_eq_some_iff.mp hlast
      rw [hnames, List.dropLast_concat]
      exact (List.perm_insertionSort _ _).append_right _
    · exact hsplit (List.perm_insertionSort _ _)
  · exact .refl _

theorem ascii_join {pieces : List Text} :
    Ascii (['\n'].intercalate pieces) ↔ ∀ piece ∈ pieces, Ascii piece := by
  induction pieces with
  | nil => simp [Ascii]
  | cons piece pieces ih =>
    by_cases hnil : pieces = []
    · simp [hnil]
    · have hnewline : Ascii ['\n'] := by decide
      rw [List.intercalate_cons_of_ne_nil hnil, List.forall_mem_cons, ← ih]
      simp only [Ascii, List.forall_mem_append] at hnewline ⊢
      exact ⟨fun ⟨⟨h, _⟩, h'⟩ => ⟨h, h'⟩, fun ⟨h, h'⟩ => ⟨⟨h, hnewline⟩, h'⟩⟩

theorem ascii_pieces (t : Text) : Ascii t ↔ ∀ piece ∈ t.splitOn '\n', Ascii piece := by
  have h := @ascii_join (t.splitOn '\n')
  rwa [List.intercalate_splitOn] at h

theorem ascii_sortedNames {body : Text} (h : Ascii body) : Ascii (sortedNames body) := by
  rw [ascii_pieces] at h ⊢
  exact fun piece hpiece => h piece ((splitOn_sortedNames body).subset hpiece)

/-- The names in the dictionary have no blank, and tell the types apart. -/
theorem serverProtocol_spec : ∀ p ∈ serverProtocol, p.2.all (· ≠ ' ') ∧
    ∀ q ∈ serverProtocol, p.2 = q.2 → p.1 = q.1 := by decide

/-- What the user can tell of two replies whose lines are the same: they are of one type and have
one body, but for the order of the names in a USRLIST. -/
structure Msg.SameReply (m m' : Msg) : Prop where
  type : m.msgType = m'.msgType
  body : m.bytes = m'.bytes ∨ m.msgType = .USRLIST ∧
    (m.bytes.splitOn '\n').Perm (m'.bytes.splitOn '\n')

theorem takeWhile_blank {name : Text} (hname : name.all (· ≠ ' ')) {tail : Text}
    (htail : ∀ c ∈ tail.head?, c = ' ') : (name ++ tail).takeWhile (· ≠ ' ') = name := by
  rw [List.takeWhile_append_of_pos fun c hc => List.all_eq_true.mp hname c hc]
  cases tail with
  | nil => simp
  | cons c tail =>
    obtain rfl := htail c rfl
    simp

theorem printRecv_inj {code code' : Nat} {body body' line : Text} (hbody : Ascii body)
    (hbody' : Ascii body') (h : printRecv code body = some line)
    (h' : printRecv code' body' = some line) : code = code' ∧
      (body = body' ∨ serverProtocol.lookup code = some usrlist ∧
        (body.splitOn '\n').Perm (body'.splitOn '\n')) := by
  simp only [printRecv, Option.bind_eq_bind, Option.bind_eq_some_iff, Option.some.injEq] at h h'
  obtain ⟨name, hname, rfl⟩ := h
  obtain ⟨name', hname', hline⟩ := h'
  obtain ⟨hblank, hcode⟩ := serverProtocol_spec _ (mem_of_lookup hname)
  have hblank' := (serverProtocol_spec _ (mem_of_lookup hname')).1
  rw [List.append_assoc, List.append_assoc, List.append_cancel_left_eq] at hline
  have htail : ∀ shown b : Text, ∀ c ∈ (if b = [] then [] else ' ' :: pyRepr shown).head?,
      c = ' ' := by
    intro shown b
    split <;> simp
  have hnames : name = name' := by
    have hfront := congrArg (List.takeWhile (· ≠ ' ')) hline
    rw [takeWhile_blank hblank (htail _ body), takeWhile_blank hblank' (htail _ body')] at hfront
    exact hfront.symm
  subst hnames
  refine ⟨hcode _ (mem_of_lookup hname') rfl, ?_⟩
  rw [List.append_cancel_left_eq] at hline
  by_cases hnil : body = []
  · by_cases hnil' : body' = []
    · exact Or.inl (hnil.trans hnil'.symm)
    · rw [if_pos hnil, if_neg hnil'] at hline
      cases hline
  by_cases hnil' : body' = []
  · rw [if_neg hnil, if_pos hnil'] at hline
    cases hline
  rw [if_neg hnil, if_neg hnil', List.cons_inj_right] at hline
  by_cases husrlist : name = usrlist
  · rw [if_pos husrlist, if_pos husrlist] at hline
    have hshown := pyRepr_inj (ascii_sortedNames hbody') (ascii_sortedNames hbody) hline
    have hperm := splitOn_sortedNames body'
    rw [hshown] at hperm
    exact Or.inr ⟨husrlist ▸ hname, (splitOn_sortedNames body).symm.trans hperm⟩
  · rw [if_neg husrlist, if_neg husrlist] at hline
    exact Or.inl (pyRepr_inj hbody' hbody hline).symm

theorem lookup_usrlist : ∀ t ∈ replyTypes, serverProtocol.lookup t.code = some usrlist →
    t = .USRLIST := by decide

/-- A line tells which message it was printed for. -/
theorem Msg.Legible.line_inj {m m' : Msg} (hm : m.Legible IsAscii) (hm' : m'.Legible IsAscii)
    (h : m.line = m'.line) : m.SameReply m' := by
  obtain ⟨hcode, hbody⟩ := printRecv_inj hm.ascii hm'.ascii (h ▸ hm.line_eq) hm'.line_eq
  refine ⟨MsgType.code_inj hcode, hbody.imp id fun ⟨hname, hperm⟩ => ⟨?_, hperm⟩⟩
  exact lookup_usrlist _ hm.known hname

end ZBid
