import ZBid.Lib.Fields
import ZBid.Lib.Separated
import ZBid.Reports

/-!
# What the bodies tell

A name may hold the separator of the lines it stands in. A client can tell the data of a body all
the same: the numbers hold no separator, so that a line is cut from both its ends, and a line ends
at its only newline.
-/
namespace ZBid

open CInt CString Runs Separated

/-- A line of ANLIST. -/
structure ListLine where
  id : Int
  item : Text
  binPrice : Int
  numberOfWatchers : Int
  bid : Int
  duration : Int

def ListLine.text (line : ListLine) : Text :=
  sprintfD line.id ++ [';'] ++ line.item ++ [';'] ++ sprintfD line.binPrice ++ [';'] ++
    sprintfD line.numberOfWatchers ++ [';'] ++ sprintfD line.bid ++ [';'] ++
    sprintfD line.duration ++ ['\n']

def Auction.listLine (x : Auction) : ListLine :=
  ⟨x.id, x.name, x.binPrice, x.numberOfWatchers, x.bid, x.duration⟩

theorem auctionInfo_line (x : Auction) : auctionInfo x = x.listLine.text := rfl

/-- What a body is about. The sale of a closed auction is its winner and the price. -/
inductive Content where
  | anlist (lines : List ListLine)
  | usrwins (lines : List WinLine)
  | anwatch (item : Text) (binPrice : Int)
  | anupdate (id : Int) (item bidder : Text) (bid : Int)
  | anclosed (id : Int) (sale : Option (Text × Int))

def Content.msgType : Content → MsgType
  | .anlist _ => .ANLIST
  | .usrwins _ => .USRWINS
  | .anwatch _ _ => .ANWATCH
  | .anupdate _ _ _ _ => .ANUPDATE
  | .anclosed _ _ => .ANCLOSED

def Content.text : Content → Text
  | .anlist lines => lines.flatMap ListLine.text
  | .usrwins lines => lines.flatMap WinLine.text
  | .anwatch item binPrice => item ++ crlf ++ sprintfD binPrice
  | .anupdate id item bidder bid =>
    sprintfD id ++ crlf ++ item ++ crlf ++ bidder ++ crlf ++ sprintfD bid
  | .anclosed id sale =>
    sprintfD id ++ crlf ++
      match sale with
      | none => crlf ++ crlf
      | some (winner, price) => winner ++ crlf ++ sprintfD price

/-- The names and usernames are as `strtok` hands them out. -/
def Content.Legible : Content → Prop
  | .anlist lines => ∀ line ∈ lines, Plain crOrLf line.item
  | .usrwins lines => ∀ line ∈ lines, Plain crOrLf line.item
  | .anwatch item _ => Plain crOrLf item
  | .anupdate _ item bidder _ => Plain crOrLf item ∧ Plain crOrLf bidder
  | .anclosed _ sale => ∀ p ∈ sale, Plain crOrLf p.1

/-- The messages that the handlers send, with the data they take from the server. -/
inductive Server.Sends (s : Server) : Msg → Content → Prop where
  | anlist {fd s' out m} : listAuctions s fd = some (s', out) → .sent m ∈ out →
      s.Sends m (.anlist (s.listed.map Auction.listLine))
  | usrwins {fd user s' out m} : findUsername s fd = some user →
      usersWins s fd = some (s', out) → .sent m ∈ out →
      s.Sends m (.usrwins ((s.records user.auctionsWon.nodes).map Auction.winLine))
  | anwatch {fd auctionId a x s' out m} :
      findById s auctionId s.auctionsList.nodes = some (some a) → s.auctions[a]? = some x →
      watchAuction s fd auctionId = some (s', out) → .sent m ∈ out →
      s.Sends m (.anwatch x.name x.binPrice)
  | anupdate {x : Auction} {bidder : CharPtr} {out m} :
      updateAuction s x (some bidder) = some out → .sent m ∈ out →
      s.Sends m (.anupdate x.id x.name bidder.text x.bid)
  | anclosed {a} {x : Auction} {s' out m} : s.auctions[a]? = some x →
      closeAuction s a = some (s', out) → .sent m ∈ out →
      s.Sends m (.anclosed x.id (x.currentWinner.map fun winner => (winner.text, x.bid)))

theorem sprintfD_semicolon (n : Int) : ';' ∉ sprintfD n := not_mem_sprintfD rfl (by decide) n

theorem sprintfD_newline (n : Int) : '\n' ∉ sprintfD n := not_mem_sprintfD rfl (by decide) n

theorem sprintfD_return (n : Int) : '\r' ∉ sprintfD n := not_mem_sprintfD rfl (by decide) n

theorem plain_return {t : Text} (h : Plain crOrLf t) : '\r' ∉ t := fun hc => by
  simpa [crOrLf] using h.2 _ hc

theorem plain_newline {t : Text} (h : Plain crOrLf t) : '\n' ∉ t := fun hc => by
  simpa [crOrLf] using h.2 _ hc

/-- A number ends at the first semicolon. -/
theorem number_first {m n : Int} {s t : Text}
    (h : sprintfD m ++ [';'] ++ s = sprintfD n ++ [';'] ++ t) : m = n ∧ s = t := by
  obtain ⟨hm, hs⟩ := first_inj (sprintfD_semicolon m) (sprintfD_semicolon n) h
  exact ⟨sprintfD_injective hm, hs⟩

/-- A number starts behind the last semicolon. -/
theorem number_last {m n : Int} {x y : Text}
    (h : x ++ [';'] ++ sprintfD m = y ++ [';'] ++ sprintfD n) : x = y ∧ m = n := by
  obtain ⟨hx, hm⟩ := last_inj (sprintfD_semicolon m) (sprintfD_semicolon n) h
  exact ⟨hx, sprintfD_injective hm⟩

theorem crlf_first {m n : Int} {s t : Text}
    (h : sprintfD m ++ crlf ++ s = sprintfD n ++ crlf ++ t) : m = n ∧ s = t := by
  have hcut : sprintfD m ++ ['\r'] ++ ('\n' :: s) = sprintfD n ++ ['\r'] ++ ('\n' :: t) := by
    simpa [crlf] using h
  obtain ⟨hm, hrest⟩ := first_inj (sprintfD_return m) (sprintfD_return n) hcut
  exact ⟨sprintfD_injective hm, (List.cons.inj hrest).2⟩

theorem crlf_last {x y s t : Text} (hs : '\n' ∉ s) (ht : '\n' ∉ t)
    (h : x ++ crlf ++ s = y ++ crlf ++ t) : x = y ∧ s = t := by
  have hcut : x ++ ['\r'] ++ ['\n'] ++ s = y ++ ['\r'] ++ ['\n'] ++ t := by
    simpa [crlf] using h
  obtain ⟨hfront, hback⟩ := last_inj hs ht hcut
  exact ⟨List.append_cancel_right hfront, hback⟩

theorem crlf_number {m n : Int} {x y : Text}
    (h : x ++ crlf ++ sprintfD m = y ++ crlf ++ sprintfD n) : x = y ∧ m = n := by
  obtain ⟨hx, hm⟩ := crlf_last (sprintfD_newline m) (sprintfD_newline n) h
  exact ⟨hx, sprintfD_injective hm⟩

/-- A line is cut behind its id, and from its end back to the name. -/
theorem listLine_inj {l l' : ListLine} (h : l.text = l'.text) : l = l' := by
  obtain ⟨id, item, binPrice, watchers, bid, duration⟩ := l
  obtain ⟨id', item', binPrice', watchers', bid', duration'⟩ := l'
  simp only [ListLine.text] at h
  obtain ⟨hduration, rfl⟩ := number_last (List.append_cancel_right h)
  obtain ⟨hbid, rfl⟩ := number_last hduration
  obtain ⟨hwatchers, rfl⟩ := number_last hbid
  obtain ⟨hbin, rfl⟩ := number_last hwatchers
  obtain ⟨rfl, rfl⟩ := number_first hbin
  rfl

theorem winLine_inj {l l' : WinLine} (h : l.text = l'.text) : l = l' := by
  obtain ⟨id, item, price⟩ := l
  obtain ⟨id', item', price'⟩ := l'
  simp only [WinLine.text] at h
  obtain ⟨hfront, rfl⟩ := number_last (List.append_cancel_right h)
  obtain ⟨rfl, rfl⟩ := number_first hfront
  rfl

theorem listLine_ends {l : ListLine} (h : Plain crOrLf l.item) :
    ∃ front, l.text = front ++ ['\n'] ∧ '\n' ∉ front := by
  refine ⟨_, rfl, ?_⟩
  simp [sprintfD_newline, plain_newline h]

theorem winLine_ends {l : WinLine} (h : Plain crOrLf l.item) :
    ∃ front, l.text = front ++ ['\n'] ∧ '\n' ∉ front := by
  refine ⟨_, rfl, ?_⟩
  simp [sprintfD_newline, plain_newline h]

/-- Contents of one type with the same text are the same. -/
theorem content_inj {c c' : Content} (htype : c.msgType = c'.msgType) (hc : c.Legible)
    (hc' : c'.Legible) (h : c.text = c'.text) : c = c' := by
  cases c <;> cases c' <;> cases htype
  case anlist.anlist lines lines' =>
    rw [lines_inj (fun _ => listLine_ends) (fun _ _ _ _ => listLine_inj) hc hc' h]
  case usrwins.usrwins lines lines' =>
    rw [lines_inj (fun _ => winLine_ends) (fun _ _ _ _ => winLine_inj) hc hc' h]
  case anwatch.anwatch item binPrice item' binPrice' =>
    obtain ⟨rfl, rfl⟩ := crlf_number h
    rfl
  case anupdate.anupdate id item bidder bid id' item' bidder' bid' =>
    obtain ⟨hbid, rfl⟩ := crlf_number h
    obtain ⟨hbidder, rfl⟩ := crlf_last (plain_newline hc.2) (plain_newline hc'.2) hbid
    obtain ⟨hid, rfl⟩ := crlf_last (plain_newline hc.1) (plain_newline hc'.1) hbidder
    obtain rfl := sprintfD_injective hid
    rfl
  case anclosed.anclosed id sale id' sale' =>
    obtain ⟨rfl, hsale⟩ := crlf_first h
    -- the line of the winner is empty exactly when there is none
    have hwinner {winner : Text} {price : Int} (hplain : Plain crOrLf winner) :
        winner ++ crlf ++ sprintfD price ≠ crlf ++ crlf := by
      rw [List.append_assoc]
      exact first_ne_nil hplain.1 (plain_return hplain)
    rcases sale with _ | ⟨winner, price⟩ <;> rcases sale' with _ | ⟨winner', price'⟩
    · rfl
    · exact absurd hsale.symm (hwinner (hc' _ rfl))
    · exact absurd hsale (hwinner (hc _ rfl))
    · obtain ⟨rfl, rfl⟩ := crlf_number hsale
      rfl

theorem report_content {α : Type} {s s' : Server} {fd : Int} {t : MsgType} {info : Auction → Text}
    {line : Auction → α} {text : α → Text} {list : LinkedList Nat} {out : List Event} {m : Msg}
    (hline : ∀ x, info x = text (line x)) (h : report s fd t info list = some (s', out))
    (hm : .sent m ∈ out) :
    m.msgType = t ∧ m.body = ((s.records list.nodes).map line).flatMap text := by
  rw [report_lines hline h, List.mem_singleton] at hm
  simp only [lineReply] at hm
  split at hm
  · rename_i hempty
    cases hm
    simp [hempty]
  · cases hm
    exact ⟨rfl, rfl⟩

/-- A close sends nothing but its ANCLOSED. -/
theorem closeAuction_sent {s s' : Server} {a : Nat} {x : Auction} {out : List Event} {m : Msg}
    (hx : s.auctions[a]? = some x) (h : closeAuction s a = some (s', out)) (hm : .sent m ∈ out) :
    ∃ fd, .sent m = message fd .ANCLOSED (closedBody x) := by
  obtain ⟨y, mid, debit, credit, fds, hy, hdebit, hcredit, -, rfl⟩ := (closeAuction_spec h).some
  obtain rfl : x = y := Option.some.inj (hx.symm.trans hy)
  have hdebits : .sent m ∉ debit := by
    rcases debitWinner_spec hdebit with ⟨-, -, rfl⟩ | ⟨_, _, _, _, -, -, -, -, -, rfl⟩ <;> simp
  have hcredits : .sent m ∉ credit := by
    obtain ⟨_, _, -, -, -, rfl⟩ := creditCreator_spec hcredit
    simp
  simp only [List.cons_append, List.mem_cons, List.mem_append, List.mem_map, hdebits, hcredits,
    false_or, reduceCtorEq] at hm
  obtain ⟨fd, -, hfd⟩ := hm
  exact ⟨fd, hfd.symm⟩

theorem closedBody_content (x : Auction) : closedBody x =
    (Content.anclosed x.id (x.currentWinner.map fun winner => (winner.text, x.bid))).text := by
  cases hw : x.currentWinner <;> simp [closedBody, Content.text, hw]

/-- A message is of its content's type and carries its text. -/
theorem sends_content {s : Server} {m : Msg} {c : Content} (h : s.Sends m c) :
    m.msgType = c.msgType ∧ m.body = c.text := by
  cases h with
  | anlist h hm => exact report_content auctionInfo_line h hm
  | usrwins huser h hm =>
    simp only [usersWins, huser, Option.bind_eq_bind, Option.bind_some] at h
    exact report_content usersWinsInfo_line h hm
  | anwatch hfound hx h hm =>
    simp only [watchAuction, hfound, hx, Option.bind_eq_bind, Option.bind_some,
      Option.bind_eq_some_iff] at h
    obtain ⟨user, -, watchers, -, body, hbody, h⟩ := h
    cases h
    obtain rfl := fits_eq_some hbody
    obtain rfl : m = _ := Event.sent.inj (List.mem_singleton.mp hm)
    exact ⟨rfl, rfl⟩
  | anupdate h hm =>
    simp only [updateAuction, Option.bind_eq_bind, Option.bind_some, Option.bind_eq_some_iff] at h
    obtain ⟨body, hbody, fds, -, h⟩ := h
    cases h
    obtain rfl := fits_eq_some hbody
    obtain ⟨fd, -, hfd⟩ := List.mem_map.mp hm
    obtain rfl := Event.sent.inj hfd
    exact ⟨rfl, rfl⟩
  | anclosed hx h hm =>
    obtain ⟨fd, hfd⟩ := closeAuction_sent hx h hm
    obtain rfl := Event.sent.inj hfd
    exact ⟨rfl, closedBody_content _⟩

/-- Bodies of one type that are equal carry the same data. -/
theorem content_of_body {s s' : Server} {m m' : Msg} {c c' : Content} (h : s.Sends m c)
    (h' : s'.Sends m' c') (hc : c.Legible) (hc' : c'.Legible) (htype : m.msgType = m'.msgType)
    (hbody : m.body = m'.body) : c = c' := by
  obtain ⟨hm, ht⟩ := sends_content h
  obtain ⟨hm', ht'⟩ := sends_content h'
  rw [hm, hm'] at htype
  rw [ht, ht'] at hbody
  exact content_inj htype hc hc' hbody

/-- A server at some tick, whose one auction sells the item "V;1". -/
def sampleSelling (tick : Int) : Server :=
  let x : Auction := ⟨1, ['V', ';', '1'], 3, 0, 0, -7, some ⟨1, ['B']⟩, some ⟨0, ['A']⟩, ⟨[], 0⟩, 0⟩
  { Server.start with auctionsList := ⟨[0], 1⟩, auctions := [x], tick }

theorem content_of_body_sample :
    Content.anlist ((sampleSelling 0).listed.map Auction.listLine) =
      .anlist ((sampleSelling 1).listed.map Auction.listLine) := by
  let body : Text :=
    ['1', ';', 'V', ';', '1', ';', '0', ';', '0', ';', '-', '7', ';', '3', '\n']
  have hA : listAuctions (sampleSelling 0) 4 =
      some (sampleSelling 0, [message 4 .ANLIST body]) := by decide
  have hB : listAuctions (sampleSelling 1) 5 =
      some (sampleSelling 1, [message 5 .ANLIST body]) := by decide
  have hplain : Plain crOrLf ['V', ';', '1'] := by decide
  have hlegible (tick : Int) :
      (Content.anlist ((sampleSelling tick).listed.map Auction.listLine)).Legible := by
    intro line hline
    obtain rfl := List.mem_singleton.mp hline
    exact hplain
  exact content_of_body (.anlist hA List.mem_cons_self) (.anlist hB List.mem_cons_self)
    (hlegible 0) (hlegible 1) rfl rfl

end ZBid
