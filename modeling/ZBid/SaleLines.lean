import ZBid.Answers
import ZBid.Decoding

/-!
# What a body of USRSALES tells

A line of USRSALES has two names that clients choose, side by side: the item's and the winner's.
The semicolon between them can be mistaken for one inside a name. Everything else on a line can be
told, also whether there is a winner: "None" is a legal username, but it is no price.
-/
namespace ZBid

open CInt CString Runs Separated

/-- A name as the server takes it from a message. -/
def Admitted (t : Text) : Prop := Plain crOrLf t ∧ '\x00' ∉ t

instance admittedDecidable (t : Text) : Decidable (Admitted t) :=
  inferInstanceAs (Decidable (_ ∧ _))

def SaleLine.Legible (line : SaleLine) : Prop :=
  Admitted line.item ∧ ∀ p ∈ line.sold, Admitted p.1

/-- No semicolon but the one between them can separate the item's name from the winner's: behind
the first character of the one there is none, and before the last of the other. -/
def SaleLine.Unambiguous (line : SaleLine) : Prop :=
  ∀ p ∈ line.sold, ';' ∉ line.item.tail ∧ ';' ∉ p.1.dropLast

/-- USRSALES sends a message about these auctions. -/
def Server.SendsSales (s : Server) (m : Msg) (lines : List SaleLine) : Prop :=
  ∃ fd user s' out, findUsername s fd = some user ∧ usersSales s fd = some (s', out) ∧
    .sent m ∈ out ∧ lines = s.saleLines user

/-- The third field of a line. -/
def SaleLine.buyer (line : SaleLine) : Text := line.sold.elim ['N', 'o', 'n', 'e'] Prod.fst

/-- The last field of a line. -/
def SaleLine.amount (line : SaleLine) : Text :=
  line.sold.elim ['N', 'o', 'n', 'e'] fun p => sprintfD p.2

theorem SaleLine.text_eq (line : SaleLine) : line.text =
    sprintfD line.id ++ [';'] ++ (line.item ++ [';'] ++ line.buyer) ++ [';'] ++ line.amount ++
      ['\n'] := by
  obtain ⟨id, item, sold⟩ := line
  cases sold <;> simp [SaleLine.text, SaleLine.buyer, SaleLine.amount]

theorem amount_semicolon (line : SaleLine) : ';' ∉ line.amount := by
  obtain ⟨id, item, sold⟩ := line
  cases sold with
  | none => simp [SaleLine.amount]
  | some p => exact sprintfD_semicolon p.2

theorem amount_newline (line : SaleLine) : '\n' ∉ line.amount := by
  obtain ⟨id, item, sold⟩ := line
  cases sold with
  | none => simp [SaleLine.amount]
  | some p => exact sprintfD_newline p.2

/-- No number is printed as "None". -/
theorem amount_inj {l l' : SaleLine} (h : l.amount = l'.amount) : l.price = l'.price := by
  have hnone (n : Int) : sprintfD n ≠ ['N', 'o', 'n', 'e'] := fun heq =>
    absurd List.mem_cons_self (heq ▸ not_mem_sprintfD (c := 'N') rfl (by decide) n)
  obtain ⟨id, item, sold⟩ := l
  obtain ⟨id', item', sold'⟩ := l'
  cases sold with
  | none =>
    cases sold' with
    | none => rfl
    | some p' => exact absurd h.symm (hnone p'.2)
  | some p =>
    cases sold' with
    | none => exact absurd h (hnone p.2)
    | some p' => exact congrArg some (sprintfD_injective h)

theorem amount_of_price {l l' : SaleLine} (h : l.price = l'.price) : l.amount = l'.amount := by
  obtain ⟨id, item, sold⟩ := l
  obtain ⟨id', item', sold'⟩ := l'
  cases sold <;> cases sold' <;> simp_all [SaleLine.price, SaleLine.amount]

/-- What two lines with the same text agree in. -/
theorem saleLine_text_iff {l l' : SaleLine} : l.text = l'.text ↔
    l.id = l'.id ∧ l.item ++ [';'] ++ l.buyer = l'.item ++ [';'] ++ l'.buyer ∧
      l.price = l'.price := by
  rw [SaleLine.text_eq, SaleLine.text_eq]
  constructor
  · intro h
    obtain ⟨hfront, hamount⟩ := last_inj (amount_semicolon l) (amount_semicolon l')
      (List.append_cancel_right h)
    obtain ⟨hid, hnames⟩ := number_first hfront
    exact ⟨hid, hnames, amount_inj hamount⟩
  · rintro ⟨hid, hnames, hprice⟩
    rw [hid, hnames, amount_of_price hprice]

/-- An admitted name, character by character. -/
theorem admitted_iff {t : Text} :
    Admitted t ↔ t ≠ [] ∧ ∀ c ∈ t, crOrLf c = false ∧ c ≠ '\x00' := by
  simp only [Admitted, Plain]
  grind

/-- A line's text belongs to no other line if and only if the semicolon between its two names can
be told. -/
theorem saleLine_unique_iff {l : SaleLine} (hl : l.Legible) :
    (∀ l' : SaleLine, l'.Legible → l'.text = l.text → l' = l) ↔ l.Unambiguous := by
  obtain ⟨id, item, sold⟩ := l
  obtain ⟨hitem, hsold⟩ := hl
  cases sold with
  | none =>
    refine iff_of_true ?_ (by simp [SaleLine.Unambiguous])
    rintro ⟨id', item', sold'⟩ - htext
    obtain ⟨rfl, hnames, hprice⟩ := saleLine_text_iff.mp htext
    obtain rfl : sold' = none := by simpa [SaleLine.price] using hprice
    obtain rfl : item' = item := by simpa [SaleLine.buyer] using hnames
    rfl
  | some p =>
    obtain ⟨winner, price⟩ := p
    have hsemicolon : crOrLf ';' = false ∧ ';' ≠ '\x00' := by decide
    obtain ⟨hi, hip⟩ := admitted_iff.mp hitem
    obtain ⟨hw, hwp⟩ := admitted_iff.mp (hsold _ rfl)
    have hcut := cut_unique_iff (p := fun c => crOrLf c = false ∧ c ≠ '\x00') hsemicolon hi hip hw
      hwp
    have hunambiguous : SaleLine.Unambiguous ⟨id, item, some (winner, price)⟩ ↔
        ';' ∉ item.tail ∧ ';' ∉ winner.dropLast := by
      simp [SaleLine.Unambiguous]
    rw [hunambiguous, ← hcut]
    constructor
    · intro hunique x y hx hxp hy hyp hnames
      have hsame := hunique ⟨id, x, some (y, price)⟩
        ⟨admitted_iff.mpr ⟨hx, hxp⟩, by simpa using admitted_iff.mpr ⟨hy, hyp⟩⟩
        (saleLine_text_iff.mpr ⟨rfl, hnames, rfl⟩)
      simpa using hsame
    · rintro hunique ⟨id', item', sold'⟩ ⟨hitem', hsold'⟩ htext
      obtain ⟨rfl, hnames, hprice⟩ := saleLine_text_iff.mp htext
      obtain ⟨⟨winner', price'⟩, rfl, rfl⟩ : ∃ p', sold' = some p' ∧ p'.2 = price := by
        simpa [SaleLine.price] using hprice
      have hitem'' := admitted_iff.mp hitem'
      have hwinner'' := admitted_iff.mp (hsold' _ rfl)
      obtain ⟨rfl, rfl⟩ := hunique item' winner' hitem''.1 hitem''.2 hwinner''.1 hwinner''.2 hnames
      rfl

theorem saleLine_ends {l : SaleLine} (h : l.Legible) :
    ∃ front, l.text = front ++ ['\n'] ∧ '\n' ∉ front := by
  refine ⟨_, l.text_eq, ?_⟩
  have hbuyer : '\n' ∉ l.buyer := by
    obtain ⟨id, item, sold⟩ := l
    cases sold with
    | none => simp [SaleLine.buyer]
    | some p => exact plain_newline (h.2 p rfl).1
  simp [sprintfD_newline, plain_newline h.1.1, hbuyer, amount_newline]

/-- Whatever the body, it is a text of lines. -/
theorem sendsSales_body {s : Server} {m : Msg} {lines : List SaleLine} (h : s.SendsSales m lines) :
    m.body = lines.flatMap SaleLine.text ∧ m.body.length < bufferSize := by
  obtain ⟨fd, user, s', out, huser, h, hm, rfl⟩ := h
  simp only [usersSales, huser, Option.bind_eq_bind, Option.bind_some] at h
  refine ⟨(report_content usersSalesInfo_line h hm).2, ?_⟩
  by_cases hempty : user.auctionsOwned.nodes = []
  · simp only [report, hempty, ↓reduceIte, Option.some.injEq, Prod.mk.injEq] at h
    obtain ⟨-, rfl⟩ := h
    obtain rfl : m = _ := Event.sent.inj (List.mem_singleton.mp hm)
    exact Nat.zero_lt_succ 1023
  · simp only [report, hempty, ↓reduceIte, Option.bind_eq_bind, Option.bind_eq_some_iff,
      Option.some.injEq, Prod.mk.injEq] at h
    obtain ⟨text, -, body, hbody, -, rfl⟩ := h
    obtain rfl : m = _ := Event.sent.inj (List.mem_singleton.mp hm)
    exact fits_eq_some hbody ▸ fits_lt hbody

/-- Sales whose text fits the buffer can be asked for. -/
theorem sendsSales_of_fits {s : Server} {fd : Int} {user : User}
    (huser : findUsername s fd = some user)
    (hstored : ∀ k ∈ user.auctionsOwned.nodes, k < s.auctions.length)
    (hfit : ((s.saleLines user).flatMap SaleLine.text).length < bufferSize) :
    ∃ m, s.SendsSales m (s.saleLines user) := by
  obtain ⟨text, htext⟩ := infoLines_isSome usersSalesInfo hstored
  have hinfo : usersSalesInfo = fun x => x.saleLine.text := funext usersSalesInfo_line
  have hbody : text = (s.saleLines user).flatMap SaleLine.text := by
    rw [infoLines_eq htext, Server.saleLines, Server.records, List.flatMap_map, hinfo]
  have hfits : fits text = some text := if_pos (hbody ▸ hfit)
  obtain ⟨m, hsales⟩ : ∃ m, usersSales s fd = some (s, [.sent m]) := by
    simp only [usersSales, huser, Option.bind_eq_bind, Option.bind_some, report, htext, hfits]
    split <;> exact ⟨_, rfl⟩
  exact ⟨m, fd, user, s, _, huser, hsales, List.mem_singleton_self _, rfl⟩

/-- The user owns one auction. -/
theorem sendsSales_one {s : Server} {fd : Int} {user : User} {x : Auction}
    (huser : findUsername s fd = some user) (hnodes : user.auctionsOwned.nodes = [0])
    (hx : s.auctions = [x]) (hfit : x.saleLine.text.length < bufferSize) :
    ∃ m, s.SendsSales m [x.saleLine] := by
  have hlines : s.saleLines user = [x.saleLine] := by
    simp [Server.saleLines, Server.records, hnodes, hx]
  have hsends := sendsSales_of_fits huser (by simp [hnodes, hx]) (by simpa [hlines] using hfit)
  rwa [hlines] at hsends

/-- A record that is listed as a given line. -/
def SaleLine.auction (line : SaleLine) : Auction where
  id := line.id
  name := line.item
  duration := 0
  binPrice := 0
  binFlag := 0
  bid := line.sold.elim 0 Prod.snd
  currentWinner := line.sold.map fun p => ⟨1, p.1⟩
  creator := some ⟨0, ['A']⟩
  watchers := createList
  numberOfWatchers := 0

theorem auction_saleLine (line : SaleLine) : line.auction.saleLine = line := by
  obtain ⟨id, item, sold⟩ := line
  cases sold <;> rfl

/-- The user who owns all the auctions. -/
def sellerOf (lines : List SaleLine) : User :=
  ⟨some ⟨0, ['A']⟩, some ⟨0, ['x']⟩, true, 0, 4, ⟨List.range lines.length, lines.length⟩,
    createList⟩

/-- A server whose one user owns auctions that are listed as given lines. -/
def Server.selling (lines : List SaleLine) : Server :=
  { Server.start with usersList := ⟨[sellerOf lines], 1⟩, auctions := lines.map SaleLine.auction }

theorem filterMap_range {α : Type} (xs : List α) :
    (List.range xs.length).filterMap (fun k => xs[k]?) = xs := by
  induction xs with
  | nil => rfl
  | cons x xs ih =>
    rw [List.length_cons, List.range_succ_eq_map, List.filterMap_cons_some (by rfl),
      List.filterMap_map]
    exact congrArg (x :: ·) ih

theorem selling_records (lines : List SaleLine) :
    (Server.selling lines).records (List.range lines.length) = lines.map SaleLine.auction := by
  have hall := filterMap_range (lines.map SaleLine.auction)
  rwa [List.length_map] at hall

theorem selling_saleLines (lines : List SaleLine) :
    (Server.selling lines).saleLines (sellerOf lines) = lines := by
  rw [Server.saleLines, sellerOf, selling_records, List.map_map]
  exact List.map_id'' auction_saleLine lines

theorem selling_sends {lines : List SaleLine}
    (hfit : (lines.flatMap SaleLine.text).length < bufferSize) :
    ∃ m, (Server.selling lines).SendsSales m lines := by
  have huser : findUsername (Server.selling lines) 4 = some (sellerOf lines) := rfl
  have hstored : ∀ k ∈ (sellerOf lines).auctionsOwned.nodes,
      k < (Server.selling lines).auctions.length := by
    simp [sellerOf, Server.selling]
  have hsends := sendsSales_of_fits huser hstored (by rwa [selling_saleLines])
  rwa [selling_saleLines] at hsends

/-- A body tells the auctions it is about: USRSALES sends it about no others. -/
def TellsSales (m : Msg) (lines : List SaleLine) : Prop :=
  ∀ (s' : Server) m' lines', s'.SendsSales m' lines' → (∀ line ∈ lines', line.Legible) →
    m'.body = m.body → lines' = lines

/-- The body tells the auctions if and only if the two names can be told on each of its lines. -/
theorem tellsSales_iff {s : Server} {m : Msg} {lines : List SaleLine} (h : s.SendsSales m lines)
    (hlegible : ∀ line ∈ lines, line.Legible) :
    TellsSales m lines ↔ ∀ line ∈ lines, line.Unambiguous := by
  obtain ⟨hbody, hfit⟩ := sendsSales_body h
  have hlines := lines_unique_iff (fun _ => saleLine_ends) hlegible
  have hone : (∀ line ∈ lines, line.Unambiguous) ↔ ∀ line ∈ lines, ∀ line' : SaleLine,
      line'.Legible → line'.text = line.text → line' = line :=
    forall₂_congr fun line hline => (saleLine_unique_iff (hlegible line hline)).symm
  rw [hone, ← hlines]
  constructor
  · intro htells lines' hlegible' htext
    obtain ⟨m', hm'⟩ := selling_sends (htext ▸ hbody ▸ hfit)
    exact htells _ m' lines' hm' hlegible' ((sendsSales_body hm').1.trans (htext.trans hbody.symm))
  · intro hunique s' m' lines' h' hlegible' hsame
    refine hunique lines' hlegible' ?_
    rw [← (sendsSales_body h').1, hsame, hbody]

/-- A has sold the item V to B. -/
theorem tellsSales_iff_sample : ∃ m, sampleSold.1.SendsSales m [⟨1, ['V'], some (['B'], 7)⟩] ∧
    TellsSales m [⟨1, ['V'], some (['B'], 7)⟩] := by
  let x : Auction := ⟨1, ['V'], 0, 50, 1, 7, some ⟨1, ['B']⟩, some ⟨0, ['A']⟩,
    ⟨[⟨1, ['B']⟩], 1⟩, 1⟩
  let user : User := ⟨some ⟨0, ['A']⟩, some ⟨0, ['x']⟩, true, 7, 4, ⟨[0], 1⟩, ⟨[], 0⟩⟩
  have huser : findUsername sampleSold.1 4 = some user := by decide
  have hx : sampleSold.1.auctions = [x] := by decide
  obtain ⟨m, hsends⟩ := sendsSales_one huser rfl hx (by decide)
  refine ⟨m, hsends, (tellsSales_iff hsends ?_).mpr ?_⟩
  · intro line hline
    obtain rfl := List.mem_singleton.mp hline
    exact ⟨by decide, by decide⟩
  · intro line hline
    obtain rfl := List.mem_singleton.mp hline
    intro p hp
    obtain rfl : (['B'], 7) = p := Option.some.inj hp
    decide

/-- The check of usernames that `login` leaves for later would be enough. -/
theorem sales_of_filtered {s s' : Server} {m m' : Msg} {lines lines' : List SaleLine}
    (h : s.SendsSales m lines) (h' : s'.SendsSales m' lines')
    (hlegible : ∀ line ∈ lines, line.Legible) (hlegible' : ∀ line ∈ lines', line.Legible)
    (hfilter : ∀ line ∈ lines, ∀ p ∈ line.sold, ';' ∉ p.1)
    (hfilter' : ∀ line ∈ lines', ∀ p ∈ line.sold, ';' ∉ p.1) (hsame : m.body = m'.body) :
    lines = lines' := by
  have hbuyer {l : SaleLine} (hl : ∀ p ∈ l.sold, ';' ∉ p.1) : ';' ∉ l.buyer := by
    obtain ⟨id, item, sold⟩ := l
    cases sold with
    | none => simp [SaleLine.buyer]
    | some p => exact hl p rfl
  refine lines_inj (P := fun l => l.Legible ∧ ∀ p ∈ l.sold, ';' ∉ p.1)
    (fun _ hl => saleLine_ends hl.1) ?_ (fun l hl => ⟨hlegible l hl, hfilter l hl⟩)
    (fun l hl => ⟨hlegible' l hl, hfilter' l hl⟩) ?_
  · rintro ⟨id, item, sold⟩ ⟨id', item', sold'⟩ ⟨-, hl⟩ ⟨-, hl'⟩ htext
    obtain ⟨rfl, hnames, hprice⟩ := saleLine_text_iff.mp htext
    obtain ⟨rfl, hbuyers⟩ := last_inj (hbuyer hl) (hbuyer hl') hnames
    cases sold <;> cases sold' <;> simp_all [SaleLine.buyer, SaleLine.price, Prod.ext_iff]
  · rw [← (sendsSales_body h).1, hsame, (sendsSales_body h').1]

/-- A sells an item above 5, and another user buys it for 7. -/
def sampleTrade (item bidder : Text) : List Action :=
  [.accept 4 MsgType.LOGIN.code ['A', '\r', '\n', 'x'],
    .accept 5 MsgType.LOGIN.code (bidder ++ ['\r', '\n', 'y']),
    sampleJob .ANCREATE 4 (item ++ ['\r', '\n', '3', '\r', '\n', '5']),
    sampleJob .ANWATCH 5 ['1'], sampleJob .ANBID 5 ['1', '\r', '\n', '7']]

/-- The item "V;1" sold to "B" and the item "V" sold to "1;B" are the same line. -/
theorem salesBody_fails : ¬ ∀ (as as' : List Action) tr tr' (s s' : Server) m m' lines lines',
    Run Server.step (Server.Admits LoggedIn) Server.start as tr s →
    Run Server.step (Server.Admits LoggedIn) Server.start as' tr' s' →
    s.SendsSales m lines → s'.SendsSales m' lines' → (∀ line ∈ lines, line.Legible) →
    (∀ line ∈ lines', line.Legible) → m.body = m'.body → lines = lines' := by
  intro claim
  let first := (exec Server.step (Server.Admits LoggedIn) Server.start
    (sampleTrade ['V', ';', '1'] ['B'])).get (by decide)
  let second := (exec Server.step (Server.Admits LoggedIn) Server.start
    (sampleTrade ['V'] ['1', ';', 'B'])).get (by decide)
  let x : Auction := ⟨1, ['V', ';', '1'], 3, 5, 1, 7, some ⟨1, ['B']⟩, some ⟨0, ['A']⟩,
    ⟨[⟨1, ['B']⟩], 1⟩, 1⟩
  let y : Auction := ⟨1, ['V'], 3, 5, 1, 7, some ⟨1, ['1', ';', 'B']⟩, some ⟨0, ['A']⟩,
    ⟨[⟨1, ['1', ';', 'B']⟩], 1⟩, 1⟩
  let user : User := ⟨some ⟨0, ['A']⟩, some ⟨0, ['x']⟩, true, 7, 4, ⟨[0], 1⟩, ⟨[], 0⟩⟩
  have run : Run Server.step (Server.Admits LoggedIn) Server.start _ first.2 first.1 :=
    run_of_isSome (by decide)
  have run' : Run Server.step (Server.Admits LoggedIn) Server.start _ second.2 second.1 :=
    run_of_isSome (by decide)
  have huser : findUsername first.1 4 = some user := by decide
  have huser' : findUsername second.1 4 = some user := by decide
  have hx : first.1.auctions = [x] := by decide
  have hy : second.1.auctions = [y] := by decide
  obtain ⟨m, hsends⟩ := sendsSales_one huser rfl hx (by decide)
  obtain ⟨m', hsends'⟩ := sendsSales_one huser' rfl hy (by decide)
  have hbody : m.body = m'.body := by
    rw [(sendsSales_body hsends).1, (sendsSales_body hsends').1]
    decide
  have hlegible : ∀ line ∈ [x.saleLine], line.Legible := by
    intro line hline
    obtain rfl := List.mem_singleton.mp hline
    exact ⟨by decide, by decide⟩
  have hlegible' : ∀ line ∈ [y.saleLine], line.Legible := by
    intro line hline
    obtain rfl := List.mem_singleton.mp hline
    exact ⟨by decide, by decide⟩
  have hsame := claim _ _ _ _ _ _ _ _ _ _ run run' hsends hsends' hlegible hlegible' hbody
  exact absurd (congrArg (List.map SaleLine.item) hsame) (by decide)

end ZBid
