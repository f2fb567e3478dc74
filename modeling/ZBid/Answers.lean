import ZBid.Buffers
import ZBid.Lookups
import ZBid.Requests
import ZBid.Watchers

/-!
# Every request is answered

A client waits for the answer to its request. Most ends of the handlers send one; the loop of
`bidAuction` that runs off the list sends nothing, ANLEAVE by somebody who is not on the list runs
off the watchers, and a text too long for its array ends the server.
-/
namespace ZBid

open CInt CString Runs

/-- The step completes, and among its messages to `fd` is one that is not an ANUPDATE. -/
def Replies (result : Option (Server × List Event)) (fd : Int) : Prop :=
  ∃ s' out m, result = some (s', out) ∧ .sent m ∈ out ∧ m.fd = fd ∧ m.msgType ≠ .ANUPDATE

def Answered (s : Server) (env : JobEnv) (job : Job) : Prop :=
  Replies (processJob s env job) job.clientfd

/-- A request of one of the ten types, with the fields that its type has. -/
def Asks (job : Job) : Prop :=
  match MsgType.ofCode job.jobMsgType with
  | some .ANCREATE => (ancreateArgs (cstr job.jobBuffer)).isSome
  | some .ANBID => (anbidArgs (cstr job.jobBuffer)).isSome
  | some .LOGOUT | some .ANLIST | some .ANWATCH | some .ANLEAVE | some .USRLIST | some .USRWINS
  | some .USRSALES | some .USRBLNC => True
  | _ => False

/-- The name is on the watchers list. -/
def Auction.Watches (x : Auction) (name : CharStar) : Prop :=
  ∃ w ∈ x.watchers.nodes, nameText name = some w.text

instance (x : Auction) (name : CharStar) : Decidable (x.Watches name) :=
  inferInstanceAs (Decidable (∃ w ∈ x.watchers.nodes, _))

/-- Somebody on `usersList` has the name. -/
def Server.Knows (s : Server) (name : CharStar) : Prop :=
  ∃ u ∈ s.users, strcmpEq name u.username = some true

/-- The id is on the list or the list is empty; and the text of the broadcast fits, if the bid is
accepted. A buy-it-now bid needs a creator to pay. -/
def Server.AnswersBid (s : Server) (user : User) (auctionId bid : Int) : Prop :=
  s.auctionsList.nodes = [] ∨
  ∃ a x, findById s auctionId s.auctionsList.nodes = some (some a) ∧ s.auctions[a]? = some x ∧
    (samePtr x.creator user.username = true ∨ ¬ x.Watches user.username ∨
      if x.binFlag = 1 ∧ bid > x.binPrice then
        s.Knows x.creator ∧
          s.width (.closeAuction (x.withBid user.username bid)) < bufferSize
      else bid ≤ x.bid ∨ ∀ name ∈ user.username,
        s.width (.updateAuction (x.withBid user.username bid) name) < bufferSize)

/-- What it takes for the request of a user to be answered. -/
def Server.CanAnswer (s : Server) (env : JobEnv) (job : Job) (user : User) : Prop :=
  match MsgType.ofCode job.jobMsgType with
  | some .ANCREATE => ∀ args ∈ ancreateArgs (cstr job.jobBuffer),
      args.2.1 < 1 ∨ args.2.2 < 0 ∨ s.auctionID < intMax
  | some .ANLIST => s.width .listAuctions < bufferSize
  | some .ANWATCH => ∀ a x,
      findById s (atoi (cstr job.jobBuffer)) s.auctionsList.nodes = some (some a) →
      s.auctions[a]? = some x →
      (user.username = none ∨ x.watchers.length < intMax) ∧
        s.width (.watchAuction x) < bufferSize
  | some .ANLEAVE => ∀ a x,
      findById s (atoi (cstr job.jobBuffer)) s.auctionsList.nodes = some (some a) →
      s.auctions[a]? = some x → x.Watches user.username
  | some .ANBID => ∀ args ∈ anbidArgs (cstr job.jobBuffer), s.AnswersBid user args.1 args.2
  | some .USRLIST => s.width (.printUsers env.stack job.clientfd) < bufferSize
  | some .USRWINS => s.width (.usersWins user) < bufferSize
  | some .USRSALES => s.width (.usersSales user) < bufferSize
  | _ => True

theorem findById_isSome {s : Server} (id : Int) {l : List Nat}
    (hstored : ∀ k ∈ l, k < s.auctions.length) : ∃ found, findById s id l = some found := by
  induction l with
  | nil => exact ⟨none, rfl⟩
  | cons k rest ih =>
    obtain ⟨found, hfound⟩ := ih fun m hm => hstored m (List.mem_cons_of_mem _ hm)
    have hx := List.getElem?_eq_getElem (hstored k List.mem_cons_self)
    simp only [findById, hx, hfound, Option.bind_eq_bind, Option.bind_some]
    split <;> exact ⟨_, rfl⟩

theorem infoLines_isSome {s : Server} (info : Auction → Text) {l : List Nat}
    (hstored : ∀ k ∈ l, k < s.auctions.length) : ∃ lines, infoLines s info l = some lines := by
  induction l with
  | nil => exact ⟨[], rfl⟩
  | cons k rest ih =>
    obtain ⟨lines, hlines⟩ := ih fun m hm => hstored m (List.mem_cons_of_mem _ hm)
    have hx := List.getElem?_eq_getElem (hstored k List.mem_cons_self)
    simp only [infoLines, hx, hlines, Option.bind_eq_bind, Option.bind_some]
    exact ⟨_, rfl⟩

theorem watcherFds_isSome {s : Server} (named : ∀ u ∈ s.users, u.username ≠ none)
    (ws : List CharPtr) : ∃ fds, watcherFds s ws = some fds := by
  induction ws with
  | nil => exact ⟨[], rfl⟩
  | cons w ws ih =>
    obtain ⟨fds, hfds⟩ := ih
    obtain ⟨fd, hfd⟩ : ∃ fd, findClientFd s (some w) = some fd := by
      obtain ⟨found, hfound⟩ := scanByName_isSome w named
      cases found with
      | none => exact ⟨-1, by simp [findClientFd, hfound]⟩
      | some i =>
        obtain ⟨u, hu, -⟩ := scanByName_some hfound
        exact ⟨u.fd, by simp [findClientFd, hfound, hu]⟩
    exact ⟨fd :: fds, by simp [watcherFds, hfd, hfds]⟩

/-- The two searches of a watchers list see the same: whether the name is on it. -/
theorem userWatches_eq {x : Auction} {name : CharStar} (h : name ≠ none ∨ x.watchers.nodes = []) :
    (x.Watches name ∧ userWatches name x.watchers.nodes = some true) ∨
    (¬ x.Watches name ∧ userWatches name x.watchers.nodes = some false) := by
  have hall : ∀ ws : List CharPtr, name ≠ none ∨ ws = [] →
      ((∃ w ∈ ws, nameText name = some w.text) ∧ userWatches name ws = some true) ∨
      ((¬ ∃ w ∈ ws, nameText name = some w.text) ∧ userWatches name ws = some false) := by
    intro ws hws
    induction ws with
    | nil => exact Or.inr ⟨by simp, rfl⟩
    | cons w ws ih =>
      obtain ⟨n, rfl⟩ := Option.ne_none_iff_exists'.mp (hws.resolve_right (by simp))
      by_cases htext : w.text = n.text
      · exact Or.inl ⟨⟨w, List.mem_cons_self, by simp [nameText, htext]⟩,
          by simp [userWatches, strcmpEq, htext]⟩
      · rcases ih (Or.inl (by simp)) with ⟨⟨v, hv, hname⟩, hrest⟩ | ⟨hno, hrest⟩
        · exact Or.inl ⟨⟨v, List.mem_cons_of_mem _ hv, hname⟩,
            by simp [userWatches, strcmpEq, hrest]⟩
        · refine Or.inr ⟨?_, by simp [userWatches, strcmpEq, htext, hrest]⟩
          rintro ⟨v, hv, hname⟩
          rcases List.mem_cons.mp hv with rfl | hv
          · exact htext (by simpa [nameText, eq_comm] using hname)
          · exact hno ⟨v, hv, hname⟩
  exact hall x.watchers.nodes h

theorem userIndexLoop_of_mem {n : CharPtr} {ws : List CharPtr} (i : Int)
    (h : ∃ w ∈ ws, nameText (some n) = some w.text) :
    ∃ k < ws.length, userIndexLoop (some n) i ws = some (i + k) := by
  induction ws generalizing i with
  | nil =>
    obtain ⟨w, hw, -⟩ := h
    cases hw
  | cons w ws ih =>
    by_cases htext : n.text = w.text
    · exact ⟨0, by simp, by simp [userIndexLoop, strcmpEq, htext]⟩
    · have hrest : ∃ v ∈ ws, nameText (some n) = some v.text := by
        obtain ⟨v, hv, hname⟩ := h
        rcases List.mem_cons.mp hv with rfl | hv
        · exact absurd (by simpa [nameText] using hname) htext
        · exact ⟨v, hv, hname⟩
      obtain ⟨k, hk, hloop⟩ := ih (i + 1) hrest
      refine ⟨k + 1, by simpa using hk, ?_⟩
      simp only [userIndexLoop, strcmpEq, Option.bind_eq_bind, Option.bind_some, beq_iff_eq, htext,
        ↓reduceIte, hloop, Option.some.injEq]
      push_cast
      omega

theorem replies_of_mem (s : Server) {out : List Event} {m : Msg} (hm : .sent m ∈ out)
    (ht : m.msgType ≠ .ANUPDATE) : Replies (some (s, out)) m.fd :=
  ⟨s, out, m, rfl, hm, rfl, ht⟩

theorem replies_answer (s : Server) (fd : Int) {t : MsgType} (ht : t ≠ .ANUPDATE) :
    Replies (some (s, [answer fd t])) fd := replies_of_mem s (List.mem_singleton_self _) ht

theorem replies_message (s : Server) (fd : Int) {t : MsgType} (ht : t ≠ .ANUPDATE) (body : Text) :
    Replies (some (s, [message fd t body])) fd := replies_of_mem s (List.mem_singleton_self _) ht

theorem not_replies_none (fd : Int) : ¬ Replies none fd := by
  rintro ⟨s', out, m, h, -⟩
  cases h

/-- A reply of one message, whose text has to fit. -/
theorem replies_fits (s : Server) (fd : Int) {t : MsgType} (ht : t ≠ .ANUPDATE) (text : Text) :
    Replies ((fits text).bind fun body => some (s, [message fd t body])) fd ↔
      text.length < bufferSize := by
  by_cases hlt : text.length < bufferSize
  · simp only [fits, hlt, ↓reduceIte, Option.bind_some, iff_true]
    exact replies_message s fd ht text
  · simp only [fits, hlt, ↓reduceIte, Option.bind_none, iff_false]
    exact not_replies_none fd

theorem report_replies {s : Server} {fd : Int} {t : MsgType} {info : Auction → Text}
    {list : LinkedList Nat} {lines : Text} (ht : t ≠ .ANUPDATE)
    (hlines : infoLines s info list.nodes = some lines) :
    Replies (report s fd t info list) fd ↔ lines.length < bufferSize := by
  by_cases hempty : list.nodes = []
  · have hnil : lines = [] := by
      rw [hempty] at hlines
      exact (Option.some.inj hlines).symm
    simp only [report, hempty, ↓reduceIte, hnil, List.length_nil]
    exact iff_of_true (replies_answer s fd ht) (by decide)
  · simp only [report, hempty, ↓reduceIte, hlines, Option.bind_eq_bind, Option.bind_some]
    exact replies_fits s fd ht lines

theorem logout_replies {s : Server} {fd : Int} (h : Recorded s fd) :
    Replies (some (logout s fd)) fd := by
  obtain ⟨u, hu, hfd⟩ := h
  rcases logout_spec s fd with ⟨-, hno⟩ | ⟨i, v, -, -, hlogout⟩
  · exact absurd hfd (hno u hu)
  · rw [hlogout]
    exact replies_answer _ fd (by decide)

theorem userBalance_replies {s : Server} {fd : Int} {user : User}
    (huser : findUsername s fd = some user) : Replies (userBalance s fd) fd := by
  simp only [userBalance, huser, Option.bind_eq_bind, Option.bind_some]
  exact replies_message s fd (by decide) _

theorem listAuctions_replies {s : Server} (inv : ReachInv s) (fd : Int) :
    Replies (listAuctions s fd) fd ↔ s.width .listAuctions < bufferSize := by
  obtain ⟨lines, hlines⟩ := infoLines_isSome auctionInfo inv.store.stored
  rw [← build_length (s := s) (r := .listAuctions) hlines]
  exact report_replies (by decide) hlines

theorem usersWins_replies {s : Server} (inv : ReachInv s) {fd : Int} {user : User}
    (huser : findUsername s fd = some user) :
    Replies (usersWins s fd) fd ↔ s.width (.usersWins user) < bufferSize := by
  have holds := inv.holds user (findUsername_spec huser).1
  obtain ⟨lines, hlines⟩ := infoLines_isSome usersWinsInfo holds.wonStored
  rw [← build_length (s := s) (r := .usersWins user) hlines]
  simp only [usersWins, huser, Option.bind_eq_bind, Option.bind_some]
  exact report_replies (by decide) hlines

theorem usersSales_replies {s : Server} (inv : ReachInv s) {fd : Int} {user : User}
    (huser : findUsername s fd = some user) :
    Replies (usersSales s fd) fd ↔ s.width (.usersSales user) < bufferSize := by
  have holds := inv.holds user (findUsername_spec huser).1
  obtain ⟨lines, hlines⟩ := infoLines_isSome usersSalesInfo holds.ownedStored
  rw [← build_length (s := s) (r := .usersSales user) hlines]
  simp only [usersSales, huser, Option.bind_eq_bind, Option.bind_some]
  exact report_replies (by decide) hlines

theorem otherNames_isSome {fd : Int} {us : List User}
    (h : ∀ u ∈ us, u.fd ≠ fd → u.username ≠ none) : ∃ names, otherNames fd us = some names := by
  induction us with
  | nil => exact ⟨[], rfl⟩
  | cons u us ih =>
    obtain ⟨rest, hrest⟩ := ih fun v hv => h v (List.mem_cons_of_mem _ hv)
    simp only [otherNames, hrest, Option.bind_eq_bind, Option.bind_some]
    by_cases hfd : u.fd = fd
    · exact ⟨rest, by simp [hfd]⟩
    · obtain ⟨name, hname⟩ := Option.ne_none_iff_exists'.mp (h u List.mem_cons_self hfd)
      exact ⟨name.text ++ ['\n'] ++ rest, by simp [hfd, hname]⟩

/-- A user without a name has no company, so his list of names is empty. -/
theorem ReachInv.others_named {s : Server} (inv : ReachInv s) {u v : User} (hu : u ∈ s.users)
    (hv : v ∈ s.users) (hfd : v.fd ≠ u.fd) : v.username ≠ none := by
  intro hnone
  have hall := inv.alone (hnone ▸ List.mem_map_of_mem hv)
  have hu' : u.username ∈ s.users.map User.username := List.mem_map_of_mem hu
  rw [hall, List.mem_singleton] at hu'
  have hsame := inv.users.name_inj hv hu (by rw [hnone, hu'])
  exact hfd (congrArg User.fd hsame)

theorem printUsers_replies {s : Server} (inv : ReachInv s) (stack : Text) {fd : Int} {user : User}
    (huser : findUsername s fd = some user) :
    Replies (printUsers s stack fd) fd ↔ s.width (.printUsers stack fd) < bufferSize := by
  obtain ⟨hmem, hfd⟩ := findUsername_spec huser
  obtain ⟨names, hnames⟩ : ∃ names, otherNames fd s.users = some names :=
    otherNames_isSome fun v hv hne => inv.others_named hmem hv (hfd ▸ hne)
  have hbuild : s.build (.printUsers stack fd) = some (stack ++ names) := by
    simp [Server.build, hnames]
  rw [← build_length hbuild]
  simp only [printUsers, hnames, Option.bind_eq_bind, Option.bind_some]
  exact replies_fits s fd (by decide) _

theorem length_le_intMax {s : Server} (list : ListInv s) {l : List Nat} (hl : l.Nodup)
    (hstored : ∀ a ∈ l, a < s.auctions.length) : (l.length : Int) ≤ s.auctionID := by
  have hle := length_le_stored hl hstored
  rw [list.counter]
  omega

/-- The loop over all users has room for one more auction on each of their lists. -/
theorem ownerScan_isSome (fd : Int) (a : Nat) {us : List User}
    (hroom : ∀ u ∈ us, u.auctionsOwned.WF ∧ u.auctionsOwned.length < intMax) (creator : CharStar) :
    ∃ us' creator', ownerScan fd a us creator = some (us', creator') := by
  induction us generalizing creator with
  | nil => exact ⟨[], creator, rfl⟩
  | cons u us ih =>
    have hrest := fun c => ih (fun v hv => hroom v (List.mem_cons_of_mem _ hv)) c
    obtain ⟨hwf, hlt⟩ := hroom u List.mem_cons_self
    by_cases hfd : u.fd = fd
    · obtain ⟨owned, howned⟩ := insertAtTail_isSome a hwf hlt
      obtain ⟨us', creator', hscan⟩ := hrest u.username
      exact ⟨_, creator', by simp [ownerScan, hfd, howned, hscan]; rfl⟩
    · obtain ⟨us', creator', hscan⟩ := hrest creator
      exact ⟨_, creator', by simp [ownerScan, hfd, hscan]; rfl⟩

theorem createAuction_isSome {s : Server} (inv : ReachInv s) (malloc : Auction) (fd : Int)
    {name : Text} (hname : name ≠ []) (duration price : Int) :
    (createAuction s malloc fd name duration price).isSome ↔
      duration < 1 ∨ price < 0 ∨ s.auctionID < intMax := by
  have list := inv.store.toListInv
  simp only [createAuction, if_neg hname]
  by_cases hduration : duration < 1
  · simp [hduration]
  by_cases hprice : price < 0
  · simp [hduration, hprice]
  simp only [hduration, hprice, ↓reduceIte, false_or]
  by_cases hid : s.auctionID < intMax
  · simp only [hid, iff_true]
    have hroom : ∀ u ∈ s.users, u.auctionsOwned.WF ∧ u.auctionsOwned.length < intMax := by
      intro u hu
      have holds := inv.holds u hu
      have wf := (inv.lists u hu).1
      have hle := length_le_intMax list holds.owned holds.ownedStored
      exact ⟨wf, by rw [wf]; omega⟩
    obtain ⟨us, creator, hscan⟩ :=
      ownerScan_isSome fd s.auctions.length hroom malloc.creator
    have hopen : s.auctionsList.length < intMax := by
      have hle := length_le_intMax list list.nodup list.stored
      rw [list.wf]
      omega
    obtain ⟨auctions, hauctions⟩ := insertAtTail_isSome s.auctions.length list.wf hopen
    have hbody : decimalWidth (s.auctionID + 1) < bufferSize := by
      have hcounter := list.counter
      have hle := decimalWidth_le (n := s.auctionID + 1) ⟨by simp only [intMin]; omega, by omega⟩
      exact hle.trans_lt (by decide)
    simp [incr_of_lt hid, hscan, hauctions, fits, hbody]
  · simp [hid, incr]

/-- Whenever `createAuction` comes to its end it has answered. -/
theorem replies_createAuction {s : Server} {malloc : Auction} {fd : Int} {name : Text}
    {duration price : Int} :
    Replies (createAuction s malloc fd name duration price) fd ↔
      (createAuction s malloc fd name duration price).isSome := by
  constructor
  · rintro ⟨s', out, m, h, -⟩
    simp [h]
  intro h
  obtain ⟨⟨s', out⟩, h⟩ := Option.isSome_iff_exists.mp h
  rw [h]
  simp only [createAuction] at h
  split at h
  · obtain ⟨rfl, rfl⟩ := Prod.mk.inj (Option.some.inj h)
    exact replies_answer s fd (by decide)
  split at h
  · obtain ⟨rfl, rfl⟩ := Prod.mk.inj (Option.some.inj h)
    exact replies_answer s fd (by decide)
  split at h
  · obtain ⟨rfl, rfl⟩ := Prod.mk.inj (Option.some.inj h)
    exact replies_answer s fd (by decide)
  · simp only [Option.bind_eq_bind, Option.bind_eq_some_iff, Option.some.injEq,
      Prod.mk.injEq] at h
    obtain ⟨_, -, _, -, _, -, body, -, -, rfl⟩ := h
    exact replies_message s' fd (by decide) body

theorem createAuction_replies {s : Server} (inv : ReachInv s) (malloc : Auction) (fd : Int)
    {name : Text} (hname : name ≠ []) (duration price : Int) :
    Replies (createAuction s malloc fd name duration price) fd ↔
      duration < 1 ∨ price < 0 ∨ s.auctionID < intMax :=
  replies_createAuction.trans (createAuction_isSome inv malloc fd hname duration price)

/-- What holds of the auction found, said of every auction that the search may find. -/
theorem forall_found {s : Server} {id : Int} {nodes : List Nat} {a : Nat} {x : Auction}
    (hfound : findById s id nodes = some (some a)) (hx : s.auctions[a]? = some x)
    (P : Auction → Prop) :
    (∀ b y, findById s id nodes = some (some b) → s.auctions[b]? = some y → P y) ↔ P x := by
  refine ⟨fun h => h a x hfound hx, fun h b y hb hy => ?_⟩
  rw [hfound, Option.some.injEq, Option.some.injEq] at hb
  rw [← hb, hx, Option.some.injEq] at hy
  exact hy ▸ h

theorem watchAuction_replies {s : Server} (inv : ReachInv s) {fd : Int} {user : User}
    (huser : findUsername s fd = some user) (id : Int) :
    Replies (watchAuction s fd id) fd ↔
      ∀ a x, findById s id s.auctionsList.nodes = some (some a) → s.auctions[a]? = some x →
        (user.username = none ∨ x.watchers.length < intMax) ∧
          s.width (.watchAuction x) < bufferSize := by
  obtain ⟨found, hfound⟩ := findById_isSome id inv.store.stored
  cases found with
  | none =>
    simp only [watchAuction, hfound, Option.bind_eq_bind, Option.bind_some]
    exact iff_of_true (replies_answer s fd (by decide)) (by simp)
  | some a =>
    obtain ⟨-, x, hx, -⟩ := findById_some hfound
    have wf := (inv.store.records a x hx).watchers
    rw [forall_found hfound hx fun y => (user.username = none ∨ y.watchers.length < intMax) ∧
      s.width (.watchAuction y) < bufferSize, ← build_length (s := s) (r := .watchAuction x) rfl]
    simp only [watchAuction, hfound, hx, huser, Option.bind_eq_bind, Option.bind_some]
    have hreply : ∀ watchers, insertAtTail x.watchers user.username = some watchers →
        (Replies ((insertAtTail x.watchers user.username).bind fun watchers =>
          (fits (watchBody x)).bind fun body => some (s.setAuction a { x with
            numberOfWatchers := wrap32 (x.numberOfWatchers + 1), watchers },
            [message fd .ANWATCH body])) fd ↔ (watchBody x).length < bufferSize) := by
      intro watchers hins
      simp only [hins, Option.bind_some]
      exact replies_fits _ fd (by decide) _
    cases hname : user.username with
    | none =>
      rw [hname] at hreply
      simp only [true_or, true_and]
      exact hreply x.watchers rfl
    | some w =>
      rw [hname] at hreply
      by_cases hroom : x.watchers.length < intMax
      · obtain ⟨watchers, hins⟩ := insertAtTail_isSome w wf hroom
        simp only [hroom, or_true, true_and]
        exact hreply watchers hins
      · have hfull : insertAtTail x.watchers (some w) = none := by
          rw [Option.eq_none_iff_forall_ne_some]
          exact fun l h => hroom (length_lt_of_insertAtTail h)
        simp only [hfull, Option.bind_none, hroom, or_self, reduceCtorEq, false_and, iff_false]
        exact not_replies_none fd

/-- Nobody without a name finds a watcher to be compared with. -/
theorem ReachInv.named_or_unwatched {s : Server} (inv : ReachInv s) {user : User}
    (hu : user ∈ s.users) {a : Nat} {x : Auction} (hx : s.auctions[a]? = some x) :
    user.username ≠ none ∨ x.watchers.nodes = [] := by
  by_cases hname : user.username = none
  · refine Or.inr (List.eq_nil_iff_forall_not_mem.mpr fun w hw => ?_)
    obtain ⟨v, hv, hvw⟩ := (inv.guests a x hx).watchers w hw
    have hall := inv.alone (hname ▸ List.mem_map_of_mem hu)
    have hmem : v.username ∈ s.users.map User.username := List.mem_map_of_mem hv
    rw [hall, List.mem_singleton, hvw] at hmem
    cases hmem
  · exact Or.inl hname

theorem findUserIndex_of_watches {x : Auction} {n : CharPtr} (h : x.Watches (some n)) :
    ∃ k < x.watchers.nodes.length, findUserIndex x.watchers (some n) = some (k : Int) := by
  obtain ⟨k, hk, hloop⟩ := userIndexLoop_of_mem 0 h
  exact ⟨k, hk, by rw [findUserIndex, hloop, Int.zero_add]⟩

theorem leaveAuction_replies {s : Server} (inv : ReachInv s) {fd : Int} {user : User}
    (huser : findUsername s fd = some user) (id : Int) :
    Replies (leaveAuction s fd id) fd ↔
      ∀ a x, findById s id s.auctionsList.nodes = some (some a) → s.auctions[a]? = some x →
        x.Watches user.username := by
  obtain ⟨found, hfound⟩ := findById_isSome id inv.store.stored
  cases found with
  | none =>
    simp only [leaveAuction, huser, hfound, Option.bind_eq_bind, Option.bind_some]
    exact iff_of_true (replies_answer s fd (by decide)) (by simp)
  | some a =>
    obtain ⟨-, x, hx, -⟩ := findById_some hfound
    have wf := (inv.store.records a x hx).watchers
    rw [forall_found hfound hx fun y => y.Watches user.username]
    simp only [leaveAuction, huser, hfound, hx, Option.bind_eq_bind, Option.bind_some]
    constructor
    · rintro ⟨s', out, m, h, -⟩
      simp only [Option.bind_eq_some_iff] at h
      obtain ⟨index, hindex, ⟨removed, watchers⟩, hrem, -⟩ := h
      obtain ⟨k, w, hw, hcmp, -⟩ := leave_spec wf hindex hrem
      obtain ⟨p, q, hp, hq, htext⟩ := strcmpEq_true hcmp
      refine ⟨w, List.mem_of_getElem? hw, ?_⟩
      rw [Option.some.injEq] at hq
      rw [hp, nameText, Option.map_some, htext, hq]
    · intro hwatches
      obtain ⟨n, hn⟩ : ∃ n, user.username = some n := by
        obtain ⟨w, -, hname⟩ := hwatches
        cases hname' : user.username with
        | none => simp [hname', nameText] at hname
        | some n => exact ⟨n, rfl⟩
      rw [hn] at hwatches ⊢
      obtain ⟨k, hk, hindex⟩ := findUserIndex_of_watches hwatches
      simp only [hindex, removeByIndex_nat wf hk, Option.bind_some]
      exact replies_answer _ fd (by decide)

theorem knows_iff {s : Server} {name : CharStar} :
    s.Knows name ↔ ∃ n ∈ s.users.map User.username, strcmpEq name n = some true := by
  simp [Server.Knows]

theorem scanByName_of_knows {s : Server} {name : CharStar} (h : s.Knows name)
    (named : ∀ u ∈ s.users, u.username ≠ none) : ∃ i u, scanByName name s.users = some (some i) ∧
      s.users[i]? = some u := by
  obtain ⟨v, hv, hcmp⟩ := h
  obtain ⟨p, q, rfl, -, -⟩ := strcmpEq_true hcmp
  obtain ⟨found, hfound⟩ := scanByName_isSome p named
  cases found with
  | none =>
    rw [scanByName_none hfound v hv] at hcmp
    cases hcmp
  | some i =>
    obtain ⟨u, hu, -⟩ := scanByName_some hfound
    exact ⟨i, u, hfound, hu⟩

/-- The winner's side of a settlement comes to an end when he is recorded and his list of wins
has room. -/
theorem debitWinner_isSome {s : Server} (users : UserInv s) (lists : UserLists s)
    (named : ∀ u ∈ s.users, u.username ≠ none) (a : Nat) {x : Auction}
    (hwinner : x.currentWinner ≠ none → s.Names x.currentWinner)
    (hroom : ∀ u ∈ s.users, u.auctionsWon.length < intMax) :
    ∃ s' out, debitWinner s a x = some (s', out) := by
  cases hw : x.currentWinner with
  | none => exact ⟨s, [], by simp [debitWinner, hw]⟩
  | some w =>
    obtain ⟨u, hu, hname⟩ := hwinner (by simp [hw])
    obtain ⟨i, hi⟩ := List.getElem?_of_mem hu
    have hscan := scanByName_index named users.names hi
    rw [hname, hw] at hscan
    obtain ⟨won, hwon⟩ := insertAtTail_isSome a (lists u hu).2 (hroom u hu)
    simp only [debitWinner, hw, findUserStruct, hscan, hi, hwon, Option.bind_eq_bind,
      Option.bind_some]
    exact ⟨_, _, rfl⟩

theorem debitWinner_usernames {s s' : Server} {a : Nat} {x : Auction} {out : List Event}
    (h : debitWinner s a x = some (s', out)) :
    s'.users.map User.username = s.users.map User.username := by
  rcases debitWinner_spec h with ⟨-, rfl, -⟩ | ⟨w, i, u, won, -, hu, -, -, rfl, -⟩
  · rfl
  · exact map_set_of_eq User.username hu rfl

theorem closeAuction_isSome {s : Server} (users : UserInv s) (lists : UserLists s)
    (named : ∀ u ∈ s.users, u.username ≠ none) {a : Nat} {x : Auction}
    (hx : s.auctions[a]? = some x) (hwinner : x.currentWinner ≠ none → s.Names x.currentWinner)
    (hroom : ∀ u ∈ s.users, u.auctionsWon.length < intMax) (hknows : s.Knows x.creator)
    (hfits : (closedBody x).length < bufferSize) :
    ∃ s' out, closeAuction s a = some (s', out) := by
  obtain ⟨s₁, debit, hdebit⟩ := debitWinner_isSome users lists named a hwinner hroom
  have hnames := debitWinner_usernames hdebit
  have hnamed : ∀ t : Server, t.users.map User.username = s.users.map User.username →
      ∀ u ∈ t.users, u.username ≠ none := by
    intro t ht u hu hnone
    have hmem : none ∈ s.users.map User.username := by
      rw [← ht, ← hnone]
      exact List.mem_map_of_mem hu
    obtain ⟨v, hv, hvnone⟩ := List.mem_map.mp hmem
    exact named v hv hvnone
  have hknows₁ : s₁.Knows x.creator := by
    rw [knows_iff, hnames, ← knows_iff]
    exact hknows
  obtain ⟨i, u, hscan, hu⟩ := scanByName_of_knows hknows₁ (hnamed s₁ hnames)
  have hcredit : creditCreator s₁ a x = some
      (s₁.setUser i { u with balance := wrap32 (u.balance + x.bid) },
        [.credited a (u.balance + x.bid)]) := by
    simp [creditCreator, findUserStruct, hscan, hu]
  have hsame : { u with balance := wrap32 (u.balance + x.bid) }.username = u.username := rfl
  have hnames₂ : (s₁.setUser i { u with balance := wrap32 (u.balance + x.bid) }).users.map
      User.username = s.users.map User.username := by
    rw [users_setUser, map_set_of_eq User.username hu hsame, hnames]
  obtain ⟨fds, hfds⟩ := watcherFds_isSome (hnamed _ hnames₂) x.watchers.nodes
  simp only [closeAuction, hx, fits, hfits, ↓reduceIte, hdebit, hcredit, hfds,
    Option.bind_eq_bind, Option.bind_some]
  exact ⟨_, _, rfl⟩

/-- A close that comes to an end has found the creator. -/
theorem knows_of_close {s s' : Server} {a : Nat} {x : Auction} {out : List Event}
    (hx : s.auctions[a]? = some x) (h : closeAuction s a = some (s', out)) :
    s.Knows x.creator := by
  obtain ⟨y, mid, debit, credit, fds, hy, hdebit, hcredit, -, -⟩ := (closeAuction_spec h).some
  obtain rfl : x = y := Option.some.inj (hx.symm.trans hy)
  obtain ⟨i, u, hu, hcmp, -, -⟩ := creditCreator_spec hcredit
  rw [knows_iff, ← debitWinner_usernames hdebit, ← knows_iff]
  exact ⟨u, List.mem_of_getElem? hu, hcmp⟩

theorem Auction.Watches.named {x : Auction} {name : CharStar} (h : x.Watches name) :
    ∃ n, name = some n := by
  obtain ⟨w, -, hname⟩ := h
  cases name with
  | none => simp [nameText] at hname
  | some n => exact ⟨n, rfl⟩

/-- A buy-it-now bid that comes to its end has found the creator, and announced the close. -/
theorem buyAuction_fits {s s' : Server} {name : CharStar} {a : Nat} {x : Auction} {bid : Int}
    {out : List Event} (hx : s.auctions[a]? = some x)
    (h : buyAuction s name bid a = some (s', out)) :
    s.Knows x.creator ∧ s.width (.closeAuction (x.withBid name bid)) < bufferSize := by
  have hget := setAuction_get (x.withBid name bid) hx
  rw [← build_length (s := s) (r := .closeAuction (x.withBid name bid)) rfl]
  simp only [buyAuction, setBid_eq hx name bid, Option.bind_eq_bind, Option.bind_some,
    Option.bind_eq_some_iff] at h
  obtain ⟨⟨s₂, closed⟩, hclose, -⟩ := h
  have hknows := knows_of_close hget hclose
  exact ⟨hknows, closeAuction_fits hget hclose⟩

theorem buyAuction_replies {s : Server} (inv : ReachInv s) {fd : Int} {user : User}
    (huser : findUsername s fd = some user) {a : Nat} {x : Auction}
    (hmem : a ∈ s.auctionsList.nodes) (hx : s.auctions[a]? = some x)
    (hwatches : x.Watches user.username) (bid : Int) :
    Replies (buyAuction s user.username bid a) fd ↔
      s.Knows x.creator ∧ s.width (.closeAuction (x.withBid user.username bid)) < bufferSize := by
  obtain ⟨hu, rfl⟩ := findUsername_spec huser
  have list := inv.store.toListInv
  have hget := setAuction_get (x.withBid user.username bid) hx
  have hset := setBid_eq hx user.username bid
  constructor
  · rintro ⟨s', out, m, h, -⟩
    exact buyAuction_fits hx h
  · rintro ⟨hknows, hfits⟩
    rw [← build_length (s := s) (r := .closeAuction (x.withBid user.username bid)) rfl] at hfits
    simp only [buyAuction, hset, Option.bind_eq_bind, Option.bind_some]
    have users : UserInv (s.setAuction a (x.withBid user.username bid)) :=
      inv.users.of_users rfl rfl rfl
    have hnone : user.username ≠ none := by
      obtain ⟨n, hn⟩ := hwatches.named
      simp [hn]
    have hroom : ∀ u ∈ s.users, u.auctionsWon.length < intMax := by
      intro u hu
      have holds := inv.holds u hu
      -- The list of wins has room for `a`, which is open and so not on it yet.
      have hle := length_le_intMax list
        (nodup_concat holds.won fun h => holds.wonClosed a h hmem) (by
          intro b hb
          rcases List.mem_append.mp hb with hb | hb
          · exact holds.wonStored b hb
          · exact List.mem_singleton.mp hb ▸ list.stored a hmem)
      rw [(inv.lists u hu).2]
      have hmax := list.counterMax
      rw [List.length_append, List.length_singleton] at hle
      omega
    obtain ⟨s₂, closed, hclose⟩ := closeAuction_isSome users inv.lists (inv.named hu hnone) hget
      (fun _ => ⟨user, hu, rfl⟩) hroom hknows hfits
    obtain ⟨values, fds, hlog, -, hof⟩ := closeAuction_log (x := x.withBid user.username bid) users
      (inv.guests a x hx).watchers hget hclose
    -- The bidder is among the watchers, so his descriptor is among theirs.
    obtain ⟨w, hw, hname⟩ := hwatches
    obtain ⟨fd, hfd, v, hv, hvw, rfl⟩ := hof.mem_left hw
    obtain rfl : v = user := inv.users.name_inj hv hu (by rw [hvw, hname]; rfl)
    obtain ⟨us, rfl, -⟩ := closeAuction_frame hclose
    have hset' : ListInv (s.setAuction a (x.withBid v.username bid)) := list.setAuction hx rfl
    simp only [hclose, Option.bind_some, (hset'.withUsers us).unlink_eq hmem]
    have htold : message v.fd .ANCLOSED (closedBody (x.withBid v.username bid)) ∈ closed := by
      rw [hlog]
      exact List.mem_append_right _ (List.mem_map.mpr ⟨v.fd, hfd, rfl⟩)
    have htype : MsgType.ANCLOSED ≠ .ANUPDATE := by decide
    exact replies_of_mem _ (List.mem_cons_of_mem _ htold) htype

/-- A bid that is made the highest has been announced under the bidder's name. -/
theorem raiseAuction_fits {s s' : Server} {fd : Int} {name : CharStar} {a : Nat} {x : Auction}
    {bid : Int} {out : List Event} (hx : s.auctions[a]? = some x)
    (h : raiseAuction s fd name bid a = some (s', out)) :
    ∀ n ∈ name, s.width (.updateAuction (x.withBid name bid) n) < bufferSize := by
  rintro n rfl
  rw [← build_length (s := s) (r := .updateAuction (x.withBid (some n) bid) n) rfl]
  simp only [raiseAuction, setBid_eq hx _ bid, setAuction_get _ hx, updateAuction, fits,
    Option.bind_eq_bind, Option.bind_some, Option.bind_eq_some_iff] at h
  obtain ⟨_, ⟨body, hbody, -⟩, -⟩ := h
  split at hbody
  · assumption
  · cases hbody

theorem raiseAuction_replies {s : Server} (inv : ReachInv s) {fd : Int} {user : User}
    (huser : findUsername s fd = some user) {a : Nat} {x : Auction}
    (hx : s.auctions[a]? = some x) (hwatches : x.Watches user.username) (bid : Int) :
    Replies (raiseAuction s fd user.username bid a) fd ↔
      ∀ name ∈ user.username,
        s.width (.updateAuction (x.withBid user.username bid) name) < bufferSize := by
  obtain ⟨hu, -⟩ := findUsername_spec huser
  obtain ⟨n, hn⟩ := hwatches.named
  have hset := setBid_eq hx user.username bid
  have hcond : (∀ name ∈ user.username,
      s.width (.updateAuction (x.withBid user.username bid) name) < bufferSize) ↔
      (updateBody (x.withBid user.username bid) n).length < bufferSize := by
    rw [build_length (s := s) (r := .updateAuction (x.withBid user.username bid) n) rfl]
    simp [hn]
  rw [hcond]
  simp only [raiseAuction, hset, setAuction_get _ hx, Option.bind_eq_bind, Option.bind_some]
  have named : ∀ v ∈ (s.setAuction a (x.withBid user.username bid)).users, v.username ≠ none :=
    inv.named hu (by simp [hn])
  obtain ⟨fds, hfds⟩ := watcherFds_isSome named (x.withBid user.username bid).watchers.nodes
  by_cases hlt : (updateBody (x.withBid user.username bid) n).length < bufferSize
  · simp only [hlt, iff_true]
    have hupdate : updateAuction (s.setAuction a (x.withBid user.username bid))
        (x.withBid user.username bid) user.username = some ((fds.filter (· ≠ -1)).map fun fd =>
          message fd .ANUPDATE (updateBody (x.withBid user.username bid) n)) := by
      simp only [updateAuction, hfds, fits, Option.bind_eq_bind]
      simp [hn, hn ▸ hlt]
    rw [hupdate, Option.bind_some]
    have htype : MsgType.OK ≠ .ANUPDATE := by decide
    exact replies_of_mem _ (List.mem_append_right _ (List.mem_singleton_self _)) htype
  · simp only [hlt, iff_false]
    rintro ⟨s', out, m, h, -⟩
    have hraise : raiseAuction s fd user.username bid a = some (s', out) := by
      simp only [raiseAuction, hset, setAuction_get _ hx, Option.bind_eq_bind, Option.bind_some]
      exact h
    exact hlt (hcond.mp (raiseAuction_fits hx hraise))

/-- The exit that `bidAuction` takes when it has found the auction. -/
theorem bidExit_found {s : Server} {name : CharStar} {id : Int} {a : Nat} {x : Auction}
    (hfound : findById s id s.auctionsList.nodes = some (some a)) (hx : s.auctions[a]? = some x)
    (h : name ≠ none ∨ x.watchers.nodes = []) (bid : Int) :
    bidExit s name id bid = some (
      if samePtr x.creator name then .creator
      else if x.Watches name then
        if x.binFlag = 1 ∧ bid > x.binPrice then .buyNow a
        else if bid > x.bid then .highest a
        else .low
      else .notWatching) := by
  have hne : s.auctionsList.nodes ≠ [] := List.ne_nil_of_mem (findById_some hfound).1
  simp only [bidExit, if_neg hne, hfound, hx, Option.bind_eq_bind, Option.bind_some]
  rcases userWatches_eq h with ⟨hwatches, heq⟩ | ⟨hwatches, heq⟩
  · simp only [heq, hwatches, Option.bind_some, ↓reduceIte]
    split
    · rfl
    · split
      · rfl
      · split <;> rfl
  · simp only [heq, hwatches, Option.bind_some, Bool.false_eq_true, ↓reduceIte]
    split <;> rfl

theorem bidAuction_replies {s : Server} (inv : ReachInv s) {fd : Int} {user : User}
    (huser : findUsername s fd = some user) (id bid : Int) :
    Replies (bidAuction s fd id bid) fd ↔ s.AnswersBid user id bid := by
  by_cases hempty : s.auctionsList.nodes = []
  · have hexit : bidExit s user.username id bid = some .emptyList := by simp [bidExit, hempty]
    simp only [bidAuction, huser, hexit, Option.bind_eq_bind, Option.bind_some]
    exact iff_of_true (replies_answer s fd (by decide)) (Or.inl hempty)
  obtain ⟨found, hfound⟩ := findById_isSome id inv.store.stored
  cases found with
  | none =>
    have hexit : bidExit s user.username id bid = some .noMatch := by
      simp [bidExit, hempty, hfound]
    simp only [bidAuction, huser, hexit, Option.bind_eq_bind, Option.bind_some]
    refine iff_of_false ?_ (by simp [Server.AnswersBid, hempty, hfound])
    rintro ⟨s', out, m, h, hm, -⟩
    obtain ⟨-, rfl⟩ := by simpa using h
    cases hm
  | some a =>
    obtain ⟨hmem, x, hx, -⟩ := findById_some hfound
    have hexit := bidExit_found hfound hx
      (inv.named_or_unwatched (findUsername_spec huser).1 hx) bid
    simp only [Server.AnswersBid, hempty, false_or, hfound, Option.some.injEq, bidAuction, huser,
      hexit, Option.bind_eq_bind, Option.bind_some]
    have hone : ∀ P : Nat → Auction → Prop,
        (∃ b y, a = b ∧ s.auctions[b]? = some y ∧ P b y) ↔ P a x := by
      intro P
      constructor
      · rintro ⟨b, y, rfl, hy, h⟩
        exact Option.some.inj (hx.symm.trans hy) ▸ h
      · exact fun h => ⟨a, x, rfl, hx, h⟩
    rw [hone]
    by_cases hcreator : samePtr x.creator user.username = true
    · simp only [hcreator, ↓reduceIte, true_or, iff_true]
      exact replies_answer s fd (by decide)
    by_cases hwatches : x.Watches user.username
    · by_cases hbuy : x.binFlag = 1 ∧ bid > x.binPrice
      · simp only [hcreator, hwatches, hbuy, Bool.false_eq_true, ↓reduceIte, not_true_eq_false,
          false_or, and_self]
        exact buyAuction_replies inv huser hmem hx hwatches bid
      · by_cases hhigh : bid > x.bid
        · simp only [hcreator, hwatches, hbuy, hhigh, Bool.false_eq_true, ↓reduceIte,
            not_true_eq_false, false_or, not_le.mpr hhigh]
          exact raiseAuction_replies inv huser hx hwatches bid
        · simp only [hcreator, hwatches, hbuy, hhigh, Bool.false_eq_true, ↓reduceIte,
            not_true_eq_false, false_or, not_lt.mp hhigh, true_or, iff_true]
          exact replies_answer s fd (by decide)
    · simp only [hcreator, hwatches, Bool.false_eq_true, ↓reduceIte, not_false_eq_true, true_or,
        or_true, iff_true]
      exact replies_answer s fd (by decide)

/-- Which requests of recorded users are answered, in every reachable state. -/
theorem answered_run {as : List Action} {tr : List Event} {s : Server}
    (run : Run Server.step (Server.Admits Anyone) Server.start as tr s) (env : JobEnv) {job : Job}
    {user : User} (huser : findUsername s job.clientfd = some user) (hasks : Asks job) :
    Answered s env job ↔ s.CanAnswer env job user := by
  have inv := reachInv_run run
  simp only [Asks, Answered, Server.CanAnswer, processJob] at hasks ⊢
  cases htype : MsgType.ofCode job.jobMsgType with
  | none => simp [htype] at hasks
  | some t =>
    simp only [htype] at hasks
    cases t with
    | LOGOUT =>
      have hrecorded : Recorded s job.clientfd := ⟨user, findUsername_spec huser⟩
      exact iff_of_true (logout_replies hrecorded) trivial
    | ANCREATE =>
      obtain ⟨⟨name, duration, price⟩, hargs⟩ := Option.isSome_iff_exists.mp hasks
      obtain ⟨d, p, rest, htokens, -⟩ := ancreateArgs_eq_some.mp hargs
      have hmem : name ∈ CString.tokens crOrLf (cstr job.jobBuffer) := by simp [htokens]
      simp only [hargs, Option.bind_eq_bind, Option.bind_some, Option.mem_def,
        Option.some.injEq, forall_eq']
      exact createAuction_replies inv env.malloc _ (mem_tokens hmem).1 duration price
    | ANLIST => exact listAuctions_replies inv job.clientfd
    | ANWATCH => exact watchAuction_replies inv huser _
    | ANLEAVE => exact leaveAuction_replies inv huser _
    | ANBID =>
      obtain ⟨⟨auctionId, bid⟩, hargs⟩ := Option.isSome_iff_exists.mp hasks
      simp only [hargs, Option.bind_eq_bind, Option.bind_some, Option.mem_def,
        Option.some.injEq, forall_eq']
      exact bidAuction_replies inv huser auctionId bid
    | USRLIST => exact printUsers_replies inv env.stack huser
    | USRWINS => exact usersWins_replies inv huser
    | USRSALES => exact usersSales_replies inv huser
    | USRBLNC => exact iff_of_true (userBalance_replies huser) trivial
    | _ => cases hasks

def sampleRaise : Job := ⟨['1', '\r', '\n', '9'], MsgType.ANBID.code, 5⟩

/-- B bids 9 after his 7, and is told OK. -/
theorem answered_run_sample : Answered sampleBidder ⟨sampleMalloc, []⟩ sampleRaise := by
  have run : Run Server.step (Server.Admits Anyone) Server.start sampleBid _ sampleBidder :=
    run_of_isSome (by decide)
  let x : Auction := ⟨1, ['V'], 2, 50, 1, 7, some ⟨1, ['B']⟩, some ⟨0, ['A']⟩,
    ⟨[⟨1, ['B']⟩], 1⟩, 1⟩
  let user : User := ⟨some ⟨1, ['B']⟩, some ⟨1, ['y']⟩, true, 0, 5, ⟨[], 0⟩, ⟨[], 0⟩⟩
  have huser : findUsername sampleBidder sampleRaise.clientfd = some user := by decide
  have hbid : sampleBidder.AnswersBid user 1 9 :=
    Or.inr ⟨0, x, by decide, by decide, Or.inr (Or.inr (Or.inr (by decide)))⟩
  have hargs : anbidArgs (cstr sampleRaise.jobBuffer) = some (1, 9) := by decide
  have hasks : Asks sampleRaise := Option.isSome_of_eq_some hargs
  refine (answered_run run ⟨sampleMalloc, []⟩ huser hasks).mpr fun args h => ?_
  obtain rfl : (1, 9) = args := Option.some.inj (hargs.symm.trans h)
  exact hbid

/-- A bid on an auction that is not there, while another one is. -/
theorem answered_fails : ¬ ∀ as tr s env job,
    Run Server.step (Server.Admits LoggedIn) Server.start as tr s → LoggedIn s job.clientfd →
    Asks job → Answered s env job := by
  intro claim
  have run : Run Server.step (Server.Admits LoggedIn) Server.start sampleBid _ sampleBidder :=
    run_of_isSome (by decide)
  let job : Job := ⟨['7', '\r', '\n', '6', '0'], MsgType.ANBID.code, 5⟩
  have hargs : (anbidArgs (cstr job.jobBuffer)).isSome := by decide
  obtain ⟨s', out, m, h, hm, -⟩ := claim _ _ _ ⟨sampleMalloc, []⟩ job run (by decide) hargs
  have hsilent : processJob sampleBidder ⟨sampleMalloc, []⟩ job = some (sampleBidder, []) := by
    decide
  rw [hsilent, Option.some.injEq, Prod.mk.injEq] at h
  rw [← h.2] at hm
  cases hm

end ZBid
