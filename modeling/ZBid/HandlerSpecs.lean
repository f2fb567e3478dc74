import ZBid.Server

/-!
# What each handler can do

One inversion lemma for each function that changes the globals, and for the searches what a
result says. Later proofs use these and never unfold a handler again.
-/
namespace ZBid

open CInt CString

theorem scanByName_some {name : CharStar} {us : List User} {i : Nat}
    (h : scanByName name us = some (some i)) :
    ∃ u, us[i]? = some u ∧ strcmpEq name u.username = some true := by
  induction us generalizing i with
  | nil => simp [scanByName] at h
  | cons u us ih =>
    simp only [scanByName] at h
    obtain ⟨b, hb, h⟩ := Option.bind_eq_some_iff.mp h
    cases b with
    | true =>
      simp only [↓reduceIte, Option.some.injEq] at h
      subst h
      exact ⟨u, rfl, hb⟩
    | false =>
      simp only [Bool.false_eq_true, ↓reduceIte, Option.map_eq_some_iff] at h
      obtain ⟨j, hj, k, rfl, rfl⟩ := h
      simpa using ih hj

/-- A scan that reaches the end compared the name with every username. -/
theorem scanByName_none {name : CharStar} {us : List User} (h : scanByName name us = some none) :
    ∀ u ∈ us, strcmpEq name u.username = some false := by
  induction us with
  | nil => simp
  | cons u us ih =>
    simp only [scanByName] at h
    obtain ⟨b, hb, h⟩ := Option.bind_eq_some_iff.mp h
    cases b with
    | true => simp at h
    | false =>
      simp only [Bool.false_eq_true, ↓reduceIte, Option.map_eq_some_iff] at h
      obtain ⟨j, hj, h⟩ := h
      rw [Option.map_eq_none_iff] at h
      subst h
      simpa [hb] using ih hj

theorem findUsername_spec {s : Server} {fd : Int} {u : User} (h : findUsername s fd = some u) :
    u ∈ s.users ∧ u.fd = fd :=
  ⟨List.mem_of_find?_eq_some h, by simpa using List.find?_some h⟩

theorem findById_some {s : Server} {id : Int} {nodes : List Nat} {a : Nat}
    (h : findById s id nodes = some (some a)) :
    a ∈ nodes ∧ ∃ auction, s.auctions[a]? = some auction ∧ auction.id = id := by
  induction nodes with
  | nil => simp [findById] at h
  | cons x xs ih =>
    simp only [findById] at h
    obtain ⟨auction, hx, h⟩ := Option.bind_eq_some_iff.mp h
    split at h
    · simp only [Option.some.injEq] at h
      subst h
      exact ⟨by simp, auction, hx, by assumption⟩
    · obtain ⟨hmem, h⟩ := ih h
      exact ⟨List.mem_cons_of_mem _ hmem, h⟩

theorem findById_none {s : Server} {id : Int} {nodes : List Nat}
    (h : findById s id nodes = some none) :
    ∀ a ∈ nodes, ∀ x, s.auctions[a]? = some x → x.id ≠ id := by
  induction nodes with
  | nil => simp
  | cons b rest ih =>
    simp only [findById] at h
    obtain ⟨auction, hb, h⟩ := Option.bind_eq_some_iff.mp h
    split at h
    · cases h
    · rename_i hne
      intro a ha x hx
      rcases List.mem_cons.mp ha with rfl | ha
      · rw [Option.some.inj (hx.symm.trans hb)]
        exact hne
      · exact ih h a ha x hx

theorem userWatches_true {name : CharStar} {ws : List CharPtr}
    (h : userWatches name ws = some true) :
    ∃ w ∈ ws, strcmpEq (some w) name = some true := by
  induction ws with
  | nil => simp [userWatches] at h
  | cons w ws ih =>
    simp only [userWatches] at h
    obtain ⟨b, hb, h⟩ := Option.bind_eq_some_iff.mp h
    cases b with
    | true => exact ⟨w, by simp, hb⟩
    | false =>
      obtain ⟨v, hv, he⟩ := ih (by simpa using h)
      exact ⟨v, List.mem_cons_of_mem _ hv, he⟩

/-- The lines of a report, one for each auction. -/
theorem infoLines_eq {s : Server} {info : Auction → Text} {nodes : List Nat} {lines : Text}
    (h : infoLines s info nodes = some lines) :
    lines = (nodes.filterMap fun k => s.auctions[k]?).flatMap info := by
  induction nodes generalizing lines with
  | nil =>
    simp only [infoLines, Option.some.injEq] at h
    simp [← h]
  | cons k rest ih =>
    simp only [infoLines, Option.bind_eq_bind, Option.bind_eq_some_iff, Option.some.injEq] at h
    obtain ⟨x, hx, more, hmore, rfl⟩ := h
    rw [List.filterMap_cons_some hx, List.flatMap_cons, ← ih hmore]

@[simp] theorem users_setUser (s : Server) (i : Nat) (u : User) :
    (s.setUser i u).users = s.users.set i u := rfl

/-- The same globals with other user records in the nodes of `usersList`. -/
def Server.withUsers (s : Server) (us : List User) : Server :=
  { s with usersList := { s.usersList with nodes := us } }

@[simp] theorem users_withUsers (s : Server) (us : List User) : (s.withUsers us).users = us := rfl

theorem setUser_eq (s : Server) (i : Nat) (u : User) :
    s.setUser i u = s.withUsers (s.users.set i u) := rfl

/-- What a settlement leaves alone in a user record. -/
structure Identity where
  username : CharStar
  password : CharStar
  loginFlag : Bool
  fd : Int
  auctionsOwned : LinkedList Nat

def User.identity (u : User) : Identity :=
  ⟨u.username, u.password, u.loginFlag, u.fd, u.auctionsOwned⟩

/-- Replacing a record by one that agrees with it under a projection. -/
theorem map_set_of_eq {α β : Type} {us : List α} {i : Nat} {u v : α} (f : α → β)
    (hi : us[i]? = some u) (hf : f v = f u) : (us.set i v).map f = us.map f := by
  rw [List.map_set, hf]
  apply List.ext_getElem?
  intro k
  rw [List.getElem?_set]
  split
  · subst k
    rw [List.getElem?_map, hi]
    simp [List.getElem?_eq_some_iff.mp hi |>.1]
  · rfl

theorem debitWinner_spec {s s' : Server} {a : Nat} {auction : Auction} {out : List Event}
    (h : debitWinner s a auction = some (s', out)) :
    (auction.currentWinner = none ∧ s' = s ∧ out = []) ∨
    ∃ w i u won, auction.currentWinner = some w ∧ s.users[i]? = some u ∧
      strcmpEq (some w) u.username = some true ∧ insertAtTail u.auctionsWon (some a) = some won ∧
      s' = s.setUser i { u with
        balance := wrap32 (u.balance - auction.bid), auctionsWon := won } ∧
      out = [.debited a (u.balance - auction.bid)] := by
  simp only [debitWinner] at h
  cases hw : auction.currentWinner with
  | none =>
    simp only [hw, Option.some.injEq, Prod.mk.injEq] at h
    exact Or.inl ⟨rfl, h.1.symm, h.2.symm⟩
  | some w =>
    simp only [hw, Option.bind_eq_bind, Option.bind_eq_some_iff] at h
    obtain ⟨r, hr, i, rfl, u, hu, won, hwon, h⟩ := h
    simp only [Option.some.injEq, Prod.mk.injEq] at h
    obtain ⟨v, hv, hcmp⟩ := scanByName_some hr
    obtain rfl : v = u := by simpa [hv] using hu
    exact Or.inr ⟨w, i, v, won, rfl, hv, hcmp, hwon, h.1.symm, h.2.symm⟩

theorem creditCreator_spec {s s' : Server} {a : Nat} {auction : Auction} {out : List Event}
    (h : creditCreator s a auction = some (s', out)) :
    ∃ i u, s.users[i]? = some u ∧ strcmpEq auction.creator u.username = some true ∧
      s' = s.setUser i { u with balance := wrap32 (u.balance + auction.bid) } ∧
      out = [.credited a (u.balance + auction.bid)] := by
  simp only [creditCreator, Option.bind_eq_bind, Option.bind_eq_some_iff] at h
  obtain ⟨r, hr, i, rfl, u, hu, h⟩ := h
  simp only [Option.some.injEq, Prod.mk.injEq] at h
  obtain ⟨v, hv, hcmp⟩ := scanByName_some hr
  obtain rfl : v = u := by simpa [hv] using hu
  exact ⟨i, v, hv, hcmp, h.1.symm, h.2.symm⟩

/-- A close settles the winner and then the creator, and sends one ANCLOSED to each watcher. -/
structure Closes (s : Server) (a : Nat) (s' : Server) (out : List Event) where
  auction : Auction
  middle : Server
  debit : List Event
  credit : List Event
  fds : List Int
  found : s.auctions[a]? = some auction
  debits : debitWinner s a auction = some (middle, debit)
  credits : creditCreator middle a auction = some (s', credit)
  watchers : watcherFds s' auction.watchers.nodes = some fds
  log : out = .closed a :: debit ++ credit ++
    fds.map (fun fd => message fd .ANCLOSED (closedBody auction))

theorem closeAuction_spec {s s' : Server} {a : Nat} {out : List Event}
    (h : closeAuction s a = some (s', out)) : Nonempty (Closes s a s' out) := by
  simp only [closeAuction, Option.bind_eq_bind, Option.bind_eq_some_iff] at h
  obtain ⟨auction, ha, body, hbody, ⟨s₁, debit⟩, hd, ⟨s₂, credit⟩, hc, fds, hf, h⟩ := h
  simp only [Option.some.injEq, Prod.mk.injEq] at h
  obtain ⟨rfl, rfl⟩ := h
  rw [fits_eq_some hbody]
  exact ⟨⟨auction, s₁, debit, credit, fds, ha, hd, hc, hf, rfl⟩⟩

/-- A close rewrites user records and nothing else, and keeps their identities. -/
theorem closeAuction_frame {s s' : Server} {a : Nat} {out : List Event}
    (h : closeAuction s a = some (s', out)) :
    ∃ us, s' = s.withUsers us ∧ us.map User.identity = s.users.map User.identity := by
  obtain ⟨c⟩ := closeAuction_spec h
  have hmid : ∃ us, c.middle = s.withUsers us ∧
      us.map User.identity = s.users.map User.identity := by
    rcases debitWinner_spec c.debits with ⟨-, hm, -⟩ | ⟨w, i, u, won, -, hu, -, -, hm, -⟩
    · exact ⟨s.users, hm, rfl⟩
    · exact ⟨_, hm.trans (setUser_eq ..), map_set_of_eq User.identity hu rfl⟩
  obtain ⟨us, hm, hus⟩ := hmid
  obtain ⟨i, u, hu, -, hs', -⟩ := creditCreator_spec c.credits
  refine ⟨us.set i { u with balance := wrap32 (u.balance + c.auction.bid) }, hs'.trans ?_, ?_⟩
  · rw [hm]
    rfl
  · have hu' : us[i]? = some u := by simpa [hm] using hu
    exact Eq.trans (map_set_of_eq User.identity hu' rfl) hus

/-- The record a login creates. -/
def newUser (clientFd : Int) (username password : CharStar) : User where
  username := username
  password := password
  loginFlag := true
  balance := 0
  fd := clientFd
  auctionsOwned := createList
  auctionsWon := createList

/-- The four outcomes of `login`. -/
inductive LoginOutcome (s : Server) (fd : Int) (username password : CharStar) :
    Server → List Event → Int → Prop where
  | already (i : Nat) (u : User) : s.users[i]? = some u →
      strcmpEq username u.username = some true → u.loginFlag = true →
      LoginOutcome s fd username password s [answer fd .EUSRLGDIN] 0
  | again (i : Nat) (u : User) : s.users[i]? = some u →
      strcmpEq username u.username = some true → u.loginFlag = false →
      strcmpEq password u.password = some true →
      LoginOutcome s fd username password
        (s.setUser i { u with loginFlag := true, fd := fd }) [answer fd .OK] 0
  | wrong (i : Nat) (u : User) : s.users[i]? = some u →
      strcmpEq username u.username = some true → u.loginFlag = false →
      strcmpEq password u.password = some false →
      LoginOutcome s fd username password s [answer fd .EWRNGPWD] (-1)
  | created (users : LinkedList User) : scanByName username s.users = some none →
      insertAtTail s.usersList (some (newUser fd username password)) = some users →
      LoginOutcome s fd username password { s with usersList := users } [answer fd .OK] 0

theorem login_spec {s s' : Server} {fd : Int} {username password : CharStar} {out : List Event}
    {r : Int} (h : login s fd username password = some (s', out, r)) :
    LoginOutcome s fd username password s' out r := by
  simp only [login, Option.bind_eq_bind, Option.bind_eq_some_iff] at h
  obtain ⟨found, hscan, h⟩ := h
  cases found with
  | none =>
    simp only [Option.bind_eq_some_iff, Option.some.injEq, Prod.mk.injEq] at h
    obtain ⟨users, husers, rfl, rfl, rfl⟩ := h
    exact .created users hscan husers
  | some i =>
    obtain ⟨u, hu, hcmp⟩ := scanByName_some hscan
    simp only [Option.bind_eq_some_iff] at h
    obtain ⟨v, hv, h⟩ := h
    obtain rfl : u = v := by simpa [hu] using hv
    cases hflag : u.loginFlag with
    | true =>
      simp only [hflag, ↓reduceIte, Option.some.injEq, Prod.mk.injEq] at h
      obtain ⟨rfl, rfl, rfl⟩ := h
      exact .already i u hu hcmp hflag
    | false =>
      simp only [hflag, Bool.false_eq_true, ↓reduceIte, Option.bind_eq_some_iff] at h
      obtain ⟨b, hb, h⟩ := h
      cases b with
      | true =>
        simp only [↓reduceIte, Option.some.injEq, Prod.mk.injEq] at h
        obtain ⟨rfl, rfl, rfl⟩ := h
        exact .again i u hu hcmp hflag hb
      | false =>
        simp only [Bool.false_eq_true, ↓reduceIte, Option.some.injEq, Prod.mk.injEq] at h
        obtain ⟨rfl, rfl, rfl⟩ := h
        exact .wrong i u hu hcmp hflag hb

theorem logout_spec (s : Server) (fd : Int) :
    (logout s fd = (s, []) ∧ ∀ u ∈ s.users, u.fd ≠ fd) ∨
    ∃ i u, s.users[i]? = some u ∧ u.fd = fd ∧
      logout s fd = (s.setUser i { u with loginFlag := false }, [answer fd .OK]) := by
  cases hi : s.users.findIdx? (fun u => u.fd == fd) with
  | none =>
    refine Or.inl ⟨by simp [logout, hi], ?_⟩
    simpa [List.findIdx?_eq_none_iff] using hi
  | some i =>
    obtain ⟨hlt, hfd, -⟩ := List.findIdx?_eq_some_iff_getElem.mp hi
    have hu : s.users[i]? = some s.users[i] := List.getElem?_eq_getElem hlt
    exact Or.inr ⟨i, s.users[i], hu, by simpa using hfd, by simp [logout, hi, hu]⟩

end ZBid
