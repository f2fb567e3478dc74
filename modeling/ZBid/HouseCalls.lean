import ZBid.HouseView
import ZBid.Funds
import ZBid.Requests
import ZBid.Watchers

/-!
# The requests as calls of the house

For each handler there is one lemma that turns a call that completes into the house's answer: the
house ends up as the server does, and says what the server sends.
-/
namespace ZBid

open CInt CString Runs Bookkeeping AuctionHouse

/-- Auctions come from recorded users, and a LOGIN brings a name and a password. -/
def Attributed (s : Server) (action : Action) : Prop := Sponsored s action ∧ Credentialed s action

instance Server.decidableAttributed (s : Server) (action : Action) :
    Decidable (Attributed s action) := inferInstanceAs (Decidable (_ ∧ _))

/-- What the calls rest on. None of it depends on a duration. -/
structure CallInv (tr : List Event) (s : Server) : Prop where
  users : UserInv s
  list : ListInv s
  records : ∀ (k : Nat) (x : Auction), s.auctions[k]? = some x → RecordInv x
  parties : ∀ (k : Nat) (x : Auction), s.auctions[k]? = some x → PartyInv s x
  deals : ∀ d ∈ s.deals tr, d.Among (s.users.map User.username)
  closed : ClosedInv tr s
  funds : ∀ u ∈ s.users, WrappedInv tr s u.account
  names : NamedInv s

/-- What the view of a state as a house rests on. -/
structure HouseInv (tr : List Event) (s : Server) : Prop where
  server : ServerInv s
  closed : ClosedInv tr s
  funds : ∀ u ∈ s.users, WrappedInv tr s u.account
  names : NamedInv s
  secrets : ∀ u ∈ s.users, u.password ≠ none

theorem HouseInv.calls {tr : List Event} {s : Server} (inv : HouseInv tr s) : CallInv tr s where
  users := inv.server.users
  list := inv.server.store.toListInv
  records := inv.server.store.records
  parties := inv.server.parties
  deals := deals_among inv.server
  closed := inv.closed
  funds := inv.funds
  names := inv.names

theorem houseInv_start : HouseInv [] Server.start where
  server := serverInv_start
  closed := closedInv_start
  funds := by simp [Server.start, Server.users, createList]
  names := namedInv_start
  secrets := by simp [Server.start, Server.users, createList]

theorem houseInv_step {tr out : List Event} {s s' : Server} {action : Action}
    (inv : HouseInv tr s) (hok : Attributed s action) (h : Effect s action s' out) :
    HouseInv (tr ++ out) s' where
  server := serverInv_step inv.server hok.1 h
  closed :=
    closedInv_step inv.server.store.toListInv inv.closed (effect_list inv.server.store.toListInv h)
  funds := wrapped_step inv.server inv.closed inv.funds hok.1 h
  names := namedInv_step inv.names hok.2 h
  secrets := by
    have hold : ∀ password ∈ s.users.map User.password, password ≠ none := by
      intro password hmem
      obtain ⟨u, hu, rfl⟩ := List.mem_map.mp hmem
      exact inv.secrets u hu
    intro u hu
    have hmem : u.password ∈ s'.users.map User.password := List.mem_map_of_mem hu
    rcases effect_credentials inv.server.users h with hsame | ⟨fd, body, rfl, -, hnew⟩
    · rw [show s'.users.map User.password = s.users.map User.password from
        map_congr_of_map Prod.snd hsame] at hmem
      exact hold _ hmem
    · have hpasswords := congrArg (List.map Prod.snd) hnew
      rw [List.map_map, List.map_append, List.map_map] at hpasswords
      rw [show s'.users.map User.password =
        s.users.map User.password ++ [loginPassword s body] from hpasswords, List.mem_append,
        List.mem_singleton] at hmem
      rcases hmem with hmem | hpassword
      · exact hold _ hmem
      · rw [hpassword, loginPassword, ne_eq, Option.map_eq_none_iff]
        exact (hok.2.2 rfl).2

theorem nameOf_some (w : CharPtr) : nameOf (some w) = w.text := rfl

theorem NamedInv.name_inj {s : Server} (inv : NamedInv s) {u v : User}
    (hu : u ∈ s.users) (hv : v ∈ s.users) (h : nameOf u.username = nameOf v.username) : u = v := by
  obtain ⟨p, hp⟩ := Option.ne_none_iff_exists'.mp (inv.named u hu)
  obtain ⟨q, hq⟩ := Option.ne_none_iff_exists'.mp (inv.named v hv)
  rw [hp, hq, nameOf_some, nameOf_some] at h
  exact inv.users.name_inj hu hv (by simp [nameText, hp, hq, h])

/-- The pointers that the store keeps to usernames are told apart by their texts. -/
theorem NamedInv.nameOf_inj {s : Server} (inv : NamedInv s) {a b : CharStar} (ha : s.Names a)
    (hb : s.Names b) (h : nameOf a = nameOf b) : a = b := by
  obtain ⟨u, hu, rfl⟩ := ha
  obtain ⟨v, hv, rfl⟩ := hb
  rw [inv.name_inj hu hv h]

/-- A search that stops at the one element it can stop at. -/
theorem find?_unique {α : Type} {us : List α} {p : α → Bool} {u : α} (hu : u ∈ us)
    (hp : ∀ v ∈ us, p v = true ↔ v = u) : us.find? p = some u := by
  cases h : us.find? p with
  | none => exact absurd ((hp u hu).mpr rfl) (List.find?_eq_none.mp h u hu)
  | some v =>
    have hv := List.mem_of_find?_eq_some h
    rw [(hp v hv).mp (List.find?_some h)]

theorem NamedInv.memberNamed_eq {s : Server} (inv : NamedInv s) (sold : List Nat) {u : User}
    (hu : u ∈ s.users) : (s.house sold).memberNamed (nameOf u.username) = some u.member := by
  have hfind : s.users.find? ((fun m : Member Text Text Int =>
      decide (m.name = nameOf u.username)) ∘ User.member) = some u := by
    refine find?_unique hu fun v hv => ?_
    simp only [Function.comp_apply, decide_eq_true_eq]
    exact ⟨inv.name_inj hv hu, fun h => h ▸ rfl⟩
  simp only [House.memberNamed, Server.house, List.find?_map, hfind, Option.map_some]

/-- A name that the scan does not find is no member's. -/
theorem memberNamed_none {s : Server} (sold : List Nat) {name : CharPtr}
    (h : scanByName (some name) s.users = some none) :
    (s.house sold).memberNamed name.text = none := by
  simp only [House.memberNamed, Server.house, List.find?_map, Option.map_eq_none_iff,
    List.find?_eq_none, Function.comp_apply, decide_eq_true_eq]
  intro u hu
  obtain ⟨p, q, hp, hq, hne⟩ := strcmpEq_false (scanByName_none h u hu)
  obtain rfl := Option.some.inj hp
  simpa [User.member, hq, nameOf_some] using Ne.symm hne

/-- Changing the record of one user is changing one member. -/
theorem house_setUser {s : Server} (sold : List Nat) {i : Nat} {u v : User}
    {p : Member Text Text Int → Bool} {f : Member Text Text Int → Member Text Text Int}
    (hn : s.users.Nodup) (hu : s.users[i]? = some u)
    (hp : ∀ w ∈ s.users, p w.member = true ↔ w = u) (hf : v.member = f u.member) :
    (s.setUser i v).house sold = (s.house sold).update p f := by
  have hmembers : (s.users.set i v).map User.member =
      (s.users.map User.member).map fun m => if p m then f m else m := by
    apply List.ext_getElem?
    intro j
    rw [List.map_map, List.getElem?_map, List.getElem?_map, List.getElem?_set]
    by_cases hij : i = j
    · subst hij
      have hlt := (List.getElem?_eq_some_iff.mp hu).1
      have hself := (hp u (List.mem_of_getElem? hu)).mpr rfl
      rw [if_pos rfl, if_pos hlt, hu, Option.map_some, Option.map_some, Function.comp_apply, hself]
      exact congrArg some hf
    · rw [if_neg hij]
      cases hw : s.users[j]? with
      | none => rfl
      | some w =>
        have hne : w ≠ u := by
          rintro rfl
          have hlt := (List.getElem?_eq_some_iff.mp hu).1
          exact hij ((List.getElem?_inj hlt hn).mp (hu.trans hw.symm))
        have hno : p w.member = false :=
          Bool.eq_false_iff.mpr fun h => hne ((hp w (List.mem_of_getElem? hw)).mp h)
        simp [hno]
  simp only [Server.house, House.update, users_setUser, hmembers]
  rfl

theorem UserInv.users_nodup {s : Server} (inv : UserInv s) : s.users.Nodup :=
  List.Nodup.of_map _ inv.fds

/-- Who is told of an auction. -/
theorem NamedInv.tell_eq {s : Server} (inv : NamedInv s) (sold : List Nat) {x : Auction}
    {fds : List Int} (h : FdsOf s.users x.watchers.nodes fds)
    (notice : Notice Text Text) :
    (s.house sold).tell x.lot notice = fds.map fun fd => (fd, notice) := by
  have hall : ∀ {ws : List CharPtr} {fds : List Int}, FdsOf s.users ws fds →
      (ws.map CharPtr.text).filterMap (fun w =>
        ((s.house sold).memberNamed w).map fun m => (m.address, notice)) =
        fds.map fun fd => (fd, notice) := by
    intro ws fds h
    induction h with
    | nil => rfl
    | cons hw _ ih =>
      obtain ⟨u, hu, hname, rfl⟩ := hw
      have hmember := inv.memberNamed_eq sold hu
      rw [hname, nameOf_some] at hmember
      rw [List.map_cons, List.filterMap_cons, hmember, ih]
      rfl
  exact hall h

theorem loginName_eq {s : Server} {body : List Char} {fd : Int}
    (hok : Credentialed s (.accept fd MsgType.LOGIN.code body)) :
    ∃ name secret, loginName s body = some name ∧ loginPassword s body = some secret ∧
      Action.input (.accept fd MsgType.LOGIN.code body) =
        some (.signIn fd name.text secret.text) := by
  obtain ⟨hname, hsecret⟩ := hok.2 rfl
  obtain ⟨name, hname⟩ := Option.ne_none_iff_exists'.mp hname
  obtain ⟨secret, hsecret⟩ := Option.ne_none_iff_exists'.mp hsecret
  refine ⟨⟨s.blocks, name⟩, ⟨s.blocks, secret⟩, ?_, ?_, ?_⟩
  · simp [loginName, hname]
  · simp [loginPassword, hsecret]
  · simp [Action.input, hname, hsecret]

section Logins

variable {tr out : List Event} {s s' : Server} {fd : Int} {body : List Char} {name secret : CharPtr}

/-- The member found under the name is the one whose record the scan stopped at. -/
theorem CallInv.known (inv : CallInv tr s) (hname : loginName s body = some name) {i : Nat}
    {u : User} (hu : s.users[i]? = some u)
    (hcmp : strcmpEq (loginName s body) u.username = some true) :
    (s.house (closings tr)).memberNamed name.text = some u.member ∧
      nameOf u.username = name.text := by
  obtain ⟨p, q, hp, hq, htext⟩ := strcmpEq_true hcmp
  obtain rfl : name = p := Option.some.inj (hname.symm.trans hp)
  have hsame : nameOf u.username = name.text := by rw [hq, nameOf_some, htext]
  exact ⟨hsame ▸ inv.names.memberNamed_eq _ (List.mem_of_getElem? hu), hsame⟩

/-- The member's secret is told if the passwords are the same. -/
theorem secret_iff (hsecret : loginPassword s body = some secret) {u : User} {b : Bool}
    (hcmp : strcmpEq (loginPassword s body) u.password = some b) :
    u.member.secret = secret.text ↔ b = true := by
  cases b with
  | true =>
    obtain ⟨p, q, hp, hq, htext⟩ := strcmpEq_true hcmp
    obtain rfl : secret = p := Option.some.inj (hsecret.symm.trans hp)
    simp [User.member, hq, nameOf_some, htext]
  | false =>
    obtain ⟨p, q, hp, hq, htext⟩ := strcmpEq_false hcmp
    obtain rfl : secret = p := Option.some.inj (hsecret.symm.trans hp)
    simpa [User.member, hq, nameOf_some] using Ne.symm htext

/-- A user comes back. -/
theorem house_return (inv : CallInv tr s) {i : Nat} {u : User} (hu : s.users[i]? = some u)
    (hsame : nameOf u.username = name.text) (fd : Int) :
    (s.setUser i { u with loginFlag := true, fd }).house (closings tr) =
      (s.house (closings tr)).update (fun m => m.name = name.text)
        fun m => { m with present := true, address := fd } := by
  refine house_setUser _ inv.users.users_nodup hu (fun w hw => ?_) rfl
  simp only [decide_eq_true_eq, ← hsame]
  exact ⟨inv.names.name_inj hw (List.mem_of_getElem? hu), fun h => h ▸ rfl⟩

theorem house_login {started : Bool} (inv : CallInv tr s)
    (hok : Credentialed s (.accept fd MsgType.LOGIN.code body))
    (h : AcceptOutcome s fd MsgType.LOGIN.code body s' out started) :
    ∃ input, Action.input (.accept fd MsgType.LOGIN.code body) = some input ∧
      Mirrors s (closings tr) input s' out := by
  obtain ⟨name, secret, hname, hsecret, hinput⟩ := loginName_eq hok
  refine ⟨_, hinput, ?_⟩
  cases h with
  | noLogin hno => exact absurd rfl hno
  | already i u _ hu hcmp hflag =>
    obtain ⟨hmember, -⟩ := inv.known hname hu hcmp
    have hpresent : u.member.present = true := hflag
    refine mirrors_answer .present (by decide) ?_ rfl
    simp only [House.step, House.signIn, hmember, hpresent, ↓reduceIte]
    rfl
  | again i u _ hu hcmp hflag hpw =>
    obtain ⟨hmember, hsame⟩ := inv.known hname hu hcmp
    have habsent : u.member.present = false := hflag
    have hright : u.member.secret = secret.text := (secret_iff hsecret hpw).mpr rfl
    refine mirrors_answer .done (by decide) ?_ rfl
    simp only [House.step, House.signIn, hmember, habsent, Bool.false_eq_true, ↓reduceIte, hright,
      ← house_return inv hu hsame fd]
    rfl
  | wrong i u _ hu hcmp hflag hpw =>
    obtain ⟨hmember, -⟩ := inv.known hname hu hcmp
    have habsent : u.member.present = false := hflag
    have hwrong : u.member.secret ≠ secret.text :=
      fun h => by simpa using (secret_iff hsecret hpw).mp h
    refine mirrors_answer .refused (by decide) ?_ rfl
    simp only [House.step, House.signIn, hmember, habsent, Bool.false_eq_true, ↓reduceIte, hwrong]
    rfl
  | created users _ hscan hins =>
    rw [hname] at hscan
    have hnodes := (insertAtTail_spec inv.users.wf hins).1
    refine mirrors_answer .done (by decide) ?_ rfl
    simp only [House.step, House.signIn, memberNamed_none _ hscan]
    simp only [Server.house, Server.users, hnodes, List.map_append, hname, hsecret]
    rfl

end Logins

theorem house_logout {s s' : Server} {tr out : List Event} {fd : Int} (inv : CallInv tr s)
    (h : logout s fd = (s', out)) : Mirrors s (closings tr) (.call fd .signOut) s' out := by
  have hmember := house_memberAt s (closings tr) fd
  rcases logout_spec s fd with ⟨hl, hno⟩ | ⟨i, u, hu, rfl, hl⟩
  · obtain ⟨rfl, rfl⟩ := Prod.mk.inj (hl.symm.trans h)
    have hnone : findUsername s fd = none := by
      simpa [findUsername, List.find?_eq_none] using hno
    refine mirrors_open [] rfl ?_ rfl
    simp only [House.step, House.answer, hmember, hnone, Option.map_none]
  · obtain ⟨rfl, rfl⟩ := Prod.mk.inj (hl.symm.trans h)
    have hmem := List.mem_of_getElem? hu
    have hset : (s.setUser i { u with loginFlag := false }).house (closings tr) =
        (s.house (closings tr)).update (fun m => m.address = u.fd)
          fun m => { m with present := false } := by
      refine house_setUser _ inv.users.users_nodup hu (fun w hw => ?_) rfl
      simp only [decide_eq_true_eq]
      exact ⟨inv.users.fd_inj hw hmem, fun h => h ▸ rfl⟩
    refine mirrors_answer .done (by decide) ?_ rfl
    simp only [House.step, House.answer, hmember, inv.users.findUsername_eq hmem,
      Option.map_some, ← hset]

theorem house_create {s s' : Server} {tr out : List Event} {env : JobEnv} {job : Job}
    {name : Text} {duration price : Int} (inv : CallInv tr s)
    (hok : Attributed s (.job env job))
    (htype : MsgType.ofCode job.jobMsgType = some .ANCREATE)
    (hargs : ancreateArgs (cstr job.jobBuffer) = some (name, duration, price))
    (h : createAuction s env.malloc job.clientfd name duration price = some (s', out)) :
    Mirrors s (closings tr) (.call job.clientfd (.offer name duration price)) s' out := by
  have hname : name ≠ [] := by
    obtain ⟨d, p, rest, htokens, -⟩ := ancreateArgs_eq_some.mp hargs
    exact (mem_tokens (htokens ▸ List.mem_cons_self)).1
  simp only [createAuction, if_neg hname] at h
  split at h
  · rename_i hd
    simp only [Option.some.injEq, Prod.mk.injEq] at h
    obtain ⟨rfl, rfl⟩ := h
    refine mirrors_answer .invalid (by decide) ?_ rfl
    simp only [House.step, House.answer, if_pos (Or.inl hd : duration < 1 ∨ price < 0)]
  rename_i hd
  split at h
  · rename_i hp
    simp only [Option.some.injEq, Prod.mk.injEq] at h
    obtain ⟨rfl, rfl⟩ := h
    refine mirrors_answer .invalid (by decide) ?_ rfl
    simp only [House.step, House.answer, if_pos (Or.inr hp : duration < 1 ∨ price < 0)]
  rename_i hp
  simp only [Option.bind_eq_bind, Option.bind_eq_some_iff] at h
  obtain ⟨newId, hid, ⟨us, creator⟩, hscan, list, hlist, body, hbody, h⟩ := h
  obtain ⟨rfl, hlt⟩ := incr_eq_some hid
  simp only [Option.some.injEq, Prod.mk.injEq] at h
  obtain ⟨rfl, rfl⟩ := h
  have hrecorded := hok.1 (creates_of_args htype hargs hname (by omega) (by omega))
  obtain ⟨u, hu, hfd, rfl⟩ : ∃ u ∈ s.users, u.fd = job.clientfd ∧ creator = u.username := by
    rcases (ownerScan_spec hscan).2 with ⟨-, hno⟩ | howner
    · obtain ⟨v, hv, hfd⟩ := hrecorded
      exact absurd hfd (hno v hv)
    · exact howner
  have hmember : (s.house (closings tr)).memberAt job.clientfd = some u.member := by
    rw [house_memberAt, ← hfd, inv.users.findUsername_eq hu, Option.map_some]
  have hmembers : us.map User.member = s.users.map User.member :=
    map_eq_of_owned User.member (fun _ _ => rfl) (ownerScan_spec hscan).1
  have hnumber : s.auctionID + 1 = ((s.auctions.length + 1 : Nat) : Int) := by
    rw [inv.list.counter]
    rfl
  refine mirrors_open [(job.clientfd, .offered (s.auctions.length + 1))]
    (closings_messages (messages_message _ _ _)) ?_ ?_
  · have hvalid : ¬ (duration < 1 ∨ price < 0) := by omega
    simp only [House.step, House.answer, if_neg hvalid, hmember]
    simp only [Server.house, Server.users, hmembers, List.length_map, List.map_append]
    rfl
  · rw [told_message (by decide), fits_eq_some hbody, hnumber]
    rfl

theorem memberAt_some {s : Server} (sold : List Nat) {fd : Int} {user : User}
    (h : findUsername s fd = some user) : (s.house sold).memberAt fd = some user.member := by
  rw [house_memberAt, h, Option.map_some]

theorem CallInv.onSale_eq {tr : List Event} {s : Server} (inv : CallInv tr s) :
    (s.house (closings tr)).onSale = s.auctionsList.nodes :=
  house_onSale inv.list inv.closed

theorem CallInv.find_eq {tr : List Event} {s : Server} (inv : CallInv tr s) {id : Int}
    {found : Option Nat} (h : findById s id s.auctionsList.nodes = some found) :
    (s.house (closings tr)).find id = found :=
  house_find inv.list inv.closed h

theorem house_watch {s s' : Server} {tr out : List Event} {fd auctionId : Int}
    (inv : CallInv tr s) (h : watchAuction s fd auctionId = some (s', out)) :
    Mirrors s (closings tr) (.call fd (.watch auctionId)) s' out := by
  simp only [watchAuction, Option.bind_eq_bind, Option.bind_eq_some_iff] at h
  obtain ⟨found, hfound, h⟩ := h
  have hfind := inv.find_eq hfound
  cases found with
  | none =>
    simp only [Option.some.injEq, Prod.mk.injEq] at h
    obtain ⟨rfl, rfl⟩ := h
    refine mirrors_answer .notFound (by decide) ?_ rfl
    simp only [House.step, House.answer, hfind]
  | some a =>
    simp only [Option.bind_eq_some_iff, Option.some.injEq, Prod.mk.injEq] at h
    obtain ⟨x, hx, user, huser, watchers, hins, body, hbody, rfl, rfl⟩ := h
    have hmem := (findUsername_spec huser).1
    obtain ⟨w, hw⟩ := Option.ne_none_iff_exists'.mp (inv.names.named user hmem)
    rw [hw] at hins
    have hnodes := (insertAtTail_spec (inv.records a x hx).watchers hins).1
    refine mirrors_open [(fd, .watching x.name x.lot.limit)]
      (closings_messages (messages_message _ _ _)) ?_ ?_
    · rw [house_setAuction]
      simp only [House.step, House.answer, hfind, memberAt_some _ huser, house_lots, hx,
        Option.map_some, Option.bind_eq_bind, Option.bind_some]
      simp only [Auction.lot, hnodes, List.map_append, User.member, hw, nameOf_some]
      rfl
    · rw [told_message (by decide), fits_eq_some hbody]
      by_cases hprice : x.binPrice = 0 <;> simp [rendered, render, Auction.lot, hprice]

/-- The index that ANLEAVE looks up is where the name first stands. -/
theorem userIndexLoop_erase {name : CharPtr} {ws : List CharPtr} {i r : Int}
    (h : userIndexLoop (some name) i ws = some r) : r = -1 ∨ ∃ k : Nat, r = i + k ∧
      k < ws.length ∧ name.text ∈ ws.map CharPtr.text ∧
      (ws.map CharPtr.text).eraseP (fun t => t = name.text) =
        (ws.eraseIdx k).map CharPtr.text := by
  induction ws generalizing i with
  | nil =>
    simp only [userIndexLoop, Option.some.injEq] at h
    exact Or.inl h.symm
  | cons w ws ih =>
    simp only [userIndexLoop, strcmpEq, Option.bind_eq_bind, Option.bind_some] at h
    by_cases hw : name.text = w.text
    · simp only [hw, beq_self_eq_true, ↓reduceIte, Option.some.injEq] at h
      exact Or.inr ⟨0, by simp [h], by simp, by simp [hw], by simp [hw]⟩
    · simp only [beq_eq_false_iff_ne.mpr hw, Bool.false_eq_true, ↓reduceIte] at h
      rcases ih h with rfl | ⟨k, rfl, hk, hmem, herase⟩
      · exact Or.inl rfl
      · refine Or.inr ⟨k + 1, by push_cast; omega, by simpa using hk,
          List.mem_cons_of_mem _ hmem, ?_⟩
        simp only [List.map_cons, List.eraseIdx_cons_succ]
        rw [List.eraseP_cons_of_neg (by simpa using Ne.symm hw), herase]

theorem house_leave {s s' : Server} {tr out : List Event} {fd auctionId : Int}
    (inv : CallInv tr s) (h : leaveAuction s fd auctionId = some (s', out)) :
    Mirrors s (closings tr) (.call fd (.leave auctionId)) s' out := by
  simp only [leaveAuction, Option.bind_eq_bind, Option.bind_eq_some_iff] at h
  obtain ⟨user, huser, found, hfound, h⟩ := h
  have hfind := inv.find_eq hfound
  have hmember := memberAt_some (closings tr) huser
  cases found with
  | none =>
    simp only [Option.some.injEq, Prod.mk.injEq] at h
    obtain ⟨rfl, rfl⟩ := h
    refine mirrors_answer .notFound (by decide) ?_ rfl
    simp only [House.step, House.answer, hmember, hfind, Option.bind_eq_bind, Option.bind_some]
  | some a =>
    simp only [Option.bind_eq_some_iff, Option.some.injEq, Prod.mk.injEq] at h
    obtain ⟨x, hx, index, hindex, ⟨removed, watchers⟩, hrem, rfl, rfl⟩ := h
    have hwf := (inv.records a x hx).watchers
    have hmem := (findUsername_spec huser).1
    obtain ⟨w, hw⟩ := Option.ne_none_iff_exists'.mp (inv.names.named user hmem)
    rw [findUserIndex, hw] at hindex
    rcases userIndexLoop_erase hindex with rfl | ⟨k, rfl, hk, hwatches, herase⟩
    · rw [removeByIndex_neg hwf (by decide)] at hrem
      cases hrem
    · rw [Int.zero_add, removeByIndex_nat hwf hk, Option.some.injEq, Prod.mk.injEq] at hrem
      obtain ⟨-, rfl⟩ := hrem
      have hwatches : user.member.name ∈ x.lot.watchers := by
        simpa [User.member, hw, nameOf_some, Auction.lot] using hwatches
      refine mirrors_answer .done (by decide) ?_ rfl
      rw [house_setAuction]
      simp only [House.step, House.answer, hmember, hfind, house_lots, hx, Option.map_some,
        Option.bind_eq_bind, Option.bind_some, House.leave, if_pos hwatches]
      simp only [Auction.lot, User.member, hw, nameOf_some, herase]

theorem closedBody_house {x : Auction} {a : Nat} (hid : x.id = a + 1) :
    closedBody x = closedText (a + 1) x.lot.best := by
  cases hw : x.currentWinner <;> simp [closedBody, closedText, Auction.lot, hw, hid]

/-- A close of the server is one of the house. -/
theorem house_close {s s' : Server} {out : List Event} {a : Nat} {x : Auction} (names : NamedInv s)
    (sold : List Nat) (hx : s.auctions[a]? = some x) (hid : x.id = a + 1)
    (hwatchers : ∀ w ∈ x.watchers.nodes, s.Names (some w))
    (h : closeAuction s a = some (s', out)) :
    ∃ notices, (s.house sold).close a = some (s.house (sold ++ [a]), notices) ∧
      told out = rendered notices ∧ closings out = [a] := by
  obtain ⟨values, fds, rfl, hvalues, hof⟩ := closeAuction_log names.users hwatchers hx h
  refine ⟨fds.map fun fd => (fd, .closed (a + 1) x.lot.best), ?_, ?_, closeAuction_closings h⟩
  · simp only [House.close, house_lots, hx, Option.map_some, Option.bind_eq_bind, Option.bind_some,
      names.tell_eq sold hof]
    rfl
  · rw [List.cons_append, told_closed, told_append, told_values hvalues, List.nil_append,
      told_messages (by decide), closedBody_house hid, rendered, List.map_map]
    rfl

/-- The creator is recognised by his name. -/
theorem seller_iff {s : Server} (names : NamedInv s) {x : Auction} {user : User}
    (hmem : user ∈ s.users) (hcreator : s.Names x.creator) :
    x.lot.seller = user.member.name ↔ samePtr x.creator user.username = true := by
  obtain ⟨c, hc, hcx⟩ := hcreator
  rw [← hcx, names.users.samePtr_iff hc hmem]
  change nameOf x.creator = nameOf user.username ↔ _
  rw [← hcx]
  exact ⟨fun h => names.name_inj hc hmem h ▸ rfl, fun h => h ▸ rfl⟩

theorem watches_iff {name : CharPtr} {ws : List CharPtr} {b : Bool}
    (h : userWatches (some name) ws = some b) :
    name.text ∈ ws.map CharPtr.text ↔ b = true := by
  induction ws with
  | nil =>
    simp only [userWatches, Option.some.injEq] at h
    simp [← h]
  | cons w ws ih =>
    simp only [userWatches, strcmpEq, Option.bind_eq_bind, Option.bind_some] at h
    by_cases hw : w.text = name.text
    · simp only [hw, beq_self_eq_true, ↓reduceIte, Option.some.injEq] at h
      simp [hw, ← h]
    · simp only [beq_eq_false_iff_ne.mpr hw, Bool.false_eq_true, ↓reduceIte] at h
      simpa [Ne.symm hw] using ih h

theorem exceeds_iff {x : Auction} (record : RecordInv x) (amount : Int) :
    x.lot.Exceeds amount ↔ x.binFlag = 1 ∧ amount > x.binPrice := by
  have hprice := record.price.1
  have hflag := record.flag
  by_cases hzero : x.binPrice = 0
  · simp [Lot.Exceeds, Auction.lot, hzero, hflag]
  · have hpos : 0 < x.binPrice := by omega
    simp [Lot.Exceeds, Auction.lot, hzero, hflag, hpos]

/-- The bid that ends an auction. -/
theorem house_buy {s s' : Server} {tr out : List Event} {fd bid : Int} {a : Nat} {x : Auction}
    {user : User} {name : CharPtr} (inv : CallInv tr s) (hx : s.auctions[a]? = some x)
    (hname : user.username = some name) (hseller : x.lot.seller ≠ user.member.name)
    (hwatches : user.member.name ∈ x.lot.watchers) (hexceeds : x.lot.Exceeds bid)
    (h : buyAuction s user.username bid a = some (s', out)) :
    ∃ notices, (s.house (closings tr)).bid fd user.member.name a x.lot bid =
      some (s'.house (closings tr ++ closings out), notices) ∧ told out = rendered notices := by
  simp only [buyAuction, setBid_eq hx, Option.bind_eq_bind, Option.bind_some,
    Option.bind_eq_some_iff, Option.some.injEq, Prod.mk.injEq] at h
  obtain ⟨⟨s₂, closed⟩, hclose, s₃, hunlink, rfl, rfl⟩ := h
  obtain ⟨us, rfl, hus⟩ := closeAuction_frame hclose
  obtain ⟨list, rfl⟩ := unlinkAuction_frame hunlink
  have names : NamedInv (s.setAuction a (x.withBid user.username bid)) :=
    ⟨inv.names.users.of_users rfl rfl rfl, inv.names.named⟩
  obtain ⟨notices, hnotices, htold, hone⟩ := house_close names (closings tr) (setAuction_get _ hx)
    (inv.list.ids a x hx) (inv.parties a x hx).watchers hclose
  refine ⟨notices, ?_, htold⟩
  rw [closings_accepted, hone]
  have hlot : (x.withBid user.username bid).lot =
      { x.lot with best := some (user.member.name, bid) } := by
    simp [Auction.lot, Auction.withBid, User.member, hname, nameOf_some]
  rw [house_setAuction, hlot] at hnotices
  simp only [House.bid, if_neg hseller, not_true_eq_false, hwatches, ↓reduceIte, if_pos hexceeds,
    hnotices, Option.some.injEq, Prod.mk.injEq, and_true]
  exact (house_withUsers _ hus).symm

/-- The bid that becomes the highest. -/
theorem house_raise {s s' : Server} {tr out : List Event} {fd bid : Int} {a : Nat} {x : Auction}
    {user : User} {name : CharPtr} (inv : CallInv tr s) (hx : s.auctions[a]? = some x)
    (hname : user.username = some name) (hseller : x.lot.seller ≠ user.member.name)
    (hwatches : user.member.name ∈ x.lot.watchers) (hexceeds : ¬ x.lot.Exceeds bid)
    (hhigher : x.lot.price < bid) (h : raiseAuction s fd user.username bid a = some (s', out)) :
    ∃ notices, (s.house (closings tr)).bid fd user.member.name a x.lot bid =
      some (s'.house (closings tr ++ closings out), notices) ∧ told out = rendered notices := by
  simp only [raiseAuction, setBid_eq hx, Option.bind_eq_bind, Option.bind_some,
    setAuction_get _ hx, updateAuction, hname, Option.bind_eq_some_iff, Option.some.injEq,
    Prod.mk.injEq] at h
  obtain ⟨sends, ⟨body, hbody, fds, hfds, rfl⟩, rfl, rfl⟩ := h
  have names : NamedInv (s.setAuction a (x.withBid (some name) bid)) :=
    ⟨inv.names.users.of_users rfl rfl rfl, inv.names.named⟩
  have hof : FdsOf s.users x.watchers.nodes fds :=
    watcherFds_spec names.users (inv.parties a x hx).watchers hfds
  rw [hof.sendable inv.names.users]
  refine ⟨(fds.map fun fd => (fd, .raised (a + 1) x.name name.text bid)) ++ [(fd, .done)], ?_, ?_⟩
  · have hnone : closings (.accepted a (some name) bid ::
        fds.map (fun fd => message fd .ANUPDATE body) ++ [answer fd .OK]) = [] := by
      rw [List.cons_append, closings_accepted]
      exact closings_messages (messages_append (messages_map _ _ _) (messages_answer _ _))
    have htell := inv.names.tell_eq (closings tr) hof (.raised (a + 1) x.name name.text bid)
    have hbidder : user.member.name = name.text := by rw [User.member, hname, nameOf_some]
    rw [hnone, List.append_nil, house_setAuction]
    simp only [House.bid, if_neg hseller, not_true_eq_false, hwatches, ↓reduceIte,
      if_neg hexceeds, if_pos hhigher]
    rw [hbidder, show x.lot.item = x.name from rfl, htell]
    rfl
  · rw [List.cons_append, told_accepted, told_append, told_messages (by decide),
      told_answer (by decide), rendered_append, fits_eq_some hbody]
    refine congrArg (· ++ _) ?_
    simp only [rendered, List.map_map]
    have hid := inv.list.ids a x hx
    refine List.map_congr_left fun fd _ => ?_
    simp [render, updateBody, Auction.withBid, hid]

section Bids

variable {s s' : Server} {tr out : List Event} {fd auctionId bid : Int} {user : User} {a : Nat}
  {x : Auction} {exit : BidExit}

/-- The house has the lot on sale that the server has found. -/
theorem house_bid_step (inv : CallInv tr s) (huser : findUsername s fd = some user)
    (hsome : s.auctionsList.nodes ≠ [])
    (hfound : findById s auctionId s.auctionsList.nodes = some (some a))
    (hx : s.auctions[a]? = some x) :
    House.step (s.house (closings tr)) (.call fd (.bid auctionId bid)) =
      (s.house (closings tr)).bid fd user.member.name a x.lot bid := by
  simp only [House.step, House.answer, memberAt_some (closings tr) huser, inv.onSale_eq, hsome,
    inv.find_eq hfound, house_lots, hx, Option.bind_eq_bind, Option.bind_some, Option.map_some,
    ↓reduceIte]

/-- The tests of the house are those of the server. -/
theorem house_bid_found (inv : CallInv tr s) (huser : findUsername s fd = some user)
    (hx : s.auctions[a]? = some x) (htests : FoundTests x user.username bid a exit)
    (hexit : bidExit s user.username auctionId bid = some exit)
    (hstep : House.step (s.house (closings tr)) (.call fd (.bid auctionId bid)) =
      (s.house (closings tr)).bid fd user.member.name a x.lot bid)
    (h : bidAuction s fd auctionId bid = some (s', out)) :
    Mirrors s (closings tr) (.call fd (.bid auctionId bid)) s' out := by
  have hmem := (findUsername_spec huser).1
  have record := inv.records a x hx
  have hseller := seller_iff inv.names hmem (inv.parties a x hx).creator
  obtain ⟨name, hname⟩ := Option.ne_none_iff_exists'.mp (inv.names.named user hmem)
  have hother (hne : samePtr x.creator user.username = false) :
      x.lot.seller ≠ user.member.name := fun heq => by simp [hseller.mp heq] at hne
  have hwatches {b : Bool} (hw : userWatches user.username x.watchers.nodes = some b) :
      user.member.name ∈ x.lot.watchers ↔ b = true := by
    rw [hname] at hw
    simpa [User.member, hname, nameOf_some, Auction.lot] using watches_iff hw
  simp only [bidAuction, huser, hexit, Option.bind_eq_bind, Option.bind_some] at h
  cases htests with
  | creator hcreator =>
    obtain ⟨rfl, rfl⟩ := Prod.mk.inj (Option.some.inj h)
    refine mirrors_answer .denied (by decide) (hstep.trans ?_) rfl
    simp only [House.bid, if_pos (hseller.mpr hcreator)]
  | notWatching hne hw =>
    obtain ⟨rfl, rfl⟩ := Prod.mk.inj (Option.some.inj h)
    have hno : user.member.name ∉ x.lot.watchers := fun h => by simpa using (hwatches hw).mp h
    refine mirrors_answer .denied (by decide) (hstep.trans ?_) rfl
    simp only [House.bid, if_neg (hother hne), if_pos hno]
  | buyNow hne hw hbuy =>
    obtain ⟨notices, hnotices, htold⟩ := house_buy inv hx hname (hother hne)
      ((hwatches hw).mpr rfl) ((exceeds_iff record bid).mpr hbuy) h
    exact ⟨notices, hstep.trans hnotices, htold⟩
  | highest hne hw hbuy hhigh =>
    obtain ⟨notices, hnotices, htold⟩ := house_raise inv hx hname (hother hne)
      ((hwatches hw).mpr rfl) (mt (exceeds_iff record bid).mp hbuy) (lot_price record ▸ hhigh) h
    exact ⟨notices, hstep.trans hnotices, htold⟩
  | low hne hw hbuy hlow =>
    obtain ⟨rfl, rfl⟩ := Prod.mk.inj (Option.some.inj h)
    have hexceeds : ¬ x.lot.Exceeds bid := mt (exceeds_iff record bid).mp hbuy
    have hprice : ¬ x.lot.price < bid := by
      rw [lot_price record]
      exact hlow
    refine mirrors_answer .low (by decide) (hstep.trans ?_) rfl
    simp only [House.bid, if_neg (hother hne), not_true_eq_false, (hwatches hw).mpr rfl,
      ↓reduceIte, if_neg hexceeds, if_neg hprice]

theorem house_bid (inv : CallInv tr s) (h : bidAuction s fd auctionId bid = some (s', out)) :
    Mirrors s (closings tr) (.call fd (.bid auctionId bid)) s' out := by
  obtain ⟨user, huser, hrest⟩ := Option.bind_eq_some_iff.mp h
  obtain ⟨exit, hexit, -⟩ := Option.bind_eq_some_iff.mp hrest
  have hmember := memberAt_some (closings tr) huser
  cases bidExit_tests hexit with
  | emptyList hempty =>
    simp only [bidAuction, huser, hexit, Option.bind_eq_bind, Option.bind_some] at h
    obtain ⟨rfl, rfl⟩ := Prod.mk.inj (Option.some.inj h)
    refine mirrors_answer .notFound (by decide) ?_ rfl
    simp only [House.step, House.answer, hmember, inv.onSale_eq, hempty, Option.bind_eq_bind,
      Option.bind_some, ↓reduceIte]
  | noMatch hsome hfound =>
    simp only [bidAuction, huser, hexit, Option.bind_eq_bind, Option.bind_some] at h
    obtain ⟨rfl, rfl⟩ := Prod.mk.inj (Option.some.inj h)
    refine mirrors_open [] rfl ?_ rfl
    simp only [House.step, House.answer, hmember, inv.onSale_eq, hsome, inv.find_eq hfound,
      Option.bind_eq_bind, Option.bind_some, ↓reduceIte]
  | found a x hsome hfound hx htests =>
    exact house_bid_found inv huser hx htests hexit
      (house_bid_step inv huser hsome hfound hx) h

end Bids

end ZBid
