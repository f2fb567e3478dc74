import ZBid.Lookups
import ZBid.Requests

/-!
# Credentials

The answer to a LOGIN depends on the LOGIN that created the account, however long ago it was: a
username and a password are written once, and one record has the name.
-/
namespace ZBid

open CInt CString Runs

/-- The LOGIN that created the record at `i`: it brought this name and this password, and nobody
had the name. -/
def SignedUp (as : List Action) (i : Nat) (name pw : Text) : Prop :=
  ∃ pre fd body post tr s, as = pre ++ .accept fd MsgType.LOGIN.code body :: post ∧
    Run Server.step Credentialed Server.start pre tr s ∧ s.users.length = i ∧
    loginArgs (cstr body) = (some name, some pw) ∧ ∀ u ∈ s.users, nameText u.username ≠ some name

/-- An account and the LOGIN that created it. The globals `t` of a later LOGIN are those of `s`,
with the new connection opened or not. -/
structure AccountLaw (as : List Action) (s : Server) (i : Nat) (u : User) (name pw : Text) :
    Prop where
  created : SignedUp as i name pw
  username : nameText u.username = some name
  password : nameText u.password = some pw
  lasting : ∀ bs tr s', Run Server.step Credentialed s bs tr s' →
    ∃ u', s'.users[i]? = some u' ∧ u'.credentials = u.credentials
  login : ∀ (t : Server) (fd : Int) (n p : CharPtr), t.usersList = s.usersList → n.text = name →
    login t fd (some n) (some p) = some (
      if u.loginFlag then (t, [answer fd .EUSRLGDIN], 0)
      else if p.text = pw then
        (t.setUser i { u with loginFlag := true, fd := fd }, [answer fd .OK], 0)
      else (t, [answer fd .EWRNGPWD], -1))

structure CredentialLaw (as : List Action) (s : Server) : Prop where
  accounts : ∀ (i : Nat) (u : User), s.users[i]? = some u →
    ∃ name pw, AccountLaw as s i u name pw
  unknown : ∀ (t : Server) (fd : Int) (n p : CharPtr), t.usersList = s.usersList →
    FreshFd s fd → (∀ u ∈ s.users, nameText u.username ≠ some n.text) →
    ∃ users, login t fd (some n) (some p) =
      some ({ t with usersList := users }, [answer fd .OK], 0) ∧
      users.nodes = s.users ++ [newUser fd (some n) (some p)]

theorem SignedUp.append {as : List Action} {i : Nat} {name pw : Text} (h : SignedUp as i name pw)
    (bs : List Action) : SignedUp (as ++ bs) i name pw := by
  obtain ⟨pre, fd, body, post, tr, s, rfl, hrest⟩ := h
  exact ⟨pre, fd, body, post ++ bs, tr, s, by simp, hrest⟩

/-- Every record is as some LOGIN of the run created it. -/
def Registered (as : List Action) (s : Server) : Prop :=
  ∀ (i : Nat) (u : User), s.users[i]? = some u → ∃ name pw, SignedUp as i name pw ∧
    nameText u.username = some name ∧ nameText u.password = some pw

theorem registered_start : Registered [] Server.start := by
  simp [Registered, Server.start, Server.users, createList]

theorem registered_step {as : List Action} {tr : List Event} {s s' : Server} {action : Action}
    {out : List Event} (run : Run Server.step Credentialed Server.start as tr s)
    (users : UserInv s) (inv : Registered as s) (hok : Credentialed s action)
    (h : Effect s action s' out) : Registered (as ++ [action]) s' := by
  -- A record whose credentials were there before was created before.
  have hold : ∀ (i : Nat) (u : User),
      (s.users.map User.credentials)[i]? = some u.credentials → ∃ name pw,
        SignedUp (as ++ [action]) i name pw ∧ nameText u.username = some name ∧
        nameText u.password = some pw := by
    intro i u hu
    rw [List.getElem?_map, Option.map_eq_some_iff] at hu
    obtain ⟨v, hv, hvu⟩ := hu
    obtain ⟨name, pw, hsigned, hname, hpw⟩ := inv i v hv
    obtain ⟨hn, hp⟩ := Prod.mk.inj hvu
    exact ⟨name, pw, hsigned.append _, hn ▸ hname, hp ▸ hpw⟩
  intro i u hu
  have hget : (s'.users.map User.credentials)[i]? = some u.credentials := by simp [hu]
  rcases effect_credentials users h with hsame | ⟨fd, body, rfl, hscan, hnew⟩
  · exact hold i u (hsame ▸ hget)
  · rw [hnew] at hget
    rcases Nat.lt_trichotomy i s.users.length with hi | rfl | hi
    · rw [List.getElem?_append_left (by simpa using hi)] at hget
      exact hold i u hget
    · rw [List.getElem?_append_right (by simp)] at hget
      simp only [List.length_map, Nat.sub_self, List.getElem?_cons_zero, Option.some.injEq,
        User.credentials, Prod.mk.injEq] at hget
      obtain ⟨hname, hpw⟩ := hok.2 rfl
      obtain ⟨name, hname⟩ := Option.ne_none_iff_exists'.mp hname
      obtain ⟨pw, hpw⟩ := Option.ne_none_iff_exists'.mp hpw
      have hargs : loginArgs (cstr body) = (some name, some pw) := Prod.ext hname hpw
      refine ⟨name, pw, ⟨as, fd, body, [], tr, s, rfl, run, rfl, hargs, ?_⟩, ?_, ?_⟩
      · intro v hv hsame
        obtain ⟨p, q, hp, hq, hne⟩ := strcmpEq_false (scanByName_none hscan v hv)
        simp only [loginName, hname, Option.map_some, Option.some.injEq] at hp
        simp only [nameText, hq, Option.map_some, Option.some.injEq] at hsame
        exact hne (by rw [← hp, hsame])
      · simp [← hget.1, loginName, hname, nameText]
      · simp [← hget.2, loginPassword, hpw, nameText]
    · rw [List.getElem?_eq_none (by simp; omega)] at hget
      cases hget

theorem namedInv_run {as : List Action} {tr : List Event} {s : Server}
    (run : Run Server.step Credentialed Server.start as tr s) : NamedInv s :=
  run.invariant_state namedInv_start fun inv hok hs => namedInv_step inv hok (step_effect hs)

theorem registered_run {as : List Action} {tr : List Event} {s : Server}
    (run : Run Server.step Credentialed Server.start as tr s) : Registered as s :=
  run.invariant (P := fun as _ s => Registered as s) registered_start
    fun run inv hok hs => registered_step run (namedInv_run run).users inv hok (step_effect hs)

/-- Credentials are never rewritten. -/
theorem credentials_run {s s' : Server} {as : List Action} {tr : List Event} (inv : NamedInv s)
    (run : Run Server.step Credentialed s as tr s') :
    s.users.map User.credentials <+: s'.users.map User.credentials := by
  have hstep : ∀ {t action t' out}, NamedInv t ∧
      s.users.map User.credentials <+: t.users.map User.credentials → Credentialed t action →
      Server.step t action = some (t', out) → NamedInv t' ∧
      s.users.map User.credentials <+: t'.users.map User.credentials := by
    rintro t action t' out ⟨ht, hprefix⟩ hok hs
    refine ⟨namedInv_step ht hok (step_effect hs), hprefix.trans ?_⟩
    rcases effect_credentials ht.users (step_effect hs) with hsame | ⟨fd, body, -, -, hnew⟩
    · exact prefix_of_eq hsame
    · rw [hnew]
      exact List.prefix_append _ _
  exact (run.invariant_state ⟨inv, List.prefix_refl _⟩ hstep).2

/-- The scan by name looks at the text only. -/
theorem scanByName_text {n m : CharPtr} (h : n.text = m.text) (us : List User) :
    scanByName (some n) us = scanByName (some m) us := by
  have hcmp : ∀ u : User, strcmpEq (some n) u.username = strcmpEq (some m) u.username := by
    intro u
    cases hu : u.username <;> simp [strcmpEq, h]
  induction us with
  | nil => rfl
  | cons u us ih => simp only [scanByName, hcmp, ih]

theorem NamedInv.scan_eq {s : Server} (inv : NamedInv s) {i : Nat} {u : User}
    (hu : s.users[i]? = some u) {n : CharPtr} (hn : nameText u.username = some n.text) :
    scanByName (some n) s.users = some (some i) := by
  obtain ⟨m, hm⟩ := Option.ne_none_iff_exists'.mp (inv.named u (List.mem_of_getElem? hu))
  have htext : n.text = m.text := by simpa [hm, nameText, eq_comm] using hn
  rw [scanByName_text htext, ← hm]
  exact scanByName_index inv.named inv.users.names hu

theorem login_known {s : Server} {i : Nat} {u : User} {n : CharPtr} {pw : Text}
    (hscan : scanByName (some n) s.users = some (some i)) (hu : s.users[i]? = some u)
    (hpw : nameText u.password = some pw) (fd : Int) (p : CharPtr) :
    login s fd (some n) (some p) = some (
      if u.loginFlag then (s, [answer fd .EUSRLGDIN], 0)
      else if p.text = pw then
        (s.setUser i { u with loginFlag := true, fd := fd }, [answer fd .OK], 0)
      else (s, [answer fd .EWRNGPWD], -1)) := by
  obtain ⟨q, hq, rfl⟩ := Option.map_eq_some_iff.mp hpw
  simp only [login, hscan, hu, hq, strcmpEq, Option.bind_eq_bind, Option.bind_some, beq_iff_eq]
  split
  · rfl
  · split <;> rfl

theorem UserInv.fresh_room {s : Server} (inv : UserInv s) {fd : Int} (hfresh : FreshFd s fd) :
    s.usersList.length < intMax := by
  have hnew : fd ∉ s.users.map User.fd := by
    intro h
    obtain ⟨u, hu, hfd⟩ := List.mem_map.mp h
    exact inv.fd_ne hfresh hu hfd
  have hle := length_le_of_range (List.nodup_cons.mpr ⟨hnew, inv.fds⟩) fun d hd => by
    rcases List.mem_cons.mp hd with rfl | hd
    · exact inv.fresh_range hfresh
    · obtain ⟨u, hu, rfl⟩ := List.mem_map.mp hd
      exact inv.fdsRange u hu
  have hwf : s.usersList.length = s.users.length := inv.wf
  simp only [List.length_cons, List.length_map] at hle
  omega

theorem login_unknown {s : Server} {n : CharPtr} (hscan : scanByName (some n) s.users = some none)
    (wf : s.usersList.WF) (hroom : s.usersList.length < intMax) (fd : Int) (p : CharPtr) :
    ∃ users, login s fd (some n) (some p) =
      some ({ s with usersList := users }, [answer fd .OK], 0) ∧
      users.nodes = s.users ++ [newUser fd (some n) (some p)] := by
  obtain ⟨users, hins⟩ := insertAtTail_isSome (newUser fd (some n) (some p)) wf hroom
  refine ⟨users, ?_, (insertAtTail_spec wf hins).1⟩
  simp only [newUser] at hins
  simp [login, hscan, hins]

theorem NamedInv.scan_none {s : Server} (inv : NamedInv s) {n : CharPtr}
    (hn : ∀ u ∈ s.users, nameText u.username ≠ some n.text) :
    scanByName (some n) s.users = some none := by
  obtain ⟨found, hfound⟩ := scanByName_isSome n inv.named
  cases found with
  | none => exact hfound
  | some i =>
    obtain ⟨u, hu, hcmp⟩ := scanByName_some hfound
    obtain ⟨a, b, ha, hb, htext⟩ := strcmpEq_true hcmp
    obtain rfl : n = a := Option.some.inj ha
    exact absurd (by simp [hb, nameText, htext]) (hn u (List.mem_of_getElem? hu))

/-- The credentials law, for every sequence of connections, logins with both fields, requests
and ticks. -/
theorem credentialLaw_run {as : List Action} {tr : List Event} {s : Server}
    (run : Run Server.step Credentialed Server.start as tr s) : CredentialLaw as s := by
  have inv := namedInv_run run
  constructor
  · intro i u hu
    obtain ⟨name, pw, hsigned, hname, hpw⟩ := registered_run run i u hu
    refine ⟨name, pw, hsigned, hname, hpw, ?_, ?_⟩
    · intro bs tr' s' more
      have hget : (s.users.map User.credentials)[i]? = some u.credentials := by simp [hu]
      obtain ⟨hlt, heq⟩ := List.getElem?_eq_some_iff.mp hget
      have hlater := List.prefix_iff_getElem?.mp (credentials_run inv more) i hlt
      rw [heq, List.getElem?_map, Option.map_eq_some_iff] at hlater
      exact hlater
    · intro t fd n p ht hn
      have husers : t.users = s.users := congrArg LinkedList.nodes ht
      have hscan := inv.scan_eq hu (hn ▸ hname)
      rw [← husers] at hscan hu
      exact login_known hscan hu hpw fd p
  · intro t fd n p ht hfresh hn
    have husers : t.users = s.users := congrArg LinkedList.nodes ht
    have hscan := inv.scan_none hn
    rw [← husers] at hscan ⊢
    exact login_unknown hscan (ht ▸ inv.users.wf) (ht ▸ inv.users.fresh_room hfresh) fd p

/-- User A has logged out, been refused with a wrong password and logged in again. -/
theorem credentialLaw_run_sample : CredentialLaw sampleRelogin
    ((exec Server.step Credentialed Server.start sampleRelogin).get (by decide)).1 :=
  credentialLaw_run (run_of_isSome (by decide))

end ZBid
