import ZBid.Parties

/-!
# One record for each user

The code looks a user up by descriptor in some places and by name in others, and takes the first
match, the last or all of them. As long as no LOGIN leaves a field out and `accept` returns
descriptors that are not open, all of these denote the same record.
-/
namespace ZBid

open CInt CString Runs

/-- A LOGIN brings a name and a password. Nothing else is asked of a step but that `accept`
returns a descriptor that is not open. -/
def Credentialed (s : Server) : Action → Prop
  | .accept clientFd msgType body => FreshFd s clientFd ∧ (msgType = MsgType.LOGIN.code →
      (loginArgs (cstr body)).1 ≠ none ∧ (loginArgs (cstr body)).2 ≠ none)
  | .job _ _ => True
  | .tick => True

instance Server.decidableCredentialed (s : Server) : ∀ action, Decidable (Credentialed s action)
  | .accept _ _ _ => inferInstanceAs (Decidable (_ ∧ (_ → _ ∧ _)))
  | .job _ _ => inferInstanceAs (Decidable True)
  | .tick => inferInstanceAs (Decidable True)

theorem Credentialed.admits {s : Server} {action : Action} (h : Credentialed s action) :
    s.Admits (fun _ _ => True) action := by
  cases action with
  | accept => exact h.1
  | _ => trivial

/-- Everybody has a name, and the names and the descriptors are as in `UserInv`. -/
structure NamedInv (s : Server) : Prop where
  users : UserInv s
  named : ∀ u ∈ s.users, u.username ≠ none

theorem namedInv_start : NamedInv Server.start where
  users := userInv_start
  named := by simp [Server.start, Server.users, createList]

theorem namedInv_step {s s' : Server} {action : Action} {out : List Event} (inv : NamedInv s)
    (hok : Credentialed s action) (h : Effect s action s' out) : NamedInv s' := by
  refine ⟨userInv_step inv.users hok.admits h, ?_⟩
  have hold : ∀ name ∈ s.users.map User.username, name ≠ none := by
    intro name hname
    obtain ⟨u, hu, rfl⟩ := List.mem_map.mp hname
    exact inv.named u hu
  intro u hu
  have hmem : u.username ∈ s'.users.map User.username := List.mem_map_of_mem hu
  rcases effect_usernames inv.users h with hsame | ⟨fd, body, rfl, -, hnew⟩
  · exact hold _ (hsame ▸ hmem)
  · rw [hnew, List.mem_append, List.mem_singleton] at hmem
    rcases hmem with hmem | hname
    · exact hold _ hmem
    · rw [hname, loginName, ne_eq, Option.map_eq_none_iff]
      exact (hok.2 rfl).1

/-- The scan by name stops at the record that has the name. -/
theorem scanByName_index {us : List User} (named : ∀ u ∈ us, u.username ≠ none)
    (names : (us.map fun u => nameText u.username).Nodup) {i : Nat} {u : User}
    (hu : us[i]? = some u) : scanByName u.username us = some (some i) := by
  induction us generalizing i with
  | nil => simp at hu
  | cons v us ih =>
    obtain ⟨q, hq⟩ := Option.ne_none_iff_exists'.mp (named v List.mem_cons_self)
    obtain ⟨p, hp⟩ := Option.ne_none_iff_exists'.mp (named u (List.mem_of_getElem? hu))
    rw [List.map_cons, List.nodup_cons] at names
    cases i with
    | zero =>
      obtain rfl : v = u := by simpa using hu
      simp [scanByName, hp, strcmpEq]
    | succ i =>
      have hrest : us[i]? = some u := by simpa using hu
      have hne : p.text ≠ q.text := by
        intro htext
        have hmem := List.mem_map_of_mem (f := fun u => nameText u.username)
          (List.mem_of_getElem? hrest)
        simp only [nameText, hp, hq, Option.map_some, htext] at hmem names
        exact names.1 hmem
      have hscan := ih (fun w hw => named w (List.mem_cons_of_mem _ hw)) names.2 hrest
      simp only [hp] at hscan ⊢
      simp [scanByName, hq, strcmpEq, hne, hscan]

theorem ownerScan_none {fd : Int} {a : Nat} {us : List User} (h : ∀ u ∈ us, u.fd ≠ fd)
    (creator : CharStar) : ownerScan fd a us creator = some (us, creator) := by
  induction us with
  | nil => rfl
  | cons u us ih =>
    have hrest := ih fun v hv => h v (List.mem_cons_of_mem _ hv)
    simp [ownerScan, h u List.mem_cons_self, hrest]

/-- The loop over all records changes one, and makes its user the creator. -/
theorem ownerScan_index {us : List User} (fds : (us.map User.fd).Nodup) {i : Nat} {u : User}
    (hu : us[i]? = some u) (a : Nat) (creator : CharStar) :
    ownerScan u.fd a us creator = (insertAtTail u.auctionsOwned (some a)).map fun owned =>
      (us.set i { u with auctionsOwned := owned }, u.username) := by
  induction us generalizing i creator with
  | nil => simp at hu
  | cons v us ih =>
    rw [List.map_cons, List.nodup_cons] at fds
    cases i with
    | zero =>
      obtain rfl : v = u := by simpa using hu
      have hno : ∀ w ∈ us, w.fd ≠ v.fd := by
        intro w hw hfd
        exact fds.1 (hfd ▸ List.mem_map_of_mem hw)
      simp only [ownerScan, ↓reduceIte, ownerScan_none hno, Option.bind_eq_bind, Option.bind_some,
        List.set_cons_zero]
      cases insertAtTail v.auctionsOwned (some a) <;> rfl
    | succ i =>
      have hrest : us[i]? = some u := by simpa using hu
      have hne : v.fd ≠ u.fd := by
        intro hfd
        exact fds.1 (hfd ▸ List.mem_map_of_mem (List.mem_of_getElem? hrest))
      simp only [ownerScan, if_neg hne, ih fds.2 hrest, Option.bind_eq_bind, List.set_cons_succ]
      cases insertAtTail u.auctionsOwned (some a) <;> rfl

/-- Every search for the user at position `i` of the list ends at that position. -/
structure Denotes (s : Server) (i : Nat) (u : User) : Prop where
  byFd : findUsername s u.fd = some u
  logout : logout s u.fd = (s.setUser i { u with loginFlag := false }, [answer u.fd .OK])
  wins : usersWins s u.fd = report s u.fd .USRWINS usersWinsInfo u.auctionsWon
  sales : usersSales s u.fd = report s u.fd .USRSALES usersSalesInfo u.auctionsOwned
  owner : ∀ a creator, ownerScan u.fd a s.users creator =
    (insertAtTail u.auctionsOwned (some a)).map fun owned =>
      (s.users.set i { u with auctionsOwned := owned }, u.username)
  byName : findUserStruct s u.username = some (some i)
  clientFd : findClientFd s u.username = some u.fd

structure IdentityLaw (s : Server) : Prop where
  named : ∀ u ∈ s.users, u.username ≠ none
  names : (s.users.map fun u => nameText u.username).Nodup
  fds : (s.users.map User.fd).Nodup
  denotes : ∀ (i : Nat) (u : User), s.users[i]? = some u → Denotes s i u

theorem NamedInv.denotes {s : Server} (inv : NamedInv s) {i : Nat} {u : User}
    (hu : s.users[i]? = some u) : Denotes s i u := by
  have hfind := inv.users.findUsername_eq (List.mem_of_getElem? hu)
  have hscan := scanByName_index inv.named inv.users.names hu
  constructor
  · exact hfind
  · rcases logout_spec s u.fd with ⟨-, hno⟩ | ⟨j, v, hv, hfd, hlogout⟩
    · exact absurd rfl (hno u (List.mem_of_getElem? hu))
    · obtain rfl := index_inj inv.users.fds hu hv hfd.symm
      obtain rfl : u = v := Option.some.inj (hu.symm.trans hv)
      exact hlogout
  · simp [usersWins, hfind]
  · simp [usersSales, hfind]
  · exact ownerScan_index inv.users.fds hu
  · exact hscan
  · simp [findClientFd, hscan, hu]

/-- The identity law, for every sequence of connections, logins, requests and ticks. -/
theorem identityLaw_run {as : List Action} {tr : List Event} {s : Server}
    (run : Run Server.step Credentialed Server.start as tr s) : IdentityLaw s := by
  have inv : NamedInv s := run.invariant_state namedInv_start fun inv hok hs =>
    namedInv_step inv hok (step_effect hs)
  exact ⟨inv.named, inv.users.names, inv.users.fds, fun i u hu => inv.denotes hu⟩

/-- User A logs out and in again on another descriptor, after a refused LOGIN. -/
def sampleRelogin : List Action :=
  sampleLogins ++ [sampleJob .LOGOUT 4 [],
    .accept 6 MsgType.LOGIN.code ['A', '\r', '\n', 'z'],
    .accept 6 MsgType.LOGIN.code ['A', '\r', '\n', 'x']]

theorem identityLaw_run_sample :
    IdentityLaw ((exec Server.step Credentialed Server.start sampleRelogin).get (by decide)).1 :=
  identityLaw_run (run_of_isSome (by decide))

end ZBid
