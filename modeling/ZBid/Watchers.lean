import ZBid.Price
import Mathlib.Data.List.Dedup

/-!
# The watchers of an auction

`numberOfWatchers` repeats the length of the watchers list. It starts from whatever `malloc` left
in the record, and ANWATCH looks neither for the user in the list nor for a NULL name. As long as
the memory starts at 0 and nobody watches an auction twice, the count and the list agree.
-/
namespace ZBid

open CInt CString Runs

/-- The requester of an ANWATCH has a name that is not on the watchers list yet. -/
def NewWatcher (s : Server) (job : Job) : Prop :=
  ∀ user ∈ findUsername s job.clientfd, ∀ x ∈ s.listed, x.id = atoi (cstr job.jobBuffer) →
    ∃ name ∈ user.username, name.text ∉ x.watchers.nodes.map CharPtr.text

/-- A step that keeps the counts right. -/
def Careful (s : Server) : Action → Prop
  | .accept fd _ _ => FreshFd s fd
  | .job env job => (Creates job → env.malloc.numberOfWatchers = 0) ∧
      (MsgType.ofCode job.jobMsgType = some .ANWATCH → NewWatcher s job)
  | .tick => True

instance (s : Server) (job : Job) : Decidable (NewWatcher s job) :=
  inferInstanceAs (Decidable (∀ user ∈ findUsername s job.clientfd, ∀ x ∈ s.listed,
    x.id = atoi (cstr job.jobBuffer) → _))

instance (s : Server) : ∀ action, Decidable (Careful s action)
  | .accept fd _ _ => inferInstanceAs (Decidable (FreshFd s fd))
  | .job _ job => inferInstanceAs (Decidable ((Creates job → _) ∧ (_ → NewWatcher s job)))
  | .tick => inferInstanceAs (Decidable True)

structure Watched (s : Server) (x : Auction) : Prop where
  named : ∀ w ∈ x.watchers.nodes, s.Names (some w)
  distinct : x.watchers.nodes.Nodup
  count : x.numberOfWatchers = x.watchers.nodes.length

structure WatchInv (s : Server) : Prop where
  users : UserInv s
  store : StoreInv s
  watched : ∀ (k : Nat) (x : Auction), s.auctions[k]? = some x → Watched s x

theorem watchInv_start : WatchInv Server.start where
  users := userInv_start
  store := storeInv_start
  watched := by simp [Server.start]

/-- There are at most as many watchers as users, so their number is an int. -/
theorem watchers_le {s : Server} (users : UserInv s) {ws : List CharPtr} (hn : ws.Nodup)
    (hnames : ∀ w ∈ ws, s.Names (some w)) : (ws.length : Int) ≤ intMax := by
  have hsub : ws.map some ⊆ s.users.map User.username := by
    intro name hname
    obtain ⟨w, hw, rfl⟩ := List.mem_map.mp hname
    exact List.mem_map.mpr (hnames w hw)
  have hnodup : (ws.map some).Nodup := hn.map (Option.some_injective _)
  have hle := (hnodup.subperm hsub).length_le
  rw [List.length_map, List.length_map] at hle
  have hmax := users.length_lt
  omega

theorem Watched.texts {s : Server} {x : Auction} (users : UserInv s) (inv : Watched s x) :
    (x.watchers.nodes.map CharPtr.text).Nodup := by
  refine inv.distinct.map_on fun v hv w hw h => ?_
  obtain ⟨t, ht, htv⟩ := inv.named v hv
  obtain ⟨u, hu, huw⟩ := inv.named w hw
  have hsame : t = u := users.name_inj ht hu (by simp [htv, huw, nameText, h])
  rw [hsame, huw] at htv
  exact (Option.some.inj htv).symm

theorem userIndexLoop_spec {name : CharStar} {ws : List CharPtr} {i r : Int}
    (h : userIndexLoop name i ws = some r) :
    r = -1 ∨ ∃ (k : Nat) (w : CharPtr), ws[k]? = some w ∧ r = i + k ∧
      strcmpEq name (some w) = some true := by
  induction ws generalizing i with
  | nil =>
    simp only [userIndexLoop, Option.some.injEq] at h
    exact Or.inl h.symm
  | cons w ws ih =>
    simp only [userIndexLoop, Option.bind_eq_bind, Option.bind_eq_some_iff] at h
    obtain ⟨b, hb, h⟩ := h
    cases b with
    | true =>
      simp only [↓reduceIte, Option.some.injEq] at h
      exact Or.inr ⟨0, w, rfl, by simp [h], hb⟩
    | false =>
      simp only [Bool.false_eq_true, ↓reduceIte] at h
      rcases ih h with hr | ⟨k, v, hv, hr, hcmp⟩
      · exact Or.inl hr
      · exact Or.inr ⟨k + 1, v, hv, by rw [hr]; push_cast; omega, hcmp⟩

/-- An ANLEAVE that goes through takes out one entry, the user's. -/
theorem leave_spec {x : Auction} {name : CharStar} {index : Int} {removed : Option CharPtr}
    {watchers : LinkedList CharPtr} (wf : x.watchers.WF)
    (hindex : findUserIndex x.watchers name = some index)
    (hrem : removeByIndex x.watchers index = some (removed, watchers)) :
    ∃ (k : Nat) (w : CharPtr), x.watchers.nodes[k]? = some w ∧
      strcmpEq name (some w) = some true ∧ watchers.nodes = x.watchers.nodes.eraseIdx k := by
  rcases userIndexLoop_spec hindex with rfl | ⟨k, w, hw, rfl, hcmp⟩
  · rw [removeByIndex_neg wf (by decide)] at hrem
    cases hrem
  · have hk := (List.getElem?_eq_some_iff.mp hw).1
    rw [Int.zero_add, removeByIndex_nat wf hk, Option.some.injEq, Prod.mk.injEq] at hrem
    exact ⟨k, w, hw, hcmp, by rw [← hrem.2]⟩

theorem watched_change {s : Server} {action : Action} {k : Nat} {x y : Auction}
    (inv : WatchInv s) (hx : s.auctions[k]? = some x) (hok : Careful s action)
    (h : RecordChange s action k x y) : Watched s y := by
  have hwf := (inv.store.records k x hx).watchers
  have old := inv.watched k x hx
  have hnamed := watchers_change hwf old.named h
  cases h with
  | watched user watchers htype hid hmem huser hins =>
    have hlisted : x ∈ s.listed := by
      rw [Server.listed, List.mem_filterMap]
      exact ⟨k, hmem, hx⟩
    obtain ⟨name, hname, hnew⟩ := hok.2 htype user huser x hlisted hid
    obtain ⟨hnodes, -⟩ := insertAtTail_spec hwf (hname ▸ hins)
    have hdistinct : (x.watchers.nodes ++ [name]).Nodup := by
      refine List.nodup_append.mpr ⟨old.distinct, List.nodup_singleton name, ?_⟩
      intro v hv w hw hvw
      rw [List.mem_singleton] at hw
      exact hnew (List.mem_map.mpr ⟨v, hv, by rw [hvw, hw]⟩)
    have hmax := watchers_le inv.users (hnodes ▸ hdistinct) hnamed
    refine ⟨hnamed, hnodes ▸ hdistinct, ?_⟩
    simp only [Auction.withWatchers, hnodes, List.length_append, List.length_singleton,
      old.count] at hmax ⊢
    rw [wrap32_of_inInt ⟨by simp only [intMin]; omega, by push_cast at hmax; exact hmax⟩]
    push_cast
    rfl
  | left user index removed watchers _ _ _ _ hindex hrem =>
    obtain ⟨j, w, hw, -, hnodes⟩ := leave_spec hwf hindex hrem
    have hj := (List.getElem?_eq_some_iff.mp hw).1
    have hmax := watchers_le inv.users old.distinct old.named
    refine ⟨hnamed, hnodes ▸ old.distinct.sublist (List.eraseIdx_sublist _ _), ?_⟩
    simp only [Auction.withWatchers, hnodes, List.length_eraseIdx_of_lt hj, old.count]
    rw [wrap32_of_inInt ⟨by simp only [intMin]; omega, by omega⟩]
    omega
  | _ => exact ⟨hnamed, old.distinct, old.count⟩

theorem watchInv_step {s s' : Server} {action : Action} {out : List Event} (inv : WatchInv s)
    (hok : Careful s action) (h : Effect s action s' out) : WatchInv s' where
  users := by
    have hadmits : s.Admits (fun _ _ => True) action := by
      cases action with
      | accept => exact hok
      | _ => trivial
    exact userInv_step inv.users hadmits h
  store := storeInv_step inv.store h
  watched := by
    intro k y hy
    have hnames := effect_names inv.users h
    rcases effect_record inv.store.toListInv h hy with ⟨x, hx, hchange⟩ | ⟨-, hnew⟩
    · have hwatched := watched_change inv hx hok hchange
      exact ⟨fun w hw => Names.mono hnames (hwatched.named w hw), hwatched.distinct,
        hwatched.count⟩
    · cases hnew with
      | mk name duration price us creator htype hargs hname hd _ hp =>
        have hzero := hok.1 (creates_of_args htype hargs hname hd hp)
        exact ⟨by simp [newAuction, createList], List.nodup_nil, hzero⟩

/-- The number of distinct usernames on the watchers list. -/
def Auction.watching (x : Auction) : Nat := (x.watchers.nodes.map CharPtr.text).dedup.length

/-- The descriptors that a log sends messages of one type to, in order. -/
def notices (t : MsgType) (out : List Event) : List Int :=
  out.filterMap fun
    | .sent m => if m.msgType = t then some m.fd else none
    | _ => none

theorem notices_append (t : MsgType) (xs ys : List Event) :
    notices t (xs ++ ys) = notices t xs ++ notices t ys := List.filterMap_append

theorem notices_cons (t : MsgType) (a : Nat) (bidder : CharStar) (amount : Int)
    (out : List Event) : notices t (.accepted a bidder amount :: out) = notices t out := rfl

theorem notices_map (t : MsgType) (fds : List Int) (body : Text) :
    notices t (fds.map fun fd => message fd t body) = fds := by
  simp [notices, message, List.filterMap_map]

theorem FdsOf.mem_right {us : List User} {ws : List CharPtr} {fds : List Int}
    (h : FdsOf us ws fds) : ∀ fd ∈ fds, ∃ w ∈ ws, ∃ u ∈ us, u.username = some w ∧ u.fd = fd := by
  induction h with
  | nil => simp
  | @cons w fd ws fds hw _ ih =>
    intro fd' hfd'
    rcases List.mem_cons.mp hfd' with rfl | hfd'
    · exact ⟨w, List.mem_cons_self, hw⟩
    · obtain ⟨v, hv, hof⟩ := ih fd' hfd'
      exact ⟨v, List.mem_cons_of_mem _ hv, hof⟩

/-- Different watchers have different descriptors. -/
theorem FdsOf.nodup {s : Server} (users : UserInv s) {ws : List CharPtr} {fds : List Int}
    (h : FdsOf s.users ws fds) (hn : ws.Nodup) : fds.Nodup := by
  induction h with
  | nil => exact List.nodup_nil
  | @cons w fd ws fds hw hrest ih =>
    obtain ⟨hnot, hws⟩ := List.nodup_cons.mp hn
    refine List.nodup_cons.mpr ⟨fun hmem => ?_, ih hws⟩
    obtain ⟨u, hu, hname, hfd⟩ := hw
    obtain ⟨v, hv, u', hu', hname', hfd'⟩ := FdsOf.mem_right hrest fd hmem
    have hsame : u = u' := users.fd_inj hu hu' (hfd.trans hfd'.symm)
    rw [hsame, hname', Option.some.injEq] at hname
    exact hnot (hname ▸ hv)

structure WatchLaw (s : Server) : Prop where
  count : ∀ x ∈ s.listed, x.numberOfWatchers = x.watchers.nodes.length
  distinct : ∀ x ∈ s.listed, (x.watchers.nodes.map CharPtr.text).Nodup
  reported : ∀ fd s' out, listAuctions s fd = some (s', out) → s.auctionsList.nodes ≠ [] →
    out = [message fd .ANLIST
      (s.listed.flatMap fun x => auctionInfo { x with numberOfWatchers := x.watching })]

/-- What a request tells the watchers: a bid that is accepted is announced once to each of them,
as ANUPDATE or, when it buys the auction out, as ANCLOSED; and an ANLEAVE takes the user off. -/
structure NoticeLaw (s : Server) (job : Job) (s' : Server) (out : List Event) : Prop where
  bid : ∀ a w amount, .accepted a w amount ∈ out → ∃ x fds, s.auctions[a]? = some x ∧
    FdsOf s.users x.watchers.nodes fds ∧ fds.Nodup ∧
    (.closed a ∉ out → notices .ANUPDATE out = fds) ∧
    (.closed a ∈ out → notices .ANCLOSED out = fds)
  left : MsgType.ofCode job.jobMsgType = some .ANLEAVE →
    ∀ user, findUsername s job.clientfd = some user → ∀ x ∈ s'.listed,
      x.id = atoi (cstr job.jobBuffer) →
      ∀ w ∈ x.watchers.nodes, nameText user.username ≠ some w.text

theorem WatchInv.law {s : Server} (inv : WatchInv s) : WatchLaw s := by
  have hwatched : ∀ x ∈ s.listed, Watched s x := by
    intro x hx
    obtain ⟨k, -, hget⟩ := mem_listed hx
    exact inv.watched k x hget
  have htexts : ∀ x ∈ s.listed, (x.watchers.nodes.map CharPtr.text).Nodup :=
    fun x hx => (hwatched x hx).texts inv.users
  refine ⟨fun x hx => (hwatched x hx).count, htexts, ?_⟩
  intro fd s' out h hne
  simp only [listAuctions, report, if_neg hne, Option.bind_eq_bind, Option.bind_eq_some_iff,
    Option.some.injEq, Prod.mk.injEq] at h
  obtain ⟨lines, hlines, body, hbody, -, rfl⟩ := h
  rw [fits_eq_some hbody, infoLines_eq hlines]
  have hsame : s.listed.flatMap auctionInfo =
      s.listed.flatMap fun x => auctionInfo { x with numberOfWatchers := x.watching } := by
    refine List.flatMap_congr fun x hx => ?_
    have hcount : x.numberOfWatchers = x.watching := by
      rw [(hwatched x hx).count, Auction.watching, (htexts x hx).dedup, List.length_map]
    rw [← hcount]
  rw [← hsame]
  rfl

/-- Nobody on a watchers list lacks a descriptor. -/
theorem FdsOf.sendable {s : Server} (users : UserInv s) {ws : List CharPtr} {fds : List Int}
    (h : FdsOf s.users ws fds) : fds.filter (· ≠ -1) = fds := by
  refine List.filter_eq_self.mpr fun fd hfd => ?_
  obtain ⟨w, -, u, hu, -, rfl⟩ := h.mem_right fd hfd
  have hpos := (users.fdsRange u hu).1
  simp only [ne_eq, decide_eq_true_eq]
  omega

/-- The messages of a raise reach every watcher. -/
theorem raise_notices {s : Server} {ws : List CharPtr} {fds : List Int} (users : UserInv s)
    (hnamed : ∀ w ∈ ws, s.Names (some w)) (hfds : watcherFds s ws = some fds) (a : Nat)
    (bidder : CharStar) (amount : Int) (body : Text) (fd : Int) :
    FdsOf s.users ws fds ∧ notices .ANUPDATE (.accepted a bidder amount ::
      (fds.filter (· ≠ -1)).map (fun fd => message fd .ANUPDATE body) ++ [answer fd .OK]) =
        fds := by
  have hof := watcherFds_spec users hnamed hfds
  refine ⟨hof, ?_⟩
  rw [hof.sendable users, notices_append, notices_cons, notices_map]
  simp [notices, answer]

/-- The messages of a close reach every watcher. -/
theorem close_notices {s s' : Server} {a : Nat} {x : Auction} {out : List Event}
    (users : UserInv s) (hnamed : ∀ w ∈ x.watchers.nodes, s.Names (some w))
    (hx : s.auctions[a]? = some x) (h : closeAuction s a = some (s', out)) :
    ∃ fds, FdsOf s.users x.watchers.nodes fds ∧ notices .ANCLOSED out = fds := by
  obtain ⟨values, fds, rfl, hvalues, hof⟩ := closeAuction_log users hnamed hx h
  refine ⟨fds, hof, ?_⟩
  have hnone : notices .ANCLOSED (.closed a :: values) = [] := by
    rw [notices, List.filterMap_eq_nil_iff]
    intro e he
    rcases List.mem_cons.mp he with rfl | he
    · rfl
    · obtain ⟨v, rfl | rfl⟩ := hvalues e he <;> rfl
  rw [notices_append, hnone, notices_map, List.nil_append]

theorem noticeLaw_bid {s s' : Server} {action : Action} {out : List Event} (inv : WatchInv s)
    (h : Effect s action s' out) (a : Nat) (w : CharStar) (amount : Int)
    (hacc : .accepted a w amount ∈ out) :
    ∃ x fds, s.auctions[a]? = some x ∧ FdsOf s.users x.watchers.nodes fds ∧ fds.Nodup ∧
      (.closed a ∉ out → notices .ANUPDATE out = fds) ∧
      (.closed a ∈ out → notices .ANCLOSED out = fds) := by
  have hquiet : bidsOn a out ≠ [] := by
    intro hnone
    have hin : (w, amount) ∈ bidsOn a out := List.mem_filterMap.mpr ⟨_, hacc, by simp⟩
    simp [hnone] at hin
  cases h with
  | accept hacc' => cases hacc' <;> exact absurd rfl hquiet
  | quiet hout => exact absurd (bidsOn_messages hout) hquiet
  | logout => exact absurd rfl hquiet
  | create => exact absurd rfl hquiet
  | watch => exact absurd rfl hquiet
  | leave => exact absurd rfl hquiet
  | @raise env job b x user bid fds name _ _ hon _ _ _ hfds =>
    obtain rfl : b = a := by
      by_contra hne
      rw [List.cons_append, bidsOn_cons, bidsOn_accepted, if_neg hne] at hquiet
      exact hquiet (bidsOn_messages (messages_append (messages_map _ _ _)
        (messages_answer job.clientfd .OK)))
    have hold := inv.watched b x hon.record
    have users : UserInv (s.setAuction b (x.withBid user.username bid)) :=
      inv.users.of_users rfl rfl rfl
    obtain ⟨hof, hnotices⟩ := raise_notices users hold.named hfds b user.username bid
      (updateBody (x.withBid user.username bid) name) job.clientfd
    refine ⟨x, fds, hon.record, hof, hof.nodup users hold.distinct, fun _ => hnotices, ?_⟩
    intro hclosed
    have hmem := mem_closings.mpr hclosed
    rw [closings_raise] at hmem
    cases hmem
  | @buy env job b x user bid s₁ _ out _ _ hon _ _ hclose =>
    obtain rfl : b = a := by
      by_contra hne
      rw [bidsOn_cons, bidsOn_accepted, if_neg hne, closeAuction_bids hclose] at hquiet
      exact hquiet rfl
    have hold := inv.watched b x hon.record
    have users : UserInv (s.setAuction b (x.withBid user.username bid)) :=
      inv.users.of_users rfl rfl rfl
    obtain ⟨fds, hof, hnotices⟩ := close_notices (x := x.withBid user.username bid) users
      hold.named (setAuction_get _ hon.record) hclose
    refine ⟨x, fds, hon.record, hof, hof.nodup users hold.distinct, ?_, fun _ => hnotices⟩
    intro hopen
    have hone := mem_closings.mp ((closeAuction_closings hclose).symm ▸ List.mem_singleton_self b)
    exact absurd (List.mem_cons_of_mem _ hone) hopen
  | tick h =>
    cases tick_outcome inv.store.toListInv h with
    | quiet => exact absurd rfl hquiet
    | expire _ _ _ _ _ _ _ _ _ _ hclose => exact absurd (closeAuction_bids hclose a) hquiet

/-- When no name repeats, the entry that `strcmp` found is the only one with the name. -/
theorem name_erased {ws : List CharPtr} {name : CharStar} {k : Nat} {v : CharPtr}
    (htexts : (ws.map CharPtr.text).Nodup) (hv : ws[k]? = some v)
    (hcmp : strcmpEq name (some v) = some true) :
    ∀ w ∈ ws.eraseIdx k, nameText name ≠ some w.text := by
  intro w hw hname
  obtain ⟨p, q, hp, hq, hpq⟩ := strcmpEq_true hcmp
  obtain ⟨i, hik, hi⟩ := List.mem_eraseIdx_iff_getElem?.mp hw
  have htext : w.text = v.text := by
    rw [hp] at hname
    rw [← Option.some.inj hq] at hpq
    exact (Option.some.inj hname).symm.trans hpq
  exact hik (index_inj htexts hi hv htext)

/-- After an ANLEAVE the user's name is no longer on the list. -/
theorem noticeLaw_left {s s' : Server} {env : JobEnv} {job : Job} {out : List Event}
    (inv : WatchInv s) (h : processJob s env job = some (s', out))
    (htype : MsgType.ofCode job.jobMsgType = some .ANLEAVE) {user : User}
    (huser : findUsername s job.clientfd = some user) {y : Auction} (hy : y ∈ s'.listed)
    (hid : y.id = atoi (cstr job.jobBuffer)) :
    ∀ w ∈ y.watchers.nodes, nameText user.username ≠ some w.text := by
  simp only [processJob, htype, leaveAuction, huser, Option.bind_eq_bind, Option.bind_some,
    Option.bind_eq_some_iff] at h
  obtain ⟨found, hfound, h⟩ := h
  obtain ⟨k, hk, hget⟩ := mem_listed hy
  cases found with
  | none =>
    simp only [Option.some.injEq, Prod.mk.injEq] at h
    obtain ⟨rfl, -⟩ := h
    exact absurd hid (findById_none hfound k hk y hget)
  | some a =>
    obtain ⟨hmem, x, hx, hxid⟩ := findById_some hfound
    simp only [hx, Option.bind_some, Option.bind_eq_some_iff, Option.some.injEq,
      Prod.mk.injEq] at h
    obtain ⟨index, hindex, ⟨removed, watchers⟩, hrem, rfl, -⟩ := h
    have hka : k = a := by
      have hka := inv.store.ids a x hx
      rcases setAuction_cases hx hget with ⟨rfl, -⟩ | hy
      · rfl
      · have := inv.store.ids k y hy
        omega
    subst hka
    rw [setAuction_get _ hx, Option.some.injEq] at hget
    subst hget
    obtain ⟨j, v, hv, hcmp, hnodes⟩ := leave_spec (inv.store.records k x hx).watchers hindex hrem
    have htexts := (inv.watched k x hx).texts inv.users
    simp only [hnodes]
    exact name_erased htexts hv hcmp

theorem watchInv_run {as : List Action} {tr : List Event} {s : Server}
    (run : Run Server.step Careful Server.start as tr s) : WatchInv s :=
  run.invariant_state watchInv_start fun inv hok hs => watchInv_step inv hok (step_effect hs)

/-- The watchers law, for every run in which fresh records start with a count of 0 and nobody
asks to watch an auction again. -/
theorem watchLaw_run {as : List Action} {tr : List Event} {s : Server}
    (run : Run Server.step Careful Server.start as tr s) :
    WatchLaw s ∧ ∀ env job s' out, Server.step s (.job env job) = some (s', out) →
      NoticeLaw s job s' out := by
  have inv := watchInv_run run
  refine ⟨inv.law, fun env job s' out hs => ⟨noticeLaw_bid inv (step_effect hs), ?_⟩⟩
  intro htype user huser x hx hid
  exact noticeLaw_left inv hs htype huser hx hid

theorem watchLaw_run_sample :
    WatchLaw ((exec Server.step Careful Server.start sampleBid).get (by decide)).1 :=
  (watchLaw_run (run_of_isSome (by decide))).1

/-- B asks twice to watch the auction. -/
def sampleWatchTwice : List Action :=
  sampleLogins ++ [sampleJob .ANCREATE 4 ['V', '\r', '\n', '3', '\r', '\n', '5', '0'],
    sampleJob .ANWATCH 5 ['1'], sampleJob .ANWATCH 5 ['1']]

/-- A user who asks twice is on the list twice. -/
theorem watchLaw_fails : ¬ ∀ as tr s,
    Run Server.step (Server.Admits LoggedIn) Server.start as tr s → WatchLaw s := by
  intro claim
  have run : Run Server.step (Server.Admits LoggedIn) Server.start sampleWatchTwice _
      ((exec Server.step (Server.Admits LoggedIn) Server.start sampleWatchTwice).get
        (by decide)).1 := run_of_isSome (by decide)
  have law := claim _ _ _ run
  exact absurd law.distinct (by decide)

end ZBid
