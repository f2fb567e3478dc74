import ZBid.Effects
import Mathlib.Data.List.Forall2
import Mathlib.Data.List.Nodup
import Mathlib.Order.Interval.Finset.Nat
import Mathlib.Data.Int.Interval

/-!
# One record for each name and each descriptor

The names, the username pointers and the descriptors in `usersList` are pairwise distinct as long
as `accept` hands out descriptors that are not open. A NULL name can only be stored in the first
record, and then no other login gets past `strcmp`.
-/
namespace ZBid

open CInt CString Runs

/-- What the invariant looks at in a user record. -/
def User.key (u : User) : CharStar × Int := (u.username, u.fd)

def nameText (name : CharStar) : Option Text := name.map CharPtr.text
def nameBlock (name : CharStar) : Option Nat := name.map CharPtr.block

structure UserInv (s : Server) : Prop where
  wf : s.usersList.WF
  names : (s.users.map fun u => nameText u.username).Nodup
  blocks : (s.users.map fun u => nameBlock u.username).Nodup
  blocksLt : ∀ u ∈ s.users, ∀ p, u.username = some p → p.block < s.blocks
  fds : (s.users.map User.fd).Nodup
  fdsOpen : ∀ u ∈ s.users, u.fd ∈ s.openFds
  fdsRange : ∀ u ∈ s.users, 0 < u.fd ∧ u.fd ≤ intMax
  stdin : 0 ∈ s.openFds

theorem userInv_start : UserInv Server.start := by
  constructor <;> simp [Server.start, Server.users, createList, LinkedList.WF]

/-- Lists that agree under `f` agree under everything that depends on `f` alone. -/
theorem map_congr_of_map {α β γ : Type} {xs ys : List α} {f : α → β} (g : β → γ)
    (h : xs.map f = ys.map f) : xs.map (fun x => g (f x)) = ys.map (fun x => g (f x)) := by
  have := congrArg (List.map g) h
  rw [List.map_map, List.map_map] at this
  exact this

/-- Only names and descriptors matter, and the fresh supplies may grow. -/
theorem UserInv.of_keys {s s' : Server} (inv : UserInv s)
    (hkeys : s'.users.map User.key = s.users.map User.key)
    (hlen : s'.usersList.length = s.usersList.length) (hblocks : s.blocks ≤ s'.blocks)
    (hopen : ∀ fd ∈ s.openFds, fd ∈ s'.openFds) : UserInv s' := by
  have hnames : s'.users.map (fun u => nameText u.username) =
      s.users.map (fun u => nameText u.username) := map_congr_of_map (fun k => nameText k.1) hkeys
  have hptrs : s'.users.map (fun u => nameBlock u.username) =
      s.users.map (fun u => nameBlock u.username) :=
    map_congr_of_map (fun k => nameBlock k.1) hkeys
  have hfds : s'.users.map User.fd = s.users.map User.fd := map_congr_of_map Prod.snd hkeys
  have hsame : ∀ u ∈ s'.users, ∃ v ∈ s.users, v.username = u.username ∧ v.fd = u.fd := by
    intro u hu
    have hmem : u.key ∈ s.users.map User.key := hkeys ▸ List.mem_map_of_mem hu
    obtain ⟨v, hv, heq⟩ := List.mem_map.mp hmem
    simp only [User.key, Prod.mk.injEq] at heq
    exact ⟨v, hv, heq⟩
  constructor
  · have hnodes : s'.users.length = s.users.length := by simpa using congrArg List.length hkeys
    exact hlen.trans (inv.wf.trans (congrArg Nat.cast hnodes.symm))
  · rw [hnames]
    exact inv.names
  · rw [hptrs]
    exact inv.blocks
  · intro u hu p hp
    obtain ⟨v, hv, hname, -⟩ := hsame u hu
    have := inv.blocksLt v hv p (hname.trans hp)
    omega
  · rw [hfds]
    exact inv.fds
  · intro u hu
    obtain ⟨v, hv, -, hfd⟩ := hsame u hu
    exact hfd ▸ hopen _ (inv.fdsOpen v hv)
  · intro u hu
    obtain ⟨v, hv, -, hfd⟩ := hsame u hu
    exact hfd ▸ inv.fdsRange v hv
  · exact hopen 0 inv.stdin

/-- A state with the same users. -/
theorem UserInv.of_users {s s' : Server} (inv : UserInv s) (husers : s'.usersList = s.usersList)
    (hblocks : s'.blocks = s.blocks) (hopen : s'.openFds = s.openFds) : UserInv s' := by
  have hsame : s'.users = s.users := congrArg LinkedList.nodes husers
  refine inv.of_keys (by rw [hsame]) (by rw [husers]) hblocks.ge ?_
  rw [hopen]
  exact fun _ h => h

/-- Positions of a list whose images under `f` are distinct. -/
theorem index_inj {α β : Type} {us : List α} {f : α → β} (h : (us.map f).Nodup) {i j : Nat}
    {u v : α} (hi : us[i]? = some u) (hj : us[j]? = some v) (he : f u = f v) : i = j := by
  have hlt : i < (us.map f).length := by
    rw [List.length_map]
    exact (List.getElem?_eq_some_iff.mp hi).1
  exact (List.getElem?_inj hlt h).mp (by simp [hi, hj, he])

theorem record_inj {β : Type} {us : List User} {f : User → β} (h : (us.map f).Nodup)
    {u v : User} (hu : u ∈ us) (hv : v ∈ us) (he : f u = f v) : u = v := by
  obtain ⟨i, hi⟩ := List.getElem?_of_mem hu
  obtain ⟨j, hj⟩ := List.getElem?_of_mem hv
  obtain rfl := index_inj h hi hj he
  simpa [hi] using hj

/-- A text equal to the name of a record is that record's. -/
theorem UserInv.cmp_inj {s : Server} (inv : UserInv s) {u v : User} (hu : u ∈ s.users)
    (hv : v ∈ s.users) (h : strcmpEq u.username v.username = some true) : u = v := by
  obtain ⟨p, q, hp, hq, htext⟩ := strcmpEq_true h
  exact record_inj inv.names hu hv (by simp [nameText, hp, hq, htext])

/-- The pointer comparison of `bidAuction` tells users apart. -/
theorem UserInv.samePtr_iff {s : Server} (inv : UserInv s) {u v : User} (hu : u ∈ s.users)
    (hv : v ∈ s.users) : samePtr u.username v.username = true ↔ u.username = v.username := by
  constructor
  · intro h
    simp only [samePtr, beq_iff_eq] at h
    rw [record_inj inv.blocks hu hv h]
  · intro h
    simp [samePtr, h]

/-- The record with a given descriptor is unique. -/
theorem UserInv.fd_inj {s : Server} (inv : UserInv s) {u v : User} (hu : u ∈ s.users)
    (hv : v ∈ s.users) (h : u.fd = v.fd) : u = v := record_inj inv.fds hu hv h

/-- The scan by descriptor finds the record that has it. -/
theorem UserInv.findUsername_eq {s : Server} (inv : UserInv s) {u : User} (hu : u ∈ s.users) :
    findUsername s u.fd = some u := by
  cases h : findUsername s u.fd with
  | none =>
    have := List.find?_eq_none.mp h u hu
    simp at this
  | some v =>
    obtain ⟨hv, hfd⟩ := findUsername_spec h
    rw [inv.fd_inj hv hu hfd]

/-- Distinct positive ints are not more than there are. -/
theorem length_le_of_range {fds : List Int} (hnodup : fds.Nodup)
    (hrange : ∀ fd ∈ fds, 0 < fd ∧ fd ≤ intMax) : (fds.length : Int) ≤ intMax := by
  have hsub : fds.toFinset ⊆ Finset.Icc 1 intMax := by
    intro fd hfd
    have := hrange fd (List.mem_toFinset.mp hfd)
    simp only [Finset.mem_Icc]
    omega
  have hcard := Finset.card_le_card hsub
  rw [List.toFinset_card_of_nodup hnodup, Int.card_Icc] at hcard
  simp only [intMax] at hcard ⊢
  omega

/-- There are fewer users than an int can count: their descriptors are distinct positive ints. -/
theorem UserInv.length_lt {s : Server} (inv : UserInv s) : (s.users.length : Int) ≤ intMax := by
  have hle := length_le_of_range inv.fds fun fd hfd => by
    obtain ⟨u, hu, rfl⟩ := List.mem_map.mp hfd
    exact inv.fdsRange u hu
  simpa using hle

/-- What the loop of `createAuction` does to one record. -/
def Owned (fd : Int) (a : Nat) (u u' : User) : Prop :=
  if u.fd = fd then
    ∃ owned, insertAtTail u.auctionsOwned (some a) = some owned ∧
      u' = { u with auctionsOwned := owned }
  else u' = u

theorem ownerScan_spec {fd : Int} {a : Nat} {us us' : List User} {c₀ c : CharStar}
    (h : ownerScan fd a us c₀ = some (us', c)) :
    List.Forall₂ (Owned fd a) us us' ∧
      ((c = c₀ ∧ ∀ u ∈ us, u.fd ≠ fd) ∨ ∃ u ∈ us, u.fd = fd ∧ c = u.username) := by
  induction us generalizing c₀ us' with
  | nil =>
    simp only [ownerScan, Option.some.injEq, Prod.mk.injEq] at h
    obtain ⟨rfl, rfl⟩ := h
    simp
  | cons u us ih =>
    simp only [ownerScan] at h
    split at h
    · rename_i hfd
      simp only [Option.bind_eq_bind, Option.bind_eq_some_iff, Option.some.injEq,
        Prod.mk.injEq] at h
      obtain ⟨owned, hown, ⟨rest, c'⟩, hrest, rfl, rfl⟩ := h
      obtain ⟨hall, hc⟩ := ih hrest
      refine ⟨.cons (by simpa [Owned, hfd] using hown) hall, Or.inr ?_⟩
      rcases hc with ⟨rfl, -⟩ | ⟨v, hv, hvfd, rfl⟩
      · exact ⟨u, by simp, hfd, rfl⟩
      · exact ⟨v, by simp [hv], hvfd, rfl⟩
    · rename_i hfd
      simp only [Option.bind_eq_bind, Option.bind_eq_some_iff, Option.some.injEq,
        Prod.mk.injEq] at h
      obtain ⟨⟨rest, c'⟩, hrest, rfl, rfl⟩ := h
      obtain ⟨hall, hc⟩ := ih hrest
      refine ⟨.cons (by simp [Owned, hfd]) hall, ?_⟩
      rcases hc with ⟨rfl, hno⟩ | ⟨v, hv, hvfd, rfl⟩
      · exact Or.inl ⟨rfl, by simpa [hfd] using hno⟩
      · exact Or.inr ⟨v, by simp [hv], hvfd, rfl⟩

theorem map_eq_of_owned {β : Type} {fd : Int} {a : Nat} {us us' : List User} (f : User → β)
    (hf : ∀ (u : User) owned, f { u with auctionsOwned := owned } = f u)
    (h : List.Forall₂ (Owned fd a) us us') : us'.map f = us.map f := by
  induction h with
  | nil => rfl
  | cons hu _ ih =>
    simp only [Owned] at hu
    split at hu
    · obtain ⟨owned, -, rfl⟩ := hu
      simp [hf, ih]
    · simp [hu, ih]

theorem closeAuction_keys {s s' : Server} {a : Nat} {out : List Event}
    (h : closeAuction s a = some (s', out)) : s'.users.map User.key = s.users.map User.key := by
  obtain ⟨us, rfl, hus⟩ := closeAuction_frame h
  exact map_congr_of_map (fun d => (d.username, d.fd)) hus

theorem unlinkAuction_frame {s s' : Server} {a : Nat} (h : unlinkAuction s a = some s') :
    ∃ list, s' = { s with auctionsList := list } := by
  simp only [unlinkAuction, Option.bind_eq_bind, Option.bind_eq_some_iff, Option.some.injEq] at h
  obtain ⟨index, -, ⟨r, list⟩, -, rfl⟩ := h
  exact ⟨list, rfl⟩

theorem expireAuction_frame {s s' : Server} {a : Nat} {out : List Event}
    (h : expireAuction s a = some (s', out)) :
    ∃ us list, s' = { s.withUsers us with auctionsList := list } ∧
      us.map User.identity = s.users.map User.identity := by
  simp only [expireAuction, Option.bind_eq_bind, Option.bind_eq_some_iff, Option.some.injEq,
    Prod.mk.injEq] at h
  obtain ⟨⟨s₁, out₁⟩, hclose, s₂, hunlink, rfl, -⟩ := h
  obtain ⟨us, rfl, hus⟩ := closeAuction_frame hclose
  obtain ⟨list, rfl⟩ := unlinkAuction_frame hunlink
  exact ⟨us, list, rfl, hus⟩

/-- A tick rewrites user records, the list and the store, and keeps the users' identities. -/
theorem tickLoop_frame {nodes : List Nat} {s s' : Server} {out : List Event}
    (h : tickLoop nodes s = some (s', out)) :
    ∃ us list store, s' = { s.withUsers us with auctionsList := list, auctions := store } ∧
      us.map User.identity = s.users.map User.identity := by
  induction nodes generalizing s with
  | nil =>
    simp only [tickLoop, Option.some.injEq, Prod.mk.injEq] at h
    obtain ⟨rfl, -⟩ := h
    exact ⟨s.users, s.auctionsList, s.auctions, rfl, rfl⟩
  | cons a rest ih =>
    simp only [tickLoop, ageAuction, Option.bind_eq_bind, Option.bind_eq_some_iff,
      Option.some.injEq] at h
    obtain ⟨⟨s₁, d⟩, ⟨x, -, hs₁⟩, h⟩ := h
    obtain ⟨rfl, rfl⟩ := Prod.mk.inj hs₁
    split at h
    · obtain ⟨us, list, rfl, hus⟩ := expireAuction_frame h
      exact ⟨us, list, _, rfl, hus⟩
    · obtain ⟨us, list, store, rfl, hus⟩ := ih h
      exact ⟨us, list, store, rfl, hus⟩

/-- A new record with a key of its own. -/
theorem nodup_map_concat {α β : Type} {xs : List α} {x : α} {f : α → β} (h : (xs.map f).Nodup)
    (hnew : ∀ y ∈ xs, f y ≠ f x) : ((xs ++ [x]).map f).Nodup := by
  rw [List.map_append, List.nodup_append]
  refine ⟨h, by simp, ?_⟩
  intro b hb b' hb'
  obtain ⟨y, hy, rfl⟩ := List.mem_map.mp hb
  obtain rfl : b' = f x := by simpa using hb'
  exact hnew y hy

theorem UserInv.fd_ne {s : Server} (inv : UserInv s) {fd : Int} (hfresh : FreshFd s fd) {u : User}
    (hu : u ∈ s.users) : u.fd ≠ fd := fun h => hfresh.2.2 (h ▸ inv.fdsOpen u hu)

theorem UserInv.fresh_range {s : Server} (inv : UserInv s) {fd : Int} (hfresh : FreshFd s fd) :
    0 < fd ∧ fd ≤ intMax := by
  obtain ⟨hnonneg, hmax, hclosed⟩ := hfresh
  have hne : fd ≠ 0 := fun h => hclosed (h ▸ inv.stdin)
  exact ⟨by omega, hmax⟩

/-- The record of a logged-out user moves to a fresh descriptor. -/
theorem UserInv.relogin {s : Server} (inv : UserInv s) {fd : Int} (hfresh : FreshFd s fd) {i : Nat}
    {u : User} (hu : s.users[i]? = some u) :
    UserInv ((s.opened fd).setUser i { u with loginFlag := true, fd := fd }) := by
  have hnew : fd ∉ s.users.map User.fd := by
    intro h
    obtain ⟨v, hv, hfd⟩ := List.mem_map.mp h
    exact inv.fd_ne hfresh hv hfd
  have hmem : ∀ v ∈ s.users.set i { u with loginFlag := true, fd := fd },
      v = { u with loginFlag := true, fd := fd } ∨ v ∈ s.users := by
    intro v hv
    rcases List.mem_or_eq_of_mem_set hv with hv | rfl
    · exact Or.inr hv
    · exact Or.inl rfl
  have hin : u ∈ s.users := List.mem_of_getElem? hu
  constructor
  · have hwf := inv.wf
    simp only [LinkedList.WF, Server.setUser, List.length_set] at hwf ⊢
    exact hwf
  · rw [users_setUser, users_opened, map_set_of_eq (fun u => nameText u.username) hu]
    · exact inv.names
    · rfl
  · rw [users_setUser, users_opened, map_set_of_eq (fun u => nameBlock u.username) hu]
    · exact inv.blocks
    · rfl
  · intro v hv p hp
    have hlt : p.block < s.blocks := by
      rcases hmem v hv with rfl | hv
      · exact inv.blocksLt u hin p hp
      · exact inv.blocksLt v hv p hp
    exact Nat.lt_succ_of_lt hlt
  · rw [users_setUser, users_opened, List.map_set]
    exact inv.fds.set hnew
  · intro v hv
    rcases hmem v hv with rfl | hv
    · exact List.mem_cons_self
    · exact List.mem_cons_of_mem _ (inv.fdsOpen v hv)
  · intro v hv
    rcases hmem v hv with rfl | hv
    · exact inv.fresh_range hfresh
    · exact inv.fdsRange v hv
  · exact List.mem_cons_of_mem _ inv.stdin

/-- A login under a name that no record has appends one record. -/
theorem UserInv.signUp {s : Server} (inv : UserInv s) {fd : Int} (hfresh : FreshFd s fd)
    {name password : CharStar} {users : LinkedList User}
    (hblock : ∀ p, name = some p → p.block = s.blocks)
    (hscan : scanByName name s.users = some none)
    (hins : insertAtTail s.usersList (some (newUser fd name password)) = some users) :
    UserInv { s.opened fd with usersList := users } := by
  obtain ⟨hnodes, hwf⟩ := insertAtTail_spec inv.wf hins
  have husers : users.nodes = s.users ++ [newUser fd name password] := hnodes
  have hdiff : ∀ u ∈ s.users, ∃ p q, name = some p ∧ u.username = some q ∧ p.text ≠ q.text :=
    fun u hu => strcmpEq_false (scanByName_none hscan u hu)
  have hmem : ∀ u ∈ users.nodes, u ∈ s.users ∨ u = newUser fd name password := by
    intro u hu
    simpa [husers] using hu
  constructor
  · exact hwf
  · rw [Server.users, husers]
    apply nodup_map_concat inv.names
    intro u hu
    obtain ⟨p, q, hp, hq, hne⟩ := hdiff u hu
    simpa [newUser, nameText, hp, hq] using Ne.symm hne
  · rw [Server.users, husers]
    apply nodup_map_concat inv.blocks
    intro u hu
    obtain ⟨p, q, hp, hq, -⟩ := hdiff u hu
    have hlt := inv.blocksLt u hu q hq
    have heq := hblock p hp
    simp only [newUser, nameBlock, hp, hq, Option.map_some, ne_eq, Option.some.injEq]
    omega
  · intro u hu p hp
    have hle : p.block ≤ s.blocks := by
      rcases hmem u hu with hu | rfl
      · exact (inv.blocksLt u hu p hp).le
      · exact (hblock p hp).le
    exact Nat.lt_succ_of_le hle
  · rw [Server.users, husers]
    exact nodup_map_concat inv.fds fun u hu => inv.fd_ne hfresh hu
  · intro u hu
    rcases hmem u hu with hu | rfl
    · exact List.mem_cons_of_mem _ (inv.fdsOpen u hu)
    · exact List.mem_cons_self
  · intro u hu
    rcases hmem u hu with hu | rfl
    · exact inv.fdsRange u hu
    · exact inv.fresh_range hfresh
  · exact List.mem_cons_of_mem _ inv.stdin

theorem loginName_block {s : Server} {body : List Char} {p : CharPtr}
    (h : loginName s body = some p) : p.block = s.blocks := by
  obtain ⟨t, -, rfl⟩ := Option.map_eq_some_iff.mp h
  rfl

theorem userInv_step {fromClient : Server → Int → Prop} {s s' : Server} {action : Action}
    {out : List Event} (inv : UserInv s) (hok : s.Admits fromClient action)
    (h : Effect s action s' out) : UserInv s' := by
  cases h with
  | accept hacc =>
    have hfresh : FreshFd s _ := hok
    cases hacc with
    | noLogin => exact inv.of_keys rfl rfl le_rfl fun _ => List.mem_cons_of_mem _
    | already => exact inv.of_keys rfl rfl (Nat.le_succ _) fun _ => List.mem_cons_of_mem _
    | again i u _ hu => exact inv.relogin hfresh hu
    | wrong => exact inv.of_keys rfl rfl (Nat.le_succ _) fun _ h => h
    | created users _ hscan hins => exact inv.signUp hfresh (fun _ => loginName_block) hscan hins
  | quiet => exact inv
  | logout i u _ hu =>
    exact inv.of_keys (map_set_of_eq User.key hu rfl) rfl le_rfl fun _ h => h
  | create name duration price us creator list body _ _ _ _ _ _ _ _ hscan =>
    exact inv.of_keys (map_eq_of_owned User.key (fun _ _ => rfl) (ownerScan_spec hscan).1) rfl
      le_rfl fun _ h => h
  | watch => exact inv.of_users rfl rfl rfl
  | leave => exact inv.of_users rfl rfl rfl
  | raise => exact inv.of_users rfl rfl rfl
  | buy a auction user bid s₁ _ out _ _ hon _ _ hclose hunlink =>
    have hkeys := closeAuction_keys hclose
    obtain ⟨us, rfl, -⟩ := closeAuction_frame hclose
    obtain ⟨list, rfl⟩ := unlinkAuction_frame hunlink
    exact inv.of_keys hkeys rfl le_rfl fun _ h => h
  | tick h =>
    obtain ⟨us, list, store, rfl, hus⟩ := tickLoop_frame h
    exact inv.of_keys (map_congr_of_map (fun d => (d.username, d.fd)) hus) rfl le_rfl fun _ h => h

end ZBid
