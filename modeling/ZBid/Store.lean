import ZBid.Identity
import Mathlib.Data.List.Pairwise

/-!
# The auction store

Ids are handed out in order, so an auction's id is its position in the store plus one and the
list of open auctions is strictly increasing. A removal by index therefore takes out exactly the
auction whose index was looked up.
-/
namespace ZBid

open CInt CString Runs

/-- The list of open auctions and the ids of the store. -/
structure ListInv (s : Server) : Prop where
  wf : s.auctionsList.WF
  counter : s.auctionID = s.auctions.length
  counterMax : s.auctionID ≤ intMax
  ids : ∀ (k : Nat) (x : Auction), s.auctions[k]? = some x → x.id = k + 1
  sorted : s.auctionsList.nodes.Pairwise (· < ·)
  stored : ∀ k ∈ s.auctionsList.nodes, k < s.auctions.length

theorem listInv_start : ListInv Server.start := by
  constructor <;> simp [Server.start, createList, LinkedList.WF, intMax]

theorem ListInv.nodup {s : Server} (inv : ListInv s) : s.auctionsList.nodes.Nodup :=
  inv.sorted.imp Nat.ne_of_lt

theorem ListInv.get {s : Server} (inv : ListInv s) {k : Nat} (hk : k ∈ s.auctionsList.nodes) :
    ∃ x, s.auctions[k]? = some x := ⟨_, List.getElem?_eq_getElem (inv.stored k hk)⟩

/-- Updates that keep the list, the counter and every id. -/
theorem ListInv.of_ids {s s' : Server} (inv : ListInv s)
    (hlist : s'.auctionsList = s.auctionsList) (hcounter : s'.auctionID = s.auctionID)
    (hids : s'.auctions.map Auction.id = s.auctions.map Auction.id) : ListInv s' := by
  have hlen : s'.auctions.length = s.auctions.length := by simpa using congrArg List.length hids
  constructor
  · exact hlist ▸ inv.wf
  · rw [hcounter, hlen]
    exact inv.counter
  · rw [hcounter]
    exact inv.counterMax
  · intro k x hx
    have hmap : (s.auctions.map Auction.id)[k]? = some x.id := by rw [← hids]; simp [hx]
    obtain ⟨y, hy, hyx⟩ := by simpa using hmap
    rw [← hyx]
    exact inv.ids k y hy
  · rw [hlist]
    exact inv.sorted
  · rw [hlist, hlen]
    exact inv.stored

theorem ListInv.setAuction {s : Server} (inv : ListInv s) {a : Nat} {x y : Auction}
    (hx : s.auctions[a]? = some x) (hid : y.id = x.id) : ListInv (s.setAuction a y) :=
  inv.of_ids rfl rfl (map_set_of_eq Auction.id hx hid)

theorem ListInv.withUsers {s : Server} (inv : ListInv s) (us : List User) :
    ListInv (s.withUsers us) := inv.of_ids rfl rfl rfl

theorem erase_of_nodup {pre post : List Nat} {a : Nat} (h : (pre ++ a :: post).Nodup) :
    (pre ++ a :: post).erase a = pre ++ post := by
  rw [List.nodup_append] at h
  have hnot : a ∉ pre := fun ha => h.2.2 a ha a (by simp) rfl
  rw [List.erase_append_right _ hnot, List.erase_cons_head]

theorem auctionIndexLoop_eq {s : Server} {a : Nat}
    (ids : ∀ (k : Nat) (x : Auction), s.auctions[k]? = some x → x.id = k + 1)
    {nodes : List Nat} (hstored : ∀ k ∈ nodes, k < s.auctions.length) (ha : a ∈ nodes) (i : Int) :
    auctionIndexLoop s (a + 1) i nodes = some (i + nodes.idxOf a) := by
  induction nodes generalizing i with
  | nil => simp at ha
  | cons k rest ih =>
    have hk := List.getElem?_eq_getElem (hstored k (by simp))
    have hid := ids k _ hk
    simp only [auctionIndexLoop, hk, Option.bind_eq_bind, Option.bind_some, hid]
    by_cases h : a = k
    · simp [h]
    · have hne : ¬ (a : Int) + 1 = (k : Int) + 1 := by omega
      have hrest : a ∈ rest := by simpa [h] using ha
      rw [if_neg hne, ih (fun k hk => hstored k (List.mem_cons_of_mem _ hk)) hrest,
        List.idxOf_cons_ne _ (Ne.symm h)]
      congr 1
      omega

theorem ListInv.findAuctionIndex_eq {s : Server} (inv : ListInv s) {a : Nat}
    (ha : a ∈ s.auctionsList.nodes) :
    findAuctionIndex s a = some ((s.auctionsList.nodes.idxOf a : Nat) : Int) := by
  obtain ⟨x, hx⟩ := inv.get ha
  simp only [findAuctionIndex, hx, Option.bind_eq_bind, Option.bind_some, inv.ids a x hx]
  rw [auctionIndexLoop_eq inv.ids inv.stored ha, Int.zero_add]

/-- Looking up the index and removing by it takes out exactly the auction meant. -/
theorem ListInv.unlink_eq {s : Server} (inv : ListInv s) {a : Nat}
    (ha : a ∈ s.auctionsList.nodes) :
    unlinkAuction s a = some { s with
      auctionsList := ⟨s.auctionsList.nodes.erase a, s.auctionsList.length - 1⟩ } := by
  have hlt := List.idxOf_lt_length_iff.mpr ha
  simp only [unlinkAuction, inv.findAuctionIndex_eq ha, Option.bind_eq_bind, Option.bind_some]
  rw [removeByIndex_nat inv.wf hlt, Option.bind_some, List.erase_eq_eraseIdx_of_idxOf rfl]

theorem ListInv.erase {s : Server} (inv : ListInv s) {a : Nat} (ha : a ∈ s.auctionsList.nodes) :
    ListInv { s with
      auctionsList := ⟨s.auctionsList.nodes.erase a, s.auctionsList.length - 1⟩ } := by
  constructor
  · have hpos := List.length_pos_of_mem ha
    have hwf := inv.wf
    simp only [LinkedList.WF] at hwf ⊢
    rw [List.length_erase_of_mem ha, hwf]
    omega
  · exact inv.counter
  · exact inv.counterMax
  · exact inv.ids
  · exact inv.sorted.sublist List.erase_sublist
  · exact fun k hk => inv.stored k (List.mem_of_mem_erase hk)

/-- A new auction gets the next id and goes to the end of the list. -/
theorem ListInv.create {s : Server} (inv : ListInv s) {us : List User} {list : LinkedList Nat}
    {x : Auction} (hid : x.id = s.auctionID + 1) (hlt : s.auctionID < intMax)
    (hins : insertAtTail s.auctionsList (some s.auctions.length) = some list) :
    ListInv { s.withUsers us with
      auctionsList := list, auctions := s.auctions ++ [x], auctionID := s.auctionID + 1 } := by
  obtain ⟨hnodes, hwf⟩ := insertAtTail_spec inv.wf hins
  have hcounter := inv.counter
  constructor
  · exact hwf
  · simp only [List.length_append, List.length_singleton]
    omega
  · simp only
    omega
  · intro k y hy
    rcases Nat.lt_trichotomy k s.auctions.length with h | h | h
    · exact inv.ids k y (by simpa [List.getElem?_append_left h] using hy)
    · subst h
      obtain rfl : x = y := by simpa using hy
      omega
    · simp [List.getElem?_eq_none (show (s.auctions ++ [x]).length ≤ k by simp; omega)] at hy
  · simp only [hnodes, List.pairwise_append, List.pairwise_singleton, List.mem_singleton,
      true_and]
    exact ⟨inv.sorted, fun k hk m hm => hm ▸ inv.stored k hk⟩
  · intro k hk
    simp only [hnodes, List.mem_append, List.mem_singleton] at hk
    rcases hk with hk | rfl
    · have := inv.stored k hk
      simp only [List.length_append, List.length_singleton]
      omega
    · simp

def Auction.older (x : Auction) : Auction := { x with duration := wrap32 (x.duration - 1) }

/-- The store after the auctions of `l` have aged by one. -/
def Server.aged (s : Server) (l : List Nat) : Server :=
  { s with auctions := s.auctions.mapIdx fun k x => if k ∈ l then x.older else x }

theorem aged_get (s : Server) (l : List Nat) (k : Nat) :
    (s.aged l).auctions[k]? = (s.auctions[k]?).map fun x => if k ∈ l then x.older else x := by
  simp [Server.aged, List.getElem?_mapIdx]

@[simp] theorem aged_nil (s : Server) : s.aged [] = s := by
  simp only [Server.aged, List.not_mem_nil, ↓reduceIte]
  congr 1
  apply List.ext_getElem?
  simp [List.getElem?_mapIdx]

theorem aged_aged {s : Server} {l m : List Nat} (h : ∀ k ∈ l, k ∉ m) :
    (s.aged l).aged m = s.aged (l ++ m) := by
  simp only [Server.aged, List.mapIdx_mapIdx]
  congr 1
  apply List.ext_getElem?
  intro k
  simp only [List.getElem?_mapIdx, List.mem_append]
  cases s.auctions[k]? with
  | none => rfl
  | some x => by_cases hl : k ∈ l <;> simp [hl, h]

theorem ageAuction_spec {s s' : Server} {a : Nat} {d : Int} (h : ageAuction s a = some (s', d)) :
    ∃ x, s.auctions[a]? = some x ∧ s' = s.aged [a] ∧ d = x.older.duration := by
  simp only [ageAuction, Option.bind_eq_bind, Option.bind_eq_some_iff, Option.some.injEq,
    Prod.mk.injEq] at h
  obtain ⟨x, hx, rfl, rfl⟩ := h
  refine ⟨x, hx, ?_, rfl⟩
  simp only [Server.setAuction, Server.aged]
  congr 1
  apply List.ext_getElem?
  intro k
  rw [List.getElem?_set, List.getElem?_mapIdx]
  split
  · subst k
    simp only [(List.getElem?_eq_some_iff.mp hx).1, ↓reduceIte, hx]
    simp [Auction.older]
  · rename_i hne
    simp [Ne.symm hne]

/-- The walk either ages the whole list or stops at the first auction that reaches 0. -/
theorem tickLoop_spec {nodes : List Nat} {s s' : Server} {out : List Event} (hn : nodes.Nodup)
    (h : tickLoop nodes s = some (s', out)) :
    (s' = s.aged nodes ∧ out = [] ∧
      ∀ k ∈ nodes, ∃ x, s.auctions[k]? = some x ∧ x.older.duration ≠ 0) ∨
    ∃ pre a post x, nodes = pre ++ a :: post ∧ s.auctions[a]? = some x ∧ x.older.duration = 0 ∧
      (∀ k ∈ pre, ∃ y, s.auctions[k]? = some y ∧ y.older.duration ≠ 0) ∧
      expireAuction (s.aged (pre ++ [a])) a = some (s', out) := by
  induction nodes generalizing s with
  | nil =>
    simp only [tickLoop, Option.some.injEq, Prod.mk.injEq] at h
    exact Or.inl (by simp [h.1, h.2])
  | cons a rest ih =>
    simp only [tickLoop, Option.bind_eq_bind, Option.bind_eq_some_iff] at h
    obtain ⟨⟨s₁, d⟩, hage, h⟩ := h
    obtain ⟨x, hx, rfl, rfl⟩ := ageAuction_spec hage
    have ha : a ∉ rest := (List.nodup_cons.mp hn).1
    have hsame : ∀ k ∈ rest, (s.aged [a]).auctions[k]? = s.auctions[k]? := by
      intro k hk
      have hne : k ≠ a := fun h => ha (h ▸ hk)
      simp [aged_get, hne]
    split at h
    · rename_i hzero
      exact Or.inr ⟨[], a, rest, x, rfl, hx, hzero, by simp, by simpa using h⟩
    · rename_i hpos
      rcases ih (List.nodup_cons.mp hn).2 h with ⟨rfl, rfl, hall⟩ | hexp
      · refine Or.inl ⟨aged_aged (by simpa using ha), rfl, ?_⟩
        intro k hk
        rcases List.mem_cons.mp hk with rfl | hk
        · exact ⟨x, hx, hpos⟩
        · simpa [hsame k hk] using hall k hk
      · obtain ⟨pre, b, post, y, rfl, hy, hzero, hpre, hexp⟩ := hexp
        refine Or.inr ⟨a :: pre, b, post, y, rfl, ?_, hzero, ?_, ?_⟩
        · simpa [hsame b (by simp)] using hy
        · intro k hk
          rcases List.mem_cons.mp hk with rfl | hk
          · exact ⟨x, hx, hpos⟩
          · simpa [hsame k (by simp [hk])] using hpre k hk
        · rw [aged_aged (by simp at ha ⊢; exact ⟨ha.1, ha.2.1⟩)] at hexp
          exact hexp

def Server.ticked (s : Server) : Server := { s with tick := wrap32 (s.tick + 1) }

theorem aged_get_mem {s : Server} {l : List Nat} {a : Nat} {x : Auction} (ha : a ∈ l)
    (hx : s.auctions[a]? = some x) : (s.ticked.aged l).auctions[a]? = some x.older := by
  rw [aged_get]
  simp [Server.ticked, hx, ha]

theorem aged_get_not_mem {s : Server} {l : List Nat} {a : Nat} (ha : a ∉ l) :
    (s.ticked.aged l).auctions[a]? = s.auctions[a]? := by
  rw [aged_get]
  simp [Server.ticked, ha]

/-- What a tick can do: age the whole list, or age it up to the first auction that reaches 0 and
settle and unlink that one. -/
inductive TickOutcome (s : Server) : Server → List Event → Prop where
  | quiet : (∀ k ∈ s.auctionsList.nodes, ∃ x, s.auctions[k]? = some x ∧ x.older.duration ≠ 0) →
      TickOutcome s (s.ticked.aged s.auctionsList.nodes) []
  | expire (pre : List Nat) (a : Nat) (post : List Nat) (x : Auction) (us : List User)
      (out : List Event) :
      s.auctionsList.nodes = pre ++ a :: post → s.auctions[a]? = some x →
      x.older.duration = 0 →
      (∀ k ∈ pre, ∃ y, s.auctions[k]? = some y ∧ y.older.duration ≠ 0) →
      closeAuction (s.ticked.aged (pre ++ [a])) a =
        some ((s.ticked.aged (pre ++ [a])).withUsers us, out) →
      us.map User.identity = s.users.map User.identity →
      TickOutcome s { (s.ticked.aged (pre ++ [a])).withUsers us with
        auctionsList := ⟨pre ++ post, s.auctionsList.length - 1⟩ } out

theorem ListInv.aged {s : Server} (inv : ListInv s) (l : List Nat) : ListInv (s.aged l) := by
  refine inv.of_ids rfl rfl ?_
  apply List.ext_getElem?
  intro k
  rw [List.getElem?_map, aged_get, List.getElem?_map]
  cases s.auctions[k]? with
  | none => rfl
  | some x => by_cases hk : k ∈ l <;> simp [hk, Auction.older]

theorem tick_outcome {s s' : Server} {out : List Event} (inv : ListInv s)
    (h : tickBody s = some (s', out)) : TickOutcome s s' out := by
  rcases tickLoop_spec inv.nodup h with ⟨rfl, rfl, hall⟩ | hexp
  · exact .quiet hall
  · obtain ⟨pre, a, post, x, hnodes, hx, hzero, hpre, hexp⟩ := hexp
    simp only [expireAuction, Option.bind_eq_bind, Option.bind_eq_some_iff, Option.some.injEq,
      Prod.mk.injEq] at hexp
    obtain ⟨⟨s₁, out₁⟩, hclose, s₂, hunlink, rfl, rfl⟩ := hexp
    obtain ⟨us, rfl, hus⟩ := closeAuction_frame hclose
    have hticked : ListInv s.ticked := inv.of_ids rfl rfl rfl
    have haged := (hticked.aged (pre ++ [a])).withUsers us
    have hmem : a ∈ ((s.ticked.aged (pre ++ [a])).withUsers us).auctionsList.nodes := by
      change a ∈ s.auctionsList.nodes
      simp [hnodes]
    have herase : s.auctionsList.nodes.erase a = pre ++ post := by
      rw [hnodes]
      exact erase_of_nodup (hnodes ▸ inv.nodup)
    have hs₂ := hunlink.symm.trans (haged.unlink_eq hmem)
    rw [Option.some.injEq] at hs₂
    subst hs₂
    have hlist : ((s.ticked.aged (pre ++ [a])).withUsers us).auctionsList.nodes.erase a =
        pre ++ post := herase
    rw [hlist]
    exact .expire pre a post x us out₁ hnodes hx hzero hpre hclose hus

/-- What a buy-it-now bid leaves: the bid recorded, the users settled, the auction off the list. -/
theorem buy_outcome {s s₁ s' : Server} {a : Nat} {x : Auction} {username : CharStar} {bid : Int}
    {out : List Event} (inv : ListInv s) (ha : a ∈ s.auctionsList.nodes)
    (hx : s.auctions[a]? = some x)
    (hclose : closeAuction (s.setAuction a (x.withBid username bid)) a = some (s₁, out))
    (hunlink : unlinkAuction s₁ a = some s') :
    ∃ us, s₁ = (s.setAuction a (x.withBid username bid)).withUsers us ∧
      us.map User.identity = s.users.map User.identity ∧
      s' = { (s.setAuction a (x.withBid username bid)).withUsers us with
        auctionsList := ⟨s.auctionsList.nodes.erase a, s.auctionsList.length - 1⟩ } := by
  obtain ⟨us, rfl, hus⟩ := closeAuction_frame hclose
  have hset : ListInv (s.setAuction a (x.withBid username bid)) := inv.setAuction hx rfl
  have hs' := hunlink.symm.trans ((hset.withUsers us).unlink_eq ha)
  rw [Option.some.injEq] at hs'
  exact ⟨us, rfl, hus, hs'⟩

theorem listInv_step {s s' : Server} {action : Action} {out : List Event} (inv : ListInv s)
    (h : Effect s action s' out) : ListInv s' := by
  cases h with
  | accept hacc =>
    cases hacc <;> exact inv.of_ids rfl rfl rfl
  | quiet => exact inv
  | logout => exact inv.of_ids rfl rfl rfl
  | create name duration price us creator list body _ _ _ _ _ _ _ hlt _ hins =>
    exact inv.create rfl hlt hins
  | watch a auction user watchers body _ _ _ hx => exact inv.setAuction hx rfl
  | leave a auction user index removed watchers _ _ _ hx => exact inv.setAuction hx rfl
  | raise a auction user bid fds name _ _ hon => exact inv.setAuction hon.record rfl
  | buy a auction user bid s₁ _ out _ _ hon _ _ hclose hunlink =>
    obtain ⟨us, -, -, rfl⟩ := buy_outcome inv hon.mem hon.record hclose hunlink
    have hset : ListInv (s.setAuction a (auction.withBid user.username bid)) :=
      inv.setAuction hon.record rfl
    exact (hset.withUsers us).erase hon.mem
  | tick h =>
    have hticked : ListInv s.ticked := inv.of_ids rfl rfl rfl
    cases tick_outcome inv h with
    | quiet => exact hticked.aged _
    | expire pre a post x us _ hnodes =>
      have hmem : a ∈ s.auctionsList.nodes := by simp [hnodes]
      have herase : s.auctionsList.nodes.erase a = pre ++ post := by
        rw [hnodes]
        exact erase_of_nodup (hnodes ▸ inv.nodup)
      rw [← herase]
      exact ((hticked.aged (pre ++ [a])).withUsers us).erase hmem

theorem setAuction_cases {s : Server} {a k : Nat} {x y z : Auction}
    (hx : s.auctions[a]? = some x) (hz : (s.setAuction a y).auctions[k]? = some z) :
    (k = a ∧ z = y) ∨ s.auctions[k]? = some z := by
  by_cases hk : k = a
  · subst hk
    rw [setAuction_get y hx, Option.some.injEq] at hz
    exact Or.inl ⟨rfl, hz.symm⟩
  · rw [Server.setAuction, List.getElem?_set_ne (Ne.symm hk)] at hz
    exact Or.inr hz

theorem aged_cases {s : Server} {l : List Nat} {k : Nat} {z : Auction}
    (hz : (s.aged l).auctions[k]? = some z) :
    ∃ x, s.auctions[k]? = some x ∧ (k ∈ l ∧ z = x.older ∨ k ∉ l ∧ z = x) := by
  rw [aged_get, Option.map_eq_some_iff] at hz
  obtain ⟨x, hx, rfl⟩ := hz
  by_cases hk : k ∈ l
  · exact ⟨x, hx, Or.inl ⟨hk, by simp [hk]⟩⟩
  · exact ⟨x, hx, Or.inr ⟨hk, by simp [hk]⟩⟩

/-- The ways in which a step can change an existing record. -/
inductive RecordChange (s : Server) : Action → Nat → Auction → Auction → Prop where
  | same {action k x} : RecordChange s action k x x
  | older {k x} : k ∈ s.auctionsList.nodes → RecordChange s .tick k x x.older
  | watched {env job k x} (user : User) (watchers : LinkedList CharPtr) :
      MsgType.ofCode job.jobMsgType = some .ANWATCH → x.id = atoi (cstr job.jobBuffer) →
      k ∈ s.auctionsList.nodes → findUsername s job.clientfd = some user →
      insertAtTail x.watchers user.username = some watchers →
      RecordChange s (.job env job) k x (x.withWatchers watchers (x.numberOfWatchers + 1))
  | left {env job k x} (user : User) (index : Int) (removed : Option CharPtr)
      (watchers : LinkedList CharPtr) :
      MsgType.ofCode job.jobMsgType = some .ANLEAVE → x.id = atoi (cstr job.jobBuffer) →
      k ∈ s.auctionsList.nodes → findUsername s job.clientfd = some user →
      findUserIndex x.watchers user.username = some index →
      removeByIndex x.watchers index = some (removed, watchers) →
      RecordChange s (.job env job) k x (x.withWatchers watchers (x.numberOfWatchers - 1))
  | bid {env job k x} (user : User) (bid : Int) : BidOn s job.clientfd k x user bid →
      (x.binFlag = 1 ∧ bid > x.binPrice ∨
        ¬ (x.binFlag = 1 ∧ bid > x.binPrice) ∧ bid > x.bid) →
      RecordChange s (.job env job) k x (x.withBid user.username bid)

/-- The record that an accepted ANCREATE stores. -/
inductive NewRecord (s : Server) : Action → Auction → Prop where
  | mk {env job} (name : Text) (duration price : Int) (us : List User) (creator : CharStar) :
      MsgType.ofCode job.jobMsgType = some .ANCREATE →
      ancreateArgs (cstr job.jobBuffer) = some (name, duration, price) → name ≠ [] →
      1 ≤ duration → duration ≤ intMax → 0 ≤ price → price ≤ intMax →
      ownerScan job.clientfd s.auctions.length s.users env.malloc.creator = some (us, creator) →
      NewRecord s (.job env job)
        (newAuction env.malloc name duration price (s.auctionID + 1) creator)

/-- Every record after a step is an old one, changed in one of these ways, or a new one. -/
theorem effect_record {s s' : Server} {action : Action} {out : List Event} {k : Nat} {y : Auction}
    (inv : ListInv s) (h : Effect s action s' out) (hy : s'.auctions[k]? = some y) :
    (∃ x, s.auctions[k]? = some x ∧ RecordChange s action k x y) ∨
    (k = s.auctions.length ∧ NewRecord s action y) := by
  have hset : ∀ {a : Nat} {x z : Auction}, s.auctions[a]? = some x →
      (s.setAuction a z).auctions[k]? = some y → RecordChange s action a x z →
      ∃ x, s.auctions[k]? = some x ∧ RecordChange s action k x y := by
    intro a x z hx hget hchange
    rcases setAuction_cases hx hget with ⟨rfl, rfl⟩ | hy
    · exact ⟨x, hx, hchange⟩
    · exact ⟨y, hy, .same⟩
  have haged : ∀ {l : List Nat}, (s.ticked.aged l).auctions[k]? = some y →
      (∀ k ∈ l, k ∈ s.auctionsList.nodes) → action = .tick →
      ∃ x, s.auctions[k]? = some x ∧ RecordChange s action k x y := by
    intro l hget hl haction
    subst haction
    obtain ⟨x, hx, ⟨hk, rfl⟩ | ⟨-, rfl⟩⟩ := aged_cases hget
    · exact ⟨x, hx, .older (hl k hk)⟩
    · exact ⟨y, hx, .same⟩
  cases h with
  | accept hacc => exact Or.inl ⟨y, by cases hacc <;> exact hy, .same⟩
  | quiet => exact Or.inl ⟨y, hy, .same⟩
  | logout => exact Or.inl ⟨y, hy, .same⟩
  | create name duration price us creator list body htype hargs hname hd hd' hp hp' _ hscan _ =>
    rcases Nat.lt_trichotomy k s.auctions.length with hk | hk | hk
    · exact Or.inl ⟨y, by simpa [List.getElem?_append_left hk] using hy, .same⟩
    · subst hk
      obtain rfl := by simpa using hy
      exact Or.inr ⟨rfl, .mk name duration price us creator htype hargs hname hd hd' hp hp' hscan⟩
    · rw [List.getElem?_eq_none (by simp; omega)] at hy
      cases hy
  | watch a x user watchers body htype hid hmem hx huser hins =>
    exact Or.inl (hset hx hy (.watched user watchers htype hid hmem huser hins))
  | leave a x user index removed watchers htype hid hmem hx huser hindex hrem =>
    exact Or.inl (hset hx hy (.left user index removed watchers htype hid hmem huser hindex hrem))
  | raise a x user bid fds name _ _ hon hbuy hhigh =>
    exact Or.inl (hset hon.record hy (.bid user bid hon (Or.inr ⟨hbuy, hhigh⟩)))
  | buy a x user bid s₁ _ out _ _ hon hflag hprice hclose hunlink =>
    obtain ⟨us, -, -, rfl⟩ := buy_outcome inv hon.mem hon.record hclose hunlink
    exact Or.inl (hset hon.record hy (.bid user bid hon (Or.inl ⟨hflag, hprice⟩)))
  | tick h =>
    cases tick_outcome inv h with
    | quiet => exact Or.inl (haged hy (fun _ h => h) rfl)
    | expire pre a post x us _ hnodes =>
      refine Or.inl (haged hy (fun k hk => ?_) rfl)
      rw [hnodes]
      simp only [List.mem_append, List.mem_cons, List.not_mem_nil, or_false] at hk ⊢
      tauto

end ZBid
