import ZBid.Ticks

/-!
# How late an auction can end

The auctions behind one that expires miss that tick. An auction can miss at most as many ticks as
there are open auctions ahead of it, and it never ends early, so its last tick is known up to that
number.
-/
namespace ZBid

open CInt CString Runs

/-- The open auctions ahead of an auction in the list. -/
def Server.ahead (s : Server) (a : Nat) : Nat := (s.auctionsList.nodes.filter (· < a)).length

/-- Auction `a`, which had `d` ticks left and `m` auctions ahead of it `n` ticks ago: it has lost
a tick for each that went by, but for those in which an auction ahead of it was closed. -/
structure Pending (a : Nat) (d : Int) (m n : Nat) (tr : List Event) (s : Server) : Prop where
  store : StoreInv s
  created : a < s.auctions.length
  left : a ∈ s.auctionsList.nodes → ∃ x, s.auctions[a]? = some x ∧ d ≤ x.duration + n ∧
    x.duration + n + s.ahead a ≤ d + m
  settled : a ∈ s.auctionsList.nodes ∨ a ∈ closings tr

/-- No step puts an auction on the list ahead of one that was created. -/
theorem filter_change {s s' : Server} {a : Nat} (ha : a < s.auctions.length) {out : List Event}
    (h : ListChange s s' out) {q : Nat → Bool} (hq : ∀ b, q b = true → b < a) :
    (s'.auctionsList.nodes.filter q).length ≤ (s.auctionsList.nodes.filter q).length := by
  cases h with
  | same _ hnodes => rw [hnodes]
  | create _ hnodes =>
    have hnot : q s.auctions.length ≠ true := fun h => by
      have := hq _ h
      omega
    rw [hnodes, List.filter_append]
    simp [hnot]
  | close b _ _ hnodes =>
    rw [hnodes]
    exact (List.erase_sublist.filter _).length_le

theorem ahead_le {s s' : Server} {a : Nat} (ha : a < s.auctions.length) {out : List Event}
    (h : ListChange s s' out) : s'.ahead a ≤ s.ahead a :=
  filter_change ha h fun _ hb => of_decide_eq_true hb

/-- An auction that leaves the list is closed. -/
theorem settled_step {s s' : Server} {out : List Event} {a : Nat}
    (ha : a ∈ s.auctionsList.nodes) (h : ListChange s s' out) :
    a ∈ s'.auctionsList.nodes ∨ a ∈ closings out := by
  cases h with
  | same _ hnodes => exact Or.inl (hnodes ▸ ha)
  | create _ hnodes => exact Or.inl (by simp [hnodes, ha])
  | close b hone _ hnodes =>
    by_cases hab : a = b
    · exact Or.inr (by simp [hone, hab])
    · exact Or.inl (by rw [hnodes]; exact (List.mem_erase_of_ne hab).mpr ha)

theorem settled_append {s s' : Server} {a : Nat} {tr out : List Event}
    (hsettled : a ∈ s.auctionsList.nodes ∨ a ∈ closings tr) (h : ListChange s s' out) :
    a ∈ s'.auctionsList.nodes ∨ a ∈ closings (tr ++ out) := by
  rw [closings_append, List.mem_append]
  rcases hsettled with hmem | hgone
  · exact (settled_step hmem h).imp_right Or.inr
  · exact Or.inr (Or.inl hgone)

/-- Whoever is on the list after a step and was created before it was on the list already. -/
theorem mem_of_change {s s' : Server} {out : List Event} {a : Nat} (ha : a < s.auctions.length)
    (h : ListChange s s' out) (hmem : a ∈ s'.auctionsList.nodes) : a ∈ s.auctionsList.nodes := by
  cases h with
  | same _ hnodes => exact hnodes ▸ hmem
  | create _ hnodes =>
    rw [hnodes, List.mem_append, List.mem_singleton] at hmem
    rcases hmem with hmem | rfl
    · exact hmem
    · omega
  | close b _ _ hnodes => exact List.mem_of_mem_erase (hnodes ▸ hmem)

theorem pending_other {a : Nat} {d : Int} {m n : Nat} {tr out : List Event} {s s' : Server}
    {action : Action} (inv : Pending a d m n tr s) (hne : action ≠ .tick)
    (hs : Server.step s action = some (s', out)) : Pending a d m n (tr ++ out) s' := by
  have heffect := step_effect hs
  have hlist := effect_list inv.store.toListInv heffect
  have hlen := inv.created.trans_le hlist.length_le
  refine ⟨storeInv_step inv.store heffect, hlen, fun hmem => ?_, settled_append inv.settled hlist⟩
  obtain ⟨x, hx, hlow, hhigh⟩ := inv.left (mem_of_change inv.created hlist hmem)
  have hahead := ahead_le inv.created hlist
  have hy := List.getElem?_eq_getElem hlen
  rcases effect_record inv.store.toListInv heffect hy with ⟨x', hx', hchange⟩ | ⟨rfl, -⟩
  · obtain rfl : x = x' := Option.some.inj (hx.symm.trans hx')
    have hduration := recordChange_duration hchange hne
    exact ⟨_, hy, by omega, by omega⟩
  · exact absurd inv.created (lt_irrefl _)

/-- A tick takes one off the duration, or an auction ahead off the list. -/
theorem pending_tick {a : Nat} {d : Int} {m n : Nat} {tr out : List Event} {s s' : Server}
    (inv : Pending a d m n tr s) (h : tickBody s = some (s', out)) :
    Pending a d m (n + 1) (tr ++ out) s' := by
  have heffect : Effect s .tick s' out := .tick h
  have hlist := effect_list inv.store.toListInv heffect
  refine ⟨storeInv_step inv.store heffect, inv.created.trans_le hlist.length_le, fun hmem => ?_,
    settled_append inv.settled hlist⟩
  have hin := mem_of_change inv.created hlist hmem
  obtain ⟨x, hx, hlow, hhigh⟩ := inv.left hin
  have hold := (inv.store.listed a hin x hx).older_duration
  have hahead := ahead_le inv.created hlist
  cases tick_outcome inv.store.toListInv h with
  | quiet hall => exact ⟨x.older, aged_get_mem hin hx, by omega, by omega⟩
  | expire pre b post y us out hnodes =>
    have hsorted := inv.store.sorted
    have hmem' : a ∈ pre ++ post := hmem
    rw [hnodes, List.pairwise_append, List.pairwise_cons] at hsorted
    obtain ⟨-, ⟨hpost, -⟩, hpre⟩ := hsorted
    rcases List.mem_append.mp hmem' with hapre | hapost
    · exact ⟨x.older, aged_get_mem (by simp [hapre]) hx, by omega, by omega⟩
    · -- The auction is behind the one that expires, and not aged.
      have hba : b < a := hpost a hapost
      have hnot : a ∉ pre ++ [b] := by
        rw [List.mem_append, List.mem_singleton]
        rintro (h | rfl)
        · exact absurd (hpre a h b List.mem_cons_self) (by omega)
        · omega
      have hless : s.ahead a = ((pre ++ post).filter (· < a)).length + 1 := by
        rw [Server.ahead, hnodes]
        simp [List.filter_append, hba]
        omega
      refine ⟨x, (aged_get_not_mem hnot).trans hx, by omega, ?_⟩
      change x.duration + _ + (((pre ++ post).filter (· < a)).length : Int) ≤ _
      push_cast at hhigh ⊢
      omega

theorem pending_run {ok : Server → Action → Prop} {a : Nat} {d : Int} {m : Nat} {s t : Server}
    {as : List Action} {tr : List Event} (run : Run Server.step ok s as tr t)
    (hstart : Pending a d m 0 [] s) : Pending a d m (as.count .tick) tr t := by
  refine run.invariant (P := fun as tr t => Pending a d m (as.count .tick) tr t)
    (by simpa using hstart) fun {as _ s action s' out} _ inv _ hs => ?_
  cases action with
  | tick =>
    simp only [List.count_append, List.count_singleton_self]
    exact pending_tick inv hs
  | accept fd msgType body =>
    simp only [List.count_append]
    exact pending_other inv (by simp) hs
  | job env job =>
    simp only [List.count_append]
    exact pending_other inv (by simp) hs

/-- What `n` ticks do to an auction that had `d` ticks left and `m` auctions ahead of it. -/
structure DeadlineLaw (a : Nat) (d : Int) (m n : Nat) (tr : List Event) (s : Server) : Prop where
  listed : a ∈ s.auctionsList.nodes → ∃ x, s.auctions[a]? = some x ∧ d ≤ x.duration + n ∧
    x.duration + n + s.ahead a ≤ d + m
  expires : ∀ s' out, Server.step s .tick = some (s', out) → .closed a ∈ out →
    d ≤ n + 1 ∧ n + 1 ≤ d + m
  settled : d + m ≤ n → a ∉ s.auctionsList.nodes ∧ .closed a ∈ tr

theorem Pending.law {a : Nat} {d : Int} {m n : Nat} {tr : List Event} {s : Server}
    (inv : Pending a d m n tr s) : DeadlineLaw a d m n tr s := by
  have hgone : d + m ≤ n → a ∉ s.auctionsList.nodes := by
    intro hle hmem
    obtain ⟨x, hx, -, hhigh⟩ := inv.left hmem
    have hpos := (inv.store.listed a hmem x hx).duration.1
    omega
  refine ⟨inv.left, ?_, fun hle => ⟨hgone hle, mem_closings.mp (inv.settled.resolve_left
    (hgone hle))⟩⟩
  intro s' out hs hclosed
  have hs' : tickBody s = some (s', out) := hs
  cases tick_outcome inv.store.toListInv hs' with
  | quiet => cases hclosed
  | expire pre b post y us out hnodes hy hzero _ hclose =>
    obtain rfl : a = b := by simpa [closeAuction_closings hclose] using mem_closings.mpr hclosed
    have hmem : a ∈ s.auctionsList.nodes := by simp [hnodes]
    obtain ⟨x, hx, hlow, hhigh⟩ := inv.left hmem
    obtain rfl : x = y := Option.some.inj (hx.symm.trans hy)
    have hold := (inv.store.listed a hmem x hx).older_duration
    omega

/-- From every reachable state and for every auction on the list, whatever happens after: it is
settled by a tick no sooner than its duration says, and by the tick that as many later as there
are auctions ahead of it, if it is not bought before. -/
theorem deadline_run {ok ok' : Server → Action → Prop} {as bs : List Action}
    {tr tr' : List Event} {s t : Server} (run : Run Server.step ok Server.start as tr s)
    {a : Nat} {x : Auction} (ha : a ∈ s.auctionsList.nodes) (hx : s.auctions[a]? = some x)
    (later : Run Server.step ok' s bs tr' t) :
    DeadlineLaw a x.duration (s.ahead a) (bs.count .tick) tr' t := by
  have inv := storeInv_run run
  have hstart : Pending a x.duration (s.ahead a) 0 [] s :=
    ⟨inv, inv.stored a ha, fun _ => ⟨x, hx, by simp, by simp⟩, Or.inl ha⟩
  exact (pending_run later hstart).law

/-- The second of two auctions of one tick each is still there after a tick, and gone after two. -/
theorem deadline_run_sample :
    let one := (exec Server.step (Server.Admits LoggedIn) sampleTwinsListed [.tick]).get (by decide)
    let two := (exec Server.step (Server.Admits LoggedIn) sampleTwinsListed [.tick, .tick]).get
      (by decide)
    1 ∈ one.1.auctionsList.nodes ∧ DeadlineLaw 1 1 1 1 one.2 one.1 ∧
      DeadlineLaw 1 1 1 2 two.2 two.1 := by
  have run : Run Server.step (Server.Admits LoggedIn) Server.start sampleTwins _
      sampleTwinsListed := run_of_isSome (by decide)
  have hmem : 1 ∈ sampleTwinsListed.auctionsList.nodes := by decide
  have hx : sampleTwinsListed.auctions[1]? =
      some (newAuction sampleMalloc ['W'] 1 0 2 (some ⟨0, ['A']⟩)) := by decide
  have hahead : sampleTwinsListed.ahead 1 = 1 := by decide
  have one : Run Server.step (Server.Admits LoggedIn) sampleTwinsListed [.tick] _ _ :=
    run_of_isSome (by decide)
  have two : Run Server.step (Server.Admits LoggedIn) sampleTwinsListed [.tick, .tick] _ _ :=
    run_of_isSome (by decide)
  exact ⟨by decide, hahead ▸ deadline_run run hmem hx one, hahead ▸ deadline_run run hmem hx two⟩

end ZBid
