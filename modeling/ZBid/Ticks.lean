import ZBid.Parties

/-!
# The duration of an auction

`run_tick` ages the auctions in list order and leaves its loop at the first one that expires. The
auctions behind it miss the tick. A tick does what it should exactly when no auction but the last
one of the list has one tick left.
-/
namespace ZBid

open CInt CString Runs

/-- The auction has one tick left. -/
def Server.expires (s : Server) (a : Nat) : Bool :=
  (s.auctions[a]?).any fun x => x.duration = 1

theorem expires_iff {s : Server} {a : Nat} {x : Auction} (hx : s.auctions[a]? = some x) :
    s.expires a = true ↔ x.duration = 1 := by simp [Server.expires, hx]

/-- What one tick is for: every listed auction ages by one, those that reach 0 are settled in list
order and unlinked, and the others keep their order. -/
structure TickLaw (s s' : Server) (out : List Event) : Prop where
  aged : ∀ k ∈ s.auctionsList.nodes, ∀ x, s.auctions[k]? = some x →
    s'.auctions[k]? = some { x with duration := x.duration - 1 }
  settled : closings out = s.auctionsList.nodes.filter s.expires
  kept : s'.auctionsList.nodes = s.auctionsList.nodes.filter fun k => ! s.expires k

/-- No auction but the last one of the list has one tick left. -/
def OnlyLastExpires (s : Server) : Prop :=
  ∀ k ∈ s.auctionsList.nodes.dropLast, s.expires k = false

instance (s : Server) : Decidable (OnlyLastExpires s) :=
  inferInstanceAs (Decidable (∀ k ∈ _, _))

theorem OpenInv.older_eq {x : Auction} (inv : OpenInv x) :
    x.older = { x with duration := x.duration - 1 } := by
  have h := inv.older_duration
  simp only [Auction.older] at h ⊢
  rw [h]

theorem not_expires {s : Server} (inv : StoreInv s) {k : Nat} (hk : k ∈ s.auctionsList.nodes)
    (h : ∃ x, s.auctions[k]? = some x ∧ x.older.duration ≠ 0) : s.expires k = false := by
  obtain ⟨x, hx, hne⟩ := h
  have hold := (inv.listed k hk x hx).older_duration
  rw [Bool.eq_false_iff]
  intro hexp
  have hone := (expires_iff hx).mp hexp
  omega

/-- A tick in which nothing expires. -/
theorem tickLaw_quiet {s : Server} (inv : StoreInv s)
    (hnone : ∀ k ∈ s.auctionsList.nodes, s.expires k = false) :
    TickLaw s (s.ticked.aged s.auctionsList.nodes) [] := by
  constructor
  · intro k hk x hx
    rw [aged_get_mem hk hx, (inv.listed k hk x hx).older_eq]
  · exact (List.filter_eq_nil_iff.mpr fun k hk => by simp [hnone k hk]).symm
  · exact (List.filter_eq_self.mpr fun k hk => by simp [hnone k hk]).symm

/-- A tick in which only the last auction of the list expires. -/
theorem tickLaw_last {s s' : Server} {out : List Event} {pre : List Nat} {a : Nat}
    (inv : StoreInv s) (hnodes : s.auctionsList.nodes = pre ++ [a]) (hexp : s.expires a = true)
    (hnone : ∀ k ∈ pre, s.expires k = false)
    (hstore : s'.auctions = (s.ticked.aged (pre ++ [a])).auctions)
    (hlist : s'.auctionsList.nodes = pre) (hout : closings out = [a]) : TickLaw s s' out := by
  constructor
  · intro k hk x hx
    have hget : (s.ticked.aged (pre ++ [a])).auctions[k]? = some x.older :=
      aged_get_mem (hnodes ▸ hk) hx
    rw [hstore, hget, (inv.listed k hk x hx).older_eq]
  · rw [hout, hnodes, List.filter_append,
      List.filter_eq_nil_iff.mpr fun k hk => by simp [hnone k hk]]
    simp [hexp]
  · rw [hlist, hnodes, List.filter_append,
      List.filter_eq_self.mpr fun k hk => by simp [hnone k hk]]
    simp [hexp]

/-- A tick that closes an auction does not age the one behind it. -/
theorem not_tickLaw {s s' : Server} {out : List Event} {pre rest : List Nat} {a b : Nat}
    (inv : StoreInv s) (hnodes : s.auctionsList.nodes = pre ++ a :: b :: rest)
    (hstore : s'.auctions = (s.ticked.aged (pre ++ [a])).auctions) : ¬ TickLaw s s' out := by
  intro law
  have hb : b ∈ s.auctionsList.nodes := by simp [hnodes]
  obtain ⟨y, hy⟩ := inv.get hb
  have haged := law.aged b hb y hy
  have hnot : b ∉ pre ++ [a] := by
    have hnodup := hnodes ▸ inv.nodup
    rw [List.append_cons, List.nodup_append] at hnodup
    exact fun h => hnodup.2.2 b h b (by simp) rfl
  have hsame : s'.auctions[b]? = some y := by
    rw [hstore]
    exact (aged_get_not_mem hnot).trans hy
  have hy' : y = { y with duration := y.duration - 1 } :=
    Option.some.inj (hsame.symm.trans haged)
  have hd := congrArg Auction.duration hy'
  simp only at hd
  omega

/-- The tick law holds of exactly the ticks that find no expiring auction before the last one. -/
theorem tickLaw_iff {s s' : Server} {out : List Event} (inv : StoreInv s)
    (h : tickBody s = some (s', out)) : TickLaw s s' out ↔ OnlyLastExpires s := by
  cases tick_outcome inv.toListInv h with
  | quiet hall =>
    have hnone : ∀ k ∈ s.auctionsList.nodes, s.expires k = false :=
      fun k hk => not_expires inv hk (hall k hk)
    exact ⟨fun _ k hk => hnone k (List.mem_of_mem_dropLast hk), fun _ => tickLaw_quiet inv hnone⟩
  | expire pre a post x us _ hnodes hx hzero hpre hclose =>
    have hmem : a ∈ s.auctionsList.nodes := by simp [hnodes]
    have hexp : s.expires a = true := by
      have hold := (inv.listed a hmem x hx).older_duration
      exact (expires_iff hx).mpr (by omega)
    have hnone : ∀ k ∈ pre, s.expires k = false :=
      fun k hk => not_expires inv (by simp [hnodes, hk]) (hpre k hk)
    cases post with
    | nil =>
      have honly : OnlyLastExpires s := by
        intro k hk
        rw [hnodes, List.dropLast_concat] at hk
        exact hnone k hk
      refine ⟨fun _ => honly, fun _ => ?_⟩
      exact tickLaw_last inv hnodes hexp hnone rfl (List.append_nil pre)
        (closeAuction_closings hclose)
    | cons b rest =>
      have hin : a ∈ s.auctionsList.nodes.dropLast := by
        rw [hnodes, List.dropLast_append_of_ne_nil (by simp),
          List.dropLast_cons_of_ne_nil (by simp)]
        simp
      constructor
      · exact fun law => absurd law (not_tickLaw inv hnodes rfl)
      · intro honly
        simp [honly a hin] at hexp

/-- A step that keeps to the law for auction `a`: a tick that finds no expiring auction before the
last one, or anything else that does not buy `a` out. -/
def Undisturbed (a : Nat) (s : Server) : Action → Prop
  | .tick => OnlyLastExpires s
  | action => ∀ r ∈ Server.step s action, .closed a ∉ r.2

instance (a : Nat) (s : Server) : ∀ action, Decidable (Undisturbed a s action)
  | .tick => inferInstanceAs (Decidable (OnlyLastExpires s))
  | .accept fd t body => inferInstanceAs (Decidable (∀ r ∈ Server.step s (.accept fd t body), _))
  | .job env job => inferInstanceAs (Decidable (∀ r ∈ Server.step s (.job env job), _))

/-- Where an auction with duration `d` is after `n` ticks. -/
structure Remaining (a : Nat) (d : Int) (n : Nat) (s : Server) : Prop where
  store : StoreInv s
  created : a < s.auctions.length
  listed : n < d → a ∈ s.auctionsList.nodes ∧ ∃ x, s.auctions[a]? = some x ∧ x.duration = d - n
  gone : d ≤ n → a ∉ s.auctionsList.nodes

/-- Only a tick changes a duration. -/
theorem recordChange_duration {s : Server} {action : Action} {k : Nat} {x y : Auction}
    (h : RecordChange s action k x y) (hne : action ≠ .tick) : y.duration = x.duration := by
  cases h with
  | older => exact absurd rfl hne
  | _ => rfl

theorem remaining_other {a : Nat} {d : Int} {n : Nat} {s s' : Server} {action : Action}
    {out : List Event} (inv : Remaining a d n s) (hne : action ≠ .tick)
    (hkeeps : .closed a ∉ out) (hs : Server.step s action = some (s', out)) :
    Remaining a d n s' := by
  have heffect := step_effect hs
  have hlist := effect_list inv.store.toListInv heffect
  have hlen := inv.created.trans_le hlist.length_le
  have hiff : a ∈ s'.auctionsList.nodes ↔ a ∈ s.auctionsList.nodes := by
    cases hlist with
    | same _ hnodes => rw [hnodes]
    | create _ hnodes =>
      have hlt := inv.created
      rw [hnodes, List.mem_append, List.mem_singleton]
      constructor
      · rintro (h | h)
        · exact h
        · omega
      · exact Or.inl
    | close b hone _ hnodes =>
      have hab : a ≠ b := by
        rintro rfl
        exact hkeeps (mem_closings.mp (by simp [hone]))
      rw [hnodes, List.mem_erase_of_ne hab]
  refine ⟨storeInv_step inv.store heffect, hlen, ?_, fun hd => hiff.not.mpr (inv.gone hd)⟩
  intro hd
  obtain ⟨hmem, x, hx, hdur⟩ := inv.listed hd
  refine ⟨hiff.mpr hmem, ?_⟩
  have hy := List.getElem?_eq_getElem hlen
  rcases effect_record inv.store.toListInv heffect hy with ⟨x', hx', hchange⟩ | ⟨rfl, -⟩
  · obtain rfl : x = x' := Option.some.inj (hx.symm.trans hx')
    exact ⟨_, hy, (recordChange_duration hchange hne).trans hdur⟩
  · exact absurd inv.created (lt_irrefl _)

theorem remaining_tick {a : Nat} {d : Int} {n : Nat} {s s' : Server} {out : List Event}
    (inv : Remaining a d n s) (honly : OnlyLastExpires s) (h : tickBody s = some (s', out)) :
    Remaining a d (n + 1) s' := by
  have heffect : Effect s .tick s' out := .tick h
  have law := (tickLaw_iff inv.store h).mpr honly
  have hlist := effect_list inv.store.toListInv heffect
  refine ⟨storeInv_step inv.store heffect, inv.created.trans_le hlist.length_le, ?_, ?_⟩
  · intro hd
    obtain ⟨hmem, x, hx, hdur⟩ := inv.listed (by omega)
    have hnot : s.expires a = false := by
      rw [Bool.eq_false_iff]
      intro hexp
      have hone := (expires_iff hx).mp hexp
      omega
    refine ⟨?_, _, law.aged a hmem x hx, ?_⟩
    · rw [law.kept]
      simp [hmem, hnot]
    · simp only
      omega
  · intro hd hmem
    rw [law.kept, List.mem_filter] at hmem
    by_cases hlt : (n : Int) < d
    · obtain ⟨-, x, hx, hdur⟩ := inv.listed hlt
      have hexp : s.expires a = true := (expires_iff hx).mpr (by omega)
      simp [hexp] at hmem
    · exact inv.gone (by omega) hmem.1

theorem remaining_run {a : Nat} {d : Int} {s t : Server} {as : List Action} {tr : List Event}
    (run : Run Server.step (Undisturbed a) s as tr t) (hstart : Remaining a d 0 s) :
    Remaining a d (as.count .tick) t := by
  refine run.invariant (P := fun as _ t => Remaining a d (as.count .tick) t) (by simpa using hstart)
    fun {as _ s action s' out} _ inv hok hs => ?_
  cases action with
  | tick =>
    simp only [List.count_append, List.count_singleton_self]
    exact remaining_tick inv hok hs
  | accept fd msgType body =>
    simp only [List.count_append]
    exact remaining_other inv (by simp) (hok _ hs) hs
  | job env job =>
    simp only [List.count_append]
    exact remaining_other inv (by simp) (hok _ hs) hs

/-- After `n` ticks of a duration of `d`: on the list while `n < d`, closed and unlinked by the
`d`-th tick, and off the list from then on. -/
structure LifeLaw (a : Nat) (d : Int) (n : Nat) (s : Server) : Prop where
  listed : n < d → a ∈ s.auctionsList.nodes
  expires : n + 1 = d → ∀ s' out, OnlyLastExpires s → Server.step s .tick = some (s', out) →
    .closed a ∈ out ∧ a ∉ s'.auctionsList.nodes
  gone : d ≤ n → a ∉ s.auctionsList.nodes

theorem Remaining.lifeLaw {a : Nat} {d : Int} {n : Nat} {s : Server} (inv : Remaining a d n s) :
    LifeLaw a d n s := by
  refine ⟨fun hd => (inv.listed hd).1, ?_, inv.gone⟩
  intro hd s' out honly hs
  obtain ⟨hmem, x, hx, hdur⟩ := inv.listed (by omega)
  have law := (tickLaw_iff inv.store hs).mpr honly
  have hexp : s.expires a = true := (expires_iff hx).mpr (by omega)
  constructor
  · rw [← mem_closings, law.settled, List.mem_filter]
    exact ⟨hmem, hexp⟩
  · rw [law.kept, List.mem_filter]
    simp [hexp]

theorem storeInv_run {ok : Server → Action → Prop} {as : List Action} {tr : List Event}
    {s : Server} (run : Run Server.step ok Server.start as tr s) : StoreInv s :=
  run.invariant_state storeInv_start fun inv _ hs => storeInv_step inv (step_effect hs)

/-- The duration law. In every reachable state a tick does what it is for exactly when no auction
but the last one of the list expires, and in a run all of whose ticks are of this kind an auction
that is not bought out lives for as many ticks as its duration says. -/
theorem durationLaw_run {as : List Action} {tr : List Event} {s : Server}
    (run : Run Server.step (fun _ _ => True) Server.start as tr s) :
    (∀ s' out, Server.step s .tick = some (s', out) →
      (TickLaw s s' out ↔ OnlyLastExpires s)) ∧
    ∀ env job s₁ out x bs tr' t, Server.step s (.job env job) = some (s₁, out) →
      s₁.auctions = s.auctions ++ [x] →
      Run Server.step (Undisturbed s.auctions.length) s₁ bs tr' t →
      LifeLaw s.auctions.length x.duration (bs.count .tick) t := by
  have inv := storeInv_run run
  refine ⟨fun s' out hs => tickLaw_iff inv hs, ?_⟩
  intro env job s₁ out x bs tr' t hs hstore later
  have heffect := step_effect hs
  have inv₁ := storeInv_step inv heffect
  have hlen : s₁.auctions.length = s.auctions.length + 1 := by simp [hstore]
  have hx : s₁.auctions[s.auctions.length]? = some x := by simp [hstore]
  have hmem : s.auctions.length ∈ s₁.auctionsList.nodes := by
    cases effect_list inv.toListInv heffect with
    | same _ _ hsame => omega
    | create _ hnodes => simp [hnodes]
    | close _ _ _ _ hsame => omega
  have hpos := (inv₁.listed _ hmem x hx).duration.1
  have hstart : Remaining s.auctions.length x.duration 0 s₁ :=
    ⟨inv₁, by omega, fun _ => ⟨hmem, x, hx, by simp⟩, fun hle => by omega⟩
  exact (remaining_run later hstart).lifeLaw

def sampleCreator : Server :=
  ((exec Server.step (Server.Admits LoggedIn) Server.start sampleLogins).get (by decide)).1

def sampleBody : Text := ['V', '\r', '\n', '3', '\r', '\n', '5', '0']

def sampleListed : Server :=
  ((Server.step sampleCreator (sampleJob .ANCREATE 4 sampleBody)).get (by decide)).1

theorem durationLaw_run_sample :
    LifeLaw sampleCreator.auctions.length 3 2
      ((exec Server.step (Undisturbed sampleCreator.auctions.length) sampleListed
        [.tick, .tick]).get (by decide)).1 := by
  have run : Run Server.step (fun _ _ => True) Server.start sampleLogins _ sampleCreator :=
    (run_of_isSome (by decide)).mono fun _ _ _ => trivial
  let x := newAuction sampleMalloc ['V'] 3 50 1 (some ⟨0, ['A']⟩)
  have hstore : sampleListed.auctions = sampleCreator.auctions ++ [x] := by decide
  have hs : Server.step sampleCreator (sampleJob .ANCREATE 4 sampleBody) = some (sampleListed,
      ((Server.step sampleCreator (sampleJob .ANCREATE 4 sampleBody)).get (by decide)).2) :=
    (Option.some_get (by decide)).symm
  exact (durationLaw_run run).2 _ _ _ _ x [.tick, .tick] _ _ hs hstore (run_of_isSome (by decide))

/-- Two auctions of one tick each. -/
def sampleTwins : List Action :=
  sampleLogins ++ [sampleJob .ANCREATE 4 ['V', '\r', '\n', '1', '\r', '\n', '0'],
    sampleJob .ANCREATE 4 ['W', '\r', '\n', '1', '\r', '\n', '0']]

def sampleTwinsListed : Server :=
  ((exec Server.step (Server.Admits LoggedIn) Server.start sampleTwins).get (by decide)).1

/-- The first of two auctions that expire in the same tick keeps the second from ageing. -/
theorem durationLaw_fails : ¬ ∀ as tr s s' out,
    Run Server.step (Server.Admits LoggedIn) Server.start as tr s →
    Server.step s .tick = some (s', out) → TickLaw s s' out := by
  intro claim
  have run : Run Server.step (Server.Admits LoggedIn) Server.start sampleTwins _
      sampleTwinsListed := run_of_isSome (by decide)
  have hs : Server.step sampleTwinsListed .tick =
      some ((Server.step sampleTwinsListed .tick).get (by decide)) := (Option.some_get _).symm
  have law := claim _ _ _ _ _ run hs
  exact absurd law.settled (by decide)

end ZBid
