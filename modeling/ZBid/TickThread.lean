import ZBid.Answers
import ZBid.Concurrent

/-!
# When the tick thread can go on

The tick thread holds a pointer to a node without the lock. As long as no job buys the auction of
that node, each of its steps is defined, unless the text about a close is too long for its array;
when one has bought it, the node is freed before the tick thread is done with it.
-/
namespace ZBid

open CInt CString Runs Bookkeeping AuctionHouse

/-- A job of the run bought the auction while the tick thread was at its node. -/
def BoughtWhileHeld (as : List InterleavedAction) (a : Nat) : Prop :=
  ∃ before env job rest tr s, as = before ++ .job env job :: rest ∧
    Run Interleaved.step Interleaved.Attributed Interleaved.start before tr s ∧
    a ∈ s.tick.held ∧ s.server.buysOut job a = true

/-- What stops the tick thread: a node that was freed, and a text that is too long. Its auction
was bought while it was at the node. -/
structure TickThreadLaw (as : List InterleavedAction) (tr : List Event) (s : Interleaved) :
    Prop where
  idle : s.tick = .idle → (Interleaved.step s .startTick).isSome
  atNode : ∀ a, s.tick = .atNode a → ((Interleaved.step s .age).isSome ↔ a ∉ closings tr)
  closing : ∀ a x, s.tick = .closing a → s.server.auctions[a]? = some x → a ∉ closings tr →
    ((Interleaved.step s .close).isSome ↔ (closedBody x).length < bufferSize)
  survives : ∀ a s' out, s.tick = .closing a → Interleaved.step s .close = some (s', out) →
    (s'.tick = .crashed ↔ a ∈ closings tr)
  bought : ∀ a ∈ s.tick.held, a ∈ closings tr → BoughtWhileHeld as a

variable {tr : List Event} {s : Interleaved} {a : Nat}

/-- The auction whose node the tick thread holds is on the list if it has not been closed. -/
theorem held_listed (closed : ClosedInv tr s.server) (timed : TimedInv s)
    (hheld : a ∈ s.tick.held) : a ∈ s.server.auctionsList.nodes ↔ a ∉ closings tr := by
  have hlt := timed.held a hheld
  rw [closed.closed a]
  tauto

theorem names_knows {s : Server} {name : CharStar} (named : ∀ u ∈ s.users, u.username ≠ none)
    (h : s.Names name) : s.Knows name := by
  obtain ⟨u, hu, rfl⟩ := h
  obtain ⟨w, hw⟩ := Option.ne_none_iff_exists'.mp (named u hu)
  exact ⟨u, hu, by simp [hw, strcmpEq]⟩

/-- There is room for one more auction on every list of those won. -/
theorem CallInv.won_room {s : Server} (inv : CallInv tr s) (lists : UserLists s)
    (ha : a < s.auctions.length) (hopen : a ∉ closings tr) {u : User} (hu : u ∈ s.users) :
    u.auctionsWon.length < intMax := by
  have hwf : u.auctionsWon.WF := (lists u hu).2
  obtain ⟨exact, hexact, -⟩ := inv.funds u hu
  have hwon : u.auctionsWon.nodes = _ := hexact.won
  have hsub : u.auctionsWon.nodes.Sublist (closings tr) := by
    rw [hwon]
    exact List.filter_sublist
  have hnodup : (a :: u.auctionsWon.nodes).Nodup :=
    List.nodup_cons.mpr ⟨fun h => hopen (hsub.subset h), inv.closed.once.sublist hsub⟩
  have hstored : ∀ b ∈ a :: u.auctionsWon.nodes, b < s.auctions.length := by
    intro b hb
    rcases List.mem_cons.mp hb with rfl | hb
    · exact ha
    · exact ((inv.closed.closed b).mp (hsub.subset hb)).1
  have hle := length_le_intMax inv.list hnodup hstored
  have hmax := inv.list.counterMax
  rw [List.length_cons] at hle
  rw [hwf]
  omega

theorem BoughtWhileHeld.append {as : List InterleavedAction} (h : BoughtWhileHeld as a)
    (action : InterleavedAction) : BoughtWhileHeld (as ++ [action]) a := by
  obtain ⟨before, env, job, rest, tr, s, rfl, hbought⟩ := h
  exact ⟨before, env, job, rest ++ [action], tr, s, by simp, hbought⟩

theorem bought_run {as : List InterleavedAction}
    (run : Run Interleaved.step Interleaved.Attributed Interleaved.start as tr s) :
    ∀ a ∈ s.tick.held, a ∈ closings tr → BoughtWhileHeld as a := by
  refine run.invariant
    (P := fun as tr s => ∀ a ∈ s.tick.held, a ∈ closings tr → BoughtWhileHeld as a) ?_ ?_
  · simp [Interleaved.start, TickPc.held]
  · intro as tr s action s' out run inv hok h a hheld hclosed
    have halive := alive_of_step h
    have calls := callInv_run run halive
    have timed := (timedInv_run run).1
    have hlisted : a ∈ s.server.auctionsList.nodes → a ∉ closings tr :=
      fun ha hgone => ((calls.closed.closed a).mp hgone).2 ha
    have hrun := run.step hok h
    cases interleaved_effect h with
    | request request hrequest hstep =>
      by_cases hgone : a ∈ closings tr
      · exact (inv a hheld hgone).append _
      have ha := (held_listed calls.closed timed hheld).mpr hgone
      have hoff := ((callInv_run hrun halive).closed.closed a).mp hclosed |>.2
      have heffect := step_effect hstep
      by_contra hnot
      refine hoff (effect_keeps calls.list heffect (request_ne_tick hrequest) ha ?_)
      rintro env job rfl
      rw [← Bool.not_eq_true]
      intro hbuys
      cases action with
      | job env' job' =>
        obtain ⟨rfl, rfl⟩ := Action.job.inj (Option.some.inj hrequest)
        exact hnot ⟨as, env', job', [], tr, s, rfl, run, hheld, hbuys⟩
      | accept | startTick | age | close => cases hrequest
    | startTick =>
      rw [held_ofNode] at hheld
      rw [List.append_nil] at hclosed
      exact absurd hclosed (hlisted (List.mem_of_head? hheld))
    | age b server duration htick hb hage =>
      obtain ⟨x, -, rfl, -⟩ := ageAuction_spec hage
      rw [List.append_nil] at hclosed
      refine absurd hclosed (hlisted ?_)
      dsimp only at hheld
      split at hheld
      · obtain rfl : b = a := Option.some.inj hheld
        exact hb
      · rw [held_ofNode] at hheld
        exact mem_of_nodeAfter hheld
    | close => simp [TickPc.held] at hheld
    | crash => simp [TickPc.held] at hheld

theorem age_isSome {server : Server} (list : ListInv server) :
    (Interleaved.step ⟨server, .atNode a⟩ .age).isSome ↔ a ∈ server.auctionsList.nodes := by
  constructor
  · intro h
    obtain ⟨⟨s', out⟩, hstep⟩ := Option.isSome_iff_exists.mp h
    cases interleaved_effect hstep with
    | request request hrequest => cases hrequest
    | age b aged duration htick hb =>
      obtain rfl := TickPc.atNode.inj htick
      exact hb
  · intro ha
    obtain ⟨x, hx⟩ := list.get ha
    rw [step_age ha (ageAuction_eq hx)]
    rfl

theorem close_isSome {server : Server} {x : Auction} (calls : CallInv tr server)
    (lists : UserLists server) (hx : server.auctions[a]? = some x) (hopen : a ∉ closings tr)
    (ha : a ∈ server.auctionsList.nodes) :
    (Interleaved.step ⟨server, .closing a⟩ .close).isSome ↔
      (closedBody x).length < bufferSize := by
  constructor
  · intro h
    obtain ⟨⟨s', out⟩, hstep⟩ := Option.isSome_iff_exists.mp h
    cases interleaved_effect hstep with
    | request request hrequest => cases hrequest
    | close b closed unlinked htick hclose | crash b closed htick hclose =>
      obtain rfl := TickPc.closing.inj htick
      exact closeAuction_fits hx hclose
  · intro hfits
    have party := calls.parties a x hx
    obtain ⟨closed, out, hclose⟩ := closeAuction_isSome calls.users lists calls.names.named hx
      party.winner (fun _ hu => calls.won_room lists (calls.list.stored a ha) hopen hu)
      (names_knows calls.names.named party.creator) hfits
    obtain ⟨us, rfl, -⟩ := closeAuction_frame hclose
    have hunlink := (calls.list.withUsers us).unlink_eq ha
    simp only [Interleaved.step, hclose, hunlink, Option.bind_eq_bind, Option.bind_some]
    rfl

theorem crashed_iff {server : Server} {s' : Interleaved} {out : List Event}
    (list : ListInv server) (h : Interleaved.step ⟨server, .closing a⟩ .close = some (s', out)) :
    s'.tick = .crashed ↔ a ∉ server.auctionsList.nodes := by
  cases interleaved_effect h with
  | request request hrequest => cases hrequest
  | close b closed unlinked htick hclose hunlink =>
    obtain rfl := TickPc.closing.inj htick
    simpa using list.listed_of_unlink hclose hunlink
  | crash b closed htick hclose hunlink =>
    obtain rfl := TickPc.closing.inj htick
    simpa using list.absent_of_unlink hclose hunlink

/-- In every run, as long as the tick thread has not crashed. -/
theorem tickThread_run {as : List InterleavedAction}
    (run : Run Interleaved.step Interleaved.Attributed Interleaved.start as tr s)
    (halive : s.tick ≠ .crashed) : TickThreadLaw as tr s := by
  have sponsored := run.mono fun _ _ hok => hok.sponsored
  have calls := callInv_run run halive
  have timed := (timedInv_run run).1
  have hbought := bought_run run
  obtain ⟨server, tick⟩ := s
  refine ⟨?_, ?_, ?_, ?_, hbought⟩
  · rintro rfl
    rfl
  · rintro a rfl
    rw [age_isSome calls.list, held_listed calls.closed timed rfl]
  · rintro a x rfl hx hopen
    have ha := (held_listed calls.closed timed rfl).mpr hopen
    rcases interleaved_run booksInv_dateless sponsored with ⟨-, hsequential⟩ | ⟨_, _, _, _, hdead⟩
    · exact close_isSome calls (hsequential.parties hx).2.1 hx hopen ha
    · exact absurd hdead.tick halive
  · rintro a s' out rfl h
    rw [crashed_iff calls.list h, held_listed calls.closed timed rfl, not_not]

/-- The tick thread is at the node of the auction that B buys. -/
def sampleFreed : List InterleavedAction :=
  sampleShort ++ [.startTick, sampleTurn .ANBID 5 ['1', '\r', '\n', '1', '0']]

theorem tickThread_run_sample :
    let sample := (exec Interleaved.step Interleaved.Attributed Interleaved.start sampleFreed).get
      (by decide)
    sample.1.tick = .atNode 0 ∧ 0 ∈ closings sample.2 ∧
      TickThreadLaw sampleFreed sample.2 sample.1 :=
  ⟨by decide, by decide, tickThread_run (run_of_isSome (by decide)) (by decide)⟩

end ZBid
