import ZBid.Deadline
import ZBid.Race

/-!
# How early and how late an auction can end

The tick thread goes past the auctions of the list one at a time, and any number of requests may
come between two of its steps. So an auction may be created, or bought, behind it or ahead of it
while it is on its way. It ages an auction once on each walk that does not end before, and a walk
ends before at an auction ahead that has no time left.
-/
namespace ZBid

open CInt CString Runs

/-- An auction on the list has time left, unless the tick thread is about to close it. -/
structure TimedInv (s : Interleaved) : Prop where
  held : ∀ a ∈ s.tick.held, a < s.server.auctions.length
  left : ∀ k ∈ s.server.auctionsList.nodes, ∀ x, s.server.auctions[k]? = some x →
    x.duration ≤ intMax ∧ if s.tick = .closing k then x.duration = 0 else 1 ≤ x.duration

theorem timedInv_start : TimedInv Interleaved.start where
  held := by simp [Interleaved.start, TickPc.held]
  left := by simp [Interleaved.start, Server.start, createList]

theorem timedInv_request {s : Interleaved} {server : Server} {action : Action} {out : List Event}
    (inv : TimedInv s) (list : ListInv s.server) (hne : action ≠ .tick)
    (h : Effect s.server action server out) : TimedInv { s with server } := by
  have hlist := effect_list list h
  refine ⟨fun a ha => (inv.held a ha).trans_le hlist.length_le, fun k hk y hy => ?_⟩
  rcases effect_record list h hy with ⟨x, hx, hchange⟩ | ⟨rfl, hnew⟩
  · have hlt := (List.getElem?_eq_some_iff.mp hx).1
    rw [recordChange_duration hchange hne]
    exact inv.left k (mem_of_change hlt hlist hk) x hx
  · -- The tick thread holds the node of an older auction.
    have hfree : s.tick ≠ .closing s.server.auctions.length := by
      intro hclosing
      have hlt := inv.held s.server.auctions.length (by simp [hclosing, TickPc.held])
      exact absurd hlt (Nat.lt_irrefl _)
    obtain ⟨name, duration, price, us, creator, -, -, -, hd, hd', -, -, -⟩ := hnew
    rw [if_neg hfree]
    exact ⟨hd', hd⟩

theorem ofNode_ne_closing (node : Option Nat) (a : Nat) : TickPc.ofNode node ≠ .closing a := by
  cases node <;> simp [TickPc.ofNode]

theorem held_ofNode (node : Option Nat) : (TickPc.ofNode node).held = node := by
  cases node <;> rfl

/-- Aging takes one off what is left. -/
theorem TimedInv.older_duration {s : Interleaved} (inv : TimedInv s) {a : Nat} {x : Auction}
    (htick : s.tick ≠ .closing a) (ha : a ∈ s.server.auctionsList.nodes)
    (hx : s.server.auctions[a]? = some x) : x.older.duration = x.duration - 1 := by
  obtain ⟨hmax, hmin⟩ := inv.left a ha x hx
  rw [if_neg htick] at hmin
  exact wrap32_of_inInt ⟨by simp only [intMin]; omega, by omega⟩

theorem timedInv_age {s server : Server} {a : Nat} {duration : Int}
    (inv : TimedInv ⟨s, .atNode a⟩) (list : ListInv s) (ha : a ∈ s.auctionsList.nodes)
    (h : ageAuction s a = some (server, duration)) :
    TimedInv ⟨server, if duration = 0 then .closing a
      else .ofNode (nodeAfter a server.auctionsList.nodes)⟩ := by
  obtain ⟨x, hx, rfl, rfl⟩ := ageAuction_spec h
  have hold := inv.older_duration (by simp) ha hx
  have hlength := (redated_aged s [a]).length
  constructor
  · intro b hb
    rw [hlength]
    refine list.stored b ?_
    split at hb
    · obtain rfl : a = b := Option.some.inj hb
      exact ha
    · rw [held_ofNode] at hb
      exact mem_of_nodeAfter hb
  · intro k hk y hy
    rw [aged_get] at hy
    obtain ⟨z, hz, rfl⟩ := Option.map_eq_some_iff.mp hy
    obtain ⟨hmax, hmin⟩ := inv.left k hk z hz
    rw [if_neg (by simp)] at hmin
    by_cases hka : k = a
    · subst hka
      obtain rfl : x = z := Option.some.inj (hx.symm.trans hz)
      simp only [List.mem_singleton, ↓reduceIte]
      refine ⟨by omega, ?_⟩
      by_cases hzero : x.older.duration = 0
      · simp [hzero]
      · rw [if_neg hzero, if_neg (ofNode_ne_closing _ k)]
        omega
    · have hfree : (if x.older.duration = 0 then TickPc.closing a
          else .ofNode (nodeAfter a (s.aged [a]).auctionsList.nodes)) ≠ .closing k := by
        split
        · exact fun h => hka (TickPc.closing.inj h).symm
        · exact ofNode_ne_closing _ k
      simp only [List.mem_singleton, hka, ↓reduceIte]
      rw [if_neg hfree]
      exact ⟨hmax, hmin⟩

/-- The auction that the tick thread has closed was the one without time. -/
theorem timedInv_close {s server server' : Server} {a : Nat} {out : List Event}
    (inv : TimedInv ⟨s, .closing a⟩) (list : ListInv s)
    (hclose : closeAuction s a = some (server, out))
    (hunlink : unlinkAuction server a = some server') : TimedInv ⟨server', .idle⟩ := by
  have ha := list.listed_of_unlink hclose hunlink
  obtain ⟨us, rfl, -⟩ := closeAuction_frame hclose
  obtain rfl := Option.some.inj (((list.withUsers us).unlink_eq ha).symm.trans hunlink)
  refine ⟨by simp [TickPc.held], fun k hk x hx => ?_⟩
  obtain ⟨hka, hk⟩ := list.nodup.mem_erase_iff.mp hk
  obtain ⟨hmax, hmin⟩ := inv.left k hk x hx
  rw [if_neg fun h => hka (TickPc.closing.inj h).symm] at hmin
  exact ⟨hmax, by simpa using hmin⟩

theorem timedInv_crash {s server : Server} {a : Nat} {out : List Event}
    (inv : TimedInv ⟨s, .closing a⟩) (list : ListInv s)
    (hclose : closeAuction s a = some (server, out)) (hunlink : unlinkAuction server a = none) :
    TimedInv ⟨server, .crashed⟩ := by
  have ha := list.absent_of_unlink hclose hunlink
  obtain ⟨us, rfl, -⟩ := closeAuction_frame hclose
  refine ⟨by simp [TickPc.held], fun k hk x hx => ?_⟩
  obtain ⟨hmax, hmin⟩ := inv.left k hk x hx
  have hka : TickPc.closing a ≠ .closing k := by
    intro h
    obtain rfl := TickPc.closing.inj h
    exact ha hk
  rw [if_neg hka] at hmin
  exact ⟨hmax, by simpa using hmin⟩

theorem timedInv_step {s s' : Interleaved} {action : InterleavedAction} {out : List Event}
    (inv : TimedInv s) (list : ListInv s.server)
    (h : Interleaved.step s action = some (s', out)) : TimedInv s' := by
  obtain ⟨server, tick⟩ := s
  cases interleaved_effect h with
  | request request hrequest hstep =>
    exact timedInv_request inv list (request_ne_tick hrequest) (step_effect hstep)
  | startTick htick =>
    obtain rfl : tick = .idle := htick
    refine ⟨fun a ha => ?_, fun k hk x hx => ?_⟩
    · rw [held_ofNode] at ha
      exact list.stored a (List.mem_of_head? ha)
    · obtain ⟨hmax, hmin⟩ := inv.left k hk x hx
      rw [if_neg (by simp)] at hmin
      exact ⟨hmax, by rw [if_neg (ofNode_ne_closing _ k)]; exact hmin⟩
  | age a aged duration htick ha hage =>
    obtain rfl : tick = .atNode a := htick
    exact timedInv_age inv list ha hage
  | close a closed unlinked htick hclose hunlink =>
    obtain rfl : tick = .closing a := htick
    exact timedInv_close inv list hclose hunlink
  | crash a closed htick hclose hunlink =>
    obtain rfl : tick = .closing a := htick
    exact timedInv_crash inv list hclose hunlink

/-- Whatever runs between the steps of the tick thread, and whether it has crashed or not, the list
is in order. -/
theorem listInv_interleaved {s s' : Interleaved} {action : InterleavedAction} {out : List Event}
    (list : ListInv s.server) (h : Interleaved.step s action = some (s', out)) :
    ListInv s'.server := by
  cases interleaved_effect h with
  | request request hrequest hstep => exact listInv_step list (step_effect hstep)
  | startTick => exact list.of_ids rfl rfl rfl
  | age a server duration htick ha hage =>
    obtain ⟨x, -, rfl, -⟩ := ageAuction_spec hage
    exact list.aged [a]
  | close a server server' htick hclose hunlink =>
    have ha := list.listed_of_unlink hclose hunlink
    obtain ⟨us, rfl, -⟩ := closeAuction_frame hclose
    obtain rfl := Option.some.inj (((list.withUsers us).unlink_eq ha).symm.trans hunlink)
    exact (list.withUsers us).erase ha
  | crash a server htick hclose =>
    obtain ⟨us, rfl, -⟩ := closeAuction_frame hclose
    exact list.withUsers us

theorem timedInv_run {ok : Interleaved → InterleavedAction → Prop} {as : List InterleavedAction}
    {tr : List Event} {s : Interleaved} (run : Run Interleaved.step ok Interleaved.start as tr s) :
    TimedInv s ∧ ListInv s.server := by
  refine run.invariant_state (P := fun s => TimedInv s ∧ ListInv s.server)
    ⟨timedInv_start, listInv_start⟩ fun inv _ h => ?_
  exact ⟨timedInv_step inv.1 inv.2 h, listInv_interleaved inv.2 h⟩

/-- The tick thread will come to auction `a` on the walk it is on, if no other ends the walk. -/
def TickPc.due (a : Nat) : TickPc → Nat
  | .atNode b => if b ≤ a then 1 else 0
  | .idle | .closing _ | .crashed => 0

/-- The open auctions ahead of an auction, but for one that the tick thread is about to close. -/
def Interleaved.ahead (s : Interleaved) (a : Nat) : Nat :=
  (s.server.auctionsList.nodes.filter fun b => b < a ∧ s.tick ≠ .closing b).length

theorem due_head {nodes : List Nat} (hsorted : nodes.Pairwise (· < ·)) {a : Nat}
    (ha : a ∈ nodes) : (TickPc.ofNode nodes.head?).due a = 1 := by
  cases nodes with
  | nil => cases ha
  | cons b rest =>
    have hle : b ≤ a := by
      rcases List.mem_cons.mp ha with rfl | hrest
      · exact le_rfl
      · exact ((List.pairwise_cons.mp hsorted).1 a hrest).le
    simp [TickPc.ofNode, TickPc.due, hle]

/-- From the node of an auction the tick thread goes on to those behind it. -/
theorem due_after {nodes : List Nat} (hsorted : nodes.Pairwise (· < ·)) {a b : Nat}
    (ha : a ∈ nodes) (hb : b ∈ nodes) :
    (TickPc.ofNode (nodeAfter b nodes)).due a = if b < a then 1 else 0 := by
  obtain ⟨pre, post, rfl⟩ := List.append_of_mem hb
  rw [nodeAfter_eq (hsorted.imp fun h => h.ne)]
  obtain ⟨-, hpost, hpre⟩ := List.pairwise_append.mp hsorted
  obtain ⟨hbehind, hrest⟩ := List.pairwise_cons.mp hpost
  have hside : a ∈ post ∨ a ≤ b := by
    rcases List.mem_append.mp ha with hmem | hmem
    · exact .inr (hpre a hmem b List.mem_cons_self).le
    · rcases List.mem_cons.mp hmem with rfl | hmem
      · exact .inr le_rfl
      · exact .inl hmem
  rcases hside with hmem | hle
  · rw [due_head hrest hmem, if_pos (hbehind a hmem)]
  · rw [if_neg (by omega)]
    cases post with
    | nil => rfl
    | cons c rest =>
      have hcb := hbehind c List.mem_cons_self
      simp only [List.head?_cons, TickPc.ofNode, TickPc.due]
      rw [if_neg (by omega)]

/-- Requests put nothing ahead of an auction that is there. -/
theorem ahead_request {s : Interleaved} {server : Server} {a : Nat} {out : List Event}
    (ha : a < s.server.auctions.length) (h : ListChange s.server server out) :
    Interleaved.ahead { s with server } a ≤ s.ahead a :=
  filter_change ha h fun _ hb => (of_decide_eq_true hb).1

/-- Nothing is about to be closed. -/
theorem ahead_eq {s : Interleaved} (h : ∀ b, s.tick ≠ .closing b) (a : Nat) :
    s.ahead a = s.server.ahead a := by
  simp only [Interleaved.ahead, Server.ahead, h, ne_eq, not_false_eq_true, and_true]

theorem ahead_closing (s : Server) (b a : Nat) :
    Interleaved.ahead ⟨s, .closing b⟩ a =
      (s.auctionsList.nodes.filter fun c => c < a ∧ c ≠ b).length := by
  have hne (c : Nat) : TickPc.closing b ≠ .closing c ↔ c ≠ b := by
    rw [ne_eq, TickPc.closing.injEq, eq_comm]
  simp only [Interleaved.ahead, hne]

/-- One that is about to be closed is ahead no more. -/
theorem ahead_stop {s : Server} (list : ListInv s) {b : Nat} (hb : b ∈ s.auctionsList.nodes)
    (a : Nat) : Interleaved.ahead ⟨s, .closing b⟩ a + (if b < a then 1 else 0) = s.ahead a := by
  have herase : (s.auctionsList.nodes.filter fun c => c < a ∧ c ≠ b) =
      (s.auctionsList.nodes.filter (· < a)).erase b := by
    rw [(list.nodup.filter _).erase_eq_filter, List.filter_filter]
    exact List.filter_congr fun c _ => by rw [Bool.eq_iff_iff]; simp [and_comm]
  rw [ahead_closing, herase, Server.ahead, List.length_erase]
  by_cases hba : b < a
  · have hmem : b ∈ s.auctionsList.nodes.filter (· < a) := by simp [hb, hba]
    have hpos := List.length_pos_of_mem hmem
    rw [if_pos hba, if_pos hmem]
    omega
  · have hmem : b ∉ s.auctionsList.nodes.filter (· < a) := by simp [hba]
    rw [if_neg hba, if_neg hmem, Nat.add_zero]

theorem ahead_closed {s server server' : Server} {b : Nat} {out : List Event} (list : ListInv s)
    (hclose : closeAuction s b = some (server, out))
    (hunlink : unlinkAuction server b = some server') (a : Nat) :
    Interleaved.ahead ⟨server', .idle⟩ a = Interleaved.ahead ⟨s, .closing b⟩ a := by
  have hb := list.listed_of_unlink hclose hunlink
  obtain ⟨us, rfl, -⟩ := closeAuction_frame hclose
  obtain rfl := Option.some.inj (((list.withUsers us).unlink_eq hb).symm.trans hunlink)
  rw [ahead_eq (by simp), ahead_closing, Server.ahead]
  change ((s.auctionsList.nodes.erase b).filter _).length = _
  rw [list.nodup.erase_eq_filter, List.filter_filter]
  exact congrArg List.length (List.filter_congr fun c _ => by rw [Bool.eq_iff_iff]; simp)

/-- Auction `a` had `d` ticks left and `m` auctions ahead of it `n` walks ago, when the tick thread
was to come to it on `p` walks, one or none: it has lost a tick on each walk that came to it, and
there was an auction ahead for each that did not. -/
structure ClockInv (a : Nat) (d : Int) (m p n : Nat) (tr : List Event) (s : Interleaved) :
    Prop where
  created : a < s.server.auctions.length
  left : a ∈ s.server.auctionsList.nodes → ∃ x, s.server.auctions[a]? = some x ∧
    d + s.tick.due a ≤ x.duration + n + p ∧
    x.duration + n + p + s.ahead a ≤ d + m + s.tick.due a
  settled : a ∈ s.server.auctionsList.nodes ∨ a ∈ closings tr

section Clock

variable {a m p n : Nat} {d : Int} {tr out : List Event}

theorem clockInv_request {s : Interleaved} {server : Server} {action : Action}
    (inv : ClockInv a d m p n tr s) (list : ListInv s.server) (hne : action ≠ .tick)
    (h : Effect s.server action server out) :
    ClockInv a d m p n (tr ++ out) { s with server } := by
  have hlist := effect_list list h
  have hlen := inv.created.trans_le hlist.length_le
  refine ⟨hlen, fun hmem => ?_, settled_append inv.settled hlist⟩
  obtain ⟨x, hx, hlow, hhigh⟩ := inv.left (mem_of_change inv.created hlist hmem)
  have hahead := ahead_request inv.created hlist
  have hy := List.getElem?_eq_getElem hlen
  rcases effect_record list h hy with ⟨x', hx', hchange⟩ | ⟨rfl, -⟩
  · obtain rfl : x = x' := Option.some.inj (hx.symm.trans hx')
    have hduration := recordChange_duration hchange hne
    exact ⟨_, hy, by rw [hduration]; exact hlow, by rw [hduration]; dsimp only; omega⟩
  · exact absurd inv.created (lt_irrefl _)

theorem clockInv_start {s : Server} (inv : ClockInv a d m p n tr ⟨s, .idle⟩) (list : ListInv s) :
    ClockInv a d m p (n + 1) tr ⟨s.ticked, .ofNode s.auctionsList.nodes.head?⟩ := by
  refine ⟨inv.created, fun hmem => ?_, inv.settled⟩
  obtain ⟨x, hx, hlow, hhigh⟩ := inv.left hmem
  refine ⟨x, hx, ?_⟩
  rw [ahead_eq (by simp)] at hhigh
  rw [ahead_eq (fun b => ofNode_ne_closing _ b), due_head list.sorted hmem]
  change _ ∧ _ + (s.ahead a : Int) ≤ _
  simp only [TickPc.due] at hlow hhigh
  push_cast at hlow hhigh ⊢
  omega

/-- Behind the auction it was at, the tick thread goes on; or it stops, and that auction is ahead
no more. -/
theorem next_after {s : Server} (list : ListInv s) {b : Nat} (hb : b ∈ s.auctionsList.nodes)
    (ha : a ∈ s.auctionsList.nodes) {tick : TickPc}
    (htick : tick = .closing b ∨ tick = .ofNode (nodeAfter b s.auctionsList.nodes)) :
    tick.due a ≤ (if b < a then 1 else 0) ∧
      Interleaved.ahead ⟨s, tick⟩ a + (if b < a then 1 else 0) = s.ahead a + tick.due a := by
  rcases htick with rfl | rfl
  · exact ⟨Nat.zero_le _, ahead_stop list hb a⟩
  · rw [due_after list.sorted ha hb, ahead_eq fun c => ofNode_ne_closing _ c]
    exact ⟨le_rfl, rfl⟩

theorem clockInv_age {s server : Server} {b : Nat} {duration : Int}
    (inv : ClockInv a d m p n tr ⟨s, .atNode b⟩) (timed : TimedInv ⟨s, .atNode b⟩)
    (list : ListInv s) (hb : b ∈ s.auctionsList.nodes)
    (h : ageAuction s b = some (server, duration)) :
    ClockInv a d m p n tr ⟨server, if duration = 0 then .closing b
      else .ofNode (nodeAfter b server.auctionsList.nodes)⟩ := by
  obtain ⟨y, hy, rfl, rfl⟩ := ageAuction_spec h
  have hold := timed.older_duration (by simp) hb hy
  have hlength := (redated_aged s [b]).length
  refine ⟨hlength ▸ inv.created, fun hmem => ?_, inv.settled⟩
  obtain ⟨x, hx, hlow, hhigh⟩ := inv.left hmem
  rw [ahead_eq (by simp)] at hhigh
  simp only [TickPc.due] at hlow hhigh
  generalize htick : (if y.older.duration = 0 then TickPc.closing b
    else .ofNode (nodeAfter b (s.aged [b]).auctionsList.nodes)) = tick
  have hnext : tick = .closing b ∨
      tick = .ofNode (nodeAfter b (s.aged [b]).auctionsList.nodes) := by
    rw [← htick]
    split <;> simp
  obtain ⟨hdue, hahead⟩ := next_after (list.aged [b]) hb hmem hnext
  have hsame : (s.aged [b]).ahead a = s.ahead a := rfl
  rw [hsame] at hahead
  by_cases hab : a = b
  · subst hab
    obtain rfl : x = y := Option.some.inj (hx.symm.trans hy)
    rw [if_neg (lt_irrefl a)] at hdue hahead
    rw [if_pos le_rfl] at hlow hhigh
    refine ⟨x.older, by simp [aged_get, hx], ?_⟩
    dsimp only
    push_cast at hlow hhigh
    omega
  · have hle : b ≤ a ↔ b < a := by omega
    simp only [hle] at hlow hhigh
    refine ⟨x, by simp [aged_get, hx, hab], ?_⟩
    dsimp only
    omega

theorem clockInv_close {s server server' : Server} {b : Nat}
    (inv : ClockInv a d m p n tr ⟨s, .closing b⟩) (list : ListInv s)
    (hclose : closeAuction s b = some (server, out))
    (hunlink : unlinkAuction server b = some server') :
    ClockInv a d m p n (tr ++ out) ⟨server', .idle⟩ := by
  have hb := list.listed_of_unlink hclose hunlink
  have hahead := ahead_closed list hclose hunlink a
  have hclosings := closeAuction_closings hclose
  obtain ⟨us, rfl, -⟩ := closeAuction_frame hclose
  obtain rfl := Option.some.inj (((list.withUsers us).unlink_eq hb).symm.trans hunlink)
  have hlist : ListChange s { s.withUsers us with
      auctionsList := ⟨s.auctionsList.nodes.erase b, s.auctionsList.length - 1⟩ } out :=
    .close b hclosings hb rfl rfl
  refine ⟨inv.created, fun hmem => ?_, settled_append inv.settled hlist⟩
  obtain ⟨x, hx, hlow, hhigh⟩ := inv.left (mem_of_change inv.created hlist hmem)
  exact ⟨x, hx, hlow, by rw [hahead]; exact hhigh⟩

/-- Nobody is ahead for longer because the tick thread has crashed. -/
theorem clockInv_crash {s server : Server} {b : Nat}
    (inv : ClockInv a d m p n tr ⟨s, .closing b⟩) (list : ListInv s)
    (hclose : closeAuction s b = some (server, out)) (hunlink : unlinkAuction server b = none) :
    ClockInv a d m p n (tr ++ out) ⟨server, .crashed⟩ := by
  have hb := list.absent_of_unlink hclose hunlink
  obtain ⟨us, rfl, -⟩ := closeAuction_frame hclose
  refine ⟨inv.created, fun hmem => ?_, inv.settled.imp_right fun h => ?_⟩
  · obtain ⟨x, hx, hlow, hhigh⟩ := inv.left hmem
    refine ⟨x, hx, hlow, ?_⟩
    have hahead : Interleaved.ahead ⟨s.withUsers us, .crashed⟩ a =
        Interleaved.ahead ⟨s, .closing b⟩ a := by
      rw [ahead_eq (by simp), ahead_closing, Server.ahead]
      refine congrArg List.length (List.filter_congr fun c hc => ?_)
      have hne : c ≠ b := fun hcb => hb (hcb ▸ hc)
      simp [hne]
    rw [hahead]
    exact hhigh
  · rw [closings_append]
    exact List.mem_append_left _ h

theorem clockInv_step {s s' : Interleaved} {action : InterleavedAction}
    (inv : ClockInv a d m p n tr s) (timed : TimedInv s) (list : ListInv s.server)
    (h : Interleaved.step s action = some (s', out)) :
    ClockInv a d m p (n + if action = .startTick then 1 else 0) (tr ++ out) s' := by
  obtain ⟨server, tick⟩ := s
  cases interleaved_effect h with
  | request request hrequest hstep =>
    have hne : action ≠ .startTick := by
      rintro rfl
      cases hrequest
    rw [if_neg hne]
    exact clockInv_request inv list (request_ne_tick hrequest) (step_effect hstep)
  | startTick htick =>
    obtain rfl : tick = .idle := htick
    rw [List.append_nil, if_pos rfl]
    exact clockInv_start inv list
  | age b aged duration htick hb hage =>
    obtain rfl : tick = .atNode b := htick
    rw [List.append_nil]
    exact clockInv_age inv timed list hb hage
  | close b closed unlinked htick hclose hunlink =>
    obtain rfl : tick = .closing b := htick
    exact clockInv_close inv list hclose hunlink
  | crash b closed htick hclose hunlink =>
    obtain rfl : tick = .closing b := htick
    exact clockInv_crash inv list hclose hunlink

end Clock

/-- What `n` walks do to an auction that had `d` ticks left and `m` auctions ahead of it, when the
tick thread was to come to it on `p` walks, one or none. -/
structure ClockLaw (a : Nat) (d : Int) (m p n : Nat) (tr : List Event) (s : Interleaved) :
    Prop where
  listed : a ∈ s.server.auctionsList.nodes → ∃ x, s.server.auctions[a]? = some x ∧
    d + s.tick.due a ≤ x.duration + n + p ∧
    x.duration + n + p + s.ahead a ≤ d + m + s.tick.due a
  expires : s.tick = .closing a → a ∈ s.server.auctionsList.nodes → d ≤ n + p ∧ n + p ≤ d + m
  settled : d + m + s.tick.due a ≤ n + p → s.tick ≠ .closing a →
    a ∉ s.server.auctionsList.nodes ∧ .closed a ∈ tr

theorem ClockInv.law {a m p n : Nat} {d : Int} {tr : List Event} {s : Interleaved}
    (inv : ClockInv a d m p n tr s) (timed : TimedInv s) : ClockLaw a d m p n tr s := by
  refine ⟨inv.left, fun htick hmem => ?_, fun hle htick => ?_⟩
  · obtain ⟨x, hx, hlow, hhigh⟩ := inv.left hmem
    have hzero := (timed.left a hmem x hx).2
    rw [if_pos htick] at hzero
    rw [htick] at hlow hhigh
    simp only [TickPc.due] at hlow hhigh
    omega
  · have hoff : a ∉ s.server.auctionsList.nodes := by
      intro hmem
      obtain ⟨x, hx, -, hhigh⟩ := inv.left hmem
      have hpos := (timed.left a hmem x hx).2
      rw [if_neg htick] at hpos
      omega
    exact ⟨hoff, mem_closings.mp (inv.settled.resolve_left hoff)⟩

/-- From every reachable state, at whatever auction the tick thread is, and for every auction on
the list, whatever comes between its steps after that: it is closed no sooner than its duration
says, and no more walks later than there are auctions ahead of it, if it is not bought before. -/
theorem clock_run {as bs : List InterleavedAction} {tr tr' : List Event} {s t : Interleaved}
    (run : Run Interleaved.step (fun _ _ => True) Interleaved.start as tr s) {a : Nat}
    {x : Auction} (ha : a ∈ s.server.auctionsList.nodes) (hx : s.server.auctions[a]? = some x)
    (later : Run Interleaved.step (fun _ _ => True) s bs tr' t) :
    ClockLaw a x.duration (s.ahead a) (s.tick.due a) (bs.count .startTick) tr' t := by
  have inv : ClockInv a x.duration (s.ahead a) (s.tick.due a) (bs.count .startTick) tr' t := by
    refine later.invariant (P := fun bs tr' t => ClockInv a x.duration (s.ahead a) (s.tick.due a)
      (bs.count .startTick) tr' t) ?_ ?_
    · have hlt := (List.getElem?_eq_some_iff.mp hx).1
      exact ⟨hlt, fun _ => ⟨x, hx, by simp, by simp; omega⟩, .inl ha⟩
    · intro bs tr' t action t' out run' inv hok h
      obtain ⟨timed, list⟩ := timedInv_run (run.trans run')
      have hstep := clockInv_step inv timed list h
      rw [List.count_append, List.count_singleton]
      simp only [beq_iff_eq]
      exact hstep
  exact inv.law (timedInv_run (run.trans later)).1

/-- A logs in and creates two auctions of one tick each. -/
def sampleTwinsOpen : List InterleavedAction :=
  [.accept 4 MsgType.LOGIN.code ['A', '\r', '\n', 'x'],
    sampleTurn .ANCREATE 4 ['V', '\r', '\n', '1', '\r', '\n', '0'],
    sampleTurn .ANCREATE 4 ['W', '\r', '\n', '1', '\r', '\n', '0']]

def sampleTwinsOpened : Interleaved × List Event :=
  (exec Interleaved.step (fun _ _ => True) Interleaved.start sampleTwinsOpen).get (by decide)

/-- The walk ends at the first of them; the second one is closed on the next walk. -/
theorem clock_run_sample :
    let later := (exec Interleaved.step (fun _ _ => True) sampleTwinsOpened.1
      [.startTick, .age, sampleTurn .USRBLNC 4 [], .close, .startTick, .age]).get (by decide)
    later.1.tick = .closing 1 ∧ ClockLaw 1 1 1 0 2 later.2 later.1 := by
  have first : Run Interleaved.step (fun _ _ => True) Interleaved.start sampleTwinsOpen
      sampleTwinsOpened.2 sampleTwinsOpened.1 := run_of_isSome (by decide)
  have hmem : 1 ∈ sampleTwinsOpened.1.server.auctionsList.nodes := by decide
  have hx : sampleTwinsOpened.1.server.auctions[1]? =
      some (newAuction sampleMalloc ['W'] 1 0 2 (some ⟨0, ['A']⟩)) := by decide
  have hahead : sampleTwinsOpened.1.ahead 1 = 1 := by decide
  have hdue : sampleTwinsOpened.1.tick.due 1 = 0 := by decide
  have later : Run Interleaved.step (fun _ _ => True) sampleTwinsOpened.1
      [.startTick, .age, sampleTurn .USRBLNC 4 [], .close, .startTick, .age] _ _ :=
    run_of_isSome (by decide)
  have law := clock_run first hmem hx later
  rw [hahead, hdue] at law
  exact ⟨by decide, law⟩

end ZBid
