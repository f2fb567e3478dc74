import ZBid.Store

/-!
# Closes and the list of auctions

An auction leaves the list in the step that passes it to `closeAuction`, and in no other. So the
auctions closed so far are those created that are no longer on the list.
-/
namespace ZBid

open CInt CString Runs

/-- The closes of a log, oldest first. -/
def closings (tr : List Event) : List Nat :=
  tr.filterMap fun
    | .closed a => some a
    | _ => none

theorem closings_append (xs ys : List Event) : closings (xs ++ ys) = closings xs ++ closings ys :=
  List.filterMap_append

theorem closings_messages {out : List Event} (h : Messages out) : closings out = [] := by
  rw [closings, List.filterMap_eq_nil_iff]
  intro e he
  obtain ⟨m, rfl⟩ := h e he
  rfl

theorem closings_accepted (a : Nat) (bidder : CharStar) (amount : Int) (out : List Event) :
    closings (.accepted a bidder amount :: out) = closings out := rfl

theorem closings_closed (a : Nat) (out : List Event) :
    closings (.closed a :: out) = a :: closings out := rfl

theorem mem_closings {tr : List Event} {a : Nat} : a ∈ closings tr ↔ .closed a ∈ tr := by
  simp only [closings, List.mem_filterMap]
  constructor
  · rintro ⟨e, he, h⟩
    cases e with
    | closed b =>
      obtain rfl := Option.some.inj h
      exact he
    | _ => cases h
  · exact fun h => ⟨_, h, rfl⟩

/-- A call of `closeAuction` logs one close. -/
theorem closeAuction_closings {s s' : Server} {a : Nat} {out : List Event}
    (h : closeAuction s a = some (s', out)) : closings out = [a] := by
  obtain ⟨c⟩ := closeAuction_spec h
  have hdebit : closings c.debit = [] := by
    rcases debitWinner_spec c.debits with ⟨-, -, hout⟩ | ⟨_, _, _, _, -, -, -, -, -, hout⟩ <;>
      rw [hout] <;> rfl
  have hcredit : closings c.credit = [] := by
    obtain ⟨_, _, -, -, -, hout⟩ := creditCreator_spec c.credits
    rw [hout]
    rfl
  rw [c.log, closings_append, closings_messages (messages_map _ _ _), List.append_nil,
    List.cons_append, closings_closed, closings_append, hdebit, hcredit]
  rfl

/-- What a step does to the list of auctions: nothing, append a new auction, or close an auction
and take it off. -/
inductive ListChange (s s' : Server) (out : List Event) : Prop where
  | same : closings out = [] → s'.auctionsList.nodes = s.auctionsList.nodes →
      s'.auctions.length = s.auctions.length → ListChange s s' out
  | create : closings out = [] →
      s'.auctionsList.nodes = s.auctionsList.nodes ++ [s.auctions.length] →
      s'.auctions.length = s.auctions.length + 1 → ListChange s s' out
  | close (a : Nat) : closings out = [a] → a ∈ s.auctionsList.nodes →
      s'.auctionsList.nodes = s.auctionsList.nodes.erase a →
      s'.auctions.length = s.auctions.length → ListChange s s' out

/-- The messages of a raise close nothing. -/
theorem closings_raise (a : Nat) (bidder : CharStar) (amount : Int) (fds : List Int)
    (body : Text) (fd : Int) :
    closings (.accepted a bidder amount ::
      (fds.filter (· ≠ -1)).map (fun fd => message fd .ANUPDATE body) ++ [answer fd .OK]) = [] := by
  rw [List.cons_append, closings_accepted]
  exact closings_messages (messages_append (messages_map _ _ _) (messages_answer _ _))

theorem effect_list {s s' : Server} {action : Action} {out : List Event} (inv : ListInv s)
    (h : Effect s action s' out) : ListChange s s' out := by
  cases h with
  | accept hacc => cases hacc <;> exact .same rfl rfl rfl
  | quiet hout => exact .same (closings_messages hout) rfl rfl
  | logout => exact .same rfl rfl rfl
  | create name duration price us creator list body _ _ _ _ _ _ _ _ _ hins =>
    exact .create rfl (insertAtTail_spec inv.wf hins).1 (by simp)
  | watch => exact .same rfl rfl (by simp [Server.setAuction])
  | leave => exact .same rfl rfl (by simp [Server.setAuction])
  | raise => exact .same (closings_raise ..) rfl (by simp [Server.setAuction])
  | buy a x user bid s₁ _ out _ _ hon _ _ hclose hunlink =>
    obtain ⟨us, -, -, rfl⟩ := buy_outcome inv hon.mem hon.record hclose hunlink
    have hone := (closings_accepted a user.username bid out).trans (closeAuction_closings hclose)
    exact .close a hone hon.mem rfl (by simp [Server.setAuction, Server.withUsers])
  | tick h =>
    cases tick_outcome inv h with
    | quiet => exact .same rfl rfl (by simp [Server.aged, Server.ticked])
    | expire pre a post x us _ hnodes _ _ _ hclose =>
      refine .close a (closeAuction_closings hclose) (by simp [hnodes]) ?_
        (by simp [Server.aged, Server.ticked, Server.withUsers])
      rw [hnodes, erase_of_nodup (hnodes ▸ inv.nodup)]

theorem ListChange.length_le {s s' : Server} {out : List Event} (h : ListChange s s' out) :
    s.auctions.length ≤ s'.auctions.length := by
  cases h <;> omega

/-- The auctions closed so far are those created that are no longer on the list, each closed
once. -/
structure ClosedInv (tr : List Event) (s : Server) : Prop where
  once : (closings tr).Nodup
  closed : ∀ a, a ∈ closings tr ↔ a < s.auctions.length ∧ a ∉ s.auctionsList.nodes

theorem closedInv_start : ClosedInv [] Server.start := by
  constructor <;> simp [closings, Server.start]

theorem closedInv_step {s s' : Server} {out tr : List Event} (list : ListInv s)
    (inv : ClosedInv tr s) (h : ListChange s s' out) : ClosedInv (tr ++ out) s' := by
  have hquiet : closings out = [] → closings (tr ++ out) = closings tr := by
    intro h
    rw [closings_append, h, List.append_nil]
  cases h with
  | same hnone hnodes hlen =>
    refine ⟨hquiet hnone ▸ inv.once, fun a => ?_⟩
    rw [hquiet hnone, hnodes, hlen]
    exact inv.closed a
  | create hnone hnodes hlen =>
    refine ⟨hquiet hnone ▸ inv.once, fun a => ?_⟩
    rw [hquiet hnone, hnodes, hlen, List.mem_append, List.mem_singleton, inv.closed a]
    by_cases ha : a ∈ s.auctionsList.nodes
    · simp [ha]
    · simp only [ha, not_false_eq_true, and_true, false_or]
      omega
  | close b hone hmem hnodes hlen =>
    have hopen : b ∉ closings tr := fun hb => ((inv.closed b).mp hb).2 hmem
    constructor
    · rw [closings_append, hone, List.nodup_append]
      refine ⟨inv.once, List.nodup_singleton b, ?_⟩
      intro a ha c hc hac
      rw [List.mem_singleton] at hc
      exact hopen (hc ▸ hac ▸ ha)
    · intro a
      rw [closings_append, hone, hnodes, hlen, List.mem_append, List.mem_singleton, inv.closed a,
        List.Nodup.mem_erase_iff list.nodup]
      by_cases hab : a = b
      · subst hab
        simp [list.stored a hmem]
      · simp [hab]

end ZBid
