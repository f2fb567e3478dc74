import Mathlib.Order.Lattice
import Mathlib.Data.List.Pairwise

/-!
# Ascending auctions

An ascending auction starts at a floor price with nobody leading. A bid above the price makes its
bidder the leader at that price. The rules below hold after any number of bids.
-/
namespace Ascending

variable {ι α : Type} [LinearOrder α]

/-- The bids taken so far, oldest first, with the price and the leader they led to. -/
inductive Ascends (floor : α) (nobody : ι) : List (ι × α) → α → ι → Prop where
  | start : Ascends floor nobody [] floor nobody
  | bid {bids price leader} (bidder : ι) (amount : α) : Ascends floor nobody bids price leader →
      price < amount → Ascends floor nobody (bids ++ [(bidder, amount)]) amount bidder

variable {floor price : α} {nobody leader : ι} {bids : List (ι × α)}

theorem Ascends.floor_le (h : Ascends floor nobody bids price leader) : floor ≤ price := by
  induction h with
  | start => exact le_rfl
  | bid _ _ _ hlt ih => exact ih.trans hlt.le

theorem Ascends.le_price (h : Ascends floor nobody bids price leader) :
    ∀ b ∈ bids, b.2 ≤ price := by
  induction h with
  | start => simp
  | bid bidder amount _ hlt ih =>
    intro b hb
    rcases List.mem_append.mp hb with hb | hb
    · exact (ih b hb).trans hlt.le
    · rw [List.mem_singleton.mp hb]

theorem Ascends.above_floor (h : Ascends floor nobody bids price leader) :
    ∀ b ∈ bids, floor < b.2 := by
  induction h with
  | start => simp
  | bid bidder amount hbids hlt ih =>
    intro b hb
    rcases List.mem_append.mp hb with hb | hb
    · exact ih b hb
    · rw [List.mem_singleton.mp hb]
      exact lt_of_le_of_lt hbids.floor_le hlt

/-- Every bid is above all the bids before it. -/
theorem Ascends.rising (h : Ascends floor nobody bids price leader) :
    (bids.map Prod.snd).Pairwise (· < ·) := by
  induction h with
  | start => exact List.Pairwise.nil
  | bid bidder amount hbids hlt ih =>
    rw [List.map_append, List.pairwise_append]
    refine ⟨ih, List.pairwise_singleton _ _, ?_⟩
    intro v hv w hw
    obtain ⟨b, hb, rfl⟩ := List.mem_map.mp hv
    rw [List.mem_singleton.mp hw]
    exact lt_of_le_of_lt (hbids.le_price b hb) hlt

/-- The price and the leader are those of the last bid. -/
theorem Ascends.last (h : Ascends floor nobody bids price leader) :
    (leader, price) = bids.getLast?.getD (nobody, floor) := by
  cases h with
  | start => rfl
  | bid => simp

end Ascending
