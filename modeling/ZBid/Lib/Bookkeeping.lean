import Mathlib.Algebra.BigOperators.Group.List.Basic
import Mathlib.Data.List.Nodup
import Mathlib.Algebra.Order.Ring.Int

/-!
# Double-entry bookkeeping

A deal moves its price from the buyer, if there is one, to the seller. The balance of a party is
what it earned minus what it spent. Over any list of parties that contains everybody who deals,
the balances sum to zero.
-/
namespace Bookkeeping

variable {π : Type} [DecidableEq π]

structure Deal (π : Type) where
  seller : π
  buyer : Option π
  price : Int
  deriving DecidableEq

/-- The effect of one deal on the balance of a party. -/
def Deal.amount (p : π) (d : Deal π) : Int :=
  (if d.seller = p then d.price else 0) + (if d.buyer = some p then -d.price else 0)

def balance (p : π) (deals : List (Deal π)) : Int := (deals.map (Deal.amount p)).sum

theorem balance_concat (p : π) (ds : List (Deal π)) (d : Deal π) :
    balance p (ds ++ [d]) = balance p ds + d.amount p := by simp [balance]

/-- A party that neither sells nor buys has nothing. -/
theorem balance_of_stranger {p : π} {deals : List (Deal π)}
    (h : ∀ d ∈ deals, d.seller ≠ p ∧ d.buyer ≠ some p) : balance p deals = 0 := by
  apply List.sum_eq_zero
  intro n hn
  obtain ⟨d, hd, rfl⟩ := List.mem_map.mp hn
  obtain ⟨hs, hb⟩ := h d hd
  simp [Deal.amount, hs, hb]

/-- A balance is the sum over the sales minus the sum over the purchases. -/
theorem balance_eq (p : π) (deals : List (Deal π)) :
    balance p deals = ((deals.filter fun d => d.seller = p).map Deal.price).sum -
      ((deals.filter fun d => d.buyer = some p).map Deal.price).sum := by
  induction deals with
  | nil => rfl
  | cons d ds ih =>
    have hcons : balance p (d :: ds) = d.amount p + balance p ds := by simp [balance]
    rw [hcons, ih]
    by_cases hs : d.seller = p <;> by_cases hb : d.buyer = some p <;>
      simp [Deal.amount, hs, hb] <;> omega

/-- The parties of a deal are known, and a deal without a buyer moves nothing. -/
structure Deal.Among (parties : List π) (d : Deal π) : Prop where
  seller : d.seller ∈ parties
  buyer : ∀ b, d.buyer = some b → b ∈ parties
  unsold : d.buyer = none → d.price = 0

theorem sum_map_ite {parties : List π} (hn : parties.Nodup) {q : π} (hq : q ∈ parties) (n : Int) :
    (parties.map fun p => if q = p then n else 0).sum = n := by
  have hcount : parties.count q = 1 := List.count_eq_one_of_mem hn hq
  have hsum := List.sum_map_ite_eq parties (fun _ => n) (fun _ => 0) q
  simpa [hcount, eq_comm] using hsum

/-- A deal moves money but makes none. -/
theorem Deal.sum_amount {parties : List π} (hn : parties.Nodup) {d : Deal π}
    (h : d.Among parties) : (parties.map fun p => d.amount p).sum = 0 := by
  have hseller := sum_map_ite hn h.seller d.price
  have hbuyer : (parties.map fun p => if d.buyer = some p then -d.price else 0).sum = -d.price := by
    cases hb : d.buyer with
    | none => simp [h.unsold hb]
    | some b => simpa using sum_map_ite hn (h.buyer b hb) (-d.price)
  simp only [Deal.amount]
  rw [List.sum_map_add, hseller, hbuyer]
  omega

theorem sum_balance {parties : List π} (hn : parties.Nodup) {deals : List (Deal π)}
    (h : ∀ d ∈ deals, d.Among parties) : (parties.map fun p => balance p deals).sum = 0 := by
  induction deals with
  | nil => simp [balance]
  | cons d ds ih =>
    have hd := Deal.sum_amount hn (h d List.mem_cons_self)
    have hds := ih fun e he => h e (List.mem_cons_of_mem _ he)
    have hsplit : (fun p => balance p (d :: ds)) = fun p => d.amount p + balance p ds := by
      funext p
      simp [balance]
    rw [hsplit, List.sum_map_add, hd, hds, Int.add_zero]

def Deal.map {ρ : Type} (f : π → ρ) (d : Deal π) : Deal ρ := ⟨f d.seller, d.buyer.map f, d.price⟩

/-- A renaming that tells the parties apart keeps their balances. -/
theorem balance_map {ρ : Type} [DecidableEq ρ] {f : π → ρ} {parties : List π}
    (hf : ∀ p ∈ parties, ∀ q ∈ parties, f p = f q → p = q) {p : π} (hp : p ∈ parties)
    {deals : List (Deal π)} (h : ∀ d ∈ deals, d.Among parties) :
    balance (f p) (deals.map (Deal.map f)) = balance p deals := by
  simp only [balance, List.map_map]
  refine congrArg List.sum (List.map_congr_left fun d hd => ?_)
  have hseller : f d.seller = f p ↔ d.seller = p :=
    ⟨hf _ (h d hd).seller _ hp, congrArg f⟩
  have hbuyer : d.buyer.map f = some (f p) ↔ d.buyer = some p := by
    rw [Option.map_eq_some_iff]
    constructor
    · rintro ⟨b, hb, hfb⟩
      rw [hb, hf _ ((h d hd).buyer b hb) _ hp hfb]
    · exact fun hb => ⟨p, hb, rfl⟩
  simp only [Function.comp_apply, Deal.amount, Deal.map, hseller, hbuyer]

end Bookkeeping
