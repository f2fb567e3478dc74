import ZBid.Lib.Chain
import Mathlib.Data.List.Perm.Basic

/-!
# Several chains in one memory

An operation on a chain takes nodes from the free memory and gives nodes back to it. If it touches
no other address, then chains without a common node stay without one, each of the others stays as
it is, and the memory in use is always that of the chains: no node leaks and none is freed while a
chain still has it.
-/
namespace Chain

variable {α ι : Type}

theorem release_some {h : Memory α} {a : Nat} {node : Node α} (ha : h a = some node) :
    release h (some a) = some (Function.update h a none) := by
  simp [release, ha]

theorem release_eq_some {h h' : Memory α} {p : Ptr} (hr : release h p = some h') :
    ∃ a, h a ≠ none ∧ h' = Function.update h a none := by
  obtain ⟨a, rfl, hr⟩ := Option.bind_eq_some_iff.mp hr
  obtain ⟨node, ha, hr⟩ := Option.bind_eq_some_iff.mp hr
  exact ⟨a, by simp [ha], (Option.some.inj hr).symm⟩

/-- A link that is set neither allocates nor frees. -/
theorem setNext_none_iff {h h' : Memory α} {p q : Ptr} (hs : setNext h p q = some h') (c : Nat) :
    h' c = none ↔ h c = none := by
  obtain ⟨a, rfl, hs⟩ := Option.bind_eq_some_iff.mp hs
  obtain ⟨node, ha, hs⟩ := Option.bind_eq_some_iff.mp hs
  obtain rfl := Option.some.inj hs
  by_cases hca : c = a
  · simp [hca, ha]
  · rw [store_other _ _ hca]

/-- From `h` to `h'` a chain's nodes become those of `cells'`: what it has lost is free, what it
has gained was free, and all else is as it was. -/
structure Replaced (h h' : Memory α) (cells cells' : List (Nat × α)) : Prop where
  same : ∀ c, c ∉ cells.map Prod.fst → c ∉ cells'.map Prod.fst → h' c = h c
  freed : ∀ c ∈ cells.map Prod.fst, c ∉ cells'.map Prod.fst → h' c = none
  fresh : ∀ c ∈ cells'.map Prod.fst, c ∉ cells.map Prod.fst → h c = none

section Replaced

variable {h h' : Memory α} {p : Ptr} {cells cells' : List (Nat × α)} {n : Nat} {x : α}

theorem Replaced.refl (h : Memory α) (cells : List (Nat × α)) : Replaced h h cells cells :=
  ⟨fun _ _ _ => rfl, fun _ hc hc' => absurd hc hc', fun _ hc hc' => absurd hc hc'⟩

theorem Replaced.insert (hperm : cells'.Perm ((n, x) :: cells)) (hfree : h n = none)
    (hsame : ∀ c, c ∉ cells.map Prod.fst → c ≠ n → h' c = h c) : Replaced h h' cells cells' := by
  have hmem (c : Nat) : c ∈ cells'.map Prod.fst ↔ c = n ∨ c ∈ cells.map Prod.fst := by
    rw [(hperm.map Prod.fst).mem_iff, List.map_cons, List.mem_cons]
  refine ⟨fun c hc hc' => hsame c hc fun hcn => hc' ((hmem c).mpr (Or.inl hcn)),
    fun c hc hc' => absurd ((hmem c).mpr (Or.inr hc)) hc', fun c hc' hc => ?_⟩
  rcases (hmem c).mp hc' with rfl | hold
  · exact hfree
  · exact absurd hold hc

/-- A node is taken out, and one that was allocated is free afterwards: it is the same one. -/
theorem Replaced.erase {k b : Nat}
    (hl' : Links h' p (cells.eraseIdx k) none)
    (hsame : ∀ c, c ∉ cells.map Prod.fst → h' c = h c) (hb : h b ≠ none) (hb' : h' b = none) :
    Replaced h h' cells (cells.eraseIdx k) := by
  have hsub : (cells.eraseIdx k).map Prod.fst ⊆ cells.map Prod.fst :=
    List.map_subset _ List.eraseIdx_subset
  refine ⟨fun c hc _ => hsame c hc, fun c hc hc' => ?_, fun c hc' hc => absurd (hsub hc') hc⟩
  have hlost (a : Nat) (ha : a ∈ cells.map Prod.fst)
      (ha' : a ∉ (cells.eraseIdx k).map Prod.fst) : (cells.map Prod.fst)[k]? = some a := by
    rw [← List.eraseIdx_map] at ha'
    obtain ⟨j, hj⟩ := List.mem_iff_getElem?.mp ha
    by_cases hjk : j = k
    · rwa [← hjk]
    · exact absurd (List.mem_eraseIdx_iff_getElem?.mpr ⟨j, hjk, hj⟩) ha'
  have hbin : b ∈ cells.map Prod.fst := by
    by_contra hout
    exact hb ((hsame b hout) ▸ hb')
  have hbk := hlost b hbin (hl'.fresh hb')
  obtain rfl : c = b := Option.some.inj ((hlost c hc hc').symm.trans hbk)
  exact hb'

end Replaced

/-- Chains without a common node, in a memory that has nothing else but what `h₀` has. -/
structure Shares (h₀ h : Memory α) (head : ι → Ptr) (cells : ι → List (Nat × α)) : Prop where
  links : ∀ i, Links h (head i) (cells i) none
  apart : ∀ i j a, a ∈ (cells i).map Prod.fst → a ∈ (cells j).map Prod.fst → i = j
  foreign : ∀ a, h₀ a ≠ none → h a = h₀ a ∧ ∀ i, a ∉ (cells i).map Prod.fst
  owned : ∀ a, h₀ a = none → h a ≠ none → ∃ i, a ∈ (cells i).map Prod.fst

/-- No chain has a node yet. -/
theorem Shares.empty (h₀ : Memory α) : Shares h₀ h₀ (fun _ : ι => none) fun _ => [] where
  links _ := rfl
  apart _ _ _ ha := absurd ha List.not_mem_nil
  foreign _ _ := ⟨rfl, fun _ => List.not_mem_nil⟩
  owned _ hfree ha := absurd hfree ha

/-- One of the chains is changed. -/
theorem Shares.replace [DecidableEq ι] {h₀ h h' : Memory α} {head : ι → Ptr}
    {cells : ι → List (Nat × α)} (hshares : Shares h₀ h head cells) {i : ι} {p : Ptr}
    {cells' : List (Nat × α)} (hl : Links h' p cells' none)
    (hr : Replaced h h' (cells i) cells') :
    Shares h₀ h' (Function.update head i p) (Function.update cells i cells') := by
  -- A node of another chain is none of this one, before or after.
  have hother {j : ι} (hji : j ≠ i) {a : Nat} (ha : a ∈ (cells j).map Prod.fst) :
      a ∉ (cells i).map Prod.fst ∧ a ∉ cells'.map Prod.fst := by
    have hout : a ∉ (cells i).map Prod.fst := fun hin => hji (hshares.apart j i a ha hin)
    exact ⟨hout, fun hin => (hshares.links j).allocated ha (hr.fresh a hin hout)⟩
  have hforeign {a : Nat} (ha : h₀ a ≠ none) : a ∉ cells'.map Prod.fst := by
    obtain ⟨hsame, hout⟩ := hshares.foreign a ha
    exact fun hin => ha (hsame ▸ hr.fresh a hin (hout i))
  constructor
  · intro j
    by_cases hji : j = i
    · subst hji
      simpa using hl
    · simp only [Function.update_of_ne hji]
      exact (hshares.links j).congr fun b hb => hr.same b (hother hji hb).1 (hother hji hb).2
  · intro j k a hj hk
    by_cases hji : j = i <;> by_cases hki : k = i
    · rw [hji, hki]
    · subst hji
      rw [Function.update_self] at hj
      rw [Function.update_of_ne hki] at hk
      exact absurd hj (hother hki hk).2
    · subst hki
      rw [Function.update_self] at hk
      rw [Function.update_of_ne hji] at hj
      exact absurd hk (hother hji hj).2
    · rw [Function.update_of_ne hji] at hj
      rw [Function.update_of_ne hki] at hk
      exact hshares.apart j k a hj hk
  · intro a ha
    obtain ⟨hsame, hout⟩ := hshares.foreign a ha
    refine ⟨(hr.same a (hout i) (hforeign ha)).trans hsame, fun j => ?_⟩
    by_cases hji : j = i
    · subst hji
      simpa using hforeign ha
    · simpa only [Function.update_of_ne hji] using hout j
  · intro a hfree ha
    by_cases hin : a ∈ cells'.map Prod.fst
    · exact ⟨i, by simpa using hin⟩
    · have hout : a ∉ (cells i).map Prod.fst := fun hold => ha (hr.freed a hold hin)
      obtain ⟨j, hj⟩ := hshares.owned a hfree (hr.same a hout hin ▸ ha)
      have hji : j ≠ i := fun hji => hout (hji ▸ hj)
      exact ⟨j, by simpa only [Function.update_of_ne hji] using hj⟩

end Chain
