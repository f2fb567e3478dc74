import ZBid.Lib.Pool
import ZBid.Lib.Runs
import Mathlib.Data.List.Pairwise

/-!
# Work queues

Requests wait in one queue; a worker takes the first one out and finishes it, in two separate
steps. What is taken out is in the order of sending, what is finished need not be: a client's
requests are finished in order exactly as long as no worker finishes one while another worker
holds an earlier one of the same client.
-/
namespace WorkQueue

open Runs

variable {β κ : Type}

/-- A request, with its place in the order of sending. -/
abbrev Stamped (β : Type) := Nat × β

structure State (β : Type) where
  sent : Nat
  queue : List (Stamped β)
  workers : List (Option (Stamped β))
  deriving DecidableEq, Repr

def State.init (workers : Nat) : State β := ⟨0, [], List.replicate workers none⟩

/-- The requests that workers have taken out and not finished. -/
def State.held (s : State β) : List (Stamped β) := s.workers.filterMap id

inductive Op (β : Type) where
  | send (request : β)
  | remove (worker : Nat)
  | finish (worker : Nat)

/-- What an operation did; a request is finished while the other workers hold `others`. -/
inductive Mark (β : Type) where
  | sent (r : Stamped β)
  | finished (r : Stamped β) (others : List (Stamped β))
  deriving DecidableEq, Repr

/-- An idle worker takes the oldest request, and a worker with a request finishes it. -/
def step : Step (State β) (Op β) (Mark β) := fun s op =>
  match op with
  | .send request => some ({ s with
      sent := s.sent + 1, queue := s.queue ++ [(s.sent, request)] }, [.sent (s.sent, request)])
  | .remove i =>
    match s.queue, s.workers[i]? with
    | r :: rest, some none =>
      some ({ s with queue := rest, workers := s.workers.set i (some r) }, [])
    | _, _ => none
  | .finish i =>
    match s.workers[i]? with
    | some (some r) =>
      let s' := { s with workers := s.workers.set i none }
      some (s', [.finished r s'.held])
    | _ => none

def sentOf (tr : List (Mark β)) : List (Stamped β) :=
  tr.filterMap fun
    | .sent r => some r
    | .finished _ _ => none

def finishedOf (tr : List (Mark β)) : List (Stamped β) :=
  tr.filterMap fun
    | .sent _ => none
    | .finished r _ => some r

@[simp] theorem sentOf_append (xs ys : List (Mark β)) :
    sentOf (xs ++ ys) = sentOf xs ++ sentOf ys := List.filterMap_append

@[simp] theorem finishedOf_append (xs ys : List (Mark β)) :
    finishedOf (xs ++ ys) = finishedOf xs ++ finishedOf ys := List.filterMap_append

@[simp] theorem sentOf_sent (r : Stamped β) : sentOf [Mark.sent r] = [r] := rfl
@[simp] theorem sentOf_finished (r : Stamped β) (others : List (Stamped β)) :
    sentOf [Mark.finished r others] = [] := rfl
@[simp] theorem finishedOf_sent (r : Stamped β) : finishedOf [Mark.sent r] = [] := rfl
@[simp] theorem finishedOf_finished (r : Stamped β) (others : List (Stamped β)) :
    finishedOf [Mark.finished r others] = [r] := rfl

section Clients

variable [DecidableEq κ] (client : β → κ)

/-- The requests of one client. -/
def requestsOf (c : κ) (rs : List (Stamped β)) : List (Stamped β) :=
  rs.filter fun r => client r.2 = c

/-- What is finished for a client is what it sent first, in that order. -/
def InOrder (tr : List (Mark β)) : Prop :=
  ∀ c, requestsOf client c (finishedOf tr) <+: requestsOf client c (sentOf tr)

/-- When a request is finished, the requests of the same client that other workers hold were all
sent later. -/
def NoOvertaking (tr : List (Mark β)) : Prop :=
  ∀ r others, Mark.finished r others ∈ tr → ∀ r' ∈ others, client r'.2 = client r.2 → r.1 < r'.1

end Clients

/-- Every request sent is finished, held or in the queue, and those taken out are the first. -/
structure Account (tr : List (Mark β)) (s : State β) : Prop where
  sorted : (sentOf tr).Pairwise (·.1 < ·.1)
  below : ∀ r ∈ sentOf tr, r.1 < s.sent
  removed : ∃ out, sentOf tr = out ++ s.queue ∧ out.Perm (finishedOf tr ++ s.held)

theorem account_init (workers : Nat) : Account ([] : List (Mark β)) (State.init workers) := by
  refine ⟨List.Pairwise.nil, by simp [sentOf], [], rfl, ?_⟩
  have hnone : (State.init workers : State β).held = [] := by
    simp [State.held, State.init]
  rw [hnone]
  exact List.Perm.nil

/-- A worker that takes a request holds one more. -/
theorem held_take {s : State β} {i : Nat} (hi : s.workers[i]? = some none) (r : Stamped β) :
    ((s.workers.set i (some r)).filterMap id).Perm (r :: s.held) :=
  Pool.filterMap_set id hi rfl rfl

/-- A worker that finishes held the request beside what the others hold. -/
theorem held_finish {s : State β} {i : Nat} {r : Stamped β} (hi : s.workers[i]? = some (some r)) :
    s.held.Perm (r :: (s.workers.set i none).filterMap id) := by
  obtain ⟨hlt, hget⟩ := List.getElem?_eq_some_iff.mp hi
  have hnone : (s.workers.set i none)[i]? = some none := List.getElem?_set_self hlt
  have hback : (s.workers.set i none).set i (some r) = s.workers := by
    rw [List.set_set, ← hget, List.set_getElem_self]
  have hperm := Pool.filterMap_set id hnone (show id none = none from rfl)
    (show id (some r) = some r from rfl)
  rwa [hback] at hperm

theorem account_step {tr : List (Mark β)} {s s' : State β} {op : Op β} {out : List (Mark β)}
    (acc : Account tr s) (h : step s op = some (s', out)) : Account (tr ++ out) s' := by
  obtain ⟨removed, hsent, hperm⟩ := acc.removed
  cases op with
  | send request =>
    simp only [step, Option.some.injEq, Prod.mk.injEq] at h
    obtain ⟨rfl, rfl⟩ := h
    simp only [State.held] at hperm
    refine ⟨?_, ?_, removed, ?_, ?_⟩
    · simpa [List.pairwise_append] using ⟨acc.sorted, fun r x hr => acc.below (r, x) hr⟩
    · intro r hr
      simp only [sentOf_append, sentOf_sent, List.mem_append, List.mem_singleton] at hr
      rcases hr with hr | rfl
      · exact Nat.lt_succ_of_lt (acc.below r hr)
      · exact Nat.lt_succ_self _
    · simp [hsent]
    · simpa [State.held] using hperm
  | remove i =>
    simp only [step] at h
    split at h
    · rename_i r rest hq hw
      simp only [Option.some.injEq, Prod.mk.injEq] at h
      obtain ⟨rfl, rfl⟩ := h
      rw [List.append_nil]
      refine ⟨acc.sorted, acc.below, removed ++ [r], by simp [hsent, hq], ?_⟩
      calc (removed ++ [r]).Perm ([r] ++ (finishedOf tr ++ s.held)) :=
            List.perm_append_comm.trans (hperm.append_left [r])
        _ |>.Perm (finishedOf tr ++ (r :: s.held)) := by simpa using List.perm_middle.symm
        _ |>.Perm _ := (held_take hw r).symm.append_left _
    · cases h
  | finish i =>
    simp only [step] at h
    split at h
    · rename_i r hw
      simp only [Option.some.injEq, Prod.mk.injEq] at h
      obtain ⟨rfl, rfl⟩ := h
      refine ⟨by simpa using acc.sorted, by simpa using acc.below, removed, by simpa using hsent,
        ?_⟩
      have hback := hperm.trans ((held_finish hw).append_left (finishedOf tr))
      simpa [State.held] using hback
    · cases h

theorem account_run {ok : State β → Op β → Prop} {workers : Nat} {ops : List (Op β)}
    {tr : List (Mark β)} {s : State β} (run : Run step ok (State.init workers) ops tr s) :
    Account tr s :=
  run.invariant (P := fun _ tr s => Account tr s) (account_init workers)
    fun _ acc _ h => account_step acc h

section Order

variable {client : β → κ}

theorem noOvertaking_append (tr tr' : List (Mark β)) : NoOvertaking client (tr ++ tr') ↔
    NoOvertaking client tr ∧ NoOvertaking client tr' := by
  simp only [NoOvertaking, List.mem_append, or_imp, forall_and]

theorem noOvertaking_sent (r : Stamped β) : NoOvertaking client [Mark.sent r] := by
  intro r' others h
  simp at h

theorem noOvertaking_finished (r : Stamped β) (others : List (Stamped β)) :
    NoOvertaking client [Mark.finished r others] ↔
      ∀ r' ∈ others, client r'.2 = client r.2 → r.1 < r'.1 := by
  constructor
  · intro h
    exact h r others List.mem_cons_self
  · intro h r' others' hmem
    simp only [List.mem_singleton, Mark.finished.injEq] at hmem
    obtain ⟨rfl, rfl⟩ := hmem
    exact h

/-- Of the requests sent, those removed are done, now finished, or held by others. The one finished
now comes next after those done iff the others hold only later ones. -/
theorem prefix_snoc_iff {sent removed waiting done others : List (Stamped β)} {r : Stamped β}
    (hsorted : sent.Pairwise (·.1 < ·.1)) (hsent : sent = removed ++ waiting)
    (hremoved : removed.Perm (done ++ r :: others)) (hdone : done <+: sent) :
    done ++ [r] <+: sent ↔ ∀ r' ∈ others, r.1 < r'.1 := by
  obtain ⟨later, rfl⟩ := hdone
  have hnodup : (removed ++ waiting).Nodup :=
    hsent ▸ hsorted.imp fun hlt heq => by simp [heq] at hlt
  obtain ⟨-, hnodup, hapart⟩ := List.nodup_append.mp
    (hremoved.nodup_iff.mp (List.nodup_append.mp hnodup).1)
  -- what is removed and not done comes later
  have hlater : ∀ r' ∈ r :: others, r' ∈ later := by
    intro r' hr'
    have hmem : r' ∈ done ++ later :=
      hsent ▸ List.mem_append_left _ (hremoved.mem_iff.mpr (List.mem_append_right _ hr'))
    exact (List.mem_append.mp hmem).resolve_left fun hdone => hapart r' hdone r' hr' rfl
  obtain ⟨-, hpair, hbefore⟩ := List.pairwise_append.mp hsorted
  constructor
  · rintro ⟨rest, hrest⟩ r' hr'
    rw [List.append_assoc, List.append_cancel_left_eq, List.singleton_append] at hrest
    subst hrest
    have hne : r' ≠ r := by
      rintro rfl
      exact (List.nodup_cons.mp hnodup).1 hr'
    have hmem := (List.mem_cons.mp (hlater r' (List.mem_cons_of_mem _ hr'))).resolve_left hne
    exact (List.pairwise_cons.mp hpair).1 r' hmem
  · intro hothers
    have hr := hlater r List.mem_cons_self
    cases later with
    | nil => cases hr
    | cons first later =>
      suffices hfirst : first = r by
        subst hfirst
        exact ⟨later, by simp⟩
      by_contra hne
      -- the first that is not done is held by nobody else, for it was sent before `r`
      have hlt : first.1 < r.1 :=
        (List.pairwise_cons.mp hpair).1 r ((List.mem_cons.mp hr).resolve_left (Ne.symm hne))
      have hmem : first ∈ removed ++ waiting := hsent ▸ by simp
      rcases List.mem_append.mp hmem with hfirst | hfirst
      · have hfirst := hremoved.mem_iff.mp hfirst
        simp only [List.mem_append, List.mem_cons, hne, false_or] at hfirst
        rcases hfirst with hdone | hother
        · exact Nat.lt_irrefl _ (hbefore first hdone first List.mem_cons_self)
        · exact Nat.lt_asymm hlt (hothers first hother)
      · have hr : r ∈ removed := hremoved.mem_iff.mpr (by simp)
        rw [hsent] at hsorted
        exact Nat.lt_asymm hlt ((List.pairwise_append.mp hsorted).2.2 r hr first hfirst)

variable [DecidableEq κ]

@[simp] theorem requestsOf_append (c : κ) (rs rs' : List (Stamped β)) :
    requestsOf client c (rs ++ rs') = requestsOf client c rs ++ requestsOf client c rs' :=
  List.filter_append rs rs'

@[simp] theorem mem_requestsOf {c : κ} {rs : List (Stamped β)} {r : Stamped β} :
    r ∈ requestsOf client c rs ↔ r ∈ rs ∧ client r.2 = c := by
  simp [requestsOf]

theorem requestsOf_self (r : Stamped β) : requestsOf client (client r.2) [r] = [r] := by
  simp [requestsOf]

theorem requestsOf_other {c : κ} {r : Stamped β} (hne : client r.2 ≠ c) :
    requestsOf client c [r] = [] := by
  simp [requestsOf, hne]

/-- A request just sent is finished by nobody, so that it does not bear on the order. -/
theorem inOrder_sent {tr : List (Mark β)} {s : State β} (acc : Account tr s) (request : β) :
    InOrder client (tr ++ [.sent (s.sent, request)]) ↔ InOrder client tr := by
  obtain ⟨removed, hsent, hperm⟩ := acc.removed
  have hfresh : (s.sent, request) ∉ finishedOf tr := by
    intro hmem
    have hremoved : (s.sent, request) ∈ removed :=
      hperm.mem_iff.mpr (List.mem_append_left _ hmem)
    have hlt := acc.below (s.sent, request) (hsent ▸ List.mem_append_left _ hremoved)
    exact Nat.lt_irrefl _ hlt
  simp only [InOrder, finishedOf_append, finishedOf_sent, List.append_nil, sentOf_append,
    sentOf_sent, requestsOf_append]
  refine forall_congr' fun c => ⟨fun h => ?_, fun h => h.trans (List.prefix_append _ _)⟩
  by_cases hc : client request = c
  · rw [show requestsOf client c [(s.sent, request)] = [(s.sent, request)] from
      hc ▸ requestsOf_self (s.sent, request), List.prefix_concat_iff] at h
    rcases h with h | h
    · have hmem : (s.sent, request) ∈ requestsOf client c (finishedOf tr) := by simp [h]
      exact absurd (mem_requestsOf.mp hmem).1 hfresh
    · exact h
  · rwa [requestsOf_other (r := (s.sent, request)) hc, List.append_nil] at h

/-- A request finished next is in order iff nobody else holds an earlier one of its client. -/
theorem inOrder_finished {tr : List (Mark β)} {s : State β} {r : Stamped β}
    {others : List (Stamped β)} (acc : Account tr s) (hheld : s.held.Perm (r :: others)) :
    InOrder client (tr ++ [.finished r others]) ↔ InOrder client tr ∧
      ∀ r' ∈ others, client r'.2 = client r.2 → r.1 < r'.1 := by
  obtain ⟨removed, hsent, hperm⟩ := acc.removed
  have hout : removed.Perm (finishedOf tr ++ r :: others) := hperm.trans (hheld.append_left _)
  have hnext (h : InOrder client tr) :
      requestsOf client (client r.2) (finishedOf tr) ++ [r] <+:
        requestsOf client (client r.2) (sentOf tr) ↔
      ∀ r' ∈ requestsOf client (client r.2) others, r.1 < r'.1 := by
    have hsplit : requestsOf client (client r.2) (sentOf tr) =
        requestsOf client (client r.2) removed ++ requestsOf client (client r.2) s.queue := by
      rw [hsent, requestsOf_append]
    have hremoved : (requestsOf client (client r.2) removed).Perm
        (requestsOf client (client r.2) (finishedOf tr) ++
          r :: requestsOf client (client r.2) others) := by
      simpa [requestsOf] using hout.filter fun r' => client r'.2 = client r.2
    exact prefix_snoc_iff (acc.sorted.filter _) hsplit hremoved (h (client r.2))
  simp only [InOrder, finishedOf_append, finishedOf_finished, sentOf_append, sentOf_finished,
    List.append_nil, requestsOf_append]
  constructor
  · intro h
    have hold : InOrder client tr := fun c => (List.prefix_append _ _).trans (h c)
    have hr := h (client r.2)
    rw [requestsOf_self, hnext hold] at hr
    exact ⟨hold, fun r' hr' hc => hr r' (mem_requestsOf.mpr ⟨hr', hc⟩)⟩
  · rintro ⟨hold, hothers⟩ c
    by_cases hc : client r.2 = c
    · subst hc
      rw [requestsOf_self, hnext hold]
      exact fun r' hr' => hothers r' (mem_requestsOf.mp hr').1 (mem_requestsOf.mp hr').2
    · rw [requestsOf_other hc, List.append_nil]
      exact hold c

/-- One operation leaves the order and the condition equivalent. -/
theorem inOrder_step {tr : List (Mark β)} {s s' : State β} {op : Op β} {out : List (Mark β)}
    (acc : Account tr s) (h : step s op = some (s', out))
    (ih : InOrder client tr ↔ NoOvertaking client tr) :
    InOrder client (tr ++ out) ↔ NoOvertaking client (tr ++ out) := by
  rw [noOvertaking_append]
  cases op with
  | send request =>
    simp only [step, Option.some.injEq, Prod.mk.injEq] at h
    obtain ⟨-, rfl⟩ := h
    rw [inOrder_sent acc, ih]
    exact (and_iff_left (noOvertaking_sent _)).symm
  | remove i =>
    simp only [step] at h
    split at h
    · simp only [Option.some.injEq, Prod.mk.injEq] at h
      obtain ⟨-, rfl⟩ := h
      rw [List.append_nil, ih]
      exact (and_iff_left (by simp [NoOvertaking])).symm
    · cases h
  | finish i =>
    simp only [step] at h
    split at h
    · rename_i r hw
      simp only [Option.some.injEq, Prod.mk.injEq] at h
      obtain ⟨-, rfl⟩ := h
      rw [noOvertaking_finished, ← ih]
      exact inOrder_finished acc (held_finish hw)
    · cases h

/-- In every run requests are finished in order iff no worker finishes one while another holds an
earlier one of the same client. -/
theorem inOrder_iff {ok : State β → Op β → Prop} {workers : Nat} {ops : List (Op β)}
    {tr : List (Mark β)} {s : State β} (run : Run step ok (State.init workers) ops tr s) :
    InOrder client tr ↔ NoOvertaking client tr :=
  run.invariant (P := fun _ tr _ => InOrder client tr ↔ NoOvertaking client tr)
    (by simp [InOrder, NoOvertaking, finishedOf, sentOf, requestsOf])
    fun hrun ih _ h => inOrder_step (account_run hrun) h ih

end Order

theorem workers_length {ok : State β → Op β → Prop} {workers : Nat} {ops : List (Op β)}
    {tr : List (Mark β)} {s : State β} (run : Run step ok (State.init workers) ops tr s) :
    s.workers.length = workers := by
  refine run.invariant_state (P := fun s => s.workers.length = workers) (by simp [State.init]) ?_
  intro s op s' out hlen _ h
  cases op <;> simp only [step] at h
  case send => cases h; exact hlen
  all_goals
    split at h
    · cases h
      simpa using hlen
    · cases h

/-- A single worker that finishes a request leaves nobody holding another. -/
theorem no_others {tr : List (Mark β)} {ok : State β → Op β → Prop} {ops : List (Op β)}
    {s : State β} (run : Run step ok (State.init 1) ops tr s) {r : Stamped β}
    {others : List (Stamped β)} (hmem : Mark.finished r others ∈ tr) : others = [] := by
  revert hmem
  refine run.invariant (P := fun _ tr _ => Mark.finished r others ∈ tr → others = [])
    (fun h => by cases h) ?_
  intro ops tr s op s' out hrun ih _ h hmem
  rcases List.mem_append.mp hmem with hold | hnew
  · exact ih hold
  have hlen := workers_length hrun
  cases op with
  | send request =>
    cases h
    simp at hnew
  | remove i =>
    simp only [step] at h
    split at h
    · cases h
      cases hnew
    · cases h
  | finish i =>
    simp only [step] at h
    split at h
    · rename_i r' hw
      cases h
      obtain ⟨w, hworkers⟩ := List.length_eq_one_iff.mp hlen
      obtain ⟨rfl, rfl⟩ : r = r' ∧ others = _ := by simpa using hnew
      have hi : i = 0 := by
        have := (List.getElem?_eq_some_iff.mp hw).1
        omega
      simp [State.held, hworkers, hi]
    · cases h

end WorkQueue
