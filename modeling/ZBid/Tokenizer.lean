import Mathlib.Logic.Function.Basic
import ZBid.Requests

/-!
# One strtok for all threads

`strtok(NULL, ..)` resumes where the last call in the process has stopped, whoever made it. The job
threads parse ANCREATE and ANBID before they take a mutex, and the main thread parses a LOGIN at any
time. A thread gets the tokens of its own message as long as nobody calls between its calls.
-/
namespace ZBid

open CString Runs

/-- What the next `n` calls on a text return, and the text the call after them resumes at. -/
def strtoks (delim : Char → Bool) : Nat → Text → List (Option Text) × Text
  | 0, t => ([], t)
  | n + 1, t =>
    let (tokens, rest) := strtoks delim n t
    let (token, rest) := strtok delim rest
    (tokens ++ [token], rest)

theorem strtoks_succ (delim : Char → Bool) (n : Nat) (t : Text) : strtoks delim (n + 1) t =
    ((strtoks delim n t).1 ++ [(strtok delim (strtoks delim n t).2).1],
      (strtok delim (strtoks delim n t).2).2) := rfl

inductive ThreadId where
  | main
  | client (n : Nat)
  | job (n : Nat)
  | tick
  deriving DecidableEq, Repr

/-- The three places that call `strtok`. -/
inductive ParseKind where
  | LOGIN | ANCREATE | ANBID
  deriving DecidableEq, Repr

/-- A LOGIN is parsed by `run_server`, a job by one of the job threads. -/
def ParseKind.runsOn : ParseKind → ThreadId → Bool
  | .LOGIN, .main => true
  | .ANCREATE, .job _ => true
  | .ANBID, .job _ => true
  | _, _ => false

def ParseKind.calls : ParseKind → Nat
  | .LOGIN => 2
  | .ANCREATE => 3
  | .ANBID => 2

theorem ParseKind.calls_pos (kind : ParseKind) : 0 < kind.calls := by
  cases kind <;> decide

/-- A thread that parses: its message, and what its calls have returned so far. -/
structure Parse where
  kind : ParseKind
  message : Text
  obtained : List (Option Text)
  deriving DecidableEq, Repr

/-- Before its next call the thread passes a NULL to `atoi`. -/
def Parse.faults (p : Parse) : Bool :=
  match p.kind, p.obtained with
  | .ANCREATE, [_, none] => true
  | .ANBID, [none] => true
  | _, _ => false

/-- The parse after one more call of its thread. -/
def Parse.called (p : Parse) (token : Option Text) : Parse :=
  { p with obtained := p.obtained ++ [token] }

/-- The saved pointer of `strtok`, and the threads that parse. `last` is the thread that has
called last, which C does not keep. -/
structure Tokenizer where
  saved : Text
  last : Option ThreadId
  parses : ThreadId → Option Parse

def Tokenizer.start : Tokenizer := ⟨[], none, fun _ => none⟩

inductive TokenAction where
  | parse (t : ThreadId) (kind : ParseKind) (bytes : List Char)
  | strtok (t : ThreadId)
  deriving DecidableEq, Repr

/-- What a thread's next call reads: its own buffer at first, and with NULL the saved pointer. -/
def Tokenizer.source (s : Tokenizer) (p : Parse) : Text :=
  if p.obtained = [] then p.message else s.saved

/-- A thread turns to a message, or makes the next of its calls. After the last call the parse is
logged. -/
def Tokenizer.step : Step Tokenizer TokenAction Parse := fun s action =>
  match action with
  | .parse t kind bytes =>
    if (s.parses t).isNone ∧ kind.runsOn t then
      some ({ s with parses := Function.update s.parses t (some ⟨kind, cstr bytes, []⟩) }, [])
    else none
  | .strtok t => do
    let p ← s.parses t
    if p.faults then none
    else
      let (token, saved) := strtok crOrLf (s.source p)
      let p' := p.called token
      if p'.obtained.length = p.kind.calls then
        some (⟨saved, some t, Function.update s.parses t none⟩, [p'])
      else some (⟨saved, some t, Function.update s.parses t (some p')⟩, [])

/-- A thread that goes on with its parse has itself made the last call. -/
def Tokenizer.Uninterrupted (s : Tokenizer) : TokenAction → Prop
  | .parse _ _ _ => True
  | .strtok t => ∀ p ∈ s.parses t, p.obtained ≠ [] → s.last = some t

instance Tokenizer.decidableUninterrupted (s : Tokenizer) :
    ∀ action, Decidable (s.Uninterrupted action)
  | .parse _ _ _ => inferInstanceAs (Decidable True)
  | .strtok t => inferInstanceAs (Decidable (∀ p ∈ s.parses t, _ → _))

/-- The request that the tokens obtained make up, when none of them is NULL. -/
def Parse.request (p : Parse) : Option Request :=
  match p.kind, p.obtained with
  | .LOGIN, [some username, some password] => some (.login username password)
  | .ANCREATE, [some itemName, some durationStr, some priceStr] =>
    some (.create itemName (atoi durationStr) (atoi priceStr))
  | .ANBID, [some auctionIdStr, some bidStr] => some (.bid (atoi auctionIdStr) (atoi bidStr))
  | _, _ => none

/-- The request of the message when its thread runs alone. -/
def Parse.alone (p : Parse) : Option Request :=
  match p.kind with
  | .LOGIN => do
    let (username, password) := loginArgs p.message
    some (.login (← username) (← password))
  | .ANCREATE => (ancreateArgs p.message).map fun (itemName, duration, price) =>
    .create itemName duration price
  | .ANBID => (anbidArgs p.message).map fun (auctionId, bid) => .bid auctionId bid

/-- The tokens obtained so far are the first ones of the thread's own message. -/
def Parse.Own (p : Parse) : Prop :=
  p.obtained = (strtoks crOrLf p.obtained.length p.message).1

/-- Every thread has the tokens of its own message, also when it has finished, and the request it
has then made up is the one it would have made up alone. -/
def Isolated (log : List Parse) (s : Tokenizer) : Prop :=
  (∀ t, ∀ p ∈ s.parses t, p.Own) ∧
    ∀ p ∈ log, p.obtained = (strtoks crOrLf p.kind.calls p.message).1 ∧ p.request = p.alone

/-- With the tokens of its own message a thread makes up the request that the server's model reads
from the message. -/
theorem request_of_own {p : Parse} (hown : p.obtained = (strtoks crOrLf p.kind.calls p.message).1) :
    p.request = p.alone := by
  obtain ⟨kind, message, obtained⟩ := p
  simp only at hown
  subst hown
  cases kind with
  | LOGIN =>
    simp only [Parse.request, Parse.alone, ParseKind.calls, strtoks, loginArgs, List.nil_append,
      List.cons_append]
    cases (strtok crOrLf message).1 <;>
      cases (strtok crOrLf (strtok crOrLf message).2).1 <;> rfl
  | ANCREATE =>
    simp only [Parse.request, Parse.alone, ParseKind.calls, strtoks, ancreateArgs, List.nil_append,
      List.cons_append]
    cases (strtok crOrLf message).1 <;>
      cases (strtok crOrLf (strtok crOrLf message).2).1 <;>
      cases (strtok crOrLf (strtok crOrLf (strtok crOrLf message).2).2).1 <;> rfl
  | ANBID =>
    simp only [Parse.request, Parse.alone, ParseKind.calls, strtoks, anbidArgs, List.nil_append,
      List.cons_append]
    cases (strtok crOrLf message).1 <;>
      cases (strtok crOrLf (strtok crOrLf message).2).1 <;> rfl

/-- The two things a step can do. -/
theorem Tokenizer.step_cases {s s' : Tokenizer} {action : TokenAction} {out : List Parse}
    (h : s.step action = some (s', out)) :
    (∃ t kind bytes, action = .parse t kind bytes ∧ s.parses t = none ∧ out = [] ∧
      s' = { s with parses := Function.update s.parses t (some ⟨kind, cstr bytes, []⟩) }) ∨
    ∃ t p, action = .strtok t ∧ s.parses t = some p ∧
      s'.saved = (CString.strtok crOrLf (s.source p)).2 ∧ s'.last = some t ∧
      ((p.called (CString.strtok crOrLf (s.source p)).1).obtained.length = p.kind.calls ∧
          s'.parses = Function.update s.parses t none ∧
          out = [p.called (CString.strtok crOrLf (s.source p)).1] ∨
        (p.called (CString.strtok crOrLf (s.source p)).1).obtained.length ≠ p.kind.calls ∧
          s'.parses = Function.update s.parses t
            (some (p.called (CString.strtok crOrLf (s.source p)).1)) ∧ out = []) := by
  cases action with
  | parse t kind bytes =>
    simp only [Tokenizer.step] at h
    split at h
    · rename_i hfree
      simp only [Option.some.injEq, Prod.mk.injEq] at h
      obtain ⟨rfl, rfl⟩ := h
      exact .inl ⟨t, kind, bytes, rfl, Option.isNone_iff_eq_none.mp hfree.1, rfl, rfl⟩
    · cases h
  | strtok t =>
    simp only [Tokenizer.step, Option.bind_eq_bind, Option.bind_eq_some_iff] at h
    obtain ⟨p, hp, h⟩ := h
    refine .inr ⟨t, p, rfl, hp, ?_⟩
    split at h
    · cases h
    · split at h
      · rename_i hlast
        simp only [Option.some.injEq, Prod.mk.injEq] at h
        obtain ⟨rfl, rfl⟩ := h
        exact ⟨rfl, rfl, .inl ⟨hlast, rfl, rfl⟩⟩
      · rename_i hmore
        simp only [Option.some.injEq, Prod.mk.injEq] at h
        obtain ⟨rfl, rfl⟩ := h
        exact ⟨rfl, rfl, .inr ⟨hmore, rfl, rfl⟩⟩

/-- What the threads rely on between two calls: a parse under way has tokens of its own message
and calls left to make, and if its thread has called last, the saved pointer is in that message. -/
def Tokenizer.Kept (s : Tokenizer) : Prop :=
  ∀ t, ∀ p ∈ s.parses t, p.Own ∧ p.obtained.length < p.kind.calls ∧
    (p.obtained ≠ [] → s.last = some t →
      s.saved = (strtoks crOrLf p.obtained.length p.message).2)

/-- A thread that starts, or that has made the last call itself, calls on the rest of its own
message. -/
theorem Tokenizer.Kept.source {s : Tokenizer} (hkept : s.Kept) {t : ThreadId} {p : Parse}
    (hp : s.parses t = some p) (hok : s.Uninterrupted (.strtok t)) :
    s.source p = (strtoks crOrLf p.obtained.length p.message).2 := by
  unfold Tokenizer.source
  split
  · rename_i hfirst
    simp [hfirst, strtoks]
  · rename_i hnext
    exact (hkept t p hp).2.2 hnext (hok p hp hnext)

/-- One more token of the thread's own message. -/
theorem Parse.Own.called {p : Parse} (hown : p.Own) :
    (p.called (strtok crOrLf (strtoks crOrLf p.obtained.length p.message).2).1).Own := by
  have htokens : p.obtained = (strtoks crOrLf p.obtained.length p.message).1 := hown
  simp only [Parse.Own, Parse.called, List.length_append, List.length_singleton, strtoks_succ]
  rw [← htokens]

/-- The call of one thread leaves the others their tokens, and makes the last call not theirs. -/
theorem Tokenizer.Kept.other {s s' : Tokenizer} (hkept : s.Kept) {t u : ThreadId}
    (hlast : s'.last = some t) (hu : u ≠ t) {q : Parse} (hq : q ∈ s.parses u) :
    q.Own ∧ q.obtained.length < q.kind.calls ∧ (q.obtained ≠ [] → s'.last = some u →
      s'.saved = (strtoks crOrLf q.obtained.length q.message).2) := by
  refine ⟨(hkept u q hq).1, (hkept u q hq).2.1, fun _ hlast' => ?_⟩
  rw [hlast] at hlast'
  exact absurd (Option.some.inj hlast').symm hu

theorem Tokenizer.Kept.step {s s' : Tokenizer} {action : TokenAction} {out : List Parse}
    (hkept : s.Kept) (hok : s.Uninterrupted action) (h : s.step action = some (s', out)) :
    s'.Kept ∧ ∀ p ∈ out, p.obtained = (strtoks crOrLf p.kind.calls p.message).1 := by
  obtain ⟨t, kind, bytes, rfl, hfree, rfl, rfl⟩ | ⟨t, p, rfl, hp, hsaved, hlast, hcases⟩ :=
    Tokenizer.step_cases h
  · refine ⟨fun u q hq => ?_, by simp⟩
    by_cases hu : u = t
    · subst hu
      obtain rfl : _ = q := by simpa using hq
      exact ⟨rfl, kind.calls_pos, fun hne => absurd rfl hne⟩
    · have hq : q ∈ s.parses u := by simpa [Function.update_of_ne hu] using hq
      exact hkept u q hq
  · rw [hkept.source hp hok] at hsaved hcases
    have hown := (hkept t p hp).1.called
    have hlt := (hkept t p hp).2.1
    obtain ⟨hdone, hparses, rfl⟩ | ⟨hmore, hparses, rfl⟩ := hcases
    · refine ⟨fun u q hq => ?_, fun q hq => ?_⟩
      · rw [hparses] at hq
        by_cases hu : u = t
        · simp [hu] at hq
        · exact hkept.other hlast hu (by simpa [Function.update_of_ne hu] using hq)
      · obtain rfl := List.mem_singleton.mp hq
        have hown : _ = _ := hown
        rwa [hdone] at hown
    · refine ⟨fun u q hq => ?_, by simp⟩
      rw [hparses] at hq
      by_cases hu : u = t
      · subst hu
        obtain rfl : _ = q := by simpa using hq
        have hlen : (p.called (strtok crOrLf
            (strtoks crOrLf p.obtained.length p.message).2).1).obtained.length =
              p.obtained.length + 1 := by simp [Parse.called]
        refine ⟨hown, by simp only [Parse.called] at hlen hmore ⊢; omega, fun _ _ => ?_⟩
        rw [hsaved, hlen, strtoks_succ]
        rfl
      · exact hkept.other hlast hu (by simpa [Function.update_of_ne hu] using hq)

theorem Tokenizer.Kept.start : Tokenizer.start.Kept := fun t p hp => by cases hp

theorem Tokenizer.kept_run {as : List TokenAction} {log : List Parse} {s : Tokenizer}
    (run : Run Tokenizer.step Tokenizer.Uninterrupted .start as log s) :
    s.Kept ∧ ∀ p ∈ log, p.obtained = (strtoks crOrLf p.kind.calls p.message).1 := by
  refine run.invariant (P := fun _ log s => s.Kept ∧
    ∀ p ∈ log, p.obtained = (strtoks crOrLf p.kind.calls p.message).1)
    ⟨.start, by simp⟩ fun _ ih hok hs => ?_
  obtain ⟨hkept, hout⟩ := ih.1.step hok hs
  refine ⟨hkept, fun p hp => ?_⟩
  obtain hp | hp := List.mem_append.mp hp
  · exact ih.2 p hp
  · exact hout p hp

/-- In every run in which no thread calls `strtok` between the calls of another one, parsing is
isolated. -/
theorem isolated_run {as : List TokenAction} {log : List Parse} {s : Tokenizer}
    (run : Run Tokenizer.step Tokenizer.Uninterrupted .start as log s) : Isolated log s := by
  obtain ⟨hkept, hlog⟩ := Tokenizer.kept_run run
  exact ⟨fun t p hp => (hkept t p hp).1, fun p hp => ⟨hlog p hp, request_of_own (hlog p hp)⟩⟩

/-- A LOGIN and a bid turn up while an auction is parsed, and wait for the last call. -/
def sampleParses : List TokenAction :=
  [.parse (.job 0) .ANCREATE ['V', '\r', '\n', '3', '\r', '\n', '5'],
    .parse .main .LOGIN ['B', '\r', '\n', 'p'], .strtok (.job 0),
    .parse (.job 1) .ANBID ['1', '\r', '\n', '9'], .strtok (.job 0), .strtok (.job 0),
    .strtok .main, .strtok .main, .strtok (.job 1), .strtok (.job 1)]

theorem isolated_run_sample :
    let sample := (exec Tokenizer.step Tokenizer.Uninterrupted .start sampleParses).get (by decide)
    Isolated sample.2 sample.1 ∧ sample.2.map Parse.request =
      [some (.create ['V'] 3 5), some (.login ['B'] ['p']), some (.bid 1 9)] :=
  ⟨isolated_run (run_of_isSome (by decide)), by decide⟩

/-- A bid of 9 on auction 1 and a bid of 5 on auction 2, whose thread calls between the two calls
for the first. -/
def sampleMixup : List TokenAction :=
  [.parse (.job 0) .ANBID ['1', '\r', '\n', '9'], .parse (.job 1) .ANBID ['2', '\r', '\n', '5'],
    .strtok (.job 0), .strtok (.job 1), .strtok (.job 0)]

/-- The first client bids the amount of the second. -/
theorem isolated_fails : ∃ as log s p,
    Run Tokenizer.step (fun _ _ => True) .start as log s ∧ p ∈ log ∧
      p.alone = some (.bid 1 9) ∧ p.request = some (.bid 1 5) ∧ ¬ Isolated log s := by
  have run : Run Tokenizer.step (fun _ _ => True) .start sampleMixup _
      ((exec Tokenizer.step (fun _ _ => True) .start sampleMixup).get (by decide)).1 :=
    run_of_isSome (by decide)
  refine ⟨_, _, _, ⟨.ANBID, ['1', '\r', '\n', '9'], [some ['1'], some ['5']]⟩, run, by decide,
    by decide, by decide, fun isolated => ?_⟩
  exact absurd (isolated.2 ⟨.ANBID, ['1', '\r', '\n', '9'], [some ['1'], some ['5']]⟩
    (by decide)).2 (by decide)

end ZBid
