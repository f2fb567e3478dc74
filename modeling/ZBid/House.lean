import ZBid.Lib.Bookkeeping
import ZBid.Lib.Runs

/-!
# An auction house

What the server is for, without its memory: members that sign in under a name and a secret, lots
that are watched and bid for, and the lots that have been sold, in the order of their sale. Names,
secrets, addresses and items may be of any type. Accounts are not kept; they are read off the
lots that are sold.
-/
namespace AuctionHouse

open Bookkeeping Runs

variable {ν κ χ ι : Type}

structure Member (ν κ χ : Type) where
  name : ν
  secret : κ
  present : Bool
  address : χ
  deriving DecidableEq

/-- A lot, with the limit above which a bid buys it at once. -/
structure Lot (ν ι : Type) where
  item : ι
  seller : ν
  remaining : Int
  limit : Option Int
  best : Option (ν × Int)
  watchers : List ν
  deriving DecidableEq

structure House (ν κ χ ι : Type) where
  members : List (Member ν κ χ)
  lots : List (Lot ν ι)
  sold : List Nat
  deriving DecidableEq

def House.empty : House ν κ χ ι := ⟨[], [], []⟩

/-- What may be asked of the house. Lots are numbered from 1. -/
inductive Call (ι : Type) where
  | signOut
  | offer (item : ι) (duration price : Int)
  | watch (number : Int)
  | leave (number : Int)
  | bid (number amount : Int)
  | wins
  | sales
  | funds
  deriving DecidableEq

inductive Input (ν κ χ ι : Type) where
  | signIn (address : χ) (name : ν) (secret : κ)
  | call (address : χ) (call : Call ι)
  | tick
  deriving DecidableEq

def Input.signsIn : Input ν κ χ ι → Bool
  | .signIn .. => true
  | .call .. | .tick => false

/-- What the house says. It names members and lots, never an address or a secret. -/
inductive Notice (ν ι : Type) where
  | done | present | refused | invalid | notFound | denied | low
  | offered (number : Nat)
  | watching (item : ι) (limit : Option Int)
  | raised (number : Nat) (item : ι) (bidder : ν) (amount : Int)
  | closed (number : Nat) (best : Option (ν × Int))
  | wins (lots : List (Nat × Lot ν ι))
  | sales (lots : List (Nat × Lot ν ι))
  | funds (amount : Int)
  deriving DecidableEq

/-- The bid to beat. -/
def Lot.price (lot : Lot ν ι) : Int := (lot.best.map Prod.snd).getD 0

def Lot.deal (lot : Lot ν ι) : Deal ν := ⟨lot.seller, lot.best.map Prod.fst, lot.price⟩

/-- The amount is above the limit, if there is one. -/
def Lot.Exceeds (lot : Lot ν ι) (amount : Int) : Prop := ∃ limit ∈ lot.limit, limit < amount

instance Lot.decidableExceeds (lot : Lot ν ι) (amount : Int) : Decidable (lot.Exceeds amount) :=
  inferInstanceAs (Decidable (∃ limit ∈ lot.limit, limit < amount))

def Lot.older (lot : Lot ν ι) : Lot ν ι := { lot with remaining := lot.remaining - 1 }

/-- The lots that are not sold yet. -/
def House.onSale (h : House ν κ χ ι) : List Nat :=
  (List.range h.lots.length).filter fun k => k ∉ h.sold

theorem mem_onSale {h : House ν κ χ ι} {k : Nat} :
    k ∈ h.onSale ↔ k < h.lots.length ∧ k ∉ h.sold := by simp [House.onSale]

def House.find (h : House ν κ χ ι) (number : Int) : Option Nat :=
  h.onSale.find? fun k => (k : Int) + 1 = number

/-- The numbered lots at the given positions. -/
def House.entries (h : House ν κ χ ι) (ks : List Nat) : List (Nat × Lot ν ι) :=
  ks.filterMap fun k => (h.lots[k]?).map fun lot => (k + 1, lot)

def House.setLot (h : House ν κ χ ι) (k : Nat) (lot : Lot ν ι) : House ν κ χ ι :=
  { h with lots := h.lots.set k lot }

/-- The house after the lots for which `p` holds have aged by one. -/
def House.aged (h : House ν κ χ ι) (p : Nat → Bool) : House ν κ χ ι :=
  { h with lots := h.lots.mapIdx fun k lot => if p k then lot.older else lot }

section Members

variable [DecidableEq ν] [DecidableEq κ] [DecidableEq χ]

def House.memberAt (h : House ν κ χ ι) (address : χ) : Option (Member ν κ χ) :=
  h.members.find? fun m => m.address = address

def House.memberNamed (h : House ν κ χ ι) (name : ν) : Option (Member ν κ χ) :=
  h.members.find? fun m => m.name = name

/-- Change the members for whom `p` holds. -/
def House.update (h : House ν κ χ ι) (p : Member ν κ χ → Bool)
    (f : Member ν κ χ → Member ν κ χ) : House ν κ χ ι :=
  { h with members := h.members.map fun m => if p m then f m else m }

/-- The same notice to every watcher of a lot, at the address last signed in from. -/
def House.tell (h : House ν κ χ ι) (lot : Lot ν ι) (notice : Notice ν ι) :
    List (χ × Notice ν ι) :=
  lot.watchers.filterMap fun w => (h.memberNamed w).map fun m => (m.address, notice)

def House.deals (h : House ν κ χ ι) : List (Deal ν) :=
  h.sold.filterMap fun k => (h.lots[k]?).map Lot.deal

def House.offeredBy (h : House ν κ χ ι) (name : ν) : List Nat :=
  (List.range h.lots.length).filter fun k => (h.lots[k]?).any fun lot => lot.seller = name

def House.wonBy (h : House ν κ χ ι) (name : ν) : List Nat :=
  h.sold.filter fun k => (h.lots[k]?).any fun lot => lot.best.map Prod.fst = some name

/-- Sell a lot to its best bidder, or take it off sale unsold. -/
def House.close (h : House ν κ χ ι) (k : Nat) : Option (House ν κ χ ι × List (χ × Notice ν ι)) := do
  let lot ← h.lots[k]?
  some ({ h with sold := h.sold ++ [k] }, h.tell lot (.closed (k + 1) lot.best))

/-- A new name signs up. A known one needs its secret, and may not be present. -/
def House.signIn (h : House ν κ χ ι) (address : χ) (name : ν) (secret : κ) :
    House ν κ χ ι × List (χ × Notice ν ι) :=
  match h.memberNamed name with
  | none => ({ h with members := h.members ++ [⟨name, secret, true, address⟩] },
      [(address, .done)])
  | some m =>
    if m.present then (h, [(address, .present)])
    else if m.secret = secret then
      (h.update (fun m => m.name = name) fun m => { m with present := true, address := address },
        [(address, .done)])
    else (h, [(address, .refused)])

/-- A member's bid for a lot that is on sale. -/
def House.bid (h : House ν κ χ ι) (address : χ) (name : ν) (k : Nat) (lot : Lot ν ι)
    (amount : Int) : Option (House ν κ χ ι × List (χ × Notice ν ι)) :=
  let raised := { lot with best := some (name, amount) }
  if lot.seller = name then some (h, [(address, .denied)])
  else if name ∉ lot.watchers then some (h, [(address, .denied)])
  else if lot.Exceeds amount then (h.setLot k raised).close k
  else if lot.price < amount then
    some (h.setLot k raised,
      h.tell lot (.raised (k + 1) lot.item name amount) ++ [(address, .done)])
  else some (h, [(address, .low)])

/-- A member's leaving of a lot that is on sale. -/
def House.leave (h : House ν κ χ ι) (address : χ) (name : ν) (k : Nat) (lot : Lot ν ι) :
    Option (House ν κ χ ι × List (χ × Notice ν ι)) :=
  if name ∈ lot.watchers then
    some (h.setLot k { lot with watchers := lot.watchers.eraseP fun w => w = name },
      [(address, .done)])
  else none

/-- The calls. Nothing is said of a member's call from an address where nobody signed in, nor of
leaving a lot that one does not watch. -/
def House.answer (h : House ν κ χ ι) (address : χ) :
    Call ι → Option (House ν κ χ ι × List (χ × Notice ν ι))
  | .signOut =>
    match h.memberAt address with
    | none => some (h, [])
    | some _ => some (h.update (fun m => m.address = address) fun m => { m with present := false },
        [(address, .done)])
  | .offer item duration price =>
    if duration < 1 ∨ price < 0 then some (h, [(address, .invalid)])
    else do
      let m ← h.memberAt address
      let limit := if price = 0 then none else some price
      some ({ h with lots := h.lots ++ [⟨item, m.name, duration, limit, none, []⟩] },
        [(address, .offered (h.lots.length + 1))])
  | .watch number =>
    match h.find number with
    | none => some (h, [(address, .notFound)])
    | some k => do
      let m ← h.memberAt address
      let lot ← h.lots[k]?
      some (h.setLot k { lot with watchers := lot.watchers ++ [m.name] },
        [(address, .watching lot.item lot.limit)])
  | .leave number => do
    let m ← h.memberAt address
    match h.find number with
    | none => some (h, [(address, .notFound)])
    | some k => do
      let lot ← h.lots[k]?
      h.leave address m.name k lot
  | .bid number amount => do
    let m ← h.memberAt address
    if h.onSale = [] then some (h, [(address, .notFound)])
    else
      match h.find number with
      | none => some (h, [])
      | some k => do
        let lot ← h.lots[k]?
        h.bid address m.name k lot amount
  | .wins => do
    let m ← h.memberAt address
    some (h, [(address, .wins (h.entries (h.wonBy m.name)))])
  | .sales => do
    let m ← h.memberAt address
    some (h, [(address, .sales (h.entries (h.offeredBy m.name)))])
  | .funds => do
    let m ← h.memberAt address
    some (h, [(address, .funds (balance m.name h.deals))])

/-- The first lot on sale whose time runs out with this tick. -/
def House.due (h : House ν κ χ ι) : Option Nat :=
  h.onSale.find? fun k => (h.lots[k]?).any fun lot => lot.remaining = 1

/-- Every lot on sale ages by one, unless one is due: it is closed, and the lots behind it wait. -/
def House.tick (h : House ν κ χ ι) : Option (House ν κ χ ι × List (χ × Notice ν ι)) :=
  match h.due with
  | none => some (h.aged fun k => k ∈ h.onSale, [])
  | some k => (h.aged fun j => j ∈ h.onSale ∧ j ≤ k).close k

def House.step : Step (House ν κ χ ι) (Input ν κ χ ι) (χ × Notice ν ι) := fun h input =>
  match input with
  | .signIn address name secret => some (h.signIn address name secret)
  | .call address call => h.answer address call
  | .tick => h.tick

/-- Nothing is asked of the inputs. -/
def House.Accepts (_ : House ν κ χ ι) (_ : Input ν κ χ ι) : Prop := True

/-- What may happen when the clock walks along the lots, and calls come in between. -/
inductive Moment (ν κ χ ι : Type) where
  | input (i : Input ν κ χ ι)
  | age (k : Nat)
  | expire (k : Nat)
  deriving DecidableEq

def House.age (h : House ν κ χ ι) (k : Nat) : Option (House ν κ χ ι × List (χ × Notice ν ι)) :=
  if k ∈ h.onSale then (h.lots[k]?).map fun lot => (h.setLot k lot.older, []) else none

/-- A lot is closed when its time has run out. -/
def House.expire (h : House ν κ χ ι) (k : Nat) : Option (House ν κ χ ι × List (χ × Notice ν ι)) :=
  if k ∈ h.onSale ∧ (h.lots[k]?).any fun lot => lot.remaining = 0 then h.close k else none

def House.live : Step (House ν κ χ ι) (Moment ν κ χ ι) (χ × Notice ν ι) := fun h moment =>
  match moment with
  | .input i => House.step h i
  | .age k => h.age k
  | .expire k => h.expire k

/-- No tick is taken as a whole. -/
def House.Piecemeal (_ : House ν κ χ ι) (moment : Moment ν κ χ ι) : Prop := moment ≠ .input .tick

def Moment.heard : Moment ν κ χ ι → Option (Input ν κ χ ι)
  | .input i => some i
  | .age _ | .expire _ => none

end Members

section Renaming

variable {κ' χ' : Type}

def Member.rename (f : χ → χ') (g : κ → κ') (m : Member ν κ χ) : Member ν κ' χ' :=
  ⟨m.name, g m.secret, m.present, f m.address⟩

def House.rename (f : χ → χ') (g : κ → κ') (h : House ν κ χ ι) : House ν κ' χ' ι :=
  ⟨h.members.map (Member.rename f g), h.lots, h.sold⟩

def Input.rename (f : χ → χ') (g : κ → κ') : Input ν κ χ ι → Input ν κ' χ' ι
  | .signIn address name secret => .signIn (f address) name (g secret)
  | .call address c => .call (f address) c
  | .tick => .tick

/-- A notice sent to another address. -/
def redirect (f : χ → χ') (n : χ × Notice ν ι) : χ' × Notice ν ι := (f n.1, n.2)

/-- What a step yields, renamed. -/
def renamed (f : χ → χ') (g : κ → κ') (r : House ν κ χ ι × List (χ × Notice ν ι)) :
    House ν κ' χ' ι × List (χ' × Notice ν ι) := (r.1.rename f g, r.2.map (redirect f))

variable {f : χ → χ'} {g : κ → κ'}

@[simp] theorem rename_empty :
    (House.empty : House ν κ χ ι).rename f g = House.empty := rfl

@[simp] theorem rename_lots (h : House ν κ χ ι) : (h.rename f g).lots = h.lots := rfl

@[simp] theorem rename_sold (h : House ν κ χ ι) : (h.rename f g).sold = h.sold := rfl

@[simp] theorem rename_onSale (h : House ν κ χ ι) : (h.rename f g).onSale = h.onSale := rfl

@[simp] theorem rename_find (h : House ν κ χ ι) (number : Int) :
    (h.rename f g).find number = h.find number := rfl

@[simp] theorem rename_entries (h : House ν κ χ ι) (ks : List Nat) :
    (h.rename f g).entries ks = h.entries ks := rfl

@[simp] theorem rename_setLot (h : House ν κ χ ι) (k : Nat) (lot : Lot ν ι) :
    (h.rename f g).setLot k lot = (h.setLot k lot).rename f g := rfl

@[simp] theorem rename_aged (h : House ν κ χ ι) (p : Nat → Bool) :
    (h.rename f g).aged p = (h.aged p).rename f g := rfl

@[simp] theorem rename_deals (h : House ν κ χ ι) : (h.rename f g).deals = h.deals := rfl

@[simp] theorem rename_due (h : House ν κ χ ι) : (h.rename f g).due = h.due := rfl

theorem rename_memberAt [DecidableEq χ] [DecidableEq χ'] (hf : Function.Injective f)
    (h : House ν κ χ ι) (address : χ) :
    (h.rename f g).memberAt (f address) = (h.memberAt address).map (Member.rename f g) := by
  simp only [House.memberAt, House.rename, List.find?_map]
  congr 2
  funext m
  simp [Member.rename, hf.eq_iff]

/-- An update of members that is the same under the other addresses and secrets. -/
theorem rename_update (h : House ν κ χ ι) {p : Member ν κ χ → Bool}
    {p' : Member ν κ' χ' → Bool} {c : Member ν κ χ → Member ν κ χ}
    {c' : Member ν κ' χ' → Member ν κ' χ'} (hp : ∀ m, p' (m.rename f g) = p m)
    (hc : ∀ m, c' (m.rename f g) = (c m).rename f g) :
    (h.rename f g).update p' c' = (h.update p c).rename f g := by
  simp only [House.update, House.rename, List.map_map]
  congr 1
  refine List.map_congr_left fun m _ => ?_
  simp only [Function.comp_apply, hp, hc]
  split <;> rfl

variable [DecidableEq ν]

@[simp] theorem rename_offeredBy (h : House ν κ χ ι) (name : ν) :
    (h.rename f g).offeredBy name = h.offeredBy name := rfl

@[simp] theorem rename_wonBy (h : House ν κ χ ι) (name : ν) :
    (h.rename f g).wonBy name = h.wonBy name := rfl

theorem rename_memberNamed (h : House ν κ χ ι) (name : ν) :
    (h.rename f g).memberNamed name = (h.memberNamed name).map (Member.rename f g) := by
  simp only [House.memberNamed, House.rename, List.find?_map]
  rfl

theorem rename_tell (h : House ν κ χ ι) (lot : Lot ν ι) (notice : Notice ν ι) :
    (h.rename f g).tell lot notice = (h.tell lot notice).map (redirect f) := by
  simp only [House.tell, List.map_filterMap, rename_memberNamed]
  refine List.filterMap_congr fun w _ => ?_
  cases h.memberNamed w <;> rfl

theorem rename_close (h : House ν κ χ ι) (k : Nat) :
    (h.rename f g).close k = (h.close k).map (renamed f g) := by
  simp only [House.close, rename_lots, Option.bind_eq_bind]
  cases h.lots[k]? with
  | none => rfl
  | some lot => simp only [Option.bind_some, Option.map_some, rename_tell]; rfl

theorem rename_signIn [DecidableEq κ] [DecidableEq κ'] (hg : Function.Injective g)
    (h : House ν κ χ ι) (address : χ) (name : ν) (secret : κ) :
    (h.rename f g).signIn (f address) name (g secret) =
      renamed f g (h.signIn address name secret) := by
  simp only [House.signIn, rename_memberNamed]
  cases h.memberNamed name with
  | none => simp [renamed, House.rename, Member.rename, redirect]
  | some m =>
    simp only [Option.map_some]
    by_cases hpresent : m.present = true
    · simp [renamed, Member.rename, hpresent, redirect]
    · by_cases hsecret : m.secret = secret
      · simp only [Member.rename, hpresent, hsecret, ↓reduceIte]
        refine Prod.ext (rename_update h (fun _ => rfl) fun _ => rfl) rfl
      · simp [renamed, Member.rename, hpresent, hg.eq_iff, hsecret, redirect]

theorem rename_bid (h : House ν κ χ ι) (address : χ) (name : ν) (k : Nat) (lot : Lot ν ι)
    (amount : Int) :
    (h.rename f g).bid (f address) name k lot amount =
      (h.bid address name k lot amount).map (renamed f g) := by
  simp only [House.bid, rename_setLot, rename_close, rename_tell]
  split_ifs <;> simp [renamed, redirect]

theorem rename_leave (h : House ν κ χ ι) (address : χ) (name : ν) (k : Nat) (lot : Lot ν ι) :
    (h.rename f g).leave (f address) name k lot =
      (h.leave address name k lot).map (renamed f g) := by
  simp only [House.leave]
  split <;> rfl

section Answers

variable [DecidableEq χ] [DecidableEq χ']

theorem rename_signOut (hf : Function.Injective f) (h : House ν κ χ ι) (address : χ) :
    (h.rename f g).answer (f address) .signOut =
      (h.answer address .signOut).map (renamed f g) := by
  simp only [House.answer, rename_memberAt hf]
  cases h.memberAt address with
  | none => rfl
  | some m =>
    have hupdate : ((h.rename f g).update (fun m => m.address = f address) fun m =>
        { m with present := false }) = (h.update (fun m => m.address = address) fun m =>
        { m with present := false }).rename f g :=
      rename_update h (fun m => by simp [Member.rename, hf.eq_iff]) fun m => rfl
    simp only [Option.map_some, hupdate]
    rfl

theorem rename_watchCall (hf : Function.Injective f) (h : House ν κ χ ι) (address : χ)
    (number : Int) : (h.rename f g).answer (f address) (.watch number) =
      (h.answer address (.watch number)).map (renamed f g) := by
  simp only [House.answer, rename_memberAt hf, rename_find, rename_lots]
  cases h.find number with
  | none => rfl
  | some k =>
    cases h.memberAt address with
    | none => rfl
    | some m =>
      simp only [Option.map_some, Option.bind_eq_bind, Option.bind_some]
      cases h.lots[k]? <;> rfl

theorem rename_leaveCall (hf : Function.Injective f) (h : House ν κ χ ι) (address : χ)
    (number : Int) : (h.rename f g).answer (f address) (.leave number) =
      (h.answer address (.leave number)).map (renamed f g) := by
  simp only [House.answer, rename_memberAt hf, rename_find, rename_lots]
  cases h.memberAt address with
  | none => rfl
  | some m =>
    simp only [Option.map_some, Option.bind_eq_bind, Option.bind_some]
    cases h.find number with
    | none => rfl
    | some k =>
      dsimp only
      cases h.lots[k]? with
      | none => rfl
      | some lot => exact rename_leave h address m.name k lot

theorem rename_bidCall (hf : Function.Injective f) (h : House ν κ χ ι) (address : χ)
    (number amount : Int) : (h.rename f g).answer (f address) (.bid number amount) =
      (h.answer address (.bid number amount)).map (renamed f g) := by
  have honSale : (h.rename f g).onSale = h.onSale := rfl
  simp only [House.answer, rename_memberAt hf, rename_find, rename_lots]
  cases h.memberAt address with
  | none => rfl
  | some m =>
    simp only [Option.map_some, Option.bind_eq_bind, Option.bind_some]
    by_cases hempty : h.onSale = []
    · rw [if_pos hempty, if_pos (honSale.trans hempty)]
      rfl
    · rw [if_neg hempty, if_neg fun h => hempty (honSale.symm.trans h)]
      cases h.find number with
      | none => rfl
      | some k =>
        dsimp only
        cases h.lots[k]? with
        | none => rfl
        | some lot => exact rename_bid h address m.name k lot amount

theorem rename_answer (hf : Function.Injective f) (h : House ν κ χ ι) (address : χ)
    (call : Call ι) : (h.rename f g).answer (f address) call =
      (h.answer address call).map (renamed f g) := by
  cases call with
  | signOut => exact rename_signOut hf h address
  | watch number => exact rename_watchCall hf h address number
  | leave number => exact rename_leaveCall hf h address number
  | bid number amount => exact rename_bidCall hf h address number amount
  | offer item duration price =>
    simp only [House.answer, rename_memberAt hf]
    split
    · rfl
    · cases h.memberAt address <;> rfl
  | wins | sales | funds =>
    simp only [House.answer, rename_memberAt hf]
    cases h.memberAt address <;> rfl

end Answers

variable [DecidableEq κ] [DecidableEq χ] [DecidableEq κ'] [DecidableEq χ']

theorem rename_step (hf : Function.Injective f) (hg : Function.Injective g) (h : House ν κ χ ι)
    (input : Input ν κ χ ι) :
    House.step (h.rename f g) (input.rename f g) = (House.step h input).map (renamed f g) := by
  cases input with
  | signIn address name secret => exact congrArg some (rename_signIn hg h address name secret)
  | call address call => exact rename_answer hf h address call
  | tick =>
    simp only [House.step, Input.rename, House.tick, rename_due, rename_onSale, rename_aged]
    cases h.due with
    | none => rfl
    | some k => exact rename_close _ k

/-- The renamed inputs of a run make the renamed run. -/
theorem rename_run (hf : Function.Injective f) (hg : Function.Injective g)
    {h₀ h : House ν κ χ ι} {inputs : List (Input ν κ χ ι)} {notices : List (χ × Notice ν ι)}
    (run : Run House.step House.Accepts h₀ inputs notices h) :
    Run House.step House.Accepts (h₀.rename f g) (inputs.map (Input.rename f g))
      (notices.map (redirect f)) (h.rename f g) := by
  induction run with
  | start => exact .start
  | step _ _ hs ih =>
    rw [List.map_append, List.map_append]
    exact .step ih trivial (by rw [rename_step hf hg, hs]; rfl)

end Renaming

end AuctionHouse
