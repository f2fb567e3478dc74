import ZBid.Lib.Chains
import ZBid.Lib.Runs
import ZBid.ListOrder

/-!
# The lists of a program

All of linkedlist.c, on any number of lists that share one memory, in any order of calls. The
program's lists of users, of auctions, of watchers and of sales are treated as lists of elements
elsewhere; here is why that is right.
-/
namespace ZBid

open CInt Chain Runs

variable {α ι : Type}

/-- `removeFront`. -/
def ListT.removeFront (l : ListT) (h : Memory α) : Option (Option α × ListT × Memory α) :=
  if l.length = 0 then some (none, l, h)
  else do
    let node ← deref h l.head
    let n ← decr l.length
    let h ← release h l.head
    some (some node.data, ⟨node.next, n⟩, h)

/-- The loop of `removeRear`. It visits a node for each unit of fuel. -/
def rearLoop : Nat → Memory α → Ptr → Option Ptr
  | 0, _, _ => none
  | fuel + 1, h, current => do
    let node ← deref h current
    let next ← deref h node.next
    if next.next ≠ none then rearLoop fuel h node.next else some current

/-- `removeRear`. -/
def ListT.removeRear (fuel : Nat) (l : ListT) (h : Memory α) :
    Option (Option α × ListT × Memory α) :=
  if l.length = 0 then some (none, l, h)
  else if l.length = 1 then l.removeFront h
  else do
    let current ← rearLoop fuel h l.head
    let node ← deref h current
    let last ← deref h node.next
    let h ← release h node.next
    let h ← setNext h current none
    let n ← decr l.length
    some (some last.data, ⟨l.head, n⟩, h)

/-- The loop of `PrintLinkedList`: what it writes. -/
def printLoop (printer : α → List Char) : Nat → Memory α → Ptr → Option (List Char)
  | _, _, none => some []
  | 0, _, some _ => none
  | fuel + 1, h, some a => do
    let node ← h a
    let rest ← printLoop printer fuel h node.next
    some (printer node.data ++ '\n' :: rest)

/-- `PrintLinkedList`. -/
def ListT.print (printer : α → List Char) (fuel : Nat) (l : ListT) (h : Memory α) :
    Option (List Char) := printLoop printer fuel h l.head

variable {h : Memory α} {l : ListT} {p : Ptr} {cells front : List (Nat × α)} {a b n : Nat}
  {x y : α} {fuel : Nat}

theorem intMin_lt_count (hlist : Represents h l cells) : intMin < l.length := by
  have hmin : intMin < 0 := by decide
  have hcount := hlist.count
  omega

/-- The first element is the one with the index 0. -/
theorem ListT.removeFront_eq (hlist : Represents h l cells) (hne : cells ≠ []) :
    l.removeFront h = l.removeByIndex h 0 := by
  have hpos := List.length_pos_iff.mpr hne
  have hcount := hlist.count
  rw [ListT.removeFront, ListT.removeByIndex, if_neg (by omega), if_neg (by omega), if_pos rfl]
  simp only [decr_of_lt (intMin_lt_count hlist), Option.bind_eq_bind, Option.bind_some]

/-- The loop stops at the last node but one. -/
theorem rearLoop_stops (hfuel : front.length < fuel)
    (hlinks : Links h p (front ++ [(a, x), (b, y)]) none) : rearLoop fuel h p = some (some a) := by
  induction front generalizing fuel p with
  | nil =>
    obtain ⟨fuel, rfl⟩ := Nat.exists_eq_add_one.mpr hfuel
    obtain ⟨rfl, next, ha, rfl, next', hb, rfl⟩ := hlinks
    simp [rearLoop, deref, ha, hb]
  | cons cell front ih =>
    obtain ⟨c, z⟩ := cell
    obtain ⟨fuel, rfl⟩ := Nat.exists_eq_add_one.mpr (Nat.zero_lt_of_lt hfuel)
    obtain ⟨rfl, next, hc, hrest⟩ := hlinks
    -- There are two more nodes, so the one after next is not NULL.
    have hnext : ∃ node, deref h next = some node ∧ node.next ≠ none := by
      cases front with
      | nil =>
        obtain ⟨rfl, next, ha, rfl, -⟩ := hrest
        exact ⟨_, ha, by simp⟩
      | cons cell front =>
        obtain ⟨rfl, next, ha, hrest⟩ := hrest
        refine ⟨_, ha, ?_⟩
        rintro rfl
        cases front with
        | nil => cases hrest.1
        | cons cell front => cases hrest.1
    obtain ⟨node, hnode, hnonnull⟩ := hnext
    rw [rearLoop]
    simp only [show deref h (some c) = some ⟨z, next⟩ from hc, Option.bind_eq_bind,
      Option.bind_some, hnode, if_pos hnonnull]
    exact ih (by simpa using hfuel) hrest

/-- The last element is the one with the index before the counter: the nodes that are left, the
memory and the counter are the same. -/
theorem ListT.removeRear_eq (hlist : Represents h l cells) (hne : cells ≠ [])
    (hfuel : cells.length ≤ fuel) : l.removeRear fuel h = l.removeByIndex h (l.length - 1) := by
  have hpos := List.length_pos_iff.mpr hne
  have hcount := hlist.count
  have hmax := hlist.isInt
  rw [ListT.removeRear, if_neg (by omega)]
  by_cases hone : l.length = 1
  · rw [if_pos hone, ListT.removeFront_eq hlist hne, hone]
    rfl
  · have hlast : cells.length - 2 + 1 < cells.length := by omega
    obtain ⟨front, ⟨a, x⟩, ⟨b, y⟩, back, rfl, hlen⟩ := split_pair hlast
    obtain rfl : back = [] := by
      simp only [List.length_append, List.length_cons] at hlen
      exact List.length_eq_zero_iff.mp (by omega)
    simp only [List.length_append, List.length_cons, List.length_nil] at hcount hfuel
    obtain ⟨hab, ha, next, hb⟩ := hlist.links.pair
    obtain rfl : next = none := by
      obtain ⟨q, -, ha', rfl, next', hb', rfl⟩ := links_middle.mp hlist.links
      simpa [hb] using hb'
    have hloop : rearLoop fuel h l.head = some (some a) :=
      rearLoop_stops (by omega) hlist.links
    have hwalk : removeWalk h (0 + front.length + 1) 0 none l.head = some (some a, some b) :=
      removeWalk_stops hlist.links (by omega)
    have hindex : l.length - 1 = 0 + front.length + 1 := by omega
    have ha' : Function.update h b none a = some ⟨x, some b⟩ := by
      rw [Function.update_of_ne hab, ha]
    have hb' : store h a ⟨x, none⟩ b = some ⟨y, none⟩ := by
      rw [store_other _ _ hab.symm, hb]
    have hsame : store (Function.update h b none) a ⟨x, none⟩ =
        Function.update (store h a ⟨x, none⟩) b none := Function.update_comm hab.symm _ _ h
    rw [if_neg hone, ListT.removeByIndex, if_neg (by omega), if_neg (by omega), hindex, hwalk,
      ← hindex]
    simp only [hloop, deref, ha, hb, Option.bind_eq_bind, Option.bind_some, release_some hb,
      setNext_some ha', setNext_some ha, release_some hb', hsame,
      decr_of_lt (intMin_lt_count hlist)]

theorem printLoop_some (printer : α → List Char) (hfuel : cells.length ≤ fuel)
    (hlinks : Links h p cells none) : printLoop printer fuel h p =
      some (cells.flatMap fun cell => printer cell.2 ++ ['\n']) := by
  induction cells generalizing fuel p with
  | nil =>
    obtain rfl := hlinks
    cases fuel <;> rfl
  | cons cell cells ih =>
    obtain ⟨a, x⟩ := cell
    obtain ⟨rfl, next, ha, hrest⟩ := hlinks
    obtain ⟨fuel, rfl⟩ := Nat.exists_eq_add_one.mpr (Nat.zero_lt_of_lt hfuel)
    simp [printLoop, ha, ih (by simpa using hfuel) hrest]

/-- No list has more nodes: each loop ends within as many visits. -/
def maxFuel : Nat := intMax.toNat

/-- A call; `newNode` is what `malloc` returns, if the function gets that far. -/
inductive ListCall (α : Type) where
  | insertAtHead (newNode : Nat) (val_ref : Option α)
  | insertAtTail (newNode : Nat) (val_ref : Option α)
  | insertInOrder (newNode : Nat) (val_ref : Option α)
  | removeFront
  | removeRear
  | removeByIndex (index : Int)
  deriving DecidableEq, Repr

/-- What the call returns, the list and the memory afterwards. The insertions return nothing. -/
def ListCall.call (compare : α → α → Int) (l : ListT) (h : Memory α) :
    ListCall α → Option (Option α × ListT × Memory α)
  | .insertAtHead n x => (l.insertAtHead h n x).map (none, ·)
  | .insertAtTail n x => (l.insertAtTail maxFuel h n x).map (none, ·)
  | .insertInOrder n x => (l.insertInOrder compare maxFuel h n x).map (none, ·)
  | .removeFront => l.removeFront h
  | .removeRear => l.removeRear maxFuel h
  | .removeByIndex index => l.removeByIndex h index

/-- The node that the call allocates. -/
def ListCall.newNode : ListCall α → Option Nat
  | .insertAtHead n x | .insertAtTail n x | .insertInOrder n x => x.map fun _ => n
  | _ => none

/-- The element that the call puts into the list. -/
def ListCall.inserts : ListCall α → Option α
  | .insertAtHead _ x | .insertAtTail _ x | .insertInOrder _ x => x
  | _ => none

/-- What the call means for the elements: its result, and the elements afterwards. -/
def ListCall.meaning (compare : α → α → Int) (xs : List α) : ListCall α → Option α × List α
  | .insertAtHead _ x => (none, x.toList ++ xs)
  | .insertAtTail _ x => (none, xs ++ x.toList)
  | .insertInOrder _ x => (none, x.elim xs fun x => insertedList compare x xs)
  | .removeFront => (xs.head?, xs.tail)
  | .removeRear => (xs.getLast?, xs.dropLast)
  | .removeByIndex index => (xs[index.toNat]?, xs.eraseIdx index.toNat)

/-- The list has room for what is inserted, and an index is not negative. -/
def ListCall.Legal (xs : List α) : ListCall α → Prop
  | .removeByIndex index => 0 ≤ index
  | call => call.inserts.isSome → (xs.length : Int) < intMax

/-- The call goes through: the list is well formed again, with the elements that it should have,
and has given back the nodes it has no more. -/
def Completes (compare : α → α → Int) (l : ListT) (h : Memory α) (cells : List (Nat × α))
    (call : ListCall α) : Prop :=
  ∃ l' h' cells', call.call compare l h =
      some ((call.meaning compare (cells.map Prod.snd)).1, l', h') ∧
    Represents h' l' cells' ∧ Replaced h h' cells cells' ∧
    cells'.map Prod.snd = (call.meaning compare (cells.map Prod.snd)).2

variable {compare : α → α → Int}

theorem length_le_maxFuel (hlist : Represents h l cells) : cells.length ≤ maxFuel := by
  have hcount := hlist.count
  have hmax := hlist.isInt
  rw [maxFuel]
  omega

/-- A call that does nothing. -/
theorem completes_same {call : ListCall α} (hlist : Represents h l cells)
    (hcall : call.call compare l h = some (none, l, h))
    (hmeaning : call.meaning compare (cells.map Prod.snd) = (none, cells.map Prod.snd)) :
    Completes compare l h cells call :=
  ⟨l, h, cells, by rw [hcall, hmeaning], hlist, .refl h cells, by rw [hmeaning]⟩

theorem insertAtHead_completes (hlist : Represents h l cells) (hroom : l.length < intMax)
    (hfree : h n = none) (x : α) :
    Completes compare l h cells (.insertAtHead n (some x)) := by
  obtain ⟨l', h', hinsert, hlist', -, hsame⟩ := ListT.insertAtHead_some hlist hroom hfree x
  refine ⟨l', h', _, ?_, hlist', .insert (.refl _) hfree fun c _ => hsame c, rfl⟩
  simp only [ListCall.call, hinsert, Option.map_some]
  rfl

theorem insertAtTail_completes (hlist : Represents h l cells) (hroom : l.length < intMax)
    (hfree : h n = none) (x : α) :
    Completes compare l h cells (.insertAtTail n (some x)) := by
  obtain ⟨l', h', hinsert, hlist', -, hsame⟩ :=
    ListT.insertAtTail_some hlist hroom hfree (length_le_maxFuel hlist) x
  refine ⟨l', h', _, ?_, hlist', .insert (List.perm_append_singleton _ _) hfree hsame, ?_⟩
  · simp only [ListCall.call, hinsert, Option.map_some]
    rfl
  · simp [ListCall.meaning]

theorem insertInOrder_completes (hlist : Represents h l cells) (hroom : l.length < intMax)
    (hfree : h n = none) (x : α) :
    Completes compare l h cells (.insertInOrder n (some x)) := by
  obtain ⟨l', h', hinsert, hlist', -, hsame⟩ :
      ∃ l' h', l.insertInOrder compare maxFuel h n (some x) = some (l', h') ∧ _ :=
    ListT.insertInOrder_some hlist hroom hfree (length_le_maxFuel hlist) x
  refine ⟨l', h', _, ?_, hlist', .insert insertedList_perm hfree hsame, ?_⟩
  · simp only [ListCall.call, hinsert, Option.map_some]
    rfl
  · exact insertedCells_data _ _

/-- A removal frees a node. -/
theorem ListT.removeByIndex_frees {l' : ListT} {h' : Memory α} {index : Int}
    (hremove : l.removeByIndex h index = some (some x, l', h')) :
    ∃ b, h b ≠ none ∧ h' b = none := by
  simp only [ListT.removeByIndex] at hremove
  split at hremove
  · cases hremove
  · split at hremove
    · obtain ⟨node, -, hremove⟩ := Option.bind_eq_some_iff.mp hremove
      obtain ⟨h₁, hrelease, hremove⟩ := Option.bind_eq_some_iff.mp hremove
      obtain ⟨b, hb, rfl⟩ := release_eq_some hrelease
      cases hremove
      exact ⟨b, hb, Function.update_self _ _ _⟩
    · obtain ⟨⟨prev, current⟩, -, hremove⟩ := Option.bind_eq_some_iff.mp hremove
      obtain ⟨node, -, hremove⟩ := Option.bind_eq_some_iff.mp hremove
      obtain ⟨h₁, hset, hremove⟩ := Option.bind_eq_some_iff.mp hremove
      obtain ⟨h₂, hrelease, hremove⟩ := Option.bind_eq_some_iff.mp hremove
      obtain ⟨b, hb, rfl⟩ := release_eq_some hrelease
      cases hremove
      exact ⟨b, fun hfree => hb ((setNext_none_iff hset b).mpr hfree), Function.update_self _ _ _⟩

theorem removeByIndex_completes (hlist : Represents h l cells) (k : Nat) :
    Completes compare l h cells (.removeByIndex k) := by
  by_cases hk : k < cells.length
  · obtain ⟨l', h', hremove, hlist', hsame⟩ := ListT.removeByIndex_nat hlist hk
    obtain ⟨b, hb, hb'⟩ := ListT.removeByIndex_frees hremove
    refine ⟨l', h', _, ?_, hlist', .erase hlist'.links hsame hb hb', ?_⟩
    · simp [ListCall.call, ListCall.meaning, hremove, hk]
    · simp [ListCall.meaning, List.eraseIdx_map]
  · have hcount := hlist.count
    refine completes_same hlist (ListT.removeByIndex_past (by omega)) ?_
    simp only [ListCall.meaning, Int.toNat_natCast, Prod.mk.injEq]
    exact ⟨List.getElem?_eq_none (by simpa using hk),
      List.eraseIdx_of_length_le (by simpa using hk)⟩

/-- A call that does what the removal at an index does. -/
theorem completes_of_removeByIndex {call : ListCall α} {k : Nat} (hlist : Represents h l cells)
    (hcall : call.call compare l h = l.removeByIndex h k)
    (hmeaning : call.meaning compare (cells.map Prod.snd) =
      ListCall.meaning compare (cells.map Prod.snd) (.removeByIndex k)) :
    Completes compare l h cells call := by
  have hsame : Completes compare l h cells (.removeByIndex k) := removeByIndex_completes hlist k
  obtain ⟨l', h', cells', hremove, hrest⟩ := hsame
  refine ⟨l', h', cells', ?_, ?_⟩
  · rw [hcall, hmeaning]
    exact hremove
  · rw [hmeaning]
    exact hrest

theorem removeFront_completes (hlist : Represents h l cells) :
    Completes compare l h cells .removeFront := by
  cases cells with
  | nil =>
    refine completes_same hlist ?_ rfl
    simp [ListCall.call, ListT.removeFront, show l.length = 0 from hlist.count]
  | cons cell cells =>
    refine completes_of_removeByIndex (k := 0) hlist (ListT.removeFront_eq hlist (by simp)) ?_
    simp [ListCall.meaning]

theorem removeRear_completes (hlist : Represents h l cells) :
    Completes compare l h cells .removeRear := by
  by_cases hne : cells = []
  · subst hne
    refine completes_same hlist ?_ rfl
    simp [ListCall.call, ListT.removeRear, show l.length = 0 from hlist.count]
  · have hcount := hlist.count
    have hpos := List.length_pos_iff.mpr hne
    have hindex : l.length - 1 = (cells.length - 1 : Nat) := by omega
    have heq := ListT.removeRear_eq hlist hne (length_le_maxFuel hlist)
    refine completes_of_removeByIndex hlist (heq.trans (by rw [hindex])) ?_
    have hlast : (cells.map Prod.snd).dropLast = (cells.map Prod.snd).eraseIdx (cells.length - 1) :=
      List.dropLast_eq_eraseIdx (by simp; omega)
    simp [ListCall.meaning, List.getLast?_eq_getElem?, hlast]

/-- A legal call goes through. -/
theorem call_completes {call : ListCall α} (hlist : Represents h l cells)
    (hlegal : call.Legal (cells.map Prod.snd)) (hfree : ∀ n ∈ call.newNode, h n = none) :
    Completes compare l h cells call := by
  have hroom (hsome : call.inserts.isSome)
      (hle : call.inserts.isSome → ((cells.map Prod.snd).length : Int) < intMax) :
      l.length < intMax := by
    rw [hlist.count]
    simpa using hle hsome
  cases call with
  | insertAtHead n x =>
    cases x with
    | none => exact completes_same hlist rfl rfl
    | some x => exact insertAtHead_completes hlist (hroom rfl hlegal) (hfree n rfl) x
  | insertAtTail n x =>
    cases x with
    | none => exact completes_same hlist rfl (by simp [ListCall.meaning])
    | some x => exact insertAtTail_completes hlist (hroom rfl hlegal) (hfree n rfl) x
  | insertInOrder n x =>
    cases x with
    | none => exact completes_same hlist rfl rfl
    | some x => exact insertInOrder_completes hlist (hroom rfl hlegal) (hfree n rfl) x
  | removeFront => exact removeFront_completes hlist
  | removeRear => exact removeRear_completes hlist
  | removeByIndex index =>
    obtain ⟨k, rfl⟩ := Int.eq_ofNat_of_zero_le hlegal
    exact removeByIndex_completes hlist k

/-- Any other call is undefined: the counter overflows, or the walk runs off the chain. -/
theorem call_illegal {call : ListCall α} (hlist : Represents h l cells)
    (hnot : ¬ call.Legal (cells.map Prod.snd)) : call.call compare l h = none := by
  have hmax := hlist.isInt
  have hcount := hlist.count
  have hfull (hle : ¬ (call.inserts.isSome → ((cells.map Prod.snd).length : Int) < intMax)) :
      call.inserts.isSome ∧ l.length = intMax := by
    rw [Classical.not_imp, List.length_map] at hle
    exact ⟨hle.1, by omega⟩
  have hzero : intMax ≠ 0 := by decide
  cases call with
  | insertAtHead n x =>
    obtain ⟨hsome, hlength⟩ := hfull hnot
    obtain ⟨x, rfl⟩ := Option.isSome_iff_exists.mp hsome
    simp [ListCall.call, ListT.insertAtHead, hlength]
  | insertAtTail n x =>
    obtain ⟨hsome, hlength⟩ := hfull hnot
    obtain ⟨x, rfl⟩ := Option.isSome_iff_exists.mp hsome
    simp [ListCall.call, ListT.insertAtTail_full hlength]
  | insertInOrder n x =>
    obtain ⟨hsome, hlength⟩ := hfull hnot
    obtain ⟨x, rfl⟩ := Option.isSome_iff_exists.mp hsome
    simp [ListCall.call, ListT.insertInOrder_full hlength]
  | removeFront => exact absurd (fun h => absurd h Bool.false_ne_true) hnot
  | removeRear => exact absurd (fun h => absurd h Bool.false_ne_true) hnot
  | removeByIndex index => exact ListT.removeByIndex_neg hlist (Int.not_le.mp hnot)

/-- The lists of a program and the memory that their nodes are in. -/
structure Lists (ι α : Type) where
  list : ι → ListT
  memory : Memory α

/-- `CreateList`, for each of them: no node yet, in a memory that may have others. -/
def Lists.created (h₀ : Memory α) : Lists ι α := ⟨fun _ => ⟨none, 0⟩, h₀⟩

/-- A call on one of the lists; the log has what the calls return. Each list has its own
comparator. -/
def Lists.step [DecidableEq ι] (compare : ι → α → α → Int) (s : Lists ι α) :
    ι × ListCall α → Option (Lists ι α × List (Option α))
  | (i, call) => do
    let (r, l, h) ← call.call (compare i) (s.list i) s.memory
    some (⟨Function.update s.list i l, h⟩, [r])

/-- What `malloc` guarantees: the node that it returns is not in use. -/
def Lists.Malloc (s : Lists ι α) : ι × ListCall α → Prop
  | (_, call) => ∀ n ∈ call.newNode, s.memory n = none

instance [DecidableEq α] (s : Lists ι α) (call : ι × ListCall α) : Decidable (s.Malloc call) :=
  inferInstanceAs (Decidable (∀ n ∈ call.2.newNode, s.memory n = none))

/-- A call on a family of lists of elements, each on its own. -/
def elementsStep [DecidableEq ι] (compare : ι → α → α → Int) (xs : ι → List α) :
    ι × ListCall α → Option ((ι → List α) × List (Option α))
  | (i, call) =>
    let (r, ys) := call.meaning (compare i) (xs i)
    some (Function.update xs i ys, [r])

/-- The elements of the lists. -/
def elements (cells : ι → List (Nat × α)) (i : ι) : List α := (cells i).map Prod.snd

/-- Every list is well formed and no node is in two of them. The memory has their nodes, what it
had at the start, and nothing else. -/
structure HoldsLists (h₀ : Memory α) (s : Lists ι α) (cells : ι → List (Nat × α)) : Prop where
  represents : ∀ i, Represents s.memory (s.list i) (cells i)
  shares : Shares h₀ s.memory (fun i => (s.list i).head) cells

theorem HoldsLists.created (h₀ : Memory α) :
    HoldsLists h₀ (Lists.created h₀ : Lists ι α) fun _ => [] :=
  ⟨fun _ => ⟨rfl, rfl, show (0 : Int) ≤ intMax by decide⟩, .empty h₀⟩

theorem HoldsLists.print {h₀ : Memory α} {s : Lists ι α} {cells : ι → List (Nat × α)}
    (hholds : HoldsLists h₀ s cells) (i : ι) (printer : α → List Char) :
    (s.list i).print printer maxFuel s.memory =
      some ((elements cells i).flatMap fun x => printer x ++ ['\n']) := by
  have hlist := hholds.represents i
  rw [ListT.print, printLoop_some printer (length_le_maxFuel hlist) hlist.links, elements,
    List.flatMap_map]

section Step

variable [DecidableEq ι] {compare : ι → α → α → Int} {h₀ : Memory α} {s s' : Lists ι α}
  {cells : ι → List (Nat × α)} {call : ι × ListCall α} {out : List (Option α)}

/-- A call that goes through is one of the lists of elements, and legal. -/
theorem lists_step (hholds : HoldsLists h₀ s cells) (hmalloc : s.Malloc call)
    (hs : Lists.step compare s call = some (s', out)) :
    ∃ cells', HoldsLists h₀ s' cells' ∧
      elementsStep compare (elements cells) call = some (elements cells', out) := by
  obtain ⟨i, call⟩ := call
  have hlegal : call.Legal (elements cells i) := by
    by_contra hnot
    simp [Lists.step, call_illegal (hholds.represents i) hnot] at hs
  have hcompletes : Completes (compare i) (s.list i) s.memory (cells i) call :=
    call_completes (hholds.represents i) hlegal hmalloc
  obtain ⟨l', h', cells', hcall, hlist, hreplaced, hdata⟩ := hcompletes
  simp only [Lists.step, hcall, Option.bind_eq_bind, Option.bind_some, Option.some.injEq,
    Prod.mk.injEq] at hs
  obtain ⟨rfl, rfl⟩ := hs
  have hshares := hholds.shares.replace hlist.links hreplaced
  have hhead : Function.update (fun j => (s.list j).head) i l'.head =
      fun j => (Function.update s.list i l' j).head :=
    (Function.comp_update ListT.head s.list i l').symm
  rw [hhead] at hshares
  refine ⟨Function.update cells i cells', ⟨fun j => ?_, hshares⟩, ?_⟩
  · have hj := hshares.links j
    by_cases hji : j = i
    · subst hji
      simpa using hlist
    · simp only [Function.update_of_ne hji] at hj ⊢
      exact ⟨hj, (hholds.represents j).count, (hholds.represents j).isInt⟩
  · have helements : elements (Function.update cells i cells') =
        Function.update (elements cells) i (cells'.map Prod.snd) :=
      Function.comp_update (List.map Prod.snd) cells i cells'
    rw [helements, hdata]
    rfl

theorem lists_step_defined (hholds : HoldsLists h₀ s cells) (hmalloc : s.Malloc call) :
    (Lists.step compare s call).isSome ↔ call.2.Legal (elements cells call.1) := by
  obtain ⟨i, call⟩ := call
  constructor
  · intro hsome
    by_contra hnot
    simp [Lists.step, call_illegal (hholds.represents i) hnot] at hsome
  · intro hlegal
    have hcompletes : Completes (compare i) (s.list i) s.memory (cells i) call :=
      call_completes (hholds.represents i) hlegal hmalloc
    obtain ⟨l', h', cells', hcall, -⟩ := hcompletes
    simp [Lists.step, hcall]

/-- After any calls: the results and the elements are those of lists that know nothing of nodes,
the memory has the nodes of the lists and no others, a further call is defined if and only if it
is legal, and each list prints its elements. -/
structure ListsLaw (compare : ι → α → α → Int) (h₀ : Memory α) (calls : List (ι × ListCall α))
    (results : List (Option α)) (s : Lists ι α) (cells : ι → List (Nat × α)) : Prop where
  holds : HoldsLists h₀ s cells
  elements : Run (elementsStep compare) (fun _ _ => True) (fun _ => []) calls results
    (elements cells)
  defined : ∀ call, s.Malloc call →
    ((Lists.step compare s call).isSome ↔ call.2.Legal (ZBid.elements cells call.1))
  prints : ∀ i printer, (s.list i).print printer maxFuel s.memory =
    some ((ZBid.elements cells i).flatMap fun x => printer x ++ ['\n'])

theorem lists_run {calls : List (ι × ListCall α)} {results : List (Option α)}
    (run : Run (Lists.step compare) Lists.Malloc (Lists.created h₀) calls results s) :
    ∃ cells, ListsLaw compare h₀ calls results s cells := by
  have hrun : ∃ cells, HoldsLists h₀ s cells ∧ Run (elementsStep compare) (fun _ _ => True)
      (fun _ => []) calls results (elements cells) := by
    refine run.invariant (P := fun calls results s => ∃ cells, HoldsLists h₀ s cells ∧
      Run (elementsStep compare) (fun _ _ => True) (fun _ => []) calls results (elements cells))
      ⟨fun _ => [], .created h₀, .start⟩ ?_
    rintro calls results s call s' out - ⟨cells, hholds, hspec⟩ hmalloc hs
    obtain ⟨cells', hholds', hstep⟩ := lists_step hholds hmalloc hs
    exact ⟨cells', hholds', .step hspec trivial hstep⟩
  obtain ⟨cells, hholds, hspec⟩ := hrun
  exact ⟨cells, hholds, hspec, fun _ hmalloc => lists_step_defined hholds hmalloc, hholds.print⟩

/-- The second list is in descending order. -/
def sampleCompare (i : Fin 2) (a b : Int) : Int := if i = 0 then compareInt a b else compareInt b a

/-- Two lists of ints; a node that a list gives back is used again by the other. -/
def sampleCalls : List (Fin 2 × ListCall Int) :=
  [(0, .insertAtTail 7 (some 4)), (0, .insertInOrder 3 (some 9)), (1, .insertAtTail 5 (some 6)),
    (0, .insertInOrder 1 (some 5)), (0, .removeRear), (1, .insertInOrder 3 (some 8)),
    (0, .removeFront)]

theorem lists_run_sample :
    let last := (exec (Lists.step sampleCompare) Lists.Malloc (Lists.created fun _ => none)
      sampleCalls).get (by decide)
    last.2 = [none, none, none, none, some 9, none, some 4] ∧
      ∃ cells, ListsLaw sampleCompare (fun _ => none) sampleCalls last.2 last.1 cells :=
  ⟨by decide, lists_run (run_of_isSome (by decide))⟩

end Step

end ZBid
