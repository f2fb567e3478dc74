import ZBid.ListPointers
import Mathlib.Data.List.Sort

/-!
# InsertInOrder

The insertion of linkedlist.c at the place where a comparator puts the new element. The first
element of the list is compared by another test than the others: an equal element goes behind it,
but before the others that are equal. The program itself creates all its lists without a
comparator and never calls the function.
-/
namespace ZBid

open CInt Chain

variable {α : Type}

/-- The loop of `InsertInOrder`. It visits a node for each unit of fuel. -/
def insertLoop (compare : α → α → Int) (newNode : Nat) :
    Nat → Memory α → Ptr → Ptr → Option (Memory α)
  | _, h, _, none => some h
  | 0, _, _, some _ => none
  | fuel + 1, h, prev, some c => do
    let new ← deref h (some newNode)
    let current ← deref h (some c)
    if compare new.data current.data > 0 then
      if current.next ≠ none then insertLoop compare newNode fuel h (some c) current.next
      else setNext h (some c) (some newNode)
    else do
      let h ← setNext h prev (some newNode)
      setNext h (some newNode) (some c)

/-- The three cases of `InsertInOrder` for a list that is not empty: before its first node, behind
its only one, or the loop. -/
def placeNode (compare : α → α → Int) (fuel : Nat) (h : Memory α) (head : Ptr) (newNode : Nat) :
    Option (Ptr × Memory α) := do
  let new ← deref h (some newNode)
  let first ← deref h head
  if compare new.data first.data < 0 then do
    let h ← setNext h (some newNode) head
    some (some newNode, h)
  else if first.next = none then do
    let h ← setNext h head (some newNode)
    some (head, h)
  else do
    let h ← insertLoop compare newNode fuel h head first.next
    some (head, h)

/-- `InsertInOrder`. -/
def ListT.insertInOrder (compare : α → α → Int) (fuel : Nat) (l : ListT) (h : Memory α)
    (newNode : Nat) : Option α → Option (ListT × Memory α)
  | none => some (l, h)
  | some x =>
    if l.length = 0 then l.insertAtHead h newNode (some x)
    else do
      let (head, h) ← placeNode compare fuel (store h newNode ⟨x, none⟩) l.head newNode
      let n ← incr l.length
      some (⟨head, n⟩, h)

/-- The comparison of a total preorder: negative, zero or positive as the first argument is below
the second, level with it or above it. -/
structure Comparator (compare : α → α → Int) : Prop where
  flip : ∀ a b, compare a b < 0 ↔ 0 < compare b a
  trans : ∀ a b c, compare a b ≤ 0 → compare b c ≤ 0 → compare a c ≤ 0

def SortedBy (compare : α → α → Int) (xs : List α) : Prop :=
  xs.Pairwise fun a b => compare a b ≤ 0

/-- Where the new element goes. -/
def insertedList (compare : α → α → Int) (x : α) : List α → List α
  | [] => [x]
  | y :: ys =>
    if compare x y < 0 then x :: y :: ys
    else y :: ys.orderedInsert (fun a b => compare a b ≤ 0) x

section Order

variable {compare : α → α → Int} {x : α} {xs : List α}

theorem insertedList_perm : (insertedList compare x xs).Perm (x :: xs) := by
  cases xs with
  | nil => exact .refl _
  | cons y ys =>
    simp only [insertedList]
    split
    · exact .refl _
    · exact ((List.perm_orderedInsert _ x ys).cons y).trans (.swap x y ys)

theorem insertedList_sublist : xs.Sublist (insertedList compare x xs) := by
  cases xs with
  | nil => exact List.nil_sublist _
  | cons y ys =>
    simp only [insertedList]
    split
    · exact List.sublist_cons_self _ _
    · exact (List.sublist_orderedInsert x ys).cons_cons y

theorem Comparator.le_of_not_lt (hcompare : Comparator compare) {a b : α}
    (h : ¬ compare a b < 0) : compare b a ≤ 0 := by
  have hflip := hcompare.flip a b
  omega

theorem insertedList_sorted (hcompare : Comparator compare) (h : SortedBy compare xs) :
    SortedBy compare (insertedList compare x xs) := by
  have htotal : Std.Total fun a b => compare a b ≤ 0 := ⟨fun a b => by
    have hflip := hcompare.flip b a
    omega⟩
  have htrans : IsTrans α fun a b => compare a b ≤ 0 := ⟨fun a b c => hcompare.trans a b c⟩
  cases xs with
  | nil => exact List.pairwise_singleton _ _
  | cons y ys =>
    obtain ⟨hy, hys⟩ := List.pairwise_cons.mp h
    simp only [insertedList]
    split
    · rename_i hlt
      refine List.pairwise_cons.mpr ⟨fun z hz => ?_, h⟩
      rcases List.mem_cons.mp hz with rfl | hz
      · exact Int.le_of_lt hlt
      · exact hcompare.trans x y z (Int.le_of_lt hlt) (hy z hz)
    · rename_i hlt
      refine List.pairwise_cons.mpr ⟨fun z hz => ?_, hys.orderedInsert x ys⟩
      rcases (List.mem_orderedInsert _).mp hz with rfl | hz
      · exact hcompare.le_of_not_lt hlt
      · exact hy z hz

end Order

section Nodes

variable {compare : α → α → Int} {h : Memory α} {l : ListT} {p : Ptr}
  {cells front rest : List (Nat × α)} {xs : List α} {a n : Nat} {x y : α}

/-- Where the new node goes, when nodes are compared by their data. -/
def insertedCells (compare : α → α → Int) (cell : Nat × α) (cells : List (Nat × α)) :
    List (Nat × α) :=
  insertedList (fun c d => compare c.2 d.2) cell cells

theorem insertedCells_data (cell : Nat × α) (cells : List (Nat × α)) :
    (insertedCells compare cell cells).map Prod.snd =
      insertedList compare cell.2 (cells.map Prod.snd) := by
  cases cells with
  | nil => rfl
  | cons c cells =>
    simp only [insertedCells, insertedList, List.map_cons]
    split
    · rfl
    · rw [List.map_cons, List.map_orderedInsert _ (fun a b => compare a b ≤ 0)]
      · simp
      · simp

/-- One visit of the loop. -/
theorem insertLoop_visit {fuel b : Nat} {prev next : Ptr} {z : α} (hn : h n = some ⟨y, none⟩)
    (hb : h b = some ⟨z, next⟩) : insertLoop compare n (fuel + 1) h prev (some b) =
      if compare y z > 0 then
        if next ≠ none then insertLoop compare n fuel h (some b) next
        else some (store h b ⟨z, some n⟩)
      else (setNext h prev (some n)).bind fun h => setNext h (some n) (some b) := by
  simp only [insertLoop, deref, Option.bind_some, hn, hb, Option.bind_eq_bind, setNext_some hb]

/-- From a node that the new one does not go before, the loop puts it in its place. -/
theorem insertLoop_spec {fuel : Nat} (hfuel : rest.length ≤ fuel) (hrest : rest ≠ [])
    {current : Ptr} (hlinks : Links h p (front ++ (a, x) :: rest) none)
    (ha : h a = some ⟨x, current⟩) (hout : n ∉ (front ++ (a, x) :: rest).map Prod.fst)
    (hn : h n = some ⟨y, none⟩) :
    ∃ h', insertLoop compare n fuel h (some a) current = some h' ∧
      Links h' p (front ++ (a, x) ::
        rest.orderedInsert (fun c d => compare c.2 d.2 ≤ 0) (n, y)) none ∧
      ∀ c, c ∉ (front ++ (a, x) :: rest).map Prod.fst → c ≠ n → h' c = h c := by
  induction rest generalizing fuel front a x current with
  | nil => exact absurd rfl hrest
  | cons cell rest ih =>
    obtain ⟨b, z⟩ := cell
    obtain ⟨hab, ha', next, hb⟩ := hlinks.pair
    obtain rfl : current = some b := by simpa [ha'] using ha.symm
    obtain ⟨fuel, rfl⟩ := Nat.exists_eq_add_one.mpr (Nat.zero_lt_of_lt hfuel)
    have hshift : front ++ (a, x) :: (b, z) :: rest = (front ++ [(a, x)]) ++ (b, z) :: rest := by
      simp
    have hna : n ≠ a := fun hna => hout (by simp [hna])
    have hnb : n ≠ b := fun hnb => hout (by simp [hnb])
    rw [insertLoop_visit hn hb]
    by_cases hcompare : compare y z > 0
    · rw [List.orderedInsert_of_not_le _ _ (by simpa using hcompare), if_pos hcompare]
      rw [hshift] at hlinks hout ⊢
      cases rest with
      | nil =>
        -- behind the last node
        obtain ⟨r, -, hb', rfl⟩ := links_middle.mp hlinks
        obtain rfl : next = none := by simpa [hb] using hb'
        have hstored : store (store h b ⟨z, some n⟩) n ⟨y, none⟩ = store h b ⟨z, some n⟩ :=
          store_self ((store_other _ _ hnb).trans hn)
        have hinsert := hlinks.insert hout hb y
        rw [hstored] at hinsert
        exact ⟨_, rfl, by simpa using hinsert.1, hinsert.2⟩
      | cons cell rest =>
        obtain ⟨-, hb', -⟩ := hlinks.pair
        obtain rfl : next = some cell.1 := by simpa [hb] using hb'
        rw [if_pos (by simp)]
        simpa using ih (by simpa using hfuel) (by simp) hlinks hb hout
    · rw [List.orderedInsert_cons_of_le _ _ (by simpa using hcompare), if_neg hcompare]
      have hn' : store h a ⟨x, some n⟩ n = some ⟨y, none⟩ := (store_other _ _ hna).trans hn
      rw [setNext_some ha, Option.bind_some, setNext_some hn']
      exact ⟨_, rfl, hlinks.insert hout ha y⟩

theorem placeNode_spec {fuel : Nat} (hfuel : rest.length ≤ fuel)
    (hlinks : Links h p ((a, x) :: rest) none) (hout : n ∉ ((a, x) :: rest).map Prod.fst)
    (hn : h n = some ⟨y, none⟩) :
    ∃ head h', placeNode compare fuel h p n = some (head, h') ∧
      Links h' head (insertedCells compare (n, y) ((a, x) :: rest)) none ∧
      ∀ c, c ∉ ((a, x) :: rest).map Prod.fst → c ≠ n → h' c = h c := by
  obtain ⟨rfl, next, ha, hrest⟩ := links_cons.mp hlinks
  have hnil : Links h (some a) ([] ++ (a, x) :: rest) none := hlinks
  have hna : n ≠ a := fun hna => hout (by simp [hna])
  simp only [placeNode, deref, Option.bind_some, Option.bind_eq_bind, hn, ha, insertedCells,
    insertedList]
  by_cases hbefore : compare y x < 0
  · have hsame (c : Nat) (hc : c ≠ n) : store h n ⟨y, some a⟩ c = h c := store_other _ _ hc
    rw [if_pos hbefore, if_pos hbefore, setNext_some hn]
    exact ⟨some n, _, rfl, hlinks.push hout (store_same _ _ _) hsame, fun c _ => hsame c⟩
  · rw [if_neg hbefore, if_neg hbefore]
    cases rest with
    | nil =>
      obtain rfl : next = none := hrest
      have hstored : store (store h a ⟨x, some n⟩) n ⟨y, none⟩ = store h a ⟨x, some n⟩ :=
        store_self ((store_other _ _ hna).trans hn)
      have hinsert := hnil.insert hout ha y
      rw [hstored] at hinsert
      rw [if_pos rfl, setNext_some ha]
      exact ⟨some a, _, rfl, hinsert⟩
    | cons cell rest =>
      obtain rfl : next = some cell.1 := hrest.1
      obtain ⟨h', hloop, hlinks', hsame⟩ := insertLoop_spec hfuel (by simp) hnil ha hout hn
      rw [if_neg (by simp), hloop]
      exact ⟨some a, h', rfl, hlinks', hsame⟩

/-- The new node goes to its place, and no node outside the list changes. -/
theorem ListT.insertInOrder_some (hlist : Represents h l cells) (hroom : l.length < intMax)
    (hfree : h n = none) {fuel : Nat} (hfuel : cells.length ≤ fuel) (x : α) :
    ∃ l' h', l.insertInOrder compare fuel h n (some x) = some (l', h') ∧
      Represents h' l' (insertedCells compare (n, x) cells) ∧ l'.length = l.length + 1 ∧
      ∀ c, c ∉ cells.map Prod.fst → c ≠ n → h' c = h c := by
  have hcount := hlist.count
  cases cells with
  | nil =>
    have hzero : l.length = 0 := hcount
    obtain ⟨l', h', hinsert, hlist', hlength, hsame⟩ :=
      ListT.insertAtHead_some hlist hroom hfree x
    refine ⟨l', h', ?_, hlist', hlength, fun c _ => hsame c⟩
    rw [ListT.insertInOrder, if_pos hzero, hinsert]
  | cons cell rest =>
    obtain ⟨a, y⟩ := cell
    have hzero : l.length ≠ 0 := by
      rw [hcount, List.length_cons]
      omega
    have hout := hlist.links.fresh hfree
    have hother (c : Nat) (hc : c ≠ n) : store h n ⟨x, none⟩ c = h c := store_other _ _ hc
    have hlinks : Links (store h n ⟨x, none⟩) l.head ((a, y) :: rest) none :=
      hlist.links.congr fun b hb => hother b fun hbn => hout (hbn ▸ hb)
    have hn : store h n ⟨x, none⟩ n = some ⟨x, none⟩ := store_same _ _ _
    have hrest : rest.length ≤ fuel := (Nat.le_succ _).trans hfuel
    obtain ⟨head, h', hplace, hlinks', hsame⟩ := placeNode_spec hrest hlinks hout hn
    refine ⟨⟨head, l.length + 1⟩, h', ?_, ⟨hlinks', ?_, hroom⟩, rfl, fun c hc hcn => ?_⟩
    · simp only [ListT.insertInOrder, if_neg hzero, hplace, incr_of_lt hroom, Option.bind_eq_bind,
        Option.bind_some]
    · rw [insertedCells, insertedList_perm.length_eq, List.length_cons, hcount]
      rfl
    · rw [hsame c hc hcn, hother c hcn]

/-- The elements afterwards. -/
theorem ListT.insertInOrder_holds (hlist : HoldsList h l xs) (hroom : l.length < intMax)
    (hfree : h n = none) {fuel : Nat} (hfuel : xs.length ≤ fuel) (x : α) :
    ∃ l' h', l.insertInOrder compare fuel h n (some x) = some (l', h') ∧
      HoldsList h' l' (insertedList compare x xs) ∧ l'.length = l.length + 1 := by
  obtain ⟨cells, hcells, rfl⟩ := hlist
  rw [List.length_map] at hfuel
  obtain ⟨l', h', hinsert, hlist', hlength, -⟩ :=
    ListT.insertInOrder_some hcells hroom hfree hfuel x
  exact ⟨l', h', hinsert, ⟨_, hlist', insertedCells_data _ _⟩, hlength⟩

/-- The counter of a list with `INT_MAX` nodes overflows. -/
theorem ListT.insertInOrder_full (hfull : l.length = intMax) (fuel : Nat) (x : α) :
    l.insertInOrder compare fuel h n (some x) = none := by
  have hzero : intMax ≠ 0 := by decide
  simp [ListT.insertInOrder, hfull, hzero]

end Nodes

section Law

variable {compare : α → α → Int} {h : Memory α} {l : ListT} {xs : List α} {newNode : Nat}

/-- `InsertInOrder` returns, and the list is in order with the new element among the old ones,
which keep their order. -/
def InsertLaw (compare : α → α → Int) (fuel : Nat) (h : Memory α) (l : ListT) (xs : List α)
    (newNode : Nat) (x : α) : Prop :=
  ∃ l' h' ys, l.insertInOrder compare fuel h newNode (some x) = some (l', h') ∧
    HoldsList h' l' ys ∧ SortedBy compare ys ∧ ys.Perm (x :: xs) ∧ xs.Sublist ys ∧
    l'.length = l.length + 1

theorem insertLaw_of_room (hcompare : Comparator compare) (hlist : HoldsList h l xs)
    (hsorted : SortedBy compare xs) (hroom : l.length < intMax) (hfree : h newNode = none)
    {fuel : Nat} (hfuel : xs.length ≤ fuel) (x : α) :
    InsertLaw compare fuel h l xs newNode x := by
  obtain ⟨l', h', hinsert, hlist', hlength⟩ :=
    ListT.insertInOrder_holds hlist hroom hfree hfuel x
  exact ⟨l', h', _, hinsert, hlist', insertedList_sorted hcompare hsorted, insertedList_perm,
    insertedList_sublist, hlength⟩

/-- The comparison of ints. -/
def compareInt (a b : Int) : Int := if a < b then -1 else if b < a then 1 else 0

theorem compareInt_comparator : Comparator compareInt where
  flip a b := by
    simp only [compareInt]
    split_ifs <;> omega
  trans a b c := by
    simp only [compareInt]
    split_ifs <;> omega

/-- The numbers 1 and 3. -/
def sampleIntList : Memory Int := fun a =>
  if a = 0 then some ⟨1, some 1⟩ else if a = 1 then some ⟨3, none⟩ else none

/-- The number 2 goes between 1 and 3. -/
theorem insertLaw_of_room_sample : InsertLaw compareInt 2 sampleIntList ⟨some 0, 2⟩ [1, 3] 2 2 :=
  insertLaw_of_room compareInt_comparator
    ⟨[(0, 1), (1, 3)], ⟨⟨rfl, some 1, rfl, rfl, none, rfl, rfl⟩, rfl, by decide⟩, rfl⟩
    (by simp [SortedBy, compareInt]) (by decide) rfl (Nat.le_refl 2) 2

/-- The nodes 0, 1, 2, and so on, each with the number 0. -/
def zeroNodes (count : Nat) : Memory Int := fun a =>
  if a < count then some ⟨0, if a + 1 < count then some (a + 1) else none⟩ else none

theorem zeroNodes_links {count a k : Nat} (hcount : a + k = count) :
    Links (zeroNodes count) (if a < count then some a else none)
      ((List.range' a k).map fun b => (b, 0)) none := by
  induction k generalizing a with
  | zero =>
    have ha : ¬ a < count := by omega
    rw [if_neg ha]
    rfl
  | succ k ih =>
    have ha : a < count := by omega
    rw [if_pos ha]
    exact ⟨rfl, _, if_pos ha, ih (by omega)⟩

theorem zeroNodes_holds {count : Nat} (hpos : 0 < count) (hmax : (count : Int) ≤ intMax) :
    HoldsList (zeroNodes count) ⟨some 0, count⟩ (List.replicate count 0) := by
  have hlinks := zeroNodes_links (Nat.zero_add count)
  rw [if_pos hpos] at hlinks
  refine ⟨_, ⟨hlinks, by simp, hmax⟩, ?_⟩
  exact List.eq_replicate_iff.mpr ⟨by simp, by simp⟩

/-- A list of `INT_MAX` zeros and one more. -/
theorem insertLaw_fails : ¬ ∀ (compare : Int → Int → Int) (h : Memory Int) l xs newNode x,
    Comparator compare → HoldsList h l xs → SortedBy compare xs → h newNode = none →
    ∃ fuel, InsertLaw compare fuel h l xs newNode x := by
  intro claim
  obtain ⟨count, hcount⟩ : ∃ count : Nat, (count : Int) = intMax := ⟨2147483647, rfl⟩
  have hpos : 0 < count := by
    have hmax : 0 < intMax := by decide
    omega
  have hsorted : SortedBy compareInt (List.replicate count 0) := by
    simp [SortedBy, List.pairwise_replicate, compareInt]
  obtain ⟨fuel, l', h', ys, hinsert, -⟩ := claim _ _ _ _ count 0 compareInt_comparator
    (zeroNodes_holds hpos (Int.le_of_eq hcount)) hsorted (if_neg (Nat.lt_irrefl count))
  rw [ListT.insertInOrder_full hcount] at hinsert
  cases hinsert

end Law

end ZBid
