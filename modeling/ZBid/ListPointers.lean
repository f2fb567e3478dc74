import ZBid.Lib.Chain
import ZBid.LinkedList
import Mathlib.Data.List.InsertIdx

/-!
# linkedlist.c, pointer by pointer

The functions of linkedlist.c on the nodes in memory, and the lists of elements that they are
about. `malloc` returns the address of a node that is not in use; it is an argument here. A
dereference of NULL or of a node that has been freed, and an overflow of an int, are undefined.
-/
namespace ZBid

open CInt Chain

/-- A `list_t`: the pointer to its first node and its counter. -/
structure ListT where
  head : Ptr
  length : Int
  deriving DecidableEq, Repr

variable {α : Type}

/-- `InsertAtHead`; `newNode` is what `malloc` returns. -/
def ListT.insertAtHead (l : ListT) (h : Memory α) (newNode : Nat) :
    Option α → Option (ListT × Memory α)
  | none => some (l, h)
  | some x => do
    let head := if l.length = 0 then none else l.head
    let n ← incr l.length
    some (⟨some newNode, n⟩, store h newNode ⟨x, head⟩)

/-- The loop of `InsertAtTail`. It visits a node for each unit of fuel. -/
def tailLoop : Nat → Memory α → Ptr → Option Ptr
  | 0, _, _ => none
  | fuel + 1, h, current => do
    let node ← deref h current
    if node.next ≠ none then tailLoop fuel h node.next else some current

/-- `InsertAtTail`. -/
def ListT.insertAtTail (fuel : Nat) (l : ListT) (h : Memory α) (newNode : Nat) :
    Option α → Option (ListT × Memory α)
  | none => some (l, h)
  | some x =>
    if l.length = 0 then l.insertAtHead h newNode (some x)
    else do
      let current ← tailLoop fuel h l.head
      let h ← setNext h current (some newNode)
      let n ← incr l.length
      some (⟨l.head, n⟩, store h newNode ⟨x, none⟩)

/-- The loop `while (i++ != index)` of `removeByIndex`. -/
def removeWalk (h : Memory α) (index i : Int) (prev current : Ptr) : Option (Ptr × Ptr) :=
  match _hi : incr i with
  | none => none
  | some next =>
    if i = index then some (prev, current)
    else
      match deref h current with
      | none => none
      | some node => removeWalk h index next current node.next
termination_by (intMax - i).toNat
decreasing_by
  obtain ⟨rfl, hlt⟩ := incr_eq_some _hi
  omega

/-- `removeByIndex`: what it returns, the list and the memory afterwards. -/
def ListT.removeByIndex (l : ListT) (h : Memory α) (index : Int) :
    Option (Option α × ListT × Memory α) :=
  if l.length ≤ index then some (none, l, h)
  else if index = 0 then do
    let node ← deref h l.head
    let h ← release h l.head
    some (some node.data, ⟨node.next, l.length - 1⟩, h)
  else do
    let (prev, current) ← removeWalk h index 0 none l.head
    let node ← deref h current
    let h ← setNext h prev node.next
    let h ← release h current
    some (some node.data, ⟨l.head, l.length - 1⟩, h)

/-- The list is well formed: NULL ends its chain, and the counter, an int, is the number of its
nodes. -/
structure Represents (h : Memory α) (l : ListT) (cells : List (Nat × α)) : Prop where
  links : Links h l.head cells none
  count : l.length = cells.length
  isInt : l.length ≤ intMax

/-- A well-formed list of these elements. -/
def HoldsList (h : Memory α) (l : ListT) (xs : List α) : Prop :=
  ∃ cells, Represents h l cells ∧ cells.map Prod.snd = xs

variable {h : Memory α} {l : ListT} {p prev : Ptr} {cells front back : List (Nat × α)}
  {xs : List α} {index i : Int} {a b n : Nat} {x y : α}

theorem ListT.insertAtHead_some (hlist : Represents h l cells) (hroom : l.length < intMax)
    (hfree : h n = none) (x : α) :
    ∃ l' h', l.insertAtHead h n (some x) = some (l', h') ∧
      Represents h' l' ((n, x) :: cells) ∧ l'.length = l.length + 1 ∧
      ∀ c, c ≠ n → h' c = h c := by
  have hcount := hlist.count
  have hhead : (if l.length = 0 then none else l.head) = l.head := by
    split
    · obtain rfl : cells = [] := List.length_eq_zero_iff.mp (by omega)
      exact hlist.links.symm
    · rfl
  have hother (c : Nat) (hc : c ≠ n) : store h n ⟨x, l.head⟩ c = h c := store_other _ _ hc
  refine ⟨⟨some n, l.length + 1⟩, store h n ⟨x, l.head⟩, ?_, ⟨?_, ?_, ?_⟩, rfl, hother⟩
  · simp only [ListT.insertAtHead, hhead, incr_of_lt hroom, Option.bind_eq_bind, Option.bind_some]
  · exact hlist.links.push (hlist.links.fresh hfree) (store_same _ _ _) hother
  · rw [hcount, List.length_cons]
    rfl
  · exact hroom

/-- The loop stops at the last node. -/
theorem tailLoop_last {fuel : Nat} (hfuel : front.length < fuel)
    (hlinks : Links h p (front ++ [(a, x)]) none) : tailLoop fuel h p = some (some a) := by
  induction front generalizing fuel p with
  | nil =>
    obtain ⟨fuel, rfl⟩ := Nat.exists_eq_add_one.mpr hfuel
    obtain ⟨rfl, next, ha, rfl⟩ := hlinks
    simp [tailLoop, deref, ha]
  | cons cell front ih =>
    obtain ⟨c, z⟩ := cell
    obtain ⟨fuel, rfl⟩ := Nat.exists_eq_add_one.mpr (Nat.zero_lt_of_lt hfuel)
    obtain ⟨rfl, next, hc, hrest⟩ := hlinks
    have hnext : next ≠ none := by
      rintro rfl
      obtain ⟨r, hfirst, hlast⟩ := links_append.mp hrest
      cases front with
      | nil => cases hfirst.trans hlast.1
      | cons cell front => cases hfirst.1
    simp only [tailLoop, deref, Option.bind_some, hc, Option.bind_eq_bind, if_pos hnext]
    exact ih (by simpa using hfuel) hrest

theorem ListT.insertAtTail_some (hlist : Represents h l cells) (hroom : l.length < intMax)
    (hfree : h n = none) {fuel : Nat} (hfuel : cells.length ≤ fuel) (x : α) :
    ∃ l' h', l.insertAtTail fuel h n (some x) = some (l', h') ∧
      Represents h' l' (cells ++ [(n, x)]) ∧ l'.length = l.length + 1 ∧
      ∀ c, c ∉ cells.map Prod.fst → c ≠ n → h' c = h c := by
  have hcount := hlist.count
  rcases List.eq_nil_or_concat' cells with rfl | ⟨front, ⟨a, y⟩, rfl⟩
  · obtain ⟨l', h', hinsert, hlist', hlength, hsame⟩ :=
      ListT.insertAtHead_some hlist hroom hfree x
    refine ⟨l', h', ?_, hlist', hlength, fun c _ => hsame c⟩
    rw [ListT.insertAtTail, if_pos (show l.length = 0 from hcount), hinsert]
  · have hout := hlist.links.fresh hfree
    rw [List.length_append, List.length_singleton] at hfuel hcount
    have hzero : l.length ≠ 0 := by omega
    obtain ⟨r, -, ha, rfl⟩ := links_middle.mp hlist.links
    have hlast : tailLoop fuel h l.head = some (some a) := tailLoop_last hfuel hlist.links
    obtain ⟨hlinks, hsame⟩ := hlist.links.insert hout ha x
    refine ⟨⟨l.head, l.length + 1⟩, _, ?_, ⟨by simpa using hlinks, ?_, hroom⟩, rfl, hsame⟩
    · simp only [ListT.insertAtTail, if_neg hzero, hlast, setNext_some ha, incr_of_lt hroom,
        Option.bind_eq_bind, Option.bind_some]
    · simp only [List.length_append, List.length_singleton]
      omega

theorem removeWalk_stop (hi : i < intMax) : removeWalk h i i prev p = some (prev, p) := by
  rw [removeWalk, incr_of_lt hi]
  simp

theorem removeWalk_next (hne : i ≠ index) : removeWalk h index i prev p =
    (incr i).bind fun next => (deref h p).bind fun node =>
      removeWalk h index next p node.next := by
  rw [removeWalk]
  cases incr i with
  | none => rfl
  | some next =>
    simp only [if_neg hne, Option.bind_some]
    cases deref h p <;> rfl

/-- The walk stops at the node behind as many as the counter lacks, with `prev` before it. -/
theorem removeWalk_stops (hlinks : Links h p (front ++ (a, x) :: (b, y) :: back) none)
    (hroom : i + front.length + 1 < intMax) :
    removeWalk h (i + front.length + 1) i prev p = some (some a, some b) := by
  induction front generalizing i p prev with
  | nil =>
    obtain ⟨rfl, next, ha, rfl, -⟩ := hlinks
    simp only [List.length_nil, Nat.cast_zero, Int.add_zero] at hroom ⊢
    rw [removeWalk_next (by omega), incr_of_lt (by omega)]
    simp only [Option.bind_some, deref, ha]
    exact removeWalk_stop hroom
  | cons cell front ih =>
    obtain ⟨c, z⟩ := cell
    obtain ⟨rfl, next, hc, hrest⟩ := hlinks
    simp only [List.length_cons, Nat.cast_add, Nat.cast_one] at hroom ⊢
    rw [removeWalk_next (by omega), incr_of_lt (by omega)]
    simp only [Option.bind_some, deref, hc]
    rw [show i + (front.length + 1 : Int) + 1 = i + 1 + front.length + 1 by omega]
    exact ih hrest (by omega)

/-- A counter that has passed the index walks off the chain. -/
theorem removeWalk_past (hlinks : Links h p cells none) (hpast : index < i) :
    removeWalk h index i prev p = none := by
  induction cells generalizing i p prev with
  | nil =>
    obtain rfl := hlinks
    rw [removeWalk_next (by omega)]
    cases incr i <;> rfl
  | cons cell cells ih =>
    obtain ⟨c, z⟩ := cell
    obtain ⟨rfl, next, hc, hrest⟩ := hlinks
    rw [removeWalk_next (by omega)]
    cases hi : incr i with
    | none => rfl
    | some i' =>
      obtain ⟨rfl, -⟩ := incr_eq_some hi
      simp only [Option.bind_some, deref, hc]
      exact ih hrest (by omega)

/-- The index -1 of a failed search, like any negative one, walks off the chain. -/
theorem ListT.removeByIndex_neg (hlist : Represents h l cells) (hneg : index < 0) :
    l.removeByIndex h index = none := by
  have hlength : ¬ l.length ≤ index := by
    rw [hlist.count]
    omega
  simp only [ListT.removeByIndex, if_neg hlength, show index ≠ 0 by omega, ↓reduceIte,
    removeWalk_past hlist.links hneg]
  rfl

theorem ListT.removeByIndex_past (hpast : l.length ≤ index) :
    l.removeByIndex h index = some (none, l, h) := if_pos hpast

/-- The first element. -/
theorem ListT.removeByIndex_head (hlist : Represents h l ((a, x) :: cells)) :
    ∃ l' h', l.removeByIndex h 0 = some (some x, l', h') ∧ Represents h' l' cells ∧
      ∀ c, c ≠ a → h' c = h c := by
  have hsame (c : Nat) (hc : c ≠ a) : Function.update h a none c = h c :=
    Function.update_of_ne hc _ _
  obtain ⟨next, ha, hrest⟩ := hlist.links.pop hsame
  have hcount := hlist.count
  have hmax := hlist.isInt
  have hhead : l.head = some a := hlist.links.1
  rw [List.length_cons] at hcount
  refine ⟨⟨next, l.length - 1⟩, Function.update h a none, ?_, ⟨hrest, ?_, ?_⟩, hsame⟩
  · simp [ListT.removeByIndex, hhead, deref, release, ha, show ¬ l.length ≤ 0 by omega]
  · simp only
    omega
  · simp only
    omega

/-- An element behind another one. -/
theorem ListT.removeByIndex_behind
    (hlist : Represents h l (front ++ (a, x) :: (b, y) :: back)) :
    ∃ l' h', l.removeByIndex h (front.length + 1) = some (some y, l', h') ∧
      Represents h' l' (front ++ (a, x) :: back) ∧ ∀ c, c ≠ a → c ≠ b → h' c = h c := by
  obtain ⟨hab, ha, next, hb⟩ := hlist.links.pair
  have hcount := hlist.count
  have hmax := hlist.isInt
  simp only [List.length_append, List.length_cons] at hcount
  have hwalk : removeWalk h (0 + front.length + 1) 0 none l.head = some (some a, some b) :=
    removeWalk_stops hlist.links (by omega)
  rw [Int.zero_add] at hwalk
  let h' := Function.update (store h a ⟨x, next⟩) b none
  have hsame (c : Nat) (hca : c ≠ a) (hcb : c ≠ b) : h' c = h c :=
    (Function.update_of_ne hcb _ _).trans (store_other h _ hca)
  have ha' : h' a = some ⟨x, next⟩ := (Function.update_of_ne hab _ _).trans (store_same _ _ _)
  refine ⟨⟨l.head, l.length - 1⟩, h', ?_, ⟨hlist.links.unsplice hb ha' hsame, ?_, ?_⟩, hsame⟩
  · have hlength : ¬ l.length ≤ front.length + 1 := by omega
    have hzero : (front.length + 1 : Int) ≠ 0 := by omega
    have hfree : release (store h a ⟨x, next⟩) (some b) = some h' := by
      simp [release, store_other h _ hab.symm, hb, h']
    simp only [ListT.removeByIndex, if_neg hlength, if_neg hzero, hwalk, deref, hb,
      setNext_some ha, hfree,
      Option.bind_eq_bind, Option.bind_some]
  · simp only [List.length_append, List.length_cons]
    omega
  · simp only
    omega

/-- Two neighbours around a position. -/
theorem split_pair {β : Type} {cells : List β} {k : Nat} (hk : k + 1 < cells.length) :
    ∃ front c d back, cells = front ++ c :: d :: back ∧ front.length = k := by
  refine ⟨cells.take k, cells[k], cells[k + 1], cells.drop (k + 2), ?_, ?_⟩
  · rw [← List.drop_eq_getElem_cons hk, ← List.drop_eq_getElem_cons (by omega),
      List.take_append_drop]
  · rw [List.length_take]
    omega

/-- The element at an index in range, and the list without it; other nodes are left alone. -/
theorem ListT.removeByIndex_nat (hlist : Represents h l cells) {k : Nat} (hk : k < cells.length) :
    ∃ l' h', l.removeByIndex h k = some (some cells[k].2, l', h') ∧
      Represents h' l' (cells.eraseIdx k) ∧ ∀ c, c ∉ cells.map Prod.fst → h' c = h c := by
  cases k with
  | zero =>
    obtain ⟨⟨a, x⟩, cells, rfl⟩ := List.exists_cons_of_length_pos hk
    obtain ⟨l', h', hremove, hlist', hsame⟩ := ListT.removeByIndex_head hlist
    exact ⟨l', h', hremove, hlist', fun c hc => hsame c (by simp_all)⟩
  | succ k =>
    obtain ⟨front, ⟨a, x⟩, ⟨b, y⟩, back, rfl, rfl⟩ := split_pair hk
    obtain ⟨l', h', hremove, hlist', hsame⟩ := ListT.removeByIndex_behind hlist
    refine ⟨l', h', ?_, ?_, fun c hc => hsame c (by simp_all) (by simp_all)⟩
    · simpa using hremove
    · simpa [List.eraseIdx_append_of_length_le] using hlist'

theorem HoldsList.wf (hlist : HoldsList h l xs) : (⟨xs, l.length⟩ : LinkedList α).WF := by
  obtain ⟨cells, hcells, rfl⟩ := hlist
  simpa [LinkedList.WF] using hcells.count

theorem ListT.insertAtTail_full (hfull : l.length = intMax) (fuel : Nat) (x : α) :
    l.insertAtTail fuel h n (some x) = none := by
  have hzero : intMax ≠ 0 := by decide
  simp [ListT.insertAtTail, hfull, hzero]

/-- On nodes, `InsertAtTail` does what it does on the list of elements. -/
theorem ListT.insertAtTail_refines (hlist : HoldsList h l xs) (hfree : h n = none) {fuel : Nat}
    (hfuel : xs.length ≤ fuel) (x : Option α) :
    match ZBid.insertAtTail ⟨xs, l.length⟩ x with
    | none => l.insertAtTail fuel h n x = none
    | some m => ∃ l' h', l.insertAtTail fuel h n x = some (l', h') ∧ HoldsList h' l' m.nodes ∧
        l'.length = m.length := by
  cases x with
  | none => exact ⟨l, h, rfl, hlist, rfl⟩
  | some x =>
    have hwf := hlist.wf
    obtain ⟨cells, hcells, rfl⟩ := hlist
    rw [List.length_map] at hfuel
    split
    · rename_i hnone
      by_cases hroom : l.length < intMax
      · obtain ⟨m, hsome⟩ := insertAtTail_isSome x hwf hroom
        cases hnone.symm.trans hsome
      · have hmax := hcells.isInt
        exact ListT.insertAtTail_full (by omega) fuel x
    · rename_i m hsome
      obtain rfl := insertAtTail_eq hwf hsome
      obtain ⟨l', h', hinsert, hlist', hlength, -⟩ :=
        ListT.insertAtTail_some hcells (length_lt_of_insertAtTail hsome) hfree hfuel x
      exact ⟨l', h', hinsert, ⟨_, hlist', by simp⟩, hlength⟩

/-- On nodes, `removeByIndex` does what it does on the list of elements. -/
theorem ListT.removeByIndex_refines (hlist : HoldsList h l xs) (index : Int) :
    match ZBid.removeByIndex ⟨xs, l.length⟩ index with
    | none => l.removeByIndex h index = none
    | some (r, m) => ∃ l' h', l.removeByIndex h index = some (r, l', h') ∧
        HoldsList h' l' m.nodes ∧ l'.length = m.length := by
  have hwf := hlist.wf
  have hlength : l.length = xs.length := hwf
  by_cases hneg : index < 0
  · obtain ⟨cells, hcells, -⟩ := hlist
    rw [ZBid.removeByIndex_neg hwf hneg]
    exact ListT.removeByIndex_neg hcells hneg
  · obtain ⟨k, rfl⟩ := Int.eq_ofNat_of_zero_le (show 0 ≤ index by omega)
    by_cases hk : k < xs.length
    · rw [ZBid.removeByIndex_nat hwf hk]
      obtain ⟨cells, hcells, rfl⟩ := hlist
      rw [List.length_map] at hk hlength
      obtain ⟨l', h', hremove, hlist', -⟩ := ListT.removeByIndex_nat hcells hk
      have hcount := hlist'.count
      rw [List.length_eraseIdx_of_lt hk] at hcount
      refine ⟨l', h', ?_, ⟨_, hlist', (List.eraseIdx_map _ _ _).symm⟩, ?_⟩
      · simpa using hremove
      · simp only
        omega
    · have hpast : l.length ≤ k := by omega
      simp only [ZBid.removeByIndex, if_pos hpast]
      exact ⟨l, h, ListT.removeByIndex_past hpast, hlist, rfl⟩

/-- An index in range takes out its element and nothing else; any other index leaves everything as
it is, and NULL is returned. -/
def RemoveLaw (h : Memory α) (l : ListT) (xs : List α) (index : Int) : Prop :=
  ∃ r l' h', l.removeByIndex h index = some (r, l', h') ∧
    if 0 ≤ index ∧ index < xs.length then
      r = xs[index.toNat]? ∧ HoldsList h' l' (xs.eraseIdx index.toNat) ∧
        l'.length = l.length - 1
    else r = none ∧ l' = l ∧ h' = h

/-- The law holds for every index that is not negative, and for no other. -/
theorem removeLaw_iff (hlist : HoldsList h l xs) (index : Int) :
    RemoveLaw h l xs index ↔ 0 ≤ index := by
  have hlength : l.length = xs.length := hlist.wf
  constructor
  · rintro ⟨r, l', h', hremove, -⟩
    by_contra hneg
    obtain ⟨cells, hcells, -⟩ := hlist
    rw [ListT.removeByIndex_neg hcells (by omega)] at hremove
    cases hremove
  · intro hindex
    obtain ⟨k, rfl⟩ := Int.eq_ofNat_of_zero_le hindex
    by_cases hk : k < xs.length
    · have hrefines := ListT.removeByIndex_refines hlist k
      rw [ZBid.removeByIndex_nat hlist.wf hk] at hrefines
      obtain ⟨l', h', hremove, hlist', hcount⟩ := hrefines
      refine ⟨_, l', h', hremove, ?_⟩
      rw [if_pos ⟨hindex, by omega⟩]
      exact ⟨by simp [hk], hlist', hcount⟩
    · refine ⟨none, l, h, ListT.removeByIndex_past (by omega), ?_⟩
      rw [if_neg (by omega)]
      exact ⟨rfl, rfl, rfl⟩

/-- A list of two elements. -/
def samplePairList : Memory Char := fun a =>
  if a = 0 then some ⟨'v', some 1⟩ else if a = 1 then some ⟨'w', none⟩ else none

theorem samplePairList_holds : HoldsList samplePairList ⟨some 0, 2⟩ ['v', 'w'] :=
  ⟨[(0, 'v'), (1, 'w')], ⟨⟨rfl, some 1, rfl, rfl, none, rfl, rfl⟩, rfl, by decide⟩, rfl⟩

/-- The second of two elements. -/
theorem removeLaw_iff_sample : RemoveLaw samplePairList ⟨some 0, 2⟩ ['v', 'w'] 1 :=
  (removeLaw_iff samplePairList_holds 1).mpr (by decide)

/-- The index of a failed search, on a list of two. -/
theorem removeLaw_fails : ¬ ∀ (h : Memory Char) l xs index, HoldsList h l xs → InInt index →
    RemoveLaw h l xs index := by
  intro claim
  obtain ⟨r, l', h', hremove, -⟩ := claim _ _ _ (-1) samplePairList_holds (by decide)
  obtain ⟨cells, hcells, -⟩ := samplePairList_holds
  rw [ListT.removeByIndex_neg hcells (by decide)] at hremove
  cases hremove

end ZBid
