import Mathlib.Data.List.Nodup
import Mathlib.Logic.Function.Basic

/-!
# Singly linked nodes in memory

A memory has a node or nothing at each address, and a pointer is an address or NULL. The
operations are those of a C program on one node; they are partial, because NULL and an address
without a node cannot be dereferenced. `Links` says which nodes a pointer leads to: a segment of
them up to another pointer, or a whole chain up to NULL. A chain never comes back to a node, and a
write to a node that is not in a segment leaves the segment as it is.
-/
namespace Chain

variable {α : Type}

abbrev Ptr := Option Nat

structure Node (α : Type) where
  data : α
  next : Ptr
  deriving DecidableEq, Repr

abbrev Memory (α : Type) := Nat → Option (Node α)

/-- The node at a pointer. -/
def deref (h : Memory α) (p : Ptr) : Option (Node α) := p.bind h

def store (h : Memory α) (a : Nat) (node : Node α) : Memory α := Function.update h a (some node)

/-- `p->next = q`. -/
def setNext (h : Memory α) (p q : Ptr) : Option (Memory α) := do
  let a ← p
  let node ← h a
  some (store h a { node with next := q })

/-- `free(p)`, for a pointer to a node. -/
def release (h : Memory α) (p : Ptr) : Option (Memory α) := do
  let a ← p
  let _ ← h a
  some (Function.update h a none)

/-- From `p` on there are these nodes, each given by its address and its data, and the `next` of
the last one is `q`. -/
def Links (h : Memory α) : Ptr → List (Nat × α) → Ptr → Prop
  | p, [], q => p = q
  | p, (a, x) :: cells, q => p = some a ∧ ∃ next, h a = some ⟨x, next⟩ ∧ Links h next cells q

variable {h h' : Memory α} {p q r : Ptr} {a : Nat} {x : α} {cells cells' : List (Nat × α)}

@[simp] theorem links_nil : Links h p [] q ↔ p = q := Iff.rfl

theorem links_cons : Links h p ((a, x) :: cells) q ↔
    p = some a ∧ ∃ next, h a = some ⟨x, next⟩ ∧ Links h next cells q := Iff.rfl

@[simp] theorem store_same (h : Memory α) (a : Nat) (node : Node α) :
    store h a node a = some node := Function.update_self _ _ _

theorem store_other (h : Memory α) {a b : Nat} (node : Node α) (hne : b ≠ a) :
    store h a node b = h b := Function.update_of_ne hne _ _

/-- A node that is there already. -/
theorem store_self {node : Node α} (ha : h a = some node) : store h a node = h :=
  Function.update_eq_self_iff.mpr ha.symm

theorem setNext_some {next : Ptr} (ha : h a = some ⟨x, next⟩) :
    setNext h (some a) q = some (store h a ⟨x, q⟩) := by
  simp [setNext, ha]

/-- Two segments that meet. -/
theorem links_append : Links h p (cells ++ cells') q ↔
    ∃ r, Links h p cells r ∧ Links h r cells' q := by
  induction cells generalizing p with
  | nil => simp
  | cons cell cells ih =>
    obtain ⟨a, x⟩ := cell
    simp only [List.cons_append, links_cons, ih]
    constructor
    · rintro ⟨rfl, next, ha, r, hfirst, hsecond⟩
      exact ⟨r, ⟨rfl, next, ha, hfirst⟩, hsecond⟩
    · rintro ⟨r, ⟨rfl, next, ha, hfirst⟩, hsecond⟩
      exact ⟨rfl, next, ha, r, hfirst, hsecond⟩

/-- A node inside a segment. -/
theorem links_middle : Links h p (cells ++ (a, x) :: cells') q ↔
    ∃ next, Links h p cells (some a) ∧ h a = some ⟨x, next⟩ ∧ Links h next cells' q := by
  rw [links_append]
  constructor
  · rintro ⟨r, hcells, rfl, next, ha, hrest⟩
    exact ⟨next, hcells, ha, hrest⟩
  · rintro ⟨next, hcells, ha, hrest⟩
    exact ⟨some a, hcells, rfl, next, ha, hrest⟩

/-- A segment depends on its own nodes only. -/
theorem Links.congr (hsame : ∀ b ∈ cells.map Prod.fst, h' b = h b) (hl : Links h p cells q) :
    Links h' p cells q := by
  induction cells generalizing p with
  | nil => exact hl
  | cons cell cells ih =>
    obtain ⟨a, x⟩ := cell
    obtain ⟨rfl, next, ha, hrest⟩ := hl
    refine ⟨rfl, next, ?_, ih (fun b hb => hsame b (List.mem_cons_of_mem _ hb)) hrest⟩
    rw [hsame a List.mem_cons_self, ha]

/-- There is a node at every address of a segment. -/
theorem Links.allocated (hl : Links h p cells q) (ha : a ∈ cells.map Prod.fst) : h a ≠ none := by
  induction cells generalizing p with
  | nil => cases ha
  | cons cell cells ih =>
    obtain ⟨b, y⟩ := cell
    obtain ⟨rfl, next, hb, hrest⟩ := hl
    rcases List.mem_cons.mp ha with rfl | ha
    · simp [hb]
    · exact ih hrest ha

theorem Links.fresh (hl : Links h p cells q) (ha : h a = none) : a ∉ cells.map Prod.fst :=
  fun hmem => hl.allocated hmem ha

/-- A pointer leads to one chain only. -/
theorem Links.unique (hl : Links h p cells none) (hl' : Links h p cells' none) :
    cells = cells' := by
  induction cells generalizing p cells' with
  | nil =>
    obtain rfl := hl
    cases cells' with
    | nil => rfl
    | cons cell' cells' => cases hl'.1
  | cons cell cells ih =>
    obtain ⟨a, x⟩ := cell
    obtain ⟨rfl, next, ha, hrest⟩ := hl
    cases cells' with
    | nil => cases hl'
    | cons cell' cells' =>
      obtain ⟨a', x'⟩ := cell'
      obtain ⟨haa', next', ha', hrest'⟩ := hl'
      obtain rfl := Option.some.inj haa'
      obtain ⟨rfl, rfl⟩ : x = x' ∧ next = next' := by simpa [ha] using ha'
      rw [ih hrest hrest']

/-- A chain that ends does not come back to a node. -/
theorem Links.nodup (hl : Links h p cells none) : (cells.map Prod.fst).Nodup := by
  induction cells generalizing p with
  | nil => exact List.nodup_nil
  | cons cell cells ih =>
    obtain ⟨a, x⟩ := cell
    have hwhole := hl
    obtain ⟨rfl, next, -, hrest⟩ := hl
    refine List.nodup_cons.mpr ⟨?_, ih hrest⟩
    intro hmem
    obtain ⟨⟨b, y⟩, hcell, rfl⟩ := List.mem_map.mp hmem
    obtain ⟨front, back, rfl⟩ := List.append_of_mem hcell
    -- the rest of the chain from the second visit on is as long as the whole of it
    obtain ⟨r, -, hsecond⟩ := links_append.mp hrest
    obtain rfl : r = some b := hsecond.1
    have hlength := congrArg List.length (hwhole.unique hsecond)
    simp at hlength
    omega

/-- Two neighbours in a chain. -/
theorem Links.pair {b : Nat} {y : α} (hl : Links h p (cells ++ (a, x) :: (b, y) :: cells') none) :
    a ≠ b ∧ h a = some ⟨x, some b⟩ ∧ ∃ next, h b = some ⟨y, next⟩ := by
  have hnodup := hl.nodup
  obtain ⟨q, -, ha, rfl, next, hb, -⟩ := links_middle.mp hl
  simp only [List.map_append, List.map_cons, List.nodup_append, List.nodup_cons, List.mem_cons,
    not_or] at hnodup
  exact ⟨hnodup.2.1.1.1, ha, next, hb⟩

/-- A node that is not in the chain, before its first one. -/
theorem Links.push {n : Nat} {y : α} (hl : Links h p cells none) (hout : n ∉ cells.map Prod.fst)
    (hn : h' n = some ⟨y, p⟩) (hsame : ∀ b, b ≠ n → h' b = h b) :
    Links h' (some n) ((n, y) :: cells) none :=
  ⟨rfl, p, hn, hl.congr fun b hb => hsame b fun hbn => hout (hbn ▸ hb)⟩

/-- The first node is taken off. -/
theorem Links.pop (hl : Links h p ((a, x) :: cells) none) (hsame : ∀ b, b ≠ a → h' b = h b) :
    ∃ next, h a = some ⟨x, next⟩ ∧ Links h' next cells none := by
  have hnodup := hl.nodup
  obtain ⟨rfl, next, ha, hrest⟩ := hl
  have hout : a ∉ cells.map Prod.fst := (List.nodup_cons.mp hnodup).1
  exact ⟨next, ha, hrest.congr fun b hb => hsame b fun hba => hout (hba ▸ hb)⟩

/-- A node that is not in the chain, behind one of it. -/
theorem Links.splice {n : Nat} {y : α} {next : Ptr}
    (hl : Links h p (cells ++ (a, x) :: cells') none)
    (hout : n ∉ (cells ++ (a, x) :: cells').map Prod.fst) (ha : h a = some ⟨x, next⟩)
    (ha' : h' a = some ⟨x, some n⟩) (hn : h' n = some ⟨y, next⟩)
    (hsame : ∀ b, b ≠ a → b ≠ n → h' b = h b) :
    Links h' p (cells ++ (a, x) :: (n, y) :: cells') none := by
  have hnodup := hl.nodup
  obtain ⟨next', hfront, hnode, hback⟩ := links_middle.mp hl
  obtain rfl : next' = next := by simpa [ha] using hnode.symm
  simp only [List.map_append, List.map_cons, List.nodup_append, List.nodup_cons, List.mem_append,
    List.mem_cons, not_or] at hnodup hout
  refine links_middle.mpr ⟨some n, hfront.congr ?_, ha', rfl, next', hn, hback.congr ?_⟩
  · exact fun b hb => hsame b (by grind) (by grind)
  · exact fun b hb => hsame b (by grind) (by grind)

/-- The two writes of an insertion, and what they leave alone. -/
theorem Links.insert {n : Nat} {next : Ptr} (hl : Links h p (cells ++ (a, x) :: cells') none)
    (hout : n ∉ (cells ++ (a, x) :: cells').map Prod.fst) (ha : h a = some ⟨x, next⟩) (y : α) :
    Links (store (store h a ⟨x, some n⟩) n ⟨y, next⟩) p (cells ++ (a, x) :: (n, y) :: cells')
      none ∧
    ∀ b, b ∉ (cells ++ (a, x) :: cells').map Prod.fst → b ≠ n →
      store (store h a ⟨x, some n⟩) n ⟨y, next⟩ b = h b := by
  have hna : n ≠ a := fun hna => hout (by simp [hna])
  have hsame (b : Nat) (hba : b ≠ a) (hbn : b ≠ n) :
      store (store h a ⟨x, some n⟩) n ⟨y, next⟩ b = h b := by
    rw [store_other _ _ hbn, store_other _ _ hba]
  constructor
  · refine hl.splice hout ha ?_ (store_same _ _ _) hsame
    rw [store_other _ _ hna.symm, store_same]
  · exact fun b hb hbn => hsame b (fun hba => hb (by simp [hba])) hbn

/-- The node behind another one is taken out. -/
theorem Links.unsplice {b : Nat} {y : α} {next : Ptr}
    (hl : Links h p (cells ++ (a, x) :: (b, y) :: cells') none) (hb : h b = some ⟨y, next⟩)
    (ha' : h' a = some ⟨x, next⟩) (hsame : ∀ c, c ≠ a → c ≠ b → h' c = h c) :
    Links h' p (cells ++ (a, x) :: cells') none := by
  have hnodup := hl.nodup
  obtain ⟨q, hfront, -, rfl, next', hnode, hback⟩ := links_middle.mp hl
  obtain rfl : next' = next := by simpa [hb] using hnode.symm
  simp only [List.map_append, List.map_cons, List.nodup_append, List.nodup_cons,
    List.mem_cons, not_or] at hnodup
  refine links_middle.mpr ⟨next', hfront.congr ?_, ha', hback.congr ?_⟩
  · exact fun c hc => hsame c (by grind) (by grind)
  · exact fun c hc => hsame c (by grind) (by grind)

end Chain
