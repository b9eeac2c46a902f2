import Mathlib.Logic.Function.Basic
import Mathlib.Logic.Relation
import Mathlib.Data.Finset.Card

/-!
The node graph the integrity checker walks. The node classes (`go-llvm-bnode.h`,
`go-llvm-bexpression.h`) are not under `src/`; what the checker reads of them is modelled from
the spec (§3, §6): a node has an identity, a kind (expression or statement), a flavor, an
operator, the backend's `moduleScopeValue` verdict on its value, an ordered list of children and,
for an expression, an ordered list of instruction handles.

* `Graph`: the node builder's arena, nodes addressed by `ℕ` (the `Bnode *` pointer), the
  first `size` of them allocated; `replaceChild` and `alloc` are the two mutations repair uses.
* `Graph.WF`: every edge joins two allocated nodes (the graph is finite).
* `Graph.Acyclic` and `Graph.DepthLt`: no node reaches itself, and then every path from a node
  has fewer than `size` nodes (`depthLt_size`), which bounds the recursion of `visit` and of
  `cloneSubtree`. The bound goes through a rank function (`exists_rank`): the number of strict
  descendants, which strictly drops along an edge.
-/

namespace TreeIntegrity

/-- A `(parent, slot)` location, the `parslot` of the source. Node identities (the `Bnode *`
pointers) and instruction identities (the `llvm::Instruction *` pointers) are natural numbers. -/
abbrev ParSlot := ℕ × ℕ

/-- The node flavors the checker compares against; every other flavor of `NodeFlavor`
(calls, compounds, statement flavors, ...) is `other`, since the checker never tells them
apart. -/
inductive NodeFlavor where
  | error | const | var | conversion | deref | structField | binaryOp | other
  deriving DecidableEq, Repr

/-- The operators of a binary operation; `repairableSubTree` only tells `plus` and `minus`
from the rest. -/
inductive Operator where
  | plus | minus | mult | other
  deriving DecidableEq, Repr

/-- A node as the checker sees it. `moduleScopeValue` is the backend's verdict
`be_->moduleScopeValue(expr->value(), expr->btype())`, read only for expressions, and
`instructions` is read only for expressions (`castToBexpression`). -/
structure Bnode where
  isStmt : Bool
  flavor : NodeFlavor
  op : Operator
  moduleScopeValue : Bool
  children : List ℕ
  instructions : List ℕ
  deriving DecidableEq, Repr

/-- The node builder: the nodes allocated so far, the next unused instruction handle, and the
`integrityChecksEnabled` switch that `ScopedIntegrityCheckDisabler` turns off during repair. -/
structure Graph where
  node : ℕ → Bnode
  size : ℕ
  instCount : ℕ
  integrityChecks : Bool

namespace Graph

variable (g : Graph)

/-- The child at `slot` of `parent`: `parent->children()[slot]`, `none` out of range. -/
def childAt (parent : ℕ) (slot : ℕ) : Option ℕ := (g.node parent).children[slot]?

/-- The instruction at index `j` of expression `e`. -/
def instAt (e : ℕ) (j : ℕ) : Option ℕ := (g.node e).instructions[j]?

/-- `c` is a child of `p`. -/
def Child (p c : ℕ) : Prop := c ∈ (g.node p).children

/-- `c` is reachable from `p` through children (`p` itself included). -/
def Reach : ℕ → ℕ → Prop := Relation.ReflTransGen g.Child

/-- No node reaches itself through one or more edges. -/
def Acyclic : Prop := ∀ n, ¬ Relation.TransGen g.Child n n

/-- The graph is finite: every edge joins two of its `size` allocated nodes. -/
structure WF : Prop where
  child_lt : ∀ p c, g.Child p c → p < g.size ∧ c < g.size

/-- Every instruction handle of an allocated node was handed out: it is below `instCount`, so
the handles `cloneSubtree` hands out are new. -/
def InstAllocated : Prop := ∀ m < g.size, ∀ k ∈ (g.node m).instructions, k < g.instCount

instance : Decidable g.InstAllocated :=
  inferInstanceAs (Decidable (∀ m < g.size, ∀ k ∈ (g.node m).instructions, k < g.instCount))

/-- Every path from `n` has fewer than `d` nodes: the fuel `visit` and `cloneSubtree` need. -/
def DepthLt : ℕ → ℕ → Prop
  | 0, _ => False
  | d + 1, n => ∀ c ∈ (g.node n).children, DepthLt d c

/-- Modelled from the spec: `parent->replaceChild(slot, c)` (`Bnode::replaceChild`, outside
`src/`) puts `c` into the slot of `parent` and changes nothing else. -/
def replaceChild (parent : ℕ) (slot : ℕ) (c : ℕ) : Graph :=
  let b := g.node parent
  { g with node := Function.update g.node parent { b with children := b.children.set slot c } }

/-- Modelled from the spec: the node builder's allocation of a new node (outside `src/`), which
gets the identity `size` and leaves every existing node as it was. -/
def alloc (b : Bnode) : Graph :=
  { g with node := Function.update g.node g.size b, size := g.size + 1 }

variable {g}

lemma child_iff_childAt {p c : ℕ} : g.Child p c ↔ ∃ i, g.childAt p i = some c := by
  simp only [Child, childAt, List.mem_iff_getElem?]

lemma reach_of_childAt {p c : ℕ} {i : ℕ} (h : g.childAt p i = some c) : g.Child p c :=
  child_iff_childAt.mpr ⟨i, h⟩

/-- Everything below an allocated node of a well-formed graph is allocated. -/
lemma lt_size_of_reach (hwf : g.WF) {r n : ℕ} (hr : r < g.size) (h : g.Reach r n) :
    n < g.size := by
  rcases Relation.ReflTransGen.cases_tail h with rfl | ⟨p, -, hp⟩
  exacts [hr, (hwf.child_lt p n hp).2]

@[simp] lemma node_replaceChild (p : ℕ) (i : ℕ) (c n : ℕ) :
    (g.replaceChild p i c).node n =
      if n = p then { g.node p with children := (g.node p).children.set i c } else g.node n := by
  simp [replaceChild, Function.update_apply]

@[simp] lemma size_replaceChild (p : ℕ) (i : ℕ) (c : ℕ) :
    (g.replaceChild p i c).size = g.size := rfl

@[simp] lemma instCount_replaceChild (p : ℕ) (i : ℕ) (c : ℕ) :
    (g.replaceChild p i c).instCount = g.instCount := rfl

@[simp] lemma integrityChecks_replaceChild (p : ℕ) (i : ℕ) (c : ℕ) :
    (g.replaceChild p i c).integrityChecks = g.integrityChecks := rfl

lemma childAt_replaceChild (p : ℕ) (i : ℕ) (c q : ℕ) (j : ℕ) :
    (g.replaceChild p i c).childAt q j =
      if q = p ∧ j = i ∧ i < (g.node p).children.length then some c else g.childAt q j := by
  by_cases hq : q = p
  · subst hq
    by_cases hj : j = i
    · subst hj
      by_cases hl : j < (g.node q).children.length
      · simp [childAt, hl]
      · simp [childAt, List.getElem?_set, hl, Nat.le_of_not_lt hl]
    · simp [childAt, List.getElem?_set, Ne.symm hj, hj]
  · simp [childAt, hq]

lemma childAt_replaceChild_self {p i c : ℕ} (hi : i < (g.node p).children.length) :
    (g.replaceChild p i c).childAt p i = some c := by
  simp [childAt_replaceChild, hi]

lemma childAt_replaceChild_of_ne {p i c q j : ℕ} (h : (q, j) ≠ (p, i)) :
    (g.replaceChild p i c).childAt q j = g.childAt q j := by
  rw [childAt_replaceChild, if_neg fun ⟨hq, hj, _⟩ => h (by rw [hq, hj])]

/-- A slot of the rewired graph holds the new child, or what it held before. -/
lemma childAt_replaceChild_eq_some {p i c q j m : ℕ}
    (h : (g.replaceChild p i c).childAt q j = some m) :
    (q = p ∧ j = i ∧ m = c) ∨ g.childAt q j = some m := by
  rw [childAt_replaceChild] at h
  by_cases e : q = p ∧ j = i ∧ i < (g.node p).children.length
  · rw [if_pos e, Option.some.injEq] at h
    exact .inl ⟨e.1, e.2.1, h.symm⟩
  · rw [if_neg e] at h
    exact .inr h

@[simp] lemma instructions_replaceChild (p i c n : ℕ) :
    ((g.replaceChild p i c).node n).instructions = (g.node n).instructions := by
  by_cases h : n = p <;> simp [h]

/-- Putting an allocated node into a slot of an allocated node keeps the graph well formed. -/
lemma WF.replaceChild (hwf : g.WF) {p i c : ℕ} (hp : p < g.size) (hc : c < g.size) :
    (g.replaceChild p i c).WF := by
  refine ⟨fun q d hd => ?_⟩
  simp only [Child, node_replaceChild] at hd
  split_ifs at hd with hq
  · subst hq
    rcases List.mem_or_eq_of_mem_set hd with hd | rfl
    · exact hwf.child_lt q d hd
    · exact ⟨hp, hc⟩
  · exact hwf.child_lt q d hd

@[simp] lemma node_alloc (b : Bnode) (n : ℕ) :
    (g.alloc b).node n = if n = g.size then b else g.node n := by
  simp [alloc, Function.update_apply]

@[simp] lemma size_alloc (b : Bnode) : (g.alloc b).size = g.size + 1 := rfl

@[simp] lemma instCount_alloc (b : Bnode) : (g.alloc b).instCount = g.instCount := rfl

/-- A new node whose children are allocated keeps the graph well formed. -/
lemma WF.alloc (hwf : g.WF) {b : Bnode} (hb : ∀ c ∈ b.children, c < g.size) :
    (g.alloc b).WF := by
  refine ⟨fun p c hc => ?_⟩
  simp only [Child, node_alloc] at hc
  simp only [size_alloc]
  split_ifs at hc with hp
  · have := hb c hc
    omega
  · have := hwf.child_lt p c hc
    omega

@[simp] lemma integrityChecks_alloc (b : Bnode) :
    (g.alloc b).integrityChecks = g.integrityChecks := rfl

/-! ### Acyclicity and the depth bound -/

lemma DepthLt.mono {d d' : ℕ} (hd : d ≤ d') {n : ℕ} (h : g.DepthLt d n) :
    g.DepthLt d' n := by
  induction d generalizing d' n with
  | zero => exact h.elim
  | succ d ih =>
    obtain ⟨d', rfl⟩ : ∃ e, d' = e + 1 := ⟨d' - 1, by omega⟩
    exact fun c hc => ih (by omega) (h c hc)

/-- A rank that drops along every edge rules out cycles. -/
lemma acyclic_of_rank (rank : ℕ → ℕ) (hr : ∀ p c, g.Child p c → rank c < rank p) :
    g.Acyclic := by
  have key : ∀ a b, Relation.TransGen g.Child a b → rank b < rank a := by
    intro a b h
    induction h with
    | single h => exact hr _ _ h
    | tail _ h ih => exact (hr _ _ h).trans ih
  exact fun n h => lt_irrefl _ (key n n h)

/-- A rank that drops along every edge bounds the depth. -/
lemma depthLt_of_rank (rank : ℕ → ℕ) (hr : ∀ p c, g.Child p c → rank c < rank p) :
    ∀ n, g.DepthLt (rank n + 1) n := by
  suffices ∀ k n, rank n = k → g.DepthLt (k + 1) n from fun n => this _ n rfl
  intro k
  induction k using Nat.strong_induction_on with
  | _ k ih =>
    intro n hn c hc
    have hlt := hr n c hc
    exact DepthLt.mono (by omega) (ih (rank c) (by omega) c rfl)

open Classical in
/-- **A finite acyclic graph is ranked** by the number of strict descendants: a child has
strictly fewer, and a node never counts itself, so every rank of an allocated node is below
`size`. -/
lemma exists_rank (hwf : g.WF) (hac : g.Acyclic) :
    ∃ rank : ℕ → ℕ, (∀ p c, g.Child p c → rank c < rank p) ∧
      ∀ n < g.size, rank n < g.size := by
  let desc : ℕ → Finset ℕ := fun n =>
    (Finset.range g.size).filter (fun m => Relation.TransGen g.Child n m)
  refine ⟨fun n => (desc n).card, fun p c hpc => Finset.card_lt_card ?_, fun n hn => ?_⟩
  · refine (Finset.ssubset_iff_of_subset fun m hm => ?_).mpr ⟨c, ?_, ?_⟩
    · simp only [desc, Finset.mem_filter] at hm ⊢
      exact ⟨hm.1, Relation.TransGen.head hpc hm.2⟩
    · simpa [desc] using ⟨(hwf.child_lt p c hpc).2, Relation.TransGen.single hpc⟩
    · simp [desc, hac c]
  · have hsub : desc n ⊆ (Finset.range g.size).erase n := fun m hm => by
      simp only [desc, Finset.mem_filter] at hm
      exact Finset.mem_erase.mpr ⟨fun h => hac n (h ▸ hm.2), hm.1⟩
    have := Finset.card_le_card hsub
    rw [Finset.card_erase_of_mem (Finset.mem_range.mpr hn), Finset.card_range] at this
    show (desc n).card < g.size
    omega

/-- **Depth bound**: in a finite acyclic graph every path from an allocated node has fewer
than `size` nodes, so fuel `size` suffices for `visit` and `cloneSubtree`. -/
theorem depthLt_size (hwf : g.WF) (hac : g.Acyclic) {n : ℕ} (hn : n < g.size) :
    g.DepthLt g.size n := by
  obtain ⟨rank, hr, hlt⟩ := exists_rank hwf hac
  exact DepthLt.mono (hlt n hn) (depthLt_of_rank rank hr n)

end Graph

/-! ### Graphs given by a list of nodes -/

/-- What an unallocated identity reads as: an expression with no children or instructions. -/
def Bnode.empty : Bnode := ⟨false, .other, .other, false, [], []⟩

/-- The graph whose nodes are `bs` in order, with fresh instruction handles from `instCount` and
the integrity checks on. -/
def Graph.ofList (bs : List Bnode) (instCount : ℕ) : Graph :=
  ⟨fun n => bs.getD n Bnode.empty, bs.length, instCount, true⟩

namespace Graph

variable {bs : List Bnode} {k : ℕ}

lemma ofList_forall {P : Bnode → Prop} (h : ∀ b ∈ bs, P b) (h0 : P Bnode.empty) (n : ℕ) :
    P ((ofList bs k).node n) := by
  show P (bs.getD n Bnode.empty)
  rw [List.getD_eq_getElem?_getD]
  cases hn : bs[n]? with
  | none => exact h0
  | some b => exact h b (List.getElem?_mem hn)

/-- A list whose children are listed nodes is a well-formed graph. -/
lemma ofList_wf (h : ∀ b ∈ bs, ∀ c ∈ b.children, c < bs.length) : (ofList bs k).WF :=
  ⟨fun p c hpc => by
    refine ⟨?_, ofList_forall (P := fun b => ∀ c ∈ b.children, c < bs.length) h
      (by simp [Bnode.empty]) p c hpc⟩
    by_contra hp
    simp [Child, ofList, List.getD_eq_getElem?_getD, List.getElem?_eq_none (not_lt.mp hp),
      Bnode.empty] at hpc⟩

/-- A list whose nodes come after their children is an acyclic graph. -/
lemma ofList_acyclic (h : ∀ i < bs.length, ∀ c ∈ (bs.getD i Bnode.empty).children, c < i) :
    (ofList bs k).Acyclic :=
  acyclic_of_rank id fun p c hpc => by
    by_cases hp : p < bs.length
    · exact h p hp c hpc
    · simp [Child, ofList, List.getD_eq_getElem?_getD, List.getElem?_eq_none (not_lt.mp hp),
        Bnode.empty] at hpc

end Graph

end TreeIntegrity
