import TreeIntegrity.Graph

/-!
The structural unfolding of a node: its label (kind, flavor, operator, module-scope verdict and
number of instructions) and, recursively, the unfoldings of its children, cut at a depth. Two
nodes have the same shape (`SameShape`) when their unfoldings agree at every depth; this is the
"value-equal copy" of the spec's invariant 4, and it is what repair has to preserve.

* `sameShape_iff`: same shape is the same label and children of pairwise the same shape.
* `sameShape_replaceChild`: putting a node of the same shape into a slot changes the shape of
  no node, even of nodes below the slot (the induction is on the depth, not on the graph).
* `unfold_of_extends`: allocating new nodes changes the shape of no old node.
-/

namespace TreeIntegrity

/-- What `cloneSubtree` copies of a node besides its children. -/
structure Label where
  isStmt : Bool
  flavor : NodeFlavor
  op : Operator
  moduleScopeValue : Bool
  numInstructions : ℕ
  deriving DecidableEq, Repr

/-- The label of a node. -/
def Bnode.label (b : Bnode) : Label :=
  ⟨b.isStmt, b.flavor, b.op, b.moduleScopeValue, b.instructions.length⟩

/-- A structural unfolding, cut at some depth. -/
inductive Shape where
  | cut
  | node (l : Label) (kids : List Shape)

namespace Graph

/-- The unfolding of `n` to depth `k`. -/
def unfold (g : Graph) : ℕ → ℕ → Shape
  | 0, _ => .cut
  | k + 1, n => .node (g.node n).label ((g.node n).children.map (g.unfold k))

lemma unfold_congr {g g' : Graph} (hn : g'.node = g.node) (k m : ℕ) :
    g'.unfold k m = g.unfold k m := by
  induction k generalizing m with
  | zero => rfl
  | succ k ih => simp only [unfold, hn, funext ih]

end Graph

/-- `n` in `g` and `n'` in `g'` unfold alike at every depth. -/
def SameShape (g : Graph) (n : ℕ) (g' : Graph) (n' : ℕ) : Prop :=
  ∀ k, g.unfold k n = g'.unfold k n'

variable {g g' g'' : Graph} {n n' n'' : ℕ}

namespace SameShape

lemma refl (g : Graph) (n : ℕ) : SameShape g n g n := fun _ => rfl

lemma symm (h : SameShape g n g' n') : SameShape g' n' g n := fun k => (h k).symm

lemma trans (h : SameShape g n g' n') (h' : SameShape g' n' g'' n'') : SameShape g n g'' n'' :=
  fun k => (h k).trans (h' k)

end SameShape

private lemma forall₂_of_map_eq {l l' : List ℕ}
    (h : ∀ k, l.map (g.unfold k) = l'.map (g'.unfold k)) :
    List.Forall₂ (fun c c' => SameShape g c g' c') l l' := by
  induction l generalizing l' with
  | nil => cases l' with
    | nil => exact .nil
    | cons _ _ => simpa using h 0
  | cons c l ih => cases l' with
    | nil => simpa using h 0
    | cons c' l' =>
      simp only [List.map_cons, List.cons.injEq] at h
      exact .cons (fun k => (h k).1) (ih fun k => (h k).2)

private lemma map_eq_of_forall₂ {l l' : List ℕ} (k : ℕ)
    (h : List.Forall₂ (fun c c' => SameShape g c g' c') l l') :
    l.map (g.unfold k) = l'.map (g'.unfold k) := by
  induction h with
  | nil => rfl
  | cons hc _ ih => simp [hc k, ih]

/-- **Same shape, one level at a time**: the same label, and children of pairwise the same
shape. -/
theorem sameShape_iff :
    SameShape g n g' n' ↔ (g.node n).label = (g'.node n').label ∧
      List.Forall₂ (fun c c' => SameShape g c g' c') (g.node n).children (g'.node n').children := by
  refine ⟨fun h => ⟨?_, forall₂_of_map_eq fun k => ?_⟩, fun ⟨hl, hc⟩ k => ?_⟩
  · have := h 1
    simp only [Graph.unfold, Shape.node.injEq] at this
    exact this.1
  · have := h (k + 1)
    simp only [Graph.unfold, Shape.node.injEq] at this
    exact this.2
  · cases k with
    | zero => rfl
    | succ k => simp only [Graph.unfold, hl, map_eq_of_forall₂ k hc]

lemma SameShape.label_eq (h : SameShape g n g' n') : (g.node n).label = (g'.node n').label :=
  (sameShape_iff.mp h).1

lemma SameShape.isStmt_eq (h : SameShape g n g' n') : (g.node n).isStmt = (g'.node n').isStmt :=
  congrArg Label.isStmt h.label_eq

lemma SameShape.flavor_eq (h : SameShape g n g' n') : (g.node n).flavor = (g'.node n').flavor :=
  congrArg Label.flavor h.label_eq

/-- Corresponding children of two nodes of the same shape have the same shape. -/
lemma SameShape.childAt (h : SameShape g n g' n') {i : ℕ} {c : ℕ}
    (hc : g.childAt n i = some c) : ∃ c', g'.childAt n' i = some c' ∧ SameShape g c g' c' := by
  obtain ⟨-, h2⟩ := sameShape_iff.mp h
  obtain ⟨hi, rfl⟩ := List.getElem?_eq_some_iff.mp hc
  have hlen := h2.length_eq
  exact ⟨_, List.getElem?_eq_getElem (hlen ▸ hi),
    List.forall₂_iff_get.mp h2 |>.2 i hi (hlen ▸ hi)⟩

/-- The nodes reachable from two nodes of the same shape correspond. -/
lemma SameShape.reach (hs : SameShape g' n' g n) {m' : ℕ} (h : g'.Reach n' m') :
    ∃ m, g.Reach n m ∧ SameShape g' m' g m := by
  induction h with
  | refl => exact ⟨n, .refl, hs⟩
  | tail _ hc ih =>
    obtain ⟨m, hm, hms⟩ := ih
    obtain ⟨i, hi⟩ := Graph.child_iff_childAt.mp hc
    obtain ⟨c, hc', hcs⟩ := hms.childAt hi
    exact ⟨c, hm.tail (Graph.reach_of_childAt hc'), hcs⟩

/-- **Replacing a child by a node of the same shape** changes no node's unfolding. -/
theorem unfold_replaceChild {p : ℕ} {i : ℕ} {c c' : ℕ} (hc : g.childAt p i = some c)
    (hs : SameShape g c' g c) (k : ℕ) (m : ℕ) :
    (g.replaceChild p i c').unfold k m = g.unfold k m := by
  induction k generalizing m with
  | zero => rfl
  | succ k ih =>
    by_cases hm : m = p
    · subst hm
      obtain ⟨hi, rfl⟩ := List.getElem?_eq_some_iff.mp hc
      simp only [Graph.unfold, Graph.node_replaceChild, if_true, Shape.node.injEq]
      refine ⟨rfl, List.ext_getElem (by simp) fun j h1 h2 => ?_⟩
      simp only [List.getElem_map, List.getElem_set]
      split_ifs with hj
      · subst hj; rw [ih, hs k]
      · exact ih _
    · simp only [Graph.unfold, Graph.node_replaceChild, hm, if_false, Shape.node.injEq,
        List.map_inj_left, true_and]
      exact fun c _ => ih c

lemma sameShape_replaceChild {p : ℕ} {i : ℕ} {c c' : ℕ} (hc : g.childAt p i = some c)
    (hs : SameShape g c' g c) (m : ℕ) : SameShape (g.replaceChild p i c') m g m :=
  fun k => unfold_replaceChild hc hs k m

/-- **Allocation changes no old node's unfolding**: `g'` keeps every node of the finite graph
`g`. -/
theorem unfold_of_extends (hwf : g.WF) (hext : ∀ m < g.size, g'.node m = g.node m) (k : ℕ) :
    ∀ m < g.size, g'.unfold k m = g.unfold k m := by
  induction k with
  | zero => intro _ _; rfl
  | succ k ih =>
    intro m hm
    simp only [Graph.unfold, hext m hm, Shape.node.injEq, List.map_inj_left, true_and]
    exact fun c hc => ih c (hwf.child_lt m c hc).2

lemma sameShape_of_extends (hwf : g.WF) (hext : ∀ m < g.size, g'.node m = g.node m) {m : ℕ}
    (hm : m < g.size) : SameShape g' m g m :=
  fun k => unfold_of_extends hwf hext k m hm

end TreeIntegrity
