import TreeIntegrity.Shape

/-!
`BnodeBuilder::cloneSubtree`, the deep copy repair puts into a shared slot. It is not under
`src/`; the spec (§4.4, §6) describes it as a deep clone of the subtree, and the model follows
that: every node of the subtree's unfolding gets a new node, children before their parent as in
a recursive copy, and every instruction a new handle.

* `Copies g g' ns ns'`: `g'` extends `g` by new nodes only, and `ns'` are copies of `ns` of the
  same shape, each new node referenced from at most one slot and the copies from none. This is
  what the repair invariant needs of a clone.
* `FreshInsts g g'`: the instruction handles of the new nodes are new and distinct.
* `Copies.trans` and `Copies.alloc`: the two steps of the recursive copy keep it.
* `cloneSubtree_copies`: **on a finite acyclic graph `cloneSubtree` is a fresh copy** of the
  subtree (the fuel `size` suffices by `depthLt_size`).
-/

namespace TreeIntegrity

/-- Copy a list of subtrees one after the other, with `clone` copying one subtree. -/
def cloneKids (clone : Graph → ℕ → Graph × ℕ) : Graph → List ℕ → Graph × List ℕ
  | g, [] => (g, [])
  | g, c :: cs =>
    let r := clone g c
    let rs := cloneKids clone r.1 cs
    (rs.1, r.2 :: rs.2)

/-- The copy of a node with other children and other instruction handles: the copy constructor
of the node followed by installing the copied children and instructions. -/
def Bnode.copyWith (b : Bnode) (kids insts : List ℕ) : Bnode :=
  { b with children := kids, instructions := insts }

@[simp] lemma Bnode.children_copyWith (b : Bnode) (kids insts : List ℕ) :
    (b.copyWith kids insts).children = kids := rfl

lemma Bnode.label_copyWith (b : Bnode) (kids insts : List ℕ)
    (h : insts.length = b.instructions.length) : (b.copyWith kids insts).label = b.label := by
  simp [copyWith, label, h]

/-- The recursive copy of the subtree at `n`, with a depth fuel: the children are copied first,
then `n` itself with the copies as children and new instruction handles. -/
def cloneSub : ℕ → Graph → ℕ → Graph × ℕ
  | 0, g, n => (g, n)
  | k + 1, g, n =>
    let b := g.node n
    let r := cloneKids (cloneSub k) g b.children
    let insts := List.range' r.1.instCount b.instructions.length
    (Graph.alloc { r.1 with instCount := r.1.instCount + b.instructions.length }
      (b.copyWith r.2 insts), r.1.size)

/-- Modelled from the spec: `BnodeBuilder::cloneSubtree(expr)`, a deep clone of the subtree of
`expr`, with the arena size as the depth fuel. -/
def cloneSubtree (g : Graph) (n : ℕ) : Graph × ℕ := cloneSub g.size g n

/-- The nodes of `g'` past those of `g` hold instruction handles handed out after the handles of
`g`, each at one index of one node. -/
structure FreshInsts (g g' : Graph) : Prop where
  count_le : g.instCount ≤ g'.instCount
  range : ∀ m, g.size ≤ m → m < g'.size → ∀ k ∈ (g'.node m).instructions,
    g.instCount ≤ k ∧ k < g'.instCount
  unique : ∀ m m' j j' k, g.size ≤ m → m < g'.size → g.size ≤ m' → m' < g'.size →
    g'.instAt m j = some k → g'.instAt m' j' = some k → m = m' ∧ j = j'

namespace FreshInsts

variable {g g₁ g₂ : Graph}

lemma refl (g : Graph) : FreshInsts g g :=
  ⟨le_rfl, fun _ h h' => absurd h' (by omega), fun _ _ _ _ _ h h' => absurd h' (by omega)⟩

/-- Changing only the children of nodes keeps the fresh handles. -/
lemma of_insts (h : FreshInsts g g₁) (hs : g₂.size = g₁.size)
    (hc : g₂.instCount = g₁.instCount)
    (hi : ∀ m, (g₂.node m).instructions = (g₁.node m).instructions) : FreshInsts g g₂ where
  count_le := hc ▸ h.count_le
  range m hm hm' k hk := hc ▸ h.range m hm (hs ▸ hm') k (hi m ▸ hk)
  unique m m' j j' k hm hm₂ hm' hm'₂ hj hj' :=
    h.unique m m' j j' k hm (hs ▸ hm₂) hm' (hs ▸ hm'₂) (by simpa [Graph.instAt, hi] using hj)
      (by simpa [Graph.instAt, hi] using hj')

/-- Two extensions compose: the handles of the second are past those of the first. -/
lemma trans (h₁ : FreshInsts g g₁) (h₂ : FreshInsts g₁ g₂)
    (hold : ∀ m < g₁.size, g₂.node m = g₁.node m) : FreshInsts g g₂ where
  count_le := h₁.count_le.trans h₂.count_le
  range m hm hm₂ k hk := by
    by_cases hm₁ : m < g₁.size
    · have := h₁.range m hm hm₁ k (hold m hm₁ ▸ hk); have := h₂.count_le; omega
    · have := h₂.range m (by omega) hm₂ k hk; have := h₁.count_le; omega
  unique m m' j j' k hm hm₂ hm' hm'₂ hj hj' := by
    have hat : ∀ x < g₁.size, g₂.instAt x = g₁.instAt x := fun x hx => by
      funext j; simp [Graph.instAt, hold x hx]
    -- an old handle is below `g₁.instCount`, a new one is not
    have hlt : ∀ x j, g.size ≤ x → x < g₁.size → g₂.instAt x j = some k → k < g₁.instCount :=
      fun x j hx hx₁ h => (h₁.range x hx hx₁ k (List.getElem?_mem (hat x hx₁ ▸ h))).2
    have hge : ∀ x j, ¬ x < g₁.size → x < g₂.size → g₂.instAt x j = some k → g₁.instCount ≤ k :=
      fun x j hx hx₂ h => (h₂.range x (by omega) hx₂ k (List.getElem?_mem h)).1
    by_cases hm₁ : m < g₁.size <;> by_cases hm'₁ : m' < g₁.size
    · exact h₁.unique m m' j j' k hm hm₁ hm' hm'₁ (hat m hm₁ ▸ hj) (hat m' hm'₁ ▸ hj')
    · have := hlt m j hm hm₁ hj; have := hge m' j' hm'₁ hm'₂ hj'; omega
    · have := hge m j hm₁ hm₂ hj; have := hlt m' j' hm' hm'₁ hj'; omega
    · exact h₂.unique m m' j j' k (by omega) hm₂ (by omega) hm'₂ hj hj'

/-- A new node with new, distinct handles. -/
lemma alloc (g : Graph) {k : ℕ} {b : Bnode} (hle : g.instCount ≤ k)
    (hins : ∀ x ∈ b.instructions, g.instCount ≤ x ∧ x < k) (hnd : b.instructions.Nodup) :
    FreshInsts g (Graph.alloc { g with instCount := k } b) where
  count_le := by simpa using hle
  range m hm hm' x hx := by
    obtain rfl : m = g.size := by simp at hm'; omega
    simpa using hins x (by simpa using hx)
  unique m m' j j' x hm hm₂ hm' hm'₂ hj hj' := by
    obtain rfl : m = g.size := by simp at hm₂; omega
    obtain rfl : m' = g.size := by simp at hm'₂; omega
    simp only [Graph.instAt, Graph.node_alloc, if_true] at hj hj'
    exact ⟨rfl, List.getElem?_inj (List.getElem?_eq_some_iff.mp hj).1 hnd (hj.trans hj'.symm)⟩

end FreshInsts

/-- `g'` extends `g` with new nodes `ns'` that copy the old nodes `ns`: same shape, every new
node referenced from at most one slot and only from new nodes, the copies from no slot. -/
structure Copies (g g' : Graph) (ns ns' : List ℕ) : Prop where
  size_le : g.size ≤ g'.size
  node_old : ∀ m < g.size, g'.node m = g.node m
  shape : List.Forall₂ (fun n n' => SameShape g' n' g n) ns ns'
  fresh : ∀ n' ∈ ns', g.size ≤ n' ∧ n' < g'.size
  nodup : ns'.Nodup
  free : ∀ n' ∈ ns', ∀ p i, g'.childAt p i ≠ some n'
  kids_new : ∀ m c, g.size ≤ m → g'.Child m c → g.size ≤ c ∧ c < m
  unique : ∀ m, g.size ≤ m → ∀ p i q j, g'.childAt p i = some m → g'.childAt q j = some m →
    p = q ∧ i = j
  wf : g'.WF
  checks : g'.integrityChecks = g.integrityChecks
  insts : FreshInsts g g'

variable {g g₁ g₂ : Graph}

/-- A graph that keeps the nodes of a finite graph keeps their depth bounds. -/
lemma Graph.DepthLt.of_extends (hwf : g.WF) (hext : ∀ m < g.size, g₁.node m = g.node m) :
    ∀ {d n}, n < g.size → g.DepthLt d n → g₁.DepthLt d n
  | 0, _, _, h => h
  | d + 1, n, hn, h => fun c hc => by
    rw [hext n hn] at hc
    exact of_extends hwf hext (hwf.child_lt n c hc).2 (h c hc)

namespace Copies

lemma nil (hwf : g.WF) : Copies g g [] [] :=
  ⟨le_rfl, fun _ _ => rfl, .nil, by simp, .nil, by simp,
    fun m c hm h => by have := (hwf.child_lt m c h).1; omega, fun m hm p _ _ _ h => by
      have := (hwf.child_lt p m (Graph.reach_of_childAt h)).2; omega, hwf, rfl, .refl g⟩

/-- A new node of a later step is never referenced by a node of an earlier step. -/
lemma childAt_old (h₂ : Copies g₁ g₂ ms ms₂) {p : ℕ}
    {i : ℕ} {m : ℕ} (hm : m < g₁.size) (hp : g₂.childAt p i = some m) :
    p < g₁.size ∧ g₁.childAt p i = some m := by
  by_cases hp1 : p < g₁.size
  · exact ⟨hp1, by simpa [Graph.childAt, h₂.node_old p hp1] using hp⟩
  · have := h₂.kids_new p m (by omega) (Graph.reach_of_childAt hp)
    omega

/-- Two copying steps compose. -/
theorem trans (hwf : g.WF) (h₁ : Copies g g₁ ns ns₁) (h₂ : Copies g₁ g₂ ms ms₂)
    (hms : ∀ m ∈ ms, m < g.size) : Copies g g₂ (ns ++ ms) (ns₁ ++ ms₂) where
  size_le := h₁.size_le.trans h₂.size_le
  node_old m hm := (h₂.node_old m (by have := h₁.size_le; omega)).trans (h₁.node_old m hm)
  shape := by
    refine List.rel_append
      (((List.forall₂_and_left _ _).mpr ⟨fun n' h => h, h₁.shape.flip⟩).flip.imp
      fun n n' ⟨hn', hs⟩ => ?_) (((List.forall₂_and_left _ _).mpr ⟨hms, h₂.shape⟩).imp
      fun m m' ⟨hm, hs⟩ => ?_)
    · exact (sameShape_of_extends h₁.wf h₂.node_old (h₁.fresh n' hn').2).trans hs
    · exact hs.trans (sameShape_of_extends hwf h₁.node_old hm)
  fresh n' hn' := by
    rcases List.mem_append.mp hn' with h | h
    · exact ⟨(h₁.fresh n' h).1, (h₁.fresh n' h).2.trans_le h₂.size_le⟩
    · exact ⟨h₁.size_le.trans (h₂.fresh n' h).1, (h₂.fresh n' h).2⟩
  nodup := List.nodup_append.mpr ⟨h₁.nodup, h₂.nodup, fun a ha hb => by
    have := (h₁.fresh a ha).2; have := (h₂.fresh a hb).1; omega⟩
  free n' hn' p i hp := by
    rcases List.mem_append.mp hn' with h | h
    · exact h₁.free n' h p i (childAt_old h₂ (h₁.fresh n' h).2 hp).2
    · exact h₂.free n' h p i hp
  kids_new m c hm hc := by
    by_cases hm1 : m < g₁.size
    · exact h₁.kids_new m c hm (by simpa [Graph.Child, h₂.node_old m hm1] using hc)
    · have := h₂.kids_new m c (by omega) hc
      exact ⟨by have := h₁.size_le; omega, this.2⟩
  unique m hm p i q j hp hq := by
    by_cases hm1 : m < g₁.size
    · exact h₁.unique m hm p i q j (childAt_old h₂ hm1 hp).2 (childAt_old h₂ hm1 hq).2
    · exact h₂.unique m (by omega) p i q j hp hq
  wf := h₂.wf
  checks := h₂.checks.trans h₁.checks
  insts := h₁.insts.trans h₂.insts h₂.node_old

/-- The last step of the copy: a new node with the old node's label and the copies of its
children as children. -/
theorem alloc {n : ℕ} (h : Copies g g₁ (g.node n).children ns')
    (k : ℕ) (insts : List ℕ) (hk : insts.length = (g.node n).instructions.length)
    (hle : g₁.instCount ≤ k) (hins : ∀ x ∈ insts, g₁.instCount ≤ x ∧ x < k)
    (hnd : insts.Nodup) :
    Copies g (Graph.alloc { g₁ with instCount := k } ((g.node n).copyWith ns' insts)) [n]
      [g₁.size] := by
  set b := (g.node n).copyWith ns' insts
  set g' := Graph.alloc { g₁ with instCount := k } b
  have hnode : ∀ m, m ≠ g₁.size → g'.node m = g₁.node m := fun m hm => by simp [g', hm]
  have hnew : g'.node g₁.size = b := by simp [g']
  have hlift : ∀ m < g₁.size, SameShape g' m g₁ m :=
    fun m hm => sameShape_of_extends h.wf (fun m hm => hnode m (by omega)) hm
  have hns : ∀ r ∈ ns', g.size ≤ r ∧ r < g₁.size := h.fresh
  -- a slot holding a node below `g₁.size` belongs to an old node, or to the new node
  have hslot : ∀ p i m, g'.childAt p i = some m →
      (p = g₁.size ∧ ns'[i]? = some m) ∨ (p ≠ g₁.size ∧ g₁.childAt p i = some m) := by
    intro p i m hp
    by_cases hp' : p = g₁.size
    · subst hp'; exact .inl ⟨rfl, by simpa [Graph.childAt, hnew, b] using hp⟩
    · exact .inr ⟨hp', by simpa [Graph.childAt, hnode p hp'] using hp⟩
  refine ⟨by simp [g']; have := h.size_le; omega, fun m hm => ?_, ?_, ?_, by simp, ?_, ?_, ?_,
    ?_, by simp [g', h.checks],
    h.insts.trans (FreshInsts.alloc g₁ hle hins hnd) fun m hm => hnode m (by omega)⟩
  · -- node_old
    rw [hnode m (by have := h.size_le; omega), h.node_old m hm]
  · -- shape: the label is copied and the children are the copies
    refine .cons (sameShape_iff.mpr ⟨?_, ?_⟩) .nil
    · rw [hnew, Bnode.label_copyWith _ _ _ hk]
    · rw [hnew]
      exact ((List.forall₂_and_left _ _).mpr ⟨hns, h.shape.flip⟩).imp
        fun r c ⟨hr, hs⟩ => (hlift r hr.2).trans hs
  · -- fresh
    simp only [List.mem_singleton, forall_eq]; simp [g']; exact h.size_le
  · -- free: no slot holds the new node yet
    simp only [List.mem_singleton, forall_eq]
    intro p i hp
    rcases hslot p i _ hp with ⟨-, hr⟩ | ⟨-, hr⟩
    · have := hns _ (List.getElem?_mem hr); omega
    · have := h.wf.child_lt p _ (Graph.reach_of_childAt hr); omega
  · -- kids_new
    intro m c hm hc
    by_cases hm' : m = g₁.size
    · subst hm'
      rw [Graph.Child, hnew] at hc
      exact hns c hc
    · exact h.kids_new m c hm (by simpa [Graph.Child, hnode m hm'] using hc)
  · -- unique: a copy of a child sits only at its slot of the new node
    intro m hm p i q j hp hq
    by_cases hmr : m ∈ ns'
    · have hfree := h.free m hmr
      rcases hslot p i m hp with ⟨rfl, hi⟩ | ⟨-, hi⟩ <;> [skip; exact absurd hi (hfree p i)]
      rcases hslot q j m hq with ⟨rfl, hj⟩ | ⟨-, hj⟩ <;> [skip; exact absurd hj (hfree q j)]
      exact ⟨rfl, List.getElem?_inj (List.getElem?_eq_some_iff.mp hi).1 h.nodup
        (hi.trans hj.symm)⟩
    · rcases hslot p i m hp with ⟨-, hp⟩ | ⟨-, hp⟩
      · exact absurd (List.getElem?_mem hp) hmr
      rcases hslot q j m hq with ⟨-, hq⟩ | ⟨-, hq⟩
      · exact absurd (List.getElem?_mem hq) hmr
      exact h.unique m hm p i q j hp hq
  · -- wf
    exact Graph.WF.alloc (g := { g₁ with instCount := k }) ⟨h.wf.child_lt⟩ fun c hc => (hns c hc).2

end Copies

/-- The copies of a list of children compose from the copies of each child. -/
private lemma cloneKids_copies {k : ℕ}
    (ih : ∀ g : Graph, g.WF → ∀ n, g.DepthLt k n →
      Copies g (cloneSub k g n).1 [n] [(cloneSub k g n).2]) :
    ∀ (cs : List ℕ) (g : Graph), g.WF → (∀ c ∈ cs, c < g.size ∧ g.DepthLt k c) →
      Copies g (cloneKids (cloneSub k) g cs).1 cs (cloneKids (cloneSub k) g cs).2
  | [], g, hwf, _ => Copies.nil hwf
  | c :: cs, g, hwf, hcs => by
    have h₁ := ih g hwf c (hcs c (by simp)).2
    have h₂ := cloneKids_copies ih cs _ h₁.wf fun c' hc' =>
      have hc := hcs c' (List.mem_cons_of_mem _ hc')
      ⟨hc.1.trans_le h₁.size_le, Graph.DepthLt.of_extends hwf h₁.node_old hc.1 hc.2⟩
    exact h₁.trans hwf h₂ fun m hm => (hcs m (List.mem_cons_of_mem _ hm)).1

/-- The recursive copy is a copy once the fuel exceeds the depth. -/
lemma cloneSub_copies : ∀ (k : ℕ) (g : Graph), g.WF → ∀ n, g.DepthLt k n →
    Copies g (cloneSub k g n).1 [n] [(cloneSub k g n).2]
  | 0, _, _, _, h => h.elim
  | k + 1, g, hwf, n, h =>
    Copies.alloc (cloneKids_copies (cloneSub_copies k) _ g hwf fun c hc =>
      ⟨(hwf.child_lt n c hc).2, h c hc⟩) _ _ (List.length_range' _ _ _) (Nat.le_add_right _ _)
      (fun _ hx => List.mem_range'_1.mp hx) (List.nodup_range' _ _)

/-- **`cloneSubtree` is a fresh copy**: on a finite acyclic graph, the copy of an allocated
node has its shape, and it and every node below it are new, referenced from at most one slot. -/
theorem cloneSubtree_copies (hwf : g.WF) (hac : g.Acyclic) {n : ℕ} (hn : n < g.size) :
    Copies g (cloneSubtree g n).1 [n] [(cloneSubtree g n).2] :=
  cloneSub_copies _ g hwf n (g.depthLt_size hwf hac hn)

end TreeIntegrity
