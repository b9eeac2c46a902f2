import TreeIntegrity.Visitor

/-!
`IntegrityVisitor::visit`: for each child, in batch mode visit it first, then register its
edge `(node, idx)`; then register each instruction of an expression node at its index. In
batch mode the walk covers every path below the node, so every edge out of a reachable node is
registered, some of them many times; in incremental mode only the node's own edges are.

The registrations are `Reg`s, a child or an instruction at a location. An invariant of the
visitor indexed by the set of registrations made so far, kept by each single registration
(`EdgeInvariant`), is kept by a whole visit, which adds exactly the registrations out of the
nodes reachable from the visited one (`visit_batch`) or out of the node itself
(`visit_incremental`). The induction over the walk is done here once; each property of the
trackers is then a one-step argument (`Ledger.lean`). A relation between two visitors kept by
each registration is likewise kept by two visits (`SameChecks.visit`).
-/

namespace TreeIntegrity

/-- One registration: a child node, or an instruction, at a `(parent, slot)` location. -/
inductive Reg where
  | node (child : ℕ) (loc : ParSlot)
  | inst (inst : ℕ) (loc : ParSlot)
  deriving DecidableEq

/-- The location of a registration. -/
def Reg.loc : Reg → ParSlot
  | .node _ l => l
  | .inst _ l => l

namespace Graph

variable (g : Graph)

/-- The registration is an edge of the graph. -/
def Holds : Reg → Prop
  | .node c (p, i) => g.childAt p i = some c
  | .inst k (e, j) => (g.node e).isStmt = false ∧ g.instAt e j = some k

/-- The registrations out of the nodes reachable from `n`: what a batch visit of `n` makes. -/
def EdgesFrom (n : ℕ) : Set Reg := {r | g.Reach n r.loc.1 ∧ g.Holds r}

/-- The registrations out of `n` itself: what an incremental visit of `n` makes. -/
def OwnEdges (n : ℕ) : Set Reg := {r | r.loc.1 = n ∧ g.Holds r}

/-- The registrations of the children loop from index `idx`, with the subtrees of the children
in batch mode. -/
def kidsRegs (n : ℕ) (batch : Bool) : ℕ → List ℕ → Set Reg
  | _, [] => ∅
  | idx, c :: cs => ((if batch then g.EdgesFrom c else ∅) ∪ {.node c (n, idx)}) ∪
      kidsRegs n batch (idx + 1) cs

variable {g}

lemma mem_kidsRegs {n : ℕ} {b : Bool} {r : Reg} :
    ∀ {idx : ℕ} {kids : List ℕ}, r ∈ g.kidsRegs n b idx kids ↔
      ∃ j c, kids[j]? = some c ∧ ((b = true ∧ r ∈ g.EdgesFrom c) ∨ r = .node c (n, idx + j))
  | _, [] => by simp [kidsRegs]
  | idx, c :: cs => by
    rw [kidsRegs, Set.mem_union, mem_kidsRegs]
    constructor
    · rintro (h | ⟨j, c', hj, h⟩)
      · refine ⟨0, c, List.getElem?_cons_zero, ?_⟩
        rcases h with h | h
        · split_ifs at h with hb
          · exact .inl ⟨hb, h⟩
          · exact h.elim
        · exact .inr (by simpa using h)
      · exact ⟨j + 1, c', List.getElem?_cons_succ.trans hj,
          by rwa [show idx + (j + 1) = idx + 1 + j by omega]⟩
    · rintro ⟨j, c', hj, h⟩
      cases j with
      | zero =>
        simp only [List.getElem?_cons_zero, Option.some.injEq] at hj
        subst hj
        rcases h with ⟨hb, h⟩ | h
        · exact .inl (.inl (by rw [if_pos hb]; exact h))
        · exact .inl (.inr (by simpa using h))
      | succ j =>
        exact .inr ⟨j, c', List.getElem?_cons_succ.symm.trans hj,
          by rwa [show idx + 1 + j = idx + (j + 1) by omega]⟩

end Graph

/-- The registrations of the instruction loop of expression `e` from index `idx`. -/
def instRegs (e : ℕ) : ℕ → List ℕ → Set Reg
  | _, [] => ∅
  | idx, k :: ks => {.inst k (e, idx)} ∪ instRegs e (idx + 1) ks

lemma mem_instRegs {e : ℕ} {r : Reg} :
    ∀ {idx : ℕ} {ks : List ℕ}, r ∈ instRegs e idx ks ↔
      ∃ j k, ks[j]? = some k ∧ r = .inst k (e, idx + j)
  | _, [] => by simp [instRegs]
  | idx, k :: ks => by
    rw [instRegs, Set.mem_union, mem_instRegs, Set.mem_singleton_iff]
    constructor
    · rintro (rfl | ⟨j, k', hj, rfl⟩)
      · exact ⟨0, k, List.getElem?_cons_zero, rfl⟩
      · exact ⟨j + 1, k', List.getElem?_cons_succ.trans hj,
          by rw [show idx + (j + 1) = idx + 1 + j by omega]⟩
    · rintro ⟨j, k', hj, rfl⟩
      cases j with
      | zero =>
        simp only [List.getElem?_cons_zero, Option.some.injEq] at hj
        subst hj
        exact .inl rfl
      | succ j =>
        exact .inr ⟨j, k', List.getElem?_cons_succ.symm.trans hj,
          by rw [show idx + 1 + j = idx + (j + 1) by omega]⟩

namespace Graph

variable {g : Graph}

/-- The own registrations of a node: its children loop and, for an expression, its
instruction loop. -/
lemma ownEdges_eq (n : ℕ) : g.OwnEdges n = g.kidsRegs n false 0 (g.node n).children ∪
    (if (g.node n).isStmt then ∅ else instRegs n 0 (g.node n).instructions) := by
  ext r
  rcases r with ⟨c, p, i⟩ | ⟨k, e, j⟩
  · simp only [OwnEdges, Set.mem_setOf_eq, Reg.loc, Holds, childAt, Set.mem_union, mem_kidsRegs]
    constructor
    · rintro ⟨rfl, h⟩; exact .inl ⟨i, c, h, by simp⟩
    · rintro (⟨j, c', hj, h⟩ | h)
      · simp only [Bool.false_eq_true, false_and, false_or, Reg.node.injEq, Prod.mk.injEq,
          zero_add] at h
        obtain ⟨rfl, rfl, rfl⟩ := h; exact ⟨rfl, hj⟩
      · split_ifs at h
        · exact h.elim
        · obtain ⟨_, _, _, h⟩ := mem_instRegs.mp h; cases h
  · simp only [OwnEdges, Set.mem_setOf_eq, Reg.loc, Holds, instAt, Set.mem_union, mem_kidsRegs]
    constructor
    · rintro ⟨rfl, hs, h⟩
      exact .inr (by rw [if_neg (by simp [hs])]; exact mem_instRegs.mpr ⟨j, k, h, by simp⟩)
    · rintro (⟨_, _, _, h⟩ | h)
      · simp at h
      · split_ifs at h with hs
        · exact h.elim
        · obtain ⟨j', k', hj, h⟩ := mem_instRegs.mp h
          simp only [Reg.inst.injEq, Prod.mk.injEq, zero_add] at h
          obtain ⟨rfl, rfl, rfl⟩ := h
          exact ⟨rfl, by simpa using hs, hj⟩

/-- **The registrations below a node**: those out of the node itself and those below its
children. -/
lemma edgesFrom_eq (n : ℕ) : g.EdgesFrom n = g.kidsRegs n true 0 (g.node n).children ∪
    (if (g.node n).isStmt then ∅ else instRegs n 0 (g.node n).instructions) := by
  have hown := ownEdges_eq (g := g) n
  ext r
  have hk : r ∈ g.kidsRegs n true 0 (g.node n).children ↔
      r ∈ g.kidsRegs n false 0 (g.node n).children ∨
        ∃ c ∈ (g.node n).children, r ∈ g.EdgesFrom c := by
    simp only [mem_kidsRegs, List.mem_iff_getElem?]
    constructor
    · rintro ⟨j, c, hj, ⟨-, h⟩ | h⟩
      · exact .inr ⟨c, ⟨j, hj⟩, h⟩
      · exact .inl ⟨j, c, hj, .inr h⟩
    · rintro (⟨j, c, hj, ⟨h, -⟩ | h⟩ | ⟨c, ⟨j, hj⟩, h⟩)
      · cases h
      · exact ⟨j, c, hj, .inr h⟩
      · exact ⟨j, c, hj, .inl ⟨trivial, h⟩⟩
  have hr : r ∈ g.EdgesFrom n ↔
      r ∈ g.OwnEdges n ∨ ∃ c ∈ (g.node n).children, r ∈ g.EdgesFrom c := by
    simp only [EdgesFrom, OwnEdges, Set.mem_setOf_eq]
    constructor
    · rintro ⟨hreach, hh⟩
      rcases Relation.ReflTransGen.cases_head hreach with h | ⟨c, hc, hc'⟩
      · exact .inl ⟨h.symm, hh⟩
      · exact .inr ⟨c, hc, hc', hh⟩
    · rintro (⟨h, hh⟩ | ⟨c, hc, hc', hh⟩)
      · exact ⟨h ▸ .refl, hh⟩
      · exact ⟨.head hc hc', hh⟩
  rw [hr, hown, Set.mem_union, Set.mem_union, hk]
  exact or_right_comm

/-- A node's own registrations lie below it. -/
lemma ownEdges_subset (n : ℕ) : g.OwnEdges n ⊆ g.EdgesFrom n :=
  fun _ ⟨h, hh⟩ => ⟨h ▸ .refl, hh⟩

end Graph

/-! ### The walk -/

/-- The children loop of `visit`: in batch mode each child is visited first (`rec`), then its
edge `(node, idx)` is registered. -/
def visitKids (g : Graph) (rec : ℕ → IntegrityVisitor → Option IntegrityVisitor) (node : ℕ) :
    ℕ → List ℕ → IntegrityVisitor → Option IntegrityVisitor
  | _, [], v => some v
  | idx, child :: rest, v =>
    ((if v.visitMode = .batchMode then rec child v else some v).bind
      fun v => v.setParent g child node idx).bind (visitKids g rec node (idx + 1) rest)

/-- The instruction loop of `visit`. -/
def visitInsts (g : Graph) (expr : ℕ) : ℕ → List ℕ → IntegrityVisitor → IntegrityVisitor
  | _, [], v => v
  | idx, inst :: rest, v => visitInsts g expr (idx + 1) rest (v.setParentInst g inst expr idx)

/-- `visit(node)`, with the recursion depth as fuel (`none` when it runs out, which the batch
walk of a finite acyclic graph never does, by `depthLt_size`). -/
def visit (g : Graph) : ℕ → ℕ → IntegrityVisitor → Option IntegrityVisitor
  | 0, _, _ => none
  | fuel + 1, node, v =>
    (visitKids g (visit g fuel) node 0 (g.node node).children v).map fun v =>
      if (g.node node).isStmt then v else visitInsts g node 0 (g.node node).instructions v

/-! ### Invariants of the walk -/

/-- A property of the visitor and of the registrations made so far that each registration of
an edge of the graph keeps. -/
structure EdgeInvariant (g : Graph) (I : IntegrityVisitor → Set Reg → Prop) : Prop where
  setParent : ∀ {v v' : IntegrityVisitor} {S : Set Reg} {c p i : ℕ}, I v S →
    g.childAt p i = some c → v.setParent g c p i = some v' → I v' (insert (.node c (p, i)) S)
  setParentInst : ∀ {v : IntegrityVisitor} {S : Set Reg} {k e j : ℕ}, I v S →
    (g.node e).isStmt = false → g.instAt e j = some k →
      I (v.setParentInst g k e j) (insert (.inst k (e, j)) S)

variable {g : Graph} {I : IntegrityVisitor → Set Reg → Prop}

namespace EdgeInvariant

/-- Two such properties together are one. -/
lemma and {J : IntegrityVisitor → Set Reg → Prop} (hI : EdgeInvariant g I)
    (hJ : EdgeInvariant g J) : EdgeInvariant g fun v S => I v S ∧ J v S :=
  ⟨fun ⟨h, h'⟩ hc hs => ⟨hI.setParent h hc hs, hJ.setParent h' hc hs⟩,
    fun ⟨h, h'⟩ hs hk => ⟨hI.setParentInst h hs hk, hJ.setParentInst h' hs hk⟩⟩

/-- The configuration of the visitor is one more such property. -/
lemma withConfig (hI : EdgeInvariant g I) (m : VisitMode) (rd : RepairDisp) :
    EdgeInvariant g fun v S => I v S ∧ v.visitMode = m ∧ v.doRepairs = rd :=
  ⟨fun ⟨h, hm, hd⟩ hc hs => ⟨hI.setParent h hc hs,
      (IntegrityVisitor.setParent_config hs).1.trans hm,
      (IntegrityVisitor.setParent_config hs).2.1.trans hd⟩,
    fun ⟨h, hm, hd⟩ hs hk => ⟨hI.setParentInst h hs hk,
      (IntegrityVisitor.setParentInst_config _ _ _).1.trans hm,
      (IntegrityVisitor.setParentInst_config _ _ _).2.1.trans hd⟩⟩

end EdgeInvariant

/-- A property kept by each registration of an edge out of a node reachable from `r`: the
registrations a batch visit of `r` makes. -/
structure EdgeInvariantBelow (g : Graph) (r : ℕ) (I : IntegrityVisitor → Set Reg → Prop) :
    Prop where
  setParent : ∀ {v v' : IntegrityVisitor} {S : Set Reg} {c p i : ℕ}, I v S → g.Reach r p →
    g.childAt p i = some c → v.setParent g c p i = some v' → I v' (insert (.node c (p, i)) S)
  setParentInst : ∀ {v : IntegrityVisitor} {S : Set Reg} {k e j : ℕ}, I v S → g.Reach r e →
    (g.node e).isStmt = false → g.instAt e j = some k →
      I (v.setParentInst g k e j) (insert (.inst k (e, j)) S)

variable {r : ℕ}

/-- An edge invariant is kept below every node. -/
lemma EdgeInvariant.below (hI : EdgeInvariant g I) (r : ℕ) : EdgeInvariantBelow g r I :=
  ⟨fun h _ hc hs => hI.setParent h hc hs, fun h _ hs hk => hI.setParentInst h hs hk⟩

/-- Below `r`, the registrations made so far stay among the edges below `r`. -/
lemma EdgeInvariant.within (hI : EdgeInvariant g I) (r : ℕ) :
    EdgeInvariantBelow g r fun v S => I v S ∧ S ⊆ g.EdgesFrom r :=
  ⟨fun ⟨h, hS⟩ hp hc hs => ⟨hI.setParent h hc hs, Set.insert_subset ⟨hp, hc⟩ hS⟩,
    fun ⟨h, hS⟩ he hs hk => ⟨hI.setParentInst h hs hk, Set.insert_subset ⟨he, hs, hk⟩ hS⟩⟩

namespace EdgeInvariantBelow

lemma visitInsts (hI : EdgeInvariantBelow g r I) {e : ℕ} (he : g.Reach r e)
    (hs : (g.node e).isStmt = false) :
    ∀ (idx : ℕ) (ks : List ℕ) {v : IntegrityVisitor} {S : Set Reg},
      (∀ j k, ks[j]? = some k → g.instAt e (idx + j) = some k) → I v S →
        I (TreeIntegrity.visitInsts g e idx ks v) (S ∪ instRegs e idx ks)
  | _, [], _, S, _, h => by simpa [TreeIntegrity.visitInsts, instRegs] using h
  | idx, k :: ks, v, S, hks, h => by
    have h' := visitInsts hI he hs (idx + 1) ks
      (fun j k' hj => by
        rw [show idx + 1 + j = idx + (j + 1) by omega]
        exact hks (j + 1) k' (List.getElem?_cons_succ.trans hj))
      (hI.setParentInst h he hs (hks 0 k List.getElem?_cons_zero))
    rw [TreeIntegrity.visitInsts, instRegs]
    convert h' using 1
    ext r; simp [or_assoc]

lemma visitKids (hI : EdgeInvariantBelow g r I) {m : VisitMode}
    (hm : ∀ v S, I v S → v.visitMode = m) {rec : ℕ → IntegrityVisitor → Option IntegrityVisitor}
    {n : ℕ} (hn : g.Reach r n)
    (hrec : m = .batchMode → ∀ c ∈ (g.node n).children, ∀ v v' S, I v S → rec c v = some v' →
      I v' (S ∪ g.EdgesFrom c)) :
    ∀ (idx : ℕ) (kids : List ℕ) {v v' : IntegrityVisitor} {S : Set Reg},
      (∀ j c, kids[j]? = some c → g.childAt n (idx + j) = some c) → I v S →
        TreeIntegrity.visitKids g rec n idx kids v = some v' →
          I v' (S ∪ g.kidsRegs n (m = .batchMode) idx kids)
  | _, [], _, _, S, _, h, hv => by
    simp only [TreeIntegrity.visitKids, Option.some.injEq] at hv
    subst hv; simpa [Graph.kidsRegs] using h
  | idx, c :: cs, v, v', S, hks, h, hv => by
    have hc : g.childAt n idx = some c := hks 0 c List.getElem?_cons_zero
    simp only [TreeIntegrity.visitKids, Option.bind_eq_some] at hv
    obtain ⟨v₂, ⟨v₁, hv₁, hv₂⟩, hv'⟩ := hv
    have hI₁ : I v₁ (S ∪ (if m = .batchMode then g.EdgesFrom c else ∅)) := by
      by_cases hb : m = .batchMode
      · rw [if_pos (hm v S h ▸ hb)] at hv₁
        simpa [hb] using hrec hb c (List.mem_iff_getElem?.mpr ⟨idx, hc⟩) v v₁ S h hv₁
      · rw [if_neg (hm v S h ▸ hb), Option.some.injEq] at hv₁
        subst hv₁; simpa [hb] using h
    have h' := visitKids hI hm hn hrec (idx + 1) cs
      (fun j c' hj => by
        rw [show idx + 1 + j = idx + (j + 1) by omega]
        exact hks (j + 1) c' (List.getElem?_cons_succ.trans hj))
      (hI.setParent hI₁ hn hc hv₂) hv'
    rw [Graph.kidsRegs]
    convert h' using 1
    ext r; by_cases hb : m = .batchMode <;> simp [hb, or_assoc, or_left_comm]

/-- The children loop fails only where a registration or a recursive visit fails. -/
lemma visitKids_ne_none (hI : EdgeInvariantBelow g r I) {m : VisitMode}
    (hm : ∀ v S, I v S → v.visitMode = m) {rec : ℕ → IntegrityVisitor → Option IntegrityVisitor}
    {n : ℕ} (hn : g.Reach r n)
    (hrec : m = .batchMode → ∀ c ∈ (g.node n).children, ∀ v v' S, I v S → rec c v = some v' →
      I v' (S ∪ g.EdgesFrom c))
    (hrec' : m = .batchMode → ∀ c ∈ (g.node n).children, ∀ v S, I v S → rec c v ≠ none)
    (hdef : ∀ v S c i, I v S → g.childAt n i = some c → v.setParent g c n i ≠ none) :
    ∀ (idx : ℕ) (kids : List ℕ) {v : IntegrityVisitor} {S : Set Reg},
      (∀ j c, kids[j]? = some c → g.childAt n (idx + j) = some c) → I v S →
        TreeIntegrity.visitKids g rec n idx kids v ≠ none
  | _, [], _, _, _, _ => by simp [TreeIntegrity.visitKids]
  | idx, c :: cs, v, S, hks, h => by
    have hc : g.childAt n idx = some c := hks 0 c List.getElem?_cons_zero
    have hcm : c ∈ (g.node n).children := List.mem_iff_getElem?.mpr ⟨idx, hc⟩
    obtain ⟨v₁, hv₁, hI₁⟩ : ∃ v₁, (if v.visitMode = .batchMode then rec c v else some v) = some v₁ ∧
        I v₁ (S ∪ (if m = .batchMode then g.EdgesFrom c else ∅)) := by
      by_cases hb : m = .batchMode
      · rw [if_pos (hm v S h ▸ hb)]
        obtain ⟨v₁, hv₁⟩ := Option.ne_none_iff_exists'.mp (hrec' hb c hcm v S h)
        exact ⟨v₁, hv₁, by simpa [hb] using hrec hb c hcm v v₁ S h hv₁⟩
      · rw [if_neg (hm v S h ▸ hb)]; exact ⟨v, rfl, by simpa [hb] using h⟩
    obtain ⟨v₂, hv₂⟩ := Option.ne_none_iff_exists'.mp (hdef v₁ _ c idx hI₁ hc)
    simp only [TreeIntegrity.visitKids, hv₁, Option.some_bind, hv₂]
    exact visitKids_ne_none hI hm hn hrec hrec' hdef (idx + 1) cs
      (fun j c' hj => by
        rw [show idx + 1 + j = idx + (j + 1) by omega]
        exact hks (j + 1) c' (List.getElem?_cons_succ.trans hj))
      (hI.setParent hI₁ hn hc hv₂)

end EdgeInvariantBelow

/-- **A batch visit registers every edge below the node**: an invariant kept below `r` and
holding before a visit of a node below `r` holds after, with the registrations out of every node
reachable from the visited one. -/
theorem visit_batch (hI : EdgeInvariantBelow g r I)
    (hm : ∀ v S, I v S → v.visitMode = .batchMode) :
    ∀ {fuel n : ℕ} {v v' : IntegrityVisitor} {S : Set Reg}, g.Reach r n → I v S →
      visit g fuel n v = some v' → I v' (S ∪ g.EdgesFrom n)
  | 0, _, _, _, _, _, _, hv => by simp [visit] at hv
  | fuel + 1, n, v, v', S, hn, h, hv => by
    simp only [visit, Option.map_eq_some'] at hv
    obtain ⟨v₁, hv₁, rfl⟩ := hv
    have h₁ := hI.visitKids hm hn
      (fun _ c hc v v' S h hv => visit_batch hI hm (hn.tail hc) h hv) 0 _
      (fun j c hj => by simpa [Graph.childAt] using hj) h hv₁
    rw [Graph.edgesFrom_eq, ← Set.union_assoc]
    split_ifs with hs
    · simpa using h₁
    · exact hI.visitInsts hn (by simpa using hs) 0 _
        (fun j k hj => by simpa [Graph.instAt] using hj) h₁

/-- **A batch visit runs to its end** when the fuel exceeds the depth and no registration of an
edge below the root fails. -/
theorem visit_batch_ne_none (hI : EdgeInvariantBelow g r I)
    (hm : ∀ v S, I v S → v.visitMode = .batchMode)
    (hdef : ∀ v S c p i, I v S → g.Reach r p → g.childAt p i = some c →
      v.setParent g c p i ≠ none) :
    ∀ {fuel n : ℕ} {v : IntegrityVisitor} {S : Set Reg}, g.Reach r n → g.DepthLt fuel n → I v S →
      visit g fuel n v ≠ none
  | 0, _, _, _, _, hd, _ => hd.elim
  | fuel + 1, n, v, S, hr, hd, h => by
    simp only [visit, ne_eq, Option.map_eq_none']
    exact hI.visitKids_ne_none hm hr
      (fun _ c hc v v' S h hv => visit_batch hI hm (hr.tail hc) h hv)
      (fun _ c hc v S h => visit_batch_ne_none hI hm hdef (hr.tail hc) (hd c hc) h)
      (fun v S c i h hc => hdef v S c n i h hr hc) 0 _
      (fun j c hj => by simpa [Graph.childAt] using hj) h

/-- **An incremental visit registers the node's own edges.** -/
theorem visit_incremental (hI : EdgeInvariant g I)
    (hm : ∀ v S, I v S → v.visitMode = .incrementalMode) {fuel n : ℕ}
    {v v' : IntegrityVisitor} {S : Set Reg} (h : I v S) (hv : visit g fuel n v = some v') :
    I v' (S ∪ g.OwnEdges n) := by
  cases fuel with
  | zero => simp [visit] at hv
  | succ fuel =>
    simp only [visit, Option.map_eq_some'] at hv
    obtain ⟨v₁, hv₁, rfl⟩ := hv
    have h₁ := (hI.below n).visitKids hm .refl (fun h => by cases h) 0 _
      (fun j c hj => by simpa [Graph.childAt] using hj) h hv₁
    rw [Graph.ownEdges_eq, ← Set.union_assoc]
    split_ifs with hs
    · simpa using h₁
    · exact (hI.below n).visitInsts .refl (by simpa using hs) 0 _
        (fun j k hj => by simpa [Graph.instAt] using hj) h₁

/-- An incremental visit runs to its end when no registration of the node's own edges fails;
the invariant need only be kept by those edges. -/
theorem visit_incremental_ne_none {n : ℕ} (hI : EdgeInvariantBelow g n I)
    (hm : ∀ v S, I v S → v.visitMode = .incrementalMode) {fuel : ℕ}
    (hdef : ∀ v S c i, I v S → g.childAt n i = some c → v.setParent g c n i ≠ none)
    {v : IntegrityVisitor} {S : Set Reg} (hfuel : 0 < fuel) (h : I v S) :
    visit g fuel n v ≠ none := by
  obtain ⟨fuel, rfl⟩ : ∃ k, fuel = k + 1 := ⟨fuel - 1, by omega⟩
  simp only [visit, ne_eq, Option.map_eq_none']
  exact hI.visitKids_ne_none hm .refl (fun h => by cases h) (fun h => by cases h) hdef
    0 _ (fun j c hj => by simpa [Graph.childAt] using hj) h

/-- A property of the visitor alone that each registration keeps holds after any visit. -/
theorem visit_keeps {J : IntegrityVisitor → Prop} (hJ : EdgeInvariant g fun v _ => J v)
    {fuel n : ℕ} {v v' : IntegrityVisitor} (h : J v) (hv : visit g fuel n v = some v') : J v' := by
  cases hm : v.visitMode
  · exact (visit_batch ((hJ.withConfig .batchMode v.doRepairs).below n) (fun _ _ h => h.2.1)
      .refl (S := ∅) ⟨h, hm, rfl⟩ hv).1
  · exact (visit_incremental (hJ.withConfig .incrementalMode v.doRepairs) (fun _ _ h => h.2.1)
      (S := ∅) ⟨h, hm, rfl⟩ hv).1

/-- A visit keeps the configuration of the visitor. -/
lemma visit_config {fuel n : ℕ} {v v' : IntegrityVisitor} (hv : visit g fuel n v = some v') :
    v'.visitMode = v.visitMode ∧ v'.doRepairs = v.doRepairs ∧ v'.be = v.be :=
  visit_keeps (J := fun w => w.visitMode = v.visitMode ∧ w.doRepairs = v.doRepairs ∧ w.be = v.be)
    ⟨fun h _ hs => (IntegrityVisitor.setParent_config hs).imp (·.trans h.1)
        fun h' => ⟨h'.1.trans h.2.1, h'.2.trans h.2.2⟩,
      fun h _ _ => (IntegrityVisitor.setParentInst_config _ _ _).imp (·.trans h.1)
        fun h' => ⟨h'.1.trans h.2.1, h'.2.trans h.2.2⟩⟩ ⟨rfl, rfl, rfl⟩ hv

/-- A visit only appends to the diagnostic stream. -/
lemma visit_ss {fuel n : ℕ} {v v' : IntegrityVisitor} (hv : visit g fuel n v = some v') :
    Grows v.ss v'.ss :=
  visit_keeps (J := fun w => Grows v.ss w.ss)
    ⟨fun h _ hs => h.trans (IntegrityVisitor.setParent_ss hs),
      fun h _ _ => h.trans (IntegrityVisitor.setParentInst_ss _ _ _)⟩ (.refl _) hv

/-! ### The walk reads neither the printers nor the stream -/

namespace IntegrityVisitor.SameChecks

variable {v w : IntegrityVisitor}

lemma visitInsts (e : ℕ) : ∀ (idx : ℕ) (ks : List ℕ) {v w : IntegrityVisitor}, SameChecks v w →
    SameChecks (TreeIntegrity.visitInsts g e idx ks v) (TreeIntegrity.visitInsts g e idx ks w)
  | _, [], _, _, h => h
  | idx, k :: ks, _, _, h => visitInsts e (idx + 1) ks (h.setParentInst k e idx)

lemma visitKids {rec : ℕ → IntegrityVisitor → Option IntegrityVisitor}
    (hrec : ∀ c v w, SameChecks v w → Option.Rel SameChecks (rec c v) (rec c w)) (n : ℕ) :
    ∀ (idx : ℕ) (kids : List ℕ) {v w : IntegrityVisitor}, SameChecks v w →
      Option.Rel SameChecks (TreeIntegrity.visitKids g rec n idx kids v)
        (TreeIntegrity.visitKids g rec n idx kids w)
  | _, [], _, _, h => .some h
  | idx, c :: cs, v, w, h => by
    simp only [TreeIntegrity.visitKids]
    refine optionRel_bind (optionRel_bind (r := SameChecks) ?_
      fun _ _ (hxy : SameChecks _ _) => hxy.setParent c n idx)
      fun _ _ (hxy : SameChecks _ _) => visitKids hrec n (idx + 1) cs hxy
    rw [← h.visitMode]
    split_ifs
    · exact hrec c v w h
    · exact .some h

/-- **A visit takes related visitors to related visitors.** -/
lemma visit : ∀ (fuel n : ℕ) {v w : IntegrityVisitor}, SameChecks v w →
    Option.Rel SameChecks (TreeIntegrity.visit g fuel n v) (TreeIntegrity.visit g fuel n w)
  | 0, _, _, _, _ => .none
  | fuel + 1, n, _, _, h =>
    optionRel_map (h.visitKids (fun c _ _ h' => visit fuel c h') n 0 _) fun _ _ hxy => by
      split_ifs
      · exact hxy
      · exact hxy.visitInsts n 0 _

end IntegrityVisitor.SameChecks

/-- **A visit never replaces or erases a recorded parent**, of a node or of an instruction: the
parent tables only grow (`unsetParent`, which no visit calls, is their only eraser). -/
theorem visit_keeps_parents {fuel n : ℕ} {v v' : IntegrityVisitor}
    (hv : visit g fuel n v = some v') :
    (∀ c ps, v.nparent c = some ps → v'.nparent c = some ps) ∧
      ∀ k ps, v.iparent k = some ps → v'.iparent k = some ps :=
  visit_keeps (J := fun w => (∀ c ps, v.nparent c = some ps → w.nparent c = some ps) ∧
      ∀ k ps, v.iparent k = some ps → w.iparent k = some ps)
    ⟨fun h _ hs => ⟨fun c ps hc => (IntegrityVisitor.setParent_tables hs).1 c ps (h.1 c ps hc),
        (IntegrityVisitor.setParent_tables hs).2 ▸ h.2⟩,
      fun h _ _ => ⟨fun c ps hc => by
        rw [(IntegrityVisitor.setParentInst_tables _ _ _).1]; exact h.1 c ps hc,
        fun k ps hk => (IntegrityVisitor.setParentInst_tables _ _ _).2 k ps (h.2 k ps hk)⟩⟩
    ⟨fun _ _ => id, fun _ _ => id⟩ hv

/-- Visiting `foo` after `baz` keeps the location `(baz, 0)` recorded for their shared child. -/
theorem visit_keeps_parents_bazFooGraph :
    ∃ v v', visit bazFooGraph 3 0 (IntegrityVisitor.init .silent .noDumpPointers
        .dontReportRepairableSharing .batchMode) = some v ∧ visit bazFooGraph 3 1 v = some v' ∧
      v.nparent 2 = some (0, 0) ∧
      (∀ c ps, v.nparent c = some ps → v'.nparent c = some ps) ∧
      ∀ k ps, v.iparent k = some ps → v'.iparent k = some ps :=
  ⟨_, _, rfl, rfl, rfl, visit_keeps_parents (rfl : visit bazFooGraph 3 1 _ = _)⟩

end TreeIntegrity
