import Mathlib.Data.List.Sort
import TreeIntegrity.Clone
import TreeIntegrity.Ledger

/-!
`IntegrityVisitor::repair`: for each ledger location `(parent, slot)`, in the iteration order of
the `std::set`, classify the child once (`repairableSubTree`, remembering the children already
accepted), clone its subtree and put the clone into the slot. The node builder's integrity
checks are off during the loop (`ScopedIntegrityCheckDisabler`).

* `Repaired`: the loop invariant. Every original node keeps its shape, every original slot not
  yet processed keeps its child, every processed slot holds a fresh node, the children of fresh
  nodes are fresh, a fresh node sits at one slot at most, and the instruction handles of fresh
  nodes are new and distinct.
* `Repaired.rewire`: processing one more slot keeps the invariant, even when an earlier step
  rewired a slot inside the subtree that this step clones. It is two steps: cloning keeps the
  invariant (`Repaired.copies`), and putting the fresh clone into the slot extends it
  (`Repaired.replace`).
* `repairLoop_spec`: **when every ledger slot holds a quiet expression, the loop never takes its
  `return false`** and rewires exactly the ledger slots.
* `repair_false`: **a failed repair is not transactional**: the slots met before the first
  unrepairable one stay rewired, the visitor is returned as it was, and the switch is restored.
* `repairLoop_memo_eq_plain`: **the `visited` memo changes nothing**: the loop answers and
  rewires as a loop that classifies the child of every slot afresh (`repairLoopPlain`).
-/

namespace TreeIntegrity

/-- The iteration order of the ledger. A `std::set` of `(Bnode *, unsigned)` pairs is ordered
by address, which the model leaves open: any order of the entries. -/
structure LedgerOrder where
  order : List ParSlot → List ParSlot
  perm : ∀ l, (order l).Perm l

/-- The order of the ledger when node identities are read as addresses: by parent, then by
slot. -/
def LedgerOrder.byAddress : LedgerOrder :=
  ⟨List.insertionSort fun a b => a.1 < b.1 ∨ a.1 = b.1 ∧ a.2 ≤ b.2, List.perm_insertionSort _⟩

/-- The loop of `repair` over the ledger in iteration order, with the children already accepted
in `visited`: `none` is a failed assertion (`pkids[slot]` out of range, or a statement child),
`some (false, g)` the early `return false`, which keeps the slots already rewired. -/
def repairLoop : Graph → List ℕ → List ParSlot → Option (Bool × Graph)
  | g, _, [] => some (true, g)
  | g, visited, (parent, slot) :: rest =>
    match g.childAt parent slot with
    | none => none
    | some child =>
      if (g.node child).isStmt then none
      else if child ∈ visited then
        repairLoop ((cloneSubtree g child).1.replaceChild parent slot (cloneSubtree g child).2)
          visited rest
      else match repairableSubTree g child with
        | none => none
        | some false => some (false, g)
        | some true =>
          repairLoop ((cloneSubtree g child).1.replaceChild parent slot (cloneSubtree g child).2)
            (child :: visited) rest

/-- `repair(node)` (the node argument is unused): the loop with the integrity checks off, then
restored; on success the ledger is cleared and the expression counter reset. -/
def repair (ord : LedgerOrder) (v : IntegrityVisitor) (g : Graph) :
    Option (Bool × IntegrityVisitor × Graph) :=
  (repairLoop { g with integrityChecks := false } [] (ord.order v.sharing)).map fun r =>
    if r.1 then (true, { v with sharing := [], exprShareCount := 0 },
      { r.2 with integrityChecks := g.integrityChecks })
    else (false, v, { r.2 with integrityChecks := g.integrityChecks })

/-! ### Classification depends on the shape only -/

variable {g g' g0 : Graph}

lemma CloneSafe.of_sameShape {n n' : ℕ} (hs : SameShape g' n' g n) (h : CloneSafe g n) :
    CloneSafe g' n' := by
  have hl := hs.label_eq
  refine ⟨?_, fun c' hc' => ?_⟩
  · have hf : (g'.node n').flavor = (g.node n).flavor := congrArg Label.flavor hl
    have ho : (g'.node n').op = (g.node n).op := congrArg Label.op hl
    simpa only [FlavorOk, hf, ho] using h.1
  · obtain ⟨i, hi⟩ := List.mem_iff_getElem?.mp hc'
    obtain ⟨c, hc, hcs⟩ := hs.childAt (i := i) hi
    rw [hcs.isStmt_eq]
    exact h.2 c (List.mem_iff_getElem?.mpr ⟨i, hc⟩)

/-- A node of the same shape as an accepted one is accepted. -/
lemma repairableSubTree_of_sameShape (hwf : g.WF) (hwf' : g'.WF) {n n' : ℕ}
    (hs : SameShape g' n' g n) (h : repairableSubTree g n = some true) :
    repairableSubTree g' n' = some true := by
  refine (repairableSubTree_eq_some_true hwf' n').mpr fun m' hm' => ?_
  obtain ⟨m, hm, hms⟩ := hs.reach hm'
  exact ((repairableSubTree_eq_some_true hwf n).mp h m hm).of_sameShape hms

/-! ### The loop invariant -/

/-- **`g` is `g0` with the ledger slots `done` rewired** to fresh copies. -/
structure Repaired (g0 g : Graph) (done : List ParSlot) : Prop where
  size_le : g0.size ≤ g.size
  wf : g.WF
  shape : ∀ m < g0.size, SameShape g m g0 m
  kept : ∀ p < g0.size, ∀ i, (p, i) ∉ done → g.childAt p i = g0.childAt p i
  rewired : ∀ ps ∈ done, ∃ n, g.childAt ps.1 ps.2 = some n ∧ g0.size ≤ n
  fresh_kids : ∀ m c, g0.size ≤ m → g.Child m c → g0.size ≤ c ∧ c < m
  unique : ∀ m, g0.size ≤ m → ∀ p i q j, g.childAt p i = some m → g.childAt q j = some m →
    p = q ∧ i = j
  only_kids : ∀ m < g0.size, g.node m = { g0.node m with children := (g.node m).children }
  insts : FreshInsts g0 g

namespace Repaired

variable {done : List ParSlot}

lemma refl (hwf : g0.WF) : Repaired g0 g0 [] where
  size_le := le_rfl
  wf := hwf
  shape _ _ := .refl _ _
  kept _ _ _ _ := rfl
  rewired := by simp
  fresh_kids m c hm h := by have := (hwf.child_lt m c h).1; omega
  unique m hm p _ _ _ h := by
    have := (hwf.child_lt p m (Graph.reach_of_childAt h)).2; omega
  only_kids _ _ := rfl
  insts := .refl g0

variable (h : Repaired g0 g done)
include h

/-- A slot holding an original node is an original slot that was not rewired. -/
lemma old_slot {p i n : ℕ} (hc : g.childAt p i = some n) (hn : n < g0.size) :
    p < g0.size ∧ (p, i) ∉ done ∧ g0.childAt p i = some n := by
  have hp : p < g0.size := by
    by_contra hp
    have := h.fresh_kids p n (by omega) (Graph.reach_of_childAt hc)
    omega
  have hd : (p, i) ∉ done := fun hd => by
    obtain ⟨m, hm, hm0⟩ := h.rewired _ hd
    rw [hc, Option.some.injEq] at hm
    omega
  exact ⟨hp, hd, by rw [← h.kept p hp i hd, hc]⟩

/-- An edge into an original node is an original edge. -/
lemma old_edge {p c : ℕ} (hpc : g.Child p c) (hc : c < g0.size) :
    p < g0.size ∧ g0.Child p c :=
  let ⟨_, hi⟩ := Graph.child_iff_childAt.mp hpc
  let ⟨hp, _, h0⟩ := h.old_slot hi hc
  ⟨hp, Graph.reach_of_childAt h0⟩

/-- **A path to an original node is an original path.** -/
lemma reach_old {r n : ℕ} (hr : g.Reach r n) (hn : n < g0.size) : g0.Reach r n := by
  induction hr with
  | refl => exact .refl
  | tail _ hmn ih =>
    obtain ⟨hm, he⟩ := h.old_edge hmn hn
    exact (ih hm).tail he

/-- **Rewiring shares no new instruction**: an instruction at two locations below `r` after the
rewiring was at two locations below `r` before, when every handle of `g0` was handed out. -/
lemma instSharedIn_old (hinst : g0.InstAllocated) {r k : ℕ} (hr : r < g0.size)
    (hs : InstSharedIn (g.EdgesFrom r) k) : InstSharedIn (g0.EdgesFrom r) k := by
  obtain ⟨⟨e, j⟩, ⟨e', j'⟩, hne, ⟨hre, hse, hke⟩, ⟨hre', hse', hke'⟩⟩ := hs
  have hlt : ∀ {x}, g.Reach r x → x < g.size := fun hx =>
    Graph.lt_size_of_reach h.wf (hr.trans_le h.size_le) hx
  -- an instruction of an original node is an original registration, below `g0.instCount`
  have hold : ∀ {x i}, x < g0.size → g.Reach r x → (g.node x).isStmt = false →
      g.instAt x i = some k → Reg.inst k (x, i) ∈ g0.EdgesFrom r ∧ k < g0.instCount := by
    intro x i hx hrx hsx hkx
    have hi : (g.node x).instructions = (g0.node x).instructions := by rw [h.only_kids x hx]
    have hst : (g.node x).isStmt = (g0.node x).isStmt := by rw [h.only_kids x hx]
    have hk0 : g0.instAt x i = some k := by rwa [Graph.instAt, ← hi]
    exact ⟨⟨h.reach_old hrx hx, hst ▸ hsx, hk0⟩, hinst x hx k (List.getElem?_mem hk0)⟩
  -- an instruction of a fresh node has a fresh handle
  have hnew : ∀ {x i}, ¬ x < g0.size → g.Reach r x → g.instAt x i = some k →
      g0.instCount ≤ k := fun hx hrx hkx =>
    (h.insts.range _ (by omega) (hlt hrx) k (List.getElem?_mem hkx)).1
  by_cases he : e < g0.size <;> by_cases he' : e' < g0.size
  · exact ⟨_, _, hne, (hold he hre hse hke).1, (hold he' hre' hse' hke').1⟩
  · have := (hold he hre hse hke).2; have := hnew he' hre' hke'; omega
  · have := hnew he hre hke; have := (hold he' hre' hse' hke').2; omega
  · obtain ⟨rfl, rfl⟩ := h.insts.unique e e' j j' k (by omega) (hlt hre) (by omega) (hlt hre')
      hke hke'
    exact absurd rfl hne

/-- The rewired graph stays acyclic: original edges keep the original ranks (shifted above
every fresh node), and a fresh node's children have smaller identities. -/
lemma acyclic (hwf0 : g0.WF) (hac0 : g0.Acyclic) : g.Acyclic := by
  obtain ⟨rank, hr, -⟩ := g0.exists_rank hwf0 hac0
  refine g.acyclic_of_rank (fun n => if n < g0.size then g.size + rank n else n) fun p c hpc => ?_
  have hc := (h.wf.child_lt p c hpc).2
  by_cases hc0 : c < g0.size
  · obtain ⟨hp0, he⟩ := h.old_edge hpc hc0
    simp only [hc0, hp0, if_true]
    exact Nat.add_lt_add_left (hr p c he) _
  · by_cases hp0 : p < g0.size
    · simp only [hc0, hp0, if_true, if_false]
      omega
    · simp only [hc0, hp0, if_false]
      exact (h.fresh_kids p c (by omega) hpc).2

/-- The invariant reads only the nodes, the size and the instruction count of the rewired
graph. -/
lemma congr (hn : g'.node = g.node) (hs : g'.size = g.size) (hi : g'.instCount = g.instCount) :
    Repaired g0 g' done where
  size_le := hs ▸ h.size_le
  wf := ⟨fun p c hc => hs ▸ h.wf.child_lt p c (by rwa [Graph.Child, ← hn])⟩
  shape m hm k := (Graph.unfold_congr hn k m).trans (h.shape m hm k)
  kept p hp i hd := by rw [← h.kept p hp i hd]; simp [Graph.childAt, hn]
  rewired ps hps := by simpa [Graph.childAt, hn] using h.rewired ps hps
  fresh_kids m c hm hc := h.fresh_kids m c hm (by rwa [Graph.Child, ← hn])
  unique m hm p i q j hp hq :=
    h.unique m hm p i q j (by simpa [Graph.childAt, hn] using hp)
      (by simpa [Graph.childAt, hn] using hq)
  only_kids m hm := by rw [hn]; exact h.only_kids m hm
  insts := h.insts.of_insts hs hi fun m => by rw [hn]

/-- Cloning in the rewired graph keeps the invariant: a copy only adds nodes. -/
lemma copies {g₁ : Graph} {ns ns' : List ℕ} (hcp : Copies g g₁ ns ns') :
    Repaired g0 g₁ done := by
  have hsz := h.size_le
  have hold : ∀ q < g.size, ∀ j, g₁.childAt q j = g.childAt q j := fun q hq j => by
    simp only [Graph.childAt, hcp.node_old q hq]
  refine ⟨hsz.trans hcp.size_le, hcp.wf, fun m hm => ?_, fun q hq j hqj => ?_, fun ps hps => ?_,
    fun m d hm hmd => ?_, fun m hm a b q j ha hb => ?_, fun m hm => ?_,
    h.insts.trans hcp.insts hcp.node_old⟩
  · -- shape
    exact (sameShape_of_extends h.wf hcp.node_old (by omega)).trans (h.shape m hm)
  · -- kept
    rw [hold q (by omega)]
    exact h.kept q hq j hqj
  · -- rewired
    obtain ⟨n, hn, hn0⟩ := h.rewired ps hps
    exact ⟨n, (hold _ (h.wf.child_lt _ _ (Graph.reach_of_childAt hn)).1 _).trans hn, hn0⟩
  · -- fresh_kids
    by_cases hmg : m < g.size
    · exact h.fresh_kids m d hm (by rwa [Graph.Child, ← hcp.node_old m hmg])
    · have := hcp.kids_new m d (by omega) hmd
      omega
  · -- unique: an old node keeps its slots, a new one is new to the copy
    by_cases hmg : m < g.size
    · exact h.unique m hm a b q j (Copies.childAt_old hcp hmg ha).2
        (Copies.childAt_old hcp hmg hb).2
    · exact hcp.unique m (by omega) a b q j ha hb
  · -- only_kids
    rw [hcp.node_old m (by omega)]
    exact h.only_kids m hm

/-- Putting a fresh node that no slot holds, of the shape of the child it replaces, into a slot
not yet processed extends the invariant by that slot. -/
lemma replace {p i c c' : ℕ} (hp : p < g0.size) (hnd : (p, i) ∉ done)
    (hc : g.childAt p i = some c) (hc' : g0.size ≤ c') (hlt : c' < g.size)
    (hfree : ∀ q j, g.childAt q j ≠ some c') (hsh : SameShape g c' g c) :
    Repaired g0 (g.replaceChild p i c') (done ++ [(p, i)]) := by
  have hself : (g.replaceChild p i c').childAt p i = some c' :=
    Graph.childAt_replaceChild_self (List.getElem?_eq_some_iff.mp hc).1
  have hne : ∀ {q j}, (q, j) ≠ (p, i) → (g.replaceChild p i c').childAt q j = g.childAt q j :=
    Graph.childAt_replaceChild_of_ne
  refine ⟨h.size_le, h.wf.replaceChild (hp.trans_le h.size_le) hlt,
    fun m hm => (sameShape_replaceChild hc hsh m).trans (h.shape m hm),
    fun q hq j hqj => ?_, fun ps hps => ?_, fun m d hm hmd => ?_, fun m hm a b q j ha hb => ?_,
    fun m hm => ?_, h.insts.of_insts rfl rfl fun m => Graph.instructions_replaceChild p i c' m⟩
  · -- kept
    rw [hne fun e => hqj (by simp [e])]
    exact h.kept q hq j fun hd => hqj (List.mem_append_left _ hd)
  · -- rewired
    rcases List.mem_append.mp hps with hps | hps
    · obtain ⟨n, hn, hn0⟩ := h.rewired ps hps
      exact ⟨n, by rw [hne fun e => hnd (e ▸ hps)]; exact hn, hn0⟩
    · rw [List.mem_singleton.mp hps]
      exact ⟨c', hself, hc'⟩
  · -- fresh_kids: a fresh node is not the rewired parent
    exact h.fresh_kids m d hm (by simpa [Graph.Child, show m ≠ p by omega] using hmd)
  · -- unique: the new node sits at the rewired slot only
    rcases Graph.childAt_replaceChild_eq_some ha with ⟨rfl, rfl, rfl⟩ | ha₁ <;>
      rcases Graph.childAt_replaceChild_eq_some hb with ⟨rfl, rfl, hm'⟩ | hb₁
    · exact ⟨rfl, rfl⟩
    · exact absurd hb₁ (hfree q j)
    · exact absurd (hm' ▸ ha₁) (hfree a b)
    · exact h.unique m hm a b q j ha₁ hb₁
  · -- only_kids
    rw [Graph.node_replaceChild]
    split_ifs with hmp
    · subst hmp
      rw [h.only_kids m hm]
    · exact h.only_kids m hm

/-- **Rewiring one more ledger slot** of `g0` to a fresh clone of its child keeps the invariant.
The clone is taken in the current graph, where earlier steps may have rewired slots below the
child. -/
theorem rewire (hwf0 : g0.WF) (hac0 : g0.Acyclic) {p i c : ℕ} (hnd : (p, i) ∉ done)
    (hc : g0.childAt p i = some c) :
    Repaired g0 ((cloneSubtree g c).1.replaceChild p i (cloneSubtree g c).2)
      (done ++ [(p, i)]) := by
  obtain ⟨hp0, hc0⟩ := hwf0.child_lt p c (Graph.reach_of_childAt hc)
  have hsz := h.size_le
  have hcp := cloneSubtree_copies h.wf (h.acyclic hwf0 hac0) (n := c) (by omega)
  have h₁ := h.copies hcp
  have hfr := hcp.fresh _ (List.mem_singleton_self _)
  -- the clone has the shape of the child it replaces
  have hsh : SameShape _ (cloneSubtree g c).2 _ c := (List.forall₂_cons.mp hcp.shape).1.trans
    (sameShape_of_extends h.wf hcp.node_old (by omega)).symm
  exact h₁.replace hp0 hnd ((h₁.kept p hp0 i hnd).trans hc) (by omega) hfr.2
    (hcp.free _ (List.mem_singleton_self _)) hsh

end Repaired

/-! ### The loop over a quiet ledger -/

/-- **The repair loop over quiet slots**: when the remaining ledger slots of `g0` are distinct,
not yet processed, and each holds a quiet expression, the loop fails no assertion, never takes
its `return false`, and rewires exactly these slots. -/
theorem repairLoop_spec (hwf0 : g0.WF) (hac0 : g0.Acyclic) {rd : RepairDisp} :
    ∀ {rest : List ParSlot} {g : Graph} {visited : List ℕ} {done : List ParSlot},
      Repaired g0 g done → (done ++ rest).Nodup →
      (∀ ps ∈ rest, ∃ c, g0.childAt ps.1 ps.2 = some c ∧ Quiet g0 rd c) →
      ∃ g', repairLoop g visited rest = some (true, g') ∧ Repaired g0 g' (done ++ rest)
  | [], g, _, done, h, _, _ => ⟨g, rfl, by simpa using h⟩
  | (p, i) :: rest, g, visited, done, h, hnd, hq => by
    obtain ⟨c, hc, hs, -, hr⟩ := hq (p, i) (List.mem_cons_self _ _)
    have hpi : (p, i) ∉ done := fun hd =>
      List.disjoint_of_nodup_append hnd hd (List.mem_cons_self _ _)
    have hc0 := (hwf0.child_lt p c (Graph.reach_of_childAt hc)).2
    have hcg : g.childAt p i = some c :=
      (h.kept p (hwf0.child_lt p c (Graph.reach_of_childAt hc)).1 i hpi).trans hc
    have hsg : (g.node c).isStmt = false := (h.shape c hc0).isStmt_eq ▸ hs
    have hnd' : (done ++ [(p, i)] ++ rest).Nodup := by simpa using hnd
    have hq' : ∀ ps ∈ rest, ∃ c, g0.childAt ps.1 ps.2 = some c ∧ Quiet g0 rd c :=
      fun ps hps => hq ps (List.mem_cons_of_mem _ hps)
    have step : ∀ visited', ∃ g', repairLoop ((cloneSubtree g c).1.replaceChild p i
        (cloneSubtree g c).2) visited' rest = some (true, g') ∧
          Repaired g0 g' (done ++ (p, i) :: rest) := fun visited' => by
      obtain ⟨g', hg', h'⟩ := repairLoop_spec hwf0 hac0 (h.rewire hwf0 hac0 hpi hc) hnd' hq'
      exact ⟨g', hg', by simpa using h'⟩
    simp only [repairLoop, hcg, hsg, Bool.false_eq_true, if_false]
    split_ifs with hv
    · exact step visited
    · rw [repairableSubTree_of_sameShape hwf0 h.wf (h.shape c hc0) hr]
      exact step (c :: visited)

/-- Two results of `repair` or `examine` with the same verdict and the same graph, and visitors
that agree on everything the checks read. -/
def SameResult (r s : Bool × IntegrityVisitor × Graph) : Prop :=
  r.1 = s.1 ∧ IntegrityVisitor.SameChecks r.2.1 s.2.1 ∧ r.2.2 = s.2.2

/-- `repair` reads only the ledger of the visitor: related visitors repair alike. -/
lemma IntegrityVisitor.SameChecks.repair {v w : IntegrityVisitor} (h : SameChecks v w)
    (ord : LedgerOrder) (g : Graph) :
    Option.Rel SameResult (TreeIntegrity.repair ord v g) (TreeIntegrity.repair ord w g) := by
  unfold TreeIntegrity.repair
  rw [← h.sharing]
  cases repairLoop { g with integrityChecks := false } [] (ord.order v.sharing) with
  | none => exact .none
  | some r =>
    rcases r with ⟨_ | _, g'⟩
    · exact .some ⟨rfl, h, rfl⟩
    · exact .some ⟨rfl, { h with sharing := rfl, exprShareCount := rfl }, rfl⟩

/-- What `repair` returns for the visitor: the visitor with the ledger cleared and the expression
counter reset, or, after the early `return false`, the visitor as it was. -/
lemma repair_visitor {ord : LedgerOrder} {v : IntegrityVisitor}
    {res : Bool × IntegrityVisitor × Graph} (h : repair ord v g = some res) :
    res.2.1 = { v with sharing := [], exprShareCount := 0 } ∨ res.2.1 = v := by
  obtain ⟨r, -, rfl⟩ := Option.map_eq_some'.mp h
  split
  · exact .inl rfl
  · exact .inr rfl

/-- **`repair` over a quiet ledger** returns `true`, clears the ledger and resets the expression
counter; the graph is the original with the ledger slots rewired, and the integrity checks are
as they were before. -/
theorem repair_spec (ord : LedgerOrder) (hwf : g.WF) (hac : g.Acyclic) {v : IntegrityVisitor}
    {rd : RepairDisp} (hnd : v.sharing.Nodup)
    (hq : ∀ ps ∈ v.sharing, ∃ c, g.childAt ps.1 ps.2 = some c ∧ Quiet g rd c) :
    ∃ g', repair ord v g = some (true, { v with sharing := [], exprShareCount := 0 }, g') ∧
      Repaired g g' (ord.order v.sharing) ∧ g'.integrityChecks = g.integrityChecks := by
  have h₀ : Repaired g { g with integrityChecks := false } [] :=
    (Repaired.refl hwf).congr rfl rfl rfl
  obtain ⟨g', hg', h'⟩ : ∃ g', repairLoop { g with integrityChecks := false } []
      (ord.order v.sharing) = some (true, g') ∧ Repaired g g' ([] ++ ord.order v.sharing) :=
    repairLoop_spec hwf hac h₀ ((ord.perm _).nodup_iff.mpr hnd)
      fun ps hps => hq ps ((ord.perm _).mem_iff.mp hps)
  refine ⟨{ g' with integrityChecks := g.integrityChecks }, by simp [repair, hg'], ?_, rfl⟩
  rw [List.nil_append] at h'
  exact h'.congr rfl rfl rfl

/-! ### A failed repair -/

/-- **The repair loop stops at the first unrepairable slot and keeps what it rewired**: when
it returns `false`, the slots before that one are rewired as in `repairLoop_spec`, the slot
itself and the later ones hold their original children, and the scan of that child in the
returned graph answered `false`. -/
theorem repairLoop_false (hwf0 : g0.WF) (hac0 : g0.Acyclic) :
    ∀ {rest : List ParSlot} {g g' : Graph} {visited : List ℕ} {done : List ParSlot},
      Repaired g0 g done → (done ++ rest).Nodup →
      (∀ ps ∈ rest, ∃ c, g0.childAt ps.1 ps.2 = some c) →
      repairLoop g visited rest = some (false, g') →
      ∃ pre ps post, rest = pre ++ ps :: post ∧ Repaired g0 g' (done ++ pre) ∧
        ∃ c, g0.childAt ps.1 ps.2 = some c ∧ repairableSubTree g' c = some false
  | [], _, _, _, _, _, _, _, hl => by simp [repairLoop] at hl
  | (p, i) :: rest, g, g', visited, done, h, hnd, hslots, hl => by
    obtain ⟨c, hc⟩ := hslots (p, i) (List.mem_cons_self _ _)
    have hpi : (p, i) ∉ done := fun hd =>
      List.disjoint_of_nodup_append hnd hd (List.mem_cons_self _ _)
    have hcg : g.childAt p i = some c :=
      (h.kept p (hwf0.child_lt p c (Graph.reach_of_childAt hc)).1 i hpi).trans hc
    -- a failure further on: the slot `(p, i)` was rewired before it
    have step : ∀ visited', repairLoop ((cloneSubtree g c).1.replaceChild p i
        (cloneSubtree g c).2) visited' rest = some (false, g') →
          ∃ pre ps post, (p, i) :: rest = pre ++ ps :: post ∧ Repaired g0 g' (done ++ pre) ∧
            ∃ c, g0.childAt ps.1 ps.2 = some c ∧ repairableSubTree g' c = some false :=
      fun visited' hl' => by
        obtain ⟨pre, ps, post, hr, h', hps⟩ := repairLoop_false hwf0 hac0
          (h.rewire hwf0 hac0 hpi hc) (by simpa using hnd)
          (fun ps hps => hslots ps (List.mem_cons_of_mem _ hps)) hl'
        exact ⟨(p, i) :: pre, ps, post, by simp [hr], by simpa using h', hps⟩
    simp only [repairLoop, hcg] at hl
    split_ifs at hl with hs hv
    · exact step visited hl
    · cases hr : repairableSubTree g c with
      | none => simp [hr] at hl
      | some b =>
        cases b
        · obtain rfl : g = g' := by simpa [hr] using hl
          exact ⟨[], (p, i), rest, rfl, by simpa using h, c, hc, hr⟩
        · exact step (c :: visited) (by simpa [hr] using hl)

/-- **A failed `repair` is not transactional.** It returns the visitor as it was and restores
the integrity-check switch, but the graph keeps the rewiring of the ledger slots met before the
first unrepairable one: those hold fresh clones of the same shape, and that slot and the later
ones still hold their children. -/
theorem repair_false (ord : LedgerOrder) (hwf : g.WF) (hac : g.Acyclic)
    {v v' : IntegrityVisitor} {g' : Graph} (hnd : v.sharing.Nodup)
    (hslots : ∀ ps ∈ v.sharing, ∃ c, g.childAt ps.1 ps.2 = some c)
    (h : repair ord v g = some (false, v', g')) :
    v' = v ∧ g'.integrityChecks = g.integrityChecks ∧
      ∃ pre ps post, ord.order v.sharing = pre ++ ps :: post ∧ Repaired g g' pre ∧
        ∃ c, g.childAt ps.1 ps.2 = some c ∧ repairableSubTree g' c = some false := by
  obtain ⟨⟨b, g₁⟩, hl, hr⟩ := Option.map_eq_some'.mp h
  cases b
  · simp only [Bool.false_eq_true, if_false, Prod.mk.injEq, true_and] at hr
    obtain ⟨rfl, rfl⟩ := hr
    have h₀ : Repaired g { g with integrityChecks := false } [] :=
      (Repaired.refl hwf).congr rfl rfl rfl
    obtain ⟨pre, ps, post, ho, h', c, hc, hrst⟩ := repairLoop_false hwf hac h₀
      ((ord.perm _).nodup_iff.mpr hnd) (fun ps hps => hslots ps ((ord.perm _).mem_iff.mp hps)) hl
    rw [List.nil_append] at h'
    exact ⟨rfl, rfl, pre, ps, post, ho, h'.congr rfl rfl rfl, c, hc, by simpa using hrst⟩
  · simp at hr

/-! ### The memo

`repair` classifies the child of a ledger slot only when it has not accepted that child before.
The memo is sound because rewiring keeps the shape of every node, and the classification reads
the shape only (`repairableSubTree_of_sameShape`).
-/

/-- The loop of `repair` without its `visited` memo: the child at every ledger slot is classified
afresh. Not in the source: the reference the memo has to agree with. -/
def repairLoopPlain : Graph → List ParSlot → Option (Bool × Graph)
  | g, [] => some (true, g)
  | g, (parent, slot) :: rest =>
    match g.childAt parent slot with
    | none => none
    | some child =>
      if (g.node child).isStmt then none
      else match repairableSubTree g child with
        | none => none
        | some false => some (false, g)
        | some true =>
          repairLoopPlain ((cloneSubtree g child).1.replaceChild parent slot
            (cloneSubtree g child).2) rest

/-- One step of either loop keeps the graph finite and acyclic, and every old node's shape. -/
lemma rewire_step (hwf : g.WF) (hac : g.Acyclic) {p i c : ℕ} (hc : g.childAt p i = some c) :
    ((cloneSubtree g c).1.replaceChild p i (cloneSubtree g c).2).WF ∧
      ((cloneSubtree g c).1.replaceChild p i (cloneSubtree g c).2).Acyclic ∧
      g.size ≤ ((cloneSubtree g c).1.replaceChild p i (cloneSubtree g c).2).size ∧
      ∀ m < g.size, SameShape ((cloneSubtree g c).1.replaceChild p i (cloneSubtree g c).2) m g m :=
  have h := (Repaired.refl hwf).rewire hwf hac (List.not_mem_nil _) hc
  ⟨h.wf, h.acyclic hwf hac, h.size_le, h.shape⟩

/-- The memo agrees with the plain loop from any set of accepted nodes, over any ledger, in any
order and with repeated slots. -/
lemma repairLoop_eq_plain_of_memo : ∀ (ledger : List ParSlot) {g : Graph} {visited : List ℕ},
    g.WF → g.Acyclic → (∀ c ∈ visited, c < g.size ∧ repairableSubTree g c = some true) →
      repairLoop g visited ledger = repairLoopPlain g ledger
  | [], _, _, _, _, _ => rfl
  | (p, i) :: rest, g, visited, hwf, hac, hvis => by
    simp only [repairLoop, repairLoopPlain]
    cases hc : g.childAt p i with
    | none => rfl
    | some c =>
      obtain ⟨hwf₂, hac₂, hsz, hsh⟩ := rewire_step hwf hac hc
      -- accepted nodes stay accepted in the rewired graph
      have hkeep : ∀ vs : List ℕ, (∀ x ∈ vs, x < g.size ∧ repairableSubTree g x = some true) →
          ∀ x ∈ vs, x < _ ∧ repairableSubTree _ x = some true := fun vs h x hx =>
        ⟨(h x hx).1.trans_le hsz,
          repairableSubTree_of_sameShape hwf hwf₂ (hsh x (h x hx).1) (h x hx).2⟩
      simp only
      split_ifs with hs hv
      · rfl
      · rw [(hvis c hv).2]
        exact repairLoop_eq_plain_of_memo rest hwf₂ hac₂ (hkeep visited hvis)
      · rcases hr : repairableSubTree g c with _ | _ | _
        · rfl
        · rfl
        · exact repairLoop_eq_plain_of_memo rest hwf₂ hac₂ (hkeep (c :: visited) fun x hx => by
            rcases List.mem_cons.mp hx with rfl | hx
            exacts [⟨(hwf.child_lt p x (Graph.reach_of_childAt hc)).2, hr⟩, hvis x hx])

/-- **The memo of `repair` changes nothing**: on a finite acyclic graph, the loop as `repair`
starts it answers, and rewires, as the loop that classifies the child of every slot afresh, over
any ledger. -/
theorem repairLoop_memo_eq_plain (hwf : g.WF) (hac : g.Acyclic) (ledger : List ParSlot) :
    repairLoop g [] ledger = repairLoopPlain g ledger :=
  repairLoop_eq_plain_of_memo ledger hwf hac (by simp)

/-- `x + x * y`: the variables `x` and `y` (nodes 0 and 1), their product (node 2) and the sum
(node 3). -/
def sumProductGraph : Graph :=
  .ofList [⟨false, .var, .other, false, [], []⟩, ⟨false, .var, .other, false, [], []⟩,
    ⟨false, .binaryOp, .mult, false, [0, 1], []⟩, ⟨false, .binaryOp, .plus, false, [0, 2], []⟩] 0

/-- A visitor whose ledger lists both operands of the sum. -/
def sumProductLedger : IntegrityVisitor :=
  { IntegrityVisitor.init .silent .noDumpPointers .dontReportRepairableSharing .batchMode with
    sharing := [(3, 0), (3, 1)] }

/-- Repairing both operands of `x + x * y` puts a clone of `x` (node 4) into the sum, then stops
at the product. -/
theorem repair_false_sumProductGraph :
    ∃ v' g', repair .byAddress sumProductLedger sumProductGraph = some (false, v', g') ∧
      g'.childAt 3 0 = some 4 ∧ v' = sumProductLedger ∧
      g'.integrityChecks = sumProductGraph.integrityChecks ∧
      ∃ pre ps post, LedgerOrder.byAddress.order sumProductLedger.sharing = pre ++ ps :: post ∧
        Repaired sumProductGraph g' pre ∧
        ∃ c, sumProductGraph.childAt ps.1 ps.2 = some c ∧ repairableSubTree g' c = some false :=
  have hwf : sumProductGraph.WF ∧ sumProductGraph.Acyclic := by
    unfold sumProductGraph
    exact ⟨Graph.ofList_wf (by decide), Graph.ofList_acyclic (by decide)⟩
  ⟨_, _, rfl, rfl, repair_false .byAddress hwf.1 hwf.2 (by decide) (fun ps hps =>
    Option.isSome_iff_exists.mp ((by decide : ∀ ps ∈ sumProductLedger.sharing,
      (sumProductGraph.childAt ps.1 ps.2).isSome) ps hps)) rfl⟩

/-- Both slots of `x` in `x + x * y`: the second one hits the memo. -/
theorem repairLoop_memo_eq_plain_sumProductGraph :
    repairLoop sumProductGraph [] [(2, 0), (3, 0)] =
      repairLoopPlain sumProductGraph [(2, 0), (3, 0)] :=
  repairLoop_memo_eq_plain (Graph.ofList_wf (by decide)) (Graph.ofList_acyclic (by decide)) _

end TreeIntegrity
