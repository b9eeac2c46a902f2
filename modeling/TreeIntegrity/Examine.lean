import TreeIntegrity.Repair

/-!
`IntegrityVisitor::examine`: visit the node, fail on any counted conflict, and otherwise clear
the ledger in incremental mode or repair in batch mode.

* `examine_spec`: after the visit, `examine` answers `false` exactly when a conflict was
  counted, and then leaves the visitor and the graph alone; repair is reached only with every
  counter zero, and then never fails.
* `SameChecks.examine`: `examine` reads neither the printers nor the stream.
* `visit_batch_tables`: the parent table and the ledger a fresh batch visit leaves: the ledger
  holds exactly the locations of tracked non-error nodes other than their recorded one.
* `examine_false`: **a failed `examine` on a fresh visitor leaves the graph as it was.**
* `examine_batch_iff`: **on a fresh batch visitor `examine` fails no assertion and succeeds
  exactly when no instruction, no statement and no unquiet expression below the root has two
  locations.**
* `examine_batch_rewires`: a batch `examine` changes the graph only at ledger slots, each now
  holding a fresh clone of the same shape; every recorded parent keeps its child and every
  original node its shape.
* `examine_batch_unique`: **after a successful batch `examine` every tracked node below the root
  has exactly one parent slot**, whatever the sharing and the ledger order.
* `examine_of_unshared`: **a tree without sharing passes unchanged** in either mode, with
  nothing written to the log.
* `examine_batch_idempotent`: **the graph a successful batch `examine` returns passes a second
  batch `examine` unchanged**, with nothing written to the log.
* `examine_batch_reports`: every class of fatal conflict below the root leaves its error line
  in the log.
* `examine_untracked`: **a module-scope value is never tracked**: no recorded parent, no ledger
  slot.
-/

namespace TreeIntegrity

/-- `examine(node)`. The fuel of the visit is the size of the graph, which covers every path of
a finite acyclic graph (`depthLt_size`). -/
def examine (ord : LedgerOrder) (g : Graph) (v : IntegrityVisitor) (node : ℕ) :
    Option (Bool × IntegrityVisitor × Graph) :=
  (visit g g.size node v).bind fun v =>
    if v.instShareCount ≠ 0 ∨ v.stmtShareCount ≠ 0 then some (false, v, g)
    else if v.exprShareCount ≠ 0 then some (false, v, g)
    else if v.visitMode = .incrementalMode then some (true, { v with sharing := [] }, g)
    else if v.sharing = [] then some (true, v, g)
    else repair ord v g

variable {ord : LedgerOrder} {g : Graph} {v v₁ : IntegrityVisitor} {n : ℕ}

/-! ### After the visit -/

lemma examine_visit {res : Bool × IntegrityVisitor × Graph} (h : examine ord g v n = some res) :
    ∃ v₁, visit g g.size n v = some v₁ :=
  let ⟨v₁, hv, _⟩ := Option.bind_eq_some.mp h
  ⟨v₁, hv⟩

lemma examine_of_counted (hv : visit g g.size n v = some v₁) (hc : Counted v₁) :
    examine ord g v n = some (false, v₁, g) := by
  simp only [examine, hv, Option.some_bind]
  by_cases h₁ : v₁.instShareCount ≠ 0 ∨ v₁.stmtShareCount ≠ 0
  · rw [if_pos h₁]
  · rw [if_neg h₁, if_pos (by unfold Counted at hc; tauto)]

lemma examine_incremental_of_clean (hv : visit g g.size n v = some v₁) (hc : ¬ Counted v₁)
    (hm : v₁.visitMode = .incrementalMode) :
    examine ord g v n = some (true, { v₁ with sharing := [] }, g) := by
  simp only [Counted, not_or, not_not] at hc
  simp [examine, hv, hc.1, hc.2.1, hc.2.2, hm]

/-- What `examine` returns for the visitor: the visited one, with the ledger cleared in
incremental mode, and with the expression counter reset too after a repair. -/
lemma examine_visitor {res : Bool × IntegrityVisitor × Graph} (h : examine ord g v n = some res) :
    ∃ v₁, visit g g.size n v = some v₁ ∧ (res.2.1 = v₁ ∨ res.2.1 = { v₁ with sharing := [] } ∨
      res.2.1 = { v₁ with sharing := [], exprShareCount := 0 }) := by
  obtain ⟨v₁, hv, h⟩ := Option.bind_eq_some.mp h
  refine ⟨v₁, hv, ?_⟩
  split_ifs at h
  any_goals (cases h; simp)
  rcases repair_visitor h with e | e <;> simp [e]

/-- `examine` writes to the stream only through its visit. -/
lemma examine_ss {res : Bool × IntegrityVisitor × Graph} (h : examine ord g v n = some res) :
    Grows v.ss res.2.1.ss := by
  obtain ⟨v₁, hv, hres⟩ := examine_visitor h
  have hs : res.2.1.ss = v₁.ss := by rcases hres with e | e | e <;> rw [e]
  exact hs ▸ visit_ss hv

/-- **`examine` reads neither the printers nor the stream**: related visitors get the same
verdict and the same graph, and related visitors back. -/
lemma IntegrityVisitor.SameChecks.examine {w : IntegrityVisitor} (h : SameChecks v w) :
    Option.Rel SameResult (TreeIntegrity.examine ord g v n) (TreeIntegrity.examine ord g w n) := by
  unfold TreeIntegrity.examine
  refine optionRel_bind (h.visit _ _) fun v₁ w₁ (h₁ : SameChecks v₁ w₁) => ?_
  -- every test now reads the counters, the mode and the ledger of `v₁` on both sides
  rw [← h₁.instShareCount, ← h₁.stmtShareCount, ← h₁.exprShareCount, ← h₁.visitMode,
    ← h₁.sharing]
  split_ifs
  · exact .some ⟨rfl, h₁, rfl⟩
  · exact .some ⟨rfl, h₁, rfl⟩
  · exact .some ⟨rfl, ⟨h₁.doRepairs, rfl, h₁.nparent, h₁.iparent, rfl, rfl, rfl, rfl⟩, rfl⟩
  · exact .some ⟨rfl, h₁, rfl⟩
  · exact h₁.repair ord g

/-- In batch mode with every counter zero, `examine` repairs, and repair succeeds. -/
lemma examine_batch_of_clean (ord : LedgerOrder) (hwf : g.WF) (hac : g.Acyclic)
    (hv : visit g g.size n v = some v₁)
    (hs : LedgerSound g v₁) (hc : ¬ Counted v₁) (hm : v₁.visitMode = .batchMode) :
    ∃ g', examine ord g v n = some (true, { v₁ with sharing := [], exprShareCount := 0 }, g') ∧
      Repaired g g' (ord.order v₁.sharing) ∧ (v₁.sharing = [] → g' = g) := by
  simp only [Counted, not_or, not_not] at hc
  obtain ⟨hi, hst, he⟩ := hc
  by_cases hsh : v₁.sharing = []
  · refine ⟨g, ?_, by rw [hsh, (ord.perm []).eq_nil]; exact Repaired.refl hwf, fun _ => rfl⟩
    rcases v₁ with ⟨_, _, _, _, _, _, _, _, _, _, _⟩
    simp only at hi hst he hm hsh
    subst hi hst he hm hsh
    simp [examine, hv]
  · obtain ⟨g', hg', h', -⟩ := repair_spec ord hwf hac hs.1 (hs.2 hst he)
    exact ⟨g', by simp [examine, hv, hi, hst, he, hm, hsh, hg'], h', fun h => absurd h hsh⟩

/-- **What `examine` answers**: `false` exactly when the visit counted a conflict, and then with
the visitor and the graph as the visit left them. -/
theorem examine_spec (ord : LedgerOrder) (hwf : g.WF) (hac : g.Acyclic)
    (hv : visit g g.size n v = some v₁)
    (hs : LedgerSound g v₁) :
    ∃ res, examine ord g v n = some res ∧ (res.1 = false ↔ Counted v₁) ∧
      (res.1 = false → res.2 = (v₁, g)) := by
  by_cases hc : Counted v₁
  · exact ⟨_, examine_of_counted hv hc, by simp [hc], fun _ => rfl⟩
  cases hm : v₁.visitMode
  · obtain ⟨g', hg', -⟩ := examine_batch_of_clean ord hwf hac hv hs hc hm
    exact ⟨_, hg', by simp [hc], by simp⟩
  · exact ⟨_, examine_incremental_of_clean hv hc hm, by simp [hc], by simp⟩

/-- A batch `examine` rewires the ledger slots `done`: all of them when it succeeds, none when
it fails. -/
lemma examine_batch_repaired (hwf : g.WF) (hac : g.Acyclic) (hv : visit g g.size n v = some v₁)
    (hs : LedgerSound g v₁) (hm : v₁.visitMode = .batchMode) {res : Bool × IntegrityVisitor × Graph}
    (h : examine ord g v n = some res) :
    ∃ done, Repaired g res.2.2 done ∧ (∀ ps, ps ∈ done ↔ res.1 = true ∧ ps ∈ v₁.sharing) ∧
      res.2.1.nparent = v₁.nparent ∧ (v₁.sharing = [] → res.2.2 = g) := by
  by_cases hc : Counted v₁
  · rw [examine_of_counted hv hc, Option.some.injEq] at h
    subst h
    exact ⟨[], Repaired.refl hwf, by simp, rfl, fun _ => rfl⟩
  · obtain ⟨g', hg', h', he⟩ := examine_batch_of_clean ord hwf hac hv hs hc hm
    rw [hg', Option.some.injEq] at h
    subst h
    exact ⟨_, h', fun ps => by simp [(ord.perm _).mem_iff], rfl, he⟩

/-! ### A fresh visitor -/

/-- The invariants of `Ledger.lean` after a batch visit of `r` by a fresh visitor, over the
edges below `r`. -/
lemma visit_init_batch {be : Printers} {pd : PtrDisp} {rd : RepairDisp} {fuel r : ℕ}
    (hv : visit g fuel r (IntegrityVisitor.init be pd rd .batchMode) = some v₁) :
    ((Tracks g v₁ (g.EdgesFrom r) ∧ LedgerExact g v₁ (g.EdgesFrom r)) ∧ LedgerSound g v₁ ∧
      Logged v₁) ∧ v₁.visitMode = .batchMode ∧ v₁.doRepairs = rd := by
  have hI := (exact_edgeInvariant.and (sound_edgeInvariant.and logged_edgeInvariant)).withConfig
    (g := g) .batchMode rd
  simpa using visit_batch (hI.below r) (fun _ _ h => h.2.1) .refl ⟨⟨⟨Tracks.init be pd rd _,
    LedgerExact.init be pd rd _⟩, LedgerSound.init be pd rd _, Logged.init be pd rd _⟩, rfl, rfl⟩ hv

/-! ### Two small graphs -/

/-- `*x + x`: the variable `x` (node 0) is an operand of the dereference (node 1) and of the
sum (node 2). -/
def sharedVarGraph : Graph :=
  .ofList [⟨false, .var, .other, false, [], []⟩, ⟨false, .deref, .other, false, [0], []⟩,
    ⟨false, .binaryOp, .plus, false, [1, 0], []⟩] 0

lemma sharedVarGraph_wf : sharedVarGraph.WF ∧ sharedVarGraph.Acyclic := by
  unfold sharedVarGraph
  exact ⟨Graph.ofList_wf (by decide), Graph.ofList_acyclic (by decide)⟩

/-- A block (node 1) listing the statement `s` (node 0) twice. -/
def sharedStmtGraph : Graph :=
  .ofList [⟨true, .other, .other, false, [], []⟩, ⟨true, .other, .other, false, [0, 0], []⟩] 0

lemma sharedStmtGraph_wf : sharedStmtGraph.WF ∧ sharedStmtGraph.Acyclic := by
  unfold sharedStmtGraph
  exact ⟨Graph.ofList_wf (by decide), Graph.ofList_acyclic (by decide)⟩

/-- **What a batch visit computes.** After the visit that `examine` makes with a fresh batch
visitor, the recorded location of a node is an edge below the root; a tracked node at a
location below the root has one recorded; and the ledger holds exactly the other locations below
the root of the tracked non-error nodes. -/
theorem visit_batch_tables (be : Printers) (pd : PtrDisp) (rd : RepairDisp) {r : ℕ}
    (hv : visit g g.size r (IntegrityVisitor.init be pd rd .batchMode) = some v₁) :
    (∀ c (ps : ParSlot), v₁.nparent c = some ps → g.Reach r ps.1 ∧ g.childAt ps.1 ps.2 = some c) ∧
    (∀ c (ps : ParSlot), g.Reach r ps.1 → g.childAt ps.1 ps.2 = some c →
      shouldBeTracked g c = true → v₁.nparent c ≠ none) ∧
    ∀ ps : ParSlot, ps ∈ v₁.sharing ↔ ∃ c, g.Reach r ps.1 ∧ g.childAt ps.1 ps.2 = some c ∧
      shouldBeTracked g c = true ∧ (g.node c).flavor ≠ .error ∧ v₁.nparent c ≠ some ps := by
  obtain ⟨⟨⟨ht, hx⟩, -, -⟩, -, -⟩ := visit_init_batch hv
  refine ⟨fun c ⟨p, i⟩ hps => ht.nparent_mem c _ hps,
    fun c ⟨p, i⟩ hp hc => ht.nparent_ne_none c _ ⟨hp, hc⟩, fun ⟨p, i⟩ => ⟨fun hps => ?_,
      fun ⟨c, hp, hc, htr, her, hne⟩ => hx c _ ⟨hp, hc⟩ htr her hne⟩⟩
  obtain ⟨c, ⟨hp, hc⟩, ⟨htr, her, -⟩, hne⟩ := ht.sharing _ hps
  exact ⟨c, hp, hc, htr, her, hne⟩

/-- The batch visit of `*x + x` records the dereference as the first parent of `x` and puts the
second operand of the sum into the ledger. -/
theorem visit_batch_tables_sharedVarGraph :
    ∃ v₁, visit sharedVarGraph sharedVarGraph.size 2 (IntegrityVisitor.init .silent
        .noDumpPointers .dontReportRepairableSharing .batchMode) = some v₁ ∧
      v₁.nparent 0 = some (1, 0) ∧ v₁.sharing = [(2, 1)] ∧
      (∀ c (ps : ParSlot), v₁.nparent c = some ps →
        sharedVarGraph.Reach 2 ps.1 ∧ sharedVarGraph.childAt ps.1 ps.2 = some c) ∧
      (∀ c (ps : ParSlot), sharedVarGraph.Reach 2 ps.1 → sharedVarGraph.childAt ps.1 ps.2 = some c →
        shouldBeTracked sharedVarGraph c = true → v₁.nparent c ≠ none) ∧
      ∀ ps : ParSlot, ps ∈ v₁.sharing ↔ ∃ c, sharedVarGraph.Reach 2 ps.1 ∧
        sharedVarGraph.childAt ps.1 ps.2 = some c ∧ shouldBeTracked sharedVarGraph c = true ∧
          (sharedVarGraph.node c).flavor ≠ .error ∧ v₁.nparent c ≠ some ps :=
  ⟨_, rfl, rfl, rfl,
    visit_batch_tables .silent .noDumpPointers .dontReportRepairableSharing rfl⟩

/-! ### A fresh visitor, continued -/

/-- **A failed `examine` changes nothing.** On a fresh visitor, in either mode and either repair
setting, `examine` answers `false` only through a non-zero counter, before any repair, so the
graph is left exactly as it was: repair's own `return false` is never taken. -/
theorem examine_false (ord : LedgerOrder) (hwf : g.WF) (hac : g.Acyclic) (be : Printers)
    (pd : PtrDisp) (rd : RepairDisp) (vm : VisitMode) {r : ℕ} {v' : IntegrityVisitor}
    {g' : Graph} (h : examine ord g (IntegrityVisitor.init be pd rd vm) r = some (false, v', g')) :
    g' = g ∧ Counted v' := by
  obtain ⟨v₁, hv⟩ := examine_visit h
  obtain ⟨res, hres, hf, hst⟩ := examine_spec ord hwf hac hv
    (visit_keeps sound_edgeInvariant (LedgerSound.init be pd rd vm) hv)
  rw [h, Option.some.injEq] at hres
  subst hres
  obtain ⟨rfl, rfl⟩ := Prod.mk.inj (hst rfl)
  exact ⟨rfl, hf.1 rfl⟩

/-- Examining the block fails on the shared statement and leaves the graph alone. -/
theorem examine_sharedStmtGraph :
    ∃ v' g', examine .byAddress sharedStmtGraph (IntegrityVisitor.init .silent .noDumpPointers
        .dontReportRepairableSharing .batchMode) 1 = some (false, v', g') ∧
      g' = sharedStmtGraph ∧ Counted v' :=
  ⟨_, _, rfl, examine_false (g := sharedStmtGraph) (r := 1) .byAddress sharedStmtGraph_wf.1
    sharedStmtGraph_wf.2 .silent .noDumpPointers .dontReportRepairableSharing .batchMode rfl⟩

/-- **A fresh batch `examine` completes and answers by the fatal conflicts below the root**,
when `repairableSubTree` answers on every new conflict the visit meets. -/
theorem examine_batch_verdict (ord : LedgerOrder) (hwf : g.WF) (hac : g.Acyclic) {r : ℕ}
    (hr : r < g.size) (be : Printers) (pd : PtrDisp) (rd : RepairDisp)
    (hD : ∀ v S c p i, Tracks g v S → g.Reach r p → g.childAt p i = some c →
      v.NewConflict g c p i → (g.node c).isStmt = false → rd = .dontReportRepairableSharing →
        repairableSubTree g c ≠ none) :
    ∃ res, examine ord g (IntegrityVisitor.init be pd rd .batchMode) r = some res ∧
      (res.1 = true ↔ ¬ Fatal g rd (g.EdgesFrom r)) := by
  obtain ⟨v₁, hv⟩ := Option.ne_none_iff_exists'.mp <|
    visit_batch_ne_none ((tracks_edgeInvariant.withConfig .batchMode rd).below r)
      (fun _ _ h => h.2.1)
      (fun v S c p i ⟨ht, _, hd⟩ hp hc => IntegrityVisitor.setParent_ne_none
        fun hnew hs hdr => hD v S c p i ht hp hc hnew hs (hd ▸ hdr)) .refl
      (Graph.depthLt_size hwf hac hr) (v := IntegrityVisitor.init be pd rd .batchMode) (S := ∅)
      ⟨Tracks.init be pd rd _, rfl, rfl⟩
  obtain ⟨⟨⟨ht, -⟩, hs, -⟩, -, hrd⟩ := visit_init_batch hv
  obtain ⟨res, hres, hf, -⟩ := examine_spec ord hwf hac hv hs
  exact ⟨res, hres, by rw [← Bool.not_eq_false, hf, ht.counted_iff, hrd]⟩

/-- A completed fresh batch `examine` has classified every conflicted expression below the root
that it was asked about. -/
lemma examine_batch_defined (be : Printers) (pd : PtrDisp) (rd : RepairDisp) {r : ℕ}
    {res : Bool × IntegrityVisitor × Graph}
    (h : examine ord g (IntegrityVisitor.init be pd rd .batchMode) r = some res) :
    ∀ c, Conflicted g (g.EdgesFrom r) c → (g.node c).isStmt = false →
      rd = .dontReportRepairableSharing → repairableSubTree g c ≠ none := by
  obtain ⟨v₁, hv⟩ := examine_visit h
  obtain ⟨⟨⟨ht, -⟩, -, -⟩, -, hrd⟩ := visit_init_batch hv
  exact fun c hc hs hd => ht.defined c hc hs (hrd.trans hd)

/-- **`examine` on a fresh batch visitor fails no assertion and succeeds exactly when** (a) no
instruction and (b) no tracked non-error statement sits at two locations below the root, and (c)
every tracked non-error expression that does has quiet sharing: reporting suppressed and the
subtree accepted by `repairableSubTree`. The precondition: the children of acceptable nodes are
expressions. -/
theorem examine_batch_iff (ord : LedgerOrder) (hwf : g.WF) (hac : g.Acyclic) {r : ℕ}
    (hr : r < g.size) (be : Printers) (pd : PtrDisp) (rd : RepairDisp)
    (hpre : ∀ n, (g.node n).flavor ∈ acceptable →
      ∀ c ∈ (g.node n).children, (g.node c).isStmt = false) :
    ∃ res, examine ord g (IntegrityVisitor.init be pd rd .batchMode) r = some res ∧
      (res.1 = true ↔ (¬ ∃ k, InstSharedIn (g.EdgesFrom r) k) ∧
        (¬ ∃ c, Conflicted g (g.EdgesFrom r) c ∧ (g.node c).isStmt = true) ∧
        ∀ c, Conflicted g (g.EdgesFrom r) c → (g.node c).isStmt = false → Quiet g rd c) := by
  have hrst : ∀ c, repairableSubTree g c ≠ none := fun c => by
    obtain ⟨b, hb, -⟩ := repairableSubTree_spec hwf (e := c) fun n _ => hpre n
    simp [hb]
  obtain ⟨res, hres, hv⟩ := examine_batch_verdict ord hwf hac hr be pd rd
    fun _ _ c _ _ _ _ _ _ _ _ => hrst c
  refine ⟨res, hres, hv.trans ?_⟩
  simp only [Fatal, not_or, not_exists, not_and, not_not]

/-- On `*x + x` with repairable sharing reported, the precondition holds. -/
theorem examine_sharedVarGraph_iff :
    ∃ res, examine .byAddress sharedVarGraph (IntegrityVisitor.init .silent .noDumpPointers
        .reportRepairableSharing .batchMode) 2 = some res ∧
      (res.1 = true ↔ (¬ ∃ k, InstSharedIn (sharedVarGraph.EdgesFrom 2) k) ∧
        (¬ ∃ c, Conflicted sharedVarGraph (sharedVarGraph.EdgesFrom 2) c ∧
          (sharedVarGraph.node c).isStmt = true) ∧
        ∀ c, Conflicted sharedVarGraph (sharedVarGraph.EdgesFrom 2) c →
          (sharedVarGraph.node c).isStmt = false →
            Quiet sharedVarGraph .reportRepairableSharing c) :=
  examine_batch_iff .byAddress sharedVarGraph_wf.1 sharedVarGraph_wf.2 (by decide) .silent
    .noDumpPointers .reportRepairableSharing
    (Graph.ofList_forall (P := fun b => b.flavor ∈ acceptable →
      ∀ c ∈ b.children, (sharedVarGraph.node c).isStmt = false) (by decide) (by decide))

/-! ### What a batch `examine` does to the graph -/

lemma shouldBeTracked_eq_of_label {g' : Graph} {n' : ℕ}
    (h : (g'.node n').label = (g.node n).label) : shouldBeTracked g' n' = shouldBeTracked g n := by
  have h1 : (g'.node n').isStmt = (g.node n).isStmt := congrArg Label.isStmt h
  have h2 : (g'.node n').moduleScopeValue = (g.node n).moduleScopeValue :=
    congrArg Label.moduleScopeValue h
  simp [shouldBeTracked, h1, h2]

/-- **A batch `examine` rewires only ledger slots, to fresh clones of the same shape.** For any
ledger order, on a fresh visitor: an original node changes only in its children; a slot that
changes is a ledger slot of the visit and now holds a fresh node of the shape of its old child;
every tracked node below the root other than the root has a recorded location, and every
recorded location still holds its child; every original node keeps its shape; and a graph in
which no tracked node is shared is not changed at all. -/
theorem examine_batch_rewires (ord : LedgerOrder) (hwf : g.WF) (hac : g.Acyclic) (be : Printers)
    (pd : PtrDisp) (rd : RepairDisp) {r : ℕ} {res : Bool × IntegrityVisitor × Graph}
    (h : examine ord g (IntegrityVisitor.init be pd rd .batchMode) r = some res) :
    ∃ v₁, visit g g.size r (IntegrityVisitor.init be pd rd .batchMode) = some v₁ ∧
      (∀ p < g.size, ∃ kids, res.2.2.node p = { g.node p with children := kids }) ∧
      (∀ p < g.size, ∀ i, res.2.2.childAt p i ≠ g.childAt p i → (p, i) ∈ v₁.sharing ∧
        ∃ c c', g.childAt p i = some c ∧ res.2.2.childAt p i = some c' ∧ g.size ≤ c' ∧
          SameShape res.2.2 c' g c) ∧
      (∀ c, g.Reach r c → c ≠ r → shouldBeTracked g c = true → res.2.1.nparent c ≠ none) ∧
      (∀ c ps, res.2.1.nparent c = some ps → res.2.2.childAt ps.1 ps.2 = some c) ∧
      (∀ m < g.size, SameShape res.2.2 m g m) ∧
      ((∀ c, ¬ Conflicted g (g.EdgesFrom r) c) → res.2.2 = g) := by
  obtain ⟨v₁, hv⟩ := examine_visit h
  obtain ⟨⟨⟨ht, -⟩, hs, -⟩, hm, -⟩ := visit_init_batch hv
  obtain ⟨done, hrep, hdone, hnp, hsame⟩ := examine_batch_repaired hwf hac hv hs hm h
  refine ⟨v₁, hv, fun p hp => ⟨_, hrep.only_kids p hp⟩, fun p hp i hne => ?_,
    fun c hc hcr htr => ?_, fun c ⟨p, i⟩ hps => ?_, hrep.shape, fun hno => hsame ?_⟩
  · -- a changed slot is a rewired ledger slot
    have hd : (p, i) ∈ done := by_contra fun hd => hne (hrep.kept p hp i hd)
    have hsh := ((hdone _).1 hd).2
    obtain ⟨c, hcS, -, -⟩ := ht.sharing _ hsh
    have hc : g.childAt p i = some c := ht.holds _ hcS
    obtain ⟨c', hc', hc'0⟩ := hrep.rewired _ hd
    obtain ⟨c'', hc'', hs''⟩ := (hrep.shape p hp).childAt hc'
    rw [hc, Option.some.injEq] at hc''
    subst hc''
    exact ⟨hsh, c, c', hc, hc', hc'0, hs''⟩
  · -- a node below the root has a recorded location
    obtain ⟨p, hp, hpc⟩ := (Relation.ReflTransGen.cases_tail hc).resolve_left hcr
    obtain ⟨i, hi⟩ := Graph.child_iff_childAt.mp hpc
    rw [hnp]
    exact ht.nparent_ne_none c (p, i) ⟨hp, hi⟩ htr
  · -- a recorded location is not a ledger slot, so it keeps its child
    rw [hnp] at hps
    have hc : g.childAt p i = some c := (ht.holds _ (ht.nparent_mem c _ hps) : _)
    have hd : (p, i) ∉ done := fun hd => by
      obtain ⟨c', hc', -, hne⟩ := ht.sharing _ ((hdone _).1 hd).2
      exact hne (ht.child_eq hc hc' ▸ hps)
    rw [hrep.kept p (hwf.child_lt p c (Graph.reach_of_childAt hc)).1 i hd, hc]
  · -- no conflict, no ledger
    exact List.eq_nil_iff_forall_not_mem.mpr fun ps hps =>
      let ⟨c, _, hc, _⟩ := ht.sharing ps hps
      hno c hc

/-- Repairing `*x + x` rewires the second operand of the sum. -/
theorem examine_sharedVarGraph_rewires :
    ∃ res, examine .byAddress sharedVarGraph (IntegrityVisitor.init .silent .noDumpPointers
        .dontReportRepairableSharing .batchMode) 2 = some res ∧
    ∃ v₁, visit sharedVarGraph sharedVarGraph.size 2 (IntegrityVisitor.init .silent
        .noDumpPointers .dontReportRepairableSharing .batchMode) = some v₁ ∧
      (∀ p < sharedVarGraph.size, ∃ kids,
        res.2.2.node p = { sharedVarGraph.node p with children := kids }) ∧
      (∀ p < sharedVarGraph.size, ∀ i, res.2.2.childAt p i ≠ sharedVarGraph.childAt p i →
        (p, i) ∈ v₁.sharing ∧ ∃ c c', sharedVarGraph.childAt p i = some c ∧
          res.2.2.childAt p i = some c' ∧ sharedVarGraph.size ≤ c' ∧
            SameShape res.2.2 c' sharedVarGraph c) ∧
      (∀ c, sharedVarGraph.Reach 2 c → c ≠ 2 → shouldBeTracked sharedVarGraph c = true →
        res.2.1.nparent c ≠ none) ∧
      (∀ c ps, res.2.1.nparent c = some ps → res.2.2.childAt ps.1 ps.2 = some c) ∧
      (∀ m < sharedVarGraph.size, SameShape res.2.2 m sharedVarGraph m) ∧
      ((∀ c, ¬ Conflicted sharedVarGraph (sharedVarGraph.EdgesFrom 2) c) →
        res.2.2 = sharedVarGraph) :=
  ⟨_, rfl, examine_batch_rewires (g := sharedVarGraph) (r := 2) .byAddress sharedVarGraph_wf.1
    sharedVarGraph_wf.2 .silent .noDumpPointers .dontReportRepairableSharing rfl⟩

/-- Rewiring every ledger slot of a fresh batch visit of `r` leaves each tracked non-error node
below `r`, other than `r`, at one slot below `r`: an original node keeps only its recorded
location, and a fresh node sits at one slot. -/
lemma slot_unique_of_repaired {be : Printers} {pd : PtrDisp} {rd : RepairDisp} {r : ℕ}
    {g' : Graph} {done : List ParSlot}
    (hv : visit g g.size r (IntegrityVisitor.init be pd rd .batchMode) = some v₁)
    (hrep : Repaired g g' done) (hdone : ∀ ps ∈ v₁.sharing, ps ∈ done) :
    ∀ n, g'.Reach r n → n ≠ r → shouldBeTracked g' n = true → (g'.node n).flavor ≠ .error →
      ∃! ps : ParSlot, g'.Reach r ps.1 ∧ g'.childAt ps.1 ps.2 = some n := by
  obtain ⟨⟨⟨-, hx⟩, -, -⟩, -, -⟩ := visit_init_batch hv
  intro n hn hne htr her
  -- a location below the root of an original node is its recorded location
  have hrec : ∀ ps : ParSlot, g'.Reach r ps.1 → g'.childAt ps.1 ps.2 = some n → n < g.size →
      v₁.nparent n = some ps := by
    rintro ⟨p, i⟩ hp hpn hn0
    obtain ⟨hp0, hd, hc⟩ := hrep.old_slot hpn hn0
    have hl := (hrep.shape n hn0).label_eq
    by_contra hne'
    exact hd (hdone _ (hx n (p, i) ⟨hrep.reach_old hp hp0, hc⟩
      (by rwa [← shouldBeTracked_eq_of_label hl]) ((hrep.shape n hn0).flavor_eq ▸ her) hne'))
  obtain ⟨p, hp, hpn⟩ := (Relation.ReflTransGen.cases_tail hn).resolve_left hne
  obtain ⟨i, hi⟩ := Graph.child_iff_childAt.mp hpn
  refine ⟨(p, i), ⟨hp, hi⟩, fun ps ⟨hps, hpsn⟩ => ?_⟩
  by_cases hn0 : n < g.size
  · exact Option.some.inj ((hrec ps hps hpsn hn0).symm.trans (hrec (p, i) hp hi hn0))
  · exact Prod.ext_iff.mpr (hrep.unique n (by omega) _ _ _ _ hpsn hi)

/-- **After a successful batch `examine` every tracked node below the root has exactly one parent
slot below the root**, for any ledger order, any sharing pattern and either repair setting:
an original node keeps only its recorded location, and a clone sits at one slot. -/
theorem examine_batch_unique (ord : LedgerOrder) (hwf : g.WF) (hac : g.Acyclic) (be : Printers)
    (pd : PtrDisp) (rd : RepairDisp) {r : ℕ} {v' : IntegrityVisitor} {g' : Graph}
    (h : examine ord g (IntegrityVisitor.init be pd rd .batchMode) r = some (true, v', g')) :
    ∀ n, g'.Reach r n → n ≠ r → shouldBeTracked g' n = true → (g'.node n).flavor ≠ .error →
      ∃! ps : ParSlot, g'.Reach r ps.1 ∧ g'.childAt ps.1 ps.2 = some n := by
  obtain ⟨v₁, hv⟩ := examine_visit h
  obtain ⟨⟨-, hs, -⟩, hm, -⟩ := visit_init_batch hv
  obtain ⟨done, hrep, hdone, -, -⟩ := examine_batch_repaired hwf hac hv hs hm h
  exact slot_unique_of_repaired hv hrep fun ps hps => (hdone ps).2 ⟨rfl, hps⟩

/-- After repairing `*x + x`, every tracked node below the sum has one parent slot. -/
theorem examine_sharedVarGraph_unique :
    ∃ v' g', examine .byAddress sharedVarGraph (IntegrityVisitor.init .silent .noDumpPointers
        .dontReportRepairableSharing .batchMode) 2 = some (true, v', g') ∧
      ∀ n, g'.Reach 2 n → n ≠ 2 → shouldBeTracked g' n = true → (g'.node n).flavor ≠ .error →
        ∃! ps : ParSlot, g'.Reach 2 ps.1 ∧ g'.childAt ps.1 ps.2 = some n :=
  ⟨_, _, rfl, examine_batch_unique (g := sharedVarGraph) (r := 2) .byAddress sharedVarGraph_wf.1
    sharedVarGraph_wf.2 .silent .noDumpPointers .dontReportRepairableSharing rfl⟩

/-! ### Examining the repaired graph again -/

/-- On a graph where no tracked non-error node and no instruction is shared below `r`, a fresh
batch `examine` of `r` succeeds, changes nothing and writes nothing. The visit meets no
conflict: a recorded location is a registration of this visit, so it lies below `r`. -/
lemma examine_batch_of_unshared (ord : LedgerOrder) (hwf : g.WF) (hac : g.Acyclic) {r : ℕ}
    (hr : r < g.size) (be : Printers) (pd : PtrDisp) (rd : RepairDisp)
    (hc : ∀ c, ¬ Conflicted g (g.EdgesFrom r) c) (hk : ∀ k, ¬ InstSharedIn (g.EdgesFrom r) k) :
    ∃ v', examine ord g (IntegrityVisitor.init be pd rd .batchMode) r = some (true, v', g) ∧
      v'.ss = "" := by
  obtain ⟨v₁, hv⟩ := Option.ne_none_iff_exists'.mp <|
    visit_batch_ne_none ((tracks_edgeInvariant.withConfig .batchMode rd).within r)
      (fun _ _ h => h.1.2.1)
      (fun v S c p i ⟨⟨ht, _⟩, hS⟩ hp hcp => IntegrityVisitor.setParent_ne_none
        fun ⟨htr, ⟨q, hq, hqne⟩, her, _⟩ _ _ =>
          absurd ⟨htr, her, q, (p, i), hqne, hS (ht.nparent_mem c q hq), hp, hcp⟩ (hc c))
      .refl (Graph.depthLt_size hwf hac hr) (v := IntegrityVisitor.init be pd rd .batchMode)
      (S := ∅) ⟨⟨Tracks.init be pd rd _, rfl, rfl⟩, Set.empty_subset _⟩
  obtain ⟨⟨⟨ht, -⟩, hs, hl⟩, hm, -⟩ := visit_init_batch hv
  have hnc : ¬ Counted v₁ := fun hcnt => by
    rcases ht.counted_iff.mp hcnt with ⟨k, hk'⟩ | ⟨c, hc', -⟩ | ⟨c, hc', -⟩
    exacts [hk k hk', hc c hc', hc c hc']
  have hsh : v₁.sharing = [] := List.eq_nil_iff_forall_not_mem.mpr fun ps hps =>
    let ⟨c, _, hc', _⟩ := ht.sharing ps hps
    hc c hc'
  obtain ⟨g'', hg, -, he⟩ := examine_batch_of_clean ord hwf hac hv hs hnc hm
  obtain rfl := he hsh
  simp only [Counted, not_or, not_not] at hnc
  exact ⟨_, hg, hl.mpr hnc⟩

/-- **A tree without sharing passes the check unchanged**, in either mode: when no tracked node
other than an error node and no instruction has two locations below `r`, a fresh `examine` of
`r` answers `true`, changes nothing and writes nothing. An incremental visit registers only the
root's own edges, which lie below it. -/
theorem examine_of_unshared (ord : LedgerOrder) (hwf : g.WF) (hac : g.Acyclic) {r : ℕ}
    (hr : r < g.size) (be : Printers) (pd : PtrDisp) (rd : RepairDisp) (vm : VisitMode)
    (hc : ∀ c, ¬ Conflicted g (g.EdgesFrom r) c) (hk : ∀ k, ¬ InstSharedIn (g.EdgesFrom r) k) :
    ∃ v', examine ord g (IntegrityVisitor.init be pd rd vm) r = some (true, v', g) ∧
      v'.ss = "" := by
  cases vm with
  | batchMode => exact examine_batch_of_unshared ord hwf hac hr be pd rd hc hk
  | incrementalMode =>
    have hT := Tracks.init (g := g) be pd rd .incrementalMode
    obtain ⟨v₁, hv⟩ := Option.ne_none_iff_exists'.mp <|
      visit_incremental_ne_none ((tracks_edgeInvariant.withConfig .incrementalMode rd).within r)
        (fun _ _ h => h.1.2.1)
        (fun v S c i ⟨⟨ht, _⟩, hS⟩ hcp => IntegrityVisitor.setParent_ne_none
          fun ⟨htr, ⟨q, hq, hqne⟩, her, _⟩ _ _ =>
            absurd ⟨htr, her, q, (r, i), hqne, hS (ht.nparent_mem c q hq), .refl, hcp⟩ (hc c))
        (Nat.zero_lt_of_lt hr) (S := ∅) ⟨⟨hT, rfl, rfl⟩, Set.empty_subset _⟩
    obtain ⟨ht, hm, -⟩ := visit_incremental (tracks_edgeInvariant.withConfig .incrementalMode rd)
      (fun _ _ h => h.2.1) ⟨hT, rfl, rfl⟩ hv
    -- what the visit registered lies below the root, where nothing is shared
    have hsub : ∅ ∪ g.OwnEdges r ⊆ g.EdgesFrom r := by
      rw [Set.empty_union]
      exact Graph.ownEdges_subset r
    have hnc : ¬ Counted v₁ := fun hcnt => by
      rcases ht.counted_iff.mp hcnt with ⟨k, hk'⟩ | ⟨c, hc', -⟩ | ⟨c, hc', -⟩
      exacts [hk k (hk'.mono hsub), hc c (hc'.mono hsub), hc c (hc'.mono hsub)]
    have hl := visit_keeps logged_edgeInvariant (Logged.init be pd rd .incrementalMode) hv
    simp only [Counted, not_or, not_not] at hnc
    exact ⟨_, examine_incremental_of_clean hv (by simp [Counted, hnc]) hm, hl.mpr hnc⟩

/-- Below the dereference of `*x + x` the only edge is the one to `x`. -/
lemma sharedVarGraph_edgesFrom_deref : sharedVarGraph.EdgesFrom 1 = {Reg.node 0 (1, 0)} := by
  have hn0 : sharedVarGraph.node 0 = ⟨false, .var, .other, false, [], []⟩ := rfl
  have hn1 : sharedVarGraph.node 1 = ⟨false, .deref, .other, false, [0], []⟩ := rfl
  have h0 : sharedVarGraph.EdgesFrom 0 = ∅ := by
    rw [Graph.edgesFrom_eq, hn0]
    simp [Graph.kidsRegs, instRegs]
  rw [Graph.edgesFrom_eq, hn1]
  simp [Graph.kidsRegs, instRegs, h0]

/-- Examining the dereference `*x` of `*x + x` incrementally: nothing is shared below it. -/
theorem examine_sharedVarGraph_deref_unshared :
    ∃ v', examine .byAddress sharedVarGraph (IntegrityVisitor.init .silent .noDumpPointers
        .dontReportRepairableSharing .incrementalMode) 1 = some (true, v', sharedVarGraph) ∧
      v'.ss = "" :=
  examine_of_unshared .byAddress sharedVarGraph_wf.1 sharedVarGraph_wf.2 (by decide) .silent
    .noDumpPointers .dontReportRepairableSharing .incrementalMode
    (fun c ⟨_, _, ps, ps', hne, h1, h2⟩ => by
      simp only [sharedVarGraph_edgesFrom_deref, Set.mem_singleton_iff, Reg.node.injEq] at h1 h2
      exact hne (h1.2.trans h2.2.symm))
    (fun k ⟨_, _, _, h1, _⟩ => by simp [sharedVarGraph_edgesFrom_deref] at h1)

/-- **A successful batch `examine` leaves a graph that passes the check unchanged.** After
`examine` answers `true` on a fresh batch visitor, a fresh batch visitor of any setting and any
ledger order examining the root of the repaired graph answers `true`, changes nothing and
writes nothing: no tracked node and no instruction below the root is shared any more. The
instruction handles of the graph are those handed out, so the clones' handles are new. -/
theorem examine_batch_idempotent (ord ord' : LedgerOrder) (hwf : g.WF) (hac : g.Acyclic)
    (hinst : g.InstAllocated) {r : ℕ} (hr : r < g.size) (be be' : Printers) (pd pd' : PtrDisp)
    (rd rd' : RepairDisp) {v' : IntegrityVisitor} {g' : Graph}
    (h : examine ord g (IntegrityVisitor.init be pd rd .batchMode) r = some (true, v', g')) :
    ∃ v'', examine ord' g' (IntegrityVisitor.init be' pd' rd' .batchMode) r =
      some (true, v'', g') ∧ v''.ss = "" := by
  obtain ⟨v₁, hv⟩ := examine_visit h
  obtain ⟨⟨⟨ht, -⟩, hs, -⟩, hm, -⟩ := visit_init_batch hv
  obtain ⟨done, hrep, hdone, -, -⟩ := examine_batch_repaired hwf hac hv hs hm h
  obtain ⟨res, hres, hf, -⟩ := examine_spec ord hwf hac hv hs
  rw [h, Option.some.injEq] at hres
  subst hres
  have hnc : ¬ Counted v₁ := fun hc => by simpa using hf.2 hc
  have hac' := hrep.acyclic hwf hac
  refine examine_batch_of_unshared ord' hrep.wf hac' (hr.trans_le hrep.size_le) be' pd' rd'
    (fun c ⟨ht', her, ps, ps', hne, ⟨hp, hc⟩, ⟨hp', hc'⟩⟩ => ?_)
    fun k hk => hnc (.inl (ht.inst.2 ⟨k, hrep.instSharedIn_old hinst hr hk⟩))
  -- a shared node below the root: the root would lie on a cycle, another node has one slot
  by_cases hcr : c = r
  · subst hcr
    exact hac' c (Relation.TransGen.tail' hp (Graph.reach_of_childAt hc))
  · obtain ⟨_, -, huniq⟩ := slot_unique_of_repaired hv hrep
      (fun ps hps => (hdone ps).2 ⟨rfl, hps⟩) c (hp.tail (Graph.reach_of_childAt hc)) hcr ht' her
    exact hne ((huniq ps ⟨hp, hc⟩).trans (huniq ps' ⟨hp', hc'⟩).symm)

/-- Repairing `*x + x` gives a tree that passes a second check, even with sharing reported. -/
theorem examine_sharedVarGraph_idempotent :
    ∃ v' g', examine .byAddress sharedVarGraph (IntegrityVisitor.init .silent .noDumpPointers
        .dontReportRepairableSharing .batchMode) 2 = some (true, v', g') ∧
      ∃ v'', examine .byAddress g' (IntegrityVisitor.init .silent .noDumpPointers
        .reportRepairableSharing .batchMode) 2 = some (true, v'', g') ∧ v''.ss = "" :=
  ⟨_, _, rfl, examine_batch_idempotent (g := sharedVarGraph) .byAddress .byAddress
    sharedVarGraph_wf.1 sharedVarGraph_wf.2 (by decide) (by decide) .silent .silent
    .noDumpPointers .noDumpPointers .dontReportRepairableSharing .reportRepairableSharing rfl⟩

/-! ### The log -/

/-- **A batch `examine` names every class of fatal conflict in its log**: on a fresh visitor, a
shared instruction, a shared statement and a shared expression whose sharing is not quiet below
the root each leave their error line in the diagnostic stream of the returned visitor. -/
theorem examine_batch_reports (ord : LedgerOrder) (hwf : g.WF) (hac : g.Acyclic) (be : Printers)
    (pd : PtrDisp) (rd : RepairDisp) {r : ℕ} {res : Bool × IntegrityVisitor × Graph}
    (h : examine ord g (IntegrityVisitor.init be pd rd .batchMode) r = some res) :
    ((∃ k, InstSharedIn (g.EdgesFrom r) k) →
      Occurs "error: instruction has multiple parents\n" res.2.1.ss) ∧
    ((∃ c, Conflicted g (g.EdgesFrom r) c ∧ (g.node c).isStmt = true) →
      Occurs "error: stmt has multiple parents\n" res.2.1.ss) ∧
    ((∃ c, Conflicted g (g.EdgesFrom r) c ∧ (g.node c).isStmt = false ∧ ¬ Quiet g rd c) →
      Occurs "error: expr has multiple parents\n" res.2.1.ss) := by
  obtain ⟨v₁, hv⟩ := examine_visit h
  obtain ⟨⟨⟨ht, -⟩, hs, -⟩, -, rfl⟩ := visit_init_batch hv
  have hrep := visit_keeps reported_edgeInvariant (Reported.init be pd _ _) hv
  obtain ⟨res', hres, hf, hst⟩ := examine_spec ord hwf hac hv hs
  rw [h, Option.some.injEq] at hres
  subst hres
  -- a counted conflict makes `examine` return the visitor of the visit
  have hv₁ : Counted v₁ → res.2.1 = v₁ := fun hc => (Prod.mk.inj (hst (hf.2 hc))).1
  refine ⟨fun hk => ?_, fun hc => ?_, fun hc => ?_⟩
  · have hi := ht.inst.2 hk
    rw [hv₁ (.inl hi)]; exact hrep.1 hi
  · have hi := ht.stmt.2 hc
    rw [hv₁ (.inr (.inl hi))]; exact hrep.2.1 hi
  · have hi := ht.expr.2 hc
    rw [hv₁ (.inr (.inr hi))]; exact hrep.2.2 hi

/-- The log of the block that lists `s` twice reports a shared statement. -/
theorem examine_sharedStmtGraph_reports :
    ∃ res, examine .byAddress sharedStmtGraph (IntegrityVisitor.init .silent .noDumpPointers
        .dontReportRepairableSharing .batchMode) 1 = some res ∧
      Occurs "error: stmt has multiple parents\n" res.2.1.ss :=
  have hc : Conflicted sharedStmtGraph (sharedStmtGraph.EdgesFrom 1) 0 :=
    ⟨by decide, by decide, (1, 0), (1, 1), by decide, ⟨.refl, rfl⟩, ⟨.refl, rfl⟩⟩
  ⟨_, rfl, (examine_batch_reports (g := sharedStmtGraph) (r := 1) .byAddress sharedStmtGraph_wf.1
    sharedStmtGraph_wf.2 .silent .noDumpPointers .dontReportRepairableSharing rfl).2.1
      ⟨0, hc, rfl⟩⟩

/-! ### Module-scope values -/

/-- **Module-scope values are never tracked**: after `examine` on a fresh visitor, in either mode
and either repair setting, a node that `shouldBeTracked` exempts has no recorded parent, and no
ledger location holds it. -/
theorem examine_untracked (ord : LedgerOrder) (be : Printers) (pd : PtrDisp) (rd : RepairDisp)
    (vm : VisitMode) {r : ℕ} {res : Bool × IntegrityVisitor × Graph}
    (h : examine ord g (IntegrityVisitor.init be pd rd vm) r = some res) {c : ℕ}
    (hc : shouldBeTracked g c = false) :
    res.2.1.nparent c = none ∧ ∀ ps ∈ res.2.1.sharing, g.childAt ps.1 ps.2 ≠ some c := by
  obtain ⟨v₁, hv, hres⟩ := examine_visitor h
  have hu := visit_keeps untracked_edgeInvariant (v := IntegrityVisitor.init be pd rd vm)
    (fun _ _ => rfl) hv
  -- the ledger of the visit holds only locations of conflicted, hence tracked, children
  have hsh : ∀ ps ∈ v₁.sharing, g.childAt ps.1 ps.2 ≠ some c := by
    obtain ⟨S, ht⟩ : ∃ S, Tracks g v₁ S := by
      cases vm with
      | batchMode => exact ⟨_, (visit_init_batch hv).1.1.1⟩
      | incrementalMode =>
        exact ⟨_, (visit_incremental (tracks_edgeInvariant.withConfig .incrementalMode rd)
          (fun _ _ h => h.2.1) ⟨Tracks.init be pd rd _, rfl, rfl⟩ hv).1⟩
    rintro ⟨p, i⟩ hps hpc
    obtain ⟨c', hS, ⟨htr, -⟩, -⟩ := ht.sharing _ hps
    rw [ht.child_eq hpc hS, hc] at htr
    exact Bool.false_ne_true htr
  rcases hres with e | e | e <;> rw [e]
  · exact ⟨hu c hc, hsh⟩
  · exact ⟨hu c hc, by simp⟩
  · exact ⟨hu c hc, by simp⟩

/-- `@g + @g`: the module-scope constant `@g` (node 0) at both operands of the sum (node 1). -/
def globalSumGraph : Graph :=
  .ofList [⟨false, .const, .other, true, [], []⟩, ⟨false, .binaryOp, .plus, false, [0, 0], []⟩] 0

/-- Examining `@g + @g` succeeds without recording a parent of `@g` or a ledger slot holding it. -/
theorem examine_globalSumGraph_untracked :
    ∃ res, examine .byAddress globalSumGraph (IntegrityVisitor.init .silent .noDumpPointers
        .dontReportRepairableSharing .batchMode) 1 = some res ∧ res.1 = true ∧
      res.2.1.nparent 0 = none ∧ ∀ ps ∈ res.2.1.sharing, globalSumGraph.childAt ps.1 ps.2 ≠ some 0 :=
  ⟨_, rfl, rfl, examine_untracked (g := globalSumGraph) (r := 1) .byAddress .silent
    .noDumpPointers .dontReportRepairableSharing .batchMode rfl rfl⟩

end TreeIntegrity
