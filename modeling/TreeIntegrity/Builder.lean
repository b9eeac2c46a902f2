import TreeIntegrity.Run

/-!
The visitor as the node builder drives it. A run is any sequence of the two calls the builder
makes on its visitor: `examine` on a node it has built, and `unsetParent` when it reparents a
child. Between two calls the builder may change the graph in any way that keeps it finite and
acyclic: it allocates nodes and replaces children, so a node id the visitor has recorded may
name a node with other children by the next call. The results of `Run` assume that only the
calls change the graph; these do not.

* `Settled`: between calls, the stream is empty exactly while every counter is zero, each
  non-zero counter has its error line in the stream, and a visitor that has counted no conflict
  holds an empty ledger, so no ledger location can go stale while the builder edits the graph.
* `Advances`: no call removes a report or lowers a counter (`repair` resets the expression
  counter only when it is zero).
* `builder_examine_false_iff`: **in every run, each `examine` call answers `false` exactly when
  the stream is non-empty after it.**
* `builder_false_final`: **in every run, a failed call is final**: every later `examine` call
  answers `false`, on whatever graph, and no report is lost.
* `builder_ledger_nodup`: **the ledger list is a set in every run**, and each counted node
  conflict keeps its own location in it (`LedgerBound`).
* `examine_order_independent`: **the iteration order of the ledger (the node addresses, in the
  source) changes neither the verdict nor the visitor**, and the repaired graphs unfold alike at
  every old node.
-/

namespace TreeIntegrity

/-! ### No call lowers a counter -/

/-- `w` extends the stream of `v`, and each counter of `w` is at least that of `v`. -/
structure Advances (v w : IntegrityVisitor) : Prop where
  ss : Grows v.ss w.ss
  inst : v.instShareCount ≤ w.instShareCount
  stmt : v.stmtShareCount ≤ w.stmtShareCount
  expr : v.exprShareCount ≤ w.exprShareCount

namespace Advances

lemma refl (v : IntegrityVisitor) : Advances v v := ⟨.refl _, le_rfl, le_rfl, le_rfl⟩

lemma trans {u v w : IntegrityVisitor} (h : Advances u v) (h' : Advances v w) : Advances u w :=
  ⟨h.ss.trans h'.ss, h.inst.trans h'.inst, h.stmt.trans h'.stmt, h.expr.trans h'.expr⟩

/-- A counted conflict stays counted. -/
lemma counted {v w : IntegrityVisitor} (h : Advances v w) (hc : Counted v) : Counted w := by
  have := h.inst; have := h.stmt; have := h.expr
  unfold Counted at *; omega

end Advances

variable {ord : LedgerOrder} {g : Graph} {v v' w : IntegrityVisitor} {n : ℕ}

lemma advances_setParent {c p i : ℕ} (h : v.setParent g c p i = some v') : Advances v v' := by
  have hss := IntegrityVisitor.setParent_ss h
  rcases IntegrityVisitor.setParent_eq_some h with
    ⟨rfl, -⟩ | ⟨-, -, rfl⟩ | ⟨-, -, rfl⟩ | ⟨-, -, q, -, rfl⟩ <;>
    exact ⟨hss, by simp, by simp, by simp⟩

lemma advances_setParentInst (k e j : ℕ) : Advances v (v.setParentInst g k e j) := by
  have hss := IntegrityVisitor.setParentInst_ss (v := v) (g := g) k e j
  rcases IntegrityVisitor.setParentInst_eq (v := v) (g := g) k e j with
    ⟨-, h⟩ | ⟨-, h⟩ | ⟨_, -, -, _, h⟩ <;> rw [h] at hss ⊢ <;> exact ⟨hss, by simp, le_rfl, le_rfl⟩

lemma advances_visit {fuel : ℕ} (hv : visit g fuel n v = some v') : Advances v v' :=
  visit_keeps (J := Advances v) ⟨fun h _ hs => h.trans (advances_setParent hs),
    fun h _ _ => h.trans (advances_setParentInst _ _ _)⟩ (.refl v) hv

/-- What `repair` returns: `true` with the ledger cleared and the expression counter reset, or
`false` with the visitor as it was. -/
lemma repair_cases {res : Bool × IntegrityVisitor × Graph} (h : repair ord v g = some res) :
    res.1 = true ∧ res.2.1 = { v with sharing := [], exprShareCount := 0 } ∨
      res.1 = false ∧ res.2.1 = v := by
  obtain ⟨r, -, rfl⟩ := Option.map_eq_some'.mp h
  by_cases hr : r.1 <;> simp [hr]

/-- **What `examine` can return**: the visitor as the visit left it, with the verdict `false`; or,
when the visit counted nothing, `true` with the ledger cleared, and with the expression counter
reset after a repair. -/
lemma examine_cases {res : Bool × IntegrityVisitor × Graph} (he : examine ord g v n = some res) :
    ∃ v₁, visit g g.size n v = some v₁ ∧ (res.1 = false ∧ res.2.1 = v₁ ∨
      ¬ Counted v₁ ∧ res.1 = true ∧ (res.2.1 = { v₁ with sharing := [] } ∨
        res.2.1 = { v₁ with sharing := [], exprShareCount := 0 })) := by
  obtain ⟨v₁, hv, he⟩ := Option.bind_eq_some.mp he
  refine ⟨v₁, hv, ?_⟩
  split_ifs at he with h₁ h₂ h₃ h₄
  · cases he; exact .inl ⟨rfl, rfl⟩
  · cases he; exact .inl ⟨rfl, rfl⟩
  all_goals have hc : ¬ Counted v₁ := by unfold Counted; omega
  · cases he; exact .inr ⟨hc, rfl, .inl rfl⟩
  · cases he; exact .inr ⟨hc, rfl, .inl (by rw [← h₄])⟩
  · rcases repair_cases he with ⟨ht, e⟩ | ⟨hf, e⟩
    exacts [.inr ⟨hc, ht, .inr e⟩, .inl ⟨hf, e⟩]

/-- `examine` resets the expression counter only when the visit counted no conflict. -/
lemma advances_examine {res : Bool × IntegrityVisitor × Graph} (he : examine ord g v n = some res) :
    Advances v res.2.1 := by
  obtain ⟨v₁, hv, ⟨-, e⟩ | ⟨hc, -, e | e⟩⟩ := examine_cases he <;> have ha := advances_visit hv <;>
    rw [e]
  · exact ha
  · exact ⟨ha.1, ha.2, ha.3, ha.4⟩
  · have := ha.4; unfold Counted at hc
    exact ⟨ha.1, ha.2, ha.3, by simp only; omega⟩

/-- A call that answers `true` leaves the ledger empty. -/
lemma examine_true_sharing {res : Bool × IntegrityVisitor × Graph}
    (he : examine ord g v n = some res) (ht : res.1 = true) : res.2.1.sharing = [] := by
  obtain ⟨v₁, -, ⟨hf, -⟩ | ⟨-, -, e | e⟩⟩ := examine_cases he
  · simp [hf] at ht
  all_goals rw [e]

/-- `unsetParent` changes only the parent table. -/
lemma unsetParent_eq {c p i : ℕ} (h : v.unsetParent g c p i = some v') :
    ∃ f, v' = { v with nparent := f } := by
  unfold IntegrityVisitor.unsetParent at h
  split_ifs at h
  · exact ⟨v.nparent, (Option.some.inj h).symm⟩
  split at h
  · cases h
  split_ifs at h
  exacts [⟨_, (Option.some.inj h).symm⟩, ⟨v.nparent, (Option.some.inj h).symm⟩]

/-! ### Between two calls -/

/-- Between calls the stream is non-empty exactly when some conflict is counted. -/
lemma Logged.counted_iff (h : Logged v) : Counted v ↔ v.ss ≠ "" := by
  unfold Logged at h; rw [ne_eq, h]; unfold Counted; omega

/-- What holds of the visitor between two calls of the node builder. -/
structure Settled (v : IntegrityVisitor) : Prop where
  logged : Logged v
  reported : Reported v
  clear : ¬ Counted v → v.sharing = []

lemma Settled.init (be : Printers) (pd : PtrDisp) (rd : RepairDisp) (vm : VisitMode) :
    Settled (IntegrityVisitor.init be pd rd vm) :=
  ⟨Logged.init be pd rd vm, Reported.init be pd rd vm, fun _ => rfl⟩

/-- A settled visitor that has counted nothing suits any finite acyclic graph. -/
lemma Settled.carried (h : Settled v) (hc : ¬ Counted v) (hwf : g.WF) (hac : g.Acyclic) :
    Carried g v :=
  ⟨hwf, hac, by rw [LedgerSound, h.clear hc]; simp, h.logged⟩

lemma Reported.examine (h : Reported v) {res : Bool × IntegrityVisitor × Graph}
    (he : examine ord g v n = some res) : Reported res.2.1 := by
  obtain ⟨v₁, hv, hres⟩ := examine_visitor he
  have h₁ := visit_keeps reported_edgeInvariant h hv
  rcases hres with e | e | e <;> rw [e]
  exacts [h₁, h₁, ⟨h₁.1, h₁.2.1, fun h0 => absurd rfl h0⟩]

/-- **One `examine` call from a settled visitor, on any finite acyclic graph**, answers `false`
exactly when the stream is non-empty after it, and leaves the visitor settled. A conflict
counted before the call keeps it failing; otherwise the ledger is empty and the call is one of
`Run`. -/
theorem Settled.examine (h : Settled v) (hwf : g.WF) (hac : g.Acyclic)
    {res : Bool × IntegrityVisitor × Graph} (he : examine ord g v n = some res) :
    (res.1 = false ↔ res.2.1.ss ≠ "") ∧ Settled res.2.1 := by
  have hrep := h.reported.examine he
  obtain ⟨v₁, hv⟩ := examine_visit he
  by_cases hc : Counted v
  · have hc₁ := (advances_visit hv).counted hc
    have hl := visit_keeps logged_edgeInvariant h.logged hv
    rw [examine_of_counted hv hc₁, Option.some.injEq] at he
    subst he
    exact ⟨iff_of_true rfl (hl.counted_iff.mp hc₁), hl, hrep, absurd hc₁⟩
  · obtain ⟨hb, hcar⟩ := (h.carried hc hwf hac).examine he
    have hb' := hb.trans hcar.logged.counted_iff.symm
    exact ⟨hb, hcar.logged, hrep, fun hc' => examine_true_sharing he (by simpa using mt hb'.mp hc')⟩

/-! ### The ledger -/

/-- The ledger, a `std::set` in the source, holds no location twice, and each counted node
conflict has its own location in it. -/
def LedgerBound (v : IntegrityVisitor) : Prop :=
  v.sharing.Nodup ∧ v.stmtShareCount + v.exprShareCount ≤ v.sharing.length

lemma LedgerBound.init (be : Printers) (pd : PtrDisp) (rd : RepairDisp) (vm : VisitMode) :
    LedgerBound (IntegrityVisitor.init be pd rd vm) :=
  ⟨List.nodup_nil, le_rfl⟩

/-- **A registration adds a location to the ledger only when it is new, and counts a
conflict only when it adds its location.** -/
theorem LedgerBound.setParent (h : LedgerBound v) {c p i : ℕ}
    (hs : v.setParent g c p i = some v') : LedgerBound v' := by
  rcases IntegrityVisitor.setParent_eq_some hs with
    ⟨rfl, -⟩ | ⟨-, -, rfl⟩ | ⟨hnew, -, rfl⟩ | ⟨hnew, -, q, -, rfl⟩
  · exact h
  · exact h
  all_goals
    have hnd := h.1.append (List.nodup_singleton _) (List.disjoint_singleton.mpr hnew.2.2.2)
    have := h.2
  · exact ⟨hnd, by simp; omega⟩
  · refine ⟨by simpa using hnd, ?_⟩
    simp only [IntegrityVisitor.stmtShareCount_reportShare,
      IntegrityVisitor.exprShareCount_reportShare, IntegrityVisitor.sharing_reportShare,
      List.length_append, List.length_singleton]
    split_ifs <;> omega

lemma LedgerBound.setParentInst (h : LedgerBound v) (k e j : ℕ) :
    LedgerBound (v.setParentInst g k e j) := by
  rcases IntegrityVisitor.setParentInst_eq (v := v) (g := g) k e j with
    ⟨-, he⟩ | ⟨-, he⟩ | ⟨_, -, -, _, he⟩ <;> rw [he] <;> exact h

theorem ledgerBound_edgeInvariant : EdgeInvariant g fun v _ => LedgerBound v :=
  ⟨fun h _ hs => h.setParent hs, fun h _ _ => h.setParentInst _ _ _⟩

/-- `examine` clears the ledger only when no node conflict is counted. -/
lemma LedgerBound.examine (h : LedgerBound v) {res : Bool × IntegrityVisitor × Graph}
    (he : examine ord g v n = some res) : LedgerBound res.2.1 := by
  obtain ⟨v₁, hv, ⟨-, e⟩ | ⟨hc, -, e | e⟩⟩ := examine_cases he <;> rw [e]
  · exact visit_keeps ledgerBound_edgeInvariant h hv
  all_goals unfold Counted at hc; exact ⟨List.nodup_nil, by simp only [List.length_nil]; omega⟩

/-! ### Runs of the node builder -/

/-- One call the node builder makes on its visitor: `examine` on a node of the graph as it is
then, finite and acyclic, or `unsetParent` when it reparents a child. -/
inductive BuilderStep (ord : LedgerOrder) : IntegrityVisitor → IntegrityVisitor → Prop
  | examine {v : IntegrityVisitor} {g : Graph} {n : ℕ} {res : Bool × IntegrityVisitor × Graph}
      (hwf : g.WF) (hac : g.Acyclic) (h : TreeIntegrity.examine ord g v n = some res) :
      BuilderStep ord v res.2.1
  | unsetParent {v v' : IntegrityVisitor} {g : Graph} {c p i : ℕ}
      (h : v.unsetParent g c p i = some v') : BuilderStep ord v v'

namespace BuilderStep

lemma settled (hs : BuilderStep ord v w) (h : Settled v) : Settled w := by
  cases hs with
  | examine hwf hac he => exact (h.examine hwf hac he).2
  | unsetParent hu =>
    obtain ⟨f, rfl⟩ := unsetParent_eq hu
    exact ⟨h.logged, h.reported, h.clear⟩

lemma ledgerBound (hs : BuilderStep ord v w) (h : LedgerBound v) : LedgerBound w := by
  cases hs with
  | examine _ _ he => exact h.examine he
  | unsetParent hu =>
    obtain ⟨f, rfl⟩ := unsetParent_eq hu
    exact h

lemma advances (hs : BuilderStep ord v w) : Advances v w := by
  cases hs with
  | examine _ _ he => exact advances_examine he
  | unsetParent hu =>
    obtain ⟨f, rfl⟩ := unsetParent_eq hu
    exact ⟨.refl _, le_rfl, le_rfl, le_rfl⟩

end BuilderStep

lemma Settled.run (h : Settled v) (hr : Relation.ReflTransGen (BuilderStep ord) v w) :
    Settled w := by
  induction hr with
  | refl => exact h
  | tail _ hs ih => exact hs.settled ih

lemma LedgerBound.run (h : LedgerBound v) (hr : Relation.ReflTransGen (BuilderStep ord) v w) :
    LedgerBound w := by
  induction hr with
  | refl => exact h
  | tail _ hs ih => exact hs.ledgerBound ih

lemma advances_of_run (hr : Relation.ReflTransGen (BuilderStep ord) v w) : Advances v w := by
  induction hr with
  | refl => exact .refl v
  | tail _ hs ih => exact ih.trans hs.advances

/-- **In every run of the node builder, each `examine` call answers `false` exactly when the
stream is non-empty after it**, in either mode and either repair setting, whatever the builder
did to the graph between calls and whichever children it detached. -/
theorem builder_examine_false_iff (ord : LedgerOrder) (be : Printers) (pd : PtrDisp)
    (rd : RepairDisp) (vm : VisitMode)
    (hv : Relation.ReflTransGen (BuilderStep ord) (.init be pd rd vm) v) (hwf : g.WF)
    (hac : g.Acyclic) {res : Bool × IntegrityVisitor × Graph}
    (he : examine ord g v n = some res) : res.1 = false ↔ res.2.1.ss ≠ "" :=
  (((Settled.init be pd rd vm).run hv).examine hwf hac he).1

/-- A batch run that examines and repairs `*x + x`, then examines a block listing one statement
twice. -/
theorem builder_examine_false_iff_sharedStmtGraph :
    ∃ v res, Relation.ReflTransGen (BuilderStep .byAddress)
        (.init .silent .noDumpPointers .dontReportRepairableSharing .batchMode) v ∧
      examine .byAddress sharedStmtGraph v 1 = some res ∧ (res.1 = false ↔ res.2.1.ss ≠ "") :=
  have h₀ : (examine .byAddress sharedVarGraph
      (.init .silent .noDumpPointers .dontReportRepairableSharing .batchMode) 2).isSome := rfl
  have h₁ : (examine .byAddress sharedStmtGraph ((Option.get _ h₀).2.1) 1).isSome := rfl
  have hrun := Relation.ReflTransGen.single
    (BuilderStep.examine sharedVarGraph_wf.1 sharedVarGraph_wf.2 (Option.some_get h₀).symm)
  ⟨_, _, hrun, (Option.some_get h₁).symm, builder_examine_false_iff .byAddress .silent
    .noDumpPointers .dontReportRepairableSharing .batchMode hrun sharedStmtGraph_wf.1
    sharedStmtGraph_wf.2 (Option.some_get h₁).symm⟩

/-- **In every run of the node builder, a failed call is final**: after an `examine` call has
answered `false`, every later `examine` call answers `false`, on whatever graph the builder
hands it and whatever it detached in between, and the stream then extends the stream of the
failed call. -/
theorem builder_false_final (ord : LedgerOrder) (be : Printers) (pd : PtrDisp)
    (rd : RepairDisp) (vm : VisitMode)
    (hv : Relation.ReflTransGen (BuilderStep ord) (.init be pd rd vm) v) (hwf : g.WF)
    (hac : g.Acyclic) {v₁ : IntegrityVisitor} {g₁ : Graph}
    (he : examine ord g v n = some (false, v₁, g₁))
    (hw : Relation.ReflTransGen (BuilderStep ord) v₁ w) {g' : Graph} {n' : ℕ}
    {res : Bool × IntegrityVisitor × Graph} (he' : examine ord g' w n' = some res) :
    res.1 = false ∧ Grows v₁.ss res.2.1.ss := by
  obtain ⟨hb, hs₁⟩ := ((Settled.init be pd rd vm).run hv).examine hwf hac he
  have hc : Counted w := (advances_of_run hw).counted (hs₁.logged.counted_iff.mpr (hb.1 rfl))
  obtain ⟨w₁, hw₁⟩ := examine_visit he'
  rw [examine_of_counted hw₁ ((advances_visit hw₁).counted hc), Option.some.injEq] at he'
  subst he'
  exact ⟨rfl, (advances_of_run hw).ss.trans (advances_visit hw₁).ss⟩

/-- A shared statement fails the first call; `*x + x`, which a fresh visitor repairs, then
fails twice. -/
theorem builder_false_final_sharedStmtGraph :
    ∃ v₁ g₁ w res, examine .byAddress sharedStmtGraph
        (.init .silent .noDumpPointers .dontReportRepairableSharing .batchMode) 1 =
          some (false, v₁, g₁) ∧
      Relation.ReflTransGen (BuilderStep .byAddress) v₁ w ∧
      examine .byAddress sharedVarGraph w 2 = some res ∧ res.1 = false ∧ Grows v₁.ss res.2.1.ss :=
  have h₀ : (examine .byAddress sharedStmtGraph
      (.init .silent .noDumpPointers .dontReportRepairableSharing .batchMode) 1).isSome := rfl
  have he : examine .byAddress sharedStmtGraph
      (.init .silent .noDumpPointers .dontReportRepairableSharing .batchMode) 1 =
        some (false, (Option.get _ h₀).2.1, (Option.get _ h₀).2.2) := rfl
  have h₁ : (examine .byAddress sharedVarGraph (Option.get _ h₀).2.1 2).isSome := rfl
  have h₂ : (examine .byAddress sharedVarGraph (Option.get _ h₁).2.1 2).isSome := rfl
  have hw := Relation.ReflTransGen.single
    (BuilderStep.examine sharedVarGraph_wf.1 sharedVarGraph_wf.2 (Option.some_get h₁).symm)
  ⟨_, _, _, _, he, hw, (Option.some_get h₂).symm, builder_false_final .byAddress .silent
    .noDumpPointers .dontReportRepairableSharing .batchMode .refl sharedStmtGraph_wf.1
    sharedStmtGraph_wf.2 he hw (Option.some_get h₂).symm⟩

/-- **In every run of the node builder the ledger is a set**: it never holds a location twice,
whatever the builder did to the graph, and each counted node conflict keeps its own location in
it until the count is cleared. -/
theorem builder_ledger_nodup (ord : LedgerOrder) (be : Printers) (pd : PtrDisp)
    (rd : RepairDisp) (vm : VisitMode)
    (hv : Relation.ReflTransGen (BuilderStep ord) (.init be pd rd vm) v) :
    v.sharing.Nodup ∧ v.stmtShareCount + v.exprShareCount ≤ v.sharing.length :=
  (LedgerBound.init be pd rd vm).run hv

/-- `(x + x) + x`: the variable `x` (node 0) sits at three slots. -/
def tripleSumGraph : Graph :=
  .ofList [⟨false, .var, .other, false, [], []⟩, ⟨false, .binaryOp, .plus, false, [0, 0], []⟩,
    ⟨false, .binaryOp, .plus, false, [1, 0], []⟩] 0

lemma tripleSumGraph_wf : tripleSumGraph.WF ∧ tripleSumGraph.Acyclic := by
  unfold tripleSumGraph
  exact ⟨Graph.ofList_wf (by decide), Graph.ofList_acyclic (by decide)⟩

/-- Reporting repairable sharing, a batch call on `(x + x) + x` counts two conflicts, at two
ledger locations. -/
theorem builder_ledger_nodup_tripleSumGraph :
    ∃ v, Relation.ReflTransGen (BuilderStep .byAddress)
        (.init .silent .noDumpPointers .reportRepairableSharing .batchMode) v ∧
      v.exprShareCount = 2 ∧ v.sharing.Nodup ∧
        v.stmtShareCount + v.exprShareCount ≤ v.sharing.length :=
  have h₀ : (examine .byAddress tripleSumGraph
      (.init .silent .noDumpPointers .reportRepairableSharing .batchMode) 2).isSome := rfl
  have hrun := Relation.ReflTransGen.single
    (BuilderStep.examine tripleSumGraph_wf.1 tripleSumGraph_wf.2 (Option.some_get h₀).symm)
  ⟨_, hrun, rfl, builder_ledger_nodup .byAddress .silent .noDumpPointers .reportRepairableSharing
    .batchMode hrun⟩

/-- **The iteration order of the ledger changes nothing that `examine` returns**: in every run
of the node builder, two `examine` calls that differ only in the order of the ledger (the
addresses of the nodes, in the source) give the same verdict and the same visitor, and graphs in
which every old node unfolds alike. -/
theorem examine_order_independent (ord₀ ord ord' : LedgerOrder) (be : Printers) (pd : PtrDisp)
    (rd : RepairDisp) (vm : VisitMode)
    (hv : Relation.ReflTransGen (BuilderStep ord₀) (.init be pd rd vm) v) (hwf : g.WF)
    (hac : g.Acyclic) {res res' : Bool × IntegrityVisitor × Graph}
    (he : examine ord g v n = some res) (he' : examine ord' g v n = some res') :
    res.1 = res'.1 ∧ res.2.1 = res'.2.1 ∧ ∀ m < g.size, SameShape res.2.2 m res'.2.2 m := by
  obtain ⟨v₁, hv₁⟩ := examine_visit he
  by_cases hc : Counted v₁
  · rw [examine_of_counted hv₁ hc, Option.some.injEq] at he he'
    subst he he'
    exact ⟨rfl, rfl, fun m _ => .refl _ m⟩
  have hcar := ((Settled.init be pd rd vm).run hv).carried
    (fun h => hc ((advances_visit hv₁).counted h)) hwf hac
  cases hm : v₁.visitMode
  · have hs := visit_keeps sound_edgeInvariant hcar.sound hv₁
    obtain ⟨g₁, he₁, hr₁, -⟩ := examine_batch_of_clean ord hwf hac hv₁ hs hc hm
    obtain ⟨g₂, he₂, hr₂, -⟩ := examine_batch_of_clean ord' hwf hac hv₁ hs hc hm
    rw [he₁, Option.some.injEq] at he
    rw [he₂, Option.some.injEq] at he'
    subst he he'
    exact ⟨rfl, rfl, fun m hm => (hr₁.shape m hm).trans (hr₂.shape m hm).symm⟩
  · rw [examine_incremental_of_clean hv₁ hc hm, Option.some.injEq] at he he'
    subst he he'
    exact ⟨rfl, rfl, fun m _ => .refl _ m⟩

/-- The two slots of `(x + x) + x` that share `x`, repaired by address and in the reverse
order. -/
theorem examine_order_independent_tripleSumGraph :
    ∃ res res', examine .byAddress tripleSumGraph
        (.init .silent .noDumpPointers .dontReportRepairableSharing .batchMode) 2 = some res ∧
      examine ⟨List.reverse, List.reverse_perm⟩ tripleSumGraph
        (.init .silent .noDumpPointers .dontReportRepairableSharing .batchMode) 2 = some res' ∧
      res.1 = res'.1 ∧ res.2.1 = res'.2.1 ∧
        ∀ m < tripleSumGraph.size, SameShape res.2.2 m res'.2.2 m :=
  have h₁ : (examine .byAddress tripleSumGraph
      (.init .silent .noDumpPointers .dontReportRepairableSharing .batchMode) 2).isSome := rfl
  have h₂ : (examine ⟨List.reverse, List.reverse_perm⟩ tripleSumGraph
      (.init .silent .noDumpPointers .dontReportRepairableSharing .batchMode) 2).isSome := rfl
  ⟨_, _, (Option.some_get h₁).symm, (Option.some_get h₂).symm,
    examine_order_independent .byAddress .byAddress ⟨List.reverse, List.reverse_perm⟩ .silent
      .noDumpPointers .dontReportRepairableSharing .batchMode .refl tripleSumGraph_wf.1
      tripleSumGraph_wf.2 (Option.some_get h₁).symm (Option.some_get h₂).symm⟩

end TreeIntegrity
