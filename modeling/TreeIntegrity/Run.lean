import TreeIntegrity.Examine

/-!
Sequences of `examine` calls on one `IntegrityVisitor`, on a graph that only the calls change
(by repair): the node builder calls `examine` on each node it builds in incremental mode, and a
front end may call it on a root in batch mode.

* `Carried.examine`: **each call answers `false` exactly when the diagnostic stream is non-empty
  after it**; the graph stays finite, well formed and acyclic, and what the ledger holds while
  no conflict is counted stays quiet.
* `examineAll_false_iff`: the same over whole runs from a fresh visitor.
* `examineAll_false_persists`: **the stream only grows over a run, so a failed call is final**:
  every later call of the run answers `false` too.
* `examine_independent_of_printers`: **what is printed never changes what is checked**: the
  printers and the pointer setting change no verdict and no repair.
* `examineAll_incremental_eq_batch`: **incremental calls on every node of a graph whose nodes
  all lie below a root, in any order, end with the verdict of one batch call on the root**, and
  fail an assertion exactly when it does.
-/

namespace TreeIntegrity

/-- `examine` called on each node of `ns` in turn with one visitor, on the graph as the calls
leave it; each verdict comes with the diagnostic stream after its call. -/
def examineAll (ord : LedgerOrder) : Graph → IntegrityVisitor → List ℕ →
    Option (List (Bool × String))
  | _, _, [] => some []
  | g, v, n :: ns => (examine ord g v n).bind fun r =>
    (examineAll ord r.2.2 r.2.1 ns).map ((r.1, r.2.1.ss) :: ·)

variable {ord : LedgerOrder} {g : Graph} {v : IntegrityVisitor} {S : Set Reg} {n : ℕ}

lemma examineAll_cons {ns : List ℕ} {rs : List (Bool × String)}
    (h : examineAll ord g v (n :: ns) = some rs) :
    ∃ res rs', examine ord g v n = some res ∧ examineAll ord res.2.2 res.2.1 ns = some rs' ∧
      rs = (res.1, res.2.1.ss) :: rs' := by
  obtain ⟨res, hres, h⟩ := Option.bind_eq_some.mp h
  obtain ⟨rs', hrs', rfl⟩ := Option.map_eq_some'.mp h
  exact ⟨res, rs', hres, hrs', rfl⟩

/-! ### The verdict and the stream -/

/-- What one `examine` call hands to the next. -/
structure Carried (g : Graph) (v : IntegrityVisitor) : Prop where
  wf : g.WF
  acyclic : g.Acyclic
  sound : LedgerSound g v
  logged : Logged v

lemma Carried.init (hwf : g.WF) (hac : g.Acyclic) (be : Printers) (pd : PtrDisp) (rd : RepairDisp)
    (vm : VisitMode) : Carried g (IntegrityVisitor.init be pd rd vm) :=
  ⟨hwf, hac, LedgerSound.init be pd rd vm, Logged.init be pd rd vm⟩

/-- **One `examine` call answers `false` exactly when the stream is non-empty after it**: a
counted conflict always wrote a report, and a call that reaches repair had counted nothing and
repairs without failing. -/
theorem Carried.examine (h : Carried g v) {res : Bool × IntegrityVisitor × Graph}
    (he : examine ord g v n = some res) :
    (res.1 = false ↔ res.2.1.ss ≠ "") ∧ Carried res.2.2 res.2.1 := by
  obtain ⟨v₁, hv⟩ := examine_visit he
  have hs := visit_keeps sound_edgeInvariant h.sound hv
  have hl := visit_keeps logged_edgeInvariant h.logged hv
  by_cases hc : Counted v₁
  · rw [examine_of_counted hv hc, Option.some.injEq] at he
    subst he
    exact ⟨iff_of_true rfl fun e => by unfold Counted at hc; have := hl.1 e; omega,
      h.wf, h.acyclic, hs, hl⟩
  have hz : v₁.instShareCount = 0 ∧ v₁.stmtShareCount = 0 ∧ v₁.exprShareCount = 0 := by
    unfold Counted at hc; omega
  have hss := hl.2 hz
  cases hm : v₁.visitMode
  · obtain ⟨g', hg', hrep, -⟩ := examine_batch_of_clean ord h.wf h.acyclic hv hs hc hm
    rw [hg', Option.some.injEq] at he
    subst he
    exact ⟨by simp [hss], hrep.wf, hrep.acyclic h.wf h.acyclic, ⟨List.nodup_nil, by simp⟩,
      by simp [Logged, hss, hz]⟩
  · rw [examine_incremental_of_clean hv hc hm, Option.some.injEq] at he
    subst he
    exact ⟨by simp [hss], h.wf, h.acyclic, ⟨List.nodup_nil, by simp⟩, by simp [Logged, hss, hz]⟩

/-- Every call of a run answers `false` exactly when the stream is non-empty after it. -/
lemma Carried.examineAll :
    ∀ {ns : List ℕ} {g : Graph} {v : IntegrityVisitor} {rs : List (Bool × String)}, Carried g v →
      examineAll ord g v ns = some rs → ∀ x ∈ rs, x.1 = false ↔ x.2 ≠ ""
  | [], _, _, _, _, hrs => by
    simp only [TreeIntegrity.examineAll, Option.some.injEq] at hrs; simp [← hrs]
  | n :: ns, _, _, _, h, hrs => by
    obtain ⟨res, rs', hres, hrs', rfl⟩ := examineAll_cons hrs
    obtain ⟨hb, h'⟩ := h.examine hres
    rintro x (_ | ⟨_, hx⟩)
    exacts [hb, h'.examineAll hrs' x hx]

/-- **Over any run of `examine` calls from a fresh visitor**, in either mode and either repair
setting, on a finite acyclic graph that only the calls change, **each call answers `false`
exactly when the accumulated diagnostic stream is non-empty after it.** -/
theorem examineAll_false_iff (ord : LedgerOrder) (hwf : g.WF) (hac : g.Acyclic) (be : Printers)
    (pd : PtrDisp) (rd : RepairDisp) (vm : VisitMode) (ns : List ℕ) {rs : List (Bool × String)}
    (h : examineAll ord g (IntegrityVisitor.init be pd rd vm) ns = some rs) :
    ∀ x ∈ rs, x.1 = false ↔ x.2 ≠ "" :=
  (Carried.init hwf hac be pd rd vm).examineAll h

/-- Examining `*x + x` twice in batch mode: the first call repairs, the second finds the
clone at its own slot. -/
theorem examineAll_sharedVarGraph :
    ∃ rs, examineAll .byAddress sharedVarGraph (IntegrityVisitor.init .silent .noDumpPointers
        .dontReportRepairableSharing .batchMode) [2, 2] = some rs ∧
      ∀ x ∈ rs, x.1 = false ↔ x.2 ≠ "" :=
  ⟨_, rfl, examineAll_false_iff (g := sharedVarGraph) .byAddress sharedVarGraph_wf.1
    sharedVarGraph_wf.2 .silent .noDumpPointers .dontReportRepairableSharing .batchMode [2, 2] rfl⟩

/-- A run only appends to the stream: the stream after each call extends the stream before the
run and the stream after every earlier call. -/
lemma examineAll_grows :
    ∀ {ns : List ℕ} {g : Graph} {v : IntegrityVisitor} {rs : List (Bool × String)},
      examineAll ord g v ns = some rs →
        (∀ x ∈ rs, Grows v.ss x.2) ∧ rs.Pairwise fun x y => Grows x.2 y.2
  | [], _, _, _, hrs => by
    simp only [TreeIntegrity.examineAll, Option.some.injEq] at hrs; simp [← hrs]
  | n :: ns, _, _, _, hrs => by
    obtain ⟨res, rs', hres, hrs', rfl⟩ := examineAll_cons hrs
    have h₁ := examine_ss hres
    obtain ⟨h₂, h₃⟩ := examineAll_grows hrs'
    refine ⟨?_, List.pairwise_cons.mpr ⟨h₂, h₃⟩⟩
    rintro x (_ | ⟨_, hx⟩)
    exacts [h₁, h₁.trans (h₂ x hx)]

/-- **A failed call is final**: over any run of `examine` calls from a fresh visitor, in either
mode and either repair setting, on a finite acyclic graph that only the calls change, the stream
after a later call extends the stream after an earlier one, so no report is ever lost, and once
a call has answered `false` every later call answers `false`. -/
theorem examineAll_false_persists (ord : LedgerOrder) (hwf : g.WF) (hac : g.Acyclic)
    (be : Printers) (pd : PtrDisp) (rd : RepairDisp) (vm : VisitMode) (ns : List ℕ)
    {rs : List (Bool × String)}
    (h : examineAll ord g (IntegrityVisitor.init be pd rd vm) ns = some rs) :
    rs.Pairwise fun x y => Grows x.2 y.2 ∧ (x.1 = false → y.1 = false) := by
  have hiff := (Carried.init hwf hac be pd rd vm).examineAll h
  exact (examineAll_grows h).2.imp_of_mem fun hx hy hxy =>
    ⟨hxy, fun hx₁ => (hiff _ hy).2 (hxy.ne_empty ((hiff _ hx).1 hx₁))⟩

/-- Examining the block twice: the second call meets no new conflict, and still fails. -/
theorem examineAll_sharedStmtGraph_persists :
    ∃ rs, examineAll .byAddress sharedStmtGraph (IntegrityVisitor.init .silent .noDumpPointers
        .dontReportRepairableSharing .batchMode) [1, 1] = some rs ∧
      rs.map Prod.fst = [false, false] ∧
      rs.Pairwise fun x y => Grows x.2 y.2 ∧ (x.1 = false → y.1 = false) :=
  ⟨_, rfl, rfl, examineAll_false_persists .byAddress sharedStmtGraph_wf.1 sharedStmtGraph_wf.2
    .silent .noDumpPointers .dontReportRepairableSharing .batchMode [1, 1] rfl⟩

/-! ### What is printed never changes what is checked -/

/-- Related visitors give the same verdicts over any run. -/
lemma IntegrityVisitor.SameChecks.examineAll :
    ∀ (ns : List ℕ) (g : Graph) {v w : IntegrityVisitor}, SameChecks v w →
      Option.Rel (fun rs rs₂ : List (Bool × String) => rs.map Prod.fst = rs₂.map Prod.fst)
        (TreeIntegrity.examineAll ord g v ns) (TreeIntegrity.examineAll ord g w ns)
  | [], _, _, _, _ => .some rfl
  | n :: ns, g, _, _, h => optionRel_bind h.examine fun r s (hrs : SameResult r s) => by
    rw [← hrs.2.2]
    exact optionRel_map (SameChecks.examineAll ns r.2.2 hrs.2.1) fun _ _ e => by
      simp only [List.map_cons, hrs.1, e]

/-- **Neither the printers of the backend nor the pointer setting change what is checked or
repaired**: one `examine` call on a fresh visitor answers alike and leaves the same graph, and
a run of calls gives the same verdicts, whatever `osdump` and `print` write and whether dumps
include addresses. -/
theorem examine_independent_of_printers (ord : LedgerOrder) (g : Graph) (be be₂ : Printers)
    (pd pd₂ : PtrDisp) (rd : RepairDisp) (vm : VisitMode) (n : ℕ) (ns : List ℕ) :
    (examine ord g (IntegrityVisitor.init be pd rd vm) n).map (fun r => (r.1, r.2.2)) =
        (examine ord g (IntegrityVisitor.init be₂ pd₂ rd vm) n).map (fun r => (r.1, r.2.2)) ∧
      (examineAll ord g (IntegrityVisitor.init be pd rd vm) ns).map (List.map Prod.fst) =
        (examineAll ord g (IntegrityVisitor.init be₂ pd₂ rd vm) ns).map (List.map Prod.fst) :=
  ⟨optionRel_map_eq (IntegrityVisitor.SameChecks.init be be₂ pd pd₂ rd vm).examine
      fun _ _ h => by rw [h.1, h.2.2],
    optionRel_map_eq ((IntegrityVisitor.SameChecks.init be be₂ pd pd₂ rd vm).examineAll ns g)
      fun _ _ h => h⟩

/-! ### Incremental runs against one batch call -/

/-- One incremental `examine` registers the node's own edges and leaves the graph alone; it
answers `true` exactly when no conflict has been counted so far. -/
lemma examine_incremental_step (h : Tracks g v S) (hm : v.visitMode = .incrementalMode)
    {res : Bool × IntegrityVisitor × Graph} (he : examine ord g v n = some res) :
    res.2.2 = g ∧ Tracks g res.2.1 (S ∪ g.OwnEdges n) ∧ res.2.1.visitMode = .incrementalMode ∧
      res.2.1.doRepairs = v.doRepairs ∧ (res.1 = true ↔ ¬ Counted res.2.1) := by
  obtain ⟨v₁, hv⟩ := examine_visit he
  obtain ⟨ht, hm₁, hd₁⟩ := visit_incremental
    (tracks_edgeInvariant.withConfig .incrementalMode v.doRepairs) (fun _ _ h => h.2.1)
    ⟨h, hm, rfl⟩ hv
  by_cases hc : Counted v₁
  · rw [examine_of_counted hv hc, Option.some.injEq] at he
    subst he
    exact ⟨rfl, ht, hm₁, hd₁, by simp [hc]⟩
  · rw [examine_incremental_of_clean hv hc hm₁, Option.some.injEq] at he
    subst he
    exact ⟨rfl, ht.clear, hm₁, hd₁, iff_of_true rfl hc⟩

/-- **An incremental run registers the own edges of every node it examines**, and its last
verdict is `true` exactly when no conflict has been counted. -/
lemma examineAll_incremental :
    ∀ {ns : List ℕ} {v : IntegrityVisitor} {S : Set Reg} {rs : List (Bool × String)},
      Tracks g v S → v.visitMode = .incrementalMode → examineAll ord g v ns = some rs →
        ns ≠ [] → ∃ v' b s, rs.getLast? = some (b, s) ∧
          Tracks g v' (S ∪ {reg | ∃ n ∈ ns, reg ∈ g.OwnEdges n}) ∧ v'.doRepairs = v.doRepairs ∧
            (b = true ↔ ¬ Counted v')
  | [], _, _, _, _, _, _, hne => absurd rfl hne
  | n :: ns, v, S, _, h, hm, hrs, _ => by
    obtain ⟨res, rs', hres, hrs', rfl⟩ := examineAll_cons hrs
    obtain ⟨hg, ht, hm', hd, hb⟩ := examine_incremental_step h hm hres
    rw [hg] at hrs'
    cases ns with
    | nil =>
      simp only [TreeIntegrity.examineAll, Option.some.injEq] at hrs'
      subst hrs'
      exact ⟨res.2.1, res.1, _, rfl, by simpa using ht, hd, hb⟩
    | cons m ms =>
      obtain ⟨v', b, s, hlast, ht', hd', hb'⟩ :=
        examineAll_incremental ht hm' hrs' (List.cons_ne_nil _ _)
      refine ⟨v', b, s, by rw [List.getLast?_cons, hlast]; rfl, ?_, hd'.trans hd, hb'⟩
      convert ht' using 1
      ext reg
      simp only [Set.mem_union, Set.mem_setOf_eq, List.mem_cons, or_and_right, exists_or,
        exists_eq_left, or_assoc]

/-- An incremental run completes when `repairableSubTree` answers on every conflicted
expression of `E`, a set of registrations holding every edge. -/
lemma examineAll_incremental_ne_none (ord : LedgerOrder) {E : Set Reg}
    (hE : ∀ q j c, g.childAt q j = some c → Reg.node c (q, j) ∈ E) {rd : RepairDisp}
    (hD : ∀ c, Conflicted g E c → (g.node c).isStmt = false →
      rd = .dontReportRepairableSharing → repairableSubTree g c ≠ none) :
    ∀ {ns : List ℕ} {v : IntegrityVisitor} {S : Set Reg}, Tracks g v S →
      v.visitMode = .incrementalMode → v.doRepairs = rd → (∀ n ∈ ns, n < g.size) →
        examineAll ord g v ns ≠ none
  | [], _, _, _, _, _, _ => by simp [TreeIntegrity.examineAll]
  | n :: ns, v, S, h, hm, hd, hns => by
    obtain ⟨v₁, hv⟩ := Option.ne_none_iff_exists'.mp <|
      visit_incremental_ne_none ((tracks_edgeInvariant.withConfig .incrementalMode rd).below n)
        (fun _ _ h => h.2.1)
        (fun _ _ c _ ⟨ht, _, hd⟩ hc => IntegrityVisitor.setParent_ne_none fun hnew hs hdr =>
          hD c (ht.conflicted_of_new hnew hc hE) hs (hd ▸ hdr))
        (Nat.zero_lt_of_lt (hns n (List.mem_cons_self _ _))) ⟨h, hm, hd⟩
    obtain ⟨res, hres⟩ : ∃ res, examine ord g v n = some res := by
      by_cases hc : Counted v₁
      · exact ⟨_, examine_of_counted hv hc⟩
      · exact ⟨_, examine_incremental_of_clean hv hc ((visit_config hv).1.trans hm)⟩
    obtain ⟨hg, ht, hm', hd', -⟩ := examine_incremental_step h hm hres
    have : examineAll ord g res.2.1 ns ≠ none :=
      examineAll_incremental_ne_none ord hE hD ht hm' (hd'.trans hd)
        fun m hm => hns m (List.mem_cons_of_mem _ hm)
    simpa [TreeIntegrity.examineAll, hres, hg] using this

/-- **Incremental examination of every node, in any order, agrees with one batch examination
of the root.** On a finite acyclic graph all of whose nodes lie below `r`, with one repair
setting, one incremental visitor made to examine each node at least once fails an assertion
exactly when a fresh batch visitor examining `r` does, and otherwise ends with its verdict. -/
theorem examineAll_incremental_eq_batch (ord ord' : LedgerOrder) (hwf : g.WF) (hac : g.Acyclic)
    {r : ℕ} (hr : r < g.size) (hall : ∀ n < g.size, g.Reach r n) {ns : List ℕ}
    (hns : ∀ n < g.size, n ∈ ns) (hns' : ∀ n ∈ ns, n < g.size) (be be' : Printers)
    (pd pd' : PtrDisp) (rd : RepairDisp) :
    ((examineAll ord g (IntegrityVisitor.init be pd rd .incrementalMode) ns).bind
        List.getLast?).map Prod.fst =
      (examine ord' g (IntegrityVisitor.init be' pd' rd .batchMode) r).map Prod.fst := by
  have hE : ∀ q j c, g.childAt q j = some c → Reg.node c (q, j) ∈ g.EdgesFrom r :=
    fun q j c h => ⟨hall q (hwf.child_lt q c (Graph.reach_of_childAt h)).1, h⟩
  have hS : ∅ ∪ {reg | ∃ n ∈ ns, reg ∈ g.OwnEdges n} = g.EdgesFrom r := by
    ext reg
    simp only [Set.empty_union, Set.mem_setOf_eq]
    constructor
    · rintro ⟨n, hn, hloc, hh⟩
      exact ⟨hloc ▸ hall n (hns' n hn), hh⟩
    · rintro ⟨hreach, hh⟩
      exact ⟨_, hns _ (Graph.lt_size_of_reach hwf hr hreach), rfl, hh⟩
  have hne : ns ≠ [] := fun h => by simpa [h] using hns r hr
  have hT := Tracks.init (g := g) be pd rd .incrementalMode
  by_cases hD : ∀ c, Conflicted g (g.EdgesFrom r) c → (g.node c).isStmt = false →
      rd = .dontReportRepairableSharing → repairableSubTree g c ≠ none
  · -- both complete, with the verdict of the fatal conflicts below the root
    obtain ⟨rs, hrs⟩ := Option.ne_none_iff_exists'.mp
      (examineAll_incremental_ne_none ord hE hD hT rfl rfl hns')
    obtain ⟨v', b, s, hlast, ht, hd, hb⟩ := examineAll_incremental hT rfl hrs hne
    rw [hS] at ht
    obtain ⟨res, hres, hv⟩ := examine_batch_verdict ord' hwf hac hr be' pd' rd
      fun _ _ c _ _ ht' _ hc hnew => hD c (ht'.conflicted_of_new hnew hc hE)
    rw [hrs, hres]
    simp only [Option.some_bind, hlast, Option.map_some', Option.some.injEq]
    rw [ht.counted_iff] at hb
    exact Bool.eq_iff_iff.mpr (hb.trans (hd ▸ hv.symm))
  · -- both fail an assertion inside repairableSubTree
    have hB : examine ord' g (IntegrityVisitor.init be' pd' rd .batchMode) r = none :=
      Option.eq_none_iff_forall_not_mem.mpr fun res hres =>
        hD (examine_batch_defined be' pd' rd hres)
    have hI : examineAll ord g (IntegrityVisitor.init be pd rd .incrementalMode) ns = none := by
      refine Option.eq_none_iff_forall_not_mem.mpr fun rs hrs => hD ?_
      obtain ⟨v', -, -, -, ht, hd, -⟩ := examineAll_incremental hT rfl hrs hne
      rw [hS] at ht
      exact fun c hc hs hrd => ht.defined c hc hs (hd.trans hrd)
    rw [hB, hI]
    rfl

/-- On `*x + x`, examining the operands before the sum agrees with one batch call on the sum. -/
theorem examineAll_sharedVarGraph_eq_batch :
    ((examineAll .byAddress sharedVarGraph (IntegrityVisitor.init .silent .noDumpPointers
        .dontReportRepairableSharing .incrementalMode) [0, 1, 2]).bind List.getLast?).map
          Prod.fst =
      (examine .byAddress sharedVarGraph (IntegrityVisitor.init .silent .dumpPointers
        .dontReportRepairableSharing .batchMode) 2).map Prod.fst :=
  examineAll_incremental_eq_batch (r := 2) .byAddress .byAddress sharedVarGraph_wf.1
    sharedVarGraph_wf.2 (by decide) (fun n hn => by
      have hc : ∀ c ∈ (sharedVarGraph.node 2).children, sharedVarGraph.Reach 2 c :=
        fun c hc => .single hc
      have hn : n < 3 := hn
      rcases (by omega : n = 0 ∨ n = 1 ∨ n = 2) with rfl | rfl | rfl
      exacts [hc 0 (by decide), hc 1 (by decide), .refl])
    (by decide) (by decide) .silent .silent .noDumpPointers .dumpPointers
    .dontReportRepairableSharing

end TreeIntegrity
