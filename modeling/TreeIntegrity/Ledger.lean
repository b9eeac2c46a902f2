import TreeIntegrity.Visit

/-!
What the tables, the ledger `sharing_` and the counters of an `IntegrityVisitor` record about
the registrations made so far. Each fact is an `EdgeInvariant`, so by `visit_batch` it holds
after a batch visit with the edges below the visited node, and by `visit_incremental` after
incremental visits with the nodes' own edges.

* `Tracks`: for a visitor that started empty, the parent tables hold a registered location of
  each registered child and instruction, the ledger holds locations of conflicts, each counter
  is non-zero exactly when a conflict of its kind has been registered (expression conflicts
  only when they are not quiet), and `repairableSubTree` has answered on every conflicted
  expression it was asked about.
* `LedgerExact`: while the ledger is not cleared, every location of a conflicted child other
  than its recorded one is in the ledger.
* `LedgerSound`: while no statement or expression conflict has been counted, every ledger
  location holds a quiet expression. It mentions no registrations, so it carries over from one
  `examine` call to the next.
* `Logged`: the diagnostic stream is empty exactly while every counter is zero.
* `Reported`: each counter that is not zero has the error line of its kind in the stream.
* `Untracked`: a node that `shouldBeTracked` exempts (a module-scope value) has no recorded
  parent.
-/

namespace TreeIntegrity

/-- Child `c` is registered at two distinct locations of `S`. -/
def SharedIn (S : Set Reg) (c : ℕ) : Prop :=
  ∃ ps ps', ps ≠ ps' ∧ Reg.node c ps ∈ S ∧ Reg.node c ps' ∈ S

/-- Instruction `k` is registered at two distinct locations of `S`. -/
def InstSharedIn (S : Set Reg) (k : ℕ) : Prop :=
  ∃ ps ps', ps ≠ ps' ∧ Reg.inst k ps ∈ S ∧ Reg.inst k ps' ∈ S

/-- The single-parent rule is broken at `c` in `S`: a tracked child that is not an error node
has two registered locations. -/
def Conflicted (g : Graph) (S : Set Reg) (c : ℕ) : Prop :=
  shouldBeTracked g c = true ∧ (g.node c).flavor ≠ .error ∧ SharedIn S c

variable {g : Graph} {S : Set Reg} {v v' : IntegrityVisitor}

/-! ### Registrations added one at a time -/

lemma SharedIn.mono {T : Set Reg} (h : S ⊆ T) {c : ℕ} (hc : SharedIn S c) : SharedIn T c :=
  let ⟨ps, ps', hne, h1, h2⟩ := hc
  ⟨ps, ps', hne, h h1, h h2⟩

lemma Conflicted.mono {T : Set Reg} (h : S ⊆ T) {c : ℕ} (hc : Conflicted g S c) :
    Conflicted g T c :=
  ⟨hc.1, hc.2.1, hc.2.2.mono h⟩

lemma InstSharedIn.mono {T : Set Reg} (h : S ⊆ T) {k : ℕ} (hk : InstSharedIn S k) :
    InstSharedIn T k :=
  let ⟨ps, ps', hne, h1, h2⟩ := hk
  ⟨ps, ps', hne, h h1, h h2⟩

/-- A new location of `c` shares `c` when `c` had another one. -/
lemma sharedIn_insert {c c' : ℕ} {ps : ParSlot} :
    SharedIn (insert (Reg.node c ps) S) c' ↔
      SharedIn S c' ∨ (c' = c ∧ ∃ q, q ≠ ps ∧ Reg.node c q ∈ S) := by
  constructor
  · rintro ⟨a, b, hne, ha, hb⟩
    rcases Set.mem_insert_iff.mp ha with ha | ha <;> rcases Set.mem_insert_iff.mp hb with hb | hb
    · cases ha; cases hb; exact absurd rfl hne
    · cases ha; exact .inr ⟨rfl, b, Ne.symm hne, hb⟩
    · cases hb; exact .inr ⟨rfl, a, hne, ha⟩
    · exact .inl ⟨a, b, hne, ha, hb⟩
  · rintro (h | ⟨rfl, q, hne, hq⟩)
    · exact h.mono (Set.subset_insert _ _)
    · exact ⟨q, ps, hne, Set.mem_insert_of_mem _ hq, Set.mem_insert _ _⟩

lemma conflicted_insert {c c' : ℕ} {ps : ParSlot} :
    Conflicted g (insert (Reg.node c ps) S) c' ↔ Conflicted g S c' ∨
      (c' = c ∧ shouldBeTracked g c = true ∧ (g.node c).flavor ≠ .error ∧
        ∃ q, q ≠ ps ∧ Reg.node c q ∈ S) := by
  unfold Conflicted
  rw [sharedIn_insert]
  constructor
  · rintro ⟨ht, he, h | ⟨rfl, h⟩⟩
    · exact .inl ⟨ht, he, h⟩
    · exact .inr ⟨rfl, ht, he, h⟩
  · rintro (⟨ht, he, h⟩ | ⟨rfl, ht, he, h⟩)
    · exact ⟨ht, he, .inl h⟩
    · exact ⟨ht, he, .inr ⟨rfl, h⟩⟩

@[simp] lemma instSharedIn_insert_node {c k : ℕ} {ps : ParSlot} :
    InstSharedIn (insert (Reg.node c ps) S) k ↔ InstSharedIn S k := by
  simp [InstSharedIn]

@[simp] lemma conflicted_insert_inst {c k : ℕ} {ps : ParSlot} :
    Conflicted g (insert (Reg.inst k ps) S) c ↔ Conflicted g S c := by
  simp [Conflicted, SharedIn]

lemma instSharedIn_insert {k k' : ℕ} {ps : ParSlot} :
    InstSharedIn (insert (Reg.inst k ps) S) k' ↔
      InstSharedIn S k' ∨ (k' = k ∧ ∃ q, q ≠ ps ∧ Reg.inst k q ∈ S) := by
  constructor
  · rintro ⟨a, b, hne, ha, hb⟩
    rcases Set.mem_insert_iff.mp ha with ha | ha <;> rcases Set.mem_insert_iff.mp hb with hb | hb
    · cases ha; cases hb; exact absurd rfl hne
    · cases ha; exact .inr ⟨rfl, b, Ne.symm hne, hb⟩
    · cases hb; exact .inr ⟨rfl, a, hne, ha⟩
    · exact .inl ⟨a, b, hne, ha, hb⟩
  · rintro (h | ⟨rfl, q, hne, hq⟩)
    · obtain ⟨a, b, hne, ha, hb⟩ := h
      exact ⟨a, b, hne, Set.mem_insert_of_mem _ ha, Set.mem_insert_of_mem _ hb⟩
    · exact ⟨q, ps, hne, Set.mem_insert_of_mem _ hq, Set.mem_insert _ _⟩

/-! ### The tables and the counters -/

/-- **What a visitor that started empty knows about its registrations `S`.** -/
structure Tracks (g : Graph) (v : IntegrityVisitor) (S : Set Reg) : Prop where
  holds : ∀ r ∈ S, g.Holds r
  nparent_mem : ∀ c ps, v.nparent c = some ps → Reg.node c ps ∈ S
  nparent_ne_none : ∀ c ps, Reg.node c ps ∈ S → shouldBeTracked g c = true → v.nparent c ≠ none
  iparent_mem : ∀ k ps, v.iparent k = some ps → Reg.inst k ps ∈ S
  iparent_ne_none : ∀ k ps, Reg.inst k ps ∈ S → v.iparent k ≠ none
  sharing : ∀ ps ∈ v.sharing, ∃ c, Reg.node c ps ∈ S ∧ Conflicted g S c ∧ v.nparent c ≠ some ps
  nodup : v.sharing.Nodup
  stmt : v.stmtShareCount ≠ 0 ↔ ∃ c, Conflicted g S c ∧ (g.node c).isStmt = true
  expr : v.exprShareCount ≠ 0 ↔
    ∃ c, Conflicted g S c ∧ (g.node c).isStmt = false ∧ ¬ Quiet g v.doRepairs c
  inst : v.instShareCount ≠ 0 ↔ ∃ k, InstSharedIn S k
  defined : ∀ c, Conflicted g S c → (g.node c).isStmt = false →
    v.doRepairs = .dontReportRepairableSharing → repairableSubTree g c ≠ none

/-- A fresh visitor has made no registration. -/
lemma Tracks.init (be : Printers) (pd : PtrDisp) (rd : RepairDisp) (vm : VisitMode) :
    Tracks g (IntegrityVisitor.init be pd rd vm) ∅ where
  holds := by simp
  nparent_mem := by simp [IntegrityVisitor.init]
  nparent_ne_none := by simp
  iparent_mem := by simp [IntegrityVisitor.init]
  iparent_ne_none := by simp
  sharing := by simp [IntegrityVisitor.init]
  nodup := List.nodup_nil
  stmt := by simp [IntegrityVisitor.init, Conflicted, SharedIn]
  expr := by simp [IntegrityVisitor.init, Conflicted, SharedIn]
  inst := by simp [IntegrityVisitor.init, InstSharedIn]
  defined := by simp [Conflicted, SharedIn]

namespace Tracks

variable (h : Tracks g v S)
include h

/-- A registered location holds one child. -/
lemma child_eq {c c' p i : ℕ} (hc : g.childAt p i = some c) (hr : Reg.node c' (p, i) ∈ S) :
    c' = c := by
  have := h.holds _ hr
  simp only [Graph.Holds, hc, Option.some.injEq] at this
  exact this.symm

/-- A registration that finds the child recorded elsewhere breaks the rule at the child. -/
lemma conflicted_insert_of_new {c p i : ℕ} (hnew : v.NewConflict g c p i) (c' : ℕ) :
    Conflicted g (insert (Reg.node c (p, i)) S) c' ↔ Conflicted g S c' ∨ c' = c := by
  obtain ⟨ht, ⟨q, hq, hne⟩, he, -⟩ := hnew
  rw [conflicted_insert]
  exact or_congr_right ⟨fun h => h.1, fun e => ⟨e, ht, he, q, hne, h.nparent_mem _ _ hq⟩⟩

/-- A registration that changes nothing breaks the rule nowhere new. -/
lemma conflicted_of_unchanged {c p i : ℕ} (hc : g.childAt p i = some c)
    (hfirst : ¬ (shouldBeTracked g c = true ∧ v.nparent c = none))
    (hnew : ¬ v.NewConflict g c p i) {c' : ℕ}
    (h' : Conflicted g (insert (Reg.node c (p, i)) S) c') : Conflicted g S c' := by
  rcases conflicted_insert.mp h' with h' | ⟨rfl, ht, he, q, hq, hqS⟩
  · exact h'
  refine ⟨ht, he, q, (p, i), hq, hqS, ?_⟩
  obtain ⟨q₀, hq₀⟩ := Option.ne_none_iff_exists'.mp fun hn => hfirst ⟨ht, hn⟩
  by_cases h₀ : q₀ = (p, i)
  · exact h₀ ▸ h.nparent_mem _ _ hq₀
  · obtain ⟨c'', hr, -, -⟩ := h.sharing _ (by_contra fun hs => hnew ⟨ht, ⟨q₀, hq₀, h₀⟩, he, hs⟩)
    exact h.child_eq hc hr ▸ hr

lemma holds_insert {r : Reg} (hr : g.Holds r) : ∀ r' ∈ insert r S, g.Holds r' := by
  rintro r' (rfl | hr')
  exacts [hr, h.holds r' hr']

/-- The registration left the visitor unchanged. -/
lemma insert_of_unchanged {c p i : ℕ} (hc : g.childAt p i = some c)
    (hfirst : ¬ (shouldBeTracked g c = true ∧ v.nparent c = none))
    (hnew : ¬ v.NewConflict g c p i) : Tracks g v (insert (Reg.node c (p, i)) S) := by
  have hiff : ∀ c', Conflicted g (insert (Reg.node c (p, i)) S) c' ↔ Conflicted g S c' :=
    fun c' => ⟨h.conflicted_of_unchanged hc hfirst hnew, Conflicted.mono (Set.subset_insert _ _)⟩
  refine ⟨h.holds_insert hc, fun c ps hps => Set.mem_insert_of_mem _ (h.nparent_mem c ps hps),
    ?_, fun k ps hps => Set.mem_insert_of_mem _ (h.iparent_mem k ps hps),
    fun k ps hr => h.iparent_ne_none k ps (by simpa using hr), fun ps hps => ?_, h.nodup,
    by simpa only [hiff] using h.stmt, by simpa only [hiff] using h.expr,
    by simpa only [instSharedIn_insert_node] using h.inst,
    fun c' hc' => h.defined c' ((hiff c').1 hc')⟩
  · rintro c' ps (hr | hr) ht
    · cases hr; exact fun hn => hfirst ⟨ht, hn⟩
    · exact h.nparent_ne_none c' ps hr ht
  · obtain ⟨c', h1, h2, h3⟩ := h.sharing ps hps
    exact ⟨c', Set.mem_insert_of_mem _ h1, h2.mono (Set.subset_insert _ _), h3⟩

/-- The registration recorded the first parent of `c`. -/
lemma insert_of_first {c p i : ℕ} (hc : g.childAt p i = some c) (ht : shouldBeTracked g c = true)
    (hn : v.nparent c = none) :
    Tracks g { v with nparent := Function.update v.nparent c (some (p, i)) }
      (insert (Reg.node c (p, i)) S) := by
  have hnoc : ∀ ps, Reg.node c ps ∉ S := fun ps hps => h.nparent_ne_none c ps hps ht hn
  have hiff : ∀ c', Conflicted g (insert (Reg.node c (p, i)) S) c' ↔ Conflicted g S c' :=
    fun c' => conflicted_insert.trans (or_iff_left fun ⟨_, _, _, q, _, hq⟩ => hnoc q hq)
  refine ⟨h.holds_insert hc, fun c' ps hps => ?_, fun c' ps hr ht' => ?_,
    fun k ps hps => Set.mem_insert_of_mem _ (h.iparent_mem k ps hps),
    fun k ps hr => h.iparent_ne_none k ps (by simpa using hr), fun ps hps => ?_, h.nodup,
    by simpa only [hiff] using h.stmt, by simpa only [hiff] using h.expr,
    by simpa only [instSharedIn_insert_node] using h.inst,
    fun c' hc' => h.defined c' ((hiff c').1 hc')⟩
  · by_cases e : c' = c
    · subst e
      simp only [Function.update_same, Option.some.injEq] at hps
      exact hps ▸ Set.mem_insert _ _
    · simp only [Function.update_noteq e] at hps
      exact Set.mem_insert_of_mem _ (h.nparent_mem c' ps hps)
  · by_cases e : c' = c
    · subst e; simp
    · simpa only [Function.update_noteq e] using h.nparent_ne_none c' ps (by simpa [e] using hr) ht'
  · obtain ⟨c', h1, h2, h3⟩ := h.sharing ps hps
    have e : c' ≠ c := fun e => hnoc ps (e ▸ h1)
    exact ⟨c', Set.mem_insert_of_mem _ h1, h2.mono (Set.subset_insert _ _),
      by simpa only [Function.update_noteq e] using h3⟩

/-- The registration found a new conflict at `(p, i)` and entered it in the ledger; the counters
moved as `hst` and `hex` say. -/
lemma insert_of_conflict {c p i : ℕ} (hc : g.childAt p i = some c) (hnew : v.NewConflict g c p i)
    (hn : v'.nparent = v.nparent) (hi : v'.iparent = v.iparent)
    (hsh : v'.sharing = v.sharing ++ [(p, i)]) (hic : v'.instShareCount = v.instShareCount)
    (hrd : v'.doRepairs = v.doRepairs)
    (hst : v'.stmtShareCount ≠ 0 ↔ v.stmtShareCount ≠ 0 ∨ (g.node c).isStmt = true)
    (hex : v'.exprShareCount ≠ 0 ↔ v.exprShareCount ≠ 0 ∨
      ((g.node c).isStmt = false ∧ ¬ Quiet g v.doRepairs c))
    (hdef : (g.node c).isStmt = false → v.doRepairs = .dontReportRepairableSharing →
      repairableSubTree g c ≠ none) :
    Tracks g v' (insert (Reg.node c (p, i)) S) := by
  have hiff := h.conflicted_insert_of_new hnew
  refine ⟨h.holds_insert hc, fun c' ps hps => ?_, fun c' ps hr ht' => ?_,
    fun k ps hps => Set.mem_insert_of_mem _ (h.iparent_mem k ps (hi ▸ hps)),
    fun k ps hr => hi ▸ h.iparent_ne_none k ps (by simpa using hr), fun ps hps => ?_, ?_,
    ?_, ?_, by simpa only [hic, instSharedIn_insert_node] using h.inst, fun c' hc' => ?_⟩
  · exact Set.mem_insert_of_mem _ (h.nparent_mem c' ps (hn ▸ hps))
  · rw [hn]
    rcases hr with hr | hr
    · cases hr
      obtain ⟨-, ⟨q, hq, -⟩, -⟩ := hnew
      simp [hq]
    · exact h.nparent_ne_none c' ps hr ht'
  · rw [hsh, List.mem_append, List.mem_singleton] at hps
    rcases hps with hps | rfl
    · obtain ⟨c', h1, h2, h3⟩ := h.sharing ps hps
      exact ⟨c', Set.mem_insert_of_mem _ h1, (hiff c').2 (.inl h2), hn ▸ h3⟩
    · obtain ⟨-, ⟨q, hq, hne⟩, -⟩ := hnew
      exact ⟨c, Set.mem_insert _ _, (hiff c).2 (.inr rfl), by rw [hn, hq]; simpa using hne⟩
  · rw [hsh]
    exact h.nodup.append (List.nodup_singleton _) (List.disjoint_singleton.mpr hnew.2.2.2)
  · rw [hst, h.stmt]
    simp only [hiff, or_and_right, exists_or, exists_eq_left]
  · rw [hex, h.expr, hrd]
    simp only [hiff, or_and_right, exists_or, exists_eq_left]
  · rw [hrd]
    rcases (hiff c').1 hc' with hc' | rfl
    exacts [h.defined c' hc', hdef]

/-- **One node registration keeps `Tracks`.** -/
theorem setParent {c p i : ℕ} (hc : g.childAt p i = some c)
    (hs : v.setParent g c p i = some v') : Tracks g v' (insert (Reg.node c (p, i)) S) := by
  rcases IntegrityVisitor.setParent_eq_some hs with
    ⟨rfl, hfirst, hnew⟩ | ⟨ht, hn, rfl⟩ | ⟨hnew, hq, rfl⟩ | ⟨hnew, hrep, q, -, rfl⟩
  · exact h.insert_of_unchanged hc hfirst hnew
  · exact h.insert_of_first hc ht hn
  · exact h.insert_of_conflict hc hnew rfl rfl rfl rfl rfl (by simp [hq.1]) (by simp [hq])
      fun _ _ => by simp [hq.2.2]
  · have hnq : (g.node c).isStmt = false → ¬ Quiet g v.doRepairs c :=
      fun hs ⟨_, hd, hr⟩ => by simp [hrep hs hd] at hr
    refine h.insert_of_conflict hc hnew (by simp) (by simp) (by simp) (by simp) (by simp) ?_ ?_
      fun hs hd => by simp [hrep hs hd]
    · cases hs : (g.node c).isStmt <;> simp [hs]
    · cases hs : (g.node c).isStmt <;> simp [hs, hnq]

/-- **One instruction registration keeps `Tracks`.** -/
theorem setParentInst {k e j : ℕ} (hs : (g.node e).isStmt = false) (hk : g.instAt e j = some k) :
    Tracks g (v.setParentInst g k e j) (insert (Reg.inst k (e, j)) S) := by
  have hh := h.holds_insert (r := Reg.inst k (e, j)) ⟨hs, hk⟩
  have hsh : ∀ ps ∈ v.sharing, ∃ c, Reg.node c ps ∈ insert (Reg.inst k (e, j)) S ∧
      Conflicted g (insert (Reg.inst k (e, j)) S) c ∧ v.nparent c ≠ some ps := fun ps hps =>
    let ⟨c, h1, h2, h3⟩ := h.sharing ps hps
    ⟨c, Set.mem_insert_of_mem _ h1, conflicted_insert_inst.2 h2, h3⟩
  rcases IntegrityVisitor.setParentInst_eq (v := v) (g := g) k e j with
    ⟨hq, he⟩ | ⟨hq, he⟩ | ⟨q, hq, hne, t, he⟩ <;> rw [he]
  · rwa [Set.insert_eq_of_mem (h.iparent_mem k _ hq)]
  · have hiff : ∀ k', InstSharedIn (insert (Reg.inst k (e, j)) S) k' ↔ InstSharedIn S k' :=
      fun k' => instSharedIn_insert.trans
        (or_iff_left fun ⟨_, q, _, hq'⟩ => h.iparent_ne_none k q hq' hq)
    refine ⟨hh, fun c ps hps => Set.mem_insert_of_mem _ (h.nparent_mem c ps hps),
      fun c ps hr => h.nparent_ne_none c ps (by simpa using hr), fun k' ps hps => ?_,
      fun k' ps hr => ?_, hsh, h.nodup, by simpa only [conflicted_insert_inst] using h.stmt,
      by simpa only [conflicted_insert_inst] using h.expr, by simpa only [hiff] using h.inst,
      fun c hc => h.defined c (conflicted_insert_inst.1 hc)⟩
    · by_cases e' : k' = k
      · subst e'
        simp only [Function.update_same, Option.some.injEq] at hps
        exact hps ▸ Set.mem_insert _ _
      · simp only [Function.update_noteq e'] at hps
        exact Set.mem_insert_of_mem _ (h.iparent_mem k' ps hps)
    · by_cases e' : k' = k
      · subst e'; simp
      · simpa only [Function.update_noteq e'] using h.iparent_ne_none k' ps (by simpa [e'] using hr)
  · refine ⟨hh, fun c ps hps => Set.mem_insert_of_mem _ (h.nparent_mem c ps hps),
      fun c ps hr => h.nparent_ne_none c ps (by simpa using hr),
      fun k' ps hps => Set.mem_insert_of_mem _ (h.iparent_mem k' ps hps),
      fun k' ps hr => ?_, hsh, h.nodup, by simpa only [conflicted_insert_inst] using h.stmt,
      by simpa only [conflicted_insert_inst] using h.expr,
      iff_of_true (Nat.succ_ne_zero _)
        ⟨k, instSharedIn_insert.2 (.inr ⟨rfl, q, hne, h.iparent_mem k q hq⟩)⟩,
      fun c hc => h.defined c (conflicted_insert_inst.1 hc)⟩
    rcases hr with hr | hr
    · cases hr; simp [hq]
    · exact h.iparent_ne_none k' ps hr

end Tracks

/-- Some counter is non-zero: `examine` fails. -/
def Counted (v : IntegrityVisitor) : Prop :=
  v.instShareCount ≠ 0 ∨ v.stmtShareCount ≠ 0 ∨ v.exprShareCount ≠ 0

/-- The conflicts among the registrations `S` that make `examine` fail: a shared instruction, a
shared statement, or a shared expression whose sharing is not quiet under `rd`. -/
def Fatal (g : Graph) (rd : RepairDisp) (S : Set Reg) : Prop :=
  (∃ k, InstSharedIn S k) ∨ (∃ c, Conflicted g S c ∧ (g.node c).isStmt = true) ∨
    ∃ c, Conflicted g S c ∧ (g.node c).isStmt = false ∧ ¬ Quiet g rd c

/-- **The counters report exactly the fatal conflicts.** -/
theorem Tracks.counted_iff (h : Tracks g v S) : Counted v ↔ Fatal g v.doRepairs S := by
  rw [Counted, Fatal, h.inst, h.stmt, h.expr]

/-- Clearing the ledger keeps `Tracks`. -/
lemma Tracks.clear (h : Tracks g v S) : Tracks g { v with sharing := [] } S :=
  { h with sharing := by simp, nodup := List.nodup_nil }

/-- A new conflict found by a registration is a conflict of any set of registrations holding
every edge. -/
lemma Tracks.conflicted_of_new (h : Tracks g v S) {c p i : ℕ} (hnew : v.NewConflict g c p i)
    (hc : g.childAt p i = some c) {E : Set Reg}
    (hE : ∀ q j c, g.childAt q j = some c → Reg.node c (q, j) ∈ E) : Conflicted g E c := by
  obtain ⟨ht, ⟨⟨q₁, q₂⟩, hq, hne⟩, he, -⟩ := hnew
  exact ⟨ht, he, _, _, hne, hE _ _ _ (h.holds _ (h.nparent_mem c _ hq)), hE p i c hc⟩

/-- `Tracks` is kept by every registration of an edge. -/
theorem tracks_edgeInvariant : EdgeInvariant g (Tracks g) :=
  ⟨fun h hc hs => h.setParent hc hs, fun h hs hk => h.setParentInst hs hk⟩

/-! ### The ledger between two clearings -/

/-- Every registered location of a tracked, non-error child other than its recorded one is in
the ledger. -/
def LedgerExact (g : Graph) (v : IntegrityVisitor) (S : Set Reg) : Prop :=
  ∀ c ps, Reg.node c ps ∈ S → shouldBeTracked g c = true → (g.node c).flavor ≠ .error →
    v.nparent c ≠ some ps → ps ∈ v.sharing

lemma LedgerExact.init (be : Printers) (pd : PtrDisp) (rd : RepairDisp) (vm : VisitMode) :
    LedgerExact g (IntegrityVisitor.init be pd rd vm) ∅ := by
  simp [LedgerExact]

/-- An entry added to the ledger keeps `LedgerExact`. -/
lemma LedgerExact.insert_of_conflict (hx : LedgerExact g v S) {c p i : ℕ}
    (hn : v'.nparent = v.nparent) (hsh : v'.sharing = v.sharing ++ [(p, i)]) :
    LedgerExact g v' (insert (Reg.node c (p, i)) S) := by
  rw [LedgerExact, hn, hsh]
  rintro c' ps (hr | hr) ht he hne
  · cases hr; simp
  · exact List.mem_append_left _ (hx c' ps hr ht he hne)

/-- **One node registration keeps `LedgerExact`.** -/
theorem LedgerExact.setParent (h : Tracks g v S) (hx : LedgerExact g v S) {c p i : ℕ}
    (hs : v.setParent g c p i = some v') : LedgerExact g v' (insert (Reg.node c (p, i)) S) := by
  rcases IntegrityVisitor.setParent_eq_some hs with
    ⟨rfl, hfirst, hnew⟩ | ⟨ht, hn, rfl⟩ | ⟨-, -, rfl⟩ | ⟨-, -, q, -, rfl⟩
  · rintro c' ps (hr | hr) ht he hne
    · cases hr
      obtain ⟨q₀, hq₀⟩ := Option.ne_none_iff_exists'.mp fun hn => hfirst ⟨ht, hn⟩
      exact by_contra fun hs => hnew ⟨ht, ⟨q₀, hq₀, fun e => hne (e ▸ hq₀)⟩, he, hs⟩
    · exact hx c' ps hr ht he hne
  · rintro c' ps (hr | hr) ht' he hne
    · cases hr; simp at hne
    · have e : c' ≠ c := fun e => h.nparent_ne_none c ps (e ▸ hr) ht hn
      exact hx c' ps hr ht' he (by simpa [Function.update_noteq e] using hne)
  · exact hx.insert_of_conflict rfl rfl
  · exact hx.insert_of_conflict (by simp) (by simp)

/-- An instruction registration keeps `LedgerExact`. -/
theorem LedgerExact.setParentInst (hx : LedgerExact g v S) (k e j : ℕ) :
    LedgerExact g (v.setParentInst g k e j) (insert (Reg.inst k (e, j)) S) := by
  have hx' : LedgerExact g v (insert (Reg.inst k (e, j)) S) := fun c ps hr =>
    hx c ps (by simpa using hr)
  rcases IntegrityVisitor.setParentInst_eq (v := v) (g := g) k e j with
    ⟨-, he⟩ | ⟨-, he⟩ | ⟨_, -, -, _, he⟩ <;> rw [he] <;> exact hx'

/-- `Tracks` together with `LedgerExact` is kept by every registration of an edge. -/
theorem exact_edgeInvariant : EdgeInvariant g fun v S => Tracks g v S ∧ LedgerExact g v S :=
  ⟨fun ⟨h, hx⟩ hc hs => ⟨h.setParent hc hs, hx.setParent h hs⟩,
    fun ⟨h, hx⟩ hs hk => ⟨h.setParentInst hs hk, hx.setParentInst _ _ _⟩⟩

/-! ### Facts that carry over between `examine` calls -/

/-- While no statement or expression conflict has been counted, every ledger location holds a
quiet expression. -/
def LedgerSound (g : Graph) (v : IntegrityVisitor) : Prop :=
  v.sharing.Nodup ∧ (v.stmtShareCount = 0 → v.exprShareCount = 0 →
    ∀ ps ∈ v.sharing, ∃ c, g.childAt ps.1 ps.2 = some c ∧ Quiet g v.doRepairs c)

lemma LedgerSound.init (be : Printers) (pd : PtrDisp) (rd : RepairDisp) (vm : VisitMode) :
    LedgerSound g (IntegrityVisitor.init be pd rd vm) :=
  ⟨List.nodup_nil, by simp [IntegrityVisitor.init]⟩

/-- **One node registration keeps `LedgerSound`**: a quiet conflict adds a quiet location, and
any other addition to the ledger is counted. -/
theorem LedgerSound.setParent (hl : LedgerSound g v) {c p i : ℕ} (hc : g.childAt p i = some c)
    (hs : v.setParent g c p i = some v') : LedgerSound g v' := by
  rcases IntegrityVisitor.setParent_eq_some hs with
    ⟨rfl, -⟩ | ⟨-, -, rfl⟩ | ⟨hnew, hq, rfl⟩ | ⟨hnew, -, q, -, rfl⟩
  · exact hl
  · exact hl
  · refine ⟨hl.1.append (List.nodup_singleton _) (List.disjoint_singleton.mpr hnew.2.2.2),
      fun h1 h2 ps hps => ?_⟩
    rcases List.mem_append.mp hps with hps | hps
    · exact hl.2 h1 h2 ps hps
    · rw [List.mem_singleton.mp hps]; exact ⟨c, hc, hq⟩
  · refine ⟨?_, fun h1 h2 => ?_⟩
    · simpa using hl.1.append (List.nodup_singleton _) (List.disjoint_singleton.mpr hnew.2.2.2)
    cases hs : (g.node c).isStmt <;> simp [hs] at h1 h2

theorem LedgerSound.setParentInst (hl : LedgerSound g v) (k e j : ℕ) :
    LedgerSound g (v.setParentInst g k e j) := by
  rcases IntegrityVisitor.setParentInst_eq (v := v) (g := g) k e j with
    ⟨-, he⟩ | ⟨-, he⟩ | ⟨_, -, -, _, he⟩ <;> rw [he] <;> exact hl

/-- `LedgerSound` is kept by every registration of an edge. -/
theorem sound_edgeInvariant : EdgeInvariant g fun v _ => LedgerSound g v :=
  ⟨fun hl hc hs => hl.setParent hc hs, fun hl _ _ => hl.setParentInst _ _ _⟩

/-- The diagnostic stream is empty exactly while every counter is zero. -/
def Logged (v : IntegrityVisitor) : Prop :=
  v.ss = "" ↔ v.instShareCount = 0 ∧ v.stmtShareCount = 0 ∧ v.exprShareCount = 0

lemma Logged.init (be : Printers) (pd : PtrDisp) (rd : RepairDisp) (vm : VisitMode) :
    Logged (IntegrityVisitor.init be pd rd vm) := by
  simp [Logged, IntegrityVisitor.init]

/-- **Every counted conflict writes a report**, so one node registration keeps `Logged`. -/
theorem Logged.setParent (hl : Logged v) {c p i : ℕ} (hs : v.setParent g c p i = some v') :
    Logged v' := by
  rcases IntegrityVisitor.setParent_eq_some hs with
    ⟨rfl, -⟩ | ⟨-, -, rfl⟩ | ⟨-, -, rfl⟩ | ⟨-, -, q, -, rfl⟩
  · exact hl
  · exact hl
  · exact hl
  · obtain ⟨t, ht⟩ := IntegrityVisitor.ss_reportShare
      (v := { v with sharing := v.sharing ++ [(p, i)] }) (g := g) c q.1 p
    refine iff_of_false (ht ▸ (occurs_append _ _ t).ne_empty (by split_ifs <;> decide)) ?_
    cases hs : (g.node c).isStmt <;> simp [hs]

theorem Logged.setParentInst (hl : Logged v) (k e j : ℕ) : Logged (v.setParentInst g k e j) := by
  rcases IntegrityVisitor.setParentInst_eq (v := v) (g := g) k e j with
    ⟨-, he⟩ | ⟨-, he⟩ | ⟨_, -, -, t, he⟩ <;> rw [he]
  · exact hl
  · exact hl
  · exact iff_of_false ((occurs_append _ "error: instruction has multiple parents\n" t).ne_empty
      (by decide)) (by simp)

/-- `Logged` is kept by every registration of an edge. -/
theorem logged_edgeInvariant : EdgeInvariant g fun v _ => Logged v :=
  ⟨fun hl _ hs => hl.setParent hs, fun hl _ _ => hl.setParentInst _ _ _⟩

/-- Each counter that is not zero has its error line in the log. -/
def Reported (v : IntegrityVisitor) : Prop :=
  (v.instShareCount ≠ 0 → Occurs "error: instruction has multiple parents\n" v.ss) ∧
    (v.stmtShareCount ≠ 0 → Occurs "error: stmt has multiple parents\n" v.ss) ∧
    (v.exprShareCount ≠ 0 → Occurs "error: expr has multiple parents\n" v.ss)

lemma Reported.init (be : Printers) (pd : PtrDisp) (rd : RepairDisp) (vm : VisitMode) :
    Reported (IntegrityVisitor.init be pd rd vm) := by
  simp [Reported, IntegrityVisitor.init]

/-- **A counted node conflict writes the error line of its kind.** -/
theorem Reported.setParent (hr : Reported v) {c p i : ℕ} (hs : v.setParent g c p i = some v') :
    Reported v' := by
  rcases IntegrityVisitor.setParent_eq_some hs with
    ⟨rfl, -⟩ | ⟨-, -, rfl⟩ | ⟨-, -, rfl⟩ | ⟨-, -, q, -, rfl⟩
  · exact hr
  · exact hr
  · exact hr
  · obtain ⟨t, ht⟩ := IntegrityVisitor.ss_reportShare
      (v := { v with sharing := v.sharing ++ [(p, i)] }) (g := g) c q.1 p
    rw [Reported, ht, IntegrityVisitor.instShareCount_reportShare,
      IntegrityVisitor.stmtShareCount_reportShare, IntegrityVisitor.exprShareCount_reportShare]
    cases hst : (g.node c).isStmt
    · exact ⟨fun h => (hr.1 h).append_right _, fun h => (hr.2.1 h).append_right _,
        fun _ => occurs_append _ _ t⟩
    · exact ⟨fun h => (hr.1 h).append_right _, fun _ => occurs_append _ _ t,
        fun h => (hr.2.2 h).append_right _⟩

/-- A counted instruction conflict writes its error line. -/
theorem Reported.setParentInst (hr : Reported v) (k e j : ℕ) :
    Reported (v.setParentInst g k e j) := by
  rcases IntegrityVisitor.setParentInst_eq (v := v) (g := g) k e j with
    ⟨-, he⟩ | ⟨-, he⟩ | ⟨_, -, -, t, he⟩ <;> rw [he]
  · exact hr
  · exact hr
  · exact ⟨fun _ => occurs_append _ _ t, fun h => (hr.2.1 h).append_right _,
      fun h => (hr.2.2 h).append_right _⟩

/-- `Reported` is kept by every registration of an edge. -/
theorem reported_edgeInvariant : EdgeInvariant g fun v _ => Reported v :=
  ⟨fun hr _ hs => hr.setParent hs, fun hr _ _ => hr.setParentInst _ _ _⟩

/-- No node that `shouldBeTracked` exempts has a recorded parent. -/
def Untracked (g : Graph) (v : IntegrityVisitor) : Prop :=
  ∀ c, shouldBeTracked g c = false → v.nparent c = none

/-- **A registration records a parent only for a tracked child**, so it keeps `Untracked`. -/
theorem Untracked.setParent (hu : Untracked g v) {c p i : ℕ} (hs : v.setParent g c p i = some v') :
    Untracked g v' := by
  rcases IntegrityVisitor.setParent_eq_some hs with
    ⟨rfl, -⟩ | ⟨ht, -, rfl⟩ | ⟨-, -, rfl⟩ | ⟨-, -, q, -, rfl⟩
  · exact hu
  · intro x hx
    have hxc : x ≠ c := by rintro rfl; simp [ht] at hx
    simpa [Function.update_noteq hxc] using hu x hx
  · exact hu
  · intro x hx
    simpa using hu x hx

/-- `Untracked` is kept by every registration of an edge. -/
theorem untracked_edgeInvariant : EdgeInvariant g fun v _ => Untracked g v :=
  ⟨fun hu _ hs => hu.setParent hs, fun hu _ _ x hx => by
    rw [(IntegrityVisitor.setParentInst_tables _ _ _).1]; exact hu x hx⟩

end TreeIntegrity
