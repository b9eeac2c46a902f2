import TreeIntegrity.Graph

/-!
`IntegrityVisitor::repairableSubTree`, the whitelist scan that decides whether a shared
expression subtree may be cloned: an explicit worklist (`std::vector`, used as a stack) and a
visited set, failing fast on the first node whose flavor is not acceptable or whose binary
operator is not `+` or `-`, and asserting that every child it expands is an expression.

* `repairableLoop_verdict`: the loop invariant, packaged once. The visited nodes are reachable,
  and a visited node off the worklist is acceptable, has expression children and has all of
  them visited; the number of nodes still to pop or to discover bounds the fuel.
* `repairableSubTree_eq_some_true`: the scan returns `true` exactly when every reachable node
  is acceptable with expression children, whatever the graph, cyclic or not.
* `repairableSubTree_outcome`: what the scan answers with no precondition; a failed assertion
  only at an acceptable reachable node with a statement child.
* `repairableSubTree_spec`: **under the precondition that acceptable nodes have expression
  children the scan terminates without assertion failure**, returns `true` iff every reachable
  node is acceptable, and on acyclic graphs agrees with the recursive predicate `Repairable`.
-/

namespace TreeIntegrity

/-- The `acceptable` set of flavors. -/
def acceptable : List NodeFlavor :=
  [.const, .var, .conversion, .deref, .structField, .binaryOp]

/-- A node passes both checks of the loop body. -/
def FlavorOk (b : Bnode) : Prop :=
  b.flavor ∈ acceptable ∧ (b.flavor = .binaryOp → b.op = .plus ∨ b.op = .minus)

instance (b : Bnode) : Decidable (FlavorOk b) := inferInstanceAs (Decidable (_ ∧ _))

/-- A node passes the loop body: both checks, and the `assert(ce)` on each child. -/
def CloneSafe (g : Graph) (n : ℕ) : Prop :=
  FlavorOk (g.node n) ∧ ∀ c ∈ (g.node n).children, (g.node c).isStmt = false

/-- The inner loop over the children of the popped node: each must be an expression
(`assert(ce)`, `none` when it fails), and the unvisited ones are marked and pushed. -/
def pushKids (g : Graph) : List ℕ → List ℕ → List ℕ → Option (List ℕ × List ℕ)
  | [], visited, workList => some (visited, workList)
  | c :: cs, visited, workList =>
    if (g.node c).isStmt then none
    else if c ∈ visited then pushKids g cs visited workList
    else pushKids g cs (c :: visited) (c :: workList)

/-- The `while (! workList.empty())` loop; the head of `workList` is its back. The fuel is a
modelling device: `repairableLoop_verdict` shows the bound below is never reached. -/
def repairableLoop (g : Graph) : ℕ → List ℕ → List ℕ → Option Bool
  | _, _, [] => some true
  | 0, _, _ :: _ => none
  | fuel + 1, visited, e :: workList =>
    if (g.node e).flavor ∉ acceptable then some false
    else if (g.node e).flavor = .binaryOp ∧ (g.node e).op ≠ .plus ∧ (g.node e).op ≠ .minus then
      some false
    else match pushKids g (g.node e).children visited workList with
      | none => none
      | some (visited, workList) => repairableLoop g fuel visited workList

/-- `repairableSubTree(root)`: `none` is a failed assertion. -/
def repairableSubTree (g : Graph) (root : ℕ) : Option Bool :=
  repairableLoop g (g.size + 1) [root] [root]

variable {g : Graph}

/-! ### The inner loop -/

lemma pushKids_eq_none_iff {cs V W : List ℕ} :
    pushKids g cs V W = none ↔ ∃ c ∈ cs, (g.node c).isStmt = true := by
  induction cs generalizing V W with
  | nil => simp [pushKids]
  | cons c cs ih =>
    by_cases hc : (g.node c).isStmt <;> by_cases hv : c ∈ V <;> simp [pushKids, hc, hv, ih]

/-- The inner loop marks and pushes the same new nodes, children not visited before, and on
success every child is an expression and visited. -/
lemma pushKids_eq_some {cs V W V' W' : List ℕ} (h : pushKids g cs V W = some (V', W')) :
    ∃ new : List ℕ, V' = new ++ V ∧ W' = new ++ W ∧ (∀ x ∈ new, x ∈ cs ∧ x ∉ V) ∧ new.Nodup ∧
      ∀ c ∈ cs, (g.node c).isStmt = false ∧ c ∈ V' := by
  induction cs generalizing V W with
  | nil =>
    simp only [pushKids, Option.some.injEq, Prod.mk.injEq] at h
    exact ⟨[], by simp [h]⟩
  | cons c cs ih =>
    simp only [pushKids] at h
    split_ifs at h with hc hv
    · obtain ⟨new, rfl, rfl, hnew, hnd, hall⟩ := ih h
      refine ⟨new, rfl, rfl, fun x hx => ⟨List.mem_cons_of_mem _ (hnew x hx).1, (hnew x hx).2⟩,
        hnd, ?_⟩
      simp only [List.mem_cons, forall_eq_or_imp]
      exact ⟨⟨by simpa using hc, List.mem_append_right _ hv⟩, hall⟩
    · obtain ⟨new, rfl, rfl, hnew, hnd, hall⟩ := ih h
      refine ⟨new ++ [c], by simp, by simp, fun x hx => ?_, ?_, ?_⟩
      · rcases List.mem_append.mp hx with hx | hx
        · have := hnew x hx
          simp only [List.mem_cons, not_or] at this ⊢
          exact ⟨.inr this.1, this.2.2⟩
        · rw [List.mem_singleton.mp hx]; exact ⟨List.mem_cons_self _ _, hv⟩
      · exact hnd.append (List.nodup_singleton c) fun x hx hxc => by
          rw [List.mem_singleton.mp hxc] at hx; exact (hnew c hx).2 (List.mem_cons_self _ _)
      · simp only [List.mem_cons, forall_eq_or_imp]
        exact ⟨⟨by simpa using hc, by simp⟩, hall⟩

/-! ### The worklist loop -/

/-- The loop invariant from the root `r`: the visited nodes are distinct and reachable, the
worklist is a duplicate-free part of them, and a visited node off the worklist has passed the
loop body with all its children visited. -/
structure WorkInv (g : Graph) (r : ℕ) (V W : List ℕ) : Prop where
  root : r ∈ V
  reach : ∀ n ∈ V, g.Reach r n
  sub : ∀ n ∈ W, n ∈ V
  closed : ∀ n ∈ V, n ∉ W → CloneSafe g n ∧ ∀ c ∈ (g.node n).children, c ∈ V
  nodupV : V.Nodup
  nodupW : W.Nodup
  bound : ∀ n ∈ V, n = r ∨ n < g.size

/-- What a run of the loop from the root `r` may return: `true` only when every reachable node
passes the loop body, `false` only at a reachable node failing a check, and a failed assertion
only at a reachable node that passes the checks and has a statement child. -/
def Verdict (g : Graph) (r : ℕ) : Option Bool → Prop
  | some true => ∀ n, g.Reach r n → CloneSafe g n
  | some false => ∃ n, g.Reach r n ∧ ¬ FlavorOk (g.node n)
  | none => ∃ n, g.Reach r n ∧ FlavorOk (g.node n) ∧ ∃ c ∈ (g.node n).children, (g.node c).isStmt

private lemma length_le_of_bound {r : ℕ} {V : List ℕ} (hnd : V.Nodup)
    (hb : ∀ n ∈ V, n = r ∨ n < g.size) : V.length ≤ g.size + 1 := by
  have := (hnd.subperm fun n hn => by
    rcases hb n hn with rfl | h
    · exact List.mem_cons_self _ _
    · exact List.mem_cons_of_mem _ (List.mem_range.mpr h) : V.Subperm (r :: List.range g.size))
  simpa using this.length_le

/-- When the worklist is empty every reachable node is visited, hence passed the loop body. -/
private lemma WorkInv.done {r : ℕ} {V : List ℕ} (hinv : WorkInv g r V []) :
    ∀ n, g.Reach r n → CloneSafe g n := by
  have hmem : ∀ n, g.Reach r n → n ∈ V := by
    intro n h
    induction h with
    | refl => exact hinv.root
    | tail _ hc ih => exact (hinv.closed _ ih (List.not_mem_nil _)).2 _ hc
  exact fun n h => (hinv.closed n (hmem n h) (List.not_mem_nil _)).1

/-- One pass of the loop body, when the popped node passes the checks and its children are
pushed, keeps the invariant. -/
private lemma WorkInv.step (hwf : g.WF) {r e : ℕ} {V W V' W' : List ℕ}
    (hinv : WorkInv g r V (e :: W)) (he : FlavorOk (g.node e))
    (hp : pushKids g (g.node e).children V W = some (V', W')) : WorkInv g r V' W' := by
  obtain ⟨new, rfl, rfl, hnew, hnd, hall⟩ := pushKids_eq_some hp
  have heV := hinv.sub e (List.mem_cons_self _ _)
  have hdisj : ∀ x ∈ new, x ∉ V := fun x hx => (hnew x hx).2
  refine ⟨List.mem_append_right _ hinv.root, fun n hn => ?_, fun n hn => ?_, fun n hn hnW => ?_,
    hnd.append hinv.nodupV fun x hx hxV => hdisj x hx hxV, ?_, fun n hn => ?_⟩
  · rcases List.mem_append.mp hn with hn | hn
    · exact (hinv.reach e heV).tail (hnew n hn).1
    · exact hinv.reach n hn
  · rcases List.mem_append.mp hn with hn | hn
    · exact List.mem_append_left _ hn
    · exact List.mem_append_right _ (hinv.sub n (List.mem_cons_of_mem _ hn))
  · have hnV : n ∈ V := (List.mem_append.mp hn).resolve_left fun h => hnW (List.mem_append_left _ h)
    by_cases hne : n = e
    · subst hne
      exact ⟨⟨he, fun c hc => (hall c hc).1⟩, fun c hc => (hall c hc).2⟩
    · have hnW' : n ∉ e :: W := by
        simp only [List.mem_cons, not_or]; exact ⟨hne, fun h => hnW (List.mem_append_right _ h)⟩
      obtain ⟨hs, hk⟩ := hinv.closed n hnV hnW'
      exact ⟨hs, fun c hc => List.mem_append_right _ (hk c hc)⟩
  · exact hnd.append (List.nodup_cons.mp hinv.nodupW).2 fun x hx hxW =>
      hdisj x hx (hinv.sub x (List.mem_cons_of_mem _ hxW))
  · rcases List.mem_append.mp hn with hn | hn
    · exact .inr (hwf.child_lt e n (hnew n hn).1).2
    · exact hinv.bound n hn

/-- **The worklist invariant**: every run from a state satisfying `WorkInv` with enough fuel
(each remaining pop and each undiscovered node costs one unit) ends in a `Verdict`. -/
theorem repairableLoop_verdict (hwf : g.WF) {r : ℕ} :
    ∀ fuel V W, WorkInv g r V W → W.length + (g.size + 1 - V.length) ≤ fuel →
      Verdict g r (repairableLoop g fuel V W)
  | _, V, [], hinv, _ => by simpa [repairableLoop, Verdict] using hinv.done
  | 0, V, e :: W, _, hf => by simp at hf
  | fuel + 1, V, e :: W, hinv, hf => by
    have hre := hinv.reach e (hinv.sub e (List.mem_cons_self _ _))
    simp only [repairableLoop]
    by_cases h1 : (g.node e).flavor ∈ acceptable
    swap
    · rw [if_pos h1]; exact ⟨e, hre, fun h => h1 h.1⟩
    rw [if_neg (not_not.mpr h1)]
    by_cases h2 : (g.node e).flavor = .binaryOp ∧ (g.node e).op ≠ .plus ∧ (g.node e).op ≠ .minus
    · rw [if_pos h2]; exact ⟨e, hre, fun h => by rcases h.2 h2.1 with h | h <;> simp_all⟩
    rw [if_neg h2]
    have he : FlavorOk (g.node e) :=
      ⟨h1, fun hb => by by_contra hne; exact h2 ⟨hb, not_or.mp hne⟩⟩
    split
    · next hp => exact ⟨e, hre, he, pushKids_eq_none_iff.mp hp⟩
    · next V' W' hp =>
      have hinv' := hinv.step hwf he hp
      obtain ⟨new, rfl, rfl, -⟩ := pushKids_eq_some hp
      have := length_le_of_bound hinv'.nodupV hinv'.bound
      exact repairableLoop_verdict hwf fuel _ _ hinv' (by simp at hf this ⊢; omega)

/-- The scan starts from the root alone. -/
theorem repairableSubTree_verdict (hwf : g.WF) (r : ℕ) : Verdict g r (repairableSubTree g r) :=
  repairableLoop_verdict hwf _ _ _ ⟨List.mem_singleton_self r, by simpa using .refl, by simp,
    by simp, List.nodup_singleton r, List.nodup_singleton r, by simp⟩ (by simp; omega)

/-- The scan does not read the integrity-check switch. -/
@[simp] lemma repairableSubTree_integrityChecks (b : Bool) (r : ℕ) :
    repairableSubTree { g with integrityChecks := b } r = repairableSubTree g r := by
  have hp : pushKids { g with integrityChecks := b } = pushKids g := by
    funext cs V W
    induction cs generalizing V W <;> simp [pushKids, *]
  have hl : ∀ fuel V W, repairableLoop { g with integrityChecks := b } fuel V W =
      repairableLoop g fuel V W := by
    intro fuel
    induction fuel with
    | zero => intro V W; cases W <;> rfl
    | succ k ih => intro V W; cases W <;> simp [repairableLoop, hp, ih]
  simp [repairableSubTree, hl]

/-- The scan answers `true` exactly when every reachable node is acceptable with expression
children, on every finite graph. -/
theorem repairableSubTree_eq_some_true (hwf : g.WF) (r : ℕ) :
    repairableSubTree g r = some true ↔ ∀ n, g.Reach r n → CloneSafe g n := by
  have hv := repairableSubTree_verdict hwf r
  refine ⟨fun h => by rw [h] at hv; exact hv, fun hall => ?_⟩
  match h : repairableSubTree g r, hv with
  | some true, _ => rfl
  | some false, hv => obtain ⟨n, hn, hf⟩ := hv; exact absurd (hall n hn).1 hf
  | none, hv =>
    obtain ⟨n, hn, -, c, hc, hs⟩ := hv
    simp [(hall n hn).2 c hc] at hs

/-- **What the scan answers on every finite graph**, cyclic or not, with no precondition: it
always stops, since the visited set bounds the work; it answers `true` exactly when every
reachable node passes the loop body, `false` only at a reachable node that fails a check, and it
fails its assertion only at a reachable node that passes the checks and has a statement child. -/
theorem repairableSubTree_outcome (hwf : g.WF) (r : ℕ) :
    (repairableSubTree g r = some true ↔ ∀ n, g.Reach r n → CloneSafe g n) ∧
      (repairableSubTree g r = some false → ∃ n, g.Reach r n ∧ ¬ FlavorOk (g.node n)) ∧
      (repairableSubTree g r = none → ∃ n, g.Reach r n ∧ FlavorOk (g.node n) ∧
        ∃ c ∈ (g.node n).children, (g.node c).isStmt) := by
  have hv := repairableSubTree_verdict hwf r
  refine ⟨repairableSubTree_eq_some_true hwf r, fun h => ?_, fun h => ?_⟩ <;> rwa [h] at hv

/-! ### The recursive predicate -/

/-- The recursive whitelist predicate: the node passes both checks and so does every child. -/
inductive Repairable (g : Graph) : ℕ → Prop where
  | intro {n : ℕ} : FlavorOk (g.node n) → (∀ c ∈ (g.node n).children, Repairable g c) →
      Repairable g n

lemma Repairable.flavorOk_of_reach {n : ℕ} (h : Repairable g n) :
    ∀ m, g.Reach n m → FlavorOk (g.node m) := by
  intro m hm
  induction hm using Relation.ReflTransGen.head_induction_on with
  | refl => exact h.rec (fun hf _ _ => hf)
  | head hc _ ih => exact ih (by cases h with | intro _ hk => exact hk _ hc)

lemma repairable_of_depthLt {d : ℕ} : ∀ {n}, g.DepthLt d n →
    (∀ m, g.Reach n m → FlavorOk (g.node m)) → Repairable g n := by
  induction d with
  | zero => exact fun h => h.elim
  | succ d ih =>
    intro n hd hall
    exact ⟨hall n .refl, fun c hc => ih (hd c hc) fun m hm => hall m (.head hc hm)⟩

/-- **`repairableSubTree`** (C++ `IntegrityVisitor::repairableSubTree`): on every finite graph,
cyclic or not, when every acceptable reachable node has expression children, the scan fails no
assertion and answers `true` exactly when every reachable node is acceptable with a `+` or `-`
operator on binary operations; on an acyclic graph that is the recursive predicate. -/
theorem repairableSubTree_spec (hwf : g.WF) {e : ℕ}
    (hpre : ∀ n, g.Reach e n → (g.node n).flavor ∈ acceptable →
      ∀ c ∈ (g.node n).children, (g.node c).isStmt = false) :
    ∃ b, repairableSubTree g e = some b ∧ (b = true ↔ ∀ n, g.Reach e n → FlavorOk (g.node n)) ∧
      (g.Acyclic → (b = true ↔ Repairable g e)) := by
  have hsafe : (∀ n, g.Reach e n → FlavorOk (g.node n)) ↔ ∀ n, g.Reach e n → CloneSafe g n :=
    ⟨fun h n hn => ⟨h n hn, hpre n hn (h n hn).1⟩, fun h n hn => (h n hn).1⟩
  have hv := repairableSubTree_verdict hwf e
  match h : repairableSubTree g e, hv with
  | none, hv =>
    obtain ⟨n, hn, hf, c, hc, hs⟩ := hv
    simp [hpre n hn hf.1 c hc] at hs
  | some b, _ =>
    have hb : b = true ↔ ∀ n, g.Reach e n → FlavorOk (g.node n) := by
      rw [hsafe, ← repairableSubTree_eq_some_true hwf, h, Option.some_inj]
    refine ⟨b, rfl, hb, fun hac => hb.trans ⟨fun hall => ?_, fun hr => hr.flavorOk_of_reach⟩⟩
    obtain ⟨rank, hr, -⟩ := g.exists_rank hwf hac
    exact repairable_of_depthLt (g.depthLt_of_rank rank hr e) hall

/-- `p + *p`, where the dereference reads the sum itself: a cycle through two acceptable
nodes. -/
def cycleGraph : Graph :=
  .ofList [⟨false, .binaryOp, .plus, false, [1], []⟩, ⟨false, .deref, .other, false, [0], []⟩] 0

/-- On the cycle the scan terminates without assertion failure. -/
theorem repairableSubTree_cycleGraph :
    ∃ b, repairableSubTree cycleGraph 0 = some b ∧
      (b = true ↔ ∀ n, cycleGraph.Reach 0 n → FlavorOk (cycleGraph.node n)) ∧
      (cycleGraph.Acyclic → (b = true ↔ Repairable cycleGraph 0)) :=
  repairableSubTree_spec (by unfold cycleGraph; exact Graph.ofList_wf (by decide))
    fun n _ _ => Graph.ofList_forall
      (P := fun b => ∀ c ∈ b.children, (cycleGraph.node c).isStmt = false) (by decide)
      (by simp [Bnode.empty]) n

/-- A sum (node 2) over a conversion (node 1) whose operand is a statement (node 0): the scan of
the sum stops at the assertion on the conversion's child. -/
def stmtOperandGraph : Graph :=
  .ofList [⟨true, .other, .other, false, [], []⟩, ⟨false, .conversion, .other, false, [0], []⟩,
    ⟨false, .binaryOp, .plus, false, [1], []⟩] 0

theorem repairableSubTree_outcome_stmtOperandGraph :
    repairableSubTree stmtOperandGraph 2 = none ∧
      ((repairableSubTree stmtOperandGraph 2 = some true ↔
          ∀ n, stmtOperandGraph.Reach 2 n → CloneSafe stmtOperandGraph n) ∧
        (repairableSubTree stmtOperandGraph 2 = some false →
          ∃ n, stmtOperandGraph.Reach 2 n ∧ ¬ FlavorOk (stmtOperandGraph.node n)) ∧
        (repairableSubTree stmtOperandGraph 2 = none → ∃ n, stmtOperandGraph.Reach 2 n ∧
          FlavorOk (stmtOperandGraph.node n) ∧
            ∃ c ∈ (stmtOperandGraph.node n).children, (stmtOperandGraph.node c).isStmt)) :=
  ⟨rfl, repairableSubTree_outcome (by unfold stmtOperandGraph; exact Graph.ofList_wf (by decide)) 2⟩

end TreeIntegrity
