import TreeIntegrity.Repairable

/-!
The state of an `IntegrityVisitor` and its four table operations (`go-llvm-tree-integrity.cpp`):
`shouldBeTracked`, `unsetParent`, and the two overloads of `setParent`, for a child node and for
an instruction. The dumps are text appended to the diagnostic stream `ss_`; what
`Bnode::osdump` and `llvm::Instruction::print` write is left to the `Printers` of the backend.

* `setParent_eq_some`: what one node registration can do, in four cases: nothing, record a
  first parent, add the slot to the ledger quietly (repairable expression sharing, reporting
  suppressed), or add it and count and report the conflict.
* `setParent_tables`: `setParent` never replaces a recorded parent.
* `SameChecks.setParent`: the tests of a registration read the tables, the ledger and the repair
  setting, never the printers, the pointer setting or the stream.
* `unsetParent_erases_other_parent`: `unsetParent` erases the entry of a child whose recorded
  parent differs from the detached one, when only the slot numbers coincide.
-/

namespace TreeIntegrity

/-- `CkTreeVisitDisp`: walk the whole subtree, or register only the node's own edges. -/
inductive VisitMode where
  | batchMode | incrementalMode
  deriving DecidableEq, Repr

/-- `CkTreeRepairDisp`: whether repairable sharing is reported. -/
inductive RepairDisp where
  | dontReportRepairableSharing | reportRepairableSharing
  deriving DecidableEq, Repr

/-- `CkTreePtrDisp`: whether dumps include addresses. -/
inductive PtrDisp where
  | dumpPointers | noDumpPointers
  deriving DecidableEq, Repr

/-- The text the backend's printers write: `node->osdump(ss_, 0, be_->linemap(), false)` for
a node of the graph, and `inst->print(ss_)`. -/
structure Printers where
  osdump : Graph → ℕ → String
  printInst : ℕ → String

/-- The checker's state: the parent tables `nparent_` and `iparent_`, the ledger `sharing_`
(a `std::set`, kept here as a duplicate-free list), the three share counters and the
diagnostic stream `ss_`.

The counters are `unsigned` in the source and natural numbers here, so the model never wraps.
The source can: a batch visit keeps no visited set and walks a shared subtree once per path to
it, and `setParent` counts an instruction at a second parent on every registration without
recording it. A graph of about 35 nodes whose levels each hold the level below twice registers
one shared instruction `2^32` times, and the C++ counter wraps to zero. -/
structure IntegrityVisitor where
  be : Printers
  includePointers : PtrDisp
  doRepairs : RepairDisp
  visitMode : VisitMode
  ss : String
  nparent : ℕ → Option ParSlot
  iparent : ℕ → Option ParSlot
  sharing : List ParSlot
  instShareCount : ℕ
  stmtShareCount : ℕ
  exprShareCount : ℕ

namespace IntegrityVisitor

/-- A freshly constructed visitor: empty tables, empty ledger, zero counters, empty stream. -/
def init (be : Printers) (ptrDisp : PtrDisp) (repairDisp : RepairDisp)
    (visitDisp : VisitMode) : IntegrityVisitor :=
  ⟨be, ptrDisp, repairDisp, visitDisp, "", fun _ => none, fun _ => none, [], 0, 0, 0⟩

/-- `ss_ << ptr` for a `void *`: the address in hexadecimal. -/
def ptrText (ptr : ℕ) : String := "0x" ++ String.mk (Nat.toDigits 16 ptr)

variable (v : IntegrityVisitor) (g : Graph)

/-- The text `dumpTag(tag, ptr)` writes. -/
def dumpTag (tag : String) (ptr : ℕ) : String :=
  tag ++ ": " ++ (if v.includePointers = .dumpPointers then ptrText ptr else "") ++ "\n"

/-- The text `dump(node)` writes. -/
def dump (node : ℕ) : String :=
  v.dumpTag (if (g.node node).isStmt then "stmt" else "expr") node ++ v.be.osdump g node

/-- The text `dump(inst)` writes. -/
def dumpInst (inst : ℕ) : String := v.dumpTag "inst" inst ++ v.be.printInst inst ++ "\n"

end IntegrityVisitor

/-- `shouldBeTracked(child)`: a module-scope expression is exempt from the single-parent rule. -/
def shouldBeTracked (g : Graph) (child : ℕ) : Bool :=
  if !(g.node child).isStmt && (g.node child).moduleScopeValue then false else true

/-- The sharing of `child` is quiet: it is an expression, reporting of repairable sharing is
suppressed (`rd`), and the shared subtree is repairable. -/
def Quiet (g : Graph) (rd : RepairDisp) (child : ℕ) : Prop :=
  (g.node child).isStmt = false ∧ rd = .dontReportRepairableSharing ∧
    repairableSubTree g child = some true

/-- The text `s` occurs in the text `t`: how a line of the diagnostic stream is found. -/
def Occurs (s t : String) : Prop := ∃ a b, t = a ++ s ++ b

lemma Occurs.append_right {s t : String} (h : Occurs s t) (u : String) : Occurs s (t ++ u) :=
  let ⟨a, b, h⟩ := h
  ⟨a, b ++ u, by rw [h]; simp only [String.append_assoc]⟩

lemma occurs_append (t s u : String) : Occurs s (t ++ (s ++ u)) :=
  ⟨t, u, by simp only [String.append_assoc]⟩

lemma Occurs.ne_empty {s t : String} (h : Occurs s t) (hs : s ≠ "") : t ≠ "" := by
  obtain ⟨a, b, rfl⟩ := h
  intro he
  have := congrArg String.data he
  simp only [String.data_append, List.append_eq_nil] at this
  exact hs (String.ext this.1.2)

/-- The stream `t` is the stream `s` with text appended: how the diagnostic stream grows. -/
def Grows (s t : String) : Prop := ∃ u, t = s ++ u

lemma Grows.refl (s : String) : Grows s s := ⟨"", (String.append_empty s).symm⟩

lemma Grows.trans {s t u : String} (h : Grows s t) (h' : Grows t u) : Grows s u :=
  let ⟨a, ha⟩ := h
  let ⟨b, hb⟩ := h'
  ⟨a ++ b, by rw [hb, ha, String.append_assoc]⟩

lemma Grows.ne_empty {s t : String} (h : Grows s t) (hs : s ≠ "") : t ≠ "" := by
  obtain ⟨u, rfl⟩ := h
  exact (occurs_append "" s u).ne_empty hs

section OptionRel

variable {α β γ δ : Type} {r : α → β → Prop} {s : γ → δ → Prop} {a : Option α} {b : Option β}

/-- Related options bound to continuations that take related values to related options. -/
lemma optionRel_bind {f : α → Option γ} {f₂ : β → Option δ} (h : Option.Rel r a b)
    (hf : ∀ x y, r x y → Option.Rel s (f x) (f₂ y)) : Option.Rel s (a.bind f) (b.bind f₂) := by
  cases h with
  | some hxy => exact hf _ _ hxy
  | none => exact .none

lemma optionRel_map {f : α → γ} {f₂ : β → δ} (h : Option.Rel r a b)
    (hf : ∀ x y, r x y → s (f x) (f₂ y)) : Option.Rel s (a.map f) (b.map f₂) := by
  cases h with
  | some hxy => exact .some (hf _ _ hxy)
  | none => exact .none

lemma optionRel_map_eq {f : α → γ} {f₂ : β → γ} (h : Option.Rel r a b)
    (hf : ∀ x y, r x y → f x = f₂ y) : a.map f = b.map f₂ := by
  cases h with
  | some hxy => exact congrArg some (hf _ _ hxy)
  | none => rfl

end OptionRel

namespace IntegrityVisitor

variable (v : IntegrityVisitor) (g : Graph)

/-- `unsetParent(child, parent, slot)`; `none` is the failed `assert(it != nparent_.end())`. -/
def unsetParent (child parent slot : ℕ) : Option IntegrityVisitor :=
  if !shouldBeTracked g child then some v else
  match v.nparent child with
  | none => none
  | some (prevParent, prevSlot) =>
    if prevParent = parent ∨ prevSlot = slot then
      some { v with nparent := Function.update v.nparent child none }
    else some v

/-- The counted branch of `setParent`: bump the counter of the child's kind and capture a
description of the conflict. -/
def reportShare (child prevParent parent : ℕ) : IntegrityVisitor :=
  let wh := if (g.node child).isStmt then "stmt" else "expr"
  let v' := if (g.node child).isStmt then { v with stmtShareCount := v.stmtShareCount + 1 }
    else { v with exprShareCount := v.exprShareCount + 1 }
  { v' with ss := v'.ss ++ ("error: " ++ wh ++ " has multiple parents\n" ++ "child " ++ wh ++
      ":\n" ++ v.dump g child ++ "parent 1:\n" ++ v.dump g prevParent ++ "parent 2:\n" ++
      v.dump g parent) }

/-- `setParent(child, parent, slot)` for a child node; `none` is a failed assertion inside
`repairableSubTree`. -/
def setParent (child parent slot : ℕ) : Option IntegrityVisitor :=
  if !shouldBeTracked g child then some v else
  match v.nparent child with
  | none => some { v with nparent := Function.update v.nparent child (some (parent, slot)) }
  | some (prevParent, prevSlot) =>
    if prevParent = parent ∧ prevSlot = slot then some v
    else if (g.node child).flavor = .error then some v
    else if (parent, slot) ∈ v.sharing then some v
    else
      let v' := { v with sharing := v.sharing ++ [(parent, slot)] }
      let quiet : Option Bool :=
        if (g.node child).isStmt = false ∧ v.doRepairs = .dontReportRepairableSharing then
          repairableSubTree g child
        else some false
      quiet.map fun q => if q then v' else v'.reportShare g child prevParent parent

/-- `setParent(inst, exprParent, slot)` for an instruction: every second parent is counted. -/
def setParentInst (inst exprParent slot : ℕ) : IntegrityVisitor :=
  match v.iparent inst with
  | some (prevParent, prevSlot) =>
    if prevParent = exprParent ∧ prevSlot = slot then v
    else { v with instShareCount := v.instShareCount + 1,
                  ss := v.ss ++ ("error: instruction has multiple parents\n" ++ v.dumpInst inst ++
                    "parent 1:\n" ++ v.dump g prevParent ++ "parent 2:\n" ++ v.dump g exprParent) }
  | none => { v with iparent := Function.update v.iparent inst (some (exprParent, slot)) }

/-! ### What one registration does -/

variable {v : IntegrityVisitor} {g : Graph}

@[simp] lemma nparent_reportShare (c q p : ℕ) : (v.reportShare g c q p).nparent = v.nparent := by
  unfold reportShare; split_ifs <;> rfl

@[simp] lemma iparent_reportShare (c q p : ℕ) : (v.reportShare g c q p).iparent = v.iparent := by
  unfold reportShare; split_ifs <;> rfl

@[simp] lemma sharing_reportShare (c q p : ℕ) : (v.reportShare g c q p).sharing = v.sharing := by
  unfold reportShare; split_ifs <;> rfl

@[simp] lemma instShareCount_reportShare (c q p : ℕ) :
    (v.reportShare g c q p).instShareCount = v.instShareCount := by
  unfold reportShare; split_ifs <;> rfl

@[simp] lemma stmtShareCount_reportShare (c q p : ℕ) :
    (v.reportShare g c q p).stmtShareCount =
      v.stmtShareCount + if (g.node c).isStmt then 1 else 0 := by
  unfold reportShare; split_ifs <;> rfl

@[simp] lemma exprShareCount_reportShare (c q p : ℕ) :
    (v.reportShare g c q p).exprShareCount =
      v.exprShareCount + if (g.node c).isStmt then 0 else 1 := by
  unfold reportShare; split_ifs <;> rfl

@[simp] lemma doRepairs_reportShare (c q p : ℕ) :
    (v.reportShare g c q p).doRepairs = v.doRepairs := by
  unfold reportShare; split_ifs <;> rfl

@[simp] lemma visitMode_reportShare (c q p : ℕ) :
    (v.reportShare g c q p).visitMode = v.visitMode := by
  unfold reportShare; split_ifs <;> rfl

@[simp] lemma be_reportShare (c q p : ℕ) : (v.reportShare g c q p).be = v.be := by
  unfold reportShare; split_ifs <;> rfl

/-- A counted conflict appends a report to the log, opening with the error line of the child's
kind. -/
lemma ss_reportShare (c q p : ℕ) : ∃ t, (v.reportShare g c q p).ss = v.ss ++
    ((if (g.node c).isStmt then "error: stmt has multiple parents\n"
      else "error: expr has multiple parents\n") ++ t) := by
  unfold reportShare
  split_ifs <;> exact ⟨_, by simp only [String.append_assoc]; rfl⟩

/-- The registration of `child` at `(parent, slot)` is a conflict not yet in the ledger: the
child is tracked, recorded at another location, not an error node, and the location is new. -/
def NewConflict (v : IntegrityVisitor) (g : Graph) (child parent slot : ℕ) : Prop :=
  shouldBeTracked g child = true ∧ (∃ q, v.nparent child = some q ∧ q ≠ (parent, slot)) ∧
    (g.node child).flavor ≠ .error ∧ (parent, slot) ∉ v.sharing

/-- **What `setParent` can do** (the inversion lemma every invariant goes through): leave the
state alone, record a first parent, add a quiet conflict to the ledger, or add a conflict to
the ledger and count and report it. -/
theorem setParent_eq_some {v' : IntegrityVisitor} {c p i : ℕ}
    (h : v.setParent g c p i = some v') :
    (v' = v ∧ ¬ (shouldBeTracked g c = true ∧ v.nparent c = none) ∧ ¬ NewConflict v g c p i) ∨
    (shouldBeTracked g c = true ∧ v.nparent c = none ∧
      v' = { v with nparent := Function.update v.nparent c (some (p, i)) }) ∨
    (NewConflict v g c p i ∧ Quiet g v.doRepairs c ∧
      v' = { v with sharing := v.sharing ++ [(p, i)] }) ∨
    (NewConflict v g c p i ∧
      ((g.node c).isStmt = false → v.doRepairs = .dontReportRepairableSharing →
        repairableSubTree g c = some false) ∧
      ∃ q, v.nparent c = some q ∧
        v' = ({ v with sharing := v.sharing ++ [(p, i)] }).reportShare g c q.1 p) := by
  unfold setParent at h
  by_cases ht : shouldBeTracked g c = true
  swap
  · rw [if_pos (by simpa using ht), Option.some.injEq] at h
    exact .inl ⟨h.symm, fun h' => ht h'.1, fun h' => ht h'.1⟩
  rw [if_neg (by simpa using ht)] at h
  rcases hq : v.nparent c with _ | ⟨q₁, q₂⟩
  · simp only [hq, Option.some.injEq] at h
    exact .inr (.inl ⟨ht, rfl, h.symm⟩)
  simp only [hq] at h
  have hkeep : ¬ (shouldBeTracked g c = true ∧ some (q₁, q₂) = none) := fun h => nomatch h.2
  -- the three early returns
  by_cases h1 : q₁ = p ∧ q₂ = i
  · rw [if_pos h1, Option.some.injEq] at h
    obtain ⟨rfl, rfl⟩ := h1
    exact .inl ⟨h.symm, hkeep, fun ⟨_, ⟨q, hq', hne⟩, _⟩ =>
      hne (Option.some.inj (hq'.symm.trans hq))⟩
  rw [if_neg h1] at h
  by_cases h2 : (g.node c).flavor = .error
  · rw [if_pos h2, Option.some.injEq] at h
    exact .inl ⟨h.symm, hkeep, fun hc => hc.2.2.1 h2⟩
  rw [if_neg h2] at h
  by_cases h3 : (p, i) ∈ v.sharing
  · rw [if_pos h3, Option.some.injEq] at h
    exact .inl ⟨h.symm, hkeep, fun hc => hc.2.2.2 h3⟩
  rw [if_neg h3] at h
  -- a new conflict: quiet, or counted and reported
  have hc : NewConflict v g c p i := ⟨ht, ⟨_, hq, fun e => h1 (Prod.mk.inj e)⟩, h2, h3⟩
  by_cases h4 : (g.node c).isStmt = false ∧ v.doRepairs = .dontReportRepairableSharing
  · rw [if_pos h4] at h
    cases hr : repairableSubTree g c with
    | none => rw [hr] at h; exact Option.noConfusion h
    | some b =>
      rw [hr, Option.map_some', Option.some.injEq] at h
      cases b
      · rw [if_neg (by decide)] at h
        exact .inr (.inr (.inr ⟨hc, fun _ _ => rfl, _, rfl, h.symm⟩))
      · rw [if_pos rfl] at h
        exact .inr (.inr (.inl ⟨hc, ⟨h4.1, h4.2, hr⟩, h.symm⟩))
  · rw [if_neg h4, Option.map_some', if_neg (by decide), Option.some.injEq] at h
    exact .inr (.inr (.inr ⟨hc, fun hs hd => absurd ⟨hs, hd⟩ h4, _, rfl, h.symm⟩))

/-- `setParent` fails an assertion only inside `repairableSubTree`, on a new conflict. -/
theorem setParent_ne_none {c p i : ℕ}
    (h : NewConflict v g c p i → (g.node c).isStmt = false →
      v.doRepairs = .dontReportRepairableSharing → repairableSubTree g c ≠ none) :
    v.setParent g c p i ≠ none := by
  unfold setParent
  by_cases ht : shouldBeTracked g c = true
  swap
  · rw [if_pos (by simpa using ht)]; exact Option.some_ne_none _
  rw [if_neg (by simpa using ht)]
  rcases hq : v.nparent c with _ | ⟨q₁, q₂⟩
  · exact Option.some_ne_none _
  simp only
  by_cases h1 : q₁ = p ∧ q₂ = i
  · rw [if_pos h1]; exact Option.some_ne_none _
  rw [if_neg h1]
  by_cases h2 : (g.node c).flavor = .error
  · rw [if_pos h2]; exact Option.some_ne_none _
  rw [if_neg h2]
  by_cases h3 : (p, i) ∈ v.sharing
  · rw [if_pos h3]; exact Option.some_ne_none _
  rw [if_neg h3]
  by_cases h4 : (g.node c).isStmt = false ∧ v.doRepairs = .dontReportRepairableSharing
  · rw [if_pos h4]
    exact fun hr => h ⟨ht, ⟨_, hq, fun e => h1 (Prod.mk.inj e)⟩, h2, h3⟩ h4.1 h4.2
      (Option.map_eq_none'.mp hr)
  · rw [if_neg h4]; exact Option.some_ne_none _

/-- **What `setParent` does for an instruction**: nothing on the recorded location, record a
first parent, or count a second parent and report it. -/
theorem setParentInst_eq (k e j : ℕ) :
    (v.iparent k = some (e, j) ∧ v.setParentInst g k e j = v) ∨
    (v.iparent k = none ∧
      v.setParentInst g k e j = { v with iparent := Function.update v.iparent k (some (e, j)) }) ∨
    (∃ q, v.iparent k = some q ∧ q ≠ (e, j) ∧ ∃ t : String,
      v.setParentInst g k e j =
        { v with instShareCount := v.instShareCount + 1,
                 ss := v.ss ++ ("error: instruction has multiple parents\n" ++ t) }) := by
  unfold setParentInst
  rcases hq : v.iparent k with _ | ⟨q₁, q₂⟩
  · exact .inr (.inl ⟨rfl, rfl⟩)
  simp only
  split_ifs with h
  · obtain ⟨rfl, rfl⟩ := h
    exact .inl ⟨rfl, rfl⟩
  · exact .inr (.inr ⟨_, rfl, by simpa using h, _, by simp only [String.append_assoc]; rfl⟩)

/-- Registrations keep the configuration of the visitor. -/
lemma setParent_config {v' : IntegrityVisitor} {c p i : ℕ} (h : v.setParent g c p i = some v') :
    v'.visitMode = v.visitMode ∧ v'.doRepairs = v.doRepairs ∧ v'.be = v.be := by
  rcases setParent_eq_some h with ⟨rfl, -⟩ | ⟨-, -, rfl⟩ | ⟨-, -, rfl⟩ | ⟨-, -, _, -, rfl⟩ <;>
    simp

lemma setParentInst_config (k e j : ℕ) :
    (v.setParentInst g k e j).visitMode = v.visitMode ∧
      (v.setParentInst g k e j).doRepairs = v.doRepairs ∧ (v.setParentInst g k e j).be = v.be := by
  rcases setParentInst_eq (v := v) (g := g) k e j with ⟨-, h⟩ | ⟨-, h⟩ | ⟨_, -, -, _, h⟩ <;>
    rw [h] <;> simp

/-- `setParent` never replaces a recorded parent of any node, and leaves the instruction table
alone. -/
lemma setParent_tables {v' : IntegrityVisitor} {c p i : ℕ} (h : v.setParent g c p i = some v') :
    (∀ x ps, v.nparent x = some ps → v'.nparent x = some ps) ∧ v'.iparent = v.iparent := by
  rcases setParent_eq_some h with ⟨rfl, -⟩ | ⟨-, hn, rfl⟩ | ⟨-, -, rfl⟩ | ⟨-, -, _, -, rfl⟩
  · exact ⟨fun _ _ => id, rfl⟩
  · refine ⟨fun x ps hx => ?_, rfl⟩
    have hxc : x ≠ c := by rintro rfl; simp [hx] at hn
    simpa [Function.update_noteq hxc] using hx
  · exact ⟨fun _ _ => id, rfl⟩
  · exact ⟨fun _ _ => by simp, by simp⟩

/-- An instruction registration leaves the node table alone and never replaces a recorded
instruction parent. -/
lemma setParentInst_tables (k e j : ℕ) : (v.setParentInst g k e j).nparent = v.nparent ∧
    ∀ x ps, v.iparent x = some ps → (v.setParentInst g k e j).iparent x = some ps := by
  rcases setParentInst_eq (v := v) (g := g) k e j with ⟨-, h⟩ | ⟨hn, h⟩ | ⟨_, -, -, _, h⟩ <;>
    rw [h]
  · exact ⟨rfl, fun _ _ => id⟩
  · refine ⟨rfl, fun x ps hx => ?_⟩
    have hxk : x ≠ k := by rintro rfl; simp [hx] at hn
    simpa [Function.update_noteq hxk] using hx
  · exact ⟨rfl, fun _ _ => id⟩

/-- A node registration only appends to the diagnostic stream. -/
lemma setParent_ss {v' : IntegrityVisitor} {c p i : ℕ} (h : v.setParent g c p i = some v') :
    Grows v.ss v'.ss := by
  rcases setParent_eq_some h with ⟨rfl, -⟩ | ⟨-, -, rfl⟩ | ⟨-, -, rfl⟩ | ⟨-, -, q, -, rfl⟩
  · exact .refl _
  · exact .refl _
  · exact .refl _
  · obtain ⟨t, ht⟩ := ss_reportShare (v := { v with sharing := v.sharing ++ [(p, i)] }) (g := g)
      c q.1 p
    exact ⟨_, ht⟩

/-- An instruction registration only appends to the diagnostic stream. -/
lemma setParentInst_ss (k e j : ℕ) : Grows v.ss (v.setParentInst g k e j).ss := by
  rcases setParentInst_eq (v := v) (g := g) k e j with ⟨-, h⟩ | ⟨-, h⟩ | ⟨_, -, -, t, h⟩ <;>
    rw [h]
  · exact .refl _
  · exact .refl _
  · exact ⟨_, rfl⟩

/-! ### The checks read neither the printers nor the stream -/

/-- Two visitors that agree on everything the checks read: they may differ in their printers,
their pointer setting and their stream. -/
structure SameChecks (v w : IntegrityVisitor) : Prop where
  doRepairs : v.doRepairs = w.doRepairs
  visitMode : v.visitMode = w.visitMode
  nparent : v.nparent = w.nparent
  iparent : v.iparent = w.iparent
  sharing : v.sharing = w.sharing
  instShareCount : v.instShareCount = w.instShareCount
  stmtShareCount : v.stmtShareCount = w.stmtShareCount
  exprShareCount : v.exprShareCount = w.exprShareCount

/-- Fresh visitors with one repair setting and one visit mode. -/
lemma SameChecks.init (be be₂ : Printers) (pd pd₂ : PtrDisp) (rd : RepairDisp) (vm : VisitMode) :
    SameChecks (IntegrityVisitor.init be pd rd vm) (IntegrityVisitor.init be₂ pd₂ rd vm) :=
  ⟨rfl, rfl, rfl, rfl, rfl, rfl, rfl, rfl⟩

namespace SameChecks

variable {w : IntegrityVisitor} (h : SameChecks v w)
include h

lemma reportShare (c q p : ℕ) : SameChecks (v.reportShare g c q p) (w.reportShare g c q p) :=
  ⟨by simp [h.doRepairs], by simp [h.visitMode], by simp [h.nparent], by simp [h.iparent],
    by simp [h.sharing], by simp [h.instShareCount], by simp [h.stmtShareCount],
    by simp [h.exprShareCount]⟩

/-- **A node registration takes related visitors to related visitors**: every test of
`setParent` reads the tables, the ledger and the repair setting, never the printers or the
stream. -/
lemma setParent (c p i : ℕ) :
    Option.Rel SameChecks (v.setParent g c p i) (w.setParent g c p i) := by
  unfold IntegrityVisitor.setParent
  by_cases ht : (!shouldBeTracked g c) = true
  · rw [if_pos ht, if_pos ht]; exact .some h
  rw [if_neg ht, if_neg ht, ← congrFun h.nparent c]
  rcases v.nparent c with _ | ⟨q, j⟩
  · exact .some { h with nparent := by rw [h.nparent] }
  dsimp only
  by_cases h1 : q = p ∧ j = i
  · rw [if_pos h1, if_pos h1]; exact .some h
  rw [if_neg h1, if_neg h1]
  by_cases h2 : (g.node c).flavor = .error
  · rw [if_pos h2, if_pos h2]; exact .some h
  rw [if_neg h2, if_neg h2]
  by_cases h3 : (p, i) ∈ v.sharing
  · have h3w : (p, i) ∈ w.sharing := h.sharing ▸ h3
    rw [if_pos h3, if_pos h3w]; exact .some h
  have h3w : (p, i) ∉ w.sharing := h.sharing ▸ h3
  rw [if_neg h3, if_neg h3w]
  -- both sides ask `repairableSubTree` the same question
  have hq : (if (g.node c).isStmt = false ∧ w.doRepairs = .dontReportRepairableSharing then
      repairableSubTree g c else some false) =
      if (g.node c).isStmt = false ∧ v.doRepairs = .dontReportRepairableSharing then
        repairableSubTree g c else some false := by rw [h.doRepairs]
  rw [hq]
  have hv : SameChecks { v with sharing := v.sharing ++ [(p, i)] }
      { w with sharing := w.sharing ++ [(p, i)] } := { h with sharing := by rw [h.sharing] }
  cases (if (g.node c).isStmt = false ∧ v.doRepairs = .dontReportRepairableSharing then
    repairableSubTree g c else some false) with
  | none => exact .none
  | some b => cases b; exacts [.some (hv.reportShare ..), .some hv]

lemma setParentInst (k e j : ℕ) :
    SameChecks (v.setParentInst g k e j) (w.setParentInst g k e j) := by
  unfold IntegrityVisitor.setParentInst
  rw [← congrFun h.iparent k]
  rcases v.iparent k with _ | ⟨q, l⟩
  · exact { h with iparent := by rw [h.iparent] }
  dsimp only
  split_ifs
  · exact h
  · exact { h with instShareCount := by rw [h.instShareCount] }

end SameChecks

/-! ### Detaching a child -/

/-- A recorded parent survives the detachment of the child from a location that differs from
it in both parent and slot. -/
theorem unsetParent_nparent_of_ne {v' : IntegrityVisitor} {c p i q j : ℕ}
    (hps : v.nparent c = some (p, i)) (hq : q ≠ p) (hj : j ≠ i)
    (h : v.unsetParent g c q j = some v') : v'.nparent c = some (p, i) := by
  unfold unsetParent at h
  split_ifs at h
  · rw [← Option.some.inj h, hps]
  · simp only [hps, if_neg (show ¬(p = q ∨ i = j) by omega), Option.some.injEq] at h
    subst h
    exact hps

end IntegrityVisitor

/-- Two parents, `baz` (node 0) and `foo` (node 1), each holding the tracked variable 2 at
slot 0: the picture in the comment above `unsetParent`, with the shared child at the same slot
of both. -/
def bazFooGraph : Graph where
  node n := if n = 2 then ⟨false, .var, .other, false, [], []⟩
    else ⟨false, .binaryOp, .plus, false, [2], []⟩
  size := 3
  instCount := 0
  integrityChecks := true

/-- Printers that write nothing. -/
def Printers.silent : Printers := ⟨fun _ _ => "", fun _ => ""⟩

/-- **`unsetParent` erases another parent's entry.** After `setParent(X, baz, 0)` records
`(baz, 0)` for `X`, detaching `X` from `foo` at the same slot erases the entry, although the
comment on `unsetParent` asks to preserve the mapping established by `baz`. -/
theorem unsetParent_erases_other_parent :
    (((IntegrityVisitor.init .silent .noDumpPointers .dontReportRepairableSharing
        .incrementalMode).setParent bazFooGraph 2 0 0).bind
      fun v => v.unsetParent bazFooGraph 2 1 0).map (·.nparent 2) = some none := by
  decide

end TreeIntegrity
