import StubGen.Proofs.Tree.Building

/-!
# What a walk shows

A walk is a loop over a stack. In each round the last node is taken off the stack and shown to
the visitor, and unless the visitor halts, its children are put on in reverse order. Such a
loop carries no bound on its rounds. It always comes to an end, with the result of the
bounded walk, so the bound is never reached.

The nodes shown are those of the recursive pre-order up to and including the first one at which
the visitor halts, and all of them if it never does. The visitor may be any function of its own
state, so whether it halts at a node can depend on all that it was shown before.
-/

namespace StubGen

section Shown

variable {α σ : Type}

/-- A visitor that keeps, beside its own state, the elements it was shown. -/
def recording (visit : σ → α → σ × Flow) (state : σ × List α) (a : α) : (σ × List α) × Flow :=
  match visit state.1 a with
  | (s, flow) => ((s, state.2 ++ [a]), flow)

/-- Shown the elements of a list one after the other, the visitor goes on at each of them, and its
state changes from the first to the second one. -/
inductive Passes (visit : σ → α → σ × Flow) : σ → List α → σ → Prop
  | nil (s : σ) : Passes visit s [] s
  | cons {s s' s'' : σ} {a : α} {rest : List α} (h : visit s a = (s', .proceed))
      (hrest : Passes visit s' rest s'') : Passes visit s (a :: rest) s''

/-- How much of an order a visitor is shown, and what it leaves: all of the order if it goes on at
every element, and otherwise its beginning up to and including the first element at which it
halts. -/
inductive ShownUntilHalt (visit : σ → α → σ × Flow) (s : σ) :
    List α → List α → σ × Flow → Prop
  | all {order : List α} {s' : σ} (h : Passes visit s order s') :
      ShownUntilHalt visit s order order (s', .proceed)
  | halted {before after : List α} {a : α} {s' s'' : σ} (hbefore : Passes visit s before s')
      (h : visit s' a = (s'', .halt)) :
      ShownUntilHalt visit s (before ++ a :: after) (before ++ [a]) (s'', .halt)

/-- Going on at one more element in front. -/
theorem ShownUntilHalt.cons {visit : σ → α → σ × Flow} {s s' : σ} {a : α} {order shown : List α}
    {out : σ × Flow} (h : visit s a = (s', .proceed))
    (hrest : ShownUntilHalt visit s' order shown out) :
    ShownUntilHalt visit s (a :: order) (a :: shown) out := by
  cases hrest with
  | all hpasses => exact .all (.cons h hpasses)
  | halted hbefore hhalt => exact .halted (.cons h hbefore) hhalt

/-- Keeping what is shown does not change the result, and what is kept is the order up to the first
element at which the visitor halts. -/
theorem visitAll_recording (visit : σ → α → σ × Flow) (order seen : List α) (s : σ) :
    ∃ shown, ShownUntilHalt visit s order shown (visitAll visit order s) ∧
      visitAll (recording visit) order (s, seen) =
        (((visitAll visit order s).1, seen ++ shown), (visitAll visit order s).2) := by
  induction order generalizing s seen with
  | nil => exact ⟨[], .all (.nil s), by simp [visitAll]⟩
  | cons a rest ih =>
    rcases hvisit : visit s a with ⟨s', _ | _⟩
    · obtain ⟨shown, hshown, hkept⟩ := ih (seen ++ [a]) s'
      refine ⟨a :: shown, ?_, ?_⟩
      · simp only [visitAll, hvisit]
        exact hshown.cons hvisit
      · simp only [visitAll, recording, hvisit] at hkept ⊢
        rw [hkept, List.append_assoc]
        rfl
    · refine ⟨[a], ?_, ?_⟩
      · simp only [visitAll, hvisit]
        exact .halted (.nil s) hvisit
      · simp only [visitAll, recording, hvisit]

end Shown

namespace Tree

variable {σ : Type} {t : Tree}

/-- The loop of a walk comes to its end, from a stack and a state of the visitor. The last node is
the top of the stack. -/
inductive LoopEnds (t : Tree) (visit : σ → Fin t.size → σ × Flow) :
    List (Fin t.size) → σ → σ × Flow → Prop
  | empty {stack : List (Fin t.size)} {s : σ} (htop : stack.getLast? = none) :
      LoopEnds t visit stack s (s, .proceed)
  | halted {stack : List (Fin t.size)} {i : Fin t.size} {s s' : σ}
      (htop : stack.getLast? = some i) (h : visit s i = (s', .halt)) :
      LoopEnds t visit stack s (s', .halt)
  | shown {stack : List (Fin t.size)} {i : Fin t.size} {s s' : σ} {out : σ × Flow}
      (htop : stack.getLast? = some i) (h : visit s i = (s', .proceed))
      (hrest : LoopEnds t visit (stack.dropLast ++ (t.children i).reverse) s' out) :
      LoopEnds t visit stack s out

/-- The loop ends in one way only. -/
theorem LoopEnds.unique {visit : σ → Fin t.size → σ × Flow} {stack : List (Fin t.size)} {s : σ}
    {out out' : σ × Flow} (h : t.LoopEnds visit stack s out) (h' : t.LoopEnds visit stack s out') :
    out = out' := by
  induction h with
  | empty htop => cases h' <;> simp_all
  | halted htop hvisit => cases h' <;> simp_all
  | shown htop hvisit hrest ih =>
    cases h' with
    | empty htop' => simp_all
    | halted htop' hvisit' => simp_all
    | shown htop' hvisit' hrest' =>
      obtain rfl := Option.some.inj (htop.symm.trans htop')
      obtain ⟨rfl, -⟩ := Prod.mk.inj (hvisit.symm.trans hvisit')
      exact ih hrest'

/-- With a bound that is large enough, a walk is its loop. -/
theorem loopEnds_walkFrom (visit : σ → Fin t.size → σ × Flow) (bound : Nat)
    (stack : List (Fin t.size)) (s : σ) (h : (stack.flatMap t.preorder).length ≤ bound) :
    t.LoopEnds visit stack.reverse s (t.walkFrom visit bound stack s) := by
  induction bound generalizing stack s with
  | zero =>
    cases stack with
    | nil => exact .empty rfl
    | cons i stack => simp [preorder_eq i] at h
  | succ bound ih =>
    cases stack with
    | nil => exact .empty rfl
    | cons i stack =>
      have htop : (i :: stack).reverse.getLast? = some i := by simp
      rw [walkFrom]
      rcases hvisit : visit s i with ⟨s', _ | _⟩
      · have hnext : ((t.children i ++ stack).flatMap t.preorder).length ≤ bound := by
          rw [List.flatMap_cons, preorder_eq, List.cons_append, ← List.flatMap_append] at h
          exact Nat.le_of_succ_le_succ h
        refine .shown htop hvisit ?_
        rw [List.dropLast_reverse, List.tail_cons, ← List.reverse_append]
        exact ih _ s' hnext
      · exact .halted htop hvisit

/-- The loop that starts with the compilation unit ends, and only with the result of the walk. -/
theorem loopEnds_iff (visit : σ → Fin t.size → σ × Flow) (s : σ) (out : σ × Flow) :
    t.LoopEnds visit [t.root] s out ↔ out = t.walk visit s := by
  have hends : t.LoopEnds visit [t.root] s (t.walk visit s) :=
    loopEnds_walkFrom visit t.size [t.root] s t.length_flatMap_root.le
  constructor
  · intro h
    exact h.unique hends
  · rintro rfl
    exact hends

end Tree

/-- A walk that halts in the first trees of a compilation does not come to the later ones. -/
theorem Compilation.walk_append {σ : Type} (c : Compilation) (later : List Tree)
    (visit : σ → NodeRef → σ × Flow) (s : σ) :
    (⟨c.trees ++ later⟩ : Compilation).walk visit s =
      match c.walk visit s with
      | (s', .halt) => (s', .halt)
      | (s', .proceed) => (⟨later⟩ : Compilation).walk visit s' := by
  have horder : preorder ⟨c.trees ++ later⟩ = c.preorder ++ preorder ⟨later⟩ :=
    List.flatMap_append
  rw [walk_eq_visitAll, horder, visitAll_append, ← walk_eq_visitAll]
  rcases c.walk visit s with ⟨s', _ | _⟩
  · exact (walk_eq_visitAll ⟨later⟩ visit s').symm
  · rfl

/-- The pre-order of a tree lists a node before its children, with all that is below them, in the
order in which they were pushed, and so holds every node of the tree once. The loop of a
walk always ends, in one way, and shows the nodes in that order, up to and including the first
one at which the visitor halts. A walk through a compilation does the same for the orders
of its trees, one after the other: once it is halted, no later tree matters. -/
theorem walks_show_preorder_until_halt :
    (∀ (t : Tree) (parent i : Fin t.size) (d : Declaration),
      ((t.push parent d).children (t.kept parent d i)).map (·.val) =
          (t.children i).map (·.val) ++ (if i = parent then [t.size] else []) ∧
        (t.push parent d).children (t.pushed parent d) = []) ∧
    (∀ t : Tree, (∀ i, t.preorder i = i :: (t.children i).flatMap t.preorder) ∧
      (t.preorder t.root).Nodup ∧ (∀ i, i ∈ t.preorder t.root) ∧
      t.descendants = t.preorder t.root) ∧
    (∀ (σ : Type) (t : Tree) (visit : σ → Fin t.size → σ × Flow) (s : σ),
      (∀ out, t.LoopEnds visit [t.root] s out ↔ out = t.walk visit s) ∧
      ∃ shown, ShownUntilHalt visit s (t.preorder t.root) shown (t.walk visit s) ∧
        t.walk (recording visit) (s, []) =
          (((t.walk visit s).1, shown), (t.walk visit s).2)) ∧
    ∀ (σ : Type) (c : Compilation) (visit : σ → NodeRef → σ × Flow) (s : σ),
      (∃ shown,
        ShownUntilHalt visit s
          (c.trees.flatMap fun t => (t.preorder t.root).map (NodeRef.mk t)) shown
          (c.walk visit s) ∧
        c.walk (recording visit) (s, []) =
          (((c.walk visit s).1, shown), (c.walk visit s).2)) ∧
      ∀ (later : List Tree) (s' : σ), c.walk visit s = (s', .halt) →
        (⟨c.trees ++ later⟩ : Compilation).walk visit s = (s', .halt) := by
  refine ⟨fun t parent i d => ⟨Tree.children_push_kept i, Tree.children_push_pushed⟩,
    fun t => ⟨Tree.preorder_eq, Tree.preorder_nodup t.root, Tree.mem_preorder_root,
      t.descendants_eq_preorder⟩, fun σ t visit s => ?_, fun σ c visit s => ⟨?_, ?_⟩⟩
  · refine ⟨Tree.loopEnds_iff visit s, ?_⟩
    simp only [Tree.walk_eq_visitAll]
    exact visitAll_recording visit (t.preorder t.root) [] s
  · simp only [Compilation.walk_eq_visitAll]
    exact visitAll_recording visit c.preorder [] s
  · intro later s' hhalt
    rw [c.walk_append, hhalt]

end StubGen
