import Mathlib.Data.List.Induction
import StubGen.Proofs.Generator.Pass

/-!
# Conversations between programs and hosts

During a pass a program and its host take turns: the program hands over a fragment, the host
answers, and the program goes on as it likes. It may ignore a refusal, hand over a name again,
or fail for reasons of its own.

Whatever the program does, the host keeps the first fragment of each name, in the order in
which the names came up, and refuses every other fragment without a trace.
-/

namespace StubGen

/-- A fragment that a program handed over, and the answer that it got. -/
structure Exchange where
  fragment : Fragment
  answer : Except GeneratorError Unit

/-- The fragments that were taken in, in order. -/
def Exchange.takenIn (conversation : List Exchange) : List Fragment :=
  (conversation.filter (·.answer.isOk)).map (·.fragment)

namespace Exchange

@[simp] theorem takenIn_nil : takenIn [] = [] := rfl

/-- An accepted fragment is taken in last. -/
theorem takenIn_concat_of_ok {before : List Exchange} {e : Exchange} (h : e.answer = .ok ()) :
    takenIn (before ++ [e]) = takenIn before ++ [e.fragment] := by
  simp [takenIn, h, Except.isOk, Except.toBool]

/-- A refusal takes nothing in. -/
theorem takenIn_concat_of_error {before : List Exchange} {e : Exchange} {error : GeneratorError}
    (h : e.answer = .error error) : takenIn (before ++ [e]) = takenIn before := by
  simp [takenIn, h, Except.isOk, Except.toBool]

end Exchange

/-- The program hands over the fragments of a conversation, hears the answers, and ends in the
outcome. -/
inductive Program.Converses :
    Program → List Exchange → Except GeneratorError Unit → Prop where
  | finish (outcome : Except GeneratorError Unit) : Converses (.finish outcome) [] outcome
  | add {fragment : Fragment} {next : Except GeneratorError Unit → Program}
      {answer : Except GeneratorError Unit} {rest : List Exchange}
      {outcome : Except GeneratorError Unit} (h : Converses (next answer) rest outcome) :
      Converses (.add fragment next) ({ fragment, answer } :: rest) outcome

namespace Pass

/-- The pass after the fragments of a conversation were handed over. -/
def after (p : Pass) (conversation : List Exchange) : Pass :=
  conversation.foldl (fun p e => (p.add e.fragment).1) p

/-- Every answer in the conversation is the one that the pass gives at that moment. -/
def Answers (p : Pass) (conversation : List Exchange) : Prop :=
  ∀ before e rest, conversation = before ++ e :: rest →
    ((p.after before).add e.fragment).2 = e.answer

variable {p : Pass} {conversation : List Exchange}

@[simp] theorem after_nil (p : Pass) : p.after [] = p := rfl

@[simp] theorem after_cons (p : Pass) (e : Exchange) (rest : List Exchange) :
    p.after (e :: rest) = (p.add e.fragment).1.after rest := rfl

@[simp] theorem after_concat (p : Pass) (before : List Exchange) (e : Exchange) :
    p.after (before ++ [e]) = ((p.after before).add e.fragment).1 := by
  simp [after]

@[simp] theorem generator_add (p : Pass) (f : Fragment) : (p.add f).1.generator = p.generator := by
  unfold add
  split <;> rfl

@[simp] theorem reserved_add (p : Pass) (f : Fragment) : (p.add f).1.reserved = p.reserved := by
  unfold add
  split <;> rfl

/-- A pass never changes the generator that it belongs to. -/
@[simp] theorem generator_after (p : Pass) (conversation : List Exchange) :
    (p.after conversation).generator = p.generator := by
  induction conversation generalizing p with
  | nil => rfl
  | cons e rest ih => simp [ih]

/-- A pass never reserves further names. -/
@[simp] theorem reserved_after (p : Pass) (conversation : List Exchange) :
    (p.after conversation).reserved = p.reserved := by
  induction conversation generalizing p with
  | nil => rfl
  | cons e rest ih => simp [ih]

/-- With nothing reserved, the names that a pass holds are those of its fragments. -/
theorem holds_iff (h : p.reserved = []) {hintName : String} :
    p.holds hintName = true ↔ hintName ∈ p.sources.map (·.hintName) := by
  simp [holds, h]

/-- A fragment whose name is held is refused, and the pass stays as it is. -/
theorem add_of_holds {f : Fragment} (h : p.holds f.hintName = true) :
    p.add f = (p, .error (.duplicateHintName p.generator f.hintName)) := by
  simp [add, h]

/-- Answers up to some moment are answers. -/
theorem Answers.of_append {before rest : List Exchange} (h : p.Answers (before ++ rest)) :
    p.Answers before := by
  intro earlier e later heq
  exact h earlier e (later ++ rest) (by simp [heq])

/-- The last answer of a conversation. -/
theorem Answers.last {before : List Exchange} {e : Exchange} (h : p.Answers (before ++ [e])) :
    ((p.after before).add e.fragment).2 = e.answer :=
  h before e [] rfl

/-- Every run of a program is a conversation. -/
theorem exists_conversation (p : Pass) (program : Program) :
    ∃ conversation, program.Converses conversation (p.run program).2 ∧ p.Answers conversation ∧
      (p.run program).1 = p.after conversation := by
  induction program generalizing p with
  | finish outcome => exact ⟨[], .finish outcome, by simp [Answers], rfl⟩
  | add fragment next ih =>
    obtain ⟨rest, hconverses, hanswers, hafter⟩ := ih (p.add fragment).2 (p.add fragment).1
    refine ⟨{ fragment, answer := (p.add fragment).2 } :: rest, .add hconverses, ?_, hafter⟩
    intro before e later heq
    cases before with
    | nil =>
      obtain ⟨rfl, -⟩ := List.cons.inj heq
      rfl
    | cons first before =>
      obtain ⟨rfl, hrest⟩ := List.cons.inj heq
      exact hanswers before e later hrest

/-- The fragments of a pass are those that it had and those taken in since. -/
theorem sources_after (h : p.Answers conversation) :
    (p.after conversation).sources = p.sources ++ Exchange.takenIn conversation := by
  induction conversation using List.reverseRecOn with
  | nil => simp
  | append_singleton before e ih =>
    have hlast := h.last
    have hbefore := ih h.of_append
    rw [after_concat]
    cases hholds : (p.after before).holds e.fragment.hintName with
    | true =>
      rw [add_of_holds hholds] at hlast ⊢
      rw [Exchange.takenIn_concat_of_error hlast.symm, hbefore]
    | false =>
      rw [add_of_not_holds hholds] at hlast ⊢
      rw [Exchange.takenIn_concat_of_ok hlast.symm, hbefore, List.append_assoc]

end Pass

/-- What a host makes of a conversation in a pass of one generator. -/
structure Exchange.KeepsFirst (generator : String) (conversation : List Exchange) : Prop where
  /-- The pass has stored what was taken in so far, at every moment. -/
  stored : ∀ before rest, conversation = before ++ rest →
    (Pass.after { generator } before).sources = takenIn before
  /-- A name that was added already is refused, and what is stored stays as it is. -/
  refused : ∀ before e rest, conversation = before ++ e :: rest →
    e.fragment.hintName ∈ (takenIn before).map (·.hintName) →
      e.answer = .error (.duplicateHintName generator e.fragment.hintName) ∧
        (Pass.after { generator } (before ++ [e])).sources =
          (Pass.after { generator } before).sources
  /-- Any other name is accepted. -/
  accepted : ∀ before e rest, conversation = before ++ e :: rest →
    e.fragment.hintName ∉ (takenIn before).map (·.hintName) → e.answer = .ok ()
  distinct : ((takenIn conversation).map (·.hintName)).Nodup
  /-- What is kept under a name is what was first handed over under it. -/
  first : ∀ hintName, (takenIn conversation).find? (·.hintName == hintName) =
    (conversation.map (·.fragment)).find? (·.hintName == hintName)

namespace Pass

variable {generator : String} {conversation : List Exchange}

/-- In a new pass, the names that count as added are those of the fragments taken in. -/
theorem holds_after_iff (h : Answers { generator } conversation) {hintName : String} :
    (after { generator } conversation).holds hintName = true ↔
      hintName ∈ (Exchange.takenIn conversation).map (·.hintName) := by
  rw [holds_iff (by simp), sources_after h, List.nil_append]

variable {before rest : List Exchange} {e : Exchange}

/-- In a new pass, a name that was added already is refused. -/
theorem Answers.refused (h : Answers { generator } (before ++ e :: rest))
    (hmem : e.fragment.hintName ∈ (Exchange.takenIn before).map (·.hintName)) :
    e.answer = .error (.duplicateHintName generator e.fragment.hintName) := by
  have hholds := (holds_after_iff h.of_append).mpr hmem
  rw [← h before e rest rfl, add_of_holds hholds, generator_after]

/-- In a new pass, any other name is accepted. -/
theorem Answers.accepted (h : Answers { generator } (before ++ e :: rest))
    (hmem : e.fragment.hintName ∉ (Exchange.takenIn before).map (·.hintName)) :
    e.answer = .ok () := by
  have hholds := Bool.eq_false_iff.mpr (mt (holds_after_iff h.of_append).mp hmem)
  rw [← h before e rest rfl, add_of_not_holds hholds]

/-- No two fragments of one name are taken in. -/
theorem nodup_takenIn (h : Answers { generator } conversation) :
    ((Exchange.takenIn conversation).map (·.hintName)).Nodup := by
  induction conversation using List.reverseRecOn with
  | nil => simp
  | append_singleton before e ih =>
    have hbefore := ih h.of_append
    by_cases hmem : e.fragment.hintName ∈ (Exchange.takenIn before).map (·.hintName)
    · rwa [Exchange.takenIn_concat_of_error (h.refused hmem)]
    · rw [Exchange.takenIn_concat_of_ok (h.accepted hmem), List.map_append]
      exact hbefore.append (List.nodup_singleton _) (List.disjoint_singleton.mpr hmem)

/-- The fragment that is taken in under a name is the first one handed over under it. -/
theorem find?_takenIn (h : Answers { generator } conversation) (hintName : String) :
    (Exchange.takenIn conversation).find? (·.hintName == hintName) =
      (conversation.map (·.fragment)).find? (·.hintName == hintName) := by
  induction conversation using List.reverseRecOn with
  | nil => rfl
  | append_singleton before e ih =>
    have hbefore := ih h.of_append
    rw [List.map_append, List.find?_append, ← hbefore]
    by_cases hmem : e.fragment.hintName ∈ (Exchange.takenIn before).map (·.hintName)
    · rw [Exchange.takenIn_concat_of_error (h.refused hmem)]
      -- If the refused fragment has the name looked for, one of that name was there before.
      by_cases hname : e.fragment.hintName = hintName
      · obtain ⟨f, hf, hfname⟩ := List.mem_map.mp hmem
        have hfound : ((Exchange.takenIn before).find? (·.hintName == hintName)).isSome := by
          rw [List.find?_isSome]
          exact ⟨f, hf, by simp [hfname, hname]⟩
        rw [Option.or_of_isSome hfound]
      · simp [hname]
    · rw [Exchange.takenIn_concat_of_ok (h.accepted hmem), List.find?_append]
      rfl

/-- A new pass keeps the first fragment of each name. -/
theorem Answers.keepsFirst (h : Answers { generator } conversation) :
    Exchange.KeepsFirst generator conversation where
  stored := by
    intro before rest heq
    subst heq
    rw [sources_after h.of_append, List.nil_append]
  refused := by
    intro before e rest heq hmem
    subst heq
    have hholds := (holds_after_iff h.of_append).mpr hmem
    exact ⟨h.refused hmem, by rw [after_concat, add_of_holds hholds]⟩
  accepted := by
    intro before e rest heq hmem
    subst heq
    exact h.accepted hmem
  distinct := nodup_takenIn h
  first := find?_takenIn h

end Pass

end StubGen
