import StubGen.Proofs.Command.Outcome

/-!
# What commands do to the disk

What a command prints aside, it is a function of the disk that may have no result: it hands
over a value and leaves a disk. The function of a command is put together from those of its
parts, and says when the command succeeds as well as what it does then.
-/

namespace StubGen

namespace Command

/-- An action that succeeds exactly if the function has a result for the disk, and then hands
over the value and leaves the disk that the function tells. -/
def Acts {α : Type} (action : Command α) (effect : Disk → Option (α × Disk)) : Prop :=
  ∀ w a d, (∃ w', action.run w = .ok a w' ∧ w'.disk = d) ↔ effect w.disk = some (a, d)

variable {α β : Type} {action : Command α} {effect : Disk → Option (α × Disk)}

/-- Two functions with the same results describe the same action. -/
theorem Acts.congr {other : Disk → Option (α × Disk)} (h : Acts action effect)
    (hsame : ∀ d, effect d = other d) : Acts action other := by
  rwa [← funext hsame]

/-- Two actions in a row. -/
theorem Acts.bind {next : α → Command β} {g : α → Disk → Option (β × Disk)}
    (h : Acts action effect) (hnext : ∀ a, Acts (next a) (g a)) :
    Acts (action >>= next) fun d => (effect d).bind fun result => g result.1 result.2 := by
  intro w b d
  rw [EStateM.run_bind]
  constructor
  · rintro ⟨w', hrun, hdisk⟩
    cases hfirst : action.run w with
    | ok a w₁ =>
      rw [hfirst] at hrun
      have hthen := (hnext a w₁ b d).mp ⟨w', hrun, hdisk⟩
      exact Option.bind_eq_some_iff.mpr ⟨_, (h w a w₁.disk).mp ⟨w₁, hfirst, rfl⟩, hthen⟩
    | error e w₁ =>
      rw [hfirst] at hrun
      contradiction
  · intro hboth
    obtain ⟨⟨a, d₁⟩, hfirst, hthen⟩ := Option.bind_eq_some_iff.mp hboth
    obtain ⟨w₁, hrun, rfl⟩ := (h w a d₁).mpr hfirst
    rw [hrun]
    exact (hnext a w₁ b d).mpr hthen

/-- Handing over a value leaves the disk alone. -/
theorem acts_pure (a : α) : Acts (pure a) fun d => some (a, d) := by
  intro w b d
  constructor
  · rintro ⟨w', hrun, rfl⟩
    obtain ⟨rfl, rfl⟩ := EStateM.Result.ok.inj hrun
    rfl
  · intro h
    obtain ⟨rfl, rfl⟩ := Prod.mk.inj (Option.some.inj h)
    exact ⟨w, rfl, rfl⟩

/-- Failing has no result. -/
theorem acts_throw (e : CommandError) : Acts (throw e : Command α) fun _ => none := by
  intro w a d
  refine iff_of_false ?_ (by simp)
  rintro ⟨w', hrun, -⟩
  contradiction

/-- Looking at the world shows the disk; what was printed may be looked at as well. -/
theorem acts_get_bind {next : World → Command α} {g : Disk → Disk → Option (α × Disk)}
    (h : ∀ w, Acts (next w) (g w.disk)) : Acts (get >>= next) fun d => g d d :=
  fun w a d => h w w a d

/-- Printing leaves the disk alone. -/
theorem Prints.acts {action : Command Unit} (h : Prints action) :
    Acts action fun d => some ((), d) := by
  intro w a d
  obtain ⟨w', hdisk, hrun⟩ := h w
  constructor
  · rintro ⟨w₁, hrun₁, rfl⟩
    rw [hrun] at hrun₁
    obtain ⟨-, rfl⟩ := EStateM.Result.ok.inj hrun₁
    rw [hdisk]
  · intro heq
    exact ⟨w', hrun, hdisk.trans (Prod.mk.inj (Option.some.inj heq)).2⟩

/-- What is printed first makes no difference. -/
theorem Prints.acts_bind {first : Command Unit} (h : Prints first) {next : Unit → Command α}
    (hnext : Acts (next ()) effect) : Acts (first >>= next) effect :=
  (h.acts.bind fun _ => hnext).congr fun _ => rfl

/-- One of two actions. -/
theorem acts_ite {condition : Prop} [Decidable condition] {other : Command α}
    {otherEffect : Disk → Option (α × Disk)} (h : condition → Acts action effect)
    (hother : ¬ condition → Acts other otherEffect) :
    Acts (if condition then action else other)
      fun d => if condition then effect d else otherEffect d := by
  by_cases hcondition : condition
  · simpa only [if_pos hcondition] using h hcondition
  · simpa only [if_neg hcondition] using hother hcondition

/-- Asking for a value leaves the disk alone. -/
theorem acts_require (failure : CommandError) (value : Option α) :
    Acts (require failure value) fun d => value.map (·, d) := by
  cases value with
  | none => exact acts_throw failure
  | some a => exact acts_pure a

/-- Changing the disk. -/
theorem acts_changeDisk (failure : CommandError) (change : Disk → Option Disk) :
    Acts (changeDisk failure change) fun d => (change d).map ((), ·) := by
  intro w a d
  have hrun : (changeDisk failure change).run w =
      match change w.disk with
      | some disk => .ok () { w with disk }
      | none => .error failure w := by
    simp only [changeDisk, EStateM.run_bind, EStateM.run_get]
    cases change w.disk <;> rfl
  rw [hrun]
  cases hchange : change w.disk with
  | none => simp [hchange]
  | some disk => simp [hchange, eq_comm]

end Command

end StubGen
