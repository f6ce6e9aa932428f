import StubGen.Command

/-!
# How commands end

Two facts that let the outcome of a command be followed part by part. What a command shows to
its user never fails and leaves the disk alone, so it can be passed over; what exactly is
printed is not part of this. And the failures of a command are those of its parts.
-/

namespace StubGen.Command

/-- An action that ends in success and leaves the disk as it is. -/
def Prints (action : Command Unit) : Prop :=
  ∀ w, ∃ w', w'.disk = w.disk ∧ action.run w = .ok () w'

/-- Printing a line only prints. -/
theorem prints_print (line : String) : Prints (print line) :=
  fun w => ⟨{ w with output := w.output ++ line ++ "\n" }, rfl, rfl⟩

/-- Printing a line for the attention of the user only prints. -/
theorem prints_notify (line : String) : Prints (notify line) :=
  fun w => ⟨{ w with notices := w.notices ++ line ++ "\n" }, rfl, rfl⟩

/-- After an action that only prints, the next one goes on with the same disk. -/
theorem Prints.run_bind {action : Command Unit} (h : Prints action) {α : Type}
    (next : Unit → Command α) (w : World) :
    ∃ w', w'.disk = w.disk ∧ (action >>= next).run w = (next ()).run w' := by
  obtain ⟨w', hdisk, hrun⟩ := h w
  refine ⟨w', hdisk, ?_⟩
  rw [EStateM.run_bind, hrun]

/-- Only printing for every element of a list is only printing. -/
theorem prints_forM {α : Type} {action : α → Command Unit} (h : ∀ a, Prints (action a))
    (list : List α) : Prints (list.forM action) := by
  induction list with
  | nil => exact fun w => ⟨w, rfl, rfl⟩
  | cons a rest ih =>
    intro w
    obtain ⟨w₁, hfirst, hrun⟩ := (h a).run_bind (fun _ => rest.forM action) w
    obtain ⟨w₂, hrest, hrunRest⟩ := ih w₁
    exact ⟨w₂, hrest.trans hfirst, hrun.trans hrunRest⟩

/-- Showing the syntax errors only prints. -/
theorem prints_showSyntaxErrors (files : List FileErrors) : Prints (showSyntaxErrors files) :=
  prints_forM (fun _ => prints_forM (fun _ => prints_notify _) _) files

/-- An action whose failures are all of the given kind. -/
def FailsOnly (kind : CommandError → Prop) {α : Type} (action : Command α) : Prop :=
  ∀ w e w', action.run w = .error e w' → kind e

variable {kind : CommandError → Prop} {α β : Type}

/-- What only prints does not fail at all. -/
theorem Prints.failsOnly {action : Command Unit} (h : Prints action) : FailsOnly kind action := by
  intro w e w' hfail
  obtain ⟨w₁, -, hrun⟩ := h w
  rw [hrun] at hfail
  contradiction

/-- Looking at the world does not fail. -/
theorem failsOnly_get : FailsOnly kind (get : Command World) :=
  fun _ _ _ hfail => by contradiction

/-- Handing over a value does not fail. -/
theorem failsOnly_pure (a : α) : FailsOnly kind (pure a : Command α) :=
  fun _ _ _ hfail => by contradiction

/-- Failing is a failure of the kind of its cause. -/
theorem failsOnly_throw {e : CommandError} (he : kind e) :
    FailsOnly kind (throw e : Command α) := by
  intro w e' w' hfail
  obtain ⟨rfl, -⟩ := EStateM.Result.error.inj hfail
  exact he

/-- Two actions in a row fail as one of them does. -/
theorem FailsOnly.bind {action : Command α} {next : α → Command β} (h : FailsOnly kind action)
    (hnext : ∀ a, FailsOnly kind (next a)) : FailsOnly kind (action >>= next) := by
  intro w e w' hfail
  rw [EStateM.run_bind] at hfail
  cases hrun : action.run w with
  | ok a w₁ =>
    rw [hrun] at hfail
    exact hnext a w₁ e w' hfail
  | error e₁ w₁ =>
    rw [hrun] at hfail
    obtain ⟨rfl, -⟩ := EStateM.Result.error.inj hfail
    exact h w e₁ w₁ hrun

/-- Reading a configuration fails over the configuration only. -/
theorem failsOnly_loadConfig (hconfig : ∀ e, kind (.config e)) (directory : Path)
    (explicit : Option Path) : FailsOnly kind (loadConfig directory explicit) := by
  refine failsOnly_get.bind fun w => ?_
  dsimp only
  split
  · exact failsOnly_pure _
  · exact failsOnly_throw (hconfig _)

/-- Loading the sources fails if there is nothing to load or a file cannot be loaded. -/
theorem failsOnly_loadSources (hnone : ∀ p, kind (.noSuchPath p)) (hempty : ∀ p, kind (.noSources p))
    (hsource : ∀ e, kind (.source e)) (p : Path) (exclude : Option Path) :
    FailsOnly kind (loadSources p exclude) := by
  refine failsOnly_get.bind fun w => FailsOnly.bind ?_ fun paths => ?_
  · cases w.disk.sources? p exclude with
    | none => exact failsOnly_throw (hnone p)
    | some paths => exact failsOnly_pure paths
  · split
    · exact failsOnly_throw (hsource _)
    · split
      · exact failsOnly_throw (hempty p)
      · exact failsOnly_pure _

end StubGen.Command
