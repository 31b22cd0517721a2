import AmplitudeTree.Register.Basic

/-!
# Runs of actions

What an action returns and leaves behind follows from what its parts return and leave behind.
-/

namespace AmplitudeTree.Action

variable {R α β : Type} {reg : Register R}

/-! ## Runs -/

theorem runOn_pure (a : α) (reg : Register R) : (pure a : Action R α).runOn reg = (.ok a, reg) := rfl

theorem runOn_bind (x : Action R α) (f : α → Action R β) (reg : Register R) :
    (x >>= f).runOn reg =
      match x.runOn reg with
      | (.ok a, left) => (f a).runOn left
      | (.error e, left) => (.error e, left) := by
  change (match x.runOn reg with
    | (result, left) => ExceptT.bindCont f result left) = _
  generalize x.runOn reg = run
  obtain ⟨result, left⟩ := run
  cases result <;> rfl

theorem runOn_bind_of_ok {x : Action R α} {a : α} {left : Register R}
    (returns : x.runOn reg = (.ok a, left)) (f : α → Action R β) :
    (x >>= f).runOn reg = (f a).runOn left := by
  rw [runOn_bind, returns]

theorem runOn_bind_of_error {x : Action R α} {e : RegisterError R} {left : Register R}
    (fails : x.runOn reg = (.error e, left)) (f : α → Action R β) :
    (x >>= f).runOn reg = (.error e, left) := by
  rw [runOn_bind, fails]

theorem runOn_bind_pure (x : Action R α) (g : α → β) (reg : Register R) :
    (x >>= fun a => pure (g a)).runOn reg = ((x.runOn reg).1.map g, (x.runOn reg).2) := by
  rw [runOn_bind]
  generalize x.runOn reg = run
  obtain ⟨result, left⟩ := run
  cases result <;> rfl

/-- Two actions one after the other return just in case each of them does. -/
theorem runOn_bind_eq_ok {x : Action R α} {f : α → Action R β} {b : β} {left : Register R} :
    (x >>= f).runOn reg = (.ok b, left) ↔
      ∃ a middle, x.runOn reg = (.ok a, middle) ∧ (f a).runOn middle = (.ok b, left) := by
  constructor
  · intro run
    rw [runOn_bind] at run
    split at run
    · next a middle returned => exact ⟨a, middle, returned, run⟩
    · cases run
  · rintro ⟨a, middle, returned, run⟩
    exact (runOn_bind_of_ok returned f).trans run

/-- Two actions one after the other fail as the first of them or else the second. -/
theorem runOn_bind_eq_error {x : Action R α} {f : α → Action R β} {e : RegisterError R}
    {left : Register R} :
    (x >>= f).runOn reg = (.error e, left) ↔
      x.runOn reg = (.error e, left) ∨
        ∃ a middle, x.runOn reg = (.ok a, middle) ∧ (f a).runOn middle = (.error e, left) := by
  rw [runOn_bind]
  generalize x.runOn reg = run
  obtain ⟨e' | a, middle⟩ := run
  · constructor
    · intro same
      cases same
      exact .inl rfl
    · rintro (same | ⟨a, middle, returned, -⟩)
      · cases same
        rfl
      · cases returned
  · constructor
    · intro failed
      exact .inr ⟨a, middle, rfl, failed⟩
    · rintro (failed | ⟨a, middle, returned, failed⟩)
      · cases failed
      · cases returned
        exact failed

theorem runOn_get (reg : Register R) : (get : Action R (Register R)).runOn reg = (.ok reg, reg) := rfl

theorem runOn_modify (f : Register R → Register R) (reg : Register R) :
    (modify f : Action R Unit).runOn reg = (.ok (), f reg) := rfl

theorem runOn_modifyGet (f : Register R → α × Register R) (reg : Register R) :
    (modifyGet f : Action R α).runOn reg = (.ok (f reg).1, (f reg).2) := rfl

theorem runOn_ofExcept (result : Except (RegisterError R) α) (reg : Register R) :
    (ofExcept result).runOn reg = (result, reg) := rfl

theorem runOn_query (answer : Register R → Except (RegisterError R) α) (reg : Register R) :
    (query answer).runOn reg = (answer reg, reg) := rfl

theorem runOn_check (condition : Register R → Except (RegisterError R) Unit) (reg : Register R) :
    (check condition).runOn reg = (condition reg, reg) := rfl

theorem runOn_check_bind_eq_ok {condition : Register R → Except (RegisterError R) Unit}
    {x : Action R α} {a : α} {left : Register R} :
    (check condition >>= fun _ => x).runOn reg = (.ok a, left) ↔
      condition reg = .ok () ∧ x.runOn reg = (.ok a, left) := by
  rw [runOn_bind, runOn_check]
  cases condition reg with
  | ok _ => exact (and_iff_right rfl).symm
  | error e => exact iff_of_false nofun nofun

theorem bind_eq_ok {ε β : Type} {first : Except ε β} {rest : β → Except ε α} {a : α} :
    (first >>= rest) = .ok a ↔ ∃ b, first = .ok b ∧ rest b = .ok a := by
  constructor
  · intro returned
    cases first with
    | error e => cases returned
    | ok b => exact ⟨b, rfl, returned⟩
  · rintro ⟨b, rfl, returned⟩
    exact returned

theorem checks_eq_ok {ε : Type} {first : Except ε Unit} {rest : Except ε α} {a : α} :
    (first >>= fun _ => rest) = .ok a ↔ first = .ok () ∧ rest = .ok a := by
  cases first with
  | error e => exact iff_of_false nofun nofun
  | ok _ => exact (and_iff_right rfl).symm

theorem refused_eq_ok {ε β : Type} {refused : Prop} [Decidable refused] {e : ε}
    {after : β → Except ε α} {rest : Except ε α} {a : α} :
    (if refused then throw e >>= after else rest) = .ok a ↔ ¬ refused ∧ rest = .ok a := by
  split
  · next given => exact iff_of_false nofun fun found => found.1 given
  · next free => exact (and_iff_right free).symm

end AmplitudeTree.Action
