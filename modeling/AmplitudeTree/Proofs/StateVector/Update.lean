import AmplitudeTree.StateVector.Basic
import Mathlib.Tactic.Basic

/-!
# Updates of state vectors

What an operator returns and leaves behind follows from its checks, in their order, and from what it
does afterwards.  An operator that checks all its operands before it writes leaves a state vector that
it refuses as it was.
-/

namespace AmplitudeTree.StateVector.Update

variable {R α β : Type} {v v' : StateVector R} {op : Update R α} {refused : Prop}
  [Decidable refused] {e : VectorError} {after : β → Update R α}

theorem runOn_query_bind (answer : StateVector R → Except VectorError β) (f : β → Update R α)
    (v : StateVector R) :
    (query answer >>= f).runOn v =
      match answer v with
      | .ok b => (f b).runOn v
      | .error e => (.error e, v) := by
  change (ExceptT.bindCont f (answer v)) v = _
  cases answer v <;> rfl

/-! ## Results -/

theorem outcome_eq_ok {a : α} : op.outcome v = .ok (a, v') ↔ op.runOn v = (.ok a, v') := by
  rw [outcome]
  obtain ⟨result, left⟩ := op.runOn v
  cases result <;> simp

theorem outcome_eq_error : op.outcome v = .error e ↔ (op.runOn v).1 = .error e := by
  rw [outcome]
  obtain ⟨result, left⟩ := op.runOn v
  cases result <;> simp

theorem changed_eq_ok : op.changed v = .ok v' ↔ ∃ a, op.outcome v = .ok (a, v') := by
  rw [changed]
  cases op.outcome v with
  | error e => exact iff_of_false nofun nofun
  | ok out => simp [Except.map, Prod.ext_iff]

theorem changed_eq_error : op.changed v = .error e ↔ op.outcome v = .error e := by
  rw [changed]
  cases op.outcome v <;> simp [Except.map]

/-- An operator after a question returns just in case the question is answered and
the operator returns. -/
theorem outcome_query_bind_eq_ok {answer : StateVector R → Except VectorError β}
    {f : β → Update R α} {out : α × StateVector R} :
    (query answer >>= f).outcome v = .ok out ↔ ∃ b, answer v = .ok b ∧ (f b).outcome v = .ok out := by
  obtain ⟨a, v'⟩ := out
  simp only [outcome_eq_ok, runOn_query_bind]
  cases answer v with
  | error e => exact iff_of_false nofun nofun
  | ok b => simp

theorem outcome_check_bind_eq_ok {condition : StateVector R → Except VectorError Unit}
    {out : α × StateVector R} :
    (check condition >>= fun _ => op).outcome v = .ok out ↔
      condition v = .ok () ∧ op.outcome v = .ok out := by
  rw [check, outcome_query_bind_eq_ok]
  exact ⟨fun ⟨_, passes, ran⟩ => ⟨passes, ran⟩, fun ⟨passes, ran⟩ => ⟨(), passes, ran⟩⟩

theorem changed_query_bind_eq_ok {answer : StateVector R → Except VectorError β}
    {f : β → Update R α} :
    (query answer >>= f).changed v = .ok v' ↔ ∃ b, answer v = .ok b ∧ (f b).changed v = .ok v' := by
  simp only [changed_eq_ok, outcome_query_bind_eq_ok, exists_comm (α := α), exists_and_left]

theorem changed_check_bind_eq_ok {condition : StateVector R → Except VectorError Unit} :
    (check condition >>= fun _ => op).changed v = .ok v' ↔
      condition v = .ok () ∧ op.changed v = .ok v' := by
  simp only [changed_eq_ok, outcome_check_bind_eq_ok, exists_and_left]

theorem changed_refused_eq_ok :
    (if refused then throw e >>= after else op).changed v = .ok v' ↔
      ¬refused ∧ op.changed v = .ok v' := by
  split
  · next given =>
      exact iff_of_false nofun fun found => found.1 given
  · next free => exact (and_iff_right free).symm

theorem changed_modify (f : StateVector R → StateVector R) (v : StateVector R) :
    (modify f : Update R Unit).changed v = .ok (f v) := rfl

/-! ## Refusals -/

theorem changed_check_bind_eq_error {condition : StateVector R → Except VectorError Unit} :
    (check condition >>= fun _ => op).changed v = .error e ↔
      condition v = .error e ∨ condition v = .ok () ∧ op.changed v = .error e := by
  simp only [changed_eq_error, outcome_eq_error, check, runOn_query_bind]
  cases condition v <;> simp

theorem changed_refused_eq_error {e' : VectorError} :
    (if refused then throw e' >>= after else op).changed v = .error e ↔
      refused ∧ e' = e ∨ ¬refused ∧ op.changed v = .error e := by
  by_cases given : refused
  · rw [if_pos given]
    constructor
    · exact fun failed => .inl ⟨given, Except.error.inj failed⟩
    · rintro (⟨-, rfl⟩ | ⟨free, -⟩)
      · rfl
      · exact absurd given free
  · simp [given]

/-- An operator that has written nothing when it refuses. -/
def ChecksFirst (op : Update R α) : Prop :=
  ∀ v e, (op.runOn v).1 = .error e → (op.runOn v).2 = v

theorem ChecksFirst.left_eq (first : op.ChecksFirst) (failed : op.changed v = .error e) :
    op.left v = v :=
  first v e (outcome_eq_error.mp (changed_eq_error.mp failed))

theorem ChecksFirst.modify (f : StateVector R → StateVector R) :
    ChecksFirst (modify f : Update R Unit) := fun _ _ => nofun

theorem ChecksFirst.query_bind (answer : StateVector R → Except VectorError β)
    {f : β → Update R α} (first : ∀ b, (f b).ChecksFirst) :
    (query answer >>= f).ChecksFirst := by
  intro v e failed
  rw [runOn_query_bind] at failed ⊢
  cases answered : answer v with
  | error e => rfl
  | ok b =>
      rw [answered] at failed
      exact first b v e failed

theorem ChecksFirst.check_bind (condition : StateVector R → Except VectorError Unit)
    (first : op.ChecksFirst) : (check condition >>= fun _ => op).ChecksFirst :=
  query_bind condition fun _ => first

theorem ChecksFirst.refused_bind (first : op.ChecksFirst) :
    (if refused then throw e >>= after else op).ChecksFirst := by
  split
  · exact fun _ _ _ => rfl
  · exact first

end AmplitudeTree.StateVector.Update
