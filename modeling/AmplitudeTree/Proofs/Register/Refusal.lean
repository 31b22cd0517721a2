import Mathlib.Data.List.Duplicate
import AmplitudeTree.Proofs.Register.Gates
import AmplitudeTree.Proofs.Register.Width

/-!
# Refused gates

A gate checks its qubits before it changes anything, and it is refused just if no gate acts on them.
The error names one of the qubits that the refusal is about.
-/

namespace AmplitudeTree.Register

open AmplitudeTree.Action

variable {R : Type}

/-! ## Qubits -/

/-- One of the qubits lies outside the register, a control is repeated, or a control
is a target as well. -/
def Unusable (width : ℕ) (targets controls : List ℕ) : Prop :=
  (∃ qubit ∈ targets ++ controls, width ≤ qubit) ∨ ¬controls.Nodup ∨
    ∃ control ∈ controls, control ∈ targets

/-- An error that names a qubit that no gate acts on together with the others. -/
inductive Blames (width : ℕ) (targets controls : List ℕ) : RegisterError R → Prop where
  | outside {qubit : ℕ} (member : qubit ∈ targets ++ controls) (outside : width ≤ qubit) :
      Blames width targets controls (.qubitOutOfRange qubit width)
  | repeated {qubit : ℕ} (member : qubit ∈ controls)
      (again : qubit ∈ targets ∨ controls.Duplicate qubit) :
      Blames width targets controls (.repeatedQubit qubit)

variable {width target first second : ℕ} {targets targets' controls : List ℕ} {e : RegisterError R}

theorem usable_iff : ¬Unusable width targets controls ↔
    (∀ qubit ∈ targets, qubit < width) ∧ (∀ qubit ∈ controls, qubit < width) ∧ controls.Nodup ∧
      ∀ control ∈ controls, control ∉ targets := by
  simp only [Unusable, not_or, not_exists, not_and, not_not, not_le, List.forall_mem_append,
    and_assoc]

theorem Blames.unusable (blames : Blames width targets controls e) :
    Unusable width targets controls := by
  cases blames with
  | outside member outside => exact .inl ⟨_, member, outside⟩
  | repeated member again =>
      rcases again with target | twice
      · exact .inr (.inr ⟨_, member, target⟩)
      · exact .inr (.inl fun nodup => List.nodup_iff_forall_not_duplicate.mp nodup _ twice)

theorem Blames.mono (blames : Blames width targets controls e) (subset : targets ⊆ targets') :
    Blames width targets' controls e := by
  cases blames with
  | outside member outside =>
      exact .outside (List.append_subset.mpr ⟨List.subset_append_of_subset_left _ subset,
        List.subset_append_right _ _⟩ member) outside
  | repeated member again => exact .repeated member (again.imp_left fun found => subset found)

/-! ## Checks -/

/-- A check refuses just the qubits that no gate acts on, with an error that says why. -/
def Judges {α : Type} (width : ℕ) (targets controls : List ℕ) :
    Except (RegisterError R) α → Prop
  | .ok _ => ¬Unusable width targets controls
  | .error e => Blames width targets controls e

variable {reg left : Register R}

theorem checkQubit_judges (reg : Register R) (qubit : ℕ) :
    Judges reg.width [qubit] [] (reg.checkQubit qubit) := by
  unfold checkQubit
  split
  · next inside => exact usable_iff.mpr (by simpa using inside)
  · next outside => exact .outside List.mem_cons_self (not_lt.mp outside)

/-- A check of controls that fails names one of them. -/
theorem blames_of_checkControls (failed : reg.checkControls target controls = .error e) :
    Blames reg.width [target] controls e := by
  induction controls with
  | nil => cases failed
  | cons control rest ih =>
      rw [checkControls, checkQubit] at failed
      by_cases inside : control < reg.width
      · rw [if_pos inside] at failed
        by_cases same : control = target
        · subst same
          rw [if_pos (beq_self_eq_true _)] at failed
          cases failed
          exact .repeated List.mem_cons_self (.inl List.mem_cons_self)
        · rw [if_neg (by rwa [beq_iff_eq])] at failed
          cases ih failed with
          | outside member outside =>
              refine .outside ?_ outside
              simp only [List.singleton_append, List.mem_cons] at member ⊢
              exact member.imp_right .inr
          | repeated member again =>
              exact .repeated (List.mem_cons_of_mem _ member)
                (again.imp_right fun twice => twice.duplicate_cons _)
      · rw [if_neg inside] at failed
        cases failed
        exact .outside (by simp) (not_lt.mp inside)

theorem duplicate_of_firstRepeated {list : List ℕ} {qubit : ℕ}
    (found : firstRepeated list = some qubit) : list.Duplicate qubit := by
  induction list with
  | nil => cases found
  | cons first rest ih =>
      cases rest with
      | nil => cases found
      | cons second rest =>
          rw [firstRepeated] at found
          split at found
          · next same =>
              obtain rfl := eq_of_beq same
              cases found
              exact List.mem_cons_self.duplicate_cons_self
          · exact (ih found).duplicate_cons _

theorem nodup_of_firstRepeated (single : firstRepeated controls.mergeSort = none) :
    controls.Nodup :=
  (List.mergeSort_perm controls _).nodup_iff.mp
    ((pairwise_lt_of_firstRepeated (pairwise_mergeSort controls) single).imp ne_of_lt)

theorem checkGate_judges (reg : Register R) (controls : List ℕ) (value : Bool) (target : ℕ) :
    Judges reg.width [target] controls (reg.checkGate controls value target) := by
  unfold checkGate
  -- the target comes first, then each control in turn, and repetitions last
  cases checked : reg.checkQubit target with
  | error e =>
      have blames := checkQubit_judges reg target
      rw [checked] at blames
      cases blames with
      | outside member outside =>
          exact .outside (List.mem_append_left _ (by simpa using member)) outside
      | repeated member => cases member
  | ok _ =>
      cases onControls : reg.checkControls target controls with
      | error e => exact blames_of_checkControls onControls
      | ok _ =>
          have inside := checkControls_eq_ok.mp onControls
          have below : ∀ qubit ∈ [target], qubit < reg.width := by
            simpa using checkQubit_eq_ok.mp checked
          cases single : firstRepeated controls.mergeSort with
          | some qubit =>
              simp only [single]
              have twice : controls.Duplicate qubit := by
                have sorted := duplicate_of_firstRepeated single
                rwa [List.duplicate_iff_two_le_count, (List.mergeSort_perm controls _).count_eq,
                  ← List.duplicate_iff_two_le_count] at sorted
              exact Blames.repeated twice.mem (.inr twice)
          | none =>
              simp only [single]
              refine usable_iff.mpr ⟨below, fun control member => (inside control member).1,
                nodup_of_firstRepeated single, fun control member => ?_⟩
              rw [List.mem_singleton]
              exact (inside control member).2

/-! ## Single gates -/

variable [Scalar R] {After : Register R → Prop}

/-- A gate fails and leaves the register as it was, or it returns and leaves a
register `After` it. -/
inductive Outcome (reg : Register R) (targets controls : List ℕ) (After : Register R → Prop) :
    Except (RegisterError R) Unit × Register R → Prop where
  | refused {e : RegisterError R} (blames : Blames reg.width targets controls e) :
      Outcome reg targets controls After (.error e, reg)
  | taken {left : Register R} (usable : ¬Unusable reg.width targets controls)
      (after : After left) : Outcome reg targets controls After (.ok (), left)

theorem width_settleUnlessDiagonal (reg : Register R) (qubit : ℕ) :
    (reg.settleUnlessDiagonal qubit).width = reg.width := by
  unfold settleUnlessDiagonal
  split
  · rfl
  · split
    · rfl
    · exact Stable.width_settle reg qubit

theorem width_foldl_settleUnlessDiagonal (sorted : List Control) (reg : Register R) :
    (sorted.foldl (fun reg control => reg.settleUnlessDiagonal control.qubit) reg).width =
      reg.width := by
  induction sorted generalizing reg with
  | nil => rfl
  | cons control rest ih => exact (ih _).trans (width_settleUnlessDiagonal reg control.qubit)

/-- A gate with any controls fails just if it cannot act on its qubits, and then does nothing. -/
theorem applyWhere_outcome (controls : List ℕ) (value : Bool) (gate : Gate R) (target : ℕ)
    (reg : Register R) :
    Outcome reg [target] controls (fun left => left.width = reg.width)
      ((applyWhere controls value gate target).runOn reg) := by
  unfold applyWhere
  split
  · next none =>
      obtain rfl := List.isEmpty_iff.mp none
      rw [apply, runOn_bind, runOn_check]
      have judged := checkQubit_judges reg target
      cases checked : reg.checkQubit target with
      | error e =>
          rw [checked] at judged
          exact .refused judged
      | ok _ =>
          rw [checked] at judged
          exact .taken judged rfl
  · rw [runOn_bind, runOn_query]
    have judged := checkGate_judges reg controls value target
    cases checked : reg.checkGate controls value target with
    | error e =>
        rw [checked] at judged
        exact .refused judged
    | ok sorted =>
        rw [checked] at judged
        have settled := width_foldl_settleUnlessDiagonal sorted reg
        refine .taken judged ((width_afterChange _).trans ?_)
        change Tree.width (ite _ _ _ : Register R).tree = _
        split
        · exact (width_settleUnlessDiagonal _ target).trans settled
        · exact (Stable.width_settle _ target).trans settled

end AmplitudeTree.Register
