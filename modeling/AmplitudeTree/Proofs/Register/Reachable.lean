import AmplitudeTree.Proofs.Register.Measure
import AmplitudeTree.Proofs.Register.Resize
import AmplitudeTree.Proofs.Register.Vector

/-!
# Reachable registers

The registers with exact arithmetic that any sequence of actions leads to, whether the actions
return or fail.  They are all sound.
-/

namespace AmplitudeTree.Register

open AmplitudeTree.Action

/-- The registers that actions lead to.  Every action is one of these or a sequence of them. -/
inductive Reachable : Register ℝ → Prop where
  | create {width : ℕ} {index : BasisIndex} {config : Config ℝ} {entropy : UInt64}
      {reg : Register ℝ} (exact : config.separability = 0)
      (made : create width index config entropy = .ok reg) : Reachable reg
  | withFactory {reg : Register ℝ} (reachable : Reachable reg) (factory : VectorFactory) :
      Reachable { reg with factory := factory }
  | gate {reg : Register ℝ} (reachable : Reachable reg) (controls : List ℕ) (value : Bool)
      (gate : Gate ℝ) (target : ℕ) :
      Reachable ((applyWhere controls value gate target).runOn reg).2
  | setBasis {reg : Register ℝ} (reachable : Reachable reg) (index : BasisIndex)
      (phase : Amplitude ℝ) : Reachable ((setBasis index phase).runOn reg).2
  | setAmplitudes {reg : Register ℝ} (reachable : Reachable reg)
      (amplitudes : Array (Amplitude ℝ)) : Reachable ((setAmplitudes amplitudes).runOn reg).2
  | settled {reg : Register ℝ} (reachable : Reachable reg) : Reachable reg.settleAll
  | normalize {reg : Register ℝ} (reachable : Reachable reg) : Reachable (normalize.runOn reg).2
  | reduce {reg : Register ℝ} (reachable : Reachable reg) : Reachable (reduce.runOn reg).2
  | prob {reg : Register ℝ} (reachable : Reachable reg) (qubit : ℕ) :
      Reachable ((prob qubit).runOn reg).2
  | measureQubit {reg : Register ℝ} (reachable : Reachable reg) (qubit : ℕ)
      (forced : Option Bool) (collapse : Bool) :
      Reachable ((measureQubit qubit forced collapse).runOn reg).2
  | sampleIndex {reg : Register ℝ} (reachable : Reachable reg) (collapse : Bool) :
      Reachable ((sampleIndex collapse).runOn reg).2
  | toVector {reg : Register ℝ} (reachable : Reachable reg) (required : List OperatorSet) :
      Reachable ((toVector required).runOn reg).2
  | withVector {α : Type} {reg : Register ℝ} (reachable : Reachable reg)
      (required : List OperatorSet)
      (op : StateVector ℝ → Except VectorError (α × StateVector ℝ)) :
      Reachable ((withVector required op).runOn reg).2
  | compose {reg other : Register ℝ} (reachable : Reachable reg) (otherReachable : Reachable other)
      (start : ℕ) : Reachable ((compose other start).runOn reg).2
  | allocate {reg : Register ℝ} (reachable : Reachable reg) (start length : ℕ) :
      Reachable ((allocate start length).runOn reg).2
  | decomposeInto {reg other : Register ℝ} (reachable : Reachable reg)
      (otherReachable : Reachable other) (start : ℕ) :
      Reachable ((decomposeInto start other).runOn reg).2
  | decomposedInto {reg other part : Register ℝ} (reachable : Reachable reg)
      (otherReachable : Reachable other) (start : ℕ)
      (parted : ((decomposeInto start other).runOn reg).1 = .ok part) : Reachable part
  | decompose {reg : Register ℝ} (reachable : Reachable reg) (range : QubitRange) :
      Reachable ((decompose range).runOn reg).2
  | decomposed {reg part : Register ℝ} (reachable : Reachable reg) (range : QubitRange)
      (parted : ((decompose range).runOn reg).1 = .ok part) : Reachable part
  | dispose {reg : Register ℝ} (reachable : Reachable reg) (range : QubitRange) :
      Reachable ((dispose range).runOn reg).2
  | disposeAt {reg : Register ℝ} (reachable : Reachable reg) (range : QubitRange)
      (value : BasisIndex) : Reachable ((disposeAt range value).runOn reg).2

variable {reg : Register ℝ}

theorem keeps_setAmplitudes (amplitudes : Array (Amplitude ℝ)) : Keeps (setAmplitudes amplitudes) := by
  refine (Keeps.check _).bind fun _ => Keeps.get_bind fun reg sound => ?_
  dsimp only
  split
  · exact sound.retains_refl
  · split
    · exact sound.retains_refl
    · have replaced := sound.withAmplitudes amplitudes
      exact
        { sound :=
            { tree := replaced.sound.tree
              slots := (List.length_map _).trans sound.slots
              exact := sound.exact
              admitted := sound.admitted }
          width := rfl
          config := rfl
          factory := rfl }

theorem keeps_normalize : Keeps (normalize : Action ℝ Unit) := by
  refine Keeps.get_bind fun reg sound => ?_
  dsimp only
  split
  · exact sound.retains_refl
  · exact ⟨sound.withTree (sound.tree.normalize _).1 (Tree.width_normalize _ _),
      Tree.width_normalize _ _, rfl, rfl⟩

theorem keeps_reduce : Keeps (reduce : Action ℝ Unit) :=
  Keeps.modify fun _ sound => ⟨sound.withTree sound.tree.reduce rfl, rfl, rfl, rfl⟩

theorem Reachable.sound (reachable : Reachable reg) : reg.Sound := by
  induction reachable with
  | create exact made => exact (sound_of_create made exact).1
  | withFactory _ factory ih => exact ⟨ih.tree, ih.slots, ih.exact, ih.admitted⟩
  | gate _ controls value gate target ih => exact (keeps_applyWhere controls value gate target _ ih).sound
  | setBasis _ index phase ih => exact (keeps_setBasis index phase _ ih).sound
  | setAmplitudes _ amplitudes ih => exact (keeps_setAmplitudes amplitudes _ ih).sound
  | settled _ ih => exact ih.settles_settleAll.sound
  | normalize _ ih => exact (keeps_normalize _ ih).sound
  | reduce _ ih => exact (keeps_reduce _ ih).sound
  | prob _ qubit ih => exact (keeps_prob qubit _ ih).sound
  | measureQubit _ qubit forced collapse ih =>
      exact (keeps_measureQubit qubit forced collapse _ ih).sound
  | sampleIndex _ collapse ih => exact (keeps_sampleIndex collapse _ ih).sound
  | toVector _ required ih => exact (keeps_toVector required _ ih).sound
  | withVector _ required op ih => exact (keeps_withVector required op _ ih).sound
  | compose _ _ start ih otherIh => exact ih.compose otherIh start
  | allocate _ start length ih => exact ih.allocate start length
  | decomposeInto _ _ start ih otherIh => exact (ih.decomposeInto otherIh start).1
  | decomposedInto _ _ start parted ih otherIh => exact (ih.decomposeInto otherIh start).2 _ parted
  | decompose _ range ih => exact (ih.decompose range).1
  | decomposed _ range parted ih => exact (ih.decompose range).2 _ parted
  | dispose _ range ih => exact ih.dispose range
  | disposeAt _ range value ih => exact ih.disposeAt range value

end AmplitudeTree.Register
