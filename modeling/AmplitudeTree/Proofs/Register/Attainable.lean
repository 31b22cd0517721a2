import AmplitudeTree.Proofs.Register.Action
import AmplitudeTree.Register.Measure
import AmplitudeTree.Register.Resize
import Mathlib.Data.Nat.Notation

/-!
# Attainable registers

The registers that any sequence of actions leads to, over any scalars and with any settings, whether
the actions return or fail.  A property that survives each change an action makes to a register
holds of all of them.
-/

namespace AmplitudeTree.Register

open AmplitudeTree.Action

variable {R : Type}

/-- The registers that actions lead to, from settings that `admits` accepts and with allocations
that fit.  Every action is one of these or a sequence of them. -/
inductive Attainable [Scalar R] (admits : Config R → Prop) (fits : Register R → ℕ → Prop) :
    Register R → Prop where
  | create {width : ℕ} {index : BasisIndex} {config : Config R} {entropy : UInt64}
      {reg : Register R} (admitted : admits config)
      (made : create width index config entropy = .ok reg) : Attainable admits fits reg
  | withFactory {reg : Register R} (attainable : Attainable admits fits reg)
      (factory : VectorFactory) : Attainable admits fits { reg with factory := factory }
  | gate {reg : Register R} (attainable : Attainable admits fits reg) (controls : List ℕ)
      (value : Bool) (gate : Gate R) (target : ℕ) :
      Attainable admits fits ((applyWhere controls value gate target).runOn reg).2
  | setBasis {reg : Register R} (attainable : Attainable admits fits reg) (index : BasisIndex)
      (phase : Amplitude R) : Attainable admits fits ((setBasis index phase).runOn reg).2
  | setAmplitudes {reg : Register R} (attainable : Attainable admits fits reg)
      (amplitudes : Array (Amplitude R)) :
      Attainable admits fits ((setAmplitudes amplitudes).runOn reg).2
  | settled {reg : Register R} (attainable : Attainable admits fits reg) :
      Attainable admits fits reg.settleAll
  | normalize {reg : Register R} (attainable : Attainable admits fits reg) :
      Attainable admits fits (normalize.runOn reg).2
  | reduce {reg : Register R} (attainable : Attainable admits fits reg) :
      Attainable admits fits (reduce.runOn reg).2
  | prob {reg : Register R} (attainable : Attainable admits fits reg) (qubit : ℕ) :
      Attainable admits fits ((prob qubit).runOn reg).2
  | measureQubit {reg : Register R} (attainable : Attainable admits fits reg) (qubit : ℕ)
      (forced : Option Bool) (collapse : Bool) :
      Attainable admits fits ((measureQubit qubit forced collapse).runOn reg).2
  | sampleIndex {reg : Register R} (attainable : Attainable admits fits reg) (collapse : Bool) :
      Attainable admits fits ((sampleIndex collapse).runOn reg).2
  | toVector {reg : Register R} (attainable : Attainable admits fits reg)
      (required : List OperatorSet) : Attainable admits fits ((toVector required).runOn reg).2
  | withVector {α : Type} {reg : Register R} (attainable : Attainable admits fits reg)
      (required : List OperatorSet)
      (op : StateVector R → Except VectorError (α × StateVector R)) :
      Attainable admits fits ((withVector required op).runOn reg).2
  | compose {reg other : Register R} (attainable : Attainable admits fits reg)
      (otherAttainable : Attainable admits fits other) (start : ℕ) :
      Attainable admits fits ((compose other start).runOn reg).2
  | composeEnd {reg other : Register R} (attainable : Attainable admits fits reg)
      (otherAttainable : Attainable admits fits other) :
      Attainable admits fits ((composeEnd other).runOn reg).2
  | allocate {reg : Register R} (attainable : Attainable admits fits reg) (start length : ℕ)
      (fitting : fits reg length) : Attainable admits fits ((allocate start length).runOn reg).2
  | decomposeInto {reg other : Register R} (attainable : Attainable admits fits reg)
      (otherAttainable : Attainable admits fits other) (start : ℕ) :
      Attainable admits fits ((decomposeInto start other).runOn reg).2
  | decomposedInto {reg other part : Register R} (attainable : Attainable admits fits reg)
      (otherAttainable : Attainable admits fits other) (start : ℕ)
      (parted : ((decomposeInto start other).runOn reg).1 = .ok part) :
      Attainable admits fits part
  | decompose {reg : Register R} (attainable : Attainable admits fits reg) (range : QubitRange) :
      Attainable admits fits ((decompose range).runOn reg).2
  | decomposed {reg part : Register R} (attainable : Attainable admits fits reg)
      (range : QubitRange) (parted : ((decompose range).runOn reg).1 = .ok part) :
      Attainable admits fits part
  | dispose {reg : Register R} (attainable : Attainable admits fits reg) (range : QubitRange) :
      Attainable admits fits ((dispose range).runOn reg).2
  | disposeAt {reg : Register R} (attainable : Attainable admits fits reg) (range : QubitRange)
      (value : BasisIndex) : Attainable admits fits ((disposeAt range value).runOn reg).2

/-! ## Actions that preserve a property -/

def Preserves (P : Register R → Prop) {α : Type} (action : Action R α) : Prop :=
  ∀ reg, P reg → P (action.runOn reg).2

section Rules

variable {P : Register R → Prop} {α β : Type} {x : Action R α}

theorem Preserves.bind {f : α → Action R β} (first : Preserves P x)
    (second : ∀ a, Preserves P (f a)) : Preserves P (x >>= f) := by
  intro reg holds
  have halfway := first reg holds
  rw [runOn_bind]
  generalize x.runOn reg = run at halfway ⊢
  obtain ⟨result, left⟩ := run
  cases result with
  | ok a => exact second a left halfway
  | error e => exact halfway

theorem Preserves.pure (a : α) : Preserves P (pure a : Action R α) := fun _ holds => holds

theorem Preserves.throw (e : RegisterError R) : Preserves P (throw e : Action R α) :=
  fun _ holds => holds

theorem Preserves.query (answer : Register R → Except (RegisterError R) α) :
    Preserves P (query answer) := fun _ holds => holds

theorem Preserves.check (condition : Register R → Except (RegisterError R) Unit) :
    Preserves P (check condition) := fun _ holds => holds

theorem Preserves.ofExcept (result : Except (RegisterError R) α) :
    Preserves P (Action.ofExcept result) := fun _ holds => holds

theorem Preserves.modify {f : Register R → Register R} (preserves : ∀ reg, P reg → P (f reg)) :
    Preserves P (modify f : Action R Unit) := preserves

theorem Preserves.modifyGet {f : Register R → α × Register R}
    (preserves : ∀ reg, P reg → P (f reg).2) : Preserves P (modifyGet f : Action R α) := preserves

theorem Preserves.get_bind {f : Register R → Action R α}
    (preserves : ∀ reg, P reg → P ((f reg).runOn reg).2) :
    Preserves P (MonadState.get >>= f) := preserves

theorem Preserves.ite {y : Action R α} {p : Prop} [Decidable p] (yes : Preserves P x)
    (no : Preserves P y) : Preserves P (if p then x else y) := by
  split
  · exact yes
  · exact no

/-- A property that each step of a fold keeps is kept by the fold. -/
theorem foldl_holds (P : Register R → Prop) {ι : Type} {step : Register R → ι → Register R}
    (steps : ∀ reg i, P reg → P (step reg i)) (items : List ι) {reg : Register R} (holds : P reg) :
    P (items.foldl step reg) := by
  induction items generalizing reg with
  | nil => exact holds
  | cons item items ih => exact ih (steps reg item holds)

end Rules

variable [Scalar R]

/-! ## Stable properties -/

/-- A property that survives each change that an action makes to a register. -/
structure Stable (admits : Config R → Prop) (fits : Register R → ℕ → Prop)
    (P : Register R → Prop) : Prop where
  create : ∀ {width index config entropy reg}, admits config →
    create width index config entropy = .ok reg → P reg
  generator : ∀ {reg} (generator : Generator), P reg → P { reg with generator := generator }
  factory : ∀ {reg} (factory : VectorFactory), P reg → P { reg with factory := factory }
  append : ∀ {reg} (gate : Gate R) (qubit : ℕ), P reg →
    P { reg with pending := reg.pending.append qubit gate reg.threshold }
  erase : ∀ {reg} (qubit : ℕ), P reg → P { reg with pending := reg.pending.erase qubit }
  clear : ∀ {reg}, P reg → P { reg with pending := reg.pending.clear }
  apply : ∀ {reg} (gate : Gate R) (controls : List Control) (target : ℕ), P reg →
    P { reg with tree := reg.tree.apply gate controls target }
  reduce : ∀ {reg}, P reg → P { reg with tree := reg.tree.reduce }
  basis : ∀ {reg} (index : BasisIndex) (phase : Amplitude R), P reg →
    P { reg with tree := .basis reg.width index phase reg.threshold }
  treeOf : ∀ {reg} (amplitudes : Array (Amplitude R)), P reg →
    P { reg with tree := reg.treeOf amplitudes }
  normalize : ∀ {reg}, P reg →
    P { reg with tree := reg.tree.normalize reg.config.normalization }
  collapse : ∀ {reg} (qubit : ℕ) (value : Bool), P reg →
    P { reg with tree := (reg.tree.collapse qubit value).2 }
  empty : ∀ {reg width}, width ≤ reg.width → P reg →
    P { reg with tree := .basis width 0 1 reg.threshold, pending := .empty width }
  insert : ∀ {reg other start}, start ≤ reg.width →
    reg.width + other.width ≤ BasisIndex.maxWidth → P reg → P other →
    P { reg with
      tree := reg.tree.insert other.tree start
      pending := reg.pending.insert start other.pending }
  allocate : ∀ {reg start length}, start ≤ reg.width → fits reg length → P reg →
    P { reg with
      tree := reg.tree.insert (.basis length 0 1 reg.threshold) start
      pending := reg.pending.insert start (.empty length) }
  entangled : ∀ {reg} (range : QubitRange), range.stop ≤ reg.width →
    (reg.tree.split range.start range.length).1 = none → P reg →
    P { reg with tree := (reg.tree.split range.start range.length).2 }
  rest : ∀ {reg} (range : QubitRange), range.stop ≤ reg.width →
    (reg.tree.split range.start range.length).1.isSome = true → P reg →
    P { reg with
      tree := (reg.tree.split range.start range.length).2
      pending := (reg.pending.split range.start range.length).2 }
  part : ∀ {reg other} (range : QubitRange) {part}, range.stop ≤ reg.width →
    (reg.tree.split range.start range.length).1 = some part → P reg → P other →
    P { other with
      tree := part
      pending := (reg.pending.split range.start range.length).1 }
  impossible : ∀ {reg} (range : QubitRange) (value : BasisIndex), range.stop ≤ reg.width →
    (reg.tree.restrict range.start range.length value).1 = false → P reg →
    P { reg with tree := (reg.tree.restrict range.start range.length value).2 }
  restrict : ∀ {reg} (range : QubitRange) (value : BasisIndex), range.stop ≤ reg.width →
    (reg.tree.restrict range.start range.length value).1 = true → P reg →
    P { reg with
      tree := (reg.tree.restrict range.start range.length value).2
      pending := (reg.pending.split range.start range.length).2 }

namespace Stable

variable {admits : Config R → Prop} {fits : Register R → ℕ → Prop} {P : Register R → Prop}
  {reg other : Register R}

theorem reduceIfBloated (stable : Stable admits fits P) (holds : P reg) :
    P { reg with tree := reg.tree.reduceIfBloated } := by
  unfold Tree.reduceIfBloated
  split
  · exact stable.reduce holds
  · exact holds

theorem afterChange (stable : Stable admits fits P) (holds : P reg) : P reg.afterChange := by
  unfold Register.afterChange
  split
  · exact stable.reduce holds
  · exact stable.reduceIfBloated holds

theorem settle (stable : Stable admits fits P) (holds : P reg) (qubit : ℕ) :
    P (reg.settle qubit) := by
  unfold Register.settle
  split
  · exact holds
  · next gate _ =>
      exact stable.erase qubit (stable.reduceIfBloated (stable.apply gate [] qubit holds))

theorem settleUnlessDiagonal (stable : Stable admits fits P) (holds : P reg) (qubit : ℕ) :
    P (reg.settleUnlessDiagonal qubit) := by
  unfold Register.settleUnlessDiagonal
  split
  · exact holds
  · split
    · exact holds
    · exact stable.settle holds qubit

theorem settleAll (stable : Stable admits fits P) (holds : P reg) : P reg.settleAll := by
  unfold Register.settleAll
  split
  · exact stable.afterChange
      (foldl_holds P (fun _ qubit holds => stable.settle holds qubit) _ holds)
  · exact holds

theorem apply_preserves (stable : Stable admits fits P) (gate : Gate R) (target : ℕ) :
    Preserves P (Register.apply gate target) :=
  (Preserves.check _).bind fun _ => .modify fun _ holds => stable.append gate target holds

theorem applyWhere_preserves (stable : Stable admits fits P) (controls : List ℕ) (value : Bool)
    (gate : Gate R) (target : ℕ) : Preserves P (applyWhere controls value gate target) := by
  refine .ite (stable.apply_preserves gate target) ((Preserves.query _).bind fun sorted => ?_)
  refine (Preserves.modify fun reg holds => foldl_holds P
    (fun _ control holds => stable.settleUnlessDiagonal holds control.qubit) sorted holds).bind
      fun _ => (Preserves.modify fun reg holds => ?_).bind fun _ => .modify fun reg holds =>
        stable.afterChange (stable.apply gate sorted target holds)
  split
  · exact stable.settleUnlessDiagonal holds target
  · exact stable.settle holds target

theorem setBasis_preserves (stable : Stable admits fits P) (index : BasisIndex)
    (phase : Amplitude R) : Preserves P (setBasis index phase) :=
  (Preserves.check _).bind fun _ => .modify fun _ holds =>
    stable.basis index phase (stable.clear holds)

theorem setAmplitudes_preserves (stable : Stable admits fits P)
    (amplitudes : Array (Amplitude R)) : Preserves P (setAmplitudes amplitudes) := by
  refine (Preserves.check _).bind fun _ => .get_bind fun reg holds => ?_
  dsimp only
  split
  · exact holds
  · split
    · exact holds
    · exact stable.treeOf amplitudes (stable.clear holds)

theorem normalize_preserves (stable : Stable admits fits P) :
    Preserves P (Register.normalize : Action R Unit) := by
  refine .get_bind fun reg holds => ?_
  dsimp only
  split
  · exact holds
  · exact stable.normalize holds

theorem prob_preserves (stable : Stable admits fits P) (qubit : ℕ) :
    Preserves P (prob qubit : Action R R) :=
  (Preserves.check _).bind fun _ =>
    (Preserves.modify fun _ holds => stable.settleUnlessDiagonal holds qubit).bind fun _ =>
      .get_bind fun _ holds => holds

theorem chooseOutcome_preserves (stable : Stable admits fits P) (forced : Option Bool) (one : R) :
    Preserves P (chooseOutcome forced one) := by
  unfold chooseOutcome
  split
  · exact .pure _
  · exact (Preserves.modifyGet fun reg holds =>
      stable.generator (reg.generator.unit : R × Generator).2 holds).bind
        fun _ => .pure _

theorem measureQubit_preserves (stable : Stable admits fits P) (qubit : ℕ)
    (forced : Option Bool) (collapse : Bool) :
    Preserves P (measureQubit qubit forced collapse : Action R Bool) := by
  refine (Preserves.check _).bind fun _ =>
    (Preserves.modify fun _ holds => stable.settleUnlessDiagonal holds qubit).bind fun _ =>
      (show Preserves P MonadState.get from fun _ holds => holds).bind fun _ =>
        (stable.chooseOutcome_preserves _ _).bind fun chosen => ?_
  have collapses (outcome : Bool) : Preserves P (do
      let kept ← modifyGet fun reg => ((reg.tree.collapse qubit outcome).1,
        { reg with pending := reg.pending.erase qubit, tree := (reg.tree.collapse qubit outcome).2 })
      if !kept then throw (.impossibleOutcome qubit)
      modify Register.afterChange
      return outcome : Action R Bool) := by
    refine (Preserves.modifyGet fun reg holds =>
      stable.erase qubit (stable.collapse qubit outcome holds)).bind fun kept => ?_
    have reduces : Preserves P (do modify Register.afterChange; return outcome : Action R Bool) :=
      (Preserves.modify fun _ holds => stable.afterChange holds).bind fun _ => .pure _
    exact .ite ((Preserves.throw _).bind fun _ => reduces) reduces
  have last (outcome : Bool) := Preserves.ite (p := (!collapse) = true) (.pure outcome)
    (collapses outcome)
  exact .ite ((Preserves.throw _).bind fun _ => last _) (last _)

theorem sampleIndex_preserves (stable : Stable admits fits P) (collapse : Bool) :
    Preserves P (sampleIndex collapse : Action R BasisIndex) := by
  refine (Preserves.modify fun _ holds => stable.settleAll holds).bind fun _ =>
    .get_bind fun reg holds => ?_
  generalize reg.tree.sample Generator.unit reg.generator = draws
  obtain ⟨index, generator⟩ := draws
  have finish (a : Amplitude R) : Preserves P (if collapse then do
      setBasis index (if Scalar.lt 0 a.norm then a.dividedBy a.norm else 1)
      return index
    else return index : Action R BasisIndex) :=
    .ite ((stable.setBasis_preserves _ _).bind fun _ => .pure _) (.pure _)
  dsimp only
  split
  · exact holds
  · exact finish _ _ (stable.generator generator holds)

theorem toVector_preserves (stable : Stable admits fits P) (required : List OperatorSet) :
    Preserves P (toVector required : Action R (StateVector R)) :=
  (Preserves.check _).bind fun _ => (Preserves.check _).bind fun _ =>
    (Preserves.modify fun _ holds => stable.settleAll holds).bind fun _ =>
      (Preserves.modifyGet fun reg holds =>
        stable.generator reg.generator.word.2 holds).bind fun _ =>
          .get_bind fun _ holds => holds

theorem withVector_preserves {α : Type} (stable : Stable admits fits P)
    (required : List OperatorSet)
    (op : StateVector R → Except VectorError (α × StateVector R)) :
    Preserves P (withVector required op) := by
  refine (stable.toVector_preserves required).bind fun v => (Preserves.ofExcept _).bind
    fun result => .get_bind fun reg holds => ?_
  dsimp only
  split
  · exact holds
  · exact stable.afterChange (stable.treeOf result.2.amplitudes holds)

theorem compose_preserves (stable : Stable admits fits P) (otherHolds : P other) (start : ℕ) :
    Preserves P (compose other start) := by
  refine .get_bind fun reg holds => ?_
  dsimp only
  split
  · exact holds
  · next within =>
      split
      · exact holds
      · next narrow =>
          exact stable.afterChange
            (stable.insert (Nat.le_of_not_lt within) (Nat.le_of_not_lt narrow) holds otherHolds)

theorem allocate_holds (stable : Stable admits fits P) (start : ℕ) {length : ℕ}
    (fitting : fits reg length) (holds : P reg) : P ((Register.allocate start length).runOn reg).2 := by
  rw [Register.allocate, runOn_bind, runOn_get]
  dsimp only
  split
  · exact holds
  · next within =>
      split
      · exact holds
      · exact stable.afterChange (stable.allocate (Nat.le_of_not_lt within) fitting holds)

/-- What a split leaves behind, and what it splits off. -/
theorem decomposeInto_holds (stable : Stable admits fits P) (start : ℕ) (holds : P reg)
    (otherHolds : P other) :
    P ((decomposeInto start other).runOn reg).2 ∧
      ∀ part, ((decomposeInto start other).runOn reg).1 = .ok part → P part := by
  rw [decomposeInto, runOn_bind, runOn_check, checkRange]
  by_cases inside : (QubitRange.mk start other.width).stop ≤ reg.width
  · have entangled := stable.entangled ⟨start, other.width⟩ inside
    have rest := stable.rest ⟨start, other.width⟩ inside
    have parted (tree : Tree R) (found : (reg.tree.split start other.width).1 = some tree) :=
      stable.part ⟨start, other.width⟩ inside found holds otherHolds
    rw [if_pos inside]
    dsimp only at entangled rest parted ⊢
    rw [runOn_bind, splitTree, runOn_bind, runOn_modifyGet]
    dsimp only
    generalize reg.tree.split start other.width = result at entangled rest parted ⊢
    obtain ⟨part?, left⟩ := result
    cases part? with
    | none => exact ⟨entangled rfl holds, nofun⟩
    | some tree =>
        refine ⟨stable.afterChange (rest rfl holds), ?_⟩
        rintro _ ⟨⟩
        exact stable.afterChange (parted tree rfl)
  · rw [if_neg inside]
    exact ⟨holds, nofun⟩

theorem decompose_holds (stable : Stable admits fits P) (range : QubitRange) (holds : P reg) :
    P ((decompose range).runOn reg).2 ∧
      ∀ part, ((decompose range).runOn reg).1 = .ok part → P part := by
  rw [decompose, runOn_bind, runOn_check, checkRange]
  by_cases inside : range.stop ≤ reg.width
  · have narrow : range.length ≤ reg.width := Nat.le_trans (Nat.le_add_left _ _) inside
    rw [if_pos inside]
    dsimp only
    rw [runOn_bind, sibling, runOn_modifyGet]
    exact stable.decomposeInto_holds range.start (stable.generator _ holds)
      (stable.generator _ (stable.empty narrow holds))
  · rw [if_neg inside]
    exact ⟨holds, nofun⟩

theorem dispose_preserves (stable : Stable admits fits P) (range : QubitRange) :
    Preserves P (dispose range) := by
  intro reg holds
  rw [dispose, runOn_bind, runOn_check, checkRange]
  by_cases inside : range.stop ≤ reg.width
  · have entangled := stable.entangled range inside
    have rest := stable.rest range inside
    rw [if_pos inside]
    dsimp only
    rw [runOn_bind, splitTree, runOn_bind, runOn_modifyGet]
    dsimp only
    generalize reg.tree.split range.start range.length = result at entangled rest ⊢
    obtain ⟨part?, left⟩ := result
    cases part? with
    | none => exact entangled rfl holds
    | some tree => exact stable.afterChange (rest rfl holds)
  · rw [if_neg inside]
    exact holds

theorem width_settle (reg : Register R) (qubit : ℕ) : (reg.settle qubit).width = reg.width := by
  unfold Register.settle
  split
  · rfl
  · change (Tree.reduceIfBloated _).width = _
    unfold Tree.reduceIfBloated
    split <;> rfl

theorem disposeAt_preserves (stable : Stable admits fits P) (range : QubitRange)
    (value : BasisIndex) : Preserves P (disposeAt range value) := by
  intro reg holds
  rw [disposeAt, runOn_bind, runOn_check, checkRange]
  by_cases inside : range.stop ≤ reg.width
  · rw [if_pos inside]
    dsimp only
    rw [runOn_bind, runOn_check]
    cases Except.mapError RegisterError.indexOutOfRange (value.check range.length) with
    | error e => exact holds
    | ok _ =>
        have settled : P ((List.range' range.start range.length).foldl Register.settle reg) ∧
            ((List.range' range.start range.length).foldl Register.settle reg).width =
              reg.width :=
          foldl_holds (fun next => P next ∧ next.width = reg.width)
            (fun _ qubit next => ⟨stable.settle next.1 qubit, (width_settle _ qubit).trans next.2⟩)
            _ ⟨holds, rfl⟩
        dsimp only
        rw [runOn_bind, runOn_modify]
        generalize (List.range' range.start range.length).foldl Register.settle reg = middle at settled ⊢
        obtain ⟨middleHolds, width⟩ := settled
        have within : range.stop ≤ middle.width := Nat.le_trans inside (Nat.le_of_eq width.symm)
        have impossible := stable.impossible range value within
        have restrict := stable.restrict range value within
        dsimp only
        rw [runOn_bind, runOn_modifyGet]
        dsimp only
        generalize middle.tree.restrict range.start range.length value = result at impossible restrict ⊢
        obtain ⟨kept, tree⟩ := result
        cases kept with
        | false => exact impossible rfl middleHolds
        | true => exact stable.afterChange (stable.normalize (restrict rfl middleHolds))
  · rw [if_neg inside]
    exact holds

end Stable

/-- A stable property holds of every attainable register. -/
theorem Attainable.holds {admits : Config R → Prop} {fits : Register R → ℕ → Prop}
    {P : Register R → Prop} (stable : Stable admits fits P) {reg : Register R}
    (attainable : Attainable admits fits reg) : P reg := by
  induction attainable with
  | create admitted made => exact stable.create admitted made
  | withFactory _ factory ih => exact stable.factory factory ih
  | gate _ controls value gate target ih =>
      exact stable.applyWhere_preserves controls value gate target _ ih
  | setBasis _ index phase ih => exact stable.setBasis_preserves index phase _ ih
  | setAmplitudes _ amplitudes ih => exact stable.setAmplitudes_preserves amplitudes _ ih
  | settled _ ih => exact stable.settleAll ih
  | normalize _ ih => exact stable.normalize_preserves _ ih
  | reduce _ ih => exact stable.reduce ih
  | prob _ qubit ih => exact stable.prob_preserves qubit _ ih
  | measureQubit _ qubit forced collapse ih =>
      exact stable.measureQubit_preserves qubit forced collapse _ ih
  | sampleIndex _ collapse ih => exact stable.sampleIndex_preserves collapse _ ih
  | toVector _ required ih => exact stable.toVector_preserves required _ ih
  | withVector _ required op ih => exact stable.withVector_preserves required op _ ih
  | compose _ _ start ih otherIh => exact stable.compose_preserves otherIh start _ ih
  | composeEnd _ _ ih otherIh => exact stable.compose_preserves otherIh _ _ ih
  | allocate _ start length fitting ih => exact stable.allocate_holds start fitting ih
  | decomposeInto _ _ start ih otherIh => exact (stable.decomposeInto_holds start ih otherIh).1
  | decomposedInto _ _ start parted ih otherIh =>
      exact (stable.decomposeInto_holds start ih otherIh).2 _ parted
  | decompose _ range ih => exact (stable.decompose_holds range ih).1
  | decomposed _ range parted ih => exact (stable.decompose_holds range ih).2 _ parted
  | dispose _ range ih => exact stable.dispose_preserves range _ ih
  | disposeAt _ range value ih => exact stable.disposeAt_preserves range value _ ih

end AmplitudeTree.Register
