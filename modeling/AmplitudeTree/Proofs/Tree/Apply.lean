import AmplitudeTree.Proofs.Gate
import AmplitudeTree.Proofs.Tree.Basic

/-!
# Gates on exact trees

Mixing two subtrees mixes their states where the controls below them have their values.  The short
cut for subtrees of one shape is exact, since these differ by a factor only.  So a gate on a tree
acts on the state as the gate does.
-/

namespace AmplitudeTree

namespace NodeStore

variable {canonical : Prop} {width depth : ℕ} {controls : List Control} {gate : Gate ℝ}
  {s t : NodeStore ℝ} {a b : NodeId} {zero one : Assignment → ℂ}

noncomputable def mixedState (gate : Gate ℝ) (controls : List Control) (value : Bool)
    (zero one : Assignment → ℂ) (bits : Assignment) : ℂ :=
  if selected controls bits then gate.mixed value (zero bits) (one bits)
  else if value then one bits else zero bits

def Mixes (gate : Gate ℝ) (canonical : Prop) (depth width : ℕ) (controls : List Control)
    (zero one : Assignment → ℂ) (s : NodeStore ℝ) (result : (NodeId × NodeId) × NodeStore ℝ) :
    Prop :=
  s.YieldsPair result fun u v =>
    u.Carries canonical depth width (mixedState gate controls false zero one) ∧
      v.Carries canonical depth width (mixedState gate controls true zero one)

structure Ascending (controls : List Control) (depth width : ℕ) : Prop where
  sorted : controls.Pairwise fun c d => c.qubit < d.qubit
  bounds : ∀ control ∈ controls, depth ≤ control.qubit ∧ control.qubit < width

theorem Ascending.tail {control : Control} (ascending : Ascending (control :: controls) depth width) :
    Ascending controls (control.qubit + 1) width where
  sorted := (List.pairwise_cons.mp ascending.sorted).2
  bounds later member :=
    ⟨(List.pairwise_cons.mp ascending.sorted).1 later member,
      (ascending.bounds later (List.mem_cons_of_mem _ member)).2⟩

theorem Ascending.unique {c d : Control} (ascending : Ascending controls depth width)
    (first : c ∈ controls) (second : d ∈ controls) (same : c.qubit = d.qubit) : c = d := by
  induction controls generalizing depth with
  | nil => cases first
  | cons control rest ih =>
      have later := (List.pairwise_cons.mp ascending.sorted).1
      rcases List.mem_cons.mp first with rfl | cMember <;>
        rcases List.mem_cons.mp second with rfl | dMember
      · rfl
      · exact absurd same (later d dMember).ne
      · exact absurd same (later c cMember).ne'
      · exact ih ascending.tail cMember dMember

theorem Ascending.eq_nil (ascending : Ascending controls width width) : controls = [] := by
  rw [List.eq_nil_iff_forall_not_mem]
  intro control member
  obtain ⟨lower, upper⟩ := ascending.bounds control member
  omega

theorem Ascending.succ (ascending : Ascending controls depth width)
    (other : ∀ control ∈ controls.head?, control.qubit ≠ depth) :
    Ascending controls (depth + 1) width := by
  cases controls with
  | nil => exact ⟨.nil, fun _ impossible => by cases impossible⟩
  | cons control rest =>
      have first := ascending.bounds control List.mem_cons_self
      have differs := other control rfl
      refine ⟨ascending.sorted, fun later member => ?_⟩
      rcases List.mem_cons.mp member with rfl | member
      · exact ⟨by omega, first.2⟩
      · obtain ⟨lower, upper⟩ := ascending.tail.bounds later member
        exact ⟨by omega, upper⟩

/-! ## Mixing -/

/-- The states of two subtrees of one shape, or of which one is zero, are
multiples of one another. -/
theorem Exact.shared_shape (aCarries : (s.unfold a).Carries canonical depth width zero)
    (bCarries : (s.unfold b).Carries canonical depth width one)
    (shared : s.isZero a = true ∨ s.isZero b = true ∨ s.shape a = s.shape b) (bits : Assignment) :
    let shape := s.unfold (if s.isZero a then b else a)
    zero bits = (s.unfold a).scale * (shape.withScale 1).amplitude depth bits ∧
      one bits = (s.unfold b).scale * (shape.withScale 1).amplitude depth bits := by
  intro shape
  rw [← aCarries.amplitude_eq, ← bCarries.amplitude_eq]
  by_cases aZero : s.isZero a = true
  · rw [show shape = s.unfold b from congrArg s.unfold (if_pos aZero), unfold_of_isZero aZero]
    exact ⟨(zero_mul _).symm, Unfolding.amplitude_eq_scale_mul ..⟩
  · rw [show shape = s.unfold a from congrArg s.unfold (if_neg aZero)]
    refine ⟨Unfolding.amplitude_eq_scale_mul .., ?_⟩
    by_cases bZero : s.isZero b = true
    · rw [unfold_of_isZero bZero]
      exact (zero_mul _).symm
    · have shapes := (shared.resolve_left aZero).resolve_left bZero
      rw [(shape_eq_iff (Bool.not_eq_true _ ▸ aZero) (Bool.not_eq_true _ ▸ bZero)).mp shapes]
      exact Unfolding.amplitude_eq_scale_mul ..

theorem Exact.rescale_pair (exact : s.Exact) {shape : NodeId} (nonzero : s.isZero shape = false)
    (x y : Amplitude ℝ) :
    let low := s.rescale shape x
    let high := low.2.rescale shape y
    s.YieldsPair ((low.1, high.1), high.2) fun u v =>
      u = (s.unfold shape).rescale x.toComplex ∧ v = (s.unfold shape).rescale y.toComplex := by
  intro low high
  have stored := exact.lt_size nonzero
  have lowYields := exact.rescale shape x
    fun empty => absurd empty (by rw [nonzero]; exact Bool.false_ne_true)
  have highYields := lowYields.exact.rescale shape y
    fun empty => absurd empty (by
      rw [lowYields.growth.isZero_eq stored, nonzero]; exact Bool.false_ne_true)
  refine ⟨lowYields.growth.trans highYields.growth, highYields.exact,
    highYields.lt_size lowYields.stored, highYields.stored, ?_, ?_⟩
  · rw [highYields.unfold_eq lowYields.stored, lowYields.holds]
  · rw [highYields.holds, lowYields.unfold_eq stored]

/-- Without controls below, subtrees that share a shape are mixed by their scales. -/
theorem Exact.mix_scales (exact : s.Exact)
    (aCarries : (s.unfold a).Carries canonical depth width zero)
    (bCarries : (s.unfold b).Carries canonical depth width one)
    (nonzero : ¬(s.isZero a = true ∧ s.isZero b = true))
    (shared : s.isZero a = true ∨ s.isZero b = true ∨ s.shape a = s.shape b) :
    let shape := if s.isZero a then b else a
    let scales := gate.apply (s.scale a) (s.scale b)
    let low := s.rescale shape scales.1
    let high := low.2.rescale shape scales.2
    Mixes gate canonical depth width [] zero one s ((low.1, high.1), high.2) := by
  intro shape scales low high
  have shapeNonzero : s.isZero shape = false := by
    rw [← Bool.not_eq_true]
    intro empty
    by_cases aZero : s.isZero a = true
    · rw [show shape = b from if_pos aZero] at empty
      exact nonzero ⟨aZero, empty⟩
    · rw [show shape = a from if_neg aZero] at empty
      exact aZero empty
  have regular : (s.unfold shape).Regular canonical (width - depth) := by
    by_cases aZero : s.isZero a = true
    · rw [show shape = b from if_pos aZero]
      exact bCarries.regular
    · rw [show shape = a from if_neg aZero]
      exact aCarries.regular
  obtain ⟨zeroScale, oneScale⟩ := gate.toComplex_apply (s.scale a) (s.scale b)
  refine (exact.rescale_pair shapeNonzero scales.1 scales.2).mono fun u v result => ?_
  obtain ⟨rfl, rfl⟩ := result
  have mixedCarries (value : Bool) : ((s.unfold shape).rescale
      (gate.mixed value (s.scale a).toComplex (s.scale b).toComplex)).Carries canonical depth width
        (mixedState gate [] value zero one) := by
    refine ⟨aCarries.le, regular.rescale _, fun bits => ?_⟩
    obtain ⟨zeroEq, oneEq⟩ := Exact.shared_shape aCarries bCarries shared bits
    rw [mixedState, if_pos (selected_nil bits), zeroEq, oneEq, Gate.mixed_mul,
      Unfolding.amplitude_rescale, toComplex_scale, toComplex_scale]
  exact ⟨zeroScale ▸ mixedCarries false, oneScale ▸ mixedCarries true⟩

/-- The cofactors of a node carry its state for the two values of the topmost qubit. -/
theorem Exact.cofactors_carries (exact : s.Exact) (below : depth < width)
    (carries : (s.unfold a).Carries canonical depth width zero) :
    s.YieldsPair (s.cofactors a) fun u v =>
      u.Carries canonical (depth + 1) width (fun bits => zero (Function.update bits depth false)) ∧
        v.Carries canonical (depth + 1) width
          (fun bits => zero (Function.update bits depth true)) := by
  have levels : width - depth = width - (depth + 1) + 1 := by omega
  have regular := carries.regular
  rw [levels] at regular
  have cofactor (value : Bool) : ((s.unfold a).cofactor value).Carries canonical (depth + 1) width
      (fun bits => zero (Function.update bits depth value)) :=
    ⟨below, regular.cofactor value, fun bits =>
      (regular.amplitude_cofactor value depth bits).trans (carries.amplitude_eq _)⟩
  refine (exact.cofactors a).mono fun u v result => ?_
  obtain ⟨rfl, rfl⟩ := result
  exact ⟨cofactor false, cofactor true⟩

/-- The halves of two subtrees, for one value of their topmost qubit, carry the halves
of the mixed states. -/
def HalfMixed (gate : Gate ℝ) (canonical : Prop) (depth width : ℕ) (controls : List Control)
    (zero one : Assignment → ℂ) (value : Bool) (u v : Unfolding) : Prop :=
  u.Carries canonical (depth + 1) width
      (fun bits => mixedState gate controls false zero one (Function.update bits depth value)) ∧
    v.Carries canonical (depth + 1) width
      (fun bits => mixedState gate controls true zero one (Function.update bits depth value))

/-- Halves that were mixed under the controls that are left below. -/
theorem HalfMixed.of_mixed {rest : List Control} {value : Bool} {u v : Unfolding}
    (same : ∀ bits, selected rest bits = selected controls (Function.update bits depth value))
    (mixed : u.Carries canonical (depth + 1) width (mixedState gate rest false
        (fun bits => zero (Function.update bits depth value))
        (fun bits => one (Function.update bits depth value))) ∧
      v.Carries canonical (depth + 1) width (mixedState gate rest true
        (fun bits => zero (Function.update bits depth value))
        (fun bits => one (Function.update bits depth value)))) :
    HalfMixed gate canonical depth width controls zero one value u v := by
  refine ⟨mixed.1.congr fun bits => ?_, mixed.2.congr fun bits => ?_⟩ <;>
  · unfold mixedState
    rw [same bits]

theorem HalfMixed.of_unselected {value : Bool} {u v : Unfolding}
    (none : ∀ bits, selected controls (Function.update bits depth value) = false)
    (uCarries : u.Carries canonical (depth + 1) width
      fun bits => zero (Function.update bits depth value))
    (vCarries : v.Carries canonical (depth + 1) width
      fun bits => one (Function.update bits depth value)) :
    HalfMixed gate canonical depth width controls zero one value u v := by
  refine ⟨uCarries.congr fun bits => ?_, vCarries.congr fun bits => ?_⟩ <;>
  · unfold mixedState
    rw [none bits]
    rfl

/-- Joining mixed halves gives the mixed subtrees. -/
theorem Exact.join_halves (exact : s.Exact) {aLow aHigh bLow bHigh : NodeId}
    (aHighStored : aHigh < s.size) (bLowStored : bLow < s.size) (bHighStored : bHigh < s.size)
    (lows : HalfMixed gate canonical depth width controls zero one false
      (s.unfold aLow) (s.unfold bLow))
    (highs : HalfMixed gate canonical depth width controls zero one true
      (s.unfold aHigh) (s.unfold bHigh)) :
    let first := s.join 1 aLow aHigh
    let second := first.2.join 1 bLow bHigh
    Mixes gate canonical depth width controls zero one s ((first.1, second.1), second.2) := by
  intro first second
  have firstYields := exact.join_carries 1 aHighStored lows.1 highs.1
  have secondYields := firstYields.exact.join_carries 1 (firstYields.lt_size bHighStored)
    (by rw [firstYields.unfold_eq bLowStored]; exact lows.2)
    (by rw [firstYields.unfold_eq bHighStored]; exact highs.2)
  have select (state : Assignment → ℂ) (bits : Assignment) :
      (1 : Amplitude ℝ).toComplex *
        (if bits depth then state (Function.update bits depth true)
          else state (Function.update bits depth false)) = state bits := by
    rw [Amplitude.toComplex_one, one_mul]
    cases value : bits depth
    · rw [if_neg Bool.false_ne_true, ← value, Function.update_eq_self]
    · rw [if_pos rfl, ← value, Function.update_eq_self]
  refine ⟨firstYields.growth.trans secondYields.growth, secondYields.exact,
    secondYields.lt_size firstYields.stored, secondYields.stored, ?_, ?_⟩
  · rw [secondYields.unfold_eq firstYields.stored]
    exact firstYields.holds.congr (select _)
  · exact secondYields.holds.congr (select _)

/-- The cofactors of two subtrees, all in one store. -/
structure Halves (canonical : Prop) (depth width : ℕ) (zero one : Assignment → ℂ) (s : NodeStore ℝ)
    (aLow aHigh bLow bHigh : NodeId) : Prop where
  aLow_stored : aLow < s.size
  aHigh_stored : aHigh < s.size
  bLow_stored : bLow < s.size
  bHigh_stored : bHigh < s.size
  aLow : (s.unfold aLow).Carries canonical (depth + 1) width
    fun bits => zero (Function.update bits depth false)
  aHigh : (s.unfold aHigh).Carries canonical (depth + 1) width
    fun bits => zero (Function.update bits depth true)
  bLow : (s.unfold bLow).Carries canonical (depth + 1) width
    fun bits => one (Function.update bits depth false)
  bHigh : (s.unfold bHigh).Carries canonical (depth + 1) width
    fun bits => one (Function.update bits depth true)

theorem Halves.mono {aLow aHigh bLow bHigh : NodeId}
    (halves : s.Halves canonical depth width zero one aLow aHigh bLow bHigh)
    (growth : s.Extends t) : t.Halves canonical depth width zero one aLow aHigh bLow bHigh where
  aLow_stored := halves.aLow_stored.trans_le growth.size_le
  aHigh_stored := halves.aHigh_stored.trans_le growth.size_le
  bLow_stored := halves.bLow_stored.trans_le growth.size_le
  bHigh_stored := halves.bHigh_stored.trans_le growth.size_le
  aLow := by rw [growth.unfold_eq halves.aLow_stored]; exact halves.aLow
  aHigh := by rw [growth.unfold_eq halves.aHigh_stored]; exact halves.aHigh
  bLow := by rw [growth.unfold_eq halves.bLow_stored]; exact halves.bLow
  bHigh := by rw [growth.unfold_eq halves.bHigh_stored]; exact halves.bHigh

theorem Exact.halves (exact : s.Exact) (below : depth < width) (bStored : b < s.size)
    (aCarries : (s.unfold a).Carries canonical depth width zero)
    (bCarries : (s.unfold b).Carries canonical depth width one) :
    let first := s.cofactors a
    let second := first.2.cofactors b
    s.Extends second.2 ∧ second.2.Exact ∧ second.2.Halves canonical depth width zero one
      first.1.1 first.1.2 second.1.1 second.1.2 := by
  intro first second
  have aHalves := exact.cofactors_carries below aCarries
  have bHalves := aHalves.exact.cofactors_carries below
    (by rw [aHalves.unfold_eq bStored]; exact bCarries)
  refine ⟨aHalves.growth.trans bHalves.growth, bHalves.exact, bHalves.lt_size aHalves.first_stored,
    bHalves.lt_size aHalves.second_stored, bHalves.first_stored, bHalves.second_stored, ?_, ?_,
    bHalves.holds.1, bHalves.holds.2⟩
  · rw [bHalves.unfold_eq aHalves.first_stored]
    exact aHalves.holds.1
  · rw [bHalves.unfold_eq aHalves.second_stored]
    exact aHalves.holds.2

/-- The short cuts of a mix are sound, if what it does otherwise is. -/
theorem Exact.mix_shortcuts (exact : s.Exact)
    (aCarries : (s.unfold a).Carries canonical depth width zero)
    (bCarries : (s.unfold b).Carries canonical depth width one)
    {other : (NodeId × NodeId) × NodeStore ℝ}
    (otherwise : (controls = [] → ¬(s.isZero a = true ∨ s.isZero b = true ∨ s.shape a = s.shape b)) →
      Mixes gate canonical depth width controls zero one s other) :
    let shape := if s.isZero a then b else a
    let scales := gate.apply (s.scale a) (s.scale b)
    let low := s.rescale shape scales.1
    let high := low.2.rescale shape scales.2
    Mixes gate canonical depth width controls zero one s
      (if s.isZero a && s.isZero b then ((0, 0), s)
      else if controls.isEmpty && (s.isZero a || s.isZero b || s.sameShape a b) then
        ((low.1, high.1), high.2)
      else other) := by
  intro shape scales low high
  split
  · next empty =>
      obtain ⟨aZero, bZero⟩ := Bool.and_eq_true_iff.mp empty
      have zeros (value : Bool) (bits : Assignment) :
          mixedState gate controls value zero one bits = 0 := by
        unfold mixedState
        rw [← aCarries.amplitude_eq, ← bCarries.amplitude_eq, unfold_of_isZero aZero,
          unfold_of_isZero bZero, Unfolding.amplitude_zero, Gate.mixed_zero]
        simp
      exact .of_zero exact ⟨Unfolding.carries_zero aCarries.le (zeros false),
        Unfolding.carries_zero aCarries.le (zeros true)⟩
  · next nonzero =>
      have shared : (s.isZero a || s.isZero b || s.sameShape a b) = true ↔
          s.isZero a = true ∨ s.isZero b = true ∨ s.shape a = s.shape b := by
        rw [Bool.or_eq_true, Bool.or_eq_true, exact.sameShape_iff, or_assoc]
      split
      · next found =>
          obtain ⟨none, found⟩ := Bool.and_eq_true_iff.mp found
          obtain rfl := List.isEmpty_iff.mp none
          exact exact.mix_scales aCarries bCarries
            (fun both => nonzero (Bool.and_eq_true_iff.mpr both)) (shared.mp found)
      · next differ =>
          refine otherwise fun none found => differ ?_
          rw [none]
          exact shared.mpr found

/-- Two trees without qubits share their shape. -/
theorem shared_of_width (aCarries : (s.unfold a).Carries canonical width width zero)
    (bCarries : (s.unfold b).Carries canonical width width one) :
    s.isZero a = true ∨ s.isZero b = true ∨ s.shape a = s.shape b := by
  have aRegular := aCarries.regular
  have bRegular := bCarries.regular
  rw [Nat.sub_self] at aRegular bRegular
  by_cases aZero : s.isZero a = true
  · exact .inl aZero
  · by_cases bZero : s.isZero b = true
    · exact .inr (.inl bZero)
    · have aNonzero := Bool.not_eq_true _ ▸ aZero
      have bNonzero := Bool.not_eq_true _ ▸ bZero
      obtain ⟨c, _, aLeaf⟩ := aRegular.leaf_of_zero (unfold_ne_zero.mpr aNonzero)
      obtain ⟨d, _, bLeaf⟩ := bRegular.leaf_of_zero (unfold_ne_zero.mpr bNonzero)
      refine .inr (.inr ((shape_eq_iff aNonzero bNonzero).mpr ?_))
      rw [aLeaf, bLeaf]
      rfl

/-- The mix of two halves does what it should, on `levels` levels below the topmost one. -/
def MixesBelow (gate : Gate ℝ) (canonical : Prop) (depth width levels : ℕ)
    (controls : List Control) (zero one : Assignment → ℂ) : Prop :=
  ∀ (value : Bool) (rest : List Control) (t : NodeStore ℝ) (x y : NodeId), t.Exact →
    Ascending rest (depth + 1) width → x < t.size → y < t.size →
    (t.unfold x).Carries canonical (depth + 1) width
      (fun bits => zero (Function.update bits depth value)) →
    (t.unfold y).Carries canonical (depth + 1) width
      (fun bits => one (Function.update bits depth value)) →
    (∀ bits, selected rest bits = selected controls (Function.update bits depth value)) →
    t.YieldsPair (NodeStore.mix gate levels (depth + 1) rest x y t)
      (HalfMixed gate canonical depth width controls zero one value)

variable {levels : ℕ} {aLow aHigh bLow bHigh : NodeId}

/-- Without a control on the topmost level both halves are mixed. -/
theorem Exact.mix_both (exact : s.Exact)
    (below : MixesBelow gate canonical depth width levels controls zero one)
    (halves : s.Halves canonical depth width zero one aLow aHigh bLow bHigh)
    (ascending : Ascending controls (depth + 1) width) :
    let low := NodeStore.mix gate levels (depth + 1) controls aLow bLow s
    let high := NodeStore.mix gate levels (depth + 1) controls aHigh bHigh low.2
    let first := high.2.join 1 low.1.1 high.1.1
    let second := first.2.join 1 low.1.2 high.1.2
    Mixes gate canonical depth width controls zero one s ((first.1, second.1), second.2) := by
  intro low high first second
  have same (value : Bool) (bits : Assignment) :
      selected controls bits = selected controls (Function.update bits depth value) := by
    refine (selected_update (fun control member => ?_) bits value).symm
    have lower := (ascending.bounds control member).1
    omega
  have lows := below false controls s aLow bLow exact ascending halves.aLow_stored
    halves.bLow_stored halves.aLow halves.bLow (same false)
  have halves := halves.mono lows.growth
  have highs := below true controls low.2 aHigh bHigh lows.exact ascending halves.aHigh_stored
    halves.bHigh_stored halves.aHigh halves.bHigh (same true)
  refine (highs.exact.join_halves highs.first_stored (highs.lt_size lows.second_stored)
    highs.second_stored ?_ highs.holds).after (lows.growth.trans highs.growth)
  rw [highs.unfold_eq lows.first_stored, highs.unfold_eq lows.second_stored]
  exact lows.holds

section Head

variable {rest : List Control} {value : Bool}

/-- A control on the topmost level leaves the controls below it for the branch with its value. -/
theorem selected_head (ascending : Ascending rest (depth + 1) width) (bits : Assignment) :
    selected rest bits = selected (⟨depth, value⟩ :: rest) (Function.update bits depth value) := by
  rw [selected_cons, Function.update_self, beq_self_eq_true, Bool.true_and, selected_update]
  intro control member
  have lower := (ascending.bounds control member).1
  omega

theorem unselected_head {other : Bool} (differs : other ≠ value) (bits : Assignment) :
    selected (⟨depth, value⟩ :: rest) (Function.update bits depth other) = false := by
  rw [selected_cons, Function.update_self, beq_false_of_ne differs, Bool.false_and]

/-- A control on the topmost level that asks for 1 leaves the halves for 0 alone. -/
theorem Exact.mix_high (exact : s.Exact)
    (below : MixesBelow gate canonical depth width levels (⟨depth, true⟩ :: rest) zero one)
    (halves : s.Halves canonical depth width zero one aLow aHigh bLow bHigh)
    (ascending : Ascending rest (depth + 1) width) :
    let high := NodeStore.mix gate levels (depth + 1) rest aHigh bHigh s
    let first := high.2.join 1 aLow high.1.1
    let second := first.2.join 1 bLow high.1.2
    Mixes gate canonical depth width (⟨depth, true⟩ :: rest) zero one s
      ((first.1, second.1), second.2) := by
  intro high first second
  have highs := below true rest s aHigh bHigh exact ascending halves.aHigh_stored
    halves.bHigh_stored halves.aHigh halves.bHigh (selected_head ascending)
  have halves := halves.mono highs.growth
  refine (highs.exact.join_halves highs.first_stored halves.bLow_stored highs.second_stored ?_
    highs.holds).after highs.growth
  exact .of_unselected (unselected_head Bool.false_ne_true) halves.aLow halves.bLow

/-- A control on the topmost level that asks for 0 leaves the halves for 1 alone. -/
theorem Exact.mix_low (exact : s.Exact)
    (below : MixesBelow gate canonical depth width levels (⟨depth, false⟩ :: rest) zero one)
    (halves : s.Halves canonical depth width zero one aLow aHigh bLow bHigh)
    (ascending : Ascending rest (depth + 1) width) :
    let low := NodeStore.mix gate levels (depth + 1) rest aLow bLow s
    let first := low.2.join 1 low.1.1 aHigh
    let second := first.2.join 1 low.1.2 bHigh
    Mixes gate canonical depth width (⟨depth, false⟩ :: rest) zero one s
      ((first.1, second.1), second.2) := by
  intro low first second
  have lows := below false rest s aLow bLow exact ascending halves.aLow_stored
    halves.bLow_stored halves.aLow halves.bLow (selected_head ascending)
  have halves := halves.mono lows.growth
  refine (lows.exact.join_halves halves.aHigh_stored lows.second_stored halves.bHigh_stored
    lows.holds ?_).after lows.growth
  exact .of_unselected (unselected_head Bool.false_ne_true.symm) halves.aHigh halves.bHigh

end Head

/-- Mixing two subtrees mixes their states where the controls have their values. -/
theorem Exact.mix (exact : s.Exact) (total : depth + levels = width)
    (ascending : Ascending controls depth width) (aStored : a < s.size) (bStored : b < s.size)
    (aCarries : (s.unfold a).Carries canonical depth width zero)
    (bCarries : (s.unfold b).Carries canonical depth width one) :
    Mixes gate canonical depth width controls zero one s
      (NodeStore.mix gate levels depth controls a b s) := by
  induction levels generalizing depth controls s a b zero one with
  | zero =>
      obtain rfl : depth = width := total
      obtain rfl := ascending.eq_nil
      rw [NodeStore.mix]
      exact exact.mix_shortcuts aCarries bCarries fun differ =>
        absurd (shared_of_width aCarries bCarries) (differ rfl)
  | succ levels ih =>
      rw [NodeStore.mix]
      refine exact.mix_shortcuts aCarries bCarries fun _ => ?_
      have total : depth + 1 + levels = width := by omega
      obtain ⟨growth, exact, halves⟩ := exact.halves (by omega) bStored aCarries bCarries
      have below : MixesBelow gate canonical depth width levels controls zero one :=
        fun value rest t x y exact ascending xStored yStored xCarries yCarries same =>
          (ih exact total ascending xStored yStored xCarries yCarries).mono
            fun u v mixed => .of_mixed same mixed
      refine YieldsPair.after ?_ growth
      cases controls with
      | nil => exact exact.mix_both below halves ⟨.nil, fun _ impossible => by cases impossible⟩
      | cons control rest =>
          obtain ⟨qubit, value⟩ := control
          dsimp only
          by_cases top : qubit = depth
          · subst top
            rw [if_pos (beq_self_eq_true _)]
            cases value with
            | true => exact exact.mix_high below halves ascending.tail
            | false => exact exact.mix_low below halves ascending.tail
          · rw [if_neg (by rwa [beq_iff_eq])]
            exact exact.mix_both below halves (ascending.succ (by rintro _ ⟨⟩; exact top))

end NodeStore

namespace Tree

variable {t : Tree ℝ} {canonical : Prop} {gate : Gate ℝ} {controls : List Control} {target : ℕ}

/-- The controls of a gate in ascending order, without its target. -/
structure Admissible (controls : List Control) (target width : ℕ) : Prop where
  ascending : NodeStore.Ascending controls 0 width
  below : target < width
  other : ∀ control ∈ controls, control.qubit ≠ target

namespace Admissible

variable {width : ℕ}

/-- In ascending order, the controls above the target come first. -/
theorem split_filter (admissible : Admissible controls target width) :
    (controls.takeWhile fun control => control.qubit < target) =
        controls.filter (fun control => control.qubit < target) ∧
      (controls.dropWhile fun control => control.qubit < target) =
        controls.filter fun control => target < control.qubit := by
  have sorted := admissible.ascending.sorted
  have other := admissible.other
  clear admissible
  induction controls with
  | nil => exact ⟨rfl, rfl⟩
  | cons control rest ih =>
      obtain ⟨first, sorted⟩ := List.pairwise_cons.mp sorted
      have different := other control List.mem_cons_self
      by_cases above : control.qubit < target
      · obtain ⟨takes, drops⟩ := ih sorted fun c member => other c (List.mem_cons_of_mem _ member)
        have notBelow : ¬target < control.qubit := by omega
        simp [above, notBelow, takes, drops]
      · have below : ∀ c ∈ control :: rest, target < c.qubit := by
          intro c member
          rcases List.mem_cons.mp member with rfl | member
          · omega
          · have later := first c member
            omega
        constructor
        · rw [List.takeWhile_cons_of_neg (by simpa using above), eq_comm, List.filter_eq_nil_iff]
          exact fun c member => by simpa using (below c member).le
        · rw [List.dropWhile_cons_of_neg (by simpa using above), eq_comm, List.filter_eq_self]
          exact fun c member => by simpa using below c member

theorem mem_upper (admissible : Admissible controls target width) {control : Control} :
    control ∈ (controls.takeWhile fun control => control.qubit < target) ↔
      control ∈ controls ∧ control.qubit < target := by
  rw [admissible.split_filter.1, List.mem_filter, decide_eq_true_eq]

theorem mem_lower (admissible : Admissible controls target width) {control : Control} :
    control ∈ (controls.dropWhile fun control => control.qubit < target) ↔
      control ∈ controls ∧ target < control.qubit := by
  rw [admissible.split_filter.2, List.mem_filter, decide_eq_true_eq]

theorem lower_ascending (admissible : Admissible controls target width) :
    NodeStore.Ascending (controls.dropWhile fun control => control.qubit < target) (target + 1)
      width where
  sorted := admissible.ascending.sorted.sublist (List.dropWhile_sublist _)
  bounds control member := by
    obtain ⟨known, below⟩ := admissible.mem_lower.mp member
    exact ⟨below, (admissible.ascending.bounds control known).2⟩

theorem selectedFrom_target (admissible : Admissible controls target width) (bits : Assignment) :
    selectedFrom controls target bits =
      selected (controls.dropWhile fun control => control.qubit < target) bits := by
  rw [Bool.eq_iff_iff, selectedFrom_iff, selected, List.all_eq_true]
  constructor
  · intro found control member
    obtain ⟨known, below⟩ := admissible.mem_lower.mp member
    exact beq_iff_eq.mpr (found control known below.le)
  · intro found control member lower
    have different := admissible.other control member
    exact beq_iff_eq.mp (found control (admissible.mem_lower.mpr ⟨member, by omega⟩))

theorem find_upper (admissible : Admissible controls target width) {depth : ℕ}
    (above : depth < target) :
    match (controls.takeWhile fun control => control.qubit < target).find? fun control =>
      control.qubit == depth with
    | none => ∀ control ∈ controls, control.qubit ≠ depth
    | some control => control ∈ controls ∧ control.qubit = depth ∧
        ∀ other ∈ controls, other.qubit = control.qubit → other = control := by
  split
  · next none =>
      intro control member found
      have missing := List.find?_eq_none.mp none control
        (admissible.mem_upper.mpr ⟨member, by omega⟩)
      exact missing (beq_iff_eq.mpr found)
  · next control found =>
      have member := (admissible.mem_upper.mp (List.mem_of_find?_eq_some found)).1
      exact ⟨member, by simpa using List.find?_some found, fun other otherMember same =>
        admissible.ascending.unique otherMember member same⟩

end Admissible

/-- The state of a node after a gate, where the controls above the node have their values. -/
noncomputable def appliedState (t : Tree ℝ) (gate : Gate ℝ) (controls : List Control) (target : ℕ)
    (depth : ℕ) (id : NodeId) (bits : Assignment) : ℂ :=
  if selectedFrom controls depth bits then
    gate.act target ((t.store.unfold id).amplitude depth) bits
  else (t.store.unfold id).amplitude depth bits

/-- On the target's level the mixed branches are joined. -/
theorem Sound.applied_target (exact : t.store.Exact)
    (admissible : Admissible controls target t.width) {id low high : NodeId}
    {s : NodeStore ℝ} (onLevel : t.store.OnLevel canonical t.width target id)
    (nonzero : t.store.isZero id = false) (branches : (t.store.get id).branches = some (low, high))
    (growth : t.store.Extends s) (valid : s.Exact) :
    let lower := controls.dropWhile fun control => control.qubit < target
    let mixed := s.mix gate (t.width - (target + 1)) (target + 1) lower low high
    s.Yields (mixed.2.join (t.store.get id).scale mixed.1.1 mixed.1.2) fun u =>
      u.Carries canonical target t.width (appliedState t gate controls target target id) := by
  intro lower mixed
  obtain ⟨below, lowLevel, highLevel⟩ := onLevel.branches exact.toOrdered nonzero branches
  obtain ⟨lowLt, highLt⟩ := exact.branches_lt branches
  have lowStored := lowLt.trans (exact.lt_size nonzero)
  have highStored := highLt.trans (exact.lt_size nonzero)
  have mixes : NodeStore.Mixes gate canonical (target + 1) t.width lower
      ((t.store.unfold low).amplitude (target + 1)) ((t.store.unfold high).amplitude (target + 1))
      s mixed :=
    valid.mix (by omega) admissible.lower_ascending (lowStored.trans_le growth.size_le)
      (highStored.trans_le growth.size_le)
      (by rw [growth.unfold_eq lowStored]; exact lowLevel.carries)
      (by rw [growth.unfold_eq highStored]; exact highLevel.carries)
  refine ((mixes.exact.join_carries _ mixes.second_stored mixes.holds.1 mixes.holds.2).after
    mixes.growth).mono fun u carries => carries.congr fun bits => ?_
  have half (value : Bool) : (t.store.unfold id).amplitude target (Function.update bits target value) =
      (t.store.get id).scale.toComplex *
        (t.store.unfold (if value then high else low)).amplitude (target + 1) bits := by
    rw [exact.unfold_of_branches nonzero branches, Unfolding.amplitude_fork_update]
    cases value <;> rfl
  rw [appliedState, admissible.selectedFrom_target]
  change _ = if selected lower bits then _ else _
  unfold NodeStore.mixedState
  by_cases chosen : selected lower bits = true
  · rw [if_pos chosen, if_pos chosen, if_pos chosen, Gate.act, half, half,
      mul_comm _ (Unfolding.amplitude ..), mul_comm _ (Unfolding.amplitude ..), Gate.mixed_mul,
      mul_comm]
    cases bits target <;> rfl
  · rw [if_neg chosen, if_neg chosen, if_neg chosen,
      exact.amplitude_of_branches nonzero branches]
    rfl

theorem Sound.applied_above (exact : t.store.Exact) {id low high newLow newHigh depth : NodeId}
    {s : NodeStore ℝ} (onLevel : t.store.OnLevel canonical t.width depth id)
    (nonzero : t.store.isZero id = false) (branches : (t.store.get id).branches = some (low, high))
    (growth : t.store.Extends s) (valid : s.Exact) (newHighStored : newHigh < s.size)
    {lowState highState : Assignment → ℂ}
    (lowCarries : (s.unfold newLow).Carries canonical (depth + 1) t.width lowState)
    (highCarries : (s.unfold newHigh).Carries canonical (depth + 1) t.width highState)
    (applied : ∀ bits, appliedState t gate controls target depth id bits =
      (t.store.get id).scale.toComplex * if bits depth then highState bits else lowState bits) :
    s.Yields (if newLow == low && newHigh == high then (id, s)
        else s.join (t.store.get id).scale newLow newHigh) fun u =>
      u.Carries canonical depth t.width (appliedState t gate controls target depth id) := by
  split
  · next same =>
      obtain ⟨lowSame, highSame⟩ := Bool.and_eq_true_iff.mp same
      obtain rfl := eq_of_beq lowSame
      obtain rfl := eq_of_beq highSame
      obtain ⟨lowLt, highLt⟩ := exact.branches_lt branches
      have stored := exact.lt_size nonzero
      refine .of_stored valid ((growth.isZero_eq stored).trans nonzero) ?_
      rw [growth.unfold_eq stored]
      refine ⟨onLevel.le, onLevel.regular, fun bits => ?_⟩
      rw [exact.amplitude_of_branches nonzero branches, applied, ← lowCarries.amplitude_eq,
        ← highCarries.amplitude_eq, growth.unfold_eq (lowLt.trans stored),
        growth.unfold_eq (highLt.trans stored)]
  · exact (valid.join_carries _ newHighStored lowCarries highCarries).mono
      fun u carries => carries.congr fun bits => (applied bits).symm

/-- Above the target the state of a node is changed in the branches that the controls allow. -/
theorem appliedState_above (gate : Gate ℝ) (controls : List Control) (exact : t.store.Exact)
    {id low high : NodeId} {depth : ℕ}
    (nonzero : t.store.isZero id = false) (branches : (t.store.get id).branches = some (low, high))
    (above : depth < target) (bits : Assignment) :
    appliedState t gate controls target depth id bits =
      (t.store.get id).scale.toComplex *
        if bits depth then
          if selectedFrom controls depth bits then
            gate.act target ((t.store.unfold high).amplitude (depth + 1)) bits
          else (t.store.unfold high).amplitude (depth + 1) bits
        else
          if selectedFrom controls depth bits then
            gate.act target ((t.store.unfold low).amplitude (depth + 1)) bits
          else (t.store.unfold low).amplitude (depth + 1) bits := by
  have state : (t.store.unfold id).amplitude depth = fun bits => _ :=
    funext (exact.amplitude_of_branches nonzero branches)
  rw [appliedState, state, Gate.act_fork gate above.ne]
  split <;> rfl

/-- Above the target a node becomes the join of its branches, of which those that a
control excludes stay. -/
theorem Sound.applied_join (exact : t.store.Exact) {id low high newLow newHigh depth : NodeId}
    {s : NodeStore ℝ} (above : depth < target)
    (onLevel : t.store.OnLevel canonical t.width depth id)
    (nonzero : t.store.isZero id = false) (branches : (t.store.get id).branches = some (low, high))
    (growth : t.store.Extends s) (valid : s.Exact) {kept : Option Control}
    (search : match kept with
      | none => ∀ control ∈ controls, control.qubit ≠ depth
      | some control => control ∈ controls ∧ control.qubit = depth ∧
          ∀ other ∈ controls, other.qubit = control.qubit → other = control)
    (lowOffered : NodeStore.Offered
      (kept.bind fun control => if control.value then some low else none)
      (fun u => u.Carries canonical (depth + 1) t.width
        (appliedState t gate controls target (depth + 1) low)) s newLow)
    (highOffered : NodeStore.Offered
      (kept.bind fun control => if control.value then none else some high)
      (fun u => u.Carries canonical (depth + 1) t.width
        (appliedState t gate controls target (depth + 1) high)) s newHigh) :
    s.Yields (if newLow == low && newHigh == high then (id, s)
        else s.join (t.store.get id).scale newLow newHigh) fun u =>
      u.Carries canonical depth t.width (appliedState t gate controls target depth id) := by
  obtain ⟨_, lowLevel, highLevel⟩ := onLevel.branches exact.toOrdered nonzero branches
  obtain ⟨lowLt, highLt⟩ := exact.branches_lt branches
  have lowStored := lowLt.trans (exact.lt_size nonzero)
  have highStored := highLt.trans (exact.lt_size nonzero)
  have applied := appliedState_above gate controls exact nonzero branches above
  cases kept with
  | none =>
      refine Sound.applied_above exact onLevel nonzero branches growth valid
        highOffered.1 lowOffered.2 highOffered.2 fun bits => ?_
      rw [applied, selectedFrom_succ search]
      rfl
  | some control =>
      obtain ⟨qubit, value⟩ := control
      obtain ⟨member, rfl, unique⟩ := search
      have step (bits : Assignment) := selectedFrom_control member unique bits
      cases value with
      | true =>
          obtain rfl : newLow = low := lowOffered
          have lowCarries := lowLevel.carries
          rw [← growth.unfold_eq lowStored] at lowCarries
          refine Sound.applied_above exact onLevel nonzero branches growth valid
            highOffered.1 lowCarries highOffered.2 fun bits => ?_
          rw [applied, step, growth.unfold_eq lowStored]
          cases bits qubit <;> rfl
      | false =>
          obtain rfl : newHigh = high := highOffered
          have highCarries := highLevel.carries
          rw [← growth.unfold_eq highStored] at highCarries
          refine Sound.applied_above exact onLevel nonzero branches growth valid
            (highStored.trans_le growth.size_le) lowOffered.2 highCarries fun bits => ?_
          rw [applied, step, growth.unfold_eq highStored]
          cases bits qubit <;> rfl

section Visits

variable {R : Type} [Scalar R] {t : Tree R} {gate : Gate R} {upper lower : List Control}
  {depth : ℕ} {id : NodeId}

theorem applyVisit_eq_answer {result : NodeStore R → NodeId × NodeStore R}
    (visited : t.applyVisit gate upper lower target depth id = .answer result) :
    ((t.store.get id).branches = none ∧ result = fun s => (id, s)) ∨
      ∃ low high, (t.store.get id).branches = some (low, high) ∧ depth = target ∧
        result = fun s =>
          let mixed := s.mix gate (t.width - (depth + 1)) (depth + 1) lower low high
          mixed.2.join (t.store.get id).scale mixed.1.1 mixed.1.2 := by
  dsimp only [applyVisit] at visited
  split at visited
  · next leaf => exact .inl ⟨leaf, (Visit.answer.inj visited).symm⟩
  · next low high branches =>
      split at visited
      · next here =>
          exact .inr ⟨low, high, branches, beq_iff_eq.mp here, (Visit.answer.inj visited).symm⟩
      · cases visited

theorem applyVisit_eq_descend {given given' : Option NodeId}
    {combine : NodeId → NodeId → NodeStore R → NodeId × NodeStore R}
    (visited : t.applyVisit gate upper lower target depth id = .descend given given' combine) :
    depth ≠ target ∧ ∃ low high, (t.store.get id).branches = some (low, high) ∧
      (given = (upper.find? fun control => control.qubit == depth).bind fun control =>
        if control.value then some low else none) ∧
      (given' = (upper.find? fun control => control.qubit == depth).bind fun control =>
        if control.value then none else some high) ∧
      combine = fun newLow newHigh s =>
        if newLow == low && newHigh == high then (id, s)
        else s.join (t.store.get id).scale newLow newHigh := by
  dsimp only [applyVisit] at visited
  split at visited
  · cases visited
  · next low high branches =>
      split at visited
      · cases visited
      · next elsewhere =>
          cases visited
          exact ⟨mt beq_iff_eq.mpr elsewhere, low, high, branches, rfl, rfl, rfl⟩

theorem eq_low_of_kept {kept : Option Control} {low other : NodeId}
    (found : (kept.bind fun control => if control.value then some low else none) = some other) :
    other = low := by
  obtain ⟨control, _, chosen⟩ := Option.bind_eq_some_iff.mp found
  split at chosen
  · exact (Option.some.inj chosen).symm
  · cases chosen

theorem eq_high_of_kept {kept : Option Control} {high other : NodeId}
    (found : (kept.bind fun control => if control.value then none else some high) = some other) :
    other = high := by
  obtain ⟨control, _, chosen⟩ := Option.bind_eq_some_iff.mp found
  split at chosen
  · cases chosen
  · exact (Option.some.inj chosen).symm

end Visits

/-- What the visits of a gate's walk ensure. -/
theorem Sound.apply_appends (sound : t.Sound canonical) (gate : Gate ℝ)
    (admissible : Admissible controls target t.width) :
    t.store.Appends t.store
      (t.applyVisit gate (controls.takeWhile fun control => control.qubit < target)
        (controls.dropWhile fun control => control.qubit < target) target)
      (fun depth id => t.store.OnLevel canonical t.width depth id ∧ depth ≤ target)
      fun depth id u => u.Carries canonical depth t.width
        (appliedState t gate controls target depth id) := by
  refine ⟨fun met again => met.1.unique again.1, ?_, ?_, ?_⟩
  · intro depth id met empty
    refine Unfolding.carries_zero met.1.le fun bits => ?_
    rw [appliedState, NodeStore.unfold_of_isZero empty]
    split
    · exact Gate.mixed_zero ..
    · rfl
  · intro depth id result s met nonzero visited growth valid
    obtain ⟨onLevel, above⟩ := met
    obtain ⟨leaf, rfl⟩ | ⟨low, high, branches, rfl, rfl⟩ := applyVisit_eq_answer visited
    · have bottom := onLevel.eq_width nonzero leaf
      have below := admissible.below
      omega
    · exact Sound.applied_target sound.exact admissible onLevel nonzero branches growth valid
  · intro depth id given given' combine met nonzero visited
    obtain ⟨onLevel, above⟩ := met
    obtain ⟨elsewhere, low, high, branches, rfl, rfl, rfl⟩ := applyVisit_eq_descend visited
    have above := lt_of_le_of_ne above elsewhere
    obtain ⟨_, lowLevel, highLevel⟩ := onLevel.branches sound.exact.toOrdered nonzero branches
    refine ⟨_, sound.exact.children_eq branches, fun _ => ⟨lowLevel, above⟩,
      fun _ => ⟨highLevel, above⟩, ?_⟩
    intro s newLow newHigh growth valid lowOffered highOffered
    exact Sound.applied_join sound.exact above onLevel nonzero branches growth
      valid (admissible.find_upper above) lowOffered highOffered

/-- A gate on a tree acts on the state where its controls have their values. -/
theorem Sound.apply (sound : t.Sound canonical) (gate : Gate ℝ)
    (admissible : Admissible controls target t.width) :
    (t.apply gate controls target).Sound canonical ∧
      (t.apply gate controls target).state = gate.actWhere controls target t.state := by
  have yields := (sound.apply_appends gate admissible).walkFrom
    ⟨sound.onLevel, Nat.zero_le _⟩ (.refl _) sound.exact
  refine sound_of_yields (yields.mono fun u carries => carries.congr fun bits => ?_) _
  rw [appliedState, selectedFrom_zero]
  rfl

@[simp]
theorem width_apply (t : Tree ℝ) (gate : Gate ℝ) (controls : List Control) (target : ℕ) :
    (t.apply gate controls target).width = t.width := rfl

end Tree

end AmplitudeTree
