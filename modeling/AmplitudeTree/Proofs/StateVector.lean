import AmplitudeTree.Proofs.BasisIndex
import AmplitudeTree.Proofs.Gate
import AmplitudeTree.Proofs.Tree.Basic
import AmplitudeTree.StateVector.Basic

/-!
# State vectors and states

A state vector represents a state if it lists the amplitudes of all basis states.  Its gates are
those on states.
-/

namespace AmplitudeTree.StateVector

variable {v : StateVector ℝ} {width target : ℕ} {state : Assignment → ℂ} {controls : List ℕ}

/-- The state vector lists the amplitudes of a state of `width` qubits. -/
structure Represents (v : StateVector ℝ) (width : ℕ) (state : Assignment → ℂ) : Prop where
  width_eq : v.width = width
  size : v.amplitudes.size = 2 ^ width
  amplitudes : ∀ index < 2 ^ width, (v.amplitudeD index).toComplex = state index.testBit

def maskOf (controls : List ℕ) : BasisIndex :=
  controls.foldr (fun control mask => .power control ||| mask) 0

theorem testBit_maskOf (controls : List ℕ) (q : ℕ) :
    (maskOf controls).testBit q = decide (q ∈ controls) := by
  induction controls with
  | nil => simp [maskOf]
  | cons control rest ih =>
      rw [maskOf, List.foldr_cons, ← maskOf, Nat.testBit_or, ih, BasisIndex.power,
        Nat.testBit_two_pow]
      simp [eq_comm, Bool.decide_or]

theorem controlMask_eq (controls : List ℕ) :
    (∀ control ∈ controls, control < v.width) ∧ v.controlMask controls = .ok (maskOf controls) ∨
      (∃ control ∈ controls, v.width ≤ control) ∧ ∃ e, v.controlMask controls = .error e := by
  induction controls with
  | nil => exact .inl ⟨nofun, rfl⟩
  | cons control rest ih =>
      rw [controlMask, checkQubit]
      by_cases inside : control < v.width
      · rw [if_pos inside]
        rcases ih with ⟨all, found⟩ | ⟨⟨other, listed, outside⟩, e, failed⟩
        · exact .inl ⟨List.forall_mem_cons.mpr ⟨inside, all⟩, by rw [found]; rfl⟩
        · exact .inr ⟨⟨other, List.mem_cons_of_mem _ listed, outside⟩, e, by rw [failed]; rfl⟩
      · rw [if_neg inside]
        exact .inr ⟨⟨control, List.mem_cons_self, not_lt.mp inside⟩, _, rfl⟩

theorem controlMask_eq_ok (inside : ∀ control ∈ controls, control < v.width) :
    ∃ mask, v.controlMask controls = .ok mask ∧ ∀ q, mask.testBit q = decide (q ∈ controls) := by
  rcases controlMask_eq (v := v) controls with ⟨-, found⟩ | ⟨⟨control, listed, outside⟩, -⟩
  · exact ⟨maskOf controls, found, testBit_maskOf controls⟩
  · exact absurd (inside control listed) (not_lt.mpr outside)

/-- The masked bits are all set, or all clear. -/
theorem masked_eq_iff {mask : BasisIndex} (bits : ∀ q, mask.testBit q = decide (q ∈ controls))
    (index : BasisIndex) (anti : Bool) :
    index &&& mask = (if anti then 0 else mask) ↔
      selected (asControls controls (!anti)) index.testBit = true := by
  rw [selected_asControls, List.all_eq_true]
  constructor
  · intro same q member
    have bit : (index.testBit q && mask.testBit q) =
        (if anti then 0 else mask : BasisIndex).testBit q := by
      rw [← Nat.testBit_and, same]
    rw [bits, decide_eq_true member, Bool.and_true] at bit
    rw [bit]
    cases anti <;> simp [bits, member]
  · intro found
    apply Nat.eq_of_testBit_eq
    intro q
    by_cases member : q ∈ controls
    · have bit := found q member
      cases anti <;> simp_all
    · cases anti <;> simp_all

/-- A gate on a state vector is the gate on its state. -/
theorem Represents.applyControlled (represents : v.Represents width state) (gate : Gate ℝ)
    (anti : Bool) (below : target < width)
    (inside : ∀ control ∈ controls, control < width ∧ control ≠ target) :
    ∃ v', v.applyControlled gate controls anti target = .ok v' ∧
      v'.Represents width (gate.actWhere (asControls controls (!anti)) target state) := by
  obtain ⟨mask, found, bits⟩ := controlMask_eq_ok (v := v) fun control member =>
    (inside control member).1.trans_eq represents.width_eq.symm
  have run : v.applyControlled gate controls anti target =
      .ok (v.mapIndexed fun index a =>
        let atZero := index.clear (.power target)
        if atZero &&& mask == if anti then 0 else mask then
          if index.bit target then gate.bottomLeft * v.amplitudeD atZero + gate.bottomRight * a
          else gate.topLeft * a + gate.topRight * v.amplitudeD (index ||| .power target)
        else a) := by
    rw [StateVector.applyControlled, checkQubit,
      if_pos (below.trans_eq represents.width_eq.symm), found]
    rfl
  refine ⟨_, run, ?_⟩
  · refine ⟨represents.width_eq, (Array.size_mapIdx ..).trans represents.size, fun index bound => ?_⟩
    have stored : index < v.amplitudes.size := bound.trans_eq represents.size.symm
    have here : (v.amplitudes[index]).toComplex = state index.testBit := by
      rw [← represents.amplitudes index bound, amplitudeD, Array.getElem?_eq_getElem stored]
      rfl
    have atZero := represents.amplitudes _ (BasisIndex.clear_lt bound (.power target))
    have atOne := represents.amplitudes _
      (Nat.or_lt_two_pow bound (BasisIndex.power_lt below))
    have chosen : selected (asControls controls (!anti)) (index.clear (.power target)).testBit =
        selected (asControls controls (!anti)) index.testBit := by
      rw [BasisIndex.testBit_clear_power]
      refine selected_update (fun control member => ?_) _ _
      obtain ⟨qubit, found, rfl⟩ := List.mem_map.mp member
      exact (inside qubit found).2
    rw [BasisIndex.testBit_clear_power] at atZero
    rw [BasisIndex.testBit_or_power] at atOne
    rw [amplitudeD, mapIndexed, Array.getElem?_mapIdx, Array.getElem?_eq_getElem stored,
      Option.map_some, Option.getD_some, Gate.actWhere]
    simp only [beq_iff_eq, masked_eq_iff bits, chosen]
    split
    · rw [Gate.act, Gate.mixed, ← atZero, ← atOne, BasisIndex.bit]
      have self := Function.update_eq_self target index.testBit
      cases value : index.testBit target with
      | false =>
          rw [value] at self
          rw [self, ← here] at atZero
          rw [if_neg Bool.false_ne_true, if_neg Bool.false_ne_true, Amplitude.toComplex_add,
            Amplitude.toComplex_mul, Amplitude.toComplex_mul, atZero]
      | true =>
          rw [value] at self
          rw [self, ← here] at atOne
          rw [if_pos rfl, if_pos rfl, Amplitude.toComplex_add, Amplitude.toComplex_mul,
            Amplitude.toComplex_mul, atOne]
    · exact here

/-! ## Basis states -/

noncomputable def basisAmplitudes (width : ℕ) (index : BasisIndex) : Array (Amplitude ℝ) :=
  Array.ofFn fun i : Fin (2 ^ width) => if i.val = index then 1 else 0

noncomputable def createBasis (width limit : ℕ) (seed : UInt64) (capabilities : Capabilities)
    (index : BasisIndex) : Except VectorError (StateVector ℝ) := do
  let v ← create width limit seed capabilities
  v.setAmplitudes (basisAmplitudes width index)

theorem createBasis_represents {limit : ℕ} (admitted : width ≤ limit)
    (word : width < BasisIndex.wordBits) (seed : UInt64) (capabilities : Capabilities)
    {index : BasisIndex} (bound : index < 2 ^ width) :
    ∃ v, createBasis width limit seed capabilities index = .ok v ∧
      v.Represents width (Tree.basisState index 0 width 1) := by
  refine ⟨⟨width, basisAmplitudes width index, .ofSeed seed, capabilities⟩, ?_, rfl,
    Array.size_ofFn, fun i below => ?_⟩
  · rw [createBasis, create, if_neg (by simp [admitted, word])]
    change setAmplitudes _ _ = _
    rw [setAmplitudes, if_pos (by simp [basisAmplitudes])]
  · rw [amplitudeD, basisAmplitudes, Array.getElem?_ofFn, dif_pos below, Option.getD_some,
      Tree.basisState]
    have same : (∀ q, 0 ≤ q → q < width → i.testBit q = index.testBit q) ↔ i = index := by
      constructor
      · exact fun agree => BasisIndex.eq_of_testBit below bound fun q => agree q (Nat.zero_le q)
      · rintro rfl _ _ _
        rfl
    by_cases here : i = index
    · rw [if_pos here, if_pos (same.mpr here), Amplitude.toComplex_one]
    · rw [if_neg here, if_neg fun agree => here (same.mp agree), Amplitude.toComplex_zero]

end AmplitudeTree.StateVector
