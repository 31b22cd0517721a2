import AmplitudeTree.Proofs.BasisIndex
import AmplitudeTree.Proofs.Scalar
import AmplitudeTree.StateVector.Arithmetic
import Mathlib.Order.Interval.Set.Basic

/-!
# Rearranging amplitudes

A state vector whose amplitudes are moved along a bijection of its indices, some of them negated,
holds the same amplitudes in other places.  In particular it does not vanish unless it did before.
-/

namespace AmplitudeTree.StateVector

variable {v v' : StateVector ℝ} {target : BasisIndex → Option BasisIndex}
  {f : BasisIndex → BasisIndex} {negate : BasisIndex → Bool}

/-- One state vector holds the amplitudes of another one in other places, some of them negated. -/
def Rearranges (v v' : StateVector ℝ) (f : BasisIndex → BasisIndex)
    (negate : BasisIndex → Bool) : Prop :=
  v'.amplitudes.size = v.amplitudes.size ∧
    Set.BijOn f (Set.Iio v.amplitudes.size) (Set.Iio v.amplitudes.size) ∧
    ∀ index < v.amplitudes.size,
      v'.amplitudeD (f index) = if negate index then -v.amplitudeD index else v.amplitudeD index

/-- No amplitude of the state vector differs from zero. -/
def Vanishes (v : StateVector ℝ) : Prop :=
  ∀ index < v.amplitudes.size, (v.amplitudeD index).toComplex = 0

theorem vanishes_iff_all : v.Vanishes ↔ v.amplitudes.all (Amplitude.negligible 0) = true := by
  rw [Array.all_eq_true, Vanishes]
  refine forall₂_congr fun index stored => ?_
  rw [Amplitude.negligible_zero_iff, amplitudeD, Array.getElem?_eq_getElem stored, Option.getD_some]

/-- Amplitudes in other places vanish just in case they did before. -/
theorem Rearranges.vanishes_iff (rearranges : v.Rearranges v' f negate) :
    v'.Vanishes ↔ v.Vanishes := by
  obtain ⟨size, bijective, moved⟩ := rearranges
  have same (index : BasisIndex) (below : index < v.amplitudes.size) :
      (v'.amplitudeD (f index)).toComplex = 0 ↔ (v.amplitudeD index).toComplex = 0 := by
    rw [moved index below]
    split
    · rw [Amplitude.toComplex_neg, neg_eq_zero]
    · rfl
  constructor
  · intro vanishes index below
    exact (same index below).mp (vanishes _ ((bijective.mapsTo below).trans_eq size.symm))
  · intro vanishes place below
    obtain ⟨index, inside, rfl⟩ := bijective.surjOn (below.trans_eq size)
    exact (same index inside).mpr (vanishes index inside)

/-! ## Passes over the amplitudes -/

/-- Writes an amplitude to the place of its index, where `write` says what comes of
the amplitude there. -/
def deposit (target : BasisIndex → Option BasisIndex)
    (write : Amplitude ℝ × BasisIndex → Amplitude ℝ → Amplitude ℝ) (out : Array (Amplitude ℝ))
    (entry : Amplitude ℝ × BasisIndex) : Array (Amplitude ℝ) :=
  match target entry.2 with
  | some place => out.modify place (write entry)
  | none => out

noncomputable def addTo (entry : Amplitude ℝ × BasisIndex) (held : Amplitude ℝ) : Amplitude ℝ :=
  held + entry.1

noncomputable def writeOver (negate : BasisIndex → Bool) (entry : Amplitude ℝ × BasisIndex)
    (_held : Amplitude ℝ) : Amplitude ℝ :=
  if negate entry.2 then -entry.1 else entry.1

theorem amplitudes_scatter (v : StateVector ℝ) (target : BasisIndex → Option BasisIndex) :
    (v.scatter target).amplitudes = (v.amplitudes.toList.zipIdx 0).foldl (deposit target addTo)
      (.replicate v.amplitudes.size 0) := by
  rw [← Array.toList_zipIdx, Array.foldl_toList]
  rfl

theorem setIfInBounds_eq_modify {α : Type} (out : Array α) (place : ℕ) (a : α) :
    out.setIfInBounds place a = out.modify place fun _ => a := by
  refine Array.ext_getElem? fun index => ?_
  rw [Array.getElem?_setIfInBounds, Array.getElem?_modify]
  split
  · next same =>
      subst same
      split
      · next stored => rw [Array.getElem?_eq_getElem stored, Option.map_some]
      · next outside => rw [Array.getElem?_eq_none (Nat.le_of_not_lt outside), Option.map_none]
  · rfl

theorem amplitudes_overwrite (v : StateVector ℝ) (f : BasisIndex → BasisIndex)
    (negate : BasisIndex → Bool) :
    (v.overwrite f negate).amplitudes = (v.amplitudes.toList.zipIdx 0).foldl
      (deposit (fun index => some (f index)) (writeOver negate)) (.replicate v.amplitudes.size 0) := by
  rw [← Array.toList_zipIdx, Array.foldl_toList, overwrite]
  simp only [setIfInBounds_eq_modify]
  rfl

variable {write : Amplitude ℝ × BasisIndex → Amplitude ℝ → Amplitude ℝ}

theorem size_deposit (out : Array (Amplitude ℝ)) (entry : Amplitude ℝ × BasisIndex) :
    (deposit target write out entry).size = out.size := by
  unfold deposit
  split
  · exact Array.size_modify
  · rfl

theorem size_foldl_deposit (entries : List (Amplitude ℝ × BasisIndex))
    (out : Array (Amplitude ℝ)) :
    (entries.foldl (deposit target write) out).size = out.size := by
  induction entries generalizing out with
  | nil => rfl
  | cons entry entries ih => rw [List.foldl_cons, ih, size_deposit]

@[simp]
theorem size_scatter (v : StateVector ℝ) (target : BasisIndex → Option BasisIndex) :
    (v.scatter target).amplitudes.size = v.amplitudes.size := by
  rw [amplitudes_scatter, size_foldl_deposit, Array.size_replicate]

@[simp]
theorem size_overwrite (v : StateVector ℝ) (f : BasisIndex → BasisIndex)
    (negate : BasisIndex → Bool) : (v.overwrite f negate).amplitudes.size = v.amplitudes.size := by
  rw [amplitudes_overwrite, size_foldl_deposit, Array.size_replicate]

theorem getElem?_deposit_of_ne {out : Array (Amplitude ℝ)} {entry : Amplitude ℝ × BasisIndex}
    {place : ℕ} (other : target entry.2 ≠ some place) :
    (deposit target write out entry)[place]? = out[place]? := by
  unfold deposit
  split
  · next found =>
      rw [Array.getElem?_modify, if_neg fun same => other (found.trans (congrArg some same))]
  · rfl

/-- A place to which no entry goes keeps what it holds. -/
theorem getElem?_foldl_deposit_of_ne {entries : List (Amplitude ℝ × BasisIndex)} {place : ℕ}
    (other : ∀ entry ∈ entries, target entry.2 ≠ some place) (out : Array (Amplitude ℝ)) :
    (entries.foldl (deposit target write) out)[place]? = out[place]? := by
  induction entries generalizing out with
  | nil => rfl
  | cons entry entries ih =>
      obtain ⟨here, later⟩ := List.forall_mem_cons.mp other
      rw [List.foldl_cons, ih later, getElem?_deposit_of_ne here]

/-! ## Injective maps

Along an injective map every place is written once, so that it does not matter whether an amplitude
is added to what is there or written over it. -/

theorem getElem?_foldl_deposit {size : ℕ} (injective : Set.InjOn f (Set.Iio size))
    {amplitudes : List (Amplitude ℝ)} {first index : ℕ} {a : Amplitude ℝ}
    (bound : first + amplitudes.length ≤ size) (found : amplitudes[index]? = some a)
    (out : Array (Amplitude ℝ)) :
    ((amplitudes.zipIdx first).foldl (deposit (fun i => some (f i)) write) out)[f (first + index)]? =
      out[f (first + index)]?.map (write (a, first + index)) := by
  induction amplitudes generalizing first index out with
  | nil => cases found
  | cons here rest ih =>
      rw [List.length_cons] at bound
      rw [List.zipIdx_cons, List.foldl_cons]
      cases index with
      | zero =>
          cases found
          rw [show first + 0 = first from rfl, getElem?_foldl_deposit_of_ne]
          · rw [deposit, Array.getElem?_modify]
            exact if_pos rfl
          · rintro ⟨_, i⟩ member same
            obtain ⟨later, upper, _⟩ := List.mem_zipIdx member
            have below : i < size := by
              refine upper.trans_le ?_
              omega
            have equal : i = first :=
              injective below (show first < size by omega) (Option.some.inj same)
            exact Nat.ne_of_gt later equal
      | succ index =>
          have below : index < rest.length := (List.getElem?_eq_some_iff.mp
            (show rest[index]? = some a from found)).1
          rw [show first + (index + 1) = first + 1 + index by omega, ih (by omega) found,
            getElem?_deposit_of_ne]
          intro same
          have equal : first = first + 1 + index := injective (show first < size by omega)
            (show first + 1 + index < size by omega) (Option.some.inj same)
          exact absurd equal (Nat.ne_of_lt (by omega))

/-- A pass over the amplitudes of a state vector that starts from zero everywhere. -/
theorem getElem?_pass (injective : Set.InjOn f (Set.Iio v.amplitudes.size)) {index : ℕ}
    (stored : index < v.amplitudes.size) (below : f index < v.amplitudes.size) :
    ((v.amplitudes.toList.zipIdx 0).foldl (deposit (fun i => some (f i)) write)
        (.replicate v.amplitudes.size 0))[f index]? = some (write (v.amplitudeD index, index) 0) := by
  have found : v.amplitudes.toList[index]? = some (v.amplitudeD index) := by
    rw [amplitudeD, Array.getElem?_toList, Array.getElem?_eq_getElem stored, Option.getD_some]
  have bound : 0 + v.amplitudes.toList.length ≤ v.amplitudes.size := by simp
  have moved := @getElem?_foldl_deposit _ write _ injective _ 0 _ _ bound found
    (.replicate v.amplitudes.size 0)
  rwa [Nat.zero_add, Array.getElem?_replicate, if_pos below, Option.map_some] at moved

theorem addTo_zero (entry : Amplitude ℝ × BasisIndex) : addTo entry 0 = entry.1 := by
  apply Amplitude.toComplex_injective
  rw [addTo, Amplitude.toComplex_add, Amplitude.toComplex_zero, zero_add]

/-- Scattering along a bijection rearranges the amplitudes. -/
theorem rearranges_scatter
    (bijective : Set.BijOn f (Set.Iio v.amplitudes.size) (Set.Iio v.amplitudes.size)) :
    v.Rearranges (v.scatter fun index => some (f index)) f fun _ => false := by
  refine ⟨size_scatter _ _, bijective, fun index below => ?_⟩
  rw [if_neg Bool.false_ne_true, amplitudeD, amplitudes_scatter,
    getElem?_pass bijective.injOn below (bijective.mapsTo below), addTo_zero, Option.getD_some]

theorem rearranges_negateWhere (v : StateVector ℝ) (test : BasisIndex → Bool) :
    v.Rearranges (v.negateWhere test) id test := by
  refine ⟨Array.size_mapIdx .., Set.bijOn_id _, fun index below => ?_⟩
  simp only [negateWhere, mapIndexed, amplitudeD, Array.getElem?_mapIdx,
    Array.getElem?_eq_getElem below, id, Option.map_some, Option.getD_some]

theorem getElem?_pass_of_ne {place : ℕ} (other : ∀ index < v.amplitudes.size, f index ≠ place) :
    ((v.amplitudes.toList.zipIdx 0).foldl (deposit (fun i => some (f i)) write)
        (.replicate v.amplitudes.size 0))[place]? =
      (Array.replicate v.amplitudes.size (0 : Amplitude ℝ))[place]? := by
  refine getElem?_foldl_deposit_of_ne (fun entry member same => ?_) _
  obtain ⟨-, upper, -⟩ := List.mem_zipIdx (x := entry.1) (i := entry.2) member
  rw [Nat.zero_add, Array.length_toList] at upper
  exact other entry.2 upper (Option.some.inj same)

/-- Writing over what is there differs from adding to it only where two indices have one place. -/
theorem overwrite_eq_scatter (injective : Set.InjOn f (Set.Iio v.amplitudes.size))
    (negate : BasisIndex → Bool) :
    v.overwrite f negate = (v.negateWhere negate).scatter fun index => some (f index) := by
  obtain ⟨size, -, negated⟩ := rearranges_negateWhere v negate
  suffices same : (v.overwrite f negate).amplitudes =
      ((v.negateWhere negate).scatter fun index => some (f index)).amplitudes from
    congrArg (fun amplitudes => { v with amplitudes := amplitudes }) same
  refine Array.ext_getElem? fun place => ?_
  by_cases below : place < v.amplitudes.size
  · rw [amplitudes_overwrite, amplitudes_scatter]
    by_cases reached : ∃ index < v.amplitudes.size, f index = place
    · obtain ⟨index, stored, rfl⟩ := reached
      rw [getElem?_pass injective stored below, getElem?_pass (size ▸ injective) (size ▸ stored)
        (size ▸ below), addTo_zero, writeOver, ← negated index stored, id]
    · have other : ∀ index < v.amplitudes.size, f index ≠ place := fun index stored same =>
        reached ⟨index, stored, same⟩
      rw [getElem?_pass_of_ne other, getElem?_pass_of_ne (size ▸ other), size]
  · rw [Array.getElem?_eq_none (by rw [size_overwrite]; exact Nat.le_of_not_lt below),
      Array.getElem?_eq_none (by rw [size_scatter, size]; exact Nat.le_of_not_lt below)]

/-- Writing along a bijection rearranges the amplitudes. -/
theorem rearranges_overwrite
    (bijective : Set.BijOn f (Set.Iio v.amplitudes.size) (Set.Iio v.amplitudes.size))
    (negate : BasisIndex → Bool) : v.Rearranges (v.overwrite f negate) f negate := by
  obtain ⟨size, -, negated⟩ := rearranges_negateWhere v negate
  obtain ⟨size', -, moved⟩ := rearranges_scatter (v := v.negateWhere negate) (size.symm ▸ bijective)
  rw [overwrite_eq_scatter bijective.injOn]
  exact ⟨size'.trans size, bijective, fun index below =>
    (moved index (below.trans_eq size.symm)).trans (negated index below)⟩

/-! ## Conditions -/

theorem checkRange_eq_ok {range : QubitRange} :
    v.checkRange range = .ok () ↔ range.length ≠ 0 ∧ range.stop ≤ v.width := by
  unfold checkRange
  by_cases empty : range.length = 0
  · simp [empty]
  · by_cases inside : range.stop ≤ v.width <;> simp [empty, inside]

theorem or_and_eq_zero_iff {seen mask other : BasisIndex} :
    (seen ||| mask) &&& other = 0 ↔ seen &&& other = 0 ∧ mask &&& other = 0 := by
  rw [Nat.and_or_distrib_right, Nat.or_eq_zero_iff]

/-- Ranges of the register without a common qubit are accepted, and no others. -/
theorem checkDisjointFrom_eq_ok {seen : BasisIndex} {ranges : List QubitRange} :
    v.checkDisjointFrom seen ranges = .ok () ↔
      (∀ range ∈ ranges, v.checkRange range = .ok () ∧ seen &&& range.mask = 0) ∧
      ranges.Pairwise QubitRange.Disjoint := by
  induction ranges generalizing seen with
  | nil => simp [checkDisjointFrom]
  | cons range ranges ih =>
      rw [List.forall_mem_cons, List.pairwise_cons]
      unfold checkDisjointFrom
      cases ranged : v.checkRange range with
      | error e =>
          refine iff_of_false nofun ?_
          rintro ⟨⟨⟨impossible, _⟩, _⟩, _⟩
          cases impossible
      | ok _ =>
          by_cases apart : seen &&& range.mask = 0
          · have rest := @ih (seen ||| range.mask)
            have later : (∀ other ∈ ranges, v.checkRange other = .ok () ∧
                (seen ||| range.mask) &&& other.mask = 0) ↔
                (∀ other ∈ ranges, v.checkRange other = .ok () ∧ seen &&& other.mask = 0) ∧
                  ∀ other ∈ ranges, range.Disjoint other := by
              rw [← forall₂_and]
              refine forall₂_congr fun other _ => ?_
              rw [or_and_eq_zero_iff, QubitRange.disjoint_iff, and_assoc]
            rw [later] at rest
            simp only [apart, bne_self_eq_false, Bool.false_eq_true, if_false, true_and]
            exact rest.trans and_assoc
          · refine iff_of_false ?_ fun accepted => apart accepted.1.1.2
            simp only [bne_iff_ne.mpr apart, if_true]
            exact nofun

theorem checkDisjoint_eq_ok {ranges : List QubitRange} :
    v.checkDisjoint ranges = .ok () ↔
      (∀ range ∈ ranges, v.checkRange range = .ok ()) ∧ ranges.Pairwise QubitRange.Disjoint := by
  rw [checkDisjoint, checkDisjointFrom_eq_ok]
  simp

end AmplitudeTree.StateVector
