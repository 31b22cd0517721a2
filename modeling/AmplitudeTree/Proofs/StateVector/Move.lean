import AmplitudeTree.Proofs.StateVector
import AmplitudeTree.Proofs.StateVector.Mass

/-!
# Moving amplitudes along a map and back

A map of indices may send several indices to one place, and some to none.  Moving along it adds up
the amplitudes that meet in a place; moving back fetches this sum for each of them.  So all vectors
without amplitude at the indices that have no place are restored just in case no two indices share
one.
-/

namespace AmplitudeTree.StateVector

variable {v : StateVector ℝ} {target map : BasisIndex → Option BasisIndex} {width index place : ℕ}

/-! ## Scattering along any map -/

/-- An entry that goes to a place adds to what is there. -/
theorem toComplex_deposit {out : Array (Amplitude ℝ)} (stored : place < out.size)
    (entry : Amplitude ℝ × BasisIndex) :
    ((deposit target addTo out entry)[place]?.getD 0).toComplex =
      (out[place]?.getD 0).toComplex +
        if target entry.2 = some place then entry.1.toComplex else 0 := by
  by_cases here : target entry.2 = some place
  · rw [deposit, here, if_pos rfl]
    dsimp only
    rw [Array.getElem?_modify, if_pos rfl, Array.getElem?_eq_getElem stored, Option.map_some,
      Option.getD_some, Option.getD_some, addTo, Amplitude.toComplex_add]
  · rw [getElem?_deposit_of_ne here, if_neg here, add_zero]

/-- The pass over the entries from an index on adds those that go to a place. -/
theorem toComplex_foldl_deposit (entries : List (Amplitude ℝ)) (first : ℕ)
    {out : Array (Amplitude ℝ)} (stored : place < out.size) :
    (((entries.zipIdx first).foldl (deposit target addTo) out)[place]?.getD 0).toComplex =
      (out[place]?.getD 0).toComplex + ∑ i ∈ Finset.range entries.length,
        if target (first + i) = some place then (entries[i]?.getD 0).toComplex else 0 := by
  induction entries generalizing first out with
  | nil => simp
  | cons a rest ih =>
      have later : ∀ i, first + 1 + i = first + (i + 1) := fun i => by omega
      rw [List.zipIdx_cons, List.foldl_cons, ih _ (by rwa [size_deposit]), toComplex_deposit stored,
        List.length_cons, Finset.sum_range_succ', add_assoc, add_comm (∑ i ∈ _, _)]
      simp only [later, Nat.add_zero, List.getElem?_cons_zero, List.getElem?_cons_succ,
        Option.getD_some]

/-- Moved forward, a place holds the sum of the amplitudes that go to it. -/
theorem toComplex_amplitudeD_forward (v : StateVector ℝ) (map : BasisIndex → Option BasisIndex)
    (stored : place < v.amplitudes.size) :
    ((v.move .forward map).amplitudeD place).toComplex =
      ∑ index ∈ Finset.range v.amplitudes.size with map index = some place,
        (v.amplitudeD index).toComplex := by
  have blank : place < (Array.replicate v.amplitudes.size (0 : Amplitude ℝ)).size := by
    rwa [Array.size_replicate]
  have pass := @toComplex_foldl_deposit map place v.amplitudes.toList 0 _ blank
  rw [← amplitudes_scatter, Array.getElem?_replicate, if_pos stored, Option.getD_some,
    Amplitude.toComplex_zero, zero_add, Array.length_toList] at pass
  rw [Finset.sum_filter]
  simpa [amplitudeD, move] using pass

theorem amplitudeD_forward_of_alone (stored : index < v.amplitudes.size)
    (below : place < v.amplitudes.size) (found : map index = some place)
    (alone : ∀ other < v.amplitudes.size, map other = some place → other = index) :
    (v.move .forward map).amplitudeD place = v.amplitudeD index := by
  rw [← Amplitude.toComplex_inj, toComplex_amplitudeD_forward v map below]
  refine Finset.sum_eq_single_of_mem index ?_ fun other member different => ?_
  · exact Finset.mem_filter.mpr ⟨Finset.mem_range.mpr stored, found⟩
  · obtain ⟨listed, same⟩ := Finset.mem_filter.mp member
    exact absurd (alone other (Finset.mem_range.mp listed) same) different

theorem amplitudeD_forward_of_none (below : place < v.amplitudes.size)
    (nowhere : ∀ other < v.amplitudes.size, map other ≠ some place) :
    (v.move .forward map).amplitudeD place = 0 := by
  rw [← Amplitude.toComplex_inj, toComplex_amplitudeD_forward v map below, Amplitude.toComplex_zero,
    Finset.filter_false_of_mem fun other member => nowhere other (Finset.mem_range.mp member),
    Finset.sum_empty]

/-! ## Fetching -/

/-- Moved back, an index holds the amplitude of its place. -/
theorem amplitudeD_backward (v : StateVector ℝ) (map : BasisIndex → Option BasisIndex)
    (stored : index < v.amplitudes.size) :
    (v.move .backward map).amplitudeD index = (map index).elim 0 v.amplitudeD := by
  change (v.gather map).amplitudeD index = _
  rw [amplitudeD, gather, mapIndexed, Array.getElem?_mapIdx, Array.getElem?_eq_getElem stored]
  rfl

@[simp]
theorem size_move (v : StateVector ℝ) (direction : Direction)
    (map : BasisIndex → Option BasisIndex) :
    (v.move direction map).amplitudes.size = v.amplitudes.size := by
  cases direction with
  | forward => exact size_scatter ..
  | backward => exact Array.size_mapIdx

theorem width_move (v : StateVector ℝ) (direction : Direction)
    (map : BasisIndex → Option BasisIndex) : (v.move direction map).width = v.width := by
  cases direction <;> rfl

/-- Vectors of one register that differ in no amplitude and were used alike are equal. -/
theorem eq_of_amplitudeD {v' : StateVector ℝ} (widths : v.width = v'.width)
    (generators : v.generator = v'.generator) (offered : v.capabilities = v'.capabilities)
    (sizes : v.amplitudes.size = v'.amplitudes.size)
    (same : ∀ index < v.amplitudes.size, v.amplitudeD index = v'.amplitudeD index) : v = v' := by
  obtain ⟨width, amplitudes, generator, capabilities⟩ := v
  obtain ⟨width', amplitudes', generator', capabilities'⟩ := v'
  obtain rfl : width = width' := widths
  obtain rfl : generator = generator' := generators
  obtain rfl : capabilities = capabilities' := offered
  have arrays : amplitudes = amplitudes' := by
    refine Array.ext sizes fun index stored stored' => ?_
    simpa [amplitudeD, stored, stored'] using same index stored
  rw [arrays]

/-! ## There and back -/

def Separates (map : BasisIndex → Option BasisIndex) (width : ℕ) : Prop :=
  ∀ index < 2 ^ width, ∀ other < 2 ^ width, ∀ place,
    map index = some place → map other = some place → index = other

section Separates

variable (separates : Separates map width) (size : v.amplitudes.size = 2 ^ width)
  (bound : index < 2 ^ width)
include separates size bound

/-- Moved forward, the place of an index holds the amplitude of that index. -/
theorem Separates.amplitudeD_forward (below : place < 2 ^ width) (found : map index = some place) :
    (v.move .forward map).amplitudeD place = v.amplitudeD index :=
  amplitudeD_forward_of_alone (bound.trans_eq size.symm) (below.trans_eq size.symm) found
    fun other stored same => separates other (stored.trans_eq size) index bound place same found

/-- Moved there and back, an index with a place holds what it held, one without holds nothing. -/
theorem Separates.amplitudeD_back
    (below : ∀ index < 2 ^ width, ∀ place, map index = some place → place < 2 ^ width) :
    ((v.move .forward map).move .backward map).amplitudeD index =
      (map index).elim 0 fun _ => v.amplitudeD index := by
  rw [amplitudeD_backward _ _ (by rwa [size_move, size])]
  cases found : map index with
  | none => rfl
  | some place => exact separates.amplitudeD_forward size bound (below index bound place found) found

end Separates

/-- The vector of a register has amplitudes at indices with a place only. -/
structure LiesOver (v : StateVector ℝ) (map : BasisIndex → Option BasisIndex) (width : ℕ) :
    Prop where
  width_eq : v.width = width
  size : v.amplitudes.size = 2 ^ width
  clear : ∀ index < 2 ^ width, map index = none → v.amplitudeD index = 0

noncomputable def unitVector (width : ℕ) (first : BasisIndex) : StateVector ℝ :=
  ⟨width, basisAmplitudes width first, .ofSeed 0, .all⟩

theorem amplitudeD_unitVector {first : BasisIndex} (bound : index < 2 ^ width) :
    (unitVector width first).amplitudeD index = if index = first then 1 else 0 := by
  rw [amplitudeD, unitVector, basisAmplitudes, Array.getElem?_ofFn, dif_pos bound, Option.getD_some]

theorem liesOver_unitVector {first : BasisIndex} (placed : map first = some place) :
    (unitVector width first).LiesOver map width where
  width_eq := rfl
  size := Array.size_ofFn
  clear index bound unplaced := by
    rw [amplitudeD_unitVector bound, if_neg]
    rintro rfl
    cases placed.symm.trans unplaced

/-- Moving there and back restores all vectors over the map just in case no two
indices share a place. -/
theorem restores_iff
    (below : ∀ index < 2 ^ width, ∀ place, map index = some place → place < 2 ^ width) :
    (∀ v : StateVector ℝ, v.LiesOver map width →
      (v.move .forward map).move .backward map = v) ↔ Separates map width := by
  constructor
  · intro restores index bound other bound' place found found'
    have lies : (unitVector width index).LiesOver map width := liesOver_unitVector found
    have stored : place < (unitVector width index).amplitudes.size :=
      (below index bound place found).trans_eq lies.size.symm
    have fetched : ((unitVector width index).move .forward map).amplitudeD place =
        (unitVector width index).amplitudeD other := by
      have back := amplitudeD_backward ((unitVector width index).move .forward map) map
        (show other < _ by rwa [size_move, lies.size])
      rw [restores _ lies, found'] at back
      exact back.symm
    have summed := toComplex_amplitudeD_forward (unitVector width index) map stored
    rw [fetched, amplitudeD_unitVector bound', lies.size, Finset.sum_eq_single_of_mem index] at summed
    · rw [amplitudeD_unitVector bound, if_pos rfl] at summed
      by_contra different
      rw [if_neg (Ne.symm different)] at summed
      exact zero_ne_one summed
    · exact Finset.mem_filter.mpr ⟨Finset.mem_range.mpr bound, found⟩
    · intro third member different
      obtain ⟨listed, -⟩ := Finset.mem_filter.mp member
      rw [amplitudeD_unitVector (Finset.mem_range.mp listed), if_neg different,
        Amplitude.toComplex_zero]
  · intro separates v lies
    refine eq_of_amplitudeD (width_move ..) rfl rfl (by rw [size_move, size_move]) ?_
    intro index bound
    rw [size_move, size_move, lies.size] at bound
    rw [separates.amplitudeD_back lies.size bound below]
    cases found : map index with
    | none => exact (lies.clear index bound found).symm
    | some place => rfl

end AmplitudeTree.StateVector
