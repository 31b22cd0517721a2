import AmplitudeTree.Proofs.StateVector.Reversible
import Mathlib.Data.List.Perm.Subperm
import Mathlib.Data.Nat.Digits.Defs

/-!
# Substitution by a table

A substitution replaces the number in a range by its entry in a table.  It is accepted just in case the
table has an entry for every number of the range and these entries are the numbers of the range in some
order.  A table of the inverse permutation, which there always is, restores the state vector.
-/

namespace AmplitudeTree.StateVector

variable {v : StateVector ℝ} {range : QubitRange} {table back : Array UInt8} {f g : ℕ → ℕ}
  {length number : ℕ}

/-! ## Entries -/

def entryAt (table : Array UInt8) (length number : ℕ) : ℕ :=
  Nat.ofDigits 256 <| ((table.toList.drop (number * entryBytes length)).take
    (entryBytes length)).map UInt8.toNat

theorem littleEndian_eq_ofDigits (table : Array UInt8) (bytes position : ℕ) :
    littleEndian table bytes position =
      Nat.ofDigits 256 (((table.toList.drop position).take bytes).map UInt8.toNat) := by
  induction bytes generalizing position with
  | zero => rfl
  | succ bytes ih =>
      rw [littleEndian, ih]
      by_cases stored : position < table.toList.length
      · rw [List.drop_eq_getElem_cons stored, List.take_succ_cons, List.map_cons, Nat.ofDigits_cons,
          Array.getElem_toList, Array.getElem?_eq_getElem (by simpa using stored), Option.getD_some]
      · have none : table[position]? = none := Array.getElem?_eq_none (by simpa using stored)
        have outside (first : ℕ) (after : position ≤ first) : table.toList.drop first = [] :=
          List.drop_eq_nil_of_le ((not_lt.mp stored).trans after)
        rw [none, outside _ le_rfl, outside _ (Nat.le_succ position)]
        simp

theorem tableEntry_eq_entryAt (table : Array UInt8) (length : ℕ) :
    tableEntry table length = entryAt table length :=
  funext fun _ => littleEndian_eq_ofDigits ..

def tableOf (length : ℕ) (f : ℕ → ℕ) : Array UInt8 :=
  Array.ofFn fun place : Fin (2 ^ length * entryBytes length) =>
    UInt8.ofNat (f (place / entryBytes length) / 256 ^ (place % entryBytes length))

/-- Consecutive bytes of an entry hold the digits of its number from one place on. -/
theorem littleEndian_tableOf (below : number < 2 ^ length) {bytes shift : ℕ}
    (inside : shift + bytes ≤ entryBytes length) :
    littleEndian (tableOf length f) bytes (number * entryBytes length + shift) =
      f number / 256 ^ shift % 256 ^ bytes := by
  induction bytes generalizing shift with
  | zero => simp [littleEndian, Nat.mod_one]
  | succ bytes ih =>
      have within : shift < entryBytes length := by omega
      have stored : number * entryBytes length + shift < 2 ^ length * entryBytes length :=
        calc number * entryBytes length + shift
          _ < (number + 1) * entryBytes length := by
            rw [Nat.succ_mul]
            exact Nat.add_lt_add_left within _
          _ ≤ 2 ^ length * entryBytes length := Nat.mul_le_mul_right _ below
      obtain ⟨row, column⟩ := (Nat.div_mod_unique (Nat.zero_lt_of_lt within)).mpr
        ⟨(by rw [Nat.add_comm, Nat.mul_comm] :
          shift + entryBytes length * number = number * entryBytes length + shift), within⟩
      rw [littleEndian, Nat.add_assoc, ih (by omega), tableOf, Array.getElem?_ofFn, dif_pos stored,
        Option.getD_some, UInt8.toNat_ofNat']
      dsimp only
      rw [row, column, pow_succ' 256 bytes, Nat.mod_mul, Nat.div_div_eq_div_mul, pow_succ 256 shift]

theorem two_pow_le_bytes (length : ℕ) : 2 ^ length ≤ 256 ^ entryBytes length := by
  rw [show 256 = 2 ^ 8 by rfl, ← pow_mul]
  exact Nat.pow_le_pow_right two_pos (by unfold entryBytes; omega)

theorem entryAt_tableOf (below : number < 2 ^ length) (below' : f number < 2 ^ length) :
    entryAt (tableOf length f) length number = f number := by
  have digits := littleEndian_tableOf (f := f) below (Nat.zero_add (entryBytes length)).le
  rw [← tableEntry_eq_entryAt, tableEntry, ← Nat.add_zero (number * entryBytes length), digits,
    pow_zero, Nat.div_one, Nat.mod_eq_of_lt (below'.trans_le (two_pow_le_bytes length))]

/-! ## Permutations -/

/-- A table whose entries are the numbers of `length` bits in some order. -/
structure PermutationTable (table : Array UInt8) (length : ℕ) : Prop where
  enough : 2 ^ length * entryBytes length ≤ table.size
  perm : ((List.range (2 ^ length)).map (entryAt table length)).Perm (List.range (2 ^ length))

/-- A table whose entries take those of another one back to the numbers that they stand at. -/
structure InverseTable (table back : Array UInt8) (length : ℕ) : Prop where
  enough : 2 ^ length * entryBytes length ≤ back.size
  restores : ∀ number < 2 ^ length, entryAt back length (entryAt table length number) = number

/-- A map permutes a range just in case its images are all numbers of the range in some order. -/
theorem permutes_iff_perm :
    Permutes f range ↔ ((List.range range.span).map f).Perm (List.range range.span) := by
  constructor
  · rintro ⟨injective, below⟩
    have distinct : ((List.range range.span).map f).Nodup :=
      List.Nodup.map_on (fun i listed j listed' same =>
        injective (List.mem_range.mp listed) (List.mem_range.mp listed') same) List.nodup_range
    -- distinct numbers of the range, as many as there are, are all of them
    refine (distinct.subperm fun image listed => ?_).perm_of_length_le (by simp)
    obtain ⟨number, inside, rfl⟩ := List.mem_map.mp listed
    exact List.mem_range.mpr (below (List.mem_range.mp inside))
  · intro perm
    refine ⟨fun i below j below' same => ?_, fun number below => ?_⟩
    · exact List.inj_on_of_nodup_map (perm.nodup_iff.mpr List.nodup_range) (List.mem_range.mpr below)
        (List.mem_range.mpr below') same
    · exact List.mem_range.mp (perm.subset (List.mem_map_of_mem (List.mem_range.mpr below)))

/-- What takes the numbers of a range back permutes them as well. -/
theorem Permutes.of_restores (permutes : Permutes f range)
    (restores : ∀ number < range.span, g (f number) = number) : Permutes g range := by
  have bijective : Set.BijOn f (Set.Iio range.span) (Set.Iio range.span) :=
    ((Set.finite_Iio _).injOn_iff_bijOn_of_mapsTo permutes.2).mp permutes.1
  constructor
  · intro image below image' below' same
    obtain ⟨number, inside, rfl⟩ := bijective.surjOn below
    obtain ⟨number', inside', rfl⟩ := bijective.surjOn below'
    rw [restores number inside, restores number' inside'] at same
    rw [same]
  · intro image below
    obtain ⟨number, inside, rfl⟩ := bijective.surjOn below
    rw [Set.mem_Iio, restores number inside]
    exact inside

theorem Permutes.substituteIndex_restores (permutes : Permutes f range)
    (restores : ∀ number < range.span, g (f number) = number) (index : BasisIndex) :
    substituteIndex g range (substituteIndex f range index) = index := by
  have below := range.read_lt index
  have below' : f (range.read index) < range.span := permutes.2 below
  rw [substituteIndex, substituteIndex, QubitRange.read_write below', restores _ below,
    QubitRange.write_write below' below, QubitRange.write_read]

namespace PermutationTable

variable (permutation : PermutationTable table range.length)
include permutation

theorem permutes : Permutes (entryAt table range.length) range :=
  permutes_iff_perm.mpr permutation.perm

theorem inverse (inverse : InverseTable table back range.length) :
    PermutationTable back range.length :=
  ⟨inverse.enough, permutes_iff_perm.mp (permutation.permutes.of_restores inverse.restores)⟩

theorem exists_inverse : ∃ back, InverseTable table back range.length := by
  obtain ⟨injective, maps⟩ := permutation.permutes
  refine ⟨tableOf range.length (Function.invFunOn (entryAt table range.length) (Set.Iio range.span)),
    Array.size_ofFn.ge, fun number below => ?_⟩
  have restored := injective.leftInvOn_invFunOn (Set.mem_Iio.mpr below)
  rw [entryAt_tableOf (maps below) (restored.trans_lt below), restored]

end PermutationTable

theorem permutationTable_iff : PermutationTable table range.length ↔
    range.span * entryBytes range.length ≤ table.size ∧
      Permutes (tableEntry table range.length) range := by
  rw [tableEntry_eq_entryAt]
  constructor
  · exact fun permutation => ⟨permutation.enough, permutation.permutes⟩
  · exact fun accepted => ⟨accepted.1, permutes_iff_perm.mp accepted.2⟩

/-! ## Calls -/

theorem accepts_substitute_iff : (ReversibleCall.substitute range table).Accepts v.width ↔
    (range.length ≠ 0 ∧ range.stop ≤ v.width) ∧ PermutationTable table range.length := by
  rw [permutationTable_iff, and_assoc]
  exact Iff.rfl

/-- What a substitution in a range of the register is refused for. -/
theorem substitute_eq_error {e : VectorError} (nonempty : range.length ≠ 0)
    (inside : range.stop ≤ v.width) (failed : v.substitute range table = .error e) :
    e = if table.size < range.span * entryBytes range.length then
      .tableTooShort (range.span * entryBytes range.length) table.size else .notPermutation := by
  rw [substitute, Update.substitute, Update.changed_check_bind_eq_error,
    Update.changed_check_bind_eq_error, Update.changed_refused_eq_error] at failed
  obtain outside | ⟨-, tooShort | ⟨enough, repeated | ⟨-, never⟩⟩⟩ := failed
  · cases outside.symm.trans (checkRange_eq_ok.mpr ⟨nonempty, inside⟩)
  · obtain ⟨short, rfl⟩ := ReversibleCall.checkTable_eq_error.mp tooShort
    rw [if_pos short]
  · rw [if_neg (not_lt.mpr (ReversibleCall.checkTable_eq_ok.mp enough)), repeated.2]
  · cases never

/-- A substitution returns just in case the table holds a permutation, and moves every index to the
one with the entry for its number.  A table of the inverse permutation restores the vector; a table
that is too short or no permutation is refused as such, and nothing changes. -/
theorem substitution_by_table (size : v.amplitudes.size = 2 ^ v.width) (nonempty : range.length ≠ 0)
    (inside : range.stop ≤ v.width) (table : Array UInt8) :
    ((∃ v', v.substitute range table = .ok v') ↔ PermutationTable table range.length) ∧
    (∀ v', v.substitute range table = .ok v' →
      (∃ place, v.Rearranges v' place (fun _ => false) ∧ ∀ index : BasisIndex,
        range.read (place index) = entryAt table range.length (range.read index) ∧
        ∀ q, range.contains q = false → (place index).testBit q = index.testBit q) ∧
      (∃ back, InverseTable table back range.length) ∧
      ∀ back, InverseTable table back range.length → v'.substitute range back = .ok v) ∧
    ∀ e, v.substitute range table = .error e →
      (e = if table.size < 2 ^ range.length * entryBytes range.length then
        .tableTooShort (2 ^ range.length * entryBytes range.length) table.size else .notPermutation) ∧
      (ReversibleCall.substitute range table).left v = v := by
  have run {v' : StateVector ℝ} := @ReversibleCall.run_eq_ok v (.substitute range table) v'
  refine ⟨⟨?_, fun permutation => ?_⟩, ?_, ?_⟩
  · rintro ⟨v', ran⟩
    exact (accepts_substitute_iff.mp (run.mp ran).1).2
  · exact ⟨_, run.mpr ⟨accepts_substitute_iff.mpr ⟨⟨nonempty, inside⟩, permutation⟩, rfl⟩⟩
  · intro v' ran
    obtain ⟨accepts, rfl⟩ := run.mp ran
    obtain ⟨ranged, permutation⟩ := accepts_substitute_iff.mp accepts
    have permutes := permutation.permutes
    refine ⟨⟨_, ReversibleCall.rearranges_result size accepts, fun index => ⟨?_, fun q outside => ?_⟩⟩,
      permutation.exists_inverse, fun back inverse => ?_⟩
    · rw [ReversibleCall.place, tableEntry_eq_entryAt]
      exact QubitRange.read_write (permutes.2 (range.read_lt index))
    · exact ReversibleCall.testBit_place accepts index (Bool.eq_false_iff.mp outside)
    · have accepts' : (ReversibleCall.substitute range back).Accepts v.width :=
        accepts_substitute_iff.mpr ⟨ranged, permutation.inverse inverse⟩
      refine ReversibleCall.run_back _ (.substitute range back) size accepts accepts' (fun _ => rfl)
        (fun _ => rfl) fun index => ?_
      rw [ReversibleCall.place, ReversibleCall.place, tableEntry_eq_entryAt, tableEntry_eq_entryAt]
      exact permutes.substituteIndex_restores inverse.restores index
  · intro e failed
    have refused : (ReversibleCall.substitute range table).run v = .error e := failed
    exact ⟨substitute_eq_error nonempty inside failed, ReversibleCall.left_of_error refused⟩

/-- A table of four numbers, by which 0 becomes 2, and one that holds a number twice. -/
theorem substitution_by_four :
    let v : StateVector ℝ := ⟨3, Array.ofFn fun index : Fin 8 => ⟨(index : ℕ), 0⟩, .ofSeed 0, .all⟩
    v.amplitudes.size = 2 ^ v.width ∧ QubitRange.length ⟨1, 2⟩ ≠ 0 ∧ QubitRange.stop ⟨1, 2⟩ ≤ v.width ∧
      (∃ v', v.substitute ⟨1, 2⟩ #[2, 0, 3, 1, 9] = .ok v' ∧ v'.amplitudeD 5 = ⟨1, 0⟩ ∧
        v'.substitute ⟨1, 2⟩ #[1, 3, 0, 2] = .ok v) ∧
      ¬ ∃ v', v.substitute ⟨1, 2⟩ #[0, 0, 1, 2] = .ok v' := by
  intro v
  have size : v.amplitudes.size = 2 ^ v.width := Array.size_ofFn
  have nonempty : QubitRange.length ⟨1, 2⟩ ≠ 0 := by decide
  have inside : QubitRange.stop ⟨1, 2⟩ ≤ v.width := by decide
  refine ⟨size, nonempty, inside, ?_, fun returned => ?_⟩
  · obtain ⟨returns, moves, -⟩ := substitution_by_table size nonempty inside #[2, 0, 3, 1, 9]
    obtain ⟨v', ran⟩ := returns.mpr ⟨by decide, by decide⟩
    obtain ⟨⟨place, ⟨-, bijective, moved⟩, places⟩, -, restores⟩ := moves v' ran
    refine ⟨v', ran, ?_, restores _ ⟨by decide, by decide⟩⟩
    have stored : 1 < v.amplitudes.size := by rw [size]; decide
    have only : ∀ image < 2 ^ 3, QubitRange.read ⟨1, 2⟩ image = 2 → image.testBit 0 = true →
        image = 5 := by decide
    have five : place 1 = 5 := only _ ((bijective.mapsTo stored).trans_eq size) (places 1).1
      ((places 1).2 0 rfl)
    rw [← five, moved 1 stored]
    simp [v, amplitudeD]
  · obtain ⟨returns, -⟩ := substitution_by_table size nonempty inside #[0, 0, 1, 2]
    exact absurd (returns.mp returned).perm (by decide)

end AmplitudeTree.StateVector
