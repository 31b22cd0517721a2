import AmplitudeTree.Proofs.Tree.Extract

/-!
# Splitting a range off

A range of qubits can be split off if it is the same below every host.  Then the state is the product
of the states of the two trees.  Conversely a state that is a product is always split, since the
canonical tree below every host is the graft of the canonical trees of the two factors.
-/

namespace AmplitudeTree.Tree

open Assignment NodeStore

variable {t : Tree ℝ} {source : NodeStore ℝ} {canonical : Prop} {start stop length width : ℕ}
  {host : NodeId} {r : Removal ℝ}

/-! ## Replacements -/

noncomputable def splitReading (start length : ℕ) (part : Unfolding) : Rereading start where
  before bits := bits
  after := dropped start length
  beforeFactor _ := 1
  afterFactor bits := part.amplitude 0 (taken start length bits)
  before_eq := Rereading.plain_eq start
  after_eq := Rereading.dropped_eq start length

theorem splitReading_matches {part u v : Unfolding} {depth : ℕ} :
    (splitReading start length part).Matches depth u v ↔ ∀ bits,
      u.amplitude depth bits = part.amplitude 0 (taken start length bits) *
        v.amplitude depth (dropped start length bits) := by
  simp [Rereading.Matches, splitReading]

def part (length : ℕ) (u : Unfolding) : Unfolding := (u.head length).withScale 1

/-- What stands in for a host: the host's levels after the range below the scale of the host. -/
structure Replacement (source : NodeStore ℝ) (canonical : Prop) (start stop width : ℕ)
    (host : NodeId) (copied : Unfolding) (v : Unfolding) : Prop where
  copied_eq : copied = part (stop - start) (source.unfold host)
  regular : v.Regular canonical (width - (stop - start) - start)
  matching : (splitReading start (stop - start) copied).Matches start (source.unfold host) v

/-- A host over subtrees of one shape is the product of its top and that shape. -/
theorem replacement_of_shaped (exact : source.Exact) (range : start < stop) (le : stop ≤ width)
    (onLevel : source.OnLevel canonical width start host) (nonzero : source.isZero host = false)
    {first : NodeId} (regular : (source.unfold first).Regular canonical (width - stop))
    (shaped : ∀ w, (source.unfold host).Bottom (stop - start) w →
      w.withScale 1 = (source.unfold first).withScale 1) :
    Replacement source canonical start stop width host (part (stop - start) (source.unfold host))
      ((source.unfold first).withScale (source.get host).scale.toComplex) := by
  have levels : width - start = stop - start + (width - stop) := by omega
  have total : start + (stop - start) = stop := by omega
  have hostRegular := onLevel.regular
  rw [levels] at hostRegular
  have headRegular := hostRegular.head
  refine ⟨rfl, ?_, splitReading_matches.mpr fun bits => ?_⟩
  · rw [show width - (stop - start) - start = width - stop by omega]
    exact regular.withScale (exact.scale_ne_zero nonzero)
  · have grafted := hostRegular.eq_graft_head shaped
    calc (source.unfold host).amplitude start bits
        = (((source.unfold host).head (stop - start)).graft (source.unfold first)).amplitude start
            bits := by rw [← grafted]
      _ = ((source.unfold host).head (stop - start)).amplitude start bits *
            ((source.unfold first).withScale 1).amplitude stop bits := by
          rw [headRegular.amplitude_graft, total]
      _ = (part (stop - start) (source.unfold host)).amplitude 0 (taken start (stop - start) bits) *
            ((source.unfold first).withScale (source.get host).scale.toComplex).amplitude start
              (dropped start (stop - start) bits) := by
          rw [part, (headRegular.withScale one_ne_zero).amplitude_taken,
            Unfolding.amplitude_dropped, total,
            Unfolding.amplitude_withScale (source.get host).scale.toComplex,
            Unfolding.amplitude_eq_scale_mul ((source.unfold host).head (stop - start)),
            Unfolding.scale_head, scale_of_not_isZero nonzero]
          ring

/-! ## Removal below all hosts -/

/-- A removal under way: below all hosts dealt with so far is one tree, and they have
their replacements. -/
structure Removes (source : NodeStore ℝ) (canonical : Prop) (start stop width : ℕ)
    (dealt : NodeId → Prop) (r : Removal ℝ) : Prop where
  growth : source.Extends r.rest
  exact : r.rest.Exact
  partExact : r.part.Exact
  copied : ∀ copy, r.root = some copy → r.part.Holds copy
    (·.Regular canonical (stop - start)) ∧ ∃ host, dealt host
  begun : ∀ host, dealt host → ∃ copy, r.root = some copy
  replaced : ∀ host copy, dealt host → r.root = some copy →
    r.rest.Holds (r.swap.getD host host)
      (Replacement source canonical start stop width host (r.part.unfold copy))

/-- Two hosts, or two subtrees below one host, that show that a range cannot be split off. -/
def Entangled (source : NodeStore ℝ) (levels : ℕ) (hosts : NodeId → Prop) : Prop :=
  (∃ host, hosts host ∧ Divided levels (source.unfold host)) ∨
    ∃ host other, hosts host ∧ hosts other ∧
      part levels (source.unfold host) ≠ part levels (source.unfold other)

theorem Entangled.mono {levels : ℕ} {hosts more : NodeId → Prop}
    (entangled : Entangled source levels hosts) (implies : ∀ host, hosts host → more host) :
    Entangled source levels more := by
  rcases entangled with ⟨host, member, divided⟩ | ⟨host, other, member, otherMember, differ⟩
  · exact .inl ⟨host, implies host member, divided⟩
  · exact .inr ⟨host, other, implies host member, implies other otherMember, differ⟩

theorem Removes.insert {dealt : NodeId → Prop} {rest rest' stored grown : NodeStore ℝ}
    {root : Option NodeId} {swap : Std.HashMap NodeId NodeId} {copy standIn : NodeId}
    (removes : Removes source canonical start stop width dealt ⟨rest, stored, root, swap⟩)
    (growth : stored.Extends grown) (valid : grown.Exact)
    (copied : grown.Holds (root.getD copy) fun u => u.Regular canonical (stop - start))
    (restGrowth : rest.Extends rest') (restExact : rest'.Exact)
    (replaced : rest'.Holds standIn (Replacement source canonical start stop width host
      (grown.unfold (root.getD copy)))) :
    Removes source canonical start stop width (fun id => id = host ∨ dealt id)
      ⟨rest', grown, some (root.getD copy), swap.insert host standIn⟩ := by
  refine ⟨removes.growth.trans restGrowth, restExact, valid, ?_, fun _ _ => ⟨_, rfl⟩, ?_⟩
  · rintro _ ⟨⟩
    exact ⟨copied, host, .inl rfl⟩
  · rintro id _ known ⟨⟩
    dsimp only
    rw [Std.HashMap.getD_insert]
    split
    · next same =>
        rw [← eq_of_beq same]
        exact replaced
    · next differs =>
        have earlier : dealt id :=
          known.resolve_left fun same => differs (beq_iff_eq.mpr same.symm)
        obtain ⟨old, found⟩ := removes.begun id earlier
        obtain rfl : root = some old := found
        have holds := (removes.replaced id old earlier rfl).grow restGrowth
        rwa [← growth.unfold_eq (removes.copied old rfl).1.stored] at holds

theorem Removes.add {dealt : NodeId → Prop} (removes : Removes source canonical start stop width dealt r)
    (exact : source.Exact) (range : start < stop) (le : stop ≤ width)
    (onLevel : source.OnLevel canonical width start host) (nonzero : source.isZero host = false) :
    let result := removeHost source start stop r host
    if result.1 then
      Removes source canonical start stop width (fun id => id = host ∨ dealt id) result.2
    else result.2.rest = r.rest ∧
      Entangled source (stop - start) fun id => id = host ∨ dealt id := by
  obtain ⟨rest, stored, root, swap⟩ := r
  have levels : width - start = stop - start + (width - stop) := by omega
  have hostRegular := onLevel.regular
  rw [levels] at hostRegular
  obtain ⟨growth, extracting, extracts⟩ := extract_host exact range le onLevel removes.partExact
  dsimp only [removeHost]
  generalize source.walkFrom (some 0) (extractVisit source start stop) start host ⟨stored, none⟩ =
    walked at *
  obtain ⟨copied, ⟨grown, tail⟩⟩ := walked
  cases copied with
  | none => exact ⟨rfl, .inl ⟨host, .inl rfl, extracts⟩⟩
  | some copy =>
      dsimp only at *
      obtain ⟨holds, shaped⟩ := extracts
      have copyUnfold : grown.unfold copy = part (stop - start) (source.unfold host) := by
        rw [holds.holds, extracted, if_pos rfl]
        rfl
      obtain ⟨lowest, found⟩ := hostRegular.exists_bottom (unfold_ne_zero.mpr nonzero)
      obtain ⟨first, rfl, _⟩ := shaped lowest found
      obtain ⟨firstNonzero, chosen⟩ := extracting.tail first rfl
      have shapes (w : Unfolding) (bottom : (source.unfold host).Bottom (stop - start) w) :
          w.withScale 1 = (source.unfold first).withScale 1 := by
        obtain ⟨_, ⟨⟩, shape⟩ := shaped w bottom
        exact shape
      have replacement := replacement_of_shaped exact range le onLevel nonzero
        (hostRegular.bottom chosen) shapes
      have pushed := removes.exact.push_rescaled first (exact.scale_ne_zero nonzero)
        ((removes.growth.isZero_eq (exact.lt_size firstNonzero)).trans firstNonzero)
      rw [removes.growth.get_eq first (exact.lt_size firstNonzero),
        removes.growth.unfold_eq (exact.lt_size firstNonzero)] at pushed
      have standIn := (pushed.mono fun u result => result ▸ replacement).result
      split
      · next agrees =>
          have regular : (part (stop - start) (source.unfold host)).Regular canonical (stop - start) :=
            hostRegular.head.withScale one_ne_zero
          have chosenRoot : grown.Holds (root.getD copy)
              (· = part (stop - start) (source.unfold host)) := by
            cases root with
            | none => exact ⟨holds.stored, holds.clean, copyUnfold⟩
            | some old =>
                have oldHolds := (removes.copied old rfl).1.grow growth
                refine ⟨oldHolds.stored, oldHolds.clean, ?_⟩
                rw [Option.getD_some, ← copyUnfold]
                exact (extracting.exact.agrees_iff old copy).mp agrees
          rw [← chosenRoot.holds] at regular standIn
          exact removes.insert growth extracting.exact
            ⟨chosenRoot.stored, chosenRoot.clean, regular⟩ pushed.growth pushed.exact standIn
      · next differs =>
          cases root with
          | none => exact absurd rfl differs
          | some old =>
              obtain ⟨oldHolds, earlier, known⟩ := removes.copied old rfl
              refine ⟨rfl, .inr ⟨earlier, host, .inr known, .inl rfl, fun found => differs ?_⟩⟩
              refine (extracting.exact.agrees_iff old copy).mpr ?_
              rw [copyUnfold, ← found, growth.unfold_eq oldHolds.stored]
              exact (removes.replaced earlier old known rfl).holds.copied_eq

/-- Hosts are dealt with up to the first that shows that the range cannot be split off. -/
theorem Removes.addAll {hosts : List NodeId} {dealt : NodeId → Prop}
    (removes : Removes source canonical start stop width dealt r) (exact : source.Exact)
    (range : start < stop) (le : stop ≤ width)
    (onLevels : ∀ host ∈ hosts, source.OnLevel canonical width start host ∧
      source.isZero host = false) :
    let result := removeHosts source start stop hosts r
    if result.1 then
      Removes source canonical start stop width (fun id => id ∈ hosts ∨ dealt id) result.2
    else source.Extends result.2.rest ∧ result.2.rest.Exact ∧
      Entangled source (stop - start) fun id => id ∈ hosts ∨ dealt id := by
  induction hosts generalizing dealt r with
  | nil =>
      have same : dealt = fun id => id ∈ ([] : List NodeId) ∨ dealt id :=
        funext fun id => propext (or_iff_right List.not_mem_nil).symm
      rw [same] at removes
      exact removes
  | cons host hosts ih =>
      obtain ⟨onLevel, nonzero⟩ := onLevels host List.mem_cons_self
      have same : (fun id => id ∈ hosts ∨ id = host ∨ dealt id) =
          fun id => id ∈ host :: hosts ∨ dealt id :=
        funext fun id => propext (by rw [List.mem_cons, or_left_comm, or_assoc])
      have added := removes.add exact range le onLevel nonzero
      unfold removeHosts
      generalize removeHost source start stop r host = outcome at *
      obtain ⟨_ | _, next⟩ := outcome
      · obtain ⟨rest, entangled⟩ := added
        refine ⟨?_, ?_, entangled.mono fun id found => ?_⟩
        · exact rest ▸ removes.growth
        · exact rest ▸ removes.exact
        · rcases found with rfl | earlier
          · exact .inl List.mem_cons_self
          · exact .inr earlier
      · have rest := ih (r := next) added fun id member => onLevels id (List.mem_cons_of_mem _ member)
        rw [same] at rest
        exact rest

/-! ## Splitting -/

/-- What a split leaves: two trees with the given state as their product, or the given state. -/
structure Splits (t : Tree ℝ) (canonical : Prop) (start length : ℕ)
    (result : Option (Tree ℝ) × Tree ℝ) : Prop where
  sound : result.2.Sound canonical
  parted : ∀ part, result.1 = some part → part.Sound canonical ∧ part.width = length ∧
    result.2.width = t.width - length ∧ ∀ bits, t.state bits =
      part.state (taken start length bits) * result.2.state (dropped start length bits)
  kept : result.1 = none → result.2.width = t.width ∧ result.2.state = t.state

noncomputable def splitBy (t : Tree ℝ) (start length : ℕ) (dealt : Bool × Removal ℝ) :
    Option (Tree ℝ) × Tree ℝ :=
  let kept := { t with store := dealt.2.rest }
  if !dealt.1 then (none, kept)
  else
    match dealt.2.root with
    | none => (some (basis length 0 1 t.threshold), { kept with width := t.width - length })
    | some root =>
        let (newRoot, store) := kept.replaceHosts start dealt.2.swap
        (some (ofStore dealt.2.part root length),
          { kept with store := store, root := newRoot, width := t.width - length })

theorem split_eq (t : Tree ℝ) {length : ℕ} (positive : length ≠ 0) (start : ℕ) :
    t.split start length = t.splitBy start length
      (removeHosts t.store start (start + length) (t.hosts start)
        ⟨t.store, .empty t.threshold, none, ∅⟩) := by
  rw [split, if_neg (by simpa using positive)]
  rfl

theorem isSome_splitBy (t : Tree ℝ) (start length : ℕ) (dealt : Bool × Removal ℝ) :
    (t.splitBy start length dealt).1.isSome = dealt.1 := by
  obtain ⟨separable, rest, stored, root, swap⟩ := dealt
  cases separable with
  | false => rfl
  | true => cases root <;> rfl

theorem Removes.sound_part {dealt : NodeId → Prop} {root : NodeId}
    (removes : Removes source canonical start (start + length) width dealt r)
    (found : r.root = some root) : (ofStore r.part root length).Sound canonical := by
  obtain ⟨copied, _⟩ := removes.copied root found
  refine .of_clean removes.partExact copied.stored copied.clean ?_
  have regular := copied.holds
  rwa [Nat.add_sub_cancel_left] at regular

/-- A tree without amplitude is split like any other. -/
theorem Sound.splitBy_of_isZero (sound : t.Sound canonical) (empty : t.store.isZero t.root = true)
    {dealt : NodeId → Prop}
    (removes : Removes t.store canonical start (start + length) width dealt r) :
    t.Splits canonical start length (t.splitBy start length (true, r)) := by
  obtain ⟨grown, kept⟩ := sound.grow removes.growth removes.exact
  have emptyGrown : r.rest.isZero t.root = true :=
    (removes.growth.isZero_eq sound.stored).trans empty
  have threshold : t.threshold = 0 := sound.exact.threshold_eq
  have zero (bits : Assignment) : t.state bits = 0 := by
    rw [state, isZero_iff_unfold_eq.mp empty]
    rfl
  unfold Tree.splitBy
  dsimp only
  cases found : r.root with
  | none =>
      refine ⟨grown.shrink emptyGrown (Nat.sub_le _ _), ?_, fun failed => by cases failed⟩
      rintro _ ⟨⟩
      rw [threshold]
      refine ⟨(sound_basis length 0 1).1.of_canonical, rfl, rfl, fun bits => ?_⟩
      rw [zero]
      exact (mul_eq_zero_of_right _ (by
        rw [state, show Tree.unfold _ = .zero from unfold_of_isZero emptyGrown]
        rfl)).symm
  | some root =>
      rw [replaceHosts_of_isZero (t := { t with store := r.rest }) emptyGrown]
      have zeroYields : r.rest.Yields (0, r.rest) fun u =>
          u.Carries canonical 0 (t.width - length) fun _ => 0 :=
        .of_zero removes.exact (Unfolding.carries_zero (Nat.zero_le _) fun _ => rfl)
      obtain ⟨emptySound, emptyState⟩ := sound_of_yields zeroYields t.reducedSize
      refine ⟨emptySound, ?_, fun failed => by cases failed⟩
      rintro _ ⟨⟩
      refine ⟨removes.sound_part found, rfl, rfl, fun bits => ?_⟩
      rw [zero]
      exact (mul_eq_zero_of_right _ (congrFun emptyState _)).symm

/-- A split of a tree with amplitudes leaves two trees whose product is the state. -/
theorem Sound.splitBy (sound : t.Sound canonical) (nonzero : t.store.isZero t.root = false)
    (le : start + length ≤ t.width)
    (removes : Removes t.store canonical start (start + length) t.width (· ∈ t.hosts start) r) :
    t.Splits canonical start length (t.splitBy start length (true, r)) := by
  obtain ⟨host, member⟩ := sound.exists_host nonzero (show start ≤ t.width by omega)
  obtain ⟨root, found⟩ := removes.begun host member
  have yields := sound.replaceHosts nonzero (splitReading start length (r.part.unfold root))
    removes.growth removes.exact (by omega) (show start ≤ t.width - length by omega)
    fun host member => by
      obtain ⟨stored, clean, replacement⟩ := removes.replaced host root member found
      have regular := replacement.regular
      have matching := replacement.matching
      rw [Nat.add_sub_cancel_left] at regular matching
      exact ⟨stored, clean, regular, matching⟩
  unfold Tree.splitBy
  dsimp only
  rw [found]
  dsimp only
  generalize Tree.replaceHosts { t with store := r.rest } start r.swap = replaced at *
  obtain ⟨newRoot, store⟩ := replaced
  refine ⟨.of_clean yields.exact yields.stored yields.clean yields.holds.1, ?_,
    nofun⟩
  rintro _ ⟨⟩
  exact ⟨removes.sound_part found, rfl, rfl, splitReading_matches.mp yields.holds.2⟩

theorem Sound.split_zero (sound : t.Sound canonical) (start : ℕ) :
    t.Splits canonical start 0 (t.split start 0) := by
  have threshold : t.threshold = 0 := sound.exact.threshold_eq
  obtain ⟨unit, one⟩ := sound_basis 0 0 1
  have result : t.split start 0 = (some (basis 0 0 1 0), t) := by
    rw [split, threshold]
    rfl
  rw [result]
  refine ⟨sound, ?_, nofun⟩
  rintro _ ⟨⟩
  refine ⟨unit.of_canonical, rfl, rfl, fun bits => ?_⟩
  have outside : dropped start 0 bits = bits := funext fun q => ite_self (bits q)
  rw [outside, one]
  dsimp only
  rw [basisState_self, mul_one, Amplitude.toComplex_one, one_mul]

theorem Sound.removes_start (sound : t.Sound canonical) (start stop width : ℕ) :
    Removes t.store canonical start stop width (fun _ => False)
      ⟨t.store, .empty t.threshold, none, ∅⟩ := by
  refine ⟨.refl _, sound.exact, ?_, nofun, nofun, nofun⟩
  rw [show t.threshold = 0 from sound.exact.threshold_eq]
  exact .empty

/-- A range that is split off leaves a product; otherwise the tree keeps its state. -/
theorem Sound.split (sound : t.Sound canonical) (le : start + length ≤ t.width) :
    t.Splits canonical start length (t.split start length) := by
  by_cases positive : length = 0
  · rw [positive]
    exact sound.split_zero start
  · obtain ⟨width, deeper, widths, hosts⟩ := sound.hosts start
    have removed := (sound.removes_start start (start + length) width).addAll sound.exact (by omega)
      (le.trans deeper) hosts
    rw [split_eq t positive]
    generalize removeHosts t.store start (start + length) (t.hosts start)
      ⟨t.store, .empty t.threshold, none, ∅⟩ = outcome at *
    obtain ⟨_ | _, next⟩ := outcome
    · obtain ⟨growth, exact, _⟩ := removed
      obtain ⟨grown, kept⟩ := sound.grow growth exact
      refine ⟨grown, nofun, fun _ => ⟨rfl, ?_⟩⟩
      exact congrArg (·.amplitude 0) kept
    · have removed : Removes t.store canonical start (start + length) width
          (fun id => id ∈ t.hosts start ∨ False) next := removed
      cases nonzero : t.store.isZero t.root with
      | true => exact sound.splitBy_of_isZero nonzero removed
      | false =>
          obtain rfl := widths nonzero
          simp only [or_false] at removed
          exact sound.splitBy nonzero le removed

/-! ## Products -/

/-- Below every host of a product state hangs a graft of the first factor. -/
theorem Sound.graft_of_product (sound : t.Sound True) (nonzero : t.store.isZero t.root = false)
    (le : start + length ≤ t.width) {first second : Assignment → ℂ}
    (product : ∀ bits, t.state bits =
      first (taken start length bits) * second (dropped start length bits))
    {v : Unfolding} (firstCarries : v.Carries True start (start + length) fun bits =>
      first (taken start length bits))
    (onLevel : t.store.OnLevel True t.width start host) (member : host ∈ t.hosts start) :
    ∃ below, below ≠ .zero ∧ t.store.unfold host =
      (v.withScale (v.scale * below.scale)).graft below := by
  obtain ⟨factor, scaled, path, along⟩ := sound.onLevel.amplitude_descends sound.exact.toOrdered
    nonzero (mem_hosts.mp member).1
  rw [Nat.zero_add] at along
  let masked (bits : Assignment) : Assignment := fun q =>
    if q < start then path q else if q < t.width then bits q else false
  have masked_above (bits : Assignment) {q : ℕ} (above : start ≤ q) (below : q < t.width) :
      masked bits q = bits q := by
    have after : ¬q < start := by omega
    exact (if_neg after).trans (if_pos below)
  obtain ⟨below, secondCarries⟩ := Unfolding.exists_canonical le
    (fun bits => factor⁻¹ * second (dropped start length (masked bits))) fun bits other same => by
      refine congrArg (factor⁻¹ * second ·) (funext fun q => ?_)
      by_cases before : q < start
      · rw [dropped_of_lt before, dropped_of_lt before]
        exact (if_pos before).trans (if_pos before).symm
      · rw [dropped, dropped, if_neg before, if_neg before]
        by_cases inside : q + length < t.width
        · rw [masked_above bits (by omega) inside, masked_above other (by omega) inside]
          exact same _ (by omega) inside
        · have after : ¬q + length < start := by omega
          exact ((if_neg after).trans (if_neg inside)).trans
            ((if_neg after).trans (if_neg inside)).symm
  refine ⟨below, onLevel.regular.eq_graft_of_product (unfold_ne_zero.mpr (mem_hosts.mp member).2) firstCarries
    secondCarries fun bits => ?_⟩
  have reads : taken start length (masked bits) = taken start length bits := by
    funext q
    by_cases inside : q < length
    · rw [taken, taken, if_pos inside, if_pos inside, masked_above bits (by omega) (by omega)]
    · rw [taken, taken, if_neg inside, if_neg inside]
  have amplitude := along (masked bits) fun q _ before => if_pos before
  rw [show t.store.unfold t.root = t.unfold from rfl, show t.unfold.amplitude 0 (masked bits) =
    t.state (masked bits) from rfl, product, reads] at amplitude
  have same : (t.store.unfold host).amplitude start bits =
      (t.store.unfold host).amplitude start (masked bits) :=
    onLevel.regular.amplitude_congr fun q above inside => (masked_above bits above (by omega)).symm
  rw [same]
  field_simp
  linear_combination -amplitude

/-- The hosts of a product state are not entangled. -/
theorem Sound.not_entangled (sound : t.Sound True) (nonzero : t.store.isZero t.root = false)
    (le : start + length ≤ t.width) {first second : Assignment → ℂ}
    (product : ∀ bits, t.state bits =
      first (taken start length bits) * second (dropped start length bits)) :
    ¬Entangled t.store length (· ∈ t.hosts start) := by
  obtain ⟨width, _, widths, hosts⟩ := sound.hosts start
  obtain rfl := widths nonzero
  -- one tree of the first factor serves below every host
  obtain ⟨v, firstCarries⟩ := Unfolding.exists_canonical (Nat.le_add_right start length)
    (fun bits => first (taken start length bits)) fun bits other same => by
      refine congrArg first (funext fun q => ?_)
      by_cases inside : q < length
      · rw [taken, taken, if_pos inside, if_pos inside, same (start + q) (by omega) (by omega)]
      · rw [taken, taken, if_neg inside, if_neg inside]
  have vRegular : v.Regular True length := by
    have regular := firstCarries.regular
    rwa [Nat.add_sub_cancel_left] at regular
  have below (host : NodeId) (member : host ∈ t.hosts start) :
      ∃ below, (∀ w, (t.store.unfold host).Bottom length w → w.withScale 1 = below) ∧
        part length (t.store.unfold host) = v.withScale 1 := by
    obtain ⟨onLevel, hostNonzero⟩ := hosts host member
    obtain ⟨below, belowNonzero, graft⟩ := sound.graft_of_product nonzero le product firstCarries
      onLevel member
    have some : v ≠ .zero := by
      rintro rfl
      exact unfold_ne_zero.mpr hostNonzero graft
    have scale : (t.store.unfold host).scale = v.scale * below.scale := by
      rw [graft, Unfolding.scale_graft belowNonzero, Unfolding.scale_withScale some]
    have scaled := onLevel.regular.scale_ne_zero (unfold_ne_zero.mpr hostNonzero)
    rw [scale] at scaled
    rw [graft]
    refine ⟨_, fun w => (vRegular.withScale scaled).bottom_graft, ?_⟩
    rw [part, (vRegular.withScale scaled).head_graft belowNonzero, Unfolding.withScale_withScale]
  rintro (⟨host, member, lower, upper, lowerBottom, upperBottom, differ⟩ |
    ⟨host, other, member, otherMember, differ⟩)
  · obtain ⟨shape, shapes, _⟩ := below host member
    exact differ ((shapes lower lowerBottom).trans (shapes upper upperBottom).symm)
  · obtain ⟨_, _, top⟩ := below host member
    obtain ⟨_, _, otherTop⟩ := below other otherMember
    exact differ (top.trans otherTop.symm)

/-- A range can be split off from every product state. -/
theorem Sound.exists_split (sound : t.Sound True) (nonzero : t.store.isZero t.root = false)
    (le : start + length ≤ t.width) {first second : Assignment → ℂ}
    (product : ∀ bits, t.state bits =
      first (taken start length bits) * second (dropped start length bits)) :
    ∃ part, (t.split start length).1 = some part := by
  by_cases positive : length = 0
  · rw [positive]
    exact ⟨_, rfl⟩
  · obtain ⟨width, _, widths, hosts⟩ := sound.hosts start
    obtain rfl := widths nonzero
    rw [← Option.isSome_iff_exists, split_eq t positive, isSome_splitBy]
    by_contra separable
    have removed := (sound.removes_start start (start + length) t.width).addAll sound.exact
      (by omega) le hosts
    rw [if_neg separable, Nat.add_sub_cancel_left] at removed
    refine sound.not_entangled nonzero le product (removed.2.2.mono fun id found => ?_)
    exact found.resolve_right not_false

end AmplitudeTree.Tree
