import AmplitudeTree.NodeStore.Walk
import AmplitudeTree.Proofs.NodeStore.Basic

/-!
# Walks

A contract states what the visit of one node has to ensure; the whole walk then ensures the same.  A
walk remembers the value of a node under the node's position alone, although a visit may depend on
the level as well.  This is sound if every node that is not zero is met on one level only.
-/

namespace AmplitudeTree.NodeStore

/-! ## Contracts -/

section General

variable {R σ β : Type} [Scalar R]

/-- What holds of the value for a branch: it was given, or a walk computed it. -/
def Supplied (given : Option β) (computed : σ → β → σ → Prop) (before : σ) (value : β)
    (after : σ) : Prop :=
  match given with
  | some known => value = known ∧ after = before
  | none => computed before value after

/-- What the visits of a walk ensure: `valid` is kept by the state, which only `grows`, `post` holds
of each visit, and `done` stays true of a node's value. -/
structure Contract (s : NodeStore R) (zero : β) (visit : ℕ → NodeId → Visit σ β)
    (meets : ℕ → NodeId → Prop) (valid : σ → Prop) (grows : σ → σ → Prop)
    (post : ℕ → NodeId → σ → β → σ → Prop) (done : NodeId → β → σ → Prop) : Prop where
  zero : ∀ {depth id before}, meets depth id → s.isZero id = true → valid before →
    post depth id before zero before
  answer : ∀ {depth id before result}, meets depth id → s.isZero id = false →
    visit depth id = .answer result → valid before →
    grows before (result before).2 ∧ post depth id before (result before).1 (result before).2
  descend : ∀ {depth id given given' combine}, meets depth id → s.isZero id = false →
    visit depth id = .descend given given' combine →
    ∃ c, s.children id = some c ∧
      (given = none → meets (depth + 1) c.low) ∧ (given' = none → meets (depth + 1) c.high) ∧
      ∀ {before low between high after}, valid before → valid between → valid after →
        Supplied given (post (depth + 1) c.low) before low between →
        Supplied given' (post (depth + 1) c.high) between high after →
        grows after (combine low high after).2 ∧
          post depth id before (combine low high after).1 (combine low high after).2
  valid_after : ∀ {depth id before value after}, valid before → post depth id before value after →
    valid after
  record : ∀ {depth id before value after}, meets depth id → valid before →
    post depth id before value after → done id value after
  keep : ∀ {id value before after}, valid before → grows before after → done id value before →
    done id value after
  reuse : ∀ {depth id value before}, meets depth id → s.isZero id = false → valid before →
    done id value before → post depth id before value before

def Remembers (done : NodeId → β → σ → Prop) (progress : Progress σ β) : Prop :=
  ∀ id value, progress.finished[id]? = some value → done id value progress.state

theorem Remembers.start (done : NodeId → β → σ → Prop) (state : σ) :
    Remembers done (.start state) := by
  intro id value found
  simp [Progress.start] at found

theorem Remembers.insert {done : NodeId → β → σ → Prop} {progress : Progress σ β} {id : NodeId}
    {value : β} (remembers : Remembers done progress) (found : done id value progress.state) :
    Remembers done ⟨progress.state, progress.finished.insert id value⟩ := by
  intro other known
  rw [Std.HashMap.getElem?_insert]
  split
  · next same =>
      rintro ⟨⟩
      rwa [← eq_of_beq same]
  · exact remembers other known

variable {s : NodeStore R} {zero : β} {visit : ℕ → NodeId → Visit σ β} {meets : ℕ → NodeId → Prop}
  {valid : σ → Prop} {grows : σ → σ → Prop} {post : ℕ → NodeId → σ → β → σ → Prop}
  {done : NodeId → β → σ → Prop}

def Ensures (s : NodeStore R) (zero : β) (visit : ℕ → NodeId → Visit σ β)
    (post : ℕ → NodeId → σ → β → σ → Prop) (done : NodeId → β → σ → Prop) (depth : ℕ) (id : NodeId)
    (progress : Progress σ β) : Prop :=
  post depth id progress.state (s.walk zero visit depth id progress).1
      (s.walk zero visit depth id progress).2.state ∧
    Remembers done (s.walk zero visit depth id progress).2

theorem Contract.branch (contract : s.Contract zero visit meets valid grows post done) {depth : ℕ}
    {child : NodeId} {given : Option β} {progress : Progress σ β} {r : β × Progress σ β}
    (walked : (match given with
      | some value => (value, progress)
      | none => s.walk zero visit depth child progress) = r)
    (before : valid progress.state) (remembers : Remembers done progress)
    (ensured : given = none → Ensures s zero visit post done depth child progress) :
    Supplied given (post depth child) progress.state r.1 r.2.state ∧ valid r.2.state ∧
      Remembers done r.2 := by
  cases given with
  | some known =>
      subst walked
      exact ⟨⟨rfl, rfl⟩, before, remembers⟩
  | none =>
      subst walked
      obtain ⟨computed, remembered⟩ := ensured rfl
      exact ⟨computed, contract.valid_after before computed, remembered⟩

/-- A walk ensures what its visits ensure. -/
theorem Contract.walk (contract : s.Contract zero visit meets valid grows post done) {depth : ℕ}
    {id : NodeId} {progress : Progress σ β} (met : meets depth id) (before : valid progress.state)
    (remembers : Remembers done progress) :
    Ensures s zero visit post done depth id progress := by
  induction id using Nat.strong_induction_on generalizing depth progress with
  | _ id ih =>
      rw [Ensures, NodeStore.walk]
      split
      · next empty => exact ⟨contract.zero met empty before, remembers⟩
      · next nonempty =>
          have nonzero : s.isZero id = false := Bool.not_eq_true _ ▸ nonempty
          -- what was remembered before the last step is still true after it
          have finish {value : β} {state : σ} {last : Progress σ β}
              (remembered : Remembers done last) (valid : valid last.state)
              (growth : grows last.state state) (ensured : post depth id progress.state value state) :
              Remembers done ⟨state, last.finished.insert id value⟩ := by
            have kept : Remembers done ⟨state, last.finished⟩ := fun other known found =>
              contract.keep valid growth (remembered other known found)
            exact kept.insert (contract.record met before ensured)
          split
          · next value found =>
              exact ⟨contract.reuse met nonzero before (remembers id value found), remembers⟩
          · cases visited : visit depth id with
            | answer result =>
                obtain ⟨growth, ensured⟩ := contract.answer met nonzero visited before
                exact ⟨ensured, finish remembers before growth ensured⟩
            | descend given given' combine =>
                obtain ⟨⟨low, high, lowLt, highLt⟩, children, lowMet, highMet, ensures⟩ :=
                  contract.descend met nonzero visited
                rw [children]
                obtain ⟨lowSupplied, between, lowRemembers⟩ := contract.branch rfl before
                  remembers fun none => ih low lowLt (lowMet none) before remembers
                obtain ⟨highSupplied, after, highRemembers⟩ := contract.branch rfl between
                  lowRemembers fun none => ih high highLt (highMet none) between lowRemembers
                obtain ⟨growth, ensured⟩ := ensures before between after lowSupplied highSupplied
                exact ⟨ensured, finish highRemembers after growth ensured⟩

theorem walk_finished (s : NodeStore R) (zero : β) (visit : ℕ → NodeId → Visit σ β) (depth : ℕ)
    {id : NodeId} (nonzero : s.isZero id = false) (progress : Progress σ β) :
    ∃ value, (s.walk zero visit depth id progress).2.finished[id]? = some value := by
  rw [NodeStore.walk, if_neg (by simp [nonzero])]
  split
  · next value found => exact ⟨value, found⟩
  · exact ⟨_, Std.HashMap.getElem?_insert_self⟩

theorem walk_of_isZero {depth : ℕ} {id : NodeId} {progress : Progress σ β}
    (empty : s.isZero id = true) : s.walk zero visit depth id progress = (zero, progress) := by
  rw [NodeStore.walk, if_pos empty]

theorem walk_of_finished {depth : ℕ} {id : NodeId} {progress : Progress σ β} {value : β}
    (nonzero : s.isZero id = false) (found : progress.finished[id]? = some value) :
    s.walk zero visit depth id progress = (value, progress) := by
  rw [NodeStore.walk, if_neg (by simp [nonzero]), found]

theorem walk_of_answer {depth : ℕ} {id : NodeId} {progress : Progress σ β} {result : σ → β × σ}
    (nonzero : s.isZero id = false) (missing : progress.finished[id]? = none)
    (visited : visit depth id = .answer result) :
    s.walk zero visit depth id progress = ((result progress.state).1,
      ⟨(result progress.state).2, progress.finished.insert id (result progress.state).1⟩) := by
  rw [NodeStore.walk, if_neg (by simp [nonzero]), missing, visited]

/-- A walk combines the values for the two branches of a new node. -/
theorem Ordered.walk_of_descend (ordered : s.Ordered) {depth : ℕ} {id low high : NodeId}
    {progress : Progress σ β} {combine : β → β → σ → β × σ} (nonzero : s.isZero id = false)
    (missing : progress.finished[id]? = none) (branches : (s.get id).branches = some (low, high))
    (visited : visit depth id = .descend none none combine) :
    let first := s.walk zero visit (depth + 1) low progress
    let second := s.walk zero visit (depth + 1) high first.2
    let result := combine first.1 second.1 second.2.state
    s.walk zero visit depth id progress =
      (result.1, ⟨result.2, second.2.finished.insert id result.1⟩) := by
  intro first second result
  rw [NodeStore.walk, if_neg (by simp [nonzero]), missing, visited, ordered.children_eq branches]

theorem finished_start (state : σ) (id : NodeId) :
    (Progress.start state : Progress σ β).finished[id]? = none := by
  simp [Progress.start]

theorem walkFrom_of_answer (s : NodeStore R) (zero : β) {visit : ℕ → NodeId → Visit σ β} {depth : ℕ}
    {id : NodeId} (nonzero : s.isZero id = false) {result : σ → β × σ}
    (visited : visit depth id = .answer result) (state : σ) :
    s.walkFrom zero visit depth id state = result state := by
  rw [walkFrom, walk_of_answer nonzero (finished_start state id) visited]
  rfl

def Closed (s : NodeStore R) (finished : Std.HashMap NodeId β) : Prop :=
  ∀ id ∈ finished, ∀ low high, (s.get id).branches = some (low, high) →
    (s.isZero low = false → low ∈ finished) ∧ (s.isZero high = false → high ∈ finished)

theorem Closed.insert {finished : Std.HashMap NodeId β} (closed : s.Closed finished) {id : NodeId}
    (below : ∀ low high, (s.get id).branches = some (low, high) →
      (s.isZero low = false → low ∈ finished) ∧ (s.isZero high = false → high ∈ finished))
    (value : β) : s.Closed (finished.insert id value) := by
  intro other member low high branches
  have known : (s.isZero low = false → low ∈ finished) ∧ (s.isZero high = false → high ∈ finished) := by
    rcases Std.HashMap.mem_insert.mp member with same | member
    · rw [← eq_of_beq same] at branches
      exact below low high branches
    · exact closed other member low high branches
  exact ⟨fun nonzero => Std.HashMap.mem_insert.mpr (Or.inr (known.1 nonzero)),
    fun nonzero => Std.HashMap.mem_insert.mpr (Or.inr (known.2 nonzero))⟩

/-- A walk that visits both branches of every node finishes all nodes below those it finishes. -/
theorem Closed.walk (ordered : s.Ordered)
    (descends : ∀ depth id low high, (s.get id).branches = some (low, high) →
      ∃ combine, visit depth id = .descend none none combine)
    (depth : ℕ) (id : NodeId) {progress : Progress σ β} (closed : s.Closed progress.finished) :
    s.Closed (s.walk zero visit depth id progress).2.finished ∧
      ∀ other ∈ progress.finished, other ∈ (s.walk zero visit depth id progress).2.finished := by
  induction id using Nat.strong_induction_on generalizing depth progress with
  | _ id ih =>
      rw [NodeStore.walk]
      split
      · exact ⟨closed, fun _ member => member⟩
      · split
        · exact ⟨closed, fun _ member => member⟩
        · cases branches : (s.get id).branches with
          | none =>
              have leaf (value : β) : s.Closed (progress.finished.insert id value) :=
                closed.insert (fun low high found => by rw [branches] at found; cases found) value
              have kept (value : β) (other : NodeId) (member : other ∈ progress.finished) :
                  other ∈ progress.finished.insert id value :=
                Std.HashMap.mem_insert.mpr (Or.inr member)
              rw [children_eq_none branches]
              cases visit depth id with
              | answer result => exact ⟨leaf _, kept _⟩
              | descend low high combine => exact ⟨leaf _, kept _⟩
          | some pair =>
              obtain ⟨low, high⟩ := pair
              obtain ⟨combine, visited⟩ := descends depth id low high branches
              obtain ⟨lowLt, highLt⟩ := ordered.branches_lt branches
              rw [visited, ordered.children_eq branches]
              obtain ⟨lowClosed, lowKept⟩ := ih low lowLt (depth + 1) closed
              obtain ⟨highClosed, highKept⟩ := ih high highLt (depth + 1) lowClosed
              refine ⟨highClosed.insert (fun low' high' found => ?_) _, fun other member =>
                Std.HashMap.mem_insert.mpr (Or.inr (highKept other (lowKept other member)))⟩
              rw [branches] at found
              cases found
              have stored {child : NodeId} (nonzero : s.isZero child = false) (depth : ℕ)
                  (progress : Progress σ β) :
                  child ∈ (s.walk zero visit depth child progress).2.finished := by
                obtain ⟨value, found⟩ := s.walk_finished zero visit depth nonzero progress
                exact Std.HashMap.mem_iff_isSome_getElem?.mpr (by rw [found]; rfl)
              exact ⟨fun nonzero => highKept low (stored nonzero _ _), fun nonzero => stored nonzero _ _⟩

theorem Contract.walkFrom (contract : s.Contract zero visit meets valid grows post done)
    {depth : ℕ} {id : NodeId} (met : meets depth id) (state : σ) (before : valid state) :
    post depth id state (s.walkFrom zero visit depth id state).1
      (s.walkFrom zero visit depth id state).2 :=
  (contract.walk met before (Remembers.start done state)).1

end General

/-! ## Visits that fold

What a visit does with a node is said once for each walk; the contracts of the walk are proved from
it. -/

section Folds

variable {R σ β : Type} [Scalar R] {s : NodeStore R} {visit : ℕ → NodeId → Visit σ β} {level depth : ℕ}
  {id : NodeId} {result : σ → β × σ} {given given' : Option β} {combine : β → β → σ → β × σ}

/-- The visits of a walk that answers on every leaf and goes on into both
branches of any other node. -/
structure Folds (s : NodeStore R) (visit : ℕ → NodeId → Visit σ β) (leaf : NodeId → σ → β × σ)
    (fork : NodeId → NodeId → NodeId → β → β → σ → β × σ) : Prop where
  leaf_eq : ∀ {id}, (s.get id).branches = none → ∀ depth, visit depth id = .answer (leaf id)
  fork_eq : ∀ {id low high}, (s.get id).branches = some (low, high) → ∀ depth,
    visit depth id = .descend none none (fork id low high)

/-- The visits of a walk that answers on a level and on the leaves above, and goes on elsewhere. -/
structure FoldsTo (s : NodeStore R) (level : ℕ) (visit : ℕ → NodeId → Visit σ β)
    (bottom leaf : NodeId → σ → β × σ) (fork : ℕ → NodeId → NodeId → NodeId → β → β → σ → β × σ) :
    Prop where
  bottom_eq : ∀ id, visit level id = .answer (bottom id)
  leaf_eq : ∀ {depth id}, depth ≠ level → (s.get id).branches = none →
    visit depth id = .answer (leaf id)
  fork_eq : ∀ {depth id low high}, depth ≠ level → (s.get id).branches = some (low, high) →
    visit depth id = .descend none none (fork depth id low high)

section Leaves

variable {leaf : NodeId → σ → β × σ} {fork : NodeId → NodeId → NodeId → β → β → σ → β × σ}

theorem Folds.eq_answer (folds : s.Folds visit leaf fork) (visited : visit depth id = .answer result) :
    (s.get id).branches = none ∧ result = leaf id := by
  cases branches : (s.get id).branches with
  | none =>
      rw [folds.leaf_eq branches] at visited
      exact ⟨rfl, (Visit.answer.inj visited).symm⟩
  | some pair =>
      rw [folds.fork_eq branches] at visited
      cases visited

theorem Folds.eq_descend (folds : s.Folds visit leaf fork)
    (visited : visit depth id = .descend given given' combine) :
    ∃ low high, (s.get id).branches = some (low, high) ∧ given = none ∧ given' = none ∧
      combine = fork id low high := by
  cases branches : (s.get id).branches with
  | none =>
      rw [folds.leaf_eq branches] at visited
      cases visited
  | some pair =>
      rw [folds.fork_eq branches] at visited
      cases visited
      exact ⟨_, _, rfl, rfl, rfl, rfl⟩

end Leaves

section Bottom

variable {bottom leaf : NodeId → σ → β × σ}
  {fork : ℕ → NodeId → NodeId → NodeId → β → β → σ → β × σ}

theorem FoldsTo.eq_answer (folds : s.FoldsTo level visit bottom leaf fork)
    (visited : visit depth id = .answer result) :
    depth = level ∧ result = bottom id ∨
      depth ≠ level ∧ (s.get id).branches = none ∧ result = leaf id := by
  by_cases here : depth = level
  · rw [here, folds.bottom_eq] at visited
    exact .inl ⟨here, (Visit.answer.inj visited).symm⟩
  · refine .inr ⟨here, ?_⟩
    cases branches : (s.get id).branches with
    | none =>
        rw [folds.leaf_eq here branches] at visited
        exact ⟨rfl, (Visit.answer.inj visited).symm⟩
    | some pair =>
        rw [folds.fork_eq here branches] at visited
        cases visited

theorem FoldsTo.eq_descend (folds : s.FoldsTo level visit bottom leaf fork)
    (visited : visit depth id = .descend given given' combine) :
    depth ≠ level ∧ ∃ low high, (s.get id).branches = some (low, high) ∧ given = none ∧
      given' = none ∧ combine = fork depth id low high := by
  by_cases here : depth = level
  · rw [here, folds.bottom_eq] at visited
    cases visited
  · refine ⟨here, ?_⟩
    cases branches : (s.get id).branches with
    | none =>
        rw [folds.leaf_eq here branches] at visited
        cases visited
    | some pair =>
        rw [folds.fork_eq here branches] at visited
        cases visited
        exact ⟨_, _, rfl, rfl, rfl, rfl⟩

end Bottom

end Folds

/-! ## Levels -/

section Levels

variable {s : NodeStore ℝ} {canonical : Prop} {width depth : ℕ} {id low high : NodeId}

/-- The qubits from a level on are decided below the node. -/
structure OnLevel (s : NodeStore ℝ) (canonical : Prop) (width depth : ℕ) (id : NodeId) : Prop where
  le : depth ≤ width
  regular : (s.unfold id).Regular canonical (width - depth)

theorem OnLevel.of_isZero (le : depth ≤ width) (empty : s.isZero id = true) :
    s.OnLevel canonical width depth id where
  le := le
  regular := by
    rw [unfold_of_isZero empty]
    exact Unfolding.regular_zero

theorem OnLevel.unique {other : ℕ} (onLevel : s.OnLevel canonical width depth id)
    (again : s.OnLevel canonical width other id) (nonzero : s.isZero id = false) :
    depth = other := by
  have same := onLevel.regular.levels_unique again.regular (unfold_ne_zero.mpr nonzero)
  have le := onLevel.le
  have le' := again.le
  omega

theorem OnLevel.carries (onLevel : s.OnLevel canonical width depth id) :
    (s.unfold id).Carries canonical depth width ((s.unfold id).amplitude depth) :=
  ⟨onLevel.le, onLevel.regular, fun _ => rfl⟩

theorem OnLevel.scale_ne_zero (onLevel : s.OnLevel canonical width depth id)
    (nonzero : s.isZero id = false) : (s.get id).scale.toComplex ≠ 0 := by
  rw [scale_of_not_isZero nonzero]
  exact onLevel.regular.scale_ne_zero (unfold_ne_zero.mpr nonzero)

/-- A node without branches lies below the last qubit. -/
theorem OnLevel.eq_width (onLevel : s.OnLevel canonical width depth id)
    (nonzero : s.isZero id = false) (leaf : (s.get id).branches = none) : depth = width := by
  have regular := onLevel.regular
  rw [unfold_of_leaf nonzero leaf] at regular
  cases levels : width - depth with
  | zero => exact le_antisymm onLevel.le (Nat.sub_eq_zero_iff_le.mp levels)
  | succ =>
      rw [levels] at regular
      exact regular.elim

theorem OnLevel.fork (onLevel : s.OnLevel canonical width depth id) (ordered : s.Ordered)
    (nonzero : s.isZero id = false) (found : (s.get id).branches = some (low, high)) :
    depth < width ∧ (s.unfold low ≠ .zero ∨ s.unfold high ≠ .zero) ∧
      s.OnLevel canonical width (depth + 1) low ∧ s.OnLevel canonical width (depth + 1) high ∧
      (canonical → Unfolding.Balanced (s.unfold low) (s.unfold high)) := by
  have regular := onLevel.regular
  rw [ordered.unfold_of_branches nonzero found] at regular
  cases levels : width - depth with
  | zero =>
      rw [levels] at regular
      exact regular.elim
  | succ levels' =>
      rw [levels] at regular
      obtain ⟨_, some, lowRegular, highRegular, balanced⟩ := regular
      have below : width - (depth + 1) = levels' := by omega
      exact ⟨by omega, some, ⟨by omega, below ▸ lowRegular⟩, ⟨by omega, below ▸ highRegular⟩,
        balanced⟩

theorem OnLevel.branches (onLevel : s.OnLevel canonical width depth id) (ordered : s.Ordered)
    (nonzero : s.isZero id = false) (found : (s.get id).branches = some (low, high)) :
    depth < width ∧ s.OnLevel canonical width (depth + 1) low ∧
      s.OnLevel canonical width (depth + 1) high := by
  obtain ⟨below, _, lowLevel, highLevel, _⟩ := onLevel.fork ordered nonzero found
  exact ⟨below, lowLevel, highLevel⟩

theorem Ordered.amplitude_of_branches (ordered : s.Ordered) (nonzero : s.isZero id = false)
    (found : (s.get id).branches = some (low, high)) (bits : Assignment) :
    (s.unfold id).amplitude depth bits = (s.get id).scale.toComplex *
      if bits depth then (s.unfold high).amplitude (depth + 1) bits
      else (s.unfold low).amplitude (depth + 1) bits := by
  rw [ordered.unfold_of_branches nonzero found, Unfolding.amplitude_fork]

theorem Exact.join_carries (exact : s.Exact) {state state' : Assignment → ℂ} (c : Amplitude ℝ)
    (highStored : high < s.size)
    (lowCarries : (s.unfold low).Carries canonical (depth + 1) width state)
    (highCarries : (s.unfold high).Carries canonical (depth + 1) width state') :
    s.Yields (s.join c low high) fun u => u.Carries canonical depth width fun bits =>
      c.toComplex * if bits depth then state' bits else state bits := by
  refine (exact.join c low highStored).mono fun u result => ?_
  rw [result]
  exact lowCarries.join highCarries c.toComplex

end Levels

/-! ## Walks that append to a store -/

def Offered (given : Option NodeId) (holds : Unfolding → Prop) (t : NodeStore ℝ) (id : NodeId) :
    Prop :=
  match given with
  | some known => id = known
  | none => id < t.size ∧ holds (t.unfold id)

/-- What the visits of a walk over `s` ensure that appends to a store which extends `base`. -/
structure Appends (s base : NodeStore ℝ) (visit : ℕ → NodeId → Visit (NodeStore ℝ) NodeId)
    (meets : ℕ → NodeId → Prop) (holds : ℕ → NodeId → Unfolding → Prop) : Prop where
  level_unique : ∀ {depth other id}, meets depth id → meets other id → s.isZero id = false →
    depth = other
  zero : ∀ {depth id}, meets depth id → s.isZero id = true → holds depth id .zero
  answer : ∀ {depth id result t}, meets depth id → s.isZero id = false →
    visit depth id = .answer result → base.Extends t → t.Exact →
    t.Yields (result t) (holds depth id)
  descend : ∀ {depth id given given' combine}, meets depth id → s.isZero id = false →
    visit depth id = .descend given given' combine →
    ∃ c, s.children id = some c ∧
      (given = none → meets (depth + 1) c.low) ∧ (given' = none → meets (depth + 1) c.high) ∧
      ∀ {t low high}, base.Extends t → t.Exact →
        Offered given (holds (depth + 1) c.low) t low →
        Offered given' (holds (depth + 1) c.high) t high →
        t.Yields (combine low high t) (holds depth id)

variable {s base t : NodeStore ℝ} {visit : ℕ → NodeId → Visit (NodeStore ℝ) NodeId}
  {meets : ℕ → NodeId → Prop} {holds : ℕ → NodeId → Unfolding → Prop}

theorem Offered.of_supplied {given : Option NodeId} {p : Unfolding → Prop} {before after : NodeStore ℝ}
    {id : NodeId}
    (supplied : Supplied given (fun t v t' => t.Yields (v, t') p) before id after) :
    before.Extends after ∧ Offered given p after id := by
  cases given with
  | some known =>
      obtain ⟨same, rfl⟩ := supplied
      exact ⟨.refl _, same⟩
  | none => exact ⟨supplied.growth, supplied.stored, supplied.holds⟩

theorem Offered.mono {given : Option NodeId} {p : Unfolding → Prop} {before after : NodeStore ℝ}
    {id : NodeId} (offered : Offered given p before id) (growth : before.Extends after) :
    Offered given p after id := by
  cases given with
  | some known => exact offered
  | none =>
      refine ⟨offered.1.trans_le growth.size_le, ?_⟩
      rw [growth.unfold_eq offered.1]
      exact offered.2

theorem Appends.contract (appends : Appends s base visit meets holds) :
    s.Contract 0 visit meets (fun t => base.Extends t ∧ t.Exact) Extends
      (fun depth id t v t' => t.Yields (v, t') (holds depth id))
      (fun id v t => v < t.size ∧ (t.isZero v = true → v = 0) ∧
        ∃ depth, meets depth id ∧ holds depth id (t.unfold v)) where
  zero met empty before := .of_zero before.2 (appends.zero met empty)
  answer met nonzero visited before :=
    have yields := appends.answer met nonzero visited before.1 before.2
    ⟨yields.growth, yields⟩
  descend met nonzero visited := by
    obtain ⟨c, children, lowMet, highMet, ensures⟩ := appends.descend met nonzero visited
    refine ⟨c, children, lowMet, highMet, fun _ _ valid lowSupplied highSupplied => ?_⟩
    obtain ⟨lowGrowth, lowOffered⟩ := Offered.of_supplied lowSupplied
    obtain ⟨highGrowth, highOffered⟩ := Offered.of_supplied highSupplied
    have yields := ensures valid.1 valid.2 (lowOffered.mono highGrowth) highOffered
    exact ⟨yields.growth, yields.after (lowGrowth.trans highGrowth)⟩
  valid_after before yields := ⟨before.1.trans yields.growth, yields.exact⟩
  record met _ yields := ⟨yields.stored, yields.clean, _, met, yields.holds⟩
  keep _ growth done := by
    obtain ⟨stored, clean, depth, met, found⟩ := done
    refine ⟨stored.trans_le growth.size_le, ?_, depth, met, ?_⟩
    · rwa [growth.isZero_eq stored]
    · rwa [growth.unfold_eq stored]
  reuse met nonzero before done := by
    obtain ⟨stored, clean, depth, again, found⟩ := done
    obtain rfl := appends.level_unique met again nonzero
    exact ⟨.refl _, before.2, stored, clean, found⟩

/-- A walk that appends to a store returns a node with the property its visits ensure. -/
theorem Appends.walkFrom (appends : Appends s base visit meets holds) {depth : ℕ} {id : NodeId}
    (met : meets depth id) (growth : base.Extends t) (exact : t.Exact) :
    t.Yields (s.walkFrom 0 visit depth id t) (holds depth id) :=
  appends.contract.walkFrom met t ⟨growth, exact⟩

end AmplitudeTree.NodeStore
