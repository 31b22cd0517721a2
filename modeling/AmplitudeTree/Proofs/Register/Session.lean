import AmplitudeTree.Proofs.Register.Alike.Exchange
import AmplitudeTree.Proofs.Register.Alike.Measure
import AmplitudeTree.Proofs.Register.Alike.Resize
import AmplitudeTree.Proofs.Register.Reachable

/-!
# Sessions of register calls

A session holds the registers that calls have made so far.  Gates that wait may be settled between
any two calls: every call still gives the same answer, also where it draws random numbers, and
leaves states that differ by a global phase only.  Each call keeps the sessions alike, and so do all
calls one after the other.
-/

namespace AmplitudeTree

open AmplitudeTree.Action

/-! ## Calls -/

inductive Exchange where
  | swap
  | iSwap
  | iSwapInverse
  | sqrtSwap (controls : List ℕ)
  | sqrtSwapInverse (controls : List ℕ)
  | controlledSwap (controls : List ℕ)
  | fermionic (mixing phase : ℝ)

inductive Request where
  | gate (controls : List ℕ) (value : Bool) (matrix : Gate ℝ) (target : ℕ)
  | exchange (kind : Exchange) (first second : ℕ)
  | prob (qubit : ℕ)
  | measureQubit (qubit : ℕ) (forced : Option Bool) (collapse : Bool)
  | measureAll
  | allocate (start length : ℕ)
  | dispose (range : QubitRange)
  | disposeAt (range : QubitRange) (value : BasisIndex)

inductive Call where
  | on (place : ℕ) (request : Request)
  | compose (place partner start : ℕ)
  | decompose (place : ℕ) (range : QubitRange)
  | decomposeInto (place partner start : ℕ)

inductive Answer where
  | done
  | probability (value : ℝ)
  | outcome (value : Bool)
  | index (value : BasisIndex)
  | position (start : ℕ)

noncomputable def Exchange.action (first second : ℕ) : Exchange → Action ℝ Unit
  | swap => Register.swap first second
  | iSwap => Register.iSwap first second
  | iSwapInverse => Register.iSwapInverse first second
  | sqrtSwap controls => Register.sqrtSwap controls first second
  | sqrtSwapInverse controls => Register.sqrtSwapInverse controls first second
  | controlledSwap controls => Register.controlledSwap controls first second
  | fermionic mixing phase => Register.fermionic mixing phase first second

namespace Request

noncomputable def action : Request → Action ℝ Answer
  | gate controls value matrix target => do
      Register.applyWhere controls value matrix target
      return .done
  | exchange kind first second => do
      kind.action first second
      return .done
  | prob qubit => return .probability (← Register.prob qubit)
  | measureQubit qubit forced collapse =>
      return .outcome (← Register.measureQubit qubit forced collapse)
  | measureAll => return .index (← Register.measureAll)
  | allocate start length => return .position (← Register.allocate start length)
  | dispose range => do
      Register.dispose range
      return .done
  | disposeAt range value => do
      Register.disposeAt range value
      return .done

def Unitary : Request → Prop
  | gate _ _ matrix _ => matrix.IsUnitary
  | _ => True

end Request

def Call.Unitary : Call → Prop
  | on _ request => request.Unitary
  | _ => True

/-! ## Sessions -/

abbrev Session := List (Register ℝ)

namespace Session

def pair? (session : Session) (place partner : ℕ) : Option (Register ℝ × Register ℝ) :=
  if place = partner then none
  else session[place]?.bind fun reg => session[partner]?.map fun other => (reg, other)

/-- The answer of a call and the session after it; none if a register is missing or named twice. -/
noncomputable def call (session : Session) :
    Call → Option (Except (RegisterError ℝ) Answer) × Session
  | .on place request =>
      match session[place]? with
      | some reg =>
          let (answer, left) := request.action.runOn reg
          (some answer, session.set place left)
      | none => (none, session)
  | .compose place partner start =>
      match session.pair? place partner with
      | some (reg, other) =>
          let (answer, left) := (Register.compose other start).runOn reg
          (some (answer.map .position), session.set place left)
      | none => (none, session)
  | .decompose place range =>
      match session[place]? with
      | some reg =>
          match (Register.decompose range).runOn reg with
          | (.ok part, left) => (some (.ok .done), session.set place left ++ [part])
          | (.error e, left) => (some (.error e), session.set place left)
      | none => (none, session)
  | .decomposeInto place partner start =>
      match session.pair? place partner with
      | some (reg, other) =>
          match (Register.decomposeInto start other).runOn reg with
          | (.ok part, left) => (some (.ok .done), (session.set place left).set partner part)
          | (.error e, left) => (some (.error e), session.set place left)
      | none => (none, session)

noncomputable def settle (chosen : ℕ → Bool) (session : Session) : Session :=
  session.mapIdx fun place reg => if chosen place then reg.settleAll else reg

/-- The answers of calls, each with the session after it; `before` acts on the
session before each call. -/
noncomputable def trace (before : ℕ → Session → Session) :
    List Call → Session → List (Option (Except (RegisterError ℝ) Answer) × Session)
  | [], _ => []
  | call :: calls, session =>
      let result := (before 0 session).call call
      result :: trace (fun number => before (number + 1)) calls result.2

end Session

namespace Register

/-- A register of some norm that calls with unitary gates lead to. -/
structure Ready (reg : Register ℝ) : Prop where
  reachable : reg.Reachable
  unitary : reg.pending.Unitary
  normSq_pos : 0 < reg.normSq

theorem Ready.of_create {width : ℕ} {index : BasisIndex} {config : Config ℝ} {entropy : UInt64}
    {reg : Register ℝ} (exact : config.separability = 0)
    (made : create width index config entropy = .ok reg) : reg.Ready := by
  obtain ⟨sound, unitary, -, state⟩ := sound_of_create made exact
  refine ⟨.create exact made, unitary, sound.normSq_pos (show reg.state index.testBit ≠ 0 from ?_)⟩
  rw [state, Tree.basisState, if_pos fun _ _ _ => rfl]
  exact one_ne_zero

theorem Ready.physical {reg : Register ℝ} (ready : reg.Ready) : reg.Physical := by
  have sound := ready.reachable.sound
  exact sound.physical ready.unitary (sound.tree.normSq_pos_iff.mp ready.normSq_pos)

theorem Ready.gate {reg : Register ℝ} (ready : reg.Ready) {gate : Gate ℝ}
    (unitary : gate.IsUnitary) (controls : List ℕ) (value : Bool) (target : ℕ) :
    Ready ((applyWhere controls value gate target).runOn reg).2 := by
  have physical := (ready.physical.alike.applyWhere unitary controls value target).alike.physical
  exact ⟨ready.reachable.gate controls value gate target, physical.unitary,
    physical.tree.normSq_pos_iff.mpr physical.nonzero⟩

/-- Registers of one width and generator whose amplitudes, after all waiting gates, differ by a
global phase. -/
structure SamePhase (reg other : Register ℝ) : Prop where
  width : other.width = reg.width
  generator : other.generator = reg.generator
  represented : ∃ phase : Amplitude ℝ, phase.normSq = 1 ∧
    ∀ index, other.represented index = phase * reg.represented index

theorem Alike.samePhase {reg other : Register ℝ} (alike : Alike reg other) :
    reg.SamePhase other :=
  ⟨alike.width, alike.generator, alike.represented⟩

/-! ## Alike registers in sessions -/

theorem Respects.request {request : Request} (unitary : request.Unitary) :
    Respects request.action := by
  cases request with
  | gate controls value matrix target =>
      exact (Respects.applyWhere unitary controls value target).bind fun _ => Respects.pure _
  | exchange kind first second =>
      refine Respects.bind ?_ fun _ => Respects.pure _
      cases kind with
      | swap => exact Respects.swap first second
      | iSwap => exact Respects.iSwap first second
      | iSwapInverse => exact Respects.iSwapInverse first second
      | sqrtSwap controls =>
          exact Respects.onUnequal Gate.sqrtX_isUnitary controls first second
      | sqrtSwapInverse controls =>
          exact Respects.onUnequal Gate.sqrtXInverse_isUnitary controls first second
      | controlledSwap controls => exact Respects.controlledSwap controls first second
      | fermionic mixing phase => exact Respects.fermionic mixing phase first second
  | prob qubit =>
      have respects : Respects (prob qubit) := fun _ _ alike => alike.prob qubit
      exact respects.bind fun _ => Respects.pure _
  | measureQubit qubit forced collapse =>
      have respects : Respects (measureQubit qubit forced collapse) :=
        fun _ _ alike => alike.measureQubit qubit forced collapse
      exact respects.bind fun _ => Respects.pure _
  | measureAll =>
      have respects : Respects measureAll := fun _ _ alike => alike.measureAll
      exact respects.bind fun _ => Respects.pure _
  | allocate start length =>
      have respects : Respects (allocate start length) :=
        fun _ _ alike => alike.allocate start length
      exact respects.bind fun _ => Respects.pure _
  | dispose range =>
      have respects : Respects (dispose range) := fun _ _ alike => alike.dispose range
      exact respects.bind fun _ => Respects.pure _
  | disposeAt range value =>
      have respects : Respects (disposeAt range value) :=
        fun _ _ alike => alike.disposeAt range value
      exact respects.bind fun _ => Respects.pure _

end Register

namespace Session

open Register (SamePhase)

variable {session other : Session}

abbrev Alike (session other : Session) : Prop := List.Forall₂ Register.Alike session other

theorem Alike.getElem? (alike : Alike session other) (place : ℕ) :
    Option.Rel Register.Alike session[place]? other[place]? := by
  induction alike generalizing place with
  | nil => exact .none
  | cons first rest ih =>
      cases place with
      | zero => exact .some first
      | succ place => exact ih place

theorem Alike.set (alike : Alike session other) {reg reg' : Register ℝ}
    (registers : Register.Alike reg reg') (place : ℕ) :
    Alike (session.set place reg) (other.set place reg') := by
  induction alike generalizing place with
  | nil => exact .nil
  | cons first rest ih =>
      cases place with
      | zero => exact .cons registers rest
      | succ place => exact .cons first (ih place)

theorem Alike.pair? (alike : Alike session other) (place partner : ℕ) :
    Option.Rel
      (fun first second => Register.Alike first.1 second.1 ∧ Register.Alike first.2 second.2)
      (session.pair? place partner) (other.pair? place partner) := by
  unfold Session.pair?
  split
  · exact .none
  · have first := alike.getElem? place
    have second := alike.getElem? partner
    generalize session[place]? = a, other[place]? = a', session[partner]? = b,
      other[partner]? = b' at *
    cases first with
    | none => exact .none
    | some registers =>
        cases second with
        | none => exact .none
        | some partners => exact .some ⟨registers, partners⟩

/-- Settling any gates of one of two alike sessions leaves them alike. -/
theorem Alike.settle (alike : Alike session other) (chosen : ℕ → Bool) :
    Alike session (other.settle chosen) := by
  induction alike generalizing chosen with
  | nil => exact .nil
  | cons first rest ih =>
      rw [Session.settle, List.mapIdx_cons]
      refine .cons ?_ (ih fun place => chosen (place + 1))
      split
      · exact first.settleAll
      · exact first

structure Agree (result result' : Option (Except (RegisterError ℝ) Answer) × Session) : Prop where
  answer : result'.1 = result.1
  alike : Alike result.2 result'.2

/-- A request with a unitary gate, if it has one, agrees in alike sessions. -/
theorem Alike.request (alike : Alike session other) {request : Request}
    (unitary : request.Unitary) (place : ℕ) :
    Agree (session.call (.on place request)) (other.call (.on place request)) := by
  have found := alike.getElem? place
  unfold Session.call
  dsimp only
  generalize session[place]? = reg?, other[place]? = reg?' at found
  cases found with
  | none => exact ⟨rfl, alike⟩
  | @some reg reg' registers =>
      obtain ⟨answer, left⟩ := Register.Respects.request unitary reg reg' registers
      exact ⟨congrArg some answer, alike.set left place⟩

theorem Alike.compose (alike : Alike session other) (place partner start : ℕ) :
    Agree (session.call (.compose place partner start))
      (other.call (.compose place partner start)) := by
  have found := alike.pair? place partner
  unfold Session.call
  dsimp only
  generalize session.pair? place partner = pair, other.pair? place partner = pair' at found
  cases found with
  | none => exact ⟨rfl, alike⟩
  | @some pair pair' registers =>
      obtain ⟨answer, left⟩ := registers.1.compose registers.2 start
      exact ⟨congrArg (fun answer => some (answer.map Answer.position)) answer,
        alike.set left place⟩

theorem Alike.decompose (alike : Alike session other) (place : ℕ) (range : QubitRange) :
    Agree (session.call (.decompose place range)) (other.call (.decompose place range)) := by
  have found := alike.getElem? place
  unfold Session.call
  dsimp only
  generalize session[place]? = reg?, other[place]? = reg?' at found
  cases found with
  | none => exact ⟨rfl, alike⟩
  | @some reg reg' registers =>
      have parted := registers.decompose range
      dsimp only
      generalize (Register.decompose range).runOn reg = run,
        (Register.decompose range).runOn reg' = run' at parted
      cases parted with
      | returned part left =>
          exact ⟨rfl, List.rel_append (alike.set left place) (.cons part .nil)⟩
      | failed left => exact ⟨rfl, alike.set left place⟩

theorem Alike.decomposeInto (alike : Alike session other) (place partner start : ℕ) :
    Agree (session.call (.decomposeInto place partner start))
      (other.call (.decomposeInto place partner start)) := by
  have found := alike.pair? place partner
  unfold Session.call
  dsimp only
  generalize session.pair? place partner = pair, other.pair? place partner = pair' at found
  cases found with
  | none => exact ⟨rfl, alike⟩
  | @some pair pair' registers =>
      have parted := registers.1.decomposeInto registers.2 start
      dsimp only
      generalize (Register.decomposeInto start pair.2).runOn pair.1 = run,
        (Register.decomposeInto start pair'.2).runOn pair'.1 = run' at parted
      cases parted with
      | returned part left => exact ⟨rfl, (alike.set left place).set part partner⟩
      | failed left => exact ⟨rfl, alike.set left place⟩

/-- Every call with a unitary gate, if it has one, agrees in alike sessions. -/
theorem Alike.call (alike : Alike session other) {call : Call} (unitary : call.Unitary) :
    Agree (session.call call) (other.call call) := by
  cases call with
  | on place request => exact alike.request unitary place
  | compose place partner start => exact alike.compose place partner start
  | decompose place range => exact alike.decompose place range
  | decomposeInto place partner start => exact alike.decomposeInto place partner start

/-! ## Runs -/

/-- Two calls that give one answer and leave states that differ by a global phase. -/
structure SameOutcome (result other : Option (Except (RegisterError ℝ) Answer) × Session) :
    Prop where
  answer : other.1 = result.1
  states : List.Forall₂ SamePhase result.2 other.2

theorem Alike.trace (alike : Alike session other) {calls : List Call}
    (unitary : ∀ call ∈ calls, call.Unitary) (chosen : ℕ → ℕ → Bool) :
    List.Forall₂ SameOutcome (Session.trace (fun _ => id) calls session)
      (Session.trace (fun number => Session.settle (chosen number)) calls other) := by
  induction calls generalizing session other chosen with
  | nil => exact .nil
  | cons call calls ih =>
      obtain ⟨answer, left⟩ := (alike.settle (chosen 0)).call (unitary call List.mem_cons_self)
      refine .cons ⟨answer, left.imp fun _ _ registers => registers.samePhase⟩ ?_
      exact ih left (fun call member => unitary call (List.mem_cons_of_mem _ member))
        fun number => chosen (number + 1)

/-- Waiting gates are not observable: if any of them are settled before each call, every call gives
the same answer and leaves the same states up to global phases. -/
theorem settled_trace_sameOutcome {session : Session} (ready : ∀ reg ∈ session, reg.Ready)
    {calls : List Call} (unitary : ∀ call ∈ calls, call.Unitary) (chosen : ℕ → ℕ → Bool) :
    List.Forall₂ SameOutcome (trace (fun _ => id) calls session)
      (trace (fun number => settle (chosen number)) calls session) :=
  have alike : Alike session session :=
    List.forall₂_same.mpr fun reg member => (ready reg member).physical.alike
  alike.trace unitary chosen

/-- One qubit of a pair is measured, the other one split off, negated and put back, with all gates
settled before each call. -/
theorem settled_trace_split_pair :
    ∃ reg : Register ℝ, Register.create 2 0 Register.exactConfig 0 = .ok reg ∧
      let calls : List Call :=
        [.on 0 (.gate [] true .hadamard 0), .on 0 (.measureQubit 0 none true),
          .decompose 0 ⟨1, 1⟩, .on 1 (.gate [] true .pauliX 0), .compose 0 1 0]
      List.Forall₂ SameOutcome (trace (fun _ => id) calls [reg])
        (trace (fun _ => settle fun _ => true) calls [reg]) := by
  obtain ⟨reg, made⟩ : ∃ reg, Register.create 2 0 Register.exactConfig 0 = .ok reg :=
    Register.exists_create Register.validate_exactConfig (by decide) rfl 0
  have ready : ∀ member ∈ [reg], member.Ready := by
    intro member found
    obtain rfl := List.mem_singleton.mp found
    exact .of_create rfl made
  refine ⟨reg, made, settled_trace_sameOutcome ready ?_ fun _ _ => true⟩
  intro call found
  fin_cases found
  · exact Gate.hadamard_isUnitary
  · trivial
  · trivial
  · exact Gate.pauliX_isUnitary
  · trivial

end Session

end AmplitudeTree
