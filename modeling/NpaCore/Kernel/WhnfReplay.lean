import NpaCore.Kernel.MemoReplay

/-!
# The machine with a memo

`whnfMachine` does what the reduction without fuel and memo does, and leaves the
fuel that the cost of the reduction leaves, whatever the memo answers.

The invariant of the machine is that every call it has begun has come, from its
own start and at the cost measured since, to the present control under the frames
above it. So when the call completes, what is stored for it is right.
-/

namespace NpaCore.Kernel

open NpaCore.Expr

/-! ### The calls of the machine -/

def WhnfMachineFrame.caller : WhnfMachineFrame → WhnfActiveCall
  | .apply caller _ => caller
  | .recursorMajor caller _ _ _ => caller

def WhnfMachineFrame.erase : WhnfMachineFrame → ReductionFrame
  | .apply _ argument => .apply argument
  | .recursorMajor _ application inductiveName rules =>
    .recursorMajor application inductiveName rules

def WhnfMachineControl.erase : WhnfMachineControl → ReductionControl
  | .reduce _ current => .reduce current
  | .complete _ value => .complete value
  | .resume value => .resume value

def eraseState (control : WhnfMachineControl) (frames : List WhnfMachineFrame) : ReductionState :=
  ⟨control.erase, frames.map WhnfMachineFrame.erase⟩

section Calls

variable (env : Env) (ctx : Ctx)

/-- If the call is to be stored, it has come from its term to the state, at the cost that the
    fuel shows. -/
def CallCovers (fuel : Nat) (call : WhnfActiveCall) (state : ReductionState) : Prop :=
  ∀ key, call.memoToken = some key → key.context = ctx ∧ fuel ≤ call.startingFuel ∧
    (reductionMachine env ctx).Reaches ⟨.reduce key.expr, []⟩ (call.startingFuel - fuel) state

/-- Each waiting call has come to the present control, under the frames above it and its own. -/
def FramesCover (fuel : Nat) (control : ReductionControl) (above : List ReductionFrame) :
    List WhnfMachineFrame → Prop
  | [] => True
  | frame :: rest =>
    CallCovers env ctx fuel frame.caller ⟨control, above ++ [frame.erase]⟩ ∧
      FramesCover fuel control (above ++ [frame.erase]) rest

/-- The call and the waiting ones have come to the state. -/
def Covers (fuel : Nat) (call : WhnfActiveCall) (state : ReductionState)
    (frames : List WhnfMachineFrame) : Prop :=
  CallCovers env ctx fuel call state ∧ FramesCover env ctx fuel state.control state.frames frames

def ControlCovers (fuel : Nat) (control : WhnfMachineControl) (frames : List WhnfMachineFrame) :
    Prop :=
  match control with
  | .reduce call current => Covers env ctx fuel call ⟨.reduce current, []⟩ frames
  | .complete call value => Covers env ctx fuel call ⟨.complete value, []⟩ frames
  | .resume value => FramesCover env ctx fuel (.resume value) [] frames

variable {env ctx} {fuel left k : Nat} {call : WhnfActiveCall} {s t : ReductionState}
  {frames : List WhnfMachineFrame}

theorem CallCovers.advance (h : CallCovers env ctx fuel call s)
    (way : (reductionMachine env ctx).Reaches s k t) (supply : fuel = k + left) :
    CallCovers env ctx left call t := by
  intro key hkey
  obtain ⟨same, began, before⟩ := h key hkey
  refine ⟨same, by omega, ?_⟩
  have cost : call.startingFuel - left = call.startingFuel - fuel + k := by omega
  rw [cost]
  exact before.trans way

theorem FramesCover.advance {control control' : ReductionControl}
    {above above' : List ReductionFrame}
    (h : FramesCover env ctx fuel control above frames)
    (way : (reductionMachine env ctx).Reaches ⟨control, above⟩ k ⟨control', above'⟩)
    (supply : fuel = k + left) : FramesCover env ctx left control' above' frames := by
  induction frames generalizing above above' with
  | nil => trivial
  | cons frame rest ih =>
    have longer := reaches_over [frame.erase] way
    exact ⟨h.1.advance longer supply, ih h.2 longer⟩

theorem Covers.advance (h : Covers env ctx fuel call s frames)
    (way : (reductionMachine env ctx).Reaches s k t) (supply : fuel = k + left) :
    Covers env ctx left call t frames :=
  ⟨h.1.advance way supply, h.2.advance way supply⟩

/-- A bound on the turns that are left: a reduction turn is paid for with one unit of fuel,
    and a frame is popped in at most three turns. -/
def turnsLeft (fuel : Nat) (control : WhnfMachineControl) (frames : List WhnfMachineFrame) : Nat :=
  let controlTurns := match control with
    | .complete _ _ => 1
    | _ => 0
  let frameTurns := frames.map fun
    | .apply _ _ => 3
    | .recursorMajor _ _ _ _ => 2
  5 * fuel + frameTurns.sum + controlTurns

variable (env ctx) in
/-- What a turn does: it ends the run, or it leads to a state with fewer turns left. -/
inductive TurnSpends (kind : ResourceLimitKind) (control : WhnfMachineControl)
    (frames : List WhnfMachineFrame) : Spending Error WhnfTurn
  | failed {fuel e left}
      (h : (reductionMachine env ctx).Finishes (.resourceLimit kind) (eraseState control frames)
        fuel (.error e) left) : TurnSpends kind control frames fuel (.error e) left
  | done {fuel value left}
      (h : (reductionMachine env ctx).Finishes (.resourceLimit kind) (eraseState control frames)
        fuel (.ok value) left) : TurnSpends kind control frames fuel (.ok (.done value)) left
  | next {fuel left k control' frames'}
      (way : (reductionMachine env ctx).Reaches (eraseState control frames) k
        (eraseState control' frames'))
      (supply : fuel = k + left) (covers : ControlCovers env ctx left control' frames')
      (fewer : turnsLeft left control' frames' < turnsLeft fuel control frames) :
      TurnSpends kind control frames fuel (.ok (.next control' frames')) left

end Calls

section Turns

variable {env : Env} {layout : Layout} {ctx : Ctx} {delta : List String}
  {kind : ResourceLimitKind} {pre : Nat → Prop}

/-- How a call begins: with its body, with a result that is paid for, or without the fuel
    that the result costs. -/
inductive BeginSpends (env : Env) (ctx : Ctx) (kind : ResourceLimitKind) (term : Expr) :
    Spending Error WhnfMachineControl
  | body {fuel call} (h : CallCovers env ctx fuel call ⟨.reduce term, []⟩) :
      BeginSpends env ctx kind term fuel (.ok (.reduce call term)) fuel
  | hit {left cost value} (h : ReducesTo env ctx term cost value) :
      BeginSpends env ctx kind term (cost + left) (.ok (.resume value)) left
  | short {fuel cost value} (h : ReducesTo env ctx term cost value) (short : fuel < cost) :
      BeginSpends env ctx kind term fuel (.error (.resourceLimit kind)) 0

theorem beginCall_realises (origin : MemoExprOrigin) (term : Expr) :
    Realises env kind pre (beginCall layout ctx delta kind origin term)
      (BeginSpends env ctx kind term) := by
  refine realises_free_bind (whnfLookup_realises layout origin _) ?_
  intro found hit
  cases found with
  | hit entry =>
    have stored : ReducesTo env ctx term entry.fuelCost entry.result := hit entry rfl
    refine (realises_bind (replayMemoFuel_realises _) fun _ => realises_pure _).mono
      (fun _ h => h) ?_
    rintro fuel r left _ (⟨e, replayed, rfl⟩ | ⟨_, middle, replayed, rfl, rfl⟩)
    · rcases replayed with ⟨short, failed, rfl⟩ | ⟨_, failed⟩
      · cases failed
        exact .short stored short
      · cases failed
    · rcases replayed with ⟨_, failed, _⟩ | ⟨rfl, _⟩
      · cases failed
      · rw [Nat.add_comm]
        exact .hit stored
  | miss =>
    refine realises_get fun session => (realises_pure _).mono (fun _ h => h) ?_
    rintro fuel r left ⟨_, rfl⟩ ⟨rfl, rfl⟩
    refine .body ?_
    rintro key ⟨⟩
    refine ⟨rfl, Nat.le_refl _, ?_⟩
    rw [Nat.sub_self]
    exact .refl _
  | ineligible =>
    refine realises_get fun session => (realises_pure _).mono (fun _ h => h) ?_
    rintro fuel r left ⟨_, rfl⟩ ⟨rfl, rfl⟩
    exact .body fun _ h => nomatch h

variable {control : WhnfMachineControl}

/-- The reduced state that a call begun over a frame comes to. -/
theorem BeginSpends.way {term : Expr} {fuel left : Nat}
    (h : BeginSpends env ctx kind term fuel (.ok control) left) (below : List ReductionFrame) :
    ∃ k, (reductionMachine env ctx).Reaches ⟨.reduce term, below⟩ k ⟨control.erase, below⟩ ∧
      fuel = k + left := by
  cases h with
  | body => exact ⟨0, .refl _, by omega⟩
  | hit stored => exact ⟨_, stored.over below, rfl⟩

theorem BeginSpends.failed {term : Expr} {e : Error} {fuel left : Nat}
    (h : BeginSpends env ctx kind term fuel (.error e) left) (below : List ReductionFrame) :
    (reductionMachine env ctx).Finishes (.resourceLimit kind) ⟨.reduce term, below⟩ fuel
      (.error e) left := by
  cases h with
  | short stored short => exact (stored.over below).exhausted short

/-- The call that is begun has come to its own start, and the others to its control. -/
theorem BeginSpends.covers {term : Expr} {fuel left : Nat}
    (h : BeginSpends env ctx kind term fuel (.ok control) left) {call : WhnfActiveCall}
    {frame : WhnfMachineFrame} {frames : List WhnfMachineFrame} (own : frame.caller = call)
    (before : Covers env ctx fuel call ⟨.reduce term, [frame.erase]⟩ frames) :
    ControlCovers env ctx left control (frame :: frames) := by
  subst own
  cases h with
  | body began => exact ⟨began, before⟩
  | hit stored => exact before.advance (stored.over [frame.erase]) rfl

theorem BeginSpends.turnsLeft_le {term : Expr} {fuel left : Nat}
    (h : BeginSpends env ctx kind term fuel (.ok control) left) (frames : List WhnfMachineFrame) :
    turnsLeft left control frames ≤ 5 * fuel + turnsLeft 0 (.resume term) frames := by
  cases h with
  | body => simp [turnsLeft]
  | hit =>
    simp only [turnsLeft]
    omega

/-- Where the machine stands, seen from a call: in `local`, over the frames below it. -/
structure StandsAt (env : Env) (ctx : Ctx) (control : WhnfMachineControl)
    (frames : List WhnfMachineFrame) (fuel : Nat) (call : WhnfActiveCall) (here : ReductionState)
    (below : List WhnfMachineFrame) : Prop where
  state : eraseState control frames = here.over (below.map WhnfMachineFrame.erase)
  covers : Covers env ctx fuel call here below

section Stands

variable {control control' : WhnfMachineControl} {frames below : List WhnfMachineFrame}
  {fuel left k : Nat} {call : WhnfActiveCall} {here : ReductionState}

theorem StandsAt.way (stands : StandsAt env ctx control frames fuel call here below)
    {there : ReductionState} (way : (reductionMachine env ctx).Reaches here k there) :
    (reductionMachine env ctx).Reaches (eraseState control frames) k
      (there.over (below.map WhnfMachineFrame.erase)) := by
  rw [stands.state]
  exact reaches_over _ way

/-- The turn stays with the call. -/
theorem StandsAt.stay (stands : StandsAt env ctx control frames fuel call here below)
    (way : (reductionMachine env ctx).Reaches here k ⟨control'.erase, []⟩)
    (supply : fuel = k + left)
    (owned : Covers env ctx left call ⟨control'.erase, []⟩ below →
      ControlCovers env ctx left control' below)
    (fewer : turnsLeft left control' below < turnsLeft fuel control frames) :
    TurnSpends env ctx kind control frames fuel (.ok (.next control' below)) left :=
  .next (stands.way way) supply (owned (stands.covers.advance way supply)) fewer

/-- The turn begins a call over a new frame. -/
theorem StandsAt.push (stands : StandsAt env ctx control frames fuel call here below)
    {term : Expr} {frame : WhnfMachineFrame} (own : frame.caller = call)
    (way : (reductionMachine env ctx).Reaches here k ⟨.reduce term, [frame.erase]⟩)
    {middle : Nat} (supply : fuel = k + middle)
    (fewer : 5 * middle + turnsLeft 0 (.resume term) (frame :: below) <
      turnsLeft fuel control frames)
    {r : Result WhnfTurn}
    (began : ((BeginSpends env ctx kind term).bind fun child =>
      .done (.ok (.next child (frame :: below)))) middle r left) :
    TurnSpends env ctx kind control frames fuel r left := by
  have start := stands.way way
  rcases began with ⟨e, failed, rfl⟩ | ⟨child, rest, begun, rfl, rfl⟩
  · have finished := start.finishes (failed.failed (frame.erase :: below.map WhnfMachineFrame.erase))
    rw [← supply] at finished
    exact .failed finished
  · obtain ⟨k', way', supply'⟩ := begun.way (frame.erase :: below.map WhnfMachineFrame.erase)
    refine .next (start.trans way') (by omega)
      (begun.covers own (stands.covers.advance way supply)) ?_
    exact Nat.lt_of_le_of_lt (begun.turnsLeft_le _) fewer

end Stands

variable {call : WhnfActiveCall} {frames : List WhnfMachineFrame}

/-- The cost of the step from a control. -/
theorem cost_reduce (current : Expr) (below : List ReductionFrame) :
    (reductionMachine env ctx).cost ⟨.reduce current, below⟩ = 1 := rfl

theorem cost_resume (value : Expr) (below : List ReductionFrame) :
    (reductionMachine env ctx).cost ⟨.resume value, below⟩ = 0 := rfl

theorem reduceTurn_realises (current : Expr) :
    Realises env kind (fun fuel => Covers env ctx fuel call ⟨.reduce current, []⟩ frames)
      (reduceTurn env layout ctx delta kind call current frames)
      (TurnSpends env ctx kind (.reduce call current) frames) := by
  have stands : ∀ fuel, Covers env ctx fuel call ⟨.reduce current, []⟩ frames →
      StandsAt env ctx (.reduce call current) frames fuel call ⟨.reduce current, []⟩ frames :=
    fun fuel covers => ⟨rfl, covers⟩
  -- the turns that end the call with the term itself
  have complete : reductionMove env ctx ⟨.reduce current, []⟩ = .next ⟨.complete current, []⟩ →
      ∀ middle, Covers env ctx (middle + 1) call ⟨.reduce current, []⟩ frames →
        TurnSpends env ctx kind (.reduce call current) frames (middle + 1)
          (.ok (.next (.complete call current) frames)) middle := by
    intro move middle covers
    refine (stands _ covers).stay (Machine.Reaches.single move) ?_ (fun owned => owned) ?_
    · rw [cost_reduce, Nat.add_comm]
    · simp only [turnsLeft]
      omega
  refine realises_spend ?_ fun _ => .failed (.exhausted rfl)
  cases current with
  | bvar index =>
    refine realises_lift_bind ?_ ?_
    · intro e left unbound _
      refine .failed ?_
      have move : (reductionMachine env ctx).move
          (eraseState (.reduce call (.bvar index)) frames) = .fail e := by
        show nextOrFail (ctx.ensureBound index) _ = _
        rw [unbound]
        rfl
      have supply : left + 1 = 1 + left := Nat.add_comm _ _
      rw [supply]
      exact .fail move
    · intro u bound
      refine realises_value fun middle covers => complete ?_ _ covers
      show nextOrFail (ctx.ensureBound index) _ = _
      rw [bound]
      rfl
  | const name levels =>
    dsimp only
    split
    next value unfolds =>
      refine realises_value fun middle covers => ?_
      have move : reductionMove env ctx ⟨.reduce (.const name levels), []⟩ =
          .next ⟨.reduce value, []⟩ := by
        simp only [reductionMove, reduceMove, unfolds]
      refine (stands _ covers).stay (Machine.Reaches.single move) ?_ (fun owned => owned) ?_
      · rw [cost_reduce, Nat.add_comm]
      · simp only [turnsLeft]
        omega
    next stuck =>
      refine realises_value fun middle covers => complete ?_ _ covers
      simp only [reductionMove, reduceMove, stuck]
  | app fn argument =>
    refine (realises_bind (beginCall_realises .retained fn) fun _ => realises_pure _).mono
      (fun _ h => h) ?_
    rintro middle r left covers began
    have move : reductionMove env ctx ⟨.reduce (.app fn argument), []⟩ =
        .next ⟨.reduce fn, [.apply argument]⟩ := rfl
    have frame : (WhnfMachineFrame.apply call argument).caller = call := rfl
    refine (stands _ covers).push frame (Machine.Reaches.single move) ?_ ?_ began
    · rw [cost_reduce, Nat.add_comm]
    · simp only [turnsLeft, List.map_cons, List.sum_cons]
      omega
  | sort _ | lam _ _ _ | pi _ _ _ =>
    exact realises_value fun middle covers => complete rfl _ covers

section Resume

variable {value : Expr} {frame : WhnfMachineFrame} {fuel : Nat}

theorem standsAt_resume
    (covers : FramesCover env ctx fuel (.resume value) [] (frame :: frames)) :
    StandsAt env ctx (.resume value) (frame :: frames) fuel frame.caller
      ⟨.resume value, [frame.erase]⟩ frames :=
  ⟨rfl, covers⟩

theorem resumed_fails {e : Error}
    (move : ∀ below, resumeMove env value (frame.erase :: below) = .fail e) :
    TurnSpends env ctx kind (.resume value) (frame :: frames) fuel (.error e) fuel := by
  refine .failed ?_
  have stop : (reductionMachine env ctx).move (eraseState (.resume value) (frame :: frames)) =
      .fail e := move _
  have finished : (reductionMachine env ctx).Finishes (.resourceLimit kind)
      (eraseState (.resume value) (frame :: frames)) (0 + fuel) (.error e) fuel := .fail stop
  rwa [Nat.zero_add] at finished

/-- The waiting call goes on with a term. -/
theorem resumed_reduces {current : Expr}
    (covers : FramesCover env ctx fuel (.resume value) [] (frame :: frames))
    (move : resumeMove env value [frame.erase] = .next ⟨.reduce current, []⟩) :
    TurnSpends env ctx kind (.resume value) (frame :: frames) fuel
      (.ok (.next (.reduce frame.caller current) frames)) fuel := by
  have way : (reductionMachine env ctx).Reaches ⟨.resume value, [frame.erase]⟩ 0
      ⟨.reduce current, []⟩ := Machine.Reaches.single move
  refine (standsAt_resume covers).stay way (by omega) (fun owned => owned) ?_
  cases frame with
  | apply | recursorMajor =>
    simp only [turnsLeft, List.map_cons, List.sum_cons]
    omega

/-- The waiting call ends with the application it waited in. -/
theorem resumed_completes {application : Expr}
    (covers : FramesCover env ctx fuel (.resume value) [] (frame :: frames))
    (move : resumeMove env value [frame.erase] = .next ⟨.complete application, []⟩) :
    TurnSpends env ctx kind (.resume value) (frame :: frames) fuel
      (.ok (.next (.complete frame.caller application) frames)) fuel := by
  have way : (reductionMachine env ctx).Reaches ⟨.resume value, [frame.erase]⟩ 0
      ⟨.complete application, []⟩ := Machine.Reaches.single move
  refine (standsAt_resume covers).stay way (by omega) (fun owned => owned) ?_
  cases frame with
  | apply | recursorMajor =>
    simp only [turnsLeft, List.map_cons, List.sum_cons]
    omega

end Resume

/-- A value that is no function: the application may be one of a recursor. -/
theorem applyOther_realises {argument value : Expr}
    (move : ∀ below, resumeMove env value (.apply argument :: below) =
      match resolveRecursor env (.app value argument) with
      | some (inductiveName, rules, major) =>
        .next ⟨.reduce major, .recursorMajor (.app value argument) inductiveName rules :: below⟩
      | none => .next ⟨.complete (.app value argument), below⟩) :
    Realises env kind
      (fun fuel => FramesCover env ctx fuel (.resume value) [] (.apply call argument :: frames))
      (match resolveRecursor env (.app value argument) with
      | some (inductiveName, rules, major) => do
        let child ← beginCall layout ctx delta kind .retained major
        pure (.next child (.recursorMajor call (.app value argument) inductiveName rules :: frames))
      | none => pure (.next (.complete call (.app value argument)) frames))
      (TurnSpends env ctx kind (.resume value) (.apply call argument :: frames)) := by
  cases resolved : resolveRecursor env (.app value argument) with
  | none =>
    refine realises_value fun fuel covers => resumed_completes covers ?_
    show resumeMove env value [.apply argument] = _
    rw [move, resolved]
  | some found =>
    obtain ⟨inductiveName, rules, major⟩ := found
    refine (realises_bind (beginCall_realises .retained major) fun _ => realises_pure _).mono
      (fun _ h => h) ?_
    rintro fuel r left covers began
    have way : (reductionMachine env ctx).Reaches ⟨.resume value, [.apply argument]⟩ 0
        ⟨.reduce major, [.recursorMajor (.app value argument) inductiveName rules]⟩ := by
      refine Machine.Reaches.single ?_
      show resumeMove env value [.apply argument] = _
      rw [move, resolved]
    have own : (WhnfMachineFrame.recursorMajor call (.app value argument) inductiveName
        rules).caller = call := rfl
    refine (standsAt_resume covers).push own way (Nat.zero_add _).symm ?_ began
    simp only [turnsLeft, List.map_cons, List.sum_cons]
    omega

theorem applyTurn_realises (argument value : Expr) :
    Realises env kind
      (fun fuel => FramesCover env ctx fuel (.resume value) [] (.apply call argument :: frames))
      (applyTurn env layout ctx delta kind call argument value frames)
      (TurnSpends env ctx kind (.resume value) (.apply call argument :: frames)) := by
  cases value with
  | lam binder ty body =>
    refine realises_lift_bind ?_ ?_
    · intro e fuel failed _
      refine resumed_fails fun below => ?_
      show nextOrFail (Expr.instantiate body argument) _ = _
      rw [failed]
      rfl
    · intro current instantiated
      refine realises_value fun fuel covers => resumed_reduces covers ?_
      show nextOrFail (Expr.instantiate body argument) _ = _
      rw [instantiated]
      rfl
  | sort _ | bvar _ | const _ _ | app _ _ | pi _ _ _ =>
    exact @applyOther_realises env layout ctx delta kind call frames argument _ fun _ => rfl

/-- The turn that hands a value to a frame: the call that waits there goes on. -/
theorem resumeTurn_realises (value : Expr) :
    Realises env kind (fun fuel => FramesCover env ctx fuel (.resume value) [] frames)
      (resumeTurn env layout ctx delta kind value frames)
      (TurnSpends env ctx kind (.resume value) frames) := by
  cases frames with
  | nil =>
    refine realises_value fun left _ => .done ?_
    have stop : (reductionMachine env ctx).move (eraseState (.resume value) []) = .done value := rfl
    have finished : (reductionMachine env ctx).Finishes (.resourceLimit kind)
        (eraseState (.resume value) []) (0 + left) (.ok value) left := .done stop
    rwa [Nat.zero_add] at finished
  | cons frame rest =>
    cases frame with
    | apply caller argument => exact applyTurn_realises argument value
    | recursorMajor caller application inductiveName rules =>
      refine realises_lift_bind ?_ ?_
      · intro e fuel failed _
        refine resumed_fails fun below => ?_
        show nextOrFail (finishRecursorReduction env application inductiveName rules value) _ = _
        rw [failed]
        rfl
      · intro found finished
        cases found with
        | some reduced =>
          refine realises_value fun fuel covers => resumed_reduces covers ?_
          show nextOrFail (finishRecursorReduction env application inductiveName rules value) _ = _
          rw [finished]
          rfl
        | none =>
          refine realises_value fun fuel covers => resumed_completes covers ?_
          show nextOrFail (finishRecursorReduction env application inductiveName rules value) _ = _
          rw [finished]
          rfl

/-- The turn that ends a call stores the result, which is the one of the call. -/
theorem completeTurn_realises (value : Expr) :
    Realises env kind (fun fuel => Covers env ctx fuel call ⟨.complete value, []⟩ frames)
      (do
        finishCall layout kind call value
        pure (.next (.resume value) frames))
      (TurnSpends env ctx kind (.complete call value) frames) := by
  have way : (reductionMachine env ctx).Reaches ⟨.complete value, []⟩ 0 ⟨.resume value, []⟩ :=
    Machine.Reaches.single rfl
  have next : ∀ fuel, Covers env ctx fuel call ⟨.complete value, []⟩ frames →
      TurnSpends env ctx kind (.complete call value) frames fuel
        (.ok (.next (.resume value) frames)) fuel := by
    intro fuel covers
    have stands : StandsAt env ctx (.complete call value) frames fuel call ⟨.complete value, []⟩
        frames := ⟨rfl, covers⟩
    refine stands.stay way (by omega) (fun owned => owned.2) ?_
    simp only [turnsLeft]
    omega
  suffices stored : Realises env kind
      (fun fuel => Covers env ctx fuel call ⟨.complete value, []⟩ frames)
      (finishCall layout kind call value) (.done (.ok ())) by
    refine (realises_bind stored fun _ => realises_pure _).mono (fun _ h => h) ?_
    rintro fuel r left covers (⟨e, ⟨failed, _⟩, _⟩ | ⟨_, _, ⟨_, rfl⟩, rfl, rfl⟩)
    · cases failed
    · exact next _ covers
  unfold finishCall
  split
  next => exact realises_pure _
  next key token =>
    refine realises_get fun session => ?_
    rintro s hs ⟨covers, now⟩
    obtain ⟨same, _, came⟩ := covers.1 key token
    have result : ReducesTo env key.context key.expr (call.startingFuel - session.fuel kind)
        value := by
      rw [same, ← now]
      exact came.trans way
    have stored : Realises env kind (fun _ => True) _ _ := insertWhnf_realises layout result
    exact stored s hs trivial

theorem whnfTurn_realises (control : WhnfMachineControl) :
    Realises env kind (fun fuel => ControlCovers env ctx fuel control frames)
      (whnfTurn env layout ctx delta kind control frames) (TurnSpends env ctx kind control frames) := by
  cases control with
  | reduce call current => exact reduceTurn_realises current
  | complete call value => exact completeTurn_realises value
  | resume value => exact resumeTurn_realises value

/-- What the loop does after a turn. -/
def AfterTurn (env : Env) (ctx : Ctx) (kind : ResourceLimitKind) : WhnfTurn → Spending Error Expr
  | .done value => .done (.ok value)
  | .next control frames =>
    (reductionMachine env ctx).Finishes (.resourceLimit kind) (eraseState control frames)

/-- With more turns than are left, the loop ends as the reduction does. -/
theorem whnfLoop_realises (turns : Nat) (control : WhnfMachineControl)
    (frames : List WhnfMachineFrame) :
    Realises env kind
      (fun fuel => ControlCovers env ctx fuel control frames ∧ turnsLeft fuel control frames < turns)
      (whnfLoop env layout ctx delta kind turns control frames)
      ((reductionMachine env ctx).Finishes (.resourceLimit kind) (eraseState control frames)) := by
  induction turns generalizing control frames with
  | zero =>
    rintro s _ ⟨_, none⟩
    exact absurd none (Nat.not_lt_zero _)
  | succ turns ih =>
    let before : Nat → Prop := fun fuel => ControlCovers env ctx fuel control frames ∧
      turnsLeft fuel control frames < turns + 1
    have turn : Realises env kind before
        (whnfTurn env layout ctx delta kind control frames)
        (TurnSpends env ctx kind control frames) :=
      (whnfTurn_realises control).mono (fun _ h => h.1) fun _ _ _ _ h => h
    have loop : Realises env kind before
        (whnfLoop env layout ctx delta kind (turns + 1) control frames)
        ((TurnSpends env ctx kind control frames).bind (AfterTurn env ctx kind)) := by
      refine realises_bind turn fun found => ?_
      cases found with
      | done value => exact realises_pure value
      | next control' frames' =>
        refine (ih control' frames').mono ?_ fun _ _ _ _ h => h
        rintro middle ⟨fuel, ⟨_, few⟩, went⟩
        cases went with
        | next _ _ covers fewer => exact ⟨covers, by omega⟩
    refine loop.mono (fun _ h => h) ?_
    rintro fuel r left _ (⟨e, failed, rfl⟩ | ⟨found, middle, went, h⟩)
    · cases failed with
      | failed finished => exact finished
    · cases went with
      | done finished =>
        obtain ⟨rfl, rfl⟩ := h
        exact finished
      | next way supply _ _ =>
        rw [supply]
        exact way.finishes h

/-- `whnfMachine` with a faithful memo is weak head reduction, with its cost. -/
theorem whnfMachine_realises (origin : MemoExprOrigin) (term : Expr) :
    Realises env kind pre (whnfMachine env layout ctx delta kind origin term)
      (WhnfSpends env ctx kind term) := by
  have loop : Realises env kind pre (whnfMachine env layout ctx delta kind origin term)
      ((BeginSpends env ctx kind term).bind fun control =>
        (reductionMachine env ctx).Finishes (.resourceLimit kind) (eraseState control [])) := by
    refine realises_bind (beginCall_realises origin term) fun control => ?_
    refine realises_get fun session => ?_
    refine (whnfLoop_realises _ control []).mono ?_ fun _ _ _ _ h => h
    rintro fuel ⟨⟨supply, _, began⟩, rfl⟩
    cases began with
    | body covers =>
      refine ⟨⟨covers, trivial⟩, ?_⟩
      simp only [turnsLeft, turnLimit, List.map_nil, List.sum_nil]
      omega
    | hit =>
      refine ⟨trivial, ?_⟩
      simp only [turnsLeft, turnLimit, List.map_nil, List.sum_nil]
      omega
  refine loop.mono (fun _ h => h) ?_
  rintro fuel r left _ (⟨e, failed, rfl⟩ | ⟨control, middle, began, finished⟩)
  · exact failed.failed []
  · obtain ⟨k, way, supply⟩ := began.way []
    rw [supply]
    exact way.finishes finished

end Turns

end NpaCore.Kernel
