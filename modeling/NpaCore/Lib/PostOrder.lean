import NpaCore.Lib.Result

/-!
# Post-order traversal

A depth-first walk over nodes that are found by resolving references. A node is
known by its key; a finished key is not walked again and an unfinished one is a
cycle. Every visited node emits an action after the actions of its references,
and what is done with an action is a parameter: a walk that acts at once and a
walk that only records and is replayed later do the same.

## Main results

* `visit_record`, `visitRefs_record`: a walk that acts is the recording walk
  followed by the replay of its record.
* `visitRefs_complete`: at the end of a recording walk every reference of every
  finished node is done.
* `visitRefs_offered`: every recorded action comes from a node that the
  references lead to.
-/

namespace NpaCore.PostOrder

variable {ε ν κ ι α σ : Type}

/-- What a reference leads to. -/
inductive Step (α ν : Type) where
  | skip
  | leaf (action : α)
  | child (node : ν)

structure Graph (ε ν κ ι α : Type) where
  key : ν → Except ε κ
  refs : ν → Except ε (List ι)
  resolve : ν → ι → Except ε (Step α ν)
  finish : ν → α
  cycle : ν → ε

/-- The finished and the unfinished keys, and what the actions have made so far. -/
structure State (κ σ : Type) where
  loaded : List κ
  loading : List κ
  acc : σ

section Walk

variable (G : Graph ε ν κ ι α) (emit : σ → α → Except ε σ)

def takeStep (visitChild : ν → State κ σ → Except ε (State κ σ)) (s : State κ σ) :
    Step α ν → Except ε (State κ σ)
  | .skip => .ok s
  | .leaf action => emit s.acc action >>= fun acc => .ok { s with acc }
  | .child node => visitChild node s

/-- The loop over the references of one place, each resolved when its turn comes. -/
def walkRefs (visitChild : ν → State κ σ → Except ε (State κ σ))
    (resolve : ι → Except ε (Step α ν)) (refs : List ι) (s : State κ σ) :
    Except ε (State κ σ) :=
  Result.foldEach refs s fun s ref =>
    resolve ref >>= fun step => takeStep emit visitChild s step

/-- The walk from a node. The depth never exceeds the number of keys, since the keys on the
    way to a node are unfinished and distinct. -/
def visit [DecidableEq κ] : Nat → ν → State κ σ → Except ε (State κ σ)
  | 0, node, _ => .error (G.cycle node)
  | depth + 1, node, s =>
    G.key node >>= fun key =>
    if key ∈ s.loaded then .ok s
    else if key ∈ s.loading then .error (G.cycle node)
    else
      G.refs node >>= fun refs =>
      walkRefs emit (visit depth) (G.resolve node) refs { s with loading := key :: s.loading }
        >>= fun s =>
      emit s.acc (G.finish node) >>= fun acc =>
      .ok ⟨key :: s.loaded, s.loading.erase key, acc⟩

/-- The walk from the references of a root, which is no node itself. -/
def visitRefs [DecidableEq κ] (depth : Nat) (resolve : ι → Except ε (Step α ν)) (refs : List ι)
    (acc : σ) : Except ε (State κ σ) :=
  walkRefs emit (visit G emit depth) resolve refs ⟨[], [], acc⟩

end Walk

/-- Recording an action instead of acting. -/
def record (trace : List α) (action : α) : Except ε (List α) := .ok (trace ++ [action])

/-! ### Acting is recording and replaying -/

variable {resolve : ι → Except ε (Step α ν)}

section Record

variable {G : Graph ε ν κ ι α} {emit : σ → α → Except ε σ}

theorem foldEach_append {xs ys : List α} {a b c : σ} (first : Result.foldEach xs a emit = .ok b)
    (second : Result.foldEach ys b emit = .ok c) : Result.foldEach (xs ++ ys) a emit = .ok c := by
  induction xs generalizing a with
  | nil =>
    cases first
    exact second
  | cons x xs ih =>
    simp only [List.cons_append, Result.foldEach, Result.bind_eq_ok] at first ⊢
    obtain ⟨next, step, rest⟩ := first
    exact ⟨next, step, ih rest⟩

/-- The recording walk makes the same moves, and replaying what it recorded acts the same. -/
def Recorded (recording : State κ (List α) → Except ε (State κ (List α)))
    (emit : σ → α → Except ε σ) (s t : State κ σ) : Prop :=
  ∀ before, ∃ trace,
    recording ⟨s.loaded, s.loading, before⟩ = .ok ⟨t.loaded, t.loading, before ++ trace⟩ ∧
      Result.foldEach trace s.acc emit = .ok t.acc

theorem walkRefs_record {visitChild : ν → State κ σ → Except ε (State κ σ)}
    {recordChild : ν → State κ (List α) → Except ε (State κ (List α))}
    (children : ∀ node s t, visitChild node s = .ok t → Recorded (recordChild node) emit s t)
    {refs : List ι} {s t : State κ σ} (h : walkRefs emit visitChild resolve refs s = .ok t) :
    Recorded (walkRefs record recordChild resolve refs) emit s t := by
  unfold walkRefs at h ⊢
  induction refs generalizing s with
  | nil =>
    cases h
    intro before
    exact ⟨[], by simp [Result.foldEach], rfl⟩
  | cons ref refs ih =>
    simp only [Result.foldEach, Result.bind_eq_ok] at h
    obtain ⟨next, ⟨step, hresolve, hstep⟩, hrest⟩ := h
    intro before
    -- the first reference, then the others from where it leaves the record
    have first : ∃ trace, takeStep record recordChild ⟨s.loaded, s.loading, before⟩ step =
        .ok ⟨next.loaded, next.loading, before ++ trace⟩ ∧
          Result.foldEach trace s.acc emit = .ok next.acc := by
      cases step with
      | skip =>
        cases hstep
        exact ⟨[], by simp [takeStep], rfl⟩
      | leaf action =>
        simp only [takeStep, Result.bind_eq_ok, Except.ok.injEq] at hstep
        obtain ⟨acc, hemit, rfl⟩ := hstep
        refine ⟨[action], by simp [takeStep, record, bind, Except.bind], ?_⟩
        simp [Result.foldEach, Result.bind_eq_ok, hemit]
      | child node => exact children node s next hstep before
    obtain ⟨front, hfront, hfold⟩ := first
    obtain ⟨back, hback, hfold'⟩ := ih hrest (before ++ front)
    refine ⟨front ++ back, ?_, foldEach_append hfold hfold'⟩
    simp only [Result.foldEach, Result.bind_eq_ok]
    refine ⟨_, ⟨step, hresolve, hfront⟩, ?_⟩
    rw [← List.append_assoc]
    exact hback

theorem visit_record [DecidableEq κ] (depth : Nat) (node : ν) (s t : State κ σ)
    (h : visit G emit depth node s = .ok t) :
    Recorded (visit G record depth node) emit s t := by
  induction depth generalizing node s t with
  | zero => cases h
  | succ depth ih =>
    simp only [visit, Result.bind_eq_ok] at h
    obtain ⟨key, hkey, h⟩ := h
    intro before
    simp only [visit, Result.bind_eq_ok]
    split at h
    next finished =>
      cases h
      exact ⟨[], ⟨key, hkey, by simp [finished]⟩, rfl⟩
    next unfinished =>
      split at h
      next => cases h
      next fresh =>
        simp only [Result.bind_eq_ok, Except.ok.injEq] at h
        obtain ⟨refs, hrefs, mid, hwalk, acc, hemit, rfl⟩ := h
        obtain ⟨trace, hrecord, hfold⟩ := walkRefs_record (fun n s t => ih n s t) hwalk before
        refine ⟨trace ++ [G.finish node], ⟨key, hkey, ?_⟩, ?_⟩
        · rw [if_neg unfinished, if_neg fresh]
          simp only [Result.bind_eq_ok]
          refine ⟨refs, hrefs, _, hrecord, _, rfl, ?_⟩
          simp
        · refine foldEach_append hfold ?_
          simp [Result.foldEach, Result.bind_eq_ok, hemit]

/-- A walk that acts succeeds only where the recording walk does, and acts as its replay. -/
theorem visitRefs_record [DecidableEq κ] {depth : Nat}
    {refs : List ι} {acc : σ} {t : State κ σ} (h : visitRefs G emit depth resolve refs acc = .ok t) :
    ∃ plan, visitRefs G record depth resolve refs [] = .ok plan ∧
      Result.foldEach plan.acc acc emit = .ok t.acc := by
  obtain ⟨trace, hrecord, hfold⟩ := walkRefs_record (visit_record depth) h []
  exact ⟨_, hrecord, by simpa using hfold⟩

end Record

/-! ### What a recording walk has seen -/

section Complete

variable (G : Graph ε ν κ ι α)

/-- A step whose action is recorded or whose node is finished. -/
def Done (s : State κ (List α)) : Step α ν → Prop
  | .skip => True
  | .leaf action => action ∈ s.acc
  | .child node => ∃ key, G.key node = .ok key ∧ key ∈ s.loaded

/-- All references of a place were resolved and are done. -/
def AllDone (s : State κ (List α)) (resolve : ι → Except ε (Step α ν)) (refs : List ι) : Prop :=
  ∀ ref ∈ refs, ∃ step, resolve ref = .ok step ∧ Done G s step

/-- Every finished key has a node whose action and whose references are done. -/
def Finished (s : State κ (List α)) : Prop :=
  ∀ key ∈ s.loaded, ∃ node refs, G.key node = .ok key ∧ G.refs node = .ok refs ∧
    G.finish node ∈ s.acc ∧ AllDone G s (G.resolve node) refs

variable {G}

/-- Nothing that was finished or recorded is lost. -/
structure Grows (s t : State κ (List α)) : Prop where
  loaded : s.loaded ⊆ t.loaded
  acc : s.acc ⊆ t.acc

theorem Grows.refl (s : State κ (List α)) : Grows s s :=
  ⟨List.Subset.refl _, List.Subset.refl _⟩

theorem Grows.trans {s t u : State κ (List α)} (first : Grows s t) (second : Grows t u) :
    Grows s u :=
  ⟨List.Subset.trans first.loaded second.loaded, List.Subset.trans first.acc second.acc⟩

theorem Done.mono {s t : State κ (List α)} (grows : Grows s t) {step : Step α ν}
    (done : Done G s step) : Done G t step := by
  cases step with
  | skip => trivial
  | leaf action => exact grows.acc done
  | child node =>
    obtain ⟨key, hkey, mem⟩ := done
    exact ⟨key, hkey, grows.loaded mem⟩

theorem AllDone.mono {s t : State κ (List α)} (grows : Grows s t)
    {refs : List ι} (done : AllDone G s resolve refs) :
    AllDone G t resolve refs := by
  intro ref mem
  obtain ⟨step, hresolve, hdone⟩ := done ref mem
  exact ⟨step, hresolve, hdone.mono grows⟩

/-- A walk from one state to another keeps what is finished, and finishes its node. -/
def Completes (walk : State κ (List α) → Except ε (State κ (List α)))
    (goal : State κ (List α) → Prop) (G : Graph ε ν κ ι α) : Prop :=
  ∀ s t, walk s = .ok t → Finished G s → Grows s t ∧ Finished G t ∧ goal t

theorem walkRefs_completes {visitChild : ν → State κ (List α) → Except ε (State κ (List α))}
    (children : ∀ node, Completes (visitChild node) (fun t => Done G t (.child node)) G)
    (resolve : ι → Except ε (Step α ν)) (refs : List ι) :
    Completes (walkRefs record visitChild resolve refs) (fun t => AllDone G t resolve refs) G := by
  intro s t h finished
  unfold walkRefs at h
  induction refs generalizing s with
  | nil =>
    cases h
    exact ⟨Grows.refl _, finished, by intro ref mem; cases mem⟩
  | cons ref refs ih =>
    simp only [Result.foldEach, Result.bind_eq_ok] at h
    obtain ⟨next, ⟨step, hresolve, hstep⟩, hrest⟩ := h
    have first : Grows s next ∧ Finished G next ∧ Done G next step := by
      cases step with
      | skip =>
        cases hstep
        exact ⟨Grows.refl _, finished, trivial⟩
      | leaf action =>
        simp only [takeStep, record, Result.bind_eq_ok, Except.ok.injEq] at hstep
        obtain ⟨_, rfl, rfl⟩ := hstep
        have grows : Grows s { s with acc := s.acc ++ [action] } :=
          ⟨List.Subset.refl _, List.subset_append_left _ _⟩
        refine ⟨grows, ?_, by simp [Done]⟩
        intro key mem
        obtain ⟨node, refs, hkey, hrefs, hfinish, hdone⟩ := finished key mem
        exact ⟨node, refs, hkey, hrefs, grows.acc hfinish, hdone.mono grows⟩
      | child node => exact children node s next hstep finished
    obtain ⟨grows, finishedNext, done⟩ := first
    obtain ⟨growsRest, finishedRest, doneRest⟩ := ih next hrest finishedNext
    refine ⟨grows.trans growsRest, finishedRest, ?_⟩
    intro other mem
    rcases List.mem_cons.mp mem with rfl | mem
    · exact ⟨step, hresolve, done.mono growsRest⟩
    · exact doneRest other mem

theorem visit_completes [DecidableEq κ] (depth : Nat) (node : ν) :
    Completes (visit G record depth node) (fun t => Done G t (.child node)) G := by
  induction depth generalizing node with
  | zero => intro s t h; cases h
  | succ depth ih =>
    intro s t h finished
    simp only [visit, Result.bind_eq_ok] at h
    obtain ⟨key, hkey, h⟩ := h
    split at h
    next mem =>
      cases h
      exact ⟨Grows.refl _, finished, key, hkey, mem⟩
    next =>
      split at h
      next => cases h
      next =>
        simp only [Result.bind_eq_ok, Except.ok.injEq] at h
        obtain ⟨refs, hrefs, mid, hwalk, _, hemit, rfl⟩ := h
        cases hemit
        obtain ⟨grows, finishedMid, done⟩ :=
          walkRefs_completes ih (G.resolve node) refs _ mid hwalk finished
        have last : Grows mid ⟨key :: mid.loaded, mid.loading.erase key,
            mid.acc ++ [G.finish node]⟩ :=
          ⟨List.subset_cons_self _ _, List.subset_append_left _ _⟩
        have whole := grows.trans last
        refine ⟨⟨whole.loaded, whole.acc⟩, ?_, key, hkey, by simp⟩
        intro other mem
        rcases List.mem_cons.mp mem with rfl | mem
        · exact ⟨node, refs, hkey, hrefs, by simp, done.mono last⟩
        · obtain ⟨found, foundRefs, hfound, hfoundRefs, hfinish, hdone⟩ := finishedMid other mem
          exact ⟨found, foundRefs, hfound, hfoundRefs, last.acc hfinish, hdone.mono last⟩

/-- After a whole walk every finished node is done with all its references. -/
theorem visitRefs_complete [DecidableEq κ] {depth : Nat}
    {refs : List ι} {t : State κ (List α)} (h : visitRefs G record depth resolve refs [] = .ok t) :
    Finished G t ∧ AllDone G t resolve refs := by
  have start : Finished G (⟨[], [], []⟩ : State κ (List α)) := by
    intro key mem
    cases mem
  obtain ⟨_, finished, done⟩ :=
    walkRefs_completes (visit_completes depth) resolve refs _ t h start
  exact ⟨finished, done⟩

end Complete

/-! ### Where the recorded actions come from -/

section Sound

variable (G : Graph ε ν κ ι α) (resolve : ι → Except ε (Step α ν)) (refs : List ι)

/-- The nodes that the references of the root lead to. -/
inductive Reached : ν → Prop
  | root {ref node} (mem : ref ∈ refs) (h : resolve ref = .ok (.child node)) : Reached node
  | step {node rs ref next} (before : Reached node) (hrefs : G.refs node = .ok rs)
      (mem : ref ∈ rs) (h : G.resolve node ref = .ok (.child next)) : Reached next

/-- The actions of these nodes and of their references. -/
inductive Offered : α → Prop
  | root {ref action} (mem : ref ∈ refs) (h : resolve ref = .ok (.leaf action)) : Offered action
  | leaf {node rs ref action} (before : Reached G resolve refs node)
      (hrefs : G.refs node = .ok rs) (mem : ref ∈ rs)
      (h : G.resolve node ref = .ok (.leaf action)) : Offered action
  | finish {node} (before : Reached G resolve refs node) : Offered (G.finish node)

/-- Every recorded action is on offer. -/
def AllOffered (s : State κ (List α)) : Prop :=
  ∀ action ∈ s.acc, Offered G resolve refs action

variable {G resolve refs}

theorem walkRefs_offered {visitChild : ν → State κ (List α) → Except ε (State κ (List α))}
    (children : ∀ node s t, Reached G resolve refs node → visitChild node s = .ok t →
      AllOffered G resolve refs s → AllOffered G resolve refs t)
    {place : ι → Except ε (Step α ν)} {items : List ι}
    (nodes : ∀ ref ∈ items, ∀ node, place ref = .ok (.child node) → Reached G resolve refs node)
    (leaves : ∀ ref ∈ items, ∀ action, place ref = .ok (.leaf action) →
      Offered G resolve refs action)
    {s t : State κ (List α)} (h : walkRefs record visitChild place items s = .ok t)
    (start : AllOffered G resolve refs s) : AllOffered G resolve refs t := by
  refine Result.foldEach_preserves items ?_ h start
  intro ref mem before after hstep offered
  simp only [Result.bind_eq_ok] at hstep
  obtain ⟨step, hresolve, hstep⟩ := hstep
  cases step with
  | skip =>
    cases hstep
    exact offered
  | leaf action =>
    simp only [takeStep, record, Result.bind_eq_ok, Except.ok.injEq] at hstep
    obtain ⟨_, rfl, rfl⟩ := hstep
    intro other hother
    rcases List.mem_append.mp hother with old | new
    · exact offered other old
    · cases List.mem_singleton.mp new
      exact leaves ref mem _ hresolve
  | child node => exact children node before after (nodes ref mem node hresolve) hstep offered

theorem visit_offered [DecidableEq κ] (depth : Nat) (node : ν) (s t : State κ (List α))
    (reached : Reached G resolve refs node) (h : visit G record depth node s = .ok t)
    (start : AllOffered G resolve refs s) : AllOffered G resolve refs t := by
  induction depth generalizing node s t with
  | zero => cases h
  | succ depth ih =>
    simp only [visit, Result.bind_eq_ok] at h
    obtain ⟨key, _, h⟩ := h
    split at h
    next =>
      cases h
      exact start
    next =>
      split at h
      next => cases h
      next =>
        simp only [Result.bind_eq_ok, Except.ok.injEq] at h
        obtain ⟨rs, hrefs, mid, hwalk, _, hemit, rfl⟩ := h
        cases hemit
        have offered : AllOffered G resolve refs mid := by
          refine walkRefs_offered ih ?_ ?_ hwalk start
          · exact fun ref mem next hnext => .step reached hrefs mem hnext
          · exact fun ref mem action haction => .leaf reached hrefs mem haction
        intro action mem
        rcases List.mem_append.mp mem with old | new
        · exact offered action old
        · cases List.mem_singleton.mp new
          exact .finish reached

/-- A whole walk records only actions of the nodes its references lead to. -/
theorem visitRefs_offered [DecidableEq κ] {depth : Nat} {t : State κ (List α)}
    (h : visitRefs G record depth resolve refs [] = .ok t) : AllOffered G resolve refs t := by
  refine walkRefs_offered (visit_offered depth) ?_ ?_ h ?_
  · exact fun ref mem node hnode => .root mem hnode
  · exact fun ref mem action haction => .root mem haction
  · intro action mem
    cases mem

end Sound

end NpaCore.PostOrder
