import NpaCore.Certificate.Canonical

/-!
# The memo of a build

The memo that `canonicalize_expr_rc` keeps is shared by the declarations of a build. Memory is
a map from addresses to nodes, which changes between two runs in any way that leaves alone the
nodes that the memo anchors.

## Main result

`canonicalizeExpr_agrees`: under every memo of a build, the function with the memo returns the
term or the error that the plain recursion returns, and a canonical level has the value of the
level it comes from and is its own canonical level.
-/

namespace NpaCore.Certificate.Canonical

/-! ### Memory -/

/-- What the plain recursion does on the parts of a node, in order. -/
def canonParts (resolver : Resolver) (parts : List Arc) : CertResult (List CanonTerm) :=
  Result.collect parts fun part => canonTerm resolver part.2.expr

theorem Node.induct {motive : Node → Prop}
    (step : ∀ node : Node, (∀ part ∈ node.parts, motive part.2) → motive node) (node : Node) :
    motive node := by
  apply step
  induction node with
  | sort | bvar | const => simp [parts]
  | app _ fn _ arg ihl ihr | lam _ _ fn _ arg ihl ihr | pi _ _ fn _ arg ihl ihr =>
    simp only [parts, List.mem_cons, List.not_mem_nil, or_false, forall_eq_or_imp, forall_eq]
    exact ⟨step fn ihl, step arg ihr⟩

variable {memo : CanonTermMemo}

section Memory

variable (heap : Nat → Option Node)

/-- The parts of a node are where their addresses say, and so are the parts below them. -/
def Node.Lives : Node → Prop
  | sort _ | bvar _ | const _ _ => True
  | app fnAddr fn argAddr arg =>
    (heap fnAddr = some fn ∧ fn.Lives) ∧ heap argAddr = some arg ∧ arg.Lives
  | lam _ tyAddr ty bodyAddr body | pi _ tyAddr ty bodyAddr body =>
    (heap tyAddr = some ty ∧ ty.Lives) ∧ heap bodyAddr = some body ∧ body.Lives

/-- The node is at its address, and its parts are at theirs. -/
def Holds (arc : Arc) : Prop := heap arc.1 = some arc.2 ∧ arc.2.Lives heap

/-- The nodes that the entries anchor are where the keys of the entries say. -/
def Anchored (memo : CanonTermMemo) : Prop :=
  ∀ key node canon, memo key = some (node, canon) → Holds heap (key, node)

/-- An entry has the canonical term of its node. -/
def Correct (resolver : Resolver) (memo : CanonTermMemo) : Prop :=
  ∀ key node canon, memo key = some (node, canon) → canonTerm resolver node.expr = .ok canon

variable {heap} {resolver : Resolver}

theorem Node.Lives.holds {node : Node} (lives : node.Lives heap) :
    ∀ part ∈ node.parts, Holds heap part := by
  cases node with
  | sort | bvar | const => simp [parts]
  | app | lam | pi =>
    simp only [parts, List.mem_cons, List.not_mem_nil, or_false, forall_eq_or_imp, forall_eq]
    exact lives

variable (heap resolver) in
/-- What holds of the memo between two steps. -/
structure Kept (memo : CanonTermMemo) : Prop where
  anchored : Anchored heap memo
  correct : Correct resolver memo

variable {arc : Arc}

/-- An address holds one node, so an entry that is found there is about that node. -/
theorem Kept.entry_eq (kept : Kept heap resolver memo)
    (holds : Holds heap arc) {anchor : Node} {canon : CanonTerm}
    (entry : memo arc.1 = some (anchor, canon)) : canonTerm resolver arc.2.expr = .ok canon := by
  have same : some anchor = some arc.2 := (kept.anchored _ _ _ entry).1.symm.trans holds.1
  cases same
  exact kept.correct _ _ _ entry

theorem insert_eq_some {canon : CanonTerm} {key : Nat}
    {entry : Node × CanonTerm} (h : memo.insert arc canon key = some entry) :
    (key = arc.1 ∧ entry = (arc.2, canon)) ∨ memo key = some entry := by
  unfold CanonTermMemo.insert at h
  split at h
  next same => exact .inl ⟨same, (Option.some.inj h).symm⟩
  next => exact .inr h

theorem Kept.insert (kept : Kept heap resolver memo) (holds : Holds heap arc) {canon : CanonTerm}
    (term : canonTerm resolver arc.2.expr = .ok canon) :
    Kept heap resolver (memo.insert arc canon) where
  anchored key node found entry := by
    rcases insert_eq_some entry with ⟨rfl, same⟩ | old
    · cases same
      exact holds
    · exact kept.anchored _ _ _ old
  correct key node found entry := by
    rcases insert_eq_some entry with ⟨rfl, same⟩ | old
    · cases same
      exact term
    · exact kept.correct _ _ _ old

/-- No entry is lost or changed. -/
def Extends (memo memo' : CanonTermMemo) : Prop :=
  ∀ key entry, memo key = some entry → memo' key = some entry

theorem extends_refl (memo : CanonTermMemo) : Extends memo memo := fun _ _ h => h

theorem Extends.trans {memo₁ memo₂ memo₃ : CanonTermMemo} (first : Extends memo₁ memo₂)
    (second : Extends memo₂ memo₃) : Extends memo₁ memo₃ :=
  fun key entry h => second key entry (first key entry h)

theorem extends_insert (new : memo arc.1 = none)
    (canon : CanonTerm) : Extends memo (memo.insert arc canon) := by
  intro key entry old
  have different : key ≠ arc.1 := by
    rintro rfl
    rw [new] at old
    cases old
  simpa [CanonTermMemo.insert, different] using old

/-- The parts fail first, in their order. -/
theorem canonTerm_of_parts_error {node : Node} {e : CertError}
    (h : canonParts resolver node.parts = .error e) : canonTerm resolver node.expr = .error e := by
  cases node with
  | sort | bvar | const => cases h
  | app _ fn _ arg | lam _ _ fn _ arg | pi _ _ fn _ arg =>
    simp only [canonParts, Node.parts, Result.collect] at h
    rw [Node.expr, canonTerm]
    cases first : canonTerm resolver fn.expr with
    | error e' =>
      rw [first] at h
      cases h
      rfl
    | ok canon =>
      cases second : canonTerm resolver arg.expr with
      | error e' =>
        rw [first, second] at h
        cases h
        rfl
      | ok canon' =>
        rw [first, second] at h
        cases h

/-- When every part has its entry, a node is assembled without a turn of the loop. -/
theorem canonicalizeExpr_of_entries {node : Node}
    (kept : Kept heap resolver memo) (lives : node.Lives heap)
    (entries : ∀ part ∈ node.parts, ∃ entry, memo part.1 = some entry) :
    canonicalizeExpr resolver node memo = (canonTerm resolver node.expr, memo) := by
  have hit : ∀ part ∈ node.parts,
      canonicalizeExprRc resolver part memo = (canonTerm resolver part.2.expr, memo) := by
    intro part mem
    obtain ⟨⟨anchor, canon⟩, entry⟩ := entries part mem
    rw [canonicalizeExprRc, kept.entry_eq (lives.holds part mem) entry]
    change Run.bind Run.get _ memo = _
    simp only [Run.bind, Run.get, entry]
    rfl
  cases node with
  | sort level =>
    rw [canonicalizeExpr, Node.expr, canonTerm]
    change Run.bind _ _ memo = _
    cases h : canonicalizeLevel resolver level <;> (rw [Run.bind, Run.lift]; rfl)
  | bvar index =>
    rw [canonicalizeExpr]
    rfl
  | const name levels =>
    rw [canonicalizeExpr, Node.expr, canonTerm]
    change Run.bind _ _ memo = _
    cases resolver.resolveConst name with
    | error e => rfl
    | ok ref =>
      cases Result.collect levels (canonicalizeLevel resolver) <;> rfl
  | app _ fn _ arg | lam _ _ fn _ arg | pi _ _ fn _ arg =>
    simp only [Node.parts, List.mem_cons, List.not_mem_nil, or_false, forall_eq_or_imp,
      forall_eq] at hit
    rw [canonicalizeExpr, Node.expr, canonTerm]
    change Run.bind _ _ memo = _
    rw [Run.bind, hit.1]
    cases canonTerm resolver fn.expr with
    | error e => rfl
    | ok canon =>
      change Run.bind _ _ memo = _
      rw [Run.bind, hit.2]
      cases canonTerm resolver arg.expr <;> rfl

/-! ### The loop -/

variable (heap resolver) in
/-- The loop does away with the frames on top of the stack, whatever is below them: it fails
    with the error of the result, or goes on below. -/
structure Passes {α : Type} (frames : List (Arc × Bool)) (result : CertResult α)
    (memo memo' : CanonTermMemo) : Prop where
  kept : Kept heap resolver memo'
  extending : Extends memo memo'
  runs : ∀ pending, canonicalizePending resolver (frames ++ pending) memo =
    (Run.lift result >>= fun _ => canonicalizePending resolver pending) memo'

theorem Passes.error {α β : Type} {frames others : List (Arc × Bool)} {result : CertResult α}
    {e : CertError} {memo memo' : CanonTermMemo}
    (first : Passes heap resolver frames result memo memo') (failed : result = .error e) :
    Passes heap resolver (frames ++ others) (.error e : CertResult β) memo memo' where
  kept := first.kept
  extending := first.extending
  runs pending := by
    rw [List.append_assoc, first.runs, failed]
    rfl

theorem Passes.append {α β : Type} {frames others : List (Arc × Bool)} {result : CertResult α}
    {result' : CertResult β} {a : α} {memo₁ memo₂ memo₃ : CanonTermMemo}
    (first : Passes heap resolver frames result memo₁ memo₂) (ok : result = .ok a)
    (second : Passes heap resolver others result' memo₂ memo₃) :
    Passes heap resolver (frames ++ others) result' memo₁ memo₃ where
  kept := second.kept
  extending := first.extending.trans second.extending
  runs pending := by
    rw [List.append_assoc, first.runs, ok]
    exact second.runs pending

/-- The loop asks only whether the results are there. -/
theorem Passes.map {α β : Type} {frames : List (Arc × Bool)} {result : CertResult α}
    {memo memo' : CanonTermMemo} (h : Passes heap resolver frames result memo memo')
    (f : α → β) : Passes heap resolver frames (result.map f) memo memo' where
  kept := h.kept
  extending := h.extending
  runs pending := by
    rw [h.runs]
    cases result <;> rfl

variable (resolver) in
/-- The entry of a node, once the node has a canonical term. -/
def Entered (memo : CanonTermMemo) (arc : Arc) : Prop :=
  ∀ canon, canonTerm resolver arc.2.expr = .ok canon → ∃ anchor, memo arc.1 = some (anchor, canon)

/-- The parts of a node are entered one after the other. -/
theorem visit_parts {parts : List Arc}
    (each : ∀ part ∈ parts, ∀ memo, Kept heap resolver memo → ∃ memo',
      Passes heap resolver [(part, false)] (canonTerm resolver part.2.expr) memo memo' ∧
        Entered resolver memo' part) :
    ∀ memo, Kept heap resolver memo → ∃ memo',
      Passes heap resolver (parts.map (·, false)) (canonParts resolver parts) memo memo' ∧
        ∀ canons, canonParts resolver parts = .ok canons →
          ∀ part ∈ parts, ∃ entry, memo' part.1 = some entry := by
  induction parts with
  | nil =>
    intro memo kept
    exact ⟨memo, ⟨kept, extends_refl memo, fun _ => rfl⟩,
      fun _ _ part mem => absurd mem List.not_mem_nil⟩
  | cons part parts ih =>
    intro memo kept
    obtain ⟨memo₁, first, entered⟩ := each part List.mem_cons_self memo kept
    cases term : canonTerm resolver part.2.expr with
    | error e =>
      have failed : canonParts resolver (part :: parts) = .error e := by
        rw [canonParts, Result.collect, term]
        rfl
      rw [failed]
      exact ⟨memo₁, first.error term, fun _ ok => nomatch ok⟩
    | ok canon =>
      obtain ⟨memo₂, rest, entries⟩ :=
        ih (fun other mem => each other (List.mem_cons_of_mem _ mem)) memo₁ first.kept
      have collected : canonParts resolver (part :: parts) =
          (canonParts resolver parts).map (canon :: ·) := by
        have unfolded : canonParts resolver (part :: parts) =
            canonTerm resolver part.2.expr >>= fun canon =>
              canonParts resolver parts >>= fun canons => .ok (canon :: canons) := rfl
        rw [unfolded, term]
        cases canonParts resolver parts <;> rfl
      refine ⟨memo₂, ?_, fun canons ok other mem => ?_⟩
      · rw [collected]
        exact first.append term (rest.map _)
      · rcases List.mem_cons.mp mem with rfl | mem
        · obtain ⟨anchor, entry⟩ := entered canon term
          exact ⟨_, rest.extending _ _ entry⟩
        · cases others : canonParts resolver parts with
          | error e =>
            rw [collected, others] at ok
            cases ok
          | ok found => exact entries found others other mem

variable {pending : List (Arc × Bool)}

theorem canonicalizePending_known {exiting : Bool} (known : (memo arc.1).isSome) :
    canonicalizePending resolver ((arc, exiting) :: pending) memo =
      canonicalizePending resolver pending memo := by
  rw [canonicalizePending]
  change Run.bind Run.get _ memo = _
  simp only [Run.bind, Run.get, known, if_true]

theorem canonicalizePending_enter (new : memo arc.1 = none) :
    canonicalizePending resolver ((arc, false) :: pending) memo =
      canonicalizePending resolver (arc.2.parts.map (·, false) ++ (arc, true) :: pending) memo := by
  rw [canonicalizePending]
  change Run.bind Run.get _ memo = _
  simp [Run.bind, Run.get, new]

theorem canonicalizePending_exit (new : memo arc.1 = none) :
    canonicalizePending resolver ((arc, true) :: pending) memo =
      (canonicalizeExpr resolver arc.2 >>= fun canon => Run.modify (·.insert arc canon) >>=
        fun _ => canonicalizePending resolver pending) memo := by
  rw [canonicalizePending]
  change Run.bind Run.get _ memo = _
  simp [Run.bind, Run.get, new]

/-- An entry for the node is about the node itself, so the loop may skip it. -/
theorem pass_known (holds : Holds heap arc)
    (kept : Kept heap resolver memo) {entry : Node × CanonTerm} (known : memo arc.1 = some entry)
    (exiting : Bool) :
    Passes heap resolver [(arc, exiting)] (canonTerm resolver arc.2.expr) memo memo ∧
      Entered resolver memo arc := by
  have term : canonTerm resolver arc.2.expr = .ok entry.2 := kept.entry_eq holds known
  refine ⟨⟨kept, extends_refl memo, fun pending => ?_⟩, fun canon ok => ?_⟩
  · rw [List.singleton_append, canonicalizePending_known (by simp [known]), term]
    rfl
  · rw [term] at ok
    cases ok
    exact ⟨entry.1, known⟩

/-- What is left of a visit when the parts have their entries: the node itself. -/
theorem pass_exit (holds : Holds heap arc) (kept : Kept heap resolver memo)
    (entries : ∀ part ∈ arc.2.parts, ∃ entry, memo part.1 = some entry) :
    ∃ memo', Passes heap resolver [(arc, true)] (canonTerm resolver arc.2.expr) memo memo' ∧
      Entered resolver memo' arc := by
  cases known : memo arc.1 with
  | some entry => exact ⟨memo, pass_known holds kept known true⟩
  | none =>
    have assembled := canonicalizeExpr_of_entries kept holds.2 entries
    cases term : canonTerm resolver arc.2.expr with
    | error e =>
      refine ⟨memo, ⟨kept, extends_refl memo, fun pending => ?_⟩, fun canon ok => ?_⟩
      · rw [List.singleton_append, canonicalizePending_exit known]
        change Run.bind _ _ memo = _
        rw [Run.bind, assembled, term]
        rfl
      · rw [term] at ok
        cases ok
    | ok canon =>
      refine ⟨memo.insert arc canon, ⟨kept.insert holds term, extends_insert known canon,
        fun pending => ?_⟩, fun other ok => ?_⟩
      · rw [List.singleton_append, canonicalizePending_exit known]
        change Run.bind _ _ memo = _
        rw [Run.bind, assembled, term]
        rfl
      · rw [term] at ok
        cases ok
        exact ⟨arc.2, by simp [CanonTermMemo.insert]⟩

/-- The induction is on the node: its parts are visited first, then it is assembled from
    their entries. -/
theorem visit (node : Node) : ∀ addr, Holds heap (addr, node) → ∀ memo, Kept heap resolver memo →
    ∃ memo', Passes heap resolver [((addr, node), false)] (canonTerm resolver node.expr) memo memo' ∧
      Entered resolver memo' (addr, node) := by
  induction node using Node.induct with
  | step node ih =>
    intro addr holds memo kept
    cases known : memo addr with
    | some entry => exact ⟨memo, pass_known holds kept known false⟩
    | none =>
      obtain ⟨memo₁, parts, entries⟩ := visit_parts
        (fun part mem => ih part mem part.1 (holds.2.holds part mem)) memo kept
      have entering {result : CertResult CanonTerm} {memo' : CanonTermMemo}
          (passes : Passes heap resolver (node.parts.map (·, false) ++ [((addr, node), true)])
            result memo memo') : Passes heap resolver [((addr, node), false)] result memo memo' := by
        refine ⟨passes.kept, passes.extending, fun pending => ?_⟩
        rw [List.singleton_append, canonicalizePending_enter known, ← passes.runs]
        simp
      cases collected : canonParts resolver node.parts with
      | error e =>
        have failed : canonTerm resolver node.expr = .error e :=
          canonTerm_of_parts_error collected
        refine ⟨memo₁, entering ?_, fun canon ok => ?_⟩
        · rw [failed]
          exact parts.error collected
        · rw [failed] at ok
          cases ok
      | ok canons =>
        obtain ⟨memo₂, exits, entered⟩ :=
          pass_exit holds parts.kept (entries canons collected)
        exact ⟨memo₂, entering (parts.append collected exits), entered⟩

/-! ### The functions with the memo -/

variable (heap resolver) in
/-- From every memo that is kept, the run has this result and leaves a memo that is kept. -/
def Computes {α : Type} (run : Canonicalize α) (result : CertResult α) : Prop :=
  ∀ memo, Kept heap resolver memo → ∃ memo', Kept heap resolver memo' ∧ run memo = (result, memo')

theorem computes_lift {α : Type} (result : CertResult α) :
    Computes heap resolver (Run.lift result) result :=
  fun memo kept => ⟨memo, kept, rfl⟩

theorem computes_bind {α β : Type} {run : Canonicalize α} {result : CertResult α}
    {next : α → Canonicalize β} {after : α → CertResult β}
    (first : Computes heap resolver run result)
    (rest : ∀ a, Computes heap resolver (next a) (after a)) :
    Computes heap resolver (run >>= next) (result >>= after) := by
  intro memo kept
  obtain ⟨memo', kept', ran⟩ := first memo kept
  cases result with
  | error e =>
    refine ⟨memo', kept', ?_⟩
    change Run.bind run next memo = _
    rw [Run.bind, ran]
    rfl
  | ok a =>
    obtain ⟨memo'', kept'', ran'⟩ := rest a memo' kept'
    refine ⟨memo'', kept'', ?_⟩
    change Run.bind run next memo = _
    rw [Run.bind, ran]
    exact ran'

theorem canonicalizeExprRc_computes (holds : Holds heap arc) :
    Computes heap resolver (canonicalizeExprRc resolver arc)
      (canonTerm resolver arc.2.expr) := by
  intro memo kept
  rw [canonicalizeExprRc]
  change ∃ memo', _ ∧ Run.bind Run.get _ memo = _
  simp only [Run.bind, Run.get]
  cases known : memo arc.1 with
  | some entry =>
    refine ⟨memo, kept, ?_⟩
    rw [kept.entry_eq holds known]
    rfl
  | none =>
    obtain ⟨memo', passes, entry⟩ := visit arc.2 arc.1 holds memo kept
    refine ⟨memo', passes.kept, ?_⟩
    have ran : canonicalizePending resolver [(arc, false)] memo = _ := passes.runs []
    change Run.bind _ _ memo = _
    rw [Run.bind, ran]
    cases term : canonTerm resolver arc.2.expr with
    | error e => rfl
    | ok canon =>
      obtain ⟨anchor, found⟩ : ∃ anchor, memo' arc.1 = some (anchor, canon) := entry canon term
      have done : (Run.lift (Except.ok canon) >>= fun _ => canonicalizePending resolver []) memo' =
          (.ok (), memo') := by
        rw [canonicalizePending]
        rfl
      rw [done]
      change (Result.okOr ((memo' arc.1).map Prod.snd) CertError.decodeError, memo') = _
      rw [found]
      rfl

theorem canonicalizeExpr_computes {node : Node} (lives : node.Lives heap) :
    Computes heap resolver (canonicalizeExpr resolver node) (canonTerm resolver node.expr) := by
  cases node with
  | sort level =>
    rw [canonicalizeExpr, Node.expr, canonTerm]
    exact computes_bind (computes_lift _) fun _ => computes_lift _
  | bvar index =>
    rw [canonicalizeExpr]
    exact computes_lift _
  | const name levels =>
    rw [canonicalizeExpr, Node.expr, canonTerm]
    exact computes_bind (computes_lift _) fun _ => computes_bind (computes_lift _) fun _ =>
      computes_lift _
  | app _ fn _ arg | lam _ _ fn _ arg | pi _ _ fn _ arg =>
    rw [canonicalizeExpr, Node.expr, canonTerm]
    exact computes_bind (canonicalizeExprRc_computes lives.1) fun _ =>
      computes_bind (canonicalizeExprRc_computes lives.2) fun _ => computes_lift _

end Memory

/-! ### A build -/

def Build.resolver (build : Build) (currentDeclIndex : Nat) (allowSelf : Bool) : Resolver :=
  { build with currentDeclIndex, allowSelf }

/-- The resolver of a later declaration. -/
theorem resolveConst_later (build : Build) {i j : Nat} (before : i < j) {allowSelf allowSelf' : Bool}
    {name : String} {ref : GlobalRef} (h : (build.resolver i allowSelf).resolveConst name = .ok ref) :
    (build.resolver j allowSelf').resolveConst name = .ok ref := by
  have earlier {declIndex : Nat}
      (h : (build.resolver i allowSelf).resolveLocal name declIndex = .ok ()) :
      (build.resolver j allowSelf').resolveLocal name declIndex = .ok () := by
    simp only [Resolver.resolveLocal, Build.resolver, Result.ensure_eq_ok, Bool.or_eq_true,
      Bool.and_eq_true, beq_iff_eq] at h ⊢
    have backward : declIndex < j := by
      rcases h with earlier | ⟨_, rfl⟩
      · exact Nat.lt_trans (of_decide_eq_true earlier) before
      · exact before
    exact .inl (decide_eq_true backward)
  obtain ⟨binding, found, rest⟩ := Result.bind_eq_ok.mp h
  refine Result.bind_eq_ok.mpr ⟨binding, found, ?_⟩
  cases binding with
  | localDeclaration declIndex =>
    obtain ⟨_, resolved, rest⟩ := Result.bind_eq_ok.mp rest
    exact Result.bind_eq_ok.mpr ⟨(), earlier resolved, rest⟩
  | localGenerated ownerDeclIndex =>
    obtain ⟨_, resolved, rest⟩ := Result.bind_eq_ok.mp rest
    exact Result.bind_eq_ok.mpr ⟨(), earlier resolved, rest⟩
  | importedExport | builtin => exact rest

/-- A reference that a declaration may use points backward, so later declarations may use it
    and canonical terms stay what they are. -/
theorem canonTerm_later (build : Build) {i j : Nat} (before : i < j) {allowSelf allowSelf' : Bool}
    {e : Kernel.Expr} {canon : CanonTerm} (h : canonTerm (build.resolver i allowSelf) e = .ok canon) :
    canonTerm (build.resolver j allowSelf') e = .ok canon := by
  have levels : canonicalizeLevel (build.resolver i allowSelf) =
      canonicalizeLevel (build.resolver j allowSelf') := by
    funext level
    rw [canonicalizeLevel_eq, canonicalizeLevel_eq]
    induction level.normalizeLevel with
    | zero | param => rfl
    | succ inner ih => rw [replaceNames, ih, replaceNames]
    | max lhs rhs ihl ihr | imax lhs rhs ihl ihr => rw [replaceNames, ihl, ihr, replaceNames]
  induction e generalizing canon with
  | sort level =>
    rw [canonTerm] at h ⊢
    rw [← levels]
    exact h
  | bvar index => exact h
  | const name us =>
    rw [canonTerm] at h ⊢
    obtain ⟨ref, resolved, rest⟩ := Result.bind_eq_ok.mp h
    refine Result.bind_eq_ok.mpr ⟨ref, resolveConst_later build before resolved, ?_⟩
    rw [← levels]
    exact rest
  | app fn arg ihl ihr | lam _ fn arg ihl ihr | pi _ fn arg ihl ihr =>
    rw [canonTerm] at h ⊢
    obtain ⟨l, left, h⟩ := Result.bind_eq_ok.mp h
    obtain ⟨r, right, rest⟩ := Result.bind_eq_ok.mp h
    exact Result.bind_eq_ok.mpr ⟨l, ihl left, Result.bind_eq_ok.mpr ⟨r, ihr right, rest⟩⟩

/-- The memos of a build, with the declaration that is being canonicalised. Between two runs
    memory may change in any way that leaves the anchored nodes where they are. -/
inductive Reached (build : Build) : Nat → Bool → CanonTermMemo → Prop
  | start (i : Nat) (allowSelf : Bool) : Reached build i allowSelf .empty
  | next {i j : Nat} {allowSelf : Bool} {memo : CanonTermMemo} (allowSelf' : Bool) :
      Reached build i allowSelf memo → i < j → Reached build j allowSelf' memo
  | run {i : Nat} {allowSelf : Bool} {memo : CanonTermMemo} {heap : Nat → Option Node}
      {node : Node} : Reached build i allowSelf memo → Anchored heap memo → node.Lives heap →
      Reached build i allowSelf (canonicalizeExpr (build.resolver i allowSelf) node memo).2

theorem Reached.correct {build : Build} {i : Nat} {allowSelf : Bool}
    (h : Reached build i allowSelf memo) : Correct (build.resolver i allowSelf) memo := by
  induction h with
  | start i allowSelf => exact fun _ _ _ entry => nomatch entry
  | next allowSelf' _ before ih =>
    exact fun key node canon entry => canonTerm_later build before (ih key node canon entry)
  | run _ anchored lives ih =>
    obtain ⟨memo', kept', ran⟩ := canonicalizeExpr_computes lives _ ⟨anchored, ih⟩
    rw [ran]
    exact kept'.correct

/-- Under every memo of the build, the functions with and without it agree. A canonical level
    keeps the value, its ids being read in the name table, and is its own canonical level. -/
theorem canonicalizeExpr_agrees {build : Build} {i : Nat} {allowSelf : Bool}
    {memo : CanonTermMemo} (reached : Reached build i allowSelf memo) {heap : Nat → Option Node}
    (anchored : Anchored heap memo) {node : Node} (lives : node.Lives heap) :
    (canonicalizeExpr (build.resolver i allowSelf) node memo).1 =
        canonTerm (build.resolver i allowSelf) node.expr ∧
      ∀ level canon, canonicalizeLevel (build.resolver i allowSelf) level = .ok canon →
        (∀ ρ : String → Nat, (canon.eval fun id => ρ (build.nameTable.getD id "")) = level.eval ρ) ∧
        canonicalizeLevel (build.resolver i allowSelf) (readNames build.nameTable canon) =
          .ok canon := by
  obtain ⟨memo', _, ran⟩ := canonicalizeExpr_computes lives memo ⟨anchored, reached.correct⟩
  refine ⟨congrArg Prod.fst ran, fun level canon ok => ⟨fun ρ => ?_, ?_⟩⟩
  · exact canonicalizeLevel_eval ok ρ
  · exact canonicalizeLevel_idempotent ok

/-- Two declarations that use the same two nodes: a constant, and its application to itself. -/
def sharedNode : Node := .app 7 (.const "A" []) 7 (.const "A" [])

def sharedHeap : Nat → Option Node
  | 7 => some (.const "A" [])
  | _ => none

def sharedBuild : Build := ⟨[("A", .localDeclaration 0)], ["A"]⟩

theorem sharedNode_lives : sharedNode.Lives sharedHeap :=
  ⟨⟨rfl, trivial⟩, rfl, trivial⟩

/-- The memo that the first of the two declarations leaves to the second. -/
def sharedMemo : CanonTermMemo :=
  (canonicalizeExpr (sharedBuild.resolver 1 true) sharedNode .empty).2

theorem sharedMemo_kept : Kept sharedHeap (sharedBuild.resolver 1 true) sharedMemo := by
  have start : Kept sharedHeap (sharedBuild.resolver 1 true) .empty :=
    ⟨fun _ _ _ entry => (nomatch entry), fun _ _ _ entry => (nomatch entry)⟩
  obtain ⟨memo', kept', ran⟩ := canonicalizeExpr_computes sharedNode_lives _ start
  rw [sharedMemo, ran]
  exact kept'

theorem canonicalizeExpr_agrees_at_shared :
    (canonicalizeExpr (sharedBuild.resolver 2 false) sharedNode sharedMemo).1 =
        .ok (.app (.const (.local 0) []) (.const (.local 0) [])) ∧
      ∀ level canon, canonicalizeLevel (sharedBuild.resolver 2 false) level = .ok canon →
        (∀ ρ : String → Nat, (canon.eval fun id => ρ (["A"].getD id "")) = level.eval ρ) ∧
        canonicalizeLevel (sharedBuild.resolver 2 false) (readNames ["A"] canon) = .ok canon := by
  have first : Reached sharedBuild 1 true sharedMemo :=
    Reached.run (Reached.start 1 true) (fun _ _ _ entry => (nomatch entry)) sharedNode_lives
  have reached : Reached sharedBuild 2 false sharedMemo := Reached.next false first Nat.one_lt_two
  exact canonicalizeExpr_agrees reached sharedMemo_kept.anchored sharedNode_lives

end NpaCore.Certificate.Canonical
