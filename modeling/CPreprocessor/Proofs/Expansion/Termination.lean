/-
# Every expansion halts

The machine of `Proofs.Expansion.Machine` halts on every input, for every macro
table and with any names hidden in the tokens, and its result is the one that
`expandAll` gives.

The argument follows the machine from task to task. Reading the arguments of a
call ends because each step takes a token (`reaches_collect`); working through a
replacement list ends because an operation is followed by a shorter list, once
its arguments are expanded (`reaches_rewrite`); and scanning ends by the order on
levels that `expandAll` recurs on, which this module uses as the induction
principle of that function.
-/
import CPreprocessor.Proofs.Expansion.Machine

namespace CPreprocessor.Expansion.Machine

variable {ctx : Context}

/-- One machine becomes another after finitely many steps. -/
def Reaches (ctx : Context) (a b : Machine) : Prop :=
  ∃ n, (step ctx)^[n] a = b

theorem Reaches.refl (a : Machine) : Reaches ctx a a :=
  ⟨0, rfl⟩

theorem Reaches.trans {a b c : Machine} (first : Reaches ctx a b) (second : Reaches ctx b c) :
    Reaches ctx a c := by
  obtain ⟨n, rfl⟩ := first
  obtain ⟨k, rfl⟩ := second
  exact ⟨k + n, Function.iterate_add_apply _ _ _ _⟩

/-- What is reached after one step is reached. -/
theorem Reaches.head {a b : Machine} (later : Reaches ctx (step ctx a) b) : Reaches ctx a b :=
  Reaches.trans ⟨1, rfl⟩ later

/-- A machine that has halted has halted for ever. -/
theorem iterate_step_halted (tokens : List Token) (state : State) (n : Nat) :
    (step ctx)^[n] (.halted tokens state) = .halted tokens state :=
  Function.iterate_fixed rfl n

/-! ## Reading arguments -/

/-- The arguments of a collection in front of the ones that are still to be read. -/
def joined (c : Collection) (pieces : List (List Token)) : List (List Token) :=
  c.pieces.reverse ++ c.piece.foldl (fun pieces token => Arguments.prepend token pieces) pieces

theorem foldl_prepend_cons (tokens piece : List Token) (pieces : List (List Token)) :
    tokens.foldl (fun pieces token => Arguments.prepend token pieces) (piece :: pieces) =
      (tokens.reverse ++ piece) :: pieces := by
  induction tokens generalizing piece with
  | nil => rfl
  | cons token rest ih =>
      rw [List.foldl_cons, Arguments.prepend, ih, List.reverse_cons, List.append_assoc]
      rfl

theorem joined_last (c : Collection) : joined c [[]] = c.all := by
  rw [joined, foldl_prepend_cons, Collection.all, List.reverse_cons, List.append_nil]

theorem joined_endPiece (c : Collection) (token : Token) (pieces : List (List Token)) :
    joined (c.endPiece token) pieces = joined c ([] :: pieces) := by
  rw [joined, joined, foldl_prepend_cons]
  simp [Collection.endPiece]

theorem joined_extend (c : Collection) (token : Token) (pieces : List (List Token)) :
    joined (c.extend token) pieces = joined c (Arguments.prepend token pieces) :=
  rfl

/-- The commas that may still separate arguments of a collection. -/
def commas (c : Collection) : Option Nat :=
  (Arguments.separators c.parameters).map (· - c.pieces.length)

theorem separates_eq (c : Collection) (token : Token) :
    c.separates token =
      (decide (c.depth = 0) && token.isPunctuator [','] && decide (commas c ≠ some 0)) := by
  unfold Collection.separates commas Arguments.separators
  cases c.parameters.variadic with
  | none => simp
  | some name =>
      by_cases begun : c.parameters.named.length ≤ c.pieces.length
      · have spent : c.parameters.named.length - c.pieces.length = 0 := by omega
        simp [begun, spent]
      · have left : c.parameters.named.length - c.pieces.length ≠ 0 := by omega
        simp [begun, left]

theorem commas_endPiece (c : Collection) (token : Token) :
    commas (c.endPiece token) = (commas c).map (· - 1) := by
  unfold commas
  rw [Option.map_map]
  rfl

/-- What becomes of a call once its arguments have been read from `tokens`, or found to have no
end. -/
def afterArguments (given : List Token) (c : Collection) (tokens : List Token) (state : State) :
    Option Arguments → Task
  | none => giveUp given c .mismatchedParens tokens state
  | some a =>
    match Arguments.fit c.parameters (joined c a.pieces) with
    | .error code => giveUp given c code tokens state
    | .ok arguments =>
      let hidden := (c.site.hideSet.inter a.close.hideSet).union [c.called.name]
      replace given { called := c.called, site := c.site, arguments, hidden, rest := a.rest } state

/-- A token that ends an argument may be read now or later: the outcome is the same, because it is put
back with the others if the call fails. -/
theorem afterArguments_endPiece (given : List Token) (c : Collection) (token : Token)
    (rest : List Token) (state : State) (found : Option Arguments) :
    afterArguments given (c.endPiece token) rest state found =
      afterArguments given c (token :: rest) state
        (found.map fun a => { a with pieces := [] :: a.pieces }) := by
  cases found with
  | none => simp [afterArguments, giveUp, Collection.endPiece]
  | some a =>
      simp only [afterArguments, Option.map_some, joined_endPiece]
      simp [giveUp, Collection.endPiece]

theorem afterArguments_extend (given : List Token) (c : Collection) (token : Token)
    (rest : List Token) (state : State) (found : Option Arguments) :
    afterArguments given (c.extend token) rest state found =
      afterArguments given c (token :: rest) state
        (found.map fun a => { a with pieces := Arguments.prepend token a.pieces }) := by
  cases found with
  | none => simp [afterArguments, giveUp, Collection.extend]
  | some a =>
      simp only [afterArguments, Option.map_some, joined_extend]
      simp [giveUp, Collection.extend]

/-- Reading the arguments of a call ends, and finds the arguments that `Arguments.read` finds. -/
theorem reaches_collect (given : List Token) (c : Collection) (tokens : List Token) (state : State)
    (waiting : List Waiting) :
    Reaches ctx (.running (.collect given c tokens state) waiting)
      (.running
        (afterArguments given c tokens state (Arguments.read (commas c) c.depth tokens))
        waiting) := by
  induction tokens generalizing c with
  | nil => exact Reaches.head (Reaches.refl _)
  | cons token rest ih =>
      apply Reaches.head
      simp only [step, collect, Arguments.read]
      by_cases isEnd : token.isEnd = true
      · simp only [isEnd, if_true]
        exact Reaches.refl _
      · simp only [isEnd, Bool.false_eq_true, if_false]
        by_cases closes : (decide (c.depth = 0) && token.isClose) = true
        · simp only [closes, if_true, afterArguments, joined_last]
          cases Arguments.fit c.parameters c.all <;> exact Reaches.refl _
        · simp only [closes, Bool.false_eq_true, if_false, separates_eq]
          split
          · rename_i separates
            have outermost : (c.endPiece token).depth = 0 := by
              simp only [Bool.and_eq_true, decide_eq_true_eq] at separates
              exact separates.1.1
            have ended := ih (c.endPiece token)
            rw [commas_endPiece, outermost, afterArguments_endPiece] at ended
            exact ended
          · have extended := ih (c.extend token)
            rw [afterArguments_extend] at extended
            exact extended

/-! ## Replacing a call -/

/-- The arguments of a call with their expansions. -/
def expanding (ctx : Context) (c : Call) : List Argument :=
  c.arguments.map fun tokens => { tokens, expand := expandAll ctx tokens }

theorem written_expanding (ctx : Context) (c : Call) (position : Nat) :
    Substitution.written (written c) position = Substitution.written (expanding ctx c) position := by
  simp only [Substitution.written, written, expanding, List.getElem?_map, Option.map_map]
  rfl

theorem hasVariable_written (ctx : Context) (c : Call) :
    Substitution.hasVariable (written c) = Substitution.hasVariable (expanding ctx c) := by
  simp only [Substitution.hasVariable, written, expanding, List.getLast?_map]
  cases c.arguments.getLast? <;> rfl

/-- The substitution after an argument has been expanded for it. -/
def remember (work : Substitution) (position : Nat) (result : List Token × State) : Substitution :=
  { work with expanded := (position, result.1) :: work.expanded, state := result.2 }

/-- An operation that misses no argument does not look at expansions. -/
theorem apply_written_of_not_missing {c : Call} {work : Substitution} {operation : Operation}
    (complete : missing? c work operation = none) (content : List Token) :
    work.apply ctx.language (written c) content operation =
      work.apply ctx.language (expanding ctx c) content operation := by
  cases operation with
  | argument token position =>
      simp only [missing?] at complete
      simp only [Substitution.apply, Substitution.expandArgument]
      cases known : work.expanded.lookup position with
      | some tokens => rfl
      | none =>
          simp only [known, Option.isNone_none, if_true, Option.map_eq_none_iff] at complete
          simp [written, expanding, complete]
  | copy token => rfl
  | leftOperand token position =>
      simp only [Substitution.apply, written_expanding ctx]
  | stringize hash position =>
      simp only [Substitution.apply, written_expanding ctx]
  | comma token position =>
      simp only [Substitution.apply, written_expanding ctx]
  | pasteArgument paste position =>
      simp only [Substitution.apply, written_expanding ctx]
  | pasteOptional paste content => rfl
  | pasteToken paste token => rfl
  | optional token content beforePaste => rfl

/-- An operation that misses an argument is carried out on it once it has been expanded. -/
theorem apply_of_missing (ctx : Context) {c : Call} {work : Substitution} {operation : Operation}
    {position : Nat}
    {argument : List Token} (missed : missing? c work operation = some (position, argument)) :
    operation.content = [] ∧
      (remember work position (expandAll ctx argument work.state)).apply ctx.language
          (written c) [] operation =
        work.apply ctx.language (expanding ctx c) [] operation ∧
      missing? c (remember work position (expandAll ctx argument work.state)) operation = none := by
  cases operation with
  | argument token asked =>
      simp only [missing?] at missed
      cases known : work.expanded.lookup asked with
      | some tokens => simp [known] at missed
      | none =>
          simp only [known, Option.isNone_none, if_true, Option.map_eq_some_iff, Prod.mk.injEq]
            at missed
          obtain ⟨tokens, found, rfl, rfl⟩ := missed
          refine ⟨rfl, ?_, by simp [missing?, remember]⟩
          simp [Substitution.apply, Substitution.expandArgument, remember, known, expanding, found]
  | _ => simp [missing?] at missed

/-- An optional part does not need an argument by itself. -/
theorem missing_of_content {c : Call} {work : Substitution} {operation : Operation}
    (carries : operation.content ≠ []) : missing? c work operation = none := by
  cases operation with
  | argument token position => simp [Operation.content] at carries
  | _ => rfl

/-- A missing argument is one of the call. -/
theorem mem_of_missing {c : Call} {work : Substitution} {operation : Operation} {position : Nat}
    {argument : List Token} (missed : missing? c work operation = some (position, argument)) :
    argument ∈ c.arguments := by
  cases operation with
  | argument token asked =>
      simp only [missing?] at missed
      split at missed
      · obtain ⟨tokens, found, same⟩ := Option.map_eq_some_iff.mp missed
        cases same
        exact List.mem_of_getElem? found
      · cases missed
  | _ => simp [missing?] at missed

/-- Substitution takes one operation. If no optional part is substituted for it, it is carried out
at once. -/
theorem run_cons_of_no_content {language : Language} {p : Parameters} {args : List Argument}
    {token : Token} {rest after : List Token} {operation : Operation}
    (read : Operation.read p token rest = (operation, after))
    (bare : (Substitution.hasVariable args && operation.content ≠ []) = false) (s : Substitution) :
    Substitution.run language p args (token :: rest) s =
      Substitution.run language p args after (s.apply language args [] operation) := by
  rw [Substitution.run, read]
  by_cases present : Substitution.hasVariable args = true
  · have empty : operation.content = [] := by simpa [present] using bare
    simp only [present, if_true, empty, Substitution.run]
    rfl
  · simp only [present, Bool.false_eq_true, if_false]
    rfl

/-- An operation with an optional part that is substituted is carried out after that. -/
theorem run_cons_of_content {language : Language} {p : Parameters} {args : List Argument}
    {token : Token} {rest after : List Token} {operation : Operation}
    (read : Operation.read p token rest = (operation, after))
    (present : Substitution.hasVariable args = true) (s : Substitution) :
    Substitution.run language p args (token :: rest) s =
      let content := Substitution.run language p args operation.content s.inner
      let resumed : Substitution := { s with expanded := content.expanded, state := content.state }
      Substitution.run language p args after
        (resumed.apply language args content.result operation) := by
  rw [Substitution.run, read]
  simp only [present, if_true]

/-- Working through a replacement list ends, provided that expanding an argument does, and has the
result that `Substitution.run` has. -/
theorem reaches_rewrite (given : List Token) (c : Call) (waiting : List Waiting)
    (expands : ∀ tokens ∈ c.arguments, ∀ state waiting,
      Reaches ctx (.running (.scan [] tokens state) waiting)
        (handBack (expandAll ctx tokens state).1 (expandAll ctx tokens state).2 waiting))
    (body : List Token) (work : Substitution)
    (outer : List (Operation × List Token × Substitution)) :
    Reaches ctx (.running (.rewrite given { call := c, body, work, outer }) waiting)
      (.running
        (.rewrite given
          { call := c, body := [], outer,
            work := Substitution.run ctx.language c.called.parameters (expanding ctx c) body work })
        waiting) := by
  induction size : body.length using Nat.strongRecOn generalizing body work outer with
  | ind n ih =>
      cases body with
      | nil =>
          rw [Substitution.run]
          exact Reaches.refl _
      | cons token rest =>
          subst size
          have shorter := Operation.length_read c.called.parameters token rest
          generalize read : Operation.read c.called.parameters token rest = head at shorter
          obtain ⟨operation, after⟩ := head
          have goesOn (work : Substitution) :=
            ih after.length (Nat.lt_succ_of_le shorter.1) after work outer rfl
          -- Without an optional part to substitute first, the operation is the next step.
          have carriesOut (work : Substitution)
              (complete : missing? c work operation = none)
              (bare : (Substitution.hasVariable (expanding ctx c) && operation.content ≠ []) = false) :
              Reaches ctx
                (.running (.rewrite given { call := c, body := token :: rest, work, outer }) waiting)
                (.running
                  (.rewrite given
                    { call := c, body := [], outer,
                      work := Substitution.run ctx.language c.called.parameters (expanding ctx c)
                        after (work.apply ctx.language (expanding ctx c) [] operation) })
                  waiting) := by
            apply Reaches.head
            simp only [step, rewrite, read, complete, hasVariable_written ctx, bare,
              Bool.false_eq_true, if_false, carryOut]
            rw [apply_written_of_not_missing complete]
            exact goesOn _
          cases missed : missing? c work operation with
          | some found =>
              obtain ⟨position, argument⟩ := found
              obtain ⟨empty, same, complete⟩ := apply_of_missing ctx missed
              have bare :
                  (Substitution.hasVariable (expanding ctx c) && operation.content ≠ []) = false := by
                simp [empty]
              have asked : argument ∈ c.arguments := mem_of_missing missed
              rw [run_cons_of_no_content read bare]
              apply Reaches.head
              simp only [step, rewrite, read, missed]
              refine (expands argument asked _ _).trans ?_
              rw [handBack]
              have done := carriesOut _ complete bare
              rw [← apply_written_of_not_missing complete, same] at done
              exact done
          | none =>
              cases inner : Substitution.hasVariable (expanding ctx c) && operation.content ≠ [] with
              | false =>
                  rw [run_cons_of_no_content read inner]
                  exact carriesOut work missed inner
              | true =>
                  have present : Substitution.hasVariable (expanding ctx c) = true := by
                    simp only [Bool.and_eq_true] at inner
                    exact inner.1
                  rw [run_cons_of_content read present]
                  apply Reaches.head
                  simp only [step, rewrite, read, missed, hasVariable_written ctx, inner,
                    if_true]
                  refine (ih operation.content.length (Nat.lt_succ_of_le shorter.2) _ _ _ rfl).trans ?_
                  apply Reaches.head
                  have carries : operation.content ≠ [] := by
                    simp only [Bool.and_eq_true, decide_eq_true_eq] at inner
                    exact inner.2
                  simp only [step, rewrite, carryOut]
                  rw [apply_written_of_not_missing (missing_of_content carries)]
                  exact goesOn _

/-- Replacing a call ends with what `expandCall` gives in front of the tokens after it. -/
theorem reaches_replace (given : List Token) (c : Call) (state : State) (waiting : List Waiting)
    (expands : ∀ tokens ∈ c.arguments, ∀ state waiting,
      Reaches ctx (.running (.scan [] tokens state) waiting)
        (handBack (expandAll ctx tokens state).1 (expandAll ctx tokens state).2 waiting)) :
    Reaches ctx (.running (replace given c state) waiting)
      (.running
        (.scan given ((expandCall ctx c state).1 ++ c.rest) (expandCall ctx c state).2)
        waiting) := by
  refine (reaches_rewrite given c waiting expands c.called.body { state } []).trans ?_
  apply Reaches.head
  exact Reaches.refl _

/-! ## Scanning -/

/-- What becomes of the head of the input. -/
def afterHead (ctx : Context) (given : List Token) (state : State) : Head → Task
  | .plain token rest => .scan (token :: given) rest state
  | .builtin kind site rest =>
    .scan ((expandBuiltin ctx kind site state).1 :: given) rest (expandBuiltin ctx kind site state).2
  | .rejected code site rest => .scan (site :: given) rest (state.report site code site.lexeme)
  | .call c => replace given c state

/-- A call with its opening parenthesis read is replaced, or fails and leaves all as it was. -/
theorem afterArguments_eq_afterHead {m : Macro} {p : Parameters} {body : List Token}
    (replaced : m.replacement = .function p body) {opening : Token} (opens : opening.isOpen = true)
    (given : List Token) (site : Token) (inner : List Token) (state : State) :
    afterArguments given { called := m, parameters := p, site, consumed := [opening] } inner state
        (Arguments.read (Arguments.separators p) 0 inner) =
      afterHead ctx given state (Head.ofMacro m site (opening :: inner)) := by
  simp only [Head.ofMacro, replaced, opens, if_true]
  cases Arguments.read (Arguments.separators p) 0 inner with
  | none => rfl
  | some a =>
      simp only [afterArguments, joined, List.foldl_nil, List.reverse_nil, List.nil_append]
      cases Arguments.fit p a.pieces <;> rfl

/-- Scanning a token that does not end the file does what the head of the input asks for. -/
theorem reaches_scan (given : List Token) (token : Token) (rest : List Token) (state : State)
    (waiting : List Waiting) (more : token.isEnd = false) :
    Reaches ctx (.running (.scan given (token :: rest) state) waiting)
      (.running (afterHead ctx given state (Head.ofToken ctx.table token rest)) waiting) := by
  apply Reaches.head
  simp only [step, more, Bool.false_eq_true, if_false, scan, Head.ofToken]
  cases Head.called? ctx.table token with
  | none => exact Reaches.refl _
  | some m =>
      cases replaced : m.replacement with
      | builtin kind =>
          simp only [replaced, Head.ofMacro]
          exact Reaches.refl _
      | object body =>
          simp only [replaced, Head.ofMacro]
          exact Reaches.refl _
      | function p body =>
          cases rest with
          | nil =>
              simp only [replaced, Head.ofMacro]
              exact Reaches.refl _
          | cons opening inner =>
              by_cases opens : opening.isOpen = true
              · simp only [replaced, opens, if_true]
                rw [← afterArguments_eq_afterHead replaced opens]
                let c : Collection :=
                  { called := m, parameters := p, site := token, consumed := [opening] }
                have collected :
                    Reaches ctx (.running (.collect given c inner state) waiting)
                      (.running
                        (afterArguments given c inner state (Arguments.read (commas c) 0 inner))
                        waiting) :=
                  reaches_collect given c inner state waiting
                have allCommas : commas c = Arguments.separators p := by
                  show (Arguments.separators p).map (· - 0) = Arguments.separators p
                  cases Arguments.separators p <;> rfl
                rw [allCommas] at collected
                exact collected
              · simp only [replaced, opens, Head.ofMacro, Bool.false_eq_true, if_false]
                exact Reaches.refl _

/-- Where the input has no head, nothing is left to expand and scanning is over. -/
theorem reaches_of_no_head {tokens : List Token} (ended : Head.read ctx.table tokens = none)
    (given : List Token) (state : State) (waiting : List Waiting) :
    expandAll ctx tokens state = ([], state) ∧
      Reaches ctx (.running (.scan given tokens state) waiting)
        (handBack given.reverse state waiting) := by
  constructor
  · rw [expandAll]
    split
    · rfl
    all_goals simp_all
  · apply Reaches.head
    cases tokens with
    | nil => exact Reaches.refl _
    | cons token rest =>
        have isEnd : token.isEnd = true := by
          by_contra more
          simp [Head.read, more] at ended
        simp only [step, isEnd, if_true]
        exact Reaches.refl _

theorem expandAll_of_plain {tokens : List Token} {token : Token} {rest : List Token}
    (found : Head.read ctx.table tokens = some (.plain token rest)) (state : State) :
    expandAll ctx tokens state =
      (token :: (expandAll ctx rest state).1, (expandAll ctx rest state).2) := by
  rw [expandAll]
  split
  all_goals simp_all

theorem expandAll_of_builtin {tokens : List Token} {kind : Builtin} {site : Token}
    {rest : List Token} (found : Head.read ctx.table tokens = some (.builtin kind site rest))
    (state : State) :
    expandAll ctx tokens state =
      let built := expandBuiltin ctx kind site state
      (built.1 :: (expandAll ctx rest built.2).1, (expandAll ctx rest built.2).2) := by
  rw [expandAll]
  split
  all_goals simp_all

theorem expandAll_of_rejected {tokens : List Token} {code : Code} {site : Token}
    {rest : List Token} (found : Head.read ctx.table tokens = some (.rejected code site rest))
    (state : State) :
    expandAll ctx tokens state =
      let reported := state.report site code site.lexeme
      (site :: (expandAll ctx rest reported).1, (expandAll ctx rest reported).2) := by
  rw [expandAll]
  split
  all_goals simp_all

/-- Where the input has a head, scanning does what the head asks for. -/
theorem reaches_of_head {tokens : List Token} {head : Head}
    (found : Head.read ctx.table tokens = some head) (given : List Token) (state : State)
    (waiting : List Waiting) :
    Reaches ctx (.running (.scan given tokens state) waiting)
      (.running (afterHead ctx given state head) waiting) := by
  obtain ⟨token, rest, rfl, more, rfl⟩ := Head.eq_cons_of_read found
  exact reaches_scan given token rest state waiting more

/-- Scanning an input ends, and gives what `expandAll` gives. -/
theorem reaches_handBack (tokens : List Token) (state : State) (given : List Token)
    (waiting : List Waiting) :
    Reaches ctx (.running (.scan given tokens state) waiting)
      (handBack (given.reverse ++ (expandAll ctx tokens state).1) (expandAll ctx tokens state).2
        waiting) := by
  induction tokens, state using expandAll.induct ctx generalizing given waiting with
  | case1 tokens state ended =>
      obtain ⟨nothing, halts⟩ := reaches_of_no_head ended given state waiting
      rw [nothing, List.append_nil]
      exact halts
  | case2 tokens state token rest found more after expanded ih =>
      refine (reaches_of_head found given state waiting).trans ?_
      rw [expandAll_of_plain found, List.append_cons, ← List.reverse_cons]
      exact ih (token :: given) waiting
  | case3 tokens state kind site rest found token after built more last expanded ih =>
      refine (reaches_of_head found given state waiting).trans ?_
      rw [expandAll_of_builtin found, List.append_cons, ← List.reverse_cons]
      have builtin : expandBuiltin ctx kind site state = (token, after) := built
      simp only [afterHead, builtin]
      exact ih (token :: given) waiting
  | case4 tokens state code site rest found more after expanded ih =>
      refine (reaches_of_head found given state waiting).trans ?_
      rw [expandAll_of_rejected found, List.append_cons, ← List.reverse_cons]
      exact ih (site :: given) waiting
  | case5 tokens state c found args done inner _ ih =>
      refine (reaches_of_head found given state waiting).trans ?_
      have expands (tokens : List Token) (asked : tokens ∈ c.arguments) (state : State)
          (waiting : List Waiting) :
          Reaches ctx (.running (.scan [] tokens state) waiting)
            (handBack (expandAll ctx tokens state).1 (expandAll ctx tokens state).2 waiting) :=
        inner tokens asked state [] waiting
      refine (reaches_replace given c state waiting expands).trans ?_
      rw [expandAll_of_call found]
      have result : done = Substitution.run ctx.language c.called.parameters (expanding ctx c)
          c.called.body { state } := by
        simp only [done, args, expanding, List.map_attach_eq_pmap, List.pmap_eq_map]
      rw [result] at ih
      exact ih given waiting

/-- The tokens of a machine that has halted. -/
def result? : Machine → Option (List Token)
  | .running _ _ => none
  | .halted tokens _ => some tokens

/-- A machine that has halted after some number of steps holds the expansion of its input. The machine
evaluates where `expandAll` does not, so expansions of given texts are computed in this way. -/
theorem expandAll_of_result? {tokens result : List Token} {state : State} {n : Nat}
    (halts : result? ((step ctx)^[n] (start tokens state)) = some result) :
    (expandAll ctx tokens state).1 = result := by
  obtain ⟨k, whole⟩ : Reaches ctx (start tokens state)
      (.halted (expandAll ctx tokens state).1 (expandAll ctx tokens state).2) :=
    reaches_handBack tokens state [] []
  generalize reached : (step ctx)^[n] (start tokens state) = machine at halts
  cases machine with
  | running task waiting => cases halts
  | halted given last =>
      have sooner : (step ctx)^[k + n] (start tokens state) = .halted given last := by
        rw [Function.iterate_add_apply, reached, iterate_step_halted]
      have later : (step ctx)^[n + k] (start tokens state) =
          .halted (expandAll ctx tokens state).1 (expandAll ctx tokens state).2 := by
        rw [Function.iterate_add_apply, whole, iterate_step_halted]
      rw [Nat.add_comm, sooner, Machine.halted.injEq] at later
      exact later.1.symm.trans (Option.some.inj halts)

/-- Expansion terminates: on every input the machine halts after finitely many steps, with the tokens
and the state that `expandAll` gives. -/
theorem exists_halted_expandAll (ctx : Context) (tokens : List Token) (state : State) :
    ∃ n, ∀ k ≥ n, (step ctx)^[k] (start tokens state) =
      .halted (expandAll ctx tokens state).1 (expandAll ctx tokens state).2 := by
  have whole : Reaches ctx (start tokens state)
      (.halted (expandAll ctx tokens state).1 (expandAll ctx tokens state).2) :=
    reaches_handBack tokens state [] []
  obtain ⟨n, halts⟩ := whole
  refine ⟨n, fun k later => ?_⟩
  obtain ⟨more, rfl⟩ := Nat.exists_eq_add_of_le later
  rw [Nat.add_comm, Function.iterate_add_apply, halts]
  exact iterate_step_halted _ _ more

end CPreprocessor.Expansion.Machine
