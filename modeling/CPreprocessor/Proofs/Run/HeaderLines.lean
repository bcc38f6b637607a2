/-
# Reading a header and its lines

While the first reader has the header open, the second one reads the same items from its
main file. What they give and what their directives do is the same, since nothing that
the header does depends on the file it is in: a conditional directive goes on with what
the header itself has opened, for its lines are well nested
(`Directive.exists_conditions_nest`). At the end of the header the first reader goes back to its
main file, and the second one stands in the same place of its own (`InsideHeader.closes`). With the
steps outside of the header, every step of the first reader is followed, so the readers
are twins (`twins_inlined`).
-/
import CPreprocessor.Proofs.Run.Inlining

namespace CPreprocessor

namespace Directive

variable {d : Directive} {setup : Setup} {place : Place} {s t : Session}

/-- Only directives that include something ask for a header. -/
theorem kind_of_enter {header : Header} {site : Token}
    (asked : d.execute setup place s = (.enter header site, t)) :
    d.kind = .includeHeader ∨ d.kind = .includeNext := by
  have action : (d.execute setup place s).1 = .enter header site := congrArg Prod.fst asked
  unfold execute at action
  split at action
  · unfold carryOut at action
    split at action
    all_goals try cases action
    · exact .inl ‹_›
    · exact .inr ‹_›
    · unfold pragma at action
      repeat' split at action
      all_goals cases action
    all_goals
      unfold presentLine at action
      split at action
      · cases action
      · simp only [] at action
        repeat' split at action
        all_goals cases action
  · cases action

variable {stack stack' : List Bool} (nests : (Item.directive d).nest stack = some stack')
include nests

theorem length_nest : stack'.length = d.leavesOpen stack.length := by
  cases stack <;> cases kind : d.kind <;>
    simp [Item.nest, kind, DirectiveKind.opens, DirectiveKind.goesOn] at nests
  all_goals grind [leavesOpen, DirectiveKind.opens]

/-- Where a directive may stand that is conditional but opens nothing, a conditional is open. -/
theorem opens_of_nest (conditional : d.kind.isConditional = true) :
    d.kind.opens = true ∨ stack ≠ [] := by
  cases stack with
  | cons _ _ => exact .inr (List.cons_ne_nil _ _)
  | nil =>
    left
    cases kind : d.kind <;>
      simp [Item.nest, kind, DirectiveKind.opens, DirectiveKind.goesOn,
        DirectiveKind.isConditional] at nests conditional ⊢

variable {mine rest : List ConditionFrame} (here : ∀ c ∈ mine, c.includeDepth = place.includeDepth)
  (opened : mine.length = stack.length) (split : s.conditions.frames = mine ++ rest)
include here opened split

/-- A directive of well-nested lines is about the conditionals that the lines have opened. -/
theorem ownsTop_of_nest (v : View) : d.OwnsTop v place s := by
  cases conditional : d.kind.isConditional with
  | false => exact .inr (.inr (.inl conditional))
  | true =>
    obtain opens | nonempty := opens_of_nest nests conditional
    · exact .inr (.inl opens)
    · refine .inr (.inr (.inr fun frame top => ?_))
      cases mine with
      | nil => exact absurd (List.length_eq_zero_iff.mp opened.symm) nonempty
      | cons c more =>
        rw [ConditionStack.top?, split] at top
        cases top
        exact here _ List.mem_cons_self

/-- A directive of well-nested lines changes only the conditionals that the lines have opened. -/
theorem exists_conditions_nest :
    ∃ mine', mine'.length = stack'.length
      ∧ (d.execute setup place s).2.conditions.frames = mine' ++ rest := by
  cases conditional : d.kind.isConditional with
  | false =>
    refine ⟨mine, ?_, by rw [d.conditions_execute setup place s conditional, split]⟩
    rw [length_nest nests, opened]
    cases kind : d.kind <;>
      simp_all [leavesOpen, DirectiveKind.isConditional, DirectiveKind.opens]
  | true =>
    have present : d.kind.opens = true ∨ present? place (s.within ⟨mine ++ rest⟩) = mine.head? := by
      obtain opens | nonempty := opens_of_nest nests conditional
      · exact .inl opens
      · cases mine with
        | nil => exact absurd (List.length_eq_zero_iff.mp opened.symm) nonempty
        | cons c more =>
          exact .inr (by simp [present?, ConditionStack.top?, here c List.mem_cons_self])
    obtain ⟨mine', -, length, after⟩ :=
      Tops.exists_conditions_execute d setup ⟨here, present⟩ split
    exact ⟨mine', by rw [length, length_nest nests, opened], after⟩

end Directive

namespace Reader

variable {setup : Setup} {i : Inlining} {header : Header} {name : Text}
  {r r' next next' : Reader} {top main main' : Frame} {stack : List Bool}

/-- If only one file is open, it has opened all conditionals. -/
theorem Consistent.includeDepth_eq {frame : Frame} (consistent : r.Consistent setup)
    (isOpen : r.frames = [frame]) :
    ∀ c ∈ r.session.conditions.frames, c.includeDepth = r.place.includeDepth := by
  have layered := consistent.layered
  rw [isOpen] at layered
  obtain ⟨mine, rest, split, -, here, -, -, -, none⟩ := layered
  have none : rest = [] := none
  rw [none, List.append_nil] at split
  rw [split]
  simpa only [Reader.place, isOpen] using here

/-- The readers read on in the header and in its lines. -/
theorem InsideHeader.readOn (inside : r.InsideHeader setup known i header r' top main main' stack)
    {rest rest' : Lexer} {guard guard' : Guard} {stack' : List Bool}
    (isOpen : next.frames = [{ top with lexer := rest, guard }, main])
    (isOpen' : next'.frames = [{ main' with lexer := rest', guard := guard' }])
    (part : rest.ReadsPart .blind i.inlined i.language i.afterLines rest') (closes : rest.Closes stack')
    (conditions : next.session.conditions.SameBelow (.words setup known true) stack'.length
      top.conditionDepth next'.session.conditions) :
    next.InsideHeader setup known i header next' { top with lexer := rest, guard } main
      { main' with lexer := rest', guard := guard' } stack' where
  isOpen
  isOpen'
  isHeader := inside.isHeader
  notPreamble := inside.notPreamble
  number := inside.number
  upToLine := inside.upToLine
  mains := { inside.mains with lexer := trivial, file := rfl, guard := nofun }
  part
  closes
  goesOn := inside.goesOn
  conditions

/-- The readers go on in step in the header and its lines. -/
theorem InStep.inside_goOn (inStep : r.InStep setup known i header name r')
    (stepped : r.step setup = .goOn next) (stepped' : r'.step (setup.skipping false) = .goOn next')
    (queued : next.queued.map (Token.seen (.words setup known false))
      = next'.queued.map (Token.seen (.words setup known false)))
    (onceFiles : next.onceFiles = next'.onceFiles)
    (inside : next.InsideHeader setup known i header next' top main main' stack) :
    next.InStep setup known i header name next' :=
  ⟨inStep.consistent.of_goOn stepped, inStep.consistent'.of_goOn stepped',
    inStep.rooted.of_goOn inStep.consistent stepped, queued, onceFiles, .inr ⟨_, _, _, _, inside⟩⟩

/-- Errors do not end the run. -/
theorem reportSpelling_of_lenient (lenient : setup.config.failFast = false) (r : Reader) (token : Token) :
    r.reportSpelling setup token = { r with session := r.session.reportSpelling token } := by
  obtain ⟨status, reported⟩ := exists_reportSpelling setup r token
  have kept := status_reportSpelling lenient r token
  rw [reported] at kept ⊢
  rw [show status = r.status from kept]

section InsideHeader

variable (lenient : setup.config.failFast = false) (same : r.SameWords setup known r')
  (inStep : r.InStep setup known i header name r')
  (inside : r.InsideHeader setup known i header r' top main main' stack) (idle : r.queued = [])
  (goesOn : r.status ≠ .aborted)
include lenient same inStep inside idle goesOn

/-- The same tokens count in the header and in its lines. -/
theorem InsideHeader.followedBy_token {token token' : Token} {rest rest' : Lexer}
    (here : top.lexer.item = (.token token, rest)) (here' : main'.lexer.item = (.token token', rest'))
    (looks : token.seen .blind = token'.seen .blind)
    (part : rest.ReadsPart .blind i.inlined i.language i.afterLines rest') :
    FollowedBy setup known i header name (r.step setup) r' := by
  have idle' : r'.queued = [] := by
    have both := inStep.queued
    rwa [idle, List.map_nil, eq_comm, List.map_eq_nil_iff] at both
  have read := step_of_readToken setup idle inside.isOpen goesOn
  have read' := step_of_readToken (setup.skipping false) idle' inside.isOpen' (same.status ▸ goesOn)
  rw [readToken_eq, here] at read
  rw [readToken_eq, here'] at read'
  have closes := inside.closes.token here
  simp only [← same.session.isLive] at read read'
  cases live : r.session.conditions.isLive with
  | true =>
    rw [live, if_pos rfl, accept, reportSpelling_of_lenient lenient] at read
    rw [live, if_pos rfl, accept,
      reportSpelling_of_lenient (show (setup.skipping false).config.failFast = false from lenient)]
      at read'
    have marked : token.seen (View.words setup known false).spaced.marks
        = token'.seen (View.words setup known false).spaced.marks :=
      Token.seen_marks_of_seen (v := .words setup known false) looks
    rw [read]
    unfold FollowedBy
    rw [pull_of_give read']
    refine ⟨looks, ⟨same.session.reportSpelling marked, macros_of_give read ▸ same.clear, same.status,
      same.ending, same.baseFile⟩, .inr ⟨inStep.consistent.step (.inl read),
        inStep.consistent'.step (.inl read'), inStep.rooted.step inStep.consistent (.inl read),
        inStep.queued, inStep.onceFiles, .inr ⟨_, _, _, _, inside.readOn rfl rfl part closes ?_⟩⟩⟩
    rw [Session.conditions_reportSpelling, Session.conditions_reportSpelling]
    exact inside.conditions
  | false =>
    rw [live, if_neg Bool.false_ne_true] at read read'
    rw [read]
    exact ⟨_, pull_of_goOn read', ⟨same.session, same.clear, same.status, same.ending, same.baseFile⟩,
      .inr (inStep.inside_goOn read read' inStep.queued inStep.onceFiles
        (inside.readOn rfl rfl part closes inside.conditions))⟩

omit lenient goesOn in
/-- The directives of the header and of its lines do the same. -/
theorem InsideHeader.execute (can : r.CanInline setup known i header) {d d' : Directive} {rest : Lexer}
    (here : top.lexer.item = (.directive d, rest)) (looks : d.seen .blind = d'.seen .blind)
    {stack' : List Bool} (nests : (Item.directive d).nest stack = some stack') :
    (d.execute setup r.place r.session).1.seen (View.words setup known false).spaced
        = (d'.execute setup r'.place r'.session).1.seen (View.words setup known false).spaced
      ∧ Session.Alike (View.words setup known false).spaced (d.execute setup r.place r.session).2
          (d'.execute setup r'.place r'.session).2
      ∧ (d.execute setup r.place r.session).2.conditions.SameBelow (.words setup known true)
          stack'.length top.conditionDepth (d'.execute setup r'.place r'.session).2.conditions := by
  obtain ⟨mine, mine', base, base', split, split', opened, opened', depth, below⟩ := inside.conditions
  have nests' : (Item.directive d').nest stack = some stack' := by
    rw [← nests, ← Item.nest_seen .blind stack (.directive d), Item.seen, looks]
    exact (Item.nest_seen .blind stack (.directive d')).symm
  -- The innermost conditionals belong to the file that is read.
  obtain ⟨own, outer, split₁, depth₁, layer⟩ := inStep.consistent.exists_layer inside.isOpen
  obtain ⟨rfl, rfl⟩ := List.append_inj' (split₁.symm.trans split) (depth₁.trans depth.symm)
  have here' : ∀ c ∈ mine', c.includeDepth = r'.place.includeDepth := fun c member =>
    inStep.consistent'.includeDepth_eq inside.isOpen' c (split' ▸ List.mem_append_left _ member)
  have places : r.place.seen (View.words setup known false).spaced
      = r'.place.seen (View.words setup known false).spaced := by
    simp only [Reader.place, inside.isOpen, inside.isOpen', same.baseFile]
    rfl
  have still := can.still top main d rest inside.isUpToLine idle inside.isOpen inside.isHeader here
  obtain ⟨actions, sessions⟩ := same.session.execute looks setup places same.clear.spaced
    (can.directive top [main] d rest idle inside.isOpen here)
    (Directive.ownsTop_of_nest nests layer.here opened split _)
    (Directive.ownsTop_of_nest nests' here' opened' split' _) (.inr still)
  obtain ⟨after, length, frames⟩ :=
    @Directive.exists_conditions_nest _ setup _ _ _ _ nests _ _ layer.here opened split
  obtain ⟨after', length', frames'⟩ :=
    @Directive.exists_conditions_nest _ setup _ _ _ _ nests' _ _ here' opened' split'
  exact ⟨actions, sessions, after, after', _, _, frames, frames', length, length', depth, below⟩

/-- A directive of the header is followed. -/
theorem InsideHeader.followedBy_directive (can : r.CanInline setup known i header) {d d' : Directive}
    {rest rest' : Lexer} (here : top.lexer.item = (.directive d, rest))
    (here' : main'.lexer.item = (.directive d', rest')) (looks : d.seen .blind = d'.seen .blind)
    (part : rest.ReadsPart .blind i.inlined i.language i.afterLines rest')
    (presents : ∀ line shown, (rest.presentLine line shown).ReadsPart .blind i.inlined i.language
      i.afterLines (rest'.presentLine line shown))
    (clear : ∀ next, r.step setup = .goOn next →
      next.session.macros.IsClear (.words setup known false)) :
    FollowedBy setup known i header name (r.step setup) r' := by
  have idle' : r'.queued = [] := by
    have both := inStep.queued
    rwa [idle, List.map_nil, eq_comm, List.map_eq_nil_iff] at both
  obtain ⟨kind, stack', nests, closes⟩ := inside.closes.directive here
  obtain ⟨actions, sessions, conditions⟩ := inside.execute same inStep idle can here looks nests
  have read := step_of_readToken setup idle inside.isOpen goesOn
  have read' := step_of_readToken (setup.skipping false) idle' inside.isOpen' (same.status ▸ goesOn)
  rw [readToken_eq, here] at read
  rw [readToken_eq, here'] at read'
  simp only [afterDirective, checkAbort_of_lenient lenient] at read
  simp only [afterDirective, Directive.execute_skipping,
    checkAbort_of_lenient (show (setup.skipping false).config.failFast = false from lenient)] at read'
  generalize executed : d.execute setup r.place r.session = done at *
  generalize d'.execute setup r'.place r'.session = done' at *
  obtain ⟨action, s⟩ := done
  obtain ⟨action', s'⟩ := done'
  have clear := clear _ read
  rw [read]
  refine ⟨_, pull_of_goOn read', ?_⟩
  cases action with
  | enter header site =>
    exact ((Directive.kind_of_enter executed).elim kind.1 kind.2).elim
  | nothing =>
    cases action' <;> simp only [Action.seen, reduceCtorEq] at actions
    exact ⟨⟨sessions, clear, same.status, same.ending, same.baseFile⟩,
      .inr (inStep.inside_goOn read read' inStep.queued inStep.onceFiles
        (inside.readOn rfl rfl part closes conditions))⟩
  | once =>
    cases action' <;> simp only [Action.seen, reduceCtorEq] at actions
    refine ⟨⟨sessions, clear, same.status, same.ending, same.baseFile⟩, .inl ⟨?_, ?_⟩⟩
    · intro last isLast
      cases isLast
      exact inside.upToLine
    simp only [act, inside.notPreamble, Bool.false_eq_true, if_false, inside.isHeader]
    exact List.mem_cons_self
  | pass =>
    cases action' <;> simp only [Action.seen, reduceCtorEq] at actions
    have queued :
        (r.queued ++ d.tokens.map fun token : Token => { token with verbatim := true }).map
          (Token.seen (.words setup known false))
        = (r'.queued ++ d'.tokens.map fun token : Token => { token with verbatim := true }).map
          (Token.seen (.words setup known false)) := by
      rw [List.map_append, List.map_append, inStep.queued,
        Directive.passed_of_seen (v := .words setup known false) looks]
    exact ⟨⟨sessions, clear, same.status, same.ending, same.baseFile⟩,
      .inr (inStep.inside_goOn read read' queued inStep.onceFiles
        (inside.readOn rfl rfl part closes conditions))⟩
  | present line shown =>
    cases action' <;> simp only [Action.seen, reduceCtorEq, Action.present.injEq] at actions
    obtain ⟨rfl, rfl⟩ := actions
    exact ⟨⟨sessions, clear, same.status, same.ending, same.baseFile⟩,
      .inr (inStep.inside_goOn read read' inStep.queued inStep.onceFiles
        (inside.readOn rfl rfl (presents line shown) (closes.presentLine line shown) conditions))⟩

/-- At the end of the header the first reader goes back to its main file, and the second one goes on in
its own. -/
theorem InsideHeader.followedBy_finish {wanted : IncludeName} (proper : i.IsProper wanted)
    {final : { token : Token // token.isEnd = true }} {after y' : Lexer}
    (finish : top.lexer.item = (.finish final, after)) (following' : main'.lexer.item = y'.item)
    (later' : y'.Begins i.inlined i.language i.afterLines) :
    FollowedBy setup known i header name (r.step setup) r' := by
  obtain ⟨y, following, later⟩ := inside.goesOn
  obtain ⟨mine, mine', base, base', split, split', opened, opened', depth, below⟩ := inside.conditions
  rw [inside.closes.eq_nil_of_finish finish, List.length_nil, List.length_eq_zero_iff] at opened opened'
  subst opened opened'
  have level : top.conditionDepth = r.session.conditions.depth := by
    rw [← depth, ConditionStack.depth, split]
    rfl
  obtain ⟨journal, guards, status, closed⟩ :=
    exists_closeFile setup { top with lexer := after } [main] level final
  have kept := status_closeFile lenient r { top with lexer := after } [main] final
  have read := step_of_readToken setup idle inside.isOpen goesOn
  rw [readToken_eq, finish] at read
  simp only [closed] at read kept
  have mains : Frame.Alike (.words setup known true) (Lexer.SameWords i) main main' :=
    { inside.mains with
      lexer := .inr ⟨inside.number, .after following following' (Lexer.alike_after proper later later')⟩ }
  have conditions : r.session.conditions.seen (.words setup known true)
      = r'.session.conditions.seen (.words setup known true) := by
    simpa only [ConditionStack.seen, split, split', List.nil_append] using below
  rw [read]
  exact ⟨r', rfl, ⟨same.session.annotated rfl journal r'.session.journal, same.clear,
    kept.trans same.status, same.ending, same.baseFile⟩, .inr ⟨inStep.consistent.of_goOn read,
      inStep.consistent', inStep.rooted.of_goOn inStep.consistent read, inStep.queued, inStep.onceFiles,
      .inl ⟨inside.isOpen' ▸ .cons mains .nil, conditions⟩⟩⟩

omit idle goesOn in
/-- Every step in the header is followed. -/
theorem InsideHeader.followedBy {wanted : IncludeName} (proper : i.IsProper wanted)
    (can : r.CanInline setup known i header)
    (clear : ∀ next, r.step setup = .goOn next →
      next.session.macros.IsClear (.words setup known false)) :
    FollowedBy setup known i header name (r.step setup) r' := by
  by_cases waits : r.queued ≠ [] ∨ r.frames = [] ∨ r.status = .aborted
  · exact followedBy_of_waits same inStep waits
  · simp only [not_or, not_not] at waits
    obtain ⟨idle, -, goesOn⟩ := waits
    obtain ⟨final, after, y', finish, following', later'⟩ | ⟨more, looks, part, -, presents⟩ :=
      inside.part.item
    · exact inside.followedBy_finish lenient same inStep idle goesOn proper finish following' later'
    · cases here : top.lexer.item with
      | mk item rest =>
        cases here' : main'.lexer.item with
        | mk item' rest' =>
          rw [here] at looks part presents more
          rw [here'] at looks part presents
          cases item <;> cases item' <;> simp only [Item.seen, reduceCtorEq, Item.token.injEq,
            Item.directive.injEq] at looks
          case token.token =>
            exact inside.followedBy_token lenient same inStep idle goesOn here here' looks part
          case directive.directive =>
            exact inside.followedBy_directive lenient same inStep idle goesOn can here here' looks part
              presents clear
          case finish.finish final _ => exact absurd rfl (more final)

end InsideHeader

/-- The readers show the same of their places. -/
theorem SameWords.place (same : r.SameWords setup known r') :
    r.place.seen (View.words setup known false).spaced
      = r'.place.seen (View.words setup known false).spaced := by
  have shown (r : Reader) : r.place.seen (View.words setup known false).spaced
      = ⟨[], none, 0, r.baseFile⟩ := by
    unfold Reader.place
    split <;> rfl
  rw [shown, shown, same.baseFile]

section Run

variable {wanted : IncludeName} (fits : i.Fits setup name wanted header)
  (lenient : setup.config.failFast = false) (proper : setup.files.IsProper)
include fits lenient proper

/-- Every step of the first reader is followed. -/
theorem Inlines.followedBy (same : r.Inlines setup known i header name r')
    (can : ∀ passed, r.Passes setup passed → passed.CanInline setup known i header) :
    FollowedBy setup known i header name (r.step setup) r' := by
  have canHere := can r (.here r)
  have clear (next : Reader) (stepped : r.step setup = .goOn next) :
      next.session.macros.IsClear (.words setup known false) :=
    (can next (.later stepped (.here next))).clear
  obtain ⟨words, ⟨upTo, marked⟩ | inStep⟩ := same
  · exact absurd marked (canHere.unmarked upTo)
  · obtain outside | ⟨top, main, main', stack, inside⟩ := inStep.stage
    · obtain followed | ⟨frame, frame', x, x', arrives⟩ :=
        outside.followedBy lenient words inStep proper canHere clear
      · exact followed
      · exact followedBy_of_arrives fits lenient words inStep outside arrives proper canHere
    · exact inside.followedBy lenient words inStep fits.toIsProper canHere clear

/-- The tokens that are pulled are the same words. -/
theorem pull_inlined (same : r.Inlines setup known i header name r')
    (can : ∀ passed, r.Passes setup passed → passed.CanInline setup known i header) :
    (r.pull setup).1.seen (.words setup known false)
        = (r'.pull (setup.skipping false)).1.seen (.words setup known false)
      ∧ (r.pull setup).2.Inlines setup known i header name (r'.pull (setup.skipping false)).2 := by
  fun_induction Reader.pull setup r generalizing r' with
  | case1 r token next stepped =>
    have followed := same.followedBy fits lenient proper can
    rw [stepped] at followed
    exact followed
  | case2 r next stepped =>
    rename_i ih
    have followed := same.followedBy fits lenient proper can
    rw [stepped] at followed
    obtain ⟨last, goesOn, later⟩ := followed
    rw [goesOn]
    exact ih later fun passed more => can passed (.later stepped more)

/-- The readers of the two runs are twins. -/
theorem twins_inlined :
    Twins (.words setup known false) setup false (CanInline setup known i header)
      (Inlines setup known i header name) where
  mates same := ⟨same.1.session, same.1.clear, same.1.place, same.1.status⟩
  withSession same := same.withSession
  markedOnce same := same.markedOnce
  checked same := by
    rwa [checkAbort_skipping, checkAbort_of_lenient lenient, checkAbort_of_lenient lenient]
  finished same := same.finish
  pull same can := pull_inlined fits lenient proper same can
  speaks {r _} _ can := by
    obtain ⟨passed, passes, given⟩ := exists_passes_give setup r
    exact (can passed passes).given _ _ given

end Run

end Reader

end CPreprocessor
