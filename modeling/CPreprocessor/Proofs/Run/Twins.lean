/-
# Twin runs

Two runs are twins if their readers are: each reader gives a token that looks like the
one of the other and stays a twin of it, and so it does if both are changed alike
between two steps of reading (`Reader.Twins`). What is asked of the readers is then the
same in both runs, from the gathering of arguments (`Twins.gather`) to the tokens
of the runs (`Twins.tokensWithin`). What is read in the first run has to be words that the view is
for; then so is all that it expands. The readers of the second run may treat guarded
headers in another way, and what is known of a reader may depend on where the first run
goes, so twins have to be found for the readers that this run passes only.
-/
import CPreprocessor.Proofs.Places.Reader
import CPreprocessor.Proofs.Run.Invariant
import CPreprocessor.Proofs.Run.Passing

namespace CPreprocessor

namespace Reader

/-- Do not read the innermost file again. -/
def markedOnce (r : Reader) : Reader :=
  { r with onceFiles := match r.frames with
    | [] => r.onceFiles
    | frame :: _ => if frame.isPreamble then r.onceFiles else frame.canonical :: r.onceFiles }

/-- Between two tokens the readers of twin runs show the same of what expansion depends on, and the view
shows what their macros ask for. -/
structure Mates (v : View) (r r' : Reader) : Prop where
  session : r.session.Alike v.spaced r'.session
  clear : r.session.macros.IsClear v
  place : r.place.seen v.spaced = r'.place.seen v.spaced
  status : r.status = r'.status

/-- Readers that `R` relates show the same, and they stay related if they are asked for tokens or changed
alike. What holds of the readers that are passed, `P`, may be used. -/
structure Twins (v : View) (setup : Setup) (skips : Bool) (P : Reader → Prop)
    (R : Reader → Reader → Prop) : Prop where
  mates : ∀ {r r'}, R r r' → r.Mates v r'
  withSession : ∀ {r r' s s'}, R r r' → s.conditions = r.session.conditions →
    s'.conditions = r'.session.conditions → s.Alike v.spaced s' → s.macros.IsClear v →
    R { r with session := s } { r' with session := s' }
  markedOnce : ∀ {r r'}, R r r' → R r.markedOnce r'.markedOnce
  checked : ∀ {r r'}, R r r' →
    R (r.checkAbort setup) (r'.checkAbort (setup.skipping skips))
  finished : ∀ {r r'}, R r r' →
    r.finish.1.seen v = r'.finish.1.seen v ∧ R r.finish.2 r'.finish.2
  pull : ∀ {r r'}, R r r' → (∀ passed, r.Passes setup passed → P passed) →
    (r.pull setup).1.seen v = (r'.pull (setup.skipping skips)).1.seen v
      ∧ R (r.pull setup).2 (r'.pull (setup.skipping skips)).2
  speaks : ∀ {r r'}, R r r' → (∀ passed, r.Passes setup passed → P passed) →
    v.vocabulary.has (r.pull setup).1.lexeme

/-- Readers that look alike file by file are twins, if the view shows what macros can ask for. -/
theorem twins_of_alike {v : View} {related : Lexer → Lexer → Prop} {setup : Setup} {skips : Bool}
    {P : Reader → Prop} {R : Reader → Reader → Prop} (clear : v.IsClear)
    (compared : v.reports = true ∨ setup.config.failFast = false)
    (alike : ∀ {r r'}, R r r' → r.Alike v related r')
    (beside : ∀ {r r' next next'}, R r r' → r.Beside next → r'.Beside next' →
      next.Alike v related next' → R next next')
    (pull : ∀ {r r'}, R r r' → (∀ passed, r.Passes setup passed → P passed) →
      (r.pull setup).1.seen v = (r'.pull (setup.skipping skips)).1.seen v
        ∧ R (r.pull setup).2 (r'.pull (setup.skipping skips)).2) :
    Twins v setup skips P R where
  mates related := ⟨(alike related).session, clear.table _, by rw [(alike related).place],
    (alike related).status⟩
  withSession related conditions conditions' same _ :=
    beside related ⟨rfl, rfl, rfl, conditions, id⟩ ⟨rfl, rfl, rfl, conditions', id⟩
      ((alike related).withSession same)
  markedOnce {r r'} related := by
    refine beside related ⟨rfl, rfl, rfl, rfl, id⟩ ⟨rfl, rfl, rfl, rfl, id⟩
      { alike related with onceFiles := ?_ }
    have frames := (alike related).frames
    have once := (alike related).onceFiles
    simp only [Reader.markedOnce]
    generalize r.frames = one, r'.frames = two at frames ⊢
    cases frames with
    | nil => exact once
    | cons first _ => simp only [first.isPreamble, first.canonical, once]
  checked related :=
    beside related (beside_checkAbort _ _) (beside_checkAbort _ _) ((alike related).checkAbort compared)
  finished related :=
    have finished := (alike related).finish
    ⟨finished.1, beside related (beside_finish _) (beside_finish _) finished.2⟩
  pull := pull
  speaks {r _} _ _ := clear.speaks [(r.pull setup).1] _ List.mem_cons_self

end Reader

namespace Preprocessor

/-- Runs with twin readers and with pending tokens that look alike and are words that the view is for. -/
structure Twins (v : View) (R : Reader → Reader → Prop) (p p' : Preprocessor) : Prop where
  readers : R p.reader p'.reader
  pending : p.pending.map (Token.seen v) = p'.pending.map (Token.seen v)
  speaks : v.Speaks p.pending

/-- Twin runs have found tokens that look alike and go on as twins. -/
structure TwinTokens (v : View) (R : Reader → Reader → Prop) (given given' : Token × Preprocessor) :
    Prop where
  looks : given.1.seen v = given'.1.seen v
  after : given.2.Twins v R given'.2

/-- The tokens that twin runs have found are a word that the view is for. -/
structure TwinWords (v : View) (R : Reader → Reader → Prop) (given given' : Token × Preprocessor) :
    Prop extends TwinTokens v R given given' where
  speaks : v.vocabulary.has given.1.lexeme

theorem Twins.pushBack {v : View} {R : Reader → Reader → Prop} {p p' : Preprocessor}
    (same : p.Twins v R p') {tokens tokens' : List Token}
    (looks : tokens.map (Token.seen v) = tokens'.map (Token.seen v)) (speaks : v.Speaks tokens) :
    (p.pushBack tokens).Twins v R (p'.pushBack tokens') :=
  ⟨same.readers, by simp only [Preprocessor.pushBack, List.map_append, looks, same.pending],
    List.forall_mem_append.mpr ⟨speaks, same.speaks⟩⟩

end Preprocessor

theorem Preprocessor.verbatim_seen {v : View} {token token' : Token}
    (looks : token.seen v = token'.seen v) :
    (verbatim token).seen v = (verbatim token').seen v :=
  congrArg verbatim looks

/-- The operand as it is seen. -/
def PragmaOperand.seen (v : View) (operand : PragmaOperand) : PragmaOperand where
  opening := operand.opening.seen v
  literal := operand.literal.seen v
  close := operand.close.seen v

theorem Preprocessor.Twins.passOperand {v : View} {R : Reader → Reader → Prop} {p p' : Preprocessor}
    (same : p.Twins v R p') {operand operand' : PragmaOperand} (looks : operand.seen v = operand'.seen v)
    (speaks : v.Speaks [operand.opening, operand.literal, operand.close]) :
    (p.passOperand operand).Twins v R (p'.passOperand operand') := by
  refine same.pushBack ?_ (List.forall_mem_map.mpr speaks)
  simp only [List.map_cons, List.map_nil, List.cons.injEq, and_true]
  exact ⟨verbatim_seen (congrArg PragmaOperand.opening looks),
    verbatim_seen (congrArg PragmaOperand.literal looks),
    verbatim_seen (congrArg PragmaOperand.close looks)⟩

theorem Preprocessor.builtin?_of_headOfMacro {setup : Setup} {m : Macro} {site token : Token}
    {q : Preprocessor} {kind : Builtin} {rest : List Token} {r : Reader}
    (found : headOfMacro setup m site q = (.builtin kind token rest, r)) : m.builtin? = some kind := by
  unfold headOfMacro at found
  split at found
  all_goals exact Head.builtin?_of_ofMacro (congrArg Prod.fst found)

theorem Preprocessor.called_of_headOfMacro {setup : Setup} {m : Macro} {site : Token}
    {q : Preprocessor} {c : Call} {r : Reader}
    (found : headOfMacro setup m site q = (.call c, r)) : c.called = m := by
  unfold headOfMacro at found
  split at found
  all_goals exact Head.called_of_ofMacro (congrArg Prod.fst found)

namespace Reader.Twins

open Preprocessor

variable {v : View} {setup : Setup} {skips : Bool} {P : Reader → Prop} {R : Reader → Reader → Prop}
  (twins : Reader.Twins v setup skips P R)
include twins

/-! ## Arguments -/

theorem gather {depth : Nat} {r r' : Reader} (same : R r r')
    (passed : ∀ x, GatherPasses setup depth r x → P x) :
    (gather setup depth r).1.map (Token.seen v)
        = (gather (setup.skipping skips) depth r').1.map (Token.seen v)
      ∧ v.Speaks (gather setup depth r).1
      ∧ R (gather setup depth r).2 (gather (setup.skipping skips) depth r').2 := by
  have depths {given given' : Token} (looks : given.seen v = given'.seen v) (depth : Nat) :
      Arguments.depthAfter depth [given'] = Arguments.depthAfter depth [given] := by
    rw [← Arguments.depthAfter_seen v depth [given], ← Arguments.depthAfter_seen v depth [given'],
      List.map_singleton, List.map_singleton, looks]
  fun_induction Preprocessor.gather setup depth r generalizing r' with
  | case1 depth r ends =>
    obtain ⟨looks, after⟩ := twins.pull same fun x pulled => passed x (.pulling pulled)
    have speaks := twins.speaks same fun x pulled => passed x (.pulling pulled)
    rw [gather_of_none ((depths looks depth).trans ends)]
    exact ⟨by rw [List.map_singleton, List.map_singleton, looks], List.forall_mem_singleton.mpr speaks,
      after⟩
  | case2 depth r inner goesOn more =>
    rename_i ih
    obtain ⟨looks, after⟩ := twins.pull same fun x pulled => passed x (.pulling pulled)
    have speaks := twins.speaks same fun x pulled => passed x (.pulling pulled)
    have later := ih after fun x gathered => passed x (.later goesOn gathered)
    rw [gather_of_some ((depths looks depth).trans goesOn)]
    exact ⟨by rw [List.map_cons, List.map_cons, looks, later.1],
      List.forall_mem_cons.mpr ⟨speaks, later.2.1⟩, later.2.2⟩

theorem gatherFrom {opening opening' : Token} {inner inner' : List Token} {r r' : Reader}
    (first : opening.seen v = opening'.seen v)
    (rest : inner.map (Token.seen v) = inner'.map (Token.seen v)) (speaks : v.Speaks (opening :: inner))
    (same : R r r')
    (passed : opening.isOpen = true → ∀ depth, Arguments.depthAfter 0 inner = some depth →
      ∀ x, GatherPasses setup depth r x → P x) :
    (gatherFrom setup opening inner r).1.map (Token.seen v)
        = (gatherFrom (setup.skipping skips) opening' inner' r').1.map (Token.seen v)
      ∧ v.Speaks (gatherFrom setup opening inner r).1
      ∧ R (gatherFrom setup opening inner r).2
        (gatherFrom (setup.skipping skips) opening' inner' r').2 := by
  have isOpen : opening'.isOpen = opening.isOpen :=
    (Token.congr_seen Token.isOpen (fun _ => rfl) first).symm
  have depths : Arguments.depthAfter 0 inner' = Arguments.depthAfter 0 inner := by
    rw [← Arguments.depthAfter_seen v 0 inner, rest, Arguments.depthAfter_seen]
  unfold Preprocessor.gatherFrom
  rw [isOpen, depths]
  split
  · exact ⟨by rw [List.map_cons, List.map_cons, first, rest], speaks, same⟩
  · rename_i depth unclosed
    have opens : opening.isOpen = true ∧ Arguments.depthAfter 0 inner = some depth := by
      split at unclosed
      · exact ⟨by assumption, unclosed⟩
      · cases unclosed
    have gathered := twins.gather same (passed opens.1 depth opens.2)
    exact ⟨by simp only [List.map_cons, List.map_append, first, rest, gathered.1],
      List.forall_mem_append.mpr ⟨speaks, gathered.2.1⟩, gathered.2.2⟩

theorem gatherCall {pending pending' : List Token} {r r' : Reader}
    (rest : pending.map (Token.seen v) = pending'.map (Token.seen v)) (speaks : v.Speaks pending)
    (same : R r r')
    (passed : ∀ x, CallPasses setup pending r x → P x) :
    (gatherCall setup r pending).1.map (Token.seen v)
        = (gatherCall (setup.skipping skips) r' pending').1.map (Token.seen v)
      ∧ v.Speaks (gatherCall setup r pending).1
      ∧ R (gatherCall setup r pending).2 (gatherCall (setup.skipping skips) r' pending').2 := by
  cases pending with
  | cons opening inner =>
    cases pending' with
    | nil => cases rest
    | cons opening' inner' =>
      rw [List.map_cons, List.map_cons, List.cons.injEq] at rest
      exact twins.gatherFrom rest.1 rest.2 speaks same fun isOpen depth unclosed x gathered =>
        passed x (.pending isOpen unclosed gathered)
  | nil =>
    cases pending' with
    | cons opening' inner' => cases rest
    | nil =>
      obtain ⟨looks, after⟩ := twins.pull same fun x pulled => passed x (.pulling pulled)
      have word := twins.speaks same fun x pulled => passed x (.pulling pulled)
      apply twins.gatherFrom looks rfl (List.forall_mem_singleton.mpr word) after
      intro isOpen depth unclosed x gathered
      cases unclosed
      exact passed x (.pulled isOpen gathered)

/-- The heads of calls look alike. -/
theorem headOfMacro {m m' : Macro} (macros : m.seen v = m'.seen v) {site site' : Token}
    (looks : site.seen v = site'.seen v) (speaks : v.vocabulary.has site.lexeme)
    {p p' : Preprocessor} (same : p.Twins v R p')
    (passed : m.isFunctionLike = true → ∀ x, CallPasses setup p.pending p.reader x → P x) :
    (headOfMacro setup m site p).1.seen v
        = (headOfMacro (setup.skipping skips) m' site' p').1.seen v
      ∧ (headOfMacro setup m site p).1.All (fun token => v.vocabulary.has token.lexeme)
      ∧ R (headOfMacro setup m site p).2 (headOfMacro (setup.skipping skips) m' site' p').2 := by
  have calls : m'.isFunctionLike = m.isFunctionLike := by
    rw [← Macro.isFunctionLike_seen v m, macros, Macro.isFunctionLike_seen]
  unfold Preprocessor.headOfMacro
  rw [calls]
  split
  · rename_i isCall
    have gathered := twins.gatherCall same.pending same.speaks same.readers (passed isCall)
    refine ⟨?_, Head.all_of_ofMacro rfl speaks gathered.2.1, gathered.2.2⟩
    rw [← Head.ofMacro_seen, macros, looks, gathered.1, Head.ofMacro_seen]
  · refine ⟨?_, Head.all_of_ofMacro rfl speaks same.speaks, same.readers⟩
    rw [← Head.ofMacro_seen, macros, looks, same.pending, Head.ofMacro_seen]

theorem take {p p' : Preprocessor} (same : p.Twins v R p')
    (passed : p.pending = [] → ∀ x, p.reader.Passes setup x → P x) :
    TwinWords v R (p.take setup) (p'.take (setup.skipping skips)) := by
  have pending := same.pending
  unfold Preprocessor.take
  cases waiting : p.pending with
  | cons token rest =>
    cases waiting' : p'.pending with
    | nil => rw [waiting, waiting'] at pending; cases pending
    | cons token' rest' =>
      rw [waiting, waiting', List.map_cons, List.map_cons, List.cons.injEq] at pending
      obtain ⟨word, words⟩ := List.forall_mem_cons.mp (waiting ▸ same.speaks)
      exact ⟨⟨pending.1, same.readers, pending.2, words⟩, word⟩
  | nil =>
    cases waiting' : p'.pending with
    | cons token' rest' => rw [waiting, waiting'] at pending; cases pending
    | nil =>
      obtain ⟨looks, after⟩ := twins.pull same.readers (passed waiting)
      exact ⟨⟨looks, after, rfl, List.forall_mem_nil _⟩, twins.speaks same.readers (passed waiting)⟩

/-! ## Expansion -/

/-- Readers stay twins if expansion has done the same to them. -/
theorem withExpansion {r r' : Reader} (same : R r r') {t : Session} {x x' y : Expansion.State}
    (shows : Session.Shows v.spaced r.session t) (shows' : Session.Shows v.spaced r'.session t)
    (one : Expansion.State.Alike v x y) (two : Expansion.State.Alike v x' y) :
    R (withExpansion r x) (withExpansion r' x') :=
  twins.withSession same rfl rfl
    ⟨_, shows.withExpansion ⟨one.counter, one.journal⟩, shows'.withExpansion ⟨two.counter, two.journal⟩⟩
    (twins.mates same).clear

theorem report {r r' : Reader} (same : R r r') {token token' : Token}
    (looks : token.seen v = token'.seen v) (code : Code) {detail detail' : Text}
    (details : v.reports = true → detail = detail') :
    R (r.report token code detail) (r'.report token' code detail') :=
  have marked : token.seen v.marks = token'.seen v.marks := Token.seen_marks_of_seen looks
  twins.withSession same rfl rfl ((twins.mates same).session.report marked code details)
    (twins.mates same).clear

theorem reportAt {p p' : Preprocessor} (same : p.Twins v R p') {token token' : Token}
    (looks : token.seen v = token'.seen v) (code : Code) {detail detail' : Text}
    (details : v.reports = true → detail = detail') :
    (p.report token code detail).Twins v R (p'.report token' code detail') :=
  ⟨twins.report same.readers looks code details, same.pending, same.speaks⟩

theorem macros {r r' : Reader} (same : R r r') :
    r.session.macros.seen v = r'.session.macros.seen v := by
  rw [← MacroTable.seen_spaced, (twins.mates same).session.macros, MacroTable.seen_spaced]

/-- What expansion depends on looks the same. -/
theorem context {r r' : Reader} (same : R r r') :
    (context setup r).seen v = (context (setup.skipping skips) r').seen v := by
  have level := congrArg Place.includeDepth (twins.mates same).place
  have base := congrArg Place.baseFile (twins.mates same).place
  rw [Place.includeDepth_seen, Place.includeDepth_seen] at level
  rw [Place.baseFile_seen, Place.baseFile_seen] at base
  simp only [Preprocessor.context, Session.context, Expansion.Context.seen, twins.macros same, base]
  exact congrArg (fun depth : Nat => (⟨_, _, _, depth, _⟩ : Expansion.Context)) level

theorem expandBuiltin {r r' : Reader} (same : R r r') {kind : Builtin} (sees : v.sees kind = true)
    {site site' : Token} (looks : site.seen v = site'.seen v) :
    let done := Expansion.expandBuiltin (Preprocessor.context setup r) kind site r.session.expansion
    let done' := Expansion.expandBuiltin (Preprocessor.context (setup.skipping skips) r') kind site'
      r'.session.expansion
    done.1.seen v = done'.1.seen v
      ∧ R (Preprocessor.withExpansion r done.2) (Preprocessor.withExpansion r' done'.2) := by
  intro done done'
  obtain ⟨t, shows, shows'⟩ := (twins.mates same).session
  have one := Expansion.expandBuiltin_seen (v := v) (Preprocessor.context setup r) sees site
    ⟨shows.expansion.counter, shows.expansion.journal⟩
  have two := Expansion.expandBuiltin_seen (v := v)
    (Preprocessor.context (setup.skipping skips) r') sees site'
    ⟨shows'.expansion.counter, shows'.expansion.journal⟩
  rw [← twins.context same, ← looks] at two
  exact ⟨one.1.symm.trans two.1, twins.withExpansion same shows shows' one.2 two.2⟩

theorem replaceCall {r r' : Reader} (same : R r r') {c c' : Call} (called : c.called.IsClear v)
    (calls : c.seen v = c'.seen v)
    (all : (Head.call c).All fun token => v.vocabulary.has token.lexeme) :
    (replaceCall setup r c).Twins v R (replaceCall (setup.skipping skips) r' c') := by
  have called' : c'.called.IsClear v := by
    have macros : c.called.seen v = c'.called.seen v := congrArg Call.called calls
    rw [← Macro.isClear_seen v, ← macros, Macro.isClear_seen]
    exact called
  obtain ⟨t, shows, shows'⟩ := (twins.mates same).session
  have clear : (Preprocessor.context setup r).table.IsClear v := (twins.mates same).clear
  have clear' : (Preprocessor.context (setup.skipping skips) r').table.IsClear v :=
    clear.of_seen (twins.macros same)
  obtain ⟨written, after⟩ := all
  have written' (tokens) (member : tokens ∈ c'.arguments) : v.Speaks tokens := by
    have arguments : c.arguments.map (·.map (Token.seen v)) = c'.arguments.map (·.map (Token.seen v)) :=
      congrArg Call.arguments calls
    obtain ⟨own, inside, looks⟩ := List.mem_map.mp (arguments ▸ List.mem_map_of_mem member)
    exact View.Speaks.of_seen (written own inside) looks
  have one := Expansion.expandCall_seen clear called written
    ⟨shows.expansion.counter, shows.expansion.journal⟩
  have two := Expansion.expandCall_seen clear' called' written'
    ⟨shows'.expansion.counter, shows'.expansion.journal⟩
  rw [← twins.context same, ← calls] at two
  refine ⟨twins.withExpansion same shows shows' one.state two.state, ?_,
    List.forall_mem_append.mpr ⟨clear.preserves.expandCall called.brings written _, after⟩⟩
  have rest : c.rest.map (Token.seen v) = c'.rest.map (Token.seen v) := congrArg Call.rest calls
  simp only [Preprocessor.replaceCall, List.map_append, rest]
  rw [← one.tokens, two.tokens]

theorem called {p p' : Preprocessor} (same : p.Twins v R p') {site site' : Token}
    (looks : site.seen v = site'.seen v) :
    (Head.called? p.reader.session.macros site).map (Macro.seen v)
      = (Head.called? p'.reader.session.macros site').map (Macro.seen v) := by
  rw [← Head.called?_seen, twins.macros same.readers, looks, Head.called?_seen]

/-- Where the first run finds a call, the second one finds one that looks alike, and their heads look
alike. -/
theorem takeCall {p p' q : Preprocessor} {site : Token} {m : Macro} {head : Head} {r : Reader}
    (same : p.Twins v R p') (passed : ∀ x, ExpandPasses setup p x → P x)
    (taken : p.take setup = (site, q)) (called : Head.called? q.reader.session.macros site = some m)
    (found : Preprocessor.headOfMacro setup m site q = (head, r)) :
    ∃ site' q' m' head' r', p'.take (setup.skipping skips) = (site', q')
      ∧ Head.called? q'.reader.session.macros site' = some m'
      ∧ Preprocessor.headOfMacro (setup.skipping skips) m' site' q' = (head', r')
      ∧ site.seen v = site'.seen v ∧ head.seen v = head'.seen v ∧ R r r' ∧ m.IsClear v
      ∧ v.vocabulary.has site.lexeme ∧ head.All fun token => v.vocabulary.has token.lexeme := by
  have took := twins.take same fun nothing x pulled => passed x (.taking nothing pulled)
  rw [taken] at took
  have calls := twins.called took.after took.looks
  rw [called, Option.map_some, eq_comm, Option.map_eq_some_iff] at calls
  obtain ⟨m', called', macros⟩ := calls
  have heads := twins.headOfMacro macros.symm took.looks took.speaks took.after
    fun isCall x gathered => passed x (.gathering taken called isCall gathered)
  rw [found] at heads
  exact ⟨_, _, m', _, _, rfl, called', rfl, took.looks, heads.1, heads.2.2,
    (twins.mates took.after.readers).clear.macros m (Head.mem_of_called? called), took.speaks,
    heads.2.1⟩

theorem expandNext {p p' : Preprocessor} (same : p.Twins v R p')
    (passed : ∀ x, ExpandPasses setup p x → P x) :
    TwinWords v R (p.expandNext setup) (p'.expandNext (setup.skipping skips)) := by
  fun_induction Preprocessor.expandNext setup p generalizing p' with
  | case1 p site q taken notCalled =>
    have took := twins.take same fun nothing x pulled => passed x (.taking nothing pulled)
    rw [taken] at took
    have calls := twins.called took.after took.looks
    rw [notCalled, Option.map_none, eq_comm, Option.map_eq_none_iff] at calls
    rw [expandNext_of_none rfl calls]
    exact took
  | case2 p site q taken m called token rest r found =>
    obtain ⟨site', q', m', head', r', taken', called', found', looks, heads, after, -, word, all⟩ :=
      twins.takeCall same passed taken called found
    rw [expandNext_of_some taken' called']
    simp only [found']
    cases head' <;> simp only [Head.seen, reduceCtorEq, Head.plain.injEq] at heads
    exact ⟨⟨looks, after, heads.2, all.2⟩, word⟩
  | case3 p site q taken m called kind token rest r found =>
    obtain ⟨site', q', m', head', r', taken', called', found', looks, heads, after, clear, word, all⟩ :=
      twins.takeCall same passed taken called found
    rw [expandNext_of_some taken' called']
    simp only [found']
    cases head' <;> simp only [Head.seen, reduceCtorEq, Head.builtin.injEq] at heads
    obtain ⟨rfl, -, rests⟩ := heads
    have named := (Head.name_of_called? called).1
    have sees := clear.builtin kind (builtin?_of_headOfMacro found) (named ▸ word)
    have built := twins.expandBuiltin after sees looks
    have table : (Preprocessor.context setup r).table.IsClear v := (twins.mates after).clear
    exact ⟨⟨built.1, built.2, rests, all⟩, table.preserves.builtin kind site _⟩
  | case4 p site q taken m called code token rest r found =>
    obtain ⟨site', q', m', head', r', taken', called', found', looks, heads, after, -, word, all⟩ :=
      twins.takeCall same passed taken called found
    rw [expandNext_of_some taken' called']
    simp only [found']
    cases head' <;> simp only [Head.seen, reduceCtorEq, Head.rejected.injEq] at heads
    obtain ⟨rfl, -, rests⟩ := heads
    have lexeme : site.lexeme = site'.lexeme := Token.congr_seen Token.lexeme (fun _ => rfl) looks
    rw [lexeme]
    exact ⟨⟨looks, twins.report after looks _ fun _ => rfl, rests, all.2⟩, word⟩
  | case5 p site q taken m called c r found ih =>
    obtain ⟨site', q', m', head', r', taken', called', found', looks, heads, after, clear, -, all⟩ :=
      twins.takeCall same passed taken called found
    rw [expandNext_of_some taken' called']
    simp only [found']
    cases head' <;> simp only [Head.seen, reduceCtorEq, Head.call.injEq] at heads
    exact ih (twins.replaceCall after (called_of_headOfMacro found ▸ clear) heads all)
      fun x expanded => passed x (.again taken called found expanded)

/-! ## Pragma operators -/

theorem readOperand {keyword keyword' : Token} (looks : keyword.seen v = keyword'.seen v)
    {p p' : Preprocessor} (same : p.Twins v R p') (passed : ∀ x, OperandPasses setup p x → P x) :
    (p.readOperand setup keyword).1.map (PragmaOperand.seen v)
        = (p'.readOperand (setup.skipping skips) keyword').1.map (PragmaOperand.seen v)
      ∧ (∀ operand ∈ (p.readOperand setup keyword).1,
        v.Speaks [operand.opening, operand.literal, operand.close])
      ∧ (p.readOperand setup keyword).2.Twins v R
        (p'.readOperand (setup.skipping skips) keyword').2 := by
  have opening := twins.expandNext same fun x expanded => passed x (.opening expanded)
  have isOpen : (p'.expandNext (setup.skipping skips)).1.isOpen = (p.expandNext setup).1.isOpen :=
    (Token.congr_seen Token.isOpen (fun _ => rfl) opening.looks).symm
  unfold Preprocessor.readOperand
  simp only [isOpen]
  split
  · refine ⟨rfl, fun _ found => absurd found (Option.not_mem_none _), opening.after.pushBack ?_
      (List.forall_mem_singleton.mpr opening.speaks)⟩
    rw [List.map_singleton, List.map_singleton, opening.looks]
  · rename_i opens
    have opens : (p.expandNext setup).1.isOpen = true := by simpa using opens
    have literal := twins.expandNext opening.after fun x expanded =>
      passed x (.literal opens expanded)
    have close := twins.expandNext literal.after fun x expanded => passed x (.close opens expanded)
    have kind := Token.congr_seen Token.kind (fun _ => rfl) literal.looks
    have isClose := Token.congr_seen Token.isClose (fun _ => rfl) close.looks
    have speaks : v.Speaks [(p.expandNext setup).1, ((p.expandNext setup).2.expandNext setup).1,
        (((p.expandNext setup).2.expandNext setup).2.expandNext setup).1] :=
      List.forall_mem_cons.mpr ⟨opening.speaks, List.forall_mem_cons.mpr ⟨literal.speaks,
        List.forall_mem_singleton.mpr close.speaks⟩⟩
    rw [← kind, ← isClose]
    split
    · refine ⟨?_, fun operand found => ?_, close.after⟩
      · simp only [Option.map_some, PragmaOperand.seen, opening.looks, literal.looks, close.looks]
      · cases found
        exact speaks
    · refine ⟨rfl, fun _ found => absurd found (Option.not_mem_none _),
        (twins.reportAt close.after looks _ fun _ => rfl).pushBack ?_ speaks⟩
      simp only [List.map_cons, List.map_nil, opening.looks, literal.looks, close.looks]

omit twins in
/-- The tokens of a pragma look alike, or both pragmas are no texts. -/
theorem pragmaTokens {keyword keyword' literal literal' : Token}
    (place : keyword.seen v = keyword'.seen v) (looks : literal.seen v = literal'.seen v) :
    (pragmaTokens setup keyword literal).toOption.map (List.map (Token.seen v.spaced))
        = (pragmaTokens (setup.skipping skips) keyword' literal').toOption.map
          (List.map (Token.seen v.spaced))
      ∧ (v.name = true → ∀ error, pragmaTokens setup keyword literal = .error error →
        pragmaTokens (setup.skipping skips) keyword' literal' = .error error) := by
  have file : v.spaced.file keyword.file = v.spaced.file keyword'.file := congrArg Token.file place
  have lexeme : literal.lexeme = literal'.lexeme := Token.congr_seen Token.lexeme (fun _ => rfl) looks
  have placed (keyword : Token) (tokens : List Token) :
      ((tokens.takeWhile (!·.isEnd)).map (·.placedAt keyword)).map (Token.seen v.spaced)
        = ((tokens.map (Token.seen v.spaced)).takeWhile (!·.isEnd)).map
          (·.placedAt (keyword.seen v)) := by
    rw [List.takeWhile_map, List.map_map, List.map_map]
    rfl
  have same := tokenize_congr file ((Spelling.content? literal'.lexeme).getD []) setup.config.language
  unfold Preprocessor.pragmaTokens
  simp only [lexeme]
  rw [show (setup.skipping skips).config = setup.config from rfl]
  cases one : tokenize ((Spelling.content? literal'.lexeme).getD []) (some keyword.file)
    setup.config.language <;>
  cases two : tokenize ((Spelling.content? literal'.lexeme).getD []) (some keyword'.file)
    setup.config.language <;>
  rw [one, two] at same <;>
  simp only [Except.toOption, Option.map_some, Option.map_none, reduceCtorEq, false_and,
    Option.some.injEq] at same
  case error.error =>
    refine ⟨rfl, fun named error found => ?_⟩
    cases found
    cases same.2 named _ rfl
    rfl
  case ok.ok =>
    refine ⟨?_, fun _ error found => by cases found⟩
    simp only [Except.map, Except.toOption, Option.map_some, placed, same.1, place]

theorem executePragma {keyword keyword' : Token} (place : keyword.seen v = keyword'.seen v)
    {args args' : List Token}
    (looks : args.map (Token.seen v.spaced) = args'.map (Token.seen v.spaced)) (speaks : v.Speaks args)
    {p p' : Preprocessor} (same : p.Twins v R p') :
    (p.executePragma setup keyword args).1.seen v.spaced
        = (p'.executePragma (setup.skipping skips) keyword' args').1.seen v.spaced
      ∧ (p.executePragma setup keyword args).2.Twins v R
        (p'.executePragma (setup.skipping skips) keyword' args').2 := by
  have mates := twins.mates same.readers
  have directives : (⟨keyword, some keyword, args⟩ : Directive).shown v.spaced
      = (⟨keyword', some keyword', args'⟩ : Directive).shown v.spaced :=
    Directive.shown_of_seen (by simp only [Directive.seen, Option.map_some, place, looks])
  have clear := mates.clear.spaced
  have clear' := mates.session.isClear clear
  have isLive := mates.session.isLive
  have alike : (Directive.pragma ⟨keyword, some keyword, args⟩ setup p.reader.place
          p.reader.session).1.seen v.spaced
        = (Directive.pragma ⟨keyword', some keyword', args'⟩ setup p'.reader.place
          p'.reader.session).1.seen v.spaced
      ∧ Session.Alike v.spaced
          (Directive.pragma ⟨keyword, some keyword, args⟩ setup p.reader.place p.reader.session).2
          (Directive.pragma ⟨keyword', some keyword', args'⟩ setup p'.reader.place
            p'.reader.session).2 := by
    obtain ⟨t, shows, shows'⟩ := mates.session
    have one := Directive.pragma_seen setup p.reader.place ⟨keyword, some keyword, args⟩ rfl shows clear
      speaks
    have two := Directive.pragma_seen setup p'.reader.place ⟨keyword', some keyword', args'⟩ rfl shows'
      clear' (View.Speaks.of_seen (v := v.spaced) speaks looks)
    rw [← directives, ← mates.place] at two
    exact ⟨one.1.symm.trans two.1, _, one.2, two.2⟩
  unfold Preprocessor.executePragma
  simp only [← isLive]
  split
  · exact ⟨alike.1, twins.withSession same.readers (Directive.conditions_pragma _ _ _ _)
      (Directive.conditions_pragma _ _ _ _) alike.2 (Directive.isClear_pragma _ _ _ mates.clear),
      same.pending, same.speaks⟩
  · exact ⟨rfl, same⟩

theorem markOnce {p p' : Preprocessor} (same : p.Twins v R p') :
    p.markOnce.Twins v R p'.markOnce := by
  rw [markOnce_eq, markOnce_eq]
  exact ⟨twins.markedOnce same.readers, same.pending, same.speaks⟩

theorem applyPragma {keyword keyword' literal literal' : Token}
    (place : keyword.seen v = keyword'.seen v) (looks : literal.seen v = literal'.seen v)
    (speaks : ∀ args, Preprocessor.pragmaTokens setup keyword literal = .ok args → v.Speaks args)
    {p p' : Preprocessor} (same : p.Twins v R p') :
    (p.applyPragma setup keyword literal).1
        = (p'.applyPragma (setup.skipping skips) keyword' literal').1
      ∧ (p.applyPragma setup keyword literal).2.Twins v R
        (p'.applyPragma (setup.skipping skips) keyword' literal').2 := by
  obtain ⟨tokens, errors⟩ := @pragmaTokens _ setup skips _ _ _ _ place looks
  unfold Preprocessor.applyPragma
  cases one : Preprocessor.pragmaTokens setup keyword literal <;>
  cases two : Preprocessor.pragmaTokens (setup.skipping skips) keyword' literal' <;>
  rw [one, two] at tokens errors <;>
  simp only [Except.toOption, Option.map_some, Option.map_none, reduceCtorEq,
    Option.some.injEq] at tokens
  case error.error error error' =>
    refine ⟨rfl, twins.reportAt same place _ fun compared => ?_⟩
    cases errors (v.reports_seen compared).1 _ rfl
    rfl
  case ok.ok args args' =>
    have executed := twins.executePragma place tokens (speaks args one) same
    simp only []
    generalize p.executePragma setup keyword args = done at executed ⊢
    generalize p'.executePragma (setup.skipping skips) keyword' args' = done' at executed ⊢
    obtain ⟨action, q⟩ := done
    obtain ⟨action', q'⟩ := done'
    obtain ⟨asks, after⟩ := executed
    cases action <;> cases action' <;> simp only [Action.seen, reduceCtorEq] at asks
    case once.once => exact ⟨rfl, twins.markOnce after⟩
    all_goals exact ⟨rfl, after⟩

/-! ## Tokens of the run -/

theorem isAborted {p p' : Preprocessor} (same : p.Twins v R p') : p.isAborted = p'.isAborted := by
  unfold Preprocessor.isAborted
  rw [(twins.mates same.readers).status]

theorem checkAbort {p p' : Preprocessor} (same : p.Twins v R p') :
    (p.checkAbort setup).Twins v R (p'.checkAbort (setup.skipping skips)) :=
  ⟨twins.checked same.readers, same.pending, same.speaks⟩

theorem finish {p p' : Preprocessor} (same : p.Twins v R p') :
    TwinTokens v R p.finish p'.finish := by
  have finished := twins.finished same.readers
  exact ⟨finished.1, finished.2, same.pending, same.speaks⟩

theorem give {token token' : Token} (looks : token.seen v = token'.seen v) {p p' : Preprocessor}
    (same : p.Twins v R p') : TwinTokens v R (give token p) (give token' p') := by
  unfold Preprocessor.give
  rw [twins.isAborted same]
  split
  · exact twins.finish same
  · exact ⟨looks, same⟩

/-- The first expanded tokens look alike, and the runs go on with them as twins. -/
theorem expandFirst {p p' : Preprocessor} (same : p.Twins v R p')
    (passed : ∀ x, NextPasses setup p x → P x) (running : p.isAborted = false) :
    (¬p'.isAborted = true)
      ∧ (p.expandNext setup).1.seen v = (p'.expandNext (setup.skipping skips)).1.seen v
      ∧ startsPragma (p'.expandNext (setup.skipping skips)).1 = startsPragma (p.expandNext setup).1
      ∧ ((p.expandNext setup).2.checkAbort setup).Twins v R
        ((p'.expandNext (setup.skipping skips)).2.checkAbort (setup.skipping skips)) := by
  have expanded := twins.expandNext same fun x expanded => passed x (.expanding running expanded)
  exact ⟨by simp [← twins.isAborted same, running], expanded.looks,
    (Token.congr_seen startsPragma (fun _ => rfl) expanded.looks).symm,
    twins.checkAbort expanded.after⟩

/-- The operands of a pragma operator look alike, where there is one to read. -/
theorem readNextOperand {p p' rest : Preprocessor} {found : Option PragmaOperand}
    (same : p.Twins v R p') (passed : ∀ x, NextPasses setup p x → P x) (running : p.isAborted = false)
    (starts : startsPragma (p.expandNext setup).1 = true)
    (goesOn : ((p.expandNext setup).2.checkAbort setup).isAborted = false)
    (read : ((p.expandNext setup).2.checkAbort setup).readOperand setup (p.expandNext setup).1
      = (found, rest)) :
    ∃ found' rest',
      ((p'.expandNext (setup.skipping skips)).2.checkAbort (setup.skipping skips)).readOperand
          (setup.skipping skips) (p'.expandNext (setup.skipping skips)).1 = (found', rest')
        ∧ found.map (PragmaOperand.seen v) = found'.map (PragmaOperand.seen v)
        ∧ (∀ operand ∈ found, v.Speaks [operand.opening, operand.literal, operand.close])
        ∧ rest.Twins v R rest' := by
  obtain ⟨-, looks, -, after⟩ := twins.expandFirst same passed running
  have operands := twins.readOperand looks after fun x operand =>
    passed x (.operand running rfl starts goesOn operand)
  rw [read] at operands
  exact ⟨_, _, rfl, operands⟩

/-- Pragma operators with operands that look alike are both given or both carried out. -/
theorem exists_applyPragma {keyword keyword' : Token} {operand operand' : PragmaOperand}
    {p p' q : Preprocessor} {passes : Bool} (looks : keyword.seen v = keyword'.seen v)
    (operands : operand.seen v = operand'.seen v)
    (speaks : ∀ args, Preprocessor.pragmaTokens setup keyword operand.literal = .ok args →
      v.Speaks args)
    (same : p.Twins v R p') (applied : p.applyPragma setup keyword operand.literal = (passes, q)) :
    ∃ q', p'.applyPragma (setup.skipping skips) keyword' operand'.literal = (passes, q')
      ∧ q.Twins v R q' := by
  have pragmas := twins.applyPragma looks (congrArg PragmaOperand.literal operands) speaks same
  rw [applied] at pragmas
  exact ⟨(p'.applyPragma (setup.skipping skips) keyword' operand'.literal).2,
    Prod.ext pragmas.1.symm rfl, pragmas.2⟩

theorem next {p p' : Preprocessor} (same : p.Twins v R p')
    (passed : ∀ x, NextPasses setup p x → P x)
    (applies : ∀ args, NextApplies setup p args → v.Speaks args) :
    TwinTokens v R (p.next setup) (p'.next (setup.skipping skips)) := by
  fun_induction Preprocessor.next setup p generalizing p' with
  | case1 p aborted =>
    rw [next_of_aborted (twins.isAborted same ▸ aborted)]
    exact twins.finish same
  | case2 p running token q pragma =>
    rename_i aborted
    obtain ⟨running', -, starts, after⟩ := twins.expandFirst same passed (by simpa using running)
    rw [next_of_running running', if_pos (starts.trans pragma),
      if_pos (twins.isAborted after ▸ aborted)]
    exact twins.finish after
  | case3 p running token q pragma goesOn rest =>
    rename_i read
    have running : p.isAborted = false := by simpa using running
    have asked : ((p.expandNext setup).2.checkAbort setup).isAborted = false := by simpa using goesOn
    obtain ⟨running', looks, starts, after⟩ := twins.expandFirst same passed running
    obtain ⟨found', rest', read', operands, -, later⟩ :=
      twins.readNextOperand same passed running pragma asked read
    rw [next_of_operator running' (starts.trans pragma) (twins.isAborted after ▸ goesOn), read']
    cases found' with
    | some operand' => cases operands
    | none => exact ⟨looks, later⟩
  | case4 p running token q pragma goesOn found rest read q'' =>
    rename_i done
    have running : p.isAborted = false := by simpa using running
    have asked : ((p.expandNext setup).2.checkAbort setup).isAborted = false := by simpa using goesOn
    obtain ⟨running', looks, starts, after⟩ := twins.expandFirst same passed running
    obtain ⟨found', rest', read', operands, speaks, later⟩ :=
      twins.readNextOperand same passed running pragma asked read
    rw [next_of_operator running' (starts.trans pragma) (twins.isAborted after ▸ goesOn), read']
    cases found' with
    | none => cases operands
    | some found' =>
      have operands : found.seen v = found'.seen v := Option.some.inj operands
      obtain ⟨q', done', last⟩ := twins.exists_applyPragma looks operands
        (fun args holds => applies args (.here running rfl pragma asked read holds)) later done
      simp only [afterOperand, done']
      exact twins.give (verbatim_seen looks)
        ((twins.checkAbort last).passOperand operands (speaks found rfl))
  | case5 p running token q pragma goesOn found rest read q'' =>
    rename_i done ih
    have running : p.isAborted = false := by simpa using running
    have asked : ((p.expandNext setup).2.checkAbort setup).isAborted = false := by simpa using goesOn
    obtain ⟨running', looks, starts, after⟩ := twins.expandFirst same passed running
    obtain ⟨found', rest', read', operands, -, later⟩ :=
      twins.readNextOperand same passed running pragma asked read
    rw [next_of_operator running' (starts.trans pragma) (twins.isAborted after ▸ goesOn), read']
    cases found' with
    | none => cases operands
    | some found' =>
      obtain ⟨q', done', last⟩ := twins.exists_applyPragma looks (Option.some.inj operands)
        (fun args holds => applies args (.here running rfl pragma asked read holds)) later done
      simp only [afterOperand, done']
      exact ih last (fun x more => passed x (.again running rfl pragma asked read done more))
        fun args more => applies args (.again running rfl pragma asked read done more)
  | case6 p running token q =>
    rename_i plain
    obtain ⟨running', looks, starts, after⟩ := twins.expandFirst same passed (by simpa using running)
    rw [next_of_running running', if_neg (starts ▸ plain)]
    exact twins.give looks after

/-- Twin runs give tokens that look alike, and their readers stay twins. -/
theorem tokensWithin {p p' : Preprocessor} (same : p.Twins v R p')
    (passed : ∀ x, p.Passes setup x → P x) (applies : ∀ args, p.Applies setup args → v.Speaks args)
    (n : Nat) :
    (p.tokensWithin setup n).1.map (Token.seen v)
        = (p'.tokensWithin (setup.skipping skips) n).1.map (Token.seen v)
      ∧ R (p.tokensWithin setup n).2.reader (p'.tokensWithin (setup.skipping skips) n).2.reader := by
  induction n generalizing p p' with
  | zero =>
    have finished := twins.finish same
    exact ⟨congrArg (fun token => [token]) finished.looks, finished.after.readers⟩
  | succ n ih =>
    have found := twins.next same (fun x next => passed x (.next next))
      fun args next => applies args (.next next)
    have isEnd : (p'.next (setup.skipping skips)).1.isEnd = (p.next setup).1.isEnd :=
      (Token.congr_seen Token.isEnd (fun _ => rfl) found.looks).symm
    unfold Preprocessor.tokensWithin
    simp only [isEnd]
    split
    · exact ⟨congrArg (fun token => [token]) found.looks, found.after.readers⟩
    · rename_i more
      have later := ih found.after (fun x later => passed x (.later (by simpa using more) later))
        fun args later => applies args (.later (by simpa using more) later)
      exact ⟨by rw [List.map_cons, List.map_cons, found.looks, later.1], later.2⟩

end Reader.Twins

end CPreprocessor
