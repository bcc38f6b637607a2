/-
# Collecting the arguments of a call

What a run takes next is pending, or its reader has to read it (`Preprocessor.Delivers`).
After the name of a function-like macro and a parenthesis the run gathers tokens, pending
ones and others, up to the parenthesis that closes the call and no further. If the
arguments fit, the tokens of the call are what has been taken; if not, that is reported,
and all that was gathered is taken again (`expandNext_collecting`). The expansion of a
list, which is all there at first, does the same (`expandAll_collecting`).
-/
import CPreprocessor.Proofs.Expansion.Arguments
import CPreprocessor.Proofs.Expansion.Termination
import CPreprocessor.Proofs.Guard.Include
import CPreprocessor.Proofs.Run.Journals

namespace CPreprocessor

/-! ## What is left to take -/

namespace Preprocessor

/-- The run takes these tokens, one after the other, and then it is the second run. -/
inductive Delivers (setup : Setup) : Preprocessor → List Token → Preprocessor → Prop where
  | nothing (p : Preprocessor) : Delivers setup p [] p
  | taking {p q r : Preprocessor} {token : Token} {tokens : List Token}
      (taken : p.take setup = (token, q)) (later : Delivers setup q tokens r) :
      Delivers setup p (token :: tokens) r

/-- The next `n` tokens that the run takes. -/
def delivered (setup : Setup) : Nat → Preprocessor → List Token
  | 0, _ => []
  | n + 1, p => (p.take setup).1 :: delivered setup n (p.take setup).2

variable {setup : Setup}

/-- Pending tokens are taken first. -/
theorem delivers_pending (r : Reader) (tokens rest : List Token) :
    Delivers setup ⟨r, tokens ++ rest⟩ tokens ⟨r, rest⟩ := by
  induction tokens with
  | nil => exact .nothing _
  | cons token tokens ih => exact .taking rfl ih

namespace Delivers

variable {p q r : Preprocessor} {tokens : List Token} (delivers : p.Delivers setup tokens q)
include delivers

theorem append {more : List Token} (later : q.Delivers setup more r) :
    p.Delivers setup (tokens ++ more) r := by
  induction delivers with
  | nothing p => exact later
  | taking taken _ ih => exact .taking taken (ih later)

/-- Tokens that have been taken and are put back are taken again. -/
theorem delivered_pushBack (n : Nat) : delivered setup n (q.pushBack tokens) = delivered setup n p := by
  induction delivers generalizing n with
  | nothing p => rfl
  | taking taken later ih =>
    cases n with
    | zero => rfl
    | succ n =>
      rw [delivered, delivered, taken, ← ih n]
      rfl

end Delivers

/-- What has been reported does not matter to what is taken. -/
theorem ReadsAs.delivered (lenient : setup.config.failFast = false) {p p' : Preprocessor}
    (same : p.ReadsAs p') (n : Nat) :
    Preprocessor.delivered setup n p = Preprocessor.delivered setup n p' := by
  induction n generalizing p p' with
  | zero => rfl
  | succ n ih =>
    obtain ⟨token, later⟩ := same.take lenient
    rw [Preprocessor.delivered, Preprocessor.delivered, token, ih later]

/-! ## Gathering -/

/-- What is gathered is taken from the reader. -/
theorem delivers_gather (setup : Setup) (depth : Nat) (r : Reader) :
    Delivers setup ⟨r, []⟩ (gather setup depth r).1 ⟨(gather setup depth r).2, []⟩ := by
  fun_induction gather setup depth r with
  | case1 depth r ended => exact .taking rfl (.nothing _)
  | case2 depth r inner goesOn more ih => exact .taking rfl ih

/-- The last token that is gathered is the first one that ends the call, or the file. -/
theorem gather_last (setup : Setup) (depth : Nat) (r : Reader) :
    ∃ before last, (gather setup depth r).1 = before ++ [last]
      ∧ (Arguments.depthAfter depth before).isSome = true := by
  fun_induction gather setup depth r with
  | case1 depth r ended => exact ⟨[], _, rfl, rfl⟩
  | case2 depth r inner goesOn more ih =>
    obtain ⟨before, last, split, isOpen⟩ := ih
    refine ⟨(r.pull setup).1 :: before, last, congrArg _ split, ?_⟩
    rw [← List.singleton_append, Arguments.depthAfter_append, goesOn]
    exact isOpen

/-- What is gathered for a name starts with the next token that the run takes. -/
theorem gatherCall_eq (setup : Setup) (q : Preprocessor) :
    gatherCall setup q.reader q.pending
      = gatherFrom setup (q.take setup).1 (q.take setup).2.pending (q.take setup).2.reader := by
  obtain ⟨reader, pending⟩ := q
  cases pending <;> rfl

end Preprocessor

/-- If a call is closed by a token, nothing before that token has closed it already. -/
theorem Arguments.eq_nil_of_closed {before between rest : List Token} {last close : Token}
    (isOpen : (depthAfter 0 before).isSome = true)
    (split : before ++ [last] = between ++ close :: rest) (balanced : IsBalanced between)
    (isClose : close.isClose = true) : rest = [] := by
  obtain rfl | ⟨others, final, rfl⟩ := rest.eq_nil_or_concat'
  · rfl
  · exfalso
    rw [← List.cons_append, ← List.append_assoc] at split
    obtain ⟨rfl, -⟩ := List.append_inj' split rfl
    obtain ⟨inner, goesOn⟩ := Option.isSome_iff_exists.mp isOpen
    have notOpen : close.isOpen = false := Token.isPunctuator_of_isPunctuator isClose _
    have notClosed := (depthAfter_eq_some_iff.mp goesOn).2.1 (between ++ [close]) (by simp)
    simp only [List.countP_append, List.countP_singleton, isClose, notOpen, if_true,
      Bool.false_eq_true, if_false, balanced.closed] at notClosed
    omega

namespace Preprocessor

variable {setup : Setup} {opening close : Token} {inner between rest gathered : List Token}
  {r r' : Reader}

/-- All that is gathered after an opening parenthesis is taken. -/
theorem delivers_gatherFrom (collected : gatherFrom setup opening inner r = (opening :: gathered, r')) :
    Delivers setup ⟨r, inner⟩ gathered ⟨r', []⟩ := by
  have pending := @delivers_pending setup r inner []
  rw [List.append_nil] at pending
  unfold gatherFrom at collected
  split at collected
  · cases collected
    exact pending
  · cases collected
    exact pending.append (delivers_gather setup _ r)

/-- No token after the parenthesis that closes a call is taken for the call. -/
theorem delivers_gatherFrom_closed (isOpen : opening.isOpen = true)
    (collected : gatherFrom setup opening inner r = (opening :: (between ++ close :: rest), r'))
    (balanced : Arguments.IsBalanced between) (isClose : close.isClose = true) :
    Delivers setup ⟨r, inner⟩ (between ++ [close]) ⟨r', rest⟩ := by
  have whole := delivers_gatherFrom collected
  simp only [gatherFrom, isOpen, if_true] at collected
  split at collected
  · obtain ⟨split, rfl⟩ := Prod.mk.inj collected
    obtain ⟨-, rfl⟩ := List.cons.inj split
    rw [← List.singleton_append, ← List.append_assoc]
    exact delivers_pending r (between ++ [close]) rest
  · rename_i depth unclosed
    obtain ⟨split, rfl⟩ := Prod.mk.inj collected
    obtain ⟨-, split⟩ := List.cons.inj split
    obtain ⟨before, last, form, goesOn⟩ := gather_last setup depth r
    rw [form, ← List.append_assoc] at split
    have unclosed : (Arguments.depthAfter 0 (inner ++ before)).isSome = true := by
      rw [Arguments.depthAfter_append, unclosed]
      exact goesOn
    obtain rfl := Arguments.eq_nil_of_closed unclosed split balanced isClose
    exact whole

/-! ## Calls -/

/-- What comes of the name of a function-like macro with a parenthesis after it. The first run has taken
the name and nothing after it. -/
inductive Collecting (setup : Setup) (m : Macro) (p : Parameters) (site : Token) (q : Preprocessor) :
    Token × Preprocessor → Prop where
  /-- The tokens of the call have been taken, and no others; what replaces it is expanded. -/
  | replaced {c : Call} {r : Reader} {taken : List Token} (called : c.called = m) (here : c.site = site)
      (collects : c.Collects p taken) (delivers : q.Delivers setup taken ⟨r, c.rest⟩) :
      Collecting setup m p site q ((replaceCall setup r c).expandNext setup)
  /-- The call is refused with one error, and what is left to take is what was left before. In a run
  that is to end with its first error this one ends it. -/
  | refused {code : Code} {r : Reader} {rest : List Token} (refuses : Arguments.Refuses p code rest)
      (delivers : q.Delivers setup rest ⟨r, []⟩)
      (restored : ∀ n, delivered setup n ⟨r, rest⟩ = delivered setup n q)
      (reported : ∃ d, (r.report site code site.lexeme).session.journal.entries
          = r.session.journal.entries ++ [d] ∧ d.code = code ∧ d.severity = .error)
      (goesOn : setup.config.failFast = false →
        ∀ n, delivered setup n ⟨r.report site code site.lexeme, rest⟩ = delivered setup n q)
      (ends : setup.config.failFast = true → r.status = .ok →
        ((r.report site code site.lexeme).checkAbort setup).status = .aborted) :
      Collecting setup m p site q (site, ⟨r.report site code site.lexeme, rest⟩)

end Preprocessor

/-- A call is refused with an error. -/
theorem Arguments.Refuses.severity {p : Parameters} {code : Code} {rest : List Token}
    (refuses : Refuses p code rest) : code.severity = .error := by
  cases refuses <;> rfl

namespace Expansion

/-- What comes of the name of a function-like macro with a parenthesis after it, in a list of tokens. -/
inductive Collecting (ctx : Context) (m : Macro) (p : Parameters) (site : Token) (after : List Token)
    (state : State) : List Token × State → Prop where
  /-- The tokens of the call are taken from the list, and what replaces it is expanded. -/
  | replaced {c : Call} {taken : List Token} (called : c.called = m) (here : c.site = site)
      (collects : c.Collects p taken) (delivers : after = taken ++ c.rest) :
      Collecting ctx m p site after state
        (expandAll ctx ((expandCall ctx c state).1 ++ c.rest) (expandCall ctx c state).2)
  /-- The call is refused with one error, and all that follows the name is still there. -/
  | refused {code : Code} (refuses : Arguments.Refuses p code after)
      (reported : ∃ d, (state.report site code site.lexeme).journal.entries
          = state.journal.entries ++ [d] ∧ d.code = code ∧ d.severity = .error) :
      Collecting ctx m p site after state
        (site :: (expandAll ctx after (state.report site code site.lexeme)).1,
          (expandAll ctx after (state.report site code site.lexeme)).2)

end Expansion

/-- The journal after a report has one more entry. -/
theorem Journal.entries_report (journal : Journal) (token : Token) {code : Code} (detail : Text)
    (severity : code.severity = .error) :
    ∃ d, (journal.report token code detail).entries = journal.entries ++ [d] ∧ d.code = code
      ∧ d.severity = .error :=
  ⟨_, rfl, rfl, severity⟩

section Collecting

variable {setup : Setup} {m : Macro} {ps : Parameters} {body : List Token} {site : Token}
  (isFunction : m.replacement = .function ps body)
include isFunction

/-- A run collects the arguments of a call, or it refuses the call and takes its tokens again. -/
theorem Preprocessor.expandNext_collecting {p q : Preprocessor} (taken : p.take setup = (site, q))
    (called : Head.called? q.reader.session.macros site = some m)
    (isOpen : (q.take setup).1.isOpen = true) : Collecting setup m ps site q (p.expandNext setup) := by
  have isFunctionLike : m.isFunctionLike = true := by rw [Macro.isFunctionLike, isFunction]
  -- What is gathered starts with the parenthesis.
  obtain ⟨gathered, r, collected⟩ :
      ∃ gathered r, gatherCall setup q.reader q.pending = ((q.take setup).1 :: gathered, r) := by
    rw [gatherCall_eq]
    unfold gatherFrom
    split <;> exact ⟨_, _, rfl⟩
  have head : headOfMacro setup m site q = (Head.ofMacro m site ((q.take setup).1 :: gathered), r) := by
    rw [headOfMacro, if_pos isFunctionLike, collected]
  rw [gatherCall_eq] at collected
  rw [expandNext_of_some taken called, head]
  obtain ⟨c, tokens, form, calls, here, split, collects⟩ | ⟨code, form, refuses⟩ :=
    Head.ofMacro_collects isFunction site isOpen gathered
  · rw [form]
    refine .replaced calls here collects ?_
    obtain ⟨opening, between, close, pieces, rfl, -, isClose, balanced, -⟩ := collects.split
    rw [List.cons_append, List.append_assoc, List.singleton_append] at split
    obtain ⟨rfl, rfl⟩ := List.cons.inj split
    exact .taking rfl (delivers_gatherFrom_closed isOpen collected balanced isClose)
  · rw [form]
    have delivers : q.Delivers setup ((q.take setup).1 :: gathered) ⟨r, []⟩ :=
      .taking rfl (delivers_gatherFrom collected)
    have restored (n : Nat) :
        delivered setup n ⟨r, (q.take setup).1 :: gathered⟩ = delivered setup n q := by
      rw [← delivers.delivered_pushBack n, pushBack, List.append_nil]
    refine .refused refuses delivers restored (Journal.entries_report _ _ _ refuses.severity) ?_ ?_
    · intro lenient n
      have same : ReadsAs ⟨r.report site code site.lexeme, (q.take setup).1 :: gathered⟩
          ⟨r, (q.take setup).1 :: gathered⟩ :=
        ⟨(Reader.ReadsAs.refl r).report_left site code site.lexeme, rfl⟩
      rw [same.delivered lenient, restored]
    · intro failFast ok
      obtain ⟨d, entries, -, severity⟩ :=
        Journal.entries_report r.session.journal site site.lexeme refuses.severity
      have counted : 0 < (r.report site code site.lexeme).session.journal.errorCount := by
        show 0 < (r.session.journal.report site code site.lexeme).entries.countP _
        rw [entries, List.countP_append]
        simp [severity]
      have goesOn : (r.report site code site.lexeme).status = .ok := ok
      simp [Reader.checkAbort, failFast, counted, goesOn]

/-- The expansion of a list collects the arguments of a call, or it refuses the call and goes on with
the tokens of the call. -/
theorem Expansion.expandAll_collecting {ctx : Context}
    (called : Head.called? ctx.table site = some m) {opening : Token} (isOpen : opening.isOpen = true)
    (inner : List Token) (state : State) :
    Collecting ctx m ps site (opening :: inner) state
      (expandAll ctx (site :: opening :: inner) state) := by
  have read : Head.read ctx.table (site :: opening :: inner)
      = some (Head.ofMacro m site (opening :: inner)) := by
    simp only [Head.read, Head.isEnd_of_called? called, Bool.false_eq_true, if_false, Head.ofToken,
      called]
  obtain ⟨c, tokens, form, calls, here, split, collects⟩ | ⟨code, form, refuses⟩ :=
    Head.ofMacro_collects isFunction site isOpen inner
  · rw [form] at read
    rw [expandAll_of_call read]
    exact .replaced calls here collects split
  · rw [form] at read
    rw [Machine.expandAll_of_rejected read]
    exact .refused refuses (Journal.entries_report _ _ _ refuses.severity)

/-- Wherever a function-like macro is named before a parenthesis, its arguments are collected from the
tokens that follow, or the call is refused with one error and nothing of what follows is lost. -/
theorem collects_or_restores :
    (∀ {p q : Preprocessor}, p.take setup = (site, q) →
      Head.called? q.reader.session.macros site = some m → (q.take setup).1.isOpen = true →
        Preprocessor.Collecting setup m ps site q (p.expandNext setup))
      ∧ ∀ {ctx : Expansion.Context} {opening : Token} (inner : List Token) (state : Expansion.State),
        Head.called? ctx.table site = some m → opening.isOpen = true →
          Expansion.Collecting ctx m ps site (opening :: inner) state
            (Expansion.expandAll ctx (site :: opening :: inner) state) :=
  ⟨fun taken called isOpen => Preprocessor.expandNext_collecting isFunction taken called isOpen,
    fun inner state called isOpen =>
      Expansion.expandAll_collecting isFunction called isOpen inner state⟩

end Collecting

/-! A macro with two parameters, in a call with two arguments and in one that is never closed. -/

/-- The macro `f(a, b)`, which puts its arguments the other way round. -/
def pairMacro : Macro where
  name := ['f']
  replacement := .function { named := [['a'], ['b']] }
    [{ kind := .identifier, lexeme := ['b'] }, { kind := .identifier, lexeme := ['a'] }]

/-- The name of the macro. -/
def pairName : Token where
  kind := .identifier
  lexeme := ['f']

/-- A parenthesis. -/
def pairOpening : Token where
  kind := .punctuator
  lexeme := ['(']

/-- What follows the name in the call `f(x, y)`. -/
def pairCall : List Token :=
  [pairOpening, { kind := .identifier, lexeme := ['x'] }, { kind := .punctuator, lexeme := [','] },
    { kind := .identifier, lexeme := ['y'] }, { kind := .punctuator, lexeme := [')'] }]

/-- The tokens are pending, and there is nothing more to read. -/
def pairRun (tokens : List Token) : Preprocessor where
  reader := { Reader.freshRun.reader with
    session := { Reader.freshRun.reader.session with macros := { macros := [pairMacro] } } }
  pending := tokens

/-- A list of tokens is expanded with the same macro. -/
def pairContext : Expansion.Context where
  table := { macros := [pairMacro] }
  language := .standard
  clock := default
  includeLevel := 0
  baseFile := []

/-- The arguments of the call are collected, and it is replaced; without its end it is refused. -/
theorem collects_or_restores_pair :
    (Preprocessor.Collecting {} pairMacro { named := [['a'], ['b']] } pairName (pairRun pairCall)
        ((pairRun (pairName :: pairCall)).expandNext {})
      ∧ Expansion.Collecting pairContext pairMacro { named := [['a'], ['b']] } pairName pairCall {}
        (Expansion.expandAll pairContext (pairName :: pairCall) {})
      ∧ (Expansion.expandAll pairContext (pairName :: pairCall) {}).1.map (·.lexeme)
        = [['y'], ['x']])
    ∧ Preprocessor.Collecting {} pairMacro { named := [['a'], ['b']] } pairName
        (pairRun [pairOpening]) ((pairRun [pairName, pairOpening]).expandNext {})
      ∧ Expansion.Collecting pairContext pairMacro { named := [['a'], ['b']] } pairName [pairOpening] {}
        (Expansion.expandAll pairContext [pairName, pairOpening] {})
      ∧ (Expansion.expandAll pairContext [pairName, pairOpening] {}).1.map (·.lexeme)
        = [['f'], ['(']] := by
  have both := @collects_or_restores {} pairMacro { named := [['a'], ['b']] } _ pairName rfl
  obtain ⟨given, replaced, lexemes⟩ :
      ∃ output ∈ Expansion.Machine.result? ((Expansion.Machine.step pairContext)^[20]
          (Expansion.Machine.start (pairName :: pairCall) {})),
        output.map (·.lexeme) = [['y'], ['x']] := by
    decide +kernel
  obtain ⟨kept, refused, same⟩ :
      ∃ output ∈ Expansion.Machine.result? ((Expansion.Machine.step pairContext)^[20]
          (Expansion.Machine.start [pairName, pairOpening] {})),
        output.map (·.lexeme) = [['f'], ['(']] := by
    decide +kernel
  refine ⟨⟨both.1 rfl rfl rfl, both.2 _ {} rfl rfl, ?_⟩, both.1 rfl rfl rfl, both.2 [] {} rfl rfl, ?_⟩
  · rwa [Expansion.Machine.expandAll_of_result? replaced]
  · rwa [Expansion.Machine.expandAll_of_result? refused]

end CPreprocessor
