/-
# Readers that look alike

Two readers are alike under a view if their sessions show the same, and their open
files look the same one by one: the same path, the same guard so far, and lexers that
are related in a way that a development chooses. As long as the next items of the
innermost files look the same, the readers make the same step and stay alike.
-/
import CPreprocessor.Proofs.Directive.Setups
import CPreprocessor.Proofs.Places.Directive

namespace CPreprocessor

/-- The setup in which headers that are known to be guarded are passed over, or are not. -/
def Setup.skipping (setup : Setup) (skips : Bool) : Setup :=
  { setup with skipsGuarded := skips }

section Skipping

variable (setup : Setup) (skips : Bool)

/-- Directives are carried out in the same way. -/
theorem Directive.execute_skipping (d : Directive) (place : Place) (s : Session) :
    d.execute (setup.skipping skips) place s = d.execute setup place s :=
  have same : (setup.skipping skips).DirectsAs setup := ⟨rfl, rfl, rfl, rfl, rfl⟩
  Directive.execute_congr same d place s

theorem Reader.checkAbort_skipping :
    checkAbort (setup.skipping skips) = checkAbort setup := rfl

theorem Reader.openHeader_skipping :
    openHeader (setup.skipping skips) = openHeader setup := rfl

end Skipping

variable {v : View}

/-! ## Sessions that show the same -/

namespace Session.Alike

variable {s s' : Session} (same : Session.Alike v s s')
include same

theorem macros : s.macros.seen v = s'.macros.seen v := by
  obtain ⟨t, shows, shows'⟩ := same
  rw [← shows.macros, ← shows'.macros]

theorem isDefined (name : Text) : s.macros.isDefined name = s'.macros.isDefined name := by
  rw [← MacroTable.isDefined_seen v, same.macros, MacroTable.isDefined_seen]

theorem conditions : s.conditions.seen v = s'.conditions.seen v := by
  obtain ⟨t, shows, shows'⟩ := same
  rw [← shows.conditions, ← shows'.conditions]

theorem isLive : s.conditions.isLive = s'.conditions.isLive := by
  rw [← ConditionStack.isLive_seen v, same.conditions, ConditionStack.isLive_seen]

theorem depth : s.conditions.depth = s'.conditions.depth := by
  rw [← ConditionStack.depth_seen v, same.conditions, ConditionStack.depth_seen]

theorem resolver (kept : v.answers = none) : s.resolver = s'.resolver := by
  obtain ⟨t, shows, shows'⟩ := same
  have one := shows.resolver
  have two := shows'.resolver
  simp only [Resolver.Shows, kept] at one two
  rw [← one, ← two]

theorem isClear {u : View} (clear : s.macros.IsClear u) : s'.macros.IsClear u :=
  clear.of_seen same.macros

theorem journal (compared : v.reports = true) : s.journal = s'.journal := by
  obtain ⟨t, shows, shows'⟩ := same
  exact (shows.expansion.journal compared).trans (shows'.expansion.journal compared).symm

/-- Tokens that look alike in reports are reported alike. -/
theorem report {token token' : Token} (looks : token.seen v.marks = token'.seen v.marks) (code : Code)
    {detail detail' : Text} (details : v.reports = true → detail = detail') :
    Session.Alike v (s.report token code detail) (s'.report token' code detail') := by
  obtain ⟨t, shows, shows'⟩ := same
  refine ⟨_, shows.report_shown token code detail, looks ▸ shows'.report_marks (fun compared => ?_) code⟩
  exact ⟨(token'.seen_seen _).symm, (details compared).symm⟩

theorem reportSpelling {token token' : Token} (looks : token.seen v.marks = token'.seen v.marks) :
    Session.Alike v (s.reportSpelling token) (s'.reportSpelling token') := by
  have error : token.error = token'.error := Token.congr_seen Token.error (fun _ => rfl) looks
  have lexeme : token.lexeme = token'.lexeme := Token.congr_seen Token.lexeme (fun _ => rfl) looks
  simp only [Session.reportSpelling, error]
  cases token'.error with
  | none => exact same
  | some error => exact same.report looks _ fun _ => lexeme

/-- Reports make no difference where they are not compared. -/
theorem annotated (hidden : v.reports = false) (journal journal' : Journal) :
    Session.Alike v (s.annotated journal) (s'.annotated journal') := by
  obtain ⟨t, shows, shows'⟩ := same
  have uncompared (j j' : Journal) (compared : v.reports = true) : j = j' := by
    rw [hidden] at compared
    cases compared
  exact ⟨t, ⟨shows.macros, shows.conditions, shows.resolver, shows.expansion.counter, uncompared _ _⟩,
    ⟨shows'.macros, shows'.conditions, shows'.resolver, shows'.expansion.counter, uncompared _ _⟩⟩

/-- Conditionals that a file leaves open are reported and closed in the same way. -/
theorem closeConditions {frame frame' : Frame} (base : frame.conditionDepth = frame'.conditionDepth) :
    Session.Alike v (Reader.closeConditions frame s) (Reader.closeConditions frame' s') := by
  obtain ⟨t, shows, shows'⟩ := same
  have closing {s : Session} (shows : Session.Shows v s t) (frame : Frame) :
      Session.Shows v (Reader.closeConditions frame s) (Reader.closeConditions frame t) := by
    have reported (unclosed : List ConditionFrame) {s t : Session} (shows : Session.Shows v s t) :
        Session.Shows v
          (unclosed.foldl (fun s condition => s.report condition.opener .unterminatedCondition []) s)
          ((unclosed.map (ConditionFrame.seen v)).foldl
            (fun s condition => s.report condition.opener .unterminatedCondition []) t) := by
      induction unclosed generalizing s t with
      | nil => exact shows
      | cons condition rest ih => exact ih (shows.report_shown condition.opener _ _)
    simp only [Reader.closeConditions, shows.conditions, ConditionStack.popAbove_seen]
    rw [← List.map_reverse]
    exact reported _ (shows.withConditions _)
  have sameDepth : Reader.closeConditions frame t = Reader.closeConditions frame' t := by
    simp only [Reader.closeConditions, base]
  exact ⟨_, closing shows frame, sameDepth ▸ closing shows' frame'⟩

end Session.Alike

/-- Directives that look alike look alike to a session. -/
theorem Directive.shown_of_seen {d d' : Directive} (looks : d.seen v = d'.seen v) :
    d.shown v.spaced = d'.shown v.spaced := by
  obtain ⟨hash, name, args⟩ := d
  obtain ⟨hash', name', args'⟩ := d'
  simp only [Directive.seen, mk.injEq] at looks
  obtain ⟨hashes, names, same⟩ := looks
  have marked : name.map (Token.seen v.marks) = name'.map (Token.seen v.marks) := by
    cases name <;> cases name' <;> simp only [Option.map_none, Option.map_some, reduceCtorEq,
      Option.some.injEq] at names ⊢
    exact Token.seen_marks_of_seen names
  simp only [shown, mk.injEq]
  exact ⟨Token.seen_marks_of_seen (v := v) hashes, marked, same⟩

/-- A pragma brings no macro that asks for something. -/
theorem Directive.isClear_pragma (d : Directive) (setup : Setup) (place : Place) {s : Session}
    (clear : s.macros.IsClear v) : (d.pragma setup place s).2.macros.IsClear v := by
  unfold pragma
  repeat' split
  all_goals first
    | exact clear
    | exact d.macros_reportExtra s 1 ▸ clear
    | exact clear.push _
    | exact clear.pop _

theorem Directive.tokens_of_seen {d d' : Directive} (looks : d.seen v = d'.seen v) :
    d.tokens.map (Token.seen v) = d'.tokens.map (Token.seen v) := by
  obtain ⟨hash, name, args⟩ := d
  obtain ⟨hash', name', args'⟩ := d'
  simp only [Directive.seen, mk.injEq] at looks
  obtain ⟨hashes, names, same⟩ := looks
  have names := congrArg Option.toList names
  simp only [Option.toList_map] at names
  simp only [tokens, List.map_cons, List.map_append, hashes, names, Token.map_seen_of_spaced same]

/-- What is passed on of directives that look alike looks alike. -/
theorem Directive.passed_of_seen {d d' : Directive} (looks : d.seen v = d'.seen v) :
    (d.tokens.map fun token => { token with verbatim := true }).map (Token.seen v)
      = (d'.tokens.map fun token => { token with verbatim := true }).map (Token.seen v) := by
  have verbatim (d : Directive) :
      (d.tokens.map fun token => { token with verbatim := true }).map (Token.seen v)
        = (d.tokens.map (Token.seen v)).map fun token => { token with verbatim := true } := by
    simp only [List.map_map]
    rfl
  rw [verbatim, verbatim, tokens_of_seen looks]

/-- Directives that look alike ask for the same, in places that look alike, if one looks nothing up or
what it finds can be told, and if it is known whose conditionals they go on with. -/
theorem Session.Alike.execute {s s' : Session} (same : Session.Alike v.spaced s s')
    {d d' : Directive} (looks : d.seen v = d'.seen v) (setup : Setup) {place place' : Place}
    (places : place.seen v.spaced = place'.seen v.spaced) (clear : s.macros.IsClear v.spaced)
    (speaks : v.Speaks d.args) (owns : d.OwnsTop v.spaced place s) (owns' : d'.OwnsTop v.spaced place' s')
    (finds : v.spaced.Finds setup place ∨ (d.execute setup place s).2.lookups = s.lookups) :
    (d.execute setup place s).1.seen v.spaced = (d'.execute setup place' s').1.seen v.spaced
      ∧ Session.Alike v.spaced (d.execute setup place s).2 (d'.execute setup place' s').2 := by
  have clear' := same.isClear clear
  have speaks' : v.Speaks d'.args :=
    speaks.of_seen (congrArg Directive.args (Directive.shown_of_seen looks))
  obtain ⟨t, shows, shows'⟩ := same
  have one := Directive.execute_seen setup place d rfl shows clear speaks owns (finds.imp_right .inl)
  have finds' : v.spaced.Finds setup place'
      ∨ ((d.shown v.spaced).execute setup (place.seen v.spaced) t).2.lookups = t.lookups := by
    obtain finds | still := finds
    · rw [Place.seen_of_level finds.level, Place.seen_of_level finds.level] at places
      exact .inl (places ▸ finds)
    · exact .inr (one.2.eq_iff.mp still)
  have two := Directive.execute_seen setup place' d' rfl shows' clear' speaks' owns'
    (by rw [← Directive.shown_of_seen looks, ← places]; exact finds'.imp_right .inr)
  rw [← Directive.shown_of_seen looks, ← places] at two
  exact ⟨one.1.1.symm.trans two.1.1, _, one.1.2, two.1.2⟩

/-! ## Open files -/

/-- Two open files that look alike, with lexers related by `related`. -/
structure Frame.Alike (v : View) (related : Lexer → Lexer → Prop) (f f' : Frame) : Prop where
  lexer : related f.lexer f'.lexer
  file : v.file f.lexer.file = v.file f'.lexer.file
  path : f.path = f'.path
  canonical : f.canonical = f'.canonical
  searchIndex : f.searchIndex = f'.searchIndex
  includeDepth : f.includeDepth = f'.includeDepth
  conditionDepth : f.conditionDepth = f'.conditionDepth
  isPreamble : f.isPreamble = f'.isPreamble
  guard : v.guards = true → f.guard = f'.guard

/-- The ends of files that look alike look alike. -/
theorem Frame.endOfFrames_seen {v : View} {related : Lexer → Lexer → Prop} (frames frames' : List Frame) :
    List.Forall₂ (Frame.Alike v related) frames frames' →
      (Token.endOfFile (match frames with
          | [] => FileRef.unknown
          | frame :: _ => frame.lexer.file) 1 0 0).seen v
        = (Token.endOfFile (match frames' with
          | [] => FileRef.unknown
          | frame :: _ => frame.lexer.file) 1 0 0).seen v := by
  intro alike
  cases alike with
  | nil => rfl
  | cons first _ => simp only [Token.endOfFile, Token.seen, first.file]

namespace Reader

/-- Two readers that look alike, with lexers related by `related`. -/
structure Alike (v : View) (related : Lexer → Lexer → Prop) (r r' : Reader) : Prop where
  session : r.session.Alike v.spaced r'.session
  frames : List.Forall₂ (Frame.Alike v related) r.frames r'.frames
  queued : r.queued.map (Token.seen v) = r'.queued.map (Token.seen v)
  onceFiles : r.onceFiles = r'.onceFiles
  guards : v.guards = true → r.guards = r'.guards
  nextFileNumber : v.number = true → r.nextFileNumber = r'.nextFileNumber
  status : r.status = r'.status
  ending : r.ending.map (fun final => final.1.seen v) = r'.ending.map fun final => final.1.seen v
  baseFile : r.baseFile = r'.baseFile

/-- Two steps that look alike. -/
inductive Step.Alike (v : View) (related : Lexer → Lexer → Prop) : Step → Step → Prop where
  | give {token token' : Token} {r r' : Reader} (looks : token.seen v = token'.seen v)
      (same : r.Alike v related r') : Alike v related (.give token r) (.give token' r')
  | goOn {r r' : Reader} (same : r.Alike v related r') : Alike v related (.goOn r) (.goOn r')

/-- The view shows what the macros of the reader ask for and where its innermost file stands. -/
structure IsClear (v : View) (setup : Setup) (r : Reader) : Prop where
  macros : r.session.macros.IsClear v
  finds : v.spaced.Finds setup r.place

end Reader

/-- Nothing that matters is hidden by a view that shows what macros can ask for. -/
theorem View.IsClear.reader (clear : v.IsClear) {setup : Setup} (r : Reader) : r.IsClear v setup where
  macros := clear.table r.session.macros
  finds :=
    ⟨clear.level, fun files searchPath kept => by
      rw [show v.spaced.answers = none from clear.answers] at kept
      cases kept⟩

namespace Reader

namespace Alike

variable {related : Lexer → Lexer → Prop} {r r' : Reader} (same : r.Alike v related r')
include same

theorem place : r.place = r'.place := by
  have frames := same.frames
  simp only [Reader.place, same.baseFile]
  generalize r.frames = one, r'.frames = two at frames ⊢
  cases frames with
  | nil => rfl
  | cons first _ => simp only [first.path, first.searchIndex, first.includeDepth]

theorem withSession {s s' : Session} (alike : Session.Alike v.spaced s s') :
    Reader.Alike v related { r with session := s } { r' with session := s' } :=
  { same with session := alike }

theorem withFrames {frames frames' : List Frame}
    (alike : List.Forall₂ (Frame.Alike v related) frames frames') :
    Reader.Alike v related { r with frames } { r' with frames := frames' } :=
  { same with frames := alike }

theorem report {token token' : Token} (looks : token.seen v.marks = token'.seen v.marks) (code : Code)
    (detail : Text) :
    Reader.Alike v related (r.report token code detail) (r'.report token' code detail) :=
  same.withSession (same.session.report looks code fun _ => rfl)

/-- A report of one reader only makes no difference where reports are not compared. -/
theorem report_right (hidden : v.reports = false) (token : Token) (code : Code) (detail : Text) :
    Reader.Alike v related r (r'.report token code detail) :=
  same.withSession (same.session.annotated hidden r.session.journal _)

theorem report_left (hidden : v.reports = false) (token : Token) (code : Code) (detail : Text) :
    Reader.Alike v related (r.report token code detail) r' :=
  same.withSession (same.session.annotated hidden _ r'.session.journal)

/-- A run ends early in both places or in neither, if reports are compared or it never does. -/
theorem checkAbort {setup : Setup} {skips : Bool}
    (compared : v.reports = true ∨ setup.config.failFast = false) :
    Reader.Alike v related (r.checkAbort setup) (r'.checkAbort (setup.skipping skips)) := by
  have aborts : (setup.config.failFast && 0 < r.session.journal.errorCount && r.status = .ok)
      = (setup.config.failFast && 0 < r'.session.journal.errorCount && r'.status = .ok) := by
    obtain compared | lenient := compared
    · rw [same.session.journal (v := v.spaced) compared, same.status]
    · simp only [lenient, Bool.false_and]
  rw [checkAbort_skipping]
  unfold Reader.checkAbort
  rw [aborts]
  split
  · exact { same with status := rfl }
  · exact same

theorem reportSpelling {setup : Setup} {skips : Bool}
    (compared : v.reports = true ∨ setup.config.failFast = false) {token token' : Token}
    (looks : token.seen v = token'.seen v) :
    Reader.Alike v related (r.reportSpelling setup token)
      (r'.reportSpelling (setup.skipping skips) token') := by
  have error : token.error = token'.error := Token.congr_seen Token.error (fun _ => rfl) looks
  unfold Reader.reportSpelling
  rw [error]
  split
  · have marked : token.seen v.spaced.marks = token'.seen v.spaced.marks :=
      Token.seen_marks_of_seen (v := v) looks
    exact (same.withSession (same.session.reportSpelling marked)).checkAbort compared
  · exact same

theorem finish :
    r.finish.1.seen v = r'.finish.1.seen v ∧ Reader.Alike v related r.finish.2 r'.finish.2 := by
  have ending := same.ending
  have frames := same.frames
  unfold Reader.finish
  cases here : r.ending with
  | some final =>
    cases here' : r'.ending with
    | none => rw [here, here'] at ending; cases ending
    | some final' =>
      rw [here, here'] at ending
      exact ⟨Option.some.inj ending, same⟩
  | none =>
    cases here' : r'.ending with
    | some final' => rw [here, here'] at ending; cases ending
    | none =>
      have looks := Frame.endOfFrames_seen _ _ frames
      exact ⟨looks, { same with ending := congrArg some looks }⟩

theorem isSettled (setup : Setup) (compared : v.guards = true) (header : Header) :
    r.isSettled setup header = r'.isSettled setup header := by
  have defined : r.session.macros.isDefined = r'.session.macros.isDefined :=
    funext same.session.isDefined
  simp only [Reader.isSettled, same.onceFiles, same.guards compared, defined]

/-- A header that is open in one place is open in the other. -/
theorem openFile? (header : Header) :
    Option.Rel (Frame.Alike v related) (r.openFile? header) (r'.openFile? header) := by
  have frames := same.frames
  simp only [Reader.openFile?]
  generalize r.frames = one, r'.frames = two at frames
  have reversed : List.Forall₂ (Frame.Alike v related) one.reverse two.reverse :=
    List.rel_reverse frames
  generalize one.reverse = one, two.reverse = two at reversed
  induction reversed with
  | nil => exact .none
  | cons first _ ih =>
    simp only [List.find?_cons, first.canonical]
    split
    · exact .some first
    · exact ih

/-- What is known of a guard after a directive is the same. -/
theorem guard_afterDirective {frame frame' : Frame}
    (top : Frame.Alike v related frame frame') {d d' : Directive} (looks : d.seen v = d'.seen v)
    {s s' : Session} (alike : Session.Alike v.spaced s s') (compared : v.guards = true) :
    frame.guard.afterDirective d r.session.conditions.depth s.conditions.depth
      = frame'.guard.afterDirective d' r'.session.conditions.depth s'.conditions.depth := by
  have kind : d.kind = d'.kind := by
    rw [← Directive.kind_seen v d, looks, Directive.kind_seen]
  have opening : Guard.opening? d = Guard.opening? d' := by
    rw [← Guard.opening?_seen v d, looks, Guard.opening?_seen]
  rw [← same.session.depth, ← alike.depth, ← top.guard compared]
  simp only [Guard.afterDirective, opening, kind]

section Reading

variable {setup : Setup} {skips : Bool} (alike : ∀ {l l'}, Lexer.Alike v l l' → related l l')

include alike

theorem openFrame (source : Source) (path shown canonical : Text) (searchIndex : Option Nat)
    (includeDepth : Nat) (isPreamble : Bool) :
    Reader.Alike v related
      (r.openFrame setup source path shown canonical searchIndex includeDepth isPreamble)
      (r'.openFrame setup source path shown canonical searchIndex includeDepth isPreamble) := by
  have file : v.file ⟨path, shown, r.nextFileNumber⟩ = v.file ⟨path, shown, r'.nextFileNumber⟩ := by
    simp only [View.file, FileRef.mk.injEq, true_and]
    split
    · rename_i seen
      exact same.nextFileNumber seen
    · rfl
  have lexer := Lexer.alike_ofSource source setup.config.language file
  exact { same with
    frames :=
      .cons ⟨alike lexer, file, rfl, rfl, rfl, rfl, same.session.depth, rfl, fun _ => rfl⟩ same.frames
    nextFileNumber := fun seen => congrArg (· + 1) (same.nextFileNumber seen) }

theorem openHeader (header : Header) {site site' : Token}
    (looks : site.seen v.marks = site'.seen v.marks) :
    Reader.Alike v related (r.openHeader setup header site)
      (r'.openHeader (setup.skipping skips) header site') := by
  rw [openHeader_skipping]
  simp only [Reader.openHeader, same.place]
  split
  · exact same.report looks _ _
  · cases setup.files.readSource header.path setup.config.trigraphs with
    | error error => exact same.report looks _ _
    | ok source => exact same.openFrame alike ..

/-- A header is entered in both places or in neither. -/
theorem enter (header : Header)
    (settled : r.isSettled setup header = r'.isSettled (setup.skipping skips) header)
    {site site' : Token} (looks : site.seen v.marks = site'.seen v.marks) :
    Reader.Alike v related (r.enter setup header site)
      (r'.enter (setup.skipping skips) header site') := by
  have opened := same.openFile? header
  simp only [Reader.enter, settled]
  split
  · exact same
  · generalize r.openFile? header = one, r'.openFile? header = two at opened
    cases opened with
    | none => exact same.openHeader alike header looks
    | @some file file' files =>
      have defined : r.session.macros.isDefined = r'.session.macros.isDefined :=
        funext same.session.isDefined
      simp only [defined]
      cases compared : v.guards with
      | true =>
        rw [files.guard compared]
        split
        · exact same
        · exact same.report looks _ _
      | false =>
        -- Then reports are not compared, which depend on guards.
        have hidden : v.reports = false := by
          cases reports : v.reports with
          | false => rfl
          | true => exact absurd (v.reports_seen reports).2.2.2.2 (by rw [compared]; exact nofun)
        split <;> split
        · exact same
        · exact same.report_right hidden _ _ _
        · exact same.report_left hidden _ _ _
        · exact same.report looks _ _

end Reading

/-! ## Steps of reading -/

/-- Directives that look alike are carried out in the same way. -/
theorem execute {setup : Setup} {skips : Bool} (clear : r.IsClear v setup) {d d' : Directive}
    (speaks : v.Speaks d.args) (looks : d.seen v = d'.seen v) :
    (d.execute setup r.place r.session).1.seen v.spaced
        = (d'.execute (setup.skipping skips) r'.place r'.session).1.seen v.spaced
      ∧ Session.Alike v.spaced (d.execute setup r.place r.session).2
          (d'.execute (setup.skipping skips) r'.place r'.session).2 := by
  rw [Directive.execute_skipping, ← same.place]
  have level : v.spaced.level = true := clear.finds.level
  exact same.session.execute looks setup rfl clear.macros.spaced speaks (.inl level) (.inl level)
    (.inl clear.finds)

section Steps

variable {setup : Setup} {skips : Bool} {frame frame' : Frame} {outer outer' : List Frame}
  (compared : v.reports = true ∨ setup.config.failFast = false)
  (top : Frame.Alike v related frame frame')
  (below : List.Forall₂ (Frame.Alike v related) outer outer')

include compared top below

theorem accept {token token' : Token} (looks : token.seen v = token'.seen v) :
    Reader.Alike v related (r.accept setup frame outer token)
      (r'.accept (setup.skipping skips) frame' outer' token') := by
  have guard (compared : v.guards = true) : frame.guard.afterToken = frame'.guard.afterToken :=
    congrArg _ (top.guard compared)
  refine (same.withFrames ?_).reportSpelling compared looks
  exact .cons { top with guard } below

theorem closeFile {final final' : { token : Token // token.isEnd = true }}
    (looks : final.1.seen v = final'.1.seen v) :
    Reader.Alike v related (r.closeFile setup frame outer final)
      (r'.closeFile (setup.skipping skips) frame' outer' final') := by
  have noticed : Reader.Alike v related
      (if r.session.conditions.isLive then r.reportSpelling setup final.1 else r)
      (if r'.session.conditions.isLive then r'.reportSpelling (setup.skipping skips) final'.1
        else r') := by
    rw [same.session.isLive]
    split
    · exact same.reportSpelling compared looks
    · exact same
  have none : (outer = []) = (outer' = []) := by
    cases below with
    | nil => rfl
    | cons _ _ => simp
  simp only [Reader.closeFile]
  refine { noticed with
    session := noticed.session.closeConditions top.conditionDepth
    frames := below
    guards := fun seen => ?_
    ending := ?_ }
  · simp only [top.guard seen, top.isPreamble, top.canonical, noticed.guards seen]
  · simp only [none]
    split
    · exact congrArg some looks
    · exact noticed.ending

omit compared in
/-- What a directive asks for is done in the same way. -/
theorem act (presents : ∀ line name,
      related (frame.lexer.presentLine line name) (frame'.lexer.presentLine line name))
    {d d' : Directive} (looks : d.seen v = d'.seen v) {action action' : Action}
    (asks : action.seen v.spaced = action'.seen v.spaced)
    (enters : ∀ header site site', action = .enter header site →
      site.seen v.marks = site'.seen v.marks →
      Reader.Alike v related ({ r with frames := frame :: outer }.enter setup header site)
        ({ r' with frames := frame' :: outer' }.enter (setup.skipping skips) header site')) :
    Reader.Alike v related (r.act setup frame outer d action)
      (r'.act (setup.skipping skips) frame' outer' d' action') := by
  have shown := same.withFrames (.cons top below)
  cases action <;> cases action' <;> simp only [Action.seen, reduceCtorEq, Action.enter.injEq,
    Action.present.injEq] at asks
  case nothing.nothing => exact shown
  case enter.enter header site header' site' =>
    obtain ⟨rfl, sites⟩ := asks
    exact enters header site site' rfl sites
  case present.present line name line' name' =>
    obtain ⟨rfl, rfl⟩ := asks
    exact same.withFrames (.cons { top with lexer := presents line name } below)
  case pass.pass =>
    refine { shown with queued := ?_ }
    simp only [Reader.act, List.map_append, same.queued, Directive.passed_of_seen looks]
  case once.once =>
    refine { shown with onceFiles := ?_ }
    simp only [Reader.act, top.isPreamble, top.canonical, same.onceFiles]

/-- A directive of the innermost file is carried out in the same way. -/
theorem afterDirective (clear : r.IsClear v setup) (presents : ∀ line name,
      related (frame.lexer.presentLine line name) (frame'.lexer.presentLine line name))
    {d d' : Directive} (speaks : v.Speaks d.args) (looks : d.seen v = d'.seen v)
    (enters : ∀ header site site' guard guard' s s', Session.Alike v.spaced s s' →
      (v.guards = true → guard = guard') →
      (d.execute setup r.place r.session) = (.enter header site, s) →
      site.seen v.marks = site'.seen v.marks →
      Reader.Alike v related
        ({ r with session := s, frames := { frame with guard } :: outer }.enter setup header site)
        ({ r' with session := s', frames := { frame' with guard := guard' } :: outer' }.enter
          (setup.skipping skips) header site')) :
    Reader.Alike v related (r.afterDirective setup frame outer d)
      (r'.afterDirective (setup.skipping skips) frame' outer' d') := by
  have executed := @Alike.execute _ _ _ _ same setup skips clear _ _ speaks looks
  have guard := same.guard_afterDirective top looks executed.2
  unfold Reader.afterDirective
  refine Reader.Alike.checkAbort ?_ compared
  have tops : Frame.Alike v related
      { frame with
        guard := frame.guard.afterDirective d r.session.conditions.depth
          (d.execute setup r.place r.session).2.conditions.depth }
      { frame' with
        guard := frame'.guard.afterDirective d' r'.session.conditions.depth
          (d'.execute (setup.skipping skips) r'.place r'.session).2.conditions.depth } :=
    { top with guard }
  refine (same.withSession executed.2).act tops below presents looks executed.1 ?_
  intro header site site' asked sites
  exact enters header site site' _ _ _ _ executed.2 guard (Prod.ext asked rfl) sites

omit top in
/-- If the next items of the innermost files look the same, they are read in the same way. -/
theorem readToken (clear : r.IsClear v setup)
    (speaks : ∀ d rest, frame.lexer.item = (.directive d, rest) → v.Speaks d.args)
    (presents : ∀ line name, related (frame.lexer.item.2.presentLine line name)
      (frame'.lexer.item.2.presentLine line name))
    (items : frame.lexer.item.1.seen v = frame'.lexer.item.1.seen v)
    (after : Frame.Alike v related { frame with lexer := frame.lexer.item.2 }
      { frame' with lexer := frame'.lexer.item.2 })
    (enters : ∀ d rest header site site' guard guard' s s', frame.lexer.item = (.directive d, rest) →
      Session.Alike v.spaced s s' → (v.guards = true → guard = guard') →
      (d.execute setup r.place r.session) = (.enter header site, s) →
      site.seen v.marks = site'.seen v.marks →
      Reader.Alike v related
        ({ r with
            session := s, frames := { frame with lexer := rest, guard } :: outer }.enter setup header
          site)
        ({ r' with
            session := s'
            frames := { frame' with lexer := frame'.lexer.item.2, guard := guard' } :: outer' }.enter
          (setup.skipping skips) header site')) :
    Step.Alike v related (r.readToken setup frame outer)
      (r'.readToken (setup.skipping skips) frame' outer') := by
  rw [readToken_eq, readToken_eq]
  cases here : frame.lexer.item with
  | mk found rest =>
    cases here' : frame'.lexer.item with
    | mk found' rest' =>
      simp only [here, here'] at items after presents
      cases found <;> cases found' <;> simp only [Item.seen, reduceCtorEq, Item.token.injEq,
        Item.directive.injEq, Item.finish.injEq] at items
      case token.token given given' =>
        simp only [← same.session.isLive]
        split
        · exact .give items (same.accept compared after below items)
        · exact .goOn (same.withFrames (.cons after below))
      case directive.directive d d' =>
        refine .goOn (same.afterDirective compared after below clear presents (speaks d rest here)
          items ?_)
        intro header site site' guard guard' s s' alike guards asked sites
        have entered :=
          enters d rest header site site' guard guard' s s' here alike guards asked sites
        rw [here'] at entered
        exact entered
      case finish.finish final final' =>
        exact .goOn (same.closeFile compared after below (congrArg Subtype.val items))

end Steps

/-- One step, if the innermost files are read in the same way. -/
theorem step {setup : Setup} {skips : Bool}
    (reads : ∀ frame outer frame' outer', r.queued = [] → r.status ≠ .aborted →
      r.frames = frame :: outer → r'.frames = frame' :: outer' →
      Step.Alike v related (r.readToken setup frame outer)
        (r'.readToken (setup.skipping skips) frame' outer')) :
    Step.Alike v related (r.step setup) (r'.step (setup.skipping skips)) := by
  have frames := same.frames
  have queued := same.queued
  unfold Reader.step
  cases waiting : r.queued with
  | cons token rest =>
    cases waiting' : r'.queued with
    | nil => rw [waiting, waiting'] at queued; cases queued
    | cons token' rest' =>
      rw [waiting, waiting', List.map_cons, List.map_cons, List.cons.injEq] at queued
      exact .give queued.1 { same with queued := queued.2 }
  | nil =>
    cases waiting' : r'.queued with
    | cons token' rest' => rw [waiting, waiting'] at queued; cases queued
    | nil =>
      cases isOpen : r.frames with
      | nil =>
        rw [isOpen] at frames
        rw [List.forall₂_nil_left_iff.mp frames]
        exact .give same.finish.1 same.finish.2
      | cons frame outer =>
        rw [isOpen] at frames
        obtain ⟨frame', outer', -, -, isOpen'⟩ := List.forall₂_cons_left_iff.mp frames
        simp only [isOpen', ← same.status]
        split
        · exact .give same.finish.1 same.finish.2
        · rename_i goesOn
          exact reads frame outer frame' outer' waiting goesOn isOpen isOpen'

end Alike

end Reader

end CPreprocessor
