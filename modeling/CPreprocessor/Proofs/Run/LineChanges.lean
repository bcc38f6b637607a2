/-
# How lines are presented

A line directive that counts gives the line after it a number, and may give its file a name. A run
is followed together with what the line directives of each open file have done so far
(`Reader.Logs`): a file starts with nothing done, a step adds what its directive does to the innermost
file, and an included file keeps an account of its own. What a lexer presents is what the account of
its file says (`Lexer.IsPresentedBy`), and every step keeps it so (`Logs.isPresentedBy`). Hence a token
has the number that the last line directive of its file gives to its physical line, and the last name
that one gives (`Logs.isPresented_token`).
-/
import CPreprocessor.Proofs.Include.Location
import CPreprocessor.Proofs.Lexing.Indices
import CPreprocessor.Proofs.Lexing.Lines
import CPreprocessor.Proofs.Run.Provenance

namespace CPreprocessor

/-! ## Line directives -/

namespace LineArguments

theorem readNumber_le {token : Token} {digits : Text} {sofar n : Nat} (bound : sofar ≤ greatestLine)
    (read : readNumber token sofar digits = .ok n) : n ≤ greatestLine := by
  induction digits generalizing sofar with
  | nil =>
    rw [readNumber] at read
    cases read
    exact bound
  | cons c digits ih =>
    simp only [readNumber] at read
    split at read
    · cases read
    · split at read
      · cases read
      · rename_i below
        exact ih (Nat.not_lt.mp below) read

/-- No line that arguments give is too large. -/
theorem read_le {name : Token} {tokens : List Token} {n : Nat} {shown : Option Text}
    (read : LineArguments.read name tokens = .ok (n, shown)) : n ≤ greatestLine := by
  cases tokens with
  | nil => cases read
  | cons first rest =>
    rw [LineArguments.read] at read
    split at read
    · cases read
    · split at read
      · cases read
      · rename_i line number
        have bound := readNumber_le (Nat.zero_le _) number
        cases rest with
        | nil =>
          cases read
          exact bound
        | cons file more =>
          cases found : readName file with
          | error error =>
            simp only [found, Except.map] at read
            cases read
          | ok given =>
            simp only [found, Except.map] at read
            cases read
            exact bound

end LineArguments

namespace Directive

/-- What a line directive gives where it counts: the number of the next line and the name of the
file. -/
def presents? (d : Directive) (setup : Setup) (place : Place) (s : Session) :
    Option (Nat × Option Text) :=
  if s.conditions.isLive ∧ (d.kind = .line ∨ d.kind = .lineMarker) ∧ setup.config.appliesLines then
    (LineArguments.read d.nameToken (d.lineArguments setup place s).1).toOption
  else
    none

variable {d : Directive} {setup : Setup} {place : Place} {s : Session} {n : Nat} {name : Option Text}

theorem presents?_le (presents : d.presents? setup place s = some (n, name)) :
    n ≤ LineArguments.greatestLine := by
  unfold presents? at presents
  split at presents
  · cases read : LineArguments.read d.nameToken (d.lineArguments setup place s).1 with
    | error error =>
      rw [read] at presents
      cases presents
    | ok given =>
      rw [read] at presents
      cases presents
      exact LineArguments.read_le read
  · cases presents

/-- A line directive has its line presented if its arguments can be read. -/
theorem presentLine_eq_present_iff :
    (d.presentLine setup place s).1 = .present n name ↔ setup.config.appliesLines = true ∧
      (LineArguments.read d.nameToken (d.lineArguments setup place s).1).toOption = some (n, name) := by
  unfold presentLine
  cases setup.config.appliesLines with
  | false => simp
  | true =>
    simp only [Bool.not_true, Bool.false_eq_true, if_false, true_and]
    cases LineArguments.read d.nameToken (d.lineArguments setup place s).1 with
    | error error => simp [Except.toOption]
    | ok given => simp [Except.toOption, Prod.ext_iff]

theorem pragma_ne_present : (d.pragma setup place s).1 ≠ .present n name := by
  unfold pragma
  repeat' split
  all_goals
    intro same
    cases same

theorem includeHeader_ne_present : (d.includeHeader setup place s).1 ≠ .present n name := by
  unfold includeHeader
  simp only []
  repeat' split
  all_goals
    intro same
    cases same

/-- No other directive has a line presented. -/
theorem carryOut_ne_present (other : ¬(d.kind = .line ∨ d.kind = .lineMarker)) :
    (d.carryOut setup place s).1 ≠ .present n name := by
  cases kind : d.kind with
  | includeHeader | includeNext =>
    simpa only [carryOut, kind] using includeHeader_ne_present
  | pragma => simpa only [carryOut, kind] using pragma_ne_present
  | line => exact absurd (.inl kind) other
  | lineMarker => exact absurd (.inr kind) other
  | _ => simp [carryOut, kind]

/-- Only a line directive that counts has a line presented. -/
theorem execute_eq_present_iff :
    (d.execute setup place s).1 = .present n name ↔ d.presents? setup place s = some (n, name) := by
  by_cases isLine : d.kind = .line ∨ d.kind = .lineMarker
  · have carried : d.carryOut setup place s = d.presentLine setup place s := by
      obtain kind | kind := isLine <;> rw [carryOut, kind]
    have unconditional : d.kind.isConditional = false := by
      obtain kind | kind := isLine <;> rw [kind] <;> rfl
    unfold execute presents?
    rw [unconditional, Bool.or_false, carried]
    cases s.conditions.isLive with
    | false => simp
    | true => simp [isLine, presentLine_eq_present_iff]
  · have notLine : d.presents? setup place s = none := if_neg fun all => isLine all.2.1
    rw [notLine]
    unfold execute
    split
    · simp [carryOut_ne_present isLine]
    · simp

end Directive

/-! ## Lexers -/

/-- What a line directive has done to its file. -/
structure LineChange where
  /-- The number of the line after the directive. -/
  number : Nat
  /-- The name of the file from there on, if the directive gives one. -/
  name : Option Text
  /-- The physical line that the directive ends. -/
  line : Nat
  deriving DecidableEq, Repr

namespace LineChange

/-- The number of a physical line after some changes, the latest first. -/
def lineOf (changes : List LineChange) (physical : Nat) : Nat :=
  match changes with
  | [] => physical
  | latest :: _ => latest.number + (physical - latest.line - 1)

/-- The file after some changes, the latest first. It has the last name that one of them gives. -/
def fileOf (changes : List LineChange) (file : FileRef) : FileRef :=
  { file with shown := (changes.findSome? name).getD file.shown }

end LineChange

/-- The token stands in a source as it was written, and it has the line and the file that some changes
of its file, the latest first, make of the physical ones. -/
structure Token.IsPresented (token : Token) (source : Source) (file : FileRef)
    (changes : List LineChange) (i : Nat) : Prop where
  nonempty : token.lexeme ≠ []
  lexeme : token.lexeme <+: source.text.drop i
  column : token.column = (source.position i).column
  offset : token.offset = (source.position i).offset
  /-- The token stands behind the directives. -/
  behind : ∀ latest ∈ changes.head?, latest.line < (source.place i).line
  line : token.line = LineChange.lineOf changes (source.place i).line
  file : token.file = LineChange.fileOf changes file

namespace Lexer

/-- The lexer presents the lines of its source as some changes say, the latest first. The latest one
ends at a line feed that the lexer does not stand before, or at the end of the source. -/
structure IsPresentedBy (l : Lexer) (changes : List LineChange) : Prop extends IsAtIndex l where
  made : ∃ trigraphs decoded, l.source = Source.ofDecoded trigraphs decoded
  presented : l.presented = LineChange.fileOf changes l.file
  bounded : ∀ latest ∈ changes.head?, latest.number ≤ LineArguments.greatestLine
  unshifted : changes = [] → l.lineShift = 0
  shifted : ∀ latest ∈ changes.head?, l.rest = [] ∨
    ∃ feed ≤ l.index, l.source.text[feed]? = some '\n' ∧
      (l.source.place feed).line = latest.line ∧
      l.lineShift = (latest.number : Int) - (latest.line % Nat.pow 2 32 + 1 : Nat)

variable {l after : Lexer} {changes : List LineChange}

theorem isPresentedBy_ofSource (trigraphs : Bool) (decoded : Text) (file : FileRef)
    (language : Language) :
    (ofSource (Source.ofDecoded trigraphs decoded) file language false).IsPresentedBy [] where
  toIsAtIndex := isAtIndex_ofSource _ _ _
  made := ⟨trigraphs, decoded, rfl⟩
  presented := rfl
  bounded := by simp
  unshifted _ := rfl
  shifted := by simp

/-- Reading on changes nothing. -/
theorem IsPresentedBy.readsOnTo (presents : l.IsPresentedBy changes) (goes : l.ReadsOnTo after) :
    after.IsPresentedBy changes where
  toIsAtIndex := goes.isAtIndex
  made := goes.source ▸ presents.made
  presented := by rw [goes.presented, goes.file, presents.presented]
  bounded := presents.bounded
  unshifted none := goes.lineShift.trans (presents.unshifted none)
  shifted latest isLatest := by
    rw [goes.source, goes.lineShift]
    refine (presents.shifted latest isLatest).imp (fun nothing => ?_) ?_
    · rw [presents.rest, List.drop_eq_nil_iff] at nothing
      rw [goes.isAtIndex.rest, goes.source, List.drop_eq_nil_iff]
      exact Nat.le_trans nothing goes.index
    · rintro ⟨feed, before, isFeed⟩
      exact ⟨feed, Nat.le_trans before goes.index, isFeed⟩

/-- A directive that ends its line, or the file, is one more change. -/
theorem IsPresentedBy.presentLine (presents : l.IsPresentedBy changes)
    (ends : l.rest = [] ∨ l.rest.head? = some '\n') {n : Nat}
    (bound : n ≤ LineArguments.greatestLine) (name : Option Text) :
    (l.presentLine n name).IsPresentedBy (⟨n, name, (l.source.place l.index).line⟩ :: changes) where
  toIsAtIndex := ⟨⟨presents.skips, presents.fresh⟩, presents.rest⟩
  made := presents.made
  presented := by
    cases name with
    | some shown => rfl
    | none => exact presents.presented
  bounded := by simpa using bound
  unshifted none := by cases none
  shifted latest isLatest := by
    cases isLatest
    refine ends.imp id fun feed => ⟨l.index, Nat.le_refl _, ?_, rfl, ?_⟩
    · rw [presents.rest, List.head?_drop] at feed
      exact feed
    · simp only [Lexer.presentLine, feed, if_true]
      rfl

/-- A token stands behind the directives of its file, and the latest one numbers its line. -/
theorem IsPresentedBy.behind (presents : l.IsPresentedBy changes) {token : Token} {i : Nat}
    (reads : token.IsReadAt l i) {latest : LineChange} (isLatest : latest ∈ changes.head?) :
    latest.line < (l.source.place i).line ∧
      l.lineShift = (latest.number : Int) - (latest.line % Nat.pow 2 32 + 1 : Nat) := by
  obtain nothing | ⟨feed, before, isFeed, line, shift⟩ := presents.shifted latest isLatest
  · rw [presents.rest, List.drop_eq_nil_iff] at nothing
    have inside := reads.lexeme
    rw [List.drop_eq_nil_iff.mpr (Nat.le_trans nothing reads.ahead), List.prefix_nil] at inside
    exact absurd inside reads.nonempty
  · have apart : feed ≠ i := fun same => reads.noFeed (same ▸ isFeed)
    have above : feed < i := by
      have ahead := reads.ahead
      omega
    obtain ⟨trigraphs, decoded, made⟩ := presents.made
    rw [made] at isFeed line ⊢
    exact ⟨line ▸ Source.line_place_lt isFeed above, shift⟩

/-- A token that is read is presented as the changes say, if the lines are not too many and are counted
from one. -/
theorem IsPresentedBy.isPresented (presents : l.IsPresentedBy changes)
    (short : ∀ i, (l.source.place i).line < 2 ^ 31)
    (counts : ∀ latest ∈ changes.head?, 1 ≤ latest.number) {token : Token} {i : Nat}
    (reads : token.IsReadAt l i) : token.IsPresented l.source l.file changes i := by
  refine ⟨reads.nonempty, reads.lexeme, reads.column, reads.offset,
    fun latest isLatest => (presents.behind reads isLatest).1, ?_, reads.file.trans presents.presented⟩
  have physical := short i
  have reported : (l.source.position i).line = (l.source.place i).line :=
    Nat.mod_eq_of_lt (Nat.lt_trans physical (by decide))
  rw [reads.line]
  cases changes with
  | nil =>
    obtain ⟨trigraphs, decoded, made⟩ := presents.made
    have positive : 1 ≤ (l.source.place i).line := made ▸ Source.one_le_line_place _ _ i
    rw [presents.unshifted rfl, Int.add_zero, reported, lineNumber_natCast positive]
    exact Nat.mod_eq_of_lt (Nat.lt_trans physical (by decide))
  | cons latest earlier =>
    obtain ⟨behind, shift⟩ := presents.behind reads rfl
    have positive := counts latest rfl
    have bound : latest.number ≤ 2147483647 := presents.bounded latest rfl
    have before : latest.line % Nat.pow 2 32 = latest.line :=
      Nat.mod_eq_of_lt (Nat.lt_trans behind (Nat.lt_trans physical (by decide)))
    have shifted : ((l.source.position i).line : Int) + l.lineShift =
        (latest.number + ((l.source.place i).line - latest.line - 1) : Nat) := by
      rw [reported, shift, before]
      omega
    rw [shifted, lineNumber_natCast (by omega)]
    refine Nat.mod_eq_of_lt ?_
    show _ < 4294967296
    omega

/-- The tokens of an item are read at indices, all but the end of the file. -/
theorem IsAtIndex.item (stands : l.IsAtIndex) :
    l.ReadsOnTo l.item.2 ∧
      ∀ token ∈ l.item.1.tokens, token.isEnd = false → ∃ i, token.IsReadAt l i := by
  obtain ⟨goes, reads⟩ := stands.next
  unfold Lexer.item
  split
  · rename_i isEnd
    refine ⟨goes, List.forall_mem_singleton.mpr fun more => ?_⟩
    rw [isEnd] at more
    cases more
  · split
    · obtain ⟨goes', others, -⟩ := goes.isAtIndex.restOfLine
      have line : ∀ token ∈ l.next.2.restOfLine.1, token.isEnd = false → ∃ i, token.IsReadAt l i :=
        fun token present _ => (others token present).imp fun i reads => goes.isReadAt reads
      refine ⟨goes.trans goes', List.forall_mem_cons.mpr ⟨reads, List.forall_mem_append.mpr ⟨?_, ?_⟩⟩⟩
      · exact fun token named => line token (List.mem_of_mem_head? (by simpa [Lexer.directive] using named))
      · exact fun token argument => line token (List.mem_of_mem_drop argument)
    · exact ⟨goes, List.forall_mem_singleton.mpr reads⟩

/-- After a directive the lexer stands where its line or the file ends. -/
theorem IsAtIndex.directive (stands : l.IsAtIndex) {d : Directive}
    (here : l.item = (.directive d, after)) : after.rest = [] ∨ after.rest.head? = some '\n' := by
  unfold Lexer.item at here
  split at here
  · cases here
  · split at here
    · cases here
      exact stands.next.1.isAtIndex.restOfLine.2.2
    · cases here

end Lexer

/-! ## Readers -/

namespace Reader

/-- The change that the next step makes in the innermost file: what a line directive does that is
read there. -/
def lineChange? (setup : Setup) (r : Reader) : Option LineChange :=
  match r.queued, r.frames with
  | [], frame :: _ =>
    if r.status = .aborted then
      none
    else
      match frame.lexer.item with
      | (.directive d, rest) =>
        (d.presents? setup r.place r.session).map fun (number, name) =>
          { number, name, line := (rest.source.place rest.index).line }
      | _ => none
  | _, _ => none

/-- The changes of the open files after a step, the latest first. A file that is opened has had none,
and a file that is closed is forgotten. -/
def changesAfter (setup : Setup) (r next : Reader) (changes : List (List LineChange)) :
    List (List LineChange) :=
  let changes := match r.lineChange? setup with
    | some latest => changes.modifyHead (latest :: ·)
    | none => changes
  if r.frames.length < next.frames.length then [] :: changes
  else changes.drop (r.frames.length - next.frames.length)

/-- A run has come to the reader, and its open files, the innermost first, have had these changes, the
latest first. -/
inductive Logs (setup : Setup) : Reader → List (List LineChange) → Prop where
  | opened {p q : Preprocessor} {trigraphs : Bool} {decoded path : Text}
      (created : Preprocessor.create setup = .ok p)
      (opening : p.openMain setup (.ok (Source.ofDecoded trigraphs decoded)) path = .ok q) :
      Logs setup q.reader (q.reader.frames.map fun _ => [])
  | step {r next : Reader} {token : Token} {changes : List (List LineChange)}
      (logs : Logs setup r changes)
      (stepped : r.step setup = .give token next ∨ r.step setup = .goOn next) :
      Logs setup next (r.changesAfter setup next changes)
  | beside {r next : Reader} {changes : List (List LineChange)} (logs : Logs setup r changes)
      (beside : r.Beside next) : Logs setup next changes

variable {setup : Setup} {r next : Reader} {frame : Frame} {outer : List Frame}
  {changes : List (List LineChange)}

/-- The open files present their lines as the changes say. -/
def ArePresentedBy (frames : List Frame) (changes : List (List LineChange)) : Prop :=
  List.Forall₂ (fun frame mine => frame.lexer.IsPresentedBy mine) frames changes

/-- Entering a header opens it at its start or opens nothing. -/
theorem frames_enter_cases (setup : Setup) (r : Reader) (header : Header) (site : Token) :
    (r.enter setup header site).frames = r.frames ∨
      ∃ new : Frame, (r.enter setup header site).frames = new :: r.frames ∧
        new.lexer.IsPresentedBy [] := by
  unfold Reader.enter
  split
  · exact .inl rfl
  · split
    · split <;> exact .inl rfl
    · unfold openHeader
      simp only []
      split
      · exact .inl rfl
      · split
        · exact .inl rfl
        · rename_i source read
          obtain ⟨location, content, -, made⟩ := FileSystem.exists_found_of_readSource read
          unfold Source.ofBytes at made
          split at made
          · cases made
            exact .inr ⟨_, rfl, Lexer.isPresentedBy_ofSource _ _ _ _⟩
          · cases made

/-- After a directive the innermost file goes on, presented as the directive says, under a header or as
the innermost file. -/
theorem frames_afterDirective (setup : Setup) (r : Reader) (frame : Frame) (outer : List Frame)
    (d : Directive) :
    ∃ after : Frame,
      (after.lexer = match d.presents? setup r.place r.session with
        | some given => frame.lexer.presentLine given.1 given.2
        | none => frame.lexer) ∧
      ((r.afterDirective setup frame outer d).frames = after :: outer ∨
        d.presents? setup r.place r.session = none ∧
        ∃ new : Frame, (r.afterDirective setup frame outer d).frames = new :: after :: outer ∧
          new.lexer.IsPresentedBy []) := by
  have presents (n : Nat) (name : Option Text) :=
    @Directive.execute_eq_present_iff d setup r.place r.session n name
  unfold afterDirective
  generalize d.execute setup r.place r.session = done at *
  simp only [frames_checkAbort]
  generalize frame.guard.afterDirective d _ _ = guard
  have others (other : ∀ n name, done.1 ≠ .present n name) :
      d.presents? setup r.place r.session = none := by
    refine Option.eq_none_iff_forall_ne_some.mpr fun given found => ?_
    exact other given.1 given.2 ((presents given.1 given.2).mpr found)
  cases asked : done.1 with
  | nothing | once | pass =>
    have notLine := others fun n name same => by rw [asked] at same; cases same
    rw [notLine]
    exact ⟨{ frame with guard }, rfl, .inl rfl⟩
  | present n name =>
    rw [(presents n name).mp asked]
    exact ⟨{ frame with guard, lexer := frame.lexer.presentLine n name }, rfl, .inl rfl⟩
  | enter header site =>
    have notLine := others fun n name same => by rw [asked] at same; cases same
    rw [notLine]
    refine ⟨{ frame with guard }, rfl, ?_⟩
    obtain same | ⟨new, same, fresh⟩ := frames_enter_cases setup
      { r with session := done.2, frames := { frame with guard } :: outer } header site
    · exact .inl same
    · exact .inr ⟨rfl, new, same, fresh⟩

theorem lineChange?_of_directive (idle : r.queued = []) (isOpen : r.frames = frame :: outer)
    (running : r.status ≠ .aborted) {d : Directive} {rest : Lexer}
    (here : frame.lexer.item = (.directive d, rest)) :
    r.lineChange? setup = (d.presents? setup r.place r.session).map fun given =>
      ⟨given.1, given.2, (rest.source.place rest.index).line⟩ := by
  unfold lineChange?
  rw [idle, isOpen]
  simp only []
  rw [if_neg running, here]

/-- Only a directive makes a change. -/
theorem lineChange?_of_item (isOpen : r.frames = frame :: outer)
    (other : ∀ d rest, frame.lexer.item ≠ (.directive d, rest)) : r.lineChange? setup = none := by
  unfold lineChange?
  rw [isOpen]
  split
  · rename_i same
    cases same
    split
    · rfl
    · split
      · rename_i here
        exact absurd here (other _ _)
      · rfl
  · rfl

theorem lineChange?_of_waiting (waiting : r.queued ≠ []) : r.lineChange? setup = none := by
  unfold lineChange?
  split
  · rename_i idle isOpen
    exact absurd idle waiting
  · rfl

theorem lineChange?_of_isFinished (finished : r.IsFinished) : r.lineChange? setup = none := by
  unfold lineChange?
  split
  · rename_i isOpen
    obtain closed | aborted := finished.2
    · rw [closed] at isOpen
      cases isOpen
    · rw [if_pos aborted]
  · rfl

/-- A step that makes no change and opens or closes no file leaves all changes as they are. -/
theorem changesAfter_of_none (none : r.lineChange? setup = none)
    (same : next.frames.length = r.frames.length) : r.changesAfter setup next changes = changes := by
  simp only [changesAfter, none, same, Nat.lt_irrefl, if_false, Nat.sub_self, List.drop_zero]

theorem ArePresentedBy.stay (presented : ArePresentedBy r.frames changes)
    (none : r.lineChange? setup = none) (frames : next.frames = r.frames) :
    ArePresentedBy next.frames (r.changesAfter setup next changes) := by
  rw [changesAfter_of_none none (congrArg List.length frames), frames]
  exact presented

/-- The innermost file is read on. -/
theorem ArePresentedBy.goOn (presented : ArePresentedBy r.frames changes)
    (isOpen : r.frames = frame :: outer) {found : Item} {rest : Lexer}
    (here : frame.lexer.item = (found, rest)) (other : ∀ d, found ≠ .directive d) {after : Frame}
    (same : after.lexer = rest) (frames : next.frames = after :: outer) :
    ArePresentedBy next.frames (r.changesAfter setup next changes) := by
  have noChange : r.lineChange? setup = none :=
    lineChange?_of_item isOpen fun d rest directive => other d <| by
      rw [here] at directive
      exact congrArg Prod.fst directive
  rw [changesAfter_of_none noChange (by rw [frames, isOpen]; rfl), frames]
  rw [isOpen] at presented
  cases presented with
  | cons top others =>
    have goes := top.item.1
    rw [here] at goes
    exact .cons (same ▸ top.readsOnTo goes) others

/-- The innermost file is closed, and its changes are forgotten. -/
theorem ArePresentedBy.close (presented : ArePresentedBy r.frames changes)
    (isOpen : r.frames = frame :: outer) {final : { token : Token // token.isEnd = true }}
    {rest : Lexer} (here : frame.lexer.item = (.finish final, rest)) (frames : next.frames = outer) :
    ArePresentedBy next.frames (r.changesAfter setup next changes) := by
  have noChange : r.lineChange? setup = none :=
    lineChange?_of_item isOpen fun d rest directive => by
      rw [here] at directive
      cases directive
  rw [isOpen] at presented
  cases presented with
  | @cons _ mine _ others top below =>
    have closed : r.changesAfter setup next (mine :: others) = others := by
      have shorter : ¬outer.length + 1 < outer.length := by omega
      simp only [changesAfter, noChange, frames, isOpen, List.length_cons, shorter, if_false,
        Nat.add_sub_cancel_left, List.drop_succ_cons, List.drop_zero]
    rw [closed, frames]
    exact below

/-- The innermost file goes on after a directive, with the change that it makes, and a header that the
directive asks for is opened with none. -/
theorem ArePresentedBy.carryOut (presented : ArePresentedBy r.frames changes) (idle : r.queued = [])
    (isOpen : r.frames = frame :: outer) (running : r.status ≠ .aborted) {d : Directive} {rest : Lexer}
    (here : frame.lexer.item = (.directive d, rest)) {after : Frame}
    (lexer : after.lexer = match d.presents? setup r.place r.session with
      | some given => rest.presentLine given.1 given.2
      | none => rest)
    (frames : next.frames = after :: outer ∨
      d.presents? setup r.place r.session = none ∧
      ∃ new : Frame, next.frames = new :: after :: outer ∧ new.lexer.IsPresentedBy []) :
    ArePresentedBy next.frames (r.changesAfter setup next changes) := by
  rw [isOpen] at presented
  have change := @lineChange?_of_directive setup r frame outer idle isOpen running d rest here
  cases presented with
  | @cons _ mine _ others top below =>
    have goes := top.item.1
    rw [here] at goes
    have gone := top.readsOnTo goes
    cases presents : d.presents? setup r.place r.session with
    | none =>
      rw [presents] at change lexer
      obtain same | ⟨-, new, same, fresh⟩ := frames
      · rw [changesAfter_of_none change (by rw [same, isOpen]; rfl), same]
        exact .cons (lexer ▸ gone) below
      · have opened : r.changesAfter setup next (mine :: others) = [] :: mine :: others := by
          unfold changesAfter
          rw [change, same, isOpen]
          exact if_pos (Nat.lt_succ_self _)
        rw [opened, same]
        exact .cons fresh (.cons (lexer ▸ gone) below)
    | some given =>
      rw [presents] at change lexer frames
      obtain same | ⟨notLine, -⟩ := frames
      · have added : r.changesAfter setup next (mine :: others) =
            (⟨given.1, given.2, (rest.source.place rest.index).line⟩ :: mine) :: others := by
          unfold changesAfter
          rw [change, same, isOpen, List.length_cons, List.length_cons, if_neg (Nat.lt_irrefl _),
            Nat.sub_self]
          rfl
        rw [added, same]
        exact .cons (lexer ▸ gone.presentLine (top.directive here) (Directive.presents?_le presents) _)
          below
      · cases notLine

/-- What the open files present stays what the changes say. -/
theorem ArePresentedBy.step (presented : ArePresentedBy r.frames changes) {token : Token}
    (stepped : r.step setup = .give token next ∨ r.step setup = .goOn next) :
    ArePresentedBy next.frames (r.changesAfter setup next changes) := by
  have what := r.stepped setup
  obtain given | gone := stepped
  · rw [given] at what
    cases what with
    | waits waiting =>
      have noChange := @lineChange?_of_waiting setup r (by rw [waiting]; exact List.cons_ne_nil _ _)
      exact presented.stay noChange rfl
    | finished isFinished =>
      exact presented.stay (lineChange?_of_isFinished isFinished) (beside_finish r).frames
    | @counts frame outer _ rest idle isOpen running here live =>
      have frames := @frames_accept setup r { frame with lexer := rest } outer token
      exact presented.goOn isOpen here (fun d same => by cases same) rfl frames
  · rw [gone] at what
    cases what with
    | closes idle isOpen running here => exact presented.close isOpen here rfl
    | @carriesOut frame outer d rest idle isOpen running here =>
      obtain ⟨after, lexer, frames⟩ :=
        frames_afterDirective setup r { frame with lexer := rest } outer d
      exact presented.carryOut idle isOpen running here lexer frames
    | @passesOver frame outer _ rest idle isOpen running here dead =>
      have lexer : { frame with lexer := rest }.lexer = rest := rfl
      exact presented.goOn isOpen here (fun d same => by cases same) lexer rfl

/-- A run starts with files of which nothing has been read. -/
theorem arePresentedBy_openMain {p q : Preprocessor} {trigraphs : Bool} {decoded path : Text}
    (created : Preprocessor.create setup = .ok p)
    (opening : p.openMain setup (.ok (Source.ofDecoded trigraphs decoded)) path = .ok q) :
    ArePresentedBy q.reader.frames (q.reader.frames.map fun _ => []) := by
  have isNew := Preprocessor.isNew_of_create created
  obtain ⟨source, made, rfl⟩ := isNew.openMain_eq_ok.mp opening
  cases made
  have main : ArePresentedBy (p.mainReader setup (Source.ofDecoded trigraphs decoded) path).frames
      ((p.mainReader setup (Source.ofDecoded trigraphs decoded) path).frames.map fun _ => []) := by
    simp only [Preprocessor.mainReader, openFrame, isNew.closed]
    exact .cons (Lexer.isPresentedBy_ofSource _ _ _ _) .nil
  unfold Preprocessor.openPreamble
  simp only []
  split
  · exact main
  · exact .cons (Lexer.isPresentedBy_ofSource _ _ _ _) main

/-- All along a run the open files present their lines as their changes say. -/
theorem Logs.arePresentedBy (logs : r.Logs setup changes) : ArePresentedBy r.frames changes := by
  induction logs with
  | opened created opening => exact arePresentedBy_openMain created opening
  | step logs stepped ih => exact ih.step stepped
  | beside logs beside ih =>
    rw [beside.frames]
    exact ih

/-- Every reader that a run goes through has a log. -/
theorem exists_logs_tokensWithin {p q : Preprocessor} {trigraphs : Bool} {decoded path : Text}
    (created : Preprocessor.create setup = .ok p)
    (opening : p.openMain setup (.ok (Source.ofDecoded trigraphs decoded)) path = .ok q) (n : Nat) :
    ∃ changes, (q.tokensWithin setup n).2.reader.Logs setup changes := by
  have invariant : Invariant setup fun r => ∃ changes, r.Logs setup changes :=
    ⟨fun token ⟨changes, logs⟩ stepped => ⟨_, logs.step stepped⟩,
      fun ⟨changes, logs⟩ between => ⟨changes, logs.beside between.toBeside⟩⟩
  exact invariant.tokensWithin ⟨_, .opened created opening⟩ n

/-- The changes after some steps. -/
def changesIn (setup : Setup) : Nat → Reader → List (List LineChange) → List (List LineChange)
  | 0, _, changes => changes
  | n + 1, r, changes =>
    match r.step setup with
    | .give _ next => changesIn setup n next (r.changesAfter setup next changes)
    | .goOn next => changesIn setup n next (r.changesAfter setup next changes)

theorem Logs.after (logs : r.Logs setup changes) (n : Nat) :
    (r.after setup n).Logs setup (changesIn setup n r changes) := by
  induction n generalizing r changes with
  | zero => exact logs
  | succ n ih =>
    unfold Reader.after changesIn
    cases stepped : r.step setup with
    | give token next => exact ih (logs.step (.inl stepped))
    | goOn next => exact ih (@Logs.step _ _ _ .endOfNothing _ logs (.inr stepped))

/-- Every token that a file gives, in a directive or outside of one, stands where it was written, and
its line and its file are what the line directives of the file so far make of the physical ones: the
last one numbers the line, and the last one that gives a name names the file. -/
theorem Logs.exists_isPresented (logs : r.Logs setup changes) {mine : List LineChange}
    (isOpen : (frame, mine) ∈ r.frames.zip changes)
    (short : ∀ i, (frame.lexer.source.place i).line < 2 ^ 31)
    (counts : ∀ latest ∈ mine.head?, 1 ≤ latest.number) {token : Token}
    (gives : token ∈ frame.lexer.item.1.tokens) (inside : token.isEnd = false) :
    ∃ i, token.IsPresented frame.lexer.source frame.lexer.file mine i := by
  have presents := (List.forall₂_iff_zip.mp logs.arePresentedBy).2 isOpen
  obtain ⟨i, reads⟩ := presents.item.2 token gives inside
  exact ⟨i, presents.isPresented short counts reads⟩

/-! A file with two line directives. -/

/-- The file. Its lines are numbered twice, and it is named once. -/
def numberedText : Text :=
  "#line 7 \"g\"\n# 3\n\nx\n".toList

/-- The reader that has opened the file. -/
def numberedReader : Reader :=
  Preprocessor.mainReader Preprocessor.passingSetup freshRun (.ofDecoded false numberedText) ['m']

/-- Behind both directives the second one numbers the lines, and the name of the first one stays. -/
theorem exists_isPresented_numbered :
    ∃ (r : Reader) (changes : List (List LineChange)), r.Logs Preprocessor.passingSetup changes ∧
      ∃ frame mine token, (frame, mine) ∈ r.frames.zip changes ∧
        mine = [⟨3, none, 2⟩, ⟨7, some ['g'], 1⟩] ∧
        (∀ i, (frame.lexer.source.place i).line < 2 ^ 31) ∧
        (∀ latest ∈ mine.head?, 1 ≤ latest.number) ∧
        token ∈ frame.lexer.item.1.tokens ∧ token.isEnd = false ∧
        ∃ i, token.IsPresented frame.lexer.source frame.lexer.file mine i := by
  have created : Preprocessor.create Preprocessor.passingSetup = .ok freshRun := rfl
  have opening : freshRun.openMain Preprocessor.passingSetup (.ok (.ofDecoded false numberedText))
      ['m'] = .ok { freshRun with reader := numberedReader } := rfl
  have logs := (Logs.opened created opening).after 2
  have read : ((numberedReader.after Preprocessor.passingSetup 2).frames.zip
      (changesIn Preprocessor.passingSetup 2 numberedReader
        (numberedReader.frames.map fun _ => []))).any (fun (frame, mine) =>
          mine = [⟨3, none, 2⟩, ⟨7, some ['g'], 1⟩] &&
            (frame.lexer.source.finish :: frame.lexer.source.places.toList).all (·.line < 2 ^ 31) &&
            frame.lexer.item.1.tokens.any (!·.isEnd)) = true := by
    decide +kernel
  obtain ⟨⟨frame, mine⟩, isOpen, read⟩ := List.any_eq_true.mp read
  simp only [Bool.and_eq_true, decide_eq_true_eq] at read
  obtain ⟨⟨same, short⟩, gives⟩ := read
  obtain ⟨token, gives, inside⟩ := List.any_eq_true.mp gives
  have short : ∀ i, (frame.lexer.source.place i).line < 2 ^ 31 := by
    intro i
    have listed : frame.lexer.source.place i ∈
        frame.lexer.source.finish :: frame.lexer.source.places.toList := by
      unfold Source.place
      cases found : frame.lexer.source.places[i]? with
      | none => exact List.mem_cons_self
      | some place =>
        exact List.mem_cons_of_mem _ (Array.mem_toList_iff.mpr (Array.mem_of_getElem? found))
    exact of_decide_eq_true (List.all_eq_true.mp short _ listed)
  have counts : ∀ latest ∈ mine.head?, 1 ≤ latest.number := by
    rw [same]
    decide
  have inside : token.isEnd = false := by simpa using inside
  exact ⟨_, _, logs, frame, mine, token, isOpen, same, short, counts, gives, inside,
    logs.exists_isPresented isOpen short counts gives inside⟩

end Reader

end CPreprocessor
