/-
# Reports decide nothing

Unless a run is to end with its first error, nothing that it does depends on what it has
reported. Readers that differ in their reports only (`Reader.ReadsAs`) are twins, so runs
that differ in the same way (`Preprocessor.ReadsAs`) find the same tokens from there on.
-/
import CPreprocessor.Proofs.Run.Twins

namespace CPreprocessor

/-- The files are the same, or what is left of them looks the same in everything but reports. -/
def Lexer.ReadsAs (l l' : Lexer) : Prop :=
  l = l' ∨ Lexer.Alike .unreported l l'

namespace Lexer.ReadsAs

variable {l l' : Lexer} (same : l.ReadsAs l')
include same

theorem item : l.item.1.seen .unreported = l'.item.1.seen .unreported ∧ l.item.2.ReadsAs l'.item.2 := by
  obtain rfl | alike := same
  · exact ⟨rfl, .inl rfl⟩
  · exact ⟨alike.item.1, .inr alike.item.2.of_spaced⟩

theorem presentLine (line : Nat) (name : Option Text) :
    (l.presentLine line name).ReadsAs (l'.presentLine line name) := by
  obtain rfl | alike := same
  · exact .inl rfl
  · exact .inr (alike.presentLine line name)

theorem file : View.unreported.file l.file = View.unreported.file l'.file := by
  obtain rfl | alike := same
  · rfl
  · exact alike.file

end Lexer.ReadsAs

namespace Reader

/-- The readers differ in what they have reported only. -/
def ReadsAs (r r' : Reader) : Prop :=
  r.Alike .unreported Lexer.ReadsAs r'

variable {setup : Setup} {r r' : Reader}

theorem ReadsAs.refl (r : Reader) : r.ReadsAs r where
  session := by
    obtain ⟨t, shows⟩ := Session.Shows.exists_shows View.unreported.spaced r.session (by rintro _ _ ⟨⟩)
    exact ⟨t, shows, shows⟩
  frames := List.forall₂_same.mpr fun _ _ => ⟨.inl rfl, rfl, rfl, rfl, rfl, rfl, rfl, rfl, fun _ => rfl⟩
  queued := rfl
  onceFiles := rfl
  guards _ := rfl
  nextFileNumber _ := rfl
  status := rfl
  ending := rfl
  baseFile := rfl

theorem ReadsAs.report_left (same : r.ReadsAs r') (token : Token) (code : Code) (detail : Text) :
    (r.report token code detail).ReadsAs r' :=
  Alike.report_left same rfl token code detail

theorem ReadsAs.of_report_right {token : Token} {code : Code} {detail : Text}
    (same : r.ReadsAs (r'.report token code detail)) : r.ReadsAs r' :=
  same.withSession (same.session.annotated rfl r.session.journal r'.session.journal)

section Lenient

variable (lenient : setup.config.failFast = false)
include lenient

/-- The readers make the same step. -/
theorem ReadsAs.step (same : r.ReadsAs r') :
    Step.Alike .unreported Lexer.ReadsAs (r.step setup) (r'.step setup) := by
  have alike : r.Alike .unreported Lexer.ReadsAs r' := same
  refine @Alike.step _ _ _ _ alike setup setup.skipsGuarded
    fun frame outer frame' outer' _ _ isOpen isOpen' => ?_
  have frames := alike.frames
  rw [isOpen, isOpen', List.forall₂_cons] at frames
  obtain ⟨items, after⟩ := frames.1.lexer.item
  refine alike.readToken (.inr lenient) frames.2 (View.isClear_unreported.reader r)
    (fun d _ _ => View.isClear_unreported.speaks d.args) after.presentLine items
    { frames.1 with lexer := after, file := after.file } ?_
  -- The header is entered in both places, since guards are compared.
  intro d rest header site site' guard guard' s s' here sessions guards _ sites
  rw [here] at after
  have top : Frame.Alike .unreported Lexer.ReadsAs { frame with lexer := rest, guard }
      { frame' with lexer := frame'.lexer.item.2, guard := guard' } :=
    { frames.1 with lexer := after, file := after.file, guard := guards }
  have entering := (alike.withSession sessions).withFrames (.cons top frames.2)
  exact entering.enter .inr header (entering.isSettled setup rfl header) sites

/-- The same token is pulled. -/
theorem ReadsAs.pull (same : r.ReadsAs r') :
    (r.pull setup).1.seen .unreported = (r'.pull setup).1.seen .unreported
      ∧ (r.pull setup).2.ReadsAs (r'.pull setup).2 := by
  fun_induction Reader.pull setup r generalizing r' with
  | case1 r token next stepped =>
    have steps := same.step lenient
    rw [stepped] at steps
    cases stepped' : r'.step setup with
    | goOn next' => rw [stepped'] at steps; cases steps
    | give token' next' =>
      rw [stepped'] at steps
      cases steps with
      | give looks after =>
        rw [pull_of_give stepped']
        exact ⟨looks, after⟩
  | case2 r next stepped =>
    rename_i ih
    have steps := same.step lenient
    rw [stepped] at steps
    cases stepped' : r'.step setup with
    | give token' next' => rw [stepped'] at steps; cases steps
    | goOn next' =>
      rw [stepped'] at steps
      cases steps with
      | goOn after =>
        rw [pull_of_goOn stepped']
        exact ih after

theorem twins_readsAs : Twins .unreported setup setup.skipsGuarded (fun _ => True) ReadsAs :=
  twins_of_alike View.isClear_unreported (.inr lenient) (fun same => same)
    (fun _ _ _ alike => alike) fun same _ => same.pull lenient

end Lenient

end Reader

namespace Preprocessor

/-- The runs differ in what they have reported only. -/
structure ReadsAs (p p' : Preprocessor) : Prop where
  readers : p.reader.ReadsAs p'.reader
  pending : p.pending = p'.pending

namespace ReadsAs

variable {setup : Setup} {p p' : Preprocessor}

theorem refl (p : Preprocessor) : p.ReadsAs p :=
  ⟨.refl p.reader, rfl⟩

theorem of_twins (twins : p.Twins .unreported Reader.ReadsAs p') : p.ReadsAs p' :=
  ⟨twins.readers, by simpa only [Token.map_seen_unreported] using twins.pending⟩

theorem of_twinTokens {given given' : Token × Preprocessor}
    (found : TwinTokens .unreported Reader.ReadsAs given given') :
    given.1 = given'.1 ∧ given.2.ReadsAs given'.2 :=
  ⟨by simpa only [Token.seen_unreported] using found.looks, of_twins found.after⟩

variable (same : p.ReadsAs p')
include same

theorem twins : p.Twins .unreported Reader.ReadsAs p' :=
  ⟨same.readers, congrArg _ same.pending, View.isClear_unreported.speaks p.pending⟩

theorem pushBack (tokens : List Token) : (p.pushBack tokens).ReadsAs (p'.pushBack tokens) :=
  ⟨same.readers, congrArg (tokens ++ ·) same.pending⟩

theorem report (token : Token) (code : Code) (detail : Text) :
    (p.report token code detail).ReadsAs (p'.report token code detail) :=
  ⟨Reader.Alike.report same.readers rfl code detail, same.pending⟩

theorem report_left (token : Token) (code : Code) (detail : Text) :
    (p.report token code detail).ReadsAs p' :=
  ⟨same.readers.report_left token code detail, same.pending⟩

section Lenient

variable (lenient : setup.config.failFast = false)
include lenient

theorem take :
    (p.take setup).1 = (p'.take setup).1 ∧ (p.take setup).2.ReadsAs (p'.take setup).2 :=
  of_twinTokens ((Reader.twins_readsAs lenient).take same.twins fun _ _ _ => trivial).toTwinTokens

theorem expandNext :
    (p.expandNext setup).1 = (p'.expandNext setup).1
      ∧ (p.expandNext setup).2.ReadsAs (p'.expandNext setup).2 :=
  of_twinTokens ((Reader.twins_readsAs lenient).expandNext same.twins fun _ _ => trivial).toTwinTokens

theorem next :
    (p.next setup).1 = (p'.next setup).1 ∧ (p.next setup).2.ReadsAs (p'.next setup).2 :=
  of_twinTokens ((Reader.twins_readsAs lenient).next same.twins (fun _ _ => trivial)
    fun args _ => View.isClear_unreported.speaks args)

end Lenient

end ReadsAs

end Preprocessor

end CPreprocessor
