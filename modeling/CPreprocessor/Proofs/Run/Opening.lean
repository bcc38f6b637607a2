/-
# Opening the main file

A run that has opened no file knows the builtin macros only (`IsNew`). When it opens its
main file, the only thing that can fail is to read it, and then the reader is the one of
the main file with the preamble on top of it (`openMain_eq_ok`).
-/
import CPreprocessor.Preprocessor.Run

namespace CPreprocessor

/-- A run starts with no files, no conditionals and nothing learned but the builtin macros. -/
theorem Reader.exists_create {setup : Setup} {p : Preprocessor}
    (created : Preprocessor.create setup = .ok p) :
    ∃ cache, p = { reader := { session := {
      macros := MacroTable.addBuiltins {}
      resolver := { searchPath := setup.config.searchPath, cache }
      expansion := { journal := { logging := setup.config.logging } } } } } := by
  unfold Preprocessor.create at created
  cases empty : Cache.empty? (κ := Text) (ν := Option Header) setup.config.cacheCapacity with
  | error failure =>
    rw [empty] at created
    cases created
  | ok cache =>
    rw [empty] at created
    cases created
    exact ⟨cache, rfl⟩

namespace Preprocessor

variable {setup : Setup} {p q : Preprocessor} {source : Except SourceError Source} {name : Text}

/-- A run that has opened no file has read and learned nothing. -/
structure IsNew (p : Preprocessor) : Prop where
  idle : p.reader.queued = []
  pending : p.pending = []
  ok : p.reader.status = .ok
  number : p.reader.nextFileNumber = 1
  closed : p.reader.frames = []
  unopened : p.reader.opened = false
  unguarded : p.reader.guards = []
  unconditional : p.reader.session.conditions = {}
  counter : p.reader.session.expansion.counter = 0
  unreported : p.reader.session.journal.entries = []
  macros : p.reader.session.macros = MacroTable.addBuiltins {}

theorem isNew_of_create (created : create setup = .ok p) : p.IsNew := by
  obtain ⟨cache, rfl⟩ := Reader.exists_create created
  exact ⟨rfl, rfl, rfl, rfl, rfl, rfl, rfl, rfl, rfl, rfl, rfl⟩

/-- The reader of a run that has opened its main file and not its preamble. -/
def mainReader (setup : Setup) (p : Preprocessor) (source : Source) (name : Text) : Reader :=
  ({ p.reader with opened := true, baseFile := name } : Reader).openFrame setup source name name
    (setup.files.canonical name) none 0 false

theorem IsNew.openMain_eq_ok (isNew : p.IsNew) :
    p.openMain setup source name = .ok q ↔
      ∃ text, source = .ok text
        ∧ q = { p with reader := openPreamble setup (p.mainReader setup text name) } := by
  unfold openMain
  cases source with
  | error cause => simp
  | ok text =>
    simp only [isNew.unopened, Bool.false_eq_true, if_false, Except.ok.injEq, exists_eq_left', eq_comm]
    rfl

theorem IsNew.openSource_eq {text : Text} (isNew : p.IsNew) {source : Source}
    (decoded : Source.ofBytes text name setup.config.trigraphs = .ok source) :
    p.openSource setup text name
      = .ok { p with reader := openPreamble setup (p.mainReader setup source name) } :=
  isNew.openMain_eq_ok.mpr ⟨source, decoded, rfl⟩

end Preprocessor

end CPreprocessor
