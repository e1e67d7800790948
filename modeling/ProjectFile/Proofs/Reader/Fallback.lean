import ProjectFile.Evaluation.Engine
import ProjectFile.Proofs.Reader.Known
import ProjectFile.Storage.Memory

/-!
Falling back to the text. A reader whose evaluator has no answer ends as one that never asks, be it
with a descriptor or with an error, and both end as the readers of packages and of markup do one
after the other, although each of these loads and parses the text by itself.
-/

namespace ProjectFile

namespace Evaluation

/-- An engine gives no answer unless it ends well and prints what can be decoded. -/
theorem run_eq_error {launch : Launcher} {engine path : Path} {sourceExtension : Text}
    (h : ∀ f, launch (command engine path) = .ok f → f.status.isSuccess = true →
      ∃ reason, decode (Text.decodeLossy f.output) (path.parent?.getD .empty) sourceExtension =
        .error reason) :
    ∃ reason, run launch engine sourceExtension path = .error reason := by
  unfold run
  dsimp only
  split
  · next f hstart =>
    have hlaunch : launch (command engine path) = .ok f := by
      split at hstart
      · cases hstart
      · exact hstart
    unfold ofFinished
    split
    · next hsuccess => exact h f hlaunch hsuccess
    · exact ⟨_, rfl⟩
  · exact ⟨_, rfl⟩
  · exact ⟨_, rfl⟩

end Evaluation

namespace Reader

theorem result_read_of_error {r : Reader} {p path : Path} {reason : EvaluationError}
    (hpath : r.absolute p = .ok path) (h : (r.evaluator.evaluate path).result = .error reason) :
    (r.read p).result = (r.known p).bind (Known.fromText r.storage r.settings) := by
  rw [result_read]
  cases hknown : r.known p with
  | error e => rfl
  | ok k =>
    obtain ⟨hfound, -⟩ := locate_eq_ok_iff.mp (locate_of_known hknown)
    obtain rfl : path = k.path := Except.ok.inj (hpath.symm.trans hfound)
    rw [Except.bind, h]
    rfl

/-- A project without a cleaned absolute path is not read, whatever the evaluator. -/
theorem result_read_of_absolute_error {r : Reader} {p : Path} {e : ProjectError}
    (h : r.absolute p = .error e) : (r.read p).result = .error e := by
  rw [result_read, known_of_absolute_error h]
  rfl

/-- The readers of packages and of markup agree with the reading of both from one document. -/
theorem packages_then_markup (storage : Storage) (settings : Settings) (path directory : Path) :
    ((documentOf storage path).map fun found => ⟨path, directory, found.1, found.2⟩).bind
        (Known.fromText storage settings) = (do
      let packages ← Packages.read storage path
      let markup ← (Markup.read storage settings path).result
      pure (ofMarkup path directory packages markup)) := by
  unfold documentOf Packages.read Markup.read
  rw [Attempt.result_bind, Attempt.result_ofExcept]
  cases Markup.load storage path with
  | error e => rfl
  | ok text =>
    rw [Except.bind, Attempt.result_bind, Attempt.result_ofExcept]
    change Except.bind (Except.map _ ((Markup.parse path text).bind _)) _ =
      ((Markup.parse path text).bind _).bind _
    cases Markup.parse path text with
    | error e => rfl
    | ok document =>
      change Except.bind (Except.map _ ((Packages.extract path document).bind _)) _ =
        (Packages.extract path document).bind _
      cases Packages.extract path document with
      | error e => rfl
      | ok packages =>
        change (Markup.extract storage settings path document).result.map _ =
          (Markup.extract storage settings path document).result.bind _
        cases (Markup.extract storage settings path document).result <;> rfl

/-- An evaluator that fails on a project, whatever the reason, leaves the reading as it is without
any evaluator; so does an engine that cannot be run, ends badly or prints nothing that can be
decoded. If the project is a file in a directory, that reading is the one of its packages followed
by the one of its markup. A project that has no absolute path, since there is no base to see it
from, is refused by every evaluator's reader alike. -/
theorem read_without_answer (r : Reader) (p : Path) :
    let alone := ((markupOnly r.storage r.settings r.base).read p).result
    (∀ path, r.absolute p = .ok path →
      (∀ reason, (r.evaluator.evaluate path).result = .error reason → (r.read p).result = alone) ∧
      (∀ launch engine sourceExtension,
        (∀ f, launch (Evaluation.command engine path) = .ok f → f.status.isSuccess = true →
          ∃ reason, Evaluation.decode (Text.decodeLossy f.output) (path.parent?.getD .empty)
            sourceExtension = .error reason) →
        ((Reader.mk r.storage (.engine launch engine sourceExtension) r.settings r.base).read
          p).result = alone) ∧
      ∀ directory, path.parent? = some directory → directory.bytes ≠ [] →
        r.storage.isFile path = true →
        alone = (do
          let packages ← Packages.read r.storage path
          let markup ← (Markup.read r.storage r.settings path).result
          pure
            { path, directory, strategy := .markup markup.style, references := markup.references,
              packages, sources := markup.sources,
              targetFrameworks := markup.targetFrameworks })) ∧
    ∀ e, r.absolute p = .error e → (r.read p).result = .error e ∧ alone = .error e := by
  intro alone
  refine ⟨fun path hpath => ?_, fun e he =>
    ⟨result_read_of_absolute_error he, result_read_of_absolute_error he⟩⟩
  have halone : alone = (r.known p).bind (Known.fromText r.storage r.settings) :=
    result_read_of_error (r := markupOnly r.storage r.settings r.base) hpath
      (Evaluator.result_disabled path)
  refine ⟨fun reason h => ?_, fun launch engine sourceExtension h => ?_,
    fun directory hparent hdirectory hfile => ?_⟩
  · rw [halone]
    exact result_read_of_error hpath h
  · obtain ⟨reason, hrun⟩ := Evaluation.run_eq_error h
    rw [halone]
    exact result_read_of_error
      (r := ⟨r.storage, .engine launch engine sourceExtension, r.settings, r.base⟩) hpath
      (by rw [Evaluator.result_engine]; exact hrun)
  · have hlocate : r.locate p = .ok (path, directory) :=
      locate_eq_ok_iff.mpr ⟨hpath, hparent, hdirectory⟩
    rw [halone, known_of_isFile hlocate hfile]
    exact packages_then_markup r.storage r.settings path directory

/-- A reader of a legacy project whose engine ends badly. -/
def sampleReader : Reader where
  storage := ((Memory.Tree.empty ⟨"/"⟩).insert ⟨"/p/a.proj"⟩ (.file
    ("<Project xmlns='http://schemas.microsoft.com/developer/msbuild/2003'>" ++
      "<ItemGroup><Reference Include='R' /></ItemGroup></Project>").toList)).storage
  evaluator := .engine (fun _ => .ok ⟨.code 1, [], []⟩) ⟨"dotnet"⟩ ".cs"
  settings := .default
  base := .ok .root

theorem read_without_answer_sample :
    (sampleReader.read ⟨"p/a.proj"⟩).result =
      .ok ⟨⟨"/p/a.proj"⟩, ⟨"/p"⟩, .markup .legacy, ["R"], [], [], []⟩ := by
  obtain ⟨hread, -⟩ := read_without_answer sampleReader ⟨"p/a.proj"⟩
  obtain ⟨-, hengine, -⟩ := hread ⟨"/p/a.proj"⟩ (by decide +kernel)
  have halone := hengine (fun _ => .ok ⟨.code 1, [], []⟩) ⟨"dotnet"⟩ ".cs"
    fun f hlaunch hsuccess => by
      cases hlaunch
      cases hsuccess
  exact halone.trans (by decide +kernel)

end Reader

end ProjectFile
