import ProjectFile.Proofs.Reader.Known

/-!
What an evaluator can change about a reading. Path, directory and packages of a descriptor are the
same for every evaluator. An evaluator without an answer can make a reading fail where one with an
answer lets it succeed, but only because the directory cannot be scanned; all other failures are
those of every evaluator.
-/

namespace ProjectFile

namespace Reader

namespace Known

variable {storage : Storage} {settings : Settings} {answer : Except EvaluationError Evaluated}
  {k : Known}

/-- However a known project is described, path, directory and packages are what is known. -/
theorem describe_shared {d : Descriptor} (h : k.describe storage settings answer = .ok d) :
    d.path = k.path ∧ d.directory = k.directory ∧ d.packages = k.packages := by
  cases answer with
  | ok evaluated =>
    cases h
    exact ⟨rfl, rfl, rfl⟩
  | error reason =>
    obtain ⟨markup, -, rfl⟩ := Except.map_eq_ok_iff.mp h
    exact ⟨rfl, rfl, rfl⟩

/-- A known project that cannot be described lacks a scan of its directory. -/
theorem describe_eq_error (hparent : k.path.parent? = some k.directory) {e : ProjectError}
    (h : k.describe storage settings answer = .error e) :
    ∃ cause, e = .unscannable k.directory cause := by
  cases answer with
  | ok evaluated => cases h
  | error reason =>
    exact extract_eq_error hparent (Except.map_eq_error_iff.mp h)

theorem exists_describe {reason : EvaluationError} {d : Descriptor}
    (h : k.describe storage settings (.error reason) = .ok d) :
    ∃ d', k.describe storage settings answer = .ok d' := by
  cases answer with
  | ok evaluated => exact ⟨_, rfl⟩
  | error _ => exact ⟨d, h⟩

end Known

/-- Two readings of one project by different evaluators. A project without an absolute path is
refused by both alike. Descriptors agree on path, directory and packages. A reading that succeeds
without an answer succeeds with every evaluator. A reading that fails in spite of an answer fails
with the same error without one, and a reading that fails for want of an answer fails because the
directory cannot be scanned. -/
theorem read_evaluators (storage : Storage) (settings : Settings) (base : Except SystemError Path)
    (p : Path) (a b : Evaluator) :
    let read (evaluator : Evaluator) :=
      ((Reader.mk storage evaluator settings base).read p).result
    (∀ e, (markupOnly storage settings base).absolute p = .error e →
      read a = .error e ∧ read b = .error e) ∧
    ∀ path, (markupOnly storage settings base).absolute p = .ok path →
      let answer (evaluator : Evaluator) := (evaluator.evaluate path).result
      (∀ d d', read a = .ok d → read b = .ok d' →
        d.path = d'.path ∧ d.directory = d'.directory ∧ d.packages = d'.packages) ∧
      (∀ reason d, answer a = .error reason → read a = .ok d → ∃ d', read b = .ok d') ∧
      (∀ evaluated reason e, answer a = .ok evaluated → answer b = .error reason →
        read a = .error e → read b = .error e) ∧
      (∀ evaluated reason d e, answer a = .ok evaluated → answer b = .error reason →
        read a = .ok d → read b = .error e → ∃ cause, e = .unscannable d.directory cause) := by
  intro read
  have hread (evaluator : Evaluator) : read evaluator =
      ((markupOnly storage settings base).known p).bind fun k =>
        k.describe storage settings (evaluator.evaluate k.path).result :=
    result_read ⟨storage, evaluator, settings, base⟩ p
  refine ⟨fun e he => ?_, fun path hpath => ?_⟩
  · simp [hread, known_of_absolute_error he, Except.bind]
  intro answer
  rw [hread a, hread b]
  cases hknown : (markupOnly storage settings base).known p with
  | error e => simp [Except.bind]
  | ok k =>
    obtain ⟨hfound, hparent, -⟩ := locate_eq_ok_iff.mp (locate_of_known hknown)
    obtain rfl : path = k.path := Except.ok.inj (hpath.symm.trans hfound)
    simp only [Except.bind]
    refine ⟨fun d d' hd hd' => ?_, fun reason d ha hd => ?_, fun evaluated reason e ha _ he => ?_,
      fun evaluated reason d e _ _ hd he => ?_⟩
    · obtain ⟨hp, hdir, hpkg⟩ := Known.describe_shared hd
      obtain ⟨hp', hdir', hpkg'⟩ := Known.describe_shared hd'
      exact ⟨hp.trans hp'.symm, hdir.trans hdir'.symm, hpkg.trans hpkg'.symm⟩
    · change k.describe storage settings (answer a) = .ok d at hd
      rw [ha] at hd
      exact Known.exists_describe hd
    · change k.describe storage settings (answer a) = .error e at he
      rw [ha] at he
      cases he
    · rw [(Known.describe_shared hd).2.1]
      exact Known.describe_eq_error hparent he

/-- A place where every path is the file of an SDK project and nothing is a directory. -/
def sampleStorage : Storage where
  isDirectory _ := false
  isFile _ := true
  read _ := .ok "<Project Sdk='S' />"
  files _ _ := pure []

def sampleEvaluator : Evaluator := ⟨"sample", fun _ => pure ⟨["R"], [], ["net8.0"]⟩⟩

/-- An answer is needed where the directory cannot be scanned. -/
theorem read_evaluators_sample :
    let read (evaluator : Evaluator) :=
      ((Reader.mk sampleStorage evaluator .default (.ok .root)).read ⟨"p/a.proj"⟩).result
    ∃ d e cause, read sampleEvaluator = .ok d ∧ read .disabled = .error e ∧
      e = .unscannable d.directory cause := by
  intro read
  have hread : read sampleEvaluator =
      .ok ⟨⟨"/p/a.proj"⟩, ⟨"/p"⟩, .evaluation, ["R"], [], [], ["net8.0"]⟩ := by decide +kernel
  have hdisabled : read .disabled =
      .error (.unscannable ⟨"/p"⟩ (.notDirectory ⟨"/p"⟩)) := by decide +kernel
  obtain ⟨-, hevaluators⟩ :=
    read_evaluators sampleStorage .default (.ok .root) ⟨"p/a.proj"⟩ sampleEvaluator .disabled
  obtain ⟨-, -, -, hscan⟩ := hevaluators ⟨"/p/a.proj"⟩ (by decide +kernel)
  obtain ⟨cause, he⟩ := hscan _ _ _ _ rfl rfl hread hdisabled
  exact ⟨_, _, cause, hread, hdisabled, he⟩

end Reader

end ProjectFile
