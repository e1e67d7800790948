import ProjectFile.Proofs.CommandLine.NoEvaluate
import ProjectFile.Proofs.CommandLine.Run
import ProjectFile.Proofs.Reader.Fallback

/-!
What an engine can change about a run. Where it is not asked it changes nothing, whatever it does
and wherever it is, and where it fails it changes nothing either: the run ends as it does for the
same command line with `--no-evaluate`. Both hold because a reading without an answer sees of its
settings only the names of sources and those of excluded directories.
-/

namespace ProjectFile

namespace Evaluation

/-- Whether an engine fails on a project: it cannot be given its command, it is not there or does
not start, it does not end well, or it prints what cannot be decoded. -/
def Fails (launch : Launcher) (engine : Path) (sourceExtension : Text) (path : Path) : Prop :=
  hasNul (command engine path) = true ∨
    ∀ f, launch (command engine path) = .ok f → f.status.isSuccess = true →
      ∃ reason, decode (Text.decodeLossy f.output) (path.parent?.getD .empty) sourceExtension =
        .error reason

/-- An engine fails just if it gives no answer. -/
theorem fails_iff {launch : Launcher} {engine path : Path} {sourceExtension : Text} :
    Fails launch engine sourceExtension path ↔
      ∃ reason, run launch engine sourceExtension path = .error reason := by
  constructor
  · rintro (hnul | h)
    · refine ⟨.notStarted .nulInCommand, ?_⟩
      simp only [run, hnul, if_true]
    · exact run_eq_error h
  · rintro ⟨reason, h⟩
    cases hnul : hasNul (command engine path) with
    | true => exact .inl hnul
    | false =>
      refine .inr fun f hlaunch hsuccess => ⟨reason, ?_⟩
      simpa only [run, hnul, Bool.false_eq_true, if_false, hlaunch, ofFinished, hsuccess, if_true]
        using h

end Evaluation

namespace Settings

/-- Whether two settings find the same sources. -/
structure SameSources (s s' : Settings) : Prop where
  sourceExtension : s.sourceExtension = s'.sourceExtension
  excludedDirectories : s.excludedDirectories = s'.excludedDirectories

theorem SameSources.validate_eq {s s' : Settings} (h : s.SameSources s')
    (hs : s.engine.bytes ≠ []) (hs' : s'.engine.bytes ≠ []) : s.validate = s'.validate := by
  simp only [validate, h.sourceExtension, List.isEmpty_iff, hs, hs', if_false]

theorem SameSources.extract_eq {s s' : Settings} (h : s.SameSources s') (storage : Storage)
    (path : Path) (document : Xml.Document) :
    Markup.extract storage s path document = Markup.extract storage s' path document := by
  obtain ⟨evaluate, engine, sourceExtension, excludedDirectories⟩ := s
  obtain ⟨evaluate', engine', sourceExtension', excludedDirectories'⟩ := s'
  obtain ⟨rfl, rfl⟩ := h
  rfl

end Settings

/-- Whether a reader's evaluator has no answer for a project. -/
def Reader.IsSilent (r : Reader) (p : Path) : Prop :=
  ∀ path, r.absolute p = .ok path → ∃ reason, (r.evaluator.evaluate path).result = .error reason

theorem Reader.IsSilent.result_read {r : Reader} {p : Path} (h : r.IsSilent p) :
    (r.read p).result = (r.known p).bind (Known.fromText r.storage r.settings) := by
  cases hpath : r.absolute p with
  | error e => rw [result_read_of_absolute_error hpath, known_of_absolute_error hpath, Except.bind]
  | ok path =>
    obtain ⟨reason, hreason⟩ := h path hpath
    exact result_read_of_error hpath hreason

/-- Readings without an answer are the same if the storage is and the same sources are found. -/
theorem Reader.result_read_congr {storage : Storage} {base : Except SystemError Path} {p : Path}
    {s s' : Settings} {evaluator evaluator' : Evaluator} (h : s.SameSources s')
    (hsilent : (Reader.mk storage evaluator s base).IsSilent p)
    (hsilent' : (Reader.mk storage evaluator' s' base).IsSilent p) :
    ((Reader.mk storage evaluator s base).read p).result =
      ((Reader.mk storage evaluator' s' base).read p).result := by
  have htext : Known.fromText storage s = Known.fromText storage s' := by
    funext k
    rw [Known.fromText, Known.fromText, h.extract_eq]
  rw [hsilent.result_read, hsilent'.result_read]
  change _ = ((Reader.mk storage evaluator s base).known p).bind (Known.fromText storage s')
  rw [← htext]

namespace CommandLine

/-- Whether two runs leave the same exit code, the same output and the same files. -/
structure Outcome.Alike (o o' : Outcome) : Prop where
  exit : o.exit = o'.exit
  output : o.output = o'.output
  disk : o.disk = o'.disk

namespace ReadCommand

variable {c c' : ReadCommand} {host host' : Host}

theorem run_alike (hdisk : host.disk = host'.disk) (houtput : c.output? = c'.output?)
    (hrendered : (c.rendered host).result = (c'.rendered host').result) :
    (c.run host).Alike (c'.run host') := by
  have hbind : (c.rendered host).result.bind (c.deliver host.disk) =
      (c'.rendered host').result.bind (c'.deliver host'.disk) := by
    rw [hrendered, hdisk]
    unfold deliver
    rw [houtput]
  cases h : (c'.rendered host').result.bind (c'.deliver host'.disk) with
  | ok x =>
    rw [run_of_ok h, run_of_ok (hbind.trans h)]
    exact ⟨rfl, rfl, rfl⟩
  | error e =>
    rw [run_of_error h, run_of_error (hbind.trans h)]
    exact ⟨rfl, rfl, hdisk⟩

theorem isSilent_of_off (h : (c.settings host.environment).evaluate = false) :
    (c.reader host).IsSilent c.project := by
  intro path _
  refine ⟨.disabled, ?_⟩
  change ((Evaluator.ofSettings _ _).evaluate _).result = _
  rw [Evaluator.ofSettings, if_neg (by simp [h]), Evaluator.result_disabled]

theorem isSilent_of_fails (hfails : ∀ path, (c.reader host).absolute c.project = .ok path →
      Evaluation.Fails host.launch (c.settings host.environment).engine
        (c.settings host.environment).sourceExtension path) :
    (c.reader host).IsSilent c.project := by
  cases h : (c.settings host.environment).evaluate with
  | false => exact isSilent_of_off h
  | true =>
    intro path hpath
    obtain ⟨reason, hrun⟩ := Evaluation.fails_iff.mp (hfails path hpath)
    refine ⟨reason, ?_⟩
    change ((Evaluator.ofSettings _ _).evaluate _).result = _
    rw [Evaluator.ofSettings, if_pos h, Evaluator.result_engine, hrun]

/-- Commands that read the same project without an answer run alike. -/
theorem run_alike_of_isSilent (hdisk : host.disk = host'.disk) (hproject : c.project = c'.project)
    (hformat : c.format = c'.format) (houtput : c.output? = c'.output?)
    (hsources : (c.settings host.environment).SameSources (c'.settings host'.environment))
    (hvalid : (c.settings host.environment).validate = (c'.settings host'.environment).validate)
    (hsilent : (c.reader host).IsSilent c.project)
    (hsilent' : (c'.reader host').IsSilent c'.project) : (c.run host).Alike (c'.run host') := by
  have hread : ((c.reader host).read c.project).result =
      ((c'.reader host').read c'.project).result := by
    unfold reader at hsilent hsilent' ⊢
    rw [hproject, hdisk] at hsilent ⊢
    exact Reader.result_read_congr hsources hsilent hsilent'
  refine run_alike hdisk houtput ?_
  rw [result_rendered, result_rendered, hvalid, hread, hformat]

end ReadCommand

/-- Evaluation is off if the command line or the environment says so. -/
theorem settings_evaluate_eq_false_iff {c : ReadCommand} {env : Environment} :
    (c.settings env).evaluate = false ↔
      c.noEvaluate = true ∨ env.truth? "PROJMETA_EVALUATE" = some false := by
  change ((env.truth? "PROJMETA_EVALUATE").getD true && !c.noEvaluate) = false ↔ _
  cases c.noEvaluate with
  | true => simp
  | false =>
    cases env.truth? "PROJMETA_EVALUATE" with
    | none => simp
    | some b => simp

/-- Where the environment differs in the path of the engine alone, everything else is set alike. -/
theorem settings_congr (c c' : ReadCommand) {env env' : Environment}
    (henv : ∀ name : Text, name ≠ "PROJMETA_DOTNET" → env.value? name = env'.value? name) :
    (c.settings env).SameSources (c'.settings env') ∧
      env.truth? "PROJMETA_EVALUATE" = env'.truth? "PROJMETA_EVALUATE" := by
  refine ⟨⟨?_, ?_⟩, ?_⟩
  · change (env.value? "PROJMETA_SOURCE_EXTENSION").getD _ = (env'.value? _).getD _
    rw [henv _ (by decide)]
  · change ((env.value? "PROJMETA_SCAN_EXCLUDE").map _).getD _ = ((env'.value? _).map _).getD _
    rw [henv _ (by decide)]
  · rw [Environment.truth?, Environment.truth?, henv _ (by decide)]

/-- An engine that is not asked changes neither the exit code nor what is printed or written, and
neither does another path to it. An engine that fails leaves all of them as they are with
`--no-evaluate`, which there is room for behind the command name. -/
theorem run_unevaluated {arguments : List Bytes} {a : Arguments} (h : parse arguments = .ok a)
    (host : Host) :
    let s := a.read.settings host.environment
    let off := a.read.noEvaluate = true ∨
      host.environment.truth? "PROJMETA_EVALUATE" = some false
    (off → ∀ arguments' a' environment launch, parse arguments' = .ok a' →
      a'.read = { a.read with engine? := a'.read.engine? } →
      (∀ name : Text, name ≠ "PROJMETA_DOTNET" →
        host.environment.value? name = environment.value? name) →
      s.engine.bytes ≠ [] → (a'.read.settings environment).engine.bytes ≠ [] →
      (run arguments host).Alike (run arguments' ⟨environment, host.disk, launch⟩)) ∧
    (¬ off → (∀ path, (a.read.reader host).absolute a.read.project = .ok path →
        Evaluation.Fails host.launch s.engine s.sourceExtension path) →
      (∃ before after, arguments = before ++ ("read" : Bytes) :: after ∧
        parse (before ++ ("read" : Bytes) :: "--no-evaluate" :: after) = .ok a.unevaluated) ∧
      ∀ arguments', parse arguments' = .ok a.unevaluated →
        (run arguments host).Alike (run arguments' host)) := by
  intro s off
  have hrun {arguments : List Bytes} {a : Arguments} (h : parse arguments = .ok a) (host : Host) :
      run arguments host = a.run host := by
    rw [run, h]
  have hcommand {a a' : Arguments} {host host' : Host}
      (h : (a.read.run host).Alike (a'.read.run host')) : (a.run host).Alike (a'.run host') :=
    ⟨h.exit, h.output, h.disk⟩
  constructor
  · intro hoff arguments' a' environment launch h' hread henv hengine hengine'
    rw [hrun h, hrun h']
    refine hcommand ?_
    obtain ⟨hsources, htruth⟩ := settings_congr a.read a'.read henv
    have hoff' : (a'.read.settings environment).evaluate = false := by
      rw [settings_evaluate_eq_false_iff, hread, ← htruth]
      exact hoff
    rw [hread] at hsources hengine' hoff' ⊢
    exact ReadCommand.run_alike_of_isSilent rfl rfl rfl rfl hsources
      (hsources.validate_eq hengine hengine')
      (ReadCommand.isSilent_of_off (settings_evaluate_eq_false_iff.mpr hoff))
      (ReadCommand.isSilent_of_off hoff')
  · intro hon hfails
    have hunset : a.read.noEvaluate = false := by
      rw [← Bool.not_eq_true]
      exact fun hset => hon (.inl hset)
    refine ⟨exists_unevaluated h hunset, fun arguments' h' => ?_⟩
    rw [hrun h, hrun h']
    refine hcommand (ReadCommand.run_alike_of_isSilent rfl rfl rfl rfl ⟨rfl, rfl⟩ rfl
      (ReadCommand.isSilent_of_fails hfails) (ReadCommand.isSilent_of_off ?_))
    exact settings_evaluate_eq_false_iff.mpr (.inl rfl)

/-- A host with a project and an engine. -/
def hostWith (environment : Environment) (launch : Launcher) : Host where
  environment := environment
  disk := ⟨.directory .all [("a.proj", .file .all (Text.encode "<Project />".toList))], ⟨"/"⟩⟩
  launch := launch

/-- An engine that would be believed, and one that is killed. -/
theorem run_unevaluated_sample :
    let answering : Launcher := fun _ => .ok ⟨.code 0, Text.encode "\x7b\x7d".toList, []⟩
    let killed : Launcher := fun _ => .ok ⟨.killed, [], []⟩
    (run ["read", "--no-evaluate", "a.proj"] (hostWith [] answering)).Alike
        (run ["-v", "read", "--no-evaluate", "--dotnet", "/e", "a.proj"]
          (hostWith [("PROJMETA_DOTNET", "/d")] killed)) ∧
      (run ["read", "a.proj"] (hostWith [] killed)).Alike
        (run ["read", "a.proj", "--no-evaluate"] (hostWith [] killed)) ∧
      (run ["read", "a.proj"] (hostWith [] answering)).output ≠
        (run ["read", "a.proj"] (hostWith [] killed)).output := by
  intro answering killed
  have hoff : parse ["read", "--no-evaluate", "a.proj"] =
      .ok ⟨⟨⟨"a.proj"⟩, .human, true, none, none⟩, none, false, false⟩ := by decide +kernel
  have hon : parse ["read", "a.proj"] =
      .ok ⟨⟨⟨"a.proj"⟩, .human, false, none, none⟩, none, false, false⟩ := by decide +kernel
  obtain ⟨hnotAsked, -⟩ := run_unevaluated hoff (hostWith [] answering)
  obtain ⟨-, hfailed⟩ := run_unevaluated hon (hostWith [] killed)
  refine ⟨?_, ?_, ?_⟩
  · refine hnotAsked (.inl rfl) _ ⟨⟨⟨"a.proj"⟩, .human, true, some ⟨"/e"⟩, none⟩, none, true, false⟩
      [("PROJMETA_DOTNET", "/d")] killed (by decide +kernel) rfl ?_ (by decide) (by decide)
    intro name hname
    have hne : (("PROJMETA_DOTNET" : Text) == name) = false := beq_false_of_ne (Ne.symm hname)
    simp only [Environment.value?, hostWith, List.find?, hne]
  · refine (hfailed (by decide) fun path _ => .inr fun f hlaunch hsuccess => ?_).2 _
      (by decide +kernel)
    cases hlaunch
    cases hsuccess
  · decide +kernel

end CommandLine

end ProjectFile
