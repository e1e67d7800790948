import ProjectFile.CommandLine.Run
import ProjectFile.Proofs.Disk.Write
import ProjectFile.Proofs.Report.Lossless
import ProjectFile.Proofs.Text.Utf8

/-!
What a run leaves behind. All that can fail comes before the text is delivered, and the text goes to
one place: to standard output, with the disk as it was, or to the output file, with nothing printed
and everything else on the disk as it was. With settings that are refused neither the disk nor the
engine is looked at.
-/

namespace ProjectFile

/-- Whether the path leads to a file with the text, which is read back if the program may read the
file, and nothing else on the disk has changed. -/
structure Disk.Holds (before after : Disk) (path : Path) (t : Text) : Prop where
  base : after.base = before.base
  written : ∃ place rights, after.resolve path = .ok (place, .file rights t.encode) ∧
    before.root.WrittenAt after.root place rights t.encode ∧
    (rights.read = true → after.storage.read path = .ok t)

theorem Disk.holds_write {before after : Disk} {path : Path} {t : Text}
    (h : before.write path t.encode = .ok after) : before.Holds after path t := by
  obtain ⟨place, rights, hresolve, hwritten, hbase⟩ := resolve_write h
  refine ⟨hbase, place, rights, hresolve, hwritten, fun hread => ?_⟩
  change Disk.read after path = .ok t
  rw [Disk.read, bytes, hresolve]
  simp only [hread, if_true, Text.decode?_encode]

namespace CommandLine

/-- Whether a run has put the text where it is wanted and nowhere else. -/
def Delivered (output? : Option Path) (before : Disk) (t : Text) (o : Outcome) : Prop :=
  match output? with
  | none => o.output = t ∧ o.disk = before
  | some path => o.output = [] ∧ before.Holds o.disk path t

namespace ReadCommand

variable {c : ReadCommand} {host : Host}

@[simp] theorem result_failAs {ε δ α : Type} (f : ε → δ) (x : Attempt ε α) :
    (failAs f x).result = x.result.mapError f := by
  unfold failAs
  rw [Attempt.result_bind, Attempt.result_outcome]
  cases h : x.result with
  | ok a => rfl
  | error e => rfl

theorem result_rendered (c : ReadCommand) (host : Host) : (c.rendered host).result =
    ((c.settings host.environment).validate.mapError RunError.badSettings).bind fun _ =>
      (((c.reader host).read c.project).result.mapError RunError.project).bind fun d =>
        (Report.render c.format d).mapError RunError.unrendered := by
  unfold rendered
  simp only [Attempt.result_bind, Attempt.result_ofExcept, Attempt.result_record, result_failAs]
  rfl

/-- A text is rendered if the settings are good, the project can be read and what is read has a text
in the format. -/
theorem result_rendered_eq_ok_iff {t : Text} : (c.rendered host).result = .ok t ↔
    (c.settings host.environment).validate = .ok () ∧
      ∃ d, ((c.reader host).read c.project).result = .ok d ∧ Report.render c.format d = .ok t := by
  simp only [result_rendered, Except.bind_eq_ok_iff, Except.mapError_eq_ok_iff]
  exact ⟨fun ⟨_, hvalid, hd⟩ => ⟨hvalid, hd⟩, fun ⟨hvalid, hd⟩ => ⟨(), hvalid, hd⟩⟩

/-- With settings that are refused nothing is read. -/
theorem rendered_of_refused {reason : SettingsError}
    (h : (c.settings host.environment).validate = .error reason) :
    c.rendered host = Attempt.ofExcept (.error (.badSettings reason)) := by
  unfold rendered
  simp only [h]
  exact Attempt.ofExcept_error_bind _ _

/-- What is delivered is at its place. -/
theorem delivered_of_deliver {before after : Disk} {t printed : Text}
    (h : c.deliver before t = .ok (printed, after)) (errors : List Text) (events : List Event) :
    Delivered c.output? before t ⟨0, printed, errors, events, after⟩ := by
  unfold deliver at h
  unfold Delivered
  cases houtput : c.output? with
  | none =>
    rw [houtput] at h
    cases h
    exact ⟨rfl, rfl⟩
  | some path =>
    rw [houtput] at h
    simp only at h
    split at h
    · next hwrite =>
      cases h
      exact ⟨rfl, Disk.holds_write hwrite⟩
    · cases h

theorem exists_deliver_iff {before : Disk} {t : Text} : (∃ x, c.deliver before t = .ok x) ↔
    ∀ path, c.output? = some path → ∃ after, before.write path t.encode = .ok after := by
  unfold deliver
  cases c.output? with
  | none => simp
  | some path =>
    simp only [Option.some.injEq, forall_eq']
    cases before.write path t.encode with
    | ok after => simp
    | error reason => simp

theorem run_of_ok {x : Text × Disk}
    (h : (c.rendered host).result.bind (c.deliver host.disk) = .ok x) :
    c.run host = ⟨0, x.1, [], (c.rendered host).events, x.2⟩ := by
  unfold run
  simp only [h]

theorem run_of_error {e : RunError}
    (h : (c.rendered host).result.bind (c.deliver host.disk) = .error e) :
    c.run host = ⟨1, [], ["Error: " ++ e.explain], (c.rendered host).events, host.disk⟩ := by
  unfold run
  simp only [h]

/-- A run ends well or leaves nothing behind. -/
theorem run_cases (c : ReadCommand) (host : Host) :
    ((c.run host).exit = 0 ∧ ∃ d text, ((c.reader host).read c.project).result = .ok d ∧
      Report.render c.format d = .ok text ∧ Delivered c.output? host.disk text (c.run host)) ∨
    (c.run host).exit = 1 ∧ (c.run host).output = [] ∧ (c.run host).disk = host.disk := by
  cases h : (c.rendered host).result.bind (c.deliver host.disk) with
  | ok x =>
    obtain ⟨t, ht, hx⟩ := Except.bind_eq_ok_iff.mp h
    obtain ⟨-, d, hd, htext⟩ := result_rendered_eq_ok_iff.mp ht
    rw [run_of_ok h]
    exact .inl ⟨rfl, d, t, hd, htext, delivered_of_deliver hx _ _⟩
  | error e =>
    rw [run_of_error h]
    exact .inr ⟨rfl, rfl, rfl⟩

/-- A run ends well if there is a text and it can be delivered. -/
theorem exit_eq_zero_iff : (c.run host).exit = 0 ↔
    (c.settings host.environment).validate = .ok () ∧
      ∃ d, ((c.reader host).read c.project).result = .ok d ∧
        (∃ text, Report.render c.format d = .ok text) ∧
        ∀ text path, Report.render c.format d = .ok text → c.output? = some path →
          ∃ after, host.disk.write path text.encode = .ok after := by
  have hexit : (c.run host).exit = 0 ↔
      ∃ x, (c.rendered host).result.bind (c.deliver host.disk) = .ok x := by
    cases h : (c.rendered host).result.bind (c.deliver host.disk) with
    | ok x => simp [run_of_ok h]
    | error e => simp [run_of_error h]
  rw [hexit]
  constructor
  · rintro ⟨x, hx⟩
    obtain ⟨t, ht, hx⟩ := Except.bind_eq_ok_iff.mp hx
    obtain ⟨hvalid, d, hd, htext⟩ := result_rendered_eq_ok_iff.mp ht
    refine ⟨hvalid, d, hd, ⟨t, htext⟩, fun text path htext' => ?_⟩
    obtain rfl : t = text := Except.ok.inj (htext.symm.trans htext')
    exact exists_deliver_iff.mp ⟨x, hx⟩ path
  · rintro ⟨hvalid, d, hd, ⟨text, htext⟩, hwrite⟩
    obtain ⟨x, hx⟩ := exists_deliver_iff.mpr fun path => hwrite text path htext
    exact ⟨x, Except.bind_eq_ok_iff.mpr
      ⟨text, result_rendered_eq_ok_iff.mpr ⟨hvalid, d, hd, htext⟩, hx⟩⟩

theorem run_of_refused {reason : SettingsError}
    (h : (c.settings host.environment).validate = .error reason) :
    c.run host = ⟨1, [], ["Error: " ++ (RunError.badSettings reason).explain], [], host.disk⟩ := by
  have hbind : (c.rendered host).result.bind (c.deliver host.disk) =
      .error (.badSettings reason) := by
    rw [rendered_of_refused h]
    rfl
  rw [run_of_error hbind, rendered_of_refused h]
  rfl

end ReadCommand

/-- An accepted command line either ends well, with the text of the project at the one place where
it is wanted, or fails with nothing printed and nothing changed. It ends well just if the settings
are good, the project can be read, the paths that were read are texts unless the report is for
people, and the report can be written. -/
theorem run_all_or_nothing {arguments : List Bytes} {a : Arguments} (h : parse arguments = .ok a)
    (host : Host) :
    let c := a.read
    let o := run arguments host
    let valid := (c.settings host.environment).validate
    let descriptor := ((c.reader host).read c.project).result
    (o.exit = 0 ∧ (∃ d text, descriptor = .ok d ∧ Report.render c.format d = .ok text ∧
        Delivered c.output? host.disk text o) ∨
      o.exit = 1 ∧ o.output = [] ∧ o.disk = host.disk) ∧
    (o.exit = 0 ↔ valid = .ok () ∧ ∃ d, descriptor = .ok d ∧
      (c.format = .human ∨
        d.path.HasText ∧ d.directory.HasText ∧ ∀ source ∈ d.sources, source.HasText) ∧
      ∀ text path, Report.render c.format d = .ok text → c.output? = some path →
        ∃ after, host.disk.write path text.encode = .ok after) ∧
    ∀ reason, valid = .error reason → o.exit = 1 ∧ ∀ disk launch,
      run arguments ⟨host.environment, disk, launch⟩ = { o with disk := disk } := by
  intro c o valid descriptor
  have hrun (host : Host) : run arguments host = a.run host := by rw [run, h]
  have ho : o = a.run host := hrun host
  refine ⟨?_, ?_, fun reason hreason => ⟨?_, fun disk launch => ?_⟩⟩
  · rw [ho]
    exact c.run_cases host
  · simp only [← Report.exists_render_iff, ho]
    exact ReadCommand.exit_eq_zero_iff
  · rw [ho]
    exact congrArg Outcome.exit (ReadCommand.run_of_refused hreason)
  · have hleft : c.run ⟨host.environment, disk, launch⟩ = _ := ReadCommand.run_of_refused hreason
    have hright : c.run host = _ := ReadCommand.run_of_refused hreason
    rw [ho, hrun, Arguments.run, Arguments.run, hleft, hright]

/-- A host with a project and a link to it. -/
def linkedHost : Host where
  environment := []
  disk := ⟨.directory .all [("a.proj", .file .all (Text.encode ("<Project xmlns=" ++
    "'http://schemas.microsoft.com/developer/msbuild/2003' />").toList)),
    ("out", .link ⟨"a.proj"⟩)], ⟨"/"⟩⟩
  launch _ := .error .notFound

/-- The project itself is replaced by its report where a link leads to it. -/
theorem run_all_or_nothing_linked :
    let arguments : List Bytes := ["read", "-f", "yaml", "-o", "/out", "a.proj"]
    let c : ReadCommand := ⟨⟨"a.proj"⟩, .yaml, false, none, some ⟨"/out"⟩⟩
    let d : Descriptor := ⟨⟨"/a.proj"⟩, ⟨"/"⟩, .markup .legacy, [], [], [], []⟩
    let o := run arguments linkedHost
    parse arguments = .ok ⟨c, none, false, false⟩ ∧
      (c.settings linkedHost.environment).validate = .ok () ∧
      ((c.reader linkedHost).read c.project).result = .ok d ∧ o.exit = 0 ∧ o.output = [] ∧
      ∃ text, Report.render .yaml d = .ok text ∧ linkedHost.disk.Holds o.disk ⟨"/out"⟩ text := by
  intro arguments c d o
  have hparse : parse arguments = .ok ⟨c, none, false, false⟩ := by decide +kernel
  have hvalid : (c.settings linkedHost.environment).validate = .ok () := by decide +kernel
  have hread : ((c.reader linkedHost).read c.project).result = .ok d := by decide +kernel
  have hpaths : d.path.HasText ∧ d.directory.HasText ∧ ∀ source ∈ d.sources, source.HasText :=
    ⟨⟨_, rfl⟩, ⟨_, rfl⟩, List.forall_mem_nil _⟩
  have hwrite (text : Text) (path : Path) (_ : Report.render c.format d = .ok text)
      (hpath : c.output? = some path) :
      ∃ after, linkedHost.disk.write path text.encode = .ok after := by
    obtain rfl : ⟨"/out"⟩ = path := Option.some.inj hpath
    exact ⟨_, rfl⟩
  obtain ⟨hcases, hexit, -⟩ := run_all_or_nothing hparse linkedHost
  have hzero : o.exit = 0 := hexit.mpr ⟨hvalid, d, hread, .inr hpaths, hwrite⟩
  rcases hcases with ⟨-, d', text', hd', htext', houtput, hholds⟩ | ⟨hone, -⟩
  · obtain rfl : d = d' := Except.ok.inj (hread.symm.trans hd')
    exact ⟨hparse, hvalid, hread, hzero, houtput, text', htext', hholds⟩
  · exact absurd (hzero.symm.trans hone) (by decide)

end CommandLine

end ProjectFile
