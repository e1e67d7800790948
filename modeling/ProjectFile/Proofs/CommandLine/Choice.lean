import ProjectFile.CommandLine.Arguments
import ProjectFile.Proofs.Text.Marks

/-!
What a command line says, one choice at a time. A choice gives a value to a slot or sets a flag, and
has several spellings: the names of its option are long or short, and a value follows its option as
an argument of its own or is attached to it. A choice whose place is free can be made, and nothing
else is said by making it.
-/

namespace ProjectFile

def Format.name : Format → Text
  | .json => "json"
  | .yaml => "yaml"
  | .human => "human"

namespace CommandLine

theorem format?_name (f : Format) : format? f.name.encode = some f := by
  cases f with
  | json => rfl
  | yaml => rfl
  | human => rfl

theorem name_of_format? {t : Bytes} {f : Format} (h : format? t = some f) : f.name.encode = t := by
  unfold format? at h
  split at h
  · next ht =>
    cases h
    exact ht.symm
  · split at h
    · next ht =>
      cases h
      exact ht.symm
    · split at h
      · next ht =>
        cases h
        exact ht.symm
      · cases h

/-- One thing that a command line says. -/
inductive Choice where
  | value (s : Slot) (t : Bytes)
  | flag (f : Flag)
deriving DecidableEq

namespace Meaning

def longName? : Meaning → Option Bytes
  | .slot .project => none
  | .slot .format => some "format"
  | .slot .engine => some "dotnet"
  | .slot .output => some "output"
  | .slot .logLevel => some "log-level"
  | .flag .noEvaluate => some "no-evaluate"
  | .flag .verbose => some "verbose"
  | .flag .quiet => some "quiet"
  | .flag .help => some "help"
  | .flag .version => some "version"

def letter? : Meaning → Option UInt8
  | .slot .format => some 'f'.toUInt8
  | .slot .output => some 'o'.toUInt8
  | .flag .verbose => some 'v'.toUInt8
  | .flag .quiet => some 'q'.toUInt8
  | .flag .help => some 'h'.toUInt8
  | .flag .version => some 'V'.toUInt8
  | _ => none

/-- On which sides of the command name something may be said. -/
def standsOn : Meaning → Side → Bool
  | .slot .logLevel, _ => true
  | .flag .verbose, _ => true
  | .flag .quiet, _ => true
  | .flag .help, _ => true
  | .flag .version, side => side = .before
  | _, side => side = .after

end Meaning

namespace Choice

/-- What the choice is about. -/
def meaning : Choice → Meaning
  | .value s _ => .slot s
  | .flag f => .flag f

/-- The arguments that make a choice. -/
inductive Spells : Choice → List Bytes → Prop
  | project (t : Bytes) : Spells (.value .project t) [t]
  | long {s : Slot} {name : Bytes} (named : (Meaning.slot s).longName? = some name) (t : Bytes) :
      Spells (.value s t) [dash :: dash :: name, t]
  | longEquals {s : Slot} {name : Bytes} (named : (Meaning.slot s).longName? = some name)
      (t : Bytes) : Spells (.value s t) [dash :: dash :: (name ++ equals :: t)]
  | short {s : Slot} {c : UInt8} (named : (Meaning.slot s).letter? = some c) (t : Bytes) :
      Spells (.value s t) [[dash, c], t]
  | shortAttached {s : Slot} {c : UInt8} (named : (Meaning.slot s).letter? = some c) (t : Bytes) :
      Spells (.value s t) [dash :: c :: t]
  | shortEquals {s : Slot} {c : UInt8} (named : (Meaning.slot s).letter? = some c) (t : Bytes) :
      Spells (.value s t) [dash :: c :: equals :: t]
  | longFlag {f : Flag} {name : Bytes} (named : (Meaning.flag f).longName? = some name) :
      Spells (.flag f) [dash :: dash :: name]
  | shortFlag {f : Flag} {c : UInt8} (named : (Meaning.flag f).letter? = some c) :
      Spells (.flag f) [[dash, c]]

/-- The arguments that make choices one after another. -/
inductive SpellsAll : List Choice → List Bytes → Prop
  | nil : SpellsAll [] []
  | cons {c : Choice} {cs : List Choice} {s t : List Bytes} (first : Spells c s)
      (rest : SpellsAll cs t) : SpellsAll (c :: cs) (s ++ t)

end Choice

/-- Whether an argument can be the value of an option in all of its spellings. -/
def IsValue (t : Bytes) : Prop := t ≠ [] ∧ t.head? ≠ some dash ∧ t.head? ≠ some equals

instance (t : Bytes) : Decidable (IsValue t) := inferInstanceAs (Decidable (_ ∧ _))

/-- Whether a choice can be made at all: a value is one, of a format it is the name and of a level a
text, and the flag is not one that ends everything. -/
def Choice.IsSound : Choice → Prop
  | .value s t => IsValue t ∧ (s = .format → ∃ f, format? t = some f) ∧
    (s = .logLevel → ∃ level, Text.decode? t = some level)
  | .flag f => f ≠ .help ∧ f ≠ .version

namespace Given

/-- The value in a slot, as it is written. -/
def value? (g : Given) : Slot → Option Bytes
  | .project => g.project?.map Path.bytes
  | .format => g.format?.map fun f => f.name.encode
  | .engine => g.engine?.map Path.bytes
  | .output => g.output?.map Path.bytes
  | .logLevel => g.logLevel?.map Text.encode

def isSet (g : Given) : Flag → Bool
  | .noEvaluate => g.noEvaluate
  | .verbose => g.verbose
  | .quiet => g.quiet
  | .help => false
  | .version => false

/-- Whether a choice has been made. -/
def Says (g : Given) : Choice → Prop
  | .value s t => g.value? s = some t
  | .flag f => g.isSet f = true

/-- Makes a choice. -/
def say (g : Given) : Choice → Except UsageError Given
  | .value s t => g.fill s t
  | .flag f => g.set f

theorem has_eq (g : Given) (s : Slot) : g.has s = (g.value? s).isSome := by
  cases s <;> simp [has, value?]

/-- What is given is known from the values in its slots. -/
theorem fields_eq (g : Given) : g.project? = (g.value? .project).map Path.mk ∧
    g.format? = (g.value? .format).bind CommandLine.format? ∧
    g.engine? = (g.value? .engine).map Path.mk ∧ g.output? = (g.value? .output).map Path.mk := by
  have hpath (p? : Option Path) : p? = (p?.map Path.bytes).map Path.mk := by cases p? <;> rfl
  refine ⟨hpath _, ?_, hpath _, hpath _⟩
  cases hformat : g.format? with
  | none => simp [value?, hformat]
  | some f => simp [value?, hformat, format?_name]

theorem says_logLevel_iff {g : Given} {level : Text} :
    g.Says (.value .logLevel level.encode) ↔ g.logLevel? = some level := by
  change g.logLevel?.map Text.encode = some level.encode ↔ _
  rw [Option.map_eq_some_iff]
  simp [Text.encode_injective.eq_iff]

theorem not_says_nothing (c : Choice) : ¬ nothing.Says c := by
  cases c with
  | value s t => cases s <;> simp [Says, value?, nothing]
  | flag f => cases f <;> simp [Says, isSet, nothing]

theorem path_eq_ok {t : Bytes} {p : Path} (h : path t = .ok p) : p.bytes = t := by
  unfold path at h
  split at h
  · cases h
  · cases h
    rfl

/-- Filling a slot changes nothing else. -/
theorem fill_spec {g g' : Given} {s : Slot} {t : Bytes} (h : g.fill s t = .ok g') :
    (∀ r, g'.value? r = if r = s then some t else g.value? r) ∧ ∀ f, g'.isSet f = g.isSet f := by
  unfold fill at h
  split at h
  · cases h
  cases s with
  | format =>
    simp only at h
    split at h
    · next f hf =>
      obtain rfl := name_of_format? hf
      cases h
      exact ⟨fun r => by cases r <;> rfl, fun f => by cases f <;> rfl⟩
    · cases h
  | logLevel =>
    simp only at h
    split at h
    · next level hlevel =>
      obtain rfl := Text.decode?_eq_some_iff.mp hlevel
      cases h
      exact ⟨fun r => by cases r <;> rfl, fun f => by cases f <;> rfl⟩
    · cases h
  | _ =>
    obtain ⟨p, hp, rfl⟩ := Except.map_eq_ok_iff.mp h
    obtain rfl := path_eq_ok hp
    exact ⟨fun r => by cases r <;> rfl, fun f => by cases f <;> rfl⟩

theorem has_of_fill {g g' : Given} {s : Slot} {t : Bytes} (h : g.fill s t = .ok g') :
    g.has s = false := by
  unfold fill at h
  split at h
  · cases h
  · next hfree => simpa using hfree

/-- A slot that is free takes any value of its own. -/
theorem exists_fill {g : Given} {s : Slot} {t : Bytes} (hsound : (Choice.value s t).IsSound)
    (hfree : g.has s = false) : ∃ g', g.fill s t = .ok g' := by
  obtain ⟨⟨hne, -⟩, hformat, hlevel⟩ := hsound
  have hpath : path t = .ok ⟨t⟩ := by simp [path, hne]
  unfold fill
  rw [if_neg (by simp [hfree])]
  cases s with
  | format =>
    obtain ⟨f, hf⟩ := hformat rfl
    simp only [hf]
    exact ⟨_, rfl⟩
  | logLevel =>
    obtain ⟨level, hlevel⟩ := hlevel rfl
    simp only [hlevel]
    exact ⟨_, rfl⟩
  | _ =>
    simp only [hpath]
    exact ⟨_, rfl⟩

theorem set_spec {g g' : Given} {f : Flag} (h : g.set f = .ok g') :
    (∀ r, g'.value? r = g.value? r) ∧ ∀ e, g'.isSet e = (decide (e = f) || g.isSet e) := by
  cases f with
  | help => cases h
  | version => cases h
  | _ =>
    simp only [set] at h
    split at h
    · cases h
    · cases h
      exact ⟨fun r => by cases r <;> rfl, fun e => by cases e <;> rfl⟩

theorem exists_set {g : Given} {f : Flag} (hsound : (Choice.flag f).IsSound)
    (hfree : g.isSet f = false) : ∃ g', g.set f = .ok g' := by
  cases f with
  | help => exact absurd rfl hsound.1
  | version => exact absurd rfl hsound.2
  | _ => exact ⟨_, if_neg (by simpa [isSet] using hfree)⟩

/-- A choice can be made if none has been made about the same. After it, it has been made besides
those before. -/
theorem exists_say {g : Given} {c : Choice} (hsound : c.IsSound)
    (hfree : ∀ d, g.Says d → d.meaning ≠ c.meaning) :
    ∃ g', g.say c = .ok g' ∧ ∀ d, g'.Says d ↔ d = c ∨ g.Says d := by
  cases c with
  | value s t =>
    have hnone : g.value? s = none := by
      refine Option.eq_none_iff_forall_ne_some.mpr fun u hu => ?_
      exact hfree (.value s u) hu rfl
    obtain ⟨g', hg'⟩ := exists_fill hsound (by rw [has_eq, hnone]; rfl)
    obtain ⟨hvalue, hflag⟩ := fill_spec hg'
    refine ⟨g', hg', fun d => ?_⟩
    cases d with
    | value r u =>
      simp only [Says, hvalue, Choice.value.injEq]
      by_cases hr : r = s
      · subst hr
        simp [hnone, eq_comm]
      · simp [hr]
    | flag f => simp [Says, hflag]
  | flag f =>
    have hunset : g.isSet f = false := by
      refine Bool.eq_false_iff.mpr fun hset => ?_
      exact hfree (.flag f) hset rfl
    obtain ⟨g', hg'⟩ := exists_set hsound hunset
    obtain ⟨hvalue, hflag⟩ := set_spec hg'
    refine ⟨g', hg', fun d => ?_⟩
    cases d with
    | value r u => simp [Says, hvalue]
    | flag e => simp [Says, hflag]

/-- The choices that make what is given. -/
def choices (g : Given) : List Choice :=
  ([.project, .format, .engine, .output, .logLevel].filterMap fun s =>
    (g.value? s).map (.value s)) ++
  ([.noEvaluate, .verbose, .quiet].filter g.isSet).map .flag

theorem mem_choices {g : Given} {c : Choice} : c ∈ g.choices ↔ g.Says c := by
  rw [choices, List.mem_append, List.mem_filterMap, List.mem_map]
  cases c with
  | value s t =>
    constructor
    · rintro (⟨r, -, hr⟩ | ⟨f, -, hf⟩)
      · obtain ⟨u, hu, heq⟩ := Option.map_eq_some_iff.mp hr
        cases heq
        exact hu
      · cases hf
    · intro h
      exact .inl ⟨s, by cases s <;> decide, by rw [show g.value? s = some t from h]; rfl⟩
  | flag f =>
    constructor
    · rintro (⟨r, -, hr⟩ | ⟨e, he, heq⟩)
      · obtain ⟨u, -, heq⟩ := Option.map_eq_some_iff.mp hr
        cases heq
      · cases heq
        exact (List.mem_filter.mp he).2
    · intro h
      refine .inr ⟨f, List.mem_filter.mpr ⟨?_, h⟩, rfl⟩
      cases f with
      | noEvaluate => decide
      | verbose => decide
      | quiet => decide
      | help => cases h
      | version => cases h

/-- No two of them are about the same. -/
theorem pairwise_choices (g : Given) :
    g.choices.Pairwise fun c d => c.meaning ≠ d.meaning := by
  refine List.pairwise_append.mpr ⟨?_, ?_, ?_⟩
  · refine List.Pairwise.filterMap _ (R := (· ≠ ·)) ?_ (by decide)
    intro r s hne c hc d hd
    obtain ⟨_, -, rfl⟩ := Option.map_eq_some_iff.mp hc
    obtain ⟨_, -, rfl⟩ := Option.map_eq_some_iff.mp hd
    simpa [Choice.meaning] using hne
  · refine List.pairwise_map.mpr (List.Pairwise.imp (R := (· ≠ ·)) ?_
      (List.Pairwise.filter _ (by decide)))
    intro e f hne
    simpa [Choice.meaning] using hne
  · intro c hc d hd
    obtain ⟨r, -, hr⟩ := List.mem_filterMap.mp hc
    obtain ⟨_, -, rfl⟩ := Option.map_eq_some_iff.mp hr
    obtain ⟨f, -, rfl⟩ := List.mem_map.mp hd
    simp [Choice.meaning]

end Given

end CommandLine

end ProjectFile
