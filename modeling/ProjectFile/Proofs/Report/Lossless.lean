import ProjectFile.Proofs.Json.Written
import ProjectFile.Proofs.Text.Marks
import ProjectFile.Report

/-!
Which descriptors have a text in a format, and what the one in JSON keeps. Only paths that are no
texts can be in the way. A report in JSON keeps all of a descriptor: its text is a text of JSON that
can be read in one way only, as the object with one member for each field, in the order of the
fields, and no other descriptor has the same text.
-/

namespace ProjectFile

namespace Path

/-- Whether the path is written as a text. -/
def HasText (p : Path) : Prop := ∃ t, p = ofText t

@[simp] theorem display_ofText (t : Text) : (ofText t).display = t := Text.decodeLossy_encode t

theorem exists_eq_map_ofText_iff {ps : List Path} :
    (∃ ts : List Text, ps = ts.map ofText) ↔ ∀ p ∈ ps, p.HasText := by
  constructor
  · rintro ⟨ts, rfl⟩ p hp
    obtain ⟨t, -, rfl⟩ := List.mem_map.mp hp
    exact ⟨t, rfl⟩
  · intro h
    have hshown (p : Path) (hp : p ∈ ps) : (ofText ∘ display) p = id p := by
      obtain ⟨t, rfl⟩ := h p hp
      exact congrArg ofText (display_ofText t)
    exact ⟨ps.map display, by rw [List.map_map, List.map_congr_left hshown, List.map_id]⟩

/-- A path is written as a text if it is the path of the text. -/
theorem text?_eq_some_iff {p : Path} {t : Text} : p.text? = some t ↔ p = .ofText t := by
  rw [text?, Text.decode?_eq_some_iff]
  constructor
  · intro h
    rw [ofText, h]
  · rintro rfl
    rfl

theorem mapM_text?_eq_some_iff {ps : List Path} {ts : List Text} :
    ps.mapM text? = some ts ↔ ps = ts.map ofText := by
  induction ps generalizing ts with
  | nil => cases ts <;> simp
  | cons p ps ih =>
    rw [List.mapM_cons]
    constructor
    · intro h
      obtain ⟨t, ht, h⟩ := Option.bind_eq_some_iff.mp h
      obtain ⟨rest, hrest, h⟩ := Option.bind_eq_some_iff.mp h
      obtain rfl : t :: rest = ts := Option.some.inj h
      rw [text?_eq_some_iff.mp ht, ih.mp hrest, List.map_cons]
    · intro h
      cases ts with
      | nil => cases h
      | cons t ts =>
        obtain ⟨rfl, hps⟩ := List.cons.inj h
        rw [text?_eq_some_iff.mpr rfl, ih.mpr hps]
        rfl

end Path

namespace Report

open Json (IsProper)

/-- The texts of a descriptor's paths are those that the paths are of. -/
theorem pathTexts?_eq_some_iff {d : Descriptor} {texts : PathTexts} : pathTexts? d = some texts ↔
    d.path = .ofText texts.path ∧ d.directory = .ofText texts.directory ∧
      d.sources = texts.sources.map .ofText := by
  rw [← Path.text?_eq_some_iff, ← Path.text?_eq_some_iff, ← Path.mapM_text?_eq_some_iff]
  constructor
  · intro h
    obtain ⟨path, hpath, h⟩ := Option.bind_eq_some_iff.mp h
    obtain ⟨directory, hdirectory, h⟩ := Option.bind_eq_some_iff.mp h
    obtain ⟨sources, hsources, h⟩ := Option.bind_eq_some_iff.mp h
    obtain rfl := Option.some.inj h
    exact ⟨hpath, hdirectory, hsources⟩
  · rintro ⟨hpath, hdirectory, hsources⟩
    rw [pathTexts?, hpath, hdirectory, hsources]
    rfl

theorem render_json_eq_ok_iff {d : Descriptor} {text : Text} : render .json d = .ok text ↔
    ∃ texts, pathTexts? d = some texts ∧ (json d texts).write = text := by
  rw [render]
  cases pathTexts? d with
  | none => simp
  | some texts => simp

theorem pathTexts?_isSome_iff {d : Descriptor} : (pathTexts? d).isSome = true ↔
    d.path.HasText ∧ d.directory.HasText ∧ ∀ p ∈ d.sources, p.HasText := by
  rw [← Path.exists_eq_map_ofText_iff, Option.isSome_iff_exists]
  constructor
  · rintro ⟨texts, htexts⟩
    obtain ⟨hpath, hdirectory, hsources⟩ := pathTexts?_eq_some_iff.mp htexts
    exact ⟨⟨_, hpath⟩, ⟨_, hdirectory⟩, _, hsources⟩
  · rintro ⟨⟨path, hpath⟩, ⟨directory, hdirectory⟩, sources, hsources⟩
    exact ⟨⟨path, directory, sources⟩, pathTexts?_eq_some_iff.mpr ⟨hpath, hdirectory, hsources⟩⟩

/-- A listing for people always has a text, a text in JSON or YAML is missing just if a path that
belongs into it is no text. -/
theorem exists_render_iff {format : Format} {d : Descriptor} :
    (∃ text, render format d = .ok text) ↔ format = .human ∨
      d.path.HasText ∧ d.directory.HasText ∧ ∀ p ∈ d.sources, p.HasText := by
  rw [← pathTexts?_isSome_iff]
  cases format with
  | human => simp [render]
  | json => cases h : pathTexts? d <;> simp [render, h]
  | yaml => cases h : pathTexts? d <;> simp [render, h]

theorem isProper_ofMembers {members : List (Text × Json)} (h : ∀ m ∈ members, IsProper m.2) :
    IsProper (.ofMembers members) := by
  refine .object fun m hm => ?_
  obtain ⟨member, hmember, rfl⟩ := List.mem_map.mp hm
  exact h member hmember

theorem isProper_jsonTexts (ts : List Text) : IsProper (jsonTexts ts) := by
  refine .array fun v hv => ?_
  obtain ⟨t, -, rfl⟩ := List.mem_map.mp hv
  exact .string _

theorem isProper_jsonPackage (p : Package) : IsProper (jsonPackage p) := by
  refine isProper_ofMembers fun m hm => ?_
  simp only [List.mem_cons, List.not_mem_nil, or_false] at hm
  rcases hm with rfl | rfl
  · exact .string _
  · exact .string _

theorem isProper_jsonStrategy (s : Strategy) : IsProper (jsonStrategy s) := by
  cases s with
  | evaluation => exact .string _
  | markup style =>
    refine isProper_ofMembers fun m hm => ?_
    obtain rfl := List.mem_singleton.mp hm
    exact .string _

/-- A report has no numbers that could fail to be some. -/
theorem isProper_json (d : Descriptor) (texts : PathTexts) : IsProper (json d texts) := by
  refine isProper_ofMembers fun m hm => ?_
  simp only [List.mem_cons, List.not_mem_nil, or_false] at hm
  rcases hm with rfl | rfl | rfl | rfl | rfl | rfl | rfl
  · exact .string _
  · exact .string _
  · exact isProper_jsonStrategy d.strategy
  · exact isProper_jsonTexts d.references
  · refine .array fun v hv => ?_
    obtain ⟨p, -, rfl⟩ := List.mem_map.mp hv
    exact isProper_jsonPackage p
  · exact isProper_jsonTexts _
  · exact isProper_jsonTexts d.targetFrameworks

theorem json_text_injective : Function.Injective Json.text := by
  rintro t u ⟨⟩
  rfl

theorem jsonTexts_injective : Function.Injective jsonTexts := by
  intro ts us h
  exact (List.map_inj_right fun _ _ htext => json_text_injective htext).mp (Json.array.inj h)

theorem style_text_injective : Function.Injective Style.text := by
  intro s s' h
  cases s with
  | sdk =>
    cases s' with
    | sdk => rfl
    | legacy => exact absurd h (by decide)
  | legacy =>
    cases s' with
    | sdk => exact absurd h (by decide)
    | legacy => rfl

theorem jsonPackage_injective : Function.Injective jsonPackage := by
  rintro ⟨name, version⟩ ⟨name', version'⟩ h
  simpa [jsonPackage, Json.ofMembers, Json.text] using h

theorem jsonStrategy_injective : Function.Injective jsonStrategy := by
  intro s s' h
  cases s with
  | evaluation =>
    cases s' with
    | evaluation => rfl
    | markup style => cases h
  | markup style =>
    cases s' with
    | evaluation => cases h
    | markup style' =>
      have htext : style.text = style'.text := by
        simpa [jsonStrategy, Json.ofMembers, Json.text] using h
      rw [style_text_injective htext]

/-- Each field of a descriptor whose paths are texts can be told from its member. -/
theorem eq_of_json_eq {d d' : Descriptor} {texts texts' : PathTexts}
    (htexts : pathTexts? d = some texts) (htexts' : pathTexts? d' = some texts')
    (h : json d texts = json d' texts') : d = d' := by
  simp only [json, Json.ofMembers, List.map_cons, List.map_nil, Json.object.injEq, List.cons.injEq,
    Prod.mk.injEq, true_and, and_true] at h
  obtain ⟨hpath, hdirectory, hstrategy, hreferences, hpackages, hsources, hframeworks⟩ := h
  obtain ⟨hpath₁, hdirectory₁, hsources₁⟩ := pathTexts?_eq_some_iff.mp htexts
  obtain ⟨hpath₂, hdirectory₂, hsources₂⟩ := pathTexts?_eq_some_iff.mp htexts'
  rw [json_text_injective hpath, ← hpath₂] at hpath₁
  rw [json_text_injective hdirectory, ← hdirectory₂] at hdirectory₁
  rw [jsonTexts_injective hsources, ← hsources₂] at hsources₁
  have hpackages := (List.map_inj_right fun _ _ hpackage => jsonPackage_injective hpackage).mp
    (Json.array.inj hpackages)
  cases d with | mk path directory strategy references packages sources frameworks
  cases d' with | mk path' directory' strategy' references' packages' sources' frameworks'
  simp only at hpath₁ hdirectory₁ hsources₁ hstrategy hreferences hpackages hframeworks
  rw [hpath₁, hdirectory₁, jsonStrategy_injective hstrategy, jsonTexts_injective hreferences,
    hpackages, hsources₁, jsonTexts_injective hframeworks]

/-- A descriptor whose paths are texts, whatever texts these are, has a text in JSON, which writes
one value only, the object of its fields in order. This is also what is read from the text, and no
other descriptor has the same text. -/
theorem render_json_lossless (path directory : Text) (strategy : Strategy) (references : List Text)
    (packages : List Package) (sources targetFrameworks : List Text) :
    let d : Descriptor := ⟨.ofText path, .ofText directory, strategy, references, packages,
      sources.map .ofText, targetFrameworks⟩
    let texts (ts : List Text) : Json := .array (ts.map Json.text)
    let object := Json.ofMembers
      [("path", .text path), ("directory", .text directory),
        ("strategy", match strategy with
          | .evaluation => .text "evaluation"
          | .markup .sdk => .ofMembers [("markup", .text "sdk")]
          | .markup .legacy => .ofMembers [("markup", .text "legacy")]),
        ("references", texts references),
        ("packages", .array (packages.map fun p =>
          .ofMembers [("name", .text p.name), ("version", .text p.version)])),
        ("sources", texts sources),
        ("target_frameworks", texts targetFrameworks)]
    ∃ text, render .json d = .ok text ∧ (∀ v, Json.Writes v text ↔ v = object) ∧
      Json.parse text = some object ∧ ∀ d', render .json d' = .ok text ↔ d' = d := by
  intro d texts object
  have hpaths : pathTexts? d = some ⟨path, directory, sources⟩ :=
    pathTexts?_eq_some_iff.mpr ⟨rfl, rfl, rfl⟩
  have hobject : object = json d ⟨path, directory, sources⟩ := by
    cases strategy with
    | evaluation => rfl
    | markup style =>
      cases style with
      | sdk => rfl
      | legacy => rfl
  have hwrites (d : Descriptor) (texts : PathTexts) :
      Json.Writes (json d texts) (json d texts).write :=
    Json.writes_written (isProper_json d texts) 0
  have hd := hwrites d ⟨path, directory, sources⟩
  have hrender : render .json d = .ok (json d ⟨path, directory, sources⟩).write :=
    render_json_eq_ok_iff.mpr ⟨_, hpaths, rfl⟩
  rw [hobject]
  refine ⟨_, hrender, fun v => ⟨fun hv => hv.unique hd, fun hv => hv ▸ hd⟩, hd.parse,
    fun d' => ⟨fun htext => ?_, fun h => h ▸ hrender⟩⟩
  obtain ⟨texts', htexts', hwritten⟩ := render_json_eq_ok_iff.mp htext
  have hread := hwrites d' texts'
  rw [hwritten] at hread
  exact eq_of_json_eq htexts' hpaths (hread.unique hd)

end Report

end ProjectFile
