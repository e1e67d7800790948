import ProjectFile.Proofs.Report.Lossless

/-!
What a listing for people tells. If nothing that is listed goes over several lines, the lines of the
text are those that were written, whatever the items look like, and the number in each heading is
that of the item lines below it. So the sections can be told apart by their numbers, and two
descriptors with the same listing agree in everything that it shows. Paths that are texts are shown
as they are; of others the listing does not tell which bytes are in them, nor does it tell a missing
framework from one that is called so.
-/

namespace ProjectFile

namespace Path

theorem eq_of_display_eq {p q : Path} (hp : p.HasText) (hq : q.HasText)
    (h : p.display = q.display) : p = q := by
  obtain ⟨s, rfl⟩ := hp
  obtain ⟨t, rfl⟩ := hq
  rw [display_ofText, display_ofText] at h
  rw [h]

theorem eq_of_map_display_eq {ps qs : List Path} (hps : ∀ p ∈ ps, p.HasText)
    (hqs : ∀ q ∈ qs, q.HasText) (h : ps.map display = qs.map display) : ps = qs := by
  induction ps generalizing qs with
  | nil => exact (List.map_eq_nil_iff.mp h.symm).symm
  | cons p ps ih =>
    obtain ⟨q, qs, rfl, hpq, hrest⟩ := List.map_eq_cons_iff.mp h.symm
    obtain ⟨hp, hps⟩ := List.forall_mem_cons.mp hps
    obtain ⟨hq, hqs⟩ := List.forall_mem_cons.mp hqs
    rw [eq_of_display_eq hp hq hpq.symm, ih hps hqs hrest.symm]

theorem not_mem_display {p : Path} (h : 0x0A ∉ p.bytes) : '\n' ∉ p.display := fun hfeed =>
  h (Text.mem_of_mem_decodeLossy (c := '\n') (by decide) hfeed)

end Path

namespace Report

/-- Whether each value that is listed stands in one line. -/
structure InLines (d : Descriptor) : Prop where
  path : 0x0A ∉ d.path.bytes
  references : ∀ r ∈ d.references, '\n' ∉ r
  packages : ∀ p ∈ d.packages, '\n' ∉ p.name ∧ '\n' ∉ p.version
  sources : ∀ p ∈ d.sources, 0x0A ∉ p.bytes
  targetFrameworks : ∀ t ∈ d.targetFrameworks, '\n' ∉ t

/-- Whether the paths that are listed are written as texts. -/
structure InTexts (d : Descriptor) : Prop where
  path : d.path.HasText
  sources : ∀ p ∈ d.sources, p.HasText

/-- What the line of the target frameworks shows. -/
def shownFrameworks (ts : List Text) : Text :=
  if ts.isEmpty then "(none)" else Text.join ", " ts

/-- The line over a section with a number of items. -/
def heading (title : Text) (count : Nat) : Text := title ++ " (" ++ Text.ofNat count ++ "):"

/-- The line of an item. -/
def indented (item : Text) : Text := ' ' :: ' ' :: item

def isIndented (line : Text) : Bool := line.startsWith "  "

/-- The lines that are no items, each with the items right below it. -/
def blocks : List Text → List (Text × List Text)
  | [] => []
  | line :: lines =>
    if isIndented line then blocks lines
    else (line, lines.takeWhile isIndented) :: blocks lines

def listingLines (title : Text) (items : List Text) : List Text :=
  [] :: heading title items.length :: items.map indented

def humanLines (d : Descriptor) : List Text :=
  ("Project:   " ++ d.path.display) :: ("Strategy:  " ++ d.strategy.text) ::
    ("Targets:   " ++ shownFrameworks d.targetFrameworks) ::
    (listingLines "References" d.references ++
      (listingLines "Packages" (d.packages.map Package.text) ++
        listingLines "Sources" (d.sources.map Path.display)))

theorem listing_eq_flatMap (title : Text) (items : List Text) :
    listing title items = (listingLines title items).flatMap fun line => line ++ ['\n'] := by
  have hitems : (items.flatMap fun item => ' ' :: ' ' :: item ++ ['\n']) =
      (items.map indented).flatMap fun line => line ++ ['\n'] := by
    rw [List.flatMap_map]
    rfl
  rw [listing, hitems]
  simp [listingLines, heading]

/-- Each line of the listing is ended. -/
theorem human_eq_flatMap (d : Descriptor) :
    human d = (humanLines d).flatMap fun line => line ++ ['\n'] := by
  have hfeed : "\n".toList = ['\n'] := rfl
  unfold human
  rw [listing_eq_flatMap, listing_eq_flatMap, listing_eq_flatMap, hfeed]
  unfold humanLines shownFrameworks
  rw [List.flatMap_cons, List.flatMap_cons, List.flatMap_cons, List.flatMap_append,
    List.flatMap_append]
  simp only [List.append_assoc]

theorem not_mem_of_mem_listingLines {title : Text} {items : List Text} (htitle : '\n' ∉ title)
    (h : ∀ item ∈ items, '\n' ∉ item) : ∀ line ∈ listingLines title items, '\n' ∉ line := by
  have hcount : '\n' ∉ Text.ofNat items.length := fun hfeed =>
    absurd (Text.isDigit_of_mem_ofNat hfeed) (by decide)
  intro line hline
  rw [listingLines, List.mem_cons, List.mem_cons, List.mem_map] at hline
  rcases hline with rfl | rfl | ⟨item, hitem, rfl⟩
  · exact List.not_mem_nil
  · simp [heading, htitle, hcount]
  · simp [indented, h item hitem]

theorem not_mem_strategy_text (s : Strategy) : '\n' ∉ s.text := by
  cases s with
  | evaluation => decide
  | markup style =>
    cases style with
    | sdk => decide
    | legacy => decide

theorem InLines.not_mem_shownFrameworks {d : Descriptor} (h : InLines d) :
    '\n' ∉ shownFrameworks d.targetFrameworks := by
  rw [shownFrameworks]
  split
  · decide
  · have hparts : ∀ t ∈ d.targetFrameworks, ∀ c ∈ t, c ≠ '\n' := by
      rintro t ht c hc rfl
      exact h.targetFrameworks t ht hc
    have hseparator : ∀ c ∈ (", " : Text), c ≠ '\n' := by simp
    have hjoined : ∀ c ∈ Text.join ", " d.targetFrameworks, c ≠ '\n' :=
      Text.forall_mem_join hseparator hparts
    exact fun hfeed => hjoined _ hfeed rfl

/-- Nothing of what is listed brings a line feed into a line. -/
theorem InLines.not_mem_of_mem_humanLines {d : Descriptor} (h : InLines d) :
    ∀ line ∈ humanLines d, '\n' ∉ line := by
  have hpackages : ∀ t ∈ d.packages.map Package.text, '\n' ∉ t := by
    intro t ht
    obtain ⟨p, hp, rfl⟩ := List.mem_map.mp ht
    obtain ⟨hname, hversion⟩ := h.packages p hp
    simp [Package.text, hname, hversion]
  have hsources : ∀ t ∈ d.sources.map Path.display, '\n' ∉ t := by
    intro t ht
    obtain ⟨p, hp, rfl⟩ := List.mem_map.mp ht
    exact Path.not_mem_display (h.sources p hp)
  simp only [humanLines, List.forall_mem_cons, List.forall_mem_append]
  refine ⟨?_, ?_, ?_, ?_, ?_, ?_⟩
  · simp [Path.not_mem_display h.path]
  · simp [not_mem_strategy_text]
  · simp [h.not_mem_shownFrameworks]
  · exact not_mem_of_mem_listingLines (by decide) h.references
  · exact not_mem_of_mem_listingLines (by decide) hpackages
  · exact not_mem_of_mem_listingLines (by decide) hsources

theorem splitOn_human {d : Descriptor} (h : InLines d) :
    Text.splitOn '\n' (human d) = humanLines d ++ [[]] := by
  rw [human_eq_flatMap, Text.splitOn_flatMap_concat h.not_mem_of_mem_humanLines]

/-- A section can be told from what follows it, even if that looks like more items. -/
theorem listingLines_append_inj {title : Text} {items items' rest rest' : List Text}
    (h : listingLines title items ++ rest = listingLines title items' ++ rest') :
    items = items' ∧ rest = rest' := by
  rw [listingLines, listingLines, List.cons_append, List.cons_append, List.cons_append,
    List.cons_append] at h
  obtain ⟨hheading, hlines⟩ := List.cons.inj (List.cons.inj h).2
  -- The number in the heading says where the items end.
  have hcount : items.length = items'.length := by
    refine Text.ofNat_injective ?_
    simpa [heading] using hheading
  obtain ⟨hitems, hrest⟩ := List.append_inj hlines (by simpa using hcount)
  exact ⟨(List.map_inj_right fun _ _ hline => by simpa [indented] using hline).mp hitems, hrest⟩

theorem strategy_text_injective : Function.Injective Strategy.text := by
  intro s s' h
  rcases s with _ | (_ | _) <;> rcases s' with _ | (_ | _)
  all_goals first | rfl | exact absurd h (by decide)

/-- Whoever reads the lines learns what was listed. -/
theorem humanLines_inj {d d' : Descriptor} (h : humanLines d = humanLines d') :
    d.path.display = d'.path.display ∧ d.strategy = d'.strategy ∧
      shownFrameworks d.targetFrameworks = shownFrameworks d'.targetFrameworks ∧
      d.references = d'.references ∧
      d.packages.map Package.text = d'.packages.map Package.text ∧
      d.sources.map Path.display = d'.sources.map Path.display := by
  rw [humanLines, humanLines] at h
  obtain ⟨hpath, h⟩ := List.cons.inj h
  obtain ⟨hstrategy, h⟩ := List.cons.inj h
  obtain ⟨hframeworks, h⟩ := List.cons.inj h
  obtain ⟨hreferences, h⟩ := listingLines_append_inj h
  obtain ⟨hpackages, h⟩ := listingLines_append_inj h
  exact ⟨List.append_cancel_left hpath, strategy_text_injective (List.append_cancel_left hstrategy),
    List.append_cancel_left hframeworks, hreferences, hpackages,
    (listingLines_append_inj (congrArg (· ++ []) h)).1⟩

/-- The line of the target frameworks tells their list joined, unless it is about an empty one. -/
theorem join_eq_of_shownFrameworks_eq {ts us : List Text} (hempty : ts = [] ↔ us = [])
    (h : shownFrameworks ts = shownFrameworks us) : Text.join ", " ts = Text.join ", " us := by
  by_cases hts : ts = []
  · rw [hts, hempty.mp hts]
  · have hus : us ≠ [] := mt hempty.mpr hts
    simpa [shownFrameworks, hts, hus] using h

/-- Item lines below others belong to what is above them. -/
theorem blocks_indented_append (items rest : List Text) :
    blocks (items.map indented ++ rest) = blocks rest := by
  induction items with
  | nil => rfl
  | cons item items ih => exact ih

theorem blocks_of_eq_false {line : Text} (h : isIndented line = false) (lines : List Text) :
    blocks (line :: lines) = (line, lines.takeWhile isIndented) :: blocks lines := by
  rw [blocks, h]
  rfl

theorem isIndented_of_mem_map {items : List Text} {line : Text} (h : line ∈ items.map indented) :
    isIndented line = true := by
  obtain ⟨item, -, rfl⟩ := List.mem_map.mp h
  rfl

/-- The item lines of a section are those up to the next line that is none. -/
theorem blocks_listingLines_append {title : Text} {items rest : List Text}
    (h : isIndented (heading title items.length) = false)
    (hrest : rest.takeWhile isIndented = []) :
    blocks (listingLines title items ++ rest) =
      ([], []) :: (heading title items.length, items.map indented) :: blocks rest := by
  rw [listingLines, List.cons_append, List.cons_append, blocks_of_eq_false rfl,
    blocks_of_eq_false h, List.takeWhile_cons_of_neg (by simp [h]),
    List.takeWhile_append_of_pos fun _ hline => isIndented_of_mem_map hline, hrest,
    List.append_nil, blocks_indented_append]

/-- If what a descriptor lists has no line feeds, then in the lines of its text for people the
number in the heading of a section is that of the item lines right below, and there are no item
lines elsewhere. Another such descriptor with the same text lists the same: what is shown of the
path, the strategy, the line of the target frameworks, the references, the texts of the packages and
what is shown of the sources. The paths and the sources are the same if they are texts, and so are
the joined lists of target frameworks if none of them or both are empty. -/
theorem render_human_unambiguous {d : Descriptor} (h : InLines d) :
    ∃ text, render .human d = .ok text ∧
    blocks (Text.splitOn '\n' text) =
      [("Project:   " ++ d.path.display, []), ("Strategy:  " ++ d.strategy.text, []),
        ("Targets:   " ++ shownFrameworks d.targetFrameworks, []), ([], []),
        (heading "References" d.references.length, d.references.map indented), ([], []),
        (heading "Packages" d.packages.length, (d.packages.map Package.text).map indented),
        ([], []),
        (heading "Sources" d.sources.length, (d.sources.map Path.display).map indented),
        ([], [])] ∧
    ∀ d', InLines d' → render .human d' = .ok text →
      d'.path.display = d.path.display ∧ d'.strategy = d.strategy ∧
      shownFrameworks d'.targetFrameworks = shownFrameworks d.targetFrameworks ∧
      d'.references = d.references ∧
      d'.packages.map Package.text = d.packages.map Package.text ∧
      d'.sources.map Path.display = d.sources.map Path.display ∧
      (InTexts d' → InTexts d → d'.path = d.path ∧ d'.sources = d.sources) ∧
      ((d'.targetFrameworks = [] ↔ d.targetFrameworks = []) →
        Text.join ", " d'.targetFrameworks = Text.join ", " d.targetFrameworks) := by
  refine ⟨human d, rfl, ?_, fun d' h' htext => ?_⟩
  · rw [splitOn_human h, humanLines, List.cons_append, List.cons_append, List.cons_append,
      List.append_assoc, List.append_assoc, blocks_of_eq_false rfl, blocks_of_eq_false rfl,
      blocks_of_eq_false rfl, blocks_listingLines_append rfl rfl,
      blocks_listingLines_append rfl rfl, blocks_listingLines_append rfl rfl, List.length_map,
      List.length_map]
    rfl
  · have hlines : humanLines d' ++ [[]] = humanLines d ++ [[]] := by
      rw [← splitOn_human h', ← splitOn_human h]
      exact congrArg (Text.splitOn '\n') (Except.ok.inj htext)
    obtain ⟨hpath, hstrategy, hframeworks, hreferences, hpackages, hsources⟩ :=
      humanLines_inj (List.append_cancel_right hlines)
    exact ⟨hpath, hstrategy, hframeworks, hreferences, hpackages, hsources,
      fun ht' ht => ⟨Path.eq_of_display_eq ht'.path ht.path hpath,
        Path.eq_of_map_display_eq ht'.sources ht.sources hsources⟩,
      fun hempty => join_eq_of_shownFrameworks_eq hempty hframeworks⟩

/-- Two descriptors that the listing does not tell apart, with items that look like parts of it. -/
def listedOne : Descriptor :=
  ⟨⟨"/w/m.csproj"⟩, ⟨"/w"⟩, .markup .sdk, ["", "Sources (9):"], [⟨"a@b", "c"⟩], [⟨"  /w/P.cs"⟩],
    ["n1", "n2"]⟩

def listedOther : Descriptor :=
  ⟨⟨"/w/m.csproj"⟩, ⟨"/"⟩, .markup .sdk, ["", "Sources (9):"], [⟨"a", "b@c"⟩], [⟨"  /w/P.cs"⟩],
    ["n1, n2"]⟩

def listedBlocks : List (Text × List Text) :=
  [("Project:   /w/m.csproj", []), ("Strategy:  markup (sdk)", []), ("Targets:   n1, n2", []),
    ("", []), ("References (2):", ["  ", "  Sources (9):"]), ("", []),
    ("Packages (1):", ["  a@b@c"]), ("", []), ("Sources (1):", ["    /w/P.cs"]), ("", [])]

theorem render_human_listed : listedOne ≠ listedOther ∧ InLines listedOne ∧ InLines listedOther ∧
    InTexts listedOne ∧ InTexts listedOther ∧ ∃ text, render .human listedOne = .ok text ∧
    render .human listedOther = .ok text ∧ blocks (Text.splitOn '\n' text) = listedBlocks ∧
    listedOther.packages.map Package.text = listedOne.packages.map Package.text ∧
    listedOther.sources = listedOne.sources := by
  have hone : InLines listedOne := ⟨by decide, by decide, by decide, by decide, by decide⟩
  have hother : InLines listedOther := ⟨by decide, by decide, by decide, by decide, by decide⟩
  have htexts : InTexts listedOne := ⟨⟨_, rfl⟩, List.forall_mem_singleton.mpr ⟨_, rfl⟩⟩
  have htexts' : InTexts listedOther := ⟨⟨_, rfl⟩, List.forall_mem_singleton.mpr ⟨_, rfl⟩⟩
  have hsame : render .human listedOther = render .human listedOne := by decide +kernel
  obtain ⟨text, htext, hblocks, hlisted⟩ := render_human_unambiguous hone
  have htext' := hsame.trans htext
  obtain ⟨-, -, -, -, hpackages, -, hpaths, -⟩ := hlisted listedOther hother htext'
  exact ⟨by decide, hone, hother, htexts, htexts', text, htext, htext', hblocks, hpackages,
    (hpaths htexts' htexts).2⟩

/-- A descriptor with a source whose name is no text, and with no target framework. -/
def strayOne : Descriptor :=
  ⟨⟨"/p/a.proj"⟩, ⟨"/p"⟩, .evaluation, [], [], [⟨("/p/" : Bytes) ++ 0xFF :: (".cs" : Bytes)⟩], []⟩

/-- A descriptor with another such source, and with a framework. -/
def strayOther : Descriptor :=
  ⟨⟨"/p/a.proj"⟩, ⟨"/p"⟩, .evaluation, [], [], [⟨("/p/" : Bytes) ++ 0xFE :: (".cs" : Bytes)⟩],
    ["(none)"]⟩

/-- The sources and the frameworks are not the same, and the texts are. -/
theorem render_human_stray : InLines strayOne ∧ InLines strayOther ∧
    render .human strayOther = render .human strayOne ∧ strayOther.sources ≠ strayOne.sources ∧
    Text.join ", " strayOther.targetFrameworks ≠ Text.join ", " strayOne.targetFrameworks :=
  ⟨⟨by decide, by decide, by decide, by decide, by decide⟩,
    ⟨by decide, by decide, by decide, by decide, by decide⟩, by decide +kernel, by decide,
    by decide⟩

end Report

end ProjectFile
