import ProjectFile.Proofs.Evaluation.Denotes
import ProjectFile.Proofs.Evaluation.Sources
import ProjectFile.Proofs.Json.Complete
import ProjectFile.Proofs.Text.Trim

/-!
Decoding what an engine prints. The lines of a banner are passed over up to the line in which the
object starts, and of that line only white space can be left before the object. So whatever object
denotes the properties and items, and however it is written, the lists are those of the properties
and items.
-/

namespace ProjectFile.Evaluation

open Json

/-- Whether a text consists of whole lines, none of which starts with a brace when white space is
left out. -/
def IsBanner (t : Text) : Prop :=
  (t = [] ∨ t.getLast? = some '\n') ∧
    ∀ line ∈ Text.splitOn '\n' t, (Text.trimStart line).head? ≠ some '\x7b'

instance (t : Text) : Decidable (IsBanner t) := inferInstanceAs (Decidable (_ ∧ _))

theorem objectStart?_line_feed (line : Text) (blank : Bool) (t : Text) :
    objectStart? line blank ('\n' :: t) = objectStart? t true t := by
  rw [objectStart?, if_pos rfl]

/-- Within a line nothing is found but a brace that only white space stands before. -/
theorem objectStart?_within {c : Char} {blank : Bool} (hfeed : c ≠ '\n')
    (hbrace : blank = true → c ≠ '\x7b') (line t : Text) :
    objectStart? line blank (c :: t) = objectStart? line (blank && Text.isBlank c) t := by
  have hstart : ¬ (blank && c = '\x7b') = true := by
    intro h
    obtain ⟨hblank, hc⟩ : blank = true ∧ c = '\x7b' := by simpa using h
    exact hbrace hblank hc
  rw [objectStart?, if_neg hfeed, if_neg hstart]

/-- The rest of the lines of a banner is passed over. What counts of the line that has been started
is whether only white space has been seen in it. -/
theorem objectStart?_banner {t : Text} (hend : t.getLast? = some '\n') {blank : Bool}
    {first : Text} {lines : List Text} (hsplit : Text.splitOn '\n' t = first :: lines)
    (hfirst : blank = true → first.trimStart.head? ≠ some '\x7b')
    (hlines : ∀ line ∈ lines, line.trimStart.head? ≠ some '\x7b') (line s : Text) :
    objectStart? line blank (t ++ s) = objectStart? s true s := by
  induction t generalizing line blank first lines with
  | nil => cases hend
  | cons c t ih =>
    by_cases ht : t = []
    · subst ht
      obtain rfl : c = '\n' := Option.some.inj hend
      exact objectStart?_line_feed line blank s
    · have hend' : t.getLast? = some '\n' := by
        rwa [List.getLast?_cons_of_ne_nil ht] at hend
      obtain ⟨first', lines', hsplit'⟩ :=
        List.exists_cons_of_ne_nil (Text.splitOn_ne_nil '\n' t)
      by_cases hc : c = '\n'
      · subst hc
        rw [Text.splitOn, if_pos rfl, hsplit'] at hsplit
        obtain ⟨-, rfl⟩ := List.cons.inj hsplit
        rw [List.cons_append, objectStart?_line_feed]
        exact ih hend' hsplit' (fun _ => hlines first' (by simp))
          (fun line hline => hlines line (by simp [hline])) _
      · rw [Text.splitOn, if_neg hc, hsplit'] at hsplit
        obtain ⟨rfl, rfl⟩ := List.cons.inj hsplit
        have hbrace : blank = true → c ≠ '\x7b' := by
          rintro hblank rfl
          exact hfirst hblank rfl
        rw [List.cons_append, objectStart?_within hc hbrace]
        refine ih hend' hsplit' (fun hblank => ?_) hlines line
        obtain ⟨hblank, hspace⟩ : blank = true ∧ Text.isBlank c = true := by simpa using hblank
        have hskip := hfirst hblank
        rwa [Text.trimStart, List.dropWhile_cons_of_pos hspace] at hskip

theorem isBlank_of_isSpace {c : Char} (h : isSpace c = true) : Text.isBlank c = true := by
  rcases isSpace_cases h with rfl | rfl | rfl | rfl <;> decide

/-- In white space before a brace the line of the brace is found. -/
theorem objectStart?_spaces {spaces : Text} (h : IsSpaces spaces) (indent : Text)
    (hindent : IsSpaces indent) (t : Text) :
    ∃ spaces', IsSpaces spaces' ∧
      objectStart? (indent ++ (spaces ++ '\x7b' :: t)) true (spaces ++ '\x7b' :: t) =
        some (spaces' ++ '\x7b' :: t) := by
  induction spaces generalizing indent with
  | nil => exact ⟨indent, hindent, rfl⟩
  | cons c spaces ih =>
    have hc : isSpace c = true := h c (by simp)
    have hspaces : IsSpaces spaces := fun d hd => h d (by simp [hd])
    have hbrace : c ≠ '\x7b' := by
      rintro rfl
      cases hc
    by_cases hfeed : c = '\n'
    · obtain ⟨spaces', hspaces', hfound⟩ := ih hspaces [] (by decide)
      refine ⟨spaces', hspaces', ?_⟩
      rw [hfeed, List.cons_append, objectStart?_line_feed]
      exact hfound
    · have hindent' : IsSpaces (indent ++ [c]) := by
        intro d hd
        rcases List.mem_append.mp hd with hd | hd
        · exact hindent d hd
        · rwa [List.mem_singleton.mp hd]
      obtain ⟨spaces', hspaces', hfound⟩ := ih hspaces _ hindent'
      refine ⟨spaces', hspaces', ?_⟩
      rw [List.append_assoc, List.singleton_append] at hfound
      rw [List.cons_append, objectStart?_within hfeed fun _ => hbrace, isBlank_of_isSpace hc]
      exact hfound

/-- Behind a banner an object is found, with nothing but white space left before it. -/
theorem skipBanner_append {banner spaces : Text} (hbanner : IsBanner banner)
    (hspaces : IsSpaces spaces) (t : Text) :
    ∃ spaces', IsSpaces spaces' ∧
      skipBanner (banner ++ (spaces ++ '\x7b' :: t)) = spaces' ++ '\x7b' :: t := by
  obtain ⟨hend, hlines⟩ := hbanner
  have hpassed : objectStart? (banner ++ (spaces ++ '\x7b' :: t)) true
      (banner ++ (spaces ++ '\x7b' :: t)) =
        objectStart? (spaces ++ '\x7b' :: t) true (spaces ++ '\x7b' :: t) := by
    rcases hend with rfl | hend
    · rfl
    · obtain ⟨first, lines, hsplit⟩ :=
        List.exists_cons_of_ne_nil (Text.splitOn_ne_nil '\n' banner)
      rw [hsplit] at hlines
      exact objectStart?_banner hend hsplit (fun _ => hlines first (by simp))
        (fun line hline => hlines line (by simp [hline])) _ _
  obtain ⟨spaces', hspaces', hfound⟩ := objectStart?_spaces hspaces [] (by decide) t
  refine ⟨spaces', hspaces', ?_⟩
  rw [List.nil_append] at hfound
  rw [skipBanner, hpassed, hfound, Option.getD_some]

/-- An object is read behind a banner. -/
theorem parse_skipBanner {members : List (Option Text × Json)} {banner before text after : Text}
    (htext : Writes (.object members) text) (hbanner : IsBanner banner)
    (hbefore : IsSpaces before) (hafter : IsSpaces after) :
    Json.parse (skipBanner (banner ++ before ++ text ++ after)) = some (.object members) := by
  obtain ⟨body, rfl⟩ : ∃ body, text = '\x7b' :: body := by
    cases htext with
    | noMembers => exact ⟨_, rfl⟩
    | object => exact ⟨_, rfl⟩
  obtain ⟨spaces, hspaces, hskip⟩ := skipBanner_append hbanner hbefore (body ++ after)
  simp only [List.append_assoc, List.cons_append] at hskip ⊢
  rw [hskip, ← List.cons_append, ← List.append_assoc]
  exact Json.parse_of_writes htext hspaces hafter

section

variable {o : Output} {properties : Text → Option Text} {items : Text → Option (List Item)}

theorem Output.property_eq (h : ∀ name, last? name o.properties = properties name)
    (name : Text) : o.property name = ((properties name).getD []).trim := by
  rw [property, h]
  cases properties name <;> rfl

theorem Output.itemsOf_eq (h : ∀ kind, last? kind o.items = items kind) (kind : Text) :
    o.itemsOf kind = (items kind).getD [] := by
  rw [itemsOf, h]

theorem Output.references_eq (h : ∀ kind, last? kind o.items = items kind) (directory : Path)
    (sourceExtension : Text) : (o.evaluated directory sourceExtension).references =
      (((items "Reference").getD []).map fun item => item.identity.trim).filter (· ≠ []) := by
  have hlist := Text.filterMap_nonBlank? ((o.itemsOf "Reference").map Item.identity)
  rw [List.filterMap_map, List.map_map, o.itemsOf_eq h] at hlist
  rw [evaluated, o.itemsOf_eq h]
  exact hlist

theorem Output.sources_eq (h : ∀ kind, last? kind o.items = items kind) (directory : Path)
    (sourceExtension : Text) : (o.evaluated directory sourceExtension).sources =
      (((items "Compile").getD []).map fun item =>
        let full := item.fullPath?.getD []
        if full ≠ [] then Path.clean (.ofText full)
        else directory.resolveInclude item.identity).filter
          fun p => Text.endsWith p.display sourceExtension := by
  rw [evaluated, o.itemsOf_eq h "Compile", funext (Item.path_eq_ite directory)]

/-- Trimming the frameworks that count before they are split makes no difference. -/
theorem Output.targetFrameworks_eq (h : ∀ name, last? name o.properties = properties name)
    (directory : Path) (sourceExtension : Text) :
    (o.evaluated directory sourceExtension).targetFrameworks =
      let several := (properties "TargetFrameworks").getD []
      let frameworks :=
        if several.trim ≠ [] then several else (properties "TargetFramework").getD []
      ((Text.splitOn ';' frameworks).map Text.trim).filter (· ≠ []) := by
  rw [evaluated, o.property_eq h, o.property_eq h]
  generalize (properties "TargetFrameworks").getD [] = several
  generalize (properties "TargetFramework").getD [] = single
  have hpieces (t : Text) :
      Text.pieces ';' t.trim = ((Text.splitOn ';' t).map Text.trim).filter (· ≠ []) := by
    rw [Text.pieces_trim (by decide), Text.pieces, Text.filterMap_nonBlank?]
  by_cases hseveral : several.trim = []
  · simp only [hseveral, List.isEmpty_nil, if_true, ne_eq, not_true, if_false, hpieces]
  · simp only [List.isEmpty_iff, hseveral, if_false, ne_eq, not_false_eq_true, if_true, hpieces]

end

/-- Whatever properties and items an object denotes, however it is written and whatever banner is
printed before it, the lists that are decoded are those of the properties and items: the trimmed
identities of the references, the paths of the compiled items that have the extension, and the
pieces of several target frameworks, or else those of a single one. -/
theorem decode_faithful {properties : Text → Option Text} {items : Text → Option (List Item)}
    {v : Json} {banner before text after : Text} (hdenotes : DenotesOutput properties items v)
    (htext : v.Writes text) (hbanner : IsBanner banner) (hbefore : IsSpaces before)
    (hafter : IsSpaces after) (directory : Path) (sourceExtension : Text) :
    decode (banner ++ before ++ text ++ after) directory sourceExtension = .ok
      { references :=
          (((items "Reference").getD []).map fun item => item.identity.trim).filter (· ≠ [])
        sources :=
          (((items "Compile").getD []).map fun item =>
            let full := item.fullPath?.getD []
            if full ≠ [] then Path.clean (.ofText full)
            else directory.resolveInclude item.identity).filter
              fun p => Text.endsWith p.display sourceExtension
        targetFrameworks :=
          let several := (properties "TargetFrameworks").getD []
          let frameworks :=
            if several.trim ≠ [] then several else (properties "TargetFramework").getD []
          ((Text.splitOn ';' frameworks).map Text.trim).filter (· ≠ []) } := by
  obtain ⟨output, houtput, hproperties, hitems⟩ := hdenotes.exists_ofJson?
  have hparse : Json.parse (skipBanner (banner ++ before ++ text ++ after)) = some v := by
    cases hdenotes with
    | object => exact parse_skipBanner htext hbanner hbefore hafter
  refine decode_eq_ok_iff.mpr ⟨output, by rw [hparse]; exact houtput, ?_⟩
  have hreferences := output.references_eq hitems directory sourceExtension
  have hsources := output.sources_eq hitems directory sourceExtension
  have hframeworks := output.targetFrameworks_eq hproperties directory sourceExtension
  rw [Output.evaluated, Evaluated.mk.injEq]
  exact ⟨hreferences, hsources, hframeworks⟩

/-- An item with an escape in its identity and null for its full path. -/
def escapedItem : Json := .ofMembers [("Identity", .text "a.cs"), ("FullPath", .null)]

def escapedItemText : Text := "\x7b\"Identity\":\"\\u0061.cs\", \"FullPath\" : null\x7d"

theorem writes_escapedItem : escapedItem.Writes escapedItemText := by
  have hidentity : SpellsString (some "a.cs") "\\u0061.cs" := by
    have hrest : Spells ((".cs" : Text).map .character) ".cs" := spells_characters (by decide)
    exact spellsString_of_standsFor (.cons (.unit rfl) hrest) (.unit 'a' (standsFor_characters _))
  refine @Writes.object
    [⟨[], some "Identity", "Identity", [], ⟨[], .text "a.cs", "\"\\u0061.cs\"", []⟩⟩,
      ⟨" ", some "FullPath", "FullPath", " ", ⟨" ", .null, "null", []⟩⟩]
    (by simp) (by decide) ?_ ?_
  · simp only [List.forall_mem_cons]
    exact ⟨spellsString_self (by decide), spellsString_self (by decide), by simp⟩
  · simp only [List.forall_mem_cons]
    exact ⟨.string hidentity, .null, by simp⟩

/-- An output with a member that is passed over, and without properties. -/
def escapedOutput : Json :=
  .ofMembers [("Elapsed", .number "1.5"), ("Items", .ofMembers [("Compile", .array [escapedItem])])]

def escapedListsText : Text := "\x7b\"Compile\": [ " ++ escapedItemText ++ "]\x7d"

def escapedText : Text :=
  "\x7b\"Elapsed\": 1.5,\n \"Items\": " ++ escapedListsText ++ "\n\x7d"

theorem writes_escapedLists :
    (Json.ofMembers [("Compile", .array [escapedItem])]).Writes escapedListsText := by
  have hitems : (Json.array [escapedItem]).Writes ("[ " ++ escapedItemText ++ "]") :=
    @Writes.array [⟨" ", escapedItem, escapedItemText, []⟩] (by simp) (by decide)
      (by simpa using writes_escapedItem)
  refine @Writes.object
    [⟨[], some "Compile", "Compile", [],
      ⟨" ", .array [escapedItem], "[ " ++ escapedItemText ++ "]", []⟩⟩] (by simp) (by decide) ?_ ?_
  · simpa only [List.forall_mem_singleton] using spellsString_self (by decide)
  · simpa only [List.forall_mem_singleton] using hitems

theorem writes_escapedOutput : escapedOutput.Writes escapedText := by
  have hnumber : IsNumber "1.5" :=
    ⟨[], "1", ".5", [], by simp, by decide, .inr ⟨"5", by decide, rfl⟩, .inl rfl, rfl⟩
  refine @Writes.object
    [⟨[], some "Elapsed", "Elapsed", [], ⟨" ", .number "1.5", "1.5", []⟩⟩,
      ⟨"\n ", some "Items", "Items", [],
        ⟨" ", .ofMembers [("Compile", .array [escapedItem])], escapedListsText, "\n"⟩⟩]
    (by simp) (by decide) ?_ ?_
  · simp only [List.forall_mem_cons]
    exact ⟨spellsString_self (by decide), spellsString_self (by decide), by simp⟩
  · simp only [List.forall_mem_cons]
    exact ⟨.number hnumber, writes_escapedLists, by simp⟩

def escapedItems (kind : Text) : Option (List Item) :=
  if kind = "Compile" then some [⟨"a.cs", none⟩] else none

theorem denotes_escapedItem : DenotesItem ⟨"a.cs", none⟩ escapedItem := by
  refine .object (by decide) (by simp) (by simp) ?_
  intro _ v hv
  simpa using hv

theorem denotes_escapedOutput : DenotesOutput (fun _ => none) escapedItems escapedOutput := by
  refine .object (by decide) ⟨by simp, by simp⟩ ⟨?_, by simp⟩
  intro v hv
  obtain rfl : v = .ofMembers [("Compile", .array [escapedItem])] := by simpa using hv
  refine .object (by decide) ?_ ?_
  · intro name v hv
    obtain ⟨rfl, rfl⟩ : name = "Compile" ∧ v = .array [escapedItem] := by simpa using hv
    exact ⟨_, rfl, _, rfl, .cons denotes_escapedItem .nil⟩
  · intro name hname
    have hcompile : name = "Compile" := by
      refine Decidable.byContradiction fun hne => hname ?_
      exact if_neg hne
    simp [hcompile]

/-- The escaped item behind a banner. -/
theorem decode_faithful_escaped :
    decode ("Engine \x7b1\x7d\n" ++ " \n" ++ escapedText ++ "\n") ⟨"/p"⟩ ".cs" =
      .ok ⟨[], [⟨"/p/a.cs"⟩], []⟩ := by
  refine (decode_faithful denotes_escapedOutput writes_escapedOutput ?_ ?_ ?_ ⟨"/p"⟩ ".cs").trans
    (congrArg Except.ok ?_)
  · decide
  · decide
  · decide
  · decide +kernel

end ProjectFile.Evaluation
