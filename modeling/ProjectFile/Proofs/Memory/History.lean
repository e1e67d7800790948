import ProjectFile.Proofs.Path.Parent
import ProjectFile.Storage.Memory

/-!
What a tree in memory holds after entries were stored one after another. Paths count by their
components: at a path is what was stored there last, and where nothing was stored there is a
directory if something was stored below it.
-/

namespace ProjectFile

namespace Memory

theorem Stored.components_ne_of_lt {s t : Stored} (h : s < t) : s.components ≠ t.components := by
  intro he
  have hlt : s.components < t.components := h
  rw [he] at hlt
  exact List.lt_irrefl t.components hlt

namespace Entries

variable {update : Entry → Entry → Entry} {entries : Entries} {cs : List Path.Component}

theorem find?_append (front back : Entries) (cs : List Path.Component) :
    find? (front ++ back) cs = (find? front cs).or (find? back cs) := by
  simp only [find?, List.find?_append]
  cases List.find? (fun s => s.components == cs) front <;> rfl

theorem find?_cons_of_eq {s : Stored} (h : s.components = cs) :
    find? (s :: entries) cs = some s.entry := by
  simp [find?, h]

theorem find?_cons_of_ne {s : Stored} (h : s.components ≠ cs) :
    find? (s :: entries) cs = find? entries cs := by
  simp [find?, h]

theorem find?_eq_none_iff : find? entries cs = none ↔ ∀ s ∈ entries, s.components ≠ cs := by
  simp [find?]

theorem find?_eq_none_of_lt {s : Stored} (hs : s.components = cs) (h : ∀ u ∈ entries, s < u) :
    find? entries cs = none := by
  refine find?_eq_none_iff.mpr fun u hu he => ?_
  exact Stored.components_ne_of_lt (h u hu) (hs.trans he.symm)

/-- The old entries before a new one, and those from its place on. -/
theorem exists_split (h : entries.Sorted) (new : Stored) :
    ∃ front back, entries = front ++ back ∧ entries.takeWhile (· < new) = front ∧
      entries.dropWhile (· < new) = back ∧ (∀ s ∈ front, s < new) ∧ Sorted back ∧
      ∀ old rest, back = old :: rest → ¬ old < new := by
  refine ⟨_, _, List.takeWhile_append_dropWhile.symm, rfl, rfl, fun s hs => ?_,
    h.sublist (List.dropWhile_sublist _), fun old rest heq => ?_⟩
  · simpa using List.all_eq_true.mp List.all_takeWhile s hs
  · have hhead := List.head?_dropWhile_not (fun s => decide (s < new)) entries
    simpa [heq] using hhead

/-- A new entry is found at its own components, updated by what was there. -/
theorem find?_merge_cons_of_eq {new : Stored} {later : Entries} (h : entries.Sorted)
    (hcs : new.components = cs) :
    find? (merge update (new :: later) entries) cs =
      some ((find? entries cs).elim new.entry (update new.entry)) := by
  obtain ⟨front, back, rfl, hfront, hback, hbefore, hsorted, hfirst⟩ := exists_split h new
  have hnone : find? front cs = none := find?_eq_none_iff.mpr fun s hs he =>
    Stored.components_ne_of_lt (hbefore s hs) (he.trans hcs.symm)
  rw [merge, hfront, hback, find?_append, find?_append, hnone, Option.none_or, Option.none_or]
  cases back with
  | nil => exact find?_cons_of_eq hcs
  | cons old rest =>
    dsimp only
    split
    · next hlt =>
      have hafter : ∀ u ∈ old :: rest, new < u := by
        intro u hu
        rcases List.mem_cons.mp hu with rfl | hu
        · exact hlt
        · exact Stored.lt_trans hlt ((List.pairwise_cons.mp hsorted).1 u hu)
      rw [find?_eq_none_of_lt hcs hafter]
      exact find?_cons_of_eq hcs
    · next hnlt =>
      have hold : old.components = cs :=
        (List.le_antisymm (α := Path.Component) hnlt (hfirst old rest rfl)).trans hcs
      rw [find?_cons_of_eq hold]
      exact find?_cons_of_eq (s := { old with entry := update new.entry old.entry }) hold

variable (update) in
/-- At other components a new entry leaves what is found to the later ones. -/
theorem find?_merge_cons_of_ne {new : Stored} (later : Entries) (h : entries.Sorted)
    (hcs : new.components ≠ cs) :
    ∃ front rest : Entries, (∀ s ∈ front, s < new) ∧ rest.Sorted ∧
      find? entries cs = (find? front cs).or (find? rest cs) ∧
      find? (merge update (new :: later) entries) cs =
        (find? front cs).or (find? (merge update later rest) cs) := by
  obtain ⟨front, back, rfl, hfront, hback, hbefore, hsorted, hfirst⟩ := exists_split h new
  rw [merge, hfront, hback]
  simp only [find?_append]
  cases back with
  | nil => exact ⟨front, [], hbefore, .nil, rfl, by rw [find?_cons_of_ne hcs]⟩
  | cons old rest =>
    dsimp only
    split
    · exact ⟨front, old :: rest, hbefore, hsorted, rfl, by rw [find?_cons_of_ne hcs]⟩
    · next hnlt =>
      have hold : old.components ≠ cs := fun he => hcs
        ((List.le_antisymm (α := Path.Component) hnlt (hfirst old rest rfl)).symm.trans he)
      refine ⟨front, rest, hbefore, (List.pairwise_cons.mp hsorted).2, ?_, ?_⟩
      · rw [find?_cons_of_ne hold]
      · rw [find?_cons_of_ne (s := { old with entry := update new.entry old.entry }) hold]

/-- What is at the components after new entries were merged with the old ones. -/
theorem find?_merge {news : Entries} (hnews : news.Sorted) (h : entries.Sorted) :
    find? (merge update news entries) cs =
      match find? news cs with
      | none => find? entries cs
      | some new => some ((find? entries cs).elim new (update new)) := by
  induction news generalizing entries with
  | nil => rfl
  | cons new later ih =>
    obtain ⟨hnew, hlater⟩ := List.pairwise_cons.mp hnews
    by_cases hcs : new.components = cs
    · rw [find?_merge_cons_of_eq h hcs, find?_cons_of_eq hcs]
    · obtain ⟨front, rest, hbefore, hrest, hentries, hmerge⟩ :=
        find?_merge_cons_of_ne update later h hcs
      rw [hmerge, hentries, find?_cons_of_ne hcs, ih hlater hrest]
      cases hfront : find? front cs with
      | none => simp only [Option.none_or]
      | some e =>
        -- What is found before the new entry is not among the later ones.
        have hnone : find? later cs = none := by
          refine find?_eq_none_iff.mpr fun u hu hucs => ?_
          have hfound : find? front cs ≠ none := by simp [hfront]
          refine hfound (find?_eq_none_iff.mpr fun s hs hscs => ?_)
          have hlt : s < u := Stored.lt_trans (hbefore s hs) (hnew u hu)
          exact Stored.components_ne_of_lt hlt (hscs.trans hucs.symm)
        rw [hnone]

theorem find?_put (h : entries.Sorted) (p : Path) (e : Entry) :
    find? (put entries p e) cs = if p.components = cs then some e else find? entries cs := by
  rw [put, find?_merge (List.pairwise_singleton _ _) h]
  by_cases hcs : p.components = cs
  · rw [find?_cons_of_eq (s := .of p e) hcs, if_pos hcs]
    cases find? entries cs <;> rfl
  · rw [find?_cons_of_ne (s := .of p e) hcs, if_neg hcs]
    rfl

theorem find?_prefixes (p : Path) :
    find? (p.prefixes.map fun q => .of q .directory) cs =
      if cs ≠ [] ∧ cs <+: p.components then some .directory else none := by
  have hsorted : Sorted (p.prefixes.map fun q => .of q .directory) :=
    List.pairwise_map.mpr p.pairwise_prefixes
  split
  · next h =>
    obtain ⟨q, hq, hcs⟩ := Path.exists_mem_prefixes_iff.mpr h
    exact hsorted.find?_eq_some_iff.mpr ⟨_, List.mem_map_of_mem hq, hcs, rfl⟩
  · next h =>
    refine find?_eq_none_iff.mpr fun s hs hcs => h ?_
    obtain ⟨q, hq, rfl⟩ := List.mem_map.mp hs
    exact Path.exists_mem_prefixes_iff.mp ⟨q, hq, hcs⟩

theorem find?_ensure (h : entries.Sorted) (p : Path) :
    find? (ensure entries p) cs = (find? entries cs).or
      (if cs ≠ [] ∧ cs <+: p.components then some .directory else none) := by
  rw [ensure, find?_merge (List.pairwise_map.mpr p.pairwise_prefixes) h, find?_prefixes]
  split
  · next hnone =>
    rw [hnone]
    simp
  · next new hnew =>
    rw [hnew]
    split at hnew
    · cases hnew
      cases find? entries cs <;> rfl
    · cases hnew

end Entries

namespace Tree

/-- One more entry is found at its own components, and directories above it where nothing was. -/
theorem find?_insert (t : Tree) (p : Path) (e : Entry) (cs : List Path.Component) :
    (t.insert p e).entries.find? cs =
      if (t.locate p).components = cs then some e
      else (t.entries.find? cs).or
        (if Path.IsAbove cs (t.locate p) then some .directory else none) := by
  rw [insert]
  dsimp only
  cases hparent : (t.locate p).parent? with
  | none =>
    have habove : ¬ Path.IsAbove cs (t.locate p) := Path.not_isAbove_of_parent?_eq_none hparent
    rw [Option.elim_none, Entries.find?_put t.sorted, if_neg habove, Option.or_none]
  | some q =>
    rw [Option.elim_some, Entries.find?_put (t.ensure q).sorted, ensure,
      Entries.find?_ensure t.sorted]
    simp only [Path.isAbove_iff_of_parent? hparent]

@[simp] theorem root_insert (t : Tree) (p : Path) (e : Entry) : (t.insert p e).root = t.root := by
  rw [insert]
  dsimp only
  cases (t.locate p).parent? <;> rfl

/-- What a tree stores under a path was there before, or is at the path that is stored now or at
one above it. -/
theorem path_of_mem_insert {t : Tree} {p : Path} {e : Entry} {s : Stored}
    (hs : s ∈ (t.insert p e).entries) : (∃ u ∈ t.entries, u.path = s.path) ∨
      s.path = t.locate p ∨
      ∃ cs, cs ≠ [] ∧ cs <+: (t.locate p).components ∧ s.path = .ofComponents cs := by
  rw [insert] at hs
  obtain ⟨u, hu, hpath⟩ := Entries.mem_merge hs
  rw [← hpath]
  rcases List.mem_cons.mp hu with rfl | hu
  · exact .inr (.inl rfl)
  cases hparent : (t.locate p).parent? with
  | none =>
    rw [hparent] at hu
    exact .inl ⟨u, hu, rfl⟩
  | some q =>
    rw [hparent] at hu
    obtain ⟨v, hv, hpath⟩ := Entries.mem_merge hu
    rw [← hpath]
    rcases List.mem_append.mp hv with hv | hv
    · obtain ⟨r, hr, rfl⟩ := List.mem_map.mp hv
      obtain ⟨n, hn, rfl⟩ := List.mem_map.mp hr
      have hlt : n < q.components.length := List.mem_range.mp hn
      refine .inr (.inr ⟨_, fun he => ?_, ?_, rfl⟩)
      · have hlength := congrArg List.length he
        rw [List.length_take, List.length_nil] at hlength
        omega
      · rw [Path.components_parent? hparent]
        exact (List.take_prefix _ _).trans (List.dropLast_prefix _)
    · exact .inl ⟨v, hv, rfl⟩

/-- What was stored last at the components. -/
def lastAt (root : Path) (history : List (Path × Entry)) (cs : List Path.Component) :
    Option Entry :=
  (history.reverse.find? fun step => (root.join step.1).components = cs).map Prod.snd

/-- Whether something was stored below the components. -/
def HasBelow (root : Path) (history : List (Path × Entry)) (cs : List Path.Component) : Prop :=
  ∃ step ∈ history, Path.IsAbove cs (root.join step.1)

instance (root : Path) (history : List (Path × Entry)) (cs : List Path.Component) :
    Decidable (HasBelow root history cs) :=
  inferInstanceAs (Decidable (∃ step ∈ history, _))

/-- Whether at all components a tree holds what was stored there last, or else a directory where
something was stored below. -/
def Records (t : Tree) (history : List (Path × Entry)) : Prop :=
  ∀ cs, t.entries.find? cs = (lastAt t.root history cs).or
    (if HasBelow t.root history cs then some .directory else none)

variable {root : Path} {history : List (Path × Entry)} {t : Tree}

theorem lastAt_concat (root : Path) (history : List (Path × Entry)) (p : Path) (e : Entry)
    (cs : List Path.Component) :
    lastAt root (history ++ [(p, e)]) cs =
      if (root.join p).components = cs then some e else lastAt root history cs := by
  rw [lastAt, List.reverse_append, List.reverse_singleton, List.singleton_append,
    List.find?_cons]
  by_cases hcs : (root.join p).components = cs
  · simp [hcs]
  · simp [hcs, lastAt]

theorem hasBelow_concat {p : Path} {e : Entry} {cs : List Path.Component} :
    HasBelow root (history ++ [(p, e)]) cs ↔
      HasBelow root history cs ∨ Path.IsAbove cs (root.join p) := by
  simp [HasBelow, or_and_right, exists_or]

/-- Storing one more entry is recorded. -/
theorem Records.insert (h : t.Records history) (p : Path) (e : Entry) :
    (t.insert p e).Records (history ++ [(p, e)]) := by
  intro cs
  rw [find?_insert, root_insert, lastAt_concat, h cs, Tree.locate]
  simp only [hasBelow_concat]
  by_cases hcs : (t.root.join p).components = cs
  · simp [hcs]
  · rw [if_neg hcs, if_neg hcs]
    by_cases hbelow : HasBelow t.root history cs
    · cases lastAt t.root history cs <;> simp [hbelow]
    · cases lastAt t.root history cs <;> simp [hbelow]

/-- A tree in which entries were stored one after another, its root first. -/
def build (root : Path) (steps : List (Path × Entry)) : Tree :=
  steps.foldl (fun t step => t.insert step.1 step.2) (empty root)

theorem Records.foldl (h : t.Records history) (steps : List (Path × Entry)) :
    (steps.foldl (fun t step => t.insert step.1 step.2) t).Records (history ++ steps) := by
  induction steps generalizing t history with
  | nil => simpa using h
  | cons step steps ih =>
    have hstep := ih (h.insert step.1 step.2)
    rwa [List.append_assoc] at hstep

theorem root_foldl (t : Tree) (steps : List (Path × Entry)) :
    (steps.foldl (fun t step => t.insert step.1 step.2) t).root = t.root := by
  induction steps generalizing t with
  | nil => rfl
  | cons step steps ih => rw [List.foldl_cons, ih, root_insert]

@[simp] theorem root_build (root : Path) (steps : List (Path × Entry)) :
    (build root steps).root = root := by
  rw [build, root_foldl, empty, root_insert]

theorem records_build (root : Path) (steps : List (Path × Entry)) :
    (build root steps).Records ((root, .directory) :: steps) := by
  have hnone : Records ⟨root, [], List.Pairwise.nil⟩ [] := fun cs => rfl
  exact (hnone.insert root .directory).foldl steps

theorem entry?_build (root : Path) (steps : List (Path × Entry)) (p : Path) :
    entry? (build root steps) p =
      (lastAt root ((root, .directory) :: steps) (root.join p).components).or
        (if HasBelow root ((root, .directory) :: steps) (root.join p).components then
          some .directory else none) := by
  have h := records_build root steps (root.join p).components
  rw [root_build] at h
  unfold entry?
  rw [locate, root_build, h]

theorem exists_step_of_lastAt {cs : List Path.Component} {e : Entry}
    (h : lastAt root history cs = some e) :
    ∃ step ∈ history, (root.join step.1).components = cs := by
  obtain ⟨step, hstep, -⟩ := Option.map_eq_some_iff.mp h
  exact ⟨step, List.mem_reverse.mp (List.mem_of_find?_eq_some hstep),
    by simpa using List.find?_some hstep⟩

/-- All that is above something stored is stored as well. -/
theorem Records.exists_above (h : t.Records history) {s : Stored} (hs : s ∈ t.entries)
    {cs : List Path.Component} (hcs : cs ≠ []) (hpre : cs <+: s.components) :
    ∃ u ∈ t.entries, u.components = cs := by
  by_cases heq : cs = s.components
  · exact ⟨s, hs, heq.symm⟩
  · have hbelow : HasBelow t.root history cs := by
      have hfound : t.entries.find? s.components = some s.entry :=
        t.sorted.find?_eq_some_iff.mpr ⟨s, hs, rfl, rfl⟩
      rw [h s.components] at hfound
      cases hlast : lastAt t.root history s.components with
      | some e =>
        obtain ⟨step, hstep, hcomponents⟩ := exists_step_of_lastAt hlast
        exact ⟨step, hstep, hcs, hcomponents ▸ hpre, hcomponents ▸ heq⟩
      | none =>
        rw [hlast, Option.none_or] at hfound
        split at hfound
        · next hdeeper =>
          obtain ⟨step, hstep, -, hbelow, -⟩ := hdeeper
          refine ⟨step, hstep, hcs, hpre.trans hbelow, fun he => heq ?_⟩
          exact hpre.eq_of_length_le (he ▸ hbelow.length_le)
        · cases hfound
    have hsome : t.entries.find? cs ≠ none := by
      rw [h cs, if_pos hbelow]
      cases lastAt t.root history cs <;> simp
    rw [Ne, Entries.find?_eq_none_iff] at hsome
    simpa using hsome

/-- Storing an entry changes nothing that is stored at other components. -/
theorem entry?_insert_of_ne {p q : Path} {e : Entry}
    (hne : (t.root.join q).components ≠ (t.root.join p).components) (hsome : t.entry? p ≠ none) :
    entry? (t.insert q e) p = t.entry? p := by
  obtain ⟨old, hold⟩ := Option.ne_none_iff_exists'.mp hsome
  rw [hold, entry?, find?_insert, locate, locate, root_insert, if_neg hne]
  unfold entry? locate at hold
  rw [hold, Option.some_or]

/-- What a tree holds after a root and then other entries were stored in it. A path means what was
stored last at its components, or else a directory if something was stored below them, or else
nothing, and this is what is seen of it: whether it is a file or a directory, and its content. All
that is above a stored path is stored as well, and storing an entry changes no other one. -/
theorem build_exact (root : Path) (steps : List (Path × Entry)) (p : Path) :
    let t := build root steps
    let cs := (root.join p).components
    let last := lastAt root ((root, .directory) :: steps) cs
    let below := HasBelow root ((root, .directory) :: steps) cs
    t.entry? p = last.or (if below then some .directory else none) ∧
    (t.isFile p = true ↔ ∃ content, last = some (.file content)) ∧
    (t.isDirectory p = true ↔ last = some .directory ∨ last = none ∧ below) ∧
    (∀ content, t.read p = .ok content ↔ last = some (.file content)) ∧
    (∀ s ∈ t.entries, ∀ above, above ≠ [] → above <+: s.components →
      ∃ u ∈ t.entries, u.components = above) ∧
    ∀ q e, (root.join q).components ≠ cs → t.entry? p ≠ none →
      entry? (t.insert q e) p = t.entry? p := by
  intro t cs last below
  have hentry : t.entry? p = last.or (if below then some .directory else none) :=
    entry?_build root steps p
  have hfile (content : Text) :
      t.entry? p = some (.file content) ↔ last = some (.file content) := by
    rw [hentry]
    cases last with
    | some e => rw [Option.some_or]
    | none =>
      rw [Option.none_or]
      split <;> simp
  refine ⟨hentry, ?_, ?_, fun content => read_eq_ok_iff.trans (hfile content), ?_, ?_⟩
  · rw [isFile_iff]
    exact exists_congr hfile
  · rw [isDirectory, hentry, beq_iff_eq]
    cases last with
    | some e => simp
    | none => simp
  · intro s hs above hne hpre
    exact (records_build root steps).exists_above hs hne hpre
  · intro q e hne hsome
    have hroot : t.root = root := root_build root steps
    exact entry?_insert_of_ne (by rwa [hroot]) hsome

/-- A file gets a file below it, and a link becomes a directory. -/
example :
    let t := build ⟨"/r"⟩ [(⟨"a"⟩, .file "x"), (⟨"a/b/c"⟩, .file ""), (⟨"l"⟩, .link),
      (⟨"/r//./l/"⟩, .directory)]
    t.entry? ⟨"a"⟩ = some (.file "x") ∧ t.entry? ⟨"a/b"⟩ = some .directory ∧
      t.entry? ⟨"l"⟩ = some .directory := by
  decide +kernel

end Tree

end Memory

end ProjectFile
