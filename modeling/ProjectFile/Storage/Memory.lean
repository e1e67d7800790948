import ProjectFile.Path.Lemmas
import ProjectFile.Storage.Basic

/-!
A tree of files kept in memory. Paths that have the same components are one entry, under the
spelling that was stored first, and the entries stay in path order. Storing an entry also stores
the directories above it where nothing is yet, and never changes what is.
-/

namespace ProjectFile

namespace Memory

/-- What is stored at a path. A link leads nowhere. -/
inductive Entry where
  | file (content : Text)
  | directory
  | link
deriving DecidableEq

def Entry.isFile : Entry → Bool
  | .file _ => true
  | _ => false

/-- A stored path, with its components at hand, and what is stored there. -/
structure Stored where
  path : Path
  components : List Path.Component
  entry : Entry
  components_eq : components = path.components

namespace Stored

def of (p : Path) (e : Entry) : Stored := ⟨p, p.components, e, rfl⟩

instance : LT Stored := ⟨fun s t => s.components < t.components⟩

instance (s t : Stored) : Decidable (s < t) :=
  inferInstanceAs (Decidable (s.components < t.components))

theorem lt_iff {s t : Stored} : s < t ↔ s.path < t.path := by
  change s.components < t.components ↔ s.path.components < t.path.components
  rw [s.components_eq, t.components_eq]

theorem lt_trans {s t u : Stored} (h : s < t) (g : t < u) : s < u :=
  List.lt_trans (α := Path.Component) h g

theorem lt_of_components_eq {s t u : Stored} (h : s < t) (g : t.components = u.components) :
    s < u := by
  change s.components < u.components
  exact g ▸ h

end Stored

/-- Stored paths with their entries. -/
abbrev Entries := List Stored

namespace Entries

/-- Strictly rising path order. -/
def Sorted (entries : Entries) : Prop := entries.Pairwise (· < ·)

def find? (entries : Entries) (cs : List Path.Component) : Option Entry :=
  (List.find? (fun stored => stored.components == cs) entries).map Stored.entry

def links (entries : Entries) : List (List Path.Component) :=
  (entries.filter fun stored => stored.entry == .link).map Stored.components

/-- Stores new entries, which rise in path order, at their places. Where something is already, the
spelling stays, and `update` tells what becomes of the new and the old entry. -/
def merge (update : Entry → Entry → Entry) : Entries → Entries → Entries
  | [], entries => entries
  | new :: later, entries =>
    entries.takeWhile (· < new) ++
      match entries.dropWhile (· < new) with
      | [] => new :: merge update later []
      | old :: rest =>
        if new < old then new :: merge update later (old :: rest)
        else { old with entry := update new.entry old.entry } :: merge update later rest

theorem mem_merge {update : Entry → Entry → Entry} {news entries : Entries} {s : Stored}
    (h : s ∈ merge update news entries) : ∃ t ∈ news ++ entries, t.path = s.path := by
  induction news generalizing entries with
  | nil => exact ⟨s, h, rfl⟩
  | cons new later ih =>
    have hold {t : Stored} (ht : t ∈ entries.dropWhile (· < new)) :
        t ∈ new :: later ++ entries := by
      simp [(List.dropWhile_sublist _).mem ht]
    rw [merge] at h
    rcases List.mem_append.mp h with h | h
    · exact ⟨s, by simp [(List.takeWhile_sublist _).mem h], rfl⟩
    · have hnew : new ∈ new :: later ++ entries := by simp
      split at h
      · rcases List.mem_cons.mp h with rfl | h
        · exact ⟨s, hnew, rfl⟩
        · obtain ⟨t, ht, hc⟩ := ih h
          exact ⟨t, by simp_all, hc⟩
      · next old rest heq =>
        rw [heq] at hold
        split at h
        · rcases List.mem_cons.mp h with rfl | h
          · exact ⟨s, hnew, rfl⟩
          · obtain ⟨t, ht, hc⟩ := ih h
            refine ⟨t, ?_, hc⟩
            rcases List.mem_append.mp ht with ht | ht
            · simp [ht]
            · exact hold ht
        · rcases List.mem_cons.mp h with rfl | h
          · exact ⟨old, hold (by simp), rfl⟩
          · obtain ⟨t, ht, hc⟩ := ih h
            refine ⟨t, ?_, hc⟩
            rcases List.mem_append.mp ht with ht | ht
            · simp [ht]
            · exact hold (List.mem_cons_of_mem _ ht)

/-- What comes before all new and all old entries comes before all that a merge gives. -/
theorem lt_of_mem_merge {update : Entry → Entry → Entry} {news entries : Entries} {s t : Stored}
    (hnews : ∀ u ∈ news, s < u) (hentries : ∀ u ∈ entries, s < u)
    (h : t ∈ merge update news entries) : s < t := by
  obtain ⟨u, hu, hpath⟩ := mem_merge h
  refine Stored.lt_of_components_eq ?_ (by rw [u.components_eq, t.components_eq, hpath])
  exact (List.mem_append.mp hu).elim (hnews u) (hentries u)

theorem Sorted.merge {update : Entry → Entry → Entry} {news entries : Entries}
    (hnews : news.Sorted) (h : entries.Sorted) : Sorted (Entries.merge update news entries) := by
  induction news generalizing entries with
  | nil => exact h
  | cons new later ih =>
    obtain ⟨hnew, hlater⟩ := List.pairwise_cons.mp hnews
    have hbefore (s : Stored) (hs : s ∈ entries.takeWhile (· < new)) : s < new := by
      simpa using List.all_eq_true.mp List.all_takeWhile s hs
    have hhead := List.head?_dropWhile_not (fun s => decide (s < new)) entries
    rw [← List.takeWhile_append_dropWhile (p := (· < new)) (l := entries)] at h
    obtain ⟨hfront, hback, hcross⟩ := List.pairwise_append.mp h
    rw [Entries.merge]
    have hend (first : Stored) (rest : Entries) (hfirst : ∀ s ∈ rest, first < s)
        (hsorted : Sorted rest)
        (hle : ∀ s ∈ entries.takeWhile (· < new), s < first) :
        Sorted (entries.takeWhile (· < new) ++ first :: rest) := by
      refine List.pairwise_append.mpr ⟨hfront, List.pairwise_cons.mpr ⟨hfirst, hsorted⟩, ?_⟩
      intro s hs t ht
      rcases List.mem_cons.mp ht with rfl | ht
      · exact hle s hs
      · exact Stored.lt_trans (hle s hs) (hfirst t ht)
    split
    · exact hend new _ (fun t => lt_of_mem_merge hnew (by simp)) (ih hlater .nil) hbefore
    · next old rest heq =>
      rw [heq] at hhead hback hcross
      obtain ⟨hold, hrest⟩ := List.pairwise_cons.mp hback
      split
      · next hlt =>
        refine hend new _ (fun t => lt_of_mem_merge hnew fun u hu => ?_) (ih hlater hback) hbefore
        rcases List.mem_cons.mp hu with rfl | hu
        · exact hlt
        · exact Stored.lt_trans hlt (hold u hu)
      · next hnlt =>
        have hnot : ¬ old < new := by simpa using hhead
        have hc : new.components = old.components :=
          List.le_antisymm (α := Path.Component) hnot hnlt
        refine hend _ _ (fun t => lt_of_mem_merge (fun u hu => ?_) hold) (ih hlater hrest)
          fun s hs => Stored.lt_of_components_eq (hbefore s hs) hc
        exact show old.components < u.components from hc ▸ hnew u hu

def put (entries : Entries) (p : Path) (e : Entry) : Entries :=
  merge (fun new _ => new) [.of p e] entries

/-- Stores a directory at a path and at those above it where nothing is. -/
def ensure (entries : Entries) (p : Path) : Entries :=
  merge (fun _ old => old) (p.prefixes.map fun q => .of q .directory) entries

theorem Sorted.put {entries : Entries} (h : entries.Sorted) (p : Path) (e : Entry) :
    Sorted (entries.put p e) := merge (List.pairwise_singleton _ _) h

theorem Sorted.ensure {entries : Entries} (h : entries.Sorted) (p : Path) :
    Sorted (entries.ensure p) :=
  merge (List.pairwise_map.mpr p.pairwise_prefixes) h

/-- In path order no two entries have the same components, so each is found by its own. -/
theorem Sorted.find?_eq_some_iff {entries : Entries} (h : entries.Sorted)
    {cs : List Path.Component} {e : Entry} :
    entries.find? cs = some e ↔ ∃ s ∈ entries, s.components = cs ∧ s.entry = e := by
  induction entries with
  | nil => simp [find?]
  | cons first rest ih =>
    obtain ⟨hfirst, hrest⟩ := List.pairwise_cons.mp h
    by_cases hcs : first.components = cs
    · have hother (s : Stored) (hs : s ∈ rest) : s.components ≠ cs := by
        intro he
        have hlt : first.components < s.components := hfirst s hs
        rw [hcs, he] at hlt
        exact List.lt_irrefl cs hlt
      constructor
      · intro hfind
        exact ⟨first, by simp, hcs, by simpa [find?, hcs] using hfind⟩
      · rintro ⟨s, hs, hsc, rfl⟩
        rcases List.mem_cons.mp hs with rfl | hs
        · simp [find?, hcs]
        · exact absurd hsc (hother s hs)
    · rw [show find? (first :: rest) cs = find? rest cs by simp [find?, hcs], ih hrest]
      simp [hcs]

theorem Sorted.mem_links_iff {entries : Entries} (h : entries.Sorted)
    {cs : List Path.Component} : cs ∈ entries.links ↔ entries.find? cs = some .link := by
  rw [h.find?_eq_some_iff]
  simp only [links, List.mem_map, List.mem_filter, beq_iff_eq]
  exact ⟨fun ⟨s, ⟨hs, he⟩, hc⟩ => ⟨s, hs, hc, he⟩, fun ⟨s, hs, hc, he⟩ => ⟨s, ⟨hs, he⟩, hc⟩⟩

end Entries

/-- A tree of files. Relative paths are seen from `root`. -/
structure Tree where
  root : Path
  entries : Entries
  sorted : entries.Sorted

namespace Tree

def locate (t : Tree) (p : Path) : Path := t.root.join p

/-- The tree with directories at a path and above it where nothing is. -/
def ensure (t : Tree) (p : Path) : Tree :=
  { t with entries := t.entries.ensure p, sorted := t.sorted.ensure p }

/-- Stores an entry and the directories above it that are missing. -/
def insert (t : Tree) (p : Path) (e : Entry) : Tree :=
  let p := t.locate p
  let t := (p.parent?).elim t t.ensure
  { t with entries := t.entries.put p e, sorted := t.sorted.put p e }

def empty (root : Path) : Tree := insert ⟨root, [], List.Pairwise.nil⟩ root .directory

def entry? (t : Tree) (p : Path) : Option Entry := t.entries.find? (t.locate p).components

def isBetween (base p cs : List Path.Component) : Bool :=
  decide (base.length < cs.length) && decide (cs.length < p.length) && base.isPrefixOf cs &&
    cs.isPrefixOf p

def isExcluded (excluded : List Bytes) : Path.Component → Bool
  | .name n => excluded.contains n
  | _ => false

/-- Whether a walk from `base` reaches what is stored at `p`: it lies below, no link is between,
and no directory between has an excluded name. -/
def reaches (links : List (List Path.Component)) (excluded : List Bytes)
    (base p : List Path.Component) : Bool :=
  base.isPrefixOf p && !((p.drop base.length).dropLast.any (isExcluded excluded)) &&
    !(links.any (isBetween base p))

def files (t : Tree) (p : Path) (excluded : List Bytes) : Except FileError (List Path) :=
  let p := t.locate p
  let base := p.components
  match t.entries.find? base with
  | some .directory =>
    let links := t.entries.links
    .ok ((t.entries.filter fun stored =>
      stored.entry.isFile && reaches links excluded base stored.components).map Stored.path)
  | some _ => .error (.notDirectory p)
  | none => .error (.directoryMissing p)

def read (t : Tree) (p : Path) : Except FileError Text :=
  match t.entry? p with
  | some (.file content) => .ok content
  | some _ => .error (.notFile (t.locate p))
  | none => .error (.fileMissing (t.locate p))

theorem read_eq_ok_iff {t : Tree} {p : Path} {text : Text} :
    t.read p = .ok text ↔ t.entry? p = some (.file text) := by
  unfold read
  split <;> simp_all

def isDirectory (t : Tree) (p : Path) : Bool := t.entry? p == some .directory

def isFile (t : Tree) (p : Path) : Bool := (t.entry? p).any Entry.isFile

theorem isFile_iff {t : Tree} {p : Path} :
    t.isFile p = true ↔ ∃ text, t.entry? p = some (.file text) := by
  simp only [isFile, Option.any_eq_true]
  constructor
  · rintro ⟨e, he, hfile⟩
    cases e with
    | file text => exact ⟨text, he⟩
    | directory => cases hfile
    | link => cases hfile
  · rintro ⟨text, he⟩
    exact ⟨_, he, rfl⟩

def storage (t : Tree) : Storage where
  isDirectory := t.isDirectory
  isFile := t.isFile
  read := t.read
  files p excluded := Attempt.ofExcept (t.files p excluded)

end Tree

end Memory

end ProjectFile
