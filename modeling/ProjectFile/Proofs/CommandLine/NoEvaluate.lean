import ProjectFile.Proofs.CommandLine.Arrangement

/-!
One flag more. A command line that asks for an evaluation is still accepted with `--no-evaluate` put
behind its command name, and asks for the same otherwise. Whether the flag is set makes no
difference to a step of the parser unless that step sets it, and once it is set it stays so; hence
the parser goes over the rest of such a command line in the same steps.
-/

namespace ProjectFile.CommandLine

/-- The same command without an evaluation. -/
def Arguments.unevaluated (a : Arguments) : Arguments :=
  { a with read := { a.read with noEvaluate := true } }

namespace Given

def unevaluated (g : Given) : Given := { g with noEvaluate := true }

theorem fill_unevaluated (g : Given) (s : Slot) (t : Bytes) :
    g.unevaluated.fill s t = (g.fill s t).map unevaluated := by
  have hhas : g.unevaluated.has s = g.has s := by cases s <;> rfl
  unfold fill
  rw [hhas]
  split
  · rfl
  · cases s with
    | format =>
      simp only
      split <;> rfl
    | logLevel =>
      simp only
      split <;> rfl
    | _ =>
      simp only
      cases path t <;> rfl

theorem set_unevaluated {g g' : Given} {f : Flag} (h : g.set f = .ok g')
    (hunset : g'.noEvaluate = false) :
    g.noEvaluate = false ∧ g.unevaluated.set f = .ok g'.unevaluated := by
  cases f with
  | help => cases h
  | version => cases h
  | noEvaluate =>
    simp only [set] at h
    split at h
    · cases h
    · cases h
      cases hunset
  | _ =>
    simp only [set] at h
    split at h
    · cases h
    · next hfree =>
      cases h
      exact ⟨hunset, if_neg hfree⟩

end Given

namespace State

def unevaluated (st : State) : State := ⟨st.given.unevaluated, st.waiting⟩

theorem settle_unevaluated {st : State} {g : Given} (h : st.settle = .ok g) :
    g.noEvaluate = st.given.noEvaluate ∧ st.unevaluated.settle = .ok g.unevaluated := by
  obtain ⟨given, waiting⟩ := st
  match waiting, h with
  | none, h =>
    cases h
    exact ⟨rfl, rfl⟩
  | some (s, some t), h =>
    have hfill : given.fill s t = .ok g := h
    refine ⟨(Given.fill_spec hfill).2 .noEvaluate, ?_⟩
    change given.unevaluated.fill s t = _
    rw [Given.fill_unevaluated, hfill]
    rfl

/-- Whether a step is the same with the flag set, unless it sets the flag itself. -/
def Steady (step : State → Except UsageError State) : Prop :=
  ∀ st st', step st = .ok st' → st'.given.noEvaluate = false →
    st.given.noEvaluate = false ∧ step st.unevaluated = .ok st'.unevaluated

theorem Steady.error (e : UsageError) : Steady fun _ => .error e :=
  fun _ _ h => by cases h

theorem Steady.bind {step next : State → Except UsageError State} (hstep : Steady step)
    (hnext : Steady next) : Steady fun st => step st >>= next := by
  intro st st' h hunset
  obtain ⟨st₁, h₁, h₂⟩ := Except.bind_eq_ok_iff.mp h
  obtain ⟨hunset₁, hnext⟩ := hnext st₁ st' h₂ hunset
  obtain ⟨hunset₀, hstep⟩ := hstep st st₁ h₁ hunset₁
  refine ⟨hunset₀, ?_⟩
  change (step st.unevaluated).bind next = _
  rw [hstep]
  exact hnext

/-- First the waiting value is settled, and then a step is made on what is given. -/
theorem Steady.settle {next : Given → Except UsageError State}
    (hnext : Steady fun st => next st.given) : Steady fun st => st.settle >>= next := by
  intro st st' h hunset
  obtain ⟨g, hg, h⟩ := Except.bind_eq_ok_iff.mp h
  obtain ⟨hkept, hsettle⟩ := settle_unevaluated hg
  obtain ⟨hunset, hnext⟩ := hnext ⟨g, none⟩ st' h hunset
  refine ⟨hkept ▸ hunset, ?_⟩
  change st.unevaluated.settle.bind next = _
  rw [hsettle]
  exact hnext

theorem steady_option (o : Meaning) (value? : Option Bytes) : Steady (·.option o value?) := by
  cases o with
  | flag f =>
    cases value? with
    | some t => exact .error .unwantedValue
    | none =>
      refine .settle fun st st' h hunset => ?_
      obtain ⟨g, hg, h⟩ := Except.bind_eq_ok_iff.mp h
      cases h
      obtain ⟨hunset, hset⟩ := Given.set_unevaluated hg hunset
      refine ⟨hunset, ?_⟩
      change (st.given.unevaluated.set f).bind _ = _
      rw [hset]
      rfl
  | slot s =>
    cases value? with
    | none =>
      refine .settle fun st st' h hunset => ?_
      cases h
      exact ⟨hunset, rfl⟩
    | some t =>
      refine .settle fun st st' h hunset => ?_
      obtain ⟨g, hg, h⟩ := Except.bind_eq_ok_iff.mp h
      cases h
      refine ⟨((Given.fill_spec hg).2 .noEvaluate).symm.trans hunset, ?_⟩
      change (st.given.unevaluated.fill s t).bind _ = _
      rw [Given.fill_unevaluated, hg]
      rfl

theorem steady_long (side : Side) (body : Bytes) : Steady (·.long side body) := by
  unfold long
  split
  · exact .error .unknownArgument
  · split
    · exact steady_option _ none
    · exact steady_option _ (some _)

theorem steady_short (side : Side) (t : Bytes) : Steady (short side · t) := by
  induction t with
  | nil =>
    intro st st' h hunset
    cases h
    exact ⟨hunset, rfl⟩
  | cons c rest ih =>
    unfold short
    split
    · exact .error .unknownArgument
    · exact (steady_option _ none).bind ih
    · split
      · exact steady_option _ none
      · exact steady_option _ (some _)
      · exact steady_option _ (some _)

theorem steady_operand (side : Side) (optionsOver : Bool) (t : Bytes) :
    Steady (·.operand side optionsOver t) := by
  cases side with
  | before => exact .error _
  | after =>
    intro st st' h hunset
    have hhas : st.unevaluated.hasProject = st.hasProject := rfl
    simp only [operand] at h ⊢
    rw [hhas]
    split at h
    · cases h
    · next hfree =>
      rw [if_neg hfree]
      refine Steady.settle (fun st st' h hunset => ?_) st st' h hunset
      cases h
      exact ⟨hunset, rfl⟩

theorem steady_take (side : Side) (optionsOver : Bool) (t : Bytes) :
    Steady (·.take side optionsOver t) := by
  unfold take
  split
  · exact steady_operand side optionsOver t
  · split
    · exact steady_long side _
    · exact steady_short side _
    · rintro ⟨given, waiting⟩ st' h hunset
      match waiting, h with
      | some (s, none), h =>
        cases h
        exact ⟨hunset, rfl⟩
      | some (s, some value), h => exact steady_operand side optionsOver t _ st' h hunset
      | none, h => exact steady_operand side optionsOver t _ st' h hunset

end State

/-- The arguments after the command name say the same with the flag already set. -/
theorem parseAfter_unevaluated {optionsOver : Bool} {st : State} {rest : List Bytes} {p : Path}
    {g : Given} (h : parseAfter optionsOver st rest = .ok (p, g)) (hunset : g.noEvaluate = false) :
    st.given.noEvaluate = false ∧
      parseAfter optionsOver st.unevaluated rest = .ok (p, g.unevaluated) := by
  induction rest generalizing optionsOver st with
  | nil =>
    obtain ⟨g', hg, h⟩ := Except.bind_eq_ok_iff.mp h
    obtain ⟨u, hcalm, h⟩ := Except.bind_eq_ok_iff.mp h
    obtain ⟨hkept, hsettle⟩ := State.settle_unevaluated hg
    split at h
    · next project hproject =>
      cases h
      have hlevel : ¬ (g.verbose = true ∧ g.quiet = true) := by
        simpa [Given.checkConflict] using hcalm
      exact ⟨hkept ▸ hunset, parseAfter_nil hsettle hproject hlevel⟩
    · cases h
  | cons t rest ih =>
    rw [parseAfter] at h ⊢
    split at h
    · next hend =>
      rw [if_pos hend]
      exact ih h
    · next hgoes =>
      rw [if_neg hgoes]
      obtain ⟨st₁, h₁, h⟩ := Except.bind_eq_ok_iff.mp h
      obtain ⟨hunset₁, hrest⟩ := ih h
      obtain ⟨hunset₀, htake⟩ := State.steady_take .after optionsOver t st st₁ h₁ hunset₁
      refine ⟨hunset₀, ?_⟩
      rw [show st.unevaluated.take .after optionsOver t = _ from htake]
      exact hrest

/-- With the options over there is no command name any more. -/
theorem parseBefore_optionsOver {st : State} {rest : List Bytes} {a : Arguments} :
    parseBefore true st rest ≠ .ok a := by
  cases rest with
  | nil =>
    intro h
    obtain ⟨g, -, h⟩ := Except.bind_eq_ok_iff.mp h
    cases h
  | cons t rest =>
    intro h
    rw [parseBefore, if_neg (by simp), if_neg (by simp), if_neg (by simp)] at h
    obtain ⟨st', htake, -⟩ := Except.bind_eq_ok_iff.mp h
    cases htake

/-- Somewhere in an accepted command line stands the command name, and what follows it can be
replaced by anything that is accepted there. -/
theorem exists_command {st : State} {arguments : List Bytes} {a : Arguments}
    (h : parseBefore false st arguments = .ok a) : ∃ before after p g given,
      arguments = before ++ ("read" : Bytes) :: after ∧
      parseAfter false .start after = .ok (p, g) ∧ a = combine given g p ∧
      ∀ after' p' g', parseAfter false .start after' = .ok (p', g') →
        parseBefore false st (before ++ ("read" : Bytes) :: after') =
          .ok (combine given g' p') := by
  induction arguments generalizing st with
  | nil =>
    obtain ⟨g, -, h⟩ := Except.bind_eq_ok_iff.mp h
    cases h
  | cons t rest ih =>
    rw [parseBefore] at h
    split at h
    · cases h
    · next hhelp =>
      split at h
      · next hread =>
        obtain ⟨⟨p, g⟩, hafter, h⟩ := Except.bind_eq_ok_iff.mp h
        obtain ⟨given, hsettle, h⟩ := Except.bind_eq_ok_iff.mp h
        obtain ⟨⟨⟩, hcalm, h⟩ := Except.bind_eq_ok_iff.mp h
        cases h
        simp only [Bool.not_false, Bool.true_and, Bool.and_eq_true, decide_eq_true_eq] at hread
        obtain ⟨-, rfl⟩ := hread
        refine ⟨[], rest, p, g, given, rfl, hafter, rfl, fun after' p' g' hafter' => ?_⟩
        have hlevel : ¬ (given.verbose = true ∧ given.quiet = true) := by
          simpa [Given.checkConflict] using hcalm
        exact parseBefore_read hsettle hafter' hlevel
      · next hread =>
        split at h
        · exact absurd h parseBefore_optionsOver
        · next hgoes =>
          obtain ⟨st', htake, h⟩ := Except.bind_eq_ok_iff.mp h
          obtain ⟨before, after, p, g, given, rfl, hafter, ha, hreplace⟩ := ih h
          refine ⟨t :: before, after, p, g, given, rfl, hafter, ha, fun after' p' g' hafter' => ?_⟩
          rw [List.cons_append, parseBefore, if_neg hhelp, if_neg hread, if_neg hgoes, htake]
          exact hreplace after' p' g' hafter'

/-- Behind the command name of a command line that asks for an evaluation there is room for the flag
that leaves it out. -/
theorem exists_unevaluated {arguments : List Bytes} {a : Arguments} (h : parse arguments = .ok a)
    (hunset : a.read.noEvaluate = false) : ∃ before after,
      arguments = before ++ ("read" : Bytes) :: after ∧
      parse (before ++ ("read" : Bytes) :: "--no-evaluate" :: after) = .ok a.unevaluated := by
  obtain ⟨before, after, p, g, given, hsplit, hafter, rfl, hreplace⟩ := exists_command h
  obtain ⟨-, hflagged⟩ := parseAfter_unevaluated hafter hunset
  have htake : State.start.take .after false "--no-evaluate" = .ok State.start.unevaluated :=
    rfl
  have hnext : parseAfter false .start (("--no-evaluate" : Bytes) :: after) =
      .ok (p, g.unevaluated) := by
    rw [parseAfter, if_neg (by decide), htake]
    exact hflagged
  exact ⟨before, after, hsplit, hreplace _ p g.unevaluated hnext⟩

end ProjectFile.CommandLine
