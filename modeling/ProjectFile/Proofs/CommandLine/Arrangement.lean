import ProjectFile.Proofs.CommandLine.Choice

/-!
The order of a command line does not matter, and neither does the spelling of its options. Whatever
arguments make a choice, the parser goes over them as it goes over one step: it settles what was
given before and the choice with it. A run over all arguments therefore ends with the choices that
were made on that side of the command name, and these do not depend on the order.
-/

namespace ProjectFile.CommandLine

/-! Names -/

theorem longOption?_of_longName? {m : Meaning} {side : Side} {name : Bytes}
    (hname : m.longName? = some name) (hside : m.standsOn side = true) :
    longOption? side name = some m := by
  cases m with
  | slot s => cases s <;> cases hname <;> cases side <;> first | rfl | cases hside
  | flag f => cases f <;> cases hname <;> cases side <;> first | rfl | cases hside

theorem shortOption?_of_letter? {m : Meaning} {side : Side} {c : UInt8} (hc : m.letter? = some c)
    (hside : m.standsOn side = true) : shortOption? side c = some m := by
  cases m with
  | slot s => cases s <;> cases hc <;> cases side <;> first | rfl | cases hside
  | flag f => cases f <;> cases hc <;> cases side <;> first | rfl | cases hside

/-- A name is no end of the options, and no value starts in it. -/
theorem plain_of_longName? {m : Meaning} {name : Bytes} (h : m.longName? = some name) :
    name ≠ [] ∧ name.all (· != equals) = true := by
  cases m with
  | slot s => cases s <;> cases h <;> decide
  | flag f => cases f <;> cases h <;> decide

theorem ne_dash_of_letter? {m : Meaning} {c : UInt8} (h : m.letter? = some c) : c ≠ dash := by
  cases m with
  | slot s => cases s <;> cases h <;> decide
  | flag f => cases f <;> cases h <;> decide

/-- A name ends where its value starts. -/
theorem takeWhile_name {name : Bytes} (hname : name.all (· != equals) = true) {rest : Bytes}
    (hrest : ∀ c ∈ rest.head?, c = equals) :
    (name ++ rest).takeWhile (· != equals) = name ∧
      (name ++ rest).dropWhile (· != equals) = rest := by
  have hall := List.all_eq_true.mp hname
  rw [List.takeWhile_append_of_pos hall, List.dropWhile_append_of_pos hall]
  cases rest with
  | nil => simp
  | cons c rest =>
    obtain rfl : c = equals := hrest c rfl
    simp

theorem IsValue.exists_cons {t : Bytes} (h : IsValue t) :
    ∃ c rest, t = c :: rest ∧ c ≠ dash ∧ c ≠ equals := by
  obtain ⟨c, rest, rfl⟩ := List.exists_cons_of_ne_nil h.1
  obtain ⟨-, hdash, hmark⟩ := h
  exact ⟨c, rest, rfl, fun hc => hdash (congrArg some hc), fun hc => hmark (congrArg some hc)⟩

namespace State

variable {st : State} {g : Given} {side : Side} {m : Meaning}

/-! One argument -/

theorem take_long {name : Bytes} (hname : m.longName? = some name)
    (hside : m.standsOn side = true) :
    st.take side false (dash :: dash :: name) = st.option m none := by
  have hnone : ∀ c ∈ ([] : Bytes).head?, c = equals := by simp
  obtain ⟨hkey, hrest⟩ := takeWhile_name (plain_of_longName? hname).2 hnone
  rw [List.append_nil] at hkey hrest
  change st.long side name = _
  rw [long, hkey, longOption?_of_longName? hname hside, hrest]

theorem take_longEquals {name : Bytes} (hname : m.longName? = some name)
    (hside : m.standsOn side = true) (t : Bytes) :
    st.take side false (dash :: dash :: (name ++ equals :: t)) = st.option m (some t) := by
  have hmark : ∀ c ∈ (equals :: t).head?, c = equals := by simp
  obtain ⟨hkey, hrest⟩ := takeWhile_name (plain_of_longName? hname).2 hmark
  change st.long side (name ++ equals :: t) = _
  rw [long, hkey, longOption?_of_longName? hname hside, hrest]

theorem take_letter {c : UInt8} (hc : c ≠ dash) (rest : Bytes) :
    st.take side false (dash :: c :: rest) = short side st (c :: rest) := by
  unfold take
  rw [if_neg (by simp)]
  split
  · next heq => exact absurd (List.cons.inj (List.cons.inj heq).2).1 hc
  · next heq =>
    cases heq
    rfl
  · next hother => exact absurd rfl (hother c rest)

theorem take_short {c : UInt8} (hc : m.letter? = some c) (hside : m.standsOn side = true) :
    st.take side false [dash, c] = st.option m none := by
  rw [take_letter (ne_dash_of_letter? hc), short, shortOption?_of_letter? hc hside]
  cases m with
  | slot s => rfl
  | flag f =>
    change (st.option (.flag f) none).bind (fun st => .ok st) = _
    cases st.option (.flag f) none <;> rfl

theorem take_shortAttached {s : Slot} {c : UInt8} (hc : (Meaning.slot s).letter? = some c)
    (hside : (Meaning.slot s).standsOn side = true) {t : Bytes} (ht : IsValue t) :
    st.take side false (dash :: c :: t) = st.option (.slot s) (some t) := by
  obtain ⟨d, t, rfl, -, hd⟩ := ht.exists_cons
  rw [take_letter (ne_dash_of_letter? hc), short, shortOption?_of_letter? hc hside]
  simp only
  split
  · next heq => cases heq
  · next heq => exact absurd (List.cons.inj heq).1 hd
  · rfl

theorem take_shortEquals {s : Slot} {c : UInt8} (hc : (Meaning.slot s).letter? = some c)
    (hside : (Meaning.slot s).standsOn side = true) (t : Bytes) :
    st.take side false (dash :: c :: equals :: t) = st.option (.slot s) (some t) := by
  rw [take_letter (ne_dash_of_letter? hc), short, shortOption?_of_letter? hc hside]
  rfl

theorem take_value {s : Slot} (hwaiting : st.waiting = some (s, none)) {t : Bytes}
    (ht : IsValue t) :
    st.take side false t = .ok ⟨st.given, some (s, some t)⟩ := by
  obtain ⟨c, t, rfl, hc, -⟩ := ht.exists_cons
  unfold take
  rw [if_neg (by simp)]
  split
  · next heq => exact absurd (List.cons.inj heq).1 hc
  · next heq => exact absurd (List.cons.inj heq).1 hc
  · rw [hwaiting]

/-! What has been said -/

/-- Where values are settled none is being waited for. -/
theorem wantsValue_of_settle (h : st.settle = .ok g) : st.wantsValue = false := by
  unfold wantsValue
  split
  · next hwaiting => simp [settle, hwaiting] at h
  · rfl

theorem option_of_settle (h : st.settle = .ok g) :
    (∀ f, st.option (.flag f) none = (g.set f).map (⟨·, none⟩)) ∧
    (∀ s t, st.option (.slot s) (some t) = (g.fill s t).map (⟨·, none⟩)) ∧
    ∀ s, st.option (.slot s) none = .ok ⟨g, some (s, none)⟩ := by
  refine ⟨fun f => ?_, fun s t => ?_, fun s => ?_⟩
  · rw [option, h]
    change (g.set f).bind _ = _
    cases g.set f <;> rfl
  · rw [option, h]
    change (g.fill s t).bind _ = _
    cases g.fill s t <;> rfl
  · rw [option, h]
    rfl

/-- A state of what is given, with nothing to wait for. -/
theorem settle_mk (g : Given) : settle ⟨g, none⟩ = .ok g := rfl

theorem hasProject_of_settle (h : st.settle = .ok g) (hg : g.has .project = false) :
    st.hasProject = false := by
  rw [Given.has_eq, Option.isSome_eq_false_iff, Option.isNone_iff_eq_none] at hg
  cases hwaiting : st.waiting with
  | none =>
    obtain rfl : st.given = g := by simpa [settle, hwaiting] using h
    simp [hasProject, hwaiting, Given.has_eq, hg]
  | some waiting =>
    obtain ⟨s, value?⟩ := waiting
    cases value? with
    | none => simp [settle, hwaiting] at h
    | some t =>
      have hfill : st.given.fill s t = .ok g := by simpa [settle, hwaiting] using h
      have hvalue := (Given.fill_spec hfill).1 .project
      rw [hg] at hvalue
      split at hvalue
      · cases hvalue
      · next hs =>
        have hne : s ≠ .project := fun heq => hs heq.symm
        simp [hasProject, hwaiting, Given.has_eq, ← hvalue, hne]

end State

/-- Whether the parser goes over the arguments from one state to another. No command name and no
end of the options is among them. -/
inductive Passes (side : Side) : State → List Bytes → State → Prop
  | nil (st : State) : Passes side st [] st
  | cons {st st' st'' : State} {t : Bytes} {ts : List Bytes} (options : t ≠ [dash, dash])
      (command : isCommand t = true → side = .before → st.wantsValue = true)
      (taken : st.take side false t = .ok st') (rest : Passes side st' ts st'') :
      Passes side st (t :: ts) st''

namespace Passes

variable {side : Side} {st st' st'' : State} {s t : List Bytes}

theorem append (hs : Passes side st s st') (ht : Passes side st' t st'') :
    Passes side st (s ++ t) st'' := by
  induction hs with
  | nil => exact ht
  | cons options command taken _ ih => exact .cons options command taken (ih ht)

theorem parseAfter_eq (h : Passes .after st s st') (rest : List Bytes) :
    parseAfter false st (s ++ rest) = parseAfter false st' rest := by
  induction h with
  | nil => rfl
  | @cons st st' st'' t ts options command taken _ ih =>
    have hgoes : ¬ (!false && t = "--") = true := fun h => options (of_decide_eq_true h)
    rw [List.cons_append, parseAfter, if_neg hgoes, taken]
    exact ih

theorem parseBefore_eq (h : Passes .before st s st') (rest : List Bytes) :
    parseBefore false st (s ++ rest) = parseBefore false st' rest := by
  induction h with
  | nil => rfl
  | @cons st st' st'' t ts options command taken _ ih =>
    have hname {name : Bytes} (hname : isCommand name = true) :
        ¬ (!false && !st.wantsValue && t = name) = true := by
      intro h
      simp only [Bool.not_false, Bool.true_and, Bool.and_eq_true, Bool.not_eq_true',
        decide_eq_true_eq] at h
      have hwants := command (h.2 ▸ hname) rfl
      rw [h.1] at hwants
      cases hwants
    have hgoes : ¬ (!false && t = "--") = true := fun h => options (of_decide_eq_true h)
    rw [List.cons_append, parseBefore, if_neg (hname (by decide)), if_neg (hname (by decide)),
      if_neg hgoes, taken]
    exact ih

/-- An argument that starts with a dash is no command name. -/
theorem option {t : Bytes} (options : dash :: t ≠ [dash, dash])
    (taken : st.take side false (dash :: t) = .ok st') : Passes side st [dash :: t] st' := by
  have hcommand {name : Bytes} (h : dash :: t = name) : some dash = name.head? :=
    congrArg List.head? h
  refine .cons options (fun h => ?_) taken (.nil _)
  rcases Bool.or_eq_true_iff.mp h with h | h
  · exact absurd (hcommand (of_decide_eq_true h)) (by decide)
  · exact absurd (hcommand (of_decide_eq_true h)) (by decide)

theorem value {s : Slot} (hwaiting : st.waiting = some (s, none)) {t : Bytes} (ht : IsValue t) :
    Passes side st [t] ⟨st.given, some (s, some t)⟩ := by
  refine .cons ?_ (fun _ _ => by simp [State.wantsValue, hwaiting]) (State.take_value hwaiting ht)
    (.nil _)
  rintro rfl
  exact ht.2.1 rfl

/-- The first operand after the command name is the project. -/
theorem operand {g : Given} (h : st.settle = .ok g) (hg : g.has .project = false) {t : Bytes}
    (ht : IsValue t) : Passes .after st [t] ⟨g, some (.project, some t)⟩ := by
  refine .cons ?_ (fun _ hside => by cases hside) ?_ (.nil _)
  · rintro rfl
    exact ht.2.1 rfl
  · have hwants := State.wantsValue_of_settle h
    obtain ⟨c, t, rfl, hc, -⟩ := ht.exists_cons
    unfold State.take
    rw [if_neg (by simp)]
    split
    · next heq => exact absurd (List.cons.inj heq).1 hc
    · next heq => exact absurd (List.cons.inj heq).1 hc
    · split
      · next hwaiting => simp [State.wantsValue, hwaiting] at hwants
      · rw [State.operand, if_neg (by simp [State.hasProject_of_settle h hg]), h]
        rfl

end Passes

/-- However a choice is spelled, it is the choice that has been made when its arguments are read. -/
theorem exists_passes {side : Side} {st : State} {g g' : Given} {c : Choice} {s : List Bytes}
    (hspells : c.Spells s) (hsound : c.IsSound) (hside : c.meaning.standsOn side = true)
    (h : st.settle = .ok g) (hsay : g.say c = .ok g') :
    ∃ st', Passes side st s st' ∧ st'.settle = .ok g' := by
  obtain ⟨hflag, hvalue, hwait⟩ := State.option_of_settle h
  cases hspells with
  | project t =>
    obtain rfl : side = .after := by simpa [Choice.meaning, Meaning.standsOn] using hside
    exact ⟨_, .operand h (Given.has_of_fill hsay) hsound.1, hsay⟩
  | @long s name named t =>
    have hlong : dash :: dash :: name ≠ [dash, dash] := by simpa using (plain_of_longName? named).1
    have htake : st.take side false _ = _ := (State.take_long named hside).trans (hwait s)
    exact ⟨_, (Passes.option hlong htake).append (.value rfl hsound.1), hsay⟩
  | @longEquals s name named t =>
    have hlong : dash :: dash :: (name ++ equals :: t) ≠ [dash, dash] := by simp
    have htake : st.take side false _ = _ :=
      (State.take_longEquals named hside t).trans (hvalue s t)
    rw [show g.fill s t = .ok g' from hsay] at htake
    exact ⟨_, .option hlong htake, rfl⟩
  | @short s c named t =>
    have hshort : [dash, c] ≠ [dash, dash] := by simpa using ne_dash_of_letter? named
    have htake : st.take side false _ = _ := (State.take_short named hside).trans (hwait s)
    exact ⟨_, (Passes.option hshort htake).append (.value rfl hsound.1), hsay⟩
  | @shortAttached s c named t =>
    have hshort : dash :: c :: t ≠ [dash, dash] := by simp [ne_dash_of_letter? named]
    have htake : st.take side false _ = _ :=
      (State.take_shortAttached named hside hsound.1).trans (hvalue s t)
    rw [show g.fill s t = .ok g' from hsay] at htake
    exact ⟨_, .option hshort htake, rfl⟩
  | @shortEquals s c named t =>
    have hshort : dash :: c :: equals :: t ≠ [dash, dash] := by simp
    have htake : st.take side false _ = _ :=
      (State.take_shortEquals named hside t).trans (hvalue s t)
    rw [show g.fill s t = .ok g' from hsay] at htake
    exact ⟨_, .option hshort htake, rfl⟩
  | @longFlag f name named =>
    have hlong : dash :: dash :: name ≠ [dash, dash] := by simpa using (plain_of_longName? named).1
    have htake : st.take side false _ = _ := (State.take_long named hside).trans (hflag f)
    rw [show g.set f = .ok g' from hsay] at htake
    exact ⟨_, .option hlong htake, rfl⟩
  | @shortFlag f c named =>
    have hshort : [dash, c] ≠ [dash, dash] := by simpa using ne_dash_of_letter? named
    have htake : st.take side false _ = _ := (State.take_short named hside).trans (hflag f)
    rw [show g.set f = .ok g' from hsay] at htake
    exact ⟨_, .option hshort htake, rfl⟩

/-- After all choices of a side have been read, these and those before are what has been said. -/
theorem exists_passes_all {side : Side} {cs : List Choice} {s : List Bytes}
    (hspells : Choice.SpellsAll cs s) (hsound : ∀ c ∈ cs, c.IsSound)
    (hside : ∀ c ∈ cs, c.meaning.standsOn side = true)
    (hdistinct : cs.Pairwise fun c d => c.meaning ≠ d.meaning) {st : State} {g : Given}
    (h : st.settle = .ok g) (hfree : ∀ c ∈ cs, ∀ d, g.Says d → d.meaning ≠ c.meaning) :
    ∃ st' g', Passes side st s st' ∧ st'.settle = .ok g' ∧ ∀ d, g'.Says d ↔ d ∈ cs ∨ g.Says d := by
  induction hspells generalizing st g with
  | nil => exact ⟨st, g, .nil st, h, by simp⟩
  | @cons c cs s t first rest ih =>
    obtain ⟨hfirst, hdistinct⟩ := List.pairwise_cons.mp hdistinct
    obtain ⟨g₁, hsay, hmade⟩ := Given.exists_say (hsound c (by simp)) (hfree c (by simp))
    obtain ⟨st₁, hpasses, hsettle⟩ :=
      exists_passes first (hsound c (by simp)) (hside c (by simp)) h hsay
    have hfree₁ : ∀ d ∈ cs, ∀ e, g₁.Says e → e.meaning ≠ d.meaning := by
      intro d hd e he
      rcases (hmade e).mp he with rfl | he
      · exact hfirst d hd
      · exact hfree d (by simp [hd]) e he
    obtain ⟨st₂, g₂, hrest, hsettled, hsaid⟩ := ih (fun d hd => hsound d (by simp [hd]))
      (fun d hd => hside d (by simp [hd])) hdistinct hsettle hfree₁
    refine ⟨st₂, g₂, hpasses.append hrest, hsettled, fun d => ?_⟩
    rw [hsaid, hmade, List.mem_cons]
    exact or_left_comm.trans or_assoc.symm

/-! Both sides -/

theorem parseAfter_nil {optionsOver : Bool} {st : State} {g : Given} {project : Path}
    (h : st.settle = .ok g) (hproject : g.project? = some project)
    (hlevel : ¬ (g.verbose = true ∧ g.quiet = true)) :
    parseAfter optionsOver st [] = .ok (project, g) := by
  rw [parseAfter, h]
  simp only [bind, Except.bind, Given.checkConflict]
  rw [if_neg (by simpa using hlevel)]
  simp only [hproject]

theorem parseBefore_read {st : State} {g after : Given} {project : Path} {rest : List Bytes}
    (h : st.settle = .ok g) (hafter : parseAfter false .start rest = .ok (project, after))
    (hlevel : ¬ (g.verbose = true ∧ g.quiet = true)) :
    parseBefore false st ("read" :: rest) = .ok (combine g after project) := by
  have hwants := State.wantsValue_of_settle h
  rw [parseBefore, hwants, if_neg (by decide), if_pos (by decide), hafter]
  simp only [bind, Except.bind, h, Given.checkConflict]
  rw [if_neg (by simpa using hlevel)]

section

variable {w before after : Given} (hmade : ∀ d, w.Says d ↔ before.Says d ∨ after.Says d)
  (hbefore : ∀ d, before.Says d → d.meaning.standsOn .before = true)
include hmade hbefore

theorem value?_after {s : Slot} (hs : (Meaning.slot s).standsOn .before = false) :
    after.value? s = w.value? s := by
  refine Option.ext fun t => ?_
  have hnot : ¬ before.Says (.value s t) := fun h => by
    rw [show (Meaning.slot s).standsOn .before = true from hbefore _ h] at hs
    cases hs
  exact ((hmade (.value s t)).trans (or_iff_right hnot)).symm

/-- What is said on the two sides is said by both together, whichever side a choice is on. -/
theorem combine_eq (project : Path) :
    combine before after project =
      { read := ⟨project, w.format?.getD .human, w.noEvaluate, w.engine?, w.output?⟩
        logLevel? := w.logLevel?
        verbose := w.verbose
        quiet := w.quiet } := by
  have hflag (f : Flag) : w.isSet f = (before.isSet f || after.isSet f) := by
    rw [Bool.eq_iff_iff, Bool.or_eq_true]
    exact hmade (.flag f)
  have hnoEvaluate : before.noEvaluate = false := by
    refine Bool.eq_false_iff.mpr fun h => ?_
    exact absurd (hbefore (.flag .noEvaluate) h) (by decide)
  have hlevel : after.logLevel?.or before.logLevel? = w.logLevel? := by
    have hiff (t : Text) : w.logLevel? = some t ↔ before.logLevel? = some t ∨
        after.logLevel? = some t := by
      simpa only [Given.says_logLevel_iff] using hmade (.value .logLevel t.encode)
    cases hafter : after.logLevel? with
    | some t => exact ((hiff t).mpr (.inr hafter)).symm
    | none =>
      refine Option.ext fun t => ?_
      rw [hiff, hafter]
      simp
  obtain ⟨-, hformat, hengine, houtput⟩ := after.fields_eq
  obtain ⟨-, hwformat, hwengine, hwoutput⟩ := w.fields_eq
  have hevaluate : w.noEvaluate = (before.noEvaluate || after.noEvaluate) := hflag .noEvaluate
  rw [combine, hlevel, hwformat, hwengine, hwoutput, hformat, hengine, houtput,
    value?_after hmade hbefore (s := .format) rfl, value?_after hmade hbefore (s := .engine) rfl,
    value?_after hmade hbefore (s := .output) rfl, hevaluate, hnoEvaluate,
    show w.verbose = (before.verbose || after.verbose) from hflag .verbose,
    show w.quiet = (before.quiet || after.quiet) from hflag .quiet, Bool.false_or]

end

/-- What is said can be said by its choices: each of them is sound and has a place after the command
name. -/
theorem sound_of_said {w : Given} (hvalues : ∀ s t, w.value? s = some t → IsValue t) {c : Choice}
    (h : w.Says c) : c.IsSound ∧ c.meaning.standsOn .after = true := by
  cases c with
  | value s t =>
    refine ⟨⟨hvalues s t h, fun hs => ?_, fun hs => ?_⟩, by cases s <;> rfl⟩
    · subst hs
      obtain ⟨f, -, rfl⟩ := Option.map_eq_some_iff.mp h
      exact ⟨f, format?_name f⟩
    · subst hs
      obtain ⟨level, -, rfl⟩ := Option.map_eq_some_iff.mp h
      exact ⟨level, Text.decode?_encode level⟩
  | flag f =>
    cases f with
    | help => cases h
    | version => cases h
    | _ => exact ⟨⟨by decide, by decide⟩, rfl⟩

/-- A command line that makes each of some choices once is accepted and asks for exactly what was
chosen, whatever the order of the choices, the side of those that may stand on either, and the
spelling of each. Without a format the listing for people is asked for. -/
theorem parse_arranged {w : Given} {project : Path} (hproject : w.project? = some project)
    (hvalues : ∀ s t, w.value? s = some t → IsValue t)
    (hlevel : ¬ (w.verbose = true ∧ w.quiet = true)) {before after : List Choice}
    (harranged : (before ++ after).Perm w.choices)
    (hbefore : ∀ c ∈ before, c.meaning.standsOn .before = true) {s t : List Bytes}
    (hs : Choice.SpellsAll before s) (ht : Choice.SpellsAll after t) :
    parse (s ++ ("read" : Bytes) :: t) = .ok
      { read := ⟨project, w.format?.getD .human, w.noEvaluate, w.engine?, w.output?⟩
        logLevel? := w.logLevel?
        verbose := w.verbose
        quiet := w.quiet } := by
  have hmem (c : Choice) : w.Says c ↔ c ∈ before ∨ c ∈ after := by
    rw [← Given.mem_choices, ← harranged.mem_iff, List.mem_append]
  have hdistinct : (before ++ after).Pairwise fun c d => c.meaning ≠ d.meaning :=
    (harranged.pairwise_iff fun h => h.symm).mpr w.pairwise_choices
  obtain ⟨hdistinctBefore, hdistinctAfter, -⟩ := List.pairwise_append.mp hdistinct
  have hfree (cs : List Choice) : ∀ c ∈ cs, ∀ d, Given.nothing.Says d → d.meaning ≠ c.meaning :=
    fun _ _ d hd => absurd hd (Given.not_says_nothing d)
  obtain ⟨st, g, hpasses, hsettle, hmade⟩ := exists_passes_all hs
    (fun c hc => (sound_of_said hvalues ((hmem c).mpr (.inl hc))).1) hbefore hdistinctBefore
    (State.settle_mk .nothing) (hfree before)
  obtain ⟨st', g', hpasses', hsettle', hmade'⟩ := exists_passes_all ht
    (fun c hc => (sound_of_said hvalues ((hmem c).mpr (.inr hc))).1)
    (fun c hc => (sound_of_said hvalues ((hmem c).mpr (.inr hc))).2) hdistinctAfter
    (State.settle_mk .nothing) (hfree after)
  have hgiven (c : Choice) : w.Says c ↔ g.Says c ∨ g'.Says c := by
    rw [hmem, hmade, hmade', or_iff_left (Given.not_says_nothing c),
      or_iff_left (Given.not_says_nothing c)]
  have hstands (c : Choice) (hc : g.Says c) : c.meaning.standsOn .before = true :=
    hbefore c (((hmade c).mp hc).resolve_right (Given.not_says_nothing c))
  have hcalm (said : Given) (h : ∀ c, said.Says c → w.Says c) :
      ¬ (said.verbose = true ∧ said.quiet = true) :=
    fun ⟨hverbose, hquiet⟩ => hlevel ⟨h (.flag .verbose) hverbose, h (.flag .quiet) hquiet⟩
  have hproject' : g'.project? = some project := by
    rw [g'.fields_eq.1, value?_after hgiven hstands (s := .project) rfl, ← w.fields_eq.1, hproject]
  have hafter : parseAfter false .start t = .ok (project, g') := by
    have heq := hpasses'.parseAfter_eq []
    rw [List.append_nil] at heq
    exact heq.trans
      (parseAfter_nil hsettle' hproject' (hcalm g' fun c hc => (hgiven c).mpr (.inr hc)))
  calc
    parse (s ++ ("read" : Bytes) :: t) = parseBefore false st ("read" :: t) :=
      hpasses.parseBefore_eq _
    _ = .ok (combine g g' project) :=
      parseBefore_read hsettle hafter (hcalm g fun c hc => (hgiven c).mpr (.inl hc))
    _ = _ := congrArg Except.ok (combine_eq hgiven hstands project)

/-- Everything that can be said, with values that look like names of commands. -/
def sampleGiven : Given where
  project? := some ⟨"read"⟩
  format? := some .json
  engine? := some ⟨"help"⟩
  output? := some ⟨"a=b"⟩
  logLevel? := some "read"
  noEvaluate := true
  verbose := false
  quiet := true

theorem parse_arranged_sample :
    let before : List Choice := [.value .logLevel "read"]
    let after : List Choice := [.value .output "a=b", .value .engine "help", .flag .noEvaluate,
      .value .project "read", .flag .quiet, .value .format "json"]
    (before ++ after).Perm sampleGiven.choices ∧
      parse ["--log-level", "read", "read", "-oa=b", "--dotnet", "help", "--no-evaluate", "read",
          "-q", "-f=json"] =
        .ok ⟨⟨⟨"read"⟩, .json, true, some ⟨"help"⟩, some ⟨"a=b"⟩⟩, some "read", false, true⟩ := by
  intro before after
  have harranged : (before ++ after).Perm sampleGiven.choices := by decide
  have hvalues : ∀ s t, sampleGiven.value? s = some t → IsValue t := by
    intro s t h
    cases s <;> cases h <;> decide
  have hbefore : Choice.SpellsAll before ["--log-level", "read"] := .cons (.long rfl _) .nil
  have hafter : Choice.SpellsAll after
      ["-oa=b", "--dotnet", "help", "--no-evaluate", "read", "-q", "-f=json"] :=
    .cons (.shortAttached rfl _) (.cons (.long rfl _) (.cons (.longFlag rfl)
      (.cons (.project _) (.cons (.shortFlag rfl) (.cons (.shortEquals rfl _) .nil)))))
  exact ⟨harranged,
    parse_arranged rfl hvalues (by decide) harranged (by decide) hbefore hafter⟩

end ProjectFile.CommandLine
