import HelpAudit.CommandLine.Run

/-!
Calls that differ in the output they ask for. Where one of them is read as a request to lint, so is
the other, and the two requests differ in nothing else.
-/
namespace HelpAudit

def OutputMode.word : OutputMode → String
  | .human => "human"
  | .json => "json"

theorem OutputMode.ofWord?_eq_some_iff {mode : OutputMode} {word : String} :
    OutputMode.ofWord? word = some mode ↔ word = mode.word := by
  constructor
  · intro h
    unfold ofWord? at h
    split at h <;> cases h <;> rfl
  · rintro rfl
    cases mode <;> rfl

theorem OutputMode.exists_word_iff {word : String} :
    (∃ mode : OutputMode, word = mode.word) ↔ word = "human" ∨ word = "json" := by
  constructor
  · rintro ⟨mode, rfl⟩
    cases mode with
    | human => exact .inl rfl
    | json => exact .inr rfl
  · rintro (rfl | rfl)
    · exact ⟨.human, rfl⟩
    · exact ⟨.json, rfl⟩

theorem OutputMode.word_injective : Function.Injective OutputMode.word := by
  intro mode mode' h
  rw [← Option.some.injEq, ← ofWord?_eq_some_iff.mpr h]
  exact (ofWord?_eq_some_iff.mpr rfl).symm

namespace Arguments

theorem bind_eq_ok_iff {ε α β : Type} {x : Except ε α} {f : α → Except ε β} {y : β} :
    x >>= f = .ok y ↔ ∃ z, x = .ok z ∧ f z = .ok y := by
  cases x with
  | error e => exact ⟨fun h => (by cases h), fun ⟨_, h, _⟩ => by cases h⟩
  | ok z => exact ⟨fun h => ⟨z, rfl, h⟩, fun ⟨_, h, hy⟩ => by cases h; exact hy⟩

/-- An output that is asked for, in one argument or in two. -/
def outputOption (inOne : Bool) (word : String) : List String :=
  if inOne then ["--output=" ++ word] else ["--output", word]

namespace Given

variable {a b : String} {g g' r : Given} {s : Shape}

/-- An output was taken in, `a` in one reading and `b` in the other; all else is the same. -/
structure TookIn (a b : String) (g g' : Given) : Prop where
  path_eq : g'.path = g.path
  isVerbose_eq : g'.isVerbose = g.isVerbose
  last_eq : g'.last = g.last
  output : g.options.lookup .output = some a
  output' : g'.options.lookup .output = some b
  others : ∀ o, o ≠ .output → g'.options.lookup o = g.options.lookup o

theorem TookIn.isSome_eq (h : TookIn a b g g') (o : OptionName) :
    (g'.options.lookup o).isSome = (g.options.lookup o).isSome := by
  by_cases ho : o = .output
  · rw [ho, h.output, h.output']
    rfl
  · rw [h.others o ho]

theorem TookIn.append (h : TookIn a b g g') (more : List (OptionName × String))
    (last : Option (OptionName × Option String)) :
    TookIn a b { g with options := g.options ++ more, last := last }
      { g' with options := g'.options ++ more, last := last } where
  path_eq := h.path_eq
  isVerbose_eq := h.isVerbose_eq
  last_eq := rfl
  output := by rw [List.lookup_append, h.output, Option.some_or]
  output' := by rw [List.lookup_append, h.output', Option.some_or]
  others o ho := by rw [List.lookup_append, List.lookup_append, h.others o ho]

theorem TookIn.overrides_eq (h : TookIn a b g g') :
    g.overrides.output = some a ∧ g'.overrides = { g.overrides with output := some b } := by
  refine ⟨h.output, ?_⟩
  rw [overrides, overrides, h.output', h.others .repoRoot (by decide),
    h.others .packagesRoot (by decide)]

/-- The readings differ in the output only. It stays open until the next argument is read, so the
two may differ in what is open before they differ in what was taken in. -/
inductive Differ (a b : String) : Given → Given → Prop
  | opened (g : Given) :
    Differ a b { g with last := some (.output, some a) } { g with last := some (.output, some b) }
  | tookIn {g g' : Given} (h : TookIn a b g g') : Differ a b g g'

theorem settle_of_differ (hd : Differ a b g g') (h : g.settle = .ok r) :
    ∃ r', g'.settle = .ok r' ∧ TookIn a b r r' := by
  cases hd with
  | opened g =>
    unfold settle at h ⊢
    dsimp only at h ⊢
    split at h
    · cases h
    · next hnew =>
      cases h
      have hnone : g.options.lookup .output = none := Option.not_isSome_iff_eq_none.mp hnew
      rw [if_neg hnew]
      refine ⟨_, rfl, rfl, rfl, rfl, ?_, ?_, fun o ho => ?_⟩
      · rw [List.lookup_append, hnone, Option.none_or, List.lookup_cons_self]
      · rw [List.lookup_append, hnone, Option.none_or, List.lookup_cons_self]
      · have hne : (o == .output) = false := beq_false_of_ne ho
        rw [List.lookup_append, List.lookup_append, List.lookup_cons, List.lookup_cons, hne]
  | tookIn ht =>
    unfold settle at h ⊢
    rw [ht.last_eq]
    split at h
    · cases h
      exact ⟨g', rfl, ht⟩
    · cases h
    · next o v heq =>
      rw [ht.isSome_eq]
      split at h
      · cases h
      · next hnew =>
        cases h
        rw [if_neg hnew]
        exact ⟨_, rfl, ht.append [(o, v)] none⟩

/-- What follows a settled reading may go on from the other one. -/
theorem bind_settle_of_differ {next : Given → Except UsageStop Given} (hd : Differ a b g g')
    (hnext : ∀ {q q' : Given}, TookIn a b q q' → next q = .ok r →
      ∃ r', next q' = .ok r' ∧ TookIn a b r r')
    (h : g.settle >>= next = .ok r) : ∃ r', g'.settle >>= next = .ok r' ∧ TookIn a b r r' := by
  obtain ⟨q, hq, hr⟩ := bind_eq_ok_iff.mp h
  obtain ⟨q', hq', ht⟩ := settle_of_differ hd hq
  rw [hq']
  exact hnext ht hr

theorem TookIn.withLast (h : TookIn a b g g') (last : Option (OptionName × Option String)) :
    TookIn a b { g with last := last } { g' with last := last } :=
  { h with last_eq := rfl }

theorem flag_of_differ (hd : Differ a b g g') {f : Flag} {value : Option String}
    (h : g.flag f value = .ok r) : ∃ r', g'.flag f value = .ok r' ∧ TookIn a b r r' := by
  cases f with
  | option o =>
    cases value with
    | some v =>
      refine bind_settle_of_differ hd (fun {q q'} ht hr => ?_) h
      exact settle_of_differ (.tookIn (ht.withLast _)) hr
    | none =>
      refine bind_settle_of_differ hd (fun {q q'} ht hr => ?_) h
      cases hr
      exact ⟨_, rfl, ht.withLast _⟩
  | help =>
    cases value with
    | some v => cases h
    | none => exact bind_settle_of_differ hd (fun _ hr => by cases hr) h
  | verbose =>
    cases value with
    | some v => cases h
    | none =>
      refine bind_settle_of_differ hd (fun {q q'} ht hr => ?_) h
      rw [ht.isVerbose_eq]
      split at hr
      · cases hr
      · next hquiet =>
        cases hr
        rw [if_neg hquiet]
        exact ⟨_, rfl, { ht with isVerbose_eq := rfl }⟩

theorem letters_of_differ (hd : Differ a b g g') {cs : List Char}
    (h : g.letters s cs = .ok r) : ∃ r', g'.letters s cs = .ok r' ∧ Differ a b r r' := by
  induction cs generalizing g g' with
  | nil =>
    cases h
    exact ⟨g', rfl, hd⟩
  | cons c cs ih =>
    unfold letters at h ⊢
    split at h
    · cases h
    · obtain ⟨q, hq, hr⟩ := bind_eq_ok_iff.mp h
      obtain ⟨q', hq', ht⟩ := flag_of_differ hd hq
      rw [hq']
      exact ih (.tookIn ht) hr

theorem operand_of_differ (hd : Differ a b g g') {argument : String}
    (h : g.operand s argument = .ok r) :
    ∃ r', g'.operand s argument = .ok r' ∧ TookIn a b r r' := by
  have hpath : g'.path = g.path := by
    cases hd with
    | opened g => rfl
    | tookIn ht => exact ht.path_eq
  unfold operand at h ⊢
  rw [hpath]
  split at h
  · next hawaited =>
    rw [if_pos hawaited]
    refine bind_settle_of_differ hd (fun {q q'} ht hr => ?_) h
    cases hr
    exact ⟨_, rfl, { ht with path_eq := rfl }⟩
  · cases h

theorem plain_of_differ (hd : Differ a b g g') {argument : String}
    (h : g.plain s argument = .ok r) :
    ∃ r', g'.plain s argument = .ok r' ∧ TookIn a b r r' := by
  have hoperand : g.operand s argument = .ok r →
      ∃ r', g'.operand s argument = .ok r' ∧ TookIn a b r r' := operand_of_differ hd
  cases hd with
  | opened g => exact hoperand h
  | tookIn ht =>
    unfold plain at h ⊢
    rw [ht.last_eq]
    split at h
    · cases h
      exact ⟨_, rfl, ht.withLast _⟩
    · exact hoperand h

theorem foldlM_operand_of_differ (hd : Differ a b g g') {as : List String}
    (h : as.foldlM (operand s) g = .ok r) :
    ∃ r', as.foldlM (operand s) g' = .ok r' ∧ Differ a b r r' := by
  induction as generalizing g g' with
  | nil =>
    cases h
    exact ⟨g', rfl, hd⟩
  | cons a as ih =>
    rw [List.foldlM_cons] at h ⊢
    obtain ⟨q, hq, hr⟩ := bind_eq_ok_iff.mp h
    obtain ⟨q', hq', ht⟩ := operand_of_differ hd hq
    rw [hq']
    exact ih (.tookIn ht) hr

/-- Takes one argument before the separator. -/
def step (s : Shape) (g : Given) (argument : String) : Except UsageStop Given :=
  match formOf argument with
  | .separator => .ok g
  | .long name value =>
    match s.long? name with
    | none => .error .unexpectedArgument
    | some f => g.flag f (value.map .ofList)
  | .short cs => g.letters s cs
  | .plain => g.plain s argument

theorem step_of_differ (hd : Differ a b g g') {argument : String}
    (h : g.step s argument = .ok r) : ∃ r', g'.step s argument = .ok r' ∧ Differ a b r r' := by
  unfold step at h ⊢
  generalize formOf argument = form at h ⊢
  cases form with
  | separator =>
    cases h
    exact ⟨g', rfl, hd⟩
  | long name value =>
    dsimp only at h ⊢
    cases hf : s.long? name with
    | none =>
      rw [hf] at h
      cases h
    | some f =>
      rw [hf] at h
      obtain ⟨r', hr', ht⟩ := flag_of_differ hd h
      exact ⟨r', hr', .tookIn ht⟩
  | short cs => exact letters_of_differ hd h
  | plain =>
    obtain ⟨r', hr', ht⟩ := plain_of_differ hd h
    exact ⟨r', hr', .tookIn ht⟩

theorem formOf_eq_separator_iff {argument : String} :
    formOf argument = .separator ↔ argument = "--" := by
  constructor
  · intro h
    unfold formOf at h
    split at h
    · next heq => exact String.toList_inj.mp heq
    all_goals cases h
  · rintro rfl
    rfl

theorem read_cons {x : String} (hx : x ≠ "--") (g : Given) (as : List String) :
    g.read s (x :: as) = g.step s x >>= fun g => g.read s as := by
  rw [read, step]
  cases hform : formOf x with
  | separator => exact absurd (formOf_eq_separator_iff.mp hform) hx
  | long name value =>
    dsimp only
    cases s.long? name <;> rfl
  | short cs => rfl
  | plain => rfl

theorem read_append {before : List String} (hbefore : "--" ∉ before) (g : Given)
    (as : List String) :
    g.read s (before ++ as) = before.foldlM (step s) g >>= fun g => g.read s as := by
  induction before generalizing g with
  | nil => rfl
  | cons x before ih =>
    obtain ⟨hx, hbefore⟩ := not_or.mp (mt List.mem_cons.mpr hbefore)
    rw [List.cons_append, read_cons (Ne.symm hx), List.foldlM_cons, bind_assoc]
    exact congrArg _ (funext fun g => ih hbefore g)

/-- The same arguments are read in both. -/
theorem read_of_differ (hd : Differ a b g g') {as : List String} (h : g.read s as = .ok r) :
    ∃ r', g'.read s as = .ok r' ∧ TookIn a b r r' := by
  induction as generalizing g g' with
  | nil => exact settle_of_differ hd h
  | cons x as ih =>
    by_cases hx : x = "--"
    · subst hx
      change as.foldlM (operand s) g >>= settle = .ok r at h
      change ∃ r', as.foldlM (operand s) g' >>= settle = .ok r' ∧ _
      obtain ⟨q, hq, hr⟩ := bind_eq_ok_iff.mp h
      obtain ⟨q', hq', hd'⟩ := foldlM_operand_of_differ hd hq
      rw [hq']
      exact settle_of_differ hd' hr
    · rw [read_cons hx] at h ⊢
      obtain ⟨q, hq, hr⟩ := bind_eq_ok_iff.mp h
      obtain ⟨q', hq', hd'⟩ := step_of_differ hd hq
      rw [hq']
      exact ih hd' hr

section Output

variable (hs : s.hasOptions = true)
include hs

theorem long?_output : s.long? "output".toList = some (.option .output) := by
  rw [Shape.long?, hs]
  rfl

/-- The output is open after two arguments, behind what was open before. -/
theorem read_outputOption_two (mode : OutputMode) (g : Given) (as : List String) :
    g.read s (outputOption false mode.word ++ as) =
      g.settle >>= fun q => read s { q with last := some (.output, some mode.word) } as := by
  have hform : formOf "--output" = .long "output".toList none := by rfl
  have hword : mode.word ≠ "--" := by cases mode <;> decide
  have hplain : formOf mode.word = .plain := by cases mode <;> rfl
  have hopen : g.step s "--output" =
      g.settle >>= fun q => pure { q with last := some (.output, none) } := by
    rw [step, hform]
    dsimp only
    rw [long?_output hs]
    rfl
  change g.read s ("--output" :: mode.word :: as) = _
  rw [read_cons (by decide), hopen, bind_assoc]
  refine congrArg _ (funext fun q => ?_)
  rw [pure_bind, read_cons hword, step, hplain]
  rfl

/-- The output is taken in after one argument. -/
theorem read_outputOption_one (mode : OutputMode) (g : Given) (as : List String) :
    g.read s (outputOption true mode.word ++ as) =
      (g.settle >>= fun q => settle { q with last := some (.output, some mode.word) }) >>=
        fun q => q.read s as := by
  have hform : formOf ("--output=" ++ mode.word) =
      .long "output".toList (some mode.word.toList) := by cases mode <;> rfl
  have hne : "--output=" ++ mode.word ≠ "--" := by cases mode <;> decide
  change g.read s (("--output=" ++ mode.word) :: as) = _
  rw [read_cons hne, step, hform]
  dsimp only
  rw [long?_output hs, Option.map_some, String.ofList_toList]
  rfl

/-- Where one output was asked for, another may be. -/
theorem exists_read_outputOption {inOne : Bool} {mode : OutputMode} {as : List String}
    (h : g.read s (outputOption inOne mode.word ++ as) = .ok r) (mode' : OutputMode) :
    ∃ r', g.read s (outputOption inOne mode'.word ++ as) = .ok r' ∧
      TookIn mode.word mode'.word r r' := by
  cases inOne with
  | false =>
    rw [read_outputOption_two hs] at h ⊢
    obtain ⟨q, hq, hr⟩ := bind_eq_ok_iff.mp h
    rw [hq]
    exact read_of_differ (.opened q) hr
  | true =>
    rw [read_outputOption_one hs, bind_assoc] at h ⊢
    obtain ⟨p, hp, h⟩ := bind_eq_ok_iff.mp h
    obtain ⟨q, hq, hr⟩ := bind_eq_ok_iff.mp h
    obtain ⟨q', hq', ht⟩ := settle_of_differ (.opened p) hq
    obtain ⟨r', hr', htook⟩ := read_of_differ (.tookIn ht) hr
    exact ⟨r', bind_eq_ok_iff.mpr ⟨p, hp, bind_eq_ok_iff.mpr ⟨q', hq', hr'⟩⟩, htook⟩

end Output

end Given

/-- The arguments of a lint with an output that is asked for before the separator. -/
def lintArguments (before after : List String) (inOne : Bool) (mode : OutputMode) : List String :=
  "lint" :: before ++ outputOption inOne mode.word ++ after

/-- Asking for another output is read as the same request with this output. -/
theorem read_lintArguments {before after : List String} {inOne : Bool} {mode : OutputMode}
    {path : String} {o : Overrides} {isVerbose : Bool} (hbefore : "--" ∉ before)
    (h : read (lintArguments before after inOne mode) = .ok (.lint path o isVerbose))
    (mode' : OutputMode) : o.output = some mode.word ∧
      read (lintArguments before after inOne mode') =
        .ok (.lint path { o with output := some mode'.word } isVerbose) := by
  have hread (m : OutputMode) : read (lintArguments before after inOne m) =
      lint (before ++ (outputOption inOne m.word ++ after)) := by
    rw [← List.append_assoc]
    rfl
  rw [hread, lint, Given.read_append hbefore] at h ⊢
  obtain ⟨g, hg, h⟩ := bind_eq_ok_iff.mp h
  obtain ⟨q, hq, hg⟩ := bind_eq_ok_iff.mp hg
  obtain ⟨g', hg', ht⟩ := Given.exists_read_outputOption rfl hg mode'
  obtain ⟨houtput, hoverrides⟩ := ht.overrides_eq
  rw [bind_eq_ok_iff.mpr ⟨q, hq, hg'⟩]
  cases hpath : g.path with
  | none =>
    rw [hpath] at h
    cases h
  | some p =>
    rw [hpath] at h
    cases h
    refine ⟨houtput, bind_eq_ok_iff.mpr ⟨g', rfl, ?_⟩⟩
    rw [ht.path_eq, hpath, hoverrides, ht.isVerbose_eq]
    rfl

end Arguments

end HelpAudit
