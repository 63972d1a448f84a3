import HelpAudit.Glob

/-! What patterns match, said of the name as a whole, and patterns that are names themselves. -/
namespace HelpAudit.Glob

/-- A pattern without wildcards matches its own text. -/
theorem matchesName_literals (w cs : List Char) :
    matchesName (w.map .literal) cs = true ↔ cs = w := by
  induction w generalizing cs with
  | nil => simp [matchesName]
  | cons c w ih =>
    cases cs with
    | nil => simp [matchesName]
    | cons d cs => simp [matchesName, Atom.accepts, ih]

/-- A star gives up any run of characters in front. -/
theorem matchesName_anyRun (atoms : List Atom) (cs : List Char) :
    matchesName (.anyRun :: atoms) cs = true ↔
      ∃ rest, rest <:+ cs ∧ matchesName atoms rest = true := by
  induction cs with
  | nil => simp [matchesName]
  | cons c cs ih =>
    rw [matchesName, Bool.or_eq_true, ih]
    simp only [List.suffix_cons_iff, or_and_right, exists_or, exists_eq_left]

/-- A star and a text match the names that end in the text. -/
theorem matchesName_anyRun_literals (w cs : List Char) :
    matchesName (.anyRun :: w.map .literal) cs = true ↔ w <:+ cs := by
  rw [matchesName_anyRun]
  simp only [matchesName_literals, exists_eq_right]

/-- A pattern for the names of files at any depth: as a name, and as the segment of a path. -/
structure MatchesNames (pattern : String) (atoms : List Atom) : Prop where
  name : parse? pattern = some atoms
  path : steps? pattern = some [.anywhere, .name atoms]
  last : pattern.toList.getLast? ≠ some '/'

/-- A name without wildcards. -/
def IsFileName (pattern : String) : Prop :=
  pattern ≠ "" ∧ ∀ c ∈ pattern.toList, c ≠ '*' ∧ c ≠ '?' ∧ c ≠ '[' ∧ c ≠ '/'

instance (pattern : String) : Decidable (IsFileName pattern) :=
  decidable_of_iff
    (pattern ≠ "" ∧ pattern.toList.all (fun c => c != '*' && c != '?' && c != '[' && c != '/'))
    (by simp [IsFileName, and_assoc])

theorem atoms?_literals {w : List Char} (h : ∀ c ∈ w, c ≠ '*' ∧ c ≠ '?' ∧ c ≠ '[' ∧ c ≠ '/')
    (opens : Bool) : atoms? w.length opens w = some (w.map .literal) := by
  induction w generalizing opens with
  | nil => rfl
  | cons c w ih =>
    obtain ⟨hstar, hmark, hbracket, -⟩ := h c List.mem_cons_self
    rw [List.length_cons, atoms?, ih fun d hd => h d (List.mem_cons_of_mem _ hd)]
    · rfl
    all_goals simp [hstar, hmark, hbracket]

theorem IsFileName.matchesNames {pattern : String} (h : IsFileName pattern) :
    MatchesNames pattern (pattern.toList.map .literal) := by
  obtain ⟨hne, hplain⟩ := h
  have hparse : parseChars? pattern.toList = some (pattern.toList.map .literal) :=
    atoms?_literals hplain true
  have hsplit : pattern.toList.splitOnP (· == '/') = [pattern.toList] :=
    List.splitOnP_eq_singleton fun c hc => beq_false_of_ne (hplain c hc).2.2.2
  have hstars : pattern.toList ≠ ['*', '*'] := fun heq =>
    (hplain '*' (heq ▸ List.mem_cons_self)).1 rfl
  refine ⟨hparse, ?_, fun hlast => ?_⟩
  · have hempty : pattern.toList ≠ [] := mt String.toList_eq_nil_iff.mp hne
    simp [steps?, parse?, hparse, hsplit, hempty, Step.ofSegment?, hstars, collapse]
  · exact (hplain '/' (List.mem_of_getLast? hlast)).2.2.2 rfl

theorem matchesNames_txt : MatchesNames "*.txt" (.anyRun :: ".txt".toList.map .literal) :=
  ⟨by decide, by decide, by decide⟩

end HelpAudit.Glob
