import HelpAudit.Proofs.Resource

/-!
Resource paths put together. Joining starts from the segments of the base and takes the pieces of
the rest one after the other, so it does not matter how the base is spelled or in how many steps a
path is put together. A rest that never goes up stays in the base.
-/
namespace HelpAudit.Resource

variable {base rest : String} {pieces : List Segment}

/-- Some segment of the path as it is written goes up. -/
def GoesUp (path : String) : Prop := ['.', '.'] ∈ path.toList.splitOnP isSeparator

instance (path : String) : Decidable (GoesUp path) :=
  inferInstanceAs (Decidable (_ ∈ _))

theorem segments_join (base rest : String) : segments (join base rest) =
    ((rest.toList.splitOnP isSeparator).foldl step (segments base).reverse).reverse := by
  rw [join, segments_normalize, segments_append]

/-- A base counts by its segments alone. -/
theorem join_congr {other : String} (h : segments base = segments other) (rest : String) :
    join base rest = join other rest := by
  rw [join, join, normalize, normalize, segments_append, segments_append, h]

theorem join_normalize (base rest : String) : join (normalize base) rest = join base rest :=
  join_congr (segments_normalize base) rest

theorem join_join (a b c : String) : join (join a b) c = join a (b ++ "/" ++ c) := by
  have hbase : join (join a b) c = join (a ++ "/" ++ b) c := join_normalize (a ++ "/" ++ b) c
  rw [hbase, join, join, ← String.append_assoc, ← String.append_assoc]

/-- A piece that does not go up leaves the segments before it as they are. -/
theorem step_eq_append {s : Segment} (h : s ≠ ['.', '.']) (before : List Segment) :
    step before s = step [] s ++ before := by
  unfold step
  split
  · rfl
  · rfl
  · exact absurd rfl h
  · rfl

theorem foldl_step_eq_append (h : ['.', '.'] ∉ pieces) (before : List Segment) :
    pieces.foldl step before = pieces.foldl step [] ++ before := by
  induction pieces generalizing before with
  | nil => rfl
  | cons s pieces ih =>
    rw [List.mem_cons, not_or] at h
    obtain ⟨hs, hpieces⟩ := h
    rw [List.foldl_cons, List.foldl_cons, ih hpieces (step before s), ih hpieces (step [] s),
      step_eq_append (Ne.symm hs), List.append_assoc]

/-- A rest that never goes up is put behind the base. -/
theorem segments_join_of_not_goesUp (base : String) (h : ¬GoesUp rest) :
    segments (join base rest) = segments base ++ segments rest := by
  rw [segments_join, foldl_step_eq_append h, List.reverse_append, List.reverse_reverse,
    segments.eq_def rest]

/-- A path that goes on from the segments of a folder is the folder, or is written below it. -/
theorem eq_or_exists_of_prefix {root path : String} (hroot : IsCanonical root)
    (hpath : IsCanonical path) (h : segments root <+: segments path) : path = root ∨ root = "" ∨
      ∃ more, IsCanonical more ∧ more ≠ "" ∧ path = root ++ "/" ++ more := by
  by_cases heq : path = root
  · exact .inl heq
  obtain ⟨more, -, hmore, hne, -, hwritten⟩ := exists_below? hroot hpath h heq
  by_cases hempty : root = ""
  · exact .inr (.inl hempty)
  · exact .inr (.inr ⟨more, hmore, hne, hwritten hempty⟩)

/-- Normalising gives a canonical path and leaves just those alone. A path may be normalised before
it is joined to another, and be joined at once to what would be joined to it in two steps. A path
that never goes up leads to the folder it is joined to or below it. -/
theorem join_laws (a b c : String) :
    IsCanonical (normalize a) ∧ (normalize a = a ↔ IsCanonical a) ∧
    normalize (normalize a) = normalize a ∧
    join (normalize a) b = join a b ∧ join (join a b) c = join a (b ++ "/" ++ c) ∧
    (¬GoesUp b → segments (join a b) = segments a ++ segments b ∧
      contains (normalize a) (join a b) = true ∧
      (join a b = normalize a ∨ normalize a = "" ∨
        ∃ more, IsCanonical more ∧ more ≠ "" ∧ join a b = normalize a ++ "/" ++ more)) := by
  refine ⟨isCanonical_normalize a, isCanonical_iff.symm, normalize_normalize a,
    join_normalize a b, join_join a b c, fun hup => ?_⟩
  have hbase := isCanonical_normalize a
  have hjoined : IsCanonical (join a b) := isCanonical_normalize _
  have hsegments := segments_join_of_not_goesUp a hup
  have hprefix : segments (normalize a) <+: segments (join a b) := by
    rw [segments_normalize, hsegments]
    exact List.prefix_append _ _
  exact ⟨hsegments, (contains_iff hbase hjoined).mpr hprefix,
    eq_or_exists_of_prefix hbase hjoined hprefix⟩

/-- The base goes up beyond the top and has both slashes, the rest has pieces that take no step, and
what is joined last goes up from both. -/
theorem odd_join_laws :
    let a := "../Docs\\old/..\\help/"
    let b := ".\\notes//a.txt"
    ¬GoesUp b ∧ ¬IsCanonical a ∧ normalize a = "Docs/help" ∧ normalize a ≠ a ∧
      join a b = "Docs/help/notes/a.txt" ∧ contains (normalize a) (join a b) = true ∧
      join (join a b) "../../..\\b.txt" = "Docs/b.txt" := by
  intro a b
  obtain ⟨-, hcanonical, -, -, hjoin, hbelow⟩ := join_laws a b "../../..\\b.txt"
  have hup : ¬GoesUp b := by decide +kernel
  have hne : normalize a ≠ a := by decide +kernel
  obtain ⟨-, hcontains, -⟩ := hbelow hup
  refine ⟨hup, fun h => hne (hcanonical.mpr h), by decide +kernel, hne, by decide +kernel,
    hcontains, ?_⟩
  rw [hjoin]
  decide +kernel

/-- A rest that goes up may leave the base. -/
example : GoesUp "../helper" ∧ contains (normalize "Docs/help") (join "Docs/help" "../helper") =
    false := by
  decide +kernel

end HelpAudit.Resource
