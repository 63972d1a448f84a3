import HelpAudit.Proofs.Route
import HelpAudit.Settings.Discovery
import Mathlib.Data.List.TakeWhile

/-!
The way up from a written path. A parent has all components of its path but the last and is written
shorter, so the way ends at a path without one. A search on this way finds the nearest place, the
one with the most components, if where it stops depends on components alone.
-/
namespace HelpAudit.FilePath

variable {path above : String}

theorem render_pieces (path : String) : render (pieces path) = path := by
  have htext : ['/'].intercalate (path.toList.splitOn '/') = path.toList :=
    List.intercalate_splitOn '/'
  rw [render, pieces]
  exact (congrArg String.ofList htext).trans String.ofList_toList

theorem pieces_render_of_forall {segs : List (List Char)} (hne : segs ≠ [])
    (h : ∀ s ∈ segs, ∀ c ∈ s, (c == '/') = false) : pieces (render segs) = segs := by
  rw [pieces, render, String.toList_ofList]
  exact Resource.splitOnP_intercalate rfl hne h

theorem length_le_intercalate {segs : List (List Char)} {s : List Char} (h : s ∈ segs) :
    s.length ≤ (['/'].intercalate segs).length := by
  induction segs with
  | nil => cases h
  | cons first segs ih =>
    cases segs with
    | nil => simp [List.mem_singleton.mp h]
    | cons second segs =>
      rw [List.intercalate_cons_cons, List.length_append, List.length_append]
      rcases List.mem_cons.mp h with rfl | h
      · omega
      · have hrest := ih h
        omega

theorem render_ne_empty {segs : List (List Char)} {s : List Char} (h : s ∈ segs) (hne : s ≠ []) :
    render segs ≠ "" := by
  intro hempty
  have htext : ['/'].intercalate segs = [] := by
    rw [← String.toList_ofList (l := ['/'].intercalate segs)]
    exact congrArg String.toList hempty
  have hlength := length_le_intercalate h
  rw [htext, List.length_nil, Nat.le_zero, List.length_eq_zero_iff] at hlength
  exact hne hlength

/-- Pieces that are left out at the end make a path shorter, unless it was empty. -/
theorem length_render_lt {front back : List (List Char)} (hne : front ++ back ≠ front)
    (hempty : front ≠ [] ∨ render (front ++ back) ≠ "") :
    (render front).length < (render (front ++ back)).length := by
  have hback : back ≠ [] := fun h => hne (by rw [h, List.append_nil])
  by_cases hfront : front = []
  · have hpath := hempty.resolve_left (not_not.mpr hfront)
    subst hfront
    have hlength : (render []).length = 0 := rfl
    rw [hlength]
    exact Nat.pos_of_ne_zero (mt String.length_eq_zero_iff.mp hpath)
  · have happend := Resource.render_append hfront hback
    change render (front ++ back) = render front ++ "/" ++ render back at happend
    rw [happend, String.length_append, String.length_append]
    have hslash : "/".length = 1 := rfl
    omega

theorem trimRelative_suffix (segs : List (List Char)) : trimRelative segs <:+ segs := by
  fun_induction trimRelative segs with
  | case1 => exact List.suffix_refl _
  | case2 => exact List.nil_suffix
  | case3 => exact List.suffix_refl _
  | case4 => exact List.suffix_refl _
  | case5 p ps _ _ ih => exact ih.trans (List.suffix_cons p ps)

/-- What is dropped from the front takes no step. -/
theorem exists_eq_append_dropWhile (segs : List (List Char)) : ∃ passed,
    segs = passed ++ segs.dropWhile (!takesStep ·) ∧ passed.filter takesStep = [] := by
  refine ⟨segs.takeWhile (!takesStep ·), List.takeWhile_append_dropWhile.symm, ?_⟩
  refine List.filter_eq_nil_iff.mpr fun s hs => ?_
  simpa using List.mem_takeWhile_imp (p := (!takesStep ·)) hs

/-- The pieces of an absolute path with a parent: those of the parent, the last one that takes a
step, and others that take none. -/
theorem exists_pieces_of_parent? (habsolute : isAbsolute path = true)
    (h : parent? path = some above) : ∃ front gap last tail,
      pieces path = [] :: (front ++ (gap ++ last :: tail)) ∧ gap.filter takesStep = [] ∧
        takesStep last = true ∧ tail.filter takesStep = [] ∧ above = "/" ++ render front := by
  obtain ⟨rest, hrest⟩ := exists_pieces_of_isAbsolute habsolute
  rw [parent?, if_pos habsolute, hrest, List.tail_cons] at h
  split at h
  · cases h
  · next last before hlast =>
    obtain ⟨tail, hrest', htail⟩ := exists_eq_append_dropWhile rest.reverse
    obtain ⟨gap, hbefore, hgap⟩ := exists_eq_append_dropWhile before
    have hstep := List.head?_dropWhile_not (!takesStep ·) rest.reverse
    rw [hlast] at hrest' hstep
    refine ⟨(before.dropWhile (!takesStep ·)).reverse, gap.reverse, last, tail.reverse, ?_,
      by rw [List.filter_reverse, hgap, List.reverse_nil], by simpa using hstep,
      by rw [List.filter_reverse, htail, List.reverse_nil], (Option.some.inj h).symm⟩
    rw [hrest, ← List.append_assoc, ← List.reverse_append, ← hbefore]
    simpa using congrArg List.reverse hrest'

theorem steps_eq_nil_of_parent? (habsolute : isAbsolute path = true) (h : parent? path = none) :
    steps path = [] := by
  obtain ⟨rest, hrest⟩ := exists_pieces_of_isAbsolute habsolute
  rw [parent?, if_pos habsolute, hrest, List.tail_cons] at h
  split at h
  · next hnone =>
    obtain ⟨passed, hrest', hpassed⟩ := exists_eq_append_dropWhile rest.reverse
    rw [hnone, List.append_nil] at hrest'
    rw [steps, hrest, List.filter_cons_of_neg (by decide), ← List.reverse_reverse rest, hrest',
      List.filter_reverse, hpassed, List.reverse_nil]
  · cases h

theorem steps_render_of_forall {segs : List (List Char)}
    (h : ∀ s ∈ segs, ∀ c ∈ s, (c == '/') = false) : steps (render segs) = segs.filter takesStep := by
  by_cases hnil : segs = []
  · subst hnil
    decide
  · rw [steps, pieces_render_of_forall hnil h]

/-- The parent of an absolute path has all its steps but the last. -/
theorem steps_of_parent? (habsolute : isAbsolute path = true) (h : parent? path = some above) :
    isAbsolute above = true ∧ ∃ last, steps path = steps above ++ [last] := by
  obtain ⟨front, gap, last, tail, hpieces, hgap, hlast, htail, rfl⟩ :=
    exists_pieces_of_parent? habsolute h
  have hfront : ∀ s ∈ front, ∀ c ∈ s, (c == '/') = false := fun s hs =>
    Resource.eq_false_of_mem_splitOnP (show s ∈ pieces path by simp [hpieces, hs])
  have habove : steps ("/" ++ render front) = front.filter takesStep := by
    have hslash := steps_append_slash "" (render front)
    rw [steps_render_of_forall hfront] at hslash
    exact hslash
  refine ⟨by simp [isAbsolute], last, ?_⟩
  rw [habove, steps, hpieces, List.filter_cons_of_neg (by decide), List.filter_append,
    List.filter_append, hgap, List.nil_append, List.filter_cons_of_pos hlast, htail]

theorem render_nil_cons {segs : List (List Char)} (hne : segs ≠ []) :
    render ([] :: segs) = "/" ++ render segs := by
  obtain ⟨s, segs, rfl⟩ := List.exists_cons_of_ne_nil hne
  apply String.toList_injective
  simp [render, List.intercalate_cons_cons]

/-- A path is longer than its parent. -/
theorem length_lt_of_parent? (h : parent? path = some above) : above.length < path.length := by
  rw [← render_pieces path]
  cases habsolute : isAbsolute path with
  | true =>
    obtain ⟨front, gap, last, tail, hpieces, -, hlast, -, rfl⟩ :=
      exists_pieces_of_parent? habsolute h
    have hshorter : (render front).length < (render (front ++ (gap ++ last :: tail))).length := by
      apply length_render_lt (by simp)
      right
      apply render_ne_empty (s := last) (by simp)
      rintro rfl
      cases hlast
    rw [hpieces, render_nil_cons (by simp), String.length_append, String.length_append]
    omega
  | false =>
    have hne : path ≠ "" := by
      rintro rfl
      cases h
    rw [parent?, habsolute, if_neg Bool.false_ne_true] at h
    split at h
    · cases h
    · next last before hlast =>
      cases h
      obtain ⟨tail, htail⟩ := trimRelative_suffix (pieces path).reverse
      obtain ⟨gap, hgap⟩ := trimRelative_suffix before
      have hpieces : pieces path =
          (trimRelative before).reverse ++ (gap.reverse ++ last :: tail.reverse) := by
        rw [hlast, ← hgap] at htail
        simpa using (congrArg List.reverse htail).symm
      rw [hpieces]
      apply length_render_lt (by simp)
      right
      rwa [← hpieces, render_pieces]

/-- Fuel beyond the length of a path is never used up. -/
theorem climb_eq_of_length_lt {fuel more : Nat} {path : String} (h : path.length < fuel)
    (hmore : path.length < more) : upward.climb fuel path = upward.climb more path := by
  induction fuel generalizing more path with
  | zero => omega
  | succ fuel ih =>
    obtain ⟨more, rfl⟩ := Nat.exists_eq_add_one_of_ne_zero (Nat.ne_zero_of_lt hmore)
    rw [upward.climb, upward.climb]
    cases hparent : parent? path with
    | none => rfl
    | some above =>
      have hshorter := length_lt_of_parent? hparent
      exact congrArg (path :: ·) (ih (by omega) (by omega))

theorem upward_of_parent? (h : parent? path = some above) :
    upward path = path :: upward above := by
  have hshorter := length_lt_of_parent? h
  rw [upward, upward.climb, h, upward]
  exact congrArg (path :: ·) (climb_eq_of_length_lt hshorter (Nat.lt_succ_self _))

theorem upward_of_parent?_eq_none (h : parent? path = none) : upward path = [path] := by
  rw [upward, upward.climb, h]

/-- A search that goes up from a folder until it comes to a place where it stops. Where nothing is
above, it gives the place where it started. -/
inductive Ascends (stops : String → Bool) (start : String) : String → String → Prop where
  | stop {folder : String} (here : stops folder = true) : Ascends stops start folder folder
  | climb {folder above found : String} (here : stops folder = false)
      (parent : parent? folder = some above) (rest : Ascends stops start above found) :
      Ascends stops start folder found
  | top {folder : String} (here : stops folder = false) (parent : parent? folder = none) :
      Ascends stops start folder start

theorem ascends_find? (stops : String → Bool) (start folder : String) :
    Ascends stops start folder (((upward folder).find? stops).getD start) := by
  -- On the length of the path: every parent is written shorter.
  induction hlength : folder.length using Nat.strong_induction_on generalizing folder with
  | _ length ih =>
    subst hlength
    cases hhere : stops folder with
    | true =>
      obtain ⟨rest, hrest⟩ : ∃ rest, upward folder = folder :: rest := ⟨_, rfl⟩
      rw [hrest, List.find?_cons_of_pos hhere]
      exact .stop hhere
    | false =>
      have hnot : ¬stops folder = true := by rw [hhere]; exact Bool.false_ne_true
      cases hparent : parent? folder with
      | none =>
        rw [upward_of_parent?_eq_none hparent, List.find?_cons_of_neg hnot]
        exact .top hhere hparent
      | some above =>
        rw [upward_of_parent? hparent, List.find?_cons_of_neg hnot]
        exact .climb hhere hparent (ih above.length (length_lt_of_parent? hparent) above rfl)

/-- An absolute path that is another one or lies above it, by the components. -/
def AtOrAbove (above path : String) : Prop :=
  isAbsolute above = true ∧ components above <+: components path

/-- The nearest path at or above another one that has a property. Where none has it, this is
`otherwise`. -/
inductive IsNearest (has : String → Prop) (otherwise path : String) : String → Prop where
  | nearest {found : String} (above : AtOrAbove found path) (here : has found)
      (nearest : ∀ q, AtOrAbove q path → has q → AtOrAbove q found) :
      IsNearest has otherwise path found
  | none (none : ∀ q, AtOrAbove q path → ¬has q) : IsNearest has otherwise path otherwise

theorem AtOrAbove.refl (h : isAbsolute path = true) : AtOrAbove path path :=
  ⟨h, List.prefix_refl _⟩

theorem components_of_parent? (habsolute : isAbsolute path = true)
    (h : parent? path = some above) : ∃ last, components path = components above ++ [last] := by
  obtain ⟨habove, last, hsteps⟩ := steps_of_parent? habsolute h
  refine ⟨.ofPiece last, ?_⟩
  rw [components_of_isAbsolute habsolute, components_of_isAbsolute habove, hsteps, List.map_append]
  rfl

/-- At or above a path lie those with its components and what lies at or above its parent. -/
theorem atOrAbove_iff_of_parent? (habsolute : isAbsolute path = true)
    (h : parent? path = some above) {q : String} : AtOrAbove q path ↔
      isAbsolute q = true ∧ components q = components path ∨ AtOrAbove q above := by
  obtain ⟨last, hlast⟩ := components_of_parent? habsolute h
  rw [AtOrAbove, AtOrAbove, hlast, List.prefix_concat_iff, and_or_left]

theorem atOrAbove_iff_of_parent?_eq_none (habsolute : isAbsolute path = true)
    (h : parent? path = none) {q : String} :
    AtOrAbove q path ↔ isAbsolute q = true ∧ components q = components path := by
  have hpath := components_of_isAbsolute habsolute
  rw [steps_eq_nil_of_parent? habsolute h] at hpath
  refine and_congr_right fun hq => ⟨fun hprefix => ?_, fun heq => heq ▸ List.prefix_refl _⟩
  rw [hpath] at hprefix ⊢
  rw [components_of_isAbsolute hq] at hprefix ⊢
  exact hprefix.eq_of_length_le (by simp)

variable {stops : String → Bool} {has : String → Prop} {start folder found otherwise : String}

theorem IsNearest.of_parent? (h : IsNearest has otherwise above found)
    (habsolute : isAbsolute path = true) (hparent : parent? path = some above)
    (hnot : ∀ q, isAbsolute q = true → components q = components path → ¬has q) :
    IsNearest has otherwise path found := by
  have hiff {q : String} := atOrAbove_iff_of_parent? habsolute hparent (q := q)
  cases h with
  | nearest hfound hhas hnearest =>
    refine .nearest (hiff.mpr (.inr hfound)) hhas fun q hq hhasq => ?_
    rcases hiff.mp hq with ⟨habsoluteq, hsame⟩ | hq
    · exact absurd hhasq (hnot q habsoluteq hsame)
    · exact hnearest q hq hhasq
  | none hnone =>
    refine .none fun q hq => ?_
    rcases hiff.mp hq with ⟨habsoluteq, hsame⟩ | hq
    · exact hnot q habsoluteq hsame
    · exact hnone q hq

/-- A search that stops just where a path has a property finds the nearest one, if the components
of a path decide whether it has it. -/
theorem Ascends.isNearest (h : Ascends stops start folder found)
    (hfolder : isAbsolute folder = true)
    (hstops : ∀ q, AtOrAbove q folder → (stops q = true ↔ has q))
    (hsame : ∀ q r, isAbsolute q = true → isAbsolute r = true →
      components q = components r → has q → has r) :
    IsNearest has start folder found := by
  have hnot {folder : String} (hfolder : isAbsolute folder = true)
      (hiff : stops folder = true ↔ has folder) (hhere : stops folder = false)
      (q : String) (hq : isAbsolute q = true) (heq : components q = components folder) :
      ¬has q := by
    intro hhas
    have hstop := hiff.mpr (hsame q folder hq hfolder heq hhas)
    rw [hhere] at hstop
    exact Bool.false_ne_true hstop
  induction h with
  | stop hhere =>
    exact .nearest (.refl hfolder) ((hstops _ (.refl hfolder)).mp hhere) fun _ hq _ => hq
  | climb hhere hparent _ ih =>
    -- Below the parent there are only other spellings of the path that was just passed.
    have habove := (steps_of_parent? hfolder hparent).1
    have hstopsAbove q (hq : AtOrAbove q _) :=
      hstops q ((atOrAbove_iff_of_parent? hfolder hparent).mpr (.inr hq))
    exact (ih habove hstopsAbove).of_parent? hfolder hparent
      (hnot hfolder (hstops _ (.refl hfolder)) hhere)
  | top hhere hparent =>
    refine .none fun q hq => ?_
    obtain ⟨hq, heq⟩ := (atOrAbove_iff_of_parent?_eq_none hfolder hparent).mp hq
    exact hnot hfolder (hstops _ (.refl hfolder)) hhere q hq heq

theorem IsNearest.atOrAbove {path : String} (h : IsNearest has path path found)
    (hpath : isAbsolute path = true) : AtOrAbove found path := by
  cases h with
  | nearest above => exact above
  | none => exact .refl hpath

end HelpAudit.FilePath
