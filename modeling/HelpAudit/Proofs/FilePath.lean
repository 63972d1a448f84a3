import HelpAudit.FilePath
import HelpAudit.Proofs.Resource

/-!
Paths of the file system put together. The pieces of a joined path are those of its parts, but for
the empty one behind a slash at the end of the first, and an absolute path goes on from another one
when its steps do.
-/
namespace HelpAudit.FilePath

variable {base path root rest : String}

@[simp] theorem pieces_empty : pieces "" = [[]] := by
  simp [pieces]

theorem pieces_append_slash (base rest : String) :
    pieces (base ++ "/" ++ rest) = pieces base ++ pieces rest := by
  have htext : (base ++ "/" ++ rest).toList = base.toList ++ '/' :: rest.toList := by simp
  rw [pieces, htext, List.splitOnP_append_cons _ _ rfl]
  rfl

/-- A slash at the end leaves an empty piece behind. -/
@[simp] theorem pieces_slash (base : String) : pieces (base ++ "/") = pieces base ++ [[]] := by
  have h := pieces_append_slash base ""
  rwa [String.append_empty, pieces_empty] at h

theorem pieces_render {segs : List Resource.Segment} (hne : segs ≠ [])
    (h : ∀ s ∈ segs, Resource.IsPlain s) : pieces (Resource.render segs) = segs :=
  Resource.splitOnP_slash_render hne h

theorem isAbsolute_render {segs : List Resource.Segment} (h : ∀ s ∈ segs, Resource.IsPlain s) :
    isAbsolute (Resource.render segs) = false := by
  cases segs with
  | nil => rfl
  | cons s segs =>
    obtain ⟨hne, -, -, hseparator⟩ := h s List.mem_cons_self
    obtain ⟨c, cs, rfl⟩ := List.exists_cons_of_ne_nil hne
    have hc := hseparator c List.mem_cons_self
    rw [Resource.isSeparator, Bool.or_eq_false_iff] at hc
    have hhead : (Resource.render ((c :: cs) :: segs)).toList.head? = some c := by
      cases segs <;> simp
    rw [isAbsolute, hhead]
    exact hc.1

section Name

variable {name : String} (h : Resource.IsPlain name.toList)
include h

theorem pieces_of_isPlain : pieces name = [name.toList] := by
  have hpieces := pieces_render (List.cons_ne_nil name.toList []) (List.forall_mem_singleton.mpr h)
  rwa [Resource.render_singleton, String.ofList_toList] at hpieces

theorem isAbsolute_of_isPlain : isAbsolute name = false := by
  have hrelative := isAbsolute_render (List.forall_mem_singleton.mpr h)
  rwa [Resource.render_singleton, String.ofList_toList] at hrelative

end Name

theorem isAbsolute_append (h : isAbsolute base = true) (rest : String) :
    isAbsolute (base ++ rest) = true := by
  rw [isAbsolute, beq_iff_eq] at h ⊢
  rw [String.toList_append, List.head?_append, h, Option.some_or]

theorem ne_empty_of_isAbsolute (h : isAbsolute path = true) : path ≠ "" := by
  rintro rfl
  cases h

theorem join_of_isAbsolute (base : String) (h : isAbsolute rest = true) :
    join base rest = rest := by
  rw [join, h, Bool.true_or, if_pos rfl]

/-- A path ends in a slash or goes on behind one. -/
theorem join_eq (hbase : base ≠ "") (hrest : isAbsolute rest = false) :
    ∃ front, (base = front ∨ base = front ++ "/") ∧ join base rest = front ++ "/" ++ rest := by
  have hne : base.isEmpty = false := by
    simpa using hbase
  rw [join, hrest, hne, Bool.or_false, if_neg Bool.false_ne_true]
  split
  · next hlast =>
    obtain ⟨cs, hcs⟩ := List.getLast?_eq_some_iff.mp hlast
    have hfront : base = String.ofList cs ++ "/" := by
      apply String.toList_injective
      rw [hcs, String.toList_append, String.toList_ofList]
      rfl
    exact ⟨String.ofList cs, .inr hfront, by rw [hfront]⟩
  · exact ⟨base, .inl rfl, rfl⟩

theorem join_empty (h : isAbsolute rest = false) : join "" rest = rest := by
  rw [join, h, Bool.false_or, if_pos (by simp)]

/-- A relative path goes on below a root or below none, as the path in front of it does. -/
theorem isAbsolute_join_eq (base : String) (hrest : isAbsolute rest = false) :
    isAbsolute (join base rest) = isAbsolute base := by
  by_cases hne : base = ""
  · rw [hne, join_empty hrest, hrest]
    rfl
  · obtain ⟨front, hfront, hjoin⟩ := join_eq hne hrest
    rw [hjoin, isAbsolute, isAbsolute]
    cases htext : front.toList with
    | nil =>
      obtain rfl : front = "" := String.toList_injective htext
      obtain rfl := hfront.resolve_left hne
      simp
    | cons c cs => rcases hfront with rfl | rfl <;> simp [htext]

theorem isAbsolute_join (hbase : isAbsolute base = true) (rest : String) :
    isAbsolute (join base rest) = true := by
  by_cases hrest : isAbsolute rest = true
  · rwa [join_of_isAbsolute base hrest]
  · rwa [isAbsolute_join_eq base (Bool.eq_false_iff.mpr hrest)]

/-- A joined path starts as its first part does. -/
theorem head?_pieces_join (hbase : base ≠ "") (hrest : isAbsolute rest = false) :
    (pieces (join base rest)).head? = (pieces base).head? := by
  obtain ⟨front, hfront, hjoin⟩ := join_eq hbase hrest
  obtain ⟨first, later, hfirst⟩ := List.exists_cons_of_ne_nil
    (List.splitOnP_ne_nil (· == '/') front.toList)
  change pieces front = first :: later at hfirst
  rw [hjoin, pieces_append_slash, hfirst]
  rcases hfront with rfl | rfl
  · rw [hfirst]
    rfl
  · rw [pieces_slash, hfirst]
    rfl

/-- A piece that names an entry of a folder. -/
def IsName (piece : List Char) : Prop := takesStep piece = true ∧ piece ≠ ['.', '.']

theorem isName_of_isPlain {s : Resource.Segment} (h : Resource.IsPlain s) : IsName s :=
  ⟨by simp [takesStep, h.1, h.2.1], h.2.2.1⟩

/-- The pieces of a path that take a step. -/
def steps (path : String) : List (List Char) := (pieces path).filter takesStep

theorem steps_append_slash (base rest : String) :
    steps (base ++ "/" ++ rest) = steps base ++ steps rest := by
  rw [steps, pieces_append_slash, List.filter_append]
  rfl

@[simp] theorem steps_slash (base : String) : steps (base ++ "/") = steps base := by
  rw [steps, pieces_slash, List.filter_append, List.filter_singleton]
  exact List.append_nil _

theorem steps_join (base : String) (hrest : isAbsolute rest = false) :
    steps (join base rest) = steps base ++ steps rest := by
  by_cases hne : base = ""
  · rw [hne, join_empty hrest]
    rfl
  · obtain ⟨front, rfl | rfl, hjoin⟩ := join_eq hne hrest
    · rw [hjoin, steps_append_slash]
    · rw [hjoin, steps_append_slash, steps_slash]

/-- Each plain segment takes a step. -/
theorem steps_render {segs : List Resource.Segment} (h : ∀ s ∈ segs, Resource.IsPlain s) :
    steps (Resource.render segs) = segs := by
  cases segs with
  | nil => decide
  | cons s segs =>
    rw [steps, pieces_render (by simp) h, List.filter_eq_self]
    intro u hu
    obtain ⟨hempty, hhere, -⟩ := h u hu
    simp [takesStep, hempty, hhere]

/-- An absolute path has nothing in front of its first slash. -/
theorem exists_pieces_of_isAbsolute (h : isAbsolute path = true) :
    ∃ rest, pieces path = [] :: rest := by
  rw [isAbsolute, beq_iff_eq, List.head?_eq_some_iff] at h
  obtain ⟨cs, hcs⟩ := h
  exact ⟨cs.splitOnP (· == '/'), by simp [pieces, hcs, List.splitOnP_cons_eq_if_modifyHead]⟩

theorem components_of_isAbsolute (h : isAbsolute path = true) :
    components path = .root :: (steps path).map .ofPiece := by
  obtain ⟨rest, hrest⟩ := exists_pieces_of_isAbsolute h
  rw [components, steps, hrest]
  simp [h, takesStep]

theorem text_ofPiece (piece : List Char) : (Component.ofPiece piece).text = piece := by
  unfold Component.ofPiece
  split <;> rfl

@[simp] theorem map_text_map_ofPiece (pieces : List (List Char)) :
    (pieces.map Component.ofPiece).map (·.text) = pieces := by
  rw [List.map_map]
  exact List.map_id'' text_ofPiece pieces

/-- From a path to one that goes on from it lead the components behind. -/
theorem route?_append (base more : List Component) :
    route? false base (base ++ more) = some more := by
  induction base with
  | nil => cases more <;> rfl
  | cons c base ih => simp [route?, ih]

/-- An absolute path with the steps of another in front is written below it by the steps behind. -/
theorem relative?_of_steps (hroot : isAbsolute root = true) (hpath : isAbsolute path = true)
    {more : List (List Char)} (h : steps path = steps root ++ more) :
    relative? path root = some (render more) := by
  have hway : way? path root = some (more.map .ofPiece) := by
    rw [way?, hroot, hpath, if_pos (by decide), components_of_isAbsolute hroot,
      components_of_isAbsolute hpath, h, List.map_append, ← List.cons_append, route?_append]
  rw [relative?, hway, Option.map_some, map_text_map_ofPiece]

end HelpAudit.FilePath
