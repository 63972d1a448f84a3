import HelpAudit.Proofs.FilePath
import HelpAudit.FileTree

/-! Walks through a directory tree, one piece of a written path after the other. -/
namespace HelpAudit.FileTree

namespace Place

variable {p q : Place} {name : String}

theorem walk?_of_isFile (h : p.node.isFolder = false) (piece : List Char) :
    p.walk? piece = none := by
  simp [walk?, h]

/-- A piece that takes no step stays in a folder. -/
theorem walk?_of_not_takesStep {piece : List Char} (h : FilePath.takesStep piece = false) :
    p.walk? piece = if p.node.isFolder then some p else none := by
  cases hfolder : p.node.isFolder <;> simp [walk?, hfolder, h]

theorem walk?_of_isName {piece : List Char} (h : FilePath.IsName piece) :
    p.walk? piece = p.child? (.ofList piece) := by
  cases hfolder : p.node.isFolder with
  | false =>
    rw [walk?_of_isFile hfolder, child?, FileTree.child?]
    cases hnode : p.node with
    | file => rfl
    | folder => simp [hnode, isFolder] at hfolder
  | true => simp [walk?, hfolder, h.1, h.2]

theorem walk?_of_isPlain (h : Resource.IsPlain name.toList) :
    p.walk? name.toList = p.child? name := by
  rw [walk?_of_isName (FilePath.isName_of_isPlain h), String.ofList_toList]

/-- A piece that takes no step may be left out before another piece. -/
theorem walk?_bind_walk? {piece : List Char} (h : FilePath.takesStep piece = false)
    (next : List Char) : (p.walk? piece).bind (·.walk? next) = p.walk? next := by
  rw [walk?_of_not_takesStep h]
  cases hfolder : p.node.isFolder with
  | false => exact (walk?_of_isFile hfolder next).symm
  | true => rfl

theorem walk?_nil_eq_some_iff : p.walk? [] = some q ↔ p.node.isFolder = true ∧ p = q := by
  rw [walk?_of_not_takesStep rfl, Option.ite_none_right_eq_some, Option.some_inj]

/-- On the way to a folder, the pieces that take no step may be left out. -/
theorem walk_filter (pieces : List (List Char)) (p : Place) :
    (pieces.foldlM walk? p).bind (·.walk? []) =
      ((pieces.filter FilePath.takesStep).foldlM walk? p).bind (·.walk? []) := by
  induction pieces generalizing p with
  | nil => rfl
  | cons piece pieces ih =>
    by_cases hstep : FilePath.takesStep piece = true
    · rw [List.filter_cons_of_pos hstep, List.foldlM_cons, List.foldlM_cons]
      cases p.walk? piece with
      | none => rfl
      | some q => exact ih q
    · rw [List.filter_cons_of_neg hstep, List.foldlM_cons,
        walk?_of_not_takesStep (Bool.not_eq_true _ ▸ hstep)]
      cases hfolder : p.node.isFolder with
      | true => exact ih p
      | false =>
        -- A file is neither walked through nor is it a folder itself.
        cases pieces.filter FilePath.takesStep with
        | nil => exact (walk?_of_isFile hfolder []).symm
        | cons next rest =>
          rw [List.foldlM_cons, walk?_of_isFile hfolder next]
          rfl

/-- Neither do they count before one more piece. -/
theorem walk_filter_bind (pieces : List (List Char)) (p : Place) (next : List Char) :
    (pieces.foldlM walk? p).bind (·.walk? next) =
      ((pieces.filter FilePath.takesStep).foldlM walk? p).bind (·.walk? next) := by
  have hblank : (·.walk? next) = fun q : Place => (q.walk? []).bind (·.walk? next) :=
    funext fun q => (walk?_bind_walk? rfl next).symm
  rw [hblank, ← Option.bind_assoc, walk_filter, Option.bind_assoc]

/-- Wherever a walk ends, it ends there without the pieces that take no step. -/
theorem walk_steps {pieces : List (List Char)} (h : pieces.foldlM walk? p = some q) :
    (pieces.filter FilePath.takesStep).foldlM walk? p = some q := by
  induction pieces generalizing p with
  | nil => exact h
  | cons piece pieces ih =>
    rw [List.foldlM_cons] at h
    obtain ⟨r, hr, hrest⟩ := Option.bind_eq_some_iff.mp h
    by_cases hstep : FilePath.takesStep piece = true
    · rw [List.filter_cons_of_pos hstep, List.foldlM_cons, hr]
      exact ih hrest
    · rw [walk?_of_not_takesStep (Bool.not_eq_true _ ▸ hstep),
        Option.ite_none_right_eq_some] at hr
      obtain ⟨-, heq⟩ := hr
      cases heq
      rw [List.filter_cons_of_neg hstep]
      exact ih hrest

/-- A walk to a folder ends there with them too. -/
theorem walk_of_steps {pieces : List (List Char)} (hfolder : q.node.isFolder = true)
    (h : (pieces.filter FilePath.takesStep).foldlM walk? p = some q) :
    pieces.foldlM walk? p = some q := by
  have hfilter := walk_filter pieces p
  rw [h, Option.bind_some, walk?_nil_eq_some_iff.mpr ⟨hfolder, rfl⟩] at hfilter
  obtain ⟨r, hr, hrq⟩ := Option.bind_eq_some_iff.mp hfilter
  rw [hr, (walk?_nil_eq_some_iff.mp hrq).2]

/-- A canonical path is walked by its segments. -/
theorem walk_render {segs : List Resource.Segment} (hplain : ∀ s ∈ segs, Resource.IsPlain s)
    (hfolder : p.node.isFolder = true) :
    (FilePath.pieces (Resource.render segs)).foldlM walk? p = segs.foldlM walk? p := by
  cases segs with
  | nil =>
    have hempty : FilePath.pieces (Resource.render []) = [[]] := FilePath.pieces_empty
    rw [hempty, List.foldlM_cons, walk?_nil_eq_some_iff.mpr ⟨hfolder, rfl⟩]
    rfl
  | cons s segs => rw [FilePath.pieces_render (List.cons_ne_nil s segs) hplain]

end Place

variable {t : FileTree} {cwd path root rest : String}

theorem find?_of_isAbsolute (t : FileTree) (cwd : String) (h : FilePath.isAbsolute path = true) :
    t.find? cwd path = (FilePath.pieces path).foldlM Place.walk? (Place.top t) := by
  rw [find?, FilePath.join_of_isAbsolute cwd h, if_neg]
  simpa using FilePath.ne_empty_of_isAbsolute h

/-- A joined path leads through its first part and on from there. -/
theorem walk_join (hroot : FilePath.isAbsolute root = true)
    (hrest : FilePath.isAbsolute rest = false) (p : Place) :
    (FilePath.pieces (FilePath.join root rest)).foldlM Place.walk? p =
      ((FilePath.pieces root).foldlM Place.walk? p).bind
        ((FilePath.pieces rest).foldlM Place.walk? ·) := by
  obtain ⟨front, rfl | rfl, hjoin⟩ :=
    FilePath.join_eq (FilePath.ne_empty_of_isAbsolute hroot) hrest
  · rw [hjoin, FilePath.pieces_append_slash, List.foldlM_append]
    rfl
  · obtain ⟨first, later, hlater⟩ := List.exists_cons_of_ne_nil
      (List.splitOnP_ne_nil (· == '/') rest.toList)
    rw [hjoin, FilePath.pieces_append_slash, FilePath.pieces_slash, List.foldlM_append,
      List.foldlM_append,
      FilePath.pieces.eq_def rest, hlater]
    cases (FilePath.pieces front).foldlM Place.walk? p with
    | none => rfl
    | some q =>
      -- The slash at the end of the first part leaves an empty piece behind.
      have hblank : (q.walk? []).bind (·.walk? first) = q.walk? first :=
        Place.walk?_bind_walk? rfl first
      simp only [Option.bind_eq_bind, Option.bind_some, List.foldlM_cons, List.foldlM_nil,
        Option.pure_def, Option.bind_fun_some]
      rw [← hblank, Option.bind_assoc]

/-- A relative path leads on from the working directory. -/
theorem find?_of_relative (t : FileTree) (hcwd : FilePath.isAbsolute cwd = true)
    (h : FilePath.isAbsolute path = false) (hne : path ≠ "") :
    t.find? cwd path = ((FilePath.pieces cwd).foldlM Place.walk? (Place.top t)).bind
      ((FilePath.pieces path).foldlM Place.walk? ·) := by
  rw [find?, walk_join hcwd h, if_neg]
  simpa using hne

end HelpAudit.FileTree
