import HelpAudit.Proofs.FilePath

/-!
Ways from a folder to a path, over the segments of resource paths and over the components of written
ones. A way leads back: joined to its folder it gives the path. For canonical paths both ways are
the same. Below a root lie the paths whose components go on from those of the root without going up.
-/
namespace HelpAudit.Resource

/-- As many steps up as there are segments lead out of them. -/
theorem foldl_step_up (a before : List Segment) :
    (a.map fun _ => ['.', '.']).foldl step (a.reverse ++ before) = before := by
  have hdrop (n : Nat) (stack : List Segment) :
      (List.replicate n ['.', '.']).foldl step stack = stack.drop n := by
    induction n generalizing stack with
    | zero => rfl
    | succ n ih =>
      have hup : step stack ['.', '.'] = stack.tail := rfl
      rw [List.replicate_succ, List.foldl_cons, hup, ih, List.drop_tail]
  rw [List.map_const', hdrop, ← List.length_reverse]
  exact List.drop_left

/-- The way from one folder to a path, taken in the folder, ends at the path. -/
theorem foldl_step_route {a b : List Segment} (hb : ∀ s ∈ b, IsPlain s) (before : List Segment) :
    (route a b).foldl step (a.reverse ++ before) = b.reverse ++ before := by
  induction a generalizing b before with
  | nil => exact foldl_step_of_isPlain hb before
  | cons s a ih =>
    cases b with
    | nil => exact foldl_step_up (s :: a) before
    | cons t b =>
      rw [route]
      split
      · next heq =>
        subst heq
        simpa using ih (fun u hu => hb u (List.mem_cons_of_mem _ hu)) (s :: before)
      · rw [List.foldl_append, foldl_step_up, foldl_step_of_isPlain hb]

/-- A folder joined with the way from it to a path gives the path. -/
theorem join_relative (base path : String) : join base (relative base path) = normalize path := by
  have hpieces : ∀ s ∈ route (segments base) (segments path), ∀ c ∈ s, isSeparator c = false := by
    intro s hs
    rcases mem_of_mem_route hs with rfl | hs
    · simp [isSeparator]
    · exact (isPlain_segments path s hs).2.2.2
  have hroute := foldl_step_route (a := segments base) (isPlain_segments path) []
  rw [List.append_nil, List.append_nil] at hroute
  rw [join, normalize, segments_append, relative, foldl_splitOnP_render hpieces, hroute,
    List.reverse_reverse, normalize]

end HelpAudit.Resource

namespace HelpAudit.FilePath

open Resource (Segment IsPlain IsCanonical)

variable {base path root : String}

theorem ofPiece_of_isPlain {s : Segment} (h : IsPlain s) : Component.ofPiece s = .name s := by
  obtain ⟨-, hhere, hup, -⟩ := h
  unfold Component.ofPiece
  split
  · exact absurd rfl hhere
  · exact absurd rfl hup
  · rfl

theorem map_ofPiece {segs : List Segment} (h : ∀ s ∈ segs, IsPlain s) :
    segs.map Component.ofPiece = segs.map .name :=
  List.map_congr_left fun s hs => ofPiece_of_isPlain (h s hs)

/-- The components of a relative path are the pieces that take a step, unless it starts with a
dot. -/
theorem components_of_isRelative (h : isAbsolute path = false)
    (hhead : (pieces path).head? ≠ some ['.']) : components path = (steps path).map .ofPiece := by
  obtain ⟨first, rest, hpieces⟩ :=
    List.exists_cons_of_ne_nil (List.splitOnP_ne_nil (· == '/') path.toList)
  change pieces path = first :: rest at hpieces
  rw [hpieces, List.head?_cons, ne_eq, Option.some_inj] at hhead
  rw [components, steps, hpieces]
  by_cases hempty : first = []
  · simp [h, hempty, takesStep]
  · have hstep : takesStep first = true := by simp [takesStep, hempty, hhead]
    simp [h, hempty, List.filter_cons_of_pos hstep]

theorem head?_components (h : (pieces path).head? = some ['.']) :
    (components path).head? = some .here := by
  obtain ⟨rest, hpieces⟩ := List.head?_eq_some_iff.mp h
  have hrelative : isAbsolute path = false := by
    rw [← Bool.not_eq_true]
    intro habsolute
    obtain ⟨rest', hpieces'⟩ := exists_pieces_of_isAbsolute habsolute
    rw [hpieces] at hpieces'
    cases hpieces'
  rw [components, hpieces]
  simp [hrelative, Component.ofPiece]

/-- A path that does not start with a dot has its root and the pieces that take a step. -/
theorem components_eq (h : (components path).head? ≠ some .here) : components path =
    (if isAbsolute path then [.root] else []) ++ (steps path).map .ofPiece := by
  cases habsolute : isAbsolute path with
  | true => exact components_of_isAbsolute habsolute
  | false => exact components_of_isRelative habsolute fun hhead => h (head?_components hhead)

theorem takesStep_of_mem_steps {s : Segment} (h : s ∈ steps path) : takesStep s = true :=
  (List.mem_filter.mp h).2

/-- A piece that takes a step is no dot. -/
theorem here_not_mem_map_ofPiece (path : String) : .here ∉ (steps path).map Component.ofPiece := by
  intro h
  obtain ⟨s, hs, hhere⟩ := List.mem_map.mp h
  have htext : s = ['.'] := by rw [← text_ofPiece s, hhere, Component.text]
  have hstep := takesStep_of_mem_steps hs
  rw [htext] at hstep
  exact absurd hstep (by decide)

theorem head?_components_iff :
    (components path).head? = some .here ↔ (pieces path).head? = some ['.'] := by
  refine ⟨fun h => ?_, head?_components⟩
  by_contra hhead
  cases habsolute : isAbsolute path with
  | true =>
    rw [components_of_isAbsolute habsolute] at h
    cases h
  | false =>
    rw [components_of_isRelative habsolute hhead] at h
    exact here_not_mem_map_ofPiece path (List.mem_of_mem_head? h)

/-- There is no dot but at the start. -/
theorem here_not_mem_components (h : (components path).head? ≠ some .here) :
    .here ∉ components path := by
  rw [components_eq h, List.mem_append, not_or]
  refine ⟨?_, here_not_mem_map_ofPiece path⟩
  split <;> simp

/-- The components of a canonical path are its segments. -/
theorem components_render {segs : List Segment} (h : ∀ s ∈ segs, IsPlain s) :
    components (Resource.render segs) = segs.map .name := by
  have hhead : (pieces (Resource.render segs)).head? ≠ some ['.'] := by
    cases segs with
    | nil => decide
    | cons s segs =>
      rw [pieces_render (List.cons_ne_nil s segs) h, List.head?_cons, ne_eq, Option.some_inj]
      exact (h s List.mem_cons_self).2.1
  rw [components_of_isRelative (isAbsolute_render h) hhead, steps_render h, map_ofPiece h]

/-- A root joined with a canonical path goes on with its segments. -/
theorem components_join (hroot : (components root).head? ≠ some .here) {segs : List Segment}
    (h : ∀ s ∈ segs, IsPlain s) :
    components (join root (Resource.render segs)) = components root ++ segs.map .name := by
  by_cases hne : root = ""
  · rw [hne, join_empty (isAbsolute_render h), components_render h]
    rfl
  · have hrelative := isAbsolute_render h
    have hhead : (components (join root (Resource.render segs))).head? ≠ some .here := by
      rw [ne_eq, head?_components_iff, head?_pieces_join hne hrelative, ← head?_components_iff]
      exact hroot
    rw [components_eq hhead, components_eq hroot, isAbsolute_join_eq root hrelative,
      steps_join root hrelative, steps_render h, List.map_append, map_ofPiece h,
      List.append_assoc]

/-- To the end of a way lead steps up from all that is left of the base. -/
theorem route?_nil (differ : Bool) (base : List Component) :
    route? differ base [] = some (base.map fun _ => .up) := by
  induction base generalizing differ with
  | nil => rfl
  | cons c base ih => rw [route?, ih, Option.map_some, List.map_cons]

/-- Over plain segments, the components lead where the segments do. -/
theorem route?_names (a : List Segment) {b : List Segment} (hb : ∀ s ∈ b, IsPlain s) :
    route? false (a.map .name) (b.map .name) = some ((Resource.route a b).map .ofPiece) := by
  induction a generalizing b with
  | nil =>
    rw [List.map_nil, route?, Resource.route, map_ofPiece hb]
  | cons s a ih =>
    cases b with
    | nil =>
      rw [List.map_nil, route?_nil, Resource.route, List.map_map, List.map_map]
      · rfl
      · exact List.cons_ne_nil s a
    | cons t b =>
      rw [List.map_cons, List.map_cons, route?, Resource.route]
      by_cases heq : s = t
      · rw [if_pos (by simp [heq]), if_pos heq, ih fun u hu => hb u (List.mem_cons_of_mem _ hu)]
      · have hup : (fun _ : Component => Component.up) ∘ Component.name =
            Component.ofPiece ∘ fun _ => ['.', '.'] := rfl
        rw [if_neg (by simp [heq]), if_neg (by simp), if_neg (by simp), if_neg heq,
          List.map_append, map_ofPiece hb, ← List.map_cons, ← List.map_cons, List.map_map,
          List.map_map, hup]

/-- The way to a canonical path is written the same over segments and over components. -/
theorem relative?_of_isCanonical (hbase : IsCanonical base) (hpath : IsCanonical path) :
    relative? path base = some (Resource.relative base path) := by
  obtain ⟨a, ha, rfl⟩ := hbase
  obtain ⟨b, hb, rfl⟩ := hpath
  rw [relative?, way?, isAbsolute_render ha, isAbsolute_render hb, if_pos (beq_self_eq_true _),
    components_render ha, components_render hb, route?_names a hb, Option.map_some,
    map_text_map_ofPiece, Resource.relative, Resource.segments_render ha,
    Resource.segments_render hb]
  rfl

/-- Plain segments all take a step, so nothing is dropped. -/
theorem trimRelative_of_isPlain {segs : List Segment} (h : ∀ s ∈ segs, IsPlain s) :
    trimRelative segs = segs := by
  match segs with
  | [] => rfl
  | [s] => simp [trimRelative, (h s List.mem_cons_self).1]
  | s :: t :: segs => simp [trimRelative, (isName_of_isPlain (h s List.mem_cons_self)).1]

/-- The parent of a canonical path is the folder that holds it. -/
theorem parent?_of_isCanonical (hpath : IsCanonical path) (hne : path ≠ "") :
    parent? path = some (Resource.folder path) := by
  have hsegs := Resource.segments_ne_nil hpath hne
  obtain ⟨segs, hplain, rfl⟩ := hpath
  rw [Resource.segments_render hplain] at hsegs
  rcases List.eq_nil_or_concat segs with rfl | ⟨before, last, rfl⟩
  · exact absurd rfl hsegs
  rw [List.concat_eq_append] at hplain hsegs ⊢
  have hreverse : (before ++ [last]).reverse = last :: before.reverse := by simp
  have hbefore : ∀ s ∈ before.reverse, IsPlain s := fun s hs =>
    hplain s (List.mem_append_left _ (List.mem_reverse.mp hs))
  have hall : ∀ s ∈ last :: before.reverse, IsPlain s := fun s hs =>
    hplain s (List.mem_reverse.mp (hreverse ▸ hs))
  rw [parent?, isAbsolute_render hplain, if_neg Bool.false_ne_true, pieces_render hsegs hplain,
    hreverse, trimRelative_of_isPlain hall]
  dsimp only
  rw [trimRelative_of_isPlain hbefore, List.reverse_reverse, Resource.folder,
    Resource.segments_render hplain, List.dropLast_concat]
  rfl

/-- A way from a base that is left has a step up. -/
theorem up_mem_of_route? {differ : Bool} {b : Component} {base path cs : List Component}
    (hhere : .here ∉ b :: base) (hleft : differ = true ∨ path.head? ≠ some b)
    (h : route? differ (b :: base) path = some cs) : .up ∈ cs := by
  cases path with
  | nil =>
    rw [route?] at h
    obtain ⟨rest, -, rfl⟩ := Option.map_eq_some_iff.mp h
    exact List.mem_cons_self
  | cons p path =>
    have hnot : ¬(!differ && decide (b = p)) = true := by
      rcases hleft with hdiffer | hhead
      · simp [hdiffer]
      · have hne : b ≠ p := fun heq => hhead (congrArg some heq.symm)
        simp [hne]
    have hdot : b ≠ .here := fun heq => hhere (heq ▸ List.mem_cons_self)
    rw [route?, if_neg hnot, if_neg hdot] at h
    split at h
    · cases h
    · cases h
      exact List.mem_append_left _ List.mem_cons_self

/-- A way without a step up is what a path has behind its base. -/
theorem route?_eq_some_iff {base path cs : List Component} (hhere : .here ∉ base)
    (hup : .up ∉ cs) : route? false base path = some cs ↔ path = base ++ cs := by
  constructor
  · intro h
    induction base generalizing path with
    | nil =>
      rw [route?] at h
      exact Option.some.inj h
    | cons b base ih =>
      by_cases hhead : path.head? = some b
      · obtain ⟨rest, rfl⟩ := List.head?_eq_some_iff.mp hhead
        rw [route?, if_pos (by simp)] at h
        rw [ih (fun hmem => hhere (List.mem_cons_of_mem b hmem)) h, List.cons_append]
      · exact absurd (up_mem_of_route? hhere (.inr hhead) h) hup
  · rintro rfl
    exact route?_append base cs

/-- The components of a path go on from those of a root and do not go up. -/
structure LeadsDown (root path : String) (more : List Component) : Prop where
  same : isAbsolute path = isAbsolute root
  goes_on : components path = components root ++ more
  down : .up ∉ more

section LeadsDown

variable {more : List Component} (hpath : (components path).head? ≠ some .here)
  (hroot : (components root).head? ≠ some .here)
include hpath hroot

theorem LeadsDown.map_ofPiece_steps (h : LeadsDown root path more) :
    (steps path).map Component.ofPiece = (steps root).map Component.ofPiece ++ more := by
  have hgoes := h.goes_on
  rw [components_eq hpath, components_eq hroot, h.same, List.append_assoc] at hgoes
  exact List.append_cancel_left hgoes

theorem LeadsDown.steps_eq (h : LeadsDown root path more) :
    steps path = steps root ++ more.map (·.text) := by
  have htext := congrArg (List.map (·.text)) (h.map_ofPiece_steps hpath hroot)
  rwa [List.map_append, map_text_map_ofPiece, map_text_map_ofPiece] at htext

/-- What a path has behind its root are pieces of it. -/
theorem LeadsDown.exists_of_mem (h : LeadsDown root path more) {c : Component} (hc : c ∈ more) :
    c.text ∈ steps path ∧ Component.ofPiece c.text = c := by
  have hmem := List.mem_append_right ((steps root).map Component.ofPiece) hc
  rw [← h.map_ofPiece_steps hpath hroot] at hmem
  obtain ⟨s, hs, rfl⟩ := List.mem_map.mp hmem
  rw [text_ofPiece]
  exact ⟨hs, rfl⟩

theorem LeadsDown.root_not_mem (h : LeadsDown root path more) : .root ∉ more := by
  intro hmem
  obtain ⟨hempty, -⟩ := h.exists_of_mem hpath hroot hmem
  exact absurd (takesStep_of_mem_steps hempty) (by decide)

/-- Without a backslash, they are plain segments. -/
theorem LeadsDown.isPlain (h : LeadsDown root path more) (hback : ∀ c ∈ more, '\\' ∉ c.text) :
    ∀ s ∈ more.map (·.text), IsPlain s := by
  intro s hs
  obtain ⟨c, hc, rfl⟩ := List.mem_map.mp hs
  obtain ⟨hmem, hpiece⟩ := h.exists_of_mem hpath hroot hc
  have hstep := takesStep_of_mem_steps hmem
  rw [takesStep, Bool.and_eq_true, bne_iff_ne, bne_iff_ne] at hstep
  refine ⟨hstep.1, hstep.2, fun hup => ?_, fun d hd => ?_⟩
  · rw [hup] at hpiece
    have heq : .up = c := hpiece
    exact h.down (heq ▸ hc)
  · have hslash := Resource.eq_false_of_mem_splitOnP (List.mem_filter.mp hmem).1 d hd
    have hne : d ≠ '\\' := fun heq => hback c hc (heq ▸ hd)
    rw [Resource.isSeparator, hslash, Bool.false_or, beq_eq_false_iff_ne]
    exact hne

/-- The ways that neither go up nor start at the top lead down from the root. -/
theorem way?_eq_some_iff :
    (way? path root = some more ∧ .up ∉ more ∧ .root ∉ more) ↔ LeadsDown root path more := by
  have hhere := here_not_mem_components hroot
  constructor
  · rintro ⟨hway, hup, htop⟩
    rw [way?] at hway
    split at hway
    · next hsame => exact ⟨eq_of_beq hsame, (route?_eq_some_iff hhere hup).mp hway, hup⟩
    · split at hway
      · next habsolute =>
        cases hway
        rw [components_of_isAbsolute habsolute] at htop
        exact absurd List.mem_cons_self htop
      · cases hway
  · intro h
    refine ⟨?_, h.down, h.root_not_mem hpath hroot⟩
    rw [way?, h.same, if_pos (beq_self_eq_true _)]
    exact (route?_eq_some_iff hhere h.down).mpr h.goes_on

/-- A path names a resource when it leads down from the root. -/
theorem resource?_eq_some_iff {resource : String} : resource? path root = some resource ↔
    ∃ more, LeadsDown root path more ∧
      resource = Resource.normalize (render (more.map (·.text))) := by
  rw [resource?]
  constructor
  · intro h
    split at h
    · cases h
    · next more hway =>
      split at h
      · cases h
      · next hdown =>
        rw [Bool.or_eq_true, List.contains_iff_mem, List.contains_iff_mem, not_or] at hdown
        have hdown := (way?_eq_some_iff hpath hroot).mp ⟨hway, hdown⟩
        exact ⟨more, hdown, (Option.some.inj h).symm⟩
  · rintro ⟨more, h, rfl⟩
    obtain ⟨hway, hdown⟩ := (way?_eq_some_iff hpath hroot).mpr h
    rw [hway]
    dsimp only
    rw [if_neg]
    rwa [Bool.or_eq_true, List.contains_iff_mem, List.contains_iff_mem, not_or]

/-- Of a path without backslashes the resource keeps the segments. -/
theorem LeadsDown.normalize_eq (h : LeadsDown root path more)
    (hback : ∀ c ∈ more, '\\' ∉ c.text) :
    Resource.normalize (render (more.map (·.text))) = Resource.render (more.map (·.text)) :=
  Resource.isCanonical_iff.mp ⟨_, h.isPlain hpath hroot hback, rfl⟩

/-- The root goes on to the path when the resource is joined to it. -/
theorem LeadsDown.components_join (h : LeadsDown root path more)
    (hback : ∀ c ∈ more, '\\' ∉ c.text) :
    components (join root (Resource.render (more.map (·.text)))) = components path := by
  have hplain := h.isPlain hpath hroot hback
  have hmore : (more.map (·.text)).map Component.ofPiece = more := by
    rw [List.map_map]
    exact (List.map_congr_left fun c hc => (h.exists_of_mem hpath hroot hc).2).trans
      (List.map_id' more)
  rw [FilePath.components_join hroot hplain, ← map_ofPiece hplain, hmore, h.goes_on]

/-- Wherever the root lies, the path goes on from there. -/
theorem LeadsDown.steps_join (h : LeadsDown root path more) (cwd : String) :
    steps (join cwd path) = steps (join cwd root) ++ more.map (·.text) := by
  have hsteps := h.steps_eq hpath hroot
  cases habsolute : isAbsolute path with
  | true =>
    rw [join_of_isAbsolute cwd habsolute, join_of_isAbsolute cwd (h.same ▸ habsolute), hsteps]
  | false =>
    rw [FilePath.steps_join cwd habsolute, FilePath.steps_join cwd (h.same ▸ habsolute), hsteps,
      List.append_assoc]

end LeadsDown

end HelpAudit.FilePath
