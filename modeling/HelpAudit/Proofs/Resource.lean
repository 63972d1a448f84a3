import HelpAudit.Resource
import Mathlib.Data.List.Basic

/-!
Resource paths in canonical form: what normalising leaves, and what it leaves alone. A canonical
path lies below a folder when its segments go on from those of the folder, and is then written with
the folder, a slash and the rest.
-/
namespace HelpAudit.Resource

instance (s : Segment) : Decidable (IsPlain s) :=
  decidable_of_iff (s ≠ [] ∧ s ≠ ['.'] ∧ s ≠ ['.', '.'] ∧ s.all (!isSeparator ·) = true)
    (by simp [IsPlain])

@[simp] theorem toList_render (segs : List Segment) :
    (render segs).toList = ['/'].intercalate segs := String.toList_ofList

@[simp] theorem render_singleton (s : Segment) : render [s] = .ofList s := by
  simp [render]

theorem step_of_isPlain {s : Segment} (h : IsPlain s) (before : List Segment) :
    step before s = s :: before := by
  obtain ⟨h₁, h₂, h₃, -⟩ := h
  unfold step
  split <;> trivial

theorem foldl_step_of_isPlain {segs : List Segment} (h : ∀ s ∈ segs, IsPlain s)
    (before : List Segment) : segs.foldl step before = segs.reverse ++ before := by
  induction segs generalizing before with
  | nil => rfl
  | cons s segs ih =>
    rw [List.foldl_cons, step_of_isPlain (h s List.mem_cons_self),
      ih fun t ht => h t (List.mem_cons_of_mem _ ht)]
    simp

/-- No piece between separators holds one. -/
theorem eq_false_of_mem_splitOnP {p : Char → Bool} {cs : List Char} {s : Segment}
    (h : s ∈ cs.splitOnP p) : ∀ c ∈ s, p c = false := by
  induction cs generalizing s with
  | nil => simp_all
  | cons c cs ih =>
    rw [List.splitOnP_cons_eq_if_modifyHead] at h
    obtain ⟨first, rest, hcs⟩ := List.exists_cons_of_ne_nil (List.splitOnP_ne_nil p cs)
    rw [hcs] at h ih
    split at h
    · rcases List.mem_cons.mp h with rfl | h
      · simp
      · exact ih h
    · next hc =>
      rcases List.mem_cons.mp h with rfl | h
      · intro d hd
        rcases List.mem_cons.mp hd with rfl | hd
        · simpa using hc
        · exact ih List.mem_cons_self d hd
      · exact ih (List.mem_cons_of_mem _ h)

theorem isPlain_of_mem_step {before : List Segment} {s t : Segment}
    (hb : ∀ u ∈ before, IsPlain u) (hs : ∀ c ∈ s, isSeparator c = false)
    (ht : t ∈ step before s) : IsPlain t := by
  unfold step at ht
  split at ht
  · exact hb t ht
  · exact hb t ht
  · exact hb t (List.mem_of_mem_tail ht)
  · next h₁ h₂ h₃ =>
    rcases List.mem_cons.mp ht with rfl | ht
    · exact ⟨h₁, h₂, h₃, hs⟩
    · exact hb t ht

theorem isPlain_of_mem_foldl_step {pieces before : List Segment} {t : Segment}
    (hp : ∀ s ∈ pieces, ∀ c ∈ s, isSeparator c = false) (hb : ∀ u ∈ before, IsPlain u)
    (ht : t ∈ pieces.foldl step before) : IsPlain t := by
  induction pieces generalizing before with
  | nil => exact hb t ht
  | cons s pieces ih =>
    exact ih (fun u hu => hp u (List.mem_cons_of_mem _ hu))
      (fun u hu => isPlain_of_mem_step hb (hp s List.mem_cons_self) hu) ht

theorem isPlain_segments (path : String) : ∀ s ∈ segments path, IsPlain s := fun _ h =>
  isPlain_of_mem_foldl_step (fun _ hs => eq_false_of_mem_splitOnP hs) (by simp)
    (List.mem_reverse.mp h)

theorem splitOnP_intercalate {p : Char → Bool} (hp : p '/' = true) {segs : List Segment}
    (hne : segs ≠ []) (h : ∀ s ∈ segs, ∀ c ∈ s, p c = false) :
    (['/'].intercalate segs).splitOnP p = segs := by
  induction segs with
  | nil => exact absurd rfl hne
  | cons s segs ih =>
    have hs := h s List.mem_cons_self
    cases segs with
    | nil => simpa using List.splitOnP_eq_singleton hs
    | cons t segs =>
      rw [List.intercalate_cons_cons, List.append_assoc, List.singleton_append,
        List.splitOnP_append_cons_of_forall_mem hs '/' hp,
        ih (by simp) fun u hu => h u (List.mem_cons_of_mem _ hu)]

/-- A canonical path is cut at its slashes where it was put together. -/
theorem splitOnP_slash_render {segs : List Segment} (hne : segs ≠ [])
    (h : ∀ s ∈ segs, IsPlain s) : (render segs).toList.splitOnP (· == '/') = segs := by
  rw [toList_render]
  refine splitOnP_intercalate rfl hne fun s hs c hc => ?_
  have hseparator := (h s hs).2.2.2 c hc
  rw [isSeparator, Bool.or_eq_false_iff] at hseparator
  exact hseparator.1

theorem leaf_render {segs : List Segment} (hne : segs ≠ []) (h : ∀ s ∈ segs, IsPlain s) :
    leaf (render segs) = .ofList (segs.getLast?.getD []) := by
  rw [leaf, splitOnP_slash_render hne h]

/-- A canonical path has the segments it is written with. -/
theorem segments_render {segs : List Segment} (h : ∀ s ∈ segs, IsPlain s) :
    segments (render segs) = segs := by
  unfold segments
  rw [toList_render]
  cases segs with
  | nil => rfl
  | cons s segs =>
    rw [splitOnP_intercalate rfl (by simp) fun t ht => (h t ht).2.2.2, foldl_step_of_isPlain h]
    simp

theorem render_injOn {a b : List Segment} (ha : ∀ s ∈ a, IsPlain s) (hb : ∀ s ∈ b, IsPlain s)
    (h : render a = render b) : a = b := by
  rw [← segments_render ha, h, segments_render hb]

@[simp] theorem segments_normalize (path : String) : segments (normalize path) = segments path :=
  segments_render (isPlain_segments path)

@[simp] theorem normalize_normalize (path : String) :
    normalize (normalize path) = normalize path := by
  rw [normalize, segments_normalize, normalize]

theorem isCanonical_normalize (path : String) : IsCanonical (normalize path) :=
  ⟨segments path, isPlain_segments path, rfl⟩

section Below

variable {root path rest : String} {a b : List Segment}

theorem render_segments (h : IsCanonical path) : render (segments path) = path := by
  obtain ⟨segs, hplain, rfl⟩ := h
  rw [segments_render hplain]

@[simp] theorem segments_empty : segments "" = [] := by
  simp [segments, step]

theorem segments_injective (ha : IsCanonical root) (hb : IsCanonical path)
    (h : segments root = segments path) : root = path := by
  rw [← render_segments ha, ← render_segments hb, h]

theorem segments_ne_nil (h : IsCanonical path) (hne : path ≠ "") : segments path ≠ [] := by
  intro hnil
  apply hne
  rw [← render_segments h, hnil]
  rfl

/-- What stands behind a folder and a slash goes on from the folder. -/
theorem segments_append (base rest : String) : segments (base ++ "/" ++ rest) =
    ((rest.toList.splitOnP isSeparator).foldl step (segments base).reverse).reverse := by
  have htext : (base ++ "/" ++ rest).toList = base.toList ++ '/' :: rest.toList := by simp
  unfold segments
  rw [htext, List.splitOnP_append_cons _ _ rfl, List.foldl_append, List.reverse_reverse]

/-- Pieces that are put together are taken one after the other; the empty text takes no step. -/
theorem foldl_splitOnP_render {segs : List Segment}
    (h : ∀ s ∈ segs, ∀ c ∈ s, isSeparator c = false) (before : List Segment) :
    ((render segs).toList.splitOnP isSeparator).foldl step before = segs.foldl step before := by
  cases segs with
  | nil => simp [step]
  | cons s segs => rw [toList_render, splitOnP_intercalate rfl (List.cons_ne_nil s segs) h]

theorem segments_append_of_isCanonical (base : String) (h : IsCanonical rest) :
    segments (base ++ "/" ++ rest) = segments base ++ segments rest := by
  obtain ⟨segs, hplain, rfl⟩ := h
  rw [segments_append, segments_render hplain,
    foldl_splitOnP_render fun s hs => (hplain s hs).2.2.2, foldl_step_of_isPlain hplain]
  simp

theorem render_append (ha : a ≠ []) (hb : b ≠ []) :
    render (a ++ b) = render a ++ "/" ++ render b := by
  have hlist : ['/'].intercalate (a ++ b) = ['/'].intercalate a ++ '/' :: ['/'].intercalate b := by
    induction a with
    | nil => exact absurd rfl ha
    | cons s a ih =>
      cases a with
      | nil =>
        obtain ⟨t, b, rfl⟩ := List.exists_cons_of_ne_nil hb
        simp
      | cons t a =>
        have htail := ih (by simp)
        rw [List.cons_append, List.cons_append, List.intercalate_cons_cons, ← List.cons_append,
          htail, List.intercalate_cons_cons, List.append_assoc _ _ ('/' :: _)]
  apply String.toList_injective
  simp [hlist]

/-- A path ends with its last segment. -/
theorem exists_render_concat (before : List Segment) (s : Segment) :
    ∃ lead, render (before ++ [s]) = lead ++ .ofList s := by
  by_cases hnil : before = []
  · exact ⟨"", by rw [hnil, List.nil_append, render_singleton, String.empty_append]⟩
  · exact ⟨_, by rw [render_append hnil (by simp), render_singleton]⟩

theorem splitOnP_of_isCanonical (h : IsCanonical path) (hne : path ≠ "") :
    path.toList.splitOnP isSeparator = segments path := by
  conv_lhs => rw [← render_segments h, toList_render]
  exact splitOnP_intercalate rfl (segments_ne_nil h hne) fun s hs =>
    (isPlain_segments path s hs).2.2.2

/-- The pieces of a canonical path on both sides of a slash are its segments. -/
theorem segments_of_slash (hpath : IsCanonical path) (h : path = root ++ "/" ++ rest) :
    segments path = root.toList.splitOnP isSeparator ++ rest.toList.splitOnP isSeparator := by
  have hnil : path ≠ "" := by
    rintro rfl
    simpa using congrArg String.toList h
  have htext : (root ++ "/" ++ rest).toList = root.toList ++ '/' :: rest.toList := by simp
  rw [← splitOnP_of_isCanonical hpath hnil, h, htext, List.splitOnP_append_cons _ _ rfl]

/-- What stands in front of a slash in a canonical path is not the top under another name. -/
theorem normalize_ne_empty_of_slash (hpath : IsCanonical path) (h : path = root ++ "/" ++ rest) :
    normalize root ≠ "" := by
  intro hempty
  have hpieces : ∀ s ∈ root.toList.splitOnP isSeparator, IsPlain s := fun s hs =>
    isPlain_segments path s (segments_of_slash hpath h ▸ List.mem_append_left _ hs)
  have hsegments : segments root = root.toList.splitOnP isSeparator := by
    rw [segments, foldl_step_of_isPlain hpieces, List.append_nil, List.reverse_reverse]
  rw [← segments_normalize, hempty, segments_empty] at hsegments
  exact List.splitOnP_ne_nil _ _ hsegments.symm

/-- A canonical path below a folder has its segments behind those of the folder. -/
theorem segments_of_eq_append (hroot : IsCanonical root) (hne : root ≠ "")
    (hpath : IsCanonical path) (h : path = root ++ "/" ++ rest) :
    IsCanonical rest ∧ rest ≠ "" ∧ segments path = segments root ++ segments rest := by
  have hsegments := segments_of_slash hpath h
  rw [splitOnP_of_isCanonical hroot hne] at hsegments
  -- The pieces of the rest are segments of the path, so no backslash cuts the rest.
  have hpieces : ∀ s ∈ rest.toList.splitOnP isSeparator, IsPlain s := fun s hs =>
    isPlain_segments path s (hsegments ▸ List.mem_append_right _ hs)
  have hrest : rest = render (rest.toList.splitOnP isSeparator) := by
    have hpath' := render_segments hpath
    rw [hsegments, render_append (segments_ne_nil hroot hne) (List.splitOnP_ne_nil _ _),
      render_segments hroot, h] at hpath'
    exact ((String.append_right_inj _).mp hpath').symm
  have hrest' : segments rest = rest.toList.splitOnP isSeparator := by
    conv_lhs => rw [hrest]
    exact segments_render hpieces
  refine ⟨⟨_, hpieces, hrest⟩, ?_, by rw [hsegments, hrest']⟩
  rintro rfl
  rw [segments_empty] at hrest'
  exact List.splitOnP_ne_nil _ _ hrest'.symm

theorem join_of_isCanonical (root : String) (h : IsCanonical rest) :
    join root rest = render (segments root ++ segments rest) := by
  rw [join, normalize, segments_append_of_isCanonical root h]

/-- A canonical path stands below a folder as it is written. -/
theorem join_eq_append (hroot : IsCanonical root) (hne : root ≠ "") (hrest : IsCanonical rest)
    (hne' : rest ≠ "") : join root rest = root ++ "/" ++ rest := by
  rw [join_of_isCanonical root hrest,
    render_append (segments_ne_nil hroot hne) (segments_ne_nil hrest hne'),
    render_segments hroot, render_segments hrest]

theorem isCanonical_iff : IsCanonical path ↔ normalize path = path := by
  constructor
  · exact render_segments
  · intro h
    rw [← h]
    exact isCanonical_normalize path

/-- The top has an empty last segment. -/
theorem leaf_of_isCanonical (h : IsCanonical path) :
    leaf path = .ofList ((segments path).getLast?.getD []) := by
  by_cases hempty : path = ""
  · rw [hempty, segments_empty]
    rfl
  · have hleaf := leaf_render (segments_ne_nil h hempty) (isPlain_segments path)
    rwa [render_segments h] at hleaf

theorem leaf_append (root rest : String) : leaf (root ++ "/" ++ rest) = leaf rest := by
  have htext : (root ++ "/" ++ rest).toList = root.toList ++ '/' :: rest.toList := by simp
  rw [leaf, leaf, htext, List.splitOnP_append_cons _ _ rfl,
    List.getLast?_append_of_ne_nil _ (List.splitOnP_ne_nil _ _)]

/-- What is left of a path behind a folder and a slash. -/
theorem isPrefixOf?_slash_eq_some_iff :
    ((root.toList ++ ['/']).isPrefixOf? path.toList).map String.ofList = some rest ↔
      path = root ++ "/" ++ rest := by
  rw [Option.map_eq_some_iff]
  constructor
  · rintro ⟨cs, h, rfl⟩
    apply String.toList_inj.mp
    rw [← List.isPrefixOf?_eq_some_iff_append_eq.mp h]
    simp
  · rintro rfl
    refine ⟨rest.toList, List.isPrefixOf?_eq_some_iff_append_eq.mpr ?_, String.ofList_toList⟩
    rw [String.toList_append, String.toList_append]
    rfl

theorem below?_eq_some_iff (h : root ≠ "") :
    below? root path = some rest ↔ path = root ++ "/" ++ rest := by
  rw [below?, if_neg (mt String.isEmpty_iff.mp h), isPrefixOf?_slash_eq_some_iff]

/-- Below a folder stand the paths whose segments go on from those of the folder. -/
theorem isSome_below?_render (ha : ∀ s ∈ a, IsPlain s) (hb : ∀ s ∈ b, IsPlain s) (hne : b ≠ []) :
    (below? (render a) (render b)).isSome = true ↔ ∃ c, c ≠ [] ∧ b = a ++ c := by
  cases a with
  | nil => exact ⟨fun _ => ⟨b, hne, rfl⟩, fun _ => rfl⟩
  | cons s a =>
    have hroot : render (s :: a) ≠ "" := by
      intro hempty
      have hsegments := segments_render ha
      rw [hempty, segments_empty] at hsegments
      cases hsegments
    rw [Option.isSome_iff_exists]
    constructor
    · rintro ⟨rest, hrest⟩
      rw [below?_eq_some_iff hroot] at hrest
      obtain ⟨hcanonical, hrest', hsegments⟩ :=
        segments_of_eq_append ⟨_, ha, rfl⟩ hroot ⟨_, hb, rfl⟩ hrest
      rw [segments_render ha, segments_render hb] at hsegments
      exact ⟨_, segments_ne_nil hcanonical hrest', hsegments⟩
    · rintro ⟨c, hc, rfl⟩
      rw [render_append (List.cons_ne_nil s a) hc]
      exact ⟨_, (below?_eq_some_iff hroot).mpr rfl⟩

/-- A folder holds the paths whose segments go on from its own, and the top holds all. -/
theorem isSome_below?_iff (hroot : IsCanonical root) (hpath : IsCanonical path) :
    (below? root path).isSome = true ↔
      root = "" ∨ ∃ more, more ≠ [] ∧ segments path = segments root ++ more := by
  by_cases htop : root = ""
  · simp [below?, htop]
  rw [or_iff_right htop]
  by_cases hempty : path = ""
  · subst hempty
    constructor
    · intro hbelow
      obtain ⟨rest, hrest⟩ := Option.isSome_iff_exists.mp hbelow
      rw [below?_eq_some_iff htop] at hrest
      simpa using congrArg String.toList hrest
    · rintro ⟨more, hmore, hnil⟩
      rw [segments_empty, eq_comm, List.append_eq_nil_iff] at hnil
      exact absurd hnil.2 hmore
  · have hbelow := isSome_below?_render (isPlain_segments root) (isPlain_segments path)
      (segments_ne_nil hpath hempty)
    rwa [render_segments hroot, render_segments hpath] at hbelow

/-- A canonical path that goes on from the segments of a folder is the folder or lies below it. -/
theorem exists_below? (hroot : IsCanonical root) (hpath : IsCanonical path)
    (h : segments root <+: segments path) (hne : path ≠ root) : ∃ rest,
      below? root path = some rest ∧ IsCanonical rest ∧ rest ≠ "" ∧ join root rest = path ∧
        (root ≠ "" → path = root ++ "/" ++ rest) := by
  by_cases hroot' : root = ""
  · subst hroot'
    refine ⟨path, rfl, hpath, hne, ?_, fun h => absurd rfl h⟩
    rw [join_of_isCanonical _ hpath, segments_empty, List.nil_append, render_segments hpath]
  · obtain ⟨more, hmore⟩ := h
    have hmore' : more ≠ [] := by
      rintro rfl
      rw [List.append_nil] at hmore
      exact hne (segments_injective hroot hpath hmore).symm
    have hpath' : path = root ++ "/" ++ render more := by
      rw [← render_segments hpath, ← hmore, render_append (segments_ne_nil hroot hroot') hmore',
        render_segments hroot]
    obtain ⟨hrest, hrest', hsegments⟩ := segments_of_eq_append hroot hroot' hpath hpath'
    refine ⟨_, (below?_eq_some_iff hroot').mpr hpath', hrest, hrest', ?_, fun _ => hpath'⟩
    rw [join_of_isCanonical _ hrest, ← hsegments, render_segments hpath]

/-- A folder contains a path when its segments are the first of the path. -/
theorem contains_iff (hroot : IsCanonical root) (hpath : IsCanonical path) :
    contains root path = true ↔ segments root <+: segments path := by
  rw [contains, Bool.or_eq_true, beq_iff_eq, Option.isSome_iff_exists]
  constructor
  · rintro (rfl | ⟨rest, h⟩)
    · exact List.prefix_refl _
    by_cases hroot' : root = ""
    · rw [hroot', segments_empty]
      exact List.nil_prefix
    · rw [below?_eq_some_iff hroot'] at h
      rw [(segments_of_eq_append hroot hroot' hpath h).2.2]
      exact List.prefix_append _ _
  · intro h
    by_cases hne : path = root
    · exact .inl hne
    · obtain ⟨rest, hrest, -⟩ := exists_below? hroot hpath h hne
      exact .inr ⟨rest, hrest⟩

/-- A canonical path below a folder is longer. -/
theorem utf8ByteSize_lt_of_prefix (hroot : IsCanonical root) (hpath : IsCanonical path)
    (h : segments root <+: segments path) (hne : path ≠ root) :
    root.utf8ByteSize < path.utf8ByteSize := by
  obtain ⟨rest, -, -, -, -, hslice⟩ := exists_below? hroot hpath h hne
  by_cases hroot' : root = ""
  · subst hroot'
    exact Nat.pos_of_ne_zero (mt String.utf8ByteSize_eq_zero_iff.mp hne)
  · rw [hslice hroot', String.utf8ByteSize_append, String.utf8ByteSize_append]
    have hslash : "/".utf8ByteSize = 1 := rfl
    omega

end Below

/-- A piece between separators holds characters of the path. -/
theorem mem_of_mem_splitOnP {cs : List Char} {s : Segment} {c : Char}
    (h : s ∈ cs.splitOnP isSeparator) (hc : c ∈ s) : c ∈ cs := by
  induction cs generalizing s with
  | nil => simp_all
  | cons d cs ih =>
    rw [List.splitOnP_cons_eq_if_modifyHead] at h
    obtain ⟨p, ps, hps⟩ := List.exists_cons_of_ne_nil (List.splitOnP_ne_nil isSeparator cs)
    rw [hps] at h ih
    split at h
    · rcases List.mem_cons.mp h with rfl | h
      · cases hc
      · exact List.mem_cons_of_mem _ (ih h hc)
    · rcases List.mem_cons.mp h with rfl | h
      · rcases List.mem_cons.mp hc with rfl | hc
        · exact List.mem_cons_self
        · exact List.mem_cons_of_mem _ (ih List.mem_cons_self hc)
      · exact List.mem_cons_of_mem _ (ih (List.mem_cons_of_mem _ h) hc)

theorem mem_of_mem_foldl_step {pieces before : List Segment} {t : Segment}
    (h : t ∈ pieces.foldl step before) : t ∈ pieces ∨ t ∈ before := by
  induction pieces generalizing before with
  | nil => exact .inr h
  | cons s pieces ih =>
    rcases ih h with h | h
    · exact .inl (List.mem_cons_of_mem _ h)
    · unfold step at h
      split at h
      · exact .inr h
      · exact .inr h
      · exact .inr (List.mem_of_mem_tail h)
      · rcases List.mem_cons.mp h with rfl | h
        · exact .inl List.mem_cons_self
        · exact .inr h

theorem mem_of_mem_segments {path : String} {s : Segment} {c : Char} (h : s ∈ segments path)
    (hc : c ∈ s) : c ∈ path.toList := by
  rcases mem_of_mem_foldl_step (List.mem_reverse.mp h) with h | h
  · exact mem_of_mem_splitOnP h hc
  · cases h

theorem mem_of_mem_route {base path : List Segment} {s : Segment} (h : s ∈ route base path) :
    s = ['.', '.'] ∨ s ∈ path := by
  induction base generalizing path with
  | nil => exact .inr h
  | cons b base ih =>
    have hup {s : Segment} (h : s ∈ (b :: base).map fun _ => ['.', '.']) : s = ['.', '.'] := by
      obtain ⟨-, -, rfl⟩ := List.mem_map.mp h
      rfl
    cases path with
    | nil => exact .inl (hup h)
    | cons p path =>
      rw [route] at h
      split at h
      · exact (ih h).imp_right (List.mem_cons_of_mem _)
      · exact (List.mem_append.mp h).imp_left hup

theorem mem_of_mem_intercalate {segs : List Segment} {c : Char}
    (h : c ∈ ['/'].intercalate segs) : c = '/' ∨ ∃ s ∈ segs, c ∈ s := by
  induction segs with
  | nil => cases h
  | cons s segs ih =>
    cases segs with
    | nil => exact .inr ⟨s, List.mem_cons_self, by simpa using h⟩
    | cons t segs =>
      rw [List.intercalate_cons_cons, List.append_assoc] at h
      rcases List.mem_append.mp h with h | h
      · exact .inr ⟨s, List.mem_cons_self, h⟩
      rcases List.mem_append.mp h with h | h
      · exact .inl (List.mem_singleton.mp h)
      · obtain h | ⟨u, hu, hc⟩ := ih h
        · exact .inl h
        · exact .inr ⟨u, List.mem_cons_of_mem _ hu, hc⟩

/-- The way to a path is written with the path's characters, dots and slashes. -/
theorem mem_of_mem_relative {base path : String} {c : Char} (h : c ∈ (relative base path).toList) :
    c = '/' ∨ c = '.' ∨ c ∈ path.toList := by
  rw [relative, toList_render] at h
  obtain h | ⟨s, hs, hc⟩ := mem_of_mem_intercalate h
  · exact .inl h
  · rcases mem_of_mem_route hs with rfl | hs
    · simp only [List.mem_cons, List.not_mem_nil, or_false, or_self] at hc
      exact .inr (.inl hc)
    · exact .inr (.inr (mem_of_mem_segments hs hc))

end HelpAudit.Resource
