import HelpAudit.Proofs.FileTree
import HelpAudit.Settings.Setup
import Mathlib.Data.List.Find

/-!
Which folder's settings count. The folders above a place are those of the tree, while the search for
a root goes up a path as it is written, and the path of the working directory has nothing above it.
So a run that names no root takes the working directory for it, and settings found further up do
not apply.
-/
namespace HelpAudit

theorem mem_rootMarkers_of_mem {f : String × SettingsFormat} (h : f ∈ settingsFiles) :
    f.1 ∈ rootMarkers :=
  List.mem_append_left _ (List.mem_map_of_mem h)

namespace FileTree.Place

/-- The place of a node and those above it, the nearest first. -/
def ascent : FileTree → List FileTree → List String → List Place
  | t, above :: higher, name :: names =>
    ⟨t, above :: higher, name :: names⟩ :: ascent above higher names
  | t, above, names => [⟨t, above, names⟩]

def lineage (p : Place) : List Place := ascent p.node p.above p.names

theorem lineage_eq_cons (p : Place) : ∃ higher, p.lineage = p :: higher := by
  rw [lineage]
  unfold ascent
  split
  · next h₁ h₂ => exact ⟨_, by rw [← h₁, ← h₂]⟩
  · exact ⟨[], rfl⟩

/-- A folder with a settings file or the data of a version control. -/
def isMarked (p : Place) : Bool := rootMarkers.any fun n => (p.node.child? n).isSome

/-- The nearest marked place among a place and those above it, else the place itself. -/
def governing (p : Place) : Place := (p.lineage.find? isMarked).getD p

/-- The settings in a folder, read from the first settings file that is there. -/
def configured (p : Place) : Option Settings :=
  match settingsFiles.find? fun f => (p.node.child? f.1).isSome with
  | none => none
  | some (name, format) => ((p.node.child? name).bind text?).bind format.parse?

variable {p : Place}

theorem settingsFile_of_not_isMarked (h : p.isMarked = false) :
    settingsFiles.find? (fun f => (p.node.child? f.1).isSome) = none := by
  rw [List.find?_eq_none]
  intro f hf hthere
  rw [isMarked, List.any_eq_false] at h
  exact h f.1 (mem_rootMarkers_of_mem hf) hthere

theorem governing_of_isMarked (h : p.isMarked = true) : p.governing = p := by
  obtain ⟨higher, hlineage⟩ := p.lineage_eq_cons
  rw [governing, hlineage, List.find?_cons_of_pos h, Option.getD_some]

theorem governing_of_forall (h : ∀ q ∈ p.lineage, q.isMarked = false) : p.governing = p := by
  have hnone : p.lineage.find? isMarked = none := by
    rw [List.find?_eq_none]
    intro q hq
    rw [h q hq]
    exact Bool.false_ne_true
  rw [governing, hnone, Option.getD_none]

/-- A place above takes over just when it is marked and this one is not. -/
theorem governing_eq_self_iff :
    p.governing = p ↔ p.isMarked = true ∨ ∀ q ∈ p.lineage, q.isMarked = false := by
  constructor
  · intro h
    by_cases hp : p.isMarked = true
    · exact .inl hp
    · right
      cases hfind : p.lineage.find? isMarked with
      | none => simpa [List.find?_eq_none] using hfind
      | some q =>
        rw [governing, hfind, Option.getD_some] at h
        exact absurd (h ▸ List.find?_some hfind) hp
  · rintro (h | h)
    · exact governing_of_isMarked h
    · exact governing_of_forall h

end FileTree.Place

namespace FileTree

variable {t : FileTree} {cwd name : String} {p : Place}

theorem isPlain_of_mem_rootMarkers : ∀ name ∈ rootMarkers, Resource.IsPlain name.toList := by
  decide +kernel

section Folder

variable {folder : String}
  (hchild : ∀ name ∈ rootMarkers,
    (t.find? cwd (FilePath.join folder name)).map (·.node) = p.node.child? name)
include hchild

theorem holds_eq (hname : name ∈ rootMarkers) :
    t.holds cwd folder name = (p.node.child? name).isSome := by
  rw [holds, ← hchild name hname, Option.isSome_map]

theorem isRoot_eq : t.isRoot cwd folder = p.isMarked := by
  rw [Bool.eq_iff_iff]
  simp only [isRoot, Place.isMarked, List.any_eq_true]
  exact exists_congr fun name => and_congr_right fun hname => by rw [holds_eq hchild hname]

theorem settingsFile_eq :
    settingsFiles.find? (fun f => t.holds cwd folder f.1) =
      settingsFiles.find? fun f => (p.node.child? f.1).isSome :=
  List.find?_congr fun _ hf => holds_eq hchild (mem_rootMarkers_of_mem hf)

/-- A folder's settings are read from what it holds under the names of settings files. -/
theorem settings_eq : (t.settings cwd folder).value = p.configured := by
  rw [settings, Place.configured, settingsFile_eq hchild]
  cases hfile : settingsFiles.find? fun f => (p.node.child? f.1).isSome with
  | none => rfl
  | some f =>
    obtain ⟨name, format⟩ := f
    have hmarker := mem_rootMarkers_of_mem (List.mem_of_find?_eq_some hfile)
    have htext : (t.find? cwd (FilePath.join folder name)).bind (·.node.text?) =
        (p.node.child? name).bind text? := by
      rw [← hchild name hmarker, Option.bind_map]
      rfl
    dsimp only
    rw [htext]
    cases (p.node.child? name).bind text? with
    | none => rfl
    | some text =>
      dsimp only [Option.bind_some]
      cases format.parse? text <;> rfl

end Folder

section Here

variable (hcwd : FilePath.isAbsolute cwd = true) (hp : t.find? cwd "." = some p)
include hcwd hp

/-- The path of the working directory leads there. -/
theorem walk_cwd : (FilePath.pieces cwd).foldlM Place.walk? (Place.top t) = some p := by
  have hdot : FilePath.pieces "." = [['.']] := by decide
  rw [find?_of_relative t hcwd (by decide) (by decide), hdot] at hp
  obtain ⟨q, hq, hstep⟩ := Option.bind_eq_some_iff.mp hp
  simp only [List.foldlM_cons, List.foldlM_nil, bind_pure] at hstep
  rw [Place.walk?_of_not_takesStep rfl] at hstep
  split at hstep
  · rw [hq, hstep]
  · cases hstep

/-- What the working directory holds is there under its name, with a dot in front and without. -/
theorem find?_here (hname : Resource.IsPlain name.toList) :
    t.find? cwd (FilePath.join "." name) = p.child? name ∧
      t.find? cwd (FilePath.join "" name) = p.child? name := by
  have hwalk := walk_cwd hcwd hp
  have hne : name ≠ "" := fun h => hname.1 (by rw [h]; rfl)
  have hpieces := FilePath.pieces_of_isPlain hname
  have hdotPieces : FilePath.pieces "." = [['.']] := by decide
  have hrelative := FilePath.isAbsolute_of_isPlain hname
  have hdot : FilePath.join "." name = "." ++ "/" ++ name := by
    simp [FilePath.join, hrelative]
  have hempty : FilePath.join "" name = name := by
    simp [FilePath.join]
  constructor
  · rw [hdot, find?_of_relative t hcwd (by simp [FilePath.isAbsolute]) (by simp), hwalk,
      Option.bind_some, FilePath.pieces_append_slash, hpieces]
    simp only [hdotPieces, List.singleton_append, List.foldlM_cons, List.foldlM_nil, bind_pure]
    exact (Place.walk?_bind_walk? rfl _).trans (Place.walk?_of_isPlain hname)
  · rw [hempty, find?_of_relative t hcwd hrelative hne, hwalk, Option.bind_some, hpieces]
    simp only [List.foldlM_cons, List.foldlM_nil, bind_pure]
    exact Place.walk?_of_isPlain hname

theorem child_here : ∀ name ∈ rootMarkers,
    (t.find? cwd (FilePath.join "." name)).map (·.node) = p.node.child? name ∧
      (t.find? cwd (FilePath.join "" name)).map (·.node) = p.node.child? name := by
  intro name hname
  obtain ⟨hdot, hempty⟩ := find?_here hcwd hp (isPlain_of_mem_rootMarkers name hname)
  have hnode : (p.child? name).map (·.node) = p.node.child? name := by
    rw [Place.child?, Option.map_map]
    exact Option.map_id'
  exact ⟨by rw [hdot, hnode], by rw [hempty, hnode]⟩

theorem isRoot_here : t.isRoot cwd "." = p.isMarked ∧ t.isRoot cwd "" = p.isMarked :=
  ⟨isRoot_eq fun name hname => (child_here hcwd hp name hname).1,
    isRoot_eq fun name hname => (child_here hcwd hp name hname).2⟩

/-- The search for a root does not leave the working directory. -/
theorem repoRoot_here : t.repoRoot cwd "." = "." := by
  obtain ⟨hdot, hempty⟩ := isRoot_here hcwd hp
  have hupward : FilePath.upward "." = [".", ""] := by decide
  rw [repoRoot, hupward]
  by_cases h : p.isMarked = true
  · rw [List.find?_cons_of_pos (hdot.trans h)]
    rfl
  · rw [List.find?_cons_of_neg (by rw [hdot]; exact h),
      List.find?_cons_of_neg (by rw [hempty]; exact h)]
    rfl

theorem settingsFile_here :
    settingsFiles.find? (fun f => t.holds cwd "." f.1) =
      settingsFiles.find? fun f => (p.node.child? f.1).isSome :=
  settingsFile_eq fun name hname => (child_here hcwd hp name hname).1

theorem settings_here : (t.settings cwd ".").value = p.configured :=
  settings_eq fun name hname => (child_here hcwd hp name hname).1

end Here

end FileTree

namespace Setup

/-- A setup with a place for its root, and with the settings of that place where nothing else was
asked for. -/
structure GovernedBy (t : FileTree) (cwd : String) (o : Overrides) (q : FileTree.Place)
    (s : Setup) : Prop where
  root : t.find? cwd s.repoRoot = some q
  settings : s = ofSettings s.repoRoot o (q.configured.getD .empty)

variable {t : FileTree} {cwd : String} {o : Overrides} {p : FileTree.Place}

/-- Where no root is named, the working directory is the root and its settings are those that
count. So the nearest marked folder on the way up governs a run just when it is the working
directory, or when there is none; a run below it goes by the defaults. -/
theorem resolve_governed_iff (hcwd : FilePath.isAbsolute cwd = true)
    (hp : t.find? cwd "." = some p) (ho : o.repoRoot = none) :
    let s := (resolve t cwd o).value
    s.repoRoot = "." ∧ s.GovernedBy t cwd o p ∧
      (s.GovernedBy t cwd o p.governing ↔
        p.isMarked = true ∨ ∀ q ∈ p.lineage, q.isMarked = false) ∧
      (p.isMarked = false → resolve t cwd o = pure (ofSettings "." o .empty)) := by
  intro s
  have hvalue : s = ofSettings "." o (p.configured.getD .empty) := by
    change (resolve t cwd o).value = _
    rw [resolve, ho, Option.getD_none, FileTree.repoRoot_here hcwd hp, Logged.bind_value,
      Logged.pure_value, FileTree.settings_here hcwd hp]
  have hroot : s.repoRoot = "." := by
    rw [hvalue]
    rfl
  have hgoverned : s.GovernedBy t cwd o p := ⟨by rw [hroot, hp], by rw [hroot]; exact hvalue⟩
  refine ⟨hroot, hgoverned, ?_, fun hp' => ?_⟩
  · rw [← FileTree.Place.governing_eq_self_iff]
    constructor
    · intro h
      have hplace := h.root
      rw [hroot, hp, Option.some.injEq] at hplace
      exact hplace.symm
    · intro h
      rwa [h]
  · have hnone : t.settings cwd "." = pure none := by
      rw [FileTree.settings, FileTree.settingsFile_here hcwd hp,
        FileTree.Place.settingsFile_of_not_isMarked hp']
    rw [resolve, ho, Option.getD_none, FileTree.repoRoot_here hcwd hp, hnone, pure_bind]
    rfl

/-- A settings file at the top, and a folder without one. -/
def settledAbove : FileTree :=
  .folder [("helplint.toml", .file (some "output = \"json\"")), ("sub", .folder [])]

def noOverrides : Overrides := ⟨none, none, none⟩

/-- The settings govern a run at the top. -/
theorem settledAbove_governed : FilePath.isAbsolute "/" = true ∧
    settledAbove.find? "/" "." = some (.top settledAbove) ∧ noOverrides.repoRoot = none ∧
    (resolve settledAbove "/" noOverrides).value.GovernedBy settledAbove "/" noOverrides
      (FileTree.Place.top settledAbove).governing := by
  have hhere : settledAbove.find? "/" "." = some (.top settledAbove) := by rfl
  have hgoverned := (resolve_governed_iff (o := noOverrides) (by decide) hhere rfl).2.2.1
  exact ⟨by decide, hhere, rfl, hgoverned.mpr (.inl (by decide))⟩

/-- They do not govern a run in the folder, whose output is not the one they ask for. -/
theorem settledAbove_not_governed :
    let s := (resolve settledAbove "/sub" noOverrides).value
    ∃ p, settledAbove.find? "/sub" "." = some p ∧
      p.governing.configured = some ⟨none, some "json", none⟩ ∧ s.output = "human" ∧
      ¬s.GovernedBy settledAbove "/sub" noOverrides p.governing := by
  have hhere : settledAbove.find? "/sub" "." =
      some ⟨.folder [], [settledAbove], ["sub"]⟩ := by rfl
  refine ⟨_, hhere, by decide +kernel, by decide +kernel, fun h => ?_⟩
  have hroot : (resolve settledAbove "/sub" noOverrides).value.repoRoot = "." := by
    decide +kernel
  have hplace := h.root
  rw [hroot, hhere, Option.some.injEq] at hplace
  exact absurd (congrArg FileTree.Place.names hplace) (by decide)

end Setup

end HelpAudit
