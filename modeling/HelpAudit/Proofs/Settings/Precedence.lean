import HelpAudit.Proofs.Settings.Ascent
import HelpAudit.Proofs.Settings.Discovery
import HelpAudit.Proofs.Source.Texts

/-!
The settings of a run whose root is named with an absolute path. The nearest folder on the way up
that is marked as a root is the root, and there only the first settings file is read: if that one is
broken, no other one takes its place. What it leaves open is left to the defaults, one setting
without regard to the others.
-/
namespace HelpAudit

namespace FilePath

variable {path : String}

theorem steps_eq_of_components_eq {q r : String} (hq : isAbsolute q = true)
    (hr : isAbsolute r = true) (h : components q = components r) : steps q = steps r := by
  rw [components_of_isAbsolute hq, components_of_isAbsolute hr, List.cons.injEq] at h
  rw [← map_text_map_ofPiece (steps q), h.2, map_text_map_ofPiece]

/-- A path that does not go up again is written in names. -/
theorem isName_of_mem_steps (habsolute : isAbsolute path = true) (hup : .up ∉ components path) :
    ∀ s ∈ steps path, IsName s := by
  refine fun s hs => ⟨(List.mem_filter.mp hs).2, ?_⟩
  rintro rfl
  rw [components_of_isAbsolute habsolute] at hup
  exact hup (List.mem_cons_of_mem _ (List.mem_map_of_mem (f := Component.ofPiece) hs))

end FilePath

namespace FileTree

/-- What lies at an absolute path, or an empty folder. -/
def nodeAt (t : FileTree) (path : String) : FileTree :=
  (t.node? (FilePath.steps path)).getD (.folder [])

def HasMarker (t : FileTree) : Prop :=
  ∃ name ∈ ["helplint.toml", "helplint.yaml", "helplint.yml", ".git"], (t.child? name).isSome

/-- The one settings file of a folder that counts, with its format. Whether it can be read does not
matter. -/
inductive Consults (t : FileTree) : Option (FileTree × SettingsFormat) → Prop where
  | toml {file : FileTree} (here : t.child? "helplint.toml" = some file) :
      Consults t (some (file, .toml))
  | yaml {file : FileTree} (noToml : t.child? "helplint.toml" = none)
      (here : t.child? "helplint.yaml" = some file) : Consults t (some (file, .yaml))
  | yml {file : FileTree} (noToml : t.child? "helplint.toml" = none)
      (noYaml : t.child? "helplint.yaml" = none) (here : t.child? "helplint.yml" = some file) :
      Consults t (some (file, .yaml))
  | none (noToml : t.child? "helplint.toml" = none) (noYaml : t.child? "helplint.yaml" = none)
      (noYml : t.child? "helplint.yml" = none) : Consults t none

/-- The settings of a folder. A file that has no text or breaks its format counts, but sets
nothing. -/
inductive Configures (t : FileTree) : Settings → Prop where
  | absent (consults : Consults t none) : Configures t .empty
  | ignored {file : FileTree} {format : SettingsFormat} (consults : Consults t (some (file, format)))
      (broken : file.text?.bind format.parse? = none) : Configures t .empty
  | given {file : FileTree} {format : SettingsFormat} {c : Settings}
      (consults : Consults t (some (file, format)))
      (parsed : file.text?.bind format.parse? = some c) : Configures t c

theorem exists_consults (t : FileTree) : ∃ file?, t.Consults file? := by
  cases htoml : t.child? "helplint.toml" with
  | some => exact ⟨_, .toml htoml⟩
  | none =>
    cases hyaml : t.child? "helplint.yaml" with
    | some => exact ⟨_, .yaml htoml hyaml⟩
    | none =>
      cases hyml : t.child? "helplint.yml" with
      | some => exact ⟨_, .yml htoml hyaml hyml⟩
      | none => exact ⟨_, .none htoml hyaml hyml⟩

namespace Place

variable {p : Place} {file? : Option (FileTree × SettingsFormat)}

theorem isMarked_iff : p.isMarked = true ↔ p.node.HasMarker := List.any_eq_true

theorem configured_of_consults (h : p.node.Consults file?) :
    p.configured = file?.bind fun f => f.1.text?.bind f.2.parse? := by
  cases h <;> simp [configured, settingsFiles, *]

theorem configures_configured (p : Place) : p.node.Configures (p.configured.getD .empty) := by
  obtain ⟨file?, hconsults⟩ := exists_consults p.node
  rw [configured_of_consults hconsults]
  cases file? with
  | none => exact .absent hconsults
  | some f =>
    rw [Option.bind_some]
    cases hparsed : f.1.text?.bind f.2.parse? with
    | none => exact .ignored hconsults hparsed
    | some c => exact .given hconsults hparsed

theorem configures_iff {c : Settings} :
    p.node.Configures c ↔ c = p.configured.getD .empty := by
  constructor
  · intro h
    cases h with
    | absent h => rw [configured_of_consults h, Option.bind_none, Option.getD_none]
    | ignored h hbroken =>
      rw [configured_of_consults h, Option.bind_some, hbroken, Option.getD_none]
    | given h hparsed =>
      rw [configured_of_consults h, Option.bind_some, hparsed, Option.getD_some]
  · rintro rfl
    exact configures_configured p

end Place

variable {t : FileTree} {cwd folder name : String}

section Absolute

variable (habsolute : FilePath.isAbsolute folder = true) (hup : .up ∉ FilePath.components folder)
include habsolute hup

/-- A name joined to a path leads to the entry of that name. -/
theorem find?_join_name (hname : Resource.IsPlain name.toList) :
    (t.find? cwd (FilePath.join folder name)).map (·.node) = (t.nodeAt folder).child? name := by
  have hnode : ((FilePath.steps folder).foldlM Place.walk? (Place.top t)).map (·.node) =
      t.node? (FilePath.steps folder) :=
    (Place.top t).walk_names (FilePath.isName_of_mem_steps habsolute hup)
  have hlast : ([name.toList].foldlM Place.walk? ·) = (·.walk? name.toList) :=
    funext fun q => bind_pure _
  rw [find?_of_isAbsolute t cwd (FilePath.isAbsolute_join habsolute name),
    walk_join habsolute (FilePath.isAbsolute_of_isPlain hname), FilePath.pieces_of_isPlain hname,
    hlast, Place.walk_filter_bind, nodeAt, ← hnode, ← FilePath.steps.eq_def]
  cases (FilePath.steps folder).foldlM Place.walk? (Place.top t) with
  | none => rfl
  | some q =>
    rw [Option.bind_some, Place.walk?_of_isPlain hname, Place.child?, Option.map_map]
    exact Option.map_id'

theorem isRoot_iff : t.isRoot cwd folder = true ↔ (t.nodeAt folder).HasMarker := by
  rw [isRoot_eq (p := .top (t.nodeAt folder)) fun name hname =>
    find?_join_name habsolute hup (isPlain_of_mem_rootMarkers name hname)]
  exact Place.isMarked_iff

theorem configures_iff_settings {c : Settings} :
    (t.nodeAt folder).Configures c ↔ c = (t.settings cwd folder).value.getD .empty := by
  rw [settings_eq (p := .top (t.nodeAt folder)) fun name hname =>
    find?_join_name habsolute hup (isPlain_of_mem_rootMarkers name hname)]
  exact Place.configures_iff (p := .top (t.nodeAt folder))

end Absolute

theorem nodeAt_eq_of_components_eq {q r : String} (hq : FilePath.isAbsolute q = true)
    (hr : FilePath.isAbsolute r = true) (h : FilePath.components q = FilePath.components r) :
    t.nodeAt q = t.nodeAt r := by
  rw [nodeAt, nodeAt, FilePath.steps_eq_of_components_eq hq hr h]

theorem ascends_repoRoot (t : FileTree) (cwd start : String) :
    FilePath.Ascends (t.isRoot cwd) start start (t.repoRoot cwd start) :=
  FilePath.ascends_find? (t.isRoot cwd) start start

theorem isNearest_repoRoot {start : String} (habsolute : FilePath.isAbsolute start = true)
    (hup : .up ∉ FilePath.components start) :
    FilePath.IsNearest (fun q => (t.nodeAt q).HasMarker) start start (t.repoRoot cwd start) := by
  refine (ascends_repoRoot t cwd start).isNearest habsolute (fun q hq => ?_) fun q r hq hr heq => ?_
  · exact isRoot_iff hq.1 fun hmem => hup (hq.2.subset hmem)
  · rw [nodeAt_eq_of_components_eq hq hr heq]
    exact id

end FileTree

/-- What was asked for, else what is configured, else the default. -/
inductive Prevails {α : Type} (asked configured : Option α) (byDefault : α) : α → Prop where
  | asked {a : α} (h : asked = some a) : Prevails asked configured byDefault a
  | configured {a : α} (notAsked : asked = none) (h : configured = some a) :
      Prevails asked configured byDefault a
  | byDefault (notAsked : asked = none) (notConfigured : configured = none) :
      Prevails asked configured byDefault byDefault

theorem prevails_iff {α : Type} {asked configured : Option α} {byDefault a : α} :
    Prevails asked configured byDefault a ↔ a = (asked.or configured).getD byDefault := by
  constructor
  · intro h
    cases h with
    | asked h => rw [h, Option.some_or, Option.getD_some]
    | configured hasked h => rw [hasked, h, Option.none_or, Option.getD_some]
    | byDefault hasked hconfigured => rw [hasked, hconfigured, Option.none_or, Option.getD_none]
  · rintro rfl
    cases asked with
    | some a => exact .asked rfl
    | none =>
      cases configured with
      | some a => exact .configured rfl rfl
      | none => exact .byDefault rfl rfl

namespace Setup

/-- Each setting on its own is the one that was asked for, the configured one or its default. -/
structure Follows (o : Overrides) (c : Settings) (s : Setup) : Prop where
  packagesRoot : Prevails o.packagesRoot (c.packagesRoot.map (FilePath.join s.repoRoot))
    (FilePath.join s.repoRoot "Packages") s.packagesRoot
  output : Prevails o.output c.output "human" s.output
  indexName : Prevails none c.indexName "hyperhelp.json" s.indexName

theorem follows_ofSettings (root : String) (o : Overrides) (c : Settings) :
    (ofSettings root o c).Follows o c where
  packagesRoot := by
    rw [prevails_iff, Option.getD_or, Option.getD_map]
    rfl
  output := prevails_iff.mpr rfl
  indexName := prevails_iff.mpr rfl

variable {o : Overrides} {start : String}

/-- Where an absolute path names the root of a run, the search from there up ends at the nearest
marked folder, or where it started. The settings of that folder are those that count, and of its
settings files only the first: the run goes by what it was called with, else by them. -/
theorem resolve_precedence (t : FileTree) (cwd : String) (ho : o.repoRoot = some start)
    (habsolute : FilePath.isAbsolute start = true) (hup : .up ∉ FilePath.components start) :
    let s := (resolve t cwd o).value
    FilePath.Ascends (t.isRoot cwd) start start s.repoRoot ∧
      FilePath.IsNearest (fun q => (t.nodeAt q).HasMarker) start start s.repoRoot ∧
      (∃ c, (∀ d, (t.nodeAt s.repoRoot).Configures d ↔ d = c) ∧ s.Follows o c) ∧
      ∀ path, if FilePath.isAbsolute path then FilePath.join s.repoRoot path = path else
        FilePath.isAbsolute (FilePath.join s.repoRoot path) = true ∧
          FilePath.steps (FilePath.join s.repoRoot path) =
            FilePath.steps s.repoRoot ++ FilePath.steps path := by
  intro s
  let root := t.repoRoot cwd start
  have hvalue : s = ofSettings root o ((t.settings cwd root).value.getD .empty) := by
    change (resolve t cwd o).value = _
    rw [resolve, ho]
    rfl
  have hroot : s.repoRoot = root := by
    rw [hvalue]
    rfl
  have hnearest : FilePath.IsNearest (fun q => (t.nodeAt q).HasMarker) start start root :=
    FileTree.isNearest_repoRoot habsolute hup
  obtain ⟨hrootAbsolute, hfront⟩ := hnearest.atOrAbove habsolute
  have hconfigures d :
      (t.nodeAt root).Configures d ↔ d = (t.settings cwd root).value.getD .empty :=
    FileTree.configures_iff_settings hrootAbsolute fun h => hup (hfront.subset h)
  rw [hroot]
  refine ⟨t.ascends_repoRoot cwd start, hnearest, ⟨_, hconfigures, ?_⟩, fun path => ?_⟩
  · rw [hvalue]
    exact follows_ofSettings root o _
  · split
    · next hpath => exact FilePath.join_of_isAbsolute root hpath
    · next hpath =>
      exact ⟨FilePath.isAbsolute_join hrootAbsolute path,
        FilePath.steps_join root (Bool.not_eq_true _ ▸ hpath)⟩

/-- Settings that are broken in one format and given in another, below settings that are not. -/
def brokenBelow : FileTree :=
  .folder [("repo", .folder [
    (".git", .folder []), ("helplint.toml", .file (some "output = \"json\"")),
    ("project", .folder [
      ("helplint.yaml", .file (some "output: json\n")), ("helplint.toml", .file (some "output = [")),
      ("pages", .folder [])])])]

def fromPages : Overrides := ⟨some "/repo/project/./pages//", some "pkgs", none⟩

/-- The broken settings are those of the nearest root, and the defaults take their place. -/
theorem brokenBelow_precedence :
    let s := (resolve brokenBelow "/" fromPages).value
    FilePath.isAbsolute "/repo/project/./pages//" = true ∧
      .up ∉ FilePath.components "/repo/project/./pages//" ∧ s.repoRoot = "/repo/project" ∧
      (brokenBelow.nodeAt s.repoRoot).Configures .empty ∧ s.Follows fromPages .empty ∧
      s.packagesRoot = "pkgs" ∧ s.output = "human" := by
  intro s
  have habsolute : FilePath.isAbsolute "/repo/project/./pages//" = true := by decide
  have hup : .up ∉ FilePath.components "/repo/project/./pages//" := by decide
  have hroot : s.repoRoot = "/repo/project" := by decide +kernel
  have hconfigures : (brokenBelow.nodeAt s.repoRoot).Configures .empty := by
    rw [hroot]
    exact .ignored (.toml rfl) (by decide +kernel)
  obtain ⟨-, -, ⟨c, hunique, hfollows⟩, -⟩ :=
    resolve_precedence brokenBelow "/" (o := fromPages) rfl habsolute hup
  obtain rfl := (hunique .empty).mp hconfigures
  have hpackages : s.packagesRoot = "pkgs" := prevails_iff.mp hfollows.packagesRoot
  have houtput : s.output = "human" := prevails_iff.mp hfollows.output
  exact ⟨habsolute, hup, hroot, hconfigures, hfollows, hpackages, houtput⟩

end Setup

end HelpAudit
