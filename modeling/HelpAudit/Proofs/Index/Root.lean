import HelpAudit.Proofs.Index.Growth
import HelpAudit.Proofs.Index.Identity
import HelpAudit.Proofs.Json.Reader
import HelpAudit.Proofs.Route

/-!
Where an index lies and where its documentation folder is. The index file as reports show it leads
from the folder back to the index. A manifest without a folder has that of the index, and it may as
well say so.
-/
namespace HelpAudit.Index

/-- The index file is shown as the way to it from the documentation folder, and leads back. -/
structure ShowsLocation (ix : Index) : Prop where
  way : FilePath.relative? ix.location ix.docRoot = some ix.indexFile
  leads_back : ix.resource ix.indexFile = ix.location

theorem IsBuilt.showsLocation {ix : Index} (h : ix.IsBuilt) : ix.ShowsLocation where
  way := FilePath.relative?_of_isCanonical h.docRoot_canonical h.location_canonical
  leads_back := by
    rw [resource, indexFile, Resource.join_relative]
    exact Resource.isCanonical_iff.mp h.location_canonical

/-- Every index shows where it lies, whether it was declared step by step or loaded. -/
theorem showsLocation_ofDeclarations_load :
    (∀ package docRoot ds, (ofDeclarations package docRoot ds).ShowsLocation) ∧
      ∀ text location ix, (load text location).value = .ok ix → ix.ShowsLocation :=
  ⟨fun package docRoot ds => IsBuilt.showsLocation ⟨package, docRoot, ds, rfl⟩,
    fun _ _ _ h => (isBuilt_of_load h).showsLocation⟩

/-- A manifest whose documentation lies in a folder of its own. -/
def besideText : String :=
  "\x7b\"package\":\"Docs\",\"doc_root\":\"help/en\"\x7d"

/-- The index may lie above the folder or in another one. -/
theorem besideText_showsLocation :
    let above := ofDeclarations "Docs" "Docs/help/en" [.location "Docs\\help/./de/../index.json"]
    above.ShowsLocation ∧ above.indexFile = "../index.json" ∧
      ∃ ix, (load besideText "Docs/index/hyperhelp.json").value = .ok ix ∧ ix.ShowsLocation ∧
        ix.indexFile = "../../index/hyperhelp.json" := by
  obtain ⟨hdeclared, hloaded⟩ := showsLocation_ofDeclarations_load
  refine ⟨hdeclared _ _ _, by decide +kernel, ?_⟩
  have h : (load besideText "Docs/index/hyperhelp.json").value.toOption.map (·.indexFile) =
      some "../../index/hyperhelp.json" := by decide +kernel
  cases hload : (load besideText "Docs/index/hyperhelp.json").value with
  | ok ix =>
    rw [hload] at h
    exact ⟨ix, rfl, hloaded _ _ ix hload, Option.some.inj h⟩
  | error e =>
    rw [hload] at h
    cases h

/-- The documentation folder that an index has without declaring one, as its manifest would write
it: the folder of the index, relative to the folder of the package. -/
def ownRoot (location : String) : String :=
  Resource.relative (Resource.top location) (Resource.folder location)

theorem isCanonical_folder (location : String) : Resource.IsCanonical (Resource.folder location) :=
  ⟨_, fun s hs => Resource.isPlain_segments location s (List.mem_of_mem_dropLast hs), rfl⟩

/-- Joined to the package folder, it is the folder of the index again. -/
theorem documentRoot_ownRoot (location : String) :
    documentRoot location (some (ownRoot location)) = documentRoot location none := by
  rw [documentRoot, documentRoot, ownRoot, Resource.join_relative]
  exact Resource.isCanonical_iff.mp (isCanonical_folder location)

/-- A loaded index has the documentation folder that its manifest asks for. -/
theorem docRoot_of_load {text location : String} {m : Manifest} {ix : Index}
    (hm : Manifest.parse? text = some m) (h : (load text location).value = .ok ix) :
    ix.docRoot = Resource.normalize (documentRoot (Resource.normalize location) m.docRoot) := by
  obtain ⟨m', d, hm', hd, hix, -⟩ := load_cases h
  obtain rfl : m = m' := Option.some.inj (hm.symm.trans hm')
  rw [addEntries_eq none [] 0] at hix
  rw [hix, hd]
  exact (Draft.identity_declareAll _ (.start m.package _)).2

/-- Two documents that differ in the folder they name, but not in where it is, load the same. -/
theorem load_congr {text text' location : String} {m : Manifest} {root : Option String}
    (hm : Manifest.parse? text = some m)
    (hm' : Manifest.parse? text' = some { m with docRoot := root })
    (hroot : documentRoot (Resource.normalize location) root =
      documentRoot (Resource.normalize location) m.docRoot) :
    load text' location = load text location := by
  unfold load
  rw [hm, hm']
  dsimp only
  rw [hroot]

section Member

open Json

namespace Manifest

theorem filter_name_eq_nil {ms : List (String × Written)} {name : String}
    (h : ∀ m ∈ ms, m.1 ≠ name) : ms.filter (·.1 == name) = [] := by
  rw [List.filter_eq_nil_iff]
  exact fun m hm => by simpa using h m hm

/-- A member in front is the one of its name, when there was none, and hides no other. -/
theorem member?_cons {ms : List (String × Written)} {name : String} (h : ∀ m ∈ ms, m.1 ≠ name)
    (w : Written) (key : String) : member? ((name, w) :: ms) key =
      if key = name then some (some w) else member? ms key := by
  unfold member?
  by_cases hkey : key = name
  · simp [hkey, filter_name_eq_nil h]
  · simp [hkey, Ne.symm hkey]

theorem member?_eq_none {ms : List (String × Written)} {name : String} (h : ∀ m ∈ ms, m.1 ≠ name) :
    member? ms name = some none := by
  rw [member?, filter_name_eq_nil h]

variable {m : Manifest}

theorem ofMembers?_docRoot {package description files contents : Option Written}
    (h : ofMembers? package description none files contents = some m) (root : String) :
    ofMembers? package description (some (.string (some root))) files contents =
      some { m with docRoot := some root } := by
  simp only [ofMembers?, Option.bind_eq_bind, Option.bind_eq_some_iff] at h ⊢
  obtain ⟨p, hp, d, hd, _, -, fs, hfs, es, hes, hm⟩ := h
  cases hm
  exact ⟨p, hp, d, hd, some root, rfl, fs, hfs, es, hes, rfl⟩

theorem exists_of_mem_mapM {α β : Type} {f : α → Option β} {xs : List α} {ys : List β}
    (h : xs.mapM f = some ys) : ∀ y ∈ ys, ∃ x ∈ xs, f x = some y := by
  induction xs generalizing ys with
  | nil =>
    cases h
    exact fun y hy => absurd hy List.not_mem_nil
  | cons x xs ih =>
    rw [List.mapM_cons] at h
    obtain ⟨z, hz, h⟩ := Option.bind_eq_some_iff.mp h
    obtain ⟨zs, hzs, h⟩ := Option.bind_eq_some_iff.mp h
    cases h
    intro y hy
    rcases List.mem_cons.mp hy with rfl | hy
    · exact ⟨x, List.mem_cons_self, hz⟩
    · obtain ⟨u, hu, hy⟩ := ih hzs y hy
      exact ⟨u, List.mem_cons_of_mem _ hu, hy⟩

/-- An object without a documentation folder may name one in front of its other members. -/
theorem ofWritten?_cons {ms : List (Option String × Written)}
    (hnone : ∀ n ∈ ms, n.1 ≠ some "doc_root") (h : ofWritten? (.object ms) = some m)
    (root : String) :
    ofWritten? (.object ((some "doc_root", .string (some root)) :: ms)) =
      some { m with docRoot := some root } := by
  simp only [ofWritten?, Option.bind_eq_bind, Option.bind_eq_some_iff] at h
  obtain ⟨named, hnamed, package, hpackage, description, hdescription, docRoot, hdocRoot, files,
    hfiles, contents, hcontents, hm⟩ := h
  have hnames : ∀ n ∈ named, n.1 ≠ "doc_root" := by
    intro n hn heq
    obtain ⟨x, hx, hxn⟩ := exists_of_mem_mapM hnamed n hn
    obtain ⟨name, hname, rfl⟩ := Option.map_eq_some_iff.mp hxn
    exact hnone x hx (hname.trans (congrArg some heq))
  obtain rfl : docRoot = none :=
    Option.some.inj (hdocRoot.symm.trans (member?_eq_none hnames))
  have hcons := member?_cons hnames (.string (some root))
  rw [ofWritten?, List.mapM_cons, hnamed]
  simp only [Option.map_some, Option.bind_eq_bind, Option.bind_some, Option.pure_def, hcons]
  simp only [hpackage, hdescription, hfiles, hcontents]
  exact ofMembers?_docRoot hm root

theorem parse?_putFront {text : String} {ms : List (Option String × Written)}
    (hw : Written.parse? text = some (.object ms)) (hnone : ∀ n ∈ ms, n.1 ≠ some "doc_root")
    (h : parse? text = some m) (root : String) :
    parse? (Written.putFront "doc_root" root text) = some { m with docRoot := some root } := by
  rw [parse?, hw, Option.bind_some] at h
  have hne : ms ≠ [] := by
    rintro rfl
    cases h
  rw [parse?, Written.parse?_putFront hne hw, Option.bind_some, ofWritten?_cons hnone h]

end Manifest

end Member

/-- An index whose manifest names no documentation folder has the parent of its location. The
document loads the same when it names this folder, relative to the package folder, whether it is
written anew or the one member is put in front of the others. -/
theorem load_ownRoot {text location : String} {m : Manifest} {ix : Index}
    (hm : Manifest.parse? text = some m) (hroot : m.docRoot = none)
    (hne : Resource.normalize location ≠ "") (hix : (load text location).value = .ok ix) :
    FilePath.parent? (Resource.normalize location) = some ix.docRoot ∧
      (∀ text', Manifest.parse? text' =
          some { m with docRoot := some (ownRoot (Resource.normalize location)) } →
        load text' location = load text location) ∧
      ∀ ms, Json.Written.parse? text = some (.object ms) →
        (∀ n ∈ ms, n.1 ≠ some "doc_root") →
        load (Json.Written.putFront "doc_root" (ownRoot (Resource.normalize location)) text)
          location = load text location := by
  have hsame : documentRoot (Resource.normalize location)
      (some (ownRoot (Resource.normalize location))) =
        documentRoot (Resource.normalize location) m.docRoot := by
    rw [hroot]
    exact documentRoot_ownRoot _
  refine ⟨?_, fun text' hm' => load_congr hm hm' hsame, fun ms hw hnone => ?_⟩
  · have hfolder := Resource.isCanonical_iff.mp (isCanonical_folder (Resource.normalize location))
    rw [docRoot_of_load hm hix, hroot, documentRoot, hfolder]
    exact FilePath.parent?_of_isCanonical (Resource.isCanonical_normalize location) hne
  · exact load_congr hm (Manifest.parse?_putFront hw hnone hm _) hsame

/-- A manifest with one file and nothing on the documentation folder. -/
def rootlessText : String :=
  "\x7b\"package\":\"Docs\",\"help_files\":\x7b\"index.txt\":[\"Index\"]\x7d\x7d"

/-- The index may lie below the package folder or in the packages directory itself. -/
theorem rootlessText_load_ownRoot :
    (∃ ix, (load rootlessText "./Docs//help\\hyperhelp.json").value = .ok ix ∧
      ix.docRoot = "Docs/help" ∧
      load (Json.Written.putFront "doc_root" "help" rootlessText) "./Docs//help\\hyperhelp.json" =
        load rootlessText "./Docs//help\\hyperhelp.json") ∧
    ∃ ix, (load rootlessText "hyperhelp.json").value = .ok ix ∧ ix.docRoot = "" ∧
      load (Json.Written.putFront "doc_root" ".." rootlessText) "hyperhelp.json" =
        load rootlessText "hyperhelp.json" := by
  obtain ⟨m, hm, hroot⟩ : ∃ m, Manifest.parse? rootlessText = some m ∧ m.docRoot = none := by
    have h : (Manifest.parse? rootlessText).map (·.docRoot) = some none := by decide +kernel
    exact Option.map_eq_some_iff.mp h
  obtain ⟨ms, hms, hnone⟩ : ∃ ms, Json.Written.parse? rootlessText = some (.object ms) ∧
      ∀ n ∈ ms, n.1 ≠ some "doc_root" := by
    have h : (Json.Written.parse? rootlessText).any (fun
      | .object ms => decide (∀ n ∈ ms, n.1 ≠ some "doc_root")
      | _ => false) := by decide +kernel
    obtain ⟨w, hw, h⟩ := (Option.any_eq_true _ _).mp h
    cases w with
    | object ms => exact ⟨ms, hw, of_decide_eq_true h⟩
    | _ => cases h
  have hloads (location : String) (h : (load rootlessText location).value.toOption.isSome) :
      ∃ ix, (load rootlessText location).value = .ok ix := by
    cases hload : (load rootlessText location).value with
    | ok ix => exact ⟨ix, rfl⟩
    | error e => simp [hload, Except.toOption] at h
  obtain ⟨below, hbelow⟩ := hloads "./Docs//help\\hyperhelp.json" (by decide +kernel)
  obtain ⟨top, htop⟩ := hloads "hyperhelp.json" (by decide +kernel)
  obtain ⟨hparent, -, hput⟩ := load_ownRoot hm hroot (by decide +kernel) hbelow
  obtain ⟨hparent', -, hput'⟩ := load_ownRoot hm hroot (by decide +kernel) htop
  have hhelp : ownRoot (Resource.normalize "./Docs//help\\hyperhelp.json") = "help" := by
    decide +kernel
  have hup : ownRoot (Resource.normalize "hyperhelp.json") = ".." := by decide +kernel
  have hfolder : FilePath.parent? (Resource.normalize "./Docs//help\\hyperhelp.json") =
      some "Docs/help" := by decide +kernel
  have hfolder' : FilePath.parent? (Resource.normalize "hyperhelp.json") = some "" := by
    decide +kernel
  refine ⟨⟨below, hbelow, Option.some.inj (hparent.symm.trans hfolder), ?_⟩,
    top, htop, Option.some.inj (hparent'.symm.trans hfolder'), ?_⟩
  · rw [← hhelp]
    exact hput ms hms hnone
  · rw [← hup]
    exact hput' ms hms hnone

end HelpAudit.Index
