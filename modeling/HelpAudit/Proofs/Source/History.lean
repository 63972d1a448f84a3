import HelpAudit.Proofs.ByteOrder
import HelpAudit.Proofs.Glob
import HelpAudit.Proofs.Source.Memory
import Mathlib.Data.List.Induction

/-!
What a memory holds after texts were put into it one after the other, under paths that may be
spelled in many ways. Each resource has the text that was put last under any of its spellings. A
listing gives just the resources below a folder whose last segment matches, once each and in the
order of their bytes.
-/
namespace HelpAudit.Memory

variable {files : List (String × String)} {f : String × String} {path text : String}

/-- The text that was put last under some spelling of a path. -/
def LastPut (files : List (String × String)) (path text : String) : Prop :=
  ∃ before spelling after, files = before ++ (spelling, text) :: after ∧
    Resource.normalize spelling = Resource.normalize path ∧
    ∀ f ∈ after, Resource.normalize f.1 ≠ Resource.normalize path

theorem not_lastPut_nil : ¬LastPut [] path text := by
  rintro ⟨before, spelling, after, heq, -⟩
  simp at heq

/-- A text that is put takes the place of the one before, and leaves those of other paths. -/
theorem lastPut_concat : LastPut (files ++ [f]) path text ↔
    Resource.normalize f.1 = Resource.normalize path ∧ f.2 = text ∨
      Resource.normalize f.1 ≠ Resource.normalize path ∧ LastPut files path text := by
  constructor
  · rintro ⟨before, spelling, after, heq, hspelling, hafter⟩
    rcases List.eq_nil_or_concat after with rfl | ⟨after, g, rfl⟩
    · obtain ⟨-, hlast⟩ := List.append_inj' heq rfl
      obtain rfl := List.singleton_inj.mp hlast
      exact .inl ⟨hspelling, rfl⟩
    · rw [List.concat_eq_append, ← List.cons_append, ← List.append_assoc] at heq
      obtain ⟨rfl, hlast⟩ := List.append_inj' heq rfl
      obtain rfl := List.singleton_inj.mp hlast
      exact .inr ⟨hafter f (by simp),
        before, spelling, after, rfl, hspelling, fun g hg => hafter g (by simp [hg])⟩
  · rintro (⟨hf, rfl⟩ | ⟨hf, before, spelling, after, rfl, hspelling, hafter⟩)
    · exact ⟨files, f.1, [], rfl, hf, by simp⟩
    · refine ⟨before, spelling, after ++ [f], by simp, hspelling, fun g hg => ?_⟩
      rcases List.mem_append.mp hg with hg | hg
      · exact hafter g hg
      · rwa [List.mem_singleton.mp hg]

theorem lastPut_congr {other : String} (h : Resource.normalize path = Resource.normalize other) :
    LastPut files path text ↔ LastPut files other text := by
  unfold LastPut
  rw [h]

theorem content_put (m : Memory) (path text other : String) :
    (put m path text).source.content other =
      if Resource.normalize other = Resource.normalize path then some text
      else m.source.content other :=
  NameMap.find?_insert m (Resource.normalize path) (Resource.normalize other) text

theorem ofList_concat (files : List (String × String)) (f : String × String) :
    ofList (files ++ [f]) = put (ofList files) f.1 f.2 := by
  rw [ofList, List.foldl_append]
  rfl

/-- A path is read as the text that was put last under a spelling of it. -/
theorem content_eq_some_iff :
    (ofList files).source.content path = some text ↔ LastPut files path text := by
  induction files using List.reverseRecOn with
  | nil =>
    have hempty : (ofList []).source.content path = none := rfl
    rw [hempty]
    exact iff_of_false nofun not_lastPut_nil
  | append_singleton files f ih =>
    rw [ofList_concat, content_put, lastPut_concat, ← ih]
    by_cases h : Resource.normalize path = Resource.normalize f.1
    · simp [h]
    · simp [h, Ne.symm h]

section Listing

variable {folder glob resource : String} {atoms : List Glob.Atom}

/-- The last segment of a resource, which is empty for the top. -/
def lastSegment (resource : String) : Resource.Segment :=
  (Resource.segments resource).getLast?.getD []

theorem mem_list_ofList (hglob : Glob.parse? glob = some atoms) :
    resource ∈ list (ofList files) folder glob ↔
      (∃ f ∈ files, Resource.normalize f.1 = resource) ∧
      (Resource.normalize folder = "" ∨ ∃ more, more ≠ [] ∧
        Resource.segments resource = Resource.segments folder ++ more) ∧
      Glob.matchesName atoms (lastSegment resource) = true := by
  rw [mem_list hglob, contains_ofList, List.mem_map]
  apply and_congr_right
  rintro ⟨f, -, rfl⟩
  have hcanonical := Resource.isCanonical_normalize f.1
  rw [Resource.isSome_below?_iff (Resource.isCanonical_normalize folder) hcanonical,
    Resource.leaf_of_isCanonical hcanonical, String.toList_ofList,
    Resource.segments_normalize folder, lastSegment]

/-- A listing is in strictly ascending order of bytes and has just the canonical paths of what was
put below the folder under a name that matches. Each is read, however it is spelled, as what was put
last under a spelling of it. -/
theorem listing_exact (files : List (String × String)) (folder : String)
    (hglob : Glob.parse? glob = some atoms) :
    let source := (ofList files).source
    let listed := (source.list folder glob).value
    (listed.Pairwise fun a b => utf8Bytes a < utf8Bytes b) ∧
    (∀ resource, resource ∈ listed ↔
      (∃ f ∈ files, Resource.normalize f.1 = resource) ∧
      (Resource.normalize folder = "" ∨ ∃ more, more ≠ [] ∧
        Resource.segments resource = Resource.segments folder ++ more) ∧
      Glob.matchesName atoms (lastSegment resource) = true) ∧
    ∀ resource ∈ listed, ∀ spelling, Resource.normalize spelling = resource →
      ∃ text, LastPut files resource text ∧ source.content spelling = some text ∧
        source.holds spelling = true := by
  intro source listed
  refine ⟨(pairwise_list _ folder glob).imp lt_iff_utf8Bytes_lt.mp,
    fun resource => mem_list_ofList hglob, fun resource hmem spelling hspelling => ?_⟩
  have hnormal : Resource.normalize spelling = Resource.normalize resource := by
    rw [← hspelling, Resource.normalize_normalize]
  obtain ⟨text, htext⟩ := exists_content_of_mem_list hmem hnormal
  have hholds : source.holds spelling = true := Option.isSome_of_eq_some htext
  exact ⟨text, (lastPut_congr hnormal).mp (content_eq_some_iff.mp htext), htext, hholds⟩

/-- Two spellings of one resource, a folder with the same beginning, a name beyond ASCII and another
ending. -/
def spelledFiles : List (String × String) :=
  [("Docs\\help/./a.txt", "old"), ("Docs/helper/c.txt", "c"), ("./Docs/help/sub//é.txt", "e"),
    ("Docs/x/../help/a.txt", "new"), ("Docs/help/z.md", "z")]

theorem spelledFiles_listing_exact :
    let source := (ofList spelledFiles).source
    let listed := (source.list "Docs/help/" "*.txt").value
    Glob.parse? "*.txt" = some (.anyRun :: ".txt".toList.map .literal) ∧
      listed = ["Docs/help/a.txt", "Docs/help/sub/é.txt"] ∧
      (listed.Pairwise fun a b => utf8Bytes a < utf8Bytes b) ∧
      ".txt".toList <:+ lastSegment "Docs/help/a.txt" ∧
      LastPut spelledFiles "Docs/help/a.txt" "new" ∧
      source.content "Docs\\help\\a.txt" = some "new" := by
  intro source listed
  have hglob := Glob.matchesNames_txt.name
  obtain ⟨hordered, hlisted, hread⟩ := listing_exact spelledFiles "Docs/help/" hglob
  have hpages : listed = ["Docs/help/a.txt", "Docs/help/sub/é.txt"] := by decide +kernel
  have hmem : "Docs/help/a.txt" ∈ listed := hpages ▸ List.mem_cons_self
  obtain ⟨-, -, hmatches⟩ := (hlisted _).mp hmem
  obtain ⟨text, hlast, hcontent, -⟩ := hread _ hmem "Docs\\help\\a.txt" (by decide +kernel)
  have hnew : source.content "Docs\\help\\a.txt" = some "new" := by decide +kernel
  obtain rfl : text = "new" := Option.some.inj (hcontent.symm.trans hnew)
  exact ⟨hglob, hpages, hordered, (Glob.matchesName_anyRun_literals _ _).mp hmatches, hlast,
    hcontent⟩

end Listing

end HelpAudit.Memory
