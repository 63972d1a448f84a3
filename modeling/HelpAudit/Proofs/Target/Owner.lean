import HelpAudit.Proofs.Index.Identity
import HelpAudit.Proofs.NameMap
import HelpAudit.Target
import Mathlib.Data.List.Induction

/-!
The package that a path belongs to. A package encloses the paths in its documentation folder. Of the
packages that enclose a path its owner has the longest folder and, among equal folders, the last
name. A path in the folder of its owner is the folder, the index file or a file written below it.
-/
namespace HelpAudit

open Resource (IsCanonical segments)

/-- The segments of the documentation folder are the first of the path: the folder is the path or
lies above it. The top encloses every path. -/
def Index.Encloses (ix : Index) (path : String) : Prop := segments ix.docRoot <+: segments path

instance (ix : Index) (path : String) : Decidable (ix.Encloses path) :=
  inferInstanceAs (Decidable (_ <+: _))

namespace Target

variable {catalog : Catalog} {path name : String} {ix : Index}

theorem owns_iff (hroot : IsCanonical ix.docRoot) :
    owns (Resource.normalize path) ix = true ↔ ix.Encloses path := by
  rw [owns, Bool.or_eq_true, String.isEmpty_iff,
    Resource.contains_iff hroot (Resource.isCanonical_normalize path), Resource.segments_normalize]
  refine or_iff_right_of_imp fun hempty => ?_
  rw [hempty, Resource.segments_empty]
  exact List.nil_prefix

/-- The package of this name encloses the path, no package that does has a longer folder, and none
with a folder of this length a later name. -/
structure IsOwner (catalog : Catalog) (path name : String) (ix : Index) : Prop where
  found : catalog.find? name = some ix
  encloses : ix.Encloses path
  longest : ∀ other jx, catalog.find? other = some jx → jx.Encloses path →
    jx.docRoot.utf8ByteSize ≤ ix.docRoot.utf8ByteSize
  last : ∀ other jx, catalog.find? other = some jx → jx.Encloses path →
    jx.docRoot.utf8ByteSize = ix.docRoot.utf8ByteSize → other ≤ name

theorem IsOwner.unique {other : String} {jx : Index} (h : IsOwner catalog path name ix)
    (h' : IsOwner catalog path other jx) : ix = jx := by
  have hsize : jx.docRoot.utf8ByteSize = ix.docRoot.utf8ByteSize :=
    Nat.le_antisymm (h.longest _ _ h'.found h'.encloses) (h'.longest _ _ h.found h.encloses)
  have hle := h.last _ _ h'.found h'.encloses hsize
  have hge := h'.last _ _ h.found h.encloses hsize.symm
  have hname : name = other := String.le_antisymm hge hle
  have hfound := h'.found
  rw [← hname, h.found] at hfound
  exact Option.some.inj hfound

/-- The earlier package stays when its folder is longer, and else the later one is taken. -/
theorem deeper_eq_some {best : Option Index} {jx : Index} (h : deeper best jx = some ix) :
    (best = some ix ∧ jx.docRoot.utf8ByteSize < ix.docRoot.utf8ByteSize) ∨
      ix = jx ∧ ∀ b, best = some b → b.docRoot.utf8ByteSize ≤ jx.docRoot.utf8ByteSize := by
  unfold deeper at h
  split at h
  · next b =>
    split at h
    · next hlt =>
      obtain rfl := Option.some.inj h
      exact .inl ⟨rfl, hlt⟩
    · next hle =>
      obtain rfl := Option.some.inj h
      exact .inr ⟨rfl, fun b' hb' => Option.some.inj hb' ▸ Nat.le_of_not_lt hle⟩
  · obtain rfl := Option.some.inj h
    exact .inr ⟨rfl, fun b hb => nomatch hb⟩

theorem foldl_deeper_eq_none_iff {ixs : List Index} : ixs.foldl deeper none = none ↔ ixs = [] := by
  refine ⟨fun h => ?_, fun h => by rw [h]; rfl⟩
  rcases List.eq_nil_or_concat ixs with rfl | ⟨before, jx, rfl⟩
  · rfl
  · rw [List.concat_eq_append, List.foldl_append] at h
    change deeper (before.foldl deeper none) jx = none at h
    unfold deeper at h
    split at h
    · split at h <;> cases h
    · cases h

/-- Of entries in ascending order the last one with the longest folder is taken. -/
theorem longest_of_foldl_deeper {es : List (String × Index)} (hs : es.Pairwise (·.1 < ·.1))
    (h : (es.map (·.2)).foldl deeper none = some ix) : ∃ name, (name, ix) ∈ es ∧ ∀ e ∈ es,
      e.2.docRoot.utf8ByteSize ≤ ix.docRoot.utf8ByteSize ∧
        (e.2.docRoot.utf8ByteSize = ix.docRoot.utf8ByteSize → e.1 ≤ name) := by
  induction es using List.reverseRecOn generalizing ix with
  | nil => cases h
  | append_singleton es e ih =>
    obtain ⟨hes, -, hlt⟩ := List.pairwise_append.mp hs
    rw [List.map_append, List.foldl_append] at h
    rcases deeper_eq_some h with ⟨hbest, hsize⟩ | ⟨rfl, hbest⟩
    · obtain ⟨name, hmem, hlongest⟩ := ih hes hbest
      refine ⟨name, List.mem_append_left _ hmem, fun d hd => ?_⟩
      rcases List.mem_append.mp hd with hd | hd
      · exact hlongest d hd
      · rw [List.mem_singleton.mp hd]
        exact ⟨Nat.le_of_lt hsize, fun heq => absurd heq (Nat.ne_of_lt hsize)⟩
    · refine ⟨e.1, List.mem_append_right _ List.mem_cons_self, fun d hd => ?_⟩
      rcases List.mem_append.mp hd with hd | hd
      · -- The new entry has the last name, and no shorter folder than the best one before it.
        refine ⟨?_, fun _ => Std.le_of_lt (hlt d hd e List.mem_cons_self)⟩
        cases hb : (es.map (·.2)).foldl deeper none with
        | none =>
          rw [List.map_eq_nil_iff.mp (foldl_deeper_eq_none_iff.mp hb)] at hd
          cases hd
        | some b =>
          obtain ⟨last, -, hlongest⟩ := ih hes hb
          exact Nat.le_trans (hlongest d hd).1 (hbest b hb)
      · rw [List.mem_singleton.mp hd]
        exact ⟨Nat.le_refl _, fun _ => String.le_refl _⟩

section Rooted

variable (hroots : ∀ ix ∈ catalog.values, IsCanonical ix.docRoot)
include hroots

theorem owner?_eq_none_iff : owner? catalog (Resource.normalize path) = none ↔
    ∀ ix ∈ catalog.values, ¬ ix.Encloses path := by
  rw [owner?, foldl_deeper_eq_none_iff, List.filter_eq_nil_iff]
  refine forall₂_congr fun ix hix => not_congr ?_
  exact owns_iff (hroots ix hix)

theorem isOwner_of_owner? (h : owner? catalog (Resource.normalize path) = some ix) :
    ∃ name, IsOwner catalog path name ix := by
  have hvalues : catalog.values.filter (owns (Resource.normalize path)) =
      (catalog.entries.filter fun e => owns (Resource.normalize path) e.2).map (·.2) :=
    List.filter_map
  rw [owner?, hvalues] at h
  obtain ⟨name, hmem, hlongest⟩ := longest_of_foldl_deeper (catalog.ascending.filter _) h
  obtain ⟨hmem, howns⟩ := List.mem_filter.mp hmem
  have hfound := NameMap.find?_eq_some_iff.mpr hmem
  have hencloses : ix.Encloses path :=
    (owns_iff (hroots ix (NameMap.mem_values_iff.mpr ⟨name, hfound⟩))).mp howns
  have hother : ∀ other jx, catalog.find? other = some jx → jx.Encloses path →
      jx.docRoot.utf8ByteSize ≤ ix.docRoot.utf8ByteSize ∧
        (jx.docRoot.utf8ByteSize = ix.docRoot.utf8ByteSize → other ≤ name) := by
    intro other jx hjx hencloses
    have howns := (owns_iff (hroots jx (NameMap.mem_values_iff.mpr ⟨other, hjx⟩))).mpr hencloses
    exact hlongest (other, jx) (List.mem_filter.mpr ⟨NameMap.find?_eq_some_iff.mp hjx, howns⟩)
  exact ⟨name, hfound, hencloses, fun other jx hjx he => (hother other jx hjx he).1,
    fun other jx hjx he => (hother other jx hjx he).2⟩

/-- The other packages that enclose the path have folders around that of the owner or this folder
itself, and of those with this folder the owner is the last. -/
theorem isOwner_iff (hfound : catalog.find? name = some ix) : IsOwner catalog path name ix ↔
    ix.Encloses path ∧ ∀ other jx, catalog.find? other = some jx → jx.Encloses path →
      jx.Encloses ix.docRoot ∧ (jx.docRoot = ix.docRoot → other ≤ name) := by
  have hroot : IsCanonical ix.docRoot := hroots ix (NameMap.mem_values_iff.mpr ⟨name, hfound⟩)
  have hother {other jx} (hjx : catalog.find? other = some jx) : IsCanonical jx.docRoot :=
    hroots jx (NameMap.mem_values_iff.mpr ⟨other, hjx⟩)
  constructor
  · intro h
    refine ⟨h.encloses, fun other jx hjx hencloses => ⟨?_, fun heq => ?_⟩⟩
    · -- Of two folders that enclose the path one encloses the other.
      rcases List.prefix_or_prefix_of_prefix hencloses h.encloses with hle | hge
      · exact hle
      by_cases heq : jx.docRoot = ix.docRoot
      · show segments jx.docRoot <+: segments ix.docRoot
        exact heq ▸ List.prefix_refl _
      · have hlt := Resource.utf8ByteSize_lt_of_prefix hroot (hother hjx) hge heq
        exact absurd (h.longest other jx hjx hencloses) (Nat.not_le_of_lt hlt)
    · exact h.last other jx hjx hencloses (by rw [heq])
  · rintro ⟨hencloses, h⟩
    have hlt {other jx} (hjx : catalog.find? other = some jx) (hj : jx.Encloses path)
        (hne : jx.docRoot ≠ ix.docRoot) : jx.docRoot.utf8ByteSize < ix.docRoot.utf8ByteSize :=
      Resource.utf8ByteSize_lt_of_prefix (hother hjx) hroot (h other jx hjx hj).1 (Ne.symm hne)
    refine ⟨hfound, hencloses, fun other jx hjx hj => ?_, fun other jx hjx hj hsize => ?_⟩
    · by_cases heq : jx.docRoot = ix.docRoot
      · rw [heq]
      · exact Nat.le_of_lt (hlt hjx hj heq)
    · by_cases heq : jx.docRoot = ix.docRoot
      · exact (h other jx hjx hj).2 heq
      · exact absurd hsize (Nat.ne_of_lt (hlt hjx hj heq))

theorem owner?_eq_some_iff : owner? catalog (Resource.normalize path) = some ix ↔
    ∃ name, IsOwner catalog path name ix := by
  refine ⟨isOwner_of_owner? hroots, fun ⟨name, howner⟩ => ?_⟩
  cases h : owner? catalog (Resource.normalize path) with
  | none =>
    have hix := NameMap.mem_values_iff.mpr ⟨name, howner.found⟩
    exact absurd howner.encloses ((owner?_eq_none_iff hroots).mp h ix hix)
  | some jx =>
    obtain ⟨other, howner'⟩ := isOwner_of_owner? hroots h
    rw [howner'.unique howner]

end Rooted

/-- What a path asks for in the package that owns it. When it is the folder or the index file these
are all declared files in order, and else the one file that the path is the resource of. The name of
the file is what stands in the path behind the folder and a slash, where a character of the path
starts. -/
structure Asks (path : String) (t : Target) : Prop where
  package : Resource.normalize path = t.index.docRoot ∨ Resource.normalize path = t.index.location →
    t.scope = .package ∧ t.files = t.index.files.map (·.path)
  file : Resource.normalize path ≠ t.index.docRoot → Resource.normalize path ≠ t.index.location →
    ∃ file, t.scope = .single ∧ t.files = [file] ∧ file ≠ "" ∧
      t.index.resource file = Resource.normalize path ∧
      (t.index.docRoot ≠ "" → Resource.normalize path = t.index.docRoot ++ "/" ++ file ∧
        String.Pos.Raw.IsValid (Resource.normalize path) ⟨t.index.docRoot.utf8ByteSize + 1⟩)

theorem Asks.eq_wholePackage {t : Target} (h : Asks path t)
    (hpath : Resource.normalize path = t.index.docRoot ∨
      Resource.normalize path = t.index.location) : t = wholePackage t.index := by
  obtain ⟨hscope, hfiles⟩ := h.package hpath
  obtain ⟨scope, index, files⟩ := t
  obtain rfl : scope = .package := hscope
  obtain rfl : files = index.files.map (·.path) := hfiles
  rfl

/-- The target that a path has in the package that owns it. -/
theorem exists_target (hroot : IsCanonical ix.docRoot) (hencloses : ix.Encloses path)
    (howner : owner? catalog (Resource.normalize path) = some ix) :
    ∃ t, resolve? catalog path = some t ∧ t.index = ix ∧ Asks path t := by
  rw [resolve?, howner, Option.map_some]
  by_cases hwhole : Resource.normalize path = ix.docRoot ∨ Resource.normalize path = ix.location
  · refine ⟨wholePackage ix, by rw [if_pos hwhole], rfl, fun _ => ⟨rfl, rfl⟩,
      fun hne hne' => ?_⟩
    exact absurd hwhole (not_or.mpr ⟨hne, hne'⟩)
  · rw [if_neg hwhole]
    refine ⟨_, rfl, rfl, fun h => absurd h hwhole, fun hne _ => ?_⟩
    rw [Index.Encloses, ← Resource.segments_normalize path] at hencloses
    obtain ⟨file, hbelow, hcanonical, hempty, hjoin, hslice⟩ :=
      Resource.exists_below? hroot (Resource.isCanonical_normalize path) hencloses hne
    refine ⟨file, rfl, ?_, hempty, hjoin, fun hne => ⟨hslice hne, ?_⟩⟩
    · have hname : Resource.normalize file = file := Resource.isCanonical_iff.mp hcanonical
      rw [hbelow, Option.getD_some, singleFile, hname]
    · have hend : (ix.docRoot ++ "/").rawEndPos = ⟨ix.docRoot.utf8ByteSize + 1⟩ := by
        rw [String.rawEndPos, String.utf8ByteSize_append]
        rfl
      exact String.Pos.Raw.isValid_iff_exists_append.mpr ⟨_, file, hslice hne, hend.symm⟩

/-- A path has a target exactly when a package encloses it. The target is in the package that owns
the path, and holds what the path asks for there. -/
theorem resolve?_owner (h : ∀ ix ∈ catalog.values, ix.IsBuilt) (path : String) :
    (resolve? catalog path = none ↔ ∀ ix ∈ catalog.values, ¬ ix.Encloses path) ∧
      ∀ t, resolve? catalog path = some t →
        (∃ name, IsOwner catalog path name t.index) ∧ Asks path t := by
  have hroots : ∀ ix ∈ catalog.values, IsCanonical ix.docRoot :=
    fun ix hix => (h ix hix).docRoot_canonical
  constructor
  · rw [resolve?, Option.map_eq_none_iff, owner?_eq_none_iff hroots]
  · intro t ht
    obtain ⟨ix, howner, -⟩ := Option.map_eq_some_iff.mp ht
    obtain ⟨name, hix⟩ := isOwner_of_owner? hroots howner
    have hroot := hroots ix (NameMap.mem_values_iff.mpr ⟨name, hix.found⟩)
    obtain ⟨t', ht', rfl, hasks⟩ := exists_target hroot hix.encloses howner
    obtain rfl := Option.some.inj (ht.symm.trans ht')
    exact ⟨⟨name, hix⟩, hasks⟩

/-- A package with these files. -/
def filed (package docRoot : String) (files : List String) : Index :=
  ((Draft.start package docRoot).declareAll (files.map fun f => .file f f)).build

/-- A folder around one that two packages share, and next to it a folder whose name goes on. -/
def sharedRoots : Catalog where
  entries := [("A", filed "A" "Docs" []), ("B", filed "B" "Docs/hilfe/für" ["b.txt"]),
    ("C", filed "C" "Docs/hilfe/für/" ["ß.txt", "a.txt", "ö/b.txt"]),
    ("D", filed "D" "Docs/hilfe/fürsorge" [])]
  ascending := by decide +kernel

/-- The last of the two packages owns a file below the shared folder, and the folder and its index
file ask for all its files. No package owns a path whose first segment goes on behind the name of a
folder. -/
theorem sharedRoots_resolve? : (∀ ix ∈ sharedRoots.values, ix.IsBuilt) ∧
    (∃ t, resolve? sharedRoots "Docs\\hilfe/./für//ö/../ß.txt" = some t ∧
      (∃ name, IsOwner sharedRoots "Docs\\hilfe/./für//ö/../ß.txt" name t.index) ∧
      t.index.package = "C" ∧ t.scope = .single ∧ t.files = ["ß.txt"]) ∧
    (∀ path ∈ ["./Docs/hilfe\\für/", "Docs/hilfe/für/ö/../hyperhelp.json"],
      ∃ t, resolve? sharedRoots path = some t ∧ (∃ name, IsOwner sharedRoots path name t.index) ∧
        t.index.package = "C" ∧ t.scope = .package ∧ t.files = ["ß.txt", "a.txt", "ö/b.txt"]) ∧
    ∀ ix ∈ sharedRoots.values, ¬ ix.Encloses "Docsé/hilfe" := by
  have hbuilt : ∀ ix ∈ sharedRoots.values, ix.IsBuilt := by
    intro ix hix
    obtain ⟨e, he, rfl⟩ := List.mem_map.mp hix
    simp only [sharedRoots, List.mem_cons, List.not_mem_nil, or_false] at he
    rcases he with rfl | rfl | rfl | rfl <;> exact ⟨_, _, _, rfl⟩
  have hfound {path : String} {files : List String}
      (h : (resolve? sharedRoots path).map
        (fun t => (t.index.package, t.index.docRoot, t.index.location, t.files)) =
          some ("C", "Docs/hilfe/für", "Docs/hilfe/für/hyperhelp.json", files)) :
      ∃ t, resolve? sharedRoots path = some t ∧ (∃ name, IsOwner sharedRoots path name t.index) ∧
        Asks path t ∧ t.index.package = "C" ∧ t.index.docRoot = "Docs/hilfe/für" ∧
        t.index.location = "Docs/hilfe/für/hyperhelp.json" ∧ t.files = files := by
    obtain ⟨t, ht, heq⟩ := Option.map_eq_some_iff.mp h
    obtain ⟨howner, hasks⟩ := (resolve?_owner hbuilt path).2 t ht
    simp only [Prod.mk.injEq] at heq
    exact ⟨t, ht, howner, hasks, heq⟩
  refine ⟨hbuilt, ?_, fun path hpath => ?_, ?_⟩
  · have hshown : (resolve? sharedRoots "Docs\\hilfe/./für//ö/../ß.txt").map
        (fun t => (t.index.package, t.index.docRoot, t.index.location, t.files)) =
          some ("C", "Docs/hilfe/für", "Docs/hilfe/für/hyperhelp.json", ["ß.txt"]) := by
      decide +kernel
    obtain ⟨t, ht, howner, hasks, hpackage, hroot, hlocation, hfiles⟩ := hfound hshown
    obtain ⟨-, hscope, -⟩ := hasks.file (by rw [hroot]; decide +kernel)
      (by rw [hlocation]; decide +kernel)
    exact ⟨t, ht, howner, hpackage, hscope, hfiles⟩
  · have hseen : ∀ path ∈ ["./Docs/hilfe\\für/", "Docs/hilfe/für/ö/../hyperhelp.json"],
        (resolve? sharedRoots path).map
            (fun t => (t.index.package, t.index.docRoot, t.index.location, t.files)) =
          some ("C", "Docs/hilfe/für", "Docs/hilfe/für/hyperhelp.json",
            ["ß.txt", "a.txt", "ö/b.txt"]) ∧
        (Resource.normalize path = "Docs/hilfe/für" ∨
          Resource.normalize path = "Docs/hilfe/für/hyperhelp.json") := by decide +kernel
    obtain ⟨hshown, hwhole⟩ := hseen path hpath
    obtain ⟨t, ht, howner, hasks, hpackage, hroot, hlocation, hfiles⟩ := hfound hshown
    rw [← hroot, ← hlocation] at hwhole
    exact ⟨t, ht, howner, hpackage, (hasks.package hwhole).1, hfiles⟩
  · have hnone : (resolve? sharedRoots "Docsé/hilfe").isNone = true := by decide +kernel
    exact (resolve?_owner hbuilt _).1.mp (Option.isNone_iff_eq_none.mp hnone)

end Target

end HelpAudit
