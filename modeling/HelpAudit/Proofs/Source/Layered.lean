import HelpAudit.Lint
import HelpAudit.Proofs.Source.Listing
import HelpAudit.Proofs.Source.Memory

/-!
Texts in memory, such as open buffers, over other texts in memory. The two together answer as the
one memory in which the upper texts stand in place of the lower ones.
-/
namespace HelpAudit.Memory

/-- The texts of `back`, with those of `front` in their place and besides. -/
def overlay (front back : Memory) : Memory :=
  front.entries.foldl (fun m e => m.insert e.1 e.2) back

@[simp] theorem find?_overlay (front back : Memory) (path : String) :
    NameMap.find? (overlay front back) path =
      (NameMap.find? front path).or (NameMap.find? back path) :=
  NameMap.find?_foldl_insert front.nodup_names back path

@[simp] theorem contains_overlay (front back : Memory) (path : String) :
    NameMap.contains (overlay front back) path =
      (NameMap.contains front path || NameMap.contains back path) := by
  simp [NameMap.contains]

theorem find?_foldl_put (files : List (String × String)) (m : Memory) (path : String) :
    NameMap.find? (files.foldl (fun m f => put m f.1 f.2) m) path =
      (NameMap.find? (ofList files) path).or (NameMap.find? m path) := by
  induction files generalizing m with
  | nil => rfl
  | cons f files ih =>
    rw [ofList, List.foldl_cons, List.foldl_cons, ih (put m _ _), ih (put NameMap.empty _ _),
      Option.or_assoc]
    congr 1
    rw [put, put, NameMap.find?_insert, NameMap.find?_insert]
    split <;> rfl

/-- Filling a memory with the lower texts and then with the upper ones lays the upper ones over. -/
theorem overlay_ofList (upper lower : List (String × String)) :
    overlay (ofList upper) (ofList lower) = ofList (lower ++ upper) := by
  refine NameMap.ext_find? fun path => ?_
  rw [find?_overlay, ofList.eq_def (lower ++ upper), List.foldl_append, find?_foldl_put upper]
  rfl

theorem list_layered (front back : Memory) (folder glob : String) :
    (Source.layered front.source back.source).list folder glob =
      (overlay front back).source.list folder glob := by
  have hvalue : (sortNames (list front folder glob ++ list back folder glob)).eraseReps =
      list (overlay front back) folder glob := by
    refine (pairwise_eraseReps (pairwise_sortNames _)).eq_of_mem_iff (pairwise_list _ _ _) ?_
    intro path
    rw [mem_eraseReps, mem_sortNames, List.mem_append]
    cases hglob : Glob.parse? glob with
    | none => simp [list, hglob]
    | some atoms =>
      rw [mem_list hglob, mem_list hglob, mem_list hglob, contains_overlay, Bool.or_eq_true,
        or_and_right]
  exact congrArg Pure.pure hvalue

theorem layered_source (front back : Memory) :
    Source.layered front.source back.source = (overlay front back).source := by
  rw [Source.mk.injEq]
  exact ⟨funext fun path => (find?_overlay front back _).symm,
    funext fun path => (contains_overlay front back _).symm,
    funext fun folder => funext (list_layered front back folder)⟩

/-- Texts that were put into a memory, alone or over those of another memory. -/
inductive Backs : Source → Prop
  | single (files : List (String × String)) : Backs (ofList files).source
  | layered (upper lower : List (String × String)) :
    Backs (Source.layered (ofList upper).source (ofList lower).source)

/-- One memory answers for the two. -/
theorem Backs.exists_eq {source : Source} (h : Backs source) :
    ∃ files, source = (ofList files).source := by
  cases h with
  | single files => exact ⟨files, rfl⟩
  | layered upper lower =>
    exact ⟨lower ++ upper, by rw [layered_source, overlay_ofList]⟩

/-- Layered texts are read and listed as the texts of the one memory are, whatever is asked for, and
each listing is in strictly ascending order. So loading indexes, resolving paths and linting come
out the same. -/
theorem layered_eq_overlay (front back : Memory) :
    let layered := Source.layered front.source back.source
    let merged := (overlay front back).source
    (∀ path, layered.content path = merged.content path ∧ layered.holds path = merged.holds path) ∧
    (∀ folder glob, layered.list folder glob = merged.list folder glob ∧
      (layered.list folder glob).value.Pairwise (· < ·)) ∧
    (∀ st : Store, st.reloadAll layered = st.reloadAll merged ∧
      ∀ path, Target.resolve? (st.reloadAll layered).value.catalog path =
        Target.resolve? (st.reloadAll merged).value.catalog path) ∧
    ∀ (st : Store) (scanner : Scanner) (path : String),
      st.lint layered scanner path = st.lint merged scanner path := by
  intro layered merged
  have hcontent (path : String) : layered.content path = merged.content path :=
    (find?_overlay front back _).symm
  have hholds (path : String) : layered.holds path = merged.holds path :=
    (contains_overlay front back _).symm
  have hlist (folder glob : String) : layered.list folder glob = merged.list folder glob :=
    list_layered front back folder glob
  have hsource : layered = merged := by
    rw [Source.mk.injEq]
    exact ⟨funext hcontent, funext hholds, funext fun folder => funext (hlist folder)⟩
  refine ⟨fun path => ⟨hcontent path, hholds path⟩, fun folder glob => ⟨hlist folder glob, ?_⟩,
    fun st => ⟨by rw [hsource], fun path => by rw [hsource]⟩,
    fun st scanner path => by rw [hsource]⟩
  exact pairwise_eraseReps (pairwise_sortNames _)

end HelpAudit.Memory
