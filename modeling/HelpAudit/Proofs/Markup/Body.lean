import HelpAudit.Markup.Body
import HelpAudit.Proofs.Text
import Mathlib.Data.List.Basic

/-! What stands between the colons of a body, and where the names in the bodies of anchors and links
come from. -/
namespace HelpAudit.Markup

variable {cs after : List Char} {c : Char} {body name : String}

theorem bne_colon_of_not_mem (h : ':' ∉ cs) : ∀ d ∈ cs, (d != ':') = true :=
  fun _ hd => bne_iff_ne.mpr fun heq => h (heq ▸ hd)

theorem splitColon_of_not_mem (h : ':' ∉ cs) : splitColon cs = (cs, none) := by
  have hdrop : (cs ++ []).dropWhile (· != ':') = [] :=
    List.dropWhile_append_of_pos (bne_colon_of_not_mem h)
  rw [List.append_nil] at hdrop
  rw [splitColon, hdrop]

theorem splitColon_append (h : ':' ∉ cs) (after : List Char) :
    splitColon (cs ++ ':' :: after) = (cs, some after) := by
  have hends : ∀ d, (':' :: after).head? = some d → (d != ':') = false := by
    intro d hd
    cases hd
    rfl
  obtain ⟨htake, hdrop⟩ := Text.takeWhile_append_of_head? (bne_colon_of_not_mem h) hends
  rw [splitColon, hdrop, htake]

theorem mem_of_mem_splitColon_fst (h : c ∈ (splitColon cs).1) : c ∈ cs := by
  unfold splitColon at h
  split at h
  · exact h
  · exact (List.takeWhile_sublist _).subset h

theorem mem_of_mem_splitColon_snd (h : (splitColon cs).2 = some after) (hc : c ∈ after) :
    c ∈ cs := by
  unfold splitColon at h
  split at h
  · cases h
  · next d rest heq =>
    obtain rfl := Option.some.inj h
    refine (List.dropWhile_sublist (· != ':')).subset ?_
    rw [heq]
    exact List.mem_cons_of_mem _ hc

theorem mem_of_nonEmpty? (h : nonEmpty? cs = some name) (hc : c ∈ name.toList) : c ∈ cs := by
  unfold nonEmpty? at h
  split at h
  · cases h
  · obtain rfl := Option.some.inj h
    rwa [String.toList_ofList] at hc

/-- The topic of an anchor is a part of its body. -/
theorem mem_of_mem_anchorTopic (hc : c ∈ (AnchorBody.parse body).topic.toList) :
    c ∈ body.toList := by
  rw [AnchorBody.parse, String.toList_ofList] at hc
  exact mem_of_mem_splitColon_fst hc

/-- The package and the topic of a link are parts of its body. -/
theorem mem_of_mem_linkName
    (h : (LinkBody.parse body).package = some name ∨ (LinkBody.parse body).topic = some name)
    (hc : c ∈ name.toList) : c ∈ body.toList := by
  have hfst := @mem_of_mem_splitColon_fst body.toList c
  unfold LinkBody.parse at h
  split at h
  · next topic hsplit =>
    rw [hsplit] at hfst
    rcases h with h | h
    · cases h
    · exact hfst (mem_of_nonEmpty? h hc)
  · next first rest hsplit =>
    rw [hsplit] at hfst
    have hrest : c ∈ rest → c ∈ body.toList := mem_of_mem_splitColon_snd (by rw [hsplit])
    have hinner := @mem_of_mem_splitColon_fst rest c
    split at h
    · next text hsplit' =>
      rcases h with h | h
      · cases h
      · exact hfst (mem_of_nonEmpty? h hc)
    · next topic text hsplit' =>
      rw [hsplit'] at hinner
      rcases h with h | h
      · exact hfst (mem_of_nonEmpty? h hc)
      · exact hrest (hinner (mem_of_nonEmpty? h hc))

end HelpAudit.Markup
