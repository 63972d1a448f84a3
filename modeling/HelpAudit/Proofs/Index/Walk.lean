import HelpAudit.Proofs.Index.Reached

/-!
The walk through a table of contents as a loop. Its marks are a table with a place for each node,
while any number can wait on the stack. The loop reads no mark outside the table, takes at most one
turn for each root and each child, and ends with the files of the nodes that the roots lead to.
-/
namespace HelpAudit.Contents

/-- The loop between two turns: the marks of the nodes, the files met, and the numbers that wait,
the next one first. -/
structure Walk where
  marks : Array Bool
  files : List String
  stack : List Nat

/-- What a turn of the loop comes to. -/
inductive Turn where
  | ended (files : List String)
  | next (w : Walk)
  | outOfBounds (id : Nat)

namespace Walk

def start (c : Contents) : Walk := ⟨.replicate c.nodes.size false, [], c.roots⟩

/-- Takes a number off the stack. A node that has no mark yet gets one, and its children wait. -/
def turn (c : Contents) (w : Walk) : Turn :=
  match w.stack with
  | [] => .ended w.files
  | id :: stack =>
    match c.nodes[id]? with
    | none => .next { w with stack }
    | some node =>
      match w.marks[id]? with
      | none => .outOfBounds id
      | some true => .next { w with stack }
      | some false => .next ⟨w.marks.set! id true, node.file :: w.files, node.children ++ stack⟩

/-- At most `n` turns. -/
def run (c : Contents) : (n : Nat) → Walk → Turn
  | 0, w => .next w
  | n + 1, w =>
    match w.turn c with
    | .next w => run c n w
    | t => t

end Walk

variable {c : Contents} {w : Walk} {visited : List Nat}

/-- The files of the nodes among the numbers. -/
def filesOf (c : Contents) (ids : List Nat) : List String :=
  ids.filterMap fun id => c.nodes[id]?.map (·.file)

/-- The loop has visited these nodes, the last one first. -/
structure Follows (c : Contents) (visited : List Nat) (w : Walk) : Prop where
  marks : ∀ id, w.marks[id]? = c.nodes[id]?.map fun _ => visited.contains id
  files : w.files = c.filesOf visited

theorem follows_start (c : Contents) : Follows c [] (.start c) where
  marks id := by
    show (Array.replicate c.nodes.size false)[id]? = _
    by_cases h : id < c.nodes.size
    · simp [h]
    · simp [h]
  files := rfl

theorem Follows.skip (h : Follows c visited w) (stack : List Nat) :
    Follows c visited { w with stack } := ⟨h.marks, h.files⟩

theorem Follows.visit {id : Nat} {node : Node} (h : Follows c visited w)
    (hnode : c.nodes[id]? = some node) (stack : List Nat) :
    Follows c (id :: visited) ⟨w.marks.set! id true, node.file :: w.files, stack⟩ where
  marks i := by
    have hmark := h.marks i
    show (w.marks.set! id true)[i]? = _
    by_cases hi : i = id
    · subst hi
      rw [hnode] at hmark
      obtain ⟨hlt, -⟩ := Array.getElem?_eq_some_iff.mp hmark
      simp [hnode, hlt]
    · simp [hmark, hi, Ne.symm hi]
  files := by
    show node.file :: w.files = _
    rw [h.files, filesOf, filesOf, List.filterMap_cons, hnode, Option.map_some]

/-- A turn ends the loop when nothing waits. Else it finds its mark, and there is one thing less to
do: a number on the stack, or a child of a node that is not visited. -/
theorem Follows.turn (h : Follows c visited w) :
    (w.stack = [] ∧ w.turn c = .ended (c.filesOf visited)) ∨
      ∃ w' visited', w.turn c = .next w' ∧ Follows c visited' w' ∧
        w'.stack.length + c.waiting visited' + 1 = w.stack.length + c.waiting visited ∧
        ∀ fuel, c.visit (fuel + 1) visited w.stack = c.visit fuel visited' w'.stack := by
  unfold Walk.turn
  cases hstack : w.stack with
  | nil => exact .inl ⟨rfl, congrArg Turn.ended h.files⟩
  | cons id stack =>
    right
    dsimp only
    have hlength : stack.length + c.waiting visited + 1 =
        (id :: stack).length + c.waiting visited := by
      rw [List.length_cons]
      omega
    cases hnode : c.nodes[id]? with
    | none =>
      refine ⟨{ w with stack }, visited, rfl, h.skip stack, hlength, fun fuel => ?_⟩
      simp only [Contents.visit, hnode]
    | some node =>
      have hmark : w.marks[id]? = some (visited.contains id) := by
        rw [h.marks id, hnode, Option.map_some]
      cases hseen : visited.contains id with
      | true =>
        rw [hseen] at hmark
        refine ⟨{ w with stack }, visited, ?_, h.skip stack, hlength, fun fuel => ?_⟩
        · simp only [hmark]
        · simp only [Contents.visit, hnode, hseen, if_true]
      | false =>
        rw [hseen] at hmark
        refine ⟨⟨w.marks.set! id true, node.file :: w.files, node.children ++ stack⟩,
          id :: visited, ?_, h.visit hnode _, ?_, fun fuel => ?_⟩
        · simp only [hmark]
        · have hfresh : id ∉ visited := by simpa using hseen
          have hwaiting := waiting_cons hnode hfresh
          simp only [List.length_append, List.length_cons]
          omega
        · simp only [Contents.visit, hnode, hseen, Bool.false_eq_true, if_false]

theorem Follows.run_ne_outOfBounds (h : Follows c visited w) (n id : Nat) :
    w.run c n ≠ .outOfBounds id := by
  induction n generalizing w visited with
  | zero => exact nofun
  | succ n ih =>
    unfold Walk.run
    rcases h.turn with ⟨-, hturn⟩ | ⟨w', visited', hturn, h', -, -⟩
    · rw [hturn]
      exact nofun
    · rw [hturn]
      exact ih h'

/-- With a turn for each number on the stack and each child that can still be put there, and one
more to see that nothing waits, the loop ends. -/
theorem Follows.run (h : Follows c visited w) {fuel : Nat}
    (hfuel : w.stack.length + c.waiting visited ≤ fuel) :
    w.run c (fuel + 1) = .ended (c.filesOf (c.visit fuel visited w.stack)) := by
  induction fuel generalizing w visited with
  | zero =>
    unfold Walk.run
    rcases h.turn with ⟨-, hturn⟩ | ⟨w', visited', -, -, hless, -⟩
    · rw [hturn]
      rfl
    · omega
  | succ fuel ih =>
    unfold Walk.run
    rcases h.turn with ⟨hstack, hturn⟩ | ⟨w', visited', hturn, h', hless, hvisit⟩
    · rw [hturn, hstack]
      rfl
    · rw [hturn, hvisit]
      exact ih h' (by omega)

/-- The walk never looks for a mark outside its table and ends, whatever cycles, shared children or
numbers without a node the table of contents has. Its files are those of the nodes that a root
leads to. -/
theorem walk_ends (c : Contents) :
    (∀ n id, (Walk.start c).run c n ≠ .outOfBounds id) ∧
    (Walk.start c).run c (c.roots.length + c.edgeCount + 1) = .ended c.reachedFiles ∧
    ∀ file, file ∈ c.reachedFiles ↔
      ∃ id node, Reaches c id ∧ c.nodes[id]? = some node ∧ node.file = file := by
  have hstart := follows_start c
  have hfuel : (Walk.start c).stack.length + c.waiting [] ≤ c.roots.length + c.edgeCount := by
    rw [waiting_nil]
    rfl
  exact ⟨hstart.run_ne_outOfBounds, hstart.run hfuel, fun _ => mem_reachedFiles_iff⟩

/-- Both roots share a child, which leads back to the first; other numbers have no node. -/
def tangled : Contents where
  nodes := #[⟨"a", "a.txt", none, [2, 9]⟩, ⟨"b", "b.txt", none, [2, 1]⟩,
    ⟨"c", "c.txt", none, [0, 2]⟩, ⟨"d", "d.txt", none, [0]⟩]
  roots := [0, 7, 1, 0]

example : (Walk.start tangled).run tangled 12 = .ended ["b.txt", "c.txt", "a.txt"] := by rfl

end HelpAudit.Contents
