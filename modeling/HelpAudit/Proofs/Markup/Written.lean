import HelpAudit.Proofs.Markup.Body
import HelpAudit.Proofs.Markup.Candidate

/-!
Markup read back. A writing is plain text with anchors and links in it, no two of them next to each
other. The searches find in it what was written, and the bodies say what was written in them.
-/
namespace HelpAudit.Markup

open Text

/-- Text that can stand inside any markup. -/
structure Piece where
  text : String
  inside : ∀ c ∈ text.toList, c ≠ '*' ∧ c ≠ '|' ∧ c ≠ '\n'

/-- A piece that a colon ends. -/
structure Segment extends Piece where
  colonless : ':' ∉ text.toList

/-- What a topic can be called. -/
structure Subject extends Segment where
  nonempty : text ≠ ""

inductive AnchorText where
  | bare (topic : Subject)
  | captioned (topic : Subject) (text : Piece)

/-- A link within its package shows a text without colons. -/
inductive LinkText where
  | bare (topic : Subject)
  | captioned (topic : Subject) (text : Segment)
  | qualified (package : Segment) (topic : Subject) (text : Piece)

/-- An anchor, which may be hidden, or a link. -/
inductive Item where
  | anchor (hidden : Bool) (content : AnchorText)
  | link (content : LinkText)

/-- Text outside markup, perhaps of several lines. -/
structure Plain where
  text : String
  outside : ∀ c ∈ text.toList, c ≠ '*' ∧ c ≠ '|'

/-- Plain text, and items with the plain text after each; this is empty at most after the last. -/
structure Writing where
  lead : Plain
  items : List (Item × Plain)
  apart : ∀ p ∈ items.dropLast, p.2.text ≠ ""

def AnchorText.chars : AnchorText → List Char
  | .bare topic => topic.text.toList
  | .captioned topic text => topic.text.toList ++ ':' :: text.text.toList

def AnchorText.body : AnchorText → AnchorBody
  | .bare topic => ⟨topic.text, ""⟩
  | .captioned topic text => ⟨topic.text, text.text⟩

def LinkText.chars : LinkText → List Char
  | .bare topic => topic.text.toList
  | .captioned topic text => topic.text.toList ++ ':' :: text.text.toList
  | .qualified package topic text =>
    package.text.toList ++ ':' :: (topic.text.toList ++ ':' :: text.text.toList)

/-- An empty package is none. -/
def LinkText.body : LinkText → LinkBody
  | .bare topic => ⟨none, some topic.text, ""⟩
  | .captioned topic text => ⟨none, some topic.text, text.text⟩
  | .qualified package topic text =>
    ⟨if package.text = "" then none else some package.text, some topic.text, text.text⟩

namespace Item

def chars : Item → List Char
  | .anchor hidden content => '*' :: (bar hidden ++ content.chars ++ bar hidden) ++ ['*']
  | .link content => '|' :: content.chars ++ ['|']

def anchor? : Item → Option AnchorBody
  | .anchor _ content => some content.body
  | .link _ => none

def link? : Item → Option LinkBody
  | .anchor _ _ => none
  | .link content => some content.body

end Item

/-- The items and the plain text after each. -/
def written (items : List (Item × Plain)) : List Char :=
  items.flatMap fun p => p.1.chars ++ p.2.text.toList

/-- The items with the byte offsets at which they start, the first at `offset`. -/
def placed (offset : Nat) : List (Item × Plain) → List (Nat × Item)
  | [] => []
  | (item, gap) :: items =>
    (offset, item) :: placed (offset + byteLength (item.chars ++ gap.text.toList)) items

namespace Writing

def text (w : Writing) : String := .ofList (w.lead.text.toList ++ written w.items)

/-- What stands in the writing, each item at its opening delimiter. -/
def found {β : Type} (w : Writing) (kind : Item → Option β) : List (Nat × β) :=
  (placed (byteLength w.lead.text.toList) w.items).filterMap fun p => (kind p.2).map (p.1, ·)

end Writing

theorem Subject.toList_ne_nil (s : Subject) : s.text.toList ≠ [] :=
  fun h => s.nonempty (String.toList_eq_nil_iff.mp h)

theorem nonEmpty?_toList (text : String) :
    nonEmpty? text.toList = if text = "" then none else some text := by
  by_cases h : text = ""
  · simp [nonEmpty?, h]
  · simp [nonEmpty?, h]

theorem Subject.nonEmpty?_toList (s : Subject) : nonEmpty? s.text.toList = some s.text := by
  rw [Markup.nonEmpty?_toList, if_neg s.nonempty]

/-- Pieces on both sides of a colon can stand inside markup. -/
theorem isAnchorBody_join {a b : List Char} (ha : ∀ c ∈ a, isAnchorBody c = true)
    (hb : ∀ c ∈ b, isAnchorBody c = true) : ∀ c ∈ a ++ ':' :: b, isAnchorBody c = true := by
  intro c hc
  rcases List.mem_append.mp hc with hc | hc
  · exact ha c hc
  · rcases List.mem_cons.mp hc with rfl | hc
    · rfl
    · exact hb c hc

theorem Piece.isAnchorBody (p : Piece) : ∀ c ∈ p.text.toList, isAnchorBody c = true :=
  fun c hc => isAnchorBody_iff.mpr (p.inside c hc)

namespace AnchorText

theorem parse_chars (a : AnchorText) : AnchorBody.parse (.ofList a.chars) = a.body := by
  cases a with
  | bare topic => simp [AnchorBody.parse, chars, body, splitColon_of_not_mem topic.colonless]
  | captioned topic text => simp [AnchorBody.parse, chars, body, splitColon_append topic.colonless]

theorem chars_ne_nil (a : AnchorText) : a.chars ≠ [] := by
  cases a with
  | bare topic => exact topic.toList_ne_nil
  | captioned topic text => simp [chars]

theorem isAnchorBody (a : AnchorText) : ∀ c ∈ a.chars, isAnchorBody c = true := by
  cases a with
  | bare topic => exact topic.isAnchorBody
  | captioned topic text => exact isAnchorBody_join topic.isAnchorBody text.isAnchorBody

end AnchorText

namespace LinkText

theorem parse_chars (l : LinkText) : LinkBody.parse (.ofList l.chars) = l.body := by
  cases l with
  | bare topic =>
    simp [LinkBody.parse, chars, body, splitColon_of_not_mem topic.colonless,
      topic.nonEmpty?_toList]
  | captioned topic text =>
    simp [LinkBody.parse, chars, body, splitColon_append topic.colonless,
      splitColon_of_not_mem text.colonless, topic.nonEmpty?_toList]
  | qualified package topic text =>
    simp [LinkBody.parse, chars, body, splitColon_append package.colonless,
      splitColon_append topic.colonless, topic.nonEmpty?_toList, Markup.nonEmpty?_toList]

theorem chars_ne_nil (l : LinkText) : l.chars ≠ [] := by
  cases l with
  | bare topic => exact topic.toList_ne_nil
  | captioned topic text => simp [chars]
  | qualified package topic text => simp [chars]

theorem isAnchorBody (l : LinkText) : ∀ c ∈ l.chars, isAnchorBody c = true := by
  cases l with
  | bare topic => exact topic.isAnchorBody
  | captioned topic text => exact isAnchorBody_join topic.isAnchorBody text.isAnchorBody
  | qualified package topic text =>
    exact isAnchorBody_join package.isAnchorBody
      (isAnchorBody_join topic.isAnchorBody text.isAnchorBody)

end LinkText

/-- One search reads one kind of item, and nothing else as long as no star follows an item. -/
structure Reads {α β : Type} (shape : Shape α) (kind : Item → Option β)
    (read : List (Candidate α) → List (Nat × β)) : Prop where
  exact : shape.IsExact
  delimiter : shape.delimiter = '*' ∨ shape.delimiter = '|'
  nil : read [] = []
  item : ∀ before item {rest}, rest.head? ≠ some '*' →
    read (candidatesAfter shape before (item.chars ++ rest)) =
      ((kind item).map (byteLength before, ·)).toList ++
        read (candidatesAfter shape (before ++ item.chars) rest)

/-- What the candidates of an anchor's shape say. -/
def readAnchors (cs : List (Candidate AnchorParts)) : List (Nat × AnchorBody) :=
  (cs.filter (·.value.isBalanced)).map fun c => (c.offset, .parse (.ofList c.value.body))

/-- What the candidates of a link's shape say. -/
def readLinks (cs : List (Candidate (List Char))) : List (Nat × LinkBody) :=
  (cs.filter (·.isLink)).map fun c => (c.offset, .parse (.ofList c.value))

theorem candidatesAfter_anchor (before : List Char) (hidden : Bool) (content : AnchorText)
    (rest : List Char) : ∃ c,
      candidatesAfter anchorShape before ((Item.anchor hidden content).chars ++ rest) =
      c :: candidatesAfter anchorShape (before ++ (Item.anchor hidden content).chars) rest ∧
      c.offset = byteLength before ∧ c.value = ⟨hidden, content.chars, hidden⟩ := by
  let parts : AnchorParts := ⟨hidden, content.chars, hidden⟩
  let m : Match AnchorParts := ⟨parts, byteLength ('*' :: parts.written ++ ['*']), rest⟩
  have hm : anchorShape.match? ((Item.anchor hidden content).chars ++ m.rest) = some m := by
    rw [match?_anchorShape]
    exact anchorMatch?_eq_some_iff.mpr ⟨content.chars_ne_nil, content.isAnchorBody,
      by simp [m, parts, AnchorParts.written, Item.chars], rfl⟩
  exact ⟨m.at before, candidatesAfter_append isExact_anchorShape before hm, rfl, rfl⟩

theorem candidatesAfter_bars (before : List Char) {body : List Char} (hne : body ≠ [])
    (hbody : ∀ c ∈ body, isAnchorBody c = true) (rest : List Char) :
    ∃ c, candidatesAfter linkShape before ('|' :: body ++ ['|'] ++ rest) =
      c :: candidatesAfter linkShape (before ++ ('|' :: body ++ ['|'])) rest ∧
      c.offset = byteLength before ∧ c.value = body ∧ c.before = before.getLast? ∧
      c.after = rest.head? := by
  let m : Match (List Char) := ⟨body, byteLength ('|' :: body ++ ['|']), rest⟩
  have hlink : ∀ c ∈ body, isLinkBody c = true :=
    fun c hc => isLinkBody_iff.mpr (isAnchorBody_iff.mp (hbody c hc)).2
  have hm : linkShape.match? ('|' :: body ++ ['|'] ++ m.rest) = some m := by
    rw [match?_linkShape]
    exact linkMatch?_eq_some_iff.mpr ⟨hne, hlink, by simp [m], rfl⟩
  exact ⟨m.at before, candidatesAfter_append isExact_linkShape before hm, rfl, rfl, rfl, rfl⟩

/-- An item adds what it says when it is an anchor, and nothing when it is a link. -/
theorem readAnchors_item (before : List Char) (item : Item) (rest : List Char) :
    readAnchors (candidatesAfter anchorShape before (item.chars ++ rest)) =
      (item.anchor?.map (byteLength before, ·)).toList ++
        readAnchors (candidatesAfter anchorShape (before ++ item.chars) rest) := by
  cases item with
  | anchor hidden content =>
    obtain ⟨c, hc, hoffset, hvalue⟩ := candidatesAfter_anchor before hidden content rest
    rw [hc]
    simp [readAnchors, AnchorParts.isBalanced, hvalue, hoffset, content.parse_chars, Item.anchor?]
  | link content =>
    have hstar : '*' ∉ (Item.link content).chars := by
      have hcontent : '*' ∉ content.chars :=
        fun hm => (isAnchorBody_iff.mp (content.isAnchorBody _ hm)).1 rfl
      simp [Item.chars, hcontent]
    rw [candidatesAfter_skip isExact_anchorShape before hstar]
    rfl

/-- A hidden anchor's bars have stars on both sides; a link has no star after it when none follows
the item. -/
theorem readLinks_item (before : List Char) (item : Item) {rest : List Char}
    (hrest : rest.head? ≠ some '*') :
    readLinks (candidatesAfter linkShape before (item.chars ++ rest)) =
      (item.link?.map (byteLength before, ·)).toList ++
        readLinks (candidatesAfter linkShape (before ++ item.chars) rest) := by
  cases item with
  | anchor hidden content =>
    cases hidden with
    | false =>
      have hbar : '|' ∉ (Item.anchor false content).chars := by
        have hcontent : '|' ∉ content.chars :=
          fun hm => (isAnchorBody_iff.mp (content.isAnchorBody _ hm)).2.1 rfl
        simp [Item.chars, hcontent]
      rw [candidatesAfter_skip isExact_linkShape before hbar]
      rfl
    | true =>
      have hchars : (Item.anchor true content).chars =
          ['*'] ++ ('|' :: content.chars ++ ['|']) ++ ['*'] := by simp [Item.chars]
      have hstar : linkShape.delimiter ∉ ['*'] := by decide
      obtain ⟨c, hc, -, -, hbefore, hafter⟩ := candidatesAfter_bars (before ++ ['*'])
        content.chars_ne_nil content.isAnchorBody (['*'] ++ rest)
      have hlink : c.isLink = false := by simp [Candidate.isLink, hbefore, hafter]
      rw [hchars, List.append_assoc, List.append_assoc,
        candidatesAfter_skip isExact_linkShape before hstar, hc,
        candidatesAfter_skip isExact_linkShape _ hstar]
      simp [readLinks, hlink, Item.link?]
  | link content =>
    obtain ⟨c, hc, hoffset, hvalue, hbefore, hafter⟩ :=
      candidatesAfter_bars before content.chars_ne_nil content.isAnchorBody rest
    rw [Item.chars, hc]
    simp [readLinks, Candidate.isLink, hvalue, hoffset, hafter, hrest, content.parse_chars,
      Item.link?]

/-- After an item comes a plain character or the end. -/
theorem head?_after_item {item : Item} {gap : Plain} {items : List (Item × Plain)}
    (hapart : ∀ p ∈ ((item, gap) :: items).dropLast, p.2.text ≠ "") :
    (gap.text.toList ++ written items).head? ≠ some '*' := by
  cases hgap : gap.text.toList with
  | nil =>
    cases items with
    | nil => simp [written]
    | cons p items =>
      have hne : gap.text ≠ "" := hapart (item, gap) (by simp)
      exact absurd (String.toList_eq_nil_iff.mp hgap) hne
  | cons c cs =>
    have hc : c ∈ gap.text.toList := by
      rw [hgap]
      exact List.mem_cons_self
    simpa using (gap.outside c hc).1

theorem reads_anchors : Reads anchorShape Item.anchor? readAnchors where
  exact := isExact_anchorShape
  delimiter := .inl rfl
  nil := rfl
  item before item _ _ := readAnchors_item before item _

theorem reads_links : Reads linkShape Item.link? readLinks where
  exact := isExact_linkShape
  delimiter := .inr rfl
  nil := rfl
  item := readLinks_item

namespace Reads

variable {α β : Type} {shape : Shape α} {kind : Item → Option β}
  {read : List (Candidate α) → List (Nat × β)} (h : Reads shape kind read)
include h

theorem candidatesAfter_plain (before : List Char) (p : Plain) (rest : List Char) :
    candidatesAfter shape before (p.text.toList ++ rest) =
      candidatesAfter shape (before ++ p.text.toList) rest := by
  refine candidatesAfter_skip h.exact before fun hm => ?_
  rcases h.delimiter with heq | heq
  · exact (p.outside _ hm).1 heq
  · exact (p.outside _ hm).2 heq

theorem read_written (before : List Char) {items : List (Item × Plain)}
    (hapart : ∀ p ∈ items.dropLast, p.2.text ≠ "") :
    read (candidatesAfter shape before (written items)) =
      (placed (byteLength before) items).filterMap fun p => (kind p.2).map (p.1, ·) := by
  induction items generalizing before with
  | nil => simp [written, placed, h.nil]
  | cons p items ih =>
    obtain ⟨item, gap⟩ := p
    have hrest : ∀ p ∈ items.dropLast, p.2.text ≠ "" := by
      intro p hp
      refine hapart p ?_
      cases items with
      | nil => simp at hp
      | cons q items => exact List.mem_cons_of_mem _ hp
    have hwritten : written ((item, gap) :: items) =
        item.chars ++ (gap.text.toList ++ written items) := by simp [written]
    have hplace : byteLength (before ++ item.chars ++ gap.text.toList) =
        byteLength before + byteLength (item.chars ++ gap.text.toList) := by
      rw [List.append_assoc, byteLength_append]
    rw [hwritten, h.item before item (head?_after_item hapart), h.candidatesAfter_plain,
      ih _ hrest, hplace, placed, List.filterMap_cons]
    cases kind item with
    | none => rfl
    | some said => rfl

theorem read_text (w : Writing) : read (candidates shape w.text) = w.found kind := by
  rw [candidates_eq, Writing.text, String.toList_ofList, h.candidatesAfter_plain,
    List.nil_append]
  exact h.read_written w.lead.text.toList w.apart

end Reads

/-- The searches find the anchors and the links that were written, and their bodies say what was
written, in order and each at the byte offset of its opening delimiter. -/
theorem Writing.scan_text (w : Writing) :
    (anchors w.text).map (fun s => (s.offset, AnchorBody.parse s.body)) = w.found Item.anchor? ∧
    (links w.text).map (fun s => (s.offset, LinkBody.parse s.body)) = w.found Item.link? := by
  constructor
  · rw [anchors, List.map_map]
    exact reads_anchors.read_text w
  · rw [links, List.map_map]
    exact reads_links.read_text w

/-- Two links around a hidden anchor, after a character of two bytes. -/
def letter : Writing where
  lead := ⟨"É ", by simp⟩
  items :=
    [(.link (.bare ⟨⟨⟨"intro", by simp⟩, by simp⟩, by simp⟩),
      ⟨"\n", by simp⟩),
     (.anchor true (.bare ⟨⟨⟨"sec1", by simp⟩, by simp⟩, by simp⟩),
      ⟨" ", by simp⟩),
     (.link (.qualified ⟨⟨"", by simp⟩, by simp⟩
       ⟨⟨⟨"sec2", by simp⟩, by simp⟩, by simp⟩
       ⟨"a:b", by simp⟩), ⟨"", by simp⟩)]
  apart := by simp

theorem letter_scan : letter.text = "É |intro|\n*|sec1|* |:sec2:a:b|" ∧
    (anchors letter.text).map (fun s => (s.offset, AnchorBody.parse s.body)) =
      [(11, ⟨"sec1", ""⟩)] ∧
    (links letter.text).map (fun s => (s.offset, LinkBody.parse s.body)) =
      [(3, ⟨none, some "intro", ""⟩), (20, ⟨none, some "sec2", "a:b"⟩)] := by
  obtain ⟨hanchors, hlinks⟩ := letter.scan_text
  rw [hanchors, hlinks]
  decide +kernel

end HelpAudit.Markup
