import FstWaveDemo.Parser.Expr
import FstWaveDemo.Parser.Rows

/-! # Lines of items

A line is written as words, punctuation and spaces (`FstWaveDemo.Item`). If neighbours may
stand next to one another (`FstWaveDemo.Item.linked`), the scanner reads the line as the
tokens of its items (`FstWaveDemo.Item.reads_all`).
-/

namespace FstWaveDemo

open Flex (CharSet Pattern)

/-- The characters that any word may stand before. -/
def breakChars : CharSet :=
  [(' ', ' '), ('\n', '\n'), (')', ')'), (',', ','), (':', ':'), ('@', '@'), ('[', '['), (']', ']'),
    ('\x7d', '\x7d')]

/-- A piece of a line with its tokens. If it is loose, anything may follow it, otherwise one of
`breakChars`. -/
structure Item where
  text : Text
  tokens : List Tok
  loose : Bool
  breaks : Bool
  starts : breaks = true → ∀ rest, Next breakChars (text ++ rest)
  reads : ∀ {line : Nat} {rest : Text}, line ≠ 1 → (loose = false → Next breakChars rest) →
    Reads line text tokens rest

namespace Item

/-- Neighbours may stand next to one another. -/
def linked : List Item → Bool
  | [] => true
  | item :: rest =>
      (item.loose || rest.head?.all fun other => other.breaks) && linked rest

/-- The text of a line. -/
def line (items : List Item) : Text := items.flatMap Item.text

/-- The tokens of a line. -/
def tokensOf (items : List Item) : List Tok := items.flatMap Item.tokens

/-- **Lines.** The scanner reads linked items as their tokens, on any line but the first. -/
theorem reads_all {items : List Item} (linked' : linked items = true) {number : Nat}
    (later : number ≠ 1) (rest : Text) :
    Reads number (line items) (tokensOf items) ('\n' :: rest) := by
  induction items with
  | nil => exact .nil
  | cons item items ih =>
      rw [linked, Bool.and_eq_true, Bool.or_eq_true] at linked'
      obtain ⟨next, others⟩ := linked'
      refine Reads.append (item.reads later fun tight => ?_) (ih others)
      rcases next with loose | breaks
      · exact nomatch loose.symm.trans tight
      · cases items with
        | nil => exact next_cons (by decide +kernel)
        | cons second items =>
            change Next breakChars ((second.text ++ line items) ++ '\n' :: rest)
            rw [List.append_assoc]
            exact second.starts breaks _

section Words

theorem next_of_break {set : CharSet} (inside : breakChars.within set = true) {rest : Text}
    (next : Next breakChars rest) : Next set rest :=
  fun c member => CharSet.mem_of_within inside (next c member)

/-- A space. -/
def space : Item where
  text := [' ']
  tokens := []
  loose := true
  breaks := true
  starts _ _ := next_cons (by decide +kernel)
  reads _ _ := reads_space

/-- A keyword without a value. -/
def keyword (name : TokenName) (listed : name ∈ keywords) : Item where
  text := (keywordText name).toList
  tokens := [kw name]
  loose := false
  breaks := false
  starts absent := nomatch absent
  reads _ next := reads_keyword listed (next_of_break (by decide +kernel) (next rfl))

/-- A word that carries itself. -/
def ground (word : String) (name : TokenName) (listed : (word, name) ∈ grounds) : Item where
  text := word.toList
  tokens := [tok name word.toList]
  loose := false
  breaks := false
  starts absent := nomatch absent
  reads _ next := reads_ground word listed (next_of_break (by decide +kernel) (next rfl))

/-- A name. -/
def name (own : Name) : Item where
  text := own.text
  tokens := [own.token]
  loose := false
  breaks := false
  starts absent := nomatch absent
  reads _ next := own.reads (next_of_break (by decide +kernel) (next rfl))

/-- An expression. -/
def expr (e : Expr) : Item where
  text := e.text
  tokens := e.tokens
  loose := false
  breaks := false
  starts absent := nomatch absent
  reads later next := e.reads later (next_of_break (by decide +kernel) (next rfl))

/-- An integer. -/
def int (n : Word (.text .INT)) : Item where
  text := n.text
  tokens := [tok .INT n.text]
  loose := false
  breaks := false
  starts absent := nomatch absent
  reads _ next := n.reads_int (next_of_break (by decide +kernel) (next rfl))

/-- A bracket, a comma or a colon. -/
def char (c : Char) (action : Action) (listed : (CharSet.all, [c], action) ∈ symbols)
    (returned : action.returns [c] = some (ch c)) : Item where
  text := [c]
  tokens := [ch c]
  loose := true
  breaks := breakChars.mem c
  starts member _ := next_cons member
  reads _ _ := reads_char action listed returned

def comma : Item := char ',' .character (by simp [symbols]) rfl

def colon : Item := char ':' .character (by simp [symbols]) rfl

def openBrace : Item := char '\x7b' (.count .bracket_num 1) (by simp [symbols]) rfl

def closeBrace : Item := char '\x7d' (.count .bracket_num (-1)) (by simp [symbols]) rfl

/-- An equals sign. -/
def equals : Item where
  text := ['=']
  tokens := [ch '=']
  loose := false
  breaks := false
  starts absent := nomatch absent
  reads _ next := reads_symbol symbolEnd .character (by simp [symbols]) rfl
    (next_of_break (by decide +kernel) (next rfl))

end Words

/-- The line begins with something visible. -/
def Heads (items : List Item) : Prop :=
  ∃ c more, line items = c :: more ∧ isBlank c = false ∧ c ≠ '\n'

theorem heads_keyword {name : TokenName} (listed : name ∈ keywords) (items : List Item) :
    Heads (keyword name listed :: items) := by
  have checked : (keywords.all fun name => (keywordText name).toList.head?.any fun c =>
      !isBlank c && decide (c ≠ '\n')) = true := by
    decide +kernel
  have own := List.all_eq_true.mp checked name listed
  obtain ⟨c, head, visible⟩ := (Option.any_eq_true _ _).mp own
  rw [Bool.and_eq_true, Bool.not_eq_true', decide_eq_true_eq] at visible
  obtain ⟨others, word⟩ := List.head?_eq_some_iff.mp head
  refine ⟨c, others ++ line items, ?_, visible⟩
  change (keywordText name).toList ++ line items = _
  rw [word, List.cons_append]

end Item

/-- A line of linked items. -/
def Row.ofItems (blankLines : List Text) (indentation : Text) (items : List Item)
    (blank : ∀ line ∈ blankLines, line.all isBlank = true) (white : indentation.all isBlank = true)
    (heads : Item.Heads items) : Row where
  blankLines := blankLines
  indentation := indentation
  content := Item.line items
  tokens := Item.tokensOf items
  blank := blank
  white := white
  visible := heads

/-- A line of linked items is written for its tokens wherever it is not the first line. -/
theorem Row.written_ofItems {blankLines : List Text} {indentation : Text} {items : List Item}
    {blank : ∀ line ∈ blankLines, line.all isBlank = true}
    {white : indentation.all isBlank = true} {heads : Item.Heads items}
    (linked : Item.linked items = true) {line : Nat} (later : line ≠ 1) :
    (Row.ofItems blankLines indentation items blank white heads).Written line :=
  fun rest => Item.reads_all linked later rest

end FstWaveDemo
