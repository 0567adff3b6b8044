import FstWaveDemo.Outline.Rose
import FstWaveDemo.Parser.Words
import Mathlib

/-! # The dump of a tree

`PNode::printAST` writes the nodes of a tree in pre-order, a line for each, with blanks
for the depth and four optional fields. The fields cannot be taken for one another as
long as names and locators have the characters of the scanner (`FstWaveDemo.lineText_unique`);
so the lines are the outline of the tree, and the dump determines the tree
(`FstWaveDemo.PNode.printAST_determines`).
-/

namespace FstWaveDemo

open Flex (CharSet)
open Outline (Rose)

/-- `os << value`, for an `int`. -/
def printInt : Int → Text
  | .ofNat n => decimal n
  | .negSucc n => '-' :: decimal (n + 1)

/-- The number of an enumerator. -/
def PNodeType.value (type : PNodeType) : Nat := type.ctorIdx

/-- The name, if there is one. -/
def nameField (name : Text) : Text := if name.isEmpty then [] else name ++ " ".toList

/-- The locator in parentheses, if there is one. -/
def infoField (info : Text) : Text :=
  if info.isEmpty then [] else "(".toList ++ info ++ ") ".toList

/-- The width, if it is set. -/
def widthField (width : Int) : Text :=
  if width > 0 then "<width=".toList ++ printInt width ++ "> ".toList else []

/-- The sign, if it is set. -/
def signField (sign : Bool) : Text := if sign then "<signed> ".toList else []

def lineField (lineno : Int) : Text := "<line=".toList ++ printInt lineno ++ ">".toList

/-- What `printAST` writes on the line of a node, after the indentation. -/
def lineText (type : PNodeType) (lineno : Int) (info name : Text) (width : Int) (sign : Bool) :
    Text :=
  "[".toList ++ printInt type.value ++ "] ".toList ++ nameField name ++ infoField info ++
    widthField width ++ signField sign ++ lineField lineno

/-- The indentation: two blanks for every level. -/
def printIndent (indent : Nat) : Text := (List.replicate indent "  ".toList).flatten

namespace PNode

mutual

/-- `PNode::printAST`. There is no result for a pointer that is not a node. -/
def printAST (indent : Nat) : PNode → Option Text
  | node type lineno info name _ width sign child =>
      (printChildren (indent + 1) child).map fun children =>
        printIndent indent ++ lineText type lineno info name width sign ++ ['\n'] ++ children
  | null => none
  | undefined => none

/-- The loop of `printAST` over the children, which skips null pointers. -/
def printChildren (indent : Nat) : List PNode → Option Text
  | [] => some []
  | null :: rest => printChildren indent rest
  | child :: rest => (printAST indent child).bind fun text =>
      (printChildren indent rest).map fun others => text ++ others

end

/-- What the line of a node says. -/
structure Entry where
  type : PNodeType
  name : Text
  info : Text
  sign : Bool
  lineno : Int
  width : Int

mutual

/-- The tree of the nodes, without the null pointers. -/
def tree : PNode → Option (Rose Entry)
  | node type lineno info name _ width sign child =>
      some (.node ⟨type, name, info, sign, lineno, max width 0⟩ (trees child))
  | null => none
  | undefined => none

/-- The trees of the children. -/
def trees : List PNode → List (Rose Entry)
  | [] => []
  | child :: rest => child.tree.toList ++ trees rest

end

/-- The characters of names: those of identifiers and numbers. -/
def name_char : CharSet := ('-', '-') :: Rules.id_char

/-- The names and locators of a tree are such as the scanner returns, and all its pointers
are null or nodes. -/
inductive Dumpable : PNode → Prop
  | node {type : PNodeType} {lineno : Int} {info name : Text} {extraInfo : List Text} {width : Int}
      {sign : Bool} {child : List PNode} (named : ∀ c ∈ name, name_char.mem c = true)
      (located : ∀ c ∈ info, CharSet.mem Rules.info_char c = true)
      (children : ∀ p ∈ child, p ≠ null → Dumpable p) :
      Dumpable (node type lineno info name extraInfo width sign child)

end PNode

theorem decimal_injective {m n : Nat} (same : decimal m = decimal n) : m = n := by
  have values := congrArg (fun digits => Nat.ofDigitChars 10 digits 0) same
  simpa [decimal] using values

/-- The characters of an integer. -/
theorem printInt_char {value : Int} {c : Char} (member : c ∈ printInt value) :
    PNode.name_char.mem c = true := by
  have digits {n : Nat} (member : c ∈ decimal n) : PNode.name_char.mem c = true :=
    @CharSet.mem_of_within Rules.digit_dec _ _ (by decide) (decimal_digit member)
  cases value with
  | ofNat n => exact digits member
  | negSucc n =>
      rcases List.mem_cons.mp member with rfl | member
      · decide
      · exact digits member

theorem printInt_injective {value other : Int} (same : printInt value = printInt other) :
    value = other := by
  have apart {m n : Nat} (equal : decimal m = '-' :: decimal n) : False := by
    have member : '-' ∈ decimal m := equal ▸ List.mem_cons_self
    exact absurd (decimal_digit member) (by decide)
  cases value with
  | ofNat m =>
      cases other with
      | ofNat n => rw [decimal_injective same]
      | negSucc n => exact (apart same).elim
  | negSucc m =>
      cases other with
      | ofNat n => exact (apart same.symm).elim
      | negSucc n => rw [Nat.succ.inj (decimal_injective (List.cons.inj same).2)]

theorem value_injective {type other : PNodeType} (same : type.value = other.value) :
    type = other := by
  rw [← PNodeType.ofNat_ctorIdx type, ← PNodeType.ofNat_ctorIdx other]
  exact congrArg PNodeType.ofNat same

/-- An integer before a delimiter is determined by the text. -/
theorem printInt_unique (delimiter : Char) {value other : Int} {rest rest' : Text}
    (apart : PNode.name_char.mem delimiter = false)
    (same : printInt value ++ delimiter :: rest = printInt other ++ delimiter :: rest') :
    value = other ∧ rest = rest' := by
  have clear (value : Int) : delimiter ∉ printInt value := fun member =>
    absurd (apart.symm.trans (printInt_char member)) (by decide)
  obtain ⟨digits, others⟩ := Outline.split_unique delimiter (clear value) (clear other) same
  exact ⟨printInt_injective digits, others⟩

/-- A name before a text that begins like none is determined by the text. -/
theorem nameField_unique {name name' rest rest' : Text}
    (named : ∀ c ∈ name, PNode.name_char.mem c = true)
    (named' : ∀ c ∈ name', PNode.name_char.mem c = true)
    (apart : ∀ c ∈ rest.head?, PNode.name_char.mem c = false)
    (apart' : ∀ c ∈ rest'.head?, PNode.name_char.mem c = false)
    (same : nameField name ++ rest = nameField name' ++ rest') : name = name' ∧ rest = rest' := by
  cases name with
  | nil =>
      cases name' with
      | nil => exact ⟨rfl, same⟩
      | cons c name' =>
          obtain rfl : rest = c :: (name' ++ " ".toList ++ rest') := same
          exact absurd ((apart c rfl).symm.trans (named' c List.mem_cons_self)) (by decide)
  | cons c name =>
      cases name' with
      | nil =>
          obtain rfl : c :: (name ++ " ".toList ++ rest) = rest' := same
          exact absurd ((apart' c rfl).symm.trans (named c List.mem_cons_self)) (by decide)
      | cons c' name' =>
          have clear {word : Text} (own : ∀ c ∈ word, PNode.name_char.mem c = true) : ' ' ∉ word :=
            fun member => absurd (own _ member) (by decide)
          simp only [nameField, List.isEmpty_cons, Bool.false_eq_true, if_false,
            List.append_assoc] at same
          exact Outline.split_unique _ (clear named) (clear named') same

/-- A locator before a text that does not begin with a parenthesis is determined by the
text. -/
theorem infoField_unique {info info' rest rest' : Text}
    (located : ∀ c ∈ info, CharSet.mem Rules.info_char c = true)
    (located' : ∀ c ∈ info', CharSet.mem Rules.info_char c = true)
    (apart : rest.head? ≠ some '(') (apart' : rest'.head? ≠ some '(')
    (same : infoField info ++ rest = infoField info' ++ rest') : info = info' ∧ rest = rest' := by
  cases info with
  | nil =>
      cases info' with
      | nil => exact ⟨rfl, same⟩
      | cons c info' =>
          obtain rfl : rest = '(' :: (c :: info' ++ ") ".toList ++ rest') := same
          exact absurd rfl apart
  | cons c info =>
      cases info' with
      | nil =>
          obtain rfl : '(' :: (c :: info ++ ") ".toList ++ rest) = rest' := same
          exact absurd rfl apart'
      | cons c' info' =>
          have clear {word : Text} (own : ∀ c ∈ word, CharSet.mem Rules.info_char c = true) :
              ')' ∉ word := fun member => absurd (own _ member) (by decide)
          simp only [infoField, List.isEmpty_cons, Bool.false_eq_true, if_false,
            List.append_assoc] at same
          obtain ⟨words, others⟩ := Outline.split_unique ')' (clear located)
            (clear located') (List.cons.inj same).2
          exact ⟨words, (List.cons.inj others).2⟩

theorem lineField_eq (lineno : Int) :
    lineField lineno = ['<', 'l', 'i', 'n', 'e', '='] ++ (printInt lineno ++ ['>']) := by
  have marks : "<line=".toList = ['<', 'l', 'i', 'n', 'e', '='] ∧ ">".toList = ['>'] := ⟨rfl, rfl⟩
  change "<line=".toList ++ printInt lineno ++ ">".toList = _
  rw [marks.1, marks.2, List.append_assoc]

theorem signField_eq (sign : Bool) :
    signField sign = if sign then ['<', 's', 'i', 'g', 'n', 'e', 'd', '>', ' '] else [] := by
  have mark : "<signed> ".toList = ['<', 's', 'i', 'g', 'n', 'e', 'd', '>', ' '] := rfl
  rw [signField, mark]

theorem widthField_eq (width : Int) : widthField width =
    if width > 0 then ['<', 'w', 'i', 'd', 't', 'h', '='] ++ (printInt width ++ ['>', ' '])
    else [] := by
  have marks : "<width=".toList = ['<', 'w', 'i', 'd', 't', 'h', '='] ∧
      "> ".toList = ['>', ' '] := ⟨rfl, rfl⟩
  rw [widthField, marks.1, marks.2, List.append_assoc]

example : widthField 8 = "<width=8> ".toList := by decide +kernel

/-- The fields after the locator are told apart by their first letters. -/
theorem numbers_unique {width width' lineno lineno' : Int} {sign sign' : Bool}
    (same : widthField width ++ signField sign ++ lineField lineno =
      widthField width' ++ signField sign' ++ lineField lineno') :
    max width 0 = max width' 0 ∧ sign = sign' ∧ lineno = lineno' := by
  have tail {sign sign' : Bool} (same : signField sign ++ lineField lineno =
      signField sign' ++ lineField lineno') : sign = sign' ∧ lineno = lineno' := by
    have lines (same : lineField lineno = lineField lineno') : lineno = lineno' := by
      rw [lineField_eq, lineField_eq] at same
      exact (printInt_unique '>' (by decide) (List.append_cancel_left same)).1
    rw [signField_eq, signField_eq] at same
    cases sign <;> cases sign'
    · exact ⟨rfl, lines same⟩
    · rw [lineField_eq] at same
      exact nomatch (List.cons.inj (List.cons.inj same).2).1
    · rw [lineField_eq lineno'] at same
      exact nomatch (List.cons.inj (List.cons.inj same).2).1
    · exact ⟨rfl, lines (List.append_cancel_left same)⟩
  have other (sign : Bool) (lineno : Int) (rest : Text) :
      signField sign ++ lineField lineno ≠ '<' :: 'w' :: rest := by
    rw [signField_eq, lineField_eq]
    cases sign
    · exact fun same => nomatch (List.cons.inj (List.cons.inj same).2).1
    · exact fun same => nomatch (List.cons.inj (List.cons.inj same).2).1
  rw [List.append_assoc, List.append_assoc, widthField_eq, widthField_eq] at same
  split at same
  · rename_i above
    split at same
    · rename_i above'
      rw [List.append_assoc, List.append_assoc, List.append_assoc, List.append_assoc] at same
      obtain ⟨rfl, others⟩ := printInt_unique '>' (by decide)
        (List.append_cancel_left same)
      exact ⟨rfl, tail (List.cons.inj others).2⟩
    · exact absurd same.symm (other _ _ _)
  · rename_i below
    split at same
    · exact absurd same (other _ _ _)
    · rename_i below'
      exact ⟨by omega, tail same⟩

/-- The line of a node determines what it says. -/
theorem lineText_unique {type type' : PNodeType} {lineno lineno' width width' : Int}
    {info info' name name' : Text} {sign sign' : Bool}
    (named : ∀ c ∈ name, PNode.name_char.mem c = true)
    (named' : ∀ c ∈ name', PNode.name_char.mem c = true)
    (located : ∀ c ∈ info, CharSet.mem Rules.info_char c = true)
    (located' : ∀ c ∈ info', CharSet.mem Rules.info_char c = true)
    (same : lineText type lineno info name width sign =
      lineText type' lineno' info' name' width' sign') :
    type = type' ∧ lineno = lineno' ∧ info = info' ∧ name = name' ∧
      max width 0 = max width' 0 ∧ sign = sign' := by
  have numbers (width : Int) (sign : Bool) (lineno : Int) :
      (widthField width ++ signField sign ++ lineField lineno).head? = some '<' := by
    rw [widthField]
    split
    · rfl
    · cases sign <;> rfl
  have fields (info : Text) (width : Int) (sign : Bool) (lineno : Int) :
      ∀ c ∈ (infoField info ++ (widthField width ++ signField sign ++ lineField lineno)).head?,
        PNode.name_char.mem c = false := by
    intro c begins
    cases info with
    | nil =>
        obtain rfl := Option.some.inj ((numbers width sign lineno).symm.trans begins)
        decide
    | cons c info =>
        obtain rfl := Option.some.inj begins
        decide
  simp only [lineText, List.append_assoc] at same
  obtain ⟨types, rest⟩ := printInt_unique ']' (by decide)
    (List.append_cancel_left same)
  have rest := (List.cons.inj rest).2
  simp only [← List.append_assoc (widthField _)] at rest
  obtain ⟨names, rest⟩ := nameField_unique named named' (fields _ _ _ _) (fields _ _ _ _) rest
  obtain ⟨infos, rest⟩ := infoField_unique located located'
    (by rw [numbers]; decide) (by rw [numbers]; decide) rest
  obtain ⟨widths, signs, lines⟩ := numbers_unique rest
  exact ⟨value_injective (by exact_mod_cast types), lines, infos, names, widths, signs⟩

theorem widthField_max (width : Int) : widthField (max width 0) = widthField width := by
  rw [widthField, widthField]
  by_cases above : width > 0
  · rw [Int.max_eq_left (Int.le_of_lt above)]
  · rw [if_neg above, if_neg (by omega)]

theorem printIndent_eq (indent : Nat) : printIndent indent = List.replicate (2 * indent) ' ' := by
  induction indent with
  | zero => rfl
  | succ indent ih =>
      rw [printIndent] at ih ⊢
      rw [List.replicate_succ, List.flatten_cons, ih]
      rfl

namespace PNode

/-- The line of an entry, after the indentation. -/
def Entry.lineText (entry : Entry) : Text :=
  FstWaveDemo.lineText entry.type entry.lineno entry.info entry.name entry.width entry.sign

/-- What holds of the entries of a tree that is dumped. -/
structure Entry.Printable (entry : Entry) : Prop where
  named : ∀ c ∈ entry.name, name_char.mem c = true
  located : ∀ c ∈ entry.info, CharSet.mem Rules.info_char c = true
  positive : 0 ≤ entry.width

/-- The line of a node at a depth. -/
def writeLine (entry : Nat × Entry) : Text := printIndent entry.1 ++ entry.2.lineText

theorem lineText_begins (entry : Entry) : ∃ rest, entry.lineText = '[' :: rest := ⟨_, rfl⟩

theorem writeLine_injective {entry other : Nat × Entry} (own : entry.2.Printable)
    (own' : other.2.Printable) (same : writeLine entry = writeLine other) : entry = other := by
  obtain ⟨depth, type, name, info, sign, lineno, width⟩ := entry
  obtain ⟨depth', type', name', info', sign', lineno', width'⟩ := other
  have clear (indent : Nat) : '[' ∉ printIndent indent := by
    rw [printIndent_eq]
    exact fun member => absurd (List.eq_of_mem_replicate member) (by decide)
  obtain ⟨blanks, rest⟩ := Outline.split_unique _ (clear depth) (clear depth') same
  rw [printIndent_eq, printIndent_eq] at blanks
  have depths : 2 * depth = 2 * depth' := by simpa using congrArg List.length blanks
  obtain rfl : depth = depth' := by omega
  obtain ⟨rfl, rfl, rfl, rfl, widths, rfl⟩ := lineText_unique own.named own'.named own.located
    own'.located (congrArg (List.cons '[') rest)
  have positive : 0 ≤ width := own.positive
  have positive' : 0 ≤ width' := own'.positive
  have widths : max width 0 = max width' 0 := widths
  rw [Int.max_eq_left positive, Int.max_eq_left positive'] at widths
  rw [widths]

/-- A line has no newline inside. -/
theorem writeLine_flat {entry : Nat × Entry} (own : entry.2.Printable) :
    '\n' ∉ writeLine entry := by
  intro member
  have number {value : Int} (inside : '\n' ∈ printInt value) : False :=
    absurd (printInt_char inside) (by decide)
  rw [writeLine, printIndent_eq, Entry.lineText, FstWaveDemo.lineText] at member
  simp only [List.mem_append, or_assoc] at member
  rcases member with inside | inside | inside | inside | inside | inside | inside | inside | inside
  · exact absurd (List.eq_of_mem_replicate inside) (by decide)
  · exact absurd inside (by decide)
  · exact number inside
  · exact absurd inside (by decide)
  · rw [nameField] at inside
    split at inside
    · exact nomatch inside
    · rcases List.mem_append.mp inside with inside | inside
      · exact absurd (own.named _ inside) (by decide)
      · exact absurd inside (by decide)
  · rw [infoField] at inside
    split at inside
    · exact nomatch inside
    · simp only [List.mem_append] at inside
      rcases inside with (inside | inside) | inside
      · exact absurd inside (by decide)
      · exact absurd (own.located _ inside) (by decide)
      · exact absurd inside (by decide)
  · rw [widthField] at inside
    split at inside
    · simp only [List.mem_append] at inside
      rcases inside with (inside | inside) | inside
      · exact absurd inside (by decide)
      · exact number inside
      · exact absurd inside (by decide)
    · exact nomatch inside
  · rw [signField] at inside
    split at inside
    · exact absurd inside (by decide)
    · exact nomatch inside
  · rw [lineField_eq] at inside
    rcases List.mem_append.mp inside with inside | inside
    · exact absurd inside (by decide)
    · rcases List.mem_append.mp inside with inside | inside
      · exact number inside
      · exact absurd inside (by decide)

mutual

/-- The dump of a tree is its outline, a line for each entry. -/
theorem printAST_eq {p : PNode} (own : Dumpable p) (indent : Nat) :
    ∃ tree, p.tree = some tree ∧
      p.printAST indent = some (unlines ((tree.outline indent).map writeLine)) ∧
      ∀ entry ∈ tree.outline indent, entry.2.Printable := by
  cases p with
  | node type lineno info name extraInfo width sign child =>
      cases own with
      | node named located children =>
          obtain ⟨printed, printable⟩ := printChildren_eq children (indent + 1)
          refine ⟨_, rfl, ?_, ?_⟩
          · rw [printAST, printed, Rose.outline, List.map_cons, unlines, unlines, List.flatMap_cons,
              writeLine, Entry.lineText, FstWaveDemo.lineText, FstWaveDemo.lineText, widthField_max]
            rfl
          · rw [Rose.outline]
            exact List.forall_mem_cons.mpr ⟨⟨named, located, Int.le_max_right width 0⟩, printable⟩
  | null => exact nomatch own
  | undefined => exact nomatch own

/-- The dump of some children, without the null pointers. -/
theorem printChildren_eq {child : List PNode} (own : ∀ p ∈ child, p ≠ null → Dumpable p)
    (indent : Nat) :
    printChildren indent child =
        some (unlines ((Rose.outlineAll indent (trees child)).map writeLine)) ∧
      ∀ entry ∈ Rose.outlineAll indent (trees child), entry.2.Printable := by
  cases child with
  | nil => exact ⟨rfl, fun _ member => nomatch member⟩
  | cons p rest =>
      obtain ⟨printed, printable⟩ :=
        printChildren_eq (fun q member => own q (List.mem_cons_of_mem _ member)) indent
      by_cases empty : p = null
      · subst empty
        exact ⟨printed, printable⟩
      · obtain ⟨tree, found, first, printable'⟩ :=
          printAST_eq (own p List.mem_cons_self empty) indent
        have looped : printChildren indent (p :: rest) = (printAST indent p).bind fun text =>
            (printChildren indent rest).map fun others => text ++ others := by
          rw [printChildren]
          exact empty
        have listed : trees (p :: rest) = tree :: trees rest := by
          rw [trees, found]
          rfl
        rw [looped, first, printed, listed, Rose.outlineAll]
        refine ⟨?_, ?_⟩
        · rw [List.map_append, unlines, unlines, unlines, List.flatMap_append]
          rfl
        · intro entry member
          rcases List.mem_append.mp member with member | member
          · exact printable' entry member
          · exact printable entry member

end

/-- Entries with the same lines are the same. -/
theorem entries_unique {entries others : List (Nat × Entry)}
    (own : ∀ entry ∈ entries, entry.2.Printable) (own' : ∀ entry ∈ others, entry.2.Printable)
    (same : entries.map writeLine = others.map writeLine) : entries = others := by
  induction entries generalizing others with
  | nil => exact (List.map_eq_nil_iff.mp same.symm).symm
  | cons entry entries ih =>
      cases others with
      | nil => exact nomatch same
      | cons other others =>
          obtain ⟨line, rest⟩ := List.cons.inj same
          rw [writeLine_injective (own entry List.mem_cons_self)
              (own' other List.mem_cons_self) line,
            ih (fun _ member => own _ (List.mem_cons_of_mem _ member))
              (fun _ member => own' _ (List.mem_cons_of_mem _ member)) rest]

/-- The dump of a tree has a line for each node, in pre-order and with two blanks for
every level, and it determines the tree. -/
theorem printAST_determines {p : PNode} (own : Dumpable p) :
    ∃ tree text lines, p.tree = some tree ∧ p.printAST 0 = some text ∧ text = unlines lines ∧
      List.Forall₂ (fun (entry : Nat × Entry) line => '\n' ∉ line ∧
        ∃ rest, line = List.replicate (2 * entry.1) ' ' ++ '[' :: rest) (tree.outline 0) lines ∧
      ∀ q, Dumpable q → q.printAST 0 = some text → q.tree = some tree := by
  obtain ⟨tree, found, printed, printable⟩ := printAST_eq own 0
  refine ⟨tree, _, _, found, printed, rfl, ?_, ?_⟩
  · refine List.forall₂_map_right_iff.mpr (List.forall₂_same.mpr fun entry member => ?_)
    refine ⟨writeLine_flat (printable entry member), ?_⟩
    obtain ⟨rest, begins⟩ := lineText_begins entry.2
    exact ⟨rest, by rw [writeLine, printIndent_eq, begins]⟩
  · intro q own' printed'
    obtain ⟨tree', found', printed'', printable'⟩ := printAST_eq own' 0
    have texts := Option.some.inj (printed''.symm.trans printed')
    have clear {entries : List (Nat × Entry)} (own : ∀ entry ∈ entries, entry.2.Printable) :
        ∀ line ∈ entries.map writeLine, '\n' ∉ line := by
      intro line member
      obtain ⟨entry, listed, rfl⟩ := List.mem_map.mp member
      exact writeLine_flat (own entry listed)
    have lines := Outline.lines_unique (clear printable') (clear printable) texts
    have outlines := entries_unique printable' printable lines
    rw [found', Outline.outline_injective outlines]

/-- A module with a null pointer and a connection below it. -/
def moduleSample : PNode :=
  .node .P_MOD 2 "A.scala 1:2".toList "M".toList [] 0 false
    [.null, .node .P_CONNECT 4 [] [] [] 8 true []]

/-- The sample is told from every other tree. -/
theorem moduleSample_determined : ∃ tree text lines, moduleSample.tree = some tree ∧
    moduleSample.printAST 0 = some text ∧ text = unlines lines ∧
      List.Forall₂ (fun (entry : Nat × Entry) line => '\n' ∉ line ∧
        ∃ rest, line = List.replicate (2 * entry.1) ' ' ++ '[' :: rest) (tree.outline 0) lines ∧
      ∀ q, Dumpable q → q.printAST 0 = some text → q.tree = some tree := by
  refine printAST_determines (.node (List.all_eq_true.mp (by decide))
    (List.all_eq_true.mp (by decide)) fun p member some => ?_)
  rcases List.mem_cons.mp member with rfl | member
  · exact absurd rfl some
  · obtain rfl := List.mem_singleton.mp member
    exact .node (List.all_eq_true.mp rfl) (List.all_eq_true.mp rfl) fun p member => nomatch member

end PNode

end FstWaveDemo
